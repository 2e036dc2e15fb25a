import Mathlib

/-!
# The memory map

`multiboot_read` of `kern/pmap.c`, which sorts the entries of the memory map by their base address,
merges entries that touch, and sums up the memory that is usable. A pointer to entry `i` of `mmap_base`
is `Ptr.entry i`. Every access to `mmap_list` gives `none` outside of the array, and so does an access
through a pointer that is null or was never assigned.
-/

namespace Jos

/-- The fields of `memory_map_t` that are used. -/
structure MemoryMap where
  baseAddrLow : BitVec 32
  baseAddrHigh : BitVec 32
  lengthLow : BitVec 32
  lengthHigh : BitVec 32
  type : BitVec 32
  deriving DecidableEq

/-- `APPEND_HILO`. -/
def appendHilo (hi lo : BitVec 32) : BitVec 64 := (hi.setWidth 64 <<< 32) + lo.setWidth 64

def MemoryMap.addr (e : MemoryMap) : BitVec 64 := appendHilo e.baseAddrHigh e.baseAddrLow
def MemoryMap.len (e : MemoryMap) : BitVec 64 := appendHilo e.lengthHigh e.lengthLow

/-- `MB_TYPE_USABLE`, `MB_TYPE_RESERVED`, `MB_TYPE_ACPI_RECLM`, `MB_TYPE_ACPI_NVS` and `MB_TYPE_BAD`. -/
def mbTypeUsable : BitVec 32 := 1
def mbTypeReserved : BitVec 32 := 2
def mbTypeAcpiReclm : BitVec 32 := 3
def mbTypeAcpiNvs : BitVec 32 := 4
def mbTypeBad : BitVec 32 := 5

/-- `restrictive_type(t1, t2)`. -/
def restrictiveType (t1 t2 : BitVec 32) : BitVec 32 :=
  if t1 = mbTypeBad ∨ t2 = mbTypeBad then mbTypeBad
  else if t1 = mbTypeAcpiNvs ∨ t2 = mbTypeAcpiNvs then mbTypeAcpiNvs
  else if t1 = mbTypeReserved ∨ t2 = mbTypeReserved then mbTypeReserved
  else if t1 = mbTypeAcpiReclm ∨ t2 = mbTypeAcpiReclm then mbTypeAcpiReclm
  else mbTypeUsable

/-- What a place of `mmap_list` holds. -/
inductive Ptr
  | junk
  | null
  | entry (i : ℕ)
  deriving DecidableEq

/-- The entries at `mmap_base`, and `mmap_list`. -/
structure Multiboot where
  entries : ℕ → MemoryMap
  list : List Ptr

/-- A store to `mmap_list`. -/
def storePtr (l : List Ptr) (i : ℕ) (p : Ptr) : Option (List Ptr) :=
  if i < l.length then some (l.set i p) else none

/-- The entry that `p` points to. -/
def deref : Ptr → Option ℕ
  | .entry i => some i
  | _ => none

/-! ## The first loop -/

/-- `while(last != j)`, for `last = j + n`. -/
def shiftUp (l : List Ptr) (j : ℕ) : ℕ → Option (List Ptr)
  | 0 => some l
  | n + 1 => do shiftUp (← storePtr l (j + n + 1) (← l[j + n]?)) j n

/-- `for(;j<i;j++)`, for `i = j + n`: the list, and `j` after the loop. -/
def findSlot (s : Multiboot) (addr : BitVec 64) (j : ℕ) : ℕ → Option (List Ptr × ℕ)
  | 0 => some (s.list, j)
  | n + 1 => do
    let this ← deref (← s.list[j]?)
    if (s.entries this).addr > addr then do
      some (← shiftUp s.list j (n + 2), j)
    else findSlot s addr (j + 1) n

/-- One turn. -/
def insertEntry (s : Multiboot) (i : ℕ) : Option Multiboot := do
  let mmap := s.entries i
  let addr := mmap.addr
  let type := if mmap.type > 5 ∨ mmap.type < 1 then mbTypeReserved else mmap.type
  let s : Multiboot := ⟨Function.update s.entries i { mmap with type := type }, s.list⟩
  let (list, j) ← findSlot s addr 0 i
  some { s with list := ← storePtr list j (.entry i) }

/-- The loop, for `n` entries. -/
def insertEntries (entries : ℕ → MemoryMap) (n : ℕ) : Option Multiboot :=
  (List.range n).foldlM insertEntry ⟨entries, List.replicate n .junk⟩

/-! ## The second loop -/

/-- One turn. -/
def mergeEntry (s : Multiboot) (i : ℕ) : Option Multiboot := do
  let prev ← deref (← s.list[i - 1]?)
  let this ← deref (← s.list[i]?)
  let p := s.entries prev
  let t := s.entries this
  if p.addr + p.len = t.addr ∧ p.type = t.type then
    some ⟨Function.update s.entries this
      ⟨p.baseAddrLow, p.baseAddrHigh, (p.len + t.len).setWidth 32, ((p.len + t.len) >>> 32).setWidth 32, t.type⟩,
      ← storePtr s.list (i - 1) .null⟩
  else if p.addr + p.len > t.addr then
    let type := restrictiveType p.type t.type
    let entries := Function.update s.entries prev { p with type := type }
    some ⟨Function.update entries this { (entries this) with type := type }, s.list⟩
  else some s

/-! ## The third loop -/

/-- One turn, from `*basemem` and `*extmem`. -/
def sumEntry (s : Multiboot) (mem : BitVec 64 × BitVec 64) (i : ℕ) : Option (BitVec 64 × BitVec 64) := do
  match ← s.list[i]? with
  | .null => some mem
  | p =>
    let e := s.entries (← deref p)
    if e.type = mbTypeUsable ∨ e.type = mbTypeAcpiReclm then
      if e.baseAddrLow < 0x100000 ∧ e.baseAddrHigh = 0 then some (mem.1 + e.len, mem.2)
      else some (mem.1, mem.2 + e.len)
    else some mem

/-- `multiboot_read(mbinfo, &basemem, &extmem)`, for a memory map of `n` entries. -/
def multibootRead (entries : ℕ → MemoryMap) (n : ℕ) : Option (BitVec 64 × BitVec 64) := do
  let s ← insertEntries entries n
  let s ← (List.range' 1 (n - 1)).foldlM mergeEntry s
  (List.range n).foldlM (sumEntry s) (0, 0)

end Jos
