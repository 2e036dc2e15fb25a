import Jos.Lib.Bytes

/-!
# The debug sections of the kernel

`read_section_headers`, `readseg` and `readsect` of `kern/elf_rw.c`, which load the section headers
of the kernel and its debug sections from the disk to the memory after the kernel. Addresses are
numbers below 2^64. Every function returns `none` where an assertion fails, where a loop does not
end, and where an access leaves the table `secthdr_ptr` or follows a null pointer of it.
-/

namespace Jos.Debug

open Lib

/-! ## The disk -/

/-- `SECTSIZE`. -/
def sectsize : ℕ := 512

/-- The two drives of the controller. -/
abbrev Drives := Bool → Bytes

/-- `readsect(dst, offset)`. The controller takes 28 bits of the sector number, and bit 28 selects
the drive. -/
def readsect (drives : Drives) (mem : Bytes) (dst offset : ℕ) : Bytes :=
  mem.write dst ((drives (offset.testBit 28)).read (offset % 2 ^ 28 * 512) 512)

/-- `readseg(pa, count, offset, &kvoffset)`. -/
def readseg (drives : Drives) (mem : Bytes) (pa count offset kvoffset : ℕ) : Option (Bytes × ℕ) :=
  let endPa := (pa + count) % 2 ^ 64
  if pa % 512 ≠ 0 ∨ 2 ^ 64 - 512 < endPa then none
  else
    let n := (endPa - pa + 511) / 512
    let mem := (List.range n).foldl
      (fun mem j => readsect drives mem (pa + 512 * j) (offset / 512 + 1 + j)) mem
    if (offset % 512 + count) % 2 ^ 64 > 512 then
      some (readsect drives mem (pa + 512 * n) (offset / 512 + 1 + n), kvoffset + 512 * n + 512)
    else some (mem, kvoffset + 512 * n)

/-! ## The sections -/

/-- The fields of `struct Elf` that are read. -/
structure Elf where
  eShoff : ℕ
  eShentsize : ℕ
  eShnum : ℕ
  eShstrndx : ℕ

/-- The fields of the `Secthdr` at `p`. -/
def shName (d : Bytes) (p : ℕ) : ℕ := (d.load32 p).toNat
def shAddr (d : Bytes) (p : ℕ) : ℕ := (d.load64 (p + 16)).toNat
def shOffset (d : Bytes) (p : ℕ) : ℕ := (d.load64 (p + 24)).toNat
def shSize (d : Bytes) (p : ℕ) : ℕ := (d.load64 (p + 32)).toNat

/-- The entries of `section_info`. -/
inductive DebugSect
  | info
  | abbrevs
  | frame
  | line
  | str
  deriving DecidableEq

/-- `ds_name`: `.debug_info`, `.debug_abbrev`, `.eh_frame`, `.debug_line` and `.debug_str`. -/
def DebugSect.name : DebugSect → List Byte
  | .info => [0x2E, 0x64, 0x65, 0x62, 0x75, 0x67, 0x5F, 0x69, 0x6E, 0x66, 0x6F]
  | .abbrevs => [0x2E, 0x64, 0x65, 0x62, 0x75, 0x67, 0x5F, 0x61, 0x62, 0x62, 0x72, 0x65, 0x76]
  | .frame => [0x2E, 0x65, 0x68, 0x5F, 0x66, 0x72, 0x61, 0x6D, 0x65]
  | .line => [0x2E, 0x64, 0x65, 0x62, 0x75, 0x67, 0x5F, 0x6C, 0x69, 0x6E, 0x65]
  | .str => [0x2E, 0x64, 0x65, 0x62, 0x75, 0x67, 0x5F, 0x73, 0x74, 0x72]

/-- `Dwarf_Section`; `ds_addr` is `ds_data`. -/
structure DwarfSection where
  dsData : ℕ
  dsSize : ℕ

/-- `!strcmp(name, s)`, for a string at `p`. -/
def strEq (d : Bytes) (p : ℕ) (s : List Byte) : Bool :=
  d.read p s.length == s && d.byte (p + s.length) == 0

/-- The entry whose name the string at `p` is. -/
def debugSect (d : Bytes) (p : ℕ) : Option DebugSect :=
  [DebugSect.info, .abbrevs, .line, .frame, .str].find? fun s => strEq d p s.name

/-- The memory, `kvoffset` and `section_info`. -/
structure Load where
  mem : Bytes
  kvoffset : ℕ
  info : DebugSect → DwarfSection

/-- One turn of the second loop, for the section header at `p`. -/
def loadSection (drives : Drives) (kvbase nametab : ℕ) (σ : Load) (p : ℕ) : Option Load :=
  if σ.kvoffset % 512 ≠ 0 then none
  else
    match debugSect σ.mem (nametab + shName σ.mem p) with
    | none => some σ
    | some .frame =>
      some { σ with info := Function.update σ.info .frame ⟨shAddr σ.mem p, shSize σ.mem p⟩ }
    | some s => do
      let (mem, kvoffset) ← readseg drives σ.mem (kvbase + σ.kvoffset) (shSize σ.mem p) (shOffset σ.mem p)
        σ.kvoffset
      some ⟨mem, kvoffset, Function.update σ.info s
        ⟨kvbase + σ.kvoffset + shOffset mem p % 512, shSize mem p⟩⟩

/-- The table `secthdr_ptr` after the loop that fills it. -/
def fillTable (secthdr n : ℕ) : Option (ℕ → Option ℕ) :=
  (List.range n).foldlM
    (fun t i => if i < 20 then some (Function.update t i (some (secthdr + 64 * i))) else none) fun _ => none

/-- `secthdr_ptr[i]`, to be dereferenced. -/
def tableGet (t : ℕ → Option ℕ) (i : ℕ) : Option ℕ := if i < 20 then t i else none

/-- The address where the loader puts the headers: `ROUNDUP(to_va, SECTSIZE)`. -/
def kvBase (toVa : ℕ) : ℕ := (toVa + 511) / 512 * 512

/-- `read_section_headers(elfhdr, to_va)`, for the header of the kernel. -/
def readSectionHeaders (drives : Drives) (elf : Elf) (mem : Bytes) (toVa : ℕ) : Option Load := do
  let kvbase := kvBase toVa
  let (mem, kvoffset) ← readseg drives mem kvbase (elf.eShnum * elf.eShentsize) elf.eShoff 0
  let secthdr := kvbase + elf.eShoff % 512
  let table ← fillTable secthdr elf.eShnum
  let secName ← tableGet table elf.eShstrndx
  let temp := kvoffset
  let (mem, kvoffset) ← readseg drives mem (kvbase + kvoffset) (shSize mem secName) (shOffset mem secName)
    kvoffset
  let nametab := kvbase + temp + shOffset mem secName % 512
  (List.range elf.eShnum).foldlM
    (fun σ i => do loadSection drives kvbase nametab σ (← tableGet table i))
    ⟨mem, kvoffset, fun _ => ⟨0, 0⟩⟩

end Jos.Debug
