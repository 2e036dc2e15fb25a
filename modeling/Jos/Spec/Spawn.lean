import Jos.Spec.Cow
import Jos.Spec.Fd
import Jos.Spec.Fs
import Jos.Spec.Icode

/-!
# Spawning a program

`spawn`, `init_stack` and `map_segment` of `lib/spawn.c`, with the calls of `lib/fd.c` and the system calls
that they make. Of the caller there are its descriptors, its entry for `UTEMP`, and the stores that go
anywhere else; of its child, the pages. The child does not run before `spawn` is through, and nobody else
has a hold on it.

Which calls fail is an input. So is what a read gets: any number of the bytes that are there.
-/

namespace Jos.Spawn

open Lib

open Fd (Pte)

open Fs (CString)

/-- An error code. -/
abbrev Code := {r : ℤ // r < 0}

def eNotExec : ℤ := 15

/-! ## The caller and its child -/

/-- A file as it is read: its size, and the byte at each position. In front of it is what lies in front of
its first block. -/
structure File where
  size : ℕ
  byte : ℤ → Byte

/-- An open file, with `fd_offset`. -/
structure OpenFile where
  file : File
  offset : BitVec 32

/-- The entries of an environment, for the numbers of its pages. -/
abbrev Space := ℕ → Option Pte

/-- The caller and its child. Pages from `fresh` on are free; `stray` counts the bytes that were stored
anywhere but at `UTEMP`. -/
structure World where
  mem : ℕ → Bytes
  fresh : ℕ
  utemp : Option Pte
  fds : Fin 32 → Option OpenFile
  child : Option Space
  stray : ℕ
  utemp_lt : ∀ pte ∈ utemp, pte.page < fresh
  child_lt : ∀ s ∈ child, ∀ n, ∀ pte ∈ s n, pte.page < fresh

/-- `PTE_P | PTE_U | PTE_W`. -/
def rwPerm : BitVec 32 := pteP ||| pteU ||| pteW

/-! ## System calls -/

namespace World

/-- `page_alloc(ALLOC_ZERO)`. -/
def pageAlloc (w : World) : World where
  mem := Function.update w.mem w.fresh ⟨fun _ => 0⟩
  fresh := w.fresh + 1
  utemp := w.utemp
  fds := w.fds
  child := w.child
  stray := w.stray
  utemp_lt pte h := (w.utemp_lt pte h).trans (Nat.lt_succ_self _)
  child_lt s hs n pte h := (w.child_lt s hs n pte h).trans (Nat.lt_succ_self _)

/-- Another entry for `UTEMP`. -/
def setUtemp (w : World) (pte : Option Pte) (h : ∀ p ∈ pte, p.page < w.fresh) : World where
  mem := w.mem
  fresh := w.fresh
  utemp := pte
  fds := w.fds
  child := w.child
  stray := w.stray
  utemp_lt := h
  child_lt := w.child_lt

/-- Another entry for page `n` of the child. -/
def setEntry (w : World) (s : Space) (hs : s ∈ w.child) (n : ℕ) (pte : Pte) (h : pte.page < w.fresh) : World where
  mem := w.mem
  fresh := w.fresh
  utemp := w.utemp
  fds := w.fds
  child := some (Function.update s n (some pte))
  stray := w.stray
  utemp_lt := w.utemp_lt
  child_lt t ht m p hp := by
    obtain rfl := Option.mem_some_iff.1 ht
    rw [Function.update_apply] at hp
    split at hp
    · obtain rfl := Option.mem_some_iff.1 hp
      exact h
    · exact w.child_lt s hs m p hp

/-- Another child, or none. -/
def setChild (w : World) (child : Option Space) (h : ∀ s ∈ child, ∀ n, s n = none) : World where
  mem := w.mem
  fresh := w.fresh
  utemp := w.utemp
  fds := w.fds
  child := child
  stray := w.stray
  utemp_lt := w.utemp_lt
  child_lt s hs n pte hp := by
    rw [h s hs n] at hp
    cases hp

/-- The child that `sys_exofork` makes, without pages. -/
def exofork (w : World) : World := w.setChild (some fun _ => none) fun _ hs _ => by rw [← Option.mem_some_iff.1 hs]

/-- `sys_env_destroy(child)`. -/
def destroyChild (w : World) : World := w.setChild none nofun

def setFds (w : World) (fds : Fin 32 → Option OpenFile) : World := { w with fds := fds }

/-- Other contents of a page. -/
def setPage (w : World) (page : ℕ) (d : Bytes) : World := { w with mem := Function.update w.mem page d }

/-- One more byte that went anywhere but to `UTEMP`. -/
def addStray (w : World) : World := { w with stray := w.stray + 1 }

end World

/-- The number of the page of `va`. -/
def pageNo (va : VA) : ℕ := va.toNat / 4096

/-- The page just allocated is below the next fresh one. -/
theorem fresh_lt (w : World) : ∀ pte ∈ some (⟨w.fresh, rwPerm⟩ : Pte), pte.page < w.pageAlloc.fresh :=
  fun _ h => Option.mem_some_iff.1 h ▸ Nat.lt_succ_self _

/-- `sys_page_alloc(0, UTEMP, PTE_P | PTE_U | PTE_W)`, if there is memory. -/
def sysPageAllocTemp (w : World) (mem : Bool) : ℤ × World :=
  if mem then
    (0, w.pageAlloc.setUtemp (some ⟨w.fresh, rwPerm⟩) (fresh_lt w))
  else (-eNoMem, w)

/-- `sys_page_alloc(child, va, perm)`. -/
def sysPageAllocChild (w : World) (va : VA) (perm : BitVec 32) (mem : Bool) : ℤ × World :=
  if va ≥ utop ∨ va &&& 0xFFF ≠ 0 then (-eInval, w)
  else if perm ||| pteSyscall ≠ pteSyscall then (-eInval, w)
  else match h : w.child with
    | none => (-eBadEnv, w)
    | some s =>
      if mem then (0, w.pageAlloc.setEntry s h (pageNo va) ⟨w.fresh, perm ||| pteP⟩ (Nat.lt_succ_self _))
      else (-eNoMem, w)

/-- `sys_page_map(0, UTEMP, child, va, perm)`, if there is memory for page tables. -/
def sysPageMapTemp (w : World) (va : VA) (perm : BitVec 32) (mem : Bool) : ℤ × World :=
  match h : w.child with
  | none => (-eBadEnv, w)
  | some s =>
    if va ≥ utop ∨ va &&& 0xFFF ≠ 0 then (-eInval, w)
    else if perm ||| pteSyscall ≠ pteSyscall then (-eInval, w)
    else match ht : w.utemp with
      | none => (-eInval, w)
      | some pte =>
        if !flag pte.perm pteW && flag perm pteW then (-eInval, w)
        else if mem then (0, w.setEntry s h (pageNo va) ⟨pte.page, perm ||| pteP⟩ (w.utemp_lt pte ht))
        else (-eNoMem, w)

/-- `sys_page_unmap(0, UTEMP)`, which returns 0. -/
def sysPageUnmapTemp (w : World) : World := w.setUtemp none nofun

/-! ## Stores -/

/-- A store of one byte by the caller, `none` if it faults. `writable` says where else than at `UTEMP` it
does not; what such a store changes is not followed any further. -/
def storeByte (writable : VA → Bool) (w : World) (a : VA) (b : Byte) : Option World :=
  if a - Jos.utemp < pgsize then
    match w.utemp with
    | none => none
    | some pte =>
      if flag pte.perm pteU && flag pte.perm pteW then
        some (w.setPage pte.page ((w.mem pte.page).write (a - Jos.utemp).toNat [b]))
      else none
  else if writable a then some w.addStray
  else none

/-- Stores to one address after the other. -/
def store (writable : VA → Bool) : World → VA → List Byte → Option World
  | w, _, [] => some w
  | w, a, b :: bs => do
    let w ← storeByte writable w a b
    store writable w (a + 1) bs

/-- The bytes of a word. -/
def word64 (x : BitVec 64) : List Byte := Bytes.word32 (x.setWidth 32) ++ Bytes.word32 ((x >>> 32).setWidth 32)

/-! ## `init_stack` -/

/-- `UTEMP2USTACK(addr)`. -/
def utemp2ustack (addr : VA) : VA := addr + (ustacktop - pgsize) - Jos.utemp

/-- `string_size`. -/
def stringSize (argv : List CString) : BitVec 64 :=
  argv.foldl (fun size s => size + (BitVec.ofNat 64 s.chars.length + 1)) 0

/-- `argc`, which is an `int`. -/
def argc (argv : List CString) : BitVec 32 := BitVec.ofNat 32 argv.length

/-- `string_store`. -/
def stringStore (argv : List CString) : VA := Jos.utemp + pgsize - stringSize argv

/-- `argv_store`; `8 * (argc + 1)` is an `int`. -/
def argvStore (argv : List CString) : VA := roundDown (stringStore argv) 8 - (8 * (argc argv + 1)).signExtend 64

/-- The test whether all fits. -/
def Refuses (argv : List CString) : Prop := argvStore argv - 16 < Jos.utemp

instance (argv : List CString) : Decidable (Refuses argv) := inferInstanceAs (Decidable (_ < _))

/-- The loop, from argument `i` on. -/
def stackLoop (writable : VA → Bool) (argvStore : VA) : ℕ → List CString → VA → World → Option (VA × World)
  | _, [], stringStore, w => some (stringStore, w)
  | i, s :: argv, stringStore, w => do
    let w ← store writable w (argvStore + BitVec.ofNat 64 (8 * i)) (word64 (utemp2ustack stringStore))
    -- `strcpy(string_store, argv[i])`
    let w ← store writable w stringStore (s.chars ++ [0])
    stackLoop writable argvStore (i + 1) argv (stringStore + (BitVec.ofNat 64 s.chars.length + 1)) w

/-- Whether there is memory for `sys_page_alloc` and for `sys_page_map`. -/
structure StackCalls where
  alloc : Bool
  map : Bool

/-- The part of `init_stack` that fills the page, `none` if it faults or its assertion fails. -/
def fillStack (writable : VA → Bool) (argv : List CString) (w : World) : Option World := do
  let (stringStore, w) ← stackLoop writable (argvStore argv) 0 argv (stringStore argv) w
  let w ← store writable w (argvStore argv + 8 * (argc argv).signExtend 64) (word64 0)
  if stringStore ≠ Jos.utemp + pgsize then none
  else do
    let w ← store writable w (argvStore argv - 8) (word64 (utemp2ustack (argvStore argv)))
    store writable w (argvStore argv - 16) (word64 ((argc argv).signExtend 64))

/-- `init_stack(child, argv, init_rsp)`, with `*init_rsp`. It is `none` if it faults or panics. With 2^31
arguments `argc` overflows, and `argv[argc]` is in front of the array. -/
def initStack (writable : VA → Bool) (argv : List CString) (o : StackCalls) (initRsp : VA) (w : World) :
    Option (ℤ × VA × World) :=
  if argv.length ≥ 2 ^ 31 then none
  else if Refuses argv then some (-eNoMem, initRsp, w)
  else
    let (r, w) := sysPageAllocTemp w o.alloc
    if r < 0 then some (r, initRsp, w)
    else do
      let w ← fillStack writable argv w
      let rsp := utemp2ustack (argvStore argv - 16)
      let (r, w) := sysPageMapTemp w (ustacktop - pgsize) rwPerm o.map
      if r < 0 then some (r, rsp, sysPageUnmapTemp w) else some (0, rsp, sysPageUnmapTemp w)

/-! ## Files -/

/-- `fd_alloc(&fd)`. -/
def fdAlloc (w : World) : Option (Fin 32) := (List.finRange 32).find? fun i => (w.fds i).isNone

/-- `open(path, O_RDONLY)`, where `files` is what the file server has. -/
def openFile (files : CString → Except Code File) (path : CString) (w : World) : Except ℤ (Fin 32) × World :=
  if path.chars.length ≥ 1024 then (.error (-eBadPath), w)
  else match fdAlloc w with
    | none => (.error (-eMaxOpen), w)
    | some fd =>
      match files path with
      -- `fd_close(fd, 0)` finds nothing at `fd`
      | .error r => (.error r, w)
      | .ok file => (.ok fd, w.setFds (Function.update w.fds fd (some ⟨file, 0⟩)))

/-- `close(fdnum)`. -/
def close (w : World) (fd : Fin 32) : World := w.setFds (Function.update w.fds fd none)

/-- `seek(fdnum, offset)`. -/
def seek (w : World) (fd : Fin 32) (offset : BitVec 32) : ℤ × World :=
  match w.fds fd with
  | none => (-eInval, w)
  | some o => (0, w.setFds (Function.update w.fds fd (some { o with offset := offset })))

/-- How a read ends: it fails, or it may get so many bytes besides the first. -/
inductive Reply
  | fail (r : Code)
  | upTo (most : ℕ)

/-- The bytes of a file for a read of `n` bytes at `pos`. -/
def File.bytes (f : File) (pos : ℤ) (n : ℕ) : List Byte :=
  (List.range (min n (f.size - pos).toNat)).map fun (k : ℕ) => f.byte (pos + k)

/-- `read(fdnum, buf, n)`, with the bytes put into `buf`. A block in front of a file is none of its blocks. -/
def read (w : World) (fd : Fin 32) (n : ℕ) (reply : Reply) : ℤ × List Byte × World :=
  match w.fds fd with
  | none => (-eInval, [], w)
  | some o =>
    match reply with
    | .fail r => (r, [], w)
    | .upTo most =>
      if o.offset.toInt ≤ -4096 then (-eInval, [], w)
      else
        let bs := o.file.bytes o.offset.toInt (min n (min 4096 (most + 1)))
        (bs.length, bs,
          w.setFds (Function.update w.fds fd (some { o with offset := o.offset + BitVec.ofNat 32 bs.length })))

/-- The loop of `readn`, for at most the given number of turns, with what is left to read. -/
def readnLoop (fd : Fin 32) (replies : ℕ → Reply) : ℕ → ℕ → ℕ → World → ℤ × List Byte × World
  | 0, _, _, w => (0, [], w)
  | turns + 1, k, n, w =>
    if n = 0 then (0, [], w)
    else
      let (m, bs, w) := read w fd n (replies k)
      if m < 0 then (m, [], w)
      else if m = 0 then (0, [], w)
      else
        let (r, cs, w) := readnLoop fd replies turns (k + 1) (n - m.toNat) w
        (if r < 0 then r else m + r, bs ++ cs, w)

/-- `readn(fdnum, buf, n)`, with the bytes put into `buf`. A read that gets nothing ends it, so that there
are at most `n` turns. -/
def readn (w : World) (fd : Fin 32) (replies : ℕ → Reply) (n : ℕ) : ℤ × List Byte × World :=
  readnLoop fd replies n 0 n w

/-! ## `map_segment` -/

/-- What the calls for one page of a segment meet. -/
structure PageCalls where
  alloc : Bool
  replies : ℕ → Reply
  map : Bool

/-- Where `map_segment` returns. -/
inductive Stop
  /-- behind a call of `sys_page_alloc` -/
  | alloc (r : ℤ) (w : World)
  /-- behind `seek` or `readn` -/
  | read (r : ℤ) (w : World)
  /-- at its end -/
  | done (w : World)

def Stop.code : Stop → ℤ
  | alloc r _ => r
  | read r _ => r
  | done _ => 0

def Stop.world : Stop → World
  | alloc _ w => w
  | read _ w => w
  | done w => w

/-- The bytes that `readn` puts at `UTEMP`. -/
def fillTemp (w : World) (bs : List Byte) : World :=
  match w.utemp with
  | none => w
  | some pte => w.setPage pte.page ((w.mem pte.page).write 0 bs)

/-- The part of the loop of `map_segment` that loads a page from the file, as far as to `sys_page_map`. -/
def readPage (fd : Fin 32) (offset : BitVec 32) (n : ℕ) (o : PageCalls) (w : World) : Stop :=
  let (r, w) := sysPageAllocTemp w o.alloc
  if r < 0 then .alloc r w
  else
    let (r, w) := seek w fd offset
    if r < 0 then .read r w
    else
      let (r, bs, w) := readn w fd o.replies n
      if r < 0 then .read r (fillTemp w bs) else .done (fillTemp w bs)

/-- The loop of `map_segment`, at `i`, an `int`; the calls for page `k` are the next. It is `none` if
`sys_page_map` fails, which is a panic, or if all the turns are used up: there are as many as `i` has
values, so that it begins again. -/
def mapSegmentLoop (va : VA) (memsz : BitVec 64) (fd : Fin 32) (filesz : BitVec 64) (fileoffset perm : BitVec 32)
    (o : ℕ → PageCalls) : ℕ → BitVec 32 → ℕ → World → Option Stop
  | 0, _, _, _ => none
  | turns + 1, i, k, w =>
    if i.signExtend 64 < memsz then
      if i.signExtend 64 ≥ filesz then
        let (r, w) := sysPageAllocChild w (va + i.signExtend 64) perm (o k).alloc
        if r < 0 then some (.alloc r w)
        else mapSegmentLoop va memsz fd filesz fileoffset perm o turns (i + 4096) (k + 1) w
      else
        match readPage fd (fileoffset + i) (min 4096 (filesz - i.signExtend 64).toNat) (o k) w with
        | .done w =>
          let (r, w) := sysPageMapTemp w (va + i.signExtend 64) perm (o k).map
          if r < 0 then none
          else mapSegmentLoop va memsz fd filesz fileoffset perm o turns (i + 4096) (k + 1) (sysPageUnmapTemp w)
        | stop => some stop
    else some (.done w)

/-- `map_segment(child, va, memsz, fd, filesz, fileoffset, perm)`, up to where it returns. -/
def mapSegmentStop (w : World) (va : VA) (memsz : BitVec 64) (fd : Fin 32) (filesz : BitVec 64)
    (fileoffset perm : BitVec 32) (o : ℕ → PageCalls) : Option Stop :=
  -- if `i` is 0 this changes nothing
  let i := pgoff va
  mapSegmentLoop (va - i) (memsz + i) fd (filesz + i) (fileoffset - i.setWidth 32) perm o (2 ^ 20 + 1) 0 0 w

/-- `map_segment(child, va, memsz, fd, filesz, fileoffset, perm)`. -/
def mapSegment (w : World) (va : VA) (memsz : BitVec 64) (fd : Fin 32) (filesz : BitVec 64)
    (fileoffset perm : BitVec 32) (o : ℕ → PageCalls) : Option (ℤ × World) :=
  (mapSegmentStop w va memsz fd filesz fileoffset perm o).map fun s => (s.code, s.world)

/-! ## `spawn` -/

/-- `ELF_MAGIC`. -/
def elfMagic : BitVec 32 := 0x464C457F

/-- `perm`, for the `p_flags` of a program header: `ELF_PROG_FLAG_WRITE` is 2. -/
def segmentPerm (pFlags : BitVec 32) : BitVec 32 :=
  if flag pFlags 2 then pteP ||| pteU ||| pteW else pteP ||| pteU

/-- The program headers, with their `p_flags`. -/
def programHeaders (elf : Bytes) : List (Icode.Proghdr × BitVec 32) :=
  (List.range (Icode.ePhnum elf)).map fun i =>
    (Icode.proghdr elf (Icode.ePhoff elf + 56 * i), elf.load32 (Icode.ePhoff elf + 56 * i + 4))

/-- The loop over the program headers. -/
def loadSegments (fd : Fin 32) (o : ℕ → ℕ → PageCalls) :
    ℕ → List (Icode.Proghdr × BitVec 32) → World → Option Stop
  | _, [], w => some (.done w)
  | i, (ph, flags) :: phs, w =>
    if ph.pType ≠ Icode.elfProgLoad then loadSegments fd o (i + 1) phs w
    else
      match mapSegmentStop w ph.pVa ph.pMemsz fd ph.pFilesz (ph.pOffset.setWidth 32) (segmentPerm flags) (o i) with
      | none => none
      | some (.done w) => loadSegments fd o (i + 1) phs w
      | some stop => some stop

/-- The result of `sys_env_set_trapframe`: the kernel has no such call. -/
def sysEnvSetTrapframe : ℤ := -eInval

/-- What the calls of `spawn` meet: the reads of the header, a failure of `sys_exofork`, and the calls for
the stack and for the pages of each program header. -/
structure Calls where
  replies : ℕ → Reply
  exofork : Option Code
  stack : StackCalls
  segments : ℕ → ℕ → PageCalls

/-- `spawn(prog, argv)`, `none` if it faults or panics. `behind` is what is in memory from `elf_buf` on,
`child` the result of `sys_exofork`, `rsp` the stack pointer that the child gets from it. -/
def spawn (files : CString → Except Code File) (writable : VA → Bool) (behind : Bytes) (prog : CString)
    (argv : List CString) (child : ℤ) (rsp : VA) (o : Calls) (w : World) : Option (ℤ × World) :=
  match openFile files prog w with
  | (.error r, w) => some (r, w)
  | (.ok fd, w) =>
    let (n, bs, w) := readn w fd o.replies 512
    let elf := behind.write 0 bs
    if n ≠ 512 ∨ elf.load32 0 ≠ elfMagic then some (-eNotExec, close w fd)
    else
      match o.exofork with
      | some r => some (r, w)
      | none => do
        let (r, _, w) ← initStack writable argv o.stack rsp w.exofork
        if r < 0 then some (r, w)
        else do
          let stop ← loadSegments fd o.segments 0 (programHeaders elf) w
          match stop with
          | .done w =>
            let w := close w fd
            -- `copy_shared_pages` does nothing; `sys_env_set_status` would be next
            if sysEnvSetTrapframe < 0 then none else some (child, w)
          | stop => some (stop.code, close stop.world.destroyChild fd)

end Jos.Spawn
