import Jos.Spec.Fs

/-!
# Images and runs of the file system

What it means for a disk image to be consistent, in terms of the files that are reachable
from the root directory and the slots in which they store block numbers, and the runs of
file system calls.
-/

namespace Jos.Fs

open Lib

/-! ## Slots -/

/-- Where a file stores a block number: `f_direct[i]`, entry `j` of the indirect block, or
`f_indirect`. -/
inductive Slot
  | direct (i : ℕ)
  | indirect (j : ℕ)
  | fIndirect
  deriving DecidableEq

/-- The address of a slot, if the file has it. -/
def slotAddr (d : Bytes) (f : ℕ) : Slot → Option ℕ
  | .direct i => if i < 10 then some (fDirect f i) else none
  | .indirect j =>
    if j < 1024 ∧ d.load32 (Fs.fIndirect f) ≠ 0 then
      some ((d.load32 (Fs.fIndirect f)).toNat * 4096 + 4 * j)
    else none
  | .fIndirect => some (Fs.fIndirect f)

/-- The number stored in a slot, or 0. -/
def slotBlock (d : Bytes) (f : ℕ) (s : Slot) : ℕ :=
  match slotAddr d f s with
  | none => 0
  | some p => (d.load32 p).toNat

/-- The slot of the `n`th block of a file. -/
def dataSlot (n : ℕ) : Slot := if n < 10 then .direct n else .indirect (n - 10)

/-- The number of the `n`th block of a file, or 0. -/
def fileBlock (d : Bytes) (f n : ℕ) : ℕ := slotBlock d f (dataSlot n)

/-- The byte of a file at position `x`; a block that is not there reads as zeros. -/
def fileByte (d : Bytes) (f x : ℕ) : Byte :=
  if fileBlock d f (x / 4096) = 0 then 0 else d.byte (fileBlock d f (x / 4096) * 4096 + x % 4096)

/-- The contents of a file. -/
def contents (d : Bytes) (f : ℕ) : List Byte := (List.range (fSize d f).toNat).map (fileByte d f)

/-! ## Files -/

/-- The files that are found from the root directory. -/
inductive Reachable (d : Bytes) : ℕ → Prop
  | root : Reachable d sRoot
  | entry {dir i j : ℕ} : Reachable d dir → fType d dir = ftypeDir → i < dirBlocks d dir →
      fileBlock d dir i ≠ 0 → j < 16 → nameFree d (fileBlock d dir i * 4096 + 256 * j) = false →
      Reachable d (fileBlock d dir i * 4096 + 256 * j)

/-- File `g` has the path of elements `names` from file `f`. -/
def Names (d : Bytes) : List (List Byte) → ℕ → ℕ → Prop
  | [], f, g => g = f
  | name :: rest, f, g => fType d f = ftypeDir ∧ ∃ i < dirBlocks d f, fileBlock d f i ≠ 0 ∧
      ∃ j < 16, nameEq name d (fileBlock d f i * 4096 + 256 * j) = true ∧
        Names d rest (fileBlock d f i * 4096 + 256 * j) g

/-- The entries in the blocks of directory `f` from place `m` on own no blocks. -/
def Childless (d : Bytes) (f m : ℕ) : Prop :=
  fType d f = ftypeDir → ∀ n j s, m ≤ n → fileBlock d f n ≠ 0 → j < 16 →
    slotBlock d (fileBlock d f n * 4096 + 256 * j) s = 0

/-- The reserved blocks: 0, 1 and the bitmap blocks. -/
def Reserved (d : Bytes) (b : ℕ) : Prop := b < 2 ∨ 2 ≤ b ∧ (b - 2) * 32768 < nblocks d

instance (d : Bytes) (b : ℕ) : Decidable (Reserved d b) := inferInstanceAs (Decidable (_ ∨ _))

/-- The bitmap marks block `b` in use. -/
def InUse (d : Bytes) (b : ℕ) : Prop := b < nblocks d ∧ blockIsFree d b = false

instance (d : Bytes) (b : ℕ) : Decidable (InUse d b) := inferInstanceAs (Decidable (_ ∧ _))

/-- **Exclusive ownership**: each block number stored by a reachable file is a block in use
that is not reserved, and is stored in that slot only. -/
def Exclusive (d : Bytes) : Prop :=
  ∀ f s, Reachable d f → slotBlock d f s ≠ 0 →
    InUse d (slotBlock d f s) ∧ ¬ Reserved d (slotBlock d f s) ∧
      ∀ f' s', Reachable d f' → slotBlock d f' s' = slotBlock d f s → f' = f ∧ s' = s

/-- **No leaks**: each block in use is reserved or stored by a reachable file. -/
def NoLeak (d : Bytes) : Prop :=
  ∀ b, InUse d b → Reserved d b ∨ ∃ f s, Reachable d f ∧ slotBlock d f s = b

/-- **A consistent image**: what `check_super` and `check_bitmap` ask for, exclusive
ownership and no leaks; the sizes of directories are multiples of the block size, no file
has blocks past its size, and the unused entries of directories are empty. -/
structure Consistent (d : Bytes) : Prop where
  super : nblocks d ≤ 0xC0000000 / 4096
  bitmap : ∀ b < nblocks d, Reserved d b → InUse d b
  root : fType d sRoot = ftypeDir
  size : ∀ f, Reachable d f → 0 ≤ fSize d f ∧ fSize d f ≤ maxFileSize
  dirSize : ∀ f, Reachable d f → fType d f = ftypeDir → (fSize d f).tmod 4096 = 0
  short : ∀ f n, Reachable d f → sizeBlocks (fSize d f) ≤ n → fileBlock d f n = 0
  unused : ∀ f i j, Reachable d f → fType d f = ftypeDir → fileBlock d f i ≠ 0 → j < 16 →
    nameFree d (fileBlock d f i * 4096 + 256 * j) = true →
      fSize d (fileBlock d f i * 4096 + 256 * j) = 0 ∧
        ∀ s, slotBlock d (fileBlock d f i * 4096 + 256 * j) s = 0
  exclusive : Exclusive d
  noLeak : NoLeak d

/-! ## Runs -/

/-- A call to the file system. -/
inductive Call
  | create (path : CString)
  | open (path : CString)
  | read (f count : ℕ) (offset : ℤ)
  | write (f : ℕ) (buf : List Byte) (offset : ℤ)
  | setSize (f : ℕ) (size : ℤ)
  | remove (path : CString)

/-- The disk after a call; `none` if the server panics. -/
def exec (d : Bytes) : Call → Option Bytes
  | .create path => (fileCreate d path).map (·.2)
  | .open path => (fileOpen d path).map (·.2)
  | .read f count offset => (fileRead d f count offset).map (·.2)
  | .write f buf offset => (fileWrite d f buf offset).map (·.2)
  | .setSize f size => fileSetSize d f size
  | .remove path => (fileRemove d path).map (·.2)

/-- An offset or a size between 0 and `MAXFILESIZE`. -/
def InRange (z : ℤ) : Prop := 0 ≤ z ∧ z ≤ maxFileSize

/-- Handles are used only while the file exists, with offsets and sizes in range. -/
def Allowed (d : Bytes) : Call → Prop
  | .read f count offset => Reachable d f ∧ InRange count ∧ InRange offset
  | .write f buf offset => Reachable d f ∧ InRange buf.length ∧ InRange offset
  | .setSize f size => Reachable d f ∧ InRange size
  | _ => True

/-- A call that satisfies the condition `C` in the state before it. -/
def Step (C : Bytes → Call → Prop) (d d' : Bytes) : Prop :=
  ∃ c, Allowed d c ∧ C d c ∧ exec d c = some d'

/-- Any sequence of such calls. -/
abbrev Run (C : Bytes → Call → Prop) : Bytes → Bytes → Prop := Relation.ReflTransGen (Step C)

end Jos.Fs
