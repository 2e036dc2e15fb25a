import Jos.Spec.Fsck

/-!
# `walk_path`, character by character

`skip_slash` and `walk_path` of `fs/fs.c` as they scan the string, with everything that they store.
`walkPath` of `Jos.Spec.Fs` has the elements cut beforehand. A string is the list of its characters
before the terminator.
-/

namespace Jos.Fs

open Lib

/-! ## The scan -/

/-- `skip_slash(p)`. -/
def skipSlash : List Byte → List Byte
  | [] => []
  | c :: p => if c = 0x2F then skipSlash p else c :: p

/-- The inner loop of `walk_path`: the characters up to the next slash or the terminator, and the
rest. -/
def passElem : List Byte → List Byte × List Byte
  | [] => ([], [])
  | c :: p => if c = 0x2F then ([], c :: p) else (c :: (passElem p).1, (passElem p).2)

theorem skipSlash_length (p : List Byte) : (skipSlash p).length ≤ p.length := by
  induction p with
  | nil => rfl
  | cons c p ih =>
    unfold skipSlash
    split
    · exact Nat.le_succ_of_le ih
    · rfl

theorem passElem_length (p : List Byte) : (passElem p).2.length ≤ p.length := by
  induction p with
  | nil => rfl
  | cons c p ih =>
    unfold passElem
    split
    · rfl
    · exact Nat.le_succ_of_le ih

/-- One turn of `walk_path` uses up a character, whether it starts at a slash or not. -/
theorem scan_length {p : List Byte} (h : p ≠ []) : (skipSlash (passElem p).2).length < p.length := by
  obtain ⟨c, p, rfl⟩ := List.exists_cons_of_ne_nil h
  by_cases hc : c = 0x2F
  · have h1 : skipSlash (passElem (c :: p)).2 = skipSlash p := by
      rw [passElem, if_pos hc, skipSlash, if_pos hc]
    have h2 := skipSlash_length p
    rw [h1, List.length_cons]
    omega
  · have h1 : (passElem (c :: p)).2 = (passElem p).2 := by
      rw [passElem, if_neg hc]
    have h2 := skipSlash_length (passElem p).2
    have h3 := passElem_length p
    rw [h1, List.length_cons]
    omega

/-- The result of `walk_path`, with what it leaves in `*pdir` and `*pf` and what it copies to
`lastelem`. -/
structure Walked where
  r : ℤ
  pdir : Option ℕ
  pf : Option ℕ
  lastelem : Option (List Byte)

/-- The loop of `walk_path`. -/
def walkLoop (path : List Byte) (dir : Option ℕ) (f : ℕ) (d : Bytes) : Option (Walked × Bytes) :=
  if path = [] then some (⟨0, dir, some f, none⟩, d)
  else
    let name := (passElem path).1
    if name.length ≥ 128 then some (⟨-eBadPath, none, none, none⟩, d)
    else if fType d f ≠ ftypeDir then some (⟨-eNotFound, none, none, none⟩, d)
    else
      match dirLookup d f name with
      | none => none
      | some (.ok g, d) => walkLoop (skipSlash (passElem path).2) (some f) g d
      | some (.error r, d) =>
        if r = -eNotFound ∧ skipSlash (passElem path).2 = [] then some (⟨r, some f, none, some name⟩, d)
        else some (⟨r, none, none, none⟩, d)
termination_by path.length
decreasing_by exact scan_length ‹_›

/-- `walk_path(path, &pdir, &pf, lastelem)`. -/
def walkPathScan (d : Bytes) (path : CString) : Option (Walked × Bytes) :=
  walkLoop (skipSlash path.chars) none sRoot d

/-! ## The reference -/

/-- **No directory has two entries with the same name.** -/
def UniqueNames (d : Bytes) : Prop :=
  ∀ f, Reachable d f → fType d f = ftypeDir → ∀ name : CString, name.chars ≠ [] → name.chars.length < 128 →
    ∀ i j i' j', i < dirBlocks d f → fileBlock d f i ≠ 0 → j < 16 →
      i' < dirBlocks d f → fileBlock d f i' ≠ 0 → j' < 16 →
      nameEq name.chars d (fileBlock d f i * 4096 + 256 * j) = true →
      nameEq name.chars d (fileBlock d f i' * 4096 + 256 * j') = true → i = i' ∧ j = j'

/-- **A well-formed directory tree**: a consistent image in which directories have no holes, names end
within their 128 bytes, and no directory has two entries with the same name. -/
structure WellFormed (d : Bytes) : Prop extends Consistent d where
  full : ∀ f i, Reachable d f → fType d f = ftypeDir → i < dirBlocks d f → fileBlock d f i ≠ 0
  ended : ∀ f, Reachable d f → f ≠ sRoot → ∃ k < 128, d.byte (f + k) = 0
  unique : UniqueNames d

/-- What the reference resolver says of the elements of a path: which file they name, if any
(`Names`), and which is reached but too long or missing. -/
structure Resolves (d : Bytes) (els : List (List Byte)) (out : Walked) : Prop where
  found : out.r = 0 ↔ ∃ f, Names d els sRoot f
  file : out.r = 0 → ∃ f, out.pf = some f ∧ ∀ g, Names d els sRoot g ↔ g = f
  parent : out.r = 0 → els = [] ∧ out.pdir = none ∨
    ∃ above name dir, els = above ++ [name] ∧ out.pdir = some dir ∧ ∀ g, Names d above sRoot g ↔ g = dir
  long : out.r = -eBadPath ↔
    ∃ above name rest f, els = above ++ name :: rest ∧ Names d above sRoot f ∧ 128 ≤ name.length
  missing : out.r ≠ 0 → out.r ≠ -eBadPath → out.r = -eNotFound
  noFile : out.r ≠ 0 → out.pf = none
  last : out.r ≠ 0 → ∀ dir name, (out.pdir = some dir ∧ out.lastelem = some name) ↔ out.r = -eNotFound ∧
    ∃ above, els = above ++ [name] ∧ Names d above sRoot dir ∧ fType d dir = ftypeDir
  unset : out.r ≠ 0 → (out.pdir = none ↔ out.lastelem = none)

/-- The calls that make and remove entries. -/
def MakesRemoves (_ : Bytes) : Call → Prop
  | .create _ => True
  | .remove _ => True
  | _ => False

end Jos.Fs
