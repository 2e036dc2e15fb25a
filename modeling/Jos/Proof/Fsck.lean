import Jos.Lib.Owner
import Jos.Proof.Disk

/-!
# The records on a disk

The disk as a tree of records (`tree`): a file owns the blocks in its own slots and the
indirect block, which owns the blocks in its entries, and the blocks of a directory hold
16 files each. `Sound` says that the tree is laid out without overlap, over blocks in use.
It is kept by adding a block, dropping one, and every write that misses the slots.

A tree has a root, which need not be the root directory, and `dirs` says whether the
contents of directories are part of it: `tree sRoot true` is the whole file system and
`tree f false` one file.
-/

namespace Jos.Fs

open Lib

/-! ## Records -/

/-- A file, or an indirect block, of a directory whose contents count or not. -/
inductive Rec
  | file (f : ℕ)
  | table (b : ℕ) (dir : Bool)
  deriving DecidableEq

namespace Rec

/-- The address of a slot of a record. -/
def word : Rec → Slot → Option ℕ
  | file f, .direct i => if i < 10 then some (Fs.fDirect f i) else none
  | file _, .indirect _ => none
  | file f, .fIndirect => some (Fs.fIndirect f)
  | table b _, .indirect j => if j < 1024 then some (b * 4096 + 4 * j) else none
  | table _ _, _ => none

/-- The first byte of a record. -/
def base : Rec → ℕ
  | file f => f
  | table b _ => b * 4096

/-- The length of a record. -/
def size : Rec → ℕ
  | file _ => 256
  | table _ _ => 4096

/-- The block that a record lies in. -/
def block (r : Rec) : ℕ := r.base / 4096

end Rec

/-- The files in a block of a directory. -/
def entries (b : ℕ) : Set Rec := {c | ∃ j < 16, c = .file (b * 4096 + 256 * j)}

/-- The contents of directory `f` count. -/
def opens (dirs : Bool) (d : Bytes) (f : ℕ) : Bool := dirs && fType d f == ftypeDir

/-- The records that lie in block `b`, when slot `s` of a record holds it. -/
def kids (dirs : Bool) (d : Bytes) : Rec → Slot → ℕ → Set Rec
  | .file f, .direct _, b => if opens dirs d f then entries b else ∅
  | .file f, .fIndirect, b => {.table b (opens dirs d f)}
  | .file _, .indirect _, _ => ∅
  | .table _ dir, _, b => if dir then entries b else ∅

/-- The tree of the records found from file `root`. -/
def tree (root : ℕ) (dirs : Bool) (d : Bytes) : Owners Rec Slot ℕ where
  root := .file root
  val r s := (r.word s).bind fun p => if d.load32 p = 0 then none else some (d.load32 p).toNat
  kids := kids dirs d

variable {root : ℕ} {dirs : Bool} {d d' : Bytes} {r r' c : Rec} {s s' : Slot} {b f n p q : ℕ}

theorem val_eq_some : (tree root dirs d).val r s = some b ↔
    ∃ p, r.word s = some p ∧ (d.load32 p).toNat = b ∧ b ≠ 0 := by
  simp only [tree, Option.bind_eq_some_iff]
  refine exists_congr fun p => and_congr_right fun _ => ?_
  by_cases h : d.load32 p = 0
  · simp [h, eq_comm]
  · have h0 : (d.load32 p).toNat ≠ 0 := fun e => h (BitVec.eq_of_toNat_eq e)
    simp only [h, if_false, Option.some.injEq]
    constructor
    · rintro rfl; exact ⟨rfl, h0⟩
    · exact fun h1 => h1.1

theorem val_eq_none (h : r.word s = some p) :
    (tree root dirs d).val r s = none ↔ d.load32 p = 0 := by
  simp [tree, h]

theorem val_congr (h : ∀ p, r.word s = some p → d'.load32 p = d.load32 p) :
    (tree root dirs d').val r s = (tree root dirs d).val r s := by
  simp only [tree]
  rcases hw : r.word s with _ | p
  · rfl
  · simp only [Option.bind_some, h p hw]

theorem kids_congr (h : ∀ f, r = .file f → fType d' f = fType d f) :
    (tree root dirs d').kids r s b = (tree root dirs d).kids r s b := by
  cases r with
  | file f =>
    have h1 : opens dirs d' f = opens dirs d f := by unfold opens; rw [h f rfl]
    cases s <;> simp only [tree, kids, h1]
  | table => rfl

/-- A record lies in the block that holds it. -/
theorem kid_layout (h : c ∈ kids dirs d r s b) :
    (∃ j < 16, c = .file (b * 4096 + 256 * j)) ∨ ∃ dir, c = .table b dir := by
  cases r with
  | file f =>
    cases s with
    | direct i =>
      simp only [kids] at h
      split at h
      · exact Or.inl h
      · exact absurd h (Set.notMem_empty c)
    | indirect j => exact absurd h (Set.notMem_empty c)
    | fIndirect => exact Or.inr ⟨_, h⟩
  | table t dir =>
    simp only [kids] at h
    split at h
    · exact Or.inl h
    · exact absurd h (Set.notMem_empty c)

theorem kid_block (h : c ∈ kids dirs d r s b) : c.block = b := by
  rcases kid_layout h with ⟨j, hj, rfl⟩ | ⟨dir, rfl⟩
  · simp only [Rec.block, Rec.base]; omega
  · simp only [Rec.block, Rec.base]; omega

theorem kid_fits (h : c ∈ kids dirs d r s b) :
    b * 4096 ≤ c.base ∧ c.base + c.size ≤ (b + 1) * 4096 := by
  rcases kid_layout h with ⟨j, hj, rfl⟩ | ⟨dir, rfl⟩
  · simp only [Rec.base, Rec.size]; omega
  · simp only [Rec.base, Rec.size]; omega

/-- Two records in one block do not overlap. -/
theorem kid_apart (h : c ∈ kids dirs d r s b) {c' : Rec} (h' : c' ∈ kids dirs d r s b)
    (hne : c ≠ c') : c.base + c.size ≤ c'.base ∨ c'.base + c'.size ≤ c.base := by
  by_cases hs : ∃ f, r = .file f ∧ s = .fIndirect
  · obtain ⟨f, rfl, rfl⟩ := hs
    exact absurd ((Set.mem_singleton_iff.1 h).trans (Set.mem_singleton_iff.1 h').symm) hne
  · have he : ∀ {c}, c ∈ kids dirs d r s b → ∃ j < 16, c = .file (b * 4096 + 256 * j) := by
      intro c hc
      cases r with
      | file f =>
        cases s with
        | direct i =>
          simp only [kids] at hc
          split at hc
          · exact hc
          · exact absurd hc (Set.notMem_empty c)
        | indirect j => exact absurd hc (Set.notMem_empty c)
        | fIndirect => exact absurd ⟨f, rfl, rfl⟩ hs
      | table t dir =>
        simp only [kids] at hc
        split at hc
        · exact hc
        · exact absurd hc (Set.notMem_empty c)
    obtain ⟨j, hj, rfl⟩ := he h
    obtain ⟨j', hj', rfl⟩ := he h'
    have hjj : j ≠ j' := by rintro rfl; exact hne rfl
    simp only [Rec.base, Rec.size]
    omega

/-- The slots, one by one. -/
theorem word_cases (h : r.word s = some p) :
    (∃ f, ∃ i < 10, r = .file f ∧ s = .direct i ∧ p = f + 136 + 4 * i) ∨
    (∃ f, r = .file f ∧ s = .fIndirect ∧ p = f + 176) ∨
    ∃ t dir, ∃ j < 1024, r = .table t dir ∧ s = .indirect j ∧ p = t * 4096 + 4 * j := by
  cases r with
  | file f =>
    cases s with
    | direct i =>
      simp only [Rec.word] at h
      split at h
      · exact Or.inl ⟨f, i, by assumption, rfl, rfl, (Option.some.inj h).symm⟩
      · cases h
    | indirect j => cases h
    | fIndirect => exact Or.inr (Or.inl ⟨f, rfl, rfl, (Option.some.inj h).symm⟩)
  | table t dir =>
    cases s with
    | direct i => cases h
    | indirect j =>
      simp only [Rec.word] at h
      split at h
      · exact Or.inr (Or.inr ⟨t, dir, j, by assumption, rfl, rfl, (Option.some.inj h).symm⟩)
      · cases h
    | fIndirect => cases h

/-- The slots of a record lie in it. -/
theorem word_fits (h : r.word s = some p) : r.base ≤ p ∧ p + 4 ≤ r.base + r.size := by
  rcases word_cases h with ⟨f, i, hi, rfl, -, rfl⟩ | ⟨f, rfl, -, rfl⟩ | ⟨t, dir, j, hj, rfl, -, rfl⟩ <;>
    simp only [Rec.base, Rec.size] <;> omega

/-- Two slots of a record do not overlap. -/
theorem word_apart (h : r.word s = some p) (h' : r.word s' = some q) (hne : s ≠ s') :
    p + 4 ≤ q ∨ q + 4 ≤ p := by
  rcases word_cases h with ⟨f, i, hi, rfl, rfl, rfl⟩ | ⟨f, rfl, rfl, rfl⟩ | ⟨t, dir, j, hj, rfl, rfl, rfl⟩
  · rcases word_cases h' with ⟨f', i', hi', he, rfl, rfl⟩ | ⟨f', he, rfl, rfl⟩ | ⟨t, dir, j, hj, he, -, -⟩
    · cases he
      have hi : i ≠ i' := by rintro rfl; exact hne rfl
      omega
    · cases he; omega
    · cases he
  · rcases word_cases h' with ⟨f', i', hi', he, rfl, rfl⟩ | ⟨f', he, rfl, rfl⟩ | ⟨t, dir, j, hj, he, -, -⟩
    · cases he; omega
    · exact absurd rfl hne
    · cases he
  · rcases word_cases h' with ⟨f', i', hi', he, -, -⟩ | ⟨f', he, -, -⟩ | ⟨t', dir', j', hj', he, rfl, rfl⟩
    · cases he
    · cases he
    · cases he
      have hj : j ≠ j' := by rintro rfl; exact hne rfl
      omega

/-- The type of a file is not in a slot. -/
theorem fType_apart (h : (Rec.file f).word s = some p) : f + 136 ≤ p := by
  rcases word_cases h with ⟨f', i, hi, he, -, rfl⟩ | ⟨f', he, -, rfl⟩ | ⟨t, dir, j, hj, he, -, -⟩
  · cases he; omega
  · cases he; omega
  · cases he

/-- A linked record is the root, or lies in a held block. -/
theorem linked_block (hr : (tree root dirs d).Linked r) :
    r = .file root ∨ ∃ q t, (tree root dirs d).Held q t r.block ∧ r ∈ kids dirs d q t r.block := by
  rcases Owners.Linked.cases hr with h | ⟨q, t, b, h1, h2⟩
  · exact Or.inl h
  · rw [kid_block h2]
    exact Or.inr ⟨q, t, h1, h2⟩

/-- The words that a change of the bitmap and of one slot leaves. -/
theorem load32_mark (hb : b < nblocks d) {u : Bool} {w : BitVec 32} (hq : p + 4 ≤ q ∨ q + 4 ≤ p)
    (hq' : ∀ c < nblocks d, q / 4096 ≠ bitmapWord (c / 32) / 4096 ∧
      (q + 3) / 4096 ≠ bitmapWord (c / 32) / 4096) :
    ((markBlock d b u).store32 p w).load32 q = d.load32 q := by
  rw [Bytes.load32_store32_off hq.symm]
  obtain ⟨h1, h2⟩ := hq' b hb
  refine Bytes.load32_congr fun i hi => byte_markBlock ?_
  unfold bitmapWord at *
  omega

/-! ## Sound layouts -/

/-- **The records are laid out without overlap**, in blocks that are in use. -/
structure Sound (root : ℕ) (dirs : Bool) (d : Bytes) : Prop where
  alone : (tree root dirs d).Alone
  good : ∀ {r s b}, (tree root dirs d).Held r s b →
    InUse d b ∧ ¬ Reserved d b ∧ b ≠ root / 4096
  low : 4104 ≤ root
  fits : root % 4096 + 256 ≤ 4096
  used : blockIsFree d (root / 4096) = false
  bitmap : ∀ b < nblocks d, root / 4096 ≠ bitmapWord (b / 32) / 4096
  reserved : ∀ b, Reserved d b → blockIsFree d b = false

namespace Sound

variable (hs : Sound root dirs d)
include hs

theorem fits_block (hr : (tree root dirs d).Linked r) :
    r.block * 4096 ≤ r.base ∧ r.base + r.size ≤ (r.block + 1) * 4096 := by
  rcases linked_block hr with rfl | ⟨q, t, -, h⟩
  · have := hs.fits
    simp only [Rec.block, Rec.base, Rec.size]
    omega
  · exact kid_fits h

/-- Records are linked in blocks in use, off the bitmap and above the super block. -/
theorem block_used (hr : (tree root dirs d).Linked r) :
    blockIsFree d r.block = false ∧ (∀ b < nblocks d, r.block ≠ bitmapWord (b / 32) / 4096) ∧
      4104 ≤ r.base := by
  rcases linked_block hr with rfl | ⟨q, t, h, hk⟩
  · exact ⟨hs.used, hs.bitmap, hs.low⟩
  · obtain ⟨h1, h2, -⟩ := hs.good h
    refine ⟨h1.2, fun b hb he => h2 (he ▸ reserved_bitmapWord hb), ?_⟩
    have h3 : ¬ r.block < 2 := fun h4 => h2 (Or.inl h4)
    have := (hs.fits_block hr).1
    omega

theorem apart : (tree root dirs d).Apart where
  block h h' := (kid_block h).symm.trans (kid_block h')
  root h h' := (hs.good h).2.2 (kid_block h').symm

/-- **Linked records do not overlap.** -/
theorem records_apart (hr : (tree root dirs d).Linked r) (hr' : (tree root dirs d).Linked r')
    (hne : r ≠ r') : r.base + r.size ≤ r'.base ∨ r'.base + r'.size ≤ r.base := by
  by_cases hb : r.block = r'.block
  · rcases linked_block hr with h | ⟨q, t, h, hk⟩
    · rcases linked_block hr' with h' | ⟨q', t', h', -⟩
      · exact absurd (h.trans h'.symm) hne
      · refine absurd ?_ (hs.good h').2.2
        rw [← hb, h]
        rfl
    · rcases linked_block hr' with h' | ⟨q', t', h', hk'⟩
      · refine absurd ?_ (hs.good h).2.2
        rw [hb, h']
        rfl
      · rw [← hb] at h' hk'
        obtain ⟨rfl, rfl⟩ := hs.alone h h'
        exact kid_apart hk hk' hne
  · have h1 := hs.fits_block hr
    have h2 := hs.fits_block hr'
    omega

/-- **Linked slots do not overlap.** -/
theorem slots_apart (hr : (tree root dirs d).Linked r) (hr' : (tree root dirs d).Linked r')
    (hp : r.word s = some p) (hq : r'.word s' = some q) (hne : ¬ (r' = r ∧ s' = s)) :
    q + 4 ≤ p ∨ p + 4 ≤ q := by
  by_cases he : r' = r
  · subst he
    exact (word_apart hp hq fun h => hne ⟨rfl, h.symm⟩).symm
  · have h1 := word_fits hp
    have h2 := word_fits hq
    rcases hs.records_apart hr hr' (Ne.symm he) with h | h <;> omega

end Sound

end Jos.Fs
