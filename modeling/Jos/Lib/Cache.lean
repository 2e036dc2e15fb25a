import Mathlib

/-!
# Write-back caches

Cells `X` with values `V` lie in blocks `ι`. A cache holds some of the blocks in memory, each as
it is on the disk or dirty. `view` is the store that its user sees.

* `view_fill`, `view_flush`: to bring a block in or to write it back does not show.
* `view_store`: a store shows in the cells that it changes only.
* `Coherent`: a block in memory that is not dirty is as it is on the disk. Every operation keeps it.
* `Fills`: some blocks that were not in memory are brought in.
-/

namespace Jos.Lib

variable {X V ι : Type*}

/-- The disk, and the blocks in memory. -/
structure Cache (X V ι : Type*) where
  disk : X → V
  mem : X → V
  mapped : ι → Bool
  dirty : ι → Bool

namespace Cache

variable (blk : X → ι) (c : Cache X V ι) {f : X → V} {s : List ι} {i j : ι} {x : X}

/-- What the user of the cache sees. -/
def view (x : X) : V := if c.mapped (blk x) then c.mem x else c.disk x

/-- The state after a crash: only the disk is left. -/
def crash : Cache X V ι := { c with mapped := fun _ => false, dirty := fun _ => false }

/-- **Coherence**: what is not dirty is as it is on the disk. -/
def Coherent : Prop := ∀ x, c.mapped (blk x) = true → c.dirty (blk x) = false → c.mem x = c.disk x

variable {blk c}

theorem view_mapped (h : c.mapped (blk x) = true) : c.view blk x = c.mem x := by
  unfold view
  rw [if_pos h]

theorem view_unmapped (h : c.mapped (blk x) = false) : c.view blk x = c.disk x := by
  unfold view
  rw [if_neg (by rw [h]; exact Bool.false_ne_true)]

@[simp] theorem view_crash : c.crash.view blk = c.disk := funext fun _ => view_unmapped rfl

/-- What is not dirty is seen as it is on the disk. -/
theorem Coherent.view_clean (h : c.Coherent blk) (hd : c.dirty (blk x) = false) : c.view blk x = c.disk x := by
  cases hm : c.mapped (blk x) with
  | false => exact view_unmapped hm
  | true => rw [view_mapped hm, h x hm hd]

theorem Coherent.crash : c.crash.Coherent blk := fun _ h => by cases h

/-! ## Operations -/

section Operations

variable [DecidableEq ι]

/-- A block is read from the disk. -/
def fill (blk : X → ι) (c : Cache X V ι) (i : ι) : Cache X V ι :=
  { c with
    mem := fun x => if blk x = i then c.disk x else c.mem x
    mapped := fun j => if j = i then true else c.mapped j
    dirty := fun j => if j = i then false else c.dirty j }

/-- The cells of some blocks in memory are replaced. -/
def store (blk : X → ι) (c : Cache X V ι) (s : List ι) (f : X → V) : Cache X V ι :=
  { c with
    mem := fun x => if blk x ∈ s then f x else c.mem x
    dirty := fun j => if j ∈ s then true else c.dirty j }

/-- A block is written to the disk. -/
def flush (blk : X → ι) (c : Cache X V ι) (i : ι) : Cache X V ι :=
  { c with
    disk := fun x => if blk x = i then c.mem x else c.disk x
    dirty := fun j => if j = i then false else c.dirty j }

/-- **A block that is brought in** looks as before. -/
theorem view_fill (h : c.mapped i = false) : (c.fill blk i).view blk = c.view blk := by
  funext x
  unfold view fill
  by_cases hx : blk x = i
  · subst hx
    simp [h]
  · simp [hx]

theorem Coherent.fill (h : c.Coherent blk) : (c.fill blk i).Coherent blk := by
  intro x hm hd
  unfold Cache.fill at hm hd ⊢
  by_cases hx : blk x = i
  · simp [hx]
  · simp only [if_neg hx] at hm hd ⊢
    exact h x hm hd

/-- **A store** shows in the blocks that it changes. -/
theorem view_store (h : ∀ i ∈ s, c.mapped i = true) :
    (c.store blk s f).view blk = fun x => if blk x ∈ s then f x else c.view blk x := by
  funext x
  unfold view store
  by_cases hx : blk x ∈ s
  · simp [hx, h _ hx]
  · simp [hx]

theorem Coherent.store (h : c.Coherent blk) : (c.store blk s f).Coherent blk := by
  intro x hm hd
  unfold Cache.store at hm hd ⊢
  by_cases hx : blk x ∈ s
  · simp only [if_pos hx] at hd
    cases hd
  · simp only [if_neg hx] at hd ⊢
    exact h x hm hd

/-- **A block that is written back** looks as before. -/
theorem view_flush (h : c.mapped i = true) : (c.flush blk i).view blk = c.view blk := by
  funext x
  unfold view flush
  by_cases hx : blk x = i
  · subst hx
    simp [h]
  · simp [hx]

theorem Coherent.flush (h : c.Coherent blk) : (c.flush blk i).Coherent blk := by
  intro x hm hd
  unfold Cache.flush at hm hd ⊢
  by_cases hx : blk x = i
  · simp [hx]
  · simp only [if_neg hx] at hd ⊢
    exact h x hm hd

theorem flush_dirty_self : (c.flush blk i).dirty i = false := if_pos rfl

theorem flush_disk_of_ne (hx : blk x ≠ i) : (c.flush blk i).disk x = c.disk x := if_neg hx

/-! ## Bringing several blocks in -/

/-- A block that is not in memory is brought in. -/
def FillStep (blk : X → ι) (c c' : Cache X V ι) : Prop := ∃ i, c.mapped i = false ∧ c' = c.fill blk i

/-- Any number of such steps. -/
abbrev Fills (blk : X → ι) : Cache X V ι → Cache X V ι → Prop := Relation.ReflTransGen (FillStep blk)

namespace Fills

variable {c' : Cache X V ι}

/-- What each step keeps. -/
theorem rule {I : Cache X V ι → Prop} (h : Fills blk c c')
    (hstep : ∀ c i, c.mapped i = false → I c → I (c.fill blk i)) (h0 : I c) : I c' := by
  induction h with
  | refl => exact h0
  | tail _ hs ih =>
    obtain ⟨i, hi, rfl⟩ := hs
    exact hstep _ i hi ih

theorem view (h : Fills blk c c') : c'.view blk = c.view blk :=
  h.rule (I := fun c₁ => c₁.view blk = c.view blk) (fun _ _ hi h1 => (view_fill hi).trans h1) rfl

theorem coherent (h : Fills blk c c') (hc : c.Coherent blk) : c'.Coherent blk :=
  h.rule (fun _ _ _ h1 => h1.fill) hc

theorem disk (h : Fills blk c c') : c'.disk = c.disk :=
  h.rule (I := fun c₁ => c₁.disk = c.disk) (fun _ _ _ h1 => h1) rfl

/-- Blocks stay in memory, as dirty as they were. -/
theorem mapped (h : Fills blk c c') (hj : c.mapped j = true) : c'.mapped j = true ∧ c'.dirty j = c.dirty j := by
  refine h.rule (I := fun c₁ => c₁.mapped j = true ∧ c₁.dirty j = c.dirty j) ?_ ⟨hj, rfl⟩
  intro c₁ i hi h1
  have hne : j ≠ i := by
    rintro rfl
    rw [h1.1] at hi
    cases hi
  unfold Cache.fill
  simp only [if_neg hne]
  exact h1

theorem mem (h : Fills blk c c') (hx : c.mapped (blk x) = true) : c'.mem x = c.mem x := by
  have h1 := congrFun h.view x
  rwa [view_mapped (h.mapped hx).1, view_mapped hx] at h1

end Fills

end Operations

end Cache

end Jos.Lib
