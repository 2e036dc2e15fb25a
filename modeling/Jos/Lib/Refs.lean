import Mathlib

/-!
# Counting references

`refs f t` is the number of slots that a table `f` points at `t`. A reference
counter is kept right by matching every change of the table with the change that
`refs_set` names; a counter that is only ever too large stays so when slots are
dropped (`refs_mono`).
-/

namespace Jos.Lib

variable {S T : Type*} [Finite S] {f f' : S → Option T} {s : S} {t : T}

/-- The number of slots of `f` that point at `t`. -/
noncomputable def refs (f : S → Option T) (t : T) : ℕ := {s | f s = some t}.ncard

theorem refs_pos (h : f s = some t) : 0 < refs f t :=
  (Set.ncard_pos (Set.toFinite _)).2 ⟨s, h⟩

theorem refs_eq_zero : refs f t = 0 ↔ ∀ s, f s ≠ some t := by
  unfold refs
  rw [Set.ncard_eq_zero (Set.toFinite _), Set.eq_empty_iff_forall_notMem]
  rfl

/-- The only slot that points at `t`. -/
theorem refs_unique {s' : S} (h1 : refs f t ≤ 1) (h : f s = some t) (h' : f s' = some t) : s = s' :=
  (Set.ncard_le_one (Set.toFinite _)).1 h1 s h s' h'

/-- Dropping slots never raises a count. -/
theorem refs_mono (h : ∀ s t, f' s = some t → f s = some t) : refs f' t ≤ refs f t :=
  Set.ncard_le_ncard (fun s hs => h s t hs) (Set.toFinite _)

open Classical in
/-- **One slot changes**: the counts of the old and of the new target change by one. -/
theorem refs_set (h : ∀ s' ≠ s, f' s' = f s') :
    refs f' t + (if f s = some t then 1 else 0) = refs f t + (if f' s = some t then 1 else 0) := by
  have key : ∀ g : S → Option T, refs g t =
      {s' | s' ≠ s ∧ g s' = some t}.ncard + (if g s = some t then 1 else 0) := by
    intro g
    unfold refs
    split
    · rename_i hg
      rw [← Set.ncard_insert_of_notMem (a := s) (by simp) (Set.toFinite _)]
      congr 1
      ext s'
      by_cases hs : s' = s
      · subst hs; simp [hg]
      · simp [hs]
    · rename_i hg
      rw [Nat.add_zero]
      congr 1
      ext s'
      simp only [Set.mem_ofPred_eq]
      exact ⟨fun h => ⟨fun e => hg (e ▸ h), h⟩, fun h => h.2⟩
  have hrest : {s' | s' ≠ s ∧ f' s' = some t} = {s' | s' ≠ s ∧ f s' = some t} := by
    ext s'
    simp only [Set.mem_ofPred_eq]
    exact and_congr_right fun hs => by rw [h s' hs]
  rw [key f, key f', hrest]
  omega

end Jos.Lib
