import Mathlib

/-!
# Rows

Intervals of numbers that are handed out one behind the other, as an allocator does that never takes anything back:
they are disjoint, and there is nothing between them.
-/

namespace Jos.Lib

variable {α : Type*} {start stop : α → ℕ} {k m b : ℕ} {l : List α} {x : α}

/-- The items lie between `k` and `m`, in this order and without gaps. -/
inductive Rows (start stop : α → ℕ) (k : ℕ) : List α → ℕ → Prop
  | nil : Rows start stop k [] k
  | snoc {l : List α} {x : α} : Rows start stop k l (start x) → Rows start stop k (l ++ [x]) (stop x)

namespace Rows

variable (h : Rows start stop k l m) (hle : ∀ x ∈ l, start x ≤ stop x)
include h hle

theorem le : k ≤ m := by
  induction h with
  | nil => exact le_rfl
  | @snoc l x _ ih =>
    have h1 := ih fun y hy => hle y (List.mem_append_left _ hy)
    exact h1.trans (hle x (by simp))

theorem mem (hx : x ∈ l) : k ≤ start x ∧ stop x ≤ m := by
  induction h with
  | nil => cases hx
  | @snoc l y h ih =>
    have hl : ∀ z ∈ l, start z ≤ stop z := fun z hz => hle z (List.mem_append_left _ hz)
    have hy : start y ≤ stop y := hle y (by simp)
    rcases List.mem_append.1 hx with hx | hx
    · obtain ⟨h1, h2⟩ := ih hl hx
      exact ⟨h1, h2.trans hy⟩
    · obtain rfl := List.mem_singleton.1 hx
      exact ⟨h.le hl, le_rfl⟩

/-- Each item is behind the ones before it. -/
theorem pairwise : l.Pairwise fun x y => stop x ≤ start y := by
  induction h with
  | nil => exact List.Pairwise.nil
  | @snoc l y h ih =>
    have hl : ∀ z ∈ l, start z ≤ stop z := fun z hz => hle z (List.mem_append_left _ hz)
    refine List.pairwise_append.2 ⟨ih hl, List.pairwise_singleton _ _, fun x hx z hz => ?_⟩
    obtain rfl := List.mem_singleton.1 hz
    exact (h.mem hl hx).2

omit hle in
/-- Nothing is left out. -/
theorem cover (h1 : k ≤ b) (h2 : b < m) : ∃ x ∈ l, start x ≤ b ∧ b < stop x := by
  induction h with
  | nil => omega
  | @snoc l y h ih =>
    by_cases hb : b < start y
    · obtain ⟨x, hx, h3⟩ := ih hb
      exact ⟨x, List.mem_append_left _ hx, h3⟩
    · exact ⟨y, by simp, by omega, h2⟩

end Rows

end Jos.Lib
