import Mathlib

/-!
# Loops that may panic

A `for` loop is a `foldlM` in `Option`, where `none` is a panic. `loop_total` proves that
it ends without a panic, with an invariant on the items done and the state;
`loop_inv` carries an invariant through the loops that do.
-/

namespace Jos.Lib

variable {α β : Type*} {f : β → α → Option β} {l : List α} {b b' : β}

/-- **Total correctness.** Every turn succeeds and extends the invariant by its item. -/
theorem loop_total {P : List α → β → Prop}
    (hstep : ∀ xs x ys b, l = xs ++ x :: ys → P xs b → ∃ b', f b x = some b' ∧ P (xs ++ [x]) b')
    (h0 : P [] b) : ∃ b', l.foldlM f b = some b' ∧ P l b' := by
  induction l using List.reverseRecOn with
  | nil => exact ⟨b, rfl, h0⟩
  | append_singleton l x ih =>
    obtain ⟨b₁, h1, h2⟩ := ih fun xs y ys b he hp =>
      hstep xs y (ys ++ [x]) b (by rw [he]; simp) hp
    obtain ⟨b₂, h3, h4⟩ := hstep l x [] b₁ rfl h2
    exact ⟨b₂, by rw [List.foldlM_append, h1]; simp [h3], h4⟩

/-- **Total correctness of a counting loop**, from `a` on. -/
theorem range'_total {f : β → ℕ → Option β} {a n : ℕ} {P : ℕ → β → Prop}
    (hstep : ∀ i, a ≤ i → i < a + n → ∀ b, P i b → ∃ b', f b i = some b' ∧ P (i + 1) b') (h0 : P a b) :
    ∃ b', (List.range' a n).foldlM f b = some b' ∧ P (a + n) b' := by
  induction n with
  | zero => exact ⟨b, rfl, h0⟩
  | succ n ih =>
    obtain ⟨b₁, h1, h2⟩ := ih fun i hi hlt => hstep i hi (by omega)
    obtain ⟨b₂, h3, h4⟩ := hstep (a + n) (by omega) (by omega) b₁ h2
    exact ⟨b₂, by rw [List.range'_1_concat, List.foldlM_append, h1]; simp [h3], h4⟩

theorem range_total {f : β → ℕ → Option β} {n : ℕ} {P : ℕ → β → Prop}
    (hstep : ∀ i < n, ∀ b, P i b → ∃ b', f b i = some b' ∧ P (i + 1) b') (h0 : P 0 b) :
    ∃ b', (List.range n).foldlM f b = some b' ∧ P n b' := by
  obtain ⟨b', h1, h2⟩ := range'_total (a := 0) (n := n) (fun i _ hi => hstep i (by omega)) h0
  rw [Nat.zero_add] at h2
  exact ⟨b', by rw [List.range_eq_range']; exact h1, h2⟩

/-- The last turn of a counting loop. -/
theorem range_last {f : β → ℕ → Option β} {n : ℕ} (h : (List.range (n + 1)).foldlM f b = some b') :
    ∃ b₁, (List.range n).foldlM f b = some b₁ ∧ f b₁ n = some b' := by
  rw [List.range_succ, List.foldlM_append] at h
  obtain ⟨b₁, h1, h2⟩ := Option.bind_eq_some_iff.1 h
  exact ⟨b₁, h1, by simpa using h2⟩

/-- **Partial correctness.** Every turn that succeeds keeps the invariant. -/
theorem loop_inv {P : β → Prop} (hstep : ∀ x ∈ l, ∀ b b', P b → f b x = some b' → P b')
    (h : l.foldlM f b = some b') (h0 : P b) : P b' := by
  induction l generalizing b with
  | nil => cases h; exact h0
  | cons x l ih =>
    rw [List.foldlM_cons] at h
    obtain ⟨b₁, h1, h2⟩ := Option.bind_eq_some_iff.1 h
    exact ih (fun y hy => hstep y (List.mem_cons_of_mem _ hy)) h2
      (hstep x List.mem_cons_self b b₁ h0 h1)

end Jos.Lib
