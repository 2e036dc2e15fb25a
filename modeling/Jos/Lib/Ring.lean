import Mathlib

/-!
# Rings of cells

A stream `xs` passes through `n` cells: its `k`th element is put into cell `k % n`, and
`Holds cell n xs r w` says that the elements from `r` up to `w` are there. A put (`put`)
needs a cell whose element was taken, and a take (`get`) an element that was put.
-/

namespace Jos.Lib.Ring

variable {α : Type*} {cell cell' : ℕ → α} {n : ℕ} {xs : List α} {r w : ℕ} {a : α}

/-- The elements of the stream from `r` up to `w` are in their cells. -/
def Holds (cell : ℕ → α) (n : ℕ) (xs : List α) (r w : ℕ) : Prop :=
  ∀ i, r ≤ i → i < w → xs[i]? = some (cell (i % n))

/-- Nothing is in the ring. -/
theorem Holds.empty : Holds cell n xs r r := fun i h1 h2 => absurd h1 (by omega)

/-- The next element is in its cell. -/
theorem Holds.get (h : Holds cell n xs r w) (hlt : r < w) : xs[r]? = some (cell (r % n)) :=
  h r le_rfl hlt

theorem Holds.mono {r' : ℕ} (h : Holds cell n xs r w) (hr : r ≤ r') : Holds cell n xs r' w :=
  fun i h1 h2 => h i (le_trans hr h1) h2

/-- Different elements of the ring are in different cells. -/
theorem mod_ne {i j : ℕ} (h1 : i < j) (h2 : j < i + n) : i % n ≠ j % n := by
  intro h
  have h3 : n ∣ j - i := (Nat.modEq_iff_dvd' h1.le).1 h
  have := Nat.le_of_dvd (by omega) h3
  omega

/-- **A put** into a free cell leaves the elements of the ring. -/
theorem Holds.set (h : Holds cell n xs r w) (hlt : w < r + n)
    (hc : ∀ i < n, i ≠ w % n → cell' i = cell i) : Holds cell' n xs r w := by
  intro i h1 h2
  have h3 : i % n ≠ w % n := mod_ne h2 (by omega)
  rw [hc _ (Nat.mod_lt _ (by omega)) h3]
  exact h i h1 h2

/-- The element in the cell at `w` joins the stream. -/
theorem Holds.put (h : Holds cell n xs r w) (hw : w = xs.length) (ha : cell (w % n) = a) :
    Holds cell n (xs ++ [a]) r (w + 1) := by
  intro i h1 h2
  rcases Nat.lt_succ_iff_lt_or_eq.1 h2 with h3 | rfl
  · rw [List.getElem?_append_left (by omega)]
    exact h i h1 h3
  · rw [hw, List.getElem?_concat_length, ← hw, ha]

/-- Taking the next element of a prefix. -/
theorem take_succ_eq {b : α} (h : xs[r]? = some b) : xs.take (r + 1) = xs.take r ++ [b] := by
  rw [List.take_add_one, h]
  rfl

end Jos.Lib.Ring
