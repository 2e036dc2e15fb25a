import Jos.Lib.Chain

/-!
# Loops over linked lists

* `walk next body`: a loop over a linked list, which reads the link of a node after the turn for it.
* `Chain.walk`: its invariant rule, for bodies that may rewrite the links of the nodes that were passed.
* `Chain.walk_eq_foldlM`: a body that leaves the links alone is folded over the nodes.
* `Path link get c l e`: a list that is being built through a pointer to the link field of its last node. From the
  cell `c`, the nodes `l` follow, and `e` is the cell that the next node goes into.
* `filter_or_eq_append`: when a stable partition takes two kinds of elements apart.
-/

namespace Jos.Lib

/-! ## Loops -/

section Walk

variable {σ α : Type*} {next : σ → α → Option α} {next₀ : α → Option α} {body : σ → α → Option σ} {h : Option α}
  {l d : List α} {s : σ} {n : ℕ}

/-- A loop over a linked list, for at most `n` nodes. -/
def walk (next : σ → α → Option α) (body : σ → α → Option σ) : ℕ → Option α → σ → Option σ
  | _, none, s => some s
  | 0, some _, _ => none
  | n + 1, some a, s => do
    let s ← body s a
    walk next body n (next s a) s

/-- **The invariant rule.** A turn goes on to the node that was next from the start. -/
theorem Chain.walk (next : σ → α → Option α) (body : σ → α → Option σ) {P : List α → σ → Prop} (hc : Chain next₀ h l) (hn : l.length ≤ n)
    (hstep : ∀ ys a zs s, d ++ l = ys ++ a :: zs → P ys s →
      ∃ s', body s a = some s' ∧ P (ys ++ [a]) s' ∧ next s' a = next₀ a) (h0 : P d s) :
    ∃ s', Lib.walk next body n h s = some s' ∧ P (d ++ l) s' := by
  induction hc generalizing d s n with
  | nil =>
    rw [List.append_nil]
    exact ⟨s, by cases n <;> rfl, h0⟩
  | @cons a l hc ih =>
    rw [List.length_cons] at hn
    obtain ⟨n, rfl⟩ : ∃ k, n = k + 1 := ⟨n - 1, by omega⟩
    obtain ⟨s₁, h1, h2, h3⟩ := hstep d a l s rfl h0
    obtain ⟨s', h4, h5⟩ := ih (d := d ++ [a]) (n := n) (by omega)
      (fun ys b zs s he => hstep ys b zs s (by rw [← he, List.append_assoc]; rfl)) h2
    rw [List.append_assoc] at h5
    refine ⟨s', ?_, h5⟩
    rw [Lib.walk, h1]
    dsimp only [Option.bind_eq_bind, Option.bind_some]
    rw [h3, h4]

/-- **A loop that leaves the links** is a fold. -/
theorem Chain.walk_eq_foldlM (hc : Chain next₀ h l) (hn : l.length ≤ n) (hs : next s = next₀)
    (hkeep : ∀ s a s', body s a = some s' → next s' = next s) : Lib.walk next body n h s = l.foldlM body s := by
  induction hc generalizing s n with
  | nil => cases n <;> rfl
  | @cons a l hc ih =>
    rw [List.length_cons] at hn
    obtain ⟨n, rfl⟩ : ∃ k, n = k + 1 := ⟨n - 1, by omega⟩
    rw [Lib.walk, List.foldlM_cons]
    cases hb : body s a with
    | none => rfl
    | some s₁ =>
      have hnext : next s₁ = next₀ := (hkeep s a s₁ hb).trans hs
      dsimp only [Option.bind_eq_bind, Option.bind_some]
      rw [hnext]
      exact ih (by omega) hnext

end Walk

/-! ## Lists that are built -/

section Path

variable {α κ : Type*} {link : α → κ} {get : κ → Option α} {c e e' : κ} {l zs : List α} {a : α}
  {v : Option α}

/-- From the cell `c`, the nodes follow, and the last of them has its link in the cell `e`. -/
inductive Path (link : α → κ) (get : κ → Option α) : κ → List α → κ → Prop
  | nil {c : κ} : Path link get c [] c
  | cons {c e : κ} {a : α} {l : List α} : get c = some a → Path link get (link a) l e → Path link get c (a :: l) e

/-- The cells of a list. -/
def cells (link : α → κ) (c : κ) (l : List α) : List κ := c :: l.map link

theorem Path.end_mem (h : Path link get c l e) : e ∈ cells link c l := by
  induction h with
  | nil => exact List.mem_cons_self
  | cons _ _ ih => exact List.mem_cons_of_mem _ ih

/-- A store to another cell. -/
theorem Path.set_other [DecidableEq κ] (h : Path link get c l e) (hne : e' ∉ cells link c l) :
    Path link (Function.update get e' v) c l e := by
  induction h with
  | nil => exact .nil
  | @cons c e a l hget _ ih =>
    obtain ⟨h1, h2⟩ := not_or.1 (List.mem_cons.not.1 hne)
    refine .cons ?_ (ih h2)
    rw [Function.update_of_ne (Ne.symm h1)]
    exact hget

/-- A store to the last cell. -/
theorem Path.set_end [DecidableEq κ] (h : Path link get c l e) (hnd : (cells link c l).Nodup) :
    Path link (Function.update get e v) c l e := by
  induction h with
  | nil => exact .nil
  | @cons c e a l hget hp ih =>
    obtain ⟨h1, h2⟩ := List.nodup_cons.1 hnd
    have hne : c ≠ e := by
      intro heq
      rw [heq] at h1
      exact h1 hp.end_mem
    refine .cons ?_ (ih h2)
    rw [Function.update_of_ne hne]
    exact hget

/-- **One more node.** -/
theorem Path.snoc (h : Path link get c l e) (hget : get e = some a) : Path link get c (l ++ [a]) (link a) := by
  induction h with
  | nil => exact .cons hget .nil
  | cons hb _ ih => exact .cons hb (ih hget)

/-- **The list is closed** by what is in its last cell. -/
theorem Path.chain (h : Path link get c l e) (hc : Chain (fun a => get (link a)) (get e) zs) :
    Chain (fun a => get (link a)) (get c) (l ++ zs) := by
  induction h with
  | nil => exact hc
  | @cons c e a l hget _ ih =>
    rw [hget]
    exact .cons (ih hc)

end Path

/-! ## Stable partitions -/

/-- Two kinds of elements are taken apart if and only if none of the second kind stands before one of the first. -/
theorem filter_or_eq_append {α : Type*} {p q : α → Bool} (hdisj : ∀ x, p x = true → q x = false) (l : List α) :
    l.filter (fun x => p x || q x) = l.filter p ++ l.filter q ↔ l.Pairwise fun x y => ¬ (q x = true ∧ p y = true) := by
  induction l with
  | nil => exact iff_of_true rfl .nil
  | cons c l ih =>
    rw [List.pairwise_cons]
    by_cases hp : p c = true
    · rw [List.filter_cons_of_pos (by rw [hp]; rfl), List.filter_cons_of_pos hp,
        List.filter_cons_of_neg (by rw [hdisj c hp]; exact Bool.false_ne_true), List.cons_append, List.cons.injEq, ih]
      have hhead : ∀ y ∈ l, ¬ (q c = true ∧ p y = true) := fun y _ h1 => by
        rw [hdisj c hp] at h1
        exact Bool.false_ne_true h1.1
      exact ⟨fun h => ⟨hhead, h.2⟩, fun h => ⟨rfl, h.2⟩⟩
    · by_cases hq : q c = true
      · rw [List.filter_cons_of_pos (by rw [hq, Bool.or_true]), List.filter_cons_of_neg hp, List.filter_cons_of_pos hq]
        cases hfilter : l.filter p with
        | nil =>
          have hnone : ∀ y ∈ l, ¬ (q c = true ∧ p y = true) := fun y hy h1 => List.filter_eq_nil_iff.1 hfilter y hy h1.2
          rw [hfilter, List.nil_append] at ih
          rw [List.nil_append, List.cons.injEq, ih]
          exact ⟨fun h => ⟨hnone, h.2⟩, fun h => ⟨rfl, h.2⟩⟩
        | cons y ys =>
          have hy : y ∈ l.filter p := by
            rw [hfilter]
            exact List.mem_cons_self
          obtain ⟨h1, h2⟩ := List.mem_filter.1 hy
          refine iff_of_false (fun h => ?_) fun h => h.1 y h1 ⟨hq, h2⟩
          rw [List.cons_append, List.cons.injEq] at h
          exact hp (h.1 ▸ h2)
      · rw [List.filter_cons_of_neg (by rw [Bool.or_eq_true]; exact not_or.2 ⟨hp, hq⟩), List.filter_cons_of_neg hp,
          List.filter_cons_of_neg hq, ih]
        exact ⟨fun h => ⟨fun y _ h1 => hq h1.1, h⟩, fun h => h.2⟩

/-- Of three kinds of elements, the second one goes to the first or to the third: it makes no difference if and only if
its elements stand between those of the others. -/
theorem filter_regroup {α : Type*} {p q r : α → Bool} (hpq : ∀ x, p x = true → q x = false)
    (hqr : ∀ x, q x = true → r x = false) (hpr : ∀ x, p x = true → r x = false) (l : List α) :
    l.filter (fun x => p x || q x) ++ l.filter r = l.filter p ++ l.filter (fun x => q x || r x) ↔
      l.Pairwise fun x y => ¬ (q x = true ∧ p y = true) ∧ ¬ (r x = true ∧ q y = true) := by
  rw [List.pairwise_and_iff, ← filter_or_eq_append hpq, ← filter_or_eq_append hqr]
  have htable : ∀ a b c : Bool, (a = true → b = false) → (b = true → c = false) → (a = true → c = false) →
      ((a || b) && (a || b)) = (a || b) ∧ ((a || b) && c) = false ∧ ((a || b) && a) = a ∧ ((a || b) && (b || c)) = b ∧
        ((b || c) && (a || b)) = b ∧ ((b || c) && c) = c ∧ ((b || c) && a) = false ∧ ((b || c) && (b || c)) = (b || c) := by
    decide
  have hx := fun x => htable (p x) (q x) (r x) (hpq x) (hqr x) (hpr x)
  -- a filter of a filter
  have hsub : ∀ u v w : α → Bool, (∀ x, (u x && v x) = w x) → (l.filter v).filter u = l.filter w := by
    intro u v w h
    rw [List.filter_filter]
    exact List.filter_congr fun x _ => h x
  constructor
  · intro h
    have h1 := congrArg (List.filter fun x => p x || q x) h
    have h2 := congrArg (List.filter fun x => q x || r x) h
    rw [List.filter_append, List.filter_append] at h1 h2
    rw [hsub _ _ _ fun x => (hx x).1, hsub _ _ _ fun x => (hx x).2.1, hsub _ _ _ fun x => (hx x).2.2.1,
      hsub _ _ _ fun x => (hx x).2.2.2.1, List.filter_false, List.append_nil] at h1
    rw [hsub _ _ _ fun x => (hx x).2.2.2.2.1, hsub _ _ _ fun x => (hx x).2.2.2.2.2.1,
      hsub _ _ _ fun x => (hx x).2.2.2.2.2.2.1, hsub _ _ _ fun x => (hx x).2.2.2.2.2.2.2, List.filter_false,
      List.nil_append] at h2
    exact ⟨h1, h2.symm⟩
  · rintro ⟨h1, h2⟩
    rw [h1, h2, List.append_assoc]

end Jos.Lib
