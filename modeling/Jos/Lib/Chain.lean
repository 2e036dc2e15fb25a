import Mathlib

/-!
# Lists threaded through a link field

A singly linked list is a head pointer and a `next` field on every node.

* `Chain next h l`: following `next` from `h` visits exactly `l` and then ends.
* `Chain.nodup`: a list that ends visits no node twice.
* `Chain.push`, `Chain.pop`: what the two list operations do to the list.
* `Chain.push_endless`: a node that is pushed twice makes the list endless.
* `Linked next h a`: node `a` can be reached from `h`, for lists that may not end.
-/

namespace Jos.Lib

variable {α : Type*} {next next' : α → Option α} {h : Option α} {a b : α} {l l' : List α}

/-- Following `next` from a head pointer visits exactly the given nodes. -/
inductive Chain (next : α → Option α) : Option α → List α → Prop
  | nil : Chain next none []
  | cons {a : α} {l : List α} : Chain next (next a) l → Chain next (some a) (a :: l)

/-- A node can be reached from a head pointer. -/
inductive Linked (next : α → Option α) : Option α → α → Prop
  | head {a : α} : Linked next (some a) a
  | tail {a b : α} : Linked next (next a) b → Linked next (some a) b

theorem Chain.unique (hc : Chain next h l) : ∀ {l'}, Chain next h l' → l = l' := by
  induction hc with
  | nil => intro l' h'; cases h'; rfl
  | cons _ ih => intro l' h'; cases h' with | cons h' => rw [ih h']

/-- From any node of the list, the rest of the list follows. -/
theorem Chain.suffix (hc : Chain next h l) (ha : a ∈ l) :
    ∃ l₁ l₂, l = l₁ ++ a :: l₂ ∧ Chain next (next a) l₂ := by
  induction hc with
  | nil => cases ha
  | @cons b m hm ih =>
    rcases List.mem_cons.1 ha with rfl | ha
    · exact ⟨[], m, rfl, hm⟩
    · obtain ⟨l₁, l₂, rfl, h2⟩ := ih ha
      exact ⟨b :: l₁, l₂, rfl, h2⟩

/-- **A list that ends has no repeated node**: a repetition would make it its own
proper suffix. -/
theorem Chain.nodup (hc : Chain next h l) : l.Nodup := by
  induction hc with
  | nil => exact List.nodup_nil
  | @cons b m hm ih =>
    refine List.nodup_cons.2 ⟨fun hb => ?_, ih⟩
    obtain ⟨l₁, l₂, he, h2⟩ := hm.suffix hb
    have := congrArg List.length (hm.unique h2)
    rw [he] at this
    simp at this; omega

theorem Chain.linked_iff (hc : Chain next h l) : Linked next h a ↔ a ∈ l := by
  induction hc with
  | nil => exact ⟨nofun, nofun⟩
  | @cons b m _ ih =>
    constructor
    · intro hl
      cases hl with
      | head => exact List.mem_cons_self
      | tail hl => exact List.mem_cons_of_mem _ (ih.1 hl)
    · intro hm
      rcases List.mem_cons.1 hm with rfl | hm
      · exact .head
      · exact .tail (ih.2 hm)

/-- A list survives any change of `next` off its nodes. -/
theorem Chain.congr (hc : Chain next h l) (hn : ∀ a ∈ l, next' a = next a) : Chain next' h l := by
  induction hc with
  | nil => exact .nil
  | cons _ ih =>
    refine .cons ?_
    rw [hn _ List.mem_cons_self]
    exact ih fun c hc => hn c (List.mem_cons_of_mem _ hc)

/-- **Pushing** a node that is not on the list. -/
theorem Chain.push (hc : Chain next h l) (ha : a ∉ l) (hh : next' a = h)
    (hn : ∀ c, c ≠ a → next' c = next c) : Chain next' (some a) (a :: l) := by
  refine .cons ?_
  rw [hh]
  exact hc.congr fun c hc' => hn c fun e => ha (e ▸ hc')

/-- **Pushing a node again** that is on the list leaves a list without an end. -/
theorem Chain.push_endless (hc : Chain next h l) (ha : a ∈ l) (hh : next' a = h)
    (hn : ∀ c, c ≠ a → next' c = next c) : ¬ ∃ l', Chain next' (some a) l' := by
  rintro ⟨l', hc'⟩
  have hnd := hc'.nodup
  cases hc' with
  | @cons _ t ht =>
    have hnd := (List.nodup_cons.1 hnd).1
    rw [hh] at ht
    -- the rest would be the old list, which has the node
    have h1 : Chain next h t := ht.congr fun c hc => (hn c fun e => hnd (e ▸ hc)).symm
    rw [hc.unique h1] at ha
    exact hnd ha

/-- **Popping** the head: the head's link is the new head, and only the popped
node's own link may be cleared. -/
theorem Chain.pop (hc : Chain next (some a) l) :
    ∃ l₂, l = a :: l₂ ∧ a ∉ l₂ ∧ Chain next (next a) l₂ := by
  have hnd := hc.nodup
  cases hc with
  | cons hc => exact ⟨_, rfl, (List.nodup_cons.1 hnd).1, hc⟩

/-- A list in the order of an array. -/
theorem Chain.range {n : ℕ} {next : Fin n → Option (Fin n)}
    (hn : ∀ i j, next i = some j ↔ j.val = i.val + 1) (i : Fin n) :
    ∃ l, Chain next (some i) l ∧ ∀ j, j ∈ l ↔ i.val ≤ j.val := by
  obtain ⟨d, hd⟩ : ∃ d, i.val + d + 1 = n := ⟨n - 1 - i.val, by omega⟩
  induction d generalizing i with
  | zero =>
    have hend : next i = none := by
      refine Option.eq_none_iff_forall_ne_some.2 fun j hj => ?_
      have h1 := (hn i j).1 hj
      omega
    refine ⟨[i], .cons (by rw [hend]; exact .nil), fun j => ?_⟩
    rw [List.mem_singleton]
    exact ⟨fun h => by rw [h], fun h => Fin.ext (by omega)⟩
  | succ d ih =>
    obtain ⟨l, h1, h2⟩ := ih ⟨i.val + 1, by omega⟩ (by simp only; omega)
    refine ⟨i :: l, .cons (by rw [(hn i ⟨i.val + 1, by omega⟩).2 rfl]; exact h1), fun j => ?_⟩
    rw [List.mem_cons, h2]
    constructor
    · rintro (rfl | h)
      · exact le_rfl
      · simp only at h; omega
    · intro h
      by_cases hj : j = i
      · exact Or.inl hj
      · have h3 : j.val ≠ i.val := fun h3 => hj (Fin.ext h3)
        exact Or.inr (by simp only; omega)

theorem Chain.none_iff (hc : Chain next h l) : h = none ↔ l = [] := by
  cases hc <;> simp

end Jos.Lib
