import Mathlib

/-!
# Forests of nodes named by paths

Trees whose nodes live in one shared memory: each owner has a root node, and
`next n i` is the child that slot `i` of node `n` links to. `F.At o π n` says that
the path `π` from the root of `o` ends at node `n`; only the paths in `F.dom` count.
`F.Unshared` is the separation property: a node is at one path of one owner.

A write to memory changes one slot of one node. `frame`, `link_iff`, `unlink_iff`,
`addRoot_iff` and `dropRoot_iff` say what each kind of write does to all the trees at
once, under `Unshared`.
-/

namespace Jos.Lib

variable {O N I : Type*}

/-- Follow a path from a node. -/
def descend (next : N → I → Option N) (r : Option N) (π : List I) : Option N :=
  π.foldl (fun n i => n.bind (next · i)) r

@[simp] theorem descend_nil (next : N → I → Option N) (r : Option N) : descend next r [] = r := rfl

theorem descend_append (next : N → I → Option N) (r : Option N) (π : List I) (i : I) :
    descend next r (π ++ [i]) = (descend next r π).bind (next · i) := by
  simp [descend]

/-- Trees in one memory, with the paths that count as part of each tree. -/
structure Forest (O N I : Type*) where
  root : O → Option N
  next : N → I → Option N
  dom : O → List I → Prop
  dom_nil : ∀ o, dom o []
  dom_init : ∀ {o π i}, dom o (π ++ [i]) → dom o π

namespace Forest

variable {F G : Forest O N I} {o o' : O} {π π' : List I} {i : I} {n t p : N}

/-- The path `π` of owner `o` ends at node `n`. -/
def At (F : Forest O N I) (o : O) (π : List I) (n : N) : Prop :=
  F.dom o π ∧ descend F.next (F.root o) π = some n

/-- No node is reached twice. -/
def Unshared (F : Forest O N I) : Prop :=
  ∀ ⦃o π o' π' n⦄, F.At o π n → F.At o' π' n → o = o' ∧ π = π'

/-- `n` is a node of some tree. -/
def Node (F : Forest O N I) (n : N) : Prop := ∃ o π, F.At o π n

theorem At.node (h : F.At o π n) : F.Node n := ⟨o, π, h⟩

theorem At.det (h : F.At o π n) (h' : F.At o π t) : n = t :=
  Option.some.inj (h.2.symm.trans h'.2)

theorem at_nil : F.At o [] n ↔ F.root o = some n := by simp [At, F.dom_nil o]

theorem at_append : F.At o (π ++ [i]) n ↔
    F.dom o (π ++ [i]) ∧ ∃ t, F.At o π t ∧ F.next t i = some n := by
  unfold At
  rw [descend_append]
  constructor
  · rintro ⟨hd, hn⟩
    obtain ⟨t, h1, h2⟩ := Option.bind_eq_some_iff.1 hn
    exact ⟨hd, t, ⟨F.dom_init hd, h1⟩, h2⟩
  · rintro ⟨hd, t, ⟨-, h1⟩, h2⟩
    exact ⟨hd, by rw [h1]; exact h2⟩

/-- A child of a node, at a path that counts. -/
theorem At.child (h : F.At o π t) (hd : F.dom o (π ++ [i])) (hn : F.next t i = some n) :
    F.At o (π ++ [i]) n := at_append.2 ⟨hd, t, h, hn⟩

/-- Every prefix of a path to a node ends at a node. -/
theorem At.prefix (h : F.At o (π ++ π') n) : ∃ t, F.At o π t := by
  induction π' using List.reverseRecOn generalizing n with
  | nil => exact ⟨n, by simpa using h⟩
  | append_singleton π' i ih =>
    rw [← List.append_assoc] at h
    obtain ⟨-, t, ht, -⟩ := at_append.1 h
    exact ih ht

/-- **Frame.** A change off the slots of the trees changes no tree. -/
theorem frame (hr : G.root = F.root) (hd : G.dom = F.dom)
    (hn : ∀ o π i t, F.At o π t → F.dom o (π ++ [i]) → G.next t i = F.next t i) :
    G.At o π n ↔ F.At o π n := by
  induction π using List.reverseRecOn generalizing n with
  | nil => rw [at_nil, at_nil, hr]
  | append_singleton π i ih =>
    rw [at_append, at_append, hd]
    constructor
    · rintro ⟨h1, t, h2, h3⟩
      rw [ih] at h2
      exact ⟨h1, t, h2, hn o π i t h2 h1 ▸ h3⟩
    · rintro ⟨h1, t, h2, h3⟩
      exact ⟨h1, t, ih.2 h2, by rw [hn o π i t h2 h1]; exact h3⟩

/-- **Linking.** Setting an empty slot to a childless node that is in no tree adds
that node at the end of the slot's path, and nothing else. -/
theorem link_iff (hu : F.Unshared) (hr : G.root = F.root) (hd : G.dom = F.dom)
    (ht : F.At o π t) (hdi : F.dom o (π ++ [i])) (h0 : F.next t i = none)
    (h1 : G.next t i = some p) (hleaf : ∀ j, G.next p j = none)
    (hn : ∀ o' π' j s, F.At o' π' s → F.dom o' (π' ++ [j]) → ¬ (s = t ∧ j = i) →
      G.next s j = F.next s j) :
    G.At o' π' n ↔ F.At o' π' n ∨ (o' = o ∧ π' = π ++ [i] ∧ n = p) := by
  induction π' using List.reverseRecOn generalizing n with
  | nil => rw [at_nil, at_nil, hr]; simp
  | append_singleton π' j ih =>
    rw [at_append, at_append, hd]
    constructor
    · rintro ⟨h2, s, h3, h4⟩
      rcases ih.1 h3 with h3 | ⟨-, -, rfl⟩
      · by_cases hs : s = t ∧ j = i
        · obtain ⟨rfl, rfl⟩ := hs
          obtain ⟨rfl, rfl⟩ := hu h3 ht
          exact Or.inr ⟨rfl, rfl, Option.some.inj (h4.symm.trans h1)⟩
        · exact Or.inl ⟨h2, s, h3, by rw [← hn o' π' j s h3 h2 hs]; exact h4⟩
      · rw [hleaf j] at h4; cases h4
    · rintro (⟨h2, s, h3, h4⟩ | ⟨rfl, he, rfl⟩)
      · refine ⟨h2, s, ih.2 (Or.inl h3), ?_⟩
        rw [hn o' π' j s h3 h2 (by rintro ⟨rfl, rfl⟩; rw [h0] at h4; cases h4)]
        exact h4
      · obtain ⟨h5, h6⟩ := List.append_inj' he rfl
        obtain rfl := h5
        obtain rfl := List.singleton_inj.1 h6
        exact ⟨hdi, t, ih.2 (Or.inl ht), h1⟩

/-- **Unlinking.** Clearing a slot removes its path and every extension of it. -/
theorem unlink_iff (hu : F.Unshared) (hr : G.root = F.root) (hd : G.dom = F.dom)
    (ht : F.At o π t) (h0 : G.next t i = none)
    (hn : ∀ o' π' j s, F.At o' π' s → F.dom o' (π' ++ [j]) → ¬ (s = t ∧ j = i) →
      G.next s j = F.next s j) :
    G.At o' π' n ↔ F.At o' π' n ∧ ¬ (o' = o ∧ π ++ [i] <+: π') := by
  induction π' using List.reverseRecOn generalizing n with
  | nil => rw [at_nil, at_nil, hr]; simp
  | append_singleton π' j ih =>
    rw [at_append, at_append, hd, List.prefix_concat_iff]
    constructor
    · rintro ⟨h2, s, h3, h4⟩
      obtain ⟨h3, h5⟩ := ih.1 h3
      have hs : ¬ (s = t ∧ j = i) := by
        rintro ⟨rfl, rfl⟩; rw [h0] at h4; cases h4
      refine ⟨⟨h2, s, h3, by rw [← hn o' π' j s h3 h2 hs]; exact h4⟩, ?_⟩
      rintro ⟨rfl, he | he⟩
      · obtain ⟨h6, h7⟩ := List.append_inj' he rfl
        obtain rfl := h6
        obtain rfl := List.singleton_inj.1 h7
        exact hs ⟨h3.det ht, rfl⟩
      · exact h5 ⟨rfl, he⟩
    · rintro ⟨⟨h2, s, h3, h4⟩, h5⟩
      have hs : ¬ (s = t ∧ j = i) := by
        rintro ⟨rfl, rfl⟩
        obtain ⟨rfl, rfl⟩ := hu h3 ht
        exact h5 ⟨rfl, Or.inl rfl⟩
      refine ⟨h2, s, ih.2 ⟨h3, fun h => h5 ⟨h.1, Or.inr h.2⟩⟩, ?_⟩
      rw [hn o' π' j s h3 h2 hs]; exact h4

/-- **A new root**, of an owner that had none, whose slots are empty. -/
theorem addRoot_iff (hd : G.dom = F.dom) (h0 : F.root o = none)
    (h1 : G.root o = some p) (hr : ∀ o' ≠ o, G.root o' = F.root o')
    (hleaf : ∀ j, F.dom o [j] → G.next p j = none)
    (hn : ∀ o' π' j s, F.At o' π' s → F.dom o' (π' ++ [j]) → G.next s j = F.next s j) :
    G.At o' π' n ↔ F.At o' π' n ∨ (o' = o ∧ π' = [] ∧ n = p) := by
  induction π' using List.reverseRecOn generalizing n with
  | nil =>
    rw [at_nil, at_nil]
    by_cases ho : o' = o
    · subst ho; rw [h1, h0]; simp [eq_comm]
    · rw [hr o' ho]; simp [ho]
  | append_singleton π' j ih =>
    rw [at_append, at_append, hd]
    constructor
    · rintro ⟨h2, s, h3, h4⟩
      rcases ih.1 h3 with h3 | ⟨rfl, rfl, rfl⟩
      · exact Or.inl ⟨h2, s, h3, by rw [← hn o' π' j s h3 h2]; exact h4⟩
      · rw [hleaf j (by simpa using h2)] at h4; cases h4
    · rintro (⟨h2, s, h3, h4⟩ | ⟨-, he, -⟩)
      · exact ⟨h2, s, ih.2 (Or.inl h3), by rw [hn o' π' j s h3 h2]; exact h4⟩
      · simp at he

/-- **Dropping a root** drops its tree. -/
theorem dropRoot_iff (hd : G.dom = F.dom) (h1 : G.root o = none)
    (hr : ∀ o' ≠ o, G.root o' = F.root o')
    (hn : ∀ o' π' j s, o' ≠ o → F.At o' π' s → F.dom o' (π' ++ [j]) → G.next s j = F.next s j) :
    G.At o' π' n ↔ F.At o' π' n ∧ o' ≠ o := by
  induction π' using List.reverseRecOn generalizing n with
  | nil =>
    rw [at_nil, at_nil]
    by_cases ho : o' = o
    · subst ho; rw [h1]; simp
    · rw [hr o' ho]; simp [ho]
  | append_singleton π' j ih =>
    rw [at_append, at_append, hd]
    constructor
    · rintro ⟨h2, s, h3, h4⟩
      obtain ⟨h3, h5⟩ := ih.1 h3
      exact ⟨⟨h2, s, h3, by rw [← hn o' π' j s h5 h3 h2]; exact h4⟩, h5⟩
    · rintro ⟨⟨h2, s, h3, h4⟩, h5⟩
      exact ⟨h2, s, ih.2 ⟨h3, h5⟩, by rw [hn o' π' j s h5 h3 h2]; exact h4⟩

/-- Removing nodes keeps the trees apart. -/
theorem Unshared.mono (hu : F.Unshared) (h : ∀ o π n, G.At o π n → F.At o π n) : G.Unshared :=
  fun _ _ _ _ _ h1 h2 => hu (h _ _ _ h1) (h _ _ _ h2)

/-- Adding a node that was in no tree, at one path, keeps the trees apart. -/
theorem Unshared.insert (hu : F.Unshared) (hp : ¬ F.Node p)
    (h : ∀ o' π' n, G.At o' π' n → F.At o' π' n ∨ (o' = o ∧ π' = π ∧ n = p)) : G.Unshared := by
  intro o₁ π₁ o₂ π₂ n h1 h2
  rcases h _ _ _ h1 with h1 | ⟨rfl, rfl, rfl⟩ <;> rcases h _ _ _ h2 with h2 | ⟨rfl, rfl, h2⟩
  · exact hu h1 h2
  · exact absurd (h2 ▸ h1.node) hp
  · exact absurd h2.node hp
  · exact ⟨rfl, rfl⟩

end Forest

end Jos.Lib
