import Mathlib

/-!
# Records that own blocks

Records have slots, a slot may hold a block, and a held block may hold further records:
an inode tree, or any structure laid out in blocks that are allocated one at a time.
`G.Linked r` says that record `r` is found from the root, and `G.Alone` that no block is
held by two slots of linked records.

`link_iff` and `unlink_iff` say which records are linked after a slot is set to a fresh
block, or cleared; `Linked.mono` serves every change that only takes blocks away.
-/

namespace Jos.Lib

/-- The blocks that slots hold, and the records that lie in a block held by a slot. -/
structure Owners (R S B : Type*) where
  root : R
  val : R → S → Option B
  kids : R → S → B → Set R

namespace Owners

variable {R S B : Type*} {G G' : Owners R S B} {r r' c r₀ : R} {s s' s₀ : S} {b b' : B}

/-- The records that are found from `r₀`. -/
inductive From (G : Owners R S B) (r₀ : R) : R → Prop
  | refl : From G r₀ r₀
  | kid {r : R} {s : S} {b : B} {c : R} : From G r₀ r → G.val r s = some b → c ∈ G.kids r s b → From G r₀ c

/-- The records that are found from the root. -/
abbrev Linked (G : Owners R S B) : R → Prop := G.From G.root

/-- A slot of a linked record holds block `b`. -/
def Held (G : Owners R S B) (r : R) (s : S) (b : B) : Prop := G.Linked r ∧ G.val r s = some b

/-- **No block is held twice.** -/
def Alone (G : Owners R S B) : Prop :=
  ∀ ⦃r s r' s' b⦄, G.Held r s b → G.Held r' s' b → r = r' ∧ s = s'

/-- A record lies in one block only, and the root in none. -/
structure Apart (G : Owners R S B) : Prop where
  block : ∀ {r s b r' s' b' c}, c ∈ G.kids r s b → c ∈ G.kids r' s' b' → b = b'
  root : ∀ {r s b}, G.Held r s b → G.root ∉ G.kids r s b

theorem From.trans (h : G.From r₀ r) (h' : G.From r c) : G.From r₀ c := by
  induction h' with
  | refl => exact h
  | kid _ hv hk ih => exact ih.kid hv hk

theorem Linked.kid (h : G.Linked r) (hv : G.val r s = some b) (hc : c ∈ G.kids r s b) :
    G.Linked c := From.kid h hv hc

/-- A linked record is the root or lies in a held block. -/
theorem Linked.cases (h : G.Linked c) : c = G.root ∨ ∃ r s b, G.Held r s b ∧ c ∈ G.kids r s b := by
  cases h with
  | refl => exact Or.inl rfl
  | kid hr hv hk => exact Or.inr ⟨_, _, _, ⟨hr, hv⟩, hk⟩

/-- **Fewer blocks.** Where every block held after was held before, no record is new. -/
theorem Linked.mono (hroot : G'.root = G.root)
    (hval : ∀ r s b, G.Linked r → G'.val r s = some b → G.val r s = some b)
    (hkids : ∀ r s b, G.Linked r → G'.kids r s b ⊆ G.kids r s b) (h : G'.Linked c) : G.Linked c := by
  induction h with
  | refl => rw [hroot]; exact From.refl
  | kid _ hv hk ih => exact ih.kid (hval _ _ _ ih hv) (hkids _ _ _ ih hk)

/-- Fewer blocks below a linked record. -/
theorem From.mono (hr : G.Linked r₀)
    (hval : ∀ r s b, G.Linked r → G'.val r s = some b → G.val r s = some b)
    (hkids : ∀ r s b, G.Linked r → G'.kids r s b ⊆ G.kids r s b) (h : G'.From r₀ c) : G.From r₀ c := by
  induction h with
  | refl => exact From.refl
  | kid _ hv hk ih => exact ih.kid (hval _ _ _ (hr.trans ih) hv) (hkids _ _ _ (hr.trans ih) hk)

/-- **Frame.** A change that no linked record sees. -/
theorem linked_congr (hroot : G'.root = G.root) (hval : ∀ r s, G.Linked r → G'.val r s = G.val r s)
    (hkids : ∀ r s b, G.Linked r → G'.kids r s b = G.kids r s b) : G'.Linked c ↔ G.Linked c := by
  constructor
  · exact Linked.mono hroot (fun r s b hr h => hval r s hr ▸ h) fun r s b hr => (hkids r s b hr).le
  · intro h
    induction h with
    | refl => rw [← hroot]; exact From.refl
    | kid hr hv hk ih =>
      exact ih.kid ((hval _ _ hr).trans hv) (by rw [hkids _ _ _ hr]; exact hk)

/-- The slots of linked records other than slot `s₀` of `r₀` are as they were. -/
structure Off (G G' : Owners R S B) (r₀ : R) (s₀ : S) : Prop where
  root : G'.root = G.root
  val : ∀ r s, G.Linked r → ¬ (r = r₀ ∧ s = s₀) → G'.val r s = G.val r s
  kids : ∀ r s b, G.Linked r → G'.kids r s b = G.kids r s b

/-- **Linking.** An empty slot is set to a block whose records are empty. -/
theorem link_iff (ho : Off G G' r₀ s₀) (hr : G.Linked r₀) (h0 : G.val r₀ s₀ = none)
    (h1 : G'.val r₀ s₀ = some b) (hb : ∀ c ∈ G.kids r₀ s₀ b, ∀ s, G'.val c s = none) :
    G'.Linked c ↔ G.Linked c ∨ c ∈ G.kids r₀ s₀ b := by
  have up : ∀ {c}, G.Linked c → G'.Linked c := by
    intro c h
    induction h with
    | refl => rw [← ho.root]; exact From.refl
    | kid hr' hv hk ih =>
      refine ih.kid ?_ (by rw [ho.kids _ _ _ hr']; exact hk)
      rw [ho.val _ _ hr' (by rintro ⟨rfl, rfl⟩; rw [h0] at hv; cases hv)]
      exact hv
  constructor
  · intro h
    induction h with
    | refl => rw [ho.root]; exact Or.inl From.refl
    | @kid r s b' c _ hv hk ih =>
      rcases ih with hl | hn
      · rw [ho.kids _ _ _ hl] at hk
        by_cases he : r = r₀ ∧ s = s₀
        · obtain ⟨rfl, rfl⟩ := he
          obtain rfl := Option.some.inj (h1.symm.trans hv)
          exact Or.inr hk
        · exact Or.inl (From.kid hl (by rw [← ho.val _ _ hl he]; exact hv) hk)
      · rw [hb _ hn] at hv; cases hv
  · rintro (h | h)
    · exact up h
    · exact (up hr).kid h1 (by rw [ho.kids _ _ _ hr]; exact h)

/-- After linking, one slot more holds a block. -/
theorem link_held (ho : Off G G' r₀ s₀) (hr : G.Linked r₀) (h0 : G.val r₀ s₀ = none)
    (h1 : G'.val r₀ s₀ = some b) (hb : ∀ c ∈ G.kids r₀ s₀ b, ∀ s, G'.val c s = none) :
    G'.Held r s b' ↔ G.Held r s b' ∨ (r = r₀ ∧ s = s₀ ∧ b' = b) := by
  unfold Held
  rw [link_iff ho hr h0 h1 hb]
  by_cases he : r = r₀ ∧ s = s₀
  · obtain ⟨rfl, rfl⟩ := he
    simp [h0, h1, hr, eq_comm]
  · constructor
    · rintro ⟨hl | hl, hv⟩
      · exact Or.inl ⟨hl, by rw [← ho.val _ _ hl he]; exact hv⟩
      · rw [hb _ hl] at hv; cases hv
    · rintro (⟨hl, hv⟩ | ⟨h2, h3, -⟩)
      · exact ⟨Or.inl hl, by rw [ho.val _ _ hl he]; exact hv⟩
      · exact absurd ⟨h2, h3⟩ he

/-- Clearing a slot links no record. -/
theorem unlink_mono (ho : Off G G' r₀ s₀) (h1 : G'.val r₀ s₀ = none) (h : G'.Linked c) : G.Linked c := by
  refine Linked.mono ho.root (fun r s b hr hv => ?_) (fun r s b hr => (ho.kids r s b hr).le) h
  by_cases he : r = r₀ ∧ s = s₀
  · obtain ⟨rfl, rfl⟩ := he; rw [h1] at hv; cases hv
  · rw [← ho.val r s hr he]; exact hv

theorem unlink_held_mono (ho : Off G G' r₀ s₀) (h1 : G'.val r₀ s₀ = none) (h : G'.Held r s b') :
    G.Held r s b' ∧ ¬ (r = r₀ ∧ s = s₀) := by
  have hl := unlink_mono ho h1 h.1
  have he : ¬ (r = r₀ ∧ s = s₀) := by
    rintro ⟨rfl, rfl⟩
    have h2 := h.2
    rw [h1] at h2
    cases h2
  exact ⟨⟨hl, by rw [← ho.val r s hl he]; exact h.2⟩, he⟩

/-- **Unlinking.** Clearing a slot whose block has no record with blocks of its own
unlinks the records of that block only. -/
theorem unlink_keeps (ho : Off G G' r₀ s₀) (h0 : G.val r₀ s₀ = some b)
    (hb : ∀ c ∈ G.kids r₀ s₀ b, ∀ s, G.val c s = none) (h : G.Linked c) :
    G'.Linked c ∨ c ∈ G.kids r₀ s₀ b := by
  induction h with
  | refl => rw [← ho.root]; exact Or.inl From.refl
  | @kid r s b' c hr hv hk ih =>
    rcases ih with hl | hn
    · by_cases he : r = r₀ ∧ s = s₀
      · obtain ⟨rfl, rfl⟩ := he
        obtain rfl := Option.some.inj (h0.symm.trans hv)
        exact Or.inr hk
      · exact Or.inl (hl.kid (by rw [ho.val _ _ hr he]; exact hv) (by rw [ho.kids _ _ _ hr]; exact hk))
    · rw [hb _ hn] at hv; cases hv

/-- Records that are not found from `r₀` stay linked when a slot of it is cleared. -/
theorem unlink_other (ho : Off G G' r₀ s₀) (h : G.Linked c) (hn : ¬ G.From r₀ c) : G'.Linked c := by
  induction h with
  | refl => rw [← ho.root]; exact From.refl
  | @kid r s b c hr hv hk ih =>
    have h1 : ¬ G.From r₀ r := fun h1 => hn (h1.kid hv hk)
    have hne : ¬ (r = r₀ ∧ s = s₀) := by
      rintro ⟨rfl, -⟩
      exact h1 From.refl
    exact (ih h1).kid (by rw [ho.val _ _ hr hne]; exact hv) (by rw [ho.kids _ _ _ hr]; exact hk)

theorem unlink_held (ho : Off G G' r₀ s₀) (h0 : G.val r₀ s₀ = some b)
    (hb : ∀ c ∈ G.kids r₀ s₀ b, ∀ s, G.val c s = none) (h1 : G'.val r₀ s₀ = none) :
    G'.Held r s b' ↔ G.Held r s b' ∧ ¬ (r = r₀ ∧ s = s₀) := by
  refine ⟨unlink_held_mono ho h1, ?_⟩
  rintro ⟨⟨hl, hv⟩, he⟩
  rcases unlink_keeps ho h0 hb hl with h | h
  · exact ⟨h, by rw [ho.val r s hl he]; exact hv⟩
  · rw [hb _ h] at hv; cases hv

theorem Alone.mono (ha : G.Alone) (h : ∀ r s b, G'.Held r s b → G.Held r s b) : G'.Alone :=
  fun _ _ _ _ _ h1 h2 => ha (h _ _ _ h1) (h _ _ _ h2)

/-- A block that no slot held may be given to one slot. -/
theorem Alone.insert (ha : G.Alone) (hb : ∀ r s, ¬ G.Held r s b)
    (h : ∀ r s b', G'.Held r s b' → G.Held r s b' ∨ (r = r₀ ∧ s = s₀ ∧ b' = b)) : G'.Alone := by
  intro r s r' s' b' h1 h2
  rcases h _ _ _ h1 with h1 | ⟨rfl, rfl, rfl⟩ <;> rcases h _ _ _ h2 with h2 | ⟨rfl, rfl, h2⟩
  · exact ha h1 h2
  · exact absurd (h2 ▸ h1) (hb _ _)
  · exact absurd h2 (hb _ _)
  · exact ⟨rfl, rfl⟩

/-- **No record lies below itself.** The block that a record lies in is held by none of
the records found from it. -/
theorem not_below (ha : G.Alone) (hp : G.Apart) (h0 : G.Held r s b) (hc : c ∈ G.kids r s b)
    (hb : G.From c r') : G.val r' s' ≠ some b := by
  intro hv
  have hc0 : G.Linked c := h0.1.kid h0.2 hc
  obtain ⟨rfl, rfl⟩ := ha h0 ⟨hc0.trans hb, hv⟩
  have key : ∀ x, G.Linked x → ¬ G.From c x := by
    intro x hx
    induction hx with
    | refl =>
      intro h
      cases h with
      | refl => exact hp.root h0 hc
      | kid hz hzv hk => exact hp.root ⟨hc0.trans hz, hzv⟩ hk
    | @kid y t b₁ x hy hyv hk ih =>
      intro h
      cases h with
      | refl =>
        obtain rfl := hp.block hk hc
        exact ih ((ha ⟨hy, hyv⟩ h0).1 ▸ hb)
      | @kid z u b₂ _ hz hzv hk' =>
        obtain rfl := hp.block hk hk'
        exact ih ((ha ⟨hy, hyv⟩ ⟨hc0.trans hz, hzv⟩).1 ▸ hz)
  exact key c hc0 From.refl

/-- **More blocks.** A linked record lies below no record that it was not below before. -/
theorem From.back (hroot : G'.root = G.root) (hheld : ∀ r s b, G.Held r s b → G'.Held r s b)
    (hkids : ∀ r s b, G.Linked r → G'.kids r s b = G.kids r s b) (ha : G'.Alone) (hp : G'.Apart)
    (hr : G'.Linked r₀) (h : G'.From r₀ c) (hc : G.Linked c) : G.From r₀ c := by
  induction h with
  | refl => exact .refl
  | @kid r s b c hb hv hk ih =>
    have h1 : G'.Held r s b := ⟨hr.trans hb, hv⟩
    rcases Linked.cases hc with rfl | ⟨q, t, b', h2, hk'⟩
    · rw [← hroot] at hk
      exact absurd hk (hp.root h1)
    · rw [← hkids q t b' h2.1] at hk'
      obtain rfl := hp.block hk hk'
      obtain ⟨rfl, rfl⟩ := ha h1 (hheld _ _ _ h2)
      rw [hkids _ _ _ h2.1] at hk
      exact (ih h2.1).kid h2.2 hk

/-- Clearing a slot of a record, or of one below it, unlinks no record above it. -/
theorem unlink_above (ha : G.Alone) (hp : G.Apart) (ho : Off G G' r₀ s₀) (hr : G.From c r₀)
    (hx : G.Linked r) (hc : G.From r c) : G'.Linked r := by
  induction hx with
  | refl => rw [← ho.root]; exact From.refl
  | @kid q t b' r hq hv hk ih =>
    have hne : ¬ (q = r₀ ∧ t = s₀) := by
      rintro ⟨rfl, rfl⟩
      exact not_below ha hp ⟨hq, hv⟩ hk (hc.trans hr) hv
    have hq' : G'.Linked q := ih ((From.kid From.refl hv hk).trans hc)
    have hv' : G'.val q t = some b' := by rw [ho.val _ _ hq hne]; exact hv
    exact hq'.kid hv' (by rw [ho.kids _ _ _ hq]; exact hk)

end Owners

end Jos.Lib
