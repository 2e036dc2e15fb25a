import Mathlib

/-!
# Programs that may stop

A computation in `Option`, and the condition under which it returns (`Returns`): it does so exactly under the condition,
and then the value has a property. The rules are those of the steps of a program.
-/

namespace Jos.Lib

variable {α β : Type*} {b c c' : Prop} {x : Option α} {f : α → Option β} {P : α → Prop} {Q : β → Prop}

/-- `x` returns exactly under `c`, and then a value with `P`. -/
structure Returns (c : Prop) (x : Option α) (P : α → Prop) : Prop where
  some : c → ∃ a, x = some a ∧ P a
  none : ¬ c → x = none

theorem Returns.pure {a : α} (h : P a) : Returns True (Option.some a) P := ⟨fun _ => ⟨a, rfl, h⟩, fun h => absurd trivial h⟩

theorem Returns.bind (hx : Returns c x P) (hf : ∀ a, c → P a → Returns c' (f a) Q) : Returns (c ∧ c') (x.bind f) Q := by
  by_cases hc : c
  · obtain ⟨a, rfl, ha⟩ := hx.some hc
    exact ⟨fun h => (hf a hc ha).some h.2, fun h => (hf a hc ha).none fun h' => h ⟨hc, h'⟩⟩
  · rw [hx.none hc]
    exact ⟨fun h => absurd h.1 hc, fun _ => rfl⟩

theorem Returns.guard [Decidable b] (hx : Returns c x P) : Returns (¬ b ∧ c) (if b then Option.none else x) P := by
  by_cases hb : b
  · rw [if_pos hb]
    exact ⟨fun h => absurd hb h.1, fun _ => rfl⟩
  · rw [if_neg hb]
    exact ⟨fun h => hx.some h.2, fun h => hx.none fun h' => h ⟨hb, h'⟩⟩

theorem Returns.congr (hx : Returns c x P) (hc : c' ↔ c) : Returns c' x P :=
  ⟨fun h => hx.some (hc.1 h), fun h => hx.none fun h' => h (hc.2 h')⟩

theorem Returns.iff (hx : Returns c x P) : (∃ a, x = Option.some a) ↔ c := by
  constructor
  · rintro ⟨a, h⟩
    by_contra hc
    rw [hx.none hc] at h
    cases h
  · intro hc
    obtain ⟨a, h, -⟩ := hx.some hc
    exact ⟨a, h⟩

end Jos.Lib
