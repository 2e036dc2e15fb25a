import Mathlib

/-!
# Programs of calls

A `Prog` is a program as its environment sees it: it makes a call and goes on with the result.
Programs of several threads are interleaved call by call.

`wp` is the weakest precondition of a program over a local state `L`, the part of the global
state that only its thread changes: `P` holds before every call of the program, whatever the
results are. `wp_bind` and `wp_forM` compose it along the text of a program.

`interp` runs a program where calls act on a state and may fail. What every call keeps, the program
keeps (`interp_inv`), and where every call of one machine is one of another, so is every run
(`interp_sim`). To show that a program meets the conditions of its calls, run it on the `guarded`
machine, which fails where a condition does not hold.
-/

namespace Jos.Lib

variable {C : Type} {R : C → Type} {α β γ L : Type}

/-- A program that makes calls `c : C` with results in `R c`. -/
inductive Prog (C : Type) (R : C → Type) (α : Type) where
  | ret (a : α) : Prog C R α
  | call (c : C) (k : R c → Prog C R α) : Prog C R α

namespace Prog

def bind : Prog C R α → (α → Prog C R β) → Prog C R β
  | ret a, f => f a
  | call c k, f => call c fun r => (k r).bind f

instance : Monad (Prog C R) where
  pure := ret
  bind := bind

/-- The program of one call. -/
def perform (c : C) : Prog C R (R c) := call c ret

@[simp] theorem pure_eq (a : α) : (pure a : Prog C R α) = ret a := rfl

@[simp] theorem ret_bind (a : α) (f : α → Prog C R β) : (ret a >>= f) = f a := rfl

@[simp] theorem call_bind (c : C) (k : R c → Prog C R α) (f : α → Prog C R β) :
    (call c k >>= f) = call c fun r => k r >>= f := rfl

@[simp] theorem perform_bind (c : C) (f : R c → Prog C R β) : (perform c >>= f) = call c f := rfl

/-! ## The weakest precondition -/

section Wp

variable (P : C → L → Prop) (X : (c : C) → L → R c → L → Prop)

/-- `P` holds before every call, and `Q` of the result and the state at the end. -/
def wp : Prog C R α → (α → L → Prop) → L → Prop
  | ret a, Q, l => Q a l
  | call c k, Q, l => P c l ∧ ∀ r l', X c l r l' → (k r).wp Q l'

variable {P X} {p : Prog C R α} {Q Q' : α → L → Prop} {l : L}

theorem wp_mono (h : p.wp P X Q l) (hQ : ∀ a l, Q a l → Q' a l) : p.wp P X Q' l := by
  induction p generalizing l with
  | ret a => exact hQ a l h
  | call c k ih => exact ⟨h.1, fun r l' hx => ih r (h.2 r l' hx)⟩

/-- **Sequential composition.** -/
theorem wp_bind {f : α → Prog C R β} {Q : β → L → Prop}
    (h : p.wp P X (fun a l => (f a).wp P X Q l) l) : (p >>= f).wp P X Q l := by
  induction p generalizing l with
  | ret a => exact h
  | call c k ih => exact ⟨h.1, fun r l' hx => ih r (h.2 r l' hx)⟩

/-- **A loop over a list**, with an invariant on the items that are left. -/
theorem wp_forM {f : γ → Prog C R PUnit} {xs : List γ} {I : List γ → L → Prop}
    (hstep : ∀ x ys l, I (x :: ys) l → (f x).wp P X (fun _ => I ys) l) (h : I xs l) :
    (xs.forM f).wp P X (fun _ => I []) l := by
  induction xs generalizing l with
  | nil => exact h
  | cons x xs ih => exact wp_bind (wp_mono (hstep x xs l h) fun _ _ h1 => ih h1)

end Wp

/-! ## Running a program -/

section Interp

variable {S T : Type} {h : (c : C) → S → Option (R c × S)} {g : (c : C) → T → Option (R c × T)}
variable {p : Prog C R α} {a : α} {s s' : S} {t : T}

/-- The result of a program, and the state that it leaves. -/
def interp (h : (c : C) → S → Option (R c × S)) : Prog C R α → S → Option (α × S)
  | ret a, s => some (a, s)
  | call c k, s => (h c s).bind fun r => (k r.1).interp h r.2

@[simp] theorem interp_ret (a : α) (s : S) : (ret a).interp h s = some (a, s) := rfl

@[simp] theorem interp_call (c : C) (k : R c → Prog C R α) (s : S) :
    (call c k).interp h s = (h c s).bind fun r => (k r.1).interp h r.2 := rfl

/-- **Sequential composition.** -/
@[simp] theorem interp_bind (p : Prog C R α) (f : α → Prog C R β) (s : S) :
    (p >>= f).interp h s = (p.interp h s).bind fun r => (f r.1).interp h r.2 := by
  induction p generalizing s with
  | ret a => rfl
  | call c k ih =>
    rw [call_bind, interp_call, interp_call, Option.bind_assoc]
    exact congrArg _ (funext fun r => ih r.1 r.2)

/-- **Invariants.** -/
theorem interp_inv {I : S → Prop} (hstep : ∀ c s r s', I s → h c s = some (r, s') → I s')
    (hp : p.interp h s = some (a, s')) (hs : I s) : I s' := by
  induction p generalizing s with
  | ret b => cases hp; exact hs
  | call c k ih =>
    obtain ⟨⟨r, s₁⟩, h1, h2⟩ := Option.bind_eq_some_iff.1 hp
    exact ih r h2 (hstep c s r s₁ hs h1)

/-- **Simulation**: a machine whose calls are those of another has its runs only. -/
theorem interp_sim {E : S → T → Prop}
    (hstep : ∀ c s t r s', E s t → h c s = some (r, s') → ∃ t', g c t = some (r, t') ∧ E s' t')
    (hp : p.interp h s = some (a, s')) (hst : E s t) : ∃ t', p.interp g t = some (a, t') ∧ E s' t' := by
  induction p generalizing s t with
  | ret b => cases hp; exact ⟨t, rfl, hst⟩
  | call c k ih =>
    obtain ⟨⟨r, s₁⟩, h1, h2⟩ := Option.bind_eq_some_iff.1 hp
    obtain ⟨t₁, h3, h4⟩ := hstep c s t r s₁ hst h1
    obtain ⟨t', h5, h6⟩ := ih r h2 h4
    refine ⟨t', ?_, h6⟩
    rw [interp_call, h3]
    exact h5

open Classical in
/-- The machine that accepts only the calls for which `G` holds. -/
noncomputable def guarded (G : C → S → Prop) (h : (c : C) → S → Option (R c × S)) (c : C) (s : S) :
    Option (R c × S) := if G c s then h c s else none

theorem guarded_pos {G : C → S → Prop} {c : C} (hG : G c s) : guarded G h c s = h c s := if_pos hG

theorem of_guarded {G : C → S → Prop} {c : C} {r : R c × S} (hr : guarded G h c s = some r) :
    G c s ∧ h c s = some r := by
  unfold guarded at hr
  split at hr
  · exact ⟨by assumption, hr⟩
  · cases hr

/-- What runs on the guarded machine runs on the machine. -/
theorem interp_guarded {G : C → S → Prop} (hp : p.interp (guarded G h) s = some (a, s')) :
    p.interp h s = some (a, s') := by
  obtain ⟨t, h1, rfl⟩ := interp_sim (g := h) (E := Eq)
    (fun c s t r s' hst hr => ⟨s', hst ▸ (of_guarded hr).2, rfl⟩) hp rfl
  exact h1

/-- The first `n` calls of a run, and the state after them. -/
def after (h : (c : C) → S → Option (R c × S)) : ℕ → Prog C R α → S → Option (List C × S)
  | 0, _, s => some ([], s)
  | _, ret _, s => some ([], s)
  | n + 1, call c k, s => do
    let (r, s) ← h c s
    let (cs, s) ← (k r).after h n s
    some (c :: cs, s)

/-- Calls one after the other, whatever they return. -/
def calls (h : (c : C) → S → Option (R c × S)) (cs : List C) (s : S) : Option S :=
  cs.foldlM (fun s c => (h c s).map (·.2)) s

theorem calls_concat {cs : List C} {c : C} (hs : calls h (cs ++ [c]) s = some s') :
    ∃ s₁ r, calls h cs s = some s₁ ∧ h c s₁ = some (r, s') := by
  unfold calls at hs
  rw [List.foldlM_append] at hs
  obtain ⟨s₁, h1, h2⟩ := Option.bind_eq_some_iff.1 hs
  rw [List.foldlM_cons] at h2
  obtain ⟨s₂, h3, h4⟩ := Option.bind_eq_some_iff.1 h2
  obtain rfl := Option.some.inj h4
  obtain ⟨⟨r, _⟩, h5, rfl⟩ := Option.map_eq_some_iff.1 h3
  exact ⟨s₁, r, h1, h5⟩

theorem calls_append {cs ds : List C} {s₁ : S} (h1 : calls h cs s = some s₁) :
    calls h (cs ++ ds) s = calls h ds s₁ := by
  unfold calls at h1 ⊢
  rw [List.foldlM_append, h1]
  rfl

/-- A run that is cut off is a list of calls. -/
theorem calls_after {n : ℕ} {cs : List C} (ha : p.after h n s = some (cs, s')) : calls h cs s = some s' := by
  induction n generalizing p s cs with
  | zero => cases ha; rfl
  | succ n ih =>
    cases p with
    | ret a => cases ha; rfl
    | call c k =>
      obtain ⟨⟨r, s₁⟩, h1, h2⟩ := Option.bind_eq_some_iff.1 ha
      obtain ⟨⟨cs', s₂⟩, h3, h4⟩ := Option.bind_eq_some_iff.1 h2
      obtain ⟨rfl, rfl⟩ := Prod.mk.inj (Option.some.inj h4)
      have hc : calls h [c] s = some s₁ := by
        unfold calls
        rw [List.foldlM_cons, h1]
        rfl
      exact (calls_append hc).trans (ih h3)

end Interp

end Prog

end Jos.Lib
