import Jos.Proof.Cpus

/-!
# Round-robin

`sched_yield` should search the slots from the one after `curenv`, and come to `curenv` last
(`RoundRobin`). It starts at `curenv` itself: `roundRobin_iff` says that this matters exactly when
`curenv` is runnable and is not the only one. `sys_env_set_status` lets an environment bring that
about, which then keeps the CPU.

The specification ranks the slots by their place in the circular order; the search of the code is
the first of a list, and `ring_find` says which slot that is.
-/

namespace Jos

namespace Machine

variable {n : ℕ} {s s' : Machine n} {c : Fin n} {e i j : EnvIdx} {k : ℕ}

/-! ## The order -/

/-- The place of slot `i` in the circular order that starts at slot `k`. -/
def place (k : ℕ) (i : EnvIdx) : ℕ := (i.val + nenv - k) % nenv

theorem place_lt : place k i < nenv := Nat.mod_lt _ (by decide)

/-- The slot at a place. -/
theorem place_slot (hk : k < nenv) : (k + place k i) % nenv = i.val := by
  have hi := i.isLt
  unfold place nenv at *
  omega

theorem place_at (hk : k < nenv) {t : ℕ} (ht : t < nenv) :
    place k ⟨(k + t) % nenv, Nat.mod_lt _ (by decide)⟩ = t := by
  unfold place nenv at *
  dsimp only
  omega

/-- **The search** finds the slot whose place is the lowest. -/
theorem ring_find (hk : k < nenv) {p : EnvIdx → Bool} : (ring k).find? p = some i ↔
    p i = true ∧ ∀ j, p j = true → place k i ≤ place k j := by
  unfold ring
  rw [List.find?_map, Option.map_eq_some_iff]
  simp only [List.find?_range_eq_some, Function.comp_apply, List.mem_range]
  constructor
  · rintro ⟨t, ⟨hp, ht, hlt⟩, rfl⟩
    refine ⟨hp, fun j hj => ?_⟩
    rw [place_at hk ht]
    by_contra hlt'
    have h1 := hlt (place k j) (by omega)
    have h2 : (⟨(k + place k j) % nenv, Nat.mod_lt _ (by decide)⟩ : EnvIdx) = j := Fin.ext (place_slot hk)
    rw [h2, hj] at h1
    cases h1
  · rintro ⟨hp, hmin⟩
    have h1 : (⟨(k + place k i) % nenv, Nat.mod_lt _ (by decide)⟩ : EnvIdx) = i := Fin.ext (place_slot hk)
    refine ⟨place k i, ⟨by rw [h1]; exact hp, place_lt, fun t ht => ?_⟩, h1⟩
    rw [Bool.not_eq_true']
    by_contra hp'
    rw [Bool.not_eq_false] at hp'
    have h2 := hmin _ hp'
    rw [place_at hk (lt_trans ht place_lt)] at h2
    omega

theorem ring_find_none {p : EnvIdx → Bool} (hk : k < nenv) :
    (ring k).find? p = none ↔ ∀ i, p i = false := by
  constructor
  · intro h i
    by_contra hp
    rw [List.find?_eq_none] at h
    refine h i ?_ (by simpa using hp)
    unfold ring
    exact List.mem_map.2 ⟨place k i, List.mem_range.2 place_lt, Fin.ext (place_slot hk)⟩
  · intro h
    rw [List.find?_eq_none]
    intro i _
    rw [h i]
    decide

/-! ## The law -/

/-- `i` is `ENV_RUNNABLE`. -/
def Runnable (s : Machine n) (i : EnvIdx) : Prop := (s.k.envs i).envStatus = .runnable

/-- The slot where the order starts: the one after `curenv`, or the first. -/
def firstSlot (s : Machine n) (c : Fin n) : ℕ :=
  match s.curenv c with
  | some e => (e.val + 1) % nenv
  | none => 0

/-- **Round-robin**: the first runnable environment after `curenv` is run; if there is none,
`curenv` goes on if it is running, and the CPU halts if not. What is run is runnable, or was running
here. -/
structure RoundRobin (s : Machine n) (c : Fin n) : Prop where
  first : ∀ i, s.Runnable i → (∀ j, s.Runnable j → place (s.firstSlot c) i ≤ place (s.firstSlot c) j) →
    s.schedYield c = some (s.envRun c i)
  back : (∀ i, ¬ s.Runnable i) → ∀ e, s.curenv c = some e → (s.k.envs e).envStatus = .running →
    s.schedYield c = some (s.envRun c e)
  halt : (∀ i, ¬ s.Runnable i) → (∀ e, s.curenv c = some e → (s.k.envs e).envStatus ≠ .running) →
    s.schedYield c = s.schedHalt c
  own : ∀ s' e, s.schedYield c = some s' → s'.curenv c = some e →
    s.Runnable e ∨ s.curenv c = some e ∧ (s.k.envs e).envStatus = .running

/-- The number of a slot is in the id of its environment. -/
def OwnSlot (s : Machine n) (c : Fin n) : Prop := ∀ e, s.curenv c = some e → envx (s.k.envs e).envId = e

/-- The slot where the search of `sched_yield` starts. -/
def searchSlot (s : Machine n) (c : Fin n) : ℕ :=
  match s.curenv c with
  | some e => e.val
  | none => 0

theorem searchSlot_lt : s.searchSlot c < nenv := by
  unfold searchSlot
  split
  · exact Fin.isLt _
  · decide

/-- **`sched_yield`**, for an environment that is runnable. -/
theorem schedYield_first (hs : s.OwnSlot c) (hi : s.Runnable i)
    (hmin : ∀ j, s.Runnable j → place (s.searchSlot c) i ≤ place (s.searchSlot c) j) :
    s.schedYield c = some (s.envRun c i) := by
  have h1 : (ring (s.searchSlot c)).find? (fun i => decide ((s.k.envs i).envStatus = .runnable)) = some i :=
    (ring_find searchSlot_lt).2 ⟨decide_eq_true (p := _ = _) hi, fun j hj => hmin j (of_decide_eq_true (p := _ = _) hj)⟩
  unfold schedYield
  unfold searchSlot at h1
  cases hc : s.curenv c with
  | none =>
    rw [hc] at h1
    simp only [h1]
  | some e =>
    rw [hc] at h1
    simp only [hs e hc, h1]

/-- **`sched_yield`**, if nothing is runnable. -/
theorem schedYield_none (hn : ∀ i, ¬ s.Runnable i) : s.schedYield c =
    match s.curenv c with
    | some e => if (s.k.envs e).envStatus = .running then some (s.envRun c e) else s.schedHalt c
    | none => s.schedHalt c := by
  have h1 : ∀ k < nenv, (ring k).find? (fun i => decide ((s.k.envs i).envStatus = .runnable)) = none :=
    fun k hk => (ring_find_none hk).2 fun i => decide_eq_false (hn i)
  unfold schedYield
  cases s.curenv c with
  | none => simp only [h1 0 (by decide)]
  | some e => simp only [h1 _ (Fin.isLt _)]

theorem envRun_here : (s.envRun c e).curenv c = some e := by
  rw [envRun_curenv]
  exact if_pos rfl

theorem schedHalt_curenv (h : s.schedHalt c = some s') : s'.curenv c = none := by
  unfold schedHalt at h
  split at h
  · cases h
    unfold curenv setCpu
    simp
  · cases h

/-- What `sched_yield` runs. -/
theorem schedYield_own (h : s.schedYield c = some s') (he : s'.curenv c = some e) :
    s.Runnable e ∨ s.curenv c = some e ∧ (s.k.envs e).envStatus = .running := by
  unfold schedYield at h
  simp only at h
  split at h
  · rename_i i hi
    cases h
    rw [envRun_here] at he
    cases he
    exact Or.inl (by simpa [Runnable] using List.find?_some hi)
  · split at h
    · rename_i x hx
      split at h
      · cases h
        rw [envRun_here] at he
        cases he
        exact Or.inr ⟨hx, ‹_›⟩
      · rw [schedHalt_curenv h] at he
        cases he
    · rw [schedHalt_curenv h] at he
      cases he

/-- In the order of the law `curenv` is the last; in that of the code it is the first, and the others
follow in the same order. -/
theorem place_shift (e : EnvIdx) (i : EnvIdx) : place ((e.val + 1) % nenv) i =
    if i = e then nenv - 1 else place e.val i - 1 := by
  have h1 := e.isLt
  have h2 := i.isLt
  unfold place nenv at *
  split
  · rename_i h
    subst h
    omega
  · rename_i h
    have h3 : i.val ≠ e.val := Fin.val_ne_of_ne h
    omega

theorem place_self : place e.val e = 0 := by
  have h1 := e.isLt
  unfold place nenv at *
  omega

theorem place_pos (h : i ≠ e) : 0 < place e.val i := by
  have h1 := e.isLt
  have h2 := i.isLt
  have h3 : i.val ≠ e.val := Fin.val_ne_of_ne h
  unfold place nenv at *
  omega

/-- If something is runnable, then one is the first. -/
theorem exists_first (k : ℕ) (h : s.Runnable i) :
    ∃ j, s.Runnable j ∧ (∀ x, s.Runnable x → place k j ≤ place k x) := by
  classical
  obtain ⟨j, hj, hmin⟩ := Finset.exists_min_image (Finset.univ.filter s.Runnable) (place k)
    ⟨i, Finset.mem_filter.2 ⟨Finset.mem_univ _, h⟩⟩
  exact ⟨j, (Finset.mem_filter.1 hj).2, fun x hx => hmin x (Finset.mem_filter.2 ⟨Finset.mem_univ _, hx⟩)⟩

/-- `curenv` is runnable, and is not the only one. -/
def Contended (s : Machine n) (c : Fin n) : Prop :=
  ∃ e, s.curenv c = some e ∧ s.Runnable e ∧ ∃ i, i ≠ e ∧ s.Runnable i

/-- A runnable `curenv` is run again, though another one is runnable. -/
theorem RoundRobin.uncontended (h : RoundRobin s c) (hs : s.OwnSlot c) : ¬ s.Contended c := by
  rintro ⟨e, hc, he, i, hne, hi⟩
  obtain ⟨j, hj, hmin⟩ := exists_first (s.firstSlot c) hi
  have h1 := h.first j hj hmin
  have h2 : s.schedYield c = some (s.envRun c e) := by
    refine schedYield_first hs he fun x _ => ?_
    unfold searchSlot
    rw [hc]
    dsimp only
    rw [place_self]
    exact Nat.zero_le _
  rw [h2] at h1
  have h3 : some e = some j := by
    rw [← envRun_here (s := s) (c := c) (e := e), ← envRun_here (s := s) (c := c) (e := j),
      Option.some.inj h1]
  cases h3
  -- but `curenv` is the last in the order
  have h4 := hmin i hi
  unfold firstSlot at h4
  rw [hc] at h4
  dsimp only at h4
  rw [place_shift, place_shift, if_pos rfl, if_neg hne] at h4
  have h5 := place_lt (k := e.val) (i := i)
  have h6 := place_pos hne
  omega

/-- **When the choice is round-robin**: if and only if `curenv` is not runnable, or nothing else
is. -/
theorem roundRobin_iff (hs : s.OwnSlot c) : RoundRobin s c ↔ ¬ s.Contended c := by
  constructor
  · intro h
    exact h.uncontended hs
  · intro hn
    refine ⟨fun i hi hmin => ?_, fun h1 e hc hr => ?_, fun h1 h2 => ?_, fun s' e h1 h2 => schedYield_own h1 h2⟩
    · refine schedYield_first hs hi fun j hj => ?_
      have h1 := hmin j hj
      unfold firstSlot at h1
      unfold searchSlot
      cases hc : s.curenv c with
      | none =>
        rw [hc] at h1
        exact h1
      | some e =>
        rw [hc] at h1
        dsimp only at h1 ⊢
        by_cases he : s.Runnable e
        · -- nothing but `curenv` is runnable
          have h2 : ∀ x, s.Runnable x → x = e := by
            intro x hx
            by_contra hne
            exact hn ⟨e, hc, he, x, hne, hx⟩
          rw [h2 i hi, h2 j hj]
        · have h2 : i ≠ e := fun h => he (h ▸ hi)
          have h3 : j ≠ e := fun h => he (h ▸ hj)
          rw [place_shift, place_shift, if_neg h2, if_neg h3] at h1
          have h4 := place_pos h2
          have h5 := place_pos h3
          omega
    · rw [schedYield_none h1, hc]
      exact if_pos hr
    · rw [schedYield_none h1]
      cases hc : s.curenv c with
      | none => rfl
      | some e => exact if_neg (h2 e hc)

/-! ## Two environments -/

/-- A CPU that runs the environment in slot 0, which has the given status. The one in slot 1 is
runnable. -/
def twoEnvs (st : EnvStatus) : Machine 1 where
  k := { bootKernel with envs := fun e => { bootKernel.envs e with
    envId := 0x1000 + BitVec.ofNat 32 e.val
    envStatus := if e.val = 0 then st else if e.val = 1 then .runnable else .free } }
  cpus := fun _ => { cpuEnv := some 0, cr3 := 0 }
  log := []

theorem twoEnvs_ownSlot (st : EnvStatus) : (twoEnvs st).OwnSlot 0 := by
  intro e he
  cases he
  change envx (0x1000 + BitVec.ofNat 32 0) = 0
  decide

/-- The timer interrupts the environment in slot 0. -/
theorem roundRobin_timer : RoundRobin (twoEnvs .running) 0 := by
  apply (roundRobin_iff (twoEnvs_ownSlot .running)).2
  rintro ⟨e, he, hr, -⟩
  cases he
  cases hr

/-- **This fails** after `sys_env_set_status(0, ENV_RUNNABLE)`: the caller is run again. -/
theorem roundRobin_counterexample : ¬ ∀ (s : Machine 1) c, s.OwnSlot c → RoundRobin s c := by
  intro h
  exact (h (twoEnvs .runnable) 0 (twoEnvs_ownSlot .runnable)).uncontended (twoEnvs_ownSlot .runnable)
    ⟨0, rfl, rfl, 1, by decide, rfl⟩

end Machine

end Jos
