import Jos.Proof.Boot
import Jos.Proof.Envs

/-!
# Environment ids

The run of a slot: `env_init` makes all slots free, `env_alloc` gives the first slot of the
free list a new id, `env_free` puts a slot back. `Slots` collects such runs with what was
issued, in any interleaving and with the rest of the kernel in between.

* `idOf e n` is the id that the `n`-th allocation of slot `e` yields. The generation
  counts from 1 to 524287 and starts again, since the sign bit of an id is never set.
* `SlotsInv` is the invariant: the free list, and that the id of slot `e` after `n`
  allocations is `idOf e n`.
* `env_ids` assembles what follows for ids and for `envid2env`.
-/

namespace Jos

open Lib

variable {k₀ k k' : Kernel} {e cur : EnvIdx} {parent id : EnvId} {n n' : ℕ} {r : ℤ}

/-! ## The generations -/

/-- The number of generations: the uniqueifier of an id has 21 bits, of which the lowest
two are not used. -/
def generations : ℕ := 524287

/-- The generation of the `n`-th allocation of a slot, counted from 1. -/
def genOf (n : ℕ) : ℕ := (n - 1) % generations + 1

/-- The id of slot `e` after `n` allocations. -/
def idOf (e : EnvIdx) (n : ℕ) : EnvId :=
  if n = 0 then 0 else BitVec.ofNat 32 (genOf n * 4096 + e)

theorem genOf_bounds (n : ℕ) : 1 ≤ genOf n ∧ genOf n ≤ 524287 := by
  unfold genOf generations
  omega

theorem genOf_succ (hn : n ≠ 0) : genOf (n + 1) = if genOf n = 524287 then 1 else genOf n + 1 := by
  unfold genOf generations
  split <;> omega

theorem idOf_toNat (e : EnvIdx) (hn : n ≠ 0) : (idOf e n).toNat = genOf n * 4096 + e := by
  have h1 := genOf_bounds n
  have h2 : e.val < 1024 := e.isLt
  unfold idOf
  rw [if_neg hn, BitVec.toNat_ofNat, Nat.mod_eq_of_lt (by omega)]

/-- Clearing the index bits. -/
theorem toNat_clear (x : BitVec 32) :
    (x &&& ~~~(BitVec.ofNat 32 (nenv - 1))).toNat = x.toNat / 1024 * 1024 := by
  have h1 : x &&& ~~~(BitVec.ofNat 32 (nenv - 1)) = (x >>> 10) <<< 10 := by
    ext i hi
    have h2 : (BitVec.ofNat 32 (nenv - 1))[i] = decide (i < 10) := by
      have h3 : ∀ j : Fin 32, (BitVec.ofNat 32 (nenv - 1)).getLsbD j = decide (j.val < 10) := by decide
      rw [← BitVec.getLsbD_eq_getElem]
      exact h3 ⟨i, hi⟩
    rw [BitVec.getElem_and, BitVec.getElem_not, h2, BitVec.getElem_shiftLeft]
    by_cases h : i < 10
    · simp [h]
    · have h4 : 10 + (i - 10) = i := by omega
      simp [h, h4, BitVec.getLsbD_eq_getElem hi]
  have h5 := x.isLt
  rw [h1, BitVec.toNat_shiftLeft, BitVec.toNat_ushiftRight, Nat.shiftLeft_eq, Nat.shiftRight_eq_div_pow]
  omega

/-- Setting the index bits. -/
theorem toNat_index {x : BitVec 32} (e : EnvIdx) (hx : x.toNat % 1024 = 0) :
    (x ||| BitVec.ofNat 32 e).toNat = x.toNat + e := by
  have h1 : e.val < 1024 := e.isLt
  have h2 := Nat.two_pow_add_eq_or_of_lt (i := 10) (b := e.val) h1 (x.toNat / 1024)
  rw [BitVec.toNat_or, BitVec.toNat_ofNat, Nat.mod_eq_of_lt (by omega)]
  rw [show 2 ^ 10 * (x.toNat / 1024) = x.toNat by omega] at h2
  omega

/-- The new generation, as a number: the sum of an old id in range never wraps, and its
sign bit is set exactly after the last generation. -/
theorem nextEnvId_toNat (e : EnvIdx) {old : EnvId} (ho : old.toNat < 2 ^ 31) :
    (nextEnvId e old).toNat =
      (if (old.toNat + 4096) / 1024 * 1024 < 2 ^ 31 then (old.toNat + 4096) / 1024 * 1024 else 4096) + e := by
  have hsum : (old + 0x1000#32).toNat = old.toNat + 4096 := by
    rw [BitVec.toNat_add]
    exact Nat.mod_eq_of_lt (by simp only [BitVec.toNat_ofNat]; omega)
  have hclear := toNat_clear (old + 0x1000#32)
  rw [hsum] at hclear
  have hint := BitVec.toInt_eq_toNat_cond ((old + 0x1000#32) &&& ~~~(BitVec.ofNat 32 (nenv - 1)))
  rw [hclear] at hint
  unfold nextEnvId
  simp only
  by_cases h : (old.toNat + 4096) / 1024 * 1024 < 2 ^ 31
  · rw [if_pos h, if_neg (by rw [hint, if_pos (by omega)]; omega), toNat_index e (by rw [hclear]; omega),
      hclear]
  · rw [if_neg h, if_pos (by rw [hint, if_neg (by omega)]; omega)]
    exact toNat_index e rfl

/-- **One allocation moves to the next id.** -/
theorem nextEnvId_idOf (e : EnvIdx) (n : ℕ) : nextEnvId e (idOf e n) = idOf e (n + 1) := by
  have h1 : e.val < 1024 := e.isLt
  refine BitVec.eq_of_toNat_eq ?_
  rw [idOf_toNat e (by omega)]
  by_cases hn : n = 0
  · subst hn
    have h0 : idOf e 0 = 0 := if_pos rfl
    have h2 : (0 : EnvId).toNat = 0 := rfl
    have h3 : genOf (0 + 1) = 1 := rfl
    rw [h0, nextEnvId_toNat e (by decide), h2, h3, if_pos (by omega)]
  · have hb := genOf_bounds n
    have ho := idOf_toNat e hn
    rw [nextEnvId_toNat e (by omega), ho, genOf_succ hn]
    by_cases hg : genOf n = 524287
    · rw [if_pos hg, if_neg (by omega)]
    · rw [if_neg hg, if_pos (by omega)]
      omega

theorem envx_idOf (hn : n ≠ 0) : envx (idOf e n) = e := by
  have h1 : e.val < 1024 := e.isLt
  ext
  change (idOf e n).toNat % 1024 = e
  rw [idOf_toNat e hn]
  omega

theorem idOf_pos (hn : n ≠ 0) : 0 < (idOf e n).toInt := by
  have h1 : e.val < 1024 := e.isLt
  have h2 := genOf_bounds n
  have h3 := idOf_toNat e hn
  rw [BitVec.toInt_eq_toNat_cond, if_pos (by omega)]
  omega

theorem idOf_ne_zero (hn : n ≠ 0) : idOf e n ≠ 0 := by
  intro h
  have h1 := idOf_pos (e := e) hn
  rw [h] at h1
  exact absurd h1 (by decide)

/-- The ids of a slot repeat after 524287 allocations. -/
theorem idOf_eq_iff (hn : n ≠ 0) (d : ℕ) : idOf e (n + d) = idOf e n ↔ 524287 ∣ d := by
  rw [← BitVec.toNat_inj, idOf_toNat e hn, idOf_toNat e (by omega)]
  unfold genOf generations
  constructor
  · intro h
    exact Nat.dvd_of_mod_eq_zero (by omega)
  · rintro ⟨q, rfl⟩
    have h1 : n + 524287 * q - 1 = n - 1 + 524287 * q := by omega
    rw [h1, Nat.add_mul_mod_self_left]

/-! ## Runs -/

/-- One `env_alloc` that succeeded: the slot, the id of the parent, and the id issued. -/
structure Alloc where
  slot : EnvIdx
  parent : EnvId
  id : EnvId

/-- **The runs of the slots** from `env_init`, with what was issued, newest first. -/
inductive Slots (k₀ : Kernel) : List Alloc → Kernel → Prop
  | init : Slots k₀ [] (envInit k₀)
  | alloc {l : List Alloc} {k k' : Kernel} {parent : EnvId} {e : EnvIdx} : Slots k₀ l k →
    envAlloc k parent = some (.ok e, k') → Slots k₀ (⟨e, parent, (k'.envs e).envId⟩ :: l) k'
  | failed {l : List Alloc} {k k' : Kernel} {parent : EnvId} {r : ℤ} : Slots k₀ l k →
    envAlloc k parent = some (.error r, k') → Slots k₀ l k'
  | free {l : List Alloc} {k k' : Kernel} {e : EnvIdx} : Slots k₀ l k → k.Live e →
    envFree k e = some k' → Slots k₀ l k'
  | other {l : List Alloc} {k k' : Kernel} : Slots k₀ l k → SameSlots k k' → Slots k₀ l k'

/-- How often slot `e` was allocated. -/
def allocs (l : List Alloc) (e : EnvIdx) : ℕ := l.countP (·.slot = e)

/-- The last allocation of slot `e`. -/
def latest (l : List Alloc) (e : EnvIdx) : Option Alloc := l.find? (·.slot = e)

/-- `id` names the current occupant of slot `e`. -/
def Occupant (l : List Alloc) (k : Kernel) (e : EnvIdx) (id : EnvId) : Prop :=
  k.Live e ∧ ∃ a, latest l e = some a ∧ a.id = id

variable {l l₁ l₂ : List Alloc} {a : Alloc}

theorem allocs_cons : allocs (a :: l) e = allocs l e + if a.slot = e then 1 else 0 := by
  unfold allocs
  rw [List.countP_cons]
  simp

theorem allocs_append : allocs (l₂ ++ l₁) e = allocs l₂ e + allocs l₁ e := List.countP_append ..

theorem latest_cons : latest (a :: l) e = if a.slot = e then some a else latest l e := by
  unfold latest
  rw [List.find?_cons]
  by_cases h : a.slot = e <;> simp [h]

/-- **The invariant of the slots.** -/
structure SlotsInv (l : List Alloc) (k : Kernel) : Prop where
  free : FreeSlots k
  id : ∀ e, (k.envs e).envId = idOf e (allocs l e)
  issued : ∀ l₂ a l₁, l = l₂ ++ a :: l₁ → a.id = idOf a.slot (allocs l₁ a.slot + 1)
  latest : ∀ e, k.Live e → ∃ a, latest l e = some a ∧ a.id = (k.envs e).envId ∧
    a.parent = (k.envs e).envParentId
  live : ∀ e, k.Live e → allocs l e ≠ 0

/-! ### `env_init` -/

/-- The slots after `n` turns of the loop of `env_init`. -/
structure InitUpTo (n : ℕ) (s : Kernel × Option EnvIdx) : Prop where
  head : s.1.envFreeList = some 0
  last : ∀ e : EnvIdx, s.2 = some e ↔ e.val + 1 = n
  id : ∀ e : EnvIdx, e.val < n → (s.1.envs e).envId = 0
  status : ∀ e : EnvIdx, e.val < n → (s.1.envs e).envStatus = .free
  link : ∀ e x : EnvIdx, e.val < n → ((s.1.envs e).envLink = some x ↔ x.val = e.val + 1 ∧ x.val < n)

/-- One turn of the loop. -/
theorem InitUpTo.step {s : Kernel × Option EnvIdx} (h : InitUpTo n s) {i : EnvIdx} (hi : i.val = n) :
    InitUpTo (n + 1) (envInitSlot s i) := by
  obtain ⟨k, last⟩ := s
  have hne : ∀ e : EnvIdx, e.val < n → e ≠ i := by rintro e he rfl; omega
  have hlt : ∀ e : EnvIdx, e.val < n + 1 → e = i ∨ e.val < n := fun e he => by
    rcases Nat.lt_succ_iff_lt_or_eq.1 he with he | he
    · exact Or.inr he
    · exact Or.inl (Fin.ext (he.trans hi.symm))
  cases last with
  | none =>
    have hn : n = 0 := by
      by_contra hn
      have h1 := i.isLt
      have h2 := (h.last ⟨n - 1, by omega⟩).2 (by simp only; omega)
      cases h2
    subst hn
    have hi' : (envInitSlot (k, none) i).1.envs i =
        { k.envs i with envId := 0, envStatus := .free, envLink := none } := Kernel.setEnv_self
    refine ⟨h.head, fun e => ?_, fun e he => ?_, fun e he => ?_, fun e x he => ?_⟩
    · change some i = some e ↔ _
      rw [Option.some_inj]
      exact ⟨fun h1 => by rw [← h1, hi], fun h1 => Fin.ext (by omega)⟩
    · obtain rfl : e = i := (hlt e he).resolve_right (by omega)
      rw [hi']
    · obtain rfl : e = i := (hlt e he).resolve_right (by omega)
      rw [hi']
    · obtain rfl : e = i := (hlt e he).resolve_right (by omega)
      rw [hi']
      exact ⟨nofun, fun h1 => by omega⟩
  | some j =>
    have hj : j.val + 1 = n := (h.last j).1 rfl
    have hij : i ≠ j := by rintro rfl; omega
    have hji : j ≠ i := hij.symm
    -- slot `i` is cleared, and the slot before it linked to it
    have hi' : ((envInitSlot (k, some j) i).1.envs i) =
        { k.envs i with envId := 0, envStatus := .free, envLink := none } := by
      simp only [envInitSlot]
      rw [Kernel.setEnv_of_ne hij, Kernel.setEnv_self]
    have hj' : ((envInitSlot (k, some j) i).1.envs j) = { k.envs j with envLink := some i } := by
      simp only [envInitSlot]
      rw [Kernel.setEnv_self, Kernel.setEnv_of_ne hji]
    have ho : ∀ e, e ≠ i → e ≠ j → (envInitSlot (k, some j) i).1.envs e = k.envs e := by
      intro e h1 h2
      simp only [envInitSlot]
      rw [Kernel.setEnv_of_ne h2, Kernel.setEnv_of_ne h1]
    refine ⟨h.head, fun e => ?_, fun e he => ?_, fun e he => ?_, fun e x he => ?_⟩
    · change some i = some e ↔ _
      rw [Option.some_inj]
      exact ⟨fun h1 => by rw [← h1, hi], fun h1 => Fin.ext (by omega)⟩
    · rcases hlt e he with rfl | he
      · rw [hi']
      · by_cases hej : e = j
        · subst hej; rw [hj']; exact h.id e he
        · rw [ho e (hne e he) hej]; exact h.id e he
    · rcases hlt e he with rfl | he
      · rw [hi']
      · by_cases hej : e = j
        · subst hej; rw [hj']; exact h.status e he
        · rw [ho e (hne e he) hej]; exact h.status e he
    · rcases hlt e he with rfl | he
      · rw [hi']
        exact ⟨nofun, fun h1 => by omega⟩
      · by_cases hej : e = j
        · subst hej
          rw [hj', Option.some_inj]
          exact ⟨fun h1 => by rw [← h1]; omega, fun h1 => Fin.ext (by omega)⟩
        · rw [ho e (hne e he) hej, h.link e x he]
          have h1 : e.val ≠ j.val := fun h1 => hej (Fin.ext h1)
          omega

/-- **What `env_init` leaves**: free slots with id 0, in a list in the order of the array. -/
theorem envInit_upTo (k : Kernel) : ∃ s, envInit k = s.1 ∧ InitUpTo nenv s := by
  have key : ∀ n, n ≤ nenv → InitUpTo n
      (((List.finRange nenv).take n).foldl envInitSlot (k.setFree (some 0), none)) := by
    intro n
    induction n with
    | zero =>
      intro _
      exact ⟨rfl, fun e => ⟨nofun, nofun⟩, fun e he => absurd he (Nat.not_lt_zero _),
        fun e he => absurd he (Nat.not_lt_zero _), fun e x he => absurd he (Nat.not_lt_zero _)⟩
    | succ n ih =>
      intro hn
      have h1 : (List.finRange nenv)[n]? = some ⟨n, hn⟩ := by
        rw [List.getElem?_eq_getElem (by rw [List.length_finRange]; exact hn), List.getElem_finRange]
        rfl
      rw [List.take_add_one, h1, Option.toList_some, List.foldl_append]
      exact (ih (by omega)).step rfl
  have h1 := key nenv le_rfl
  rw [List.take_of_length_le (by rw [List.length_finRange])] at h1
  exact ⟨_, rfl, h1⟩

theorem SlotsInv.init : SlotsInv [] (envInit k₀) := by
  obtain ⟨s, h1, h2⟩ := envInit_upTo k₀
  rw [h1]
  have hfree : ∀ e, ¬ s.1.Live e := fun e he => he (h2.status e e.isLt)
  refine ⟨?_, fun e => ?_, fun l₂ a l₁ h => ?_, fun e he => absurd he (hfree e),
    fun e he => absurd he (hfree e)⟩
  · have hlink : ∀ e x, s.1.link e = some x ↔ x.val = e.val + 1 := fun e x =>
      (h2.link e x e.isLt).trans ⟨fun h => h.1, fun h => ⟨h, x.isLt⟩⟩
    obtain ⟨l, h3, h4⟩ := Chain.range hlink 0
    refine ⟨l, by rw [h2.head]; exact h3, fun e => ⟨fun _ => hfree e, fun _ => (h4 e).2 (Nat.zero_le _)⟩⟩
  · rw [h2.id e e.isLt]; rfl
  · cases l₂ <;> cases h

/-! ### The steps -/

theorem SlotsInv.alloc (h : SlotsInv l k) (ha : Issued k k' parent e) :
    SlotsInv (⟨e, parent, (k'.envs e).envId⟩ :: l) k' := by
  have hlive : ∀ x, x ≠ e → (k'.Live x ↔ k.Live x) := by
    intro x hx; unfold Kernel.Live; rw [ha.other x hx]
  have hid : (k'.envs e).envId = idOf e (allocs l e + 1) := by rw [ha.id, h.id e, nextEnvId_idOf]
  refine ⟨(h.free.issued ha).1, fun x => ?_, fun l₂ a l₁ hl₂ => ?_, fun x hx => ?_, fun x hx => ?_⟩
  · rw [allocs_cons]
    by_cases hx : x = e
    · subst hx; rw [if_pos rfl, hid]
    · rw [if_neg (Ne.symm hx), ha.other x hx, h.id x]; rfl
  · rcases List.append_eq_cons_iff.1 hl₂.symm with ⟨rfl, h1⟩ | ⟨l₃, rfl, h1⟩
    · cases h1; exact hid
    · exact h.issued l₃ a l₁ h1
  · rw [latest_cons]
    by_cases hxe : x = e
    · subst hxe
      exact ⟨_, if_pos rfl, rfl, ha.parentId.symm⟩
    · rw [if_neg (Ne.symm hxe), ha.other x hxe]
      exact h.latest x ((hlive x hxe).1 hx)
  · rw [allocs_cons]
    by_cases hxe : x = e
    · subst hxe; rw [if_pos rfl]; omega
    · rw [if_neg (Ne.symm hxe)]
      exact h.live x ((hlive x hxe).1 hx)

theorem SlotsInv.freed (h : SlotsInv l k) (hl : k.Live e) (hf : Freed k k' e) : SlotsInv l k' := by
  have hdead : ¬ k'.Live e := fun hn => hn hf.status
  have hlive : ∀ x, k'.Live x → x ≠ e ∧ k.Live x := by
    intro x hx
    have hxe : x ≠ e := by rintro rfl; exact hdead hx
    refine ⟨hxe, ?_⟩
    unfold Kernel.Live at hx ⊢; rwa [hf.other x hxe] at hx
  refine ⟨h.free.freed hl hf, fun x => ?_, h.issued, fun x hx => ?_,
    fun x hx => h.live x (hlive x hx).2⟩
  · by_cases hx : x = e
    · subst hx; rw [hf.id]; exact h.id x
    · rw [hf.other x hx]; exact h.id x
  · rw [hf.other x (hlive x hx).1]
    exact h.latest x (hlive x hx).2

theorem SlotsInv.other (h : SlotsInv l k) (hs : SameSlots k k') : SlotsInv l k' := by
  have hlive : ∀ x, k'.Live x ↔ k.Live x := fun x => not_congr (hs.status x)
  refine ⟨h.free.other hs, fun x => by rw [hs.id]; exact h.id x, h.issued, fun x hx => ?_,
    fun x hx => h.live x ((hlive x).1 hx)⟩
  rw [hs.id, hs.parentId]
  exact h.latest x ((hlive x).1 hx)

/-- **The invariant holds in every run.** -/
theorem Slots.inv (h : Slots k₀ l k) : SlotsInv l k := by
  induction h with
  | init => exact .init
  | alloc _ ha ih => exact ih.alloc (envAlloc_issued ha)
  | failed _ hf ih =>
    obtain ⟨-, h1, h2⟩ := envAlloc_failed hf
    exact ih.other ⟨h2, fun e => by rw [h1], fun e => by rw [h1], fun e => by rw [h1], fun e => by rw [h1]⟩
  | free _ hl hf ih => exact ih.freed hl (envFree_freed hf)
  | other _ hs ih => exact ih.other hs

/-! ### The events of the kernel -/

/-- `env_destroy` of a live environment. -/
theorem Slots.envDestroy {c : Option EnvIdx} {g : Bool} (h : Slots k₀ l k) (hl : k.Live e)
    (hd : envDestroy k c e = some (g, k')) : Slots k₀ l k' := by
  rcases envDestroy_cases hd with ⟨-, -, -, rfl⟩ | ⟨-, -, hf⟩
  · exact h.other (SameSlots.refl.setStatus hl rfl rfl rfl (by simp))
  · exact h.free hl hf

/-- **A run of the kernel is a run of its slots**: `env_free` is called on live environments
only, and no other event touches the slots. -/
theorem Slots.step {ev : Event} (h : Slots k₀ l k) (hs : Jos.step k ev = some k') :
    ∃ l', Slots k₀ l' k' := by
  cases ev with
  | syscall cur call =>
    simp only [Jos.step] at hs
    split at hs
    · rename_i hc
      obtain ⟨o, h1, rfl⟩ := Option.map_eq_some_iff.1 hs
      cases exec_envEffect h1 with
      | memory => exact ⟨l, h.other SameSlots.refl.setPm⟩
      | yield => exact ⟨l, h⟩
      | @killed _ _ m _ _ h2 =>
        have h3 : Slots k₀ l (k.setPm m) := h.other SameSlots.refl.setPm
        exact ⟨l, h3.envDestroy hc.1 h2⟩
      | @destroy _ e g k₁ h2 h3 =>
        have h4 := h.envDestroy (envid2env_live hc.1 h2) h3
        exact ⟨l, by cases g <;> exact h4⟩
      | failedFork h2 => exact ⟨l, h.failed h2⟩
      | @fork e k₁ _ h2 =>
        have hl : k₁.Live e := by unfold Kernel.Live; rw [(envAlloc_issued h2).status]; decide
        exact ⟨_, (h.alloc h2).other (SameSlots.refl.setStatus hl rfl rfl rfl (by simp))⟩
      | setStatus hst h2 =>
        refine ⟨l, h.other (SameSlots.refl.setStatus (envid2env_live hc.1 h2) rfl rfl rfl ?_)⟩
        simp only
        split <;> decide
      | upcall => exact ⟨l, h.other (SameSlots.refl.setEnv rfl rfl rfl Iff.rfl)⟩
      | sent h2 =>
        exact ⟨l, h.other (SameSlots.refl.setPm.setStatus (envid2env_live hc.1 h2) rfl rfl rfl (by simp))⟩
      | recv => exact ⟨l, h.other (SameSlots.refl.setStatus hc.1 rfl rfl rfl (by simp))⟩
    · cases hs
  | trap cur tf =>
    simp only [Jos.step] at hs
    split at hs
    · cases hs; exact ⟨l, h.other (SameSlots.refl.setEnv rfl rfl rfl Iff.rfl)⟩
    · cases hs
  | fault cur =>
    simp only [Jos.step] at hs
    split at hs
    · rename_i hc
      obtain ⟨⟨g, k₁⟩, h1, rfl⟩ := Option.map_eq_some_iff.1 hs
      exact ⟨l, h.envDestroy hc.1 h1⟩
    · cases hs
  | reap cur =>
    simp only [Jos.step] at hs
    split at hs
    · rename_i hc
      exact ⟨l, h.free (by unfold Kernel.Live; rw [hc]; decide) hs⟩
    · cases hs
  | run c e =>
    simp only [Jos.step] at hs
    split at hs
    · cases hs; exact ⟨l, h.other (sameSlots_envRun ‹_›)⟩
    · cases hs
  | store cur va w =>
    simp only [Jos.step] at hs
    split at hs
    · obtain ⟨p, -, hs⟩ := Option.bind_eq_some_iff.1 hs
      obtain ⟨m, -, hs⟩ := Option.bind_eq_some_iff.1 hs
      cases hs
      exact ⟨l, h.other SameSlots.refl.setPm⟩
    · cases hs
  | create b type =>
    simp only [Jos.step, envCreate] at hs
    obtain ⟨⟨y, k₁⟩, h1, hs⟩ := Option.bind_eq_some_iff.1 hs
    cases y with
    | error y => cases hs
    | ok e =>
      obtain ⟨k₂, h2, hs⟩ := Option.bind_eq_some_iff.1 hs
      cases hs
      exact ⟨_, ((h.alloc h1).other (sameSlots_loadIcode h2)).other
        (SameSlots.refl.setEnv rfl rfl rfl Iff.rfl)⟩

/-! ## Ids -/

/-- The occupant of a slot has the id of the last allocation. -/
theorem SlotsInv.occupant_iff (h : SlotsInv l k) :
    Occupant l k e id ↔ k.Live e ∧ (k.envs e).envId = id := by
  constructor
  · rintro ⟨hl, a, h1, h2⟩
    obtain ⟨b, h3, h4, -⟩ := h.latest e hl
    rw [h3] at h1; cases h1
    exact ⟨hl, h4.symm.trans h2⟩
  · rintro ⟨hl, h1⟩
    obtain ⟨b, h3, h4, -⟩ := h.latest e hl
    exact ⟨hl, b, h3, h4.trans h1⟩

/-- `envid2env` without the permission check. -/
theorem envid2env_iff (hid : id ≠ 0) :
    envid2env k cur id false = some e ↔ e = envx id ∧ k.Live e ∧ (k.envs e).envId = id := by
  unfold envid2env
  rw [if_neg hid]
  simp only [Bool.false_eq_true, false_and, if_false]
  split
  · rename_i h
    refine ⟨nofun, ?_⟩
    rintro ⟨rfl, h1, h2⟩
    rcases h with h | h
    · exact absurd h h1
    · exact absurd h2 h
  · rename_i h
    rw [Option.some_inj]
    constructor
    · rintro rfl
      exact ⟨rfl, fun h1 => h (Or.inl h1), not_not.1 fun h1 => h (Or.inr h1)⟩
    · rintro ⟨rfl, -, -⟩; rfl

/-- What the permission check adds. -/
theorem envid2env_checkperm : envid2env k cur id true = some e ↔
    envid2env k cur id false = some e ∧ (e = cur ∨ (k.envs e).envParentId = (k.envs cur).envId) := by
  unfold envid2env
  split
  · rw [Option.some_inj]
    exact ⟨fun h => ⟨h, Or.inl h.symm⟩, fun h => h.1⟩
  · simp only [true_and, Bool.false_eq_true, false_and, if_false]
    split
    · simp
    · split
      · rename_i h
        refine ⟨nofun, ?_⟩
        rintro ⟨h1, h2⟩
        cases h1
        exact absurd h2 (not_or.2 ⟨h.1, h.2⟩)
      · rename_i h
        rw [Option.some_inj, not_and_or, not_not, not_not] at *
        exact ⟨fun h1 => ⟨h1, by rw [← h1]; exact h⟩, fun h1 => h1.1⟩

/-- The id of an old allocation names the occupant again after a multiple of 524287
allocations. -/
theorem SlotsInv.stale (h : SlotsInv l k) (hl : l = l₂ ++ a :: l₁) :
    envid2env k cur a.id false ≠ none ↔ k.Live a.slot ∧ 524287 ∣ allocs l₂ a.slot := by
  have hid := h.issued l₂ a l₁ hl
  have hn : allocs l₁ a.slot + 1 ≠ 0 := by omega
  have hx : envx a.id = a.slot := by rw [hid]; exact envx_idOf hn
  have h0 : a.id ≠ 0 := by rw [hid]; exact idOf_ne_zero hn
  have hcount : allocs l a.slot = allocs l₁ a.slot + 1 + allocs l₂ a.slot := by
    rw [hl, allocs_append, allocs_cons, if_pos rfl]; omega
  have hcur : (k.envs a.slot).envId = a.id ↔ 524287 ∣ allocs l₂ a.slot := by
    rw [h.id, hid, hcount]; exact idOf_eq_iff hn _
  rw [← hcur]
  constructor
  · intro hne
    obtain ⟨e, he⟩ := Option.ne_none_iff_exists'.1 hne
    obtain ⟨rfl, h1, h2⟩ := (envid2env_iff h0).1 he
    rw [hx] at h1 h2
    exact ⟨h1, h2⟩
  · rintro ⟨h1, h2⟩
    rw [(envid2env_iff h0).2 ⟨hx.symm, h1, h2⟩]
    simp

end Jos
