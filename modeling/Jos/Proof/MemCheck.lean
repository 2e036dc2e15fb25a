import Jos.Proof.Frames

/-!
# `user_mem_check`

`userMemCheck_exact` says exactly when `user_mem_check` gives the right answer: 0 if every
address of the range is accessible, and the first one that is not otherwise. The range is
one of natural numbers, so it does not wrap around.

The loop tests whole pages, and the bounds of the loop are 64-bit words, so the cases are
those of the number of pages. In each the tests must be honest where they decide: without
`create` the walk takes an absent entry for physical page 0.
-/

namespace Jos

open Lib

variable {R : Roots} {m m' : Pmap} {fl : List ℕ} {e : EnvIdx} {r t q n i : ℕ} {va len p x : VA}
variable {a b : ℕ} {perm : BitVec 32} {w v : PTE} {l xs : List VA} {g : ℕ → VA} {d : Idx}

/-! ## What is right -/

/-- An address that an environment may access with `perm | PTE_P`. -/
def Accessible (m : Pmap) (r : ℕ) (perm : BitVec 32) (a : ℕ) : Prop :=
  a < ulim.toNat ∧ ∃ v, leafEntry m r (BitVec.ofNat 64 a) = some v ∧
    v &&& perm.signExtend 64 = perm.signExtend 64

/-- The right answer for the range of `len` addresses from `va`: `none` stands for 0, and
`some x` for `-E_FAULT` with `user_mem_check_addr` set to `x`. -/
def RightAnswer (m : Pmap) (r : ℕ) (va len : VA) (perm : BitVec 32) : Option VA → Prop
  | none => ∀ a, va.toNat ≤ a → a < va.toNat + len.toNat → Accessible m r perm a
  | some x => va.toNat ≤ x.toNat ∧ x.toNat < va.toNat + len.toNat ∧
    ¬ Accessible m r perm x.toNat ∧ ∀ a, va.toNat ≤ a → a < x.toNat → Accessible m r perm a

/-- `user_mem_check` does not panic, changes nothing and gives the right answer. -/
def Exact (m : Pmap) (r : ℕ) (va len : VA) (perm : BitVec 32) : Prop :=
  ∃ y, userMemCheck m r va len perm = some (y, m) ∧ RightAnswer m r va len perm y

/-! ## What is tested -/

/-- The word at which the walk of `va` without `create` ends, if it stays in RAM. -/
def leafWord (m : Pmap) (r : ℕ) (va : VA) : Option PTE :=
  (pml4eWalk m r va false).bind fun y => y.1.map fun pte => m.mem pte.page pte.ix

/-- The page of `va` passes the tests. -/
def Passes (m : Pmap) (r : ℕ) (perm : BitVec 32) (va : VA) : Prop :=
  va < ulim ∧ ∃ w, leafWord m r va = some w ∧ w &&& perm.signExtend 64 = perm.signExtend 64 ∧
    flag w pteP = true

/-- **The tests are honest at `va`**: the walk stays in RAM, and does not pass when the
address is not accessible (by taking the words of physical page 0 for a missing table). -/
def Honest (m : Pmap) (r : ℕ) (perm : BitVec 32) (va : VA) : Prop :=
  (∃ w, leafWord m r va = some w) ∧ (Passes m r perm va → Accessible m r perm va.toNat)

/-- One turn of the loop. -/
theorem userMemCheckLoop_cons : userMemCheckLoop m r va perm (p :: l) =
    (leafWord m r p).bind fun w =>
      if p ≥ ulim || w &&& perm.signExtend 64 != perm.signExtend 64 || !flag w pteP then
        some (some (if p < va then va else p), m)
      else userMemCheckLoop m r va perm l := by
  unfold leafWord
  rw [userMemCheckLoop]
  cases hw : pml4eWalk m r p false with
  | none => rfl
  | some y =>
    obtain ⟨q, hq⟩ : ∃ q, y = (some ⟨q, ptx p⟩, m) := by
      rw [pml4eWalk_eq] at hw
      exact walkPath_false hw
    subst hq
    rfl

theorem loop_pass (h : Passes m r perm p) :
    userMemCheckLoop m r va perm (p :: l) = userMemCheckLoop m r va perm l := by
  obtain ⟨h1, w, h2, h3, h4⟩ := h
  have h5 : ¬ p ≥ ulim := BitVec.not_le.2 h1
  rw [userMemCheckLoop_cons, h2, Option.bind_some]
  simp [h3, h4, h5]

theorem loop_fail (hw : leafWord m r p = some w) (h : ¬ Passes m r perm p) :
    userMemCheckLoop m r va perm (p :: l) = some (some (if p < va then va else p), m) := by
  rw [userMemCheckLoop_cons, hw, Option.bind_some, if_pos]
  by_contra hc
  simp only [Bool.or_eq_true, decide_eq_true_eq, bne_iff_ne, Bool.not_eq_true', not_or, not_not,
    Bool.not_eq_false, ge_iff_le, BitVec.not_le] at hc
  exact h ⟨hc.1.1, w, hw, hc.1.2, hc.2⟩

theorem loop_skip (h : ∀ q ∈ xs, Passes m r perm q) :
    userMemCheckLoop m r va perm (xs ++ l) = userMemCheckLoop m r va perm l := by
  induction xs with
  | nil => rfl
  | cons q xs ih =>
    rw [List.cons_append, loop_pass (h q List.mem_cons_self)]
    exact ih fun q hq => h q (List.mem_cons_of_mem _ hq)

/-- **What the loop finds**: all pages pass, or the tests end at the first that does not. -/
theorem loop_found {y : Option VA} (h : userMemCheckLoop m r va perm l = some (y, m')) :
    (y = none ∧ ∀ p ∈ l, Passes m r perm p) ∨ ∃ xs p ys, l = xs ++ p :: ys ∧
      (∀ q ∈ xs, Passes m r perm q) ∧ (∃ w, leafWord m r p = some w) ∧ ¬ Passes m r perm p ∧
      y = some (if p < va then va else p) := by
  induction l with
  | nil => cases h; exact Or.inl ⟨rfl, nofun⟩
  | cons p l ih =>
    by_cases hp : Passes m r perm p
    · rw [loop_pass hp] at h
      rcases ih h with ⟨h1, h2⟩ | ⟨xs, q, ys, rfl, h2, h3⟩
      · refine Or.inl ⟨h1, fun q hq => ?_⟩
        rcases List.mem_cons.1 hq with rfl | hq
        · exact hp
        · exact h2 q hq
      · refine Or.inr ⟨p :: xs, q, ys, rfl, fun s hs => ?_, h3⟩
        rcases List.mem_cons.1 hs with rfl | hs
        · exact hp
        · exact h2 s hs
    · cases hw : leafWord m r p with
      | none => rw [userMemCheckLoop_cons, hw] at h; cases h
      | some w =>
        rw [loop_fail hw hp] at h
        cases h
        exact Or.inr ⟨[], p, l, rfl, nofun, ⟨w, hw⟩, hp, rfl⟩

/-! ## The pages of the loop -/

theorem roundDown_toNat (va : VA) : (roundDown va pgsize).toNat = va.toNat / 4096 * 4096 := by
  have h := va.isLt
  have h1 : (va % pgsize).toNat = va.toNat % 4096 := BitVec.toNat_umod
  unfold roundDown
  rw [BitVec.toNat_sub, h1]
  omega

theorem roundUp_toNat (va : VA) :
    (roundUp va pgsize).toNat = (va.toNat + 4095) % 2 ^ 64 / 4096 * 4096 := by
  have h : va + pgsize - 1 = va + 4095#64 := by
    unfold pgsize
    exact add_sub_assoc _ _ _
  have h1 : (va + 4095#64).toNat = (va.toNat + 4095) % 2 ^ 64 := BitVec.toNat_add _ _
  unfold roundUp
  rw [roundDown_toNat, h, h1]

/-- The number of pages that are tested. -/
def pageCount (va len : VA) : ℕ :=
  ((roundUp (va + len) pgsize).toNat - (roundDown va pgsize).toNat) / 4096

/-- The page at place `i`. -/
def pageAt (va : VA) (i : ℕ) : VA := roundDown va pgsize + BitVec.ofNat 64 (i * 4096)

theorem userMemCheck_eq : userMemCheck m r va len perm =
    userMemCheckLoop m r va perm ((List.range (pageCount va len)).map (pageAt va)) := rfl

theorem pageAt_toNat (h : va.toNat / 4096 * 4096 + i * 4096 < 2 ^ 64) :
    (pageAt va i).toNat = va.toNat / 4096 * 4096 + i * 4096 := by
  unfold pageAt
  rw [BitVec.toNat_add, roundDown_toNat, BitVec.toNat_ofNat]
  omega

theorem pageCount_eq (va len : VA) : pageCount va len =
    (((va.toNat + len.toNat) % 2 ^ 64 + 4095) % 2 ^ 64 / 4096 * 4096 - va.toNat / 4096 * 4096) / 4096 := by
  unfold pageCount
  rw [roundUp_toNat, roundDown_toNat, BitVec.toNat_add]

/-- The loop over the pages, when all of them before place `i` pass. -/
theorem loop_at (va : VA) (hi : i < n) (hp : ∀ j < i, Passes m r perm (g j)) :
    ∃ l, userMemCheckLoop m r va perm ((List.range n).map g) =
      userMemCheckLoop m r va perm (g i :: l) := by
  obtain ⟨k, rfl⟩ := Nat.exists_eq_add_of_lt hi
  have h1 : (List.range (i + k + 1)).map g =
      (List.range i).map g ++ g i :: ((List.range k).map Nat.succ).map (g ∘ (i + ·)) := by
    rw [Nat.add_assoc, List.range_add, List.map_append, List.map_map, List.range_succ_eq_map,
      List.map_cons]
    rfl
  refine ⟨_, (congrArg _ h1).trans (loop_skip fun q hq => ?_)⟩
  obtain ⟨j, hj, rfl⟩ := List.mem_map.1 hq
  exact hp j (List.mem_range.1 hj)

/-- The first page that does not pass, by its place. -/
theorem loop_found_at {y : Option VA}
    (h : userMemCheckLoop m r va perm ((List.range n).map g) = some (y, m')) :
    (y = none ∧ ∀ i < n, Passes m r perm (g i)) ∨ ∃ i < n, (∀ j < i, Passes m r perm (g j)) ∧
      (∃ w, leafWord m r (g i) = some w) ∧ ¬ Passes m r perm (g i) ∧
      y = some (if g i < va then va else g i) := by
  rcases loop_found h with ⟨h1, h2⟩ | ⟨xs, p, ys, h1, h2, h3⟩
  · exact Or.inl ⟨h1, fun i hi => h2 _ (List.mem_map.2 ⟨i, List.mem_range.2 hi, rfl⟩)⟩
  · have hlen := congrArg List.length h1
    simp only [List.length_map, List.length_range, List.length_append, List.length_cons] at hlen
    have hget : ∀ j < n, ((List.range n).map g)[j]? = some (g j) := by
      intro j hj
      rw [List.getElem?_map, List.getElem?_range hj]; rfl
    have hp : g xs.length = p := by
      have h4 := hget xs.length (by omega)
      rw [h1, List.getElem?_append_right le_rfl] at h4
      simpa using h4.symm
    refine Or.inr ⟨xs.length, by omega, fun j hj => ?_, by rw [hp]; exact h3⟩
    have h4 := hget j (by omega)
    rw [h1, List.getElem?_append_left hj] at h4
    exact h2 _ (List.mem_of_getElem? h4)

/-! ## Accessible pages -/

theorem ulim_toNat : ulim.toNat = 0x8003C00000 := by decide

theorem field_page {k : ℕ} (ha : a < 2 ^ 64) (hk : 12 ≤ k) :
    field (BitVec.ofNat 64 a) k = field (BitVec.ofNat 64 (a / 4096 * 4096)) k := by
  obtain ⟨j, rfl⟩ := Nat.exists_eq_add_of_le hk
  unfold field
  rw [Fin.mk.injEq, BitVec.toNat_ushiftRight, BitVec.toNat_ushiftRight, BitVec.toNat_ofNat, BitVec.toNat_ofNat,
    Nat.shiftRight_eq_div_pow, Nat.shiftRight_eq_div_pow, Nat.mod_eq_of_lt ha,
    Nat.mod_eq_of_lt (show a / 4096 * 4096 < 2 ^ 64 by omega), pow_add, ← Nat.div_div_eq_div_mul,
    ← Nat.div_div_eq_div_mul, show (2 : ℕ) ^ 12 = 4096 by rfl, Nat.mul_div_cancel _ (by omega)]

/-- An address is accessible as its page is. -/
theorem accessible_page : Accessible m r perm a ↔ Accessible m r perm (a / 4096 * 4096) := by
  unfold Accessible
  rw [ulim_toNat]
  have h1 : a < 0x8003C00000 ↔ a / 4096 * 4096 < 0x8003C00000 := by omega
  rw [← h1]
  refine and_congr_right fun h => ?_
  have h2 : vpn (BitVec.ofNat 64 a) = vpn (BitVec.ofNat 64 (a / 4096 * 4096)) := by
    unfold vpn pml4 pdpe pdx ptx
    rw [field_page (by omega) (by omega), field_page (k := 30) (by omega) (by omega),
      field_page (k := 21) (by omega) (by omega), field_page (k := 12) (by omega) (by omega)]
  rw [leafEntry_eq, leafEntry_eq, h2]

theorem kaddr_some {e : PTE} (h : kaddr m (pteAddr e) = some t) : t = ppn e := by
  unfold kaddr at h
  split at h
  · cases h
  · rw [← Option.some.inj h, ppn_pteAddr]

/-- The walk without `create` does not look at the present bits. -/
theorem leafWord_some (hw : leafWord m r va = some w) :
    w = m.mem (ppn (m.mem (ppn (m.mem (ppn (m.mem r (pml4 va))) (pdpe va))) (pdx va))) (ptx va) := by
  unfold leafWord at hw
  rw [pml4eWalk_eq] at hw
  unfold path walkPath at hw
  rw [walkVia_present (by simp)] at hw
  obtain ⟨x, h1, h2⟩ := Option.bind_eq_some_iff.1 hw
  obtain ⟨t₃, h3, h4⟩ := Option.bind_eq_some_iff.1 h1
  obtain rfl := kaddr_some h3
  unfold walkPath at h4
  rw [walkVia_present (by simp)] at h4
  obtain ⟨t₂, h5, h6⟩ := Option.bind_eq_some_iff.1 h4
  obtain rfl := kaddr_some h5
  unfold walkPath at h6
  rw [walkVia_present (by simp)] at h6
  obtain ⟨t₁, h7, h8⟩ := Option.bind_eq_some_iff.1 h6
  obtain rfl := kaddr_some h7
  cases h8
  exact (Option.some.inj h2).symm

theorem presentAt_some {e : PTE} {j : Idx} (h : presentAt m t j = some e) :
    m.mem t j = e ∧ flag e pteP = true := by
  unfold presentAt at h
  split at h
  · rename_i h1
    obtain rfl := Option.some.inj h
    exact ⟨rfl, h1⟩
  · cases h

theorem leafEntry_some (hv : leafEntry m r va = some v) : flag v pteP = true ∧
    v = m.mem (ppn (m.mem (ppn (m.mem (ppn (m.mem r (pml4 va))) (pdpe va))) (pdx va))) (ptx va) := by
  obtain ⟨x, h1, rfl⟩ := Option.map_eq_some_iff.1 hv
  obtain ⟨e₄, h2, h3⟩ := Option.bind_eq_some_iff.1 h1
  obtain ⟨e₃, h4, h5⟩ := Option.bind_eq_some_iff.1 h3
  obtain ⟨e₂, h6, h7⟩ := Option.bind_eq_some_iff.1 h5
  obtain ⟨e₁, h8, h9⟩ := Option.bind_eq_some_iff.1 h7
  obtain rfl := Option.some.inj h9
  rw [(presentAt_some h2).1, (presentAt_some h4).1, (presentAt_some h6).1, (presentAt_some h8).1]
  exact ⟨(presentAt_some h8).2, rfl⟩

/-- The page of an accessible address passes, unless its walk leaves RAM. -/
theorem passes_of_accessible (hw : leafWord m r p = some w) (h : Accessible m r perm p.toNat) :
    Passes m r perm p := by
  obtain ⟨h1, v, h2, h3⟩ := h
  rw [BitVec.ofNat_toNat, BitVec.setWidth_eq] at h2
  obtain ⟨h4, h5⟩ := leafEntry_some h2
  obtain rfl : w = v := (leafWord_some hw).trans h5.symm
  exact ⟨BitVec.lt_def.2 h1, w, hw, h3, h4⟩

/-! ## When the answer is right -/

/-- **The condition.** An empty range is tested if its page is not aligned and can be rounded
up, and that page then has to pass. A range whose end can be rounded up is tested up to its
first page that is not accessible, honestly. Any other range includes addresses that are not
accessible, and only its first page may be tested. -/
def CheckOk (m : Pmap) (r : ℕ) (va len : VA) (perm : BitVec 32) : Prop :=
  if len = 0 then
    va.toNat % 4096 = 0 ∨ 2 ^ 64 - 4096 < va.toNat ∨ Passes m r perm (roundDown va pgsize)
  else if va.toNat + len.toNat ≤ 2 ^ 64 - 4096 then
    ∀ i < pageCount va len, (∀ j < i, Accessible m r perm (pageAt va j).toNat) →
      Honest m r perm (pageAt va i)
  else va.toNat / 4096 * 4096 + 2 ^ 64 < va.toNat + len.toNat ∧
    va.toNat + len.toNat ≤ 2 ^ 65 - 4096 ∧ Honest m r perm (roundDown va pgsize) ∧
      ¬ Accessible m r perm (roundDown va pgsize).toNat

theorem pageAt_zero : pageAt va 0 = roundDown va pgsize := by
  unfold pageAt
  rw [Nat.zero_mul]
  exact BitVec.add_zero _

/-- The answer for a range of which one page is tested, at most. -/
theorem userMemCheck_one (h : pageCount va len = 1) : userMemCheck m r va len perm =
    userMemCheckLoop m r va perm [roundDown va pgsize] := by
  rw [userMemCheck_eq, h]
  show userMemCheckLoop m r va perm [pageAt va 0] = _
  rw [pageAt_zero]

theorem userMemCheck_none (h : pageCount va len = 0) : userMemCheck m r va len perm = some (none, m) := by
  rw [userMemCheck_eq, h]
  rfl

theorem exact_empty (hl : len = 0) : Exact m r va len perm ↔ CheckOk m r va len perm := by
  subst hl
  have hn := pageCount_eq va 0
  have hlt := va.isLt
  unfold CheckOk
  rw [if_pos rfl]
  have h0 : (0 : VA).toNat = 0 := rfl
  rw [h0] at hn
  by_cases h1 : va.toNat % 4096 = 0 ∨ 2 ^ 64 - 4096 < va.toNat
  · refine ⟨fun _ => h1.imp_right Or.inl, fun _ => ?_⟩
    refine ⟨none, userMemCheck_none (by omega), fun a h2 h3 => ?_⟩
    rw [h0] at h3
    omega
  · have h2 : pageCount va 0 = 1 := by omega
    constructor
    · rintro ⟨y, h3, h4⟩
      right; right
      rw [userMemCheck_one h2] at h3
      rcases loop_found h3 with ⟨-, h5⟩ | ⟨xs, p, ys, -, -, -, -, rfl⟩
      · exact h5 _ List.mem_cons_self
      · obtain ⟨h5, h6, -⟩ := h4
        rw [h0] at h6
        omega
    · intro h3
      have h4 : Passes m r perm (roundDown va pgsize) := by
        rcases h3 with h3 | h3 | h3
        · exact absurd (Or.inl h3) h1
        · exact absurd (Or.inr h3) h1
        · exact h3
      refine ⟨none, ?_, fun a h5 h6 => ?_⟩
      · rw [userMemCheck_one h2, loop_pass h4]
        rfl
      · rw [h0] at h6
        omega

/-- A range that ends near the top of the address space, or past it. -/
theorem exact_wrap (hl : len ≠ 0) (h : ¬ va.toNat + len.toNat ≤ 2 ^ 64 - 4096) :
    Exact m r va len perm ↔ CheckOk m r va len perm := by
  have hn := pageCount_eq va len
  have hv := va.isLt
  have hle := len.isLt
  have hl' : len.toNat ≠ 0 := fun h1 => hl (BitVec.eq_of_toNat_eq h1)
  have hs := roundDown_toNat va
  unfold CheckOk
  rw [if_neg hl, if_neg h]
  -- the right answer is not 0
  have hbad : ¬ RightAnswer m r va len perm none := fun h1 => by
    have h2 := (h1 (max va.toNat (2 ^ 64 - 4096)) (by omega) (by omega)).1
    rw [ulim_toNat] at h2
    omega
  by_cases h1 : va.toNat / 4096 * 4096 + 2 ^ 64 < va.toNat + len.toNat ∧ va.toNat + len.toNat ≤ 2 ^ 65 - 4096
  · have h2 : pageCount va len = 1 := by omega
    have hlt : roundDown va pgsize < va := by
      rw [BitVec.lt_def, hs]
      omega
    constructor
    · rintro ⟨y, h3, h4⟩
      rw [userMemCheck_one h2] at h3
      rcases loop_found h3 with ⟨rfl, -⟩ | ⟨xs, p, ys, h5, h6, ⟨w, hw⟩, h8, rfl⟩
      · exact absurd h4 hbad
      · obtain ⟨rfl, rfl, rfl⟩ : xs = [] ∧ p = roundDown va pgsize ∧ ys = [] := by
          cases xs with
          | nil => simpa using h5.symm
          | cons x xs => simp at h5
        exact ⟨h1.1, h1.2, ⟨⟨w, hw⟩, fun h9 => absurd h9 h8⟩, fun h9 => h8 (passes_of_accessible hw h9)⟩
    · rintro ⟨-, -, ⟨⟨w, hw⟩, h5⟩, h6⟩
      have h7 : ¬ Passes m r perm (roundDown va pgsize) := fun h7 => h6 (h5 h7)
      refine ⟨some va, ?_, le_rfl, by omega, ?_, fun a h8 h9 => absurd h9 (by omega)⟩
      · rw [userMemCheck_one h2, loop_fail hw h7, if_pos hlt]
      · rw [accessible_page, ← hs]
        exact h6
  · have h2 : pageCount va len = 0 := by omega
    refine ⟨fun ⟨y, h3, h4⟩ => ?_, fun h3 => absurd ⟨h3.1, h3.2.1⟩ h1⟩
    rw [userMemCheck_none h2] at h3
    cases h3
    exact absurd h4 hbad

/-- A range whose end can be rounded up. -/
theorem exact_plain (hl : len ≠ 0) (h : va.toNat + len.toNat ≤ 2 ^ 64 - 4096) :
    Exact m r va len perm ↔ CheckOk m r va len perm := by
  have hn := pageCount_eq va len
  have hl' : len.toNat ≠ 0 := fun h1 => hl (BitVec.eq_of_toNat_eq h1)
  have hlt := va.isLt
  unfold CheckOk
  rw [if_neg hl, if_pos h]
  have hat : ∀ i < pageCount va len, (pageAt va i).toNat = va.toNat / 4096 * 4096 + i * 4096 :=
    fun i hi => pageAt_toNat (by omega)
  -- every page that is tested has an address of the range, and all of them are in these pages
  have hin : ∀ i < pageCount va len, ∃ a, va.toNat ≤ a ∧ a < va.toNat + len.toNat ∧
      a / 4096 * 4096 = (pageAt va i).toNat ∧ ∀ x : VA, i * 4096 + va.toNat / 4096 * 4096 < x.toNat / 4096 * 4096 →
        a < x.toNat := by
    intro i hi
    refine ⟨max va.toNat (pageAt va i).toNat, by omega, ?_, ?_, fun x hx => ?_⟩
    · rw [hat i hi]; omega
    · rw [hat i hi]; omega
    · rw [hat i hi]; omega
  have hpage : ∀ a, va.toNat ≤ a → a < va.toNat + len.toNat →
      (a - va.toNat / 4096 * 4096) / 4096 < pageCount va len ∧
        (pageAt va ((a - va.toNat / 4096 * 4096) / 4096)).toNat = a / 4096 * 4096 := by
    intro a h1 h2
    have h3 : (a - va.toNat / 4096 * 4096) / 4096 < pageCount va len := by omega
    refine ⟨h3, ?_⟩
    rw [hat _ h3]
    omega
  constructor
  · rintro ⟨y, h1, h2⟩ i hi hacc
    rw [userMemCheck_eq] at h1
    rcases loop_found_at h1 with ⟨rfl, h3⟩ | ⟨k, hk, h3, ⟨w, hw⟩, h5, rfl⟩
    · obtain ⟨-, w, h4, -⟩ := h3 i hi
      obtain ⟨a, h5, h6, h7, -⟩ := hin i hi
      refine ⟨⟨w, h4⟩, fun _ => ?_⟩
      rw [← h7, ← accessible_page]
      exact h2 a h5 h6
    · rcases lt_trichotomy i k with h6 | rfl | h6
      · obtain ⟨-, w', h7, -⟩ := h3 i h6
        obtain ⟨a, h8, h9, h10, h11⟩ := hin i hi
        refine ⟨⟨w', h7⟩, fun _ => ?_⟩
        rw [← h10, ← accessible_page]
        refine h2.2.2.2 a h8 (h11 _ ?_)
        have h12 := hat k hk
        split
        · rename_i h13
          rw [BitVec.lt_def] at h13
          omega
        · omega
      · exact ⟨⟨w, hw⟩, fun h6 => absurd h6 h5⟩
      · exact absurd (passes_of_accessible hw (hacc k h6)) h5
  · intro hc
    by_cases hall : ∀ i < pageCount va len, Passes m r perm (pageAt va i) ∧ Accessible m r perm (pageAt va i).toNat
    · refine ⟨none, ?_, fun a h1 h2 => ?_⟩
      · rw [userMemCheck_eq, ← List.append_nil (List.map _ _), loop_skip]
        · rfl
        · intro q hq
          obtain ⟨i, hi, rfl⟩ := List.mem_map.1 hq
          exact (hall i (List.mem_range.1 hi)).1
      · obtain ⟨h3, h4⟩ := hpage a h1 h2
        rw [accessible_page, ← h4]
        exact (hall _ h3).2
    · simp only [not_forall] at hall
      classical
      obtain ⟨hi, hbad⟩ := Nat.find_spec hall
      have hmin : ∀ j < Nat.find hall, Passes m r perm (pageAt va j) ∧ Accessible m r perm (pageAt va j).toNat := by
        intro j hj
        by_contra h1
        exact Nat.find_min hall hj ⟨by omega, h1⟩
      generalize Nat.find hall = i at hi hbad hmin
      obtain ⟨⟨w, hw⟩, h1⟩ := hc i hi fun j hj => (hmin j hj).2
      have h2 : ¬ Passes m r perm (pageAt va i) := fun h2 => hbad ⟨h2, h1 h2⟩
      have h3 : ¬ Accessible m r perm (pageAt va i).toNat := fun h3 => h2 (passes_of_accessible hw h3)
      obtain ⟨l, h4⟩ := loop_at va hi fun j hj => (hmin j hj).1
      have h5 := hat i hi
      refine ⟨some (if pageAt va i < va then va else pageAt va i), ?_, ?_⟩
      · rw [userMemCheck_eq, h4, loop_fail hw h2]
      have hx : ∃ x : VA, (if pageAt va i < va then va else pageAt va i) = x ∧ va.toNat ≤ x.toNat ∧
          x.toNat < va.toNat + len.toNat ∧ x.toNat / 4096 * 4096 = (pageAt va i).toNat ∧
          (va.toNat = x.toNat ∨ x = pageAt va i) := by
        by_cases h6 : pageAt va i < va
        · refine ⟨va, if_pos h6, le_rfl, by omega, ?_, Or.inl rfl⟩
          rw [BitVec.lt_def] at h6
          omega
        · refine ⟨_, if_neg h6, ?_, ?_, ?_, Or.inr rfl⟩
          · rw [BitVec.lt_def] at h6
            omega
          · omega
          · omega
      obtain ⟨x, hx, h6, h7, h8, h9⟩ := hx
      rw [hx]
      refine ⟨h6, h7, fun h10 => h3 ?_, fun a h10 h11 => ?_⟩
      · rw [← h8]
        exact accessible_page.1 h10
      · obtain ⟨h12, h13⟩ := hpage a h10 (by omega)
        rw [accessible_page, ← h13]
        refine (hmin _ ?_).2
        rcases h9 with h9 | rfl
        · omega
        · omega

/-- **When `user_mem_check` is exact**: it does not panic, changes nothing and gives the right
answer for a range, if and only if the condition holds. -/
theorem userMemCheck_exact (m : Pmap) (r : ℕ) (va len : VA) (perm : BitVec 32) :
    Exact m r va len perm ↔ CheckOk m r va len perm := by
  by_cases hl : len = 0
  · exact exact_empty hl
  · by_cases h : va.toNat + len.toNat ≤ 2 ^ 64 - 4096
    · exact exact_plain hl h
    · exact exact_wrap hl h

/-- **This fails**: for almost all of the address space from `0x800000` on no page is
tested, and the answer is 0. -/
theorem userMemCheck_counterexample :
    ¬ ∀ (m : Pmap) (r : ℕ) (va len : VA) (perm : BitVec 32), Exact m r va len perm := by
  intro h
  have h1 : pageCount 0x800000#64 0xFFFFFFFFFFFFFFFF#64 = 0 := by decide
  obtain ⟨y, h2, h3⟩ := h ⟨0, fun _ => ⟨none, 0⟩, none, fun _ _ => 0, 0⟩ 0 0x800000#64 0xFFFFFFFFFFFFFFFF#64 0
  rw [userMemCheck_none h1] at h2
  cases h2
  have h4 := (h3 (2 ^ 63) (by decide) (by decide)).1
  rw [ulim_toNat] at h4
  exact absurd h4 (by decide)

end Jos
