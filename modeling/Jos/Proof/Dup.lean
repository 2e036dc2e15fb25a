import Jos.Proof.Bits
import Jos.Spec.Dup

/-!
# Which duplicates are right

The addresses that `dup` computes are those of slots: number `i` has its `struct Fd` in slot `i` and its
data page in slot `i + 32`, for negative numbers as well. So a number from 32 to 63 takes the data page
of a descriptor for its `struct Fd`, and one from -32 to -1 the `struct Fd` of a descriptor for its data
page. `dup_right` says when a call does what it should.
-/

namespace Jos.Dup

open Fd (Pte Dev)

variable {dev : ℕ → Option Dev} {t t' t₁ : Table} {old new fdnum : BitVec 32} {noMem noMem₁ noMem₂ : Bool} {va sva dva : VA}
  {i j k n o : ℤ} {r : ℤ} {pte : Pte} {p : ℕ}

/-! ## Slots -/

/-- The page with number `i` of the table, or outside of it. -/
def slot (i : ℤ) : ℕ := ((0xD0000 + i) % 2 ^ 52).toNat

/-- The numbers that occur. -/
def InRange (i : ℤ) : Prop := -2 ^ 31 ≤ i ∧ i < 2 ^ 31 + 32

theorem slot_inj (hi : InRange i) (hj : InRange j) : slot i = slot j ↔ i = j := by
  unfold InRange at hi hj
  unfold slot
  omega

theorem inRange_fd (i : BitVec 32) : InRange i.toInt := by
  have h1 := BitVec.toInt_lt (x := i)
  have h2 := BitVec.le_toInt (x := i)
  unfold InRange
  omega

theorem inRange_data (i : BitVec 32) : InRange (i.toInt + 32) := by
  have h1 := BitVec.toInt_lt (x := i)
  have h2 := BitVec.le_toInt (x := i)
  unfold InRange
  omega

theorem index2fd_toNat (i : BitVec 32) : (index2fd i).toNat = slot i.toInt * 4096 := by
  obtain ⟨h1, h2⟩ := inRange_fd i
  have h3 : (i.signExtend 64).toNat = (i.toInt % 2 ^ 64).toNat := by
    unfold BitVec.signExtend
    rw [BitVec.toNat_ofInt]
    rfl
  have h4 : fdtable.toNat = 0xD0000000 := rfl
  have h5 : pgsize.toNat = 4096 := rfl
  unfold index2fd slot
  rw [BitVec.toNat_add, BitVec.toNat_mul, h3, h4, h5]
  omega

theorem fd2data_toNat (i : BitVec 32) : (fd2data (index2fd i)).toNat = slot (i.toInt + 32) * 4096 := by
  obtain ⟨h1, h2⟩ := inRange_fd i
  have h3 := index2fd_toNat i
  have h4 : fdtable.toNat = 0xD0000000 := rfl
  have h5 : pgsize.toNat = 4096 := rfl
  have h6 : filedata.toNat = 0xD0020000 := rfl
  unfold fd2data index2data fd2num
  rw [BitVec.toNat_add, BitVec.toNat_mul, BitVec.toNat_udiv, BitVec.toNat_sub, h3, h4, h5, h6]
  unfold slot
  omega

theorem pgnum_index2fd (i : BitVec 32) : pgnum (index2fd i) = slot i.toInt := by
  unfold pgnum
  rw [index2fd_toNat]
  omega

theorem pgnum_fd2data (i : BitVec 32) : pgnum (fd2data (index2fd i)) = slot (i.toInt + 32) := by
  unfold pgnum
  rw [fd2data_toNat]
  omega

/-- The pages below `UTOP`. -/
def Below (i : ℤ) : Prop := slot i < 0x8000800

theorem userPage_iff (h : va.toNat = slot i * 4096) : userPage va = true ↔ Below i := by
  have h1 : va &&& 0xFFF = 0 := by
    apply BitVec.eq_of_toNat_eq
    rw [BitVec.toNat_and, show (0xFFF : BitVec 64).toNat = 2 ^ 12 - 1 by rfl, Nat.and_two_pow_sub_one_eq_mod]
    change va.toNat % 4096 = 0
    omega
  unfold userPage Below
  rw [Bool.and_eq_true, beq_iff_eq, decide_eq_true_eq, and_iff_left h1, BitVec.lt_def, utop_toNat]
  omega

/-- The table lies below `UTOP`, in one page table. -/
theorem below_table (h0 : 0 ≤ i) (h1 : i < 512) : Below i ∧ slot i / 512 = 0x680 := by
  unfold Below slot
  omega

/-! ## Maps -/

/-- The physical page in slot `i`. -/
def page (t : Table) (i : ℤ) : Option ℕ := (t (slot i)).map (·.page)

/-- A mapping at slot `i` cannot be made. -/
def Fails (noMem : Bool) (i : ℤ) : Prop := ¬ Below i ∨ noMem = true ∧ slot i / 512 ≠ 0x680

theorem not_fails (h0 : 0 ≤ i) (h1 : i < 512) : ¬ Fails noMem i := by
  obtain ⟨h2, h3⟩ := below_table h0 h1
  rintro (h | ⟨-, h⟩)
  · exact h h2
  · exact h h3

theorem page_update (hi : InRange i) (hj : InRange j) (x : Option Pte) :
    page (Function.update t (slot j) x) i = if i = j then x.map (·.page) else page t i := by
  unfold page
  by_cases h : i = j
  · rw [if_pos h, h, Function.update_self]
  · rw [if_neg h, Function.update_of_ne fun hc => h ((slot_inj hi hj).1 hc)]

/-- **`sys_page_unmap`**, for a page of the table or outside of it. -/
theorem sysPageUnmap_page (h : va.toNat = slot j * 4096) (hi : InRange i) (hj : InRange j) (hb : Below i) :
    page (sysPageUnmap t va) i = if i = j then none else page t i := by
  have hp : pgnum va = slot j := by
    unfold pgnum
    omega
  unfold sysPageUnmap
  by_cases hu : userPage va = true
  · rw [if_pos hu, hp, page_update hi hj]
    rfl
  · rw [if_neg hu, if_neg]
    rintro rfl
    exact hu ((userPage_iff h).2 hb)

theorem flag_and_syscall (w : BitVec 32) : flag (w &&& pteSyscall) pteW = flag w pteW := by
  unfold flag
  rw [BitVec.and_assoc, show (pteSyscall &&& pteW : BitVec 32) = pteW by decide]

/-- **`sys_page_map`** of a page of the table with its own permissions. -/
theorem sysPageMap_page (hs : sva.toNat = slot i * 4096) (hd : dva.toNat = slot j * 4096) (h0 : 0 ≤ i) (h1 : i < 512)
    (hj : InRange j) : (Fails noMem j ∧ ∃ r, r < 0 ∧ sysPageMap t sva dva (syscallPerm t sva) noMem = (r, t)) ∨
      ¬ Fails noMem j ∧ ∃ t', sysPageMap t sva dva (syscallPerm t sva) noMem = (0, t') ∧
        ∀ k, InRange k → page t' k = if k = j then some ((page t i).getD 0) else page t k := by
  obtain ⟨hb, h512⟩ := below_table h0 h1
  have hps : pgnum sva = slot i := by
    unfold pgnum
    omega
  have hpd : pgnum dva = slot j := by
    unfold pgnum
    omega
  have hperm : syscallPerm t sva ||| pteSyscall = pteSyscall := by
    unfold syscallPerm
    split
    · rfl
    · ext k
      simp
  have hw : (!flag ((t (slot i)).getD ⟨0, 0⟩).perm pteW && flag (syscallPerm t sva) pteW) = false := by
    unfold syscallPerm
    rw [hps]
    cases t (slot i) with
    | none => rfl
    | some pte =>
      simp only [Option.getD_some, flag_and_syscall]
      cases flag pte.perm pteW <;> rfl
  have hu := (userPage_iff hs).2 hb
  unfold sysPageMap
  simp only [hu, Bool.not_true, Bool.false_eq_true, if_false, hps, hpd, hperm, ne_eq, not_true_eq_false, hw, h512]
  by_cases hbd : Below j
  · have hud := (userPage_iff hd).2 hbd
    simp only [hud, Bool.not_true, Bool.false_eq_true, if_false]
    by_cases hm : noMem = true ∧ slot j / 512 ≠ 0x680
    · refine Or.inl ⟨Or.inr hm, -eNoMem, by decide, if_pos ?_⟩
      simp [hm.1, Ne.symm hm.2]
    · refine Or.inr ⟨fun hf => hf.elim (fun h => h hbd) hm, _, if_neg ?_, fun k hk => ?_⟩
      · simp only [Bool.and_eq_true, bne_iff_ne, ne_eq, not_and, not_not]
        exact fun h => (by_contra fun hc => hm ⟨h, Ne.symm hc⟩)
      · rw [page_update hk hj]
        unfold page
        cases t (slot i) <;> rfl
  · have hud : userPage dva = false := by
      rw [Bool.eq_false_iff]
      exact fun hc => hbd ((userPage_iff hd).1 hc)
    simp only [hud, Bool.not_false, if_true]
    exact Or.inl ⟨Or.inl hbd, _, by decide, rfl⟩

/-! ## Closing -/

theorem fdLookup_cases (t : Table) (fdnum : BitVec 32) :
    (fdLookup t fdnum = none ∧ (0 ≤ fdnum.toInt → fdnum.toInt < 32 → t (slot fdnum.toInt) = none)) ∨
      fdLookup t fdnum = some (index2fd fdnum) ∧ 0 ≤ fdnum.toInt ∧ fdnum.toInt < 32 ∧
        ∃ pte, t (slot fdnum.toInt) = some pte := by
  unfold fdLookup maxfd
  rw [pgnum_index2fd]
  by_cases hr : 0 ≤ fdnum.toInt ∧ fdnum.toInt < 32
  · have h1 : (decide (fdnum.toInt < 0) || decide (fdnum.toInt ≥ 32)) = false := by
      simp only [Bool.or_eq_false_iff, decide_eq_false_iff_not]
      omega
    rw [h1]
    cases ht : t (slot fdnum.toInt) with
    | none => exact Or.inl ⟨rfl, fun _ _ => rfl⟩
    | some pte => exact Or.inr ⟨rfl, hr.1, hr.2, pte, rfl⟩
  · have h1 : (decide (fdnum.toInt < 0) || decide (fdnum.toInt ≥ 32)) = true := by
      simp only [Bool.or_eq_true, decide_eq_true_eq]
      omega
    rw [h1]
    exact Or.inl ⟨rfl, fun h2 h3 => absurd ⟨h2, h3⟩ hr⟩

/-- The number of a `struct Fd` of the table. -/
theorem fd2num_index2fd (h0 : 0 ≤ fdnum.toInt) (h1 : fdnum.toInt < 32) : (fd2num (index2fd fdnum)).setWidth 32 = fdnum := by
  have h2 := index2fd_toNat fdnum
  have h3 : fdtable.toNat = 0xD0000000 := rfl
  have h4 : pgsize.toNat = 4096 := rfl
  have h5 := BitVec.toInt_eq_toNat_cond fdnum
  have h6 := fdnum.isLt
  apply BitVec.eq_of_toNat_eq
  unfold fd2num
  rw [BitVec.toNat_setWidth, BitVec.toNat_udiv, BitVec.toNat_sub, h2, h3, h4]
  unfold slot
  split at h5 <;> omega

/-- A pipe. -/
def isPipe : Option Dev → Bool
  | some .pipe => true
  | _ => false

/-- `close` of a descriptor that is open. -/
theorem close_open (h : fdLookup t fdnum = some (index2fd fdnum)) (h0 : 0 ≤ fdnum.toInt) (h1 : fdnum.toInt < 32) :
    close dev t fdnum = (fdDev dev t (index2fd fdnum)).map fun d =>
      sysPageUnmap (if isPipe d then devpipeClose t (index2fd fdnum) else t) (index2fd fdnum) := by
  unfold close
  rw [h]
  dsimp only
  unfold fdClose
  rw [fd2num_index2fd h0 h1, h]
  dsimp only
  rw [if_neg (not_not.2 rfl)]
  cases fdDev dev t (index2fd fdnum) with
  | none => rfl
  | some d =>
    cases d with
    | none => rfl
    | some d => cases d <;> rfl

/-- **`close`**: it unmaps the `struct Fd`, and the data page of a pipe. -/
theorem close_cases (dev : ℕ → Option Dev) (t : Table) (fdnum : BitVec 32) :
    (close dev t fdnum = some t ∧ (0 ≤ fdnum.toInt → fdnum.toInt < 32 → t (slot fdnum.toInt) = none)) ∨
      0 ≤ fdnum.toInt ∧ fdnum.toInt < 32 ∧ ∃ pte, t (slot fdnum.toInt) = some pte ∧
        if flag pte.perm pteU then ∃ t', close dev t fdnum = some t' ∧ ∀ k, InRange k → Below k → page t' k =
          if k = fdnum.toInt ∨ k = fdnum.toInt + 32 ∧ isPipe (dev pte.page) = true then none else page t k
        else close dev t fdnum = none := by
  rcases fdLookup_cases t fdnum with ⟨h1, h2⟩ | ⟨h1, h2, h3, pte, h4⟩
  · refine Or.inl ⟨?_, h2⟩
    unfold close
    rw [h1]
  · refine Or.inr ⟨h2, h3, pte, h4, ?_⟩
    have hfd : fdDev dev t (index2fd fdnum) = if flag pte.perm pteU then some (dev pte.page) else none := by
      unfold fdDev
      rw [pgnum_index2fd, h4]
      rfl
    have hfdr := inRange_fd fdnum
    rw [close_open h1 h2 h3, hfd]
    split
    · refine ⟨_, rfl, fun k hk hb => ?_⟩
      rw [sysPageUnmap_page (index2fd_toNat fdnum) hk hfdr hb]
      cases isPipe (dev pte.page) with
      | false => simp
      | true =>
        unfold devpipeClose
        rw [if_pos rfl, sysPageUnmap_page (fd2data_toNat fdnum) hk (inRange_data fdnum) hb,
          sysPageUnmap_page (index2fd_toNat fdnum) hk hfdr hb]
        grind
    · rfl

/-! ## Duplicating -/

/-- The table after an error. -/
theorem dupErr_page (t : Table) (new : BitVec 32) (hk : InRange k) (hb : Below k) :
    page (dupErr t (index2fd new) (fd2data (index2fd new))) k =
      if k = new.toInt ∨ k = new.toInt + 32 then none else page t k := by
  unfold dupErr
  rw [sysPageUnmap_page (fd2data_toNat new) hk (inRange_data new) hb,
    sysPageUnmap_page (index2fd_toNat new) hk (inRange_fd new) hb]
  grind

/-- The mapping of the data page is left out where there is none, or it is not made. -/
def DataFails (t : Table) (o n : ℤ) (noMem : Bool) : Prop := (page t (o + 32)).isSome = true ∧ Fails noMem (n + 32)

/-- The mapping of the `struct Fd`, which comes last. -/
theorem dup_last (new : BitVec 32) (noMem₂ : Bool) (t₂ : Table) (h0 : 0 ≤ old.toInt) (h1 : old.toInt < 32) : ∃ r t',
    (match sysPageMap t₂ (index2fd old) (index2fd new) (syscallPerm t₂ (index2fd old)) noMem₂ with
      | (r, t) => if r < 0 then some (r, dupErr t (index2fd new) (fd2data (index2fd new))) else some (new.toInt, t)) =
        some (r, t') ∧
      ((r < 0 ∧ Fails noMem₂ new.toInt ∧
          ∀ k, 0 ≤ k → k < 64 → page t' k = if k = new.toInt ∨ k = new.toInt + 32 then none else page t₂ k) ∨
        r = new.toInt ∧ ¬ Fails noMem₂ new.toInt ∧
          ∀ k, InRange k → page t' k = if k = new.toInt then some ((page t₂ old.toInt).getD 0) else page t₂ k) := by
  rcases sysPageMap_page (index2fd_toNat old) (index2fd_toNat new) h0 (by omega) (inRange_fd new) with
    ⟨hf, r, hr, hm⟩ | ⟨hf, t', hm, ht'⟩
  · rw [hm]
    dsimp only
    rw [if_pos hr]
    refine ⟨r, _, rfl, Or.inl ⟨hr, hf, fun k hk0 hk1 => ?_⟩⟩
    exact dupErr_page t₂ new ⟨by omega, by omega⟩ (below_table hk0 (by omega)).1
  · rw [hm]
    exact ⟨new.toInt, t', if_neg (lt_irrefl 0), Or.inr ⟨rfl, hf, ht'⟩⟩

/-- **What `dup` does** after `close` has left the table `t₁`. -/
theorem dup_cases (noMem₁ noMem₂ : Bool) (ho : fdLookup t old = some (index2fd old)) (h0 : 0 ≤ old.toInt) (h1 : old.toInt < 32)
    (hc : close dev t new = some t₁) : ∃ r t', dup dev t old new noMem₁ noMem₂ = some (r, t') ∧
      ((r < 0 ∧ (DataFails t₁ old.toInt new.toInt noMem₁ ∨ Fails noMem₂ new.toInt) ∧
          ∀ k, 0 ≤ k → k < 64 → page t' k = if k = new.toInt ∨ k = new.toInt + 32 then none else page t₁ k) ∨
        r = new.toInt ∧ ¬ DataFails t₁ old.toInt new.toInt noMem₁ ∧ ¬ Fails noMem₂ new.toInt ∧ ∃ t₂,
          (∀ k, InRange k → page t₂ k = if (page t₁ (old.toInt + 32)).isSome = true ∧ k = new.toInt + 32
            then page t₁ (old.toInt + 32) else page t₁ k) ∧
          ∀ k, InRange k → page t' k = if k = new.toInt then some ((page t₂ old.toInt).getD 0) else page t₂ k) := by
  have hsome : (t₁ (pgnum (fd2data (index2fd old)))).isSome = (page t₁ (old.toInt + 32)).isSome := by
    rw [pgnum_fd2data]
    unfold page
    rw [Option.isSome_map]
  unfold dup
  rw [ho]
  dsimp only
  rw [hc]
  simp only [Option.bind_eq_bind, Option.bind_some, hsome]
  -- the data page first, if there is one; then the page of the descriptor
  by_cases hs : (page t₁ (old.toInt + 32)).isSome = true
  · rw [if_pos hs]
    rcases sysPageMap_page (fd2data_toNat old) (fd2data_toNat new) (by omega) (by omega) (inRange_data new) with
      ⟨hf, r, hr, hm⟩ | ⟨hf, t₂, hm, ht₂⟩
    · rw [hm]
      dsimp only
      rw [if_pos hr]
      refine ⟨r, _, rfl, Or.inl ⟨hr, Or.inl ⟨hs, hf⟩, fun k hk0 hk1 => ?_⟩⟩
      exact dupErr_page t₁ new ⟨by omega, by omega⟩ (below_table hk0 (by omega)).1
    · have hget : some ((page t₁ (old.toInt + 32)).getD 0) = page t₁ (old.toInt + 32) := by
        obtain ⟨x, hx⟩ := Option.isSome_iff_exists.1 hs
        rw [hx]
        rfl
      rw [hget] at ht₂
      rw [hm]
      dsimp only
      rw [if_neg (lt_irrefl 0)]
      obtain ⟨r, t', h2, h3⟩ := dup_last new noMem₂ t₂ h0 h1
      refine ⟨r, t', h2, h3.imp (fun ⟨h4, h5, h6⟩ => ⟨h4, Or.inr h5, fun k hk0 hk1 => ?_⟩)
        fun ⟨h4, h5, h6⟩ => ⟨h4, fun hd => hf hd.2, h5, t₂, fun k hk => ?_, h6⟩⟩
      · rw [h6 k hk0 hk1, ht₂ k ⟨by omega, by omega⟩]
        grind
      · simp only [ht₂ k hk, hs, true_and]
  · rw [if_neg hs]
    dsimp only
    rw [if_neg (lt_irrefl 0)]
    obtain ⟨r, t', h2, h3⟩ := dup_last new noMem₂ t₁ h0 h1
    refine ⟨r, t', h2, h3.imp (fun ⟨h4, h5, h6⟩ => ⟨h4, Or.inr h5, h6⟩)
      fun ⟨h4, h5, h6⟩ => ⟨h4, fun hd => hs hd.1, h5, t₁, fun k _ => ?_, h6⟩⟩
    rw [if_neg fun h => hs h.1]

/-! ## The right duplicates -/

/-- The page of the `struct Fd` with number `i`, and its data page. -/
def fdPage (t : Table) (i : BitVec 32) : Option ℕ := (t (pgnum (index2fd i))).map (·.page)
def dataPage (t : Table) (i : BitVec 32) : Option ℕ := (t (pgnum (fd2data (index2fd i)))).map (·.page)

/-- The descriptors other than `new` are as before. -/
def Others (t t' : Table) (new : BitVec 32) : Prop :=
  ∀ i : BitVec 32, 0 ≤ i.toInt → i.toInt < maxfd → i ≠ new → fdPage t' i = fdPage t i ∧ dataPage t' i = dataPage t i

/-- **`dup` does what it should**: it returns an error, or `new` is then what `old` was and still is. -/
def DupRight (dev : ℕ → Option Dev) (t : Table) (old new : BitVec 32) (noMem₁ noMem₂ : Bool) : Prop :=
  ∃ r t', dup dev t old new noMem₁ noMem₂ = some (r, t') ∧ Others t t' new ∧
    (r < 0 ∨ r = new.toInt ∧ fdPage t' new = fdPage t old ∧ dataPage t' new = dataPage t old ∧
      fdPage t' old = fdPage t old ∧ dataPage t' old = dataPage t old)

theorem fdPage_slot (t : Table) (i : BitVec 32) : fdPage t i = page t i.toInt := by
  unfold fdPage page
  rw [pgnum_index2fd]

theorem dataPage_slot (t : Table) (i : BitVec 32) : dataPage t i = page t (i.toInt + 32) := by
  unfold dataPage page
  rw [pgnum_fd2data]

theorem others_slot : Others t t' new ↔ ∀ k, 0 ≤ k → k < 32 → k ≠ new.toInt →
    page t' k = page t k ∧ page t' (k + 32) = page t (k + 32) := by
  unfold Others maxfd
  constructor
  · intro h k h0 h1 hne
    have h2 : (BitVec.ofInt 32 k).toInt = k := by
      rw [BitVec.toInt_ofInt, Int.bmod_eq_of_le] <;> omega
    have h3 := h (BitVec.ofInt 32 k) (by omega) (by omega) fun hc => hne (by rw [← h2, hc])
    rw [fdPage_slot, fdPage_slot, dataPage_slot, dataPage_slot, h2] at h3
    exact h3
  · intro h i h0 h1 hne
    rw [fdPage_slot, fdPage_slot, dataPage_slot, dataPage_slot]
    exact h _ h0 h1 fun hc => hne (BitVec.eq_of_toInt_eq hc)

theorem dupRight_slot : DupRight dev t old new noMem₁ noMem₂ ↔ ∃ r t', dup dev t old new noMem₁ noMem₂ = some (r, t') ∧
    (∀ k, 0 ≤ k → k < 32 → k ≠ new.toInt → page t' k = page t k ∧ page t' (k + 32) = page t (k + 32)) ∧
    (r < 0 ∨ r = new.toInt ∧ page t' new.toInt = page t old.toInt ∧ page t' (new.toInt + 32) = page t (old.toInt + 32) ∧
      page t' old.toInt = page t old.toInt ∧ page t' (old.toInt + 32) = page t (old.toInt + 32)) := by
  unfold DupRight
  simp only [others_slot, fdPage_slot, dataPage_slot]

/-- No data page is left over at `new`, if `old` has none. -/
def NoneLeft (t : Table) (old new : BitVec 32) : Prop := dataPage t old = none → dataPage t new = none

/-- **The condition** for an open descriptor `old`. -/
def DupFits (dev : ℕ → Option Dev) (t : Table) (old new : BitVec 32) (noMem₂ : Bool) : Prop :=
  if new.toInt < -32 then True
  else if new.toInt < 0 then
    if noMem₂ then dataPage t new = none else dataPage t old = none ∨ dataPage t new = dataPage t old
  else if new.toInt < 32 then
    (∀ pte, t (pgnum (index2fd new)) = some pte → flag pte.perm pteU = true) ∧
      if new = old then fdPage t old = some 0 ∧ (isPipe (dev 0) = true → dataPage t old = none)
      else NoneLeft t old new ∨ ∃ p, fdPage t new = some p ∧ isPipe (dev p) = true
  else if new.toInt < 64 then fdPage t new = fdPage t old ∧ NoneLeft t old new
  else NoneLeft t old new ∨ Fails noMem₂ new.toInt

/-- The result is the only one. -/
theorem dupRight_of (h : dup dev t old new noMem₁ noMem₂ = some (r, t')) : DupRight dev t old new noMem₁ noMem₂ ↔
    (∀ k, 0 ≤ k → k < 32 → k ≠ new.toInt → page t' k = page t k ∧ page t' (k + 32) = page t (k + 32)) ∧
    (r < 0 ∨ r = new.toInt ∧ page t' new.toInt = page t old.toInt ∧ page t' (new.toInt + 32) = page t (old.toInt + 32) ∧
      page t' old.toInt = page t old.toInt ∧ page t' (old.toInt + 32) = page t (old.toInt + 32)) := by
  rw [dupRight_slot]
  constructor
  · rintro ⟨r₁, t₁, h1, h2⟩
    cases h.symm.trans h1
    exact h2
  · exact fun h1 => ⟨r, t', h, h1⟩

/-- Below -32 nothing of the table is touched. -/
theorem dup_low (ho : fdLookup t old = some (index2fd old)) (h0 : 0 ≤ old.toInt) (h1 : old.toInt < 32)
    (hc : close dev t new = some t) (hn : new.toInt < -32) : DupRight dev t old new noMem₁ noMem₂ := by
  obtain ⟨r, t', hd, h⟩ := dup_cases noMem₁ noMem₂ ho h0 h1 hc
  rw [dupRight_of hd]
  rcases h with ⟨hr, -, hp⟩ | ⟨hr, -, -, t₂, hp₂, hp⟩
  · refine ⟨fun k hk0 hk1 hk => ?_, Or.inl hr⟩
    rw [hp k hk0 (by omega), hp (k + 32) (by omega) (by omega), if_neg (by omega), if_neg (by omega)]
    exact ⟨rfl, rfl⟩
  · refine ⟨fun k hk0 hk1 hk => ?_, Or.inl (by omega)⟩
    have hk2 : InRange k := ⟨by omega, by omega⟩
    have hk3 : InRange (k + 32) := ⟨by omega, by omega⟩
    rw [hp k hk2, hp (k + 32) hk3, if_neg hk, if_neg (by omega), hp₂ k hk2, hp₂ (k + 32) hk3, if_neg (by omega),
      if_neg (by omega)]
    exact ⟨rfl, rfl⟩

/-- From -32 to -1 the data page is put in place of a `struct Fd`. -/
theorem dup_negative (ho : fdLookup t old = some (index2fd old)) (h0 : 0 ≤ old.toInt) (h1 : old.toInt < 32)
    (hc : close dev t new = some t) (hl : -32 ≤ new.toInt) (hn : new.toInt < 0) :
    DupRight dev t old new noMem₁ noMem₂ ↔
      if noMem₂ then page t (new.toInt + 32) = none
      else page t (old.toInt + 32) = none ∨ page t (new.toInt + 32) = page t (old.toInt + 32) := by
  obtain ⟨r, t', hd, h⟩ := dup_cases noMem₁ noMem₂ ho h0 h1 hc
  have hfit : ¬ DataFails t old.toInt new.toInt noMem₁ := fun hf => not_fails (by omega) (by omega) hf.2
  -- the pages are those before the table, where the last-level table is another one
  have hslot : Below new.toInt ∧ slot new.toInt / 512 ≠ 0x680 := by
    unfold Below slot
    omega
  have hfail : Fails noMem₂ new.toInt ↔ noMem₂ = true :=
    ⟨fun hf => hf.elim (fun hb => absurd hslot.1 hb) And.left, fun hm => Or.inr ⟨hm, hslot.2⟩⟩
  rw [dupRight_of hd]
  rcases h with ⟨hr, hf, hp⟩ | ⟨hr, -, hf, t₂, hp₂, hp⟩
  · rw [if_pos (hfail.1 (hf.resolve_left hfit))]
    constructor
    · rintro ⟨h2, -⟩
      have h3 := (h2 (new.toInt + 32) (by omega) (by omega) (by omega)).1
      rw [hp _ (by omega) (by omega), if_pos (Or.inr rfl)] at h3
      exact h3.symm
    · intro h2
      refine ⟨fun k hk0 hk1 hk => ?_, Or.inl hr⟩
      rw [hp k hk0 (by omega), hp (k + 32) (by omega) (by omega), if_neg (c := k + 32 = _ ∨ _) (by omega)]
      refine ⟨?_, rfl⟩
      split
      · rename_i h3
        rw [h3.resolve_left hk, h2]
      · rfl
  · rw [if_neg fun h2 => hf (hfail.2 h2)]
    constructor
    · rintro ⟨h2, -⟩
      have h3 := (h2 (new.toInt + 32) (by omega) (by omega) (by omega)).1
      rw [hp _ (inRange_data new), if_neg (by omega), hp₂ _ (inRange_data new)] at h3
      cases hx : page t (old.toInt + 32) with
      | none => exact Or.inl rfl
      | some x =>
        rw [hx, if_pos ⟨rfl, rfl⟩] at h3
        exact Or.inr h3.symm
    · intro h2
      refine ⟨fun k hk0 hk1 hk => ?_, Or.inl (by omega)⟩
      have hk2 : InRange k := ⟨by omega, by omega⟩
      have hk3 : InRange (k + 32) := ⟨by omega, by omega⟩
      rw [hp k hk2, hp (k + 32) hk3, if_neg hk, if_neg (by omega), hp₂ k hk2, hp₂ (k + 32) hk3,
        if_neg (c := _ ∧ k + 32 = _) (by omega)]
      refine ⟨?_, rfl⟩
      split
      · rename_i h3
        rcases h2 with h2 | h2
        · rw [h2] at h3
          exact absurd h3.1 (by decide)
        · rw [h3.2, h2]
      · rfl

theorem open_page (ho : fdLookup t old = some (index2fd old)) : ∃ pte, t (slot old.toInt) = some pte ∧
    page t old.toInt = some pte.page := by
  rcases fdLookup_cases t old with ⟨h1, -⟩ | ⟨-, -, -, pte, h1⟩
  · exact absurd (h1.symm.trans ho) nofun
  · refine ⟨pte, h1, ?_⟩
    unfold page
    rw [h1]
    rfl

theorem or_eq_left {a b : Option ℕ} : a.or b = a ↔ (a = none → b = none) := by
  cases a with
  | none => simp
  | some a => simp

/-- **Both pages are mapped**, the data page if there is one. -/
theorem dup_pages {t₂ : Table} (h0 : 0 ≤ old.toInt) (h1 : old.toInt < 32) (hn : 0 ≤ new.toInt)
    (hpo : page t₁ old.toInt = some p)
    (hp₂ : ∀ k, InRange k → page t₂ k = if (page t₁ (old.toInt + 32)).isSome = true ∧ k = new.toInt + 32
      then page t₁ (old.toInt + 32) else page t₁ k)
    (hp : ∀ k, InRange k → page t' k = if k = new.toInt then some ((page t₂ old.toInt).getD 0) else page t₂ k) :
    page t' new.toInt = some p ∧
      page t' (new.toInt + 32) = (page t₁ (old.toInt + 32)).or (page t₁ (new.toInt + 32)) ∧
      ∀ k, InRange k → k ≠ new.toInt → k ≠ new.toInt + 32 → page t' k = page t₁ k := by
  refine ⟨?_, ?_, fun k hk h2 h3 => ?_⟩
  · rw [hp _ (inRange_fd new), if_pos rfl, hp₂ _ (inRange_fd old), if_neg (by omega), hpo]
    rfl
  · rw [hp _ (inRange_data new), if_neg (by omega), hp₂ _ (inRange_data new)]
    cases page t₁ (old.toInt + 32) with
    | none => rfl
    | some x => exact if_pos ⟨rfl, rfl⟩
  · rw [hp k hk, if_neg h2, hp₂ k hk, if_neg fun h => h3 h.2]

/-- From 32 to 63 the `struct Fd` is put in place of a data page. -/
theorem dup_high (ho : fdLookup t old = some (index2fd old)) (h0 : 0 ≤ old.toInt) (h1 : old.toInt < 32)
    (hc : close dev t new = some t) (hl : 32 ≤ new.toInt) (hn : new.toInt < 64) :
    DupRight dev t old new noMem₁ noMem₂ ↔ page t new.toInt = page t old.toInt ∧
      (page t (old.toInt + 32) = none → page t (new.toInt + 32) = none) := by
  obtain ⟨r, t', hd, h⟩ := dup_cases noMem₁ noMem₂ ho h0 h1 hc
  obtain ⟨pte, -, hpo⟩ := open_page ho
  have hfit : ¬ DataFails t old.toInt new.toInt noMem₁ := fun hf => not_fails (by omega) (by omega) hf.2
  have hfit₂ : ¬ Fails noMem₂ new.toInt := not_fails (by omega) (by omega)
  rw [dupRight_of hd]
  rcases h with ⟨-, hf, -⟩ | ⟨hr, -, -, t₂, hp₂, hp⟩
  · exact absurd hf (not_or.2 ⟨hfit, hfit₂⟩)
  · obtain ⟨hnew, hdata, hother⟩ := dup_pages h0 h1 (by omega) hpo hp₂ hp
    rw [hnew, hdata, hpo, or_eq_left]
    constructor
    · rintro ⟨h2, h3⟩
      have h4 := (h2 (new.toInt - 32) (by omega) (by omega) (by omega)).2
      rw [Int.sub_add_cancel, hnew] at h4
      exact ⟨h4.symm, (h3.resolve_left (by omega)).2.2.1⟩
    · rintro ⟨h2, h3⟩
      have hall : ∀ k, 0 ≤ k → k < 64 → page t' k = page t k := by
        intro k hk0 hk1
        by_cases hk : k = new.toInt
        · rw [hk, hnew, h2]
        · exact hother k ⟨by omega, by omega⟩ hk (by omega)
      refine ⟨fun k hk0 hk1 _ => ⟨hall k hk0 (by omega), hall _ (by omega) (by omega)⟩,
        Or.inr ⟨hr, rfl, h3, ?_, hall _ (by omega) (by omega)⟩⟩
      rw [hall _ h0 (by omega), hpo]

/-- From 64 on nothing of the table is touched. -/
theorem dup_top (ho : fdLookup t old = some (index2fd old)) (h0 : 0 ≤ old.toInt) (h1 : old.toInt < 32)
    (hc : close dev t new = some t) (hn : 64 ≤ new.toInt) :
    DupRight dev t old new noMem₁ noMem₂ ↔
      (page t (old.toInt + 32) = none → page t (new.toInt + 32) = none) ∨ Fails noMem₂ new.toInt := by
  obtain ⟨r, t', hd, h⟩ := dup_cases noMem₁ noMem₂ ho h0 h1 hc
  obtain ⟨pte, -, hpo⟩ := open_page ho
  rw [dupRight_of hd]
  rcases h with ⟨hr, hf, hp⟩ | ⟨hr, -, hf, t₂, hp₂, hp⟩
  · refine iff_of_true ⟨fun k hk0 hk1 _ => ?_, Or.inl hr⟩ ?_
    · rw [hp k hk0 (by omega), hp (k + 32) (by omega) (by omega), if_neg (by omega), if_neg (by omega)]
      exact ⟨rfl, rfl⟩
    · exact hf.imp (fun h2 h3 => absurd h2.1 (by rw [h3]; decide)) id
  · obtain ⟨hnew, hdata, hother⟩ := dup_pages h0 h1 (by omega) hpo hp₂ hp
    have hall : ∀ k, 0 ≤ k → k < 64 → page t' k = page t k := fun k hk0 hk1 =>
      hother k ⟨by omega, by omega⟩ (by omega) (by omega)
    rw [hnew, hdata, hpo, or_eq_left, or_iff_left hf, hall _ h0 (by omega), hall _ (by omega) (by omega), hpo]
    constructor
    · rintro ⟨-, h3⟩
      exact (h3.resolve_left (by omega)).2.2.1
    · intro h3
      exact ⟨fun k hk0 hk1 _ => ⟨hall k hk0 (by omega), hall _ (by omega) (by omega)⟩, Or.inr ⟨hr, rfl, h3, rfl, rfl⟩⟩

/-- The process does not survive the reading of a `struct Fd` that it may not read. -/
theorem dup_killed (ho : fdLookup t old = some (index2fd old)) (hc : close dev t new = none) :
    ¬ DupRight dev t old new noMem₁ noMem₂ := by
  have hd : dup dev t old new noMem₁ noMem₂ = none := by
    unfold dup
    rw [ho]
    dsimp only
    rw [hc]
    rfl
  rintro ⟨r, t', h, -⟩
  exact absurd (hd.symm.trans h) nofun

/-- Another descriptor, after it was closed. -/
theorem dup_closed (ho : fdLookup t old = some (index2fd old)) (h0 : 0 ≤ old.toInt) (h1 : old.toInt < 32)
    (hl : 0 ≤ new.toInt) (hn : new.toInt < 32) (hne : new.toInt ≠ old.toInt) (hc : close dev t new = some t₁)
    (ht₁ : ∀ k, 0 ≤ k → k < 64 → k ≠ new.toInt → k ≠ new.toInt + 32 → page t₁ k = page t k) :
    DupRight dev t old new noMem₁ noMem₂ ↔ (page t (old.toInt + 32) = none → page t₁ (new.toInt + 32) = none) := by
  obtain ⟨r, t', hd, h⟩ := dup_cases noMem₁ noMem₂ ho h0 h1 hc
  obtain ⟨pte, -, hpo⟩ := open_page ho
  have hfit : ¬ DataFails t₁ old.toInt new.toInt noMem₁ := fun hf => not_fails (by omega) (by omega) hf.2
  have hfit₂ : ¬ Fails noMem₂ new.toInt := not_fails (by omega) (by omega)
  have ho₁ := ht₁ old.toInt h0 (by omega) (by omega) (by omega)
  have hdo := ht₁ (old.toInt + 32) (by omega) (by omega) (by omega) (by omega)
  rw [dupRight_of hd]
  rcases h with ⟨-, hf, -⟩ | ⟨hr, -, -, t₂, hp₂, hp⟩
  · exact absurd hf (not_or.2 ⟨hfit, hfit₂⟩)
  · obtain ⟨hnew, hdata, hother⟩ := dup_pages h0 h1 hl (ho₁.trans hpo) hp₂ hp
    have hall : ∀ k, 0 ≤ k → k < 64 → k ≠ new.toInt → k ≠ new.toInt + 32 → page t' k = page t k := fun k hk0 hk1 h2 h3 =>
      (hother k ⟨by omega, by omega⟩ h2 h3).trans (ht₁ k hk0 hk1 h2 h3)
    rw [hnew, hdata, hdo, hpo, or_eq_left, hall _ h0 (by omega) (by omega) (by omega),
      hall _ (by omega) (by omega) (by omega) (by omega), hpo]
    constructor
    · rintro ⟨-, h3⟩
      exact (h3.resolve_left (by omega)).2.2.1
    · intro h3
      refine ⟨fun k hk0 hk1 hk => ⟨hall k hk0 (by omega) hk (by omega), ?_⟩, Or.inr ⟨hr, rfl, h3, rfl, rfl⟩⟩
      exact hall _ (by omega) (by omega) (by omega) (by omega)

/-- Another descriptor. -/
theorem dup_other (ho : fdLookup t old = some (index2fd old)) (h0 : 0 ≤ old.toInt) (h1 : old.toInt < 32)
    (hl : 0 ≤ new.toInt) (hn : new.toInt < 32) (hne : new.toInt ≠ old.toInt) :
    DupRight dev t old new noMem₁ noMem₂ ↔ (∀ pte, t (slot new.toInt) = some pte → flag pte.perm pteU = true) ∧
      ((page t (old.toInt + 32) = none → page t (new.toInt + 32) = none) ∨
        ∃ p, page t new.toInt = some p ∧ isPipe (dev p) = true) := by
  rcases close_cases dev t new with ⟨hc, hz⟩ | ⟨-, -, pte, hpte, hcl⟩
  · have hzn := hz hl hn
    have hpn : page t new.toInt = none := by
      unfold page
      rw [hzn]
      rfl
    rw [dup_closed ho h0 h1 hl hn hne hc fun _ _ _ _ _ => rfl, hzn, hpn]
    simp
  · have hpn : page t new.toInt = some pte.page := by
      unfold page
      rw [hpte]
      rfl
    rw [hpte, hpn]
    simp only [Option.some.injEq, forall_eq', exists_eq_left']
    split at hcl
    · rename_i hu
      obtain ⟨t₁, hc, ht₁⟩ := hcl
      rw [dup_closed ho h0 h1 hl hn hne hc fun k hk0 hk1 h2 h3 => ?_,
        ht₁ _ (inRange_data new) (below_table (by omega) (by omega)).1]
      · have h32 : ¬ new.toInt + 32 = new.toInt := by omega
        simp only [hu, true_and, h32, false_or]
        split
        · rename_i hpipe
          exact iff_of_true (fun _ => rfl) (Or.inr hpipe)
        · rename_i hpipe
          rw [or_iff_left hpipe]
      · rw [ht₁ k ⟨by omega, by omega⟩ (below_table hk0 (by omega)).1, if_neg (not_or.2 ⟨h2, fun h => h3 h.1⟩)]
    · rename_i hu
      exact iff_of_false (dup_killed ho hcl) fun h => hu h.1

/-- The same descriptor. It is closed first, and an absent page is duplicated. -/
theorem dup_self (ho : fdLookup t old = some (index2fd old)) (h0 : 0 ≤ old.toInt) (h1 : old.toInt < 32) :
    DupRight dev t old old noMem₁ noMem₂ ↔ (∀ pte, t (slot old.toInt) = some pte → flag pte.perm pteU = true) ∧
      page t old.toInt = some 0 ∧ (isPipe (dev 0) = true → page t (old.toInt + 32) = none) := by
  obtain ⟨pte, hpte, hpo⟩ := open_page ho
  rcases close_cases dev t old with ⟨-, hz⟩ | ⟨-, -, pte', hpte', hcl⟩
  · exact absurd (hpte.symm.trans (hz h0 h1)) nofun
  · cases hpte.symm.trans hpte'
    rw [hpte, hpo]
    simp only [Option.some.injEq, forall_eq']
    split at hcl
    · rename_i hu
      obtain ⟨t₁, hc, ht₁⟩ := hcl
      have hb := (below_table h0 (by omega)).1
      have hb' : Below (old.toInt + 32) := (below_table (by omega) (by omega)).1
      obtain ⟨r, t', hd, h⟩ := dup_cases noMem₁ noMem₂ ho h0 h1 hc
      have hfit : ¬ DataFails t₁ old.toInt old.toInt noMem₁ := fun hf => not_fails (by omega) (by omega) hf.2
      have hfit₂ : ¬ Fails noMem₂ old.toInt := not_fails h0 (by omega)
      rw [dupRight_of hd]
      rcases h with ⟨-, hf, -⟩ | ⟨hr, -, -, t₂, hp₂, hp⟩
      · exact absurd hf (not_or.2 ⟨hfit, hfit₂⟩)
      · have hro := inRange_fd old
        have hro' := inRange_data old
        have h32 : ¬ old.toInt + 32 = old.toInt := by omega
        have hgone : page t₁ old.toInt = none := by
          rw [ht₁ _ hro hb, if_pos (Or.inl rfl)]
        have hdata₁ : page t₁ (old.toInt + 32) =
            if isPipe (dev pte.page) = true then none else page t (old.toInt + 32) := by
          rw [ht₁ _ hro' hb']
          simp only [h32, false_or, true_and]
        -- the absent entry passes for page 0
        have hfd : page t' old.toInt = some 0 := by
          rw [hp _ hro, if_pos rfl, hp₂ _ hro, if_neg (by omega), hgone]
          rfl
        have hdata : page t' (old.toInt + 32) = page t₁ (old.toInt + 32) := by
          rw [hp _ hro', if_neg h32, hp₂ _ hro', ite_self]
        have hother : ∀ k, 0 ≤ k → k < 64 → k ≠ old.toInt → k ≠ old.toInt + 32 → page t' k = page t k := by
          intro k hk0 hk1 h2 h3
          have hk : InRange k := ⟨by omega, by omega⟩
          rw [hp k hk, if_neg h2, hp₂ k hk, if_neg fun h => h3 h.2, ht₁ k hk (below_table hk0 (by omega)).1,
            if_neg (not_or.2 ⟨h2, fun h => h3 h.1⟩)]
        rw [hfd, hdata, hdata₁, hpo]
        constructor
        · rintro ⟨-, h2⟩
          obtain ⟨-, h3, h4, -⟩ := h2.resolve_left (by omega)
          have hz : pte.page = 0 := (Option.some.inj h3).symm
          refine ⟨hu, hz, fun hpipe => ?_⟩
          rw [hz, if_pos hpipe] at h4
          exact h4.symm
        · rintro ⟨-, h2, h3⟩
          rw [← h2] at h3
          have h4 : (if isPipe (dev pte.page) = true then none else page t (old.toInt + 32)) = page t (old.toInt + 32) := by
            split
            · rename_i hpipe
              exact (h3 hpipe).symm
            · rfl
          refine ⟨fun k hk0 hk1 hk => ⟨hother k hk0 (by omega) hk (by omega), ?_⟩, Or.inr ⟨hr, congrArg some h2.symm, h4,
            congrArg some h2.symm, h4⟩⟩
          exact hother _ (by omega) (by omega) (by omega) (by omega)
    · rename_i hu
      exact iff_of_false (dup_killed ho hcl) fun h => hu h.1

/-- A table with a file open as descriptor 0. -/
def oneFile : Table := fun n => if n = 0xD0000 then some ⟨5, 0x407⟩ else none

end Jos.Dup
