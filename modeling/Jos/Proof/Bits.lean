import Jos.Spec.Pmap

/-!
# The arithmetic of page-table entries and addresses

An entry is a page address or'ed with flags below bit 12, so its page number and its
flags can be read back independently (`ppn_or`, `flag_or`). The addresses a system
call accepts lie in the slots 0 and 1 of a PML4 (`below_utop`).
-/

namespace Jos

theorem ppn_eq (a : BitVec 64) : ppn a = a.toNat / 4096 := by
  simp [ppn, Nat.shiftRight_eq_div_pow]

@[simp] theorem ppn_zero : ppn 0#64 = 0 := rfl

@[simp] theorem flag_zero {w : ℕ} (b : BitVec w) : flag 0#w b = false := by
  simp [flag]

@[simp] theorem ppn_pteAddr (e : PTE) : ppn (pteAddr e) = ppn e := by
  unfold ppn pteAddr
  congr 1
  ext i hi
  simp only [BitVec.getElem_ushiftRight, BitVec.getLsbD_and, BitVec.getLsbD_not]
  have h1 : (0xFFF#64).getLsbD (12 + i) = false := by
    rw [BitVec.getLsbD, BitVec.toNat_ofNat]
    exact Nat.testBit_lt_two_pow (lt_of_lt_of_le (by decide : 0xFFF % 2 ^ 64 < 2 ^ 12)
      (Nat.pow_le_pow_right (by decide) (by omega)))
  rw [h1]
  by_cases h : 12 + i < 64
  · simp [h]
  · simp [BitVec.getLsbD_of_ge e (12 + i) (by omega)]

/-- The value of a page address with flags. -/
theorem toNat_page2pa_or {p : ℕ} (hp : p < 2 ^ 52) {f : BitVec 64} (hf : f.toNat < 4096) :
    (page2pa p ||| f).toNat = p * 4096 + f.toNat := by
  have hp' : p < 4503599627370496 := hp
  have h1 : p % 2 ^ 64 = p := Nat.mod_eq_of_lt (by omega)
  have h2 : (p <<< 12) % 2 ^ 64 = p <<< 12 := by
    rw [Nat.shiftLeft_eq]; exact Nat.mod_eq_of_lt (by omega)
  unfold page2pa
  rw [BitVec.toNat_or, BitVec.toNat_shiftLeft, BitVec.toNat_ofNat, h1, h2,
    ← Nat.shiftLeft_add_eq_or_of_lt (i := 12) hf, Nat.shiftLeft_eq]

/-- **The page number reads back.** -/
theorem ppn_or {p : ℕ} (hp : p < 2 ^ 52) {f : BitVec 64} (hf : f.toNat < 4096) :
    ppn (page2pa p ||| f) = p := by
  rw [ppn_eq, toNat_page2pa_or hp hf, Nat.mul_comm, Nat.mul_add_div (by decide),
    Nat.div_eq_of_lt hf, Nat.add_zero]

theorem ppn_page2pa {p : ℕ} (hp : p < 2 ^ 52) : ppn (page2pa p) = p := by
  have := ppn_or hp (f := 0#64) (by decide)
  simpa using this

theorem page2pa_and {p : ℕ} {b : BitVec 64} (hb : b.toNat < 4096) : page2pa p &&& b = 0#64 := by
  ext i hi
  unfold page2pa
  simp only [BitVec.getElem_and, BitVec.getElem_shiftLeft, BitVec.getElem_zero, Bool.and_eq_false_iff]
  by_cases h : i < 12
  · left; simp [h]
  · right
    rw [← BitVec.getLsbD_eq_getElem, BitVec.getLsbD]
    exact Nat.testBit_lt_two_pow (lt_of_lt_of_le hb
      (Nat.pow_le_pow_right (n := 2) (by decide) (by omega : 12 ≤ i)))

/-- **The flags read back.** -/
theorem page2pa_or_and {p : ℕ} {f b : BitVec 64} (hb : b.toNat < 4096) :
    (page2pa p ||| f) &&& b = f &&& b := by
  have h : (page2pa p ||| f) &&& b = (page2pa p &&& b) ||| (f &&& b) := by
    ext i hi
    simp [Bool.and_or_distrib_right]
  rw [h, page2pa_and hb, BitVec.zero_or]

theorem flag_or {p : ℕ} {f b : BitVec 64} (hb : b.toNat < 4096) :
    flag (page2pa p ||| f) b = flag f b := by
  unfold flag; rw [page2pa_or_and hb]

/-- The entry that a walk stores for a table made on the way. -/
theorem link_eq (p : ℕ) : page2pa p ||| pteP ||| pteW ||| pteU = page2pa p ||| 7#64 := by
  rw [BitVec.or_assoc, BitVec.or_assoc]; rfl

@[simp] theorem ppn_link {p : ℕ} (hp : p < 2 ^ 52) :
    ppn (page2pa p ||| pteP ||| pteW ||| pteU) = p := by
  rw [link_eq, ppn_or hp (by decide)]

@[simp] theorem flag_link (p : ℕ) : flag (page2pa p ||| pteP ||| pteW ||| pteU) pteP = true := by
  rw [link_eq, flag_or (by decide)]; rfl

/-- A permission word that keeps to the flags of system calls. -/
def PermOk (perm : BitVec 32) : Prop := perm ||| pteSyscall = pteSyscall

instance (perm : BitVec 32) : Decidable (PermOk perm) := inferInstanceAs (Decidable (_ = _))

theorem PermOk.lt {perm : BitVec 32} (h : PermOk perm) : perm.toNat < 4096 := by
  have h1 : perm.toNat ≤ (perm ||| pteSyscall).toNat := by
    rw [BitVec.toNat_or]; exact Nat.left_le_or
  rw [show perm ||| pteSyscall = pteSyscall from h] at h1
  have h2 : (pteSyscall : BitVec 32).toNat = 0xE07 := by decide
  omega

theorem PermOk.signExtend {perm : BitVec 32} (h : PermOk perm) :
    (perm.signExtend 64).toNat = perm.toNat := by
  have := h.lt
  rw [BitVec.signExtend_eq_setWidth_of_msb_false]
  · simp; omega
  · rw [BitVec.msb_eq_decide]; simp; omega

theorem PermOk.flags_lt {perm : BitVec 32} (h : PermOk perm) :
    (perm.signExtend 64 ||| pteP).toNat < 4096 := by
  rw [BitVec.toNat_or, h.signExtend]
  exact Nat.or_lt_two_pow (n := 12) h.lt (by decide)

theorem mkPte_eq (p : ℕ) (perm : BitVec 32) :
    mkPte p perm = page2pa p ||| (perm.signExtend 64 ||| pteP) := by
  unfold mkPte; rw [BitVec.or_assoc]

theorem ppn_mkPte {p : ℕ} (hp : p < 2 ^ 52) {perm : BitVec 32} (h : PermOk perm) :
    ppn (mkPte p perm) = p := by
  rw [mkPte_eq, ppn_or hp h.flags_lt]

@[simp] theorem flag_mkPte (p : ℕ) (perm : BitVec 32) : flag (mkPte p perm) pteP = true := by
  rw [mkPte_eq, flag_or (by decide)]
  unfold flag
  have h : (perm.signExtend 64 ||| pteP) &&& pteP = pteP := by
    ext i hi; simp; tauto
  rw [h]; rfl

theorem flag_twoPow {w : ℕ} (e : BitVec w) (n : ℕ) (hn : n < w) :
    flag e (BitVec.twoPow w n) = e.getLsbD n := by
  unfold flag
  rw [BitVec.and_twoPow]
  cases e.getLsbD n
  · simp
  · simp only [if_true, bne_iff_ne, ne_eq]
    intro h
    have := congrArg (·.getLsbD n) h
    simp [hn] at this

/-- A flag of a stored entry other than `PTE_P` is that of its permission. -/
theorem getLsbD_mkPte (p : ℕ) (perm : BitVec 32) {n : ℕ} (hn : n < 12) (h0 : n ≠ 0) :
    (mkPte p perm).getLsbD n = perm.getLsbD n := by
  have h1 : (page2pa p).getLsbD n = false := by unfold page2pa; simp [hn]
  have h2 : (pteP : BitVec 64).getLsbD n = false := by
    rw [show (pteP : BitVec 64) = BitVec.twoPow 64 0 by rfl, BitVec.getLsbD_twoPow]; simp; omega
  unfold mkPte
  rw [BitVec.getLsbD_or, BitVec.getLsbD_or, h1, h2, BitVec.getLsbD_signExtend]
  simp [show n < 64 by omega, show n < 32 by omega]

theorem flag_mkPte_w (p : ℕ) (perm : BitVec 32) :
    flag (mkPte p perm) pteW = flag perm pteW := by
  rw [show (pteW : BitVec 64) = BitVec.twoPow 64 1 by rfl, flag_twoPow _ _ (by decide),
    show (pteW : BitVec 32) = BitVec.twoPow 32 1 by rfl, flag_twoPow _ _ (by decide),
    getLsbD_mkPte p perm (by decide) (by decide)]

theorem flag_mkPte_u (p : ℕ) (perm : BitVec 32) :
    flag (mkPte p perm) pteU = flag perm pteU := by
  rw [show (pteU : BitVec 64) = BitVec.twoPow 64 2 by rfl, flag_twoPow _ _ (by decide),
    show (pteU : BitVec 32) = BitVec.twoPow 32 2 by rfl, flag_twoPow _ _ (by decide),
    getLsbD_mkPte p perm (by decide) (by decide)]

/-! ## Addresses -/

theorem field_val (va : VA) (n : ℕ) : (field va n).val = va.toNat / 2 ^ n % 512 := by
  simp [field, Nat.shiftRight_eq_div_pow]

theorem utop_toNat : utop.toNat = 0x8000800000 := by decide

/-- **Below `UTOP`** an address is in slot 0 of the PML4, or in the first four page
tables of slot 1. -/
theorem below_utop {va : VA} (h : va < utop) :
    pml4 va = 0 ∨ (pml4 va = 1 ∧ pdpe va = 0 ∧ (pdx va).val < 4) := by
  have h1 : va.toNat < 0x8000800000 := by rw [← utop_toNat]; exact h
  have e4 := field_val va 39
  have e3 := field_val va 30
  have e2 := field_val va 21
  rcases Nat.lt_or_ge va.toNat (2 ^ 39) with h2 | h2
  · left; ext; unfold pml4; rw [e4]; simp; omega
  · right
    refine ⟨?_, ?_, ?_⟩
    · ext; unfold pml4; rw [e4]; simp; omega
    · ext; unfold pdpe; rw [e3]; simp; omega
    · unfold pdx; rw [e2]; omega

/-- The value of `PGADDR(0, p, d, t, 0)`. -/
theorem pgaddr_toNat (p d t : Idx) :
    (pgaddr 0 p d t).toNat = p.val * 2 ^ 30 + (d.val * 2 ^ 21 + t.val * 2 ^ 12) := by
  have hs : ∀ (x : Idx) (n : ℕ), n ≤ 30 → (BitVec.ofNat 64 x.val <<< n).toNat = x.val <<< n := by
    intro x n hn
    have h1 : x.val < 512 := x.isLt
    have h2 : x.val * 2 ^ n < 2 ^ 64 := by
      have := Nat.pow_le_pow_right (n := 2) (by decide) hn
      calc x.val * 2 ^ n ≤ 512 * 2 ^ 30 := Nat.mul_le_mul (by omega) this
        _ < 2 ^ 64 := by decide
    have h3 : x.val % 2 ^ 64 = x.val := Nat.mod_eq_of_lt (by omega)
    rw [BitVec.toNat_shiftLeft, BitVec.toNat_ofNat, h3, Nat.shiftLeft_eq, Nat.mod_eq_of_lt h2]
  have hp := p.isLt
  have hd := d.isLt
  have ht := t.isLt
  have h1 : d.val <<< 21 ||| t.val <<< 12 = d.val * 2 ^ 21 + t.val * 2 ^ 12 := by
    rw [← Nat.shiftLeft_add_eq_or_of_lt (by rw [Nat.shiftLeft_eq]; omega), Nat.shiftLeft_eq,
      Nat.shiftLeft_eq]
  have h2 : p.val <<< 30 ||| (d.val * 2 ^ 21 + t.val * 2 ^ 12) =
      p.val * 2 ^ 30 + (d.val * 2 ^ 21 + t.val * 2 ^ 12) := by
    rw [← Nat.shiftLeft_add_eq_or_of_lt (by omega), Nat.shiftLeft_eq]
  have h0 : (BitVec.ofNat 64 (0 : Idx).val <<< 39 : BitVec 64) = 0#64 := by decide
  unfold pgaddr
  rw [h0, BitVec.zero_or, BitVec.or_assoc, BitVec.toNat_or, BitVec.toNat_or, hs p 30 (by decide),
    hs d 21 (by decide), hs t 12 (by decide), h1, h2]

/-- The address that `env_free` makes from the indices of an entry has these indices. -/
theorem pgaddr_fields (p d t : Idx) : pgaddr 0 p d t < utop ∧ pml4 (pgaddr 0 p d t) = 0 ∧
    pdpe (pgaddr 0 p d t) = p ∧ pdx (pgaddr 0 p d t) = d ∧ ptx (pgaddr 0 p d t) = t := by
  have h := pgaddr_toNat p d t
  have hp := p.isLt
  have hd := d.isLt
  have ht := t.isLt
  have e4 := field_val (pgaddr 0 p d t) 39
  have e3 := field_val (pgaddr 0 p d t) 30
  have e2 := field_val (pgaddr 0 p d t) 21
  have e1 := field_val (pgaddr 0 p d t) 12
  rw [h] at e4 e3 e2 e1
  refine ⟨?_, ?_, ?_, ?_, ?_⟩
  · rw [BitVec.lt_def, h, utop_toNat]; omega
  · ext; unfold pml4; rw [e4]; simp; omega
  · ext; unfold pdpe; rw [e3]; omega
  · ext; unfold pdx; rw [e2]; omega
  · ext; unfold ptx; rw [e1]; omega

end Jos
