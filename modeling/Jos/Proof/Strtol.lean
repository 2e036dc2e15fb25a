import Jos.Proof.Printf
import Jos.Spec.Strtol

/-!
# Numbers are read as they were printed

`strtol_printnum`: what `printnum` prints without padding, `strtol` reads as the number that it was, up to what is
behind the last digit. A numeral ends with its last digit, so that both the recursion of `printnum` and the loop of
`strtol` go through the quotients of the number; `digitLoop_numeral` is the induction, for any text behind it.
-/

namespace Jos.Printf

open Lib

variable {c : Byte} {rest : List Byte} {n m : ℕ} {radix : Base}

/-- A letter or a digit. -/
def IsAlnum (c : Byte) : Prop := ascii '0' ≤ c ∧ c ≤ ascii '9' ∨ ascii 'a' ≤ c ∧ c ≤ ascii 'z' ∨ ascii 'A' ≤ c ∧ c ≤ ascii 'Z'

instance (c : Byte) : Decidable (IsAlnum c) := by
  unfold IsAlnum
  infer_instance

theorem dig_none (hc : ¬ IsAlnum c) : dig c = none := by
  have hall : ∀ c : Byte, ¬ IsAlnum c → dig c = none := by decide
  exact hall c hc

theorem dig_digitChar {d : ℕ} (hd : d < 16) : dig (ascii d.digitChar) = some (BitVec.ofNat 32 d) := by
  have hall : ∀ d < 16, dig (ascii (Nat.digitChar d)) = some (BitVec.ofNat 32 d) := by decide
  exact hall d hd

/-- **One digit** is multiplied in. -/
theorem digitLoop_digit (h2 : 1 < n) (hn : n ≤ 16) {d : ℕ} (hd : d < n) (rest : List Byte) (m : ℕ) :
    digitLoop (BitVec.ofNat 32 n) (ascii d.digitChar :: rest) (BitVec.ofNat 64 m) =
      digitLoop (BitVec.ofNat 32 n) rest (BitVec.ofNat 64 (m * n + d)) := by
  have hext : ∀ k ≤ 16, (BitVec.ofNat 32 k).signExtend 64 = BitVec.ofNat 64 k := by decide
  have hless : ∀ n ≤ 16, ∀ d < n, (BitVec.ofNat 32 n).sle (BitVec.ofNat 32 d) = false := by decide
  rw [digitLoop, dig_digitChar (lt_of_lt_of_le hd hn)]
  dsimp only
  rw [hless n hn d hd, if_neg Bool.false_ne_true, hext n hn, hext d (by omega), ← BitVec.ofNat_mul, ← BitVec.ofNat_add]

/-- **A numeral** is read as its number. -/
theorem digitLoop_numeral (h2 : 1 < n) (hn : n ≤ 16) (m : ℕ) (rest : List Byte) :
    digitLoop (BitVec.ofNat 32 n) (numeral n m ++ rest) 0 = digitLoop (BitVec.ofNat 32 n) rest (BitVec.ofNat 64 m) := by
  induction m using Nat.strong_induction_on generalizing rest with
  | _ m ih =>
    unfold numeral at ih ⊢
    by_cases hge : n ≤ m
    · have hlast : m % n < n := Nat.mod_lt _ (by omega)
      rw [Nat.toDigits_of_base_le h2 hge, List.map_append, List.append_assoc, ih _ (Nat.div_lt_self (by omega) h2),
        List.map_cons, List.map_nil, List.singleton_append, digitLoop_digit h2 hn hlast, Nat.div_add_mod']
    · have hzero : (0 : BitVec 64) = BitVec.ofNat 64 0 := rfl
      rw [Nat.toDigits_of_lt_base (by omega), List.map_cons, List.map_nil, List.singleton_append, hzero,
        digitLoop_digit h2 hn (by omega), zero_mul, zero_add]

/-! ## What is before the digits -/

/-- The first character of a numeral, and the one behind it. -/
theorem numeral_start (h2 : 1 < n) (hn : n ≤ 16) (m : ℕ) (hc : ¬ IsAlnum c) (rest : List Byte) :
    ∃ d x s, numeral n m ++ c :: rest = d :: x :: s ∧ d ≠ ascii ' ' ∧ d ≠ ascii '\t' ∧ d ≠ ascii '+' ∧ d ≠ ascii '-' ∧
      x ≠ ascii 'x' := by
  have hall : ∀ d < 16, ascii (Nat.digitChar d) ≠ ascii ' ' ∧ ascii (Nat.digitChar d) ≠ ascii '\t' ∧
      ascii (Nat.digitChar d) ≠ ascii '+' ∧ ascii (Nat.digitChar d) ≠ ascii '-' ∧ ascii (Nat.digitChar d) ≠ ascii 'x' := by
    decide
  have hdigit : ∀ b ∈ numeral n m, b ≠ ascii ' ' ∧ b ≠ ascii '\t' ∧ b ≠ ascii '+' ∧ b ≠ ascii '-' ∧ b ≠ ascii 'x' := by
    intro b hb
    obtain ⟨d, hd, rfl⟩ := numeral_mem h2 hn hb
    exact hall d (lt_of_lt_of_le hd hn)
  obtain ⟨d, ds, heq⟩ := List.exists_cons_of_ne_nil (numeral_ne_nil n m)
  rw [heq] at hdigit ⊢
  obtain ⟨h3, h4, h5, h6, -⟩ := hdigit d List.mem_cons_self
  cases ds with
  | nil =>
    have hx : c ≠ ascii 'x' := by
      rintro rfl
      exact hc (by decide)
    exact ⟨d, c, rest, rfl, h3, h4, h5, h6, hx⟩
  | cons x ds =>
    have hx := hdigit x (List.mem_cons_of_mem _ List.mem_cons_self)
    exact ⟨d, x, ds ++ c :: rest, rfl, h3, h4, h5, h6, hx.2.2.2.2⟩

/-- A numeral has no prefix. -/
theorem basePrefix_numeral (h2 : 1 < n) (hn : n ≤ 16) (m : ℕ) (hc : ¬ IsAlnum c) (rest : List Byte) :
    basePrefix (BitVec.ofNat 32 n) (numeral n m ++ c :: rest) = some (BitVec.ofNat 32 n, numeral n m ++ c :: rest) := by
  have hzero : ∀ n ≤ 16, 1 < n → BitVec.ofNat 32 n ≠ 0 := by decide
  obtain ⟨d, x, s, heq, -, -, -, -, hx⟩ := numeral_start h2 hn m hc rest
  have hhex : isHex (BitVec.ofNat 32 n) (numeral n m ++ c :: rest) = some false := by
    unfold isHex
    rw [heq]
    simp only [List.getElem?_cons_zero, List.getElem?_cons_succ, Option.bind_eq_bind, Option.bind_some, decide_eq_false hx,
      ite_self]
  unfold basePrefix
  rw [hhex]
  dsimp only [Option.bind_eq_bind, Option.bind_some]
  rw [if_neg Bool.false_ne_true, if_neg (hzero n hn h2)]

/-- **A numeral**, up to what is behind it. -/
theorem strtol_numeral (h2 : 1 < n) (hn : n ≤ 16) (m : ℕ) (hc : ¬ IsAlnum c) (rest : List Byte) :
    strtol (numeral n m ++ c :: rest) (BitVec.ofNat 32 n) = some (BitVec.ofNat 64 m, c :: rest) ∧
      strtol (ascii '-' :: (numeral n m ++ c :: rest)) (BitVec.ofNat 32 n) = some (-BitVec.ofNat 64 m, c :: rest) := by
  have hbase := basePrefix_numeral h2 hn m hc rest
  have hloop : digitLoop (BitVec.ofNat 32 n) (numeral n m ++ c :: rest) 0 = some (BitVec.ofNat 64 m, c :: rest) := by
    rw [digitLoop_numeral h2 hn, digitLoop, dig_none hc]
  constructor
  · obtain ⟨d, x, s, heq, h3, h4, h5, h6, -⟩ := numeral_start h2 hn m hc rest
    have hgobble : gobble (numeral n m ++ c :: rest) = some (numeral n m ++ c :: rest) := by
      rw [heq, gobble, if_neg (not_or.2 ⟨h3, h4⟩)]
    have hsign : sign (numeral n m ++ c :: rest) = some (false, numeral n m ++ c :: rest) := by
      unfold sign
      rw [heq]
      dsimp only [List.getElem?_cons_zero, Option.bind_eq_bind, Option.bind_some]
      rw [if_neg h5, if_neg h6]
    unfold strtol
    rw [hgobble]
    dsimp only [Option.bind_eq_bind, Option.bind_some]
    rw [hsign]
    dsimp only [Option.bind_some]
    rw [hbase]
    dsimp only [Option.bind_some]
    rw [hloop]
    rfl
  · have hgobble : gobble (ascii '-' :: (numeral n m ++ c :: rest)) = some (ascii '-' :: (numeral n m ++ c :: rest)) := rfl
    have hsign : sign (ascii '-' :: (numeral n m ++ c :: rest)) = some (true, numeral n m ++ c :: rest) := rfl
    unfold strtol
    rw [hgobble]
    dsimp only [Option.bind_eq_bind, Option.bind_some]
    rw [hsign]
    dsimp only [Option.bind_some]
    rw [hbase]
    dsimp only [Option.bind_some]
    rw [hloop]
    rfl

/-- **Numbers are read as they were printed**, and negative ones behind a `-`. No width is left at the first digit, so
that there is no padding. -/
theorem strtol_printnum (radix : Base) (num : ℕ) (hnum : num < 2 ^ 63) (hb : (radix : ℕ) ≤ 16) (width : BitVec 32) (padc : Byte)
    (hwidth : (width - BitVec.ofNat 32 (Nat.toDigits radix num).length).toInt ≤ 0) (hc : ¬ IsAlnum c) (rest : List Byte) :
    (∃ v, strtol (chars (printnum num radix width padc) ++ c :: rest) (BitVec.ofNat 32 radix) = some (v, c :: rest) ∧
      v.toInt = num) ∧
      ∃ v, strtol (ascii '-' :: (chars (printnum num radix width padc) ++ c :: rest)) (BitVec.ofNat 32 radix) =
        some (v, c :: rest) ∧ v.toInt = -num := by
  have hlen : (numeral radix num).length = (Nat.toDigits radix num).length := List.length_map _
  have hpad : pad (width - BitVec.ofNat 32 (numeral radix num).length) padc = [] := by
    unfold pad
    rw [hlen, Int.toNat_eq_zero.2 hwidth]
    rfl
  have hchars : chars (printnum num radix width padc) = numeral radix num := by
    rw [printnum_eq num hb, hpad, List.nil_append]
    unfold chars wide
    rw [List.map_map]
    refine (List.map_congr_left fun b _ => ?_).trans (List.map_id _)
    rw [Function.comp, BitVec.setWidth_setWidth_of_le b (by decide), BitVec.setWidth_eq]
    rfl
  obtain ⟨h1, h2⟩ := strtol_numeral radix.2 hb num hc rest
  have hint : (BitVec.ofNat 64 num).toInt = num := by
    rw [BitVec.toInt_eq_toNat_cond, BitVec.toNat_ofNat, Nat.mod_eq_of_lt (by omega), if_pos (by omega)]
  have hneg : (-BitVec.ofNat 64 num).toInt = -num := by
    rw [BitVec.toInt_neg, hint, Int.bmod_eq_of_le (by omega) (by omega)]
  rw [hchars]
  exact ⟨⟨_, h1, hint⟩, _, h2, hneg⟩

/-- 255 with the base 16. -/
theorem strtol_printnum_ff : (∃ v, strtol (chars (printnum 255 sixteen (-1) (ascii ' ')) ++ [ascii ' ']) (BitVec.ofNat 32 16) =
    some (v, [ascii ' ']) ∧ v.toInt = 255) ∧
      ∃ v, strtol (ascii '-' :: (chars (printnum 255 sixteen (-1) (ascii ' ')) ++ [ascii ' '])) (BitVec.ofNat 32 16) =
        some (v, [ascii ' ']) ∧ v.toInt = -255 :=
  strtol_printnum sixteen 255 (by decide) (by decide) (-1) (ascii ' ') (by decide) (by decide) []

end Jos.Printf
