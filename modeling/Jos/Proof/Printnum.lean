import Jos.Spec.Printf

/-!
# Numbers in formatted output

`printnum_eq` says what `printnum` prints: the padding, and the numeral. The sign was printed before it, and the
padding character is the flag, so that a negative number is padded with spaces behind its sign, and with the flag
`-` every number is padded with `-` on its left. `vprintfmt_number` says when the result is right.
-/

namespace Jos.Printf

open Lib

variable {fmt ds rest : List Byte} {va : VaList} {c ch : Byte} {pos ap n w m : ℕ} {e : Esc} {radix : Base}

/-! ## Numerals -/

/-- The numeral of `m`. -/
def numeral (base m : ℕ) : List Byte := (Nat.toDigits base m).map ascii

/-- Characters as they are passed to `putch`. -/
def wide (bs : List Byte) : List (BitVec 32) := bs.map (·.setWidth 32)

theorem digit_eq {d : ℕ} (h : d < 16) : digit d = ascii d.digitChar := by
  have hall : ∀ d < 16, digit d = ascii d.digitChar := by decide
  exact hall d h

/-- **`printnum`** prints the padding that is missing and the numeral. -/
theorem printnum_eq (num : ℕ) (hb : (radix : ℕ) ≤ 16) (width : BitVec 32) (padc : Byte) : printnum num radix width padc =
    pad (width - BitVec.ofNat 32 (numeral radix num).length) padc ++ wide (numeral radix num) := by
  have hless : ∀ (w : BitVec 32) (k : ℕ), w - 1 - BitVec.ofNat 32 k = w - BitVec.ofNat 32 (k + 1) := by
    intro w k
    rw [BitVec.ofNat_add, sub_sub, add_comm]
    rfl
  induction num using Nat.strong_induction_on generalizing width with
  | _ num ih =>
    have h1 : 1 < (radix : ℕ) := radix.2
    have hlast : num % radix < 16 := lt_of_lt_of_le (Nat.mod_lt _ (by omega)) hb
    rw [printnum, digit_eq hlast]
    unfold numeral wide
    by_cases hge : num ≥ radix
    · rw [if_pos hge, ih _ (Nat.div_lt_self (by omega) h1), Nat.toDigits_of_base_le h1 hge]
      unfold numeral wide
      simp only [List.map_append, List.map_cons, List.map_nil, List.length_append, List.length_map, List.length_singleton,
        List.append_assoc, hless]
    · rw [if_neg hge, Nat.toDigits_of_lt_base (by omega), Nat.mod_eq_of_lt (by omega)]
      rfl

/-- A numeral has digits, and only these. -/
theorem numeral_mem {b : Byte} (h1 : 1 < n) (hn : n ≤ 16) (hb : b ∈ numeral n m) : ∃ d < n, b = ascii d.digitChar := by
  induction m using Nat.strong_induction_on with
  | _ m ih =>
    unfold numeral at hb ih
    by_cases hge : n ≤ m
    · rw [Nat.toDigits_of_base_le h1 hge, List.map_append] at hb
      rcases List.mem_append.1 hb with hb | hb
      · exact ih _ (Nat.div_lt_self (by omega) h1) hb
      · exact ⟨m % n, Nat.mod_lt _ (by omega), List.mem_singleton.1 hb⟩
    · rw [Nat.toDigits_of_lt_base (by omega)] at hb
      exact ⟨m, by omega, List.mem_singleton.1 hb⟩

theorem numeral_ne_nil (n m : ℕ) : numeral n m ≠ [] := by
  unfold numeral
  rw [Ne, List.map_eq_nil_iff]
  exact Nat.toDigits_ne_nil

/-- A word has up to 20 digits. -/
theorem numeral_length (hn : 10 ≤ n) (hm : m < 2 ^ 64) : (numeral n m).length ≤ 20 := by
  unfold numeral
  rw [List.length_map, Nat.length_toDigits_le_iff (by omega) (by decide)]
  calc m < 2 ^ 64 := hm
    _ ≤ 10 ^ 20 := by norm_num
    _ ≤ n ^ 20 := Nat.pow_le_pow_left hn 20

/-- The first digit of a numeral is not 0. -/
theorem numeral_head (hm : 0 < m) : ∃ d ds, numeral 10 m = ascii (Nat.digitChar d) :: ds ∧ 0 < d ∧ d < 10 := by
  induction m using Nat.strong_induction_on with
  | _ m ih =>
    unfold numeral at ih ⊢
    by_cases hge : 10 ≤ m
    · obtain ⟨d, ds, h1, h2⟩ := ih (m / 10) (Nat.div_lt_self hm (by decide)) (by omega)
      rw [Nat.toDigits_of_base_le (by decide) hge, List.map_append, h1]
      exact ⟨d, _, List.cons_append, h2⟩
    · rw [Nat.toDigits_of_lt_base (by omega)]
      exact ⟨m, [], rfl, hm, by omega⟩

/-! ## Reading a format -/

/-- What is left of a format from `pos` on, with its 0. -/
def At (fmt : List Byte) (pos : ℕ) (rest : List Byte) : Prop := (fmt ++ [0]).drop pos = rest

theorem At.fetch (h : At fmt pos (c :: rest)) : fetch fmt pos = some c := by
  unfold At at h
  unfold Printf.fetch
  rw [← List.head?_drop, h]
  rfl

theorem At.skip (cs : List Byte) (h : At fmt pos (cs ++ rest)) : At fmt (pos + cs.length) rest := by
  unfold At at h ⊢
  rw [← List.drop_drop, h, List.drop_left]

theorem At.next (h : At fmt pos (c :: rest)) : At fmt (pos + 1) rest :=
  At.skip [c] h

/-- A character that goes on with a width. -/
def IsDigit (c : Byte) : Prop := (c.slt (ascii '0') || (ascii '9').slt c) = false

/-- One more digit of a width. -/
def width10 (width : BitVec 32) (c : Byte) : BitVec 32 := width * 10 + c.signExtend 32 - (ascii '0').setWidth 32

/-- The digits of a width are all read. -/
theorem digits_spec {n : ℕ} (h : At fmt pos (ds ++ c :: rest)) (hds : ∀ d ∈ ds, IsDigit d) (hc : ¬ IsDigit c)
    (hn : ds.length < n) (w : BitVec 32) (ch : Byte) :
    digits fmt n w ch pos = some (ds.foldl width10 (width10 w ch), pos + ds.length) := by
  induction n generalizing ds pos w ch with
  | zero => exact absurd hn (Nat.not_lt_zero _)
  | succ n ih =>
    unfold digits
    cases ds with
    | nil =>
      rw [At.fetch h]
      dsimp only [Option.bind_eq_bind, Option.bind_some]
      rw [if_pos (by rwa [IsDigit, Bool.not_eq_false] at hc)]
      rfl
    | cons d ds =>
      rw [List.length_cons] at hn
      have hd : IsDigit d := hds d List.mem_cons_self
      rw [At.fetch h]
      dsimp only [Option.bind_eq_bind, Option.bind_some]
      rw [if_neg (by rw [show _ = false from hd]; exact Bool.false_ne_true),
        ih (At.next h) (fun x hx => hds x (List.mem_cons_of_mem _ hx)) (by omega), List.length_cons]
      congr 2
      omega

theorem digitChar_facts {d : ℕ} (h : d < 10) : IsDigit (ascii d.digitChar) ∧ ∀ w : BitVec 32,
    width10 w (ascii d.digitChar) = w * 10 + BitVec.ofNat 32 d := by
  have h1 : ∀ d < 10, IsDigit (ascii (Nat.digitChar d)) := by
    unfold IsDigit
    decide
  have h2 : ∀ d < 10, (ascii (Nat.digitChar d)).signExtend 32 = BitVec.ofNat 32 d + (ascii '0').setWidth 32 := by decide
  refine ⟨h1 d h, fun w => ?_⟩
  unfold width10
  rw [h2 d h, ← add_assoc, add_sub_cancel_right]

/-- **A width** is read as its value. -/
theorem foldl_width10 (w : ℕ) : (numeral 10 w).foldl width10 0 = BitVec.ofNat 32 w := by
  induction w using Nat.strong_induction_on with
  | _ w ih =>
    unfold numeral at ih ⊢
    by_cases hge : 10 ≤ w
    · rw [Nat.toDigits_of_base_le (by decide) hge, List.map_append, List.foldl_append,
        ih (w / 10) (Nat.div_lt_self (by omega) (by decide)), List.map_cons, List.map_nil, List.foldl_cons, List.foldl_nil,
        (digitChar_facts (Nat.mod_lt w (by decide))).2]
      have hten : (10 : BitVec 32).toNat = 10 := rfl
      apply BitVec.eq_of_toNat_eq
      simp only [BitVec.toNat_add, BitVec.toNat_mul, BitVec.toNat_ofNat, hten]
      omega
    · rw [Nat.toDigits_of_lt_base (by omega)]
      simp only [List.map_cons, List.map_nil, List.foldl_cons, List.foldl_nil]
      rw [(digitChar_facts (by omega)).2]
      rw [zero_mul, zero_add]

/-! ## The conversions of numbers -/

/-- The flag. -/
inductive Flag
  | space
  | zero
  | minus

def Flag.bytes : Flag → List Byte
  | .space => []
  | .zero => [ascii '0']
  | .minus => [ascii '-']

inductive Conv
  | d
  | u
  | x

def Conv.char : Conv → Byte
  | .d => ascii 'd'
  | .u => ascii 'u'
  | .x => ascii 'x'

def Conv.base : Conv → Base
  | .d => ten
  | .u => ten
  | .x => sixteen

/-- What comes before the numeral of a value. -/
def Conv.sign : Conv → BitVec 64 → List Byte
  | .d, v => if v.toInt < 0 then [ascii '-'] else []
  | _, _ => []

/-- The number whose numeral is printed. -/
def Conv.magnitude : Conv → BitVec 64 → ℕ
  | .d, v => v.toInt.natAbs
  | _, v => v.toNat

/-- The numeral. -/
def Conv.numeral (conv : Conv) (v : BitVec 64) : List Byte := Printf.numeral conv.base (conv.magnitude v)

/-- A width in a format, where 0 means that there is none. -/
def field (w : ℕ) : List Byte := if w = 0 then [] else numeral 10 w

/-- The format. -/
def format (flag : Flag) (w : ℕ) (conv : Conv) : List Byte := ascii '%' :: (flag.bytes ++ (field w ++ [conv.char]))

/-- **The output that is right**, for the width `w`. -/
def Padded (flag : Flag) (w : ℕ) (sign digits : List Byte) (out : List (BitVec 32)) : Prop :=
  w ≤ out.length ∧ ∃ k, match flag with
    | .space => out = wide (List.replicate k (ascii ' ') ++ sign ++ digits)
    | .zero => out = wide (sign ++ List.replicate k (ascii '0') ++ digits)
    | .minus => out = wide (sign ++ digits ++ List.replicate k (ascii ' '))

/-- The padding character. -/
def Flag.padc : Flag → Byte
  | .space => ascii ' '
  | .zero => ascii '0'
  | .minus => ascii '-'

/-- The variable `width`. -/
def widthVar (w : ℕ) : BitVec 32 := if w = 0 then -1 else BitVec.ofNat 32 w

theorem Conv.char_facts (conv : Conv) : ¬ IsDigit conv.char ∧ conv.char ≠ ascii '-' ∧ conv.char ≠ ascii '0' ∧
    ¬ (ascii '1' ≤ conv.char ∧ conv.char ≤ ascii '9') ∧ conv.char ≠ ascii '*' ∧ conv.char ≠ ascii '.' ∧
      conv.char ≠ ascii '#' ∧ conv.char ≠ ascii 'l' ∧ conv.char ≠ ascii 'e' := by
  unfold IsDigit
  cases conv
  · decide
  · decide
  · decide

/-- The conversion character ends the escape sequence. -/
theorem reswitch_conv {conv : Conv} (h : At fmt e.pos (conv.char :: rest)) (n : ℕ) :
    reswitch fmt va (n + 1) e = some (conv.char, { e with pos := e.pos + 1 }) := by
  obtain ⟨-, h1, h2, h3, h4, h5, h6, h7, -⟩ := conv.char_facts
  rw [reswitch, h.fetch]
  dsimp only [Option.bind_eq_bind, Option.bind_some]
  rw [if_neg h1, if_neg h2, if_neg h3, if_neg h4, if_neg h5, if_neg h6, if_neg h7]

/-- The width. -/
theorem reswitch_field {conv : Conv} {padc : Byte} (h : At fmt pos (field w ++ conv.char :: rest)) (hn : 1 < n)
    (hlen : (field w).length < fmt.length + 1) : ∃ k, reswitch fmt va n ⟨padc, -1, -1, false, pos, ap⟩ =
      some (conv.char, ⟨padc, widthVar w, -1, false, k, ap⟩) ∧ At fmt k rest := by
  obtain ⟨n, rfl⟩ : ∃ k, n = k + 2 := ⟨n - 2, by omega⟩
  by_cases hzero : w = 0
  · have hfield : field w = [] := if_pos hzero
    have hvar : widthVar w = -1 := if_pos hzero
    rw [hfield] at h
    rw [reswitch_conv h, hvar]
    exact ⟨_, rfl, At.next h⟩
  · obtain ⟨d, ds, h1, h2, h3⟩ := numeral_head (Nat.pos_of_ne_zero hzero)
    have hfield : field w = ascii d.digitChar :: ds := (if_neg hzero).trans h1
    have hds : ∀ b ∈ ds, IsDigit b := by
      intro b hb
      obtain ⟨k, hk, rfl⟩ := numeral_mem (m := w) (by decide : 1 < 10) (by decide) (h1 ▸ List.mem_cons_of_mem _ hb)
      exact (digitChar_facts hk).1
    have hfirst : ∀ d < 10, 0 < d → ascii (Nat.digitChar d) ≠ ascii '-' ∧ ascii (Nat.digitChar d) ≠ ascii '0' ∧
        ascii '1' ≤ ascii (Nat.digitChar d) ∧ ascii (Nat.digitChar d) ≤ ascii '9' := by decide
    obtain ⟨h4, h5, h6⟩ := hfirst d h3 h2
    rw [hfield] at h hlen
    rw [List.length_cons] at hlen
    have hval : ds.foldl width10 (width10 0 (ascii d.digitChar)) = BitVec.ofNat 32 w := by
      rw [← foldl_width10 w, h1]
      rfl
    have hstop : At fmt (pos + 1 + ds.length) (conv.char :: rest) := At.skip ds (At.next h)
    rw [reswitch, At.fetch h]
    dsimp only [Option.bind_eq_bind, Option.bind_some]
    rw [if_neg h4, if_neg h5, if_pos h6, digits_spec (At.next h) hds conv.char_facts.1 (by omega), hval]
    dsimp only [Option.bind_some]
    unfold Esc.processPrecision
    dsimp only
    rw [if_pos (by decide)]
    have hvar : widthVar w = BitVec.ofNat 32 w := if_neg hzero
    refine ⟨pos + 1 + ds.length + 1, ?_, At.next hstop⟩
    rw [reswitch_conv (e := ⟨padc, BitVec.ofNat 32 w, -1, false, pos + 1 + ds.length, ap⟩) hstop, hvar]

/-- **An escape sequence** of a number. -/
theorem reswitch_number {conv : Conv} {flag : Flag} (va : VaList) (ap : ℕ) (h : At fmt pos (flag.bytes ++ (field w ++ conv.char :: rest)))
    (hlen : (field w).length < fmt.length + 1) (hn : 2 < n) : ∃ k, reswitch fmt va n ⟨ascii ' ', -1, -1, false, pos, ap⟩ =
      some (conv.char, ⟨flag.padc, widthVar w, -1, false, k, ap⟩) ∧ At fmt k rest := by
  obtain ⟨n, rfl⟩ : ∃ k, n = k + 1 := ⟨n - 1, by omega⟩
  cases flag with
  | space => exact reswitch_field h (by omega) hlen
  | zero =>
    rw [reswitch, At.fetch h]
    dsimp only [Option.bind_eq_bind, Option.bind_some]
    rw [if_neg (by decide), if_pos rfl]
    exact reswitch_field (At.next h) (by omega) hlen
  | minus =>
    rw [reswitch, At.fetch h]
    dsimp only [Option.bind_eq_bind, Option.bind_some]
    rw [if_pos rfl]
    exact reswitch_field (At.next h) (by omega) hlen

theorem getint_eq (v : BitVec 64) : getint v = (decide (v.toInt < 0), v.toInt.natAbs) := by
  have h1 := BitVec.toInt_eq_toNat_cond v
  have h2 := v.isLt
  unfold getint
  rw [BitVec.slt_eq_decide]
  change (if decide (v.toInt < 0) = true then _ else _) = _
  by_cases h : v.toInt < 0
  · rw [if_pos (decide_eq_true h), decide_eq_true h, BitVec.toNat_neg]
    split at h1
    · omega
    · rw [Nat.mod_eq_of_lt (by omega)]
      congr 1
      omega
  · rw [if_neg (by rw [decide_eq_true_iff]; exact h), decide_eq_false h]
    split at h1
    · congr 1
      omega
    · omega

/-- **The conversion** prints the sign, and the number behind it. -/
theorem convert_number (conv : Conv) (e : Esc) : convert fmt va conv.char e = some
    (wide (conv.sign (va.word e.ap)) ++ printnum (conv.magnitude (va.word e.ap)) conv.base e.width e.padc, e.pos,
      e.ap + 1) := by
  unfold convert
  cases conv with
  | d =>
    unfold Conv.sign Conv.magnitude
    rw [if_neg (by decide), if_neg (by decide), if_pos (by rfl), getint_eq]
    dsimp only
    by_cases h : (va.word e.ap).toInt < 0
    · rw [decide_eq_true h, if_pos (by rfl), if_pos h]
      rfl
    · rw [decide_eq_false h, if_neg Bool.false_ne_true, if_neg h]
      rfl
  | u =>
    rw [if_neg (by decide), if_neg (by decide), if_neg (by decide), if_pos (by rfl)]
    rfl
  | x =>
    rw [if_neg (by decide), if_neg (by decide), if_neg (by decide), if_neg (by decide), if_neg (by decide),
      if_neg (by decide), if_pos (by rfl)]
    rfl

theorem base_le (conv : Conv) : 10 ≤ (conv.base : ℕ) ∧ (conv.base : ℕ) ≤ 16 := by
  cases conv
  · decide
  · decide
  · decide

/-- **What is printed**: the sign, the padding, and the numeral. -/
theorem vprintfmt_eq (flag : Flag) (w : ℕ) (conv : Conv) (va : VaList) : vprintfmt (format flag w conv) va = some
    (wide (conv.sign (va.word 0)) ++
      (pad (widthVar w - BitVec.ofNat 32 (conv.numeral (va.word 0)).length) flag.padc ++
        wide (conv.numeral (va.word 0)))) := by
  have hlen : (field w).length < (format flag w conv).length + 1 := by
    unfold format
    simp only [List.length_cons, List.length_append]
    omega
  have hstart : At (format flag w conv) 0 (ascii '%' :: (flag.bytes ++ (field w ++ [conv.char, 0]))) := by
    unfold At format
    rw [List.drop_zero]
    simp only [List.cons_append, List.append_assoc, List.nil_append]
  obtain ⟨k, h1, h2⟩ := reswitch_number va 0 hstart.next hlen
    (by unfold format; simp only [List.length_cons, List.length_append]; omega : 2 < (format flag w conv).length + 2)
  have hne : conv.char ≠ ascii 'e' := conv.char_facts.2.2.2.2.2.2.2.2
  -- behind the conversion is the 0
  obtain ⟨n, hn⟩ : ∃ n, (format flag w conv).length = n + 1 := ⟨_, rfl⟩
  have hend : loop error (format flag w conv) va (n + 2) k 1 = some [] := by
    rw [loop, h2.fetch]
    rfl
  unfold vprintfmt
  rw [hn, loop, hstart.fetch]
  dsimp only [Option.bind_eq_bind, Option.bind_some]
  rw [if_neg (not_not.2 rfl), h1]
  dsimp only [Option.bind_some]
  rw [if_neg hne, convert_number]
  dsimp only [Option.bind_some]
  rw [hend, printnum_eq _ (base_le conv).2]
  simp only [Option.bind_some, List.append_nil]
  rfl

/-! ## The result -/

/-- How much padding there is, for a numeral of `n` characters. -/
def missing (w n : ℕ) : ℕ := (widthVar w - BitVec.ofNat 32 n).toInt.toNat

/-- The width is a 32-bit number: from `2 ^ 31 + n` on, the padding is too short by more than a sign. -/
theorem missing_cases (w : ℕ) (hn : n ≤ 20) :
    w ≤ n ∧ missing w n = 0 ∨ n < w ∧ w < 2 ^ 31 + n ∧ missing w n = w - n ∨
      2 ^ 31 + n ≤ w ∧ missing w n + n + 1 < w := by
  unfold missing widthVar
  by_cases hw : w = 0
  · have hint : ((-1 : BitVec 32) - BitVec.ofNat 32 n).toInt = -1 - n := by
      have h1 : (-1 : BitVec 32).toInt = -1 := by decide
      have h2 : (BitVec.ofNat 32 n).toInt = n := by
        rw [BitVec.toInt_eq_toNat_cond, BitVec.toNat_ofNat, Nat.mod_eq_of_lt (by omega), if_pos (by omega)]
      rw [BitVec.toInt_sub, h1, h2, Int.bmod_eq_of_le (by omega) (by omega)]
    rw [if_pos hw, hint]
    omega
  · rw [if_neg hw, BitVec.toInt_eq_toNat_cond, BitVec.toNat_sub, BitVec.toNat_ofNat, BitVec.toNat_ofNat]
    split
    · omega
    · omega

theorem wide_inj {l l' : List Byte} (h : wide l = wide l') : l = l' := by
  refine List.map_injective_iff.2 (fun a b hab => ?_) h
  have h1 := congrArg (BitVec.setWidth 8) hab
  simpa using h1

/-- The characters of a numeral are not those of a padding. -/
theorem numeral_first (conv : Conv) (v : BitVec 64) : ∃ c cs, conv.numeral v = c :: cs ∧ c ≠ ascii ' ' ∧ c ≠ ascii '-' := by
  obtain ⟨h1, h2⟩ := base_le conv
  obtain ⟨c, cs, heq⟩ := List.exists_cons_of_ne_nil (numeral_ne_nil conv.base (conv.magnitude v))
  obtain ⟨d, hd, rfl⟩ := numeral_mem (n := conv.base) (m := conv.magnitude v) (b := c) (by omega) h2
    (heq ▸ List.mem_cons_self)
  have hall : ∀ d < 16, ascii (Nat.digitChar d) ≠ ascii ' ' ∧ ascii (Nat.digitChar d) ≠ ascii '-' := by decide
  exact ⟨_, cs, heq, hall d (lt_of_lt_of_le hd h2)⟩

theorem numeral_le (conv : Conv) (v : BitVec 64) : (conv.numeral v).length ≤ 20 := by
  refine numeral_length (base_le conv).1 ?_
  have h1 := v.isLt
  have h2 := BitVec.toInt_eq_toNat_cond v
  cases conv with
  | d =>
    change v.toInt.natAbs < 2 ^ 64
    split at h2
    · omega
    · omega
  | u => exact h1
  | x => exact h1

theorem sign_length (conv : Conv) (v : BitVec 64) : (conv.sign v).length ≤ 1 := by
  cases conv with
  | d =>
    unfold Conv.sign
    dsimp only
    split
    · exact le_rfl
    · exact Nat.zero_le _
  | u => exact Nat.zero_le _
  | x => exact Nat.zero_le _

/-- What is printed, as bytes. -/
def printed (flag : Flag) (w : ℕ) (sign digits : List Byte) : List Byte :=
  sign ++ (List.replicate (missing w digits.length) flag.padc ++ digits)

theorem wide_printed (flag : Flag) (w : ℕ) (sign digits : List Byte) : wide (printed flag w sign digits) =
    wide sign ++ (pad (widthVar w - BitVec.ofNat 32 digits.length) flag.padc ++ wide digits) := by
  unfold wide printed pad missing
  rw [List.map_append, List.map_append, List.map_replicate]

theorem printed_length (flag : Flag) (w : ℕ) (sign digits : List Byte) :
    (wide (printed flag w sign digits)).length = sign.length + (missing w digits.length + digits.length) := by
  unfold wide printed
  rw [List.length_map, List.length_append, List.length_append, List.length_replicate]

/-- **Zeros** go behind the sign. -/
theorem padded_zero (w : ℕ) (sign digits : List Byte) : Padded .zero w sign digits (wide (printed .zero w sign digits)) ↔
    w ≤ sign.length + (missing w digits.length + digits.length) := by
  unfold Padded
  rw [printed_length]
  refine and_iff_left ⟨missing w digits.length, ?_⟩
  dsimp only
  unfold printed Flag.padc
  rw [List.append_assoc]

/-- **Spaces** go before the numeral, which is right without a sign only. -/
theorem padded_space {w : ℕ} {sign digits : List Byte} (hs : sign = [] ∨ sign = [ascii '-'])
    (hd : ∃ c cs, digits = c :: cs ∧ c ≠ ascii ' ' ∧ c ≠ ascii '-') :
    Padded .space w sign digits (wide (printed .space w sign digits)) ↔
      w ≤ sign.length + (missing w digits.length + digits.length) ∧ (sign = [] ∨ missing w digits.length = 0) := by
  obtain ⟨c, cs, hcs, hc1, hc2⟩ := hd
  unfold Padded
  rw [printed_length]
  refine and_congr_right fun _ => ?_
  dsimp only
  constructor
  · rintro ⟨k, hk⟩
    rcases hs with rfl | rfl
    · exact Or.inl rfl
    · right
      have heq := wide_inj hk
      unfold printed Flag.padc at heq
      -- the sign is the first character
      cases k with
      | succ k => exact absurd (List.cons.inj heq).1 (by decide)
      | zero =>
        cases hm : missing w digits.length with
        | zero => rfl
        | succ m =>
          rw [hm, hcs] at heq
          exact absurd (List.cons.inj (List.cons.inj heq).2).1 (Ne.symm hc1)
  · rintro (rfl | h0)
    · refine ⟨missing w digits.length, ?_⟩
      unfold printed Flag.padc
      rw [List.append_nil, List.nil_append]
    · refine ⟨0, ?_⟩
      unfold printed
      rw [h0]
      rfl

/-- **With the flag `-`** there must be nothing to pad. -/
theorem padded_minus {w : ℕ} {sign digits : List Byte}
    (hd : ∃ c cs, digits = c :: cs ∧ c ≠ ascii ' ' ∧ c ≠ ascii '-') :
    Padded .minus w sign digits (wide (printed .minus w sign digits)) ↔
      w ≤ sign.length + (missing w digits.length + digits.length) ∧ missing w digits.length = 0 := by
  obtain ⟨c, cs, hcs, hc1, hc2⟩ := hd
  unfold Padded
  rw [printed_length]
  refine and_congr_right fun _ => ?_
  dsimp only
  constructor
  · rintro ⟨k, hk⟩
    have heq := wide_inj hk
    unfold printed Flag.padc at heq
    rw [List.append_assoc] at heq
    have hrest := List.append_cancel_left heq
    cases hm : missing w digits.length with
    | zero => rfl
    | succ m =>
      rw [hm, hcs] at hrest
      exact absurd (List.cons.inj hrest).1 (Ne.symm hc2)
  · intro h0
    refine ⟨0, ?_⟩
    unfold printed
    rw [h0, List.replicate_zero, List.replicate_zero, List.nil_append, List.append_nil]

/-- **Numbers are right** exactly if nothing is to be padded, or the flag is `0`, or there is no flag and no sign;
and the width is not too large for a 32-bit variable. -/
theorem vprintfmt_number (flag : Flag) (w : ℕ) (conv : Conv) (va : VaList) :
    ∃ out, vprintfmt (format flag w conv) va = some out ∧
      (Padded flag w (conv.sign (va.word 0)) (conv.numeral (va.word 0)) out ↔
        w ≤ (conv.numeral (va.word 0)).length ∨
          (flag = .zero ∨ flag = .space ∧ conv.sign (va.word 0) = []) ∧
            w < 2 ^ 31 + (conv.numeral (va.word 0)).length) := by
  refine ⟨_, vprintfmt_eq flag w conv va, ?_⟩
  rw [← wide_printed]
  have hs := sign_length conv (va.word 0)
  have hsign : conv.sign (va.word 0) = [] ∨ conv.sign (va.word 0) = [ascii '-'] := by
    cases conv with
    | d =>
      unfold Conv.sign
      dsimp only
      split
      · exact Or.inr rfl
      · exact Or.inl rfl
    | u => exact Or.inl rfl
    | x => exact Or.inl rfl
  -- how many characters are missing, with the width taken as an `int`
  have hmiss := missing_cases w (numeral_le conv (va.word 0))
  have hfirst := numeral_first conv (va.word 0)
  cases flag with
  | zero =>
    rw [padded_zero]
    simp only [reduceCtorEq, false_and, or_false, true_and]
    omega
  | space =>
    rw [padded_space hsign hfirst]
    simp only [reduceCtorEq, false_or, true_and]
    by_cases h0 : conv.sign (va.word 0) = []
    · have hlen : (conv.sign (va.word 0)).length = 0 := by rw [h0]; rfl
      simp only [h0, true_or, and_true, true_and, List.length_nil]
      omega
    · simp only [h0, false_or, false_and, or_false]
      omega
  | minus =>
    rw [padded_minus hfirst]
    simp only [reduceCtorEq, false_and, or_false]
    omega

/-- `%5d` of -12 is `-   12`. -/
theorem vprintfmt_number_counterexample :
    ∃ out, vprintfmt (format .space 5 .d) ⟨fun _ => -12, fun _ => []⟩ = some out ∧
      ¬ Padded .space 5 (Conv.sign .d (-12)) (Conv.numeral .d (-12)) out := by
  refine ⟨_, vprintfmt_eq _ _ _ _, ?_⟩
  rw [← wide_printed, padded_space (Or.inr (by decide)) (numeral_first .d _)]
  decide

end Jos.Printf
