import Jos.Proof.Printnum

/-!
# Every format

`vprintfmt` goes back over an escape sequence that it does not know, and prints it as it is. `loop_isSome` says that
it comes to the end of each format all the same, with any flags, widths, dots and stars in any order, and that it
reads nothing outside of it: the loop makes progress since it goes back to the `%` only, and does not read that
again. What can stop it is `%e` of the least number, which is not in `error_string`.
-/

namespace Jos.Printf

open Lib

variable {fmt ds mods rest : List Byte} {va : VaList} {c ch : Byte} {pos ap n : ℕ} {e : Esc}
  {err : BitVec 32 → Option (List (BitVec 32))}

/-! ## The arguments of `%e` -/

/-- A character that an escape sequence may have before its conversion. -/
def IsModifier (c : Byte) : Prop := c ∈ text "-0123456789*.#l"

instance (c : Byte) : Decidable (IsModifier c) := inferInstanceAs (Decidable (c ∈ text "-0123456789*.#l"))

/-- The conversions but `%e`. -/
def IsConv (c : Byte) : Prop := c ∈ text "csduopx%"

instance (c : Byte) : Decidable (IsConv c) := inferInstanceAs (Decidable (c ∈ text "csduopx%"))

/-- How many arguments a conversion takes. -/
def taken (c : Byte) : ℕ := if c ∈ text "csdupx" then 1 else 0

/-- The arguments of the `%e`s of a format. The format is read forward, in an escape sequence or not. -/
def errArgs (va : VaList) : List Byte → Bool → ℕ → List (BitVec 32)
  | [], _, _ => []
  | c :: fmt, false, ap => errArgs va fmt (c = ascii '%') ap
  | c :: fmt, true, ap =>
    if IsModifier c then errArgs va fmt true (ap + if c = ascii '*' then 1 else 0)
    else if c = ascii 'e' then va.int ap :: errArgs va fmt false (ap + 1)
    else errArgs va fmt false (ap + taken c)

theorem errArgs_modifiers (hmods : ∀ c ∈ mods, IsModifier c) :
    errArgs va (mods ++ rest) true ap = errArgs va rest true (ap + mods.count (ascii '*')) := by
  induction mods generalizing ap with
  | nil => rfl
  | cons c mods ih =>
    rw [List.cons_append, errArgs, if_pos (hmods c List.mem_cons_self), ih (fun x hx => hmods x (List.mem_cons_of_mem _ hx)),
      List.count_cons]
    congr 1
    by_cases hc : c = ascii '*'
    · rw [if_pos hc, if_pos (beq_iff_eq.2 hc)]
      omega
    · rw [if_neg hc, if_neg (fun h => hc (beq_iff_eq.1 h))]
      omega

/-- A text without `%` has none. -/
theorem errArgs_plain (hds : ∀ c ∈ ds, c ≠ ascii '%') : errArgs va (ds ++ rest) false ap = errArgs va rest false ap := by
  induction ds with
  | nil => rfl
  | cons c ds ih =>
    rw [List.cons_append, errArgs, decide_eq_false (hds c List.mem_cons_self)]
    exact ih fun x hx => hds x (List.mem_cons_of_mem _ hx)

/-! ## One escape sequence -/

theorem modifier_ne {c : Byte} (h : IsModifier c) : c ≠ ascii '%' := by
  rintro rfl
  exact absurd h (by decide)

/-- A digit of a width is a modifier. -/
theorem modifier_of_digit {c : Byte} (h : IsDigit c) : IsModifier c := by
  have hall : ∀ c : Byte, ((c.slt (ascii '0') || (ascii '9').slt c) = false) → c ∈ text "-0123456789*.#l" := by decide
  exact hall c h

/-- What a character does that is not the conversion. -/
theorem modifier_cases {c : Byte} (h : IsModifier c) : c = ascii '-' ∨ c = ascii '0' ∨
    (c ≠ ascii '-' ∧ c ≠ ascii '0' ∧ ascii '1' ≤ c ∧ c ≤ ascii '9') ∨ c = ascii '*' ∨ c = ascii '.' ∨ c = ascii '#' ∨
      c = ascii 'l' := by
  have hall : ∀ c ∈ text "-0123456789*.#l", c = ascii '-' ∨ c = ascii '0' ∨
      (c ≠ ascii '-' ∧ c ≠ ascii '0' ∧ ascii '1' ≤ c ∧ c ≤ ascii '9') ∨ c = ascii '*' ∨ c = ascii '.' ∨ c = ascii '#' ∨
        c = ascii 'l' := by decide
  exact hall c h

theorem Esc.processPrecision_pos (e : Esc) : e.processPrecision.pos = e.pos := by
  unfold Esc.processPrecision
  split
  · rfl
  · rfl

theorem Esc.processPrecision_ap (e : Esc) : e.processPrecision.ap = e.ap := by
  unfold Esc.processPrecision
  split
  · rfl
  · rfl

/-- The first character that is not a modifier is the conversion. -/
theorem reswitch_stop (h : At fmt e.pos (c :: rest)) (hc : ¬ IsModifier c) (n : ℕ) :
    reswitch fmt va (n + 1) e = some (c, { e with pos := e.pos + 1 }) := by
  have hne : ∀ d, IsModifier d → c ≠ d := by
    rintro d hd rfl
    exact hc hd
  have hdigit : ¬ (ascii '1' ≤ c ∧ c ≤ ascii '9') := by
    have hall : ∀ c : Byte, ascii '1' ≤ c ∧ c ≤ ascii '9' → c ∈ text "-0123456789*.#l" := by decide
    exact fun h1 => hc (hall c h1)
  rw [reswitch, h.fetch]
  dsimp only [Option.bind_eq_bind, Option.bind_some]
  rw [if_neg (hne _ (by decide)), if_neg (hne _ (by decide)), if_neg hdigit, if_neg (hne _ (by decide)),
    if_neg (hne _ (by decide)), if_neg (hne _ (by decide)), if_neg (hne _ (by decide))]

/-- A `*` takes an argument. -/
theorem count_star (c : Byte) (mods : List Byte) :
    (c :: mods).count (ascii '*') = mods.count (ascii '*') + if c = ascii '*' then 1 else 0 := by
  rw [List.count_cons]
  by_cases hc : c = ascii '*'
  · rw [if_pos hc, if_pos (beq_iff_eq.2 hc)]
  · rw [if_neg hc, if_neg (fun h => hc (beq_iff_eq.1 h))]

/-- The digits at the start of a text. -/
theorem split_digits (l : List Byte) : ∃ ds l', l = ds ++ l' ∧ (∀ d ∈ ds, IsDigit d) ∧ ∀ d rest, l' = d :: rest → ¬ IsDigit d := by
  induction l with
  | nil => exact ⟨[], [], rfl, nofun, nofun⟩
  | cons c l ih =>
    by_cases hc : IsDigit c
    · obtain ⟨ds, l', h1, h2, h3⟩ := ih
      refine ⟨c :: ds, l', by rw [h1, List.cons_append], fun d hd => ?_, h3⟩
      rcases List.mem_cons.1 hd with rfl | hd
      · exact hc
      · exact h2 d hd
    · refine ⟨[], c :: l, rfl, nofun, fun d rest h => ?_⟩
      rw [← (List.cons.inj h).1]
      exact hc

/-- **The modifiers are all passed over**, and no more. -/
theorem reswitch_spec (va : VaList) (hmods : ∀ c ∈ mods, IsModifier c) (hc : ¬ IsModifier c) (h : At fmt e.pos (mods ++ c :: rest))
    (hn : mods.length < n) (hlen : mods.length ≤ fmt.length) : ∃ e', reswitch fmt va n e = some (c, e') ∧
      e'.pos = e.pos + mods.length + 1 ∧ e'.ap = e.ap + mods.count (ascii '*') := by
  -- a width is read at once, so that the induction is on the length
  induction hk : mods.length using Nat.strong_induction_on generalizing mods n e with
  | _ k ih =>
    obtain ⟨n, rfl⟩ : ∃ m, n = m + 1 := ⟨n - 1, by omega⟩
    cases mods with
    | nil => exact ⟨_, reswitch_stop h hc n, by simp only [← hk, List.length_nil, Nat.add_zero], rfl⟩
    | cons m mods =>
      rw [List.length_cons] at hn hlen hk
      have hrest : ∀ c ∈ mods, IsModifier c := fun x hx => hmods x (List.mem_cons_of_mem _ hx)
      have hnext : At fmt (e.pos + 1) (mods ++ c :: rest) := At.next h
      -- one character, after which `e` has moved on
      have hone : ∀ e₁ : Esc, e₁.pos = e.pos + 1 → (e₁.ap = e.ap + if m = ascii '*' then 1 else 0) →
          ∃ e', reswitch fmt va n e₁ = some (c, e') ∧ e'.pos = e.pos + k + 1 ∧
            e'.ap = e.ap + (m :: mods).count (ascii '*') := by
        intro e₁ hpos hap
        obtain ⟨e', h1, h2, h3⟩ := ih mods.length (by omega) (n := n) (e := e₁) hrest (by rw [hpos]; exact hnext) (by omega)
          (by omega) rfl
        refine ⟨e', h1, ?_, ?_⟩
        · rw [h2, hpos, ← hk]
          omega
        · rw [h3, hap, count_star]
          omega
      have hm := hmods m List.mem_cons_self
      rw [reswitch, At.fetch h]
      dsimp only [Option.bind_eq_bind, Option.bind_some]
      rcases modifier_cases hm with rfl | rfl | ⟨h1, h2, h3, h4⟩ | rfl | rfl | rfl | rfl
      · rw [if_pos rfl]
        exact hone _ rfl rfl
      · rw [if_neg (by decide), if_pos rfl]
        exact hone _ rfl rfl
      · -- the digits behind the first one
        obtain ⟨ds, mods', hsplit, hds, hstop⟩ := split_digits mods
        rw [hsplit] at hrest hnext hn hlen hk
        rw [List.length_append] at hn hlen hk
        rw [List.append_assoc] at hnext
        have hcount : ds.count (ascii '*') = 0 := by
          refine List.count_eq_zero.2 fun hmem => ?_
          have hstar := hds _ hmem
          unfold IsDigit at hstar
          exact absurd hstar (by decide)
        -- what is behind them ends the width
        obtain ⟨c', rest', heq, hc'⟩ : ∃ c' rest', mods' ++ c :: rest = c' :: rest' ∧ ¬ IsDigit c' := by
          cases mods' with
          | nil => exact ⟨c, rest, rfl, fun h5 => hc (modifier_of_digit h5)⟩
          | cons d mods' => exact ⟨d, _, rfl, hstop d mods' rfl⟩
        have hskip := At.skip ds hnext
        rw [heq] at hnext
        rw [if_neg h1, if_neg h2, if_pos ⟨h3, h4⟩, digits_spec hnext hds hc' (by omega)]
        dsimp only [Option.bind_some]
        obtain ⟨e₁, he₁⟩ : ∃ e₁, e₁ = Esc.processPrecision
            ⟨e.padc, e.width, ds.foldl width10 (width10 0 m), e.altflag, e.pos + 1 + ds.length, e.ap⟩ := ⟨_, rfl⟩
        have hpos : e₁.pos = e.pos + 1 + ds.length := by rw [he₁, Esc.processPrecision_pos]
        have hap : e₁.ap = e.ap := by rw [he₁, Esc.processPrecision_ap]
        obtain ⟨e', h5, h6, h7⟩ := ih mods'.length (by omega) (n := n) (e := e₁)
          (fun x hx => hrest x (List.mem_append_right _ hx)) (by rw [hpos]; exact hskip) (by omega) (by omega) rfl
        rw [← he₁]
        refine ⟨e', h5, by rw [h6, hpos]; omega, ?_⟩
        have hm' : m ≠ ascii '*' := by
          rintro rfl
          exact absurd h3 (by decide)
        rw [h7, hap, count_star, hsplit, List.count_append, hcount, if_neg hm', Nat.zero_add, Nat.add_zero]
      · rw [if_neg (by decide), if_neg (by decide), if_neg (by decide), if_pos rfl]
        exact hone _ (Esc.processPrecision_pos _) (Esc.processPrecision_ap _)
      · rw [if_neg (by decide), if_neg (by decide), if_neg (by decide), if_neg (by decide), if_pos rfl]
        split
        · exact hone _ rfl rfl
        · exact hone _ rfl rfl
      · rw [if_neg (by decide), if_neg (by decide), if_neg (by decide), if_neg (by decide), if_neg (by decide), if_pos rfl]
        exact hone _ rfl rfl
      · rw [if_neg (by decide), if_neg (by decide), if_neg (by decide), if_neg (by decide), if_neg (by decide),
          if_neg (by decide), if_pos rfl]
        exact hone _ rfl rfl

/-! ## Going back -/

/-- From behind the modifiers, the way back ends behind the `%`. -/
theorem back_spec (hmods : ∀ c ∈ mods, c ≠ ascii '%') (h : At fmt pos (ascii '%' :: (mods ++ rest))) :
    back fmt (pos + 1 + mods.length) = some (pos + 1) := by
  induction mods using List.reverseRecOn generalizing rest with
  | nil =>
    rw [List.length_nil, Nat.add_zero, back, At.fetch h]
    dsimp only [Option.bind_eq_bind, Option.bind_some]
    rw [if_pos rfl]
  | append_singleton mods m ih =>
    rw [List.append_assoc] at h
    have hm : m ≠ ascii '%' := hmods m (List.mem_append_right _ List.mem_cons_self)
    rw [List.length_append, List.length_singleton, ← add_assoc, back, At.fetch (At.skip mods (At.next h))]
    dsimp only [Option.bind_eq_bind, Option.bind_some]
    rw [if_neg hm]
    exact ih (fun x hx => hmods x (List.mem_append_left _ hx)) h

/-- **A conversion that is known** goes on behind it. -/
theorem convert_known (fmt : List Byte) (va : VaList) (hc : IsConv c) (e : Esc) : ∃ out, convert fmt va c e = some (out, e.pos, e.ap + taken c) := by
  have hall : c = ascii 'c' ∨ c = ascii 's' ∨ c = ascii 'd' ∨ c = ascii 'u' ∨ c = ascii 'o' ∨ c = ascii 'p' ∨
      c = ascii 'x' ∨ c = ascii '%' := by
    have hcases : ∀ c ∈ text "csduopx%", c = ascii 'c' ∨ c = ascii 's' ∨ c = ascii 'd' ∨ c = ascii 'u' ∨ c = ascii 'o' ∨
        c = ascii 'p' ∨ c = ascii 'x' ∨ c = ascii '%' := by decide
    exact hcases c hc
  rcases hall with rfl | rfl | rfl | rfl | rfl | rfl | rfl | rfl
  · exact ⟨_, rfl⟩
  · exact ⟨_, rfl⟩
  · exact ⟨_, rfl⟩
  · exact ⟨_, rfl⟩
  · exact ⟨_, rfl⟩
  · exact ⟨_, rfl⟩
  · exact ⟨_, rfl⟩
  · exact ⟨_, rfl⟩

/-- **One that is not known** goes back. -/
theorem convert_unknown (hc : ¬ IsConv c) {p : ℕ} (hback : back fmt (e.pos - 1) = some p) :
    convert fmt va c e = some ([(ascii '%').setWidth 32], p, e.ap) := by
  have hne : ∀ d, IsConv d → c ≠ d := by
    rintro d hd rfl
    exact hc hd
  unfold convert
  rw [if_neg (hne _ (by decide)), if_neg (hne _ (by decide)), if_neg (hne _ (by decide)), if_neg (hne _ (by decide)),
    if_neg (hne _ (by decide)), if_neg (hne _ (by decide)), if_neg (hne _ (by decide)), if_neg (hne _ (by decide)), hback]
  rfl

/-! ## The loop -/

/-- The modifiers at the start of a text, and what is behind them, which may be the 0. -/
theorem split_modifiers (l : List Byte) : ∃ mods l', l = mods ++ l' ∧ (∀ c ∈ mods, IsModifier c) ∧
    ∀ c rest, l' ++ [0] = c :: rest → ¬ IsModifier c := by
  induction l with
  | nil =>
    refine ⟨[], [], rfl, nofun, fun c rest h => ?_⟩
    rw [← (List.cons.inj h).1]
    decide
  | cons c l ih =>
    by_cases hc : IsModifier c
    · obtain ⟨mods, l', h1, h2, h3⟩ := ih
      refine ⟨c :: mods, l', by rw [h1, List.cons_append], fun d hd => ?_, h3⟩
      rcases List.mem_cons.1 hd with rfl | hd
      · exact hc
      · exact h2 d hd
    · refine ⟨[], c :: l, rfl, nofun, fun d rest h => ?_⟩
      rw [← (List.cons.inj h).1]
      exact hc

theorem isSome_then {o : Option (List (BitVec 32))} (f : List (BitVec 32) → List (BitVec 32)) :
    (o.bind fun cs => some (f cs)).isSome ↔ o.isSome := by
  cases o with
  | none => rfl
  | some cs => rfl

section Escape

variable (h : At fmt pos (ascii '%' :: (mods ++ c :: rest))) (hmods : ∀ c ∈ mods, IsModifier c) (hc : ¬ IsModifier c)

include h hmods hc

/-- An escape sequence, up to its conversion. -/
theorem loop_percent (err : BitVec 32 → Option (List (BitVec 32))) (va : VaList) (n ap : ℕ) : ∃ e : Esc, e.pos = pos + 1 + mods.length + 1 ∧ e.ap = ap + mods.count (ascii '*') ∧
    loop err fmt va (n + 1) pos ap =
      if c = ascii 'e' then (err (va.int e.ap)).bind fun out =>
        (loop err fmt va n e.pos (e.ap + 1)).bind fun cs => some (out ++ cs)
      else (convert fmt va c e).bind fun r => (loop err fmt va n r.2.1 r.2.2).bind fun cs => some (r.1 ++ cs) := by
  have hlen : mods.length ≤ fmt.length := by
    have h1 := congrArg List.length h
    simp only [List.length_drop, List.length_append, List.length_cons, List.length_nil] at h1
    omega
  obtain ⟨e, h1, h2, h3⟩ := reswitch_spec va (n := fmt.length + 2) (e := ⟨ascii ' ', -1, -1, false, pos + 1, ap⟩)
    hmods hc (At.next h) (by omega) hlen
  refine ⟨e, h2, h3, ?_⟩
  rw [loop, At.fetch h]
  dsimp only [Option.bind_eq_bind, Option.bind_some]
  rw [if_neg (not_not.2 rfl), h1]
  rfl

theorem loop_error (hce : c = ascii 'e') : (loop err fmt va (n + 1) pos ap).isSome ↔
    (err (va.int (ap + mods.count (ascii '*')))).isSome ∧
      (loop err fmt va n (pos + 1 + mods.length + 1) (ap + mods.count (ascii '*') + 1)).isSome := by
  obtain ⟨e, h1, h2, h3⟩ := loop_percent h hmods hc err va n ap
  rw [h3, if_pos hce, h1, h2]
  cases err (va.int (ap + mods.count (ascii '*'))) with
  | none => exact iff_of_false Bool.false_ne_true fun h4 => Bool.false_ne_true h4.1
  | some out =>
    rw [Option.bind_some, isSome_then]
    exact (and_iff_right rfl).symm

theorem loop_known (hconv : IsConv c) : (loop err fmt va (n + 1) pos ap).isSome ↔
    (loop err fmt va n (pos + 1 + mods.length + 1) (ap + mods.count (ascii '*') + taken c)).isSome := by
  obtain ⟨e, h1, h2, h3⟩ := loop_percent h hmods hc err va n ap
  have hce : c ≠ ascii 'e' := by
    rintro rfl
    exact absurd hconv (by decide)
  obtain ⟨out, hout⟩ := convert_known fmt va hconv e
  rw [h3, if_neg hce, hout, Option.bind_some, isSome_then, h1, h2]

/-- What is printed as it is, is read again behind its `%`. -/
theorem loop_unknown (hce : c ≠ ascii 'e') (hconv : ¬ IsConv c) : (loop err fmt va (n + 1) pos ap).isSome ↔
    (loop err fmt va n (pos + 1) (ap + mods.count (ascii '*'))).isSome := by
  obtain ⟨e, h1, h2, h3⟩ := loop_percent h hmods hc err va n ap
  have hback : back fmt (e.pos - 1) = some (pos + 1) := by
    rw [h1, Nat.add_sub_cancel]
    exact back_spec (fun x hx => modifier_ne (hmods x hx)) h
  rw [h3, if_neg hce, convert_unknown hconv hback, Option.bind_some, isSome_then, h2]

end Escape

/-- **The loop** comes to the end of the format, if each `%e` returns. -/
theorem loop_isSome {l : List Byte} (hz : ∀ c ∈ l, c ≠ 0) (h : At fmt pos (l ++ [0])) (hn : l.length < n) :
    (loop err fmt va n pos ap).isSome ↔ ∀ x ∈ errArgs va l false ap, (err x).isSome := by
  induction n generalizing l pos ap with
  | zero => exact absurd hn (Nat.not_lt_zero _)
  | succ n ih =>
    cases l with
    | nil =>
      rw [loop, At.fetch h]
      exact iff_of_true rfl fun x hx => absurd hx List.not_mem_nil
    | cons ch l =>
      rw [List.length_cons] at hn
      have hzero : ∀ c ∈ l, c ≠ 0 := fun c hc => hz c (List.mem_cons_of_mem _ hc)
      have hnext : At fmt (pos + 1) (l ++ [0]) := At.next h
      -- a plain character consumes no argument
      by_cases hch : ch = ascii '%'
      · obtain ⟨mods, l', rfl, hmods, hstop⟩ := split_modifiers l
        rw [hch, List.cons_append, List.append_assoc] at h
        rw [errArgs, decide_eq_true hch, errArgs_modifiers hmods]
        have hplain : ∀ c ∈ mods, c ≠ ascii '%' := fun x hx => modifier_ne (hmods x hx)
        cases l' with
        | nil =>
          -- the format ends in the sequence: the 0 is a conversion that is not known
          rw [loop_unknown h hmods (hstop 0 [] rfl) (by decide) (by decide), ih hzero hnext (by omega),
            errArgs_plain hplain]
          rfl
        | cons c l' =>
          have hc : ¬ IsModifier c := hstop c _ rfl
          have hzero' : ∀ c ∈ l', c ≠ 0 := fun x hx => hzero x (List.mem_append_right _ (List.mem_cons_of_mem _ hx))
          have hbehind : At fmt (pos + 1 + mods.length + 1) (l' ++ [0]) := At.next (At.skip mods (At.next h))
          rw [List.length_append, List.length_cons] at hn
          rw [errArgs, if_neg hc]
          -- only `%e` looks an error up
          by_cases hce : c = ascii 'e'
          · rw [if_pos hce, loop_error h hmods hc hce, ih hzero' hbehind (by omega), List.forall_mem_cons]
          · rw [if_neg hce]
            by_cases hconv : IsConv c
            · rw [loop_known h hmods hc hconv, ih hzero' hbehind (by omega)]
            · have htaken : taken c = 0 := by
                have hall : ∀ d ∈ text "csdupx", IsConv d := by decide
                exact if_neg fun h1 => hconv (hall c h1)
              have hpercent : c ≠ ascii '%' := by
                rintro rfl
                exact hconv (by decide)
              rw [loop_unknown h hmods hc hce hconv, ih hzero hnext (by rw [List.length_append, List.length_cons]; omega),
                errArgs_plain hplain, errArgs, decide_eq_false hpercent, htaken, Nat.add_zero]
      · rw [loop, At.fetch h]
        dsimp only [Option.bind_eq_bind, Option.bind_some]
        rw [if_pos hch, if_neg (hz ch List.mem_cons_self), errArgs, decide_eq_false hch, isSome_then]
        exact ih hzero hnext (by omega)

/-! ## `vprintfmt` -/

/-- The least number is its own negative. -/
theorem neg_slt_zero (x : BitVec 32) : (if x.slt 0 then -x else x).slt 0 ↔ x = BitVec.intMin 32 := by
  have h1 := BitVec.toInt_eq_toNat_cond x
  have h2 := BitVec.toInt_eq_toNat_cond (-x)
  have h3 : (BitVec.intMin 32).toNat = 2 ^ 31 := rfl
  have h4 := x.isLt
  have h5 : (0 : BitVec 32).toInt = 0 := rfl
  rw [BitVec.toNat_neg] at h2
  rw [← BitVec.toNat_inj, h3]
  simp only [BitVec.slt_eq_decide, decide_eq_true_eq, h5]
  split at h1
  · rw [if_neg (by omega)]
    omega
  · rw [if_pos (by omega)]
    split at h2
    · omega
    · omega

/-- **`%e`** returns, but for one number. -/
theorem error_isSome (x : BitVec 32) : (error x).isSome ↔ x ≠ BitVec.intMin 32 := by
  have hprint : ∀ (s : String) (va : VaList), (∀ c ∈ text s, c ≠ 0) → errArgs va (text s) false 0 = [] →
      (loop (fun _ => none) (text s) va ((text s).length + 2) 0 0).isSome := by
    intro s va hz hargs
    rw [loop_isSome hz List.drop_zero (by omega), hargs]
    exact nofun
  unfold error
  dsimp only
  by_cases hx : x = BitVec.intMin 32
  · rw [if_pos ((neg_slt_zero x).2 hx)]
    exact iff_of_false Bool.false_ne_true (not_not.2 hx)
  · rw [if_neg (fun h => hx ((neg_slt_zero x).1 h))]
    refine iff_of_true ?_ hx
    split
    · exact hprint "%s" _ (by decide) rfl
    · exact hprint "error %d" _ (by decide) rfl

/-- **Every format is printed to its end**, if no `%e` has the least number as its argument. What is read for that
outside of `error_string` does not matter for the format. -/
theorem vprintfmt_isSome (fmt : List Byte) (va : VaList) (hz : ∀ c ∈ fmt, c ≠ 0) :
    ((vprintfmt fmt va).isSome ↔ ∀ x ∈ errArgs va fmt false 0, x ≠ BitVec.intMin 32) ∧
      ∀ printed : BitVec 32 → List (BitVec 32),
        (loop (fun x => some (printed x)) fmt va (fmt.length + 2) 0 0).isSome := by
  have hstart : At fmt 0 (fmt ++ [0]) := List.drop_zero
  constructor
  · unfold vprintfmt
    rw [loop_isSome hz hstart (by omega)]
    simp only [error_isSome]
  · intro printed
    rw [loop_isSome hz hstart (by omega)]
    exact fun x _ => rfl

/-- The format `%e` with the argument 1. -/
theorem vprintfmt_isSome_one : ((vprintfmt [0x25, 0x65] ⟨fun _ => 1, fun _ => []⟩).isSome ↔
    ∀ x ∈ errArgs ⟨fun _ => 1, fun _ => []⟩ [0x25, 0x65] false 0, x ≠ BitVec.intMin 32) ∧
      ∀ printed : BitVec 32 → List (BitVec 32),
        (loop (fun x => some (printed x)) [0x25, 0x65] ⟨fun _ => 1, fun _ => []⟩ 4 0 0).isSome :=
  vprintfmt_isSome [0x25, 0x65] ⟨fun _ => 1, fun _ => []⟩ (by decide)

/-- What is not known is printed as it is, also at the end. -/
example : vprintfmt (text "%-5.q%#*") ⟨fun _ => 1, fun _ => []⟩ = some (wide (text "%-5.q%#*")) := rfl

/-- With the least number, the access is outside of the table. -/
theorem vprintfmt_isSome_counterexample : (∀ c ∈ ([0x25, 0x65] : List Byte), c ≠ 0) ∧
    vprintfmt [0x25, 0x65] ⟨fun _ => 0x80000000, fun _ => []⟩ = none :=
  ⟨by decide, rfl⟩

end Jos.Printf
