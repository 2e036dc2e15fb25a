import Jos.Spec.Shell

/-!
# The lexer of the shell

`tokens` is what the lexer should return. `gettoken` is one token ahead of that (`Ahead`): a word that it
returns is ended by the 0 that the search for the next token puts behind it (`gettoken_spec`).
`gettoken_tokens` is the result for all calls.
-/

namespace Jos.Shell

open Lib

variable {len s x : ℕ} {mem : Bytes} {bs w : List Byte} {b c : Byte} {L : Lexer}

/-! ## The reference lexer -/

inductive Token
  | symbol (c : Byte)
  | word (w : List Byte)
  deriving DecidableEq

/-- A character that ends a word. -/
def IsDelim (b : Byte) : Bool := (whitespace ++ symbols).contains b

/-- **The tokens of a string.** -/
def tokens : List Byte → List Token
  | [] => []
  | b :: bs =>
    if b ∈ whitespace then tokens bs
    else if b ∈ symbols then .symbol b :: tokens bs
    else .word (b :: bs.takeWhile (!IsDelim ·)) :: tokens (bs.dropWhile (!IsDelim ·))
termination_by bs => bs.length
decreasing_by
  · exact Nat.lt_succ_self _
  · exact Nat.lt_succ_self _
  · exact Nat.lt_succ_of_le (List.length_dropWhile_le _ _)

theorem strchr_iff {l : List Byte} : strchr l c = true ↔ c ∈ l := by
  induction l with
  | nil => exact iff_of_false Bool.false_ne_true List.not_mem_nil
  | cons b l ih =>
    unfold strchr
    rw [List.mem_cons]
    split
    · rename_i h
      exact iff_of_true rfl (Or.inl h.symm)
    · rename_i h
      rw [ih]
      exact ⟨Or.inr, fun h1 => h1.resolve_left (Ne.symm h)⟩

theorem isDelim_iff : IsDelim b = true ↔ b ∈ whitespace ∨ b ∈ symbols := by
  unfold IsDelim
  rw [List.contains_iff_mem, List.mem_append]

theorem symbols_ne (h : b ∈ symbols) : b ≠ 0 ∧ b ≠ wordToken ∧ b ∉ whitespace := by
  have hall : ∀ b ∈ symbols, b ≠ 0 ∧ b ≠ wordToken ∧ b ∉ whitespace := by decide
  exact hall b h

/-! ## One token -/

/-- The lexer after the search for a token in `bs`, which was at `s`. -/
inductive Ahead (len : ℕ) : Lexer → List Token → Prop
  | eol {L : Lexer} : L.nc = 0 → L.np2 = none → Ahead len L []
  | symbol {L : Lexer} {j : ℕ} {bs : List Byte} : L.nc ∈ symbols → L.np2 = some j → IsStr L.mem j bs → j + bs.length = len →
      Ahead len L (.symbol L.nc :: tokens bs)
  | word {L : Lexer} {i : ℕ} {w bs : List Byte} : L.nc = wordToken → L.np1 = some i → L.np2 = some (i + w.length) → w ≠ [] →
      IsStr L.mem i (w ++ bs) → i + w.length + bs.length = len → (∀ b ∈ bs.head?, IsDelim b = true) →
      Ahead len L (.word w :: tokens bs)

/-- `x` is behind the place where the next search begins. -/
def Behind (L : Lexer) (x : ℕ) : Prop := ∀ j, L.np2 = some j → x < j

/-- The bytes before `s`, and those from the end of the line on, are kept. -/
def Kept (len s : ℕ) (mem mem' : Bytes) : Prop := ∀ x, x < s ∨ len ≤ x → mem'.byte x = mem.byte x

/-- A string that is used up from its front. -/
theorem isStr_tail (h : IsStr mem s (b :: bs)) : IsStr mem (s + 1) bs := IsStr.rest (s := [b]) h

theorem isStr_literal (hs : ∀ b ∈ bs, b ≠ 0) : IsStr (literal bs) 0 bs where
  byte i hi := by
    unfold literal
    rw [Nat.zero_add]
    exact List.getD_eq_getElem _ _ hi
  term := by
    unfold literal
    rw [Nat.zero_add]
    exact List.getD_eq_default _ _ le_rfl
  nonzero := hs

theorem isStr_head (h : IsStr mem s (b :: bs)) : mem.byte s = b ∧ b ≠ 0 :=
  ⟨h.byte 0 (Nat.succ_pos _), h.nonzero b List.mem_cons_self⟩

/-- White space is cleared. -/
theorem skip_spec (h : IsStr mem s bs) (hl : s + bs.length = len) : ∃ mem' j rest,
    skip len mem s = some (mem', j) ∧ IsStr mem' j rest ∧ j + rest.length = len ∧ s ≤ j ∧ Kept len s mem mem' ∧
      tokens bs = tokens rest ∧ (∀ b ∈ rest.head?, b ∉ whitespace) ∧ (j = s ∧ rest = bs ∨ mem'.byte s = 0 ∧ s < j) := by
  induction bs generalizing mem s with
  | nil =>
    refine ⟨mem, s, [], ?_, h, hl, le_rfl, fun _ _ => rfl, rfl, nofun, Or.inl ⟨rfl, rfl⟩⟩
    have h0 : mem.byte s = 0 := h.term
    rw [skip, if_pos (by simpa using hl.le), h0]
    rfl
  | cons b bs ih =>
    obtain ⟨hb, hb0⟩ := isStr_head h
    rw [List.length_cons] at hl
    rw [skip, if_pos (by omega), hb]
    by_cases hw : b ∈ whitespace
    · have htail : IsStr (mem.write s [0]) (s + 1) bs :=
        (isStr_tail h).congr fun i _ => Bytes.byte_write_off (Or.inr (by rw [List.length_singleton]; omega))
      obtain ⟨mem', j, rest, h1, h2, h3, h4, h5, h6, h7, -⟩ := ih htail (by omega)
      have hclear : mem'.byte s = 0 := by
        rw [h5 s (Or.inl (Nat.lt_succ_self s)), Bytes.byte_write, if_pos ⟨le_rfl, Nat.lt_succ_self _⟩, Nat.sub_self]
        rfl
      refine ⟨mem', j, rest, ?_, h2, h3, by omega, fun x hx => ?_, ?_, h7, Or.inr ⟨hclear, by omega⟩⟩
      · rw [if_pos (strchr_iff.2 hw), h1]
      · rw [h5 x (by omega), Bytes.byte_write_off (by rw [List.length_singleton]; omega)]
      · rw [tokens, if_pos hw, h6]
    · refine ⟨mem, s, b :: bs, ?_, h, by rw [List.length_cons]; omega, le_rfl, fun _ _ => rfl, rfl, ?_, Or.inl ⟨rfl, rfl⟩⟩
      · rw [if_neg (fun h1 => hw (strchr_iff.1 h1))]
      · intro c hc
        rw [← Option.some.inj hc]
        exact hw

/-- The end of a word. -/
theorem wordEnd_spec (h : IsStr mem s bs) (hl : s + bs.length = len) :
    wordEnd len mem s = some (s + (bs.takeWhile (!IsDelim ·)).length) := by
  induction bs generalizing s with
  | nil =>
    have h0 : mem.byte s = 0 := h.term
    rw [wordEnd, if_pos (by simpa using hl.le), h0, if_neg (fun h1 => h1.1 rfl)]
    rfl
  | cons b bs ih =>
    obtain ⟨hb, hb0⟩ := isStr_head h
    rw [List.length_cons] at hl
    rw [wordEnd, if_pos (by omega), hb]
    by_cases hd : IsDelim b = true
    · have hs : strchr (whitespace ++ symbols) b = true := strchr_iff.2 (List.mem_append.2 (isDelim_iff.1 hd))
      rw [if_neg (by rw [hs]; exact fun h1 => absurd h1.2 (by decide)), List.takeWhile_cons, hd]
      rfl
    · have hs : strchr (whitespace ++ symbols) b = false := by
        rw [← Bool.not_eq_true, strchr_iff, List.mem_append, ← isDelim_iff]
        exact hd
      rw [if_pos ⟨hb0, by rw [hs]; rfl⟩, ih (isStr_tail h) (by omega), List.takeWhile_cons]
      rw [Bool.not_eq_true] at hd
      rw [hd]
      simp only [Bool.not_false, if_true, List.length_cons]
      congr 1
      omega

/-- **`_gettoken`** at `s`, where the string `bs` is left. If that begins with a delimiter, this is cleared. -/
theorem _gettoken_spec (h : IsStr L.mem s bs) (hl : s + bs.length = len) : ∃ L', _gettoken len L (some s) = some L' ∧
    Ahead len L' (tokens bs) ∧ Kept len s L.mem L'.mem ∧ Behind L' s ∧
      ((∀ b ∈ bs.head?, IsDelim b = true) → L'.mem.byte s = 0) := by
  obtain ⟨mem, j, rest, h1, h2, h3, h4, h5, h6, h7, h8⟩ := skip_spec h hl
  rw [_gettoken, h1, h6]
  dsimp only [Option.bind_eq_bind, Option.bind_some]
  cases rest with
  | nil =>
    have h0 : mem.byte j = 0 := h2.term
    rw [if_pos h0]
    refine ⟨_, rfl, ?_, h5, nofun, fun _ => ?_⟩
    · rw [tokens]
      exact Ahead.eol rfl rfl
    · rcases h8 with ⟨rfl, -⟩ | ⟨h9, -⟩
      · exact h0
      · exact h9
  | cons b rest =>
    obtain ⟨hb, hb0⟩ := isStr_head h2
    have hws : b ∉ whitespace := h7 b rfl
    rw [List.length_cons] at h3
    rw [hb, if_neg hb0, tokens, if_neg hws]
    by_cases hsym : b ∈ symbols
    · rw [if_pos (strchr_iff.2 hsym), if_pos hsym]
      have hoff : ∀ x, x ≠ j → (mem.write j [0]).byte x = mem.byte x := fun x hx =>
        Bytes.byte_write_off (by rw [List.length_singleton]; omega)
      refine ⟨_, rfl, ?_, fun x hx => ?_, fun k hk => ?_, fun _ => ?_⟩
      · exact Ahead.symbol hsym rfl ((isStr_tail h2).congr fun i _ => hoff _ (by omega)) (by omega)
      · dsimp only
        rw [hoff x (by omega), h5 x hx]
      · cases hk
        omega
      · dsimp only
        by_cases hj : s = j
        · rw [hj, Bytes.byte_write, if_pos ⟨le_rfl, Nat.lt_succ_self _⟩, Nat.sub_self]
          rfl
        · rw [hoff s hj]
          exact (h8.resolve_left fun h9 => hj h9.1.symm).1
    · -- a word, up to the next delimiter
      have hd : IsDelim b = false := by
        rw [← Bool.not_eq_true, isDelim_iff]
        exact fun h9 => h9.elim hws hsym
      have htake : (b :: rest).takeWhile (!IsDelim ·) = b :: rest.takeWhile (!IsDelim ·) := by
        rw [List.takeWhile_cons, hd]
        rfl
      rw [if_neg (fun h9 => hsym (strchr_iff.1 h9)), if_neg hsym,
        wordEnd_spec h2 (by rw [List.length_cons]; omega), htake]
      refine ⟨_, rfl, ?_, h5, fun k hk => ?_, fun h9 => ?_⟩
      · refine Ahead.word rfl rfl rfl (List.cons_ne_nil _ _) ?_ ?_ ?_
        · rw [List.cons_append, List.takeWhile_append_dropWhile]
          exact h2
        · have h10 := congrArg List.length (List.takeWhile_append_dropWhile (p := (!IsDelim ·)) (l := rest))
          rw [List.length_append] at h10
          rw [List.length_cons]
          omega
        · intro c hc
          have h10 := List.head?_dropWhile_not (!IsDelim ·) rest
          rw [Option.mem_def.1 hc] at h10
          simpa using h10
      · cases hk
        rw [List.length_cons]
        omega
      · dsimp only
        rcases h8 with ⟨-, rfl⟩ | ⟨h10, -⟩
        · have h11 := h9 b rfl
          rw [hd] at h11
          cases h11
        · exact h10

/-- What a call of `gettoken` should return for a token: its code, and for a word the word. -/
def Returns (r : Byte) (t : Option ℕ) (mem : Bytes) : Option Token → Prop
  | none => r = 0
  | some (.symbol c) => r = c
  | some (.word w) => r = wordToken ∧ ∃ i, t = some i ∧ IsStr mem i w

/-- What a call leaves of the line. -/
structure Frame (len : ℕ) (L L' : Lexer) : Prop where
  byte : ∀ x, Behind L x ∨ len ≤ x → L'.mem.byte x = L.mem.byte x
  behind : ∀ x, Behind L x → Behind L' x

theorem frame_of_kept {L' : Lexer} (hs : L.np2 = some s) (hk : Kept len s L.mem L'.mem) (hb : Behind L' s) :
    Frame len L L' where
  byte x hx := hk x (hx.imp (fun h => h s hs) id)
  behind _ hx j hj := (hx s hs).trans (hb j hj)

/-- **`gettoken`** returns the next token. A word is then ended by a 0, and later searches begin behind it. -/
theorem gettoken_spec {toks : List Token} (h : Ahead len L toks) : ∃ r t L', gettoken len L = some (r, t, L') ∧
    Ahead len L' toks.tail ∧ Frame len L L' ∧ Returns r t L'.mem toks.head? ∧
      ∀ w, toks.head? = some (.word w) →
        ∃ i, t = some i ∧ IsStr L'.mem i w ∧ i + w.length ≤ len ∧ Behind L' (i + w.length) := by
  unfold gettoken
  cases h with
  | eol hc hp =>
    rw [hp]
    refine ⟨L.nc, L.np1, { L with nc := 0 }, rfl, Ahead.eol rfl hp, ⟨fun _ _ => rfl, fun _ hx => hx⟩, hc, nofun⟩
  | symbol hc hp hstr hlen =>
    obtain ⟨L', h1, h2, h3, h4, -⟩ := _gettoken_spec hstr hlen
    rw [hp, h1]
    exact ⟨L.nc, L.np1, L', rfl, h2, frame_of_kept hp h3 h4, rfl, nofun⟩
  | @word i w bs hc hp1 hp hne hstr hlen hdelim =>
    obtain ⟨L', h1, h2, h3, h4, h5⟩ := _gettoken_spec hstr.rest hlen
    rw [hp, h1]
    have hw : IsStr L'.mem i w := {
      byte := fun k hk => by
        have hlt : k < (w ++ bs).length := by
          rw [List.length_append]
          omega
        rw [h3 _ (Or.inl (by omega)), hstr.byte k hlt, List.getElem_append_left hk]
      term := h5 hdelim
      nonzero := fun b hb => hstr.nonzero b (List.mem_append_left _ hb) }
    refine ⟨L.nc, L.np1, L', rfl, h2, frame_of_kept hp h3 h4, ⟨hc, i, hp1, hw⟩, fun w' hw' => ?_⟩
    obtain rfl := Token.word.inj (Option.some.inj hw')
    exact ⟨i, hp1, hw, by omega, h4⟩

/-! ## All calls -/

/-- The result of call number `k` after `gettoken(s, 0)`, and the lexer after it. -/
def call (len : ℕ) : ℕ → Lexer → Option (Byte × Option ℕ × Lexer)
  | 0, L => gettoken len L
  | k + 1, L => (gettoken len L).bind fun r => call len k r.2.2

theorem call_spec {toks : List Token} (h : Ahead len L toks) (k : ℕ) : ∃ r t L', call len k L = some (r, t, L') ∧
    Returns r t L'.mem toks[k]? ∧ ∀ x, len ≤ x → L'.mem.byte x = L.mem.byte x := by
  induction k generalizing L toks with
  | zero =>
    obtain ⟨r, t, L', h1, -, h2, h3, -⟩ := gettoken_spec h
    rw [← List.head?_eq_getElem?]
    exact ⟨r, t, L', h1, h3, fun x hx => h2.byte x (Or.inr hx)⟩
  | succ k ih =>
    obtain ⟨r, t, L', h1, h2, h3, -, -⟩ := gettoken_spec h
    obtain ⟨r', t', L'', h4, h5, h6⟩ := ih h2
    refine ⟨r', t', L'', ?_, ?_, fun x hx => ?_⟩
    · rw [call, h1]
      exact h4
    · rw [List.getElem?_tail] at h5
      exact h5
    · rw [h6 x hx, h3.byte x (Or.inr hx)]

/-- **The lexer is exact**: after `gettoken(s, 0)`, the calls of `gettoken(0, &t)` return the tokens of the
string, and 0 from then on. None accesses a byte outside of the string, or changes one behind it. -/
theorem gettoken_tokens {S : List Byte} (h : IsStr L.mem 0 S) : ∃ L₀, gettokenStart S.length L = some L₀ ∧
    ∀ k, ∃ r t L', call S.length k L₀ = some (r, t, L') ∧ Returns r t L'.mem (tokens S)[k]? ∧
      ∀ x, S.length ≤ x → L'.mem.byte x = L.mem.byte x := by
  obtain ⟨L₀, h1, h2, h3, -, -⟩ := _gettoken_spec h (Nat.zero_add _)
  refine ⟨L₀, h1, fun k => ?_⟩
  obtain ⟨r, t, L', h4, h5, h6⟩ := call_spec h2 k
  exact ⟨r, t, L', h4, h5, fun x hx => (h6 x hx).trans (h3 x (Or.inr hx))⟩

/-- The line `ls>x`. -/
def lsLine : List Byte := [0x6c, 0x73, 0x3e, 0x78]

theorem gettoken_tokens_ls : ∃ L₀, gettokenStart 4 ⟨literal lsLine, 0, none, none⟩ = some L₀ ∧
    ∀ k, ∃ r t L', call 4 k L₀ = some (r, t, L') ∧ Returns r t L'.mem (tokens lsLine)[k]? ∧
      ∀ x, 4 ≤ x → L'.mem.byte x = (literal lsLine).byte x :=
  gettoken_tokens (L := ⟨literal lsLine, 0, none, none⟩) (isStr_literal (by decide))

end Jos.Shell
