import Jos.Spec.Readline

/-!
# Line editing

`readline` keeps the line that `put` describes (`readline_put`), in its buffer. That is the line of the
editing rule `edit`, except that a DEL on an empty line is kept like a letter: from there on the line begins
with a DEL, until so much is erased that it is empty again (`put_cases`). `readline_edits` says when the
result is right.
-/

namespace Jos.Readline

open Lib

variable {echoing : Bool} {s : State} {l bs : List Byte} {c e : Byte}

/-! ## The rule -/

def backspace : Byte := 8

def del : Byte := 0x7f

/-- **The editing rule.** -/
def edit (l : List Byte) (c : Byte) : List Byte :=
  if c = backspace ∨ c = del then l.dropLast
  else if c < 32 then l
  else if l.length < 1023 then l ++ [c]
  else l

/-- The line of `readline` after one more byte. -/
def put (l : List Byte) (c : Byte) : List Byte :=
  if (c = backspace ∨ c = del) ∧ l ≠ [] then l.dropLast
  else if ¬ c < 32 ∧ l.length < 1023 then l ++ [c]
  else l

/-- How many characters there are after one more byte, if a DEL that has nothing to erase counts as one. -/
def count (n : ℕ) (c : Byte) : ℕ :=
  if (c = backspace ∨ c = del) ∧ 0 < n then n - 1
  else if ¬ c < 32 ∧ n < 1023 then n + 1
  else n

def kept (bs : List Byte) : ℕ := bs.foldl count 0

/-- Each DEL that had nothing to erase was erased itself later on. -/
def NoStray (bs : List Byte) : Prop :=
  ∀ pre post, bs = pre ++ del :: post → kept pre = 0 → ∃ p t, post = p ++ t ∧ kept (pre ++ del :: p) = 0

/-! ## The line of `readline` -/

/-- The line `l` is in the buffer. -/
structure Holds (s : State) (l : List Byte) : Prop where
  i : s.i = l.length
  le : l.length ≤ 1023
  byte : ∀ k (h : k < l.length), s.buf.byte k = l[k]
  nonzero : ∀ b ∈ l, b ≠ 0
  stores : ∀ x ∈ s.stores, x < buflen

theorem State.putc_buf (s : State) (echoing : Bool) (c : ℤ) : (s.putc echoing c).buf = s.buf := by
  unfold State.putc
  split
  · rfl
  · rfl

theorem State.putc_i (s : State) (echoing : Bool) (c : ℤ) : (s.putc echoing c).i = s.i := by
  unfold State.putc
  split
  · rfl
  · rfl

theorem State.putc_stores (s : State) (echoing : Bool) (c : ℤ) : (s.putc echoing c).stores = s.stores := by
  unfold State.putc
  split
  · rfl
  · rfl

/-- What is sent to the console does not matter. -/
theorem Holds.putc (h : Holds s l) (echoing : Bool) (c : ℤ) : Holds (s.putc echoing c) l where
  i := by rw [State.putc_i, h.i]
  le := h.le
  byte := by
    rw [State.putc_buf]
    exact h.byte
  nonzero := h.nonzero
  stores := by
    rw [State.putc_stores]
    exact h.stores

/-- The last character is erased. -/
theorem Holds.erase (h : Holds s l) : Holds { s with i := s.i - 1 } l.dropLast where
  i := by
    rw [List.length_dropLast, ← h.i]
  le := by
    have h1 := h.le
    rw [List.length_dropLast]
    omega
  byte k hk := by
    rw [List.length_dropLast] at hk
    rw [List.getElem_dropLast]
    exact h.byte k (by omega)
  nonzero b hb := h.nonzero b (List.mem_of_mem_dropLast hb)
  stores := h.stores

theorem ofInt_toNat (c : Byte) : BitVec.ofInt 8 (c.toNat : ℤ) = c := by
  rw [BitVec.ofInt_natCast, BitVec.ofNat_toNat, BitVec.setWidth_eq]

/-- The line after a store at its end. -/
theorem Holds.byte_store (h : Holds s l) (c : Byte) {k : ℕ} (hk : k < l.length) :
    (s.store (c.toNat : ℤ)).buf.byte k = l[k] := by
  unfold State.store
  dsimp only
  rw [Bytes.byte_write_off (by rw [h.i]; omega)]
  exact h.byte k hk

/-- One more character. -/
theorem Holds.append (h : Holds s l) (hlt : l.length < 1023) (hc : c ≠ 0) :
    Holds { s.store (c.toNat : ℤ) with i := s.i + 1 } (l ++ [c]) where
  i := by
    rw [List.length_append, List.length_singleton, h.i]
  le := by
    rw [List.length_append, List.length_singleton]
    omega
  byte k hk := by
    rw [List.length_append, List.length_singleton] at hk
    by_cases hlast : k < l.length
    · rw [List.getElem_append_left hlast]
      exact h.byte_store c hlast
    · obtain rfl : k = l.length := by omega
      rw [List.getElem_append_right le_rfl]
      unfold State.store
      dsimp only
      rw [h.i, ofInt_toNat, Bytes.byte_write, if_pos ⟨le_rfl, Nat.lt_succ_self _⟩]
      simp only [Nat.sub_self, List.getD_cons_zero, List.getElem_singleton]
  nonzero b hb := by
    rcases List.mem_append.1 hb with hb | hb
    · exact h.nonzero b hb
    · rw [List.mem_singleton.1 hb]
      exact hc
  stores x hx := by
    rcases List.mem_append.1 hx with hx | hx
    · exact h.stores x hx
    · rw [List.mem_singleton.1 hx, h.i]
      unfold buflen
      omega

/-- The end of the line. -/
theorem Holds.finish (h : Holds s l) : IsStr (s.store 0).buf 0 l ∧ ∀ x ∈ (s.store 0).stores, x < buflen := by
  refine ⟨⟨fun k hk => ?_, ?_, h.nonzero⟩, fun x hx => ?_⟩
  · rw [Nat.zero_add]
    exact h.byte_store 0 hk
  · rw [Nat.zero_add, ← h.i]
    unfold State.store
    dsimp only
    rw [Bytes.byte_write, if_pos ⟨le_rfl, Nat.lt_succ_self _⟩, Nat.sub_self]
    rfl
  · rcases List.mem_append.1 hx with hx | hx
    · exact h.stores x hx
    · have h1 := h.le
      rw [List.mem_singleton.1 hx, h.i]
      unfold buflen
      omega

/-- **One byte.** -/
theorem readline_byte (h : Holds s l) (h10 : c ≠ 10) (h13 : c ≠ 13) (cs : List ℤ) :
    ∃ s', readline echoing s ((c.toNat : ℤ) :: cs) = readline echoing s' cs ∧ Holds s' (put l c) := by
  have hneg : ¬ (c.toNat : ℤ) < 0 := by omega
  have hbs : ((c.toNat : ℤ) = 8 ∨ (c.toNat : ℤ) = 0x7f) ↔ (c = backspace ∨ c = del) := by
    unfold backspace del
    rw [← BitVec.toNat_inj, ← BitVec.toNat_inj]
    norm_cast
  have hctl : (c.toNat : ℤ) ≥ 32 ↔ ¬ c < 32 := by
    rw [BitVec.not_lt, BitVec.le_def]
    norm_cast
  have hend : ¬ ((c.toNat : ℤ) = 10 ∨ (c.toNat : ℤ) = 13) := by
    rintro (h1 | h1)
    · exact h10 (BitVec.eq_of_toNat_eq (by exact_mod_cast h1))
    · exact h13 (BitVec.eq_of_toNat_eq (by exact_mod_cast h1))
  have hpos : s.i > 0 ↔ l ≠ [] := by
    rw [h.i]
    exact List.length_pos_iff
  have hlt : s.i < buflen - 1 ↔ l.length < 1023 := by
    rw [h.i]
    exact Iff.rfl
  unfold put
  by_cases h1 : (c = backspace ∨ c = del) ∧ l ≠ []
  · rw [if_pos h1]
    refine ⟨_, ?_, (h.putc echoing 8).erase⟩
    rw [readline, if_neg hneg, if_pos (by rwa [hbs, hpos])]
  · rw [if_neg h1]
    by_cases h2 : ¬ c < 32 ∧ l.length < 1023
    · have hc : c ≠ 0 := by
        rintro rfl
        exact h2.1 (by decide)
      rw [if_pos h2]
      refine ⟨_, ?_, (h.putc echoing c.toNat).append h2.2 hc⟩
      rw [readline, if_neg hneg, if_neg (by rwa [hbs, hpos]), if_pos (by rwa [hctl, hlt])]
      rfl
    · rw [if_neg h2]
      refine ⟨s, ?_, h⟩
      rw [readline, if_neg hneg, if_neg (by rwa [hbs, hpos]), if_neg (by rwa [hctl, hlt]), if_neg hend]

/-- **A line.** -/
theorem readline_put (h : Holds s l) (hbs : ∀ b ∈ bs, b ≠ 10 ∧ b ≠ 13) (he : e = 10 ∨ e = 13) :
    ∃ s', readline echoing s ((bs ++ [e]).map fun b => (b.toNat : ℤ)) = .line s' ∧ IsStr s'.buf 0 (bs.foldl put l) ∧
      ∀ x ∈ s'.stores, x < buflen := by
  induction bs generalizing s l with
  | nil =>
    refine ⟨(s.putc echoing 10).store 0, ?_, (h.putc echoing 10).finish⟩
    rcases he with rfl | rfl
    · rfl
    · rfl
  | cons b bs ih =>
    obtain ⟨h1, h2⟩ := hbs b List.mem_cons_self
    obtain ⟨s₁, h3, h4⟩ := readline_byte h h1 h2 ((bs ++ [e]).map fun b => (b.toNat : ℤ))
    obtain ⟨s', h5, h6⟩ := ih h4 fun b hb => hbs b (List.mem_cons_of_mem _ hb)
    rw [List.cons_append, List.map_cons, h3]
    exact ⟨s', h5, h6⟩

/-! ## The line and the rule -/

theorem put_length (l : List Byte) (c : Byte) : (put l c).length = count l.length c := by
  have hpos : l ≠ [] ↔ 0 < l.length := List.length_pos_iff.symm
  unfold put count
  simp only [hpos]
  split
  · exact List.length_dropLast
  · split
    · rw [List.length_append, List.length_singleton]
    · rfl

/-- They differ for a DEL on an empty line only. -/
theorem put_eq_edit (h : ¬ (l = [] ∧ c = del)) : put l c = edit l c := by
  unfold put edit
  by_cases hc : c = backspace ∨ c = del
  · rw [if_pos hc]
    by_cases hl : l = []
    · obtain rfl : c = backspace := hc.resolve_right fun h1 => h ⟨hl, h1⟩
      rw [hl, if_neg (fun h1 => h1.2 rfl), if_neg (fun h1 => h1.1 (by decide))]
      rfl
    · rw [if_pos ⟨hc, hl⟩]
  · rw [if_neg hc, if_neg (fun h1 => hc h1.1)]
    by_cases h32 : c < 32
    · rw [if_pos h32, if_neg (fun h1 => h1.1 h32)]
    · rw [if_neg h32]
      by_cases hlt : l.length < 1023
      · rw [if_pos hlt, if_pos ⟨h32, hlt⟩]
      · rw [if_neg hlt, if_neg (fun h1 => hlt h1.2)]

theorem kept_append (bs : List Byte) (c : Byte) : kept (bs ++ [c]) = count (kept bs) c := by
  unfold kept
  rw [List.foldl_append]
  rfl

theorem noStray_append :
    NoStray (bs ++ [c]) ↔ ¬ (kept bs = 0 ∧ c = del) ∧ (kept (bs ++ [c]) = 0 ∨ NoStray bs) := by
  constructor
  · intro h
    refine ⟨?_, ?_⟩
    · rintro ⟨h0, rfl⟩
      obtain ⟨p, t, hpt, hk⟩ := h bs [] rfl h0
      obtain ⟨rfl, -⟩ := List.append_eq_nil_iff.1 hpt.symm
      rw [kept_append, h0] at hk
      exact absurd hk (by decide)
    · by_cases hk : kept (bs ++ [c]) = 0
      · exact Or.inl hk
      · refine Or.inr fun pre post heq h0 => ?_
        obtain ⟨p, t, hpt, hk'⟩ := h pre (post ++ [c]) (by rw [heq, List.append_assoc, List.cons_append]) h0
        rcases List.eq_nil_or_concat t with rfl | ⟨t', x, rfl⟩
        · rw [List.append_nil] at hpt
          rw [← hpt, ← List.cons_append, ← List.append_assoc, ← heq] at hk'
          exact absurd hk' hk
        · rw [List.concat_eq_append, ← List.append_assoc] at hpt
          exact ⟨p, t', (List.append_inj' hpt rfl).1, hk'⟩
  · rintro ⟨hne, h⟩ pre post heq h0
    rcases List.eq_nil_or_concat post with rfl | ⟨q, x, rfl⟩
    · obtain ⟨rfl, hc⟩ := List.append_inj' heq rfl
      exact absurd ⟨h0, (List.cons.inj hc).1⟩ hne
    · rw [List.concat_eq_append] at heq ⊢
      rcases h with hk | h
      · refine ⟨q ++ [x], [], (List.append_nil _).symm, ?_⟩
        rw [← heq]
        exact hk
      · rw [← List.cons_append, ← List.append_assoc] at heq
        obtain ⟨h1, -⟩ := List.append_inj' heq rfl
        obtain ⟨p, t, rfl, hk⟩ := h pre q h1 h0
        exact ⟨p, t ++ [x], List.append_assoc _ _ _, hk⟩

/-- A line with a stray DEL at its front, beside that of the rule. -/
structure Stray (l r : List Byte) : Prop where
  front : l.head? = some del
  le : r.length ≤ l.length
  lt : l.length ≤ r.length + 1

/-- A stray DEL stays until the line is empty. -/
theorem Stray.put {r : List Byte} (h : Stray l r) (hle : l.length ≤ 1023) :
    put l c = [] ∧ edit r c = [] ∨ put l c ≠ [] ∧ Stray (put l c) (edit r c) := by
  obtain ⟨h1, h2, h3⟩ := h
  obtain ⟨t, rfl⟩ : ∃ t, l = del :: t := by
    cases l with
    | nil => cases h1
    | cons b t => exact ⟨t, by rw [Option.some.inj h1]⟩
  rw [List.length_cons] at h2 h3 hle
  unfold Readline.put edit
  by_cases hc : c = backspace ∨ c = del
  · rw [if_pos ⟨hc, List.cons_ne_nil _ _⟩, if_pos hc]
    cases t with
    | nil =>
      rw [List.length_nil] at h2
      exact Or.inl ⟨rfl, List.eq_nil_of_length_eq_zero (by rw [List.length_dropLast]; omega)⟩
    | cons b t =>
      rw [List.length_cons] at h2 h3
      refine Or.inr ⟨List.cons_ne_nil _ _, rfl, ?_, ?_⟩
      · rw [List.length_dropLast, List.length_dropLast, List.length_cons, List.length_cons]
        omega
      · rw [List.length_dropLast, List.length_dropLast, List.length_cons, List.length_cons]
        omega
  · rw [if_neg (fun h1 => hc h1.1), if_neg hc]
    by_cases h32 : c < 32
    · rw [if_neg (fun h1 => h1.1 h32), if_pos h32]
      exact Or.inr ⟨List.cons_ne_nil _ _, rfl, h2, h3⟩
    · rw [if_neg h32]
      by_cases hlt : (del :: t).length < 1023
      · have hlt' : r.length < 1023 := lt_of_le_of_lt h2 hlt
        rw [if_pos ⟨h32, hlt⟩, if_pos hlt']
        refine Or.inr ⟨List.cons_ne_nil _ _, rfl, ?_, ?_⟩
        · rw [List.length_append, List.length_append, List.length_cons]
          exact Nat.add_le_add_right h2 1
        · rw [List.length_append, List.length_append, List.length_cons]
          exact Nat.add_le_add_right h3 1
      · -- the buffer is full, and the screen may still have room
        rw [if_neg (fun h1 => hlt h1.2)]
        rw [List.length_cons] at hlt
        refine Or.inr ⟨List.cons_ne_nil _ _, rfl, ?_, ?_⟩
        · rw [List.length_cons]
          split
          · rw [List.length_append, List.length_singleton]
            omega
          · exact h2
        · rw [List.length_cons]
          split
          · rw [List.length_append, List.length_singleton]
            omega
          · exact h3

/-- **`readline` beside the rule.** -/
theorem put_cases (bs : List Byte) :
    (bs.foldl put []).length = kept bs ∧ kept bs ≤ 1023 ∧
      (NoStray bs ∧ bs.foldl put [] = bs.foldl edit [] ∨ ¬ NoStray bs ∧ Stray (bs.foldl put []) (bs.foldl edit [])) := by
  induction bs using List.reverseRecOn with
  | nil => exact ⟨rfl, Nat.zero_le _, Or.inl ⟨fun pre post heq => absurd heq (by simp), rfl⟩⟩
  | append_singleton bs c ih =>
    obtain ⟨hlen, hle, h⟩ := ih
    have hlen' : (put (bs.foldl put []) c).length = kept (bs ++ [c]) := by rw [put_length, hlen, kept_append]
    have hzero : put (bs.foldl put []) c = [] ↔ kept (bs ++ [c]) = 0 := by
      rw [← hlen', List.length_eq_zero_iff]
    rw [List.foldl_append, List.foldl_append]
    refine ⟨hlen', ?_, ?_⟩
    · rw [kept_append]
      unfold count
      split
      · omega
      · split
        · omega
        · exact hle
    · simp only [List.foldl_cons, List.foldl_nil]
      rw [noStray_append]
      rcases h with ⟨hno, heq⟩ | ⟨hno, hst⟩
      · by_cases hdel : kept bs = 0 ∧ c = del
        · -- this DEL has nothing to erase
          have hnil : bs.foldl put [] = [] := List.eq_nil_of_length_eq_zero (hlen.trans hdel.1)
          refine Or.inr ⟨fun h1 => h1.1 hdel, ?_⟩
          rw [← heq, hnil, hdel.2]
          exact ⟨rfl, Nat.zero_le _, le_rfl⟩
        · refine Or.inl ⟨⟨hdel, Or.inr hno⟩, ?_⟩
          rw [put_eq_edit, heq]
          rintro ⟨h1, h2⟩
          rw [h1] at hlen
          exact hdel ⟨hlen.symm, h2⟩
      · -- a line that starts with DEL is not empty
        have hne : ¬ (kept bs = 0 ∧ c = del) := by
          rintro ⟨h1, -⟩
          rw [← hlen, List.length_eq_zero_iff] at h1
          have h2 := hst.front
          rw [h1] at h2
          cases h2
        rcases hst.put (c := c) (hlen ▸ hle) with ⟨h1, h2⟩ | ⟨h1, h2⟩
        · exact Or.inl ⟨⟨hne, Or.inl (hzero.1 h1)⟩, h1.trans h2.symm⟩
        · exact Or.inr ⟨fun h3 => h3.2.elim (fun h4 => h1 (hzero.2 h4)) hno, h2⟩

/-- A line of the rule has no control character and no DEL. -/
theorem edit_clean (bs : List Byte) : ∀ b ∈ bs.foldl edit [], ¬ b < 32 ∧ b ≠ del := by
  induction bs using List.reverseRecOn with
  | nil => exact nofun
  | append_singleton bs c ih =>
    intro b hb
    rw [List.foldl_append, List.foldl_cons, List.foldl_nil] at hb
    unfold edit at hb
    split at hb
    · exact ih b (List.mem_of_mem_dropLast hb)
    · rename_i h1
      split at hb
      · exact ih b hb
      · rename_i h2
        split at hb
        · rcases List.mem_append.1 hb with hb | hb
          · exact ih b hb
          · rw [List.mem_singleton.1 hb]
            exact ⟨h2, fun h3 => h1 (Or.inr h3)⟩
        · exact ih b hb

/-- A call of `readline`, with `buf` as it was. -/
def called (buf : Bytes) : State := ⟨buf, 0, [], []⟩

/-- The line of the rule is returned, which has no control character and no DEL, and all stores are inside of
`buf`. -/
def Edits (echoing : Bool) (buf : Bytes) (bs : List Byte) (e : Byte) : Prop :=
  ∃ s, readline echoing (called buf) ((bs ++ [e]).map fun b => (b.toNat : ℤ)) = .line s ∧
    IsStr s.buf 0 (bs.foldl edit []) ∧ (∀ b ∈ bs.foldl edit [], ¬ b < 32 ∧ b ≠ del) ∧ ∀ x ∈ s.stores, x < buflen

/-- **`readline` follows the rule** exactly if each DEL that came on an empty line was erased later on. -/
theorem readline_edits (echoing : Bool) (buf : Bytes) (hbs : ∀ b ∈ bs, b ≠ 10 ∧ b ≠ 13) (he : e = 10 ∨ e = 13) :
    Edits echoing buf bs e ↔ NoStray bs := by
  have hstart : Holds (called buf) [] := ⟨rfl, Nat.zero_le _, nofun, nofun, nofun⟩
  obtain ⟨s, h1, h2, h3⟩ := readline_put hstart hbs he
  obtain ⟨-, -, ⟨hno, heq⟩ | ⟨hno, hst⟩⟩ := put_cases bs
  · refine iff_of_true ⟨s, h1, ?_, edit_clean bs, h3⟩ hno
    rw [← heq]
    exact h2
  · refine iff_of_false ?_ hno
    rintro ⟨s', h4, h5, h6, -⟩
    obtain rfl := Result.line.inj (h1.symm.trans h4)
    have h7 := hst.front
    rw [h2.unique h5] at h7
    exact (h6 del (List.mem_of_head? h7)).2 rfl

theorem readline_edits_ab : Edits true ⟨fun _ => 0⟩ [0x61, 8, 0x7f, 8, 0x62] 10 ↔ NoStray [0x61, 8, 0x7f, 8, 0x62] :=
  readline_edits true ⟨fun _ => 0⟩ (by decide) (Or.inl rfl)

/-- A DEL alone is returned. -/
theorem readline_edits_counterexample : ¬ Edits false ⟨fun _ => 0⟩ [0x7f] 10 := by
  rintro ⟨s, h1, h2, -, -⟩
  obtain rfl := Result.line.inj h1
  exact absurd h2.term (by decide)

end Jos.Readline
