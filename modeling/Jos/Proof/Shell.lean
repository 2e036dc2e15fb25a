import Jos.Proof.Lexer

/-!
# The arrays of `runcmd`

`commands` is what a line makes the shell run: the words of each command of a pipeline, as far as the line is
well formed. A process of `runcmd` always has the words so far in `argv` (`Parsing`), and what it may still run is
among the commands. Running a command of `n` words accesses `argv[n]`, and of `argv0buf` as much as the first word
needs behind `/bin/` (`runit_accesses`).

`runcmd_safe`: the accesses stay inside of the arrays exactly if no command of the line has 16 words, or a first
word of more than 1018 bytes.
-/

namespace Jos.Shell

open Lib

variable {len last s d i : ℕ} {c : Byte} {mem src dst : Bytes} {bs w : List Byte} {L : Lexer} {env : Env} {p p' p₀ : Proc}
  {acc cmd : List (List Byte)} {toks : List Token}

/-! ## Strings -/

theorem strlen_spec (h : IsStr mem s bs) (hl : s + bs.length ≤ last) : strlen last mem s = some bs.length := by
  induction bs generalizing s with
  | nil =>
    have h0 : mem.byte s = 0 := h.term
    rw [strlen, if_pos (by simpa using hl), if_pos h0]
    rfl
  | cons b bs ih =>
    obtain ⟨hb, hb0⟩ := isStr_head h
    rw [List.length_cons] at hl
    rw [strlen, if_pos (by omega), if_neg (by rw [hb]; exact hb0), ih (isStr_tail h) (by omega)]
    rfl

/-- **`strcpy`** of a string. -/
theorem strcpy_spec (dst : Bytes) (d : ℕ) (h : IsStr src s bs) (hl : s + bs.length ≤ last) :
    ∃ dst', strcpy last src s dst d = some (dst', (List.range (bs.length + 1)).map (d + ·)) ∧ IsStr dst' d bs ∧
      ∀ x < d, dst'.byte x = dst.byte x := by
  induction bs generalizing s dst d with
  | nil =>
    have h0 : src.byte s = 0 := h.term
    refine ⟨dst.write d [0], ?_, isStr_write (s := []) nofun, fun x hx => Bytes.byte_write_off (Or.inl hx)⟩
    rw [strcpy, if_pos (by simpa using hl)]
    dsimp only
    rw [h0, if_pos rfl]
    rfl
  | cons b bs ih =>
    obtain ⟨hb, hb0⟩ := isStr_head h
    rw [List.length_cons] at hl
    obtain ⟨dst', h1, h2, h3⟩ := ih (dst.write d [b]) (d + 1) (isStr_tail h) (by omega)
    -- what is copied later lies behind the first character
    have hfirst : dst'.byte d = b := by
      rw [h3 d (Nat.lt_succ_self d), Bytes.byte_write, if_pos ⟨le_rfl, Nat.lt_succ_self _⟩, Nat.sub_self]
      rfl
    refine ⟨dst', ?_, ⟨fun k hk => ?_, ?_, h.nonzero⟩, fun x hx => ?_⟩
    · rw [strcpy, if_pos (by omega)]
      dsimp only
      rw [hb, if_neg hb0, h1, List.length_cons, List.range_succ_eq_map (n := bs.length + 1), List.map_cons, List.map_map]
      simp only [Option.map_some, Nat.add_zero, Option.some.injEq, Prod.mk.injEq, true_and, List.cons.injEq]
      apply List.map_congr_left
      intro x _
      simp only [Function.comp_apply]
      omega
    · cases k with
      | zero => exact hfirst
      | succ k =>
        rw [List.length_cons] at hk
        rw [List.getElem_cons_succ, ← h2.byte k (by omega)]
        congr 1
        omega
    · rw [List.length_cons, ← h2.term]
      congr 1
      omega
    · rw [h3 x (by omega), Bytes.byte_write_off (Or.inl hx)]

/-- **`strcat`**: all of both strings is accessed. -/
theorem strcat_spec {t : List Byte} (dlast : ℕ) (h : IsStr src s bs) (hl : s + bs.length ≤ last) (ht : IsStr dst 0 t)
    (htl : t.length ≤ dlast) : ∃ dst', strcat last src s dlast dst =
      some (dst', List.range (t.length + 1) ++ (List.range (bs.length + 1)).map (t.length + ·)) ∧
        IsStr dst' 0 (t ++ bs) := by
  obtain ⟨dst', h1, h2, h3⟩ := strcpy_spec dst t.length h hl
  refine ⟨dst', ?_, fun k hk => ?_, ?_, fun b hb => ?_⟩
  · unfold strcat
    rw [strlen_spec ht (by omega)]
    dsimp only [Option.bind_eq_bind, Option.bind_some]
    rw [h1]
    rfl
  · rw [Nat.zero_add]
    rw [List.length_append] at hk
    by_cases hlt : k < t.length
    · rw [List.getElem_append_left hlt, h3 k hlt, ← ht.byte k hlt, Nat.zero_add]
    · rw [List.getElem_append_right (by omega), ← h2.byte (k - t.length) (by omega)]
      congr 1
      omega
  · rw [Nat.zero_add, List.length_append]
    exact h2.term
  · rcases List.mem_append.1 hb with hb | hb
    · exact ht.nonzero b hb
    · exact h.nonzero b hb

/-! ## Commands -/

/-- **The commands of a line**, `acc` being the words of the present one so far. -/
def commands (acc : List (List Byte)) : List Token → List (List (List Byte))
  | [] => [acc]
  | .word w :: toks => if acc.length = maxargs then [] else commands (acc ++ [w]) toks
  | .symbol c :: toks =>
    if c = 0x3c ∨ c = 0x3e then
      match toks with
      | .word _ :: toks => commands acc toks
      | _ => []
    else if c = 0x7c then acc :: commands [] toks
    else []

theorem commands_pipe (acc : List (List Byte)) (toks : List Token) :
    commands acc (.symbol 0x7c :: toks) = acc :: commands [] toks := by
  cases toks with
  | nil => rfl
  | cons tok toks =>
    cases tok with
    | word w => rfl
    | symbol c => rfl

/-- A command of less than 16 words, or of more, with a first word of up to 1018 bytes. -/
def Fits (cmd : List (List Byte)) : Prop := cmd.length ≠ 16 ∧ ∀ w ∈ cmd.head?, w.length ≤ 1018

/-- An access inside of the array. -/
def Access.Inside : Access → Prop
  | .argv i => i < maxargs
  | .argv0buf i => i < bufsiz

/-- **A process in the loop**, with the words `acc` in `argv` and the tokens `toks` before it. -/
structure Parsing (len : ℕ) (p : Proc) (acc : List (List Byte)) (toks : List Token) : Prop where
  ahead : Ahead len p.lexer toks
  argc : p.argc = acc.length
  le : acc.length ≤ maxargs
  head : ∀ w ∈ acc.head?, ∃ i, p.argv 0 = some (.line i) ∧ IsStr p.lexer.mem i w ∧ i + w.length ≤ len ∧
    Behind p.lexer (i + w.length)
  safe : ∀ a ∈ p.accesses, a.Inside

/-- A token is read, and `argv` left alone. -/
theorem Parsing.advance {toks' : List Token} (h : Parsing len p acc toks) (hf : Frame len p.lexer L)
    (ha : Ahead len L toks') : Parsing len { p with lexer := L } acc toks' where
  ahead := ha
  argc := h.argc
  le := h.le
  head w hw := by
    obtain ⟨i, h1, h2, h3, h4⟩ := h.head w hw
    refine ⟨i, h1, h2.congr fun k hk => hf.byte _ (Or.inl fun j hj => ?_), h3, hf.behind _ h4⟩
    exact lt_of_le_of_lt (Nat.add_le_add_left hk i) (h4 j hj)
  safe := h.safe

/-- A word becomes the next entry of `argv`. -/
theorem Parsing.push (h : Parsing len p acc toks) (hlt : acc.length < maxargs) (hw : IsStr p.lexer.mem i w)
    (hi : i + w.length ≤ len) (hb : Behind p.lexer (i + w.length)) :
    Parsing len { p with
      argv := Function.update p.argv p.argc (some (.line i))
      argc := p.argc + 1
      accesses := p.accesses ++ [.argv p.argc] } (acc ++ [w]) toks where
  ahead := h.ahead
  argc := by
    rw [List.length_append, List.length_singleton, ← h.argc]
  le := by
    rw [List.length_append, List.length_singleton]
    exact hlt
  head v hv := by
    cases acc with
    | nil =>
      obtain rfl : w = v := Option.some.inj hv
      have h0 : p.argc = 0 := h.argc
      refine ⟨i, ?_, hw, hi, hb⟩
      dsimp only
      rw [h0, Function.update_self]
    | cons u acc =>
      obtain ⟨j, h1, h2⟩ := h.head v hv
      refine ⟨j, ?_, h2⟩
      dsimp only
      rw [Function.update_of_ne (by rw [h.argc, List.length_cons]; omega), h1]
  safe a ha := by
    rcases List.mem_append.1 ha with ha | ha
    · exact h.safe a ha
    · rw [List.mem_singleton.1 ha, h.argc]
      exact hlt

/-- The words are dropped, in a child that was forked. -/
theorem Parsing.again (h : Parsing len p acc toks) : Parsing len { p with argc := 0 } [] toks where
  ahead := h.ahead
  argc := rfl
  le := Nat.zero_le _
  head := nofun
  safe := h.safe

/-! ## The loop -/

theorem parse_word (h : Parsing len p acc (.word w :: toks)) (hne : acc.length ≠ maxargs) (env : Env) :
    ∃ p', parse len env p = some p' ∧ p'.pc = p.pc ∧ Parsing len p' (acc ++ [w]) toks := by
  obtain ⟨r, t, L, h1, h2, h3, ⟨rfl, -⟩, h5⟩ := gettoken_spec h.ahead
  obtain ⟨i, rfl, h6, h7, h8⟩ := h5 w rfl
  have hadv := h.advance h3 h2
  refine ⟨_, ?_, ?_, hadv.push (lt_of_le_of_ne h.le hne) h6 h7 h8⟩
  · unfold parse
    rw [h1]
    dsimp only [Option.bind_eq_bind, Option.bind_some]
    rw [if_pos rfl, if_neg (by rw [h.argc]; exact hne)]
    rfl
  · rfl

/-- The 17th word ends the process. -/
theorem parse_full (h : Parsing len p acc (.word w :: toks)) (heq : acc.length = maxargs) (env : Env) :
    ∃ p', parse len env p = some p' ∧ p'.pc = .over ∧ p'.accesses = p.accesses := by
  obtain ⟨r, t, L, h1, h2, h3, ⟨rfl, -⟩, -⟩ := gettoken_spec h.ahead
  refine ⟨{ p with lexer := L, pc := .over }, ?_, rfl, rfl⟩
  unfold parse
  rw [h1]
  dsimp only [Option.bind_eq_bind, Option.bind_some]
  rw [if_pos rfl, if_pos (by rw [h.argc]; exact heq)]

/-- A redirection, to a file that is opened or not. -/
theorem parse_redirect (hc : c = 0x3c ∨ c = 0x3e) (h : Parsing len p acc (.symbol c :: .word w :: toks)) (env : Env) :
    ∃ p', parse len env p = some p' ∧ p'.accesses = p.accesses ∧
      (env.opens = true → p'.pc = p.pc ∧ Parsing len p' acc toks) ∧ (env.opens = false → p'.pc = .over) := by
  obtain ⟨r, t, L, h1, h2, h3, rfl, -⟩ := gettoken_spec h.ahead
  have hadv := h.advance h3 h2
  obtain ⟨r', t', L', h4, h5, h6, ⟨rfl, -⟩, -⟩ := gettoken_spec h2
  have hne : r ≠ wordToken := by
    rintro rfl
    exact absurd hc (by decide)
  cases ho : env.opens with
  | false =>
    refine ⟨{ p with lexer := L', pc := .over }, ?_, rfl, nofun, fun _ => rfl⟩
    unfold parse
    rw [h1]
    dsimp only [Option.bind_eq_bind, Option.bind_some]
    rw [if_neg hne, if_pos hc, h4]
    dsimp only [Option.bind_some]
    rw [if_neg (not_not.2 rfl), ho]
    rfl
  | true =>
    refine ⟨{ p with lexer := L' }, ?_, rfl, fun _ => ⟨rfl, hadv.advance h6 h5⟩, nofun⟩
    unfold parse
    rw [h1]
    dsimp only [Option.bind_eq_bind, Option.bind_some]
    rw [if_neg hne, if_pos hc, h4]
    dsimp only [Option.bind_some]
    rw [if_neg (not_not.2 rfl), ho]
    rfl

/-- A redirection without a word. -/
theorem parse_redirect_bad (hc : c = 0x3c ∨ c = 0x3e) (h : Parsing len p acc (.symbol c :: toks))
    (hw : ∀ w, toks.head? ≠ some (.word w)) (env : Env) :
    ∃ p', parse len env p = some p' ∧ p'.accesses = p.accesses ∧ p'.pc = .over := by
  obtain ⟨r, t, L, h1, h2, h3, rfl, -⟩ := gettoken_spec h.ahead
  obtain ⟨r', t', L', h4, h5, h6, h7, -⟩ := gettoken_spec h2
  have hne : r ≠ wordToken := by
    rintro rfl
    exact absurd hc (by decide)
  have hne' : r' ≠ wordToken := by
    rintro rfl
    rw [List.tail_cons] at h2 h7
    cases h2 with
    | eol _ _ => exact absurd (show wordToken = 0 from h7) (by decide)
    | symbol hs _ _ _ =>
      rw [List.head?_cons] at h7
      rw [← h7] at hs
      exact (symbols_ne hs).2.1 rfl
    | word _ _ _ _ _ _ _ => exact hw _ rfl
  refine ⟨{ p with lexer := L', pc := .over }, ?_, rfl, rfl⟩
  unfold parse
  rw [h1]
  dsimp only [Option.bind_eq_bind, Option.bind_some]
  rw [if_neg hne, if_pos hc, h4]
  dsimp only [Option.bind_some]
  rw [if_pos hne']

theorem parse_pipe_eq (h1 : gettoken len p.lexer = some (0x7c, t, L)) (env : Env) :
    parse len env p = if !env.pipes then some { p with lexer := L, pc := .over }
      else match env.forks with
        | .error => some { p with lexer := L, pc := .over }
        | .child => some { p with lexer := L, argc := 0 }
        | .parent => some { p with lexer := L, pc := .runit } := by
  unfold parse
  rw [h1]
  dsimp only [Option.bind_eq_bind, Option.bind_some]
  rw [if_neg (by decide), if_neg (by decide)]
  exact if_pos rfl

/-- A pipe: the child reads the next command, and the parent runs this one. -/
theorem parse_pipe (h : Parsing len p acc (.symbol 0x7c :: toks)) (env : Env) :
    ∃ p', parse len env p = some p' ∧ p'.accesses = p.accesses ∧
      (p'.pc = .over ∨ p'.pc = p.pc ∧ Parsing len p' [] toks ∨ p'.pc = .runit ∧ Parsing len p' acc toks) ∧
      (env.pipes = true → env.forks = .child → p'.pc = p.pc ∧ Parsing len p' [] toks) ∧
      (env.pipes = true → env.forks = .parent → p'.pc = .runit ∧ Parsing len p' acc toks) := by
  obtain ⟨r, t, L, h1, h2, h3, rfl, -⟩ := gettoken_spec h.ahead
  have hadv := h.advance h3 h2
  have hrun : Parsing len { p with lexer := L, pc := .runit } acc toks := ⟨hadv.ahead, h.argc, h.le, hadv.head, h.safe⟩
  rw [parse_pipe_eq h1]
  cases hp : env.pipes with
  | false => exact ⟨_, rfl, rfl, Or.inl rfl, by simp, by simp⟩
  | true =>
    cases hf : env.forks with
    | error => exact ⟨_, rfl, rfl, Or.inl rfl, by simp, by simp⟩
    | child => exact ⟨_, rfl, rfl, Or.inr (Or.inl ⟨rfl, hadv.again⟩), fun _ _ => ⟨rfl, hadv.again⟩, by simp⟩
    | parent => exact ⟨_, rfl, rfl, Or.inr (Or.inr ⟨rfl, hrun⟩), by simp, fun _ _ => ⟨rfl, hrun⟩⟩

/-- The end of the line. -/
theorem parse_eol (h : Parsing len p acc []) (env : Env) :
    ∃ p', parse len env p = some p' ∧ p'.pc = .runit ∧ Parsing len p' acc [] := by
  obtain ⟨r, t, L, h1, h2, h3, rfl, -⟩ := gettoken_spec h.ahead
  have hadv := h.advance h3 h2
  refine ⟨{ p with lexer := L, pc := .runit }, ?_, rfl, hadv.ahead, h.argc, h.le, hadv.head, h.safe⟩
  unfold parse
  rw [h1]
  dsimp only [Option.bind_eq_bind, Option.bind_some]
  rw [if_neg (by decide), if_neg (by decide), if_neg (by decide), if_pos rfl]

/-- Another symbol is not understood. -/
theorem parse_bad (h : Parsing len p acc (.symbol c :: toks)) (h1 : ¬ (c = 0x3c ∨ c = 0x3e)) (h2 : c ≠ 0x7c) (env : Env) :
    ∃ p', parse len env p = some p' ∧ p'.accesses = p.accesses ∧ p'.pc = .over := by
  have hc : c ∈ symbols := by
    cases h.ahead with
    | symbol hs _ _ _ => exact hs
  obtain ⟨h3, h4, -⟩ := symbols_ne hc
  obtain ⟨r, t, L, h5, -, -, rfl, -⟩ := gettoken_spec h.ahead
  refine ⟨{ p with lexer := L, pc := .over }, ?_, rfl, rfl⟩
  unfold parse
  rw [h5]
  dsimp only [Option.bind_eq_bind, Option.bind_some]
  rw [if_neg h4, if_neg h1, if_neg h2, if_neg h3]

/-- **One turn of the loop**: the process ends, or goes on, or runs its command. -/
theorem parse_cases (h : Parsing len p acc toks) (hpc : p.pc = .loop) (hp : parse len env p = some p') :
    p'.pc = .over ∧ (∀ a ∈ p'.accesses, a.Inside) ∨
      (p'.pc = .loop ∧ ∃ acc' toks', Parsing len p' acc' toks' ∧ ∀ cmd ∈ commands acc' toks', cmd ∈ commands acc toks) ∨
        p'.pc = .runit ∧ (∃ toks', Parsing len p' acc toks') ∧ acc ∈ commands acc toks := by
  -- the process has ended, without an access
  have hover : ∀ {q : Proc}, parse len env p = some q → q.accesses = p.accesses → q.pc = .over →
      p'.pc = .over ∧ ∀ a ∈ p'.accesses, a.Inside := by
    intro q h1 h2 h3
    obtain rfl := Option.some.inj (hp.symm.trans h1)
    refine ⟨h3, ?_⟩
    rw [h2]
    exact h.safe
  cases toks with
  | nil =>
    obtain ⟨q, h1, h2, h3⟩ := parse_eol h env
    obtain rfl := Option.some.inj (hp.symm.trans h1)
    exact Or.inr (Or.inr ⟨h2, ⟨[], h3⟩, List.mem_singleton_self _⟩)
  | cons tok toks =>
    cases tok with
    | word w =>
      by_cases hfull : acc.length = maxargs
      · obtain ⟨q, h1, h2, h3⟩ := parse_full h hfull env
        exact Or.inl (hover h1 h3 h2)
      · obtain ⟨q, h1, h2, h3⟩ := parse_word h hfull env
        obtain rfl := Option.some.inj (hp.symm.trans h1)
        refine Or.inr (Or.inl ⟨h2.trans hpc, acc ++ [w], toks, h3, fun cmd hcmd => ?_⟩)
        rw [commands, if_neg hfull]
        exact hcmd
    | symbol c =>
      by_cases hc : c = 0x3c ∨ c = 0x3e
      · by_cases hw : ∃ w, toks.head? = some (.word w)
        · obtain ⟨w, hw⟩ := hw
          obtain ⟨toks', rfl⟩ := List.head?_eq_some_iff.1 hw
          obtain ⟨q, h1, h2, h3, h4⟩ := parse_redirect hc h env
          cases ho : env.opens with
          | false => exact Or.inl (hover h1 h2 (h4 ho))
          | true =>
            obtain rfl := Option.some.inj (hp.symm.trans h1)
            obtain ⟨h5, h6⟩ := h3 ho
            refine Or.inr (Or.inl ⟨h5.trans hpc, acc, toks', h6, fun cmd hcmd => ?_⟩)
            rw [commands, if_pos hc]
            exact hcmd
        · obtain ⟨q, h1, h2, h3⟩ := parse_redirect_bad hc h (fun w hw' => hw ⟨w, hw'⟩) env
          exact Or.inl (hover h1 h2 h3)
      · by_cases hpipe : c = 0x7c
        · subst hpipe
          obtain ⟨q, h1, h2, h3, -⟩ := parse_pipe h env
          have hmem : ∀ cmd, cmd = acc ∨ cmd ∈ commands [] toks → cmd ∈ commands acc (.symbol 0x7c :: toks) := by
            intro cmd hcmd
            rw [commands_pipe, List.mem_cons]
            exact hcmd
          rcases h3 with h4 | ⟨h4, h5⟩ | ⟨h4, h5⟩
          · exact Or.inl (hover h1 h2 h4)
          · obtain rfl := Option.some.inj (hp.symm.trans h1)
            exact Or.inr (Or.inl ⟨h4.trans hpc, [], toks, h5, fun cmd hcmd => hmem cmd (Or.inr hcmd)⟩)
          · obtain rfl := Option.some.inj (hp.symm.trans h1)
            exact Or.inr (Or.inr ⟨h4, ⟨toks, h5⟩, hmem acc (Or.inl rfl)⟩)
        · obtain ⟨q, h1, h2, h3⟩ := parse_bad h hc hpipe env
          exact Or.inl (hover h1 h2 h3)

/-! ## Running a command -/

/-- An access of `argv` up to entry `m`, or of `argv0buf` up to byte `n`. -/
def Access.Upto (m n : ℕ) : Access → Prop
  | .argv i => i ≤ m
  | .argv0buf i => i ≤ n

theorem Access.Upto.mono {a : Access} {m m' n : ℕ} (h : a.Upto m n) (hm : m ≤ m') : a.Upto m' n := by
  cases a with
  | argv i => exact le_trans h hm
  | argv0buf i => exact h

/-- What one directory of the search accesses, for the word `w`. -/
def touched (dir w : List Byte) : List Access :=
  ((List.range (dir.length + 1)).map (0 + ·)).map .argv0buf ++ [.argv 0] ++
    (List.range (dir.length + 1) ++ (List.range (w.length + 1)).map (dir.length + ·)).map .argv0buf

theorem touched_upto {dir : List Byte} (hlen : dir.length ≤ 5) : ∀ a ∈ touched dir w, a.Upto 0 (5 + w.length) := by
  intro a ha
  unfold touched at ha
  simp only [List.mem_append, List.mem_map, List.mem_range, List.mem_singleton] at ha
  rcases ha with (⟨x, ⟨y, hy, rfl⟩, rfl⟩ | rfl) | ⟨x, hx | ⟨y, hy, rfl⟩, rfl⟩
  · change 0 + y ≤ 5 + w.length
    omega
  · exact le_rfl
  · change x ≤ 5 + w.length
    omega
  · change dir.length + y ≤ 5 + w.length
    omega

/-- The 0 behind the word. -/
theorem mem_touched (dir w : List Byte) : .argv0buf (dir.length + w.length) ∈ touched dir w :=
  List.mem_append_right _ (List.mem_map_of_mem (List.mem_append_right _
    (List.mem_map.2 ⟨w.length, List.mem_range.2 (Nat.lt_succ_self _), rfl⟩)))

/-- **The search**, for the word `w`: `argv[0]` is in the end the word still, or a path. -/
theorem search_spec {dirs : List (List Byte)} (hd : ∀ dir ∈ dirs, dir.length ≤ 5 ∧ dir.head? = some 0x2f ∧ ∀ b ∈ dir, b ≠ 0)
    (harg : p.argv 0 = some (.line i)) (hw : IsStr p.lexer.mem i w) (hi : i + w.length ≤ len) (env : Env) :
    ∃ p' l, search len env dirs p = some p' ∧ p'.argc = p.argc ∧ p'.lexer = p.lexer ∧ p'.accesses = p.accesses ++ l ∧
      (p'.argv 0 = some (.line i) ∨ p'.argv 0 = some .argv0buf ∧ p'.argv0buf.byte 0 = 0x2f) ∧
        (∀ a ∈ l, a.Upto 0 (5 + w.length)) ∧ ∀ dir ∈ dirs.head?, .argv0buf (dir.length + w.length) ∈ l := by
  induction dirs generalizing p with
  | nil => exact ⟨p, [], rfl, rfl, rfl, (List.append_nil _).symm, Or.inl harg, nofun, nofun⟩
  | cons dir dirs ih =>
    obtain ⟨hlen, hslash, hnz⟩ := hd dir List.mem_cons_self
    obtain ⟨b₁, h1, h2, -⟩ := strcpy_spec p.argv0buf 0 (isStr_literal hnz) (Nat.zero_add _).le
    obtain ⟨b₂, h3, h4⟩ := strcat_spec (bufsiz - 1) hw hi h2 (by unfold bufsiz; omega)
    have hzero : b₂.byte 0 = 0x2f := by
      obtain ⟨t, rfl⟩ := List.head?_eq_some_iff.1 hslash
      exact h4.byte 0 (Nat.succ_pos _)
    -- the directory and the name of the command, one behind the other
    have hstep : search len env (dir :: dirs) p = if env.stat dir = true then
        some { p with
          argv0buf := b₂
          argv := Function.update p.argv 0 (some .argv0buf)
          accesses := p.accesses ++ touched dir w ++ [.argv 0] }
        else search len env dirs { p with argv0buf := b₂, accesses := p.accesses ++ touched dir w } := by
      rw [search, h1]
      unfold Proc.argv0 touched
      rw [harg]
      dsimp only [Option.bind_eq_bind, Option.bind_some, Option.map_some]
      rw [h3]
      dsimp only [Option.bind_some]
      simp only [List.append_assoc]
    rw [hstep]
    by_cases hs : env.stat dir = true
    · rw [if_pos hs]
      refine ⟨_, touched dir w ++ [.argv 0], rfl, rfl, rfl, List.append_assoc _ _ _,
        Or.inr ⟨Function.update_self (0 : ℕ) (some Ptr.argv0buf) p.argv, hzero⟩, fun a ha => ?_, fun d hdir' => ?_⟩
      · rcases List.mem_append.1 ha with ha | ha
        · exact touched_upto hlen a ha
        · rw [List.mem_singleton.1 ha]
          exact le_rfl
      · obtain rfl := Option.some.inj hdir'
        exact List.mem_append_left _ (mem_touched dir w)
    · rw [if_neg hs]
      obtain ⟨p', l, h5, h6, h7, h8, h9, h10, -⟩ := ih (p := { p with
        argv0buf := b₂
        accesses := p.accesses ++ touched dir w }) (fun d hd' => hd d (List.mem_cons_of_mem _ hd')) harg hw
      refine ⟨p', touched dir w ++ l, h5, h6, h7, ?_, h9, fun a ha => ?_, fun d hdir' => ?_⟩
      · rw [h8, List.append_assoc]
      · rcases List.mem_append.1 ha with ha | ha
        · exact touched_upto hlen a ha
        · exact h10 a ha
      · obtain rfl := Option.some.inj hdir'
        exact List.mem_append_left _ (mem_touched dir w)

/-- The initial `/`, for the word `w`. -/
theorem addSlash_spec (hw : IsStr p.lexer.mem i w) (hi : i + w.length ≤ len)
    (harg : p.argv 0 = some (.line i) ∨ p.argv 0 = some .argv0buf ∧ p.argv0buf.byte 0 = 0x2f) :
    ∃ p' l, addSlash len p = some p' ∧ p'.argc = p.argc ∧ p'.accesses = p.accesses ++ l ∧
      ∀ a ∈ l, a.Upto 0 (5 + w.length) := by
  unfold addSlash Proc.argv0
  rcases harg with harg | ⟨harg, hzero⟩
  · rw [harg]
    dsimp only [Option.bind_eq_bind, Option.bind_some, Option.map_some]
    by_cases hs : p.lexer.mem.byte i = 0x2f
    · rw [if_neg (not_not.2 hs)]
      refine ⟨_, [.argv 0], rfl, rfl, rfl, fun a ha => ?_⟩
      rw [List.mem_singleton.1 ha]
      exact le_rfl
    · obtain ⟨b, h1, -, -⟩ := strcpy_spec (p.argv0buf.write 0 [0x2f]) 1 hw hi
      rw [if_pos hs, h1]
      refine ⟨_, [.argv 0] ++ ([.argv0buf 0, .argv 0] ++
        (((List.range (w.length + 1)).map (1 + ·)).map .argv0buf ++ [.argv 0])), rfl, rfl, ?_, fun a ha => ?_⟩
      · simp only [List.append_assoc]
      · simp only [List.mem_append, List.mem_map, List.mem_range, List.mem_cons, List.not_mem_nil, or_false] at ha
        rcases ha with rfl | (rfl | rfl) | ⟨x, ⟨y, hy, rfl⟩, rfl⟩ | rfl
        · exact le_rfl
        · exact Nat.zero_le _
        · exact le_rfl
        · change 1 + y ≤ 5 + w.length
          omega
        · exact le_rfl
  · rw [harg]
    dsimp only [Option.bind_eq_bind, Option.bind_some, Option.map_some]
    rw [if_neg (not_not.2 hzero)]
    refine ⟨_, [.argv 0, .argv0buf 0], rfl, rfl, rfl, fun a ha => ?_⟩
    simp only [List.mem_cons, List.not_mem_nil, or_false] at ha
    rcases ha with rfl | rfl
    · exact le_rfl
    · exact Nat.zero_le _

/-- **What running a command accesses**: `argv` up to the entry behind the last word, and of `argv0buf` up to the
end of `/bin/` and the first word. -/
theorem runit_accesses (h : Parsing len p (w :: acc) toks) (env : Env) : ∃ p' l, runit len env p = some p' ∧
    p'.pc = .spawn ∧ p'.accesses = p.accesses ++ l ∧ (∀ a ∈ l, a.Upto (acc.length + 1) (5 + w.length)) ∧
      .argv (acc.length + 1) ∈ l ∧ .argv0buf (5 + w.length) ∈ l := by
  obtain ⟨i, harg, hw, hi, -⟩ := h.head w rfl
  have hpath : ∀ dir ∈ path, dir.length ≤ 5 ∧ dir.head? = some 0x2f ∧ ∀ b ∈ dir, b ≠ 0 := by decide
  obtain ⟨p₁, l₁, h1, h2, h3, h4, h5, h6, h7⟩ := search_spec hpath harg hw hi env
  rw [← h3] at hw
  obtain ⟨p₂, l₂, h8, h9, h10, h11⟩ := addSlash_spec hw hi h5
  have hargc : p₂.argc = acc.length + 1 := by rw [h9, h2, h.argc, List.length_cons]
  refine ⟨{ p₂ with
    argv := Function.update p₂.argv p₂.argc none
    pc := .spawn
    accesses := p₂.accesses ++ [.argv p₂.argc] ++
      (if env.debug then (List.range (p₂.argc + 1)).map .argv else []) ++ [.argv 0] },
    l₁ ++ (l₂ ++ ([.argv p₂.argc] ++ ((if env.debug then (List.range (p₂.argc + 1)).map .argv else []) ++ [.argv 0]))),
    ?_, rfl, ?_, fun a ha => ?_, ?_, ?_⟩
  · unfold runit
    rw [if_neg (by rw [h.argc, List.length_cons]; exact Nat.succ_ne_zero _), h1]
    dsimp only [Option.bind_eq_bind, Option.bind_some]
    rw [h8]
    rfl
  · dsimp only
    rw [h10, h4]
    simp only [List.append_assoc]
  · simp only [List.mem_append, List.mem_singleton] at ha
    rcases ha with ha | ha | rfl | ha | rfl
    · exact (h6 a ha).mono (Nat.zero_le _)
    · exact (h11 a ha).mono (Nat.zero_le _)
    · exact hargc.le
    · split at ha
      · obtain ⟨x, hx, rfl⟩ := List.mem_map.1 ha
        rw [List.mem_range, hargc] at hx
        exact Nat.le_of_lt_succ hx
      · cases ha
    · exact Nat.zero_le _
  · rw [← hargc]
    simp only [List.mem_append, List.mem_singleton, true_or, or_true]
  · exact List.mem_append_left _ (h7 _ rfl)

/-! ## Runs -/

/-- What holds of a process if all commands that it may run fit. -/
structure Fitting (len : ℕ) (p : Proc) : Prop where
  safe : ∀ a ∈ p.accesses, a.Inside
  loop : p.pc = .loop → ∃ acc toks, Parsing len p acc toks ∧ ∀ cmd ∈ commands acc toks, Fits cmd
  runit : p.pc = .runit → ∃ acc toks, Parsing len p acc toks ∧ Fits acc

/-- An access of a command that fits. -/
theorem Access.Upto.inside {a : Access} (h : a.Upto (acc.length + 1) (5 + w.length)) (hfit : Fits (w :: acc))
    (hle : (w :: acc).length ≤ maxargs) : a.Inside := by
  obtain ⟨h1, h2⟩ := hfit
  have h3 := h2 w rfl
  rw [List.length_cons] at h1 hle
  unfold maxargs at hle
  cases a with
  | argv i =>
    change i ≤ acc.length + 1 at h
    change i < 16
    omega
  | argv0buf i =>
    change i ≤ 5 + w.length at h
    change i < 1024
    omega

theorem Step.fitting (h : Fitting len p) (hs : Step len p p') : Fitting len p' := by
  cases hs with
  | loop env hpc hp =>
    obtain ⟨acc, toks, h1, h2⟩ := h.loop hpc
    rcases parse_cases h1 hpc hp with ⟨h3, h4⟩ | ⟨h3, acc', toks', h4, h5⟩ | ⟨h3, ⟨toks', h4⟩, h5⟩
    · refine ⟨h4, ?_, ?_⟩
      · rw [h3]
        exact nofun
      · rw [h3]
        exact nofun
    · refine ⟨h4.safe, fun _ => ⟨acc', toks', h4, fun cmd hcmd => h2 cmd (h5 cmd hcmd)⟩, ?_⟩
      rw [h3]
      exact nofun
    · refine ⟨h4.safe, ?_, fun _ => ⟨acc, toks', h4, h2 acc h5⟩⟩
      rw [h3]
      exact nofun
  | runit env hpc hp =>
    obtain ⟨acc, toks, h1, h2⟩ := h.runit hpc
    cases acc with
    | nil =>
      unfold Shell.runit at hp
      rw [if_pos (show p.argc = 0 from h1.argc)] at hp
      cases hp
      exact ⟨h.safe, nofun, nofun⟩
    | cons w acc =>
      obtain ⟨q, l, h3, h4, h5, h6, -, -⟩ := runit_accesses h1 env
      obtain rfl := Option.some.inj (hp.symm.trans h3)
      refine ⟨fun a ha => ?_, ?_, ?_⟩
      · rw [h5] at ha
        rcases List.mem_append.1 ha with ha | ha
        · exact h.safe a ha
        · exact (h6 a ha).inside h2 h1.le
      · rw [h4]
        exact nofun
      · rw [h4]
        exact nofun

theorem Run.fitting (h : Fitting len p) (hr : Run len p p') : Fitting len p' := by
  induction hr with
  | refl => exact h
  | tail _ hs ih => exact hs.fitting ih

theorem Called.parsing {S : List Byte} (h : Called S p) : Parsing S.length p [] (tokens S) := by
  obtain ⟨L, h1, h2⟩ := h.lexer
  obtain ⟨L', h3, h4, -⟩ := _gettoken_spec h1 (Nat.zero_add _)
  obtain rfl : p.lexer = L' := Option.some.inj (h2.symm.trans h3)
  refine ⟨h4, h.argc, Nat.zero_le _, nofun, ?_⟩
  rw [h.accesses]
  exact nofun

/-- All calls succeed. -/
def Env.ok (f : Forked) : Env := ⟨false, true, true, f, fun _ => false⟩

/-- **Each command of a line is run** in some run. -/
theorem reaches (h : Parsing len p acc toks) (hpc : p.pc = .loop) (hcmd : cmd ∈ commands acc toks) :
    ∃ p' toks', Run len p p' ∧ p'.pc = .runit ∧ Parsing len p' cmd toks' := by
  induction hn : toks.length using Nat.strong_induction_on generalizing toks acc p with
  | _ n ih =>
    cases toks with
    | nil =>
      obtain rfl := List.mem_singleton.1 hcmd
      obtain ⟨q, h1, h2, h3⟩ := parse_eol h (Env.ok .child)
      exact ⟨q, [], Relation.ReflTransGen.single (Step.loop _ hpc h1), h2, h3⟩
    | cons tok toks =>
      rw [List.length_cons] at hn
      cases tok with
      | word w =>
        rw [commands] at hcmd
        split at hcmd
        · cases hcmd
        · rename_i hne
          obtain ⟨q, h1, h2, h3⟩ := parse_word h hne (Env.ok .child)
          obtain ⟨p', toks', h4, h5⟩ := ih toks.length (by omega) h3 (h2.trans hpc) hcmd rfl
          exact ⟨p', toks', h4.head (Step.loop _ hpc h1), h5⟩
      | symbol c =>
        by_cases hpipe : c = 0x7c
        · subst hpipe
          rw [commands_pipe, List.mem_cons] at hcmd
          -- the parent runs this command, and the child reads the next
          rcases hcmd with rfl | hcmd
          · obtain ⟨q, h1, -, -, -, h2⟩ := parse_pipe h (Env.ok .parent)
            obtain ⟨h3, h4⟩ := h2 rfl rfl
            exact ⟨q, toks, Relation.ReflTransGen.single (Step.loop _ hpc h1), h3, h4⟩
          · obtain ⟨q, h1, -, -, h2, -⟩ := parse_pipe h (Env.ok .child)
            obtain ⟨h3, h4⟩ := h2 rfl rfl
            obtain ⟨p', toks', h5, h6⟩ := ih toks.length (by omega) h4 (h3.trans hpc) hcmd rfl
            exact ⟨p', toks', h5.head (Step.loop _ hpc h1), h6⟩
        · by_cases hc : c = 0x3c ∨ c = 0x3e
          · cases toks with
            | nil =>
              rw [commands, if_pos hc] at hcmd
              · cases hcmd
              · exact nofun
            | cons tok toks =>
              rw [List.length_cons] at hn
              cases tok with
              | symbol d =>
                rw [commands, if_pos hc] at hcmd
                · cases hcmd
                · exact nofun
              | word w =>
                rw [commands, if_pos hc] at hcmd
                obtain ⟨q, h1, -, h2, -⟩ := parse_redirect hc h (Env.ok .child)
                obtain ⟨h3, h4⟩ := h2 rfl
                obtain ⟨p', toks', h5, h6⟩ := ih toks.length (by omega) h4 (h3.trans hpc) hcmd rfl
                exact ⟨p', toks', h5.head (Step.loop _ hpc h1), h6⟩
          · -- no command follows
            have hnil : commands acc (.symbol c :: toks) = [] := by
              cases toks with
              | nil =>
                rw [commands, if_neg hc, if_neg hpipe]
                exact nofun
              | cons tok toks =>
                cases tok with
                | symbol d =>
                  rw [commands, if_neg hc, if_neg hpipe]
                  exact nofun
                | word w => rw [commands, if_neg hc, if_neg hpipe]
            rw [hnil] at hcmd
            cases hcmd

/-- **A command that does not fit** leaves its arrays. -/
theorem reaches_outside (h : Parsing len p acc toks) (hpc : p.pc = .loop) (hcmd : cmd ∈ commands acc toks)
    (hbad : ¬ Fits cmd) : ∃ p', Run len p p' ∧ ∃ a ∈ p'.accesses, ¬ a.Inside := by
  obtain ⟨q, toks', h1, h2, h3⟩ := reaches h hpc hcmd
  cases cmd with
  | nil => exact absurd ⟨by decide, nofun⟩ hbad
  | cons w rest =>
    obtain ⟨p', l, h4, -, h5, -, h6, h7⟩ := runit_accesses h3 (Env.ok .child)
    refine ⟨p', h1.tail (Step.runit _ h2 h4), ?_⟩
    rw [h5]
    by_cases hlen : (w :: rest).length = 16
    · refine ⟨_, List.mem_append_right _ h6, fun h8 => ?_⟩
      change rest.length + 1 < 16 at h8
      rw [List.length_cons] at hlen
      omega
    · refine ⟨_, List.mem_append_right _ h7, fun h8 => hbad ⟨hlen, fun v hv => ?_⟩⟩
      obtain rfl : w = v := Option.some.inj hv
      change 5 + w.length < 1024 at h8
      omega

/-- **`runcmd` stays in its arrays** exactly if every command of the line fits. -/
theorem runcmd_safe {S : List Byte} (h : Called S p₀) :
    (∀ p, Run S.length p₀ p → ∀ a ∈ p.accesses, a.Inside) ↔ ∀ cmd ∈ commands [] (tokens S), Fits cmd := by
  have hstart : Fitting S.length p₀ ∨ ∃ cmd ∈ commands [] (tokens S), ¬ Fits cmd := by
    by_cases hfit : ∀ cmd ∈ commands [] (tokens S), Fits cmd
    · refine Or.inl ⟨h.parsing.safe, fun _ => ⟨[], tokens S, h.parsing, hfit⟩, ?_⟩
      rw [h.pc]
      exact nofun
    · push Not at hfit
      exact Or.inr hfit
  rcases hstart with hfit | ⟨cmd, hcmd, hbad⟩
  · refine iff_of_true (fun p hr => (Run.fitting hfit hr).safe) ?_
    intro cmd hcmd
    by_contra hbad
    obtain ⟨p', hr, a, ha, hout⟩ := reaches_outside h.parsing h.pc hcmd hbad
    exact hout ((Run.fitting hfit hr).safe a ha)
  · obtain ⟨p', hr, a, ha, hout⟩ := reaches_outside h.parsing h.pc hcmd hbad
    exact iff_of_false (fun hall => hout (hall p' hr a ha)) (fun hall => hbad (hall cmd hcmd))

/-- The shell before it runs a line. -/
theorem called_literal {S : List Byte} (hS : ∀ b ∈ S, b ≠ 0) : ∃ p, Called S p := by
  have hstr := isStr_literal hS
  obtain ⟨L, h1, -⟩ := _gettoken_spec (L := ⟨literal S, 0, none, none⟩) hstr (Nat.zero_add _)
  exact ⟨⟨L, 0, fun _ => none, literal [], .loop, []⟩, ⟨_, hstr, h1⟩, rfl, rfl, rfl⟩

theorem runcmd_safe_ls : ∃ p₀, Called lsLine p₀ ∧
    ((∀ p, Run 4 p₀ p → ∀ a ∈ p.accesses, a.Inside) ↔ ∀ cmd ∈ commands [] (tokens lsLine), Fits cmd) := by
  obtain ⟨p₀, h⟩ := called_literal (S := lsLine) (by decide)
  exact ⟨p₀, h, runcmd_safe h⟩

/-- The line of 16 words `a`. -/
def sixteenWords : List Byte := [0x61, 0x20, 0x61, 0x20, 0x61, 0x20, 0x61, 0x20, 0x61, 0x20, 0x61, 0x20, 0x61, 0x20, 0x61,
  0x20, 0x61, 0x20, 0x61, 0x20, 0x61, 0x20, 0x61, 0x20, 0x61, 0x20, 0x61, 0x20, 0x61, 0x20, 0x61]

theorem tokens_sixteenWords : tokens sixteenWords = List.replicate 16 (.word [0x61]) := by
  simp [sixteenWords, tokens, IsDelim, whitespace, symbols, List.replicate]

/-- **16 words** are run, and `argv[16]` is set. -/
theorem runcmd_safe_counterexample : ∃ p₀, Called sixteenWords p₀ ∧
    ∃ p, Run sixteenWords.length p₀ p ∧ ∃ a ∈ p.accesses, ¬ a.Inside := by
  obtain ⟨p₀, h⟩ := called_literal (S := sixteenWords) (by decide)
  have hcmd : List.replicate 16 [(0x61 : Byte)] ∈ commands [] (tokens sixteenWords) := by
    rw [tokens_sixteenWords]
    decide
  exact ⟨p₀, h, reaches_outside h.parsing h.pc hcmd fun hfit => hfit.1 rfl⟩

end Jos.Shell
