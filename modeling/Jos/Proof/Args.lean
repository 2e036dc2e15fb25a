import Jos.Spec.Args

/-!
# The argument parser and its specification

`Parser` is what `inc/args.h` describes: the flag characters that are left of an argument, the arguments that are
left, and the value of the present flag. `Rep` relates it to the array and the cursor of the code, which may point
into an argument that the array no longer has. Each call keeps `Rep` (`Rep.call`), and so do calls in any order
(`calls_parse`).
-/

namespace Jos.Args

open Lib

variable {a a' : Argstate} {name s : List Byte} {args : List (List Byte)} {argc : ℕ} {argv : ℕ → Str} {op : Op}

/-! ## The specification -/

/-- **The parser of `inc/args.h`.** `group` is what is left of the argument whose flags are read, or `none` after
the last flag. -/
structure Parser where
  args : List (List Byte)
  group : Option (List Byte)
  value : Option (List Byte)

def dash : Byte := 0x2d

/-- The next flag. The flags end before an argument that does not begin with `-`, before `-`, after `--`, and at
the end. -/
def Parser.next (r : Parser) : ℤ × Parser :=
  match r.group with
  | none => (-1, { r with value := none })
  | some (c :: cs) => (c.toNat, ⟨r.args, some cs, none⟩)
  | some [] =>
    match r.args with
    | [] => (-1, ⟨[], none, none⟩)
    | arg :: args =>
      match arg with
      | d :: c :: cs =>
        if d ≠ dash then (-1, ⟨arg :: args, none, none⟩)
        else if c = dash ∧ cs = [] then (-1, ⟨args, none, none⟩)
        else (c.toNat, ⟨args, some cs, none⟩)
      | _ => (-1, ⟨arg :: args, none, none⟩)

/-- The next value of the flag: what is left of its argument, and then the arguments behind it. -/
def Parser.nextvalue (r : Parser) : Str × Parser :=
  match r.group with
  | none => (none, r)
  | some (c :: cs) => (some (c :: cs), ⟨r.args, some [], some (c :: cs)⟩)
  | some [] =>
    match r.args with
    | [] => (none, ⟨[], none, none⟩)
    | arg :: args => (some arg, ⟨args, some [], some arg⟩)

/-- The value of the flag, which stays the same. -/
def Parser.getvalue (r : Parser) : Str × Parser :=
  match r.value with
  | some v => (some v, r)
  | none => r.nextvalue

def Parser.call (r : Parser) : Op → Result × Parser
  | .next => (.flag r.next.1, r.next.2)
  | .value => (.value r.getvalue.1, r.getvalue.2)
  | .nextvalue => (.value r.nextvalue.1, r.nextvalue.2)

def Parser.calls (r : Parser) : List Op → List Result × Parser
  | [] => ([], r)
  | op :: ops => ((r.call op).1 :: ((r.call op).2.calls ops).1, ((r.call op).2.calls ops).2)

/-! ## The array -/

/-- The array has `argv[0]`, the arguments, and the 0 behind them. -/
structure Array (argc : ℕ) (argv : ℕ → Str) (name : List Byte) (args : List (List Byte)) : Prop where
  count : argc = 1 + args.length
  name : argv 0 = some name
  arg : ∀ k (h : k < args.length), argv (k + 1) = some args[k]
  null : argv argc = none

/-- **The move** takes the first argument out, and moves the 0 as well. -/
theorem Array.shift (h : Array a.argc a.argv name (s :: args)) : Array a.shift.argc a.shift.argv name args := by
  have hargc := h.count
  rw [List.length_cons] at hargc
  refine ⟨?_, ?_, fun k hk => ?_, ?_⟩
  · change a.argc - 1 = 1 + args.length
    omega
  · unfold Argstate.shift
    dsimp only
    rw [if_neg (by omega), h.name]
  · unfold Argstate.shift
    dsimp only
    rw [if_pos (by omega), h.arg (k + 1) (by rw [List.length_cons]; omega)]
    rfl
  · unfold Argstate.shift
    dsimp only
    rw [if_pos (by omega), ← h.null]
    congr 1
    omega

theorem Array.first (h : Array argc argv name (s :: args)) : argv 1 = some s := h.arg 0 (Nat.succ_pos _)

/-! ## One call -/

/-- Strings have no 0 inside. -/
def Plain (s : List Byte) : Prop := ∀ b ∈ s, b ≠ 0

/-- **The parser of the code.** Without arguments it is at its end from the start. -/
structure Rep (a : Argstate) (name : List Byte) (r : Parser) : Prop where
  array : Array a.argc a.argv name r.args
  plain : ∀ s ∈ r.args, Plain s
  group : ∀ s ∈ r.group, Plain s
  value : a.argvalue = r.value
  cursor : a.curarg = r.group ∨ a.curarg = none ∧ r = ⟨[], some [], none⟩

theorem char_zero (h : Plain s) : char s 0 = 0 ↔ s = [] := by
  cases s with
  | nil => exact iff_of_true rfl rfl
  | cons b s => exact iff_of_false (h b List.mem_cons_self) (List.cons_ne_nil _ _)

variable {r : Parser}

/-- The parser stops. -/
theorem Rep.stop (h : Array argc argv name args) (hp : ∀ s ∈ args, Plain s) :
    Rep ⟨argc, argv, none, none⟩ name ⟨args, none, none⟩ :=
  ⟨h, hp, nofun, rfl, Or.inl rfl⟩

/-- A flag is read, of an argument that has more. -/
theorem Rep.take {c : Byte} {cs : List Byte} (h : Array argc argv name args) (hp : ∀ s ∈ args, Plain s)
    (hs : Plain (c :: cs)) : Rep ⟨argc, argv, some cs, none⟩ name ⟨args, some cs, none⟩ := by
  refine ⟨h, hp, fun s hs' => ?_, rfl, Or.inl rfl⟩
  obtain rfl := Option.some.inj hs'
  exact fun b hb => hs b (List.mem_cons_of_mem _ hb)

theorem Rep.next (h : Rep a name r) : ∃ a', argnext a = some (r.next.1, a') ∧ Rep a' name r.next.2 := by
  obtain ⟨args, group, value⟩ := r
  obtain ⟨harray, hplain, hgroup, -, hcur⟩ := h
  dsimp only at harray hplain hgroup
  rcases hcur with hcur | ⟨hcur, hr⟩
  · dsimp only at hcur
    unfold argnext Parser.next
    dsimp only
    rw [hcur]
    cases group with
    | none => exact ⟨_, rfl, Rep.stop harray hplain⟩
    | some group =>
      cases group with
      | cons c cs =>
        have hcs : Plain (c :: cs) := hgroup _ rfl
        dsimp only
        rw [if_neg (fun h0 => List.cons_ne_nil _ _ ((char_zero hcs).1 h0))]
        exact ⟨_, rfl, Rep.take harray hplain hcs⟩
      | nil =>
        dsimp only
        rw [if_pos (by rfl)]
        cases args with
        | nil =>
          rw [if_pos (show a.argc = 1 from harray.count)]
          exact ⟨_, rfl, Rep.stop harray hplain⟩
        | cons arg args =>
          have hargc := harray.count
          rw [List.length_cons] at hargc
          have harg : Plain arg := hplain arg List.mem_cons_self
          have hplain' : ∀ s ∈ args, Plain s := fun s hs => hplain s (List.mem_cons_of_mem _ hs)
          rw [if_neg (by omega), harray.first]
          dsimp only [Option.bind_eq_bind, Option.bind_some]
          -- an argument needs a dash and a character behind it to be a group of flags
          match arg, harg with
          | [], _ =>
            rw [if_pos (Or.inr (by rfl))]
            exact ⟨_, rfl, Rep.stop harray hplain⟩
          | [d], _ =>
            rw [if_pos (Or.inr (by rfl))]
            exact ⟨_, rfl, Rep.stop harray hplain⟩
          | d :: c :: cs, harg =>
            have hc : c ≠ 0 := harg c (List.mem_cons_of_mem _ List.mem_cons_self)
            have hcs : Plain (c :: cs) := fun b hb => harg b (List.mem_cons_of_mem _ hb)
            by_cases hd : d = dash
            · rw [if_neg (fun h0 => h0.elim (fun h1 => h1 hd) hc)]
              dsimp only
              rw [if_neg (not_not.2 hd)]
              have hend : (char (List.drop 1 (d :: c :: cs)) 0 = 0x2d ∧ char (List.drop 1 (d :: c :: cs)) 1 = 0) ↔
                  c = dash ∧ cs = [] :=
                and_congr Iff.rfl (char_zero fun b hb => hcs b (List.mem_cons_of_mem _ hb))
              by_cases h2 : c = dash ∧ cs = []
              · rw [if_pos (hend.2 h2), if_pos h2]
                exact ⟨_, rfl, Rep.stop (Array.shift (a := { a with argvalue := none, curarg := some [] }) harray) hplain'⟩
              · rw [if_neg (fun h0 => h2 (hend.1 h0)), if_neg h2]
                exact ⟨_, rfl, Rep.take (Array.shift (a := { a with argvalue := none, curarg := some [] }) harray) hplain' hcs⟩
            · rw [if_pos (Or.inl (show char (d :: c :: cs) 0 ≠ 0x2d from hd))]
              dsimp only
              rw [if_pos hd]
              exact ⟨_, rfl, Rep.stop harray hplain⟩
  · cases hr
    unfold argnext
    dsimp only
    rw [hcur]
    exact ⟨_, rfl, harray, nofun, nofun, rfl, Or.inl rfl⟩

theorem Rep.nextvalue (h : Rep a name r) :
    (argnextvalue a).1 = r.nextvalue.1 ∧ Rep (argnextvalue a).2 name r.nextvalue.2 := by
  obtain ⟨args, group, value⟩ := r
  obtain ⟨harray, hplain, hgroup, hvalue, hcur⟩ := h
  dsimp only at harray hplain hgroup hvalue
  rcases hcur with hcur | ⟨hcur, hr⟩
  · dsimp only at hcur
    unfold argnextvalue Parser.nextvalue
    rw [hcur]
    cases group with
    | none => exact ⟨rfl, harray, hplain, nofun, hvalue, Or.inl hcur⟩
    | some group =>
      cases group with
      | cons c cs =>
        have hcs : Plain (c :: cs) := hgroup _ rfl
        dsimp only
        rw [if_pos (fun h0 => List.cons_ne_nil _ _ ((char_zero hcs).1 h0))]
        refine ⟨rfl, harray, hplain, fun s hs => ?_, rfl, Or.inl rfl⟩
        obtain rfl := Option.some.inj hs
        exact nofun
      | nil =>
        dsimp only
        rw [if_neg (not_not.2 (by rfl))]
        cases args with
        | nil =>
          have hargc : a.argc = 1 := harray.count
          rw [if_neg (by omega)]
          exact ⟨rfl, harray, nofun, nofun, rfl, Or.inl rfl⟩
        | cons arg args =>
          have hargc := harray.count
          rw [List.length_cons] at hargc
          rw [if_pos (by omega), harray.first]
          refine ⟨rfl, harray.shift, fun s hs => hplain s (List.mem_cons_of_mem _ hs), fun s hs => ?_, rfl,
            Or.inl rfl⟩
          obtain rfl := Option.some.inj hs
          exact nofun
  · cases hr
    unfold argnextvalue
    rw [hcur]
    exact ⟨rfl, harray, nofun, nofun, hvalue, Or.inl hcur⟩

theorem Rep.getvalue (h : Rep a name r) : (argvalue a).1 = r.getvalue.1 ∧ Rep (argvalue a).2 name r.getvalue.2 := by
  unfold argvalue Parser.getvalue
  rw [h.value]
  cases hv : r.value with
  | none => exact h.nextvalue
  | some v => exact ⟨rfl, h⟩

/-- **One call.** -/
theorem Rep.call (h : Rep a name r) (op : Op) :
    ∃ a', a.call op = some ((r.call op).1, a') ∧ Rep a' name (r.call op).2 := by
  cases op with
  | next =>
    obtain ⟨a', h1, h2⟩ := h.next
    refine ⟨a', ?_, h2⟩
    unfold Argstate.call
    dsimp only
    rw [h1]
    rfl
  | value =>
    obtain ⟨h1, h2⟩ := h.getvalue
    refine ⟨_, ?_, h2⟩
    unfold Argstate.call Parser.call
    dsimp only
    rw [h1]
  | nextvalue =>
    obtain ⟨h1, h2⟩ := h.nextvalue
    refine ⟨_, ?_, h2⟩
    unfold Argstate.call Parser.call
    dsimp only
    rw [h1]

/-! ## Calls in any order -/

theorem Rep.calls (h : Rep a name r) (ops : List Op) :
    ∃ a', a.calls ops = some ((r.calls ops).1, a') ∧ Rep a' name (r.calls ops).2 := by
  induction ops generalizing a r with
  | nil => exact ⟨a, rfl, h⟩
  | cons op ops ih =>
    obtain ⟨a₁, h1, h2⟩ := h.call op
    obtain ⟨a', h3, h4⟩ := ih h2
    refine ⟨a', ?_, h4⟩
    unfold Argstate.calls
    rw [h1]
    dsimp only [Option.bind_eq_bind, Option.bind_some]
    rw [h3]
    rfl

/-- What a program was started with: `argc` strings and a 0. -/
structure Started (argc : ℕ) (argv : ℕ → Str) (name : List Byte) (args : List (List Byte)) : Prop where
  array : Array argc argv name args
  plain : ∀ s ∈ args, Plain s

/-- **The calls parse the arguments** as specified, in any order: the results are those of the parser, the array
has what it has left, `argv[0]` is kept, and `argv[argc]` is 0. -/
theorem calls_parse (h : Started argc argv name args) (ops : List Op) :
    ∃ a, (argstart argc argv).calls ops = some ((Parser.calls ⟨args, some [], none⟩ ops).1, a) ∧
      Array a.argc a.argv name (Parser.calls ⟨args, some [], none⟩ ops).2.args := by
  have hstart : Rep (argstart argc argv) name ⟨args, some [], none⟩ := by
    refine ⟨h.array, h.plain, fun s hs => ?_, rfl, ?_⟩
    · obtain rfl := Option.some.inj hs
      exact nofun
    · have hargc : argc = 1 + args.length := h.array.count
      cases args with
      | nil =>
        refine Or.inr ⟨?_, rfl⟩
        rw [List.length_nil] at hargc
        exact if_neg (by omega)
      | cons s args =>
        rw [List.length_cons] at hargc
        exact Or.inl (if_pos (by omega))
  obtain ⟨a, h1, h2⟩ := hstart.calls ops
  exact ⟨a, h1, h2.array⟩

/-- `sh -i foo`. -/
def shArgv (i : ℕ) : Str := [[0x73, 0x68], [0x2d, 0x69], [0x66, 0x6f, 0x6f]][i]?

theorem started_sh : Started 3 shArgv [0x73, 0x68] [[0x2d, 0x69], [0x66, 0x6f, 0x6f]] :=
  ⟨⟨rfl, rfl, by decide, rfl⟩, by unfold Plain; decide⟩

theorem calls_parse_sh : ∃ a, (argstart 3 shArgv).calls [.next, .value] =
    some ((Parser.calls ⟨[[0x2d, 0x69], [0x66, 0x6f, 0x6f]], some [], none⟩ [.next, .value]).1, a) ∧
      Array a.argc a.argv [0x73, 0x68]
        (Parser.calls ⟨[[0x2d, 0x69], [0x66, 0x6f, 0x6f]], some [], none⟩ [.next, .value]).2.args :=
  calls_parse started_sh [.next, .value]

end Jos.Args
