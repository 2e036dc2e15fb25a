import Jos.Lib.Bytes

/-!
# Command-line arguments

`argstart`, `argnext`, `argvalue` and `argnextvalue` of `lib/args.c`. The strings are not changed; a pointer to a
place in one is the rest of the string from there on, without its 0, and `none` is 0. A call that follows such a
pointer has no result.
-/

namespace Jos.Args

open Lib

/-- A pointer into a string. -/
abbrev Str := Option (List Byte)

/-- `s[i]`. -/
def char (s : List Byte) (i : ℕ) : Byte := s.getD i 0

/-- `struct Argstate`, with `argc` and the array `argv`. -/
structure Argstate where
  argc : ℕ
  argv : ℕ → Str
  curarg : Str
  argvalue : Str

/-- `argstart(argc, argv, args)`. -/
def argstart (argc : ℕ) (argv : ℕ → Str) : Argstate :=
  ⟨argc, argv, if argc > 1 then some [] else none, none⟩

/-- `memmove(args->argv + 1, args->argv + 2, sizeof(const char *) * (*args->argc - 1))` and `(*args->argc)--`. -/
def Argstate.shift (a : Argstate) : Argstate :=
  { a with
    argv := fun i => if 1 ≤ i ∧ i < 1 + (a.argc - 1) then a.argv (i + 1) else a.argv i
    argc := a.argc - 1 }

/-- From `endofargs` on. -/
def Argstate.endofargs (a : Argstate) : ℤ × Argstate := (-1, { a with curarg := none })

/-- `arg = (unsigned char) *args->curarg`, `args->curarg++` and `return arg`. -/
def Argstate.flag (a : Argstate) (curarg : List Byte) : ℤ × Argstate :=
  ((char curarg 0).toNat, { a with curarg := some (curarg.drop 1) })

/-- `argnext(args)`. -/
def argnext (a : Argstate) : Option (ℤ × Argstate) :=
  let a := { a with argvalue := none }
  match a.curarg with
  | none => some (-1, a)
  | some curarg =>
    if char curarg 0 = 0 then
      if a.argc = 1 then some a.endofargs
      else do
        let arg ← a.argv 1
        if char arg 0 ≠ 0x2d ∨ char arg 1 = 0 then some a.endofargs
        else
          let curarg := arg.drop 1
          let a := a.shift
          if char curarg 0 = 0x2d ∧ char curarg 1 = 0 then some a.endofargs
          else some (a.flag curarg)
    else some (a.flag curarg)

/-- `argnextvalue(args)`. -/
def argnextvalue (a : Argstate) : Str × Argstate :=
  match a.curarg with
  | none => (none, a)
  | some curarg =>
    if char curarg 0 ≠ 0 then (some curarg, { a with argvalue := some curarg, curarg := some [] })
    else if a.argc > 1 then (a.argv 1, { a with argvalue := a.argv 1 }.shift)
    else (none, { a with argvalue := none, curarg := none })

/-- `argvalue(args)`. -/
def argvalue (a : Argstate) : Str × Argstate :=
  if a.argvalue.isSome then (a.argvalue, a) else argnextvalue a

inductive Op
  | next
  | value
  | nextvalue

/-- What a call returns. -/
inductive Result
  | flag (r : ℤ)
  | value (s : Str)

/-- One call. -/
def Argstate.call (a : Argstate) : Op → Option (Result × Argstate)
  | .next => (argnext a).map fun r => (.flag r.1, r.2)
  | .value => some (.value (Args.argvalue a).1, (Args.argvalue a).2)
  | .nextvalue => some (.value (argnextvalue a).1, (argnextvalue a).2)

/-- Calls in any order. -/
def Argstate.calls (a : Argstate) : List Op → Option (List Result × Argstate)
  | [] => some ([], a)
  | op :: ops => do
    let (r, a) ← a.call op
    let (rs, a) ← a.calls ops
    some (r :: rs, a)

end Jos.Args
