import Jos.Lib.Text

/-!
# Reading a line

`readline` of `lib/readline.c`, for the results of `getchar`.
-/

namespace Jos.Readline

open Lib

/-- `BUFLEN`. -/
def buflen : ℕ := 1024

/-- The local variables, `buf`, and what was sent to `cputchar`. The offsets of `buf` that were stored to are
there for the statements. -/
structure State where
  buf : Bytes
  i : ℕ
  echo : List ℤ
  stores : List ℕ

inductive Result
  /-- waits for the next character -/
  | waiting (s : State)
  /-- `NULL` -/
  | null
  /-- `buf` -/
  | line (s : State)

/-- `cputchar(c)`, if `echoing`. -/
def State.putc (s : State) (echoing : Bool) (c : ℤ) : State :=
  if echoing then { s with echo := s.echo ++ [c] } else s

/-- `buf[s.i] = c`. -/
def State.store (s : State) (c : ℤ) : State :=
  { s with buf := s.buf.write s.i [BitVec.ofInt 8 c], stores := s.stores ++ [s.i] }

/-- The loop of `readline`, for the results of `getchar`. -/
def readline (echoing : Bool) (s : State) : List ℤ → Result
  | [] => .waiting s
  | c :: cs =>
    if c < 0 then .null
    else if (c = 8 ∨ c = 0x7f) ∧ s.i > 0 then
      let s := s.putc echoing 8
      readline echoing { s with i := s.i - 1 } cs
    else if c ≥ 32 ∧ s.i < buflen - 1 then
      let s := (s.putc echoing c).store c
      readline echoing { s with i := s.i + 1 } cs
    else if c = 10 ∨ c = 13 then .line ((s.putc echoing 10).store 0)
    else readline echoing s cs

end Jos.Readline
