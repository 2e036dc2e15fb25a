import Jos.Spec.Printf

/-!
# Reading numbers

`strtol` of `lib/string.c`. A pointer into the text is what is left of the text from there on, and a read behind its
end has no result. A `char` is signed.
-/

namespace Jos.Printf

open Lib

/-- `*s >= lo && *s <= hi`. -/
def between (lo hi c : Byte) : Bool := !c.slt lo && !hi.slt c

/-- `while (*s == ' ' || *s == '\t')`. -/
def gobble : List Byte → Option (List Byte)
  | [] => none
  | c :: s => if c = ascii ' ' ∨ c = ascii '\t' then gobble s else some (c :: s)

/-- The sign: `neg`, and what is behind it. -/
def sign (s : List Byte) : Option (Bool × List Byte) := do
  let c ← s[0]?
  if c = ascii '+' then some (false, s.drop 1)
  else if c = ascii '-' then some (true, s.drop 1)
  else some (false, s)

/-- `(base == 0 || base == 16) && (s[0] == '0' && s[1] == 'x')`. -/
def isHex (base : BitVec 32) (s : List Byte) : Option Bool :=
  if base = 0 ∨ base = 16 then do
    let c ← s[0]?
    if c = ascii '0' then do
      let x ← s[1]?
      some (decide (x = ascii 'x'))
    else some false
  else some false

/-- The prefix: the base, and what is behind it. -/
def basePrefix (base : BitVec 32) (s : List Byte) : Option (BitVec 32 × List Byte) := do
  let hex ← isHex base s
  if hex then some (16, s.drop 2)
  else if base = 0 then do
    let c ← s[0]?
    if c = ascii '0' then some (8, s.drop 1) else some (10, s)
  else some (base, s)

/-- `dig`, if `*s` is a digit or a letter. -/
def dig (c : Byte) : Option (BitVec 32) :=
  if between (ascii '0') (ascii '9') c then some (c.signExtend 32 - (ascii '0').signExtend 32)
  else if between (ascii 'a') (ascii 'z') c then some (c.signExtend 32 - (ascii 'a').signExtend 32 + 10)
  else if between (ascii 'A') (ascii 'Z') c then some (c.signExtend 32 - (ascii 'A').signExtend 32 + 10)
  else none

/-- The loop over the digits. -/
def digitLoop (base : BitVec 32) : List Byte → BitVec 64 → Option (BitVec 64 × List Byte)
  | [], _ => none
  | c :: s, val =>
    match dig c with
    | none => some (val, c :: s)
    | some dig =>
      if base.sle dig then some (val, c :: s)
      else digitLoop base s (val * base.signExtend 64 + dig.signExtend 64)

/-- **`strtol(s, endptr, base)`**: the result, and `*endptr`. -/
def strtol (s : List Byte) (base : BitVec 32) : Option (BitVec 64 × List Byte) := do
  let s ← gobble s
  let (neg, s) ← sign s
  let (base, s) ← basePrefix base s
  let (val, s) ← digitLoop base s 0
  some (if neg then -val else val, s)

end Jos.Printf
