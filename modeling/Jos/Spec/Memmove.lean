import Jos.Lib.Movs

/-!
# Moving memory

`memmove` of `lib/string.c`, as it is compiled for the processor: a string instruction in one of four forms.
-/

namespace Jos.Memmove

open Lib Movs

/-- `(int64_t)s%4 == 0 && (int64_t)d%4 == 0 && n%4 == 0`. -/
def byWord (d s n : BitVec 64) : Bool := s.srem 4 = 0 && d.srem 4 = 0 && n % 4 = 0

/-- `std` or `cld`, and `rep movs` with the registers set. -/
def asm (w : ℕ) (df : Bool) (d s n : BitVec 64) (c : Machine) : Machine :=
  rep w { c with df := df, rdi := d, rsi := s, rcx := n }

/-- **`memmove(dst, src, n)`**: the result, and what is left in the memory and the registers. -/
def memmove (dst src n : BitVec 64) (c : Machine) : BitVec 64 × Machine :=
  let s := src
  let d := dst
  if s < d ∧ s + n > d then
    let s := s + n
    let d := d + n
    let c := if byWord d s n then asm 4 true (d - 4) (s - 4) (n / 4) c else asm 1 true (d - 1) (s - 1) n c
    (dst, { c with df := false })
  else
    let c := if byWord d s n then asm 4 false d s (n / 4) c else asm 1 false d s n c
    (dst, c)

end Jos.Memmove
