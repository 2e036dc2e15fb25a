import Jos.Lib.Text

/-!
# Formatted output

`vprintfmt` of `lib/printfmt.c`, with `printnum` and `strnlen`, and the four functions that print with it:
`vcprintf` of the kernel (`kern/printf.c`) and of processes (`lib/printf.c`), `vfprintf` (`lib/fprintf.c`) and
`vsnprintf`.

`putch` returns nothing, so that `vprintfmt` is given by the characters it calls `putch` for. An access outside
of the format has no result. A counter goes down to 0 in each loop over the format, which is as long as that.
-/

namespace Jos.Printf

open Lib

/-- The code of a character. -/
def ascii (c : Char) : Byte := BitVec.ofNat 8 c.toNat

/-- The bytes of a string literal. -/
def text (s : String) : List Byte := s.toList.map ascii

/-- The arguments: the words that `va_arg` takes, in this order, and the strings that they may point to. -/
structure VaList where
  word : ℕ → BitVec 64
  str : BitVec 64 → List Byte

/-- `va_arg(aq, int)` number `ap`. -/
def VaList.int (va : VaList) (ap : ℕ) : BitVec 32 := (va.word ap).setWidth 32

/-! ## Numbers -/

/-- A base of numbers. -/
abbrev Base := { b : ℕ // 1 < b }

def ten : Base := ⟨10, by decide⟩

def sixteen : Base := ⟨16, by decide⟩

/-- `"0123456789abcdef"[d]`. -/
def digit (d : ℕ) : Byte := (text "0123456789abcdef").getD d 0

/-- `while (width > 0)` with `width--` and `putch(c, putdat)`. -/
def pad (width : BitVec 32) (c : Byte) : List (BitVec 32) := List.replicate width.toInt.toNat (c.setWidth 32)

/-- `printnum(putch, putdat, num, base, width, padc)`. -/
def printnum (num : ℕ) (base : Base) (width : BitVec 32) (padc : Byte) : List (BitVec 32) :=
  (if num ≥ base then printnum (num / base) base (width - 1) padc else pad (width - 1) padc) ++
    [(digit (num % base)).setWidth 32]
termination_by num
decreasing_by
  have hb : 1 < (base : ℕ) := base.2
  exact Nat.div_lt_self (by omega) hb

/-! ## Strings -/

/-- `strnlen(s, size)`. -/
def strnlen (s : List Byte) (size : BitVec 64) : BitVec 32 := BitVec.ofNat 32 (min s.length size.toNat)

/-- The loop of `%s` over the string. -/
def putStr (altflag : Bool) : List Byte → BitVec 32 → BitVec 32 → List (BitVec 32) × BitVec 32
  | [], _, width => ([], width)
  | ch :: p, precision, width =>
    let c : BitVec 32 := if altflag && (ch.slt (ascii ' ') || (ascii '~').slt ch) then (ascii '?').setWidth 32
      else ch.signExtend 32
    if precision.slt 0 then
      let (cs, width) := putStr altflag p precision (width - 1)
      (c :: cs, width)
    else if (precision - 1).slt 0 then ([], width)
    else
      let (cs, width) := putStr altflag p (precision - 1) (width - 1)
      (c :: cs, width)

/-- `%s`. -/
def string (s : List Byte) (padc : Byte) (width precision : BitVec 32) (altflag : Bool) : List (BitVec 32) :=
  let padded := (0 : BitVec 32).slt width && padc ≠ ascii '-'
  let width₁ := if padded then width - strnlen s (precision.signExtend 64) else width
  let before := if padded then pad width₁ padc else []
  let width₁ := if padded && (0 : BitVec 32).slt width₁ then 0 else width₁
  let (cs, width₂) := putStr altflag s precision width₁
  before ++ cs ++ pad width₂ (ascii ' ')

/-! ## Formats -/

/-- `fmt[i]`, for `i` up to that of the 0. -/
def fetch (fmt : List Byte) (i : ℕ) : Option Byte := (fmt ++ [0])[i]?

/-- The variables of an escape sequence, with the place in the format and in the arguments. `lflag` is only
counted. -/
structure Esc where
  padc : Byte
  width : BitVec 32
  precision : BitVec 32
  altflag : Bool
  pos : ℕ
  ap : ℕ

/-- The loop over the digits of a width. -/
def digits (fmt : List Byte) : ℕ → BitVec 32 → Byte → ℕ → Option (BitVec 32 × ℕ)
  | 0, _, _, _ => none
  | n + 1, precision, ch, pos => do
    let precision := precision * 10 + ch.signExtend 32 - (ascii '0').setWidth 32
    let ch ← fetch fmt pos
    if ch.slt (ascii '0') || (ascii '9').slt ch then some (precision, pos)
    else digits fmt n precision ch (pos + 1)

/-- `process_precision`. -/
def Esc.processPrecision (e : Esc) : Esc :=
  if e.width.slt 0 then { e with width := e.precision, precision := -1 } else e

/-- From `reswitch` on: the conversion character, and the variables behind it. -/
def reswitch (fmt : List Byte) (va : VaList) : ℕ → Esc → Option (Byte × Esc)
  | 0, _ => none
  | n + 1, e => do
    let ch ← fetch fmt e.pos
    let e := { e with pos := e.pos + 1 }
    if ch = ascii '-' then reswitch fmt va n { e with padc := ascii '-' }
    else if ch = ascii '0' then reswitch fmt va n { e with padc := ascii '0' }
    else if ascii '1' ≤ ch ∧ ch ≤ ascii '9' then do
      let (precision, pos) ← digits fmt (fmt.length + 1) 0 ch e.pos
      reswitch fmt va n { e with precision := precision, pos := pos }.processPrecision
    else if ch = ascii '*' then
      reswitch fmt va n { e with precision := va.int e.ap, ap := e.ap + 1 }.processPrecision
    else if ch = ascii '.' then reswitch fmt va n (if e.width.slt 0 then { e with width := 0 } else e)
    else if ch = ascii '#' then reswitch fmt va n { e with altflag := true }
    else if ch = ascii 'l' then reswitch fmt va n e
    else some (ch, e)

/-- `for (; fmt[-1] != '%'; fmt--)`: where it ends. -/
def back (fmt : List Byte) : ℕ → Option ℕ
  | 0 => none
  | p + 1 => do
    let ch ← fetch fmt p
    if ch = ascii '%' then some (p + 1) else back fmt p

/-- A signed number: `num`, and whether a `-` comes before it. -/
def getint (w : BitVec 64) : Bool × ℕ := if w.slt 0 then (true, (-w).toNat) else (false, w.toNat)

/-- The conversions but `%e`: the characters, and the place in the format and in the arguments behind them. -/
def convert (fmt : List Byte) (va : VaList) (ch : Byte) (e : Esc) : Option (List (BitVec 32) × ℕ × ℕ) :=
  if ch = ascii 'c' then some ([va.int e.ap], e.pos, e.ap + 1)
  else if ch = ascii 's' then
    let p := va.word e.ap
    let s := if p = 0 then text "(null)" else va.str p
    some (string s e.padc e.width e.precision e.altflag, e.pos, e.ap + 1)
  else if ch = ascii 'd' then
    let (neg, num) := getint (va.word e.ap)
    let sign : List (BitVec 32) := if neg then [(ascii '-').setWidth 32] else []
    some (sign ++ printnum num ten e.width e.padc, e.pos, e.ap + 1)
  else if ch = ascii 'u' then some (printnum (va.word e.ap).toNat ten e.width e.padc, e.pos, e.ap + 1)
  else if ch = ascii 'o' then some ((text "XXX").map (·.setWidth 32), e.pos, e.ap)
  else if ch = ascii 'p' then
    some ((text "0x").map (·.setWidth 32) ++ printnum (va.word e.ap).toNat sixteen e.width e.padc, e.pos, e.ap + 1)
  else if ch = ascii 'x' then some (printnum (va.word e.ap).toNat sixteen e.width e.padc, e.pos, e.ap + 1)
  else if ch = ascii '%' then some ([(ascii '%').setWidth 32], e.pos, e.ap)
  else do
    let pos ← back fmt (e.pos - 1)
    some ([(ascii '%').setWidth 32], pos, e.ap)

/-- The loop of `vprintfmt`; `error` is `%e`. -/
def loop (error : BitVec 32 → Option (List (BitVec 32))) (fmt : List Byte) (va : VaList) :
    ℕ → ℕ → ℕ → Option (List (BitVec 32))
  | 0, _, _ => none
  | n + 1, pos, ap => do
    let ch ← fetch fmt pos
    if ch ≠ ascii '%' then
      if ch = 0 then some []
      else do
        let cs ← loop error fmt va n (pos + 1) ap
        some (ch.setWidth 32 :: cs)
    else do
      let (ch, e) ← reswitch fmt va (fmt.length + 2) ⟨ascii ' ', -1, -1, false, pos + 1, ap⟩
      if ch = ascii 'e' then do
        let err ← error (va.int e.ap)
        let cs ← loop error fmt va n e.pos (e.ap + 1)
        some (err ++ cs)
      else do
        let (out, pos, ap) ← convert fmt va ch e
        let cs ← loop error fmt va n pos ap
        some (out ++ cs)

/-- `error_string`. -/
def errorString : List (Option String) :=
  [none, some "unspecified error", some "bad environment", some "invalid parameter", some "out of memory",
    some "out of environments", some "segmentation fault", none, some "env is not recving",
    some "unexpected end of file", some "no free space on disk", some "too many files are open",
    some "file or block not found", some "invalid path", some "file already exists",
    some "file is not a valid executable", some "operation not supported", none, none, none, none, none]

/-- `%e`. The formats of its two calls of `printfmt` have no `%e`. Their argument is passed in a register whose
upper half is 0. -/
def error (err : BitVec 32) : Option (List (BitVec 32)) :=
  let err := if err.slt 0 then -err else err
  let printfmt (fmt : String) (va : VaList) := loop (fun _ => none) (text fmt) va ((text fmt).length + 2) 0 0
  -- the least number is its own negative, with which the access is outside of the table
  if err.slt 0 then none
  else match errorString[err.toNat]? with
    | some (some p) => printfmt "%s" ⟨fun _ => 1, fun _ => text p⟩
    | _ => printfmt "error %d" ⟨fun _ => err.setWidth 64, fun _ => []⟩

/-- **`vprintfmt`**: the characters that it calls `putch` for. -/
def vprintfmt (fmt : List Byte) (va : VaList) : Option (List (BitVec 32)) := loop error fmt va (fmt.length + 2) 0 0

/-! ## The console, from the kernel -/

/-- The console, and `*cnt`. -/
structure Kernel where
  console : List Byte
  cnt : BitVec 32

/-- `putch(ch, cnt)` of the kernel. `*cnt++` moves the pointer, which is a local variable. -/
def Kernel.putch (k : Kernel) (ch : BitVec 32) : Kernel := { k with console := k.console ++ [ch.setWidth 8] }

/-- `vcprintf(fmt, ap)` of the kernel. -/
def Kernel.vcprintf (console : List Byte) (fmt : List Byte) (va : VaList) : Option (List Byte × BitVec 32) := do
  let out ← vprintfmt fmt va
  let k := out.foldl Kernel.putch ⟨console, 0⟩
  some (k.console, k.cnt)

/-! ## The console, from a process -/

/-- `sys_cputs(s, len)`, for a buffer with the bytes `bs` and `rest` behind them. -/
def sysCputs (console : List Byte) (bs rest : List Byte) : Option (List Byte) := do
  let va : VaList := {
    word := fun i => if i = 0 then BitVec.ofNat 64 bs.length else 1
    str := fun _ => (bs ++ rest).takeWhile (· ≠ 0) }
  let (console, _) ← Kernel.vcprintf console (text "%.*s") va
  some console

/-- `struct printbuf` of `lib/printf.c`, with its first `idx` bytes, and the console. -/
structure User where
  console : List Byte
  buf : List Byte
  cnt : BitVec 32

/-- `putch(ch, b)` of `lib/printf.c`; `rest` is what is in the buffer behind the characters. -/
def User.putch (rest : List Byte) (b : User) (ch : BitVec 32) : Option User := do
  let b := { b with buf := b.buf ++ [ch.setWidth 8] }
  let b ← if b.buf.length = 256 - 1 then do
      let console ← sysCputs b.console b.buf rest
      some { b with console := console, buf := [] }
    else some b
  some { b with cnt := b.cnt + 1 }

/-- `vcprintf(fmt, ap)` of `lib/printf.c`. -/
def User.vcprintf (rest : List Byte) (console : List Byte) (fmt : List Byte) (va : VaList) :
    Option (List Byte × BitVec 32) := do
  let out ← vprintfmt fmt va
  let b ← out.foldlM (User.putch rest) ⟨console, [], 0⟩
  let console ← sysCputs b.console b.buf rest
  some (console, b.cnt)

/-! ## A descriptor -/

/-- `struct printbuf` of `lib/fprintf.c`, with its first `idx` bytes, and what the device was given. -/
structure File where
  written : List Byte
  buf : List Byte
  result : BitVec 64
  error : BitVec 32

/-- `writebuf(b)`, for a device whose `write` returns `dev`. -/
def File.writebuf (dev : List Byte → BitVec 64) (b : File) : File :=
  if (0 : BitVec 32).slt b.error then
    let result := dev b.buf
    let b := { b with written := b.written ++ b.buf.take result.toInt.toNat }
    let b := if (0 : BitVec 64).slt result then { b with result := b.result + result } else b
    if result ≠ BitVec.ofNat 64 b.buf.length then
      { b with error := if result.slt 0 then result.setWidth 32 else 0 }
    else b
  else b

/-- `putch(ch, thunk)` of `lib/fprintf.c`. -/
def File.putch (dev : List Byte → BitVec 64) (b : File) (ch : BitVec 32) : File :=
  let b := { b with buf := b.buf ++ [ch.setWidth 8] }
  if b.buf.length = 256 then { b.writebuf dev with buf := [] } else b

/-- `vfprintf(fd, fmt, ap)`: what the device was given, and the result. -/
def File.vfprintf (dev : List Byte → BitVec 64) (fmt : List Byte) (va : VaList) : Option (List Byte × BitVec 32) := do
  let out ← vprintfmt fmt va
  let b := out.foldl (File.putch dev) ⟨[], [], 0, 1⟩
  let b := if b.buf.length > 0 then b.writebuf dev else b
  some (b.written, if b.result ≠ 0 then b.result.setWidth 32 else b.error)

/-! ## A buffer -/

/-- `struct sprintbuf`: the bytes from `buf` to `ebuf` that are left, and the memory, in which `buf` is an address. -/
structure Sprint where
  mem : Bytes
  buf : ℕ
  ebuf : ℕ
  cnt : BitVec 32

/-- `sprintputch(ch, b)`. -/
def Sprint.putch (b : Sprint) (ch : BitVec 32) : Sprint :=
  let b := { b with cnt := b.cnt + 1 }
  if b.buf < b.ebuf then { b with mem := b.mem.write b.buf [ch.setWidth 8], buf := b.buf + 1 } else b

/-- `vsnprintf(buf, n, fmt, ap)`: the memory and the result. -/
def Sprint.vsnprintf (mem : Bytes) (buf : ℕ) (n : BitVec 32) (fmt : List Byte) (va : VaList) :
    Option (Bytes × BitVec 32) :=
  if buf = 0 ∨ n.slt 1 then some (mem, -3)
  else do
    let out ← vprintfmt fmt va
    let b := out.foldl Sprint.putch ⟨mem, buf, buf + n.toNat - 1, 0⟩
    some (b.mem.write b.buf [0], b.cnt)

end Jos.Printf
