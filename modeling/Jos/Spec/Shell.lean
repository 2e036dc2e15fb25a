import Jos.Lib.Text

/-!
# The shell

`gettoken` and `runcmd` of `user/sh.c`, with `strlen`, `strcpy`, `strcat` and `strchr` of `lib/string.c`. An
array of characters is a memory with the last index that may be accessed; what would access a later one has
no result. The pointers into the command line are its indices, and `none` is 0.
-/

namespace Jos.Shell

open Lib

/-! ## Strings -/

/-- The array of a string literal. -/
def literal (s : List Byte) : Bytes := ⟨fun x => s.getD x 0⟩

/-- `strlen(s)`. -/
def strlen (last : ℕ) (d : Bytes) (s : ℕ) : Option ℕ :=
  if s ≤ last then
    if d.byte s = 0 then some 0 else (strlen last d (s + 1)).map (· + 1)
  else none
termination_by last + 1 - s

/-- `strcpy(d, s)` from the array `src`, whose last index is `last`, to the array `dst`, with the indices that are
stored to. -/
def strcpy (last : ℕ) (src : Bytes) (s : ℕ) (dst : Bytes) (d : ℕ) : Option (Bytes × List ℕ) :=
  if s ≤ last then
    let dst := dst.write d [src.byte s]
    if src.byte s = 0 then some (dst, [d])
    else (strcpy last src (s + 1) dst (d + 1)).map fun r => (r.1, d :: r.2)
  else none
termination_by last + 1 - s

/-- `strcat(dst, s)`, for a `dst` of `dlast + 1` bytes, with the indices that are accessed. -/
def strcat (last : ℕ) (src : Bytes) (s : ℕ) (dlast : ℕ) (dst : Bytes) : Option (Bytes × List ℕ) := do
  let len ← strlen dlast dst 0
  let (dst, stores) ← strcpy last src s dst len
  some (dst, List.range (len + 1) ++ stores)

/-- `strchr(s, c) != 0`. -/
def strchr : List Byte → Byte → Bool
  | [], _ => false
  | b :: s, c => if b = c then true else strchr s c

/-! ## Tokens -/

/-- `WHITESPACE`. -/
def whitespace : List Byte := [0x20, 0x09, 0x0d, 0x0a]

/-- `SYMBOLS`: `<|>&;()`. -/
def symbols : List Byte := [0x3c, 0x7c, 0x3e, 0x26, 0x3b, 0x28, 0x29]

/-- The character `w`. -/
def wordToken : Byte := 0x77

/-- The command line, and the static variables of `gettoken` but `c`, which every call sets first. -/
structure Lexer where
  mem : Bytes
  nc : Byte
  np1 : Option ℕ
  np2 : Option ℕ

/-- `while (strchr(WHITESPACE, *s)) *s++ = 0`, for a line whose last index is `len`. -/
def skip (len : ℕ) (mem : Bytes) (s : ℕ) : Option (Bytes × ℕ) :=
  if s ≤ len then
    if strchr whitespace (mem.byte s) then skip len (mem.write s [0]) (s + 1) else some (mem, s)
  else none
termination_by len + 1 - s

/-- `while (*s && !strchr(WHITESPACE SYMBOLS, *s)) s++`. -/
def wordEnd (len : ℕ) (mem : Bytes) (s : ℕ) : Option ℕ :=
  if s ≤ len then
    if mem.byte s ≠ 0 ∧ !strchr (whitespace ++ symbols) (mem.byte s) then wordEnd len mem (s + 1) else some s
  else none
termination_by len + 1 - s

/-- `nc = _gettoken(s, &np1, &np2)`. What `debug` prints leaves the line as it was. -/
def _gettoken (len : ℕ) (L : Lexer) : Option ℕ → Option Lexer
  | none => some { L with nc := 0 }
  | some s => do
    let (mem, s) ← skip len L.mem s
    if mem.byte s = 0 then some ⟨mem, 0, none, none⟩
    else if strchr symbols (mem.byte s) then some ⟨mem.write s [0], mem.byte s, some s, some (s + 1)⟩
    else do
      let e ← wordEnd len mem s
      some ⟨mem, wordToken, some s, some e⟩

/-- `gettoken(s, 0)`, for a line at index 0. -/
def gettokenStart (len : ℕ) (L : Lexer) : Option Lexer := _gettoken len L (some 0)

/-- `gettoken(0, p1)`: its result, `*p1`, and the variables after it. -/
def gettoken (len : ℕ) (L : Lexer) : Option (Byte × Option ℕ × Lexer) := do
  let L' ← _gettoken len L L.np2
  some (L.nc, L.np1, L')

/-! ## Commands -/

/-- `MAXARGS`. -/
def maxargs : ℕ := 16

/-- `BUFSIZ`. -/
def bufsiz : ℕ := 1024

/-- `PATH`: `/bin/` and `/`. -/
def path : List (List Byte) := [[0x2f, 0x62, 0x69, 0x6e, 0x2f], [0x2f]]

/-- What an entry of `argv` points to. -/
inductive Ptr
  | line (i : ℕ)
  | argv0buf

/-- An element that `runcmd` accesses. -/
inductive Access
  | argv (i : ℕ)
  | argv0buf (i : ℕ)

/-- The result of `fork`. -/
inductive Forked
  | error
  | child
  | parent

/-- What the calls return: whether `open`, `pipe` and `stat` succeed, and what `fork` does; and whether the shell
was started with `-d`. -/
structure Env where
  debug : Bool
  opens : Bool
  pipes : Bool
  forks : Forked
  stat : List Byte → Bool

/-- Where a process is in `runcmd`: before a call of `gettoken` in the loop, at `runit`, before `spawn`, or at a
call of `exit`, a panic or the return. -/
inductive Pc
  | loop
  | runit
  | spawn
  | over

/-- A process in `runcmd`. What it accessed of its arrays is there for the statements. -/
structure Proc where
  lexer : Lexer
  argc : ℕ
  argv : ℕ → Option Ptr
  argv0buf : Bytes
  pc : Pc
  accesses : List Access

/-- One turn of the loop. -/
def parse (len : ℕ) (env : Env) (p : Proc) : Option Proc := do
  let (c, t, L) ← gettoken len p.lexer
  let p := { p with lexer := L }
  if c = wordToken then
    if p.argc = maxargs then some { p with pc := .over }
    else some { p with
      argv := Function.update p.argv p.argc (t.map .line)
      argc := p.argc + 1
      accesses := p.accesses ++ [.argv p.argc] }
  else if c = 0x3c ∨ c = 0x3e then do
    let (c, _, L) ← gettoken len p.lexer
    let p := { p with lexer := L }
    if c ≠ wordToken then some { p with pc := .over }
    else if !env.opens then some { p with pc := .over }
    else some p
  else if c = 0x7c then
    if !env.pipes then some { p with pc := .over }
    else match env.forks with
      | .error => some { p with pc := .over }
      | .child => some { p with argc := 0 }
      | .parent => some { p with pc := .runit }
  else if c = 0 then some { p with pc := .runit }
  else some { p with pc := .over }

/-- The string that `argv[0]` points to: its array, the last index of that, and where it begins. -/
def Proc.argv0 (p : Proc) (len : ℕ) : Option (ℕ × Bytes × ℕ) :=
  (p.argv 0).map fun
    | .line i => (len, p.lexer.mem, i)
    | .argv0buf => (bufsiz - 1, p.argv0buf, 0)

/-- The search for the binary in the paths that are left. -/
def search (len : ℕ) (env : Env) : List (List Byte) → Proc → Option Proc
  | [], p => some p
  | dir :: dirs, p => do
    let (buf, stores) ← strcpy dir.length (literal dir) 0 p.argv0buf 0
    let (last, src, s) ← p.argv0 len
    let (buf, more) ← strcat last src s (bufsiz - 1) buf
    let p := { p with
      argv0buf := buf
      accesses := p.accesses ++ stores.map .argv0buf ++ [.argv 0] ++ more.map .argv0buf }
    if env.stat dir then
      some { p with argv := Function.update p.argv 0 (some .argv0buf), accesses := p.accesses ++ [.argv 0] }
    else search len env dirs p

/-- The initial `/`. -/
def addSlash (len : ℕ) (p : Proc) : Option Proc := do
  let (last, src, s) ← p.argv0 len
  let read : List Access := match p.argv 0 with
    | some .argv0buf => [.argv 0, .argv0buf 0]
    | _ => [.argv 0]
  let p := { p with accesses := p.accesses ++ read }
  if src.byte s ≠ 0x2f then do
    let buf := p.argv0buf.write 0 [0x2f]
    let (buf, stores) ← strcpy last src s buf 1
    some { p with
      argv0buf := buf
      argv := Function.update p.argv 0 (some .argv0buf)
      accesses := p.accesses ++ [.argv0buf 0, .argv 0] ++ stores.map .argv0buf ++ [.argv 0] }
  else some p

/-- From `runit` to `spawn`. The entries before `argv[argc]` are not 0, so that what `debug` prints is all of
them. -/
def runit (len : ℕ) (env : Env) (p : Proc) : Option Proc :=
  if p.argc = 0 then some { p with pc := .over }
  else do
    let p ← search len env path p
    let p ← addSlash len p
    some { p with
      argv := Function.update p.argv p.argc none
      pc := .spawn
      accesses := p.accesses ++ [.argv p.argc] ++
        (if env.debug then (List.range (p.argc + 1)).map .argv else []) ++ [.argv 0] }

/-- **One step** of a process in `runcmd`. -/
inductive Step (len : ℕ) : Proc → Proc → Prop
  | loop {p p' : Proc} (env : Env) : p.pc = .loop → parse len env p = some p' → Step len p p'
  | runit {p p' : Proc} (env : Env) : p.pc = .runit → runit len env p = some p' → Step len p p'

/-- The calls of `runcmd` in one process, or in the children it forks. -/
abbrev Run (len : ℕ) : Proc → Proc → Prop := Relation.ReflTransGen (Step len)

/-- `runcmd` was called for the line `s`, and has called `gettoken(s, 0)`. -/
structure Called (s : List Byte) (p : Proc) : Prop where
  lexer : ∃ L, IsStr L.mem 0 s ∧ gettokenStart s.length L = some p.lexer
  argc : p.argc = 0
  pc : p.pc = .loop
  accesses : p.accesses = []

end Jos.Shell
