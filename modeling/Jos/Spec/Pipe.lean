import Jos.Lib.Bytes

/-!
# Pipes

`devpipe_read` and `devpipe_write` of `lib/pipe.c`, one access to the shared page at a time.
The `struct Pipe` is at `p`: `p_rpos`, `p_wpos` and the `PIPEBUFSIZ` = 32 bytes of `p_buf`.
The positions are of type `off_t`, and the `size_t` in the test of `devpipe_write` converts
them to 64 bits.

What `_pipeisclosed` returns is an input of the step, as are the arguments of the calls.
-/

namespace Jos.Pipe

open Lib

/-- `pos % PIPEBUFSIZ`. -/
def index (pos : BitVec 32) : ℤ := pos.toInt.tmod 32

/-- `&p->p_buf[pos % PIPEBUFSIZ]`. -/
def bufAt (p : ℕ) (pos : BitVec 32) : ℕ := ((p + 8 : ℕ) + index pos).toNat

/-- `p->p_wpos >= p->p_rpos + sizeof(p->p_buf)`. -/
def isFull (wpos rpos : BitVec 32) : Bool := decide (rpos.signExtend 64 + 32#64 ≤ wpos.signExtend 64)

/-- Where `devpipe_read` is: `n` bytes are asked for, and `buf` has been read. -/
inductive Reader
  /-- outside; the last call returned `ret` -/
  | idle (ret : ℕ)
  /-- at the test of the loops -/
  | test (n : ℕ) (buf : List Byte)
  /-- `p_rpos` is loaded for the test -/
  | compare (n : ℕ) (buf : List Byte) (rpos : BitVec 32)
  /-- in the loop over an empty pipe -/
  | wait (n : ℕ) (buf : List Byte)
  /-- there is a byte -/
  | take (n : ℕ) (buf : List Byte)
  /-- `p_rpos` is loaded for the index -/
  | load (n : ℕ) (buf : List Byte) (rpos : BitVec 32)
  /-- the byte is taken -/
  | taken (n : ℕ) (buf : List Byte)
  /-- `p_rpos` is loaded for the increment -/
  | bump (n : ℕ) (buf : List Byte) (rpos : BitVec 32)

/-- Where `devpipe_write` is: `i` bytes are written, and `buf` is left, after `b`. -/
inductive Writer
  | idle (ret : ℕ)
  | test (buf : List Byte) (i : ℕ)
  /-- `p_wpos` is loaded for the test -/
  | compare (b : Byte) (buf : List Byte) (i : ℕ) (wpos : BitVec 32)
  /-- in the loop over a full pipe -/
  | wait (b : Byte) (buf : List Byte) (i : ℕ)
  /-- there is room for `b` -/
  | put (b : Byte) (buf : List Byte) (i : ℕ)
  /-- `p_wpos` is loaded for the index -/
  | store (b : Byte) (buf : List Byte) (i : ℕ) (wpos : BitVec 32)
  /-- `b` is stored -/
  | stored (b : Byte) (buf : List Byte) (i : ℕ)
  /-- `p_wpos` is loaded for the increment -/
  | bump (b : Byte) (buf : List Byte) (i : ℕ) (wpos : BitVec 32)

/-- The page, the two programs, and what has happened: the bytes whose positions
`devpipe_write` has passed, how many of them `devpipe_read` has passed, and the bytes that
its calls have returned. -/
structure State where
  mem : Bytes
  reader : Reader
  writer : Writer
  accepted : List Byte
  taken : ℕ
  returned : List Byte

/-- One step of the reader: `ask` bytes are asked for if a call begins. -/
def readerStep (p ask : ℕ) (closed : Bool) (s : State) : State :=
  match s.reader with
  | .idle _ => { s with reader := .test ask [] }
  | .test n buf =>
    if buf.length < n then { s with reader := .compare n buf (s.mem.load32 p) }
    else { s with reader := .idle buf.length, returned := s.returned ++ buf }
  | .compare n buf rpos =>
    if rpos = s.mem.load32 (p + 4) then { s with reader := .wait n buf }
    else { s with reader := .take n buf }
  | .wait n buf =>
    if 0 < buf.length then { s with reader := .idle buf.length, returned := s.returned ++ buf }
    else if closed then { s with reader := .idle 0 }
    else { s with reader := .test n buf }
  | .take n buf => { s with reader := .load n buf (s.mem.load32 p) }
  | .load n buf rpos => { s with reader := .taken n (buf ++ [s.mem.byte (bufAt p rpos)]) }
  | .taken n buf => { s with reader := .bump n buf (s.mem.load32 p) }
  | .bump n buf rpos =>
    { s with mem := s.mem.store32 p (rpos + 1), reader := .test n buf, taken := s.taken + 1 }

/-- One step of the writer: `data` is given if a call begins. -/
def writerStep (p : ℕ) (data : List Byte) (closed : Bool) (s : State) : State :=
  match s.writer with
  | .idle _ => { s with writer := .test data 0 }
  | .test [] i => { s with writer := .idle i }
  | .test (b :: buf) i => { s with writer := .compare b buf i (s.mem.load32 (p + 4)) }
  | .compare b buf i wpos =>
    if isFull wpos (s.mem.load32 p) then { s with writer := .wait b buf i }
    else { s with writer := .put b buf i }
  | .wait b buf i =>
    if closed then { s with writer := .idle 0 } else { s with writer := .test (b :: buf) i }
  | .put b buf i => { s with writer := .store b buf i (s.mem.load32 (p + 4)) }
  | .store b buf i wpos =>
    { s with mem := s.mem.write (bufAt p wpos) [b], writer := .stored b buf i }
  | .stored b buf i => { s with writer := .bump b buf i (s.mem.load32 (p + 4)) }
  | .bump b buf i wpos =>
    { s with
      mem := s.mem.store32 (p + 4) (wpos + 1), writer := .test buf (i + 1), accepted := s.accepted ++ [b] }

/-- A step of either program; a step of the writer needs the condition `C`. -/
inductive Step (p : ℕ) (C : State → Prop) : State → State → Prop
  | reader {s : State} (ask : ℕ) (closed : Bool) : Step p C s (readerStep p ask closed s)
  | writer {s : State} (data : List Byte) (closed : Bool) : C s → Step p C s (writerStep p data closed s)

/-- Any interleaving. -/
abbrev Run (p : ℕ) (C : State → Prop) : State → State → Prop := Relation.ReflTransGen (Step p C)

/-- After `pipe`, the page is clear. -/
def initial : State := ⟨⟨fun _ => 0⟩, .idle 0, .idle 0, [], 0, []⟩

/-- The bytes that are accepted and not yet taken. -/
def State.outstanding (s : State) : ℤ := (s.accepted.length : ℤ) - s.taken

/-- The indices at which the next step of either program accesses `p_buf`. -/
def State.accesses (s : State) : List ℤ :=
  (match s.reader with
    | .load _ _ rpos => [index rpos]
    | _ => []) ++
  match s.writer with
    | .store _ _ _ wpos => [index wpos]
    | _ => []

/-- The writer is about to be held back. -/
def State.heldBack (p : ℕ) (s : State) : Prop :=
  ∃ b buf i wpos, s.writer = .compare b buf i wpos ∧ isFull wpos (s.mem.load32 p) = true

/-- **A bounded FIFO**: what is read is a prefix of what was written, at most 32 bytes
are outstanding, the buffer is not left, and the writer waits only if it is full. -/
structure Fifo (p : ℕ) (s : State) : Prop where
  order : s.returned <+: s.accepted
  bound : 0 ≤ s.outstanding ∧ s.outstanding ≤ 32
  inside : ∀ i ∈ s.accesses, 0 ≤ i ∧ i < 32
  held : s.heldBack p → s.outstanding = 32

end Jos.Pipe
