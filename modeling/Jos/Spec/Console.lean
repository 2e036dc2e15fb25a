import Jos.Lib.Bytes

/-!
# Console input

The buffer of `kern/console.c`, with `cons_intr` and `cons_getc`. What the keyboard and the serial port give is an
input: the results of `proc` up to the -1. Both of them return bytes, and a keyboard returns 0 for what is not a
character.
-/

namespace Jos.Console

open Lib

/-- `CONSBUFSIZE`. -/
def CONSBUFSIZE : ℕ := 512

/-- `cons`. -/
structure Cons where
  buf : ℕ → Byte
  rpos : BitVec 32
  wpos : BitVec 32

/-- The turn of the loop of `cons_intr` for `c`. -/
def Cons.put (cons : Cons) (c : Byte) : Cons :=
  if c = 0 then cons
  else
    let buf := Function.update cons.buf cons.wpos.toNat c
    let wpos := cons.wpos + 1
    { cons with buf := buf, wpos := if wpos = BitVec.ofNat 32 CONSBUFSIZE then 0 else wpos }

/-- `cons_intr(proc)`. -/
def consIntr (proc : List Byte) (cons : Cons) : Cons := proc.foldl Cons.put cons

/-- `cons_getc()`; `serial` and `kbd` are what the devices have. Without a serial port, `serial` is empty. -/
def consGetc (serial kbd : List Byte) (cons : Cons) : BitVec 32 × Cons :=
  let cons := consIntr serial cons
  let cons := consIntr kbd cons
  if cons.rpos ≠ cons.wpos then
    let c := cons.buf cons.rpos.toNat
    let rpos := cons.rpos + 1
    (c.setWidth 32, { cons with rpos := if rpos = BitVec.ofNat 32 CONSBUFSIZE then 0 else rpos })
  else (0, cons)

/-! ## Runs -/

/-- What happens: an interrupt, or a call of `cons_getc`. -/
inductive Event
  | intr (proc : List Byte)
  | getc (serial kbd : List Byte)

/-- The characters that arrive. -/
def Event.arrivals : Event → List Byte
  | .intr proc => proc.filter (· ≠ 0)
  | .getc serial kbd => (serial ++ kbd).filter (· ≠ 0)

/-- The buffer, and what has happened: the characters that arrived, and those that `cons_getc` returned. -/
structure State where
  cons : Cons
  arrived : List Byte
  returned : List Byte

def initial : State := ⟨⟨fun _ => 0, 0, 0⟩, [], []⟩

def step (s : State) (e : Event) : State :=
  match e with
  | .intr proc => { s with cons := consIntr proc s.cons, arrived := s.arrived ++ e.arrivals }
  | .getc serial kbd =>
    let (c, cons) := consGetc serial kbd s.cons
    ⟨cons, s.arrived ++ e.arrivals, if c = 0 then s.returned else s.returned ++ [c.setWidth 8]⟩

def run (s : State) (es : List Event) : State := es.foldl step s

/-- Fewer than `CONSBUFSIZE` characters are waiting at any time. Most are in an event when all of its characters have
arrived: `cons_getc` takes one after that. -/
def Calm (s : State) : List Event → Prop
  | [] => True
  | e :: es => s.arrived.length + e.arrivals.length < s.returned.length + CONSBUFSIZE ∧ Calm (step s e) es

/-- The characters that are in the buffer, from `rpos` to `wpos`. -/
def Cons.waiting (cons : Cons) : List Byte :=
  (List.range ((cons.wpos.toNat + CONSBUFSIZE - cons.rpos.toNat) % CONSBUFSIZE)).map fun i =>
    cons.buf ((cons.rpos.toNat + i) % CONSBUFSIZE)

end Jos.Console
