import Jos.Lib.X86
import Jos.Spec.Env
import Jos.Spec.Mmu

/-!
# Traps

The trap numbers of `inc/trap.h`, and `struct UTrapframe` with the place where
`page_fault_handler` puts it, byte for byte.
-/

namespace Jos

/-! ## Trap numbers -/

def tBrkpt : BitVec 64 := 3
def tPgflt : BitVec 64 := 14
def tSyscall : BitVec 64 := 48
def irqOffset : BitVec 64 := 32
def irqTimer : BitVec 64 := 0
def irqSpurious : BitVec 64 := 7

/-- `GD_KT`. -/
def gdKt : BitVec 16 := 0x08

/-! ## `struct UTrapframe` -/

/-- `struct UTrapframe`. -/
structure UTrapframe where
  utfFaultVa : VA
  utfErr : BitVec 64
  utfRegs : PushRegs
  utfRip : VA
  utfEflags : BitVec 64
  utfRsp : VA

/-- The registers in the order of `struct PushRegs`. -/
def PushRegs.words (r : PushRegs) : List (BitVec 64) :=
  [r.r15, r.r14, r.r13, r.r12, r.r11, r.r10, r.r9, r.r8, r.rsi, r.rdi, r.rbp, r.rdx, r.rcx, r.rbx,
    r.rax]

/-- The words of the packed structure, from its lowest address. -/
def UTrapframe.words (u : UTrapframe) : List (BitVec 64) :=
  [u.utfFaultVa, u.utfErr] ++ u.utfRegs.words ++ [u.utfRip, u.utfEflags, u.utfRsp]

/-- `sizeof(struct UTrapframe)`. -/
def utfSize : BitVec 64 := 160

/-- The bytes of a `struct UTrapframe`. -/
def UTrapframe.bytes (u : UTrapframe) : List (BitVec 8) := u.words.flatMap Lib.wordBytes

/-- The fields that `page_fault_handler` stores. -/
def utfOf (tf : Trapframe) (faultVa : VA) : UTrapframe where
  utfFaultVa := faultVa
  utfErr := tf.tfErr
  utfRegs := tf.tfRegs
  utfRip := tf.tfRip
  utfEflags := tf.tfEflags
  utfRsp := tf.tfRsp

/-- `utf_addr`: on the exception stack already, it leaves four bytes below `tf_rsp`. -/
def utfAddr (rsp : VA) : VA :=
  if uxstacktop - pgsize ≤ rsp ∧ rsp ≤ uxstacktop - 1 then rsp - utfSize - 4
  else uxstacktop - utfSize

/-! ## Stores of bytes -/

/-- The word with byte `i` replaced. -/
def setByte (w : BitVec 64) (i : ℕ) (b : BitVec 8) : BitVec 64 :=
  (w &&& ~~~(0xFF#64 <<< (8 * i))) ||| (b.setWidth 64 <<< (8 * i))

/-- A store of one byte. -/
def storeByte (m : Pmap) (pml4e : ℕ) (va : VA) (b : BitVec 8) : Option Pmap := do
  let x ← translate m pml4e va
  let w := m.mem (ppn x.pte) ⟨(va.toNat / 8) % 512, word_lt va⟩
  storeWord m pml4e va (setByte w (va.toNat % 8) b)

/-- A store of consecutive bytes. -/
def storeBytes (m : Pmap) (pml4e : ℕ) : VA → List (BitVec 8) → Option Pmap
  | _, [] => some m
  | va, b :: bs => do
    let m ← storeByte m pml4e va b
    storeBytes m pml4e (va + 1) bs

end Jos
