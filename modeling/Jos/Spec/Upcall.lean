import Jos.Spec.Trap

/-!
# The page fault upcall

`page_fault_handler` of `kern/trap.c` as a program sees it, and `_pgfault_upcall` of
`lib/pfentry.S`, instruction by instruction. The C handler is any function on states.
-/

namespace Jos

open Lib

/-- The registers that the trap entry saves. -/
def pushRegs (s : Core) : PushRegs where
  r15 := s.reg .r15
  r14 := s.reg .r14
  r13 := s.reg .r13
  r12 := s.reg .r12
  r11 := s.reg .r11
  r10 := s.reg .r10
  r9 := s.reg .r9
  r8 := s.reg .r8
  rsi := s.reg .rsi
  rdi := s.reg .rdi
  rbp := s.reg .rbp
  rdx := s.reg .rdx
  rcx := s.reg .rcx
  rbx := s.reg .rbx
  rax := s.reg .rax

/-- The trap frame of a page fault. -/
def faultFrame (s : Core) (err : BitVec 64) : Trapframe where
  tfRegs := pushRegs s
  tfTrapno := tPgflt
  tfErr := err
  tfRip := s.rip
  tfEflags := s.eflags
  tfRsp := s.reg .rsp

/-- `page_fault_handler`: the `UTrapframe` is on the exception stack, and the program goes on
at its upcall. -/
def pageFault (s : Core) (err : BitVec 64) (faultVa upcall : VA) : Core :=
  let addr := utfAddr (s.reg .rsp)
  { s.set .rsp addr with
    rip := upcall, mem := storeAll s.mem addr (utfOf (faultFrame s err) faultVa).bytes }

/-- `_pgfault_upcall`, up to the call: `var` is the address of `_pgfault_handler`. -/
def upcallEntry (var next : VA) : List Instr :=
  [.mov .rsp .rdi, .movabs var .rax, .call .rax next]

/-- `POPA_`. -/
def popa : List Instr :=
  [.load 0 .rsp .r15, .load 8 .rsp .r14, .load 16 .rsp .r13, .load 24 .rsp .r12, .load 32 .rsp .r11,
    .load 40 .rsp .r10, .load 48 .rsp .r9, .load 56 .rsp .r8, .load 64 .rsp .rsi, .load 72 .rsp .rdi,
    .load 80 .rsp .rbp, .load 88 .rsp .rdx, .load 96 .rsp .rcx, .load 104 .rsp .rbx,
    .load 112 .rsp .rax, .add 120 .rsp]

/-- `_pgfault_upcall` pushes the trap-time `rip` onto the trap-time stack. -/
def upcallPush : List Instr :=
  [.load 136 .rsp .rbx, .load 152 .rsp .rcx, .sub 8 .rcx, .store .rbx 0 .rcx, .store .rcx 152 .rsp]

/-- `_pgfault_upcall`, after the call. -/
def upcallReturn : List Instr :=
  upcallPush ++ [.add 16 .rsp] ++ popa ++ [.add 8 .rsp, .popfq, .pop .rsp, .ret]

/-- The C handler has returned to the upcall, and has left the `UTrapframe` alone. -/
structure Returns (handler : Core → Core) (u : Core) : Prop where
  rip : (handler u).rip = loadQ u.mem (u.reg .rsp)
  rsp : (handler u).reg .rsp = u.reg .rsp + 8
  frame : ∀ i < 160, (handler u).mem (u.reg .rsp + 8 + BitVec.ofNat 64 i) =
    u.mem (u.reg .rsp + 8 + BitVec.ofNat 64 i)

end Jos
