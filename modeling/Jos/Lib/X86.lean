import Mathlib

/-!
# A piece of x86-64

Memory as a map from addresses to bytes, with quadwords stored lowest byte first, and the
instructions that a stub which saves and restores registers is made of. A program is a list of
instructions without jumps; `ret` loads `rip` and ends it.

The flags after an arithmetic instruction are a parameter: a stub that restores them by `popfq`
does not depend on them.
-/

namespace Jos.Lib

/-! ## Bytes and words -/

/-- Byte `i` of a word. -/
def byteOf (w : BitVec 64) (i : ℕ) : BitVec 8 := (w >>> (8 * i)).setWidth 8

/-- A word in memory, lowest byte first. -/
def wordBytes (w : BitVec 64) : List (BitVec 8) := (List.range 8).map (byteOf w)

/-- Two words are equal if their bytes are. -/
theorem word_ext {v w : BitVec 64} (h : ∀ i < 8, byteOf v i = byteOf w i) : v = w := by
  refine BitVec.eq_of_getLsbD_eq fun j hj => ?_
  have h1 := congrArg (·.getLsbD (j % 8)) (h (j / 8) (by omega))
  have h2 : 8 * (j / 8) + j % 8 = j := by omega
  simp only [byteOf, BitVec.getLsbD_setWidth, BitVec.getLsbD_ushiftRight, h2,
    show j % 8 < 8 by omega, decide_true, Bool.true_and] at h1
  exact h1

/-- Byte `i` of a word that was shifted by `d` bytes. -/
theorem byteOf_ushiftRight (w : BitVec 64) (d i : ℕ) : byteOf (w >>> (8 * d)) i = byteOf w (d + i) := by
  unfold byteOf
  rw [← BitVec.shiftRight_add, Nat.mul_add]

@[simp] theorem wordBytes_length (w : BitVec 64) : (wordBytes w).length = 8 := by simp [wordBytes]

/-- The bytes of consecutive words. -/
theorem flatMap_wordBytes {ws : List (BitVec 64)} {i j : ℕ} (hi : i < ws.length) (hj : j < 8) :
    (ws.flatMap wordBytes)[8 * i + j]? = some (byteOf ws[i] j) := by
  induction ws generalizing i with
  | nil => simp at hi
  | cons w ws ih =>
    rw [List.flatMap_cons]
    cases i with
    | zero =>
      rw [List.getElem?_append_left (by rw [wordBytes_length]; omega)]
      simp [wordBytes, hj]
    | succ i =>
      rw [List.getElem?_append_right (by rw [wordBytes_length]; omega), wordBytes_length,
        show 8 * (i + 1) + j - 8 = 8 * i + j by omega]
      exact ih (by simpa using hi)

theorem flatMap_wordBytes_length (ws : List (BitVec 64)) : (ws.flatMap wordBytes).length = 8 * ws.length := by
  induction ws with
  | nil => rfl
  | cons w ws ih => simp only [List.flatMap_cons, List.length_append, wordBytes_length, List.length_cons, ih]; omega

/-! ## Memory -/

abbrev Mem := BitVec 64 → BitVec 8

/-- The quadword at `a`. -/
def loadQ (m : Mem) (a : BitVec 64) : BitVec 64 :=
  m (a + 7) ++ m (a + 6) ++ m (a + 5) ++ m (a + 4) ++ m (a + 3) ++ m (a + 2) ++ m (a + 1) ++ m (a + 0)

/-- The memory after a store of a quadword. -/
def storeQ (m : Mem) (a w : BitVec 64) : Mem := fun x =>
  if (x - a).toNat < 8 then byteOf w (x - a).toNat else m x

/-- The memory after a store of consecutive bytes. -/
def storeAll (m : Mem) (a : BitVec 64) (bs : List (BitVec 8)) : Mem := fun x =>
  (bs[(x - a).toNat]?).getD (m x)

variable {m m' : Mem} {a b w x : BitVec 64} {i : ℕ}

theorem byteOf_loadQ (hi : i < 8) : byteOf (loadQ m a) i = m (a + BitVec.ofNat 64 i) := by
  refine BitVec.eq_of_getLsbD_eq fun j hj => ?_
  simp only [byteOf, loadQ, BitVec.getLsbD_setWidth, BitVec.getLsbD_ushiftRight, BitVec.getLsbD_append, hj,
    decide_true, Bool.true_and]
  interval_cases i
  all_goals
    split_ifs <;> first
      | omega
      | (congr 1; omega)

/-- A quadword is its bytes. -/
theorem loadQ_eq_iff : loadQ m a = w ↔ ∀ i < 8, m (a + BitVec.ofNat 64 i) = byteOf w i := by
  constructor
  · rintro rfl i hi
    exact (byteOf_loadQ hi).symm
  · intro h
    exact word_ext fun i hi => (byteOf_loadQ hi).trans (h i hi)

theorem loadQ_congr (h : ∀ i < 8, m (a + BitVec.ofNat 64 i) = m' (a + BitVec.ofNat 64 i)) :
    loadQ m a = loadQ m' a :=
  loadQ_eq_iff.2 fun i hi => (h i hi).trans (byteOf_loadQ hi).symm

theorem offset_toNat (hi : i < 2 ^ 64) : (a + BitVec.ofNat 64 i - a).toNat = i := by
  rw [BitVec.add_comm, BitVec.add_sub_cancel, BitVec.toNat_ofNat, Nat.mod_eq_of_lt hi]

theorem storeQ_byte (hi : i < 8) : storeQ m a w (a + BitVec.ofNat 64 i) = byteOf w i := by
  unfold storeQ
  rw [offset_toNat (by omega), if_pos hi]

theorem storeQ_other (h : 8 ≤ (x - a).toNat) : storeQ m a w x = m x := if_neg (by omega)

@[simp] theorem loadQ_storeQ : loadQ (storeQ m a w) a = w := loadQ_eq_iff.2 fun _ hi => storeQ_byte hi

/-- A store leaves the quadwords alone that it does not overlap. -/
theorem loadQ_storeQ_other (h : 8 ≤ (b - a).toNat) (h' : 8 ≤ (a - b).toNat) :
    loadQ (storeQ m a w) b = loadQ m b := by
  refine loadQ_congr fun i hi => storeQ_other ?_
  have h1 : (BitVec.ofNat 64 i).toNat = i := by rw [BitVec.toNat_ofNat, Nat.mod_eq_of_lt (by omega)]
  bv_omega

theorem storeAll_other {bs : List (BitVec 8)} (h : bs.length ≤ (x - a).toNat) : storeAll m a bs x = m x := by
  unfold storeAll
  rw [List.getElem?_eq_none h]
  rfl

/-- Words that were stored one after the other. -/
theorem loadQ_storeAll {ws : List (BitVec 64)} (hi : i < ws.length) (hn : 8 * ws.length ≤ 2 ^ 64) :
    loadQ (storeAll m a (ws.flatMap wordBytes)) (a + BitVec.ofNat 64 (8 * i)) = ws[i] := by
  refine loadQ_eq_iff.2 fun j hj => ?_
  have h1 : a + BitVec.ofNat 64 (8 * i) + BitVec.ofNat 64 j = a + BitVec.ofNat 64 (8 * i + j) := by
    rw [BitVec.add_assoc, BitVec.ofNat_add]
  unfold storeAll
  rw [h1, offset_toNat (by omega), flatMap_wordBytes hi hj]
  rfl

/-! ## Instructions -/

/-- The general registers. -/
inductive Reg
  | rax | rbx | rcx | rdx | rsi | rdi | rbp | rsp | r8 | r9 | r10 | r11 | r12 | r13 | r14 | r15
  deriving DecidableEq

/-- What a program sees of the CPU, and its memory. -/
structure Core where
  reg : Reg → BitVec 64
  rip : BitVec 64
  eflags : BitVec 64
  mem : Mem

def Core.set (s : Core) (r : Reg) (v : BitVec 64) : Core :=
  { s with reg := fun x => if x = r then v else s.reg x }

/-- The instructions, with their operands in the order of the assembler. -/
inductive Instr
  /-- `movq d(%b), %r` -/
  | load (d : BitVec 64) (b r : Reg)
  /-- `movq %r, d(%b)` -/
  | store (r : Reg) (d : BitVec 64) (b : Reg)
  /-- `movq %src, %dst` -/
  | mov (src dst : Reg)
  /-- `movabs a, %r` -/
  | movabs (a : BitVec 64) (r : Reg)
  /-- `addq $v, %r` -/
  | add (v : BitVec 64) (r : Reg)
  /-- `subq $v, %r` -/
  | sub (v : BitVec 64) (r : Reg)
  /-- `call *%r`, at the end of which the next instruction is at `next` -/
  | call (r : Reg) (next : BitVec 64)
  /-- `popq %r` -/
  | pop (r : Reg)
  | popfq
  | ret

/-- The state after an instruction; `flags` gives the flags after an arithmetic one from the
flags before and its operands. -/
def Core.step (flags : BitVec 64 → BitVec 64 → BitVec 64 → BitVec 64) (s : Core) : Instr → Core
  | .load d b r => s.set r (loadQ s.mem (s.reg b + d))
  | .store r d b => { s with mem := storeQ s.mem (s.reg b + d) (s.reg r) }
  | .mov src dst => s.set dst (s.reg src)
  | .movabs a r => s.set r (loadQ s.mem a)
  | .add v r => { s.set r (s.reg r + v) with eflags := flags s.eflags (s.reg r) v }
  | .sub v r => { s.set r (s.reg r - v) with eflags := flags s.eflags (s.reg r) (-v) }
  | .call r next =>
    { s.set .rsp (s.reg .rsp - 8) with rip := s.reg r, mem := storeQ s.mem (s.reg .rsp - 8) next }
  | .pop r => (s.set .rsp (s.reg .rsp + 8)).set r (loadQ s.mem (s.reg .rsp))
  | .popfq => { s.set .rsp (s.reg .rsp + 8) with eflags := loadQ s.mem (s.reg .rsp) }
  | .ret => { s.set .rsp (s.reg .rsp + 8) with rip := loadQ s.mem (s.reg .rsp) }

/-- The state after a program. -/
def Core.run (flags : BitVec 64 → BitVec 64 → BitVec 64 → BitVec 64) (prog : List Instr) (s : Core) : Core :=
  prog.foldl (Core.step flags) s

end Jos.Lib
