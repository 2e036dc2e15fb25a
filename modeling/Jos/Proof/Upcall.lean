import Jos.Spec.Upcall

/-!
# The page fault upcall is transparent, or not

`_pgfault_upcall` pushes the trap-time `rip` on the trap-time stack, and stores the lowered `rsp`
in the `UTrapframe` after that. Where the two quadwords share bytes, the second store clobbers
the first: `page_fault_handler` leaves 4 bytes between a frame and the trap-time `rsp` of a nested
fault, and `rip` needs 8.

* `upcallReturn_run` is what the code after the call of the handler computes.
* `upcall_transparent` says when a fault leaves no trace: unless the two quadwords share bytes,
  or those happen to be equal.
-/

namespace Jos

open Lib

variable {flags : BitVec 64 → BitVec 64 → BitVec 64 → BitVec 64} {s h : Core} {r : Reg}
variable {err : BitVec 64} {faultVa upcall var next rsp : VA} {handler : Core → Core}

/-! ## The code -/

/-- The place of a register in `struct PushRegs`, in words. -/
def slotOf : Reg → ℕ
  | .r15 => 0
  | .r14 => 1
  | .r13 => 2
  | .r12 => 3
  | .r11 => 4
  | .r10 => 5
  | .r9 => 6
  | .r8 => 7
  | .rsi => 8
  | .rdi => 9
  | .rbp => 10
  | .rdx => 11
  | .rcx => 12
  | .rbx => 13
  | .rax => 14
  | .rsp => 15

theorem popa_reg (hr : r ≠ .rsp) :
    (s.run flags popa).reg r = loadQ s.mem (s.reg .rsp + BitVec.ofNat 64 (8 * slotOf r)) := by
  simp only [Core.run, popa, List.foldl, Core.step, Core.set]
  cases r <;> simp [slotOf] at hr ⊢

theorem popa_rsp : (s.run flags popa).reg .rsp = s.reg .rsp + 120 := by
  simp [Core.run, popa, Core.step, Core.set]

theorem popa_mem : (s.run flags popa).mem = s.mem := by
  simp [Core.run, popa, Core.step, Core.set]

/-- The memory after the push of `rip` and the store of the lowered `rsp`, for a `UTrapframe`
at `addr`. -/
def pushed (m : Mem) (addr : BitVec 64) : Mem :=
  storeQ (storeQ m (loadQ m (addr + 152) - 8) (loadQ m (addr + 136))) (addr + 152)
    (loadQ m (addr + 152) - 8)

theorem upcallPush_run : (s.run flags upcallPush).reg .rsp = s.reg .rsp ∧
    (s.run flags upcallPush).mem = pushed s.mem (s.reg .rsp) := by
  simp [Core.run, upcallPush, Core.step, Core.set, pushed]

/-- **The code after the call**, for a `UTrapframe` at `rsp`. -/
theorem upcallReturn_run (flags : BitVec 64 → BitVec 64 → BitVec 64 → BitVec 64) (s : Core) :
    let t := s.run flags upcallReturn
    let m := pushed s.mem (s.reg .rsp)
    (∀ r, r ≠ .rsp → t.reg r = loadQ m (s.reg .rsp + BitVec.ofNat 64 (16 + 8 * slotOf r))) ∧
    t.reg .rsp = loadQ m (s.reg .rsp + 152) + 8 ∧ t.eflags = loadQ m (s.reg .rsp + 144) ∧
    t.rip = loadQ m (loadQ m (s.reg .rsp + 152)) ∧ t.mem = m := by
  obtain ⟨h1, h2⟩ := upcallPush_run (s := s)
  set s₁ := s.run flags upcallPush with hs₁
  set s₂ := Core.step flags s₁ (.add 16 .rsp) with hs₂
  set s₃ := s₂.run flags popa with hs₃
  have hrun : s.run flags upcallReturn =
      s₃.run flags [.add 8 .rsp, .popfq, .pop .rsp, .ret] := by
    simp only [hs₁, hs₂, hs₃, upcallReturn, Core.run, List.foldl_append, List.foldl_cons, List.foldl_nil]
  have h3 : s₂.reg .rsp = s.reg .rsp + 16 := by rw [hs₂, ← h1]; simp [Core.step, Core.set]
  have h4 : s₂.mem = pushed s.mem (s.reg .rsp) := by rw [hs₂, ← h2]; rfl
  have h5 : s₃.reg .rsp = s.reg .rsp + 136 := by
    rw [hs₃, popa_rsp, h3, BitVec.add_assoc]; rfl
  have h6 : s₃.mem = pushed s.mem (s.reg .rsp) := by rw [hs₃, popa_mem, h4]
  simp only [hrun]
  refine ⟨fun r hr => ?_, ?_, ?_, ?_, ?_⟩
  · have h9 : (s₃.run flags [.add 8 .rsp, .popfq, .pop .rsp, .ret]).reg r = s₃.reg r := by
      simp [Core.run, Core.step, Core.set, hr]
    rw [h9, hs₃, popa_reg hr, h4, h3, BitVec.add_assoc, BitVec.ofNat_add]
    rfl
  · simp [Core.run, Core.step, Core.set, h5, h6, BitVec.add_assoc]
  · simp [Core.run, Core.step, Core.set, h5, h6, BitVec.add_assoc]
  · simp [Core.run, Core.step, Core.set, h5, h6, BitVec.add_assoc]
  · simp [Core.run, Core.step, Core.set, h6]

/-! ## Where the frame lies -/

/-- `page_fault_handler` takes the fault for a nested one. -/
def OnExceptionStack (rsp : VA) : Prop := uxstacktop - pgsize ≤ rsp ∧ rsp ≤ uxstacktop - 1

instance (rsp : VA) : Decidable (OnExceptionStack rsp) := inferInstanceAs (Decidable (_ ∧ _))

/-- The distance from the end of the `UTrapframe` to the trap-time `rsp`, where it is less than
8: the quadword that takes `rip` shares bytes with `utf_rsp` then. -/
def gap (rsp : VA) : Option ℕ :=
  if OnExceptionStack rsp then some 4
  else if rsp - uxstacktop < 8 then some (rsp - uxstacktop).toNat else none

theorem utfAddr_nested (h : OnExceptionStack rsp) : utfAddr rsp = rsp - 164 := by
  unfold utfAddr OnExceptionStack utfSize at *
  rw [if_pos h]
  bv_omega

theorem utfAddr_first (h : ¬ OnExceptionStack rsp) : utfAddr rsp = uxstacktop - 160 := if_neg h

/-- The quadword below `rsp` is clear of the other fields. -/
theorem below_rsp_clear (rsp : VA) {i : ℕ} (hi : i < 152) :
    8 ≤ (utfAddr rsp + BitVec.ofNat 64 i - (rsp - 8)).toNat := by
  have h1 : (BitVec.ofNat 64 i).toNat = i := by rw [BitVec.toNat_ofNat, Nat.mod_eq_of_lt (by omega)]
  by_cases h : OnExceptionStack rsp
  · rw [utfAddr_nested h]
    bv_omega
  · rw [utfAddr_first h]
    unfold OnExceptionStack uxstacktop pgsize at *
    bv_omega

/-- Where it meets `utf_rsp`. -/
theorem below_rsp_gap {i d : ℕ} (hd : d ∈ gap rsp) (hi : i < 8) :
    (rsp - 8 + BitVec.ofNat 64 i - (utfAddr rsp + 152)).toNat = i + d := by
  have h1 : (BitVec.ofNat 64 i).toNat = i := by rw [BitVec.toNat_ofNat, Nat.mod_eq_of_lt (by omega)]
  unfold gap at hd
  by_cases h : OnExceptionStack rsp
  · rw [if_pos h] at hd
    cases hd
    rw [utfAddr_nested h]
    bv_omega
  · rw [if_neg h] at hd
    split at hd
    · cases hd
      rw [utfAddr_first h]
      unfold uxstacktop at *
      bv_omega
    · cases hd

theorem below_rsp_meets {i : ℕ} (hi : i < 8)
    (h : (rsp - 8 + BitVec.ofNat 64 i - (utfAddr rsp + 152)).toNat < 8) : ∃ d, d ∈ gap rsp := by
  have h1 : (BitVec.ofNat 64 i).toNat = i := by rw [BitVec.toNat_ofNat, Nat.mod_eq_of_lt (by omega)]
  unfold gap
  split
  · exact ⟨4, rfl⟩
  split
  · exact ⟨_, rfl⟩
  · rename_i h2 h3
    rw [utfAddr_first h2] at h
    unfold OnExceptionStack uxstacktop pgsize at *
    bv_omega

/-! ## The whole way -/

/-- What may change: the eight bytes below the trap-time `rsp`, and the part of the exception
stack that is not in use. -/
def Scratch (rsp a : VA) : Prop :=
  (a - (rsp - 8)).toNat < 8 ∨
    (uxstacktop - pgsize ≤ a ∧ a < if OnExceptionStack rsp then rsp else uxstacktop)

/-- **A fault leaves no trace**: `s` is the state at the trap, `u` and `u'` are those before and
after the C handler, and `t` is the state after the upcall has returned. -/
structure Transparent (s u u' t : Core) : Prop where
  reg : ∀ r, t.reg r = s.reg r
  rip : t.rip = s.rip
  eflags : t.eflags = s.eflags
  mem : ∀ a, ¬ Scratch (s.reg .rsp) a → u.mem a = s.mem a ∧ t.mem a = u'.mem a

/-- The bytes that the two quadwords share are equal. -/
def SharedEqual (rsp rip : VA) : Prop :=
  ∀ d ∈ gap rsp, ∀ i, i + d < 8 → byteOf rip i = byteOf (rsp - 8) (i + d)

/-- The exception stack has room for the frame, and for the return address of the call. -/
def Fits (rsp : VA) : Prop := OnExceptionStack rsp → uxstacktop - pgsize + 172 ≤ rsp

/-- The words of the frame. -/
def frameWords (s : Core) (err : BitVec 64) (faultVa : VA) : List (BitVec 64) :=
  (utfOf (faultFrame s err) faultVa).words

theorem frameWords_reg (hr : r ≠ .rsp) : (frameWords s err faultVa)[2 + slotOf r]? = some (s.reg r) := by
  cases r <;> first | rfl | exact absurd rfl hr

/-- The state at the entry of the handler. -/
theorem upcallEntry_run (flags : BitVec 64 → BitVec 64 → BitVec 64 → BitVec 64) (s : Core)
    (err : BitVec 64) (faultVa upcall var next : VA) :
    let u := (pageFault s err faultVa upcall).run flags (upcallEntry var next)
    u.reg .rsp = utfAddr (s.reg .rsp) - 8 ∧
    u.mem = storeQ (storeAll s.mem (utfAddr (s.reg .rsp)) ((frameWords s err faultVa).flatMap wordBytes))
      (utfAddr (s.reg .rsp) - 8) next := by
  simp [Core.run, upcallEntry, Core.step, Core.set, pageFault, frameWords, UTrapframe.bytes]

/-- The handler finds the frame, and leaves it. -/
theorem frame_kept (hret : Returns handler ((pageFault s err faultVa upcall).run flags (upcallEntry var next)))
    {i : ℕ} (hi : i < 160) :
    (handler ((pageFault s err faultVa upcall).run flags (upcallEntry var next))).mem
        (utfAddr (s.reg .rsp) + BitVec.ofNat 64 i) =
      storeAll s.mem (utfAddr (s.reg .rsp)) ((frameWords s err faultVa).flatMap wordBytes)
        (utfAddr (s.reg .rsp) + BitVec.ofNat 64 i) := by
  obtain ⟨h1, h2⟩ := upcallEntry_run flags s err faultVa upcall var next
  have h3 := hret.frame i hi
  have h4 : utfAddr (s.reg .rsp) - 8 + 8 = utfAddr (s.reg .rsp) := BitVec.sub_add_cancel _ _
  have h5 : (BitVec.ofNat 64 i).toNat = i := by rw [BitVec.toNat_ofNat, Nat.mod_eq_of_lt (by omega)]
  rw [h1, h4] at h3
  rw [h3, h2]
  refine storeQ_other ?_
  bv_omega

theorem frameWords_length : (frameWords s err faultVa).length = 20 := rfl

/-- The fields that the upcall reads. -/
theorem frame_word
    (hret : Returns handler ((pageFault s err faultVa upcall).run flags (upcallEntry var next))) {i : ℕ}
    {w : BitVec 64} (hi : (frameWords s err faultVa)[i]? = some w) :
    loadQ (handler ((pageFault s err faultVa upcall).run flags (upcallEntry var next))).mem
      (utfAddr (s.reg .rsp) + BitVec.ofNat 64 (8 * i)) = w := by
  obtain ⟨hlt, rfl⟩ := List.getElem?_eq_some_iff.1 hi
  have hlen : (frameWords s err faultVa).length = 20 := frameWords_length
  rw [← loadQ_storeAll (m := s.mem) (a := utfAddr (s.reg .rsp)) hlt (by omega)]
  refine loadQ_congr fun j hj => ?_
  rw [BitVec.add_assoc, ← BitVec.ofNat_add]
  exact frame_kept hret (by omega)

/-- The frame and the return address lie in the unused part of the exception stack. -/
theorem frame_scratch {a : VA} (hfit : Fits rsp) (ha : ¬ Scratch rsp a) :
    8 ≤ (a - (rsp - 8)).toNat ∧ 8 ≤ (a - (utfAddr rsp - 8)).toNat ∧ 160 ≤ (a - utfAddr rsp).toNat ∧
      8 ≤ (a - (utfAddr rsp + 152)).toNat := by
  unfold Scratch Fits at *
  by_cases h : OnExceptionStack rsp
  · rw [if_pos h] at ha
    have hfit := hfit h
    rw [utfAddr_nested h]
    unfold OnExceptionStack uxstacktop pgsize at *
    refine ⟨by omega, ?_, ?_, ?_⟩ <;> bv_omega
  · rw [if_neg h] at ha
    rw [utfAddr_first h]
    unfold uxstacktop pgsize at *
    refine ⟨by omega, ?_, ?_, ?_⟩ <;> bv_omega

/-- Of what the two stores write, the first meets none of the fields, and the second all of
`utf_rsp`. -/
theorem pushed_field {m : Mem} {R rip w : BitVec 64} {i : ℕ} (hi : i < 19)
    (hw : loadQ m (utfAddr R + BitVec.ofNat 64 (8 * i)) = w) :
    loadQ (storeQ (storeQ m (R - 8) rip) (utfAddr R + 152) (R - 8))
      (utfAddr R + BitVec.ofNat 64 (8 * i)) = w := by
  rw [← hw]
  refine loadQ_congr fun j hj => ?_
  rw [BitVec.add_assoc, ← BitVec.ofNat_add]
  have h1 : (BitVec.ofNat 64 (8 * i + j)).toNat = 8 * i + j := by
    rw [BitVec.toNat_ofNat, Nat.mod_eq_of_lt (by omega)]
  rw [storeQ_other, storeQ_other (below_rsp_clear _ (by omega))]
  bv_omega

/-- `ret` finds `rip`, if the second store has not changed it. -/
theorem pushed_rip {m : Mem} {R rip : BitVec 64} :
    loadQ (storeQ (storeQ m (R - 8) rip) (utfAddr R + 152) (R - 8)) (R - 8) = rip ↔ SharedEqual R rip := by
  rw [loadQ_eq_iff]
  have hbyte : ∀ i < 8, storeQ (storeQ m (R - 8) rip) (utfAddr R + 152) (R - 8) (R - 8 + BitVec.ofNat 64 i) =
      if (R - 8 + BitVec.ofNat 64 i - (utfAddr R + 152)).toNat < 8 then
        byteOf (R - 8) (R - 8 + BitVec.ofNat 64 i - (utfAddr R + 152)).toNat
      else byteOf rip i := by
    intro i hi
    rw [← storeQ_byte (m := m) (a := R - 8) (w := rip) hi]
    rfl
  constructor
  · intro h d hd i hi
    have h1 := h i (by omega)
    have h2 := below_rsp_gap hd (i := i) (by omega)
    rw [hbyte i (by omega), h2, if_pos hi] at h1
    exact h1.symm
  · intro h i hi
    rw [hbyte i hi]
    split
    · rename_i h1
      obtain ⟨d, hd⟩ := below_rsp_meets hi h1
      have h2 := below_rsp_gap hd hi
      rw [h2]
      exact (h d hd i (by omega)).symm
    · rfl

/-- **What the code after the call restores**, from the fields of the frame. -/
theorem upcallReturn_frame {v : Core} (hrsp : v.reg .rsp = utfAddr (s.reg .rsp))
    (hword : ∀ i w, (frameWords s err faultVa)[i]? = some w →
      loadQ v.mem (utfAddr (s.reg .rsp) + BitVec.ofNat 64 (8 * i)) = w) :
    let t := v.run flags upcallReturn
    (∀ r, t.reg r = s.reg r) ∧ t.eflags = s.eflags ∧
    (t.rip = s.rip ↔ SharedEqual (s.reg .rsp) s.rip) ∧
    t.mem = storeQ (storeQ v.mem (s.reg .rsp - 8) s.rip) (utfAddr (s.reg .rsp) + 152) (s.reg .rsp - 8) := by
  have hrip : loadQ v.mem (utfAddr (s.reg .rsp) + 136) = s.rip := hword 17 _ rfl
  have hutf : loadQ v.mem (utfAddr (s.reg .rsp) + 152) = s.reg .rsp := hword 19 _ rfl
  obtain ⟨ht1, ht2, ht3, ht4, ht5⟩ := upcallReturn_run flags v
  have hm : pushed v.mem (utfAddr (s.reg .rsp)) = storeQ (storeQ v.mem (s.reg .rsp - 8) s.rip)
      (utfAddr (s.reg .rsp) + 152) (s.reg .rsp - 8) := by rw [pushed, hrip, hutf]
  rw [hrsp, hm, loadQ_storeQ] at ht2 ht4
  rw [hrsp, hm] at ht3 ht5
  refine ⟨fun r => ?_, ?_, ?_, ht5⟩
  · by_cases hr : r = .rsp
    · subst hr
      rw [ht2]
      exact BitVec.sub_add_cancel _ _
    · have h1 : slotOf r < 15 := by cases r <;> first | exact absurd rfl hr | decide
      rw [ht1 r hr, hrsp, hm, show 16 + 8 * slotOf r = 8 * (2 + slotOf r) by omega]
      exact pushed_field (by omega) (hword _ _ (frameWords_reg hr))
  · rw [ht3]
    exact pushed_field (i := 18) (by omega) (hword 18 _ rfl)
  · rw [ht4]
    exact pushed_rip

/-- The handler and the code around it. -/
theorem upcall_frame
    (hret : Returns handler ((pageFault s err faultVa upcall).run flags (upcallEntry var next))) :
    let u' := handler ((pageFault s err faultVa upcall).run flags (upcallEntry var next))
    let t := u'.run flags upcallReturn
    (∀ r, t.reg r = s.reg r) ∧ t.eflags = s.eflags ∧
    (t.rip = s.rip ↔ SharedEqual (s.reg .rsp) s.rip) ∧
    t.mem = storeQ (storeQ u'.mem (s.reg .rsp - 8) s.rip) (utfAddr (s.reg .rsp) + 152)
      (s.reg .rsp - 8) := by
  obtain ⟨h1, -⟩ := upcallEntry_run flags s err faultVa upcall var next
  refine upcallReturn_frame ?_ fun i w => frame_word hret
  rw [hret.rsp, h1]
  exact BitVec.sub_add_cancel _ _

/-- **When the upcall is transparent.** The registers, the flags, `rsp` and the memory are
restored for every trap-time state and every handler; `rip` is exactly if the bytes that the
quadword below `rsp` shares with `utf_rsp`, if there are any, happen to be equal. -/
theorem upcall_transparent
    (hret : Returns handler ((pageFault s err faultVa upcall).run flags (upcallEntry var next)))
    (hfit : Fits (s.reg .rsp)) :
    Transparent s ((pageFault s err faultVa upcall).run flags (upcallEntry var next))
      (handler ((pageFault s err faultVa upcall).run flags (upcallEntry var next)))
      ((handler ((pageFault s err faultVa upcall).run flags (upcallEntry var next))).run flags
        upcallReturn) ↔ SharedEqual (s.reg .rsp) s.rip := by
  obtain ⟨-, hu⟩ := upcallEntry_run flags s err faultVa upcall var next
  obtain ⟨h1, h2, h3, h4⟩ := upcall_frame hret
  refine ⟨fun h => h3.1 h.rip, fun h => ⟨h1, h3.2 h, h2, fun a ha => ?_⟩⟩
  obtain ⟨h5, h6, h7, h8⟩ := frame_scratch hfit ha
  refine ⟨?_, ?_⟩
  · rw [hu, storeQ_other h6, storeAll_other (by rw [flatMap_wordBytes_length, frameWords_length]; exact h7)]
  · rw [h4, storeQ_other h8, storeQ_other h5]

/-! ### Two faults -/

/-- A handler that does nothing. -/
def idle (u : Core) : Core := u.step (fun f _ _ => f) .ret

theorem returns_idle {u : Core} : Returns idle u :=
  ⟨rfl, by simp [idle, Core.step, Core.set], fun _ _ => rfl⟩

/-- A program that faults at `0x800020`, with empty memory. -/
def faulting (rsp : VA) : Core where
  reg := fun r => if r = .rsp then rsp else 0
  rip := 0x800020
  eflags := 0x202
  mem := fun _ => 0

/-- A fault on the normal stack leaves no trace. -/
theorem upcall_transparent_first :
    let u := (pageFault (faulting 0xef7fdff0) 7 0x1000 0x800100).run (fun f _ _ => f)
      (upcallEntry 0x802000 0x800110)
    Transparent (faulting 0xef7fdff0) u (idle u) ((idle u).run (fun f _ _ => f) upcallReturn) := by
  refine (upcall_transparent returns_idle ?_).2 ?_
  · exact fun h => absurd h (by decide)
  · intro d hd
    rw [show gap ((faulting 0xef7fdff0).reg .rsp) = none by decide] at hd
    cases hd

/-- **A nested fault does not return**: `ret` takes 0 for the low half of `rip`. -/
theorem upcall_nested_counterexample :
    let u := (pageFault (faulting 0xef7fff00) 7 0x1000 0x800100).run (fun f _ _ => f)
      (upcallEntry 0x802000 0x800110)
    Returns idle u ∧ Fits 0xef7fff00 ∧
      ¬ Transparent (faulting 0xef7fff00) u (idle u) ((idle u).run (fun f _ _ => f) upcallReturn) := by
  refine ⟨returns_idle, fun _ => by decide, fun h => ?_⟩
  obtain ⟨-, -, h1, -⟩ := upcall_frame (s := faulting 0xef7fff00) returns_idle
  have h2 := h1.1 h.rip 4 (by decide) 0 (by decide)
  exact absurd h2 (by decide)

end Jos
