import Jos.Lib.Ring
import Jos.Spec.Pipe

/-!
# A pipe is a bounded FIFO

`Inv` relates the page to the stream of accepted bytes: the positions are the numbers of
bytes accepted and taken, below `2 ^ 31`, and the bytes between them are in the ring. Each
program keeps it (`reader_step`, `writer_step`), so every state of a run in which `p_wpos`
does not overflow is that of a bounded FIFO (`pipe_fifo`).

`p_wpos` is a signed counter that is never reset. When it overflows, the writer is held back
by a pipe that is not full (`pipe_fifo_counterexample`).
-/

namespace Jos.Pipe

open Lib

variable {p ask r w n i : ℕ} {closed : Bool} {data buf : List Byte} {b : Byte} {s s' : State}

/-- The increment of `p_wpos` does not overflow. -/
def Fits (s : State) : Prop := ∀ b buf i wpos, s.writer = .bump b buf i wpos → wpos ≠ 0x7FFFFFFF#32

/-! ## Positions -/

theorem toInt_ofNat (h : r < 2 ^ 31) : (BitVec.ofNat 32 r).toInt = r := by
  rw [BitVec.toInt_ofNat', Int.bmod_eq_of_le (by omega) (by omega)]

theorem index_ofNat (h : r < 2 ^ 31) : index (BitVec.ofNat 32 r) = ((r % 32 : ℕ) : ℤ) := by
  unfold index
  rw [toInt_ofNat h, Int.tmod_eq_emod_of_nonneg (by omega)]
  omega

theorem bufAt_ofNat (h : r < 2 ^ 31) : bufAt p (BitVec.ofNat 32 r) = p + 8 + r % 32 := by
  unfold bufAt
  rw [index_ofNat h]
  omega

theorem signExtend_ofNat (h : r < 2 ^ 31) : ((BitVec.ofNat 32 r).signExtend 64).toNat = r := by
  have h1 : (BitVec.ofNat 32 r).msb = false := by
    rw [BitVec.msb_eq_false_iff_two_mul_lt, BitVec.toNat_ofNat, Nat.mod_eq_of_lt (by omega)]
    omega
  rw [BitVec.signExtend_eq_setWidth_of_msb_false h1, BitVec.toNat_setWidth, BitVec.toNat_ofNat,
    Nat.mod_eq_of_lt (by omega), Nat.mod_eq_of_lt (by omega)]

theorem isFull_ofNat (hr : r < 2 ^ 31) (hw : w < 2 ^ 31) :
    isFull (BitVec.ofNat 32 w) (BitVec.ofNat 32 r) = decide (r + 32 ≤ w) := by
  refine decide_eq_decide.2 ?_
  rw [BitVec.le_def, BitVec.toNat_add, signExtend_ofNat hr, signExtend_ofNat hw, BitVec.toNat_ofNat]
  omega

theorem ofNat_succ : BitVec.ofNat 32 r + 1 = BitVec.ofNat 32 (r + 1) := (BitVec.ofNat_add ..).symm

/-! ## The invariant -/

/-- What `devpipe_read` knows, when `r` bytes are taken and `w` accepted, all in `xs`. -/
def ReaderOk (xs returned : List Byte) (r w : ℕ) : Reader → Prop
  | .idle _ => returned = xs.take r
  | .test _ buf => returned ++ buf = xs.take r
  | .compare _ buf rpos => returned ++ buf = xs.take r ∧ rpos = BitVec.ofNat 32 r
  | .wait _ buf => returned ++ buf = xs.take r
  | .take _ buf => returned ++ buf = xs.take r ∧ r < w
  | .load _ buf rpos => returned ++ buf = xs.take r ∧ r < w ∧ rpos = BitVec.ofNat 32 r
  | .taken _ buf => returned ++ buf = xs.take (r + 1) ∧ r < w
  | .bump _ buf rpos => returned ++ buf = xs.take (r + 1) ∧ r < w ∧ rpos = BitVec.ofNat 32 r

/-- What `devpipe_write` knows. -/
def WriterOk (cell : ℕ → Byte) (r w : ℕ) : Writer → Prop
  | .idle _ | .test _ _ | .wait _ _ _ => True
  | .compare _ _ _ wpos => wpos = BitVec.ofNat 32 w
  | .put _ _ _ => w < r + 32
  | .store _ _ _ wpos => w < r + 32 ∧ wpos = BitVec.ofNat 32 w
  | .stored b _ _ => w < r + 32 ∧ cell (w % 32) = b
  | .bump b _ _ wpos => w < r + 32 ∧ cell (w % 32) = b ∧ wpos = BitVec.ofNat 32 w

/-- A byte more in the stream is nothing to the reader. -/
theorem ReaderOk.accept {xs returned : List Byte} {rd : Reader} (h : ReaderOk xs returned r w rd)
    (hr : r ≤ w) (hw : w = xs.length) : ReaderOk (xs ++ [b]) returned r (w + 1) rd := by
  have htake : ∀ k ≤ w, (xs ++ [b]).take k = xs.take k :=
    fun k hk => List.take_append_of_le_length (by omega)
  cases rd with
  | idle ret => exact h.trans (htake r hr).symm
  | test n buf => exact h.trans (htake r hr).symm
  | compare n buf rpos => exact ⟨h.1.trans (htake r hr).symm, h.2⟩
  | wait n buf => exact h.trans (htake r hr).symm
  | take n buf => exact ⟨h.1.trans (htake r hr).symm, Nat.lt_succ_of_lt h.2⟩
  | load n buf rpos => exact ⟨h.1.trans (htake r hr).symm, Nat.lt_succ_of_lt h.2.1, h.2.2⟩
  | taken n buf => exact ⟨h.1.trans (htake _ h.2).symm, Nat.lt_succ_of_lt h.2⟩
  | bump n buf rpos => exact ⟨h.1.trans (htake _ h.2.1).symm, Nat.lt_succ_of_lt h.2.1, h.2.2⟩

/-- Nor is a byte less in the pipe to the writer. -/
theorem WriterOk.take {cell : ℕ → Byte} {wr : Writer} (h : WriterOk cell r w wr) :
    WriterOk cell (r + 1) w wr := by
  cases wr with
  | idle ret => trivial
  | test buf i => trivial
  | wait b buf i => trivial
  | compare b buf i wpos => exact h
  | put b buf i => exact Nat.lt_succ_of_lt h
  | store b buf i wpos => exact ⟨Nat.lt_succ_of_lt h.1, h.2⟩
  | stored b buf i => exact ⟨Nat.lt_succ_of_lt h.1, h.2⟩
  | bump b buf i wpos => exact ⟨Nat.lt_succ_of_lt h.1, h.2⟩

/-- The cells of `p_buf`. -/
def cells (p : ℕ) (mem : Bytes) (i : ℕ) : Byte := mem.byte (p + 8 + i)

/-- **The page holds the bytes that are accepted and not taken.** -/
structure Inv (p : ℕ) (s : State) : Prop where
  rpos : s.mem.load32 p = BitVec.ofNat 32 s.taken
  wpos : s.mem.load32 (p + 4) = BitVec.ofNat 32 s.accepted.length
  le : s.taken ≤ s.accepted.length
  bound : s.accepted.length ≤ s.taken + 32
  small : s.accepted.length < 2 ^ 31
  ring : Ring.Holds (cells p s.mem) 32 s.accepted s.taken s.accepted.length
  reader : ReaderOk s.accepted s.returned s.taken s.accepted.length s.reader
  writer : WriterOk (cells p s.mem) s.taken s.accepted.length s.writer

theorem initial_inv : Inv p initial where
  rpos := by unfold initial Bytes.load32; rfl
  wpos := by unfold initial Bytes.load32; rfl
  le := le_rfl
  bound := by simp [initial]
  small := by simp [initial]
  ring := .empty
  reader := rfl
  writer := trivial

/-- A reader that takes a step with no access to the page. -/
theorem Inv.read (h : Inv p s) {rd : Reader} {returned : List Byte}
    (hr : ReaderOk s.accepted returned s.taken s.accepted.length rd) :
    Inv p { s with reader := rd, returned := returned } :=
  ⟨h.rpos, h.wpos, h.le, h.bound, h.small, h.ring, hr, h.writer⟩

/-- A writer that takes a step with no store to the page. -/
theorem Inv.write (h : Inv p s) {wr : Writer}
    (hw : WriterOk (cells p s.mem) s.taken s.accepted.length wr) : Inv p { s with writer := wr } :=
  ⟨h.rpos, h.wpos, h.le, h.bound, h.small, h.ring, h.reader, hw⟩

theorem reader_step (h : Inv p s) : Inv p (readerStep p ask closed s) := by
  have hrd := h.reader
  have hle := h.le
  have hsm := h.small
  unfold readerStep
  rcases hs : s.reader with ret | ⟨n, buf⟩ | ⟨n, buf, rpos⟩ | ⟨n, buf⟩ | ⟨n, buf⟩ | ⟨n, buf, rpos⟩ | ⟨n, buf⟩ | ⟨n, buf, rpos⟩ <;>
    rw [hs] at hrd
  · refine h.read ?_
    show s.returned ++ [] = _
    rw [List.append_nil]
    exact hrd
  · dsimp only
    split
    · exact h.read ⟨hrd, h.rpos⟩
    · exact h.read (show s.returned ++ buf = _ from hrd)
  · obtain ⟨h1, rfl⟩ := hrd
    dsimp only
    rw [h.wpos]
    split
    · exact h.read h1
    · rename_i hne
      have h2 : s.taken ≠ s.accepted.length := fun h2 => hne (by rw [h2])
      exact h.read ⟨h1, by omega⟩
  · dsimp only
    split
    · exact h.read (show s.returned ++ buf = _ from hrd)
    · rename_i hb
      have hnil : buf = [] := List.eq_nil_of_length_eq_zero (by omega)
      split
      · refine h.read ?_
        rw [hnil, ReaderOk, List.append_nil] at hrd
        exact hrd
      · exact h.read hrd
  · exact h.read ⟨hrd.1, hrd.2, h.rpos⟩
  · obtain ⟨h1, h2, rfl⟩ := hrd
    refine h.read ⟨?_, h2⟩
    have h3 := h.ring.get h2
    rw [Ring.take_succ_eq h3, ← h1, List.append_assoc, bufAt_ofNat (by omega)]
    rfl
  · exact h.read ⟨hrd.1, hrd.2, h.rpos⟩
  · obtain ⟨h1, h2, rfl⟩ := hrd
    have hcell : cells p (s.mem.store32 p (BitVec.ofNat 32 s.taken + 1)) = cells p s.mem :=
      funext fun i => Bytes.byte_store32_off (by omega)
    have hb := h.bound
    refine ⟨?_, ?_, h2, by dsimp only; omega, hsm, ?_, h1, ?_⟩
    · dsimp only
      rw [ofNat_succ]
      exact Bytes.load32_store32 ..
    · exact (Bytes.load32_store32_off (by omega)).trans h.wpos
    · dsimp only
      rw [hcell]
      exact h.ring.mono (by omega)
    · dsimp only
      rw [hcell]
      exact h.writer.take

theorem writer_step (h : Inv p s) (hf : Fits s) : Inv p (writerStep p data closed s) := by
  have hwr := h.writer
  have hle := h.le
  have hsm := h.small
  unfold writerStep
  rcases hs : s.writer with ret | ⟨_ | ⟨b, buf⟩, i⟩ | ⟨b, buf, i, wpos⟩ | ⟨b, buf, i⟩ | ⟨b, buf, i⟩ |
    ⟨b, buf, i, wpos⟩ | ⟨b, buf, i⟩ | ⟨b, buf, i, wpos⟩ <;>
    rw [hs] at hwr
  · exact h.write trivial
  · exact h.write trivial
  · exact h.write h.wpos
  · obtain rfl := hwr
    dsimp only
    rw [h.rpos, isFull_ofNat (by omega) hsm]
    split
    · exact h.write trivial
    · rename_i hfull
      refine h.write ?_
      have h1 : ¬ s.taken + 32 ≤ s.accepted.length := by simpa using hfull
      exact (show s.accepted.length < s.taken + 32 by omega)
  · dsimp only
    split
    · exact h.write trivial
    · exact h.write trivial
  · exact h.write ⟨hwr, h.wpos⟩
  · obtain ⟨h1, rfl⟩ := hwr
    -- the byte goes to a cell whose byte was taken
    have hat : bufAt p (BitVec.ofNat 32 s.accepted.length) = p + 8 + s.accepted.length % 32 :=
      bufAt_ofNat hsm
    dsimp only
    rw [hat]
    have hb : ([b] : List Byte).length = 1 := rfl
    refine ⟨?_, ?_, hle, h.bound, hsm, ?_, h.reader, h1, ?_⟩
    · exact (Bytes.load32_write_off (by omega)).trans h.rpos
    · exact (Bytes.load32_write_off (by omega)).trans h.wpos
    · refine h.ring.set h1 fun k _ hk => Bytes.byte_write_off ?_
      rw [hb]
      omega
    · exact Bytes.byte_write_in (i := 0) (by simp)
  · exact h.write ⟨hwr.1, hwr.2, h.wpos⟩
  · obtain ⟨h1, h2, rfl⟩ := hwr
    have hfit : s.accepted.length ≠ 2 ^ 31 - 1 := by
      intro he
      refine hf b buf i _ hs ?_
      rw [he]
      rfl
    have hcell : cells p (s.mem.store32 (p + 4) (BitVec.ofNat 32 s.accepted.length + 1)) = cells p s.mem :=
      funext fun i => Bytes.byte_store32_off (by omega)
    have hlen : (s.accepted ++ [b]).length = s.accepted.length + 1 := by simp
    refine ⟨?_, ?_, ?_, ?_, ?_, ?_, ?_, trivial⟩
    · exact (Bytes.load32_store32_off (by omega)).trans h.rpos
    · dsimp only
      rw [hlen, ofNat_succ]
      exact Bytes.load32_store32 ..
    · dsimp only
      omega
    · dsimp only
      omega
    · dsimp only
      omega
    · dsimp only
      rw [hcell, hlen]
      exact h.ring.put rfl h2
    · dsimp only
      rw [hlen]
      exact h.reader.accept hle rfl

theorem run_inv (h : Inv p s) (hr : Run p Fits s s') : Inv p s' := by
  induction hr with
  | refl => exact h
  | tail _ hst ih =>
    cases hst with
    | reader ask closed => exact reader_step ih
    | writer data closed hf => exact writer_step ih hf

/-- **The invariant gives the FIFO.** -/
theorem Inv.fifo (h : Inv p s) : Fifo p s where
  order := by
    have hrd := h.reader
    have htake : ∀ {k buf}, s.returned ++ buf = s.accepted.take k → s.returned <+: s.accepted :=
      fun he => (List.prefix_append _ _).trans (he ▸ List.take_prefix _ _)
    revert hrd
    rcases s.reader with ret | ⟨n, buf⟩ | ⟨n, buf, rpos⟩ | ⟨n, buf⟩ | ⟨n, buf⟩ | ⟨n, buf, rpos⟩ | ⟨n, buf⟩ | ⟨n, buf, rpos⟩ <;>
      simp only [ReaderOk] <;> intro hrd
    · rw [hrd]
      exact List.take_prefix _ _
    · exact htake hrd
    · exact htake hrd.1
    · exact htake hrd
    · exact htake hrd.1
    · exact htake hrd.1
    · exact htake hrd.1
    · exact htake hrd.1
  bound := by
    have h1 := h.le
    have h2 := h.bound
    unfold State.outstanding
    omega
  inside i hi := by
    have h1 := h.le
    have h2 := h.small
    have hrd := h.reader
    have hwr := h.writer
    unfold State.accesses at hi
    rcases List.mem_append.1 hi with hi | hi
    · revert hrd hi
      rcases s.reader with ret | ⟨n, buf⟩ | ⟨n, buf, rpos⟩ | ⟨n, buf⟩ | ⟨n, buf⟩ | ⟨n, buf, rpos⟩ | ⟨n, buf⟩ | ⟨n, buf, rpos⟩ <;>
        simp only [ReaderOk, List.not_mem_nil, IsEmpty.forall_iff, implies_true, List.mem_singleton]
      rintro ⟨-, -, rfl⟩ rfl
      rw [index_ofNat (by omega)]
      omega
    · revert hwr hi
      rcases s.writer with ret | ⟨buf, i⟩ | ⟨b, buf, i, wpos⟩ | ⟨b, buf, i⟩ | ⟨b, buf, i⟩ |
        ⟨b, buf, i, wpos⟩ | ⟨b, buf, i⟩ | ⟨b, buf, i, wpos⟩ <;>
        simp only [WriterOk, List.not_mem_nil, IsEmpty.forall_iff, implies_true, List.mem_singleton]
      rintro ⟨-, rfl⟩ rfl
      rw [index_ofNat h2]
      omega
  held := by
    rintro ⟨b, buf, i, wpos, hs, hfull⟩
    have h1 := h.le
    have h2 := h.small
    have h3 := h.bound
    have hwr := h.writer
    rw [hs] at hwr
    obtain rfl := hwr
    rw [h.rpos, isFull_ofNat (by omega) h2] at hfull
    have h4 := of_decide_eq_true hfull
    unfold State.outstanding
    omega

/-- **A pipe is a bounded FIFO** in every run in which `p_wpos` does not overflow. -/
theorem pipe_fifo (hr : Run p Fits initial s) : Fifo p s := (run_inv initial_inv hr).fifo

/-! ## One byte after the other -/

theorem Run.write {s₀ : State} (data : List Byte) (hr : Run p Fits s₀ s) (hf : Fits s) :
    Run p Fits s₀ (writerStep p data false s) := hr.tail (.writer data false hf)

theorem Run.read {s₀ : State} (hr : Run p Fits s₀ s) : Run p Fits s₀ (readerStep p 1 false s) :=
  hr.tail (.reader 1 false)

/-- `devpipe_write` of one byte, up to the increment of `p_wpos`. -/
theorem write_bump {ret : ℕ} (h : Inv p s) (hw : s.writer = .idle ret)
    (hroom : s.accepted.length < s.taken + 32) (b : Byte) :
    ∃ m, Run p Fits s { s with mem := m, writer := .bump b [] 0 (BitVec.ofNat 32 s.accepted.length) } := by
  have hle := h.le
  have h1 : Run p Fits s { s with writer := .test [b] 0 } := by
    have he : writerStep p [b] false s = { s with writer := .test [b] 0 } := by simp [writerStep, hw]
    rw [← he]
    exact Run.write [b] .refl (by intro b' buf i wpos h0; rw [hw] at h0; cases h0)
  have h2 : Run p Fits s { s with writer := .compare b [] 0 (s.mem.load32 (p + 4)) } := h1.write [] nofun
  have h3 : Run p Fits s { s with writer := .put b [] 0 } := by
    have he : writerStep p [] false { s with writer := .compare b [] 0 (s.mem.load32 (p + 4)) } =
        { s with writer := .put b [] 0 } := by
      have hfull : isFull (s.mem.load32 (p + 4)) (s.mem.load32 p) = false := by
        rw [h.wpos, h.rpos, isFull_ofNat (by have := h.small; omega) h.small]
        exact decide_eq_false (by omega)
      simp [writerStep, hfull]
    rw [← he]
    exact h2.write [] nofun
  have h4 : Run p Fits s { s with writer := .store b [] 0 (s.mem.load32 (p + 4)) } := h3.write [] nofun
  have h5 : Run p Fits s { s with mem := s.mem.write (bufAt p (s.mem.load32 (p + 4))) [b],
                                  writer := .stored b [] 0 } := h4.write [] nofun
  have h6 := h5.write [] nofun
  have h7 := (run_inv h h5).wpos
  dsimp only [writerStep] at h6 h7
  rw [h7] at h6
  exact ⟨_, h6⟩

/-- `devpipe_write` of one byte. -/
theorem write_one {ret : ℕ} (h : Inv p s) (hw : s.writer = .idle ret)
    (hroom : s.accepted.length < s.taken + 32) (hfit : s.accepted.length < 2 ^ 31 - 1) (b : Byte) :
    ∃ m, Run p Fits s { s with mem := m, writer := .idle 1, accepted := s.accepted ++ [b] } := by
  obtain ⟨m, h1⟩ := write_bump h hw hroom b
  refine ⟨_, (h1.write [] ?_).write [] nofun⟩
  intro b' buf i wpos h2 h3
  obtain ⟨-, -, -, rfl⟩ := Writer.bump.inj h2
  have h4 := congrArg BitVec.toNat h3
  rw [BitVec.toNat_ofNat] at h4
  have h5 : (0x7FFFFFFF#32).toNat = 2 ^ 31 - 1 := rfl
  omega

/-- `devpipe_read` of one byte. -/
theorem read_one {ret : ℕ} (h : Inv p s) (hr : s.reader = .idle ret) (hlt : s.taken < s.accepted.length) :
    ∃ m x, s.accepted[s.taken]? = some x ∧
      Run p Fits s { s with mem := m, reader := .idle 1, taken := s.taken + 1, returned := s.returned ++ [x] } := by
  have hsm := h.small
  have h1 : Run p Fits s { s with reader := .test 1 [] } := by
    have he : readerStep p 1 false s = { s with reader := .test 1 [] } := by simp [readerStep, hr]
    rw [← he]
    exact Run.read .refl
  have h2 : Run p Fits s { s with reader := .compare 1 [] (s.mem.load32 p) } := h1.read
  have h3 : Run p Fits s { s with reader := .take 1 [] } := by
    have he : readerStep p 1 false { s with reader := .compare 1 [] (s.mem.load32 p) } =
        { s with reader := .take 1 [] } := by
      have hne : s.mem.load32 p ≠ s.mem.load32 (p + 4) := by
        rw [h.rpos, h.wpos]
        intro h2
        have h4 := congrArg BitVec.toNat h2
        rw [BitVec.toNat_ofNat, BitVec.toNat_ofNat] at h4
        omega
      simp [readerStep, hne]
    rw [← he]
    exact h2.read
  have h4 : Run p Fits s { s with reader := .load 1 [] (s.mem.load32 p) } := h3.read
  have h5 := h4.read.read.read.read
  dsimp only [readerStep] at h5
  rw [h.rpos, bufAt_ofNat (by omega)] at h5
  exact ⟨_, cells p s.mem (s.taken % 32), h.ring.get hlt, h5⟩

/-! ## The position overflows -/

theorem Run.weaken {C : State → Prop} (hr : Run p C s s') : Run p (fun _ => True) s s' := by
  induction hr with
  | refl => exact .refl
  | tail _ h ih =>
    cases h with
    | reader ask closed => exact ih.tail (.reader ask closed)
    | writer data closed _ => exact ih.tail (.writer data closed trivial)

/-- Any number of bytes below `2 ^ 31` may pass one by one. -/
theorem run_to {k : ℕ} (hk : k < 2 ^ 31) : ∃ s, Run 0 Fits initial s ∧ s.accepted.length = k ∧ s.taken = k ∧
    (∃ ret, s.reader = .idle ret) ∧ ∃ ret, s.writer = .idle ret := by
  induction k with
  | zero => exact ⟨initial, .refl, rfl, rfl, ⟨0, rfl⟩, ⟨0, rfl⟩⟩
  | succ k ih =>
    obtain ⟨s, hr, ha, ht, ⟨ret, hrd⟩, ⟨ret', hwr⟩⟩ := ih (by omega)
    have hinv := run_inv initial_inv hr
    obtain ⟨m, hw⟩ := write_one hinv hwr (by omega) (by omega) 0
    have hinv' := run_inv hinv hw
    obtain ⟨m', x, -, hr'⟩ := read_one hinv' hrd (by simp; omega)
    refine ⟨_, (hr.trans hw).trans hr', ?_, ?_, ⟨_, rfl⟩, ⟨_, rfl⟩⟩
    · simp [ha]
    · simp [ht]

/-- **This fails**: after `2 ^ 31 - 1` bytes were written and read, the pipe is empty. One
more byte makes `p_wpos` negative, and as a `size_t` it is then far above `p_rpos`: the writer
is held back with one byte in the pipe. -/
theorem pipe_fifo_counterexample : ¬ ∀ s, Run 0 (fun _ => True) initial s → Fifo 0 s := by
  intro h
  obtain ⟨s, hr, ha, ht, -, ⟨ret, hwr⟩⟩ := run_to (k := 2 ^ 31 - 1) (by omega)
  have hinv := run_inv initial_inv hr
  obtain ⟨m, hb⟩ := write_bump hinv hwr (by omega) 0
  have hrpos := (run_inv hinv hb).rpos
  have h1 := Run.weaken (hr.trans hb)
  rw [ha] at h1
  -- the increment, the return, and the next call up to its test
  have h2 := (((h1.tail (.writer [0] false trivial)).tail (.writer [0] false trivial)).tail
    (.writer [0] false trivial)).tail (.writer [0] false trivial)
  dsimp only [writerStep] at h2 hrpos
  have h3 := (h _ h2).held ⟨_, _, _, _, rfl, ?_⟩
  · unfold State.outstanding at h3
    simp [ha, ht] at h3
  · dsimp only
    rw [Bytes.load32_store32, Bytes.load32_store32_off (by omega), hrpos, ht]
    decide

/-- A byte is written and read. -/
theorem pipe_fifo_byte : ∃ s, Run 0 Fits initial s ∧ s.returned = [0x68] ∧ Fifo 0 s := by
  obtain ⟨m, hw⟩ := write_one initial_inv rfl (by decide) (by decide) 0x68
  obtain ⟨m', x, hx, hr⟩ := read_one (run_inv initial_inv hw) rfl Nat.one_pos
  have hx : x = 0x68 := (Option.some.inj hx).symm
  subst hx
  exact ⟨_, hw.trans hr, rfl, pipe_fifo (hw.trans hr)⟩

end Jos.Pipe
