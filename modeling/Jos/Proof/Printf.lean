import Jos.Proof.Printnum

/-!
# The functions that print

All four functions pass the characters of `vprintfmt` on, each once and in order: a fold with an invariant that
says which characters are out and which are still in a buffer. `printf_differ`: so they emit the same, but do not
all return the number of characters: the kernel's `vcprintf` returns 0 always, since `*cnt++` moves the pointer,
and `vfprintf` returns its `error` if there is no character.
-/

namespace Jos.Printf

open Lib

variable {fmt rest bs : List Byte} {va : VaList} {out : List (BitVec 32)} {dev : List Byte → BitVec 64} {mem : Bytes}
  {buf : ℕ} {n : BitVec 32}

/-- The characters, as bytes. -/
def chars (out : List (BitVec 32)) : List Byte := out.map (·.setWidth 8)

@[simp] theorem chars_length (out : List (BitVec 32)) : (chars out).length = out.length := List.length_map _

/-! ## The kernel -/

theorem Kernel.foldl_putch (k : Kernel) (out : List (BitVec 32)) :
    out.foldl Kernel.putch k = ⟨k.console ++ chars out, k.cnt⟩ := by
  induction out generalizing k with
  | nil =>
    unfold chars
    rw [List.map_nil, List.append_nil]
    rfl
  | cons c out ih =>
    rw [List.foldl_cons, ih]
    unfold Kernel.putch chars
    simp only [List.map_cons, List.append_assoc, List.cons_append, List.nil_append]

/-- **`vcprintf` of the kernel** returns 0. -/
theorem Kernel.vcprintf_eq (console : List Byte) (h : vprintfmt fmt va = some out) :
    Kernel.vcprintf console fmt va = some (console ++ chars out, 0) := by
  unfold Kernel.vcprintf
  rw [h]
  simp only [Option.bind_eq_bind, Option.bind_some, Kernel.foldl_putch]

/-! ## `sys_cputs` -/

/-- A string that is cut by a precision. -/
theorem putStr_cut (s : List Byte) (k j : ℕ) (hk : k < 2 ^ 31) :
    putStr false s (BitVec.ofNat 32 k) (0 - BitVec.ofNat 32 j) =
      ((s.take k).map (·.signExtend 32), 0 - BitVec.ofNat 32 (j + (s.take k).length)) := by
  have hneg : ∀ k < 2 ^ 31, (BitVec.ofNat 32 k).slt 0 = false := by
    intro k hk
    have h0 : (0 : BitVec 32).toInt = 0 := rfl
    rw [BitVec.slt_eq_decide, decide_eq_false_iff_not, BitVec.toInt_eq_toNat_cond, BitVec.toNat_ofNat, h0,
      Nat.mod_eq_of_lt (by omega), if_pos (by omega)]
    omega
  induction s generalizing k j with
  | nil =>
    unfold putStr
    rw [List.take_nil]
    rfl
  | cons ch s ih =>
    unfold putStr
    simp only [hneg k hk, Bool.false_and, Bool.false_eq_true, if_false]
    cases k with
    | zero =>
      rw [if_pos (by decide), List.take_zero]
      rfl
    | succ k =>
      have hpred : BitVec.ofNat 32 (k + 1) - 1 = BitVec.ofNat 32 k := by
        rw [BitVec.ofNat_add]
        exact add_sub_cancel_right _ _
      have hnext : (0 : BitVec 32) - BitVec.ofNat 32 j - 1 = 0 - BitVec.ofNat 32 (j + 1) := by
        rw [BitVec.ofNat_add, sub_sub]
        rfl
      have hcount : j + 1 + (s.take k).length = j + ((s.take k).length + 1) := by omega
      rw [hpred, hneg k (by omega), if_neg Bool.false_ne_true, hnext, ih k (j + 1) (by omega), List.take_succ_cons,
        List.map_cons, List.length_cons, hcount]

/-- `%.*s`. -/
theorem vprintfmt_cut (va : VaList) : vprintfmt (text "%.*s") va =
    some (string (if va.word 1 = 0 then text "(null)" else va.str (va.word 1)) (ascii ' ') 0 (va.int 0) false ++ []) := by
  rfl

/-- **`sys_cputs`** prints the bytes before the first 0. -/
theorem sysCputs_eq (console rest : List Byte) (hbs : ∀ b ∈ bs, b ≠ 0) (hlen : bs.length < 2 ^ 31) :
    sysCputs console bs rest = some (console ++ bs) := by
  have hint : (VaList.mk (fun i => if i = 0 then BitVec.ofNat 64 bs.length else 1) fun _ => (bs ++ rest).takeWhile (· ≠ 0)).int 0 =
      BitVec.ofNat 32 bs.length := by
    unfold VaList.int
    dsimp only
    rw [if_pos rfl]
    apply BitVec.eq_of_toNat_eq
    rw [BitVec.toNat_setWidth, BitVec.toNat_ofNat, BitVec.toNat_ofNat]
    omega
  have hstr : ((bs ++ rest).takeWhile (· ≠ 0)).take bs.length = bs := by
    rw [List.takeWhile_append_of_pos (fun b hb => decide_eq_true (hbs b hb)), List.take_left]
  have hwidth : pad (0 - BitVec.ofNat 32 (0 + bs.length)) (ascii ' ') = [] := by
    unfold pad
    rw [BitVec.toInt_eq_toNat_cond, BitVec.toNat_sub, BitVec.toNat_ofNat]
    have h0 : (0 : BitVec 32).toNat = 0 := rfl
    rw [h0, List.replicate_eq_nil_iff]
    split
    · omega
    · omega
  have hcut := putStr_cut ((bs ++ rest).takeWhile (· ≠ 0)) bs.length 0 hlen
  rw [hstr] at hcut
  have hback : ∀ b : Byte, (b.signExtend 32).setWidth 8 = b := by decide
  unfold sysCputs
  dsimp only
  rw [Kernel.vcprintf_eq console (vprintfmt_cut _), hint]
  dsimp only [Option.bind_eq_bind, Option.bind_some]
  rw [if_neg (by rw [if_neg Nat.one_ne_zero]; decide)]
  unfold string chars
  rw [show ((0 : BitVec 32).slt 0 && decide (ascii ' ' ≠ ascii '-')) = false from by decide]
  simp only [Bool.false_and, Bool.false_eq_true, if_false]
  rw [show (0 : BitVec 32) - BitVec.ofNat 32 0 = 0 from by decide] at hcut
  rw [hcut]
  simp only [hwidth, List.nil_append, List.append_nil, List.map_map]
  rw [show (fun c : BitVec 32 => c.setWidth 8) ∘ (fun b : Byte => b.signExtend 32) = id from funext hback, List.map_id]

/-! ## Processes -/

/-- What `vcprintf` of a process has printed, and what it has in its buffer. -/
structure User.Holds (b : User) (done : List (BitVec 32)) : Prop where
  chars : b.console ++ b.buf = chars done
  lt : b.buf.length < 255
  cnt : b.cnt = BitVec.ofNat 32 done.length

/-- One character. -/
theorem User.putch_holds {b : User} {done : List (BitVec 32)} {c : BitVec 32} (h : b.Holds done) (hc : c.setWidth 8 ≠ (0 : Byte))
    (hz : ∀ x ∈ b.buf, x ≠ 0) : ∃ b', User.putch rest b c = some b' ∧ b'.Holds (done ++ [c]) ∧ ∀ x ∈ b'.buf, x ≠ 0 := by
  have hchars : b.console ++ (b.buf ++ [c.setWidth 8]) = Printf.chars (done ++ [c]) := by
    unfold Printf.chars
    rw [← List.append_assoc, h.chars, List.map_append]
    rfl
  have hcnt : b.cnt + 1 = BitVec.ofNat 32 (done ++ [c]).length := by
    rw [h.cnt, List.length_append, List.length_singleton, BitVec.ofNat_add]
    rfl
  have hnz : ∀ x ∈ b.buf ++ [c.setWidth 8], x ≠ 0 := by
    intro x hx
    rcases List.mem_append.1 hx with hx | hx
    · exact hz x hx
    · rw [List.mem_singleton.1 hx]
      exact hc
  have hlt := h.lt
  have hlen : (b.buf ++ [c.setWidth 8]).length = b.buf.length + 1 := by
    rw [List.length_append, List.length_singleton]
  unfold User.putch
  dsimp only
  rw [hlen]
  by_cases hfull : b.buf.length + 1 = 256 - 1
  · rw [if_pos hfull, sysCputs_eq _ _ hnz (by rw [hlen]; omega)]
    refine ⟨_, rfl, ⟨?_, Nat.zero_lt_succ _, hcnt⟩, nofun⟩
    dsimp only
    rw [List.append_nil, hchars]
  · rw [if_neg hfull]
    exact ⟨_, rfl, ⟨hchars, by dsimp only; omega, hcnt⟩, hnz⟩

theorem User.foldlM_putch {b : User} {done : List (BitVec 32)} (h : b.Holds done) (hz : ∀ x ∈ b.buf, x ≠ 0)
    (hout : ∀ c ∈ out, c.setWidth 8 ≠ (0 : Byte)) :
    ∃ b', out.foldlM (User.putch rest) b = some b' ∧ b'.Holds (done ++ out) ∧ ∀ x ∈ b'.buf, x ≠ 0 := by
  induction out generalizing b done with
  | nil =>
    rw [List.append_nil]
    exact ⟨b, rfl, h, hz⟩
  | cons c out ih =>
    obtain ⟨b₁, h1, h2, h3⟩ := User.putch_holds h (hout c List.mem_cons_self) hz
    obtain ⟨b', h4, h5⟩ := ih h2 h3 fun x hx => hout x (List.mem_cons_of_mem _ hx)
    rw [List.append_assoc] at h5
    refine ⟨b', ?_, h5⟩
    rw [List.foldlM_cons, h1]
    exact h4

/-- **`vcprintf` of a process.** -/
theorem User.vcprintf_eq (rest : List Byte) (h : vprintfmt fmt va = some out) (hout : ∀ c ∈ out, c.setWidth 8 ≠ (0 : Byte)) :
    User.vcprintf rest [] fmt va = some (chars out, BitVec.ofNat 32 out.length) := by
  obtain ⟨b, h1, h2, h3⟩ := User.foldlM_putch (⟨rfl, Nat.zero_lt_succ _, rfl⟩ : User.Holds ⟨[], [], 0⟩ []) nofun hout
  have hlt := h2.lt
  unfold User.vcprintf
  rw [h]
  dsimp only [Option.bind_eq_bind, Option.bind_some]
  rw [h1]
  dsimp only [Option.bind_some]
  rw [sysCputs_eq _ _ h3 (by omega)]
  simp only [Option.bind_some, h2.chars, h2.cnt, List.nil_append]

/-! ## Descriptors -/

/-- What `vfprintf` has written to a device that accepts all, and what it has in its buffer. -/
structure File.Holds (b : File) (done : List (BitVec 32)) : Prop where
  chars : b.written ++ b.buf = chars done
  lt : b.buf.length < 256
  result : b.result = BitVec.ofNat 64 b.written.length
  error : b.error = 1

/-- **`writebuf`** for such a device. -/
theorem File.writebuf_eq (hdev : ∀ bs, dev bs = BitVec.ofNat 64 bs.length) {b : File} (herr : b.error = 1)
    (hpos : 0 < b.buf.length) (hlen : b.buf.length ≤ 256) : b.writebuf dev =
      { b with written := b.written ++ b.buf, result := b.result + BitVec.ofNat 64 b.buf.length } := by
  have hint : (BitVec.ofNat 64 b.buf.length).toInt = b.buf.length := by
    rw [BitVec.toInt_eq_toNat_cond, BitVec.toNat_ofNat, Nat.mod_eq_of_lt (by omega), if_pos (by omega)]
  have hslt : (0 : BitVec 64).slt (BitVec.ofNat 64 b.buf.length) = true := by
    have h0 : (0 : BitVec 64).toInt = 0 := rfl
    rw [BitVec.slt_eq_decide, hint, h0]
    exact decide_eq_true (by omega)
  unfold File.writebuf
  rw [herr, if_pos (by decide), hdev]
  dsimp only
  rw [hslt, if_pos rfl, if_neg (not_not.2 rfl), hint, Int.toNat_natCast, List.take_length]

theorem File.putch_holds (hdev : ∀ bs, dev bs = BitVec.ofNat 64 bs.length) {b : File} {done : List (BitVec 32)}
    (h : b.Holds done) (c : BitVec 32) : (File.putch dev b c).Holds (done ++ [c]) := by
  have hchars : b.written ++ (b.buf ++ [c.setWidth 8]) = Printf.chars (done ++ [c]) := by
    unfold Printf.chars
    rw [← List.append_assoc, h.chars, List.map_append]
    rfl
  have hlt := h.lt
  have hlen : (b.buf ++ [c.setWidth 8]).length = b.buf.length + 1 := by
    rw [List.length_append, List.length_singleton]
  unfold File.putch
  dsimp only
  rw [hlen]
  by_cases hfull : b.buf.length + 1 = 256
  · rw [if_pos hfull, File.writebuf_eq (b := ⟨b.written, b.buf ++ [c.setWidth 8], b.result, b.error⟩) hdev h.error
      (by rw [hlen]; omega) (by rw [hlen]; omega)]
    refine ⟨?_, (by decide : ([] : List Byte).length < 256), ?_, h.error⟩
    · dsimp only
      rw [List.append_nil, hchars]
    · dsimp only
      rw [h.result, ← BitVec.ofNat_add, ← List.length_append]
  · rw [if_neg hfull]
    exact ⟨hchars, by dsimp only; omega, h.result, h.error⟩

theorem File.foldl_putch (done : List (BitVec 32)) (hdev : ∀ bs, dev bs = BitVec.ofNat 64 bs.length) {b : File}
    (h : b.Holds done) : (out.foldl (File.putch dev) b).Holds (done ++ out) := by
  induction out generalizing b done with
  | nil =>
    rw [List.append_nil]
    exact h
  | cons c out ih =>
    have h1 := ih _ (File.putch_holds hdev h c)
    rw [List.append_assoc] at h1
    exact h1

/-- **`vfprintf`** returns 1 if there is nothing to print. -/
theorem File.vfprintf_eq (hdev : ∀ bs, dev bs = BitVec.ofNat 64 bs.length) (h : vprintfmt fmt va = some out) :
    File.vfprintf dev fmt va = some (chars out,
      if BitVec.ofNat 64 out.length ≠ 0 then (BitVec.ofNat 64 out.length).setWidth 32 else 1) := by
  obtain ⟨b, hb⟩ : ∃ b, b = out.foldl (File.putch dev) ⟨[], [], 0, 1⟩ := ⟨_, rfl⟩
  have hholds : b.Holds out := by
    rw [hb]
    exact File.foldl_putch [] hdev ⟨rfl, (by decide : ([] : List Byte).length < 256), rfl, rfl⟩
  have hlen : b.written.length + b.buf.length = out.length := by
    rw [← List.length_append, hholds.chars, chars_length]
  have hlt := hholds.lt
  unfold File.vfprintf
  rw [h]
  dsimp only [Option.bind_eq_bind, Option.bind_some]
  rw [← hb]
  by_cases hpos : b.buf.length > 0
  · rw [if_pos hpos, File.writebuf_eq hdev hholds.error hpos (by omega)]
    dsimp only
    rw [hholds.chars, hholds.error, hholds.result, ← BitVec.ofNat_add, hlen]
  · have hnil : b.buf = [] := List.eq_nil_of_length_eq_zero (by omega)
    have hwritten := hholds.chars
    rw [hnil, List.append_nil] at hwritten
    rw [if_neg hpos, hwritten, hholds.error, hholds.result, hwritten, chars_length]

/-! ## Buffers -/

/-- What `vsnprintf` has in its buffer, which has room for more. -/
structure Sprint.Holds (b : Sprint) (buf : ℕ) (done : List (BitVec 32)) : Prop where
  byte : ∀ i (h : i < (chars done).length), b.mem.byte (buf + i) = (chars done)[i]
  cursor : b.buf = buf + done.length
  cnt : b.cnt = BitVec.ofNat 32 done.length

theorem Sprint.putch_holds {b : Sprint} {done : List (BitVec 32)} (h : b.Holds buf done) (hroom : b.buf < b.ebuf)
    (c : BitVec 32) : (Sprint.putch b c).Holds buf (done ++ [c]) ∧ (Sprint.putch b c).ebuf = b.ebuf := by
  unfold Sprint.putch
  dsimp only
  rw [if_pos hroom]
  refine ⟨⟨fun i hi => ?_, ?_, ?_⟩, rfl⟩
  · have hsplit : chars (done ++ [c]) = chars done ++ [c.setWidth 8] := List.map_append
    simp only [hsplit, List.length_append, List.length_singleton, chars_length] at hi ⊢
    by_cases hlt : i < done.length
    · rw [Bytes.byte_write_off (Or.inl (by rw [h.cursor]; omega)), h.byte i (by rw [chars_length]; exact hlt),
        List.getElem_append_left (by rw [chars_length]; exact hlt)]
    · obtain rfl : i = done.length := by omega
      rw [← h.cursor, Bytes.byte_write, if_pos ⟨le_rfl, Nat.lt_succ_self _⟩, Nat.sub_self,
        List.getElem_append_right (by rw [chars_length])]
      simp only [chars_length, Nat.sub_self, List.getD_cons_zero, List.getElem_singleton]
  · dsimp only
    rw [h.cursor, List.length_append, List.length_singleton]
    rfl
  · dsimp only
    rw [h.cnt, List.length_append, List.length_singleton, BitVec.ofNat_add]
    rfl

theorem Sprint.foldl_putch (done : List (BitVec 32)) {b : Sprint} (h : b.Holds buf done)
    (hroom : buf + done.length + out.length ≤ b.ebuf) : (out.foldl Sprint.putch b).Holds buf (done ++ out) := by
  induction out generalizing b done with
  | nil =>
    rw [List.append_nil]
    exact h
  | cons c out ih =>
    rw [List.length_cons] at hroom
    obtain ⟨h1, h2⟩ := Sprint.putch_holds h (by rw [h.cursor]; omega) c
    have h3 := ih _ h1 (by rw [h2, List.length_append, List.length_singleton]; omega)
    rw [List.append_assoc] at h3
    exact h3

/-- **`vsnprintf`** with a buffer that is large enough. -/
theorem Sprint.vsnprintf_eq (mem : Bytes) (hbuf : buf ≠ 0) (hn : (out.length : ℤ) < n.toInt)
    (h : vprintfmt fmt va = some out) (hout : ∀ c ∈ out, c.setWidth 8 ≠ (0 : Byte)) : ∃ mem',
      Sprint.vsnprintf mem buf n fmt va = some (mem', BitVec.ofNat 32 out.length) ∧ IsStr mem' buf (chars out) := by
  have hnat := BitVec.toInt_eq_toNat_cond n
  have hlt := n.isLt
  have hone : n.slt 1 = false := by
    have h1 : (1 : BitVec 32).toInt = 1 := rfl
    rw [BitVec.slt_eq_decide, h1, decide_eq_false_iff_not]
    omega
  have hroom : buf + out.length ≤ buf + n.toNat - 1 := by
    split at hnat
    · omega
    · omega
  have hholds : (out.foldl Sprint.putch ⟨mem, buf, buf + n.toNat - 1, 0⟩).Holds buf out :=
    Sprint.foldl_putch [] ⟨fun _ hi => absurd hi (Nat.not_lt_zero _), rfl, rfl⟩ hroom
  unfold Sprint.vsnprintf
  rw [if_neg (by rw [hone]; exact fun h1 => h1.elim hbuf Bool.false_ne_true), h]
  dsimp only [Option.bind_eq_bind, Option.bind_some]
  refine ⟨_, by rw [hholds.cnt], fun i hi => ?_, ?_, fun b hb => ?_⟩
  · have hi' := hi
    rw [chars_length] at hi'
    rw [Bytes.byte_write_off (Or.inl (by rw [hholds.cursor]; omega)), hholds.byte i hi]
  · rw [chars_length, ← hholds.cursor, Bytes.byte_write, if_pos ⟨le_rfl, Nat.lt_succ_self _⟩, Nat.sub_self]
    rfl
  · obtain ⟨c, hc, rfl⟩ := List.mem_map.1 hb
    exact hout c hc

/-! ## All of them -/

/-- What `vprintfmt` prints is printed by all four, each of which returns the number of characters. -/
def Agree (fmt rest : List Byte) (va : VaList) (dev : List Byte → BitVec 64) (mem : Bytes) (buf : ℕ) (n : BitVec 32)
    (out : List (BitVec 32)) : Prop :=
  (∃ r, Kernel.vcprintf [] fmt va = some (chars out, r) ∧ r.toInt = out.length) ∧
    (∃ r, User.vcprintf rest [] fmt va = some (chars out, r) ∧ r.toInt = out.length) ∧
      (∃ r, File.vfprintf dev fmt va = some (chars out, r) ∧ r.toInt = out.length) ∧
        ∃ mem' r, Sprint.vsnprintf mem buf n fmt va = some (mem', r) ∧ IsStr mem' buf (chars out) ∧ r.toInt = out.length

/-- **The functions print the same, and do not return the same.** The numbers that a process's `vcprintf` and
`vsnprintf` return are right; the kernel's `vcprintf` returns 0 always, and `vfprintf` returns 1 for no
character. -/
theorem printf_differ (rest : List Byte) (mem : Bytes) (h : vprintfmt fmt va = some out)
    (hout : ∀ c ∈ out, c.setWidth 8 ≠ (0 : Byte)) (hdev : ∀ bs, dev bs = BitVec.ofNat 64 bs.length) (hbuf : buf ≠ 0)
    (hn : (out.length : ℤ) < n.toInt) :
    ¬ Agree fmt rest va dev mem buf n out ∧ Kernel.vcprintf [] fmt va = some (chars out, 0) ∧
      (∃ r, User.vcprintf rest [] fmt va = some (chars out, r) ∧ r.toInt = out.length) ∧
        (∃ r, File.vfprintf dev fmt va = some (chars out, r) ∧ (r.toInt = out.length ↔ out ≠ [])) ∧
          ∃ mem' r, Sprint.vsnprintf mem buf n fmt va = some (mem', r) ∧ IsStr mem' buf (chars out) ∧
            r.toInt = out.length := by
  have hlen : out.length < 2 ^ 31 := by
    have h1 := BitVec.toInt_lt (x := n)
    omega
  have hint : (BitVec.ofNat 32 out.length).toInt = out.length := by
    rw [BitVec.toInt_eq_toNat_cond, BitVec.toNat_ofNat, Nat.mod_eq_of_lt (by omega), if_pos (by omega)]
  have hkernel : Kernel.vcprintf [] fmt va = some (chars out, 0) := Kernel.vcprintf_eq [] h
  obtain ⟨mem', hsprint, hstr⟩ := Sprint.vsnprintf_eq mem hbuf hn h hout
  have hfile := File.vfprintf_eq hdev h
  -- the result of `vfprintf`
  have hres : (if BitVec.ofNat 64 out.length ≠ 0 then (BitVec.ofNat 64 out.length).setWidth 32 else (1 : BitVec 32)).toInt =
      out.length ↔ out ≠ [] := by
    by_cases hnil : out = []
    · rw [hnil]
      exact iff_of_false (by decide) (fun h1 => h1 rfl)
    · have hpos : 0 < out.length := List.length_pos_iff.2 hnil
      have hne : BitVec.ofNat 64 out.length ≠ 0 := by
        intro h1
        have h2 := congrArg BitVec.toNat h1
        rw [BitVec.toNat_ofNat, Nat.mod_eq_of_lt (by omega)] at h2
        exact absurd h2 (by change out.length ≠ 0; omega)
      have hcut : (BitVec.ofNat 64 out.length).setWidth 32 = BitVec.ofNat 32 out.length := by
        apply BitVec.eq_of_toNat_eq
        rw [BitVec.toNat_setWidth, BitVec.toNat_ofNat, BitVec.toNat_ofNat]
        omega
      rw [if_pos hne, hcut, hint]
      exact iff_of_true rfl hnil
  refine ⟨?_, hkernel, ⟨_, User.vcprintf_eq rest h hout, hint⟩, ⟨_, hfile, hres⟩, mem', _, hsprint, hstr, hint⟩
  rintro ⟨⟨r, h1, h2⟩, -, ⟨r', h3, h4⟩, -⟩
  rw [hkernel] at h1
  rw [hfile] at h3
  obtain ⟨-, rfl⟩ := Prod.mk.inj (Option.some.inj h1)
  obtain ⟨-, rfl⟩ := Prod.mk.inj (Option.some.inj h3)
  -- the kernel is right for no character only, and `vfprintf` for one at least
  have hne := hres.1 h4
  have hzero : (0 : ℤ) = out.length := h2
  exact hne (List.eq_nil_of_length_eq_zero (by omega))

/-- A device that accepts all. -/
def sink (bs : List Byte) : BitVec 64 := BitVec.ofNat 64 bs.length

/-- The format `a`. -/
theorem printf_differ_a : ¬ Agree [0x61] [] ⟨fun _ => 0, fun _ => []⟩ sink ⟨fun _ => 0⟩ 4096 16 [0x61] ∧
    Kernel.vcprintf [] [0x61] ⟨fun _ => 0, fun _ => []⟩ = some (chars [0x61], 0) ∧
      (∃ r, User.vcprintf [] [] [0x61] ⟨fun _ => 0, fun _ => []⟩ = some (chars [0x61], r) ∧ r.toInt = 1) ∧
        (∃ r, File.vfprintf sink [0x61] ⟨fun _ => 0, fun _ => []⟩ = some (chars [0x61], r) ∧
          (r.toInt = 1 ↔ [(0x61 : BitVec 32)] ≠ [])) ∧
          ∃ mem' r, Sprint.vsnprintf ⟨fun _ => 0⟩ 4096 16 [0x61] ⟨fun _ => 0, fun _ => []⟩ = some (mem', r) ∧
            IsStr mem' 4096 (chars [0x61]) ∧ r.toInt = 1 :=
  printf_differ [] ⟨fun _ => 0⟩ rfl (fun c hc => by rw [List.mem_singleton.1 hc]; decide) (fun _ => rfl)
    (Nat.succ_ne_zero _) (by decide)

/-- For the format `a`, the kernel returns 0. -/
theorem printf_differ_counterexample : vprintfmt [0x61] ⟨fun _ => 0, fun _ => []⟩ = some [0x61] ∧
    ¬ Agree [0x61] [] ⟨fun _ => 0, fun _ => []⟩ sink ⟨fun _ => 0⟩ 4096 16 [0x61] := by
  refine ⟨rfl, ?_⟩
  rintro ⟨⟨r, h1, h2⟩, -⟩
  rw [Kernel.vcprintf_eq [] (rfl : vprintfmt [0x61] ⟨fun _ => 0, fun _ => []⟩ = some [0x61])] at h1
  obtain ⟨-, rfl⟩ := Prod.mk.inj (Option.some.inj h1)
  exact absurd h2 (by decide)

end Jos.Printf
