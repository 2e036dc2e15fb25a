import Jos.Proof.Printf

/-!
# A buffer that is too small

`vsnprintf` counts all characters and stores those that fit. `Sprint.vsnprintf_cut` says what it leaves in the memory,
for every size of the buffer: the characters that were cut do not change what is before them. The number that it
returns is an `int`, so that it is the right one for less than `2 ^ 31` characters.
-/

namespace Jos.Printf

open Lib

variable {fmt : List Byte} {va : VaList} {out : List (BitVec 32)} {mem : Bytes} {buf room : ℕ} {n : BitVec 32}

/-- What `vsnprintf` has stored, with room for so many characters. -/
structure Sprint.Cut (b : Sprint) (mem : Bytes) (buf room : ℕ) (done : List (BitVec 32)) : Prop where
  mem : b.mem = mem.write buf ((chars done).take room)
  cursor : b.buf = buf + min room done.length
  ebuf : b.ebuf = buf + room
  cnt : b.cnt = BitVec.ofNat 32 done.length

/-- One character is stored behind the others, or only counted. -/
theorem Sprint.putch_cut {b : Sprint} {done : List (BitVec 32)} (h : b.Cut mem buf room done) (c : BitVec 32) :
    (Sprint.putch b c).Cut mem buf room (done ++ [c]) := by
  have hchars : chars (done ++ [c]) = chars done ++ [c.setWidth 8] := List.map_append
  have hlen : (done ++ [c]).length = done.length + 1 := by rw [List.length_append, List.length_singleton]
  have hcnt : b.cnt + 1 = BitVec.ofNat 32 (done ++ [c]).length := by
    rw [h.cnt, hlen, BitVec.ofNat_add]
    rfl
  unfold Sprint.putch
  dsimp only
  rw [h.cursor, h.ebuf]
  by_cases hroom : done.length < room
  · have htake : (chars done).take room = chars done := List.take_of_length_le (by rw [chars_length]; omega)
    have hfull : (chars (done ++ [c])).take room = chars (done ++ [c]) :=
      List.take_of_length_le (by rw [chars_length, hlen]; omega)
    have hmin : min room done.length = (chars done).length := by rw [chars_length]; omega
    rw [if_pos (by omega)]
    refine ⟨?_, ?_, rfl, hcnt⟩
    · dsimp only
      rw [h.mem, htake, hfull, hchars, hmin, Bytes.write_write]
    · dsimp only
      rw [hlen]
      omega
  · have htake : (chars (done ++ [c])).take room = (chars done).take room := by
      rw [hchars]
      exact List.take_append_of_le_length (by rw [chars_length]; omega)
    rw [if_neg (by omega)]
    refine ⟨?_, ?_, rfl, hcnt⟩
    · dsimp only
      rw [htake, h.mem]
    · dsimp only
      rw [hlen]
      omega

theorem Sprint.foldl_cut {b : Sprint} {done : List (BitVec 32)} (h : b.Cut mem buf room done) (out : List (BitVec 32)) :
    (out.foldl Sprint.putch b).Cut mem buf room (done ++ out) := by
  induction out generalizing b done with
  | nil =>
    rw [List.append_nil]
    exact h
  | cons c out ih =>
    have h1 := ih (Sprint.putch_cut h c)
    rw [List.append_assoc] at h1
    exact h1

/-- **`vsnprintf`**: what it stores, and the result. -/
theorem Sprint.vsnprintf_cut (mem : Bytes) (hbuf : buf ≠ 0) (hn : 1 ≤ n.toInt) (h : vprintfmt fmt va = some out) :
    Sprint.vsnprintf mem buf n fmt va =
      some (mem.write buf ((chars out).take (n.toNat - 1) ++ [0]), BitVec.ofNat 32 out.length) := by
  have hone : n.slt 1 = false := by
    have h1 : (1 : BitVec 32).toInt = 1 := rfl
    rw [BitVec.slt_eq_decide, h1, decide_eq_false_iff_not]
    omega
  have hnat : 1 ≤ n.toNat := by
    have h1 := BitVec.toInt_eq_toNat_cond n
    have h2 := n.isLt
    split at h1
    · omega
    · omega
  have hstart : Sprint.Cut ⟨mem, buf, buf + n.toNat - 1, 0⟩ mem buf (n.toNat - 1) [] := by
    refine ⟨?_, by rw [List.length_nil, Nat.min_zero, Nat.add_zero], by dsimp only; omega, rfl⟩
    unfold chars
    rw [List.map_nil, List.take_nil, Bytes.write_nil]
  have hend := Sprint.foldl_cut hstart out
  rw [List.nil_append] at hend
  unfold Sprint.vsnprintf
  rw [if_neg (by rw [hone]; exact fun h1 => h1.elim hbuf Bool.false_ne_true), h]
  dsimp only [Option.bind_eq_bind, Option.bind_some]
  have hlen : min (n.toNat - 1) out.length = ((chars out).take (n.toNat - 1)).length := by
    rw [List.length_take, chars_length]
  rw [hend.mem, hend.cursor, hend.cnt, hlen, Bytes.write_write]

/-- What a buffer of `n` bytes holds then: the first characters, and a 0. -/
structure Truncated (mem mem' : Bytes) (buf n : ℕ) (out : List (BitVec 32)) : Prop where
  outside : ∀ x, x < buf ∨ buf + n ≤ x → mem'.byte x = mem.byte x
  chars : mem'.read buf (min (n - 1) out.length) = (chars out).take (min (n - 1) out.length)
  nul : mem'.byte (buf + min (n - 1) out.length) = 0

theorem truncated_write (mem : Bytes) (buf : ℕ) {n : ℕ} (hn : 1 ≤ n) (out : List (BitVec 32)) :
    Truncated mem (mem.write buf ((chars out).take (n - 1) ++ [0])) buf n out := by
  have hlen : ((chars out).take (n - 1)).length = min (n - 1) out.length := by rw [List.length_take, chars_length]
  refine ⟨fun x hx => ?_, ?_, ?_⟩
  · rw [Bytes.byte_write_off]
    rw [List.length_append, List.length_singleton, hlen]
    omega
  · have htake : (chars out).take (n - 1) = (chars out).take (min (n - 1) out.length) := by
      rw [List.take_eq_take_min, chars_length]
    have hkept : (mem.write buf ((chars out).take (n - 1) ++ [0])).read buf (min (n - 1) out.length) =
        (mem.write buf ((chars out).take (n - 1))).read buf (min (n - 1) out.length) := by
      apply Bytes.read_congr
      intro k hk
      rw [← Bytes.write_write]
      exact Bytes.byte_write_off (Or.inl (by omega))
    rw [hkept, ← htake, ← hlen, Bytes.read_write]
  · rw [← Bytes.write_write, hlen, Bytes.byte_write, if_pos ⟨le_rfl, Nat.lt_succ_self _⟩, Nat.sub_self]
    rfl

/-- An `int` counts so far. -/
theorem ofNat_toInt (k : ℕ) : (BitVec.ofNat 32 k).toInt = k ↔ k < 2 ^ 31 := by
  rw [BitVec.toInt_eq_toNat_cond, BitVec.toNat_ofNat]
  split
  · omega
  · omega

/-- **`vsnprintf` truncates**: with a smaller buffer, the string is a prefix, and the result is the same. It is the
number of characters, as an `int`. -/
theorem Sprint.vsnprintf_truncates (mem : Bytes) {n n' : BitVec 32} (hbuf : buf ≠ 0) (hn : 1 ≤ n.toInt)
    (hle : n.toInt ≤ n'.toInt) (h : vprintfmt fmt va = some out) : ∃ mem₁ mem₂ r,
      Sprint.vsnprintf mem buf n fmt va = some (mem₁, r) ∧ Sprint.vsnprintf mem buf n' fmt va = some (mem₂, r) ∧
        Truncated mem mem₁ buf n.toNat out ∧ Truncated mem mem₂ buf n'.toNat out ∧
          mem₁.read buf (min (n.toNat - 1) out.length) <+: mem₂.read buf (min (n'.toNat - 1) out.length) ∧
            r = BitVec.ofNat 32 out.length ∧ (r.toInt = out.length ↔ out.length < 2 ^ 31) := by
  have hnat : 1 ≤ n.toNat ∧ n.toNat ≤ n'.toNat := by
    have h1 := BitVec.toInt_eq_toNat_cond n
    have h2 := BitVec.toInt_eq_toNat_cond n'
    have h3 := n.isLt
    have h4 := n'.isLt
    split at h1
    · split at h2
      · omega
      · omega
    · omega
  have hcut := truncated_write mem buf hnat.1 out
  have hcut' := truncated_write mem buf (le_trans hnat.1 hnat.2) out
  refine ⟨_, _, _, Sprint.vsnprintf_cut mem hbuf hn h, Sprint.vsnprintf_cut mem hbuf (le_trans hn hle) h, hcut, hcut', ?_,
    rfl, ofNat_toInt _⟩
  rw [hcut.chars, hcut'.chars]
  apply List.take_prefix_take_left
  omega

/-- The format `abc`, with buffers for 2 and 3 bytes. -/
theorem Sprint.vsnprintf_truncates_abc : ∃ mem₁ mem₂ r,
    Sprint.vsnprintf ⟨fun _ => 1⟩ 4096 2 [0x61, 0x62, 0x63] ⟨fun _ => 0, fun _ => []⟩ = some (mem₁, r) ∧
      Sprint.vsnprintf ⟨fun _ => 1⟩ 4096 3 [0x61, 0x62, 0x63] ⟨fun _ => 0, fun _ => []⟩ = some (mem₂, r) ∧
        Truncated ⟨fun _ => 1⟩ mem₁ 4096 2 [0x61, 0x62, 0x63] ∧ Truncated ⟨fun _ => 1⟩ mem₂ 4096 3 [0x61, 0x62, 0x63] ∧
          mem₁.read 4096 1 <+: mem₂.read 4096 2 ∧ r = BitVec.ofNat 32 3 ∧ (r.toInt = 3 ↔ 3 < 2 ^ 31) :=
  Sprint.vsnprintf_truncates ⟨fun _ => 1⟩ (Nat.succ_ne_zero _) (by decide) (by decide) rfl

/-- `%2147483647d` of -1 is `2 ^ 31` characters long, and the result is negative. -/
theorem Sprint.vsnprintf_truncates_counterexample : ∃ out mem' r,
    vprintfmt (text "%2147483647d") ⟨fun _ => -1, fun _ => []⟩ = some out ∧
      Sprint.vsnprintf ⟨fun _ => 0⟩ 4096 16 (text "%2147483647d") ⟨fun _ => -1, fun _ => []⟩ = some (mem', r) ∧
        r.toInt ≠ out.length := by
  have hfmt : text "%2147483647d" = format .space 2147483647 .d := by decide
  have hout := vprintfmt_eq .space 2147483647 .d ⟨fun _ => -1, fun _ => []⟩
  refine ⟨_, _, _, hfmt ▸ hout, hfmt ▸ Sprint.vsnprintf_cut ⟨fun _ => 0⟩ (Nat.succ_ne_zero _) (by decide) hout, ?_⟩
  have hsign : (wide (Conv.sign .d (-1))).length = 1 := by decide
  have hnumeral : (Conv.numeral .d (-1)).length = 1 := by decide
  have hwide : (wide (Conv.numeral .d (-1))).length = 1 := (List.length_map _).trans hnumeral
  have hwidth : (widthVar 2147483647 - BitVec.ofNat 32 1).toInt.toNat = 2147483646 := by decide
  rw [Ne, ofNat_toInt]
  unfold pad
  rw [hnumeral, List.length_append, List.length_append, List.length_replicate, hsign, hwide, hwidth]
  omega

end Jos.Printf
