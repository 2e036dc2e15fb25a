import Jos.Spec.Memmove

/-!
# `memmove` copies

A copy downwards is chosen if the source starts below the destination and reaches into it, and one upwards otherwise;
each is right for elements of any size (`Movs.iterate_up`, `Movs.iterate_down`). What the tests of alignment have to
ensure is only that the words make up the whole length.
-/

namespace Jos.Memmove

open Lib Movs

variable {c : Machine} {d s n : BitVec 64} {w k : ℕ}

/-- **Upwards.** -/
theorem asm_up (hw : 0 < w) (hlen : w * k = n.toNat) {q : BitVec 64} (hq : q.toNat = k) (hdst : d.toNat + n.toNat ≤ 2 ^ 64)
    (hsrc : s.toNat + n.toNat ≤ 2 ^ 64) (hsafe : d.toNat ≤ s.toNat ∨ s.toNat + n.toNat ≤ d.toNat) :
    (asm w false d s q c).mem = copied c.mem d s n.toNat ∧ (asm w false d s q c).df = false := by
  unfold asm rep
  dsimp only
  rw [hq, iterate_up rfl hw (by rw [hlen]; exact hdst) (by rw [hlen]; exact hsrc) (by rw [hlen]; exact hsafe), hlen]
  exact ⟨rfl, rfl⟩

/-- **Downwards.** -/
theorem asm_down (hw : w < 2 ^ 64) (hlen : w * k = n.toNat) {q : BitVec 64} (hq : q.toNat = k)
    (hdst : d.toNat + n.toNat ≤ 2 ^ 64) (hsafe : s.toNat ≤ d.toNat) :
    (asm w true (d + n - BitVec.ofNat 64 w) (s + n - BitVec.ofNat 64 w) q c).mem = copied c.mem d s n.toNat := by
  have hn : BitVec.ofNat 64 n.toNat = n := by rw [BitVec.ofNat_toNat, BitVec.setWidth_eq]
  unfold asm rep
  dsimp only
  rw [hq, iterate_down (d := d) (s := s) rfl hw (le_of_eq hlen) hdst hsafe (by rw [hn]) (by rw [hn]), hlen, Nat.sub_self]
  dsimp only
  rw [BitVec.add_zero, BitVec.add_zero]

/-- The words make up the length. -/
theorem byWord_length (h : byWord d s n = true) : 4 * (n / 4).toNat = n.toNat := by
  unfold byWord at h
  simp only [Bool.and_eq_true, decide_eq_true_eq] at h
  have h1 := congrArg BitVec.toNat h.2
  rw [BitVec.toNat_umod] at h1
  rw [BitVec.toNat_udiv]
  have h4 : (4 : BitVec 64).toNat = 4 := rfl
  have h0 : (0 : BitVec 64).toNat = 0 := rfl
  rw [h4, h0] at h1
  rw [h4]
  omega

/-- **All that `memmove` leaves.** -/
theorem memmove_eq (c : Machine) (dst src n : BitVec 64) (hdst : dst.toNat + n.toNat ≤ 2 ^ 64)
    (hsrc : src.toNat + n.toNat ≤ 2 ^ 64) : (memmove dst src n c).2.mem = copied c.mem dst src n.toNat ∧
      (memmove dst src n c).2.df = false := by
  unfold memmove
  dsimp only
  by_cases hover : src < dst ∧ src + n > dst
  · rw [if_pos hover]
    dsimp only
    have hle : src.toNat ≤ dst.toNat := le_of_lt hover.1
    refine ⟨?_, rfl⟩
    split
    · rename_i hword
      exact asm_down (by decide) (byWord_length hword) rfl hdst hle
    · exact asm_down (by decide) (Nat.one_mul _) rfl hdst hle
  · have hsafe : dst.toNat ≤ src.toNat ∨ src.toNat + n.toNat ≤ dst.toNat := by
      rw [BitVec.lt_def, gt_iff_lt, BitVec.lt_def, BitVec.toNat_add] at hover
      omega
    rw [if_neg hover]
    dsimp only
    split
    · rename_i hword
      exact asm_up (by decide) (byWord_length hword) rfl hdst hsrc hsafe
    · exact asm_up (by decide) (Nat.one_mul _) rfl hdst hsrc hsafe

/-- **`memmove` is right for every overlap**: the destination has the bytes that the source had, no other byte is
changed, and the direction flag is clear. -/
theorem memmove_copies (c : Machine) (dst src n : BitVec 64) (hdst : dst.toNat + n.toNat ≤ 2 ^ 64)
    (hsrc : src.toNat + n.toNat ≤ 2 ^ 64) :
    (∀ i < n.toNat, (memmove dst src n c).2.mem (dst + BitVec.ofNat 64 i) = c.mem (src + BitVec.ofNat 64 i)) ∧
      (∀ x, (∀ i < n.toNat, x ≠ dst + BitVec.ofNat 64 i) → (memmove dst src n c).2.mem x = c.mem x) ∧
        (memmove dst src n c).2.df = false := by
  obtain ⟨h1, h2⟩ := memmove_eq c dst src n hdst hsrc
  obtain ⟨h3, h4⟩ := copied_spec c.mem dst src (le_of_lt n.isLt)
  rw [h1]
  exact ⟨h3, h4, h2⟩

/-- Eight bytes are moved up by one. -/
theorem memmove_copies_one :
    (∀ i < (8 : BitVec 64).toNat, (memmove 4097 4096 8 ⟨fun x => x.setWidth 8, 0, 0, 0, true⟩).2.mem (4097 + BitVec.ofNat 64 i) =
      (4096 + BitVec.ofNat 64 i).setWidth 8) ∧
      (∀ x, (∀ i < (8 : BitVec 64).toNat, x ≠ 4097 + BitVec.ofNat 64 i) →
        (memmove 4097 4096 8 ⟨fun x => x.setWidth 8, 0, 0, 0, true⟩).2.mem x = x.setWidth 8) ∧
        (memmove 4097 4096 8 ⟨fun x => x.setWidth 8, 0, 0, 0, true⟩).2.df = false :=
  memmove_copies ⟨fun x => x.setWidth 8, 0, 0, 0, true⟩ 4097 4096 8 (by decide) (by decide)

end Jos.Memmove
