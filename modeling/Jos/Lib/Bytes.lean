import Mathlib

/-!
# Memory laid out in bytes

A memory as a map from addresses to bytes, with 32-bit words stored lowest byte first.
`byte_write` and `byte_zero` say what a store and a `memset` leave at each address; a word
is kept by every change that misses its four bytes (`load32_congr`).
-/

namespace Jos.Lib

abbrev Byte := BitVec 8

/-- The bytes of a memory. -/
@[ext] structure Bytes where
  byte : ℕ → Byte

namespace Bytes

variable {d d' : Bytes} {a b x n : ℕ} {bs : List Byte} {w : BitVec 32}

/-- The memory after `bs` was copied to `a`. -/
def write (d : Bytes) (a : ℕ) (bs : List Byte) : Bytes :=
  ⟨fun x => if a ≤ x ∧ x < a + bs.length then bs.getD (x - a) 0 else d.byte x⟩

/-- The memory after `n` bytes from `a` on were cleared. -/
def zero (d : Bytes) (a n : ℕ) : Bytes :=
  ⟨fun x => if a ≤ x ∧ x < a + n then 0 else d.byte x⟩

/-- The `n` bytes from `a` on. -/
def read (d : Bytes) (a n : ℕ) : List Byte := (List.range n).map fun i => d.byte (a + i)

/-- The word at `a`. -/
def load32 (d : Bytes) (a : ℕ) : BitVec 32 :=
  BitVec.ofNat 32 ((d.byte a).toNat + 2 ^ 8 * (d.byte (a + 1)).toNat +
    2 ^ 16 * (d.byte (a + 2)).toNat + 2 ^ 24 * (d.byte (a + 3)).toNat)

/-- The bytes of a word. -/
def word32 (w : BitVec 32) : List Byte :=
  [w.setWidth 8, (w >>> 8).setWidth 8, (w >>> 16).setWidth 8, (w >>> 24).setWidth 8]

/-- The memory after a store of a word. -/
def store32 (d : Bytes) (a : ℕ) (w : BitVec 32) : Bytes := d.write a (word32 w)

/-- The double word at `a`, whose low half is stored first. -/
def load64 (d : Bytes) (a : ℕ) : BitVec 64 := d.load32 (a + 4) ++ d.load32 a

/-- The memory after a store of a double word. -/
def store64 (d : Bytes) (a : ℕ) (w : BitVec 64) : Bytes :=
  (d.store32 a (w.setWidth 32)).store32 (a + 4) ((w >>> 32).setWidth 32)

@[simp] theorem word32_length (w : BitVec 32) : (word32 w).length = 4 := rfl

theorem byte_write (d : Bytes) (a : ℕ) (bs : List Byte) (x : ℕ) :
    (d.write a bs).byte x = if a ≤ x ∧ x < a + bs.length then bs.getD (x - a) 0 else d.byte x := rfl

theorem byte_zero (d : Bytes) (a n x : ℕ) :
    (d.zero a n).byte x = if a ≤ x ∧ x < a + n then 0 else d.byte x := rfl

/-- A store misses the bytes before and after it. -/
theorem byte_write_off (h : x < a ∨ a + bs.length ≤ x) : (d.write a bs).byte x = d.byte x := by
  rw [byte_write, if_neg (by omega)]

theorem byte_zero_off (h : x < a ∨ a + n ≤ x) : (d.zero a n).byte x = d.byte x := by
  rw [byte_zero, if_neg (by omega)]

theorem byte_zero_in (h : a ≤ x) (h' : x < a + n) : (d.zero a n).byte x = 0 := by
  rw [byte_zero, if_pos ⟨h, h'⟩]

theorem byte_store32_off (h : x < a ∨ a + 4 ≤ x) : (d.store32 a w).byte x = d.byte x :=
  byte_write_off h

/-- The bytes that a store puts in place. -/
theorem byte_write_in {i : ℕ} (h : i < bs.length) : (d.write a bs).byte (a + i) = bs[i] := by
  rw [byte_write, if_pos (by omega), Nat.add_sub_cancel_left, List.getD_eq_getElem _ _ h]

/-- Stores to disjoint places commute. -/
theorem write_comm {cs : List Byte} (h : a + bs.length ≤ b ∨ b + cs.length ≤ a) :
    (d.write a bs).write b cs = (d.write b cs).write a bs := by
  refine Bytes.ext (funext fun x => ?_)
  simp only [byte_write]
  by_cases h1 : a ≤ x ∧ x < a + bs.length
  · rw [if_neg (by omega), if_pos h1, if_pos h1]
  · rw [if_neg h1, if_neg h1]

/-- **A word is its four bytes**, wherever they are. -/
theorem load32_copy (h : ∀ i < 4, d'.byte (a + i) = d.byte (b + i)) : d'.load32 a = d.load32 b := by
  have h0 := h 0 (by omega)
  rw [Nat.add_zero, Nat.add_zero] at h0
  unfold load32
  rw [h0, h 1 (by omega), h 2 (by omega), h 3 (by omega)]

theorem load32_congr (h : ∀ i < 4, d'.byte (a + i) = d.byte (a + i)) : d'.load32 a = d.load32 a :=
  load32_copy h

theorem load64_copy (h : ∀ i < 8, d'.byte (a + i) = d.byte (b + i)) : d'.load64 a = d.load64 b := by
  unfold load64
  rw [load32_copy fun i hi => h i (by omega), load32_copy fun i hi => ?_]
  rw [Nat.add_assoc, Nat.add_assoc]
  exact h (4 + i) (by omega)

theorem load32_write_off (h : a + 4 ≤ x ∨ x + bs.length ≤ a) : (d.write x bs).load32 a = d.load32 a :=
  load32_congr fun i hi => byte_write_off (by omega)

theorem load32_store32_off (h : a + 4 ≤ x ∨ x + 4 ≤ a) : (d.store32 x w).load32 a = d.load32 a :=
  load32_write_off h

theorem load32_zero_off (h : a + 4 ≤ x ∨ x + n ≤ a) : (d.zero x n).load32 a = d.load32 a :=
  load32_congr fun i hi => byte_zero_off (by omega)

theorem load32_zero_in (h : x ≤ a) (h' : a + 4 ≤ x + n) : (d.zero x n).load32 a = 0 := by
  have hz : ∀ i < 4, (d.zero x n).byte (a + i) = 0 := fun i hi => byte_zero_in (by omega) (by omega)
  have h0 := hz 0 (by omega)
  rw [Nat.add_zero] at h0
  unfold load32
  rw [h0, hz 1 (by omega), hz 2 (by omega), hz 3 (by omega)]
  rfl

@[simp] theorem load32_store32 (d : Bytes) (a : ℕ) (w : BitVec 32) : (d.store32 a w).load32 a = w := by
  have h : ∀ i (hi : i < 4), (d.store32 a w).byte (a + i) = (word32 w)[i] := fun i hi =>
    byte_write_in hi
  have h0 := h 0 (by omega)
  rw [Nat.add_zero] at h0
  apply BitVec.eq_of_toNat_eq
  unfold load32
  rw [h0, h 1 (by omega), h 2 (by omega), h 3 (by omega)]
  simp only [word32, List.getElem_cons_zero, List.getElem_cons_succ, BitVec.toNat_setWidth,
    BitVec.toNat_ushiftRight, Nat.shiftRight_eq_div_pow, BitVec.toNat_ofNat]
  have := w.isLt
  omega

/-- Storing a word that is there changes nothing. -/
theorem store32_load32 (d : Bytes) (a : ℕ) : d.store32 a (d.load32 a) = d := by
  refine Bytes.ext (funext fun x => ?_)
  unfold store32
  by_cases h : a ≤ x ∧ x < a + 4
  · obtain ⟨i, rfl⟩ := Nat.exists_eq_add_of_le h.1
    have hi : i < (word32 (d.load32 a)).length := by simpa using h.2
    rw [byte_write_in hi]
    apply BitVec.eq_of_toNat_eq
    have h0 := (d.byte a).isLt
    have h1 := (d.byte (a + 1)).isLt
    have h2 := (d.byte (a + 2)).isLt
    have h3 := (d.byte (a + 3)).isLt
    have hi : i < 4 := hi
    interval_cases i
    all_goals
      simp only [word32, load32, List.getElem_cons_zero, List.getElem_cons_succ, BitVec.toNat_setWidth,
        BitVec.toNat_ushiftRight, Nat.shiftRight_eq_div_pow, BitVec.toNat_ofNat, Nat.add_zero]
      omega
  · exact byte_write_off (by simp; omega)

theorem load64_write_off (h : a + 8 ≤ x ∨ x + bs.length ≤ a) : (d.write x bs).load64 a = d.load64 a := by
  unfold load64
  rw [load32_write_off (by omega), load32_write_off (by omega)]

@[simp] theorem load64_store64 (d : Bytes) (a : ℕ) (w : BitVec 64) : (d.store64 a w).load64 a = w := by
  unfold load64 store64
  rw [load32_store32, load32_store32_off (by omega), load32_store32]
  apply BitVec.eq_of_toNat_eq
  rw [BitVec.toNat_append, BitVec.toNat_setWidth, BitVec.toNat_setWidth, BitVec.toNat_ushiftRight,
    Nat.shiftRight_eq_div_pow, ← Nat.shiftLeft_add_eq_or_of_lt (Nat.mod_lt _ (by omega)),
    Nat.shiftLeft_eq]
  have := w.isLt
  omega

theorem read_length (d : Bytes) (a n : ℕ) : (d.read a n).length = n := by simp [read]

theorem getD_read {i : ℕ} (h : i < n) : (d.read a n).getD i 0 = d.byte (a + i) := by
  rw [List.getD_eq_getElem _ _ (by rwa [read_length])]
  simp [read]

theorem read_add (d : Bytes) (a m n : ℕ) : d.read a (m + n) = d.read a m ++ d.read (a + m) n := by
  unfold read
  rw [List.range_add, List.map_append, List.map_map]
  refine congrArg _ (List.map_congr_left fun i _ => ?_)
  rw [Function.comp, Nat.add_assoc]

/-- Two memories that have the same bytes in a range give the same bytes. -/
theorem read_congr {n : ℕ} (h : ∀ k < n, d'.byte (a + k) = d.byte (a + k)) : d'.read a n = d.read a n :=
  List.map_congr_left fun k hk => h k (List.mem_range.1 hk)

theorem read_write (d : Bytes) (a : ℕ) (bs : List Byte) : (d.write a bs).read a bs.length = bs := by
  unfold read
  apply List.ext_getElem (by rw [List.length_map, List.length_range])
  intro k h1 h2
  rw [List.getElem_map, List.getElem_range, byte_write_in h2]

theorem write_nil (d : Bytes) (a : ℕ) : d.write a [] = d := by
  refine Bytes.ext (funext fun x => ?_)
  rw [byte_write_off]
  simp only [List.length_nil]
  omega

/-- Two stores, one after the other. -/
theorem write_write (d : Bytes) (a : ℕ) (bs cs : List Byte) :
    (d.write a bs).write (a + bs.length) cs = d.write a (bs ++ cs) := by
  refine Bytes.ext (funext fun x => ?_)
  simp only [byte_write, List.length_append]
  by_cases h1 : a + bs.length ≤ x ∧ x < a + bs.length + cs.length
  · rw [if_pos h1, if_pos (by omega), List.getD_append_right _ _ _ _ (by omega), Nat.sub_sub]
  · rw [if_neg h1]
    by_cases h2 : a ≤ x ∧ x < a + bs.length
    · rw [if_pos h2, if_pos (by omega), List.getD_append _ _ _ _ (by omega)]
    · rw [if_neg h2, if_neg (by omega)]

/-- A copy from another memory. -/
theorem byte_write_read {i : ℕ} (h : i < n) : (d.write a (d'.read b n)).byte (a + i) = d'.byte (b + i) := by
  rw [byte_write, read_length, if_pos (by omega), Nat.add_sub_cancel_left, getD_read h]

end Bytes

end Jos.Lib
