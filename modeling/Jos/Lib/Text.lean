import Jos.Lib.Bytes

/-!
# Strings in memory

A string is the bytes up to the first 0. It is at one place in one way only (`IsStr.unique`), and is kept by
all changes that miss it and its 0 (`IsStr.congr`).
-/

namespace Jos.Lib

variable {d d' : Bytes} {a x : ℕ} {s t : List Byte}

/-- The string `s` is at `a`. -/
structure IsStr (d : Bytes) (a : ℕ) (s : List Byte) : Prop where
  byte : ∀ i (h : i < s.length), d.byte (a + i) = s[i]
  term : d.byte (a + s.length) = 0
  nonzero : ∀ b ∈ s, b ≠ 0

namespace IsStr

theorem byte_ne (h : IsStr d a s) {i : ℕ} (hi : i < s.length) : d.byte (a + i) ≠ 0 := by
  rw [h.byte i hi]
  exact h.nonzero _ (List.getElem_mem hi)

/-- **A string is determined** by its place. -/
theorem unique (h : IsStr d a s) (h' : IsStr d a t) : s = t := by
  have hlen : s.length = t.length := by
    rcases lt_trichotomy s.length t.length with hlt | heq | hgt
    · exact absurd h.term (h'.byte_ne hlt)
    · exact heq
    · exact absurd h'.term (h.byte_ne hgt)
  apply List.ext_getElem hlen
  intro i h1 h2
  rw [← h.byte i h1, h'.byte i h2]

/-- What misses a string and its 0 keeps it. -/
theorem congr (h : IsStr d a s) (hb : ∀ i ≤ s.length, d'.byte (a + i) = d.byte (a + i)) : IsStr d' a s where
  byte i hi := by rw [hb i hi.le, h.byte i hi]
  term := by rw [hb _ le_rfl, h.term]
  nonzero := h.nonzero

/-- The rest of a string. -/
theorem rest (h : IsStr d a (s ++ t)) : IsStr d (a + s.length) t where
  byte i hi := by
    have hlt : s.length + i < (s ++ t).length := by
      rw [List.length_append]
      omega
    rw [Nat.add_assoc, h.byte _ hlt, List.getElem_append_right (by omega)]
    simp only [Nat.add_sub_cancel_left]
  term := by
    rw [Nat.add_assoc, ← List.length_append]
    exact h.term
  nonzero b hb := h.nonzero b (List.mem_append_right _ hb)

end IsStr

/-- A string that is copied with its 0. -/
theorem isStr_write (hs : ∀ b ∈ s, b ≠ 0) : IsStr (d.write a (s ++ [0])) a s where
  byte i hi := by
    have hlt : i < (s ++ [0]).length := by
      rw [List.length_append]
      omega
    rw [Bytes.byte_write_in hlt, List.getElem_append_left hi]
  term := by
    have hlt : s.length < (s ++ [(0 : Byte)]).length := by
      rw [List.length_append, List.length_singleton]
      omega
    rw [Bytes.byte_write_in hlt]
    simp only [List.getElem_append_right le_rfl, Nat.sub_self, List.getElem_singleton]
  nonzero := hs

end Jos.Lib
