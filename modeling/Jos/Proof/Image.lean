import Jos.Proof.Resolve

/-!
# Images whose files lie in rows

A file whose data blocks are consecutive, with its indirect block behind them (`Ent`, `Holds`), and an image made of
such files (`Image`): each has blocks of its own, and a directory holds the `struct File` of its entries one after
the other. Such an image is consistent (`Image.consistent`), and well formed if names are not used twice
(`Image.wellFormed`).
-/

namespace Jos.Fs

open Lib

/-- A file in a row of blocks. -/
structure Ent where
  name : List Byte
  type : BitVec 32
  size : ℕ
  start : ℕ

namespace Ent

variable {e : Ent} {s s' : Slot} {b n : ℕ}

/-- The number of its data blocks. -/
def blocks (e : Ent) : ℕ := (e.size + 4095) / 4096

/-- The block behind its last one. -/
def stop (e : Ent) : ℕ := e.start + e.blocks + if e.blocks < 10 then 0 else 1

/-- The numbers in its slots. -/
def slot (e : Ent) : Slot → ℕ
  | .direct i => if i < 10 ∧ i < e.blocks then e.start + i else 0
  | .indirect j => if 10 + j < e.blocks then e.start + (10 + j) else 0
  | .fIndirect => if e.blocks < 10 then 0 else e.start + e.blocks

/-- A slot holds a block of the row. -/
theorem slot_mem (h : e.slot s ≠ 0) : e.start ≤ e.slot s ∧ e.slot s < e.stop := by
  unfold slot at h ⊢
  unfold stop
  cases s <;> simp only at h ⊢ <;> split_ifs at h ⊢ <;> omega

/-- Each block of the row is in one slot. -/
theorem slot_inj (h0 : e.slot s ≠ 0) (h : e.slot s = e.slot s') : s = s' := by
  unfold slot at h0 h
  cases s <;> cases s' <;> simp only at h0 h <;> split_ifs at h0 h <;> first | omega | simp_all

theorem slot_surj (h1 : e.start ≤ b) (h2 : b < e.stop) : ∃ s, e.slot s = b := by
  unfold stop at h2
  by_cases hb : b < e.start + e.blocks
  · by_cases h10 : b < e.start + 10
    · exact ⟨.direct (b - e.start), by unfold slot; simp only; rw [if_pos (by omega)]; omega⟩
    · exact ⟨.indirect (b - e.start - 10), by unfold slot; simp only; rw [if_pos (by omega)]; omega⟩
  · refine ⟨.fIndirect, ?_⟩
    unfold slot
    simp only
    split_ifs at h2 ⊢ <;> omega

theorem slot_data : e.slot (dataSlot n) = if n < e.blocks then e.start + n else 0 := by
  unfold dataSlot slot
  by_cases hn : n < 10
  · simp [hn]
  · rw [if_neg hn]
    simp only
    split_ifs <;> omega

end Ent

/-- The `struct File` at `a` is that of `e`. -/
structure Holds (d : Bytes) (a : ℕ) (e : Ent) : Prop where
  name : ∀ k ≤ e.name.length, d.byte (a + k) = (e.name ++ [0]).getD k 0
  size : d.load32 (a + 128) = BitVec.ofNat 32 e.size
  type : d.load32 (a + 132) = e.type
  direct : ∀ i < 10, d.load32 (fDirect a i) = if i < e.blocks then BitVec.ofNat 32 (e.start + i) else 0
  indirect : d.load32 (fIndirect a) = if e.blocks < 10 then 0 else BitVec.ofNat 32 (e.start + e.blocks)

/-- The indirect block of `e`, if there is one. -/
def Filled (d : Bytes) (e : Ent) : Prop :=
  10 ≤ e.blocks → ∀ j < 1024, d.load32 ((e.start + e.blocks) * 4096 + 4 * j) =
    if 10 + j < e.blocks then BitVec.ofNat 32 (e.start + (10 + j)) else 0

section Holds

variable {d d' : Bytes} {a c n : ℕ} {e : Ent} {name : List Byte}

theorem Holds.copy (h : Holds d a e) (hl : e.name.length < 128) (hc : ∀ i < 256, d'.byte (c + i) = d.byte (a + i)) :
    Holds d' c e := by
  have hw : ∀ o, o + 4 ≤ 256 → d'.load32 (c + o) = d.load32 (a + o) := fun o ho => by
    refine Bytes.load32_copy fun i hi => ?_
    rw [Nat.add_assoc, Nat.add_assoc]
    exact hc _ (by omega)
  refine ⟨fun k hk => ?_, ?_, ?_, fun i hi => ?_, ?_⟩
  · rw [hc k (by omega)]
    exact h.name k hk
  · rw [hw 128 (by omega)]
    exact h.size
  · rw [hw 132 (by omega)]
    exact h.type
  · rw [← h.direct i hi]
    unfold fDirect
    rw [Nat.add_assoc, Nat.add_assoc]
    exact hw _ (by omega)
  · rw [← h.indirect]
    exact hw 176 (by omega)

theorem Holds.congr (h : Holds d a e) (hl : e.name.length < 128) (hc : ∀ x, a ≤ x → x < a + 256 → d'.byte x = d.byte x) :
    Holds d' a e :=
  h.copy hl fun i hi => hc _ (by omega) (by omega)

theorem Filled.congr (h : Filled d e) (hc : ∀ x, e.start ≤ x / 4096 → x / 4096 < e.stop → d'.byte x = d.byte x) :
    Filled d' e := by
  intro h10 j hj
  rw [← h h10 j hj]
  unfold Ent.stop at hc
  rw [if_neg (by omega)] at hc
  exact Bytes.load32_congr fun i hi => hc _ (by omega) (by omega)

variable (h : Holds d a e) (hf : Filled d e) (hs : e.size < 1034 * 4096) (hx : e.stop < 2 ^ 32)
include h

theorem Holds.nameEq_self : nameEq e.name d a = true := by
  refine List.all_eq_true.2 fun k hk => ?_
  rw [h.name k (by have := List.mem_range.1 hk; omega)]
  exact beq_self_eq_true _

theorem Holds.named (hg : GoodName e.name) : nameFree d a = false := nameFree_of_nameEq hg h.nameEq_self

/-- The name of an entry is not another one. -/
theorem Holds.name_unique (h0 : 0 ∉ e.name) (hn : 0 ∉ name) (he : nameEq name d a = true) : e.name = name := by
  have h1 : ∀ k < name.length + 1, d.byte (a + k) = (name ++ [0]).getD k 0 := fun k hk =>
    beq_iff_eq.1 (List.all_eq_true.1 he k (List.mem_range.2 hk))
  have hzero : ∀ (l : List Byte) k, k < l.length → 0 ∉ l → (l ++ [0]).getD k 0 ≠ 0 := by
    intro l k hk hl h2
    rw [List.getD_append _ _ _ _ hk, List.getD_eq_getElem _ _ hk] at h2
    exact hl (h2 ▸ List.getElem_mem hk)
  have hend : ∀ l : List Byte, (l ++ [0]).getD l.length 0 = 0 := fun l => by simp
  have hlen : e.name.length = name.length := by
    rcases Nat.lt_trichotomy e.name.length name.length with hlt | heq | hlt
    · refine absurd ?_ (hzero name _ hlt hn)
      rw [← h1 _ (by omega), h.name _ le_rfl, hend]
    · exact heq
    · refine absurd ?_ (hzero e.name _ hlt h0)
      rw [← h.name _ (by omega), h1 _ (by omega), hend]
  refine List.ext_getElem hlen fun k hk hk' => ?_
  have h2 := h.name k (by omega)
  rw [h1 k (by omega), List.getD_append _ _ _ _ hk, List.getD_append _ _ _ _ hk', List.getD_eq_getElem _ _ hk,
    List.getD_eq_getElem _ _ hk'] at h2
  exact h2.symm

include hs

theorem Holds.fSize_eq : fSize d a = e.size := by
  unfold fSize
  rw [h.size, BitVec.toInt_ofNat', Int.bmod_eq_of_le (by omega) (by omega)]

theorem Holds.sizeBlocks_eq : sizeBlocks (fSize d a) = e.blocks := by
  rw [h.fSize_eq hs, Fs.sizeBlocks_eq (by omega) (by omega)]
  rfl

theorem Holds.dirBlocks_eq (hm : e.size % 4096 = 0) : dirBlocks d a = e.blocks := by
  rw [Fs.dirBlocks_eq (by rw [h.fSize_eq hs]; omega), h.fSize_eq hs]
  unfold Ent.blocks
  omega

include hf hx

/-- The slots of the file hold the numbers of its row. -/
theorem Holds.slotBlock_eq (s : Slot) : slotBlock d a s = e.slot s := by
  have hb : e.blocks ≤ 1034 := by unfold Ent.blocks; omega
  have hi : (d.load32 (fIndirect a)).toNat = e.slot .fIndirect := by
    rw [h.indirect]
    unfold Ent.slot Ent.stop at *
    simp only
    split_ifs at hx ⊢
    · rfl
    · exact Nat.mod_eq_of_lt (by omega)
  unfold slotBlock
  cases s with
  | fIndirect => exact hi
  | direct i =>
    unfold slotAddr Ent.slot
    by_cases h10 : i < 10
    · simp only [h10, if_true, true_and]
      rw [h.direct i h10]
      unfold Ent.stop at hx
      split_ifs
      · exact Nat.mod_eq_of_lt (by omega)
      · rfl
    · simp [h10]
  | indirect j =>
    unfold slotAddr
    by_cases h10 : e.blocks < 10
    · have h0 : d.load32 (fIndirect a) = 0 := by rw [h.indirect, if_pos h10]
      simp only [h0, ne_eq, not_true_eq_false, and_false, if_false]
      unfold Ent.slot
      simp only
      rw [if_neg (by omega)]
    · unfold Ent.stop at hx
      rw [if_neg h10] at hx
      have hi' : (d.load32 (fIndirect a)).toNat = e.start + e.blocks := by
        rw [hi]
        unfold Ent.slot
        simp only
        rw [if_neg h10]
      by_cases hj : j < 1024
      · have h0 : d.load32 (fIndirect a) ≠ 0 := fun h0 => by
          rw [h0] at hi'
          have h1 : (0 : ℕ) = e.start + e.blocks := hi'
          omega
        simp only [hj, h0, ne_eq, not_false_eq_true, and_self, if_true]
        rw [hi', hf (by omega) j hj]
        unfold Ent.slot
        simp only
        split_ifs
        · exact Nat.mod_eq_of_lt (by omega)
        · rfl
      · simp only [hj, false_and, if_false]
        unfold Ent.slot
        simp only
        rw [if_neg (by omega)]

theorem Holds.fileBlock_eq (n : ℕ) : fileBlock d a n = if n < e.blocks then e.start + n else 0 := by
  unfold fileBlock
  rw [h.slotBlock_eq hf hs hx, Ent.slot_data]

theorem Holds.contents_eq (h0 : 0 < e.start) : contents d a = d.read (e.start * 4096) e.size := by
  unfold contents
  rw [h.fSize_eq hs, Int.toNat_natCast]
  refine List.map_congr_left fun x hxs => ?_
  have hlt := List.mem_range.1 hxs
  have hb : x / 4096 < e.blocks := by unfold Ent.blocks; omega
  unfold fileByte
  rw [h.fileBlock_eq hf hs hx, if_pos hb, if_neg (by omega)]
  exact congrArg _ (by omega)

end Holds

/-! ## Images -/

/-- An entry that is not used. -/
def blank : Ent := ⟨[], 0, 0, 0⟩

theorem blank_blocks : blank.blocks = 0 := rfl

theorem blank_holds {d : Bytes} {a : ℕ} (h : ∀ i < 256, d.byte (a + i) = 0) : Holds d a blank := by
  have hw : ∀ o, o + 4 ≤ 256 → d.load32 (a + o) = 0 := fun o ho => by
    have h1 : d.load32 (a + o) = (d.zero a 256).load32 (a + o) := Bytes.load32_congr fun i hi => by
      rw [Nat.add_assoc, h _ (by omega), Bytes.byte_zero_in (by omega) (by omega)]
    rw [h1, Bytes.load32_zero_in (by omega) (by omega)]
  refine ⟨fun k hk => ?_, hw 128 (by omega), hw 132 (by omega), fun i hi => ?_, ?_⟩
  · obtain rfl : k = 0 := Nat.le_zero.1 hk
    exact h 0 (by omega)
  · rw [blank_blocks, if_neg (Nat.not_lt_zero i)]
    unfold fDirect
    rw [Nat.add_assoc]
    exact hw _ (by omega)
  · rw [blank_blocks, if_pos (by omega)]
    exact hw 176 (by omega)

/-- **An image of files in rows**: `T` has the files, with the address of the `struct File` of each. The blocks from
`stop` on are free. -/
structure Image (d : Bytes) (stop : ℕ) (R : Ent) (T : List (ℕ × Ent)) : Prop where
  three : 3 ≤ stop
  le : stop ≤ nblocks d
  small : nblocks d ≤ 32768
  free : ∀ b < nblocks d, blockIsFree d b = decide (stop ≤ b)
  holds : ∀ p ∈ T, Holds d p.1 p.2
  filled : ∀ p ∈ T, Filled d p.2
  size : ∀ p ∈ T, p.2.size < 1034 * 4096
  named : ∀ p ∈ T, GoodName p.2.name ∧ p.2.name.length < 128
  root : (sRoot, R) ∈ T
  rootDir : R.type = ftypeDir
  row : ∀ p ∈ T, 3 ≤ p.2.start ∧ p.2.stop ≤ stop
  apart : T.Pairwise fun p q => p.2.stop ≤ q.2.start ∨ q.2.stop ≤ p.2.start
  cover : ∀ b, 3 ≤ b → b < stop → ∃ p ∈ T, p.2.start ≤ b ∧ b < p.2.stop
  whole : ∀ p ∈ T, p.2.type = ftypeDir → p.2.size % 4096 = 0
  entries : ∀ p ∈ T, p.2.type = ftypeDir → ∀ k < 16 * p.2.blocks,
    (∃ e, (p.2.start * 4096 + 256 * k, e) ∈ T) ∨ Holds d (p.2.start * 4096 + 256 * k) blank
  reach : ∀ p ∈ T, Reachable d p.1

namespace Image

variable {d : Bytes} {stop f n i j : ℕ} {R e : Ent} {T : List (ℕ × Ent)} (h : Image d stop R T)
include h

theorem slot_eq {p : ℕ × Ent} (hp : p ∈ T) (s : Slot) : slotBlock d p.1 s = p.2.slot s := by
  have h1 := h.row p hp
  have h2 := h.le
  have h3 := h.small
  exact (h.holds p hp).slotBlock_eq (h.filled p hp) (h.size p hp) (by omega) s

theorem block_eq {p : ℕ × Ent} (hp : p ∈ T) (n : ℕ) :
    fileBlock d p.1 n = if n < p.2.blocks then p.2.start + n else 0 := by
  unfold fileBlock
  rw [h.slot_eq hp, Ent.slot_data]

/-- An entry of a directory is in its row. -/
theorem entry_eq {p : ℕ × Ent} (hp : p ∈ T) (h0 : fileBlock d p.1 i ≠ 0) (hj : j < 16) :
    fileBlock d p.1 i * 4096 + 256 * j = p.2.start * 4096 + 256 * (16 * i + j) ∧ 16 * i + j < 16 * p.2.blocks := by
  rw [h.block_eq hp] at h0 ⊢
  split_ifs at h0 ⊢ with h1
  · constructor <;> omega
  · exact absurd rfl h0

/-- The files that are reachable are those of the list. -/
theorem mem (hf : Reachable d f) : ∃ e, (f, e) ∈ T := by
  induction hf with
  | root => exact ⟨R, h.root⟩
  | @entry dir i j hd ht hi h0 hj hn ih =>
    obtain ⟨e, he⟩ := ih
    have htype : e.type = ftypeDir := by
      rw [← (h.holds _ he).type]
      exact ht
    obtain ⟨h1, h2⟩ := h.entry_eq he h0 hj
    dsimp only at h1
    rw [h1] at hn ⊢
    rcases h.entries _ he htype _ h2 with h3 | h3
    · exact h3
    · have h4 := h3.name 0 le_rfl
      rw [Nat.add_zero] at h4
      unfold nameFree at hn
      rw [h4] at hn
      exact absurd hn (by decide)

theorem same {p q : ℕ × Ent} {b : ℕ} (hp : p ∈ T) (hq : q ∈ T) (h1 : p.2.start ≤ b) (h2 : b < p.2.stop)
    (h3 : q.2.start ≤ b) (h4 : b < q.2.stop) : p = q := by
  by_contra hne
  have hsymm : Std.Symm fun p q : ℕ × Ent => p.2.stop ≤ q.2.start ∨ q.2.stop ≤ p.2.start := ⟨fun _ _ h => h.symm⟩
  have := h.apart.forall hp hq hne
  omega

theorem reserved {b : ℕ} (hb : b < nblocks d) : Reserved d b ↔ b < 3 := by
  have := h.small
  have := h.three
  have := h.le
  unfold Reserved
  omega

theorem inUse {b : ℕ} : InUse d b ↔ b < stop := by
  have := h.le
  unfold InUse
  constructor
  · rintro ⟨h1, h2⟩
    rw [h.free b h1] at h2
    simpa using h2
  · intro h1
    have hb : b < nblocks d := by omega
    refine ⟨hb, ?_⟩
    rw [h.free b hb]
    simpa using h1

theorem exclusive : Exclusive d := by
  intro f s hf h0
  obtain ⟨e, he⟩ := h.mem hf
  have hs := h.slot_eq he s
  dsimp only at hs
  rw [hs] at h0 ⊢
  have h1 := Ent.slot_mem h0
  have h2 := h.row _ he
  have h3 := h.le
  dsimp only at h2
  refine ⟨h.inUse.2 (by omega), ?_, fun f' s' hf' heq => ?_⟩
  · rw [h.reserved (by omega)]
    omega
  · obtain ⟨e', he'⟩ := h.mem hf'
    have hs' := h.slot_eq he' s'
    dsimp only at hs'
    rw [hs'] at heq
    have h4 := Ent.slot_mem (e := e') (s := s') (by omega)
    have h5 := h.same he' he h4.1 h4.2 (by dsimp only; omega) (by dsimp only; omega)
    obtain ⟨rfl, rfl⟩ := Prod.mk.inj h5
    exact ⟨rfl, Ent.slot_inj (by omega) heq⟩

theorem noLeak : NoLeak d := by
  intro b hb
  have h1 := h.inUse.1 hb
  by_cases h3 : b < 3
  · exact Or.inl ((h.reserved hb.1).2 h3)
  · right
    obtain ⟨p, hp, h4, h5⟩ := h.cover b (by omega) h1
    obtain ⟨s, h6⟩ := Ent.slot_surj h4 h5
    exact ⟨p.1, s, h.reach p hp, (h.slot_eq hp s).trans h6⟩

/-- **The image is consistent.** -/
theorem consistent : Consistent d where
  super := by
    have := h.small
    omega
  bitmap b hb hr := by
    have h1 := (h.reserved hb).1 hr
    have h2 := h.three
    exact h.inUse.2 (by omega)
  root := by
    rw [← h.rootDir]
    exact (h.holds _ h.root).type
  size f hf := by
    obtain ⟨e, he⟩ := h.mem hf
    have h1 := h.size _ he
    have h2 := (h.holds _ he).fSize_eq h1
    dsimp only at h1 h2
    rw [h2]
    unfold maxFileSize
    omega
  dirSize f hf ht := by
    obtain ⟨e, he⟩ := h.mem hf
    have h1 := (h.holds _ he).fSize_eq (h.size _ he)
    have h2 := h.whole _ he ((h.holds _ he).type.symm.trans ht)
    dsimp only at h1 h2
    rw [h1, Int.tmod_eq_emod_of_nonneg (by omega)]
    omega
  short f n hf hn := by
    obtain ⟨e, he⟩ := h.mem hf
    have h1 := (h.holds _ he).sizeBlocks_eq (h.size _ he)
    have h2 := h.block_eq he n
    dsimp only at h1 h2
    rw [h2, if_neg (by omega)]
  unused f i j hf ht h0 hj hn := by
    obtain ⟨e, he⟩ := h.mem hf
    obtain ⟨h1, h2⟩ := h.entry_eq he h0 hj
    dsimp only at h1
    rw [h1] at hn ⊢
    rcases h.entries _ he ((h.holds _ he).type.symm.trans ht) _ h2 with ⟨e', h3⟩ | h3
    · have h4 := (h.holds _ h3).named (h.named _ h3).1
      dsimp only at h4 hn
      rw [h4] at hn
      cases hn
    · refine ⟨h3.fSize_eq (by decide), fun s => ?_⟩
      rw [h3.slotBlock_eq (fun h10 => absurd h10 (by decide)) (by decide) (by decide)]
      cases s <;> simp [Ent.slot, blank, Ent.blocks]
  exclusive := h.exclusive
  noLeak := h.noLeak

/-- A directory has an entry with a name where the list has one. -/
theorem names_one {p : ℕ × Ent} (hp : p ∈ T) (ht : p.2.type = ftypeDir) {k : ℕ} (hk : k < 16 * p.2.blocks)
    (he : (p.2.start * 4096 + 256 * k, e) ∈ T) : Names d [e.name] p.1 (p.2.start * 4096 + 256 * k) := by
  have hb := h.block_eq hp (k / 16)
  have h3 := (h.row _ hp).1
  rw [if_pos (by omega)] at hb
  refine ⟨(h.holds _ hp).type.trans ht, k / 16, ?_, by omega, k % 16, by omega, ?_, ?_⟩
  · rw [(h.holds _ hp).dirBlocks_eq (h.size _ hp) (h.whole _ hp ht)]
    omega
  · rw [hb]
    have h5 : (p.2.start + k / 16) * 4096 + 256 * (k % 16) = p.2.start * 4096 + 256 * k := by omega
    rw [h5]
    exact (h.holds _ he).nameEq_self
  · rw [hb]
    show p.2.start * 4096 + 256 * k = (p.2.start + k / 16) * 4096 + 256 * (k % 16)
    omega

/-- **The image is well formed**, if no directory has a name twice. -/
theorem wellFormed (hu : ∀ p ∈ T, p.2.type = ftypeDir → ∀ k k' e e', (p.2.start * 4096 + 256 * k, e) ∈ T →
    (p.2.start * 4096 + 256 * k', e') ∈ T → k < 16 * p.2.blocks → k' < 16 * p.2.blocks → e.name = e'.name → k = k') :
    WellFormed d where
  toConsistent := h.consistent
  full f i hf ht hi := by
    obtain ⟨e, he⟩ := h.mem hf
    have htype := (h.holds _ he).type.symm.trans ht
    have h1 := (h.holds _ he).dirBlocks_eq (h.size _ he) (h.whole _ he htype)
    have h2 := h.block_eq he i
    have h3 := (h.row _ he).1
    dsimp only at h1 h2 h3
    rw [h2, if_pos (by omega)]
    omega
  ended f hf hne := by
    obtain ⟨e, he⟩ := h.mem hf
    refine ⟨e.name.length, (h.named _ he).2, ?_⟩
    rw [(h.holds _ he).name _ le_rfl]
    simp
  unique := by
    intro f hf ht name hne hlen i j i' j' hi h0 hj hi' h0' hj' hn hn'
    obtain ⟨e, he⟩ := h.mem hf
    have htype := (h.holds _ he).type.symm.trans ht
    obtain ⟨h1, h2⟩ := h.entry_eq he h0 hj
    obtain ⟨h1', h2'⟩ := h.entry_eq he h0' hj'
    dsimp only at h1 h1' h2 h2'
    rw [h1] at hn
    rw [h1'] at hn'
    -- an entry that matches a name is one of the list
    have hkid : ∀ k < 16 * e.blocks, nameEq name.chars d (e.start * 4096 + 256 * k) = true →
        ∃ e', (e.start * 4096 + 256 * k, e') ∈ T ∧ e'.name = name.chars := by
      intro k hk hm
      rcases h.entries _ he htype _ hk with ⟨e', h3⟩ | h3
      · exact ⟨e', h3, (h.holds _ h3).name_unique (h.named _ h3).1.2 name.noNul hm⟩
      · exact absurd (h3.name_unique (by simp [blank]) name.noNul hm).symm hne
    obtain ⟨e₁, h3, h4⟩ := hkid _ h2 hn
    obtain ⟨e₂, h5, h6⟩ := hkid _ h2' hn'
    have h7 := hu _ he htype _ _ _ _ h3 h5 h2 h2' (h4.trans h6.symm)
    omega

end Image

end Jos.Fs
