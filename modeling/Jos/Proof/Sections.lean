import Jos.Lib.Loop
import Jos.Spec.Elf

/-!
# Loading the debug sections

`readseg` reads the sectors of a segment, one after the other, and at most one more
(`readseg_eq`). So the headers, their names and the debug sections lie behind one another in memory,
at `place` from the end of the kernel on.

`sections_loaded`: they are loaded as they are on the disk exactly if the table of the function has
room for the section headers, and the section with the names is one of them.
-/

namespace Jos.Debug

open Lib

variable {drives : Drives} {mem mem' d d' : Bytes} {elf : Elf} {pa count offset kv off n s a b p q toVa i j k : ℕ}
  {σ σ' : Load} {t : DebugSect}

/-! ## Sectors -/

/-- The ELF image: it starts at sector 1. -/
def image (drives : Drives) : Bytes := ⟨fun o => (drives false).byte (512 + o)⟩

/-- The number of sectors that `readseg` reads. -/
def sectors (count offset : ℕ) : ℕ :=
  (count + 511) / 512 + if offset % 512 + count > 512 then 1 else 0

/-- A segment lies on the disk, with the sector that may be read after it. -/
def OnDisk (offset count : ℕ) : Prop := offset + count + 2048 ≤ 2 ^ 37

theorem OnDisk.sectors (h : OnDisk offset count) : offset / 512 + 1 + sectors count offset ≤ 2 ^ 28 := by
  unfold OnDisk at h
  unfold Debug.sectors
  split <;> omega

/-- The segment is in the sectors that are read. -/
theorem sectors_cover (offset : ℕ) (h : i < count) : offset % 512 + i < 512 * sectors count offset := by
  unfold sectors
  split <;> omega

theorem sectors_le (count offset : ℕ) : 512 * sectors count offset ≤ count + 1535 := by
  unfold sectors
  split <;> omega

theorem readsect_eq (hs : s < 2 ^ 28) : readsect drives mem a s = mem.write a ((drives false).read (s * 512) 512) := by
  unfold readsect
  rw [Nat.testBit_lt_two_pow hs, Nat.mod_eq_of_lt hs]

/-- **Sectors that are read one after the other** are one copy. -/
theorem readsects (hs : s + n ≤ 2 ^ 28) :
    (List.range n).foldl (fun mem j => readsect drives mem (a + 512 * j) (s + j)) mem =
      mem.write a ((drives false).read (s * 512) (512 * n)) := by
  induction n with
  | zero => exact (Bytes.write_nil mem a).symm
  | succ n ih =>
    have h1 := Bytes.write_write mem a ((drives false).read (s * 512) (512 * n))
      ((drives false).read ((s + n) * 512) 512)
    rw [Bytes.read_length] at h1
    have h2 : (drives false).read (s * 512) (512 * (n + 1)) =
        (drives false).read (s * 512) (512 * n) ++ (drives false).read ((s + n) * 512) 512 := by
      rw [show 512 * (n + 1) = 512 * n + 512 by omega, Bytes.read_add, show s * 512 + 512 * n = (s + n) * 512 by omega]
    rw [List.range_succ, List.foldl_append, ih (by omega), List.foldl_cons, List.foldl_nil, readsect_eq (by omega), h1,
      h2]

/-- **`readseg`** copies the sectors of the segment. -/
theorem readseg_eq (drives : Drives) (mem : Bytes) (kv : ℕ) (hpa : pa % 512 = 0) (hlt : pa < 2 ^ 60) (hd : OnDisk offset count) :
    readseg drives mem pa count offset kv =
      some (mem.write pa ((drives false).read ((offset / 512 + 1) * 512) (512 * sectors count offset)),
        kv + 512 * sectors count offset) := by
  have hs := hd.sectors
  have hd' : offset + count + 2048 ≤ 2 ^ 37 := hd
  unfold readseg
  dsimp only
  rw [Nat.mod_eq_of_lt (by omega : pa + count < 2 ^ 64), if_neg (by omega), Nat.add_sub_cancel_left,
    Nat.mod_eq_of_lt (by omega : offset % 512 + count < 2 ^ 64)]
  unfold sectors at hs ⊢
  split
  · rename_i h
    rw [if_pos h] at hs
    rw [readsects (by omega), readsect_eq (by omega)]
    have h1 := Bytes.write_write mem pa ((drives false).read ((offset / 512 + 1) * 512) (512 * ((count + 511) / 512)))
      ((drives false).read ((offset / 512 + 1 + (count + 511) / 512) * 512) 512)
    rw [Bytes.read_length] at h1
    rw [h1, Nat.mul_add, Nat.mul_one, Bytes.read_add,
      show (offset / 512 + 1) * 512 + 512 * ((count + 511) / 512) = (offset / 512 + 1 + (count + 511) / 512) * 512 by
        omega, Nat.add_assoc kv]
  · rename_i h
    rw [if_neg h] at hs
    simp only [Nat.add_zero]
    rw [readsects (by omega)]

/-! ## Segments in memory -/

/-- The memory has the `n` bytes at `b` of another memory at `a`. -/
def HasCopy (d d' : Bytes) (a b n : ℕ) : Prop := ∀ i < n, d.byte (a + i) = d'.byte (b + i)

theorem HasCopy.load32 (h : HasCopy d d' a b n) (hk : k + 4 ≤ n) : d.load32 (a + k) = d'.load32 (b + k) :=
  Bytes.load32_copy fun i hi => by
    rw [Nat.add_assoc, Nat.add_assoc]
    exact h (k + i) (by omega)

theorem HasCopy.load64 (h : HasCopy d d' a b n) (hk : k + 8 ≤ n) : d.load64 (a + k) = d'.load64 (b + k) :=
  Bytes.load64_copy fun i hi => by
    rw [Nat.add_assoc, Nat.add_assoc]
    exact h (k + i) (by omega)

theorem HasCopy.sub (h : HasCopy d d' a b n) (hk : k + j ≤ n) : HasCopy d d' (a + k) (b + k) j := by
  intro i hi
  rw [Nat.add_assoc, Nat.add_assoc]
  exact h (k + i) (by omega)

theorem HasCopy.congr {d₁ : Bytes} (h : HasCopy d d' a b n) (hd : ∀ x, a ≤ x → x < a + n → d₁.byte x = d.byte x) :
    HasCopy d₁ d' a b n := fun i hi => (hd (a + i) (by omega) (by omega)).trans (h i hi)

/-- A copy of a section header has its fields. -/
theorem HasCopy.fields (h : HasCopy d d' p q 64) : shName d p = shName d' q ∧ shAddr d p = shAddr d' q ∧
    shOffset d p = shOffset d' q ∧ shSize d p = shSize d' q := by
  unfold shName shAddr shOffset shSize
  have h0 := h.load32 (k := 0) (by omega)
  rw [Nat.add_zero, Nat.add_zero] at h0
  rw [h0, h.load64 (by omega), h.load64 (by omega), h.load64 (by omega)]
  exact ⟨rfl, rfl, rfl, rfl⟩

/-- **The segment in memory** after `readseg`, and the memory before it. -/
theorem readseg_spec (hpa : pa % 512 = 0) (hlt : pa < 2 ^ 60) (hd : OnDisk offset count)
    (h : readseg drives mem pa count offset kv = some (mem', k)) :
    k = kv + 512 * sectors count offset ∧ HasCopy mem' (image drives) (pa + offset % 512) offset count ∧
      ∀ x < pa, mem'.byte x = mem.byte x := by
  rw [readseg_eq drives mem kv hpa hlt hd] at h
  cases h
  refine ⟨rfl, fun i hi => ?_, fun x hx => Bytes.byte_write_off (Or.inl hx)⟩
  rw [Nat.add_assoc, Bytes.byte_write_read (sectors_cover offset hi)]
  unfold image
  dsimp only
  refine congrArg _ ?_
  omega

/-! ## Names -/

theorem strEq_iff {bs : List Byte} : strEq d p bs = true ↔
    (∀ i < bs.length, d.byte (p + i) = bs.getD i 0) ∧ d.byte (p + bs.length) = 0 := by
  unfold strEq
  rw [Bool.and_eq_true, beq_iff_eq, beq_iff_eq]
  refine and_congr_left fun _ => ⟨fun h i hi => ?_, fun h => ?_⟩
  · rw [← h, Bytes.getD_read hi]
  · refine List.ext_getElem (Bytes.read_length _ _ _) fun i h1 h2 => ?_
    have h3 := h i h2
    rw [List.getD_eq_getElem _ _ h2] at h3
    rw [← h3]
    simp [Bytes.read]

theorem DebugSect.name_ne_zero (t : DebugSect) (hi : i < t.name.length) : t.name.getD i 0 ≠ 0 := by
  have h : ∀ t ∈ [DebugSect.info, .abbrevs, .frame, .line, .str], ∀ i < t.name.length, t.name.getD i 0 ≠ 0 := by
    decide
  exact h t (by cases t <;> simp) i hi

/-- A string that ends in a copy compares as its original. -/
theorem HasCopy.strEq (h : HasCopy d d' p q (k + 1)) (h0 : d'.byte (q + k) = 0) (t : DebugSect) :
    strEq d p t.name = strEq d' q t.name := by
  have key : ∀ {d d' : Bytes} {p q : ℕ}, HasCopy d d' p q (k + 1) → d.byte (p + k) = 0 →
      Debug.strEq d p t.name = true → Debug.strEq d' q t.name = true := by
    intro d d' p q h h0 hs
    obtain ⟨h1, h2⟩ := strEq_iff.1 hs
    -- the name ends where the string does
    have hk : t.name.length ≤ k := by
      by_contra hlt
      rw [h1 k (by omega)] at h0
      exact t.name_ne_zero (by omega) h0
    refine strEq_iff.2 ⟨fun i hi => ?_, ?_⟩
    · rw [← h i (by omega)]
      exact h1 i hi
    · rw [← h _ (by omega)]
      exact h2
  have h0' : d.byte (p + k) = 0 := (h k (by omega)).trans h0
  rw [Bool.eq_iff_iff]
  exact ⟨key h h0', key (fun i hi => (h i hi).symm) h0⟩

theorem HasCopy.debugSect (h : HasCopy d d' p q (k + 1)) (h0 : d'.byte (q + k) = 0) :
    Debug.debugSect d p = Debug.debugSect d' q := by
  unfold Debug.debugSect
  exact congrArg (List.find? · _) (funext fun t => h.strEq h0 t)

/-! ## The layout -/

/-- The section header `i`, in the image. -/
def Elf.hdr (elf : Elf) (i : ℕ) : ℕ := elf.eShoff + 64 * i

/-- The names, in the image. -/
def Elf.strtab (elf : Elf) (img : Bytes) : ℕ := shOffset img (elf.hdr elf.eShstrndx)

/-- The debug section that section header `i` is for. -/
def Elf.sect (elf : Elf) (img : Bytes) (i : ℕ) : Option DebugSect :=
  debugSect img (elf.strtab img + shName img (elf.hdr i))

/-- The sectors that are read for section header `i`. -/
def Elf.sectors (elf : Elf) (img : Bytes) (i : ℕ) : ℕ :=
  match elf.sect img i with
  | none => 0
  | some .frame => 0
  | some _ => Debug.sectors (shSize img (elf.hdr i)) (shOffset img (elf.hdr i))

/-- Where the section of section header `i` is loaded, counted from `kvbase`. -/
def Elf.place (elf : Elf) (img : Bytes) : ℕ → ℕ
  | 0 => 512 * Debug.sectors (elf.eShnum * elf.eShentsize) elf.eShoff +
      512 * Debug.sectors (shSize img (elf.hdr elf.eShstrndx)) (elf.strtab img)
  | i + 1 => elf.place img i + 512 * elf.sectors img i

/-- The buffer of the section of section header `i`. -/
def Elf.buffer (elf : Elf) (img : Bytes) (toVa i : ℕ) : DwarfSection :=
  ⟨kvBase toVa + elf.place img i + shOffset img (elf.hdr i) % 512, shSize img (elf.hdr i)⟩

/-- Section header `i` is the last one for debug section `t`, of the first `n`. -/
def Elf.IsLast (elf : Elf) (img : Bytes) (n : ℕ) (t : DebugSect) (i : ℕ) : Prop :=
  i < n ∧ elf.sect img i = some t ∧ ∀ j, i < j → j < n → elf.sect img j ≠ some t

/-- An ELF file whose headers, names and debug sections are on the disk. The names end. -/
structure WellFormed (drives : Drives) (elf : Elf) : Prop where
  entsize : elf.eShentsize = 64
  headers : OnDisk elf.eShoff (elf.eShnum * 64)
  names : OnDisk (elf.strtab (image drives)) (shSize (image drives) (elf.hdr elf.eShstrndx))
  sections : ∀ i < elf.eShnum, ∀ t, elf.sect (image drives) i = some t → t ≠ .frame →
    OnDisk (shOffset (image drives) (elf.hdr i)) (shSize (image drives) (elf.hdr i))
  strings : ∀ i < elf.eShnum, ∃ k,
    shName (image drives) (elf.hdr i) + k < shSize (image drives) (elf.hdr elf.eShstrndx) ∧
      (image drives).byte (elf.strtab (image drives) + shName (image drives) (elf.hdr i) + k) = 0

theorem Elf.place_mod (elf : Elf) (img : Bytes) (i : ℕ) : elf.place img i % 512 = 0 := by
  induction i with
  | zero => rw [Elf.place, ← Nat.mul_add, Nat.mul_mod_right]
  | succ i ih => rw [Elf.place, Nat.add_mod, ih, Nat.mul_mod_right]

theorem Elf.place_mono (elf : Elf) (img : Bytes) (h : i ≤ j) : elf.place img i ≤ elf.place img j := by
  induction j, h using Nat.le_induction with
  | base => exact le_rfl
  | succ j _ ih =>
    rw [Elf.place]
    omega

theorem kvBase_mod (toVa : ℕ) : kvBase toVa % 512 = 0 := by
  unfold kvBase
  omega

theorem kvBase_le (toVa : ℕ) : toVa ≤ kvBase toVa ∧ kvBase toVa ≤ toVa + 511 := by
  unfold kvBase
  omega

theorem Elf.sectors_none {img : Bytes} (h : elf.sect img i = none) : elf.sectors img i = 0 := by
  unfold Elf.sectors
  rw [h]

theorem Elf.sectors_frame {img : Bytes} (h : elf.sect img i = some .frame) : elf.sectors img i = 0 := by
  unfold Elf.sectors
  rw [h]

theorem Elf.sectors_some {img : Bytes} (h : elf.sect img i = some t) (ht : t ≠ .frame) :
    elf.sectors img i = Debug.sectors (shSize img (elf.hdr i)) (shOffset img (elf.hdr i)) := by
  unfold Elf.sectors
  rw [h]
  cases t
  case frame => exact absurd rfl ht
  all_goals rfl

/-- A debug section ends where the next one may begin. -/
theorem Elf.buffer_end {img : Bytes} (toVa : ℕ) (h : elf.sect img i = some t) (ht : t ≠ .frame) (hk : k < shSize img (elf.hdr i)) :
    (elf.buffer img toVa i).dsData + k < kvBase toVa + elf.place img (i + 1) := by
  have h1 := sectors_cover (shOffset img (elf.hdr i)) hk
  rw [Elf.place, Elf.sectors_some h ht]
  unfold Elf.buffer
  dsimp only
  omega

theorem WellFormed.sectors_lt (h : WellFormed drives elf) (hi : i < elf.eShnum) :
    512 * elf.sectors (image drives) i ≤ 2 ^ 37 := by
  rcases hs : elf.sect (image drives) i with _ | t
  · rw [Elf.sectors_none hs]
    omega
  · by_cases ht : t = .frame
    · rw [Elf.sectors_frame (ht ▸ hs)]
      omega
    · have h1 : _ + _ + 2048 ≤ 2 ^ 37 := h.sections i hi t hs ht
      have h2 := sectors_le (shSize (image drives) (elf.hdr i)) (shOffset (image drives) (elf.hdr i))
      rw [Elf.sectors_some hs ht]
      omega

theorem WellFormed.place_lt (h : WellFormed drives elf) (hi : i ≤ elf.eShnum) :
    elf.place (image drives) i ≤ (i + 2) * 2 ^ 37 := by
  induction i with
  | zero =>
    have h1 : _ + _ + 2048 ≤ 2 ^ 37 := h.headers
    have h2 : _ + _ + 2048 ≤ 2 ^ 37 := h.names
    have h3 := sectors_le (elf.eShnum * 64) (elf.eShoff)
    have h4 := sectors_le (shSize (image drives) (elf.hdr elf.eShstrndx)) (elf.strtab (image drives))
    rw [Elf.place, h.entsize]
    omega
  | succ i ih =>
    have h1 := ih (by omega)
    have h2 := h.sectors_lt (i := i) (by omega)
    rw [Elf.place]
    omega

/-! ## The loop -/

/-- The state after the turns for the first `i` section headers, from memory `mem` on. -/
structure Upto (drives : Drives) (elf : Elf) (toVa : ℕ) (mem : Bytes) (i : ℕ) (σ : Load) : Prop where
  kvoffset : σ.kvoffset = elf.place (image drives) i
  low : ∀ x < kvBase toVa + elf.place (image drives) 0, σ.mem.byte x = mem.byte x
  copies : ∀ j < i, ∀ t, elf.sect (image drives) j = some t → t ≠ .frame →
    HasCopy σ.mem (image drives) (elf.buffer (image drives) toVa j).dsData (shOffset (image drives) (elf.hdr j))
      (shSize (image drives) (elf.hdr j))
  found : ∀ t ≠ DebugSect.frame, ∀ j, elf.IsLast (image drives) i t j →
    σ.info t = elf.buffer (image drives) toVa j
  absent : ∀ t ≠ DebugSect.frame, (∀ j < i, elf.sect (image drives) j ≠ some t) → σ.info t = ⟨0, 0⟩

/-- The memory that the loop finds: the section headers and the names. -/
structure Headers (drives : Drives) (elf : Elf) (toVa nametab : ℕ) (mem : Bytes) : Prop where
  table : HasCopy mem (image drives) (kvBase toVa + elf.eShoff % 512) elf.eShoff (elf.eShnum * 64)
  names : HasCopy mem (image drives) nametab (elf.strtab (image drives))
    (shSize (image drives) (elf.hdr elf.eShstrndx))
  tableEnd : ∀ k < elf.eShnum * 64, elf.eShoff % 512 + k < elf.place (image drives) 0
  namesEnd : ∀ k < shSize (image drives) (elf.hdr elf.eShstrndx),
    nametab + k < kvBase toVa + elf.place (image drives) 0

theorem Headers.fields (h : Headers drives elf toVa k mem) (hi : i < elf.eShnum)
    (hl : ∀ x < kvBase toVa + elf.place (image drives) 0, d.byte x = mem.byte x) :
    HasCopy d (image drives) (kvBase toVa + elf.eShoff % 512 + 64 * i) (elf.hdr i) 64 := by
  refine (h.table.sub (k := 64 * i) (j := 64) (by omega)).congr fun x h1 h2 => hl x ?_
  have h3 := h.tableEnd (64 * i + 63) (by omega)
  omega

/-- The section header is for the section that its name in the image says. -/
theorem Headers.sect (h : Headers drives elf toVa k mem) (hw : WellFormed drives elf) (hi : i < elf.eShnum)
    (hl : ∀ x < kvBase toVa + elf.place (image drives) 0, d.byte x = mem.byte x) :
    debugSect d (k + shName d (kvBase toVa + elf.eShoff % 512 + 64 * i)) = elf.sect (image drives) i := by
  obtain ⟨e, h1, h2⟩ := hw.strings i hi
  rw [(h.fields hi hl).fields.1]
  refine HasCopy.debugSect (k := e) ?_ h2
  refine (h.names.sub (j := e + 1) (by omega)).congr fun x h3 h4 => hl x ?_
  have h5 := h.namesEnd (shName (image drives) (elf.hdr i) + e) h1
  omega

theorem Elf.IsLast.mono {img : Bytes} (h : elf.IsLast img (i + 1) t j) (hs : elf.sect img i ≠ some t) :
    elf.IsLast img i t j := by
  obtain ⟨h1, h2, h3⟩ := h
  have hj : j ≠ i := fun he => hs (he ▸ h2)
  exact ⟨by omega, h2, fun k hk hki => h3 k hk (by omega)⟩

theorem Elf.IsLast.eq {img : Bytes} (h : elf.IsLast img (i + 1) t j) (hs : elf.sect img i = some t) : j = i := by
  obtain ⟨h1, -, h3⟩ := h
  by_contra hne
  exact h3 i (by omega) (by omega) hs

/-- A turn that reads nothing. -/
theorem Upto.skip {info : DebugSect → DwarfSection} (h : Upto drives elf toVa mem i σ)
    (hs : ∀ t ≠ DebugSect.frame, elf.sect (image drives) i ≠ some t) (hi : ∀ t ≠ DebugSect.frame, info t = σ.info t) :
    Upto drives elf toVa mem (i + 1) { σ with info := info } := by
  have h0 : elf.sectors (image drives) i = 0 := by
    rcases he : elf.sect (image drives) i with _ | t
    · exact Elf.sectors_none he
    · by_cases ht : t = .frame
      · exact Elf.sectors_frame (ht ▸ he)
      · exact absurd he (hs t ht)
  refine ⟨?_, h.low, fun j hj t hjt ht => ?_, fun t ht j hl => ?_, fun t ht hn => ?_⟩
  · rw [Elf.place, h0]
    exact h.kvoffset
  · have hne : j ≠ i := fun he => hs t ht (he ▸ hjt)
    exact h.copies j (by omega) t hjt ht
  · exact (hi t ht).trans (h.found t ht j (hl.mono (hs t ht)))
  · exact (hi t ht).trans (h.absent t ht fun j hj => hn j (by omega))

/-- A turn that reads a section. -/
theorem Upto.load (h : Upto drives elf toVa mem i σ) (hs : elf.sect (image drives) i = some t)
    (hk : k = elf.place (image drives) (i + 1))
    (hc : HasCopy d (image drives) (elf.buffer (image drives) toVa i).dsData (shOffset (image drives) (elf.hdr i))
      (shSize (image drives) (elf.hdr i)))
    (hd : ∀ x < kvBase toVa + elf.place (image drives) i, d.byte x = σ.mem.byte x) :
    Upto drives elf toVa mem (i + 1)
      ⟨d, k, Function.update σ.info t (elf.buffer (image drives) toVa i)⟩ := by
  refine ⟨hk, fun x hx => ?_, fun j hj u hju hu => ?_, fun u hu j hl => ?_, fun u hu hn => ?_⟩
  · have h1 := elf.place_mono (image drives) (Nat.zero_le i)
    exact (hd x (by omega)).trans (h.low x hx)
  · rcases Nat.lt_succ_iff_lt_or_eq.1 hj with hlt | rfl
    · refine (h.copies j hlt u hju hu).congr fun x h1 h2 => hd x ?_
      -- the sections that were read before lie below
      have h3 := elf.place_mono (image drives) (show j + 1 ≤ i from hlt)
      have h4 := Elf.buffer_end toVa (k := shSize (image drives) (elf.hdr j) - 1) hju hu (by omega)
      omega
    · exact hc
  · dsimp only
    by_cases he : u = t
    · rw [he, Function.update_self, hl.eq (he ▸ hs)]
    · rw [Function.update_of_ne he]
      exact h.found u hu j (hl.mono fun hsu => he (Option.some.inj (hsu.symm.trans hs)))
  · dsimp only
    have he : u ≠ t := fun he => hn i (Nat.lt_succ_self i) (he ▸ hs)
    rw [Function.update_of_ne he]
    exact h.absent u hu fun j hj => hn j (by omega)

theorem loadSection_none (hk : σ.kvoffset % 512 = 0) (h : debugSect σ.mem (n + shName σ.mem p) = none) :
    loadSection drives k n σ p = some σ := by
  unfold loadSection
  rw [if_neg (not_not.2 hk), h]

theorem loadSection_frame (hk : σ.kvoffset % 512 = 0) (h : debugSect σ.mem (n + shName σ.mem p) = some .frame) :
    loadSection drives k n σ p =
      some { σ with info := Function.update σ.info .frame ⟨shAddr σ.mem p, shSize σ.mem p⟩ } := by
  unfold loadSection
  rw [if_neg (not_not.2 hk), h]

theorem loadSection_some (hk : σ.kvoffset % 512 = 0) (h : debugSect σ.mem (n + shName σ.mem p) = some t)
    (ht : t ≠ .frame) (hr : readseg drives σ.mem (k + σ.kvoffset) (shSize σ.mem p) (shOffset σ.mem p) σ.kvoffset =
      some (mem', kv)) :
    loadSection drives k n σ p = some ⟨mem', kv, Function.update σ.info t
      ⟨k + σ.kvoffset + shOffset mem' p % 512, shSize mem' p⟩⟩ := by
  unfold loadSection
  rw [if_neg (not_not.2 hk), h]
  cases t
  case frame => exact absurd rfl ht
  all_goals
    dsimp only
    rw [hr]
    rfl

/-- **One turn of the loop.** -/
theorem Upto.step (h : Upto drives elf toVa mem i σ) (hw : WellFormed drives elf)
    (hh : Headers drives elf toVa n mem) (hva : toVa < 2 ^ 59) (hn : elf.eShnum ≤ 20) (hi : i < elf.eShnum) :
    ∃ σ', loadSection drives (kvBase toVa) n σ (kvBase toVa + elf.eShoff % 512 + 64 * i) = some σ' ∧
      Upto drives elf toVa mem (i + 1) σ' := by
  have hp := elf.place_mod (image drives) i
  have hs := hh.sect hw hi h.low
  obtain ⟨-, -, ho, hz⟩ := (hh.fields hi h.low).fields
  rw [← h.kvoffset] at hp
  rcases he : elf.sect (image drives) i with _ | t
  · rw [he] at hs
    exact ⟨_, loadSection_none hp hs, h.skip (fun t _ => by rw [he]; exact nofun) fun _ _ => rfl⟩
  rw [he] at hs
  by_cases ht : t = .frame
  · rw [ht] at hs he
    refine ⟨_, loadSection_frame hp hs, h.skip (fun t ht => ?_) fun t ht => Function.update_of_ne ht _ _⟩
    rw [he]
    exact fun he => ht (Option.some.inj he).symm
  -- the section is read
  have hd := hw.sections i hi t he ht
  have hl := hw.place_lt hi.le
  have hkb := kvBase_le toVa
  have hm := kvBase_mod toVa
  have hpa : (kvBase toVa + σ.kvoffset) % 512 = 0 := by omega
  have hlt : kvBase toVa + σ.kvoffset < 2 ^ 60 := by
    rw [h.kvoffset]
    omega
  rw [← hz, ← ho] at hd
  have hr := readseg_eq drives σ.mem σ.kvoffset hpa hlt hd
  obtain ⟨hk', hc, hlow⟩ := readseg_spec hpa hlt hd hr
  refine ⟨_, loadSection_some hp hs ht hr, ?_⟩
  generalize σ.mem.write _ _ = d at hr hc hlow ⊢
  have hf := hh.fields (d := d) hi fun x hx => by
    have h1 := elf.place_mono (image drives) (Nat.zero_le i)
    exact (hlow x (by rw [h.kvoffset]; omega)).trans (h.low x hx)
  obtain ⟨-, -, ho', hz'⟩ := hf.fields
  rw [ho', hz', ho, hz, h.kvoffset]
  rw [ho, hz, h.kvoffset] at hc
  rw [h.kvoffset] at hlow
  refine h.load he ?_ hc hlow
  rw [Elf.place, Elf.sectors_some he ht]

/-! ## The tables -/

/-- Filling the table succeeds if it is large enough. -/
theorem fillTable_eq (h : n ≤ 20) : fillTable a n = some fun i => if i < n then some (a + 64 * i) else none := by
  unfold fillTable
  induction n with
  | zero => rfl
  | succ n ih =>
    rw [List.range_succ, List.foldlM_append, ih (by omega)]
    have h1 : n < 20 := h
    simp only [Option.bind_eq_bind, Option.bind_some, List.foldlM_cons, List.foldlM_nil, if_pos h1, Option.pure_def]
    refine congrArg some (funext fun i => ?_)
    by_cases he : i = n
    · rw [he, Function.update_self, if_pos (Nat.lt_succ_self n)]
    · rw [Function.update_of_ne he]
      split <;> split <;> first | rfl | omega

theorem fillTable_none (h : 20 < n) : fillTable a n = none := by
  unfold fillTable
  obtain ⟨k, rfl⟩ := Nat.exists_eq_add_of_lt h
  rw [show 20 + k + 1 = 21 + k by omega, List.range_add, List.foldlM_append]
  have h1 := fillTable_eq (a := a) (le_refl 20)
  unfold fillTable at h1
  rw [show List.range 21 = List.range 20 ++ [20] from rfl, List.foldlM_append, h1]
  rfl

theorem tableGet_eq (hi : i < n) (h : i < 20) :
    tableGet (fun i => if i < n then some (a + 64 * i) else none) i = some (a + 64 * i) := by
  unfold tableGet
  rw [if_pos h]
  exact if_pos hi

/-! ## The result -/

def DwarfSection.Has (b : DwarfSection) (x : ℕ) : Prop := b.dsData ≤ x ∧ x < b.dsData + b.dsSize

/-- The debug sections are in memory as they are in the image, and apart from one another and from
the section headers. -/
structure Loaded (drives : Drives) (elf : Elf) (toVa : ℕ) (σ : Load) : Prop where
  bytes : ∀ t ≠ DebugSect.frame, ∀ i, elf.IsLast (image drives) elf.eShnum t i →
    (σ.info t).dsSize = shSize (image drives) (elf.hdr i) ∧
      HasCopy σ.mem (image drives) (σ.info t).dsData (shOffset (image drives) (elf.hdr i)) (σ.info t).dsSize
  absent : ∀ t ≠ DebugSect.frame, (∀ i < elf.eShnum, elf.sect (image drives) i ≠ some t) → (σ.info t).dsSize = 0
  table : HasCopy σ.mem (image drives) (kvBase toVa + elf.eShoff % 512) elf.eShoff (64 * elf.eShnum)
  apart : ∀ t ≠ DebugSect.frame, ∀ u ≠ DebugSect.frame, t ≠ u → ∀ x, (σ.info t).Has x → ¬ (σ.info u).Has x
  above : ∀ t ≠ DebugSect.frame, ∀ x, (σ.info t).Has x → kvBase toVa + elf.eShoff % 512 + 64 * elf.eShnum ≤ x

theorem Elf.exists_isLast {img : Bytes} (h : ∃ i < n, elf.sect img i = some t) : ∃ i, elf.IsLast img n t i := by
  induction n with
  | zero =>
    obtain ⟨i, hi, -⟩ := h
    omega
  | succ n ih =>
    by_cases hn : elf.sect img n = some t
    · exact ⟨n, Nat.lt_succ_self n, hn, fun j h1 h2 => by omega⟩
    · obtain ⟨i, hi, hs⟩ := h
      have hne : i ≠ n := fun he => hn (he ▸ hs)
      obtain ⟨j, h1, h2, h3⟩ := ih ⟨i, by omega, hs⟩
      refine ⟨j, by omega, h2, fun k hk hkn => ?_⟩
      rcases Nat.lt_succ_iff_lt_or_eq.1 hkn with hlt | rfl
      · exact h3 k hk hlt
      · exact hn

/-- A nonempty buffer is the one of a section header. -/
theorem Upto.buffer (h : Upto drives elf toVa mem n σ) (ht : t ≠ .frame) {x : ℕ} (hx : (σ.info t).Has x) :
    ∃ i, elf.IsLast (image drives) n t i ∧ σ.info t = elf.buffer (image drives) toVa i := by
  by_cases hs : ∃ i < n, elf.sect (image drives) i = some t
  · obtain ⟨i, hi⟩ := Elf.exists_isLast hs
    exact ⟨i, hi, h.found t ht i hi⟩
  · have h0 := h.absent t ht fun i hi he => hs ⟨i, hi, he⟩
    rw [h0] at hx
    obtain ⟨h1, h2⟩ := hx
    dsimp only at h2
    omega

/-- The buffer of a section header lies between its place and the next one. -/
theorem Elf.buffer_has {img : Bytes} (hs : elf.sect img i = some t) (ht : t ≠ .frame) {x : ℕ}
    (hx : (elf.buffer img toVa i).Has x) :
    kvBase toVa + elf.place img i ≤ x ∧ x < kvBase toVa + elf.place img (i + 1) := by
  obtain ⟨h1, h2⟩ := hx
  have h3 := Elf.buffer_end toVa (k := shSize img (elf.hdr i) - 1) hs ht
  unfold Elf.buffer at h1 h2 h3
  dsimp only at h1 h2 h3
  omega

theorem Upto.loaded (h : Upto drives elf toVa mem elf.eShnum σ) (hh : Headers drives elf toVa n mem) :
    Loaded drives elf toVa σ := by
  refine ⟨fun t ht i hi => ?_, fun t ht hn => ?_, ?_, fun t ht u hu htu x hx hx' => ?_, fun t ht x hx => ?_⟩
  · rw [h.found t ht i hi]
    exact ⟨rfl, h.copies i hi.1 t hi.2.1 ht⟩
  · rw [h.absent t ht hn]
  · rw [Nat.mul_comm]
    refine hh.table.congr fun x h1 h2 => h.low x ?_
    have h3 := hh.tableEnd (x - kvBase toVa - elf.eShoff % 512) (by omega)
    omega
  · obtain ⟨i, hi, hb⟩ := h.buffer ht hx
    obtain ⟨j, hj, hb'⟩ := h.buffer hu hx'
    rw [hb] at hx
    rw [hb'] at hx'
    obtain ⟨h1, h2⟩ := Elf.buffer_has hi.2.1 ht hx
    obtain ⟨h3, h4⟩ := Elf.buffer_has hj.2.1 hu hx'
    rcases lt_trichotomy i j with hlt | rfl | hlt
    · have h5 := elf.place_mono (image drives) (show i + 1 ≤ j from hlt)
      omega
    · exact htu (Option.some.inj (hi.2.1.symm.trans hj.2.1))
    · have h5 := elf.place_mono (image drives) (show j + 1 ≤ i from hlt)
      omega
  · obtain ⟨i, hi, hb⟩ := h.buffer ht hx
    rw [hb] at hx
    obtain ⟨h1, -⟩ := Elf.buffer_has hi.2.1 ht hx
    have h2 := elf.place_mono (image drives) (Nat.zero_le i)
    have h3 := hh.tableEnd (elf.eShnum * 64 - 1) (by have := hi.1; omega)
    have h4 := hi.1
    omega

/-- **The whole function**, where the tables are large enough. -/
theorem readSectionHeaders_loaded (mem : Bytes) (hw : WellFormed drives elf) (hva : toVa < 2 ^ 59) (hs : elf.eShstrndx < elf.eShnum)
    (hn : elf.eShnum ≤ 20) : ∃ σ, readSectionHeaders drives elf mem toVa = some σ ∧ Loaded drives elf toVa σ ∧
      ∀ t ≠ DebugSect.frame, ∀ i, elf.IsLast (image drives) elf.eShnum t i →
        σ.info t = elf.buffer (image drives) toVa i := by
  have hkb := kvBase_le toVa
  have hm := kvBase_mod toVa
  have hl : _ + _ + 2048 ≤ 2 ^ 37 := hw.headers
  -- the section headers
  have hd : OnDisk elf.eShoff (elf.eShnum * elf.eShentsize) := by
    rw [hw.entsize]
    exact hw.headers
  have hr := readseg_eq drives mem 0 hm (by omega) hd
  obtain ⟨-, hc, -⟩ := readseg_spec hm (by omega) hd hr
  have hsec : 512 * sectors (elf.eShnum * elf.eShentsize) elf.eShoff ≤ 2 ^ 37 := by
    have h1 := sectors_le (elf.eShnum * elf.eShentsize) (elf.eShoff)
    rw [hw.entsize] at h1 ⊢
    omega
  generalize mem.write _ _ = m at hr hc
  rw [hw.entsize, Nat.zero_add] at *
  generalize hk : 512 * sectors (elf.eShnum * 64) elf.eShoff = kv at hr hsec
  -- the names
  obtain ⟨-, -, ho, hz⟩ := ((hc.sub (k := 64 * elf.eShstrndx) (j := 64) (by omega))).fields
  have hpa : (kvBase toVa + kv) % 512 = 0 := by omega
  have hdn : OnDisk (shOffset m (kvBase toVa + elf.eShoff % 512 + 64 * elf.eShstrndx))
      (shSize m (kvBase toVa + elf.eShoff % 512 + 64 * elf.eShstrndx)) := by
    rw [ho, hz]
    exact hw.names
  have hr' := readseg_eq drives m kv hpa (by omega) hdn
  obtain ⟨-, hc', hlow⟩ := readseg_spec hpa (by omega) hdn hr'
  generalize m.write _ _ = m' at hr' hc' hlow
  have htab : ∀ k < elf.eShnum * 64, elf.eShoff % 512 + k < kv := by
    intro k h
    rw [← hk]
    exact sectors_cover elf.eShoff h
  have hc1 : HasCopy m' (image drives) (kvBase toVa + elf.eShoff % 512) elf.eShoff (elf.eShnum * 64) :=
    hc.congr fun x h1 h2 => hlow x (by have := htab (x - kvBase toVa - elf.eShoff % 512) (by omega); omega)
  obtain ⟨-, -, ho', hz'⟩ := ((hc1.sub (k := 64 * elf.eShstrndx) (j := 64) (by omega))).fields
  have hplace : elf.place (image drives) 0 = kv + 512 * sectors
      (shSize m (kvBase toVa + elf.eShoff % 512 + 64 * elf.eShstrndx))
      (shOffset m (kvBase toVa + elf.eShoff % 512 + 64 * elf.eShstrndx)) := by
    rw [Elf.place, hw.entsize, hk, ho, hz]
    rfl
  have hh : Headers drives elf toVa
      (kvBase toVa + kv + shOffset m' (kvBase toVa + elf.eShoff % 512 + 64 * elf.eShstrndx) % 512) m' := by
    refine ⟨hc1, ?_, fun k h => ?_, fun k h => ?_⟩
    · rw [ho', ← ho]
      have h1 := hc'
      rw [hz] at h1
      rw [ho] at h1 ⊢
      exact h1
    · have h1 := htab k h
      omega
    · rw [ho', hplace]
      rw [show elf.hdr elf.eShstrndx = elf.eShoff + 64 * elf.eShstrndx from rfl, ← hz] at h
      have h1 := sectors_cover (shOffset m (kvBase toVa + elf.eShoff % 512 + 64 * elf.eShstrndx)) h
      rw [ho] at h1 ⊢
      omega
  -- the loop
  have h0 : Upto drives elf toVa m' 0 ⟨m', elf.place (image drives) 0, fun _ => ⟨0, 0⟩⟩ :=
    ⟨rfl, fun _ _ => rfl, fun _ h => absurd h (by omega), fun _ _ _ h => absurd h.1 (by omega), fun _ _ _ => rfl⟩
  obtain ⟨σ, hσ, hup⟩ := range_total (f := fun σ i => (tableGet
    (fun i => if i < elf.eShnum then some (kvBase toVa + elf.eShoff % 512 + 64 * i) else none) i).bind
      (loadSection drives (kvBase toVa) _ σ)) (fun i hi σ h => by
        rw [tableGet_eq hi (by omega)]
        exact h.step hw hh hva hn hi) h0
  refine ⟨σ, ?_, hup.loaded hh, hup.found⟩
  unfold readSectionHeaders
  dsimp only
  rw [hw.entsize, hr]
  simp only [Option.bind_eq_bind, Option.bind_some, fillTable_eq hn]
  rw [tableGet_eq hs (by omega), Option.bind_some, hr', Option.bind_some, ← hplace]
  exact hσ

theorem readSectionHeaders_tables (hw : WellFormed drives elf) (hva : toVa < 2 ^ 59)
    (h : readSectionHeaders drives elf mem toVa = some σ) : elf.eShstrndx < elf.eShnum ∧ elf.eShnum ≤ 20 := by
  have hkb := kvBase_le toVa
  have hm := kvBase_mod toVa
  unfold readSectionHeaders at h
  dsimp only at h
  rw [hw.entsize, readseg_eq drives mem 0 hm (by omega) hw.headers] at h
  simp only [Option.bind_eq_bind, Option.bind_some] at h
  by_cases hn : elf.eShnum ≤ 20
  · rw [fillTable_eq hn, Option.bind_some] at h
    obtain ⟨p, hp, -⟩ := Option.bind_eq_some_iff.1 h
    unfold tableGet at hp
    split at hp
    · refine ⟨?_, hn⟩
      by_contra hlt
      dsimp only at hp
      rw [if_neg hlt] at hp
      exact absurd hp nofun
    · exact absurd hp nofun
  · rw [fillTable_none (by omega)] at h
    exact absurd h nofun

/-- **The debug sections are loaded** exactly if there are at most 20 section headers, and the one of
the names is among them. -/
theorem sections_loaded (hw : WellFormed drives elf) (hva : toVa < 2 ^ 59) :
    (∃ σ, readSectionHeaders drives elf mem toVa = some σ ∧ Loaded drives elf toVa σ) ↔
      elf.eShstrndx < elf.eShnum ∧ elf.eShnum ≤ 20 := by
  refine ⟨fun ⟨σ, h, _⟩ => readSectionHeaders_tables hw hva h, fun ⟨hs, hn⟩ => ?_⟩
  obtain ⟨σ, h, hl, -⟩ := readSectionHeaders_loaded mem hw hva hs hn
  exact ⟨σ, h, hl⟩

/-! ## A small image -/

/-- Section header 0 is for the names, at 1344, and section header 1 for `.debug_str`, at 1356. The
other ones are blank. -/
def smallDisk : Drives := fun _ =>
  ((((⟨fun _ => 0⟩ : Bytes).write (512 + 24) [0x40, 0x05, 0, 0, 0, 0, 0, 0, 12]).write (512 + 64) [1]).write
    (512 + 64 + 24) [0x4C, 0x05, 0, 0, 0, 0, 0, 0, 4]).write (512 + 1344)
      ([0] ++ DebugSect.str.name ++ [0] ++ [0xAA, 0xBB, 0xCC, 0xDD])

theorem wellFormed_small (hn : n ≤ 21) : WellFormed smallDisk ⟨0, 64, n, 0⟩ := by
  have h0 : shSize (image smallDisk) 0 = 12 ∧ shOffset (image smallDisk) 0 = 1344 := by decide +kernel
  have hname : ∀ i < 21, shName (image smallDisk) (0 + 64 * i) = if i = 1 then 1 else 0 := by decide +kernel
  have hsect : ∀ i < 21, shOffset (image smallDisk) (0 + 64 * i) ≤ 1356 ∧ shSize (image smallDisk) (0 + 64 * i) ≤ 12 := by
    decide +kernel
  refine ⟨rfl, ?_, ?_, fun i hi t _ _ => ?_, fun i hi => ?_⟩
  · unfold OnDisk
    dsimp only
    omega
  · unfold OnDisk Elf.strtab Elf.hdr
    dsimp only
    rw [Nat.mul_zero, Nat.add_zero, h0.1, h0.2]
    omega
  · have hi' : i < n := hi
    obtain ⟨h1, h2⟩ := hsect i (by omega)
    unfold OnDisk Elf.hdr
    dsimp only
    omega
  · have hi' : i < n := hi
    have h1 := hname i (by omega)
    unfold Elf.strtab Elf.hdr
    dsimp only
    rw [h1, Nat.mul_zero, Nat.add_zero, h0.1, h0.2]
    by_cases he : i = 1
    · rw [if_pos he]
      exact ⟨10, by omega, by decide +kernel⟩
    · rw [if_neg he]
      exact ⟨0, by omega, by decide +kernel⟩

theorem sections_loaded_small : ∃ σ, readSectionHeaders smallDisk ⟨0, 64, 2, 0⟩ ⟨fun _ => 0⟩ 0x8004300000 = some σ ∧
    Loaded smallDisk ⟨0, 64, 2, 0⟩ 0x8004300000 σ :=
  (sections_loaded (wellFormed_small (by decide)) (by decide)).2 ⟨by decide, by decide⟩

/-- With 21 section headers the table overflows. -/
theorem sections_loaded_counterexample : ¬ ∀ (drives : Drives) (elf : Elf) (mem : Bytes) (toVa : ℕ),
    WellFormed drives elf → toVa < 2 ^ 59 →
      ∃ σ, readSectionHeaders drives elf mem toVa = some σ ∧ Loaded drives elf toVa σ := by
  intro h
  have hw := wellFormed_small (n := 21) (by decide)
  obtain ⟨σ, hσ, -⟩ := h smallDisk ⟨0, 64, 21, 0⟩ ⟨fun _ => 0⟩ 0x8004300000 hw (by decide)
  exact absurd (readSectionHeaders_tables hw (by decide) hσ).2 (by decide)

end Jos.Debug
