import Jos.Lib.Rows
import Jos.Proof.Image
import Jos.Spec.Format

/-!
# `fsformat` makes an image

The run of `fsformat` is followed with one invariant on its memory (`Built`): the files lie in rows from block 3 on,
and the arrays of `startdir` hold the `struct File`s of what was added. `writefile` and `finishdir` keep it
(`writefile_built`, `finishdir_built`).
-/

namespace Jos.Format

open Lib Fs

variable {σ σ' : St} {m m' : Bytes} {a b f n p x start : ℕ} {e : Ent} {name data : List Byte} {type : BitVec 32}

/-! ## Rounding -/

theorem roundup_toNat {w : BitVec 32} (h : w.toNat + 4096 ≤ 2 ^ 32) : (roundup w).toNat = (w.toNat + 4095) / 4096 * 4096 := by
  have h1 : (1 : BitVec 32).toNat = 1 := rfl
  have h4 : (4096 : BitVec 32).toNat = 4096 := rfl
  unfold roundup
  rw [BitVec.toNat_sub, BitVec.toNat_add, BitVec.toNat_umod, BitVec.toNat_sub, h1, h4]
  omega

theorem roundup_ofNat (h : n + 4096 ≤ 2 ^ 32) : (roundup (BitVec.ofNat 32 n)).toNat = (n + 4095) / 4096 * 4096 := by
  have h1 : (BitVec.ofNat 32 n).toNat = n := Nat.mod_eq_of_lt (by omega)
  rw [roundup_toNat (by omega), h1]

/-- As an `int`, 0 is rounded up to 4096. -/
theorem roundupInt_natCast (n : ℕ) : roundupInt n = if n = 0 then 4096 else ((n + 4095) / 4096 * 4096 : ℕ) := by
  unfold roundupInt
  split_ifs with h
  · subst h
    rfl
  · rw [Int.tmod_eq_emod_of_nonneg (by omega)]
    omega

/-! ## Arrays of words -/

/-- A loop that stores `n` words from `a` on. -/
theorem words_spec (m : Bytes) (a n : ℕ) (w : ℕ → BitVec 32) :
    (∀ i < n, ((List.range n).foldl (fun m i => m.store32 (a + 4 * i) (w i)) m).load32 (a + 4 * i) = w i) ∧
      ∀ x, x < a ∨ a + 4 * n ≤ x → ((List.range n).foldl (fun m i => m.store32 (a + 4 * i) (w i)) m).byte x = m.byte x := by
  induction n with
  | zero => exact ⟨fun i hi => absurd hi (Nat.not_lt_zero i), fun _ _ => rfl⟩
  | succ n ih =>
    rw [List.range_succ, List.foldl_append, List.foldl_cons, List.foldl_nil]
    obtain ⟨h1, h2⟩ := ih
    refine ⟨fun i hi => ?_, fun x hx => ?_⟩
    · by_cases hn : i = n
      · rw [hn, Bytes.load32_store32]
      · rw [Bytes.load32_store32_off (by omega)]
        exact h1 i (by omega)
    · rw [Bytes.byte_store32_off (by omega)]
      exact h2 x (by omega)

/-! ## `alloc` -/

theorem alloc_spec {bytes : BitVec 32} (h : σ.alloc bytes = some (start, σ')) (hp : σ.diskpos = p * 4096)
    (hb : bytes.toNat + 4096 ≤ 2 ^ 32) : start = p * 4096 ∧ p + (bytes.toNat + 4095) / 4096 < σ.nblocks ∧
      σ' = { σ with diskpos := (p + (bytes.toNat + 4095) / 4096) * 4096 } := by
  unfold St.alloc blockof at h
  rw [hp, roundup_toNat hb] at h
  dsimp only at h
  split_ifs at h with hn
  obtain ⟨rfl, rfl⟩ := Prod.mk.inj (Option.some.inj h)
  refine ⟨rfl, by omega, ?_⟩
  rw [Nat.add_mul]

/-! ## `finishfile` -/

/-- The slots of the `struct File` at `a` are 0. -/
def SlotsClear (m : Bytes) (a : ℕ) : Prop := ∀ o < 11, m.load32 (a + 136 + 4 * o) = 0

/-- A file without blocks has clear slots. -/
theorem slotsClear_of_holds (h : Holds m a e) (h0 : e.size = 0) : SlotsClear m a := by
  have hb : e.blocks = 0 := by
    unfold Ent.blocks
    rw [h0]
  intro o ho
  by_cases h10 : o < 10
  · have h1 := h.direct o h10
    rw [hb, if_neg (by omega)] at h1
    exact h1
  · obtain rfl : o = 10 := by omega
    have h1 := h.indirect
    rw [hb, if_pos (by omega)] at h1
    exact h1

/-- A byte is not of the `struct File` at `a`, nor of the blocks from `b` up to `c`. -/
def Off (a b c x : ℕ) : Prop := (x < a ∨ a + 256 ≤ x) ∧ (x / 4096 < b ∨ c ≤ x / 4096)

theorem finishfile_spec (h : σ.finishfile f e.start (BitVec.ofNat 32 e.size) = some σ') (hp : σ.diskpos = p * 4096)
    (hs : e.size < 1034 * 4096) (hrow : 10 ≤ e.blocks → p = e.start + e.blocks)
    (hoff : (f + 255) / 4096 < p ∨ σ.nblocks ≤ f / 4096) (hslots : SlotsClear σ.mem f)
    (hclear : ∀ x, p ≤ x / 4096 → x / 4096 < σ.nblocks → σ.mem.byte x = 0)
    (hname : ∀ k ≤ e.name.length, σ.mem.byte (f + k) = (e.name ++ [0]).getD k 0) (hl : e.name.length < 128)
    (htype : σ.mem.load32 (f + 132) = e.type) :
    σ' = { σ with mem := σ'.mem, diskpos := (if e.blocks < 10 then p else p + 1) * 4096 } ∧
      (10 ≤ e.blocks → p + 1 < σ.nblocks) ∧ Holds σ'.mem f e ∧ Filled σ'.mem e ∧
      ∀ x, Off f p (if e.blocks < 10 then p else p + 1) x → σ'.mem.byte x = σ.mem.byte x := by
  unfold St.finishfile at h
  have hn : (roundup (BitVec.ofNat 32 e.size)).toNat / 4096 = e.blocks := by
    rw [roundup_ofNat (by omega)]
    exact Nat.mul_div_cancel _ (by omega)
  have hb : e.blocks ≤ 1034 := by unfold Ent.blocks; omega
  dsimp only at h
  rw [hn] at h
  -- the memory once the size and the direct slots are stored
  obtain ⟨hd, hd'⟩ := words_spec (σ.mem.store32 (f + 128) (BitVec.ofNat 32 e.size)) (f + 136) (min e.blocks 10)
    fun i => BitVec.ofNat 32 (e.start + i)
  generalize hm₁ : (List.range (min e.blocks 10)).foldl
    (fun m i => m.store32 (f + 136 + 4 * i) (BitVec.ofNat 32 (e.start + i)))
    (σ.mem.store32 (f + 128) (BitVec.ofNat 32 e.size)) = m₁ at hd hd'
  unfold fDirect at h
  rw [hm₁] at h
  have hoff₁ : ∀ x, x < f + 128 ∨ f + 132 ≤ x → x < f + 136 ∨ f + 136 + 4 * min e.blocks 10 ≤ x →
      m₁.byte x = σ.mem.byte x := fun x h1 h2 => by rw [hd' x h2, Bytes.byte_store32_off h1]
  have hsize : m₁.load32 (f + 128) = BitVec.ofNat 32 e.size := by
    rw [Bytes.load32_congr fun i hi => hd' _ (by omega), Bytes.load32_store32]
  have htype₁ : m₁.load32 (f + 132) = e.type := by
    rw [← htype]
    exact Bytes.load32_congr fun i hi => hoff₁ _ (by omega) (by omega)
  have hname₁ : ∀ k ≤ e.name.length, m₁.byte (f + k) = (e.name ++ [0]).getD k 0 := fun k hk => by
    rw [← hname k hk]
    exact hoff₁ _ (by omega) (by omega)
  have hrest : ∀ o < 11, min e.blocks 10 ≤ o → m₁.load32 (f + 136 + 4 * o) = 0 := fun o ho hle => by
    rw [← hslots o ho]
    exact Bytes.load32_congr fun i hi => hoff₁ _ (by omega) (by omega)
  have hdirect : ∀ i < 10, m₁.load32 (fDirect f i) = if i < e.blocks then BitVec.ofNat 32 (e.start + i) else 0 := by
    intro i hi
    unfold fDirect
    split_ifs with hlt
    · exact hd i (by omega)
    · exact hrest i (by omega) (by omega)
  by_cases h10 : e.blocks < 10
  · rw [if_neg (by omega)] at h
    obtain rfl := Option.some.inj h
    simp only [h10, if_true]
    refine ⟨by rw [← hp], fun h => absurd h (by omega), ⟨hname₁, hsize, htype₁, hdirect, ?_⟩,
      fun h => absurd h (by omega), fun x hx => ?_⟩
    · rw [if_pos h10]
      exact hrest 10 (by omega) (by omega)
    · have := hx.1
      exact hoff₁ x (by omega) (by omega)
  · rw [if_pos (by omega)] at h
    obtain ⟨⟨ind, σ₂⟩, h1, h2⟩ := Option.bind_eq_some_iff.1 h
    obtain ⟨rfl, hroom, rfl⟩ := alloc_spec (p := p) h1 hp (by decide)
    have hone : ((4096 : BitVec 32).toNat + 4095) / 4096 = 1 := by decide
    rw [hone] at hroom h2
    replace hroom : p + 1 < σ.nblocks := hroom
    obtain rfl := Option.some.inj h2
    clear h h1 h2
    dsimp only
    have hrow := hrow (by omega)
    have hp₁ : blockof (p * 4096) = p := Nat.mul_div_cancel _ (by omega)
    rw [hp₁]
    -- the entries of the indirect block
    have hloop : (List.range' 10 (e.blocks - 10)).foldl
        (fun m i => m.store32 (p * 4096 + 4 * (i - 10)) (BitVec.ofNat 32 (e.start + i)))
        (m₁.store32 (fIndirect f) (BitVec.ofNat 32 p)) =
        (List.range (e.blocks - 10)).foldl
          (fun m i => m.store32 (p * 4096 + 4 * i) (BitVec.ofNat 32 (e.start + (10 + i))))
          (m₁.store32 (fIndirect f) (BitVec.ofNat 32 p)) := by
      rw [List.range'_eq_map_range, List.foldl_map]
      simp only [Nat.add_sub_cancel_left]
    rw [hloop]
    obtain ⟨hi, hi'⟩ := words_spec (m₁.store32 (fIndirect f) (BitVec.ofNat 32 p)) (p * 4096) (e.blocks - 10)
      fun i => BitVec.ofNat 32 (e.start + (10 + i))
    generalize (List.range (e.blocks - 10)).foldl
      (fun m i => m.store32 (p * 4096 + 4 * i) (BitVec.ofNat 32 (e.start + (10 + i))))
      (m₁.store32 (fIndirect f) (BitVec.ofNat 32 p)) = m₂ at hi hi'
    have hoff₂ : ∀ x, x < f + 176 ∨ f + 180 ≤ x → x < p * 4096 ∨ p * 4096 + 4 * (e.blocks - 10) ≤ x →
        m₂.byte x = m₁.byte x := fun x h1 h2 => by
      rw [hi' x h2]
      unfold fIndirect
      exact Bytes.byte_store32_off (by omega)
    have hstruct : ∀ o, o + 4 ≤ 176 → m₂.load32 (f + o) = m₁.load32 (f + o) := fun o ho =>
      Bytes.load32_congr fun i hi => hoff₂ _ (by omega) (by omega)
    simp only [h10, if_false]
    refine ⟨trivial, fun _ => hroom, ⟨fun k hk => ?_, ?_, ?_, fun i hi => ?_, ?_⟩, fun _ j hj => ?_, fun x hx => ?_⟩
    · rw [hoff₂ _ (by omega) (by omega)]
      exact hname₁ k hk
    · rw [hstruct 128 (by omega)]
      exact hsize
    · rw [hstruct 132 (by omega)]
      exact htype₁
    · rw [← hdirect i hi]
      unfold fDirect
      rw [Nat.add_assoc]
      exact hstruct _ (by omega)
    · rw [if_neg h10, ← hrow]
      unfold fIndirect at hi' ⊢
      rw [Bytes.load32_congr fun i hi => hi' _ (by omega), Bytes.load32_store32]
    · rw [← hrow]
      split_ifs with hlt
      · exact hi j (by omega)
      · have hz : (m₂.load32 (p * 4096 + 4 * j)) = (σ.mem.zero (p * 4096) 4096).load32 (p * 4096 + 4 * j) := by
          refine Bytes.load32_congr fun i hi => ?_
          rw [Bytes.byte_zero_in (by omega) (by omega), hoff₂ _ (by omega) (by omega), hoff₁ _ (by omega) (by omega)]
          exact hclear _ (by omega) (by omega)
        rw [hz, Bytes.load32_zero_in (by omega) (by omega)]
    · have h1 := hx.1
      have h2 := hx.2
      rw [hoff₂ _ (by omega) (by omega)]
      exact hoff₁ x (by omega) (by omega)

/-! ## The invariant -/

/-- A file for the image, and the block that it starts at. -/
structure Placed where
  item : Item
  start : ℕ

def Placed.ent (p : Placed) : Ent := ⟨p.item.name, 0, p.item.data.length, p.start⟩

/-- Where the `struct File` of a directory is while the image is made, and its entries. -/
def home : Flag → ℕ
  | .root => sRoot
  | .bin => malloc 0
  | .sbin => malloc 0 + 256

def heap : Flag → ℕ
  | .root => malloc 0
  | .bin => malloc 1
  | .sbin => malloc 2

def dirName : Flag → List Byte
  | .root => [0x2F]
  | .bin => binName
  | .sbin => sbinName

/-- A directory that is not finished. -/
def pending (D : Flag) : Ent := ⟨dirName D, ftypeDir, 0, 0⟩

/-- The files that went to a directory. -/
def files (log : List Placed) (D : Flag) : List Ent := (log.filter (·.item.dir = D)).map Placed.ent

/-- The entries of a directory, where `E` has the directories. -/
def kids (E : Flag → Ent) (log : List Placed) : Flag → List Ent
  | .root => E .bin :: E .sbin :: files log .root
  | D => files log D

/-- The directory has entries. -/
def used (log : List Placed) (D : Flag) : Bool := !(kids pending log D).isEmpty

/-- The blocks of a directory have its entries, and zeros behind them. -/
structure Full (m : Bytes) (e : Ent) (l : List Ent) : Prop where
  kid : ∀ i k, l[i]? = some k → Holds m (e.start * 4096 + 256 * i) k
  rest : ∀ x, e.start * 4096 + 256 * l.length ≤ x → x / 4096 < e.stop → m.byte x = 0

section Kids

variable {E : Flag → Ent} {log : List Placed} {D D' : Flag} {q : Placed}

theorem files_snoc (log : List Placed) (q : Placed) (D : Flag) :
    files (log ++ [q]) D = if D = q.item.dir then files log D ++ [q.ent] else files log D := by
  unfold files
  rw [List.filter_append, List.map_append]
  by_cases h : q.item.dir = D
  · simp [h]
  · simp [h, Ne.symm h]

theorem kids_snoc (E : Flag → Ent) (log : List Placed) (q : Placed) (D : Flag) :
    kids E (log ++ [q]) D = if D = q.item.dir then kids E log D ++ [q.ent] else kids E log D := by
  cases D with
  | root =>
    simp only [kids, files_snoc]
    split <;> rfl
  | bin => exact files_snoc log q .bin
  | sbin => exact files_snoc log q .sbin

theorem kids_length (E E' : Flag → Ent) (log : List Placed) (D : Flag) :
    (kids E log D).length = (kids E' log D).length := by
  cases D <;> rfl

theorem used_iff (E : Flag → Ent) : used log D = true ↔ (kids E log D).length ≠ 0 := by
  rw [kids_length E pending]
  unfold used
  cases kids pending log D <;> simp

theorem heap_ge (D : Flag) : 10240 ≤ heap D / 4096 := by
  cases D <;> decide

/-- The arrays do not overlap. -/
theorem heap_apart {i j : ℕ} (hi : i < 128) (hj : j < 128) (h : ¬ (D = D' ∧ i = j)) :
    heap D + 256 * i + 256 ≤ heap D' + 256 * j ∨ heap D' + 256 * j + 256 ≤ heap D + 256 * i := by
  unfold heap malloc
  cases D <;> cases D' <;> simp at h ⊢ <;> omega

/-- The place of `bin` and `sbin` among the entries of the root directory. -/
def place : Flag → ℕ
  | .sbin => 1
  | _ => 0

theorem home_heap (hD : D ≠ .root) : home D = heap .root + 256 * place D := by
  cases D with
  | root => exact absurd rfl hD
  | bin => rfl
  | sbin => rfl

theorem kid_place (hD : D ≠ .root) : (kids E log .root)[place D]? = some (E D) := by
  cases D with
  | root => exact absurd rfl hD
  | bin => rfl
  | sbin => rfl

/-- The entry of a directory changes when it is finished. -/
theorem kids_update (hD : D ≠ .root) (e : Ent) (D' : Flag) (i : ℕ) : (kids (Function.update E D e) log D')[i]? =
    if D' = .root ∧ i = place D then some e else (kids E log D')[i]? := by
  cases D' with
  | root =>
    cases D with
    | root => exact absurd rfl hD
    | bin => rcases i with _ | _ | i <;> simp [kids, place, Function.update]
    | sbin => rcases i with _ | _ | i <;> simp [kids, place, Function.update]
  | bin => rw [if_neg (by simp)]; rfl
  | sbin => rw [if_neg (by simp)]; rfl

/-- A directory is not an entry of its own. -/
theorem kids_self (E : Flag → Ent) (log : List Placed) (D : Flag) (e : Ent) :
    kids (Function.update E D e) log D = kids E log D := by
  cases D <;> rfl

end Kids

theorem Ent.start_le (e : Ent) : e.start ≤ e.stop := by
  unfold Ent.stop
  omega

/-- The image but for its files: the super block, the bitmap, and the blocks from `stop` on, which are not used yet. -/
structure Ground (n stop : ℕ) (σ : St) : Prop where
  small : n ≤ 10240
  three : 3 ≤ stop
  room : stop < n
  nblocks : σ.nblocks = n
  bitmap : σ.bitmap = 8192
  pos : σ.diskpos = stop * 4096
  clear : ∀ x, stop ≤ x / 4096 → x / 4096 < n → σ.mem.byte x = 0
  magic : σ.mem.load32 4096 = Bc.fsMagic
  total : σ.mem.load32 4100 = BitVec.ofNat 32 n
  bits : ∀ x, 8192 ≤ x → x < 12288 → σ.mem.byte x = 0xFF

/-- A step that changes nothing of the disk but the struct of the root directory and the blocks up to `stop'`. -/
theorem Ground.step {stop stop' : ℕ} (hg : Ground n stop σ) (hσ : σ' = { σ with mem := σ'.mem, diskpos := stop' * 4096 })
    (h1 : stop ≤ stop') (h2 : stop' < n) (hoff : ∀ x, x / 4096 < n → (x < sRoot ∨ sRoot + 256 ≤ x) →
      (x / 4096 < stop ∨ stop' ≤ x / 4096) → σ'.mem.byte x = σ.mem.byte x) : Ground n stop' σ' := by
  have hthree := hg.three
  have hlow : ∀ x, x < 4104 ∨ 8192 ≤ x → x < 12288 → σ'.mem.byte x = σ.mem.byte x := fun x h3 h4 => by
    unfold sRoot at hoff
    exact hoff x (by omega) (by omega) (by omega)
  exact {
    small := hg.small
    three := by omega
    room := h2
    nblocks := by
      rw [hσ]
      exact hg.nblocks
    bitmap := by
      rw [hσ]
      exact hg.bitmap
    pos := by rw [hσ]
    clear := fun x h3 h4 => by
      unfold sRoot at hoff
      rw [hoff x h4 (by omega) (by omega)]
      exact hg.clear x (by omega) h4
    magic := by
      rw [← hg.magic]
      exact Bytes.load32_congr fun i hi => hlow _ (by omega) (by omega)
    total := by
      rw [← hg.total]
      exact Bytes.load32_congr fun i hi => hlow _ (by omega) (by omega)
    bits := fun x h3 h4 => by
      rw [hlow x (by omega) (by omega)]
      exact hg.bits x h3 h4 }

/-- **The image under way**: the files of `log` are placed, and the directories of `done` finished. -/
structure Built (n : ℕ) (E : Flag → Ent) (done : List Flag) (log : List Placed) (stop : ℕ) (σ : St) : Prop where
  ground : Ground n stop σ
  rows : Rows Ent.start Ent.stop 3 (log.map Placed.ent ++ (done.filter (used log)).map E) stop
  root : Holds σ.mem sRoot (E .root)
  kid : ∀ D i e, (kids E log D)[i]? = some e → Holds σ.mem (heap D + 256 * i) e
  slots : ∀ D i, (kids E log D).length ≤ i → i < 128 → SlotsClear σ.mem (heap D + 256 * i)
  count : ∀ D, (kids E log D).length ≤ 128
  named : ∀ p ∈ log, GoodName p.item.name ∧ p.item.name.length < 128
  sizes : ∀ p ∈ log, p.item.data.length < maxFileSize
  data : ∀ p ∈ log, σ.mem.read (p.start * 4096) p.item.data.length = p.item.data
  filled : ∀ p ∈ log, Filled σ.mem p.ent
  waiting : ∀ D, D ∉ done → E D = pending D
  head : ∀ D, (E D).name = dirName D ∧ (E D).type = ftypeDir
  full : ∀ D ∈ done, used log D = true →
    (E D).size = (256 * (kids E log D).length + 4095) / 4096 * 4096 ∧ Full σ.mem (E D) (kids E log D)

/-! ## `writefile` -/

section Write

variable {E : Flag → Ent} {log : List Placed} {stop : ℕ} {D : Flag} {host : Host} {arg : CString} {dir dir' : Dir}

/-- An argument that is no option names a file. -/
theorem items_file {flag : Flag} {argv : List CString} (hb : arg.chars ≠ optB) (hsb : arg.chars ≠ optSb) :
    items host flag (arg :: argv) = ⟨flag, lastElem arg, (host arg).getD []⟩ :: items host flag argv := by
  rw [items, if_neg hb, if_neg hsb]

theorem diradd_spec {out : ℕ} (h : σ.diradd dir type name = some (out, dir', σ')) :
    dir.n < 128 ∧ out = dir.ents + 256 * dir.n ∧ dir' = { dir with n := dir.n + 1 } ∧
      σ' = { σ with mem := (σ.mem.write out (name ++ [0])).store32 (out + 132) type } := by
  unfold St.diradd at h
  dsimp only at h
  split_ifs at h with hcount
  obtain ⟨rfl, h1⟩ := Prod.mk.inj (Option.some.inj h)
  obtain ⟨rfl, rfl⟩ := Prod.mk.inj h1
  exact ⟨by omega, rfl, rfl, rfl⟩

/-- What `diradd` and the copy of the file leave. -/
theorem added_spec (hm : m' = ((m.write a (name ++ [0])).store32 (a + 132) type).write b data)
    (hl : name.length < 128) (ha : b + data.length ≤ a ∨ a + 256 ≤ b) :
    (∀ x, x < a ∨ a + 256 ≤ x → x < b ∨ b + data.length ≤ x → m'.byte x = m.byte x) ∧
      (∀ o, 136 ≤ o → o < 256 → m'.byte (a + o) = m.byte (a + o)) ∧ m'.load32 (a + 132) = type ∧
      ∀ k ≤ name.length, m'.byte (a + k) = (name ++ [0]).getD k 0 := by
  have hlen : (name ++ [0]).length = name.length + 1 := by rw [List.length_append, List.length_singleton]
  subst hm
  refine ⟨fun x h1 h2 => ?_, fun o h1 h2 => ?_, ?_, fun k hk => ?_⟩
  · rw [Bytes.byte_write_off (by omega), Bytes.byte_store32_off (by omega), Bytes.byte_write_off (by omega)]
  · rw [Bytes.byte_write_off (by omega), Bytes.byte_store32_off (by omega), Bytes.byte_write_off (by omega)]
  · rw [Bytes.load32_write_off (by omega), Bytes.load32_store32]
  · rw [Bytes.byte_write_off (by omega), Bytes.byte_store32_off (by omega), Bytes.byte_write,
      if_pos ⟨by omega, by omega⟩, Nat.add_sub_cancel_left]

/-- **One file**: it is placed from `stop` on. -/
theorem writefile_spec (hg : Ground n stop σ) (h : σ.writefile host dir arg = some (dir', σ'))
    (ha : n ≤ (dir.ents + 256 * dir.n) / 4096) (hs : dir.n < 128 → SlotsClear σ.mem (dir.ents + 256 * dir.n))
    (hl : (lastElem arg).length < 128) : ∃ data, host arg = some data ∧ data.length < maxFileSize ∧
      dir.n < 128 ∧ dir' = { dir with n := dir.n + 1 } ∧
      Ground n (Ent.stop ⟨lastElem arg, 0, data.length, stop⟩) σ' ∧
      Holds σ'.mem (dir.ents + 256 * dir.n) ⟨lastElem arg, 0, data.length, stop⟩ ∧
      Filled σ'.mem ⟨lastElem arg, 0, data.length, stop⟩ ∧ σ'.mem.read (stop * 4096) data.length = data ∧
      ∀ x, Off (dir.ents + 256 * dir.n) stop (Ent.stop ⟨lastElem arg, 0, data.length, stop⟩) x →
        σ'.mem.byte x = σ.mem.byte x := by
  have hsmall := hg.small
  unfold St.writefile at h
  obtain ⟨data, hdata, h⟩ := Option.bind_eq_some_iff.1 h
  split_ifs at h with hmax
  unfold maxFileSize at hmax
  obtain ⟨⟨f, dir₁, σ₁⟩, h1, h⟩ := Option.bind_eq_some_iff.1 h
  obtain ⟨hcount, rfl, rfl, rfl⟩ := diradd_spec h1
  obtain ⟨⟨start, σ₂⟩, h2, h⟩ := Option.bind_eq_some_iff.1 h
  have hlen : (BitVec.ofNat 32 data.length).toNat = data.length := Nat.mod_eq_of_lt (by omega)
  obtain ⟨rfl, hroom, rfl⟩ := alloc_spec (p := stop) h2 hg.pos (by omega)
  rw [hlen] at h hroom
  replace hroom : stop + (data.length + 4095) / 4096 < n := by
    rw [← hg.nblocks]
    exact hroom
  obtain ⟨σ₃, h3, h⟩ := Option.bind_eq_some_iff.1 h
  obtain ⟨rfl, rfl⟩ := Prod.mk.inj (Option.some.inj h)
  clear h h1 h2
  have hs := hs hcount
  generalize dir.ents + 256 * dir.n = a at *
  have hblock : blockof (stop * 4096) = stop := Nat.mul_div_cancel _ (by omega)
  rw [hblock] at h3
  set e : Ent := ⟨lastElem arg, 0, data.length, stop⟩ with he
  have heb : e.blocks = (data.length + 4095) / 4096 := rfl
  obtain ⟨hadd, htail, htype, hname⟩ := added_spec (rfl : _ =
    ((σ.mem.write a (lastElem arg ++ [0])).store32 (a + 132) 0).write (stop * 4096) data) hl (by omega)
  obtain ⟨hσ, hroom', hholds, hfilled, hoff⟩ := finishfile_spec (e := e) (p := stop + e.blocks) h3 rfl
    (by change data.length < _; omega) (fun _ => rfl) (by right; change σ.nblocks ≤ a / 4096; rw [hg.nblocks]; exact ha)
    (fun o ho => by
      refine Eq.trans (Bytes.load32_congr fun i hi => ?_) (hs o ho)
      rw [Nat.add_assoc, Nat.add_assoc]
      exact htail _ (by omega) (by omega))
    (fun x h1 h2 => by
      have h2 : x / 4096 < n := by rw [← hg.nblocks]; exact h2
      rw [hadd x (by omega) (by omega)]
      exact hg.clear x (by omega) h2)
    hname hl htype
  have hstop : (if e.blocks < 10 then stop + e.blocks else stop + e.blocks + 1) = e.stop := by
    unfold Ent.stop
    change _ = stop + e.blocks + _
    split_ifs <;> rfl
  rw [hstop] at hσ hoff
  have hle : stop + e.blocks ≤ e.stop := by
    rw [← hstop]
    split_ifs <;> omega
  have hlt : e.stop < n := by
    rw [← hstop]
    split_ifs with h10
    · omega
    · have h4 : stop + e.blocks + 1 < σ.nblocks := hroom' (by omega)
      rw [hg.nblocks] at h4
      exact h4
  have hkeep : ∀ x, Off a stop e.stop x → σ₃.mem.byte x = σ.mem.byte x := fun x hx => by
    have hx1 := hx.1
    have hx2 := hx.2
    rw [hoff x ⟨hx1, by omega⟩]
    exact hadd x hx1 (by omega)
  have hground : Ground n e.stop σ₃ := hg.step hσ (by omega) hlt fun x h1 _ h3 => hkeep x ⟨by omega, h3⟩
  refine ⟨data, hdata, by unfold maxFileSize; omega, hcount, rfl, hground, hholds, hfilled, ?_, hkeep⟩
  rw [Bytes.read_congr fun k hk => hoff _ ⟨by omega, by omega⟩, Bytes.read_write]

/-- A change that misses the array entry of directory `D` in use next, or a file that is placed. -/
theorem Built.heap_keep {done : List Flag} {stop' i : ℕ} {D' : Flag} (hb : Built n E done log stop σ) (hlt : stop' < n)
    (hi : i < 128) (hj : (kids E log D).length < 128) (hne : ¬ (D' = D ∧ i = (kids E log D).length))
    (hoff : ∀ x, Off (heap D + 256 * (kids E log D).length) stop stop' x → m'.byte x = σ.mem.byte x) :
    ∀ x, heap D' + 256 * i ≤ x → x < heap D' + 256 * i + 256 → m'.byte x = σ.mem.byte x := by
  intro x h1 h2
  have h3 := heap_apart hi hj hne
  have h4 := heap_ge D'
  have h5 := hb.ground.small
  exact hoff x ⟨by omega, by omega⟩

theorem SlotsClear.congr (h : SlotsClear m a) (hc : ∀ x, a ≤ x → x < a + 256 → m'.byte x = m.byte x) :
    SlotsClear m' a :=
  fun o ho => (Bytes.load32_congr fun i hi => hc _ (by omega) (by omega)).trans (h o ho)

/-- The names of entries are short. -/
theorem Built.kid_short {done : List Flag} (hb : Built n E done log stop σ) {k : Ent} (hk : k ∈ kids E log D) :
    k.name.length < 128 := by
  have hfile : k ∈ files log D → k.name.length < 128 := by
    intro h
    obtain ⟨q, hq, rfl⟩ := List.mem_map.1 h
    exact (hb.named q (List.mem_of_mem_filter hq)).2
  have hdir : ∀ D', (E D').name.length < 128 := by
    intro D'
    rw [(hb.head D').1]
    cases D' <;> decide
  cases D with
  | root =>
    rcases List.mem_cons.1 hk with rfl | hk
    · exact hdir _
    · rcases List.mem_cons.1 hk with rfl | hk
      · exact hdir _
      · exact hfile hk
  | bin => exact hfile hk
  | sbin => exact hfile hk

theorem writefile_built (hb : Built n E [] log stop σ)
    (h : σ.writefile host ⟨home D, heap D, (kids E log D).length⟩ arg = some (dir', σ'))
    (hg : GoodName (lastElem arg)) (hl : (lastElem arg).length < 128) :
    ∃ data stop', host arg = some data ∧ Built n E [] (log ++ [⟨⟨D, lastElem arg, data⟩, stop⟩]) stop' σ' ∧
      dir' = ⟨home D, heap D, (kids E log D).length + 1⟩ := by
  have hheap := heap_ge D
  have hsmall := hb.ground.small
  obtain ⟨data, hdata, hmax, hcount, hdir, hground, hholds, hfilled, hread, hoff⟩ := writefile_spec hb.ground h
    (by dsimp only; omega) (fun hlt => hb.slots D _ le_rfl hlt) hl
  dsimp only at hcount hdir hholds hoff
  set q : Placed := ⟨⟨D, lastElem arg, data⟩, stop⟩ with hq
  refine ⟨data, q.ent.stop, hdata, ?_, hdir⟩
  have hlt : q.ent.stop < n := hground.room
  have hroom := hb.ground.room
  have hother : ∀ D' i, i < 128 → ¬ (D' = D ∧ i = (kids E log D).length) → ∀ x, heap D' + 256 * i ≤ x →
      x < heap D' + 256 * i + 256 → σ'.mem.byte x = σ.mem.byte x := fun D' i hi hne =>
    hb.heap_keep hlt hi hcount hne hoff
  have hold : ∀ x, x / 4096 < stop → σ'.mem.byte x = σ.mem.byte x := fun x hx => hoff x ⟨by omega, Or.inl hx⟩
  have hin : ∀ p ∈ log, p.ent.stop ≤ stop := fun p hp =>
    (hb.rows.mem (fun e _ => Ent.start_le e) (List.mem_append_left _ (List.mem_map_of_mem hp))).2
  have hthree := hb.ground.three
  have hkids : ∀ D', (kids E (log ++ [q]) D').length = (kids E log D').length + if D' = D then 1 else 0 := by
    intro D'
    rw [kids_snoc]
    split_ifs
    · rw [List.length_append, List.length_singleton]
    · rfl
  exact {
    ground := hground
    rows := by
      have h1 := hb.rows
      simp only [List.filter_nil, List.map_nil, List.append_nil] at h1 ⊢
      rw [List.map_append, List.map_singleton]
      exact .snoc h1
    root := by
      refine hb.root.congr ?_ fun x h1 h2 => hold x ?_
      · rw [(hb.head .root).1]
        decide
      · unfold sRoot at h2
        omega
    kid := fun D' i k hk => by
      rw [kids_snoc] at hk
      by_cases hD : D' = D
      · rw [if_pos hD, List.getElem?_append] at hk
        split_ifs at hk with hi
        · have h2 := hb.count D'
          refine (hb.kid D' i k hk).congr (hb.kid_short (List.mem_of_getElem? hk)) (hother D' i (by omega) ?_)
          rintro ⟨rfl, rfl⟩
          omega
        · obtain ⟨rfl, h2⟩ : k = q.ent ∧ i = (kids E log D').length := by
            rw [List.getElem?_singleton] at hk
            split_ifs at hk with h3
            exact ⟨(Option.some.inj hk).symm, by omega⟩
          rw [h2, hD]
          exact hholds
      · rw [if_neg hD] at hk
        have h1 := (List.getElem?_eq_some_iff.1 hk).1
        have h2 := hb.count D'
        exact (hb.kid D' i k hk).congr (hb.kid_short (List.mem_of_getElem? hk)) (hother D' i (by omega) fun h3 => hD h3.1)
    slots := fun D' i h1 h2 => by
      rw [hkids] at h1
      refine (hb.slots D' i (by omega) h2).congr (hother D' i h2 ?_)
      rintro ⟨rfl, rfl⟩
      rw [if_pos rfl] at h1
      omega
    count := fun D' => by
      rw [hkids]
      have h1 := hb.count D'
      split_ifs with h2
      · rw [h2]
        omega
      · exact h1
    named := fun p hp => by
      rcases List.mem_append.1 hp with hp | hp
      · exact hb.named p hp
      · obtain rfl := List.mem_singleton.1 hp
        exact ⟨hg, hl⟩
    sizes := fun p hp => by
      rcases List.mem_append.1 hp with hp | hp
      · exact hb.sizes p hp
      · obtain rfl := List.mem_singleton.1 hp
        exact hmax
    data := fun p hp => by
      rcases List.mem_append.1 hp with hp | hp
      · have h1 := hin p hp
        have h2 : p.start + (p.item.data.length + 4095) / 4096 ≤ p.ent.stop := Nat.le_add_right _ _
        exact (Bytes.read_congr fun k hk => hold _ (by omega)).trans (hb.data p hp)
      · obtain rfl := List.mem_singleton.1 hp
        exact hread
    filled := fun p hp => by
      rcases List.mem_append.1 hp with hp | hp
      · have h1 := hin p hp
        exact (hb.filled p hp).congr fun x h2 h3 => hold x (by omega)
      · obtain rfl := List.mem_singleton.1 hp
        exact hfilled
    waiting := hb.waiting
    head := hb.head
    full := fun D hD => absurd hD List.not_mem_nil }

end Write

/-! ## `finishdir` -/

section Finish

variable {E : Flag → Ent} {done : List Flag} {log : List Placed} {stop len f ents : ℕ} {D : Flag}

/-- The size that `finishdir` gives a directory with `len` entries. -/
def dirSize (len : ℕ) : ℕ := if len = 0 then 4096 else (256 * len + 4095) / 4096 * 4096

theorem finishdir_spec (hg : Ground n stop σ) (h : σ.finishdir ⟨f, ents, len⟩ = some σ') (hlen : len ≤ 128)
    (hf : f = sRoot ∨ n ≤ f / 4096) (hp : Holds σ.mem f ⟨name, ftypeDir, 0, 0⟩)
    (hl : name.length < 128) : Ground n (stop + (256 * len + 4095) / 4096) σ' ∧
      Holds σ'.mem f ⟨name, ftypeDir, dirSize len, stop⟩ ∧
      (∀ j < 256 * len, σ'.mem.byte (stop * 4096 + j) = σ.mem.byte (ents + j)) ∧
      (∀ x, stop * 4096 + 256 * len ≤ x → x / 4096 < stop + (256 * len + 4095) / 4096 → σ'.mem.byte x = 0) ∧
      ∀ x, Off f stop (stop + (256 * len + 4095) / 4096) x → σ'.mem.byte x = σ.mem.byte x := by
  have hsmall := hg.small
  have hthree := hg.three
  have hroom := hg.room
  unfold sRoot at hf
  unfold St.finishdir at h
  obtain ⟨⟨start, σ₁⟩, h1, h⟩ := Option.bind_eq_some_iff.1 h
  dsimp only at h1 h
  have hsize : (BitVec.ofNat 32 (len * 256)).toNat = 256 * len := by
    rw [BitVec.toNat_ofNat, Nat.mod_eq_of_lt (by omega), Nat.mul_comm]
  obtain ⟨rfl, hlt, rfl⟩ := alloc_spec (p := stop) h1 hg.pos (by omega)
  rw [hsize] at h hlt
  replace hlt : stop + (256 * len + 4095) / 4096 < n := by
    rw [← hg.nblocks]
    exact hlt
  have hblock : blockof (stop * 4096) = stop := Nat.mul_div_cancel _ (by omega)
  have hround : BitVec.ofInt 32 (roundupInt (len * 256 : ℕ)) = BitVec.ofNat 32 (dirSize len) := by
    rw [roundupInt_natCast, Nat.mul_comm len]
    unfold dirSize
    by_cases h0 : len = 0
    · rw [if_pos h0, if_pos (by omega)]
      rfl
    · rw [if_neg h0, if_neg (by omega), BitVec.ofInt_natCast]
  rw [hblock, hround, Nat.mul_comm len] at h
  -- the entries are copied
  have hcopy : ∀ x, x / 4096 < stop ∨ stop + (256 * len + 4095) / 4096 ≤ x / 4096 →
      (σ.mem.write (stop * 4096) (σ.mem.read ents (256 * len))).byte x = σ.mem.byte x := fun x hx => by
    refine Bytes.byte_write_off ?_
    rw [Bytes.read_length]
    omega
  set e : Ent := ⟨name, ftypeDir, dirSize len, stop⟩ with hedef
  have hblocks : e.blocks < 10 := by
    change (dirSize len + 4095) / 4096 < 10
    unfold dirSize
    split_ifs <;> omega
  have hstruct : ∀ o < 256, (σ.mem.write (stop * 4096) (σ.mem.read ents (256 * len))).byte (f + o) = σ.mem.byte (f + o) :=
    fun o ho => hcopy _ (by omega)
  have hheld : Holds (σ.mem.write (stop * 4096) (σ.mem.read ents (256 * len))) f ⟨name, ftypeDir, 0, 0⟩ :=
    hp.copy hl hstruct
  obtain ⟨hσ, -, hholds, -, hoff⟩ := finishfile_spec (e := e) (p := stop + (256 * len + 4095) / 4096) h rfl
    (by change dirSize len < _; unfold dirSize; split_ifs <;> omega) (fun h10 => absurd h10 (by omega))
    (by change _ ∨ σ.nblocks ≤ _; rw [hg.nblocks]; omega)
    (slotsClear_of_holds hheld rfl)
    (fun x h1 h2 => by
      have h2 : x / 4096 < n := by rw [← hg.nblocks]; exact h2
      rw [hcopy x (Or.inr h1)]
      exact hg.clear x (by omega) h2)
    hheld.name hl hheld.type
  rw [if_pos hblocks] at hσ hoff
  have hkeep : ∀ x, Off f stop (stop + (256 * len + 4095) / 4096) x → σ'.mem.byte x = σ.mem.byte x := fun x hx => by
    have hx1 := hx.1
    have hx2 := hx.2
    rw [hoff x ⟨hx1, by omega⟩]
    exact hcopy x hx2
  have hground : Ground n (stop + (256 * len + 4095) / 4096) σ' := hg.step hσ (by omega) hlt fun x h1 h2 h3 => by
    unfold sRoot at h2
    exact hkeep x ⟨by omega, h3⟩
  refine ⟨hground, hholds, fun j hj => ?_, fun x h1 h2 => ?_, hkeep⟩
  · rw [hoff _ ⟨by omega, by omega⟩]
    exact Bytes.byte_write_read hj
  · rw [hoff x ⟨by omega, by omega⟩, Bytes.byte_write_off (by rw [Bytes.read_length]; omega)]
    exact hg.clear x (by omega) (by omega)

theorem dirEnt_stop (D : Flag) (hlen : len ≤ 128) (h0 : len ≠ 0) :
    Ent.stop ⟨dirName D, ftypeDir, dirSize len, stop⟩ = stop + (256 * len + 4095) / 4096 := by
  unfold Ent.stop Ent.blocks dirSize
  simp only [h0, if_false]
  rw [if_pos (by omega)]
  omega

/-- **One directory**: its entries are copied to the image. -/
theorem finishdir_built (hb : Built n E done log stop σ) (hD : D ∉ done) (hroot : .root ∉ done)
    (h : σ.finishdir ⟨home D, heap D, (kids E log D).length⟩ = some σ') :
    Built n (Function.update E D ⟨dirName D, ftypeDir, dirSize (kids E log D).length, stop⟩) (done ++ [D]) log
      (stop + (256 * (kids E log D).length + 4095) / 4096) σ' := by
  have hroom := hb.ground.room
  have hsmall := hb.ground.small
  have hthree := hb.ground.three
  have hlen := hb.count D
  have hE : E D = pending D := hb.waiting D hD
  have hhome : home D = sRoot ∨ n ≤ home D / 4096 := by
    by_cases hr : D = .root
    · rw [hr]
      exact Or.inl rfl
    · have h1 := heap_ge .root
      rw [home_heap hr]
      exact Or.inr (by omega)
  have hheld : Holds σ.mem (home D) (pending D) := by
    rw [← hE]
    by_cases hr : D = .root
    · rw [hr]
      exact hb.root
    · rw [home_heap hr]
      exact hb.kid .root _ _ (kid_place hr)
  have hname : (dirName D).length < 128 := by cases D <;> decide
  obtain ⟨hground, hholds, hcopy, hrest, hoff⟩ := finishdir_spec hb.ground h hlen hhome hheld hname
  generalize hL : (kids E log D).length = len at *
  set e : Ent := ⟨dirName D, ftypeDir, dirSize len, stop⟩ with he
  set E' := Function.update E D e with hE'
  have hself : E' D = e := Function.update_self D e E
  have hne : ∀ D' ∈ done, D' ≠ D := fun D' h1 h2 => hD (h2 ▸ h1)
  have hold : ∀ D', D' ≠ D → E' D' = E D' := fun D' h1 => Function.update_of_ne h1 e E
  have hlow : ∀ x, x / 4096 < stop → (x < home D ∨ home D + 256 ≤ x) → σ'.mem.byte x = σ.mem.byte x :=
    fun x h1 h2 => hoff x ⟨h2, Or.inl h1⟩
  have hblock : ∀ x, 3 ≤ x / 4096 → x / 4096 < stop → σ'.mem.byte x = σ.mem.byte x := fun x h1 h2 => by
    unfold sRoot at hhome
    exact hlow x h2 (by omega)
  have hheap : ∀ D' i, i < 128 → (D = .root ∨ ¬ (D' = .root ∧ i = place D)) → ∀ x, heap D' + 256 * i ≤ x →
      x < heap D' + 256 * i + 256 → σ'.mem.byte x = σ.mem.byte x := by
    intro D' i hi hd x h1 h2
    have h3 := heap_ge D'
    have h4 := hground.room
    refine hoff x ⟨?_, by omega⟩
    rcases hd with rfl | hd
    · change x < sRoot ∨ sRoot + 256 ≤ x
      unfold sRoot
      omega
    · by_cases hr : D = .root
      · rw [hr]
        change x < sRoot ∨ sRoot + 256 ≤ x
        unfold sRoot
        omega
      · rw [home_heap hr]
        have h5 : place D < 128 := by cases D <;> decide
        have h6 := heap_apart hi h5 hd
        omega
  have hkid : ∀ D' i k, (kids E' log D')[i]? = some k →
      (D ≠ .root ∧ D' = .root ∧ i = place D ∧ k = e) ∨
        ((kids E log D')[i]? = some k ∧ (D = .root ∨ ¬ (D' = .root ∧ i = place D))) := by
    intro D' i k hk
    by_cases hr : D = .root
    · right
      refine ⟨?_, Or.inl hr⟩
      rw [← hk, hE', hr]
      cases D' <;> rfl
    · rw [hE', kids_update hr] at hk
      split_ifs at hk with h1
      · exact Or.inl ⟨hr, h1.1, h1.2, (Option.some.inj hk).symm⟩
      · exact Or.inr ⟨hk, Or.inr h1⟩
  have hrows : ∀ x ∈ log.map Placed.ent ++ (done.filter (used log)).map E, x.stop ≤ stop := fun x hx =>
    (hb.rows.mem (fun e _ => Ent.start_le e) hx).2
  have hstart : ∀ x ∈ log.map Placed.ent ++ (done.filter (used log)).map E, 3 ≤ x.start := fun x hx =>
    (hb.rows.mem (fun e _ => Ent.start_le e) hx).1
  have hmapE : (done.filter (used log)).map E' = (done.filter (used log)).map E :=
    List.map_congr_left fun D' h1 => hold D' (hne D' (List.mem_of_mem_filter h1))
  exact {
    ground := hground
    rows := by
      rw [List.filter_append, List.map_append, hmapE]
      have h1 := hb.rows
      by_cases hu : used log D = true
      · have h0 : len ≠ 0 := by
          rw [← hL]
          exact (used_iff E).1 hu
        rw [List.filter_cons_of_pos hu, List.filter_nil, List.map_singleton, hself, ← List.append_assoc,
          ← dirEnt_stop D hlen h0]
        exact .snoc h1
      · have h0 : len = 0 := by
          rw [← hL]
          by_contra h2
          exact hu ((used_iff E).2 h2)
        rw [List.filter_cons_of_neg hu, List.filter_nil, List.map_nil, List.append_nil, h0]
        exact h1
    root := by
      by_cases hr : D = .root
      · rw [hr] at hholds hself
        rw [hself]
        exact hholds
      · rw [hold _ (Ne.symm hr)]
        refine hb.root.congr ?_ fun x h1 h2 => ?_
        · rw [(hb.head .root).1]
          decide
        · have h3 := heap_ge .root
          have h4 := home_heap hr
          unfold sRoot at h1 h2
          exact hlow x (by omega) (by omega)
    kid := fun D' i k hk => by
      rcases hkid D' i k hk with ⟨hr, rfl, rfl, rfl⟩ | ⟨h1, h2⟩
      · rw [← home_heap hr]
        exact hholds
      · have h3 := (List.getElem?_eq_some_iff.1 h1).1
        have h4 := hb.count D'
        exact (hb.kid D' i k h1).congr (hb.kid_short (List.mem_of_getElem? h1)) (hheap D' i (by omega) h2)
    slots := fun D' i h1 h2 => by
      rw [kids_length E' E] at h1
      refine (hb.slots D' i h1 h2).congr (hheap D' i h2 ?_)
      by_cases hr : D = .root
      · exact Or.inl hr
      · refine Or.inr ?_
        rintro ⟨rfl, rfl⟩
        have hk : (kids E log .root)[place D]? = some (E D) := kid_place hr
        have h3 := (List.getElem?_eq_some_iff.1 hk).1
        omega
    count := fun D' => by
      rw [kids_length E' E]
      exact hb.count D'
    named := hb.named
    sizes := hb.sizes
    data := fun p hp => by
      have hmem : p.ent ∈ log.map Placed.ent ++ (done.filter (used log)).map E :=
        List.mem_append_left _ (List.mem_map_of_mem hp)
      have h1 := hrows _ hmem
      have h2 : p.start + (p.item.data.length + 4095) / 4096 ≤ p.ent.stop := Nat.le_add_right _ _
      have h3 : 3 ≤ p.start := hstart _ hmem
      exact (Bytes.read_congr fun k hk => hblock _ (by omega) (by omega)).trans (hb.data p hp)
    filled := fun p hp => by
      have hmem : p.ent ∈ log.map Placed.ent ++ (done.filter (used log)).map E :=
        List.mem_append_left _ (List.mem_map_of_mem hp)
      have h1 := hrows _ hmem
      have h3 := hstart _ hmem
      exact (hb.filled p hp).congr fun x h4 h5 => hblock x (by omega) (by omega)
    waiting := fun D' h1 => by
      have h2 : D' ∉ done ∧ D' ≠ D := by simpa using h1
      rw [hold D' h2.2]
      exact hb.waiting D' h2.1
    head := fun D' => by
      by_cases h1 : D' = D
      · rw [h1, hself]
        exact ⟨rfl, rfl⟩
      · rw [hold D' h1]
        exact hb.head D'
    full := fun D' h1 hu => by
      by_cases h2 : D' = D
      · have h0 : len ≠ 0 := by
          rw [← hL, ← h2]
          exact (used_iff E).1 hu
        rw [h2, hself, hE', kids_self, hL]
        refine ⟨?_, fun i k hk => ?_, fun x h3 h4 => ?_⟩
        · change dirSize len = _
          unfold dirSize
          rw [if_neg h0]
        · have h3 := (List.getElem?_eq_some_iff.1 hk).1
          rw [hL] at h3
          refine (hb.kid D i k hk).copy (hb.kid_short (List.mem_of_getElem? hk)) fun j hj => ?_
          change σ'.mem.byte (stop * 4096 + 256 * i + j) = _
          rw [Nat.add_assoc, hcopy _ (by omega), Nat.add_assoc]
        · rw [hL] at h3
          rw [dirEnt_stop D hlen h0] at h4
          exact hrest x h3 h4
      · have h3 : D' ∈ done := by simpa [h2] using h1
        have h4 : kids E' log D' = kids E log D' := by
          cases D' with
          | root => exact absurd h3 hroot
          | bin => rfl
          | sbin => rfl
        obtain ⟨h5, h6⟩ := hb.full D' h3 hu
        rw [hold D' h2, h4]
        have hmem : E D' ∈ log.map Placed.ent ++ (done.filter (used log)).map E :=
          List.mem_append_right _ (List.mem_map_of_mem (List.mem_filter.2 ⟨h3, hu⟩))
        have h7 := hrows _ hmem
        have h8 := hstart _ hmem
        have h9 : (E D').start + (256 * (kids E log D').length + 4095) / 4096 ≤ (E D').stop := by
          unfold Ent.stop Ent.blocks
          rw [h5]
          omega
        refine ⟨h5, fun i k hk => ?_, fun x h10 h11 => ?_⟩
        · have h10 := (List.getElem?_eq_some_iff.1 hk).1
          exact (h6.kid i k hk).congr (hb.kid_short (List.mem_of_getElem? hk)) fun x h11 h12 =>
            hblock x (by omega) (by omega)
        · rw [hblock x (by omega) (by omega)]
          exact h6.rest x h10 h11 }

end Finish

end Jos.Format
