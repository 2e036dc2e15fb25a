import Jos.Lib.Returns
import Jos.Proof.Format

/-!
# When `fsformat` returns

It panics where a file is missing or too large, a directory has too many entries, or the disk is full, and nowhere else
(`main_total`). What a function allocates depends only on the sizes (`Taken`).
-/

namespace Jos.Format

open Lib Fs

variable {σ : St} {mem : Bytes} {n p : ℕ} {host : Host} {dir : Dir} {bytes : BitVec 32} {s : Main}
  {argv : List CString} {arg : CString}

/-- The first `p` of `n` blocks are taken. -/
structure Taken (n p : ℕ) (σ : St) : Prop where
  nblocks : σ.nblocks = n
  pos : σ.diskpos = p * 4096
  small : n ≤ 10240
  room : p < n

theorem Taken.setMem (h : Taken n p σ) (mem : Bytes) : Taken n p { σ with mem := mem } := ⟨h.1, h.2, h.3, h.4⟩

theorem alloc_returns (h : Taken n p σ) (hb : bytes.toNat + 4096 ≤ 2 ^ 32) :
    Returns (p + (bytes.toNat + 4095) / 4096 < n) (σ.alloc bytes) fun r => Taken n (p + (bytes.toNat + 4095) / 4096) r.2 := by
  have hblock : blockof ((p + (bytes.toNat + 4095) / 4096) * 4096) = p + (bytes.toNat + 4095) / 4096 :=
    Nat.mul_div_cancel _ (by omega)
  unfold St.alloc
  rw [roundup_toNat hb, h.pos, ← Nat.add_mul]
  dsimp only
  rw [hblock, h.nblocks]
  constructor
  · intro hlt
    rw [if_neg (by omega)]
    exact ⟨_, rfl, rfl, rfl, h.small, hlt⟩
  · intro hlt
    rw [if_pos (by omega)]

/-- The indirect block is allocated if there is one. -/
theorem finishfile_returns {len : BitVec 32} (f start : ℕ) (h : Taken n p σ) (hlen : len.toNat + 4096 ≤ 2 ^ 32) :
    Returns (p + (if (len.toNat + 4095) / 4096 < 10 then 0 else 1) < n) (σ.finishfile f start len)
      (Taken n (p + if (len.toNat + 4095) / 4096 < 10 then 0 else 1)) := by
  unfold St.finishfile
  rw [roundup_toNat hlen, Nat.mul_div_cancel _ (by decide)]
  dsimp only
  by_cases h10 : (len.toNat + 4095) / 4096 < 10
  · rw [if_pos h10, if_neg (by omega)]
    exact (Returns.pure (h.setMem _)).congr (iff_of_true h.room trivial)
  · rw [if_neg h10, if_pos (by omega)]
    refine ((alloc_returns (h.setMem _) (by decide)).bind fun r _ hr => .pure (hr.setMem _)).congr ?_
    exact (and_true _).to_iff.symm

theorem diradd_returns {type : BitVec 32} {name : List Byte} (h : Taken n p σ) :
    Returns (dir.n < 128) (σ.diradd dir type name) fun r => r.2.1.n = dir.n + 1 ∧ Taken n p r.2.2 := by
  unfold St.diradd
  dsimp only
  refine (Returns.guard (.pure ⟨rfl, h.setMem _⟩)).congr ?_
  exact ⟨fun h => ⟨Nat.not_lt.2 h, trivial⟩, fun h => Nat.not_lt.1 h.1⟩

/-- **`writefile` returns** where the file is there and fits, and the directory and the disk have room. -/
theorem writefile_returns (h : Taken n p σ) : Returns
    (∃ data, host arg = some data ∧ data.length < maxFileSize ∧ dir.n < 128 ∧ p + fileBlocks data.length < n)
    (σ.writefile host dir arg) fun r => r.1.n = dir.n + 1 ∧
      ∃ data, host arg = some data ∧ Taken n (p + fileBlocks data.length) r.2 := by
  unfold St.writefile
  rcases hdata : host arg with _ | data
  · refine ⟨fun h1 => ?_, fun _ => rfl⟩
    obtain ⟨data, h2, -⟩ := h1
    cases h2
  dsimp only [Option.bind_eq_bind, Option.bind_some]
  by_cases hmax : data.length < maxFileSize
  · rw [if_neg (by omega)]
    unfold maxFileSize at hmax
    have hlen : (BitVec.ofNat 32 data.length).toNat = data.length := by
      rw [BitVec.toNat_ofNat, Nat.mod_eq_of_lt (by omega)]
    have hfits : (BitVec.ofNat 32 data.length).toNat + 4096 ≤ 2 ^ 32 := by omega
    refine ((diradd_returns h).bind fun r _ hr => (alloc_returns hr.2 hfits).bind fun r' _ hr' =>
      (finishfile_returns _ _ (hr'.setMem _) hfits).bind fun σ' _ hσ => .pure ⟨hr.1, data, rfl, ?_⟩).congr ?_
    · rw [hlen]
      unfold fileBlocks
      constructor
      · rintro ⟨data', h1, -, h2, h3⟩
        obtain rfl := Option.some.inj h1
        exact ⟨h2, by omega, by omega, trivial⟩
      · rintro ⟨h1, -, h2, -⟩
        exact ⟨data, rfl, hmax, h1, by omega⟩
    · rw [hlen] at hσ
      unfold fileBlocks
      rw [← Nat.add_assoc]
      exact hσ
  · rw [if_pos (by omega)]
    refine ⟨fun h1 => ?_, fun _ => rfl⟩
    obtain ⟨data', h2, h3, -⟩ := h1
    obtain rfl := Option.some.inj h2
    exact absurd h3 hmax

theorem finishdir_returns (h : Taken n p σ) (hcount : dir.n ≤ 128) :
    Returns (p + kidBlocks dir.n < n) (σ.finishdir dir) (Taken n (p + kidBlocks dir.n)) := by
  have hsize : (BitVec.ofNat 32 (dir.n * 256)).toNat = 256 * dir.n := by
    rw [BitVec.toNat_ofNat, Nat.mod_eq_of_lt (by omega), Nat.mul_comm]
  have hround : (BitVec.ofInt 32 (roundupInt (dir.n * 256 : ℕ))).toNat = dirSize dir.n := by
    rw [roundupInt_natCast]
    unfold dirSize
    by_cases h0 : dir.n = 0
    · rw [if_pos h0, if_pos (by omega)]
      rfl
    · rw [if_neg h0, if_neg (by omega), BitVec.ofInt_natCast, BitVec.toNat_ofNat, Nat.mod_eq_of_lt (by omega)]
      omega
  have hsmall : dirSize dir.n ≤ 32768 := by
    unfold dirSize
    split_ifs <;> omega
  have halloc := alloc_returns h (show (BitVec.ofNat 32 (dir.n * 256)).toNat + 4096 ≤ 2 ^ 32 by omega)
  rw [hsize] at halloc
  -- a directory has no indirect block
  have hfinish : ∀ {σ f start}, Taken n (p + kidBlocks dir.n) σ →
      Returns True (σ.finishfile f start (BitVec.ofInt 32 (roundupInt (dir.n * 256 : ℕ)))) (Taken n (p + kidBlocks dir.n)) := by
    intro σ f start hσ
    have h1 := finishfile_returns f start hσ (by rw [hround]; omega)
    rw [hround, if_pos (by omega), Nat.add_zero] at h1
    exact h1.congr (iff_of_true trivial hσ.room)
  unfold St.finishdir
  exact (halloc.bind fun r _ hr => hfinish (hr.setMem _)).congr (and_true _).to_iff.symm

/-! ## The arguments -/

theorem count_cons (item : Item) (l : List Item) (D : Flag) :
    count (item :: l) D = (if item.dir = D then 1 else 0) + count l D := by
  unfold count
  rw [List.filter_cons]
  by_cases hD : item.dir = D
  · simp [hD, Nat.add_comm]
  · simp [hD]

theorem turn_returns {data : List Byte} (h : Taken n p s.σ) (hb : arg.chars ≠ optB) (hsb : arg.chars ≠ optSb)
    (hdata : host arg = some data) :
    Returns (data.length < maxFileSize ∧ (s.dirs s.flag).n < 128 ∧ p + fileBlocks data.length < n) (s.turn host arg)
      fun s' => s'.flag = s.flag ∧ Taken n (p + fileBlocks data.length) s'.σ ∧
        ∀ D, (s'.dirs D).n = (s.dirs D).n + if s.flag = D then 1 else 0 := by
  unfold Main.turn
  rw [if_neg hb, if_neg hsb]
  refine ((writefile_returns h).bind fun r _ hr => .pure ⟨rfl, ?_, fun D => ?_⟩).congr ?_
  · constructor
    · rintro ⟨h1, h2, h3⟩
      exact ⟨⟨data, hdata, h1, h2, h3⟩, trivial⟩
    · rintro ⟨⟨data', h1, h2⟩, -⟩
      obtain rfl := Option.some.inj (hdata.symm.trans h1)
      exact h2
  · obtain ⟨-, data', h1, h2⟩ := hr
    obtain rfl := Option.some.inj (hdata.symm.trans h1)
    exact h2
  · dsimp only
    by_cases hD : s.flag = D
    · subst hD
      rw [Function.update_self, if_pos rfl]
      exact hr.1
    · rw [Function.update_of_ne (Ne.symm hD), if_neg hD]
      rfl

/-- **The loop returns** where the files are there and fit, and the directories and the disk have room. -/
theorem turns_returns (host : Host) (argv : List CString) (h : Taken n p s.σ) (hc : ∀ D, (s.dirs D).n ≤ 128) :
    Returns (Readable host argv ∧ (∀ item ∈ items host s.flag argv, item.data.length < maxFileSize) ∧
        (∀ D, (s.dirs D).n + count (items host s.flag argv) D ≤ 128) ∧ p + itemBlocks (items host s.flag argv) < n)
      (argv.foldlM (Main.turn host) s) fun s' => Taken n (p + itemBlocks (items host s.flag argv)) s'.σ ∧
        ∀ D, (s'.dirs D).n = (s.dirs D).n + count (items host s.flag argv) D := by
  induction argv generalizing p s with
  | nil =>
    refine (Returns.pure ⟨h, fun D => rfl⟩).congr (iff_of_true ?_ trivial)
    exact ⟨fun _ h1 => absurd h1 List.not_mem_nil, fun _ h1 => absurd h1 List.not_mem_nil, hc, h.room⟩
  | cons arg argv ih =>
    rw [List.foldlM_cons]
    have hread : Readable host (arg :: argv) ↔
        (arg.chars ≠ optB → arg.chars ≠ optSb → ∃ data, host arg = some data) ∧ Readable host argv := List.forall_mem_cons
    rw [hread]
    -- an option changes the flag only
    by_cases hb : arg.chars = optB
    · have hturn : s.turn host arg = some { s with flag := .bin } := if_pos hb
      rw [hturn, items, if_pos hb]
      have hskip : arg.chars ≠ optB → arg.chars ≠ optSb → ∃ data, host arg = some data := fun h1 => absurd hb h1
      rw [and_iff_right hskip]
      exact ih (s := { s with flag := .bin }) h hc
    by_cases hsb : arg.chars = optSb
    · have hturn : s.turn host arg = some { s with flag := .sbin } := (if_neg hb).trans (if_pos hsb)
      rw [hturn, items, if_neg hb, if_pos hsb]
      have hskip : arg.chars ≠ optB → arg.chars ≠ optSb → ∃ data, host arg = some data := fun _ h1 => absurd hsb h1
      rw [and_iff_right hskip]
      exact ih (s := { s with flag := .sbin }) h hc
    -- a file that is not there stops the program, whatever follows
    rcases hdata : host arg with _ | data
    · have hturn : s.turn host arg = none := by
        unfold Main.turn
        have hwrite : s.σ.writefile host (s.dirs s.flag) arg = none := by
          refine (writefile_returns h).none ?_
          rintro ⟨data, h1, -⟩
          rw [hdata] at h1
          cases h1
        rw [if_neg hb, if_neg hsb, hwrite]
        rfl
      rw [hturn]
      refine ⟨fun h1 => ?_, fun _ => rfl⟩
      obtain ⟨data, h2⟩ := h1.1.1 hb hsb
      cases h2
    · have hitems : items host s.flag (arg :: argv) = ⟨s.flag, lastElem arg, data⟩ :: items host s.flag argv := by
        rw [items_file hb hsb, hdata]
        rfl
      have hcount : ∀ D, count (items host s.flag (arg :: argv)) D =
          (if s.flag = D then 1 else 0) + count (items host s.flag argv) D := by
        intro D
        rw [hitems, count_cons]
      have hblocks : itemBlocks (items host s.flag (arg :: argv)) =
          fileBlocks data.length + itemBlocks (items host s.flag argv) := by
        rw [hitems]
        rfl
      -- what follows is counted from the state behind this file
      have hrest : ∀ s₁ : Main, (s.dirs s.flag).n < 128 → s₁.flag = s.flag → Taken n (p + fileBlocks data.length) s₁.σ →
          (∀ D, (s₁.dirs D).n = (s.dirs D).n + if s.flag = D then 1 else 0) →
          Returns (Readable host argv ∧ (∀ item ∈ items host s.flag argv, item.data.length < maxFileSize) ∧
            (∀ D, (s.dirs D).n + count (items host s.flag (arg :: argv)) D ≤ 128) ∧
            p + itemBlocks (items host s.flag (arg :: argv)) < n) (argv.foldlM (Main.turn host) s₁) fun s' =>
          Taken n (p + itemBlocks (items host s.flag (arg :: argv))) s'.σ ∧
            ∀ D, (s'.dirs D).n = (s.dirs D).n + count (items host s.flag (arg :: argv)) D := by
        intro s₁ hlt hflag hp hd
        have hle : ∀ D, (s₁.dirs D).n ≤ 128 := by
          intro D
          rw [hd]
          split_ifs with hD
          · subst hD
            omega
          · exact hc D
        have h1 := ih hp hle
        simp only [hd, hflag, Nat.add_assoc, ← hcount, ← hblocks] at h1
        exact h1
      refine ((turn_returns h hb hsb hdata).bind fun s₁ h1 h2 => hrest s₁ h1.2.1 h2.1 h2.2.1 h2.2.2).congr ?_
      rw [hitems, List.forall_mem_cons, ← hitems]
      constructor
      · rintro ⟨⟨-, h1⟩, ⟨h2, h3⟩, h4, h5⟩
        have h6 := h4 s.flag
        rw [hcount, if_pos rfl] at h6
        exact ⟨⟨h2, by omega, by omega⟩, h1, h3, h4, h5⟩
      · rintro ⟨⟨h2, -, -⟩, h1, h3, h4, h5⟩
        exact ⟨⟨fun _ _ => ⟨data, rfl⟩, h1⟩, ⟨h2, h3⟩, h4, h5⟩

/-! ## The program -/

theorem block_returns (h : Taken n p σ) : Returns (p + 1 < n) (σ.alloc 4096) fun r => Taken n (p + 1) r.2 :=
  have hb : (4096 : BitVec 32).toNat + 4096 ≤ 2 ^ 32 := by decide
  alloc_returns h hb

theorem opendisk_returns (h2 : 2 ≤ n) (hsmall : n ≤ 10240) : Returns (3 < n) (opendisk n mem) (Taken n 3) := by
  have hbits : (n + 32768 - 1) / 32768 = 1 := by omega
  have h0 : Taken n 0 ⟨n, mem.zero 0 (n * 4096), 0, 0, 0⟩ := ⟨rfl, (Nat.zero_mul _).symm, hsmall, by omega⟩
  unfold opendisk
  rw [hbits]
  refine Returns.congr (Returns.bind (block_returns h0) fun r₁ _ h1 => Returns.bind (block_returns h1) fun r₂ _ h2 =>
    Returns.bind (block_returns (n := n) (p := 2) ?_) fun r₃ _ h3 => Returns.pure ?_) ?_
  · exact ⟨h2.nblocks, h2.pos, h2.small, h2.room⟩
  · exact ⟨h3.nblocks, h3.pos, h3.small, h3.room⟩
  · constructor
    · intro h
      exact ⟨by omega, by omega, h, trivial⟩
    · exact fun h => h.2.2.1

theorem start_returns : Returns (3 < n ∧ n ≤ 10240) (Main.start n mem) fun s =>
    Taken n 3 s.σ ∧ s.flag = .root ∧ ∀ D, (s.dirs D).n = if D = .root then 2 else 0 := by
  unfold Main.start
  by_cases hn : n < 2 ∨ n > 10240
  · rw [if_pos hn]
    exact ⟨fun h => by omega, fun _ => rfl⟩
  · rw [if_neg hn]
    have hrange : 2 ≤ n ∧ n ≤ 10240 := by omega
    have hadd : ∀ {σ dir name}, dir.n < 128 → Taken n 3 σ →
        Returns True (σ.diradd dir ftypeDir name) fun r => r.2.1.n = dir.n + 1 ∧ Taken n 3 r.2.2 :=
      fun hcount h => (diradd_returns h).congr (iff_of_true trivial hcount)
    refine ((opendisk_returns hrange.1 hrange.2).bind fun σ _ h => (hadd (Nat.zero_lt_succ 127) h).bind fun r₁ _ h1 =>
      (hadd (h1.1.trans_lt (Nat.one_lt_succ_succ 126)) h1.2).bind fun r₂ _ h2 => Returns.pure ?_).congr ?_
    · refine ⟨h2.2, rfl, fun D => ?_⟩
      cases D with
      | root => exact h2.1.trans (congrArg (· + 1) h1.1)
      | bin => rfl
      | sbin => rfl
    · constructor
      · exact fun h => ⟨h.1, trivial, trivial, trivial⟩
      · exact fun h => ⟨h.1, hrange.2⟩

theorem finish_returns (h : Taken n p s.σ) (hc : ∀ D, (s.dirs D).n ≤ 128) :
    Returns (p + kidBlocks (s.dirs .bin).n + kidBlocks (s.dirs .sbin).n + kidBlocks (s.dirs .root).n < n) s.finish
      fun _ => True := by
  refine ((finishdir_returns h (hc .bin)).bind fun σ₁ _ h1 => (finishdir_returns h1 (hc .sbin)).bind fun σ₂ _ h2 =>
    (finishdir_returns h2 (hc .root)).bind fun σ₃ _ _ => .pure trivial).congr ?_
  constructor
  · intro h
    exact ⟨by omega, by omega, h, trivial⟩
  · exact fun h => h.2.2.1

theorem kidNames_length (l : List Item) (D : Flag) : (kidNames l D).length = (if D = .root then 2 else 0) + count l D := by
  unfold kidNames count
  rw [List.length_append, List.length_map]
  split_ifs <;> rfl

/-- **`fsformat` returns** exactly if the files are there and small enough, no directory gets more than 128 entries, and
the image takes less than its `n` blocks. -/
theorem main_total : (∃ σ, main host n argv mem = some σ) ↔ n ≤ 10240 ∧ Readable host argv ∧
    (∀ item ∈ items host .root argv, item.data.length < maxFileSize) ∧
    (∀ D, (kidNames (items host .root argv) D).length ≤ 128) ∧ imageBlocks (items host .root argv) < n := by
  have hloop : ∀ s : Main, Taken n 3 s.σ ∧ s.flag = .root ∧ (∀ D, (s.dirs D).n = if D = .root then 2 else 0) →
      Returns (Readable host argv ∧ (∀ item ∈ items host .root argv, item.data.length < maxFileSize) ∧
        (∀ D, (kidNames (items host .root argv) D).length ≤ 128) ∧ 3 + itemBlocks (items host .root argv) < n)
      (argv.foldlM (Main.turn host) s) fun s' => Taken n (3 + itemBlocks (items host .root argv)) s'.σ ∧
        ∀ D, (s'.dirs D).n = (kidNames (items host .root argv) D).length := by
    rintro s ⟨h1, h2, h3⟩
    have hle : ∀ D, (s.dirs D).n ≤ 128 := by
      intro D
      rw [h3]
      split_ifs <;> omega
    have h4 := turns_returns host argv h1 hle
    simp only [h2, h3, ← kidNames_length] at h4
    exact h4
  have hfinish : ∀ s : Main, (Readable host argv ∧ (∀ item ∈ items host .root argv, item.data.length < maxFileSize) ∧
        (∀ D, (kidNames (items host .root argv) D).length ≤ 128) ∧ 3 + itemBlocks (items host .root argv) < n) →
      (Taken n (3 + itemBlocks (items host .root argv)) s.σ ∧
        ∀ D, (s.dirs D).n = (kidNames (items host .root argv) D).length) →
      Returns (imageBlocks (items host .root argv) < n) s.finish fun _ => True := by
    rintro s ⟨-, -, hle, -⟩ ⟨h1, h2⟩
    have h3 := finish_returns h1 fun D => (h2 D).le.trans (hle D)
    rw [h2, h2, h2] at h3
    exact h3
  have hprog : Returns (n ≤ 10240 ∧ Readable host argv ∧
      (∀ item ∈ items host .root argv, item.data.length < maxFileSize) ∧
      (∀ D, (kidNames (items host .root argv) D).length ≤ 128) ∧ imageBlocks (items host .root argv) < n)
      (main host n argv mem) fun _ => True := by
    refine Returns.congr (Returns.bind start_returns fun s _ h1 => Returns.bind (hloop s h1) fun s' h2 h3 =>
      hfinish s' h2 h3) ?_
    constructor
    · rintro ⟨h1, h2, h3, h4, h5⟩
      have h6 : 3 + itemBlocks (items host .root argv) < n := by
        unfold imageBlocks at h5
        omega
      exact ⟨⟨by omega, h1⟩, ⟨h2, h3, h4, h6⟩, h5⟩
    · rintro ⟨⟨-, h1⟩, ⟨h2, h3, h4, -⟩, h5⟩
      exact ⟨h1, h2, h3, h4, h5⟩
  exact hprog.iff

end Jos.Format
