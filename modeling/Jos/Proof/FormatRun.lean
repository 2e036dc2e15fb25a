import Jos.Proof.Format

/-!
# The run of `fsformat`

`Built` at the start (`start_built`), after each argument (`turns_built`) and after the directories are finished
(`finish_built`), and the bitmap that `finishdisk` writes (`finishdisk_spec`).
-/

namespace Jos.Format

open Lib Fs

variable {σ σ' : St} {mem m m' : Bytes} {n stop : ℕ} {E : Flag → Ent} {log : List Placed} {host : Host}
  {s s' : Main} {argv : List CString} {arg : CString}

/-! ## The start -/

theorem Fresh.heap (h : Fresh mem) (D : Flag) {i x : ℕ} (hi : i < 128) (h1 : heap D + 256 * i ≤ x)
    (h2 : x < heap D + 256 * i + 256) : mem.byte x = 0 := by
  unfold Fresh malloc at h
  unfold Format.heap malloc at h1 h2
  refine h x ?_ ?_ <;> cases D <;> simp only at h1 h2 <;> omega

theorem zero_slots {a : ℕ} (h : ∀ x, a ≤ x → x < a + 256 → m.byte x = 0) : SlotsClear m a :=
  slotsClear_of_holds (blank_holds fun i hi => h _ (by omega) (by omega)) rfl

theorem alloc_one {start p : ℕ} (h : σ.alloc 4096 = some (start, σ')) (hp : σ.diskpos = p * 4096) :
    start = p * 4096 ∧ p + 1 < σ.nblocks ∧ σ' = { σ with diskpos := (p + 1) * 4096 } :=
  alloc_spec h hp (by decide)

/-- The memory with the super block of an image. -/
def superMem (mem : Bytes) (n : ℕ) : Bytes :=
  ((((mem.zero 0 (n * 4096)).store32 4096 Bc.fsMagic).store32 4100 (BitVec.ofNat 32 n)).store32 4236 ftypeDir).write 4104
    rootName

theorem opendisk_spec (h : opendisk n mem = some σ) (h2 : 2 ≤ n) (hn : n ≤ 10240) : 3 < n ∧
    σ = ⟨n, (superMem mem n).write 8192 (List.replicate 4096 0xFF), 3 * 4096, 4096, 8192⟩ := by
  unfold opendisk at h
  obtain ⟨⟨a, σ₁⟩, h1, h⟩ := Option.bind_eq_some_iff.1 h
  obtain ⟨rfl, -, rfl⟩ := alloc_one (p := 0) h1 (Nat.zero_mul _).symm
  obtain ⟨⟨b, σ₂⟩, h2, h⟩ := Option.bind_eq_some_iff.1 h
  obtain ⟨rfl, -, rfl⟩ := alloc_one (p := 1) h2 rfl
  have hbits : (n + 32768 - 1) / 32768 = 1 := by omega
  rw [hbits] at h
  obtain ⟨⟨c, σ₃⟩, h3, h⟩ := Option.bind_eq_some_iff.1 h
  obtain ⟨rfl, hlt, rfl⟩ := alloc_one (p := 2) h3 rfl
  exact ⟨hlt, (Option.some.inj h).symm⟩

theorem byte_superMem {x : ℕ} (h : x < 4096 ∨ 4360 ≤ x) : (superMem mem n).byte x = (mem.zero 0 (n * 4096)).byte x := by
  unfold superMem
  rw [Bytes.byte_write_off (by simp [rootName]; omega), Bytes.byte_store32_off (by omega),
    Bytes.byte_store32_off (by omega), Bytes.byte_store32_off (by omega)]

/-- The root directory before any entry. -/
theorem superMem_root (hn : 3 < n) : Holds (superMem mem n) sRoot (pending .root) := by
  have hz : ∀ x, 4104 + 2 ≤ x → x < 4236 ∨ 4240 ≤ x → x < 4360 → (superMem mem n).byte x = 0 := fun x h1 h2 h3 => by
    unfold superMem
    rw [Bytes.byte_write_off (by simp [rootName]; omega), Bytes.byte_store32_off (by omega),
      Bytes.byte_store32_off (by omega), Bytes.byte_store32_off (by omega), Bytes.byte_zero_in (by omega) (by omega)]
  have hw : ∀ a, 4104 + 2 ≤ a → a + 4 ≤ 4236 ∨ 4240 ≤ a → a + 4 ≤ 4360 → (superMem mem n).load32 a = 0 :=
    fun a h1 h2 h3 => by
      have h4 : (superMem mem n).load32 a = ((superMem mem n).zero a 4).load32 a := Bytes.load32_congr fun i hi => by
        rw [hz _ (by omega) (by omega) (by omega), Bytes.byte_zero_in (by omega) (by omega)]
      rw [h4, Bytes.load32_zero_in le_rfl le_rfl]
  have hb : (pending .root).blocks = 0 := rfl
  refine ⟨fun k hk => ?_, hw _ (by decide) (by decide) (by decide), ?_, fun i hi => ?_, ?_⟩
  · have hk : k < rootName.length := Nat.lt_succ_of_le hk
    unfold superMem sRoot
    rw [Bytes.byte_write_in hk]
    exact (List.getD_eq_getElem rootName 0 hk).symm
  · change (superMem mem n).load32 4236 = ftypeDir
    unfold superMem
    rw [Bytes.load32_write_off (by simp [rootName]), Bytes.load32_store32]
  · rw [hb, if_neg (Nat.not_lt_zero i)]
    unfold fDirect sRoot
    exact hw _ (by omega) (by omega) (by omega)
  · rw [hb, if_pos (by omega)]
    exact hw _ (by decide) (by decide) (by decide)

/-- The image without any entry. -/
theorem ground_start (hn : 3 < n) (hle : n ≤ 10240) :
    Ground n 3 ⟨n, (superMem mem n).write 8192 (List.replicate 4096 0xFF), 3 * 4096, 4096, 8192⟩ where
  small := hle
  three := le_rfl
  room := hn
  nblocks := rfl
  bitmap := rfl
  pos := rfl
  clear x h1 h2 := by
    dsimp only
    rw [Bytes.byte_write_off (by rw [List.length_replicate]; omega), byte_superMem (by omega),
      Bytes.byte_zero_in (by omega) (by omega)]
  magic := by
    dsimp only
    rw [Bytes.load32_write_off (by omega)]
    unfold superMem
    rw [Bytes.load32_write_off (by omega), Bytes.load32_store32_off (by omega), Bytes.load32_store32_off (by omega),
      Bytes.load32_store32]
  total := by
    dsimp only
    rw [Bytes.load32_write_off (by omega)]
    unfold superMem
    rw [Bytes.load32_write_off (by omega), Bytes.load32_store32_off (by omega), Bytes.load32_store32]
  bits x h1 h2 := by
    dsimp only
    rw [Bytes.byte_write, List.length_replicate, if_pos ⟨h1, by omega⟩, List.getD_eq_getElem _ _ (by
      rw [List.length_replicate]; omega), List.getElem_replicate]

theorem empty_blocks (name : List Byte) (type : BitVec 32) (start : ℕ) : Ent.blocks ⟨name, type, 0, start⟩ = 0 := by
  simp [Ent.blocks]

/-- A new entry of a clear array. -/
theorem new_holds {a : ℕ} {name : List Byte} {type : BitVec 32} (hz : ∀ x, a ≤ x → x < a + 256 → m.byte x = 0)
    (hl : name.length < 128) (hm : m' = (m.write a (name ++ [0])).store32 (a + 132) type) :
    Holds m' a ⟨name, type, 0, 0⟩ ∧ ∀ x, x < a ∨ a + 256 ≤ x → m'.byte x = m.byte x := by
  have hm : m' = ((m.write a (name ++ [0])).store32 (a + 132) type).write (a + 256) [] := by rw [Bytes.write_nil, hm]
  obtain ⟨hadd, htail, htype, hname⟩ := added_spec hm hl (Or.inr le_rfl)
  have hs := zero_slots hz
  have hslot : ∀ o < 11, m'.load32 (a + 136 + 4 * o) = 0 := fun o ho => by
    refine Eq.trans (Bytes.load32_congr fun i hi => ?_) (hs o ho)
    rw [Nat.add_assoc, Nat.add_assoc]
    exact htail _ (by omega) (by omega)
  have hsize : m'.load32 (a + 128) = 0 := by
    have h1 : m.load32 (a + 128) = (m.zero a 256).load32 (a + 128) := Bytes.load32_congr fun i hi => by
      rw [hz _ (by omega) (by omega), Bytes.byte_zero_in (by omega) (by omega)]
    rw [hm, Bytes.write_nil, Bytes.load32_store32_off (by omega),
      Bytes.load32_write_off (by rw [List.length_append, List.length_singleton]; omega), h1,
      Bytes.load32_zero_in (by omega) (by omega)]
  refine ⟨⟨hname, hsize, htype, fun i hi => ?_, ?_⟩, fun x hx => hadd x hx (by simp; omega)⟩
  · rw [empty_blocks, if_neg (Nat.not_lt_zero i)]
    exact hslot i (by omega)
  · rw [empty_blocks, if_pos (by omega)]
    exact hslot 10 (by omega)

/-- The entries `bin` and `sbin`. -/
theorem two_holds {a : ℕ} {m₁ : Bytes} (hz : ∀ x, a ≤ x → x < a + 512 → m.byte x = 0)
    (h1 : m₁ = (m.write a (binName ++ [0])).store32 (a + 132) ftypeDir)
    (h2 : m' = (m₁.write (a + 256) (sbinName ++ [0])).store32 (a + 256 + 132) ftypeDir) :
    Holds m' a (pending .bin) ∧ Holds m' (a + 256) (pending .sbin) ∧
      ∀ x, x < a ∨ a + 512 ≤ x → m'.byte x = m.byte x := by
  obtain ⟨hbin, hoff₁⟩ := new_holds (fun x h3 h4 => hz x h3 (by omega)) (by decide) h1
  obtain ⟨hsbin, hoff₂⟩ := new_holds (fun x h3 h4 => by
    rw [hoff₁ x (by omega)]
    exact hz x (by omega) (by omega)) (by decide) h2
  refine ⟨hbin.congr (by decide) fun x h3 h4 => hoff₂ x (by omega), hsbin, fun x hx => ?_⟩
  rw [hoff₂ x (by omega), hoff₁ x (by omega)]

/-- The variables of `main` while it adds files. -/
structure Adding (n : ℕ) (log : List Placed) (stop : ℕ) (s : Main) : Prop where
  built : Built n pending [] log stop s.σ
  dirs : ∀ D, s.dirs D = ⟨home D, heap D, (kids pending log D).length⟩

theorem start_built (hm : Fresh mem) (h : Main.start n mem = some s) : Adding n [] 3 s ∧ s.flag = .root := by
  unfold Main.start at h
  split_ifs at h with hn
  obtain ⟨σ₀, h0, h⟩ := Option.bind_eq_some_iff.1 h
  obtain ⟨hthree, rfl⟩ := opendisk_spec h0 (by omega) (by omega)
  have hg : Ground n 3 ⟨n, (superMem mem n).write 8192 (List.replicate 4096 0xFF), 3 * 4096, 4096, 8192⟩ :=
    ground_start hthree (by omega)
  generalize hσ : (⟨n, (superMem mem n).write 8192 (List.replicate 4096 0xFF), 3 * 4096, 4096, 8192⟩ : St) = σ₀ at *
  have hsuper : σ₀.super + 8 = sRoot := by rw [← hσ]; rfl
  rw [hsuper] at h
  obtain ⟨⟨b, root₁, σ₁⟩, h1, h⟩ := Option.bind_eq_some_iff.1 h
  obtain ⟨-, rfl, rfl, hσ₁⟩ := diradd_spec h1
  obtain ⟨⟨sb, root₂, σ₂⟩, h2, h⟩ := Option.bind_eq_some_iff.1 h
  obtain ⟨-, rfl, rfl, hσ₂⟩ := diradd_spec h2
  obtain rfl := Option.some.inj h
  clear h h0 h1 h2
  have hzero : ∀ D i, i < 128 → ∀ x, heap D + 256 * i ≤ x → x < heap D + 256 * i + 256 → σ₀.mem.byte x = 0 := by
    intro D i hi x h1 h2
    have h3 := heap_ge D
    rw [← hσ]
    dsimp only
    rw [Bytes.byte_write_off (by rw [List.length_replicate]; omega), byte_superMem (by omega),
      Bytes.byte_zero_off (by omega)]
    exact hm.heap D hi h1 h2
  have htwo : ∀ D x, heap D ≤ x → x < heap D + 512 → σ₀.mem.byte x = 0 := fun D x h1 h2 => by
    by_cases h3 : x < heap D + 256
    · exact hzero D 0 (by omega) x (by omega) (by omega)
    · exact hzero D 1 (by omega) x (by omega) (by omega)
  have hmem₁ : σ₁.mem = (σ₀.mem.write (heap .root) (binName ++ [0])).store32 (heap .root + 132) ftypeDir := by
    rw [hσ₁]
    rfl
  have hmem₂ : σ₂.mem = (σ₁.mem.write (heap .root + 256) (sbinName ++ [0])).store32 (heap .root + 256 + 132) ftypeDir := by
    rw [hσ₂]
    rfl
  obtain ⟨hbin, hsbin, hoff⟩ := two_holds (htwo .root) hmem₁ hmem₂
  have hoff : ∀ D x, D = Flag.root → x < heap D ∨ heap D + 512 ≤ x → σ₂.mem.byte x = σ₀.mem.byte x :=
    fun D x hD hx => hoff x (hD ▸ hx)
  have hsmall := hg.small
  have hlow : ∀ x, x / 4096 < n → σ₂.mem.byte x = σ₀.mem.byte x := fun x hx => by
    have h1 := heap_ge
    obtain ⟨D, hD⟩ : ∃ D, D = Flag.root := ⟨_, rfl⟩
    have h2 := h1 D
    exact hoff D x hD (by omega)
  have hapart : ∀ D, D ≠ .root → ∀ i j, i < 128 → j < 128 →
      heap D + 256 * i + 256 ≤ heap .root + 256 * j ∨ heap .root + 256 * j + 256 ≤ heap D + 256 * i :=
    fun D hD i j hi hj => heap_apart hi hj fun h => hD h.1
  refine ⟨⟨?_, fun D => by cases D <;> rfl⟩, rfl⟩
  exact {
    ground := hg.step (by rw [hσ₂, hσ₁, ← hσ]) le_rfl hthree fun x h1 _ _ => hlow x h1
    rows := .nil
    root := by
      refine Holds.congr (d := σ₀.mem) ?_ (by decide) fun x h1 h2 => hlow x ?_
      · rw [← hσ]
        have hroot : Holds (superMem mem n) sRoot (pending .root) := superMem_root hthree
        refine hroot.congr (by decide) fun x h1 h2 => ?_
        unfold sRoot at h2
        exact Bytes.byte_write_off (by omega)
      · unfold sRoot at h2
        omega
    kid := fun D i k hk => by
      cases D with
      | root =>
        rcases i with _ | _ | i
        · obtain rfl := Option.some.inj hk
          exact hbin
        · obtain rfl := Option.some.inj hk
          exact hsbin
        · cases hk
      | bin => cases hk
      | sbin => cases hk
    slots := fun D i h1 h2 => by
      refine zero_slots fun x h3 h4 => ?_
      rw [hoff .root x rfl ?_]
      · exact hzero D i h2 x h3 h4
      · cases D with
        | root =>
          have h5 : 2 ≤ i := h1
          generalize heap .root = H at *
          omega
        | bin =>
          have h6 := hapart .bin (by decide) i 0 h2 (by omega)
          have h7 := hapart .bin (by decide) i 1 h2 (by omega)
          generalize heap .root = H at *
          generalize heap .bin = B at *
          omega
        | sbin =>
          have h6 := hapart .sbin (by decide) i 0 h2 (by omega)
          have h7 := hapart .sbin (by decide) i 1 h2 (by omega)
          generalize heap .root = H at *
          generalize heap .sbin = B at *
          omega
    count := fun D => by cases D <;> decide
    named := fun p hp => absurd hp List.not_mem_nil
    sizes := fun p hp => absurd hp List.not_mem_nil
    data := fun p hp => absurd hp List.not_mem_nil
    filled := fun p hp => absurd hp List.not_mem_nil
    waiting := fun D _ => rfl
    head := fun D => ⟨rfl, rfl⟩
    full := fun D hD => absurd hD List.not_mem_nil }

/-! ## The loop -/

theorem lastElem_noNul (arg : CString) : 0 ∉ lastElem arg := fun h =>
  arg.noNul ((List.rtakeWhile_suffix (· != 0x2F) arg.chars).subset h)

/-- **One turn**: the file that an argument names is added. -/
theorem turn_built (hfit : NamesFit (items host s.flag (arg :: argv))) (ha : Adding n log stop s)
    (h : s.turn host arg = some s') : ∃ added stop', Adding n (log ++ added) stop' s' ∧
      items host s.flag (arg :: argv) = added.map Placed.item ++ items host s'.flag argv := by
  unfold Main.turn at h
  split_ifs at h with hb hsb
  -- an option adds nothing
  · obtain rfl := Option.some.inj h
    refine ⟨[], stop, ⟨?_, ?_⟩, ?_⟩
    · rw [List.append_nil]
      exact ha.built
    · rw [List.append_nil]
      exact ha.dirs
    · rw [items, if_pos hb]
      rfl
  · obtain rfl := Option.some.inj h
    refine ⟨[], stop, ⟨?_, ?_⟩, ?_⟩
    · rw [List.append_nil]
      exact ha.built
    · rw [List.append_nil]
      exact ha.dirs
    · rw [items, if_neg hb, if_pos hsb]
      rfl
  · obtain ⟨⟨dir, σ⟩, h1, h2⟩ := Option.bind_eq_some_iff.1 h
    obtain rfl := Option.some.inj h2
    rw [ha.dirs s.flag] at h1
    rw [items_file hb hsb] at hfit ⊢
    obtain ⟨hne, hlen⟩ := hfit _ List.mem_cons_self
    obtain ⟨data, stop', hdata, hbuilt, hdir⟩ := writefile_built ha.built h1 ⟨hne, lastElem_noNul arg⟩ hlen
    refine ⟨_, stop', ⟨hbuilt, fun D => ?_⟩, ?_⟩
    · dsimp only
      rw [kids_snoc, hdir]
      by_cases hD : D = s.flag
      · subst hD
        rw [Function.update_self, if_pos rfl, List.length_append]
        rfl
      · rw [Function.update_of_ne hD, if_neg hD]
        exact ha.dirs D
    · rw [hdata]
      rfl

/-- **The loop**: the files are those that the arguments ask for. -/
theorem turns_built (hfit : NamesFit (items host s.flag argv)) (ha : Adding n log stop s)
    (h : argv.foldlM (Main.turn host) s = some s') :
    ∃ added stop', Adding n (log ++ added) stop' s' ∧ added.map Placed.item = items host s.flag argv := by
  induction argv generalizing log stop s with
  | nil =>
    obtain rfl := Option.some.inj h
    refine ⟨[], stop, ?_, rfl⟩
    rw [List.append_nil]
    exact ha
  | cons arg argv ih =>
    rw [List.foldlM_cons] at h
    obtain ⟨s₁, h1, h2⟩ := Option.bind_eq_some_iff.1 h
    obtain ⟨new, stop₁, ha₁, hnew⟩ := turn_built hfit ha h1
    rw [hnew] at hfit ⊢
    obtain ⟨added, stop', ha', hadded⟩ := ih (fun item hi => hfit item (List.mem_append_right _ hi)) ha₁ h2
    refine ⟨new ++ added, stop', ?_, ?_⟩
    · rw [← List.append_assoc]
      exact ha'
    · rw [List.map_append, hadded]

/-! ## The end -/

/-- Where the directories are, in the order of `main`. -/
structure Closed (E : Flag → Ent) (log : List Placed) (stop : ℕ) : Prop where
  size : ∀ D, (E D).size = dirSize (kids E log D).length
  start : ∀ D, 3 ≤ (E D).start ∧ (E D).start < stop

/-- The three directories are finished. -/
theorem finish_built (ha : Adding n log stop s) (h : s.finish = some σ) : ∃ E stop' σ',
    Built n E [.bin, .sbin, .root] log stop' σ' ∧ Closed E log stop' ∧ σ = σ'.finishdisk := by
  obtain ⟨σ₁, h1, h⟩ := Option.bind_eq_some_iff.1 h
  obtain ⟨σ₂, h2, h⟩ := Option.bind_eq_some_iff.1 h
  obtain ⟨σ₃, h3, h⟩ := Option.bind_eq_some_iff.1 h
  obtain rfl := Option.some.inj h
  rw [ha.dirs] at h1 h2 h3
  have hthree := ha.built.ground.three
  have hb₁ := finishdir_built ha.built (by decide) (by decide) h1
  rw [kids_length pending (Function.update pending .bin _)] at h2
  have hb₂ := finishdir_built hb₁ (by decide) (by decide) h2
  rw [kids_length pending (Function.update (Function.update pending .bin _) .sbin _)] at h3
  have hb₃ := finishdir_built hb₂ (by decide) (by decide) h3
  -- the root directory has entries, so it ends behind the others
  have hroot : ∀ E' : Flag → Ent, 0 < (256 * (kids E' log .root).length + 4095) / 4096 := fun E' => by
    change 0 < (256 * ((files log .root).length + 1 + 1) + 4095) / 4096
    omega
  have hlast : ∀ (E' : Flag → Ent) {a b : ℕ}, a ≤ b → a < b + (256 * (kids E' log .root).length + 4095) / 4096 :=
    fun E' _ _ hab => hab.trans_lt (Nat.lt_add_of_pos_right (hroot E'))
  refine ⟨_, _, σ₃, hb₃, ⟨fun D => ?_, fun D => ?_⟩, rfl⟩
  · cases D <;> rfl
  · cases D with
    | root => exact ⟨Nat.le_add_right_of_le (Nat.le_add_right_of_le hthree), hlast _ le_rfl⟩
    | bin => exact ⟨hthree, hlast _ (Nat.le_add_right_of_le (Nat.le_add_right _ _))⟩
    | sbin => exact ⟨Nat.le_add_right_of_le hthree, hlast _ (Nat.le_add_right _ _)⟩

/-- **The bitmap**: the blocks below `k` are marked in use. -/
theorem clearBits_spec (m : Bytes) {k : ℕ} (hk : k ≤ 32768) :
    nblocks ((List.range k).foldl (clearBit 8192) m) = nblocks m ∧
      (∀ c, blockIsFree ((List.range k).foldl (clearBit 8192) m) c = (blockIsFree m c && decide (k ≤ c))) ∧
      ∀ x, x < 8192 ∨ 12288 ≤ x → ((List.range k).foldl (clearBit 8192) m).byte x = m.byte x := by
  induction k with
  | zero => exact ⟨rfl, fun c => by simp, fun x _ => rfl⟩
  | succ k ih =>
    obtain ⟨h1, h2, h3⟩ := ih (by omega)
    rw [List.range_succ, List.foldl_append]
    change nblocks (markBlock _ k false) = _ ∧ (∀ c, blockIsFree (markBlock _ k false) c = _) ∧
      ∀ x, _ → (markBlock _ k false).byte x = _
    refine ⟨nblocks_markBlock.trans h1, fun c => ?_, fun x hx => ?_⟩
    · rw [blockIsFree_markBlock, h2 c]
      split_ifs with hc
      · subst hc
        simp
      · congr 1
        exact decide_eq_decide.2 (by omega)
    · rw [byte_markBlock (by unfold bitmapWord; omega)]
      exact h3 x hx

theorem Ground.nblocks_eq (hg : Ground n stop σ) : Fs.nblocks σ.mem = n := by
  have hsmall := hg.small
  unfold Fs.nblocks
  rw [hg.total, BitVec.toNat_ofNat, Nat.mod_eq_of_lt (by omega)]

theorem Ground.blockIsFree (hg : Ground n stop σ) {c : ℕ} (hc : c < n) : Fs.blockIsFree σ.mem c = true := by
  have hsmall := hg.small
  have hword : σ.mem.load32 (bitmapWord (c / 32)) = BitVec.allOnes 32 := by
    unfold Bytes.load32 bitmapWord
    rw [hg.bits _ (by omega) (by omega), hg.bits _ (by omega) (by omega), hg.bits _ (by omega) (by omega),
      hg.bits _ (by omega) (by omega)]
    rfl
  rw [blockIsFree_eq, hg.nblocks_eq, hword, BitVec.getLsbD_allOnes]
  simp [hc, Nat.mod_lt]

/-- **The disk at the end.** -/
theorem finishdisk_spec (hg : Ground n stop σ) : nblocks σ.finishdisk.mem = n ∧
    (∀ c < n, Fs.blockIsFree σ.finishdisk.mem c = decide (stop ≤ c)) ∧
    ∀ x, x < 8192 ∨ 12288 ≤ x → σ.finishdisk.mem.byte x = σ.mem.byte x := by
  have hsmall := hg.small
  have hroom := hg.room
  have hstop : blockof σ.diskpos = stop := by
    rw [hg.pos]
    exact Nat.mul_div_cancel _ (by omega)
  obtain ⟨h1, h2, h3⟩ := clearBits_spec σ.mem (k := stop) (by omega)
  unfold St.finishdisk
  rw [hg.bitmap, hstop]
  refine ⟨h1.trans hg.nblocks_eq, fun c hc => ?_, h3⟩
  rw [h2, hg.blockIsFree hc, Bool.true_and]

end Jos.Format
