import Jos.Proof.Leaks
import Jos.Proof.Opens
import Jos.Proof.Orderly
import Jos.Proof.Read

/-!
# Files that are open

A file that is open stays linked and named (`serveOpen_open`, `handle_open`) unless it, or a
directory above it, is removed or truncated, or a read or write leaves the blocks of its file.
The entry that `file_create` gives was not open (`fileCreate_new`). So in every run without
such requests an id names the file it was opened with, and reads and writes through it act on
this file only (`ids_same`).

`file_remove` leaves the ids of the file, and the next `file_create` takes its entry
(`ids_same_counterexample`).
-/

namespace Jos.Fs

open Lib

variable {d d' d₁ : Bytes} {σ σ' : Server} {mem : Bool} {req : BitVec 32} {page : Bytes} {rep : Reply}
  {f g i n : ℕ} {z pos : ℤ} {path : CString} {omode : BitVec 32} {c r : Rec} {P : ℕ → ℕ → Bool → ℤ → Prop}
  {W W' : World} {L : Set ℕ}

/-! ## What lies below a file -/

theorem Move.add_or_same (h : Move P sRoot true d d') (hs : Sound sRoot true d) :
    AddStep P sRoot true d d' ∨ Same sRoot true d d' := by
  cases h with
  | add h => exact Or.inl h
  | grow hf _ _ _ => exact Or.inr (hs.same_size hf)
  | name hf hl _ _ => exact Or.inr (hs.same_head hf le_rfl (by omega))
  | data hf ho h0 h1 h2 => exact Or.inr (hs.same_block hf ho h0 h1 h2)

theorem AddStep.kids_eq (h : AddStep P sRoot true d d') (hs : Sound sRoot true d)
    (hr : (tree sRoot true d).Linked r) (s : Slot) (b : ℕ) :
    (tree sRoot true d').kids r s b = (tree sRoot true d).kids r s b := by
  cases h with
  | mk hf _ _ _ ha h0 hb =>
    exact (hs.off_addBlock (linked_slotRec hf ha) (word_of_slotAddr ha) hb).kids r s b hr

/-- Moves put no linked record below another. -/
theorem Move.from_back (h : Move P sRoot true d d') (hv : Valid sRoot true d)
    (hr : (tree sRoot true d).Linked r) (hc : (tree sRoot true d).Linked c)
    (h1 : (tree sRoot true d').From r c) : (tree sRoot true d).From r c := by
  have hs' := (h.valid hv).sound
  have hr' := h.linked hv.sound hr
  rcases h.add_or_same hv.sound with h2 | h2
  · refine Owners.From.back ?_ ?_ ?_ hs'.alone hs'.apart hr' h1 hc
    · exact rfl
    · exact fun _ _ _ hb => h2.held hv.sound hb
    · exact fun _ s b hl => h2.kids_eq hv.sound hl s b
  · refine Owners.From.back ?_ ?_ ?_ hs'.alone hs'.apart hr' h1 hc
    · exact rfl
    · exact fun _ _ _ hb => h2.held.2 hb
    · exact fun _ _ _ hl => h2.kids_eq hl

theorem Moves.from_back (h : Moves P sRoot true d d') (hv : Valid sRoot true d)
    (hr : (tree sRoot true d).Linked r) (hc : (tree sRoot true d).Linked c)
    (h1 : (tree sRoot true d').From r c) : (tree sRoot true d).From r c :=
  (h.rule hv (I := fun d₁ => (tree sRoot true d₁).Linked r ∧ (tree sRoot true d₁).Linked c ∧
    ((tree sRoot true d₁).From r c → (tree sRoot true d).From r c)) ⟨hr, hc, id⟩
    fun _ _ hv₁ h2 h3 => ⟨h3.linked hv₁.sound h2.1, h3.linked hv₁.sound h2.2.1,
      fun h4 => h2.2.2 (h3.from_back hv₁ h2.1 h2.2.1 h4)⟩).2.2.2 h1

/-- No file lies below one that has no data blocks. -/
theorem empty_from (hz : ∀ n, fileBlock d f n = 0) (h : (tree sRoot true d).From (.file f) (.file g)) :
    g = f := by
  have key : ∀ c, (tree sRoot true d).From (.file f) c →
      c = .file f ∨ ∃ b, c = .table (d.load32 (fIndirect f)).toNat b ∧ d.load32 (fIndirect f) ≠ 0 := by
    intro c h
    induction h with
    | refl => exact Or.inl rfl
    | @kid r s b c _ hv hk ih =>
      obtain ⟨p, hp, hb, h0⟩ := val_eq_some.1 hv
      rcases ih with rfl | ⟨dir, rfl, ht⟩
      · cases s with
        | direct i =>
          have h1 := hz i
          simp only [Rec.word] at hp
          split at hp
          · rename_i hi
            unfold fileBlock dataSlot at h1
            rw [if_pos hi, slotBlock_eq (p := p) (by rw [← hp]; exact if_pos hi)] at h1
            exact absurd (hb.symm.trans h1) h0
          · cases hp
        | indirect j => cases hp
        | fIndirect =>
          simp only [Rec.word, Option.some.injEq] at hp
          subst hp
          refine Or.inr ⟨opens true d f, ?_, fun h1 => h0 ?_⟩
          · rw [hb]
            exact hk
          · rw [← hb, h1]
            rfl
      · cases s with
        | direct i => cases hp
        | fIndirect => cases hp
        | indirect j =>
          have h1 := hz (j + 10)
          simp only [Rec.word] at hp
          split at hp
          · rename_i hj
            unfold fileBlock dataSlot at h1
            rw [if_neg (by omega), Nat.add_sub_cancel,
              slotBlock_eq (p := p) (by rw [← hp]; exact if_pos ⟨hj, ht⟩)] at h1
            exact absurd (hb.symm.trans h1) h0
          · cases hp
  rcases key _ h with h1 | ⟨b, h1, -⟩
  · exact Rec.file.inj h1
  · cases h1

theorem Orderly.bare_from (ho : Orderly d) (hf : (tree sRoot true d).Linked (.file f)) (hn : ¬ Named d f)
    (h : (tree sRoot true d).From (.file f) (.file g)) : g = f := by
  by_cases ht : fType d f = ftypeDir
  · exact empty_from (ho.bare hf ht hn) h
  · exact regular_from ht h

/-! ## Opening a path -/

/-- **A file that `file_create` gives** was no named file before, and none lies below it. -/
theorem fileCreate_new (ho : Orderly d) (h : fileCreate d path = some (.ok f, d')) :
    Named d' f ∧ ∀ g, (tree sRoot true d).Linked (.file g) → Named d g →
      g ≠ f ∧ ¬ (tree sRoot true d').From (.file f) (.file g) := by
  obtain ⟨⟨w, d₁⟩, h1, h2⟩ := Option.bind_eq_some_iff.1 h
  obtain ⟨hA, hw⟩ := walkPath_adds dirsIn_within ho.valid h1
  have ho₁ := ho.moves hA.moves
  rcases w with ⟨dir, g⟩ | ⟨r, _ | ⟨dir, name⟩⟩
  · cases h2
  · cases h2
  obtain ⟨-, h3⟩ := hw
  obtain ⟨hf, hname, ht, hgood, hl⟩ := h3 dir name rfl
  by_cases hr : r ≠ -eNotFound
  · simp only [if_pos hr] at h2
    cases h2
  simp only [if_neg hr] at h2
  obtain ⟨⟨r₂, d₂⟩, h4, h5⟩ := Option.bind_eq_some_iff.1 h2
  rcases r₂ with e | k
  · cases h5
  simp only [Option.some.injEq, Prod.mk.injEq, Except.ok.injEq] at h5
  obtain ⟨rfl, rfl⟩ := h5
  obtain ⟨hM, h6⟩ := dirAllocFile_moves dirsIn_within ho₁.valid hf hname ht h4
  have hfree := dirAllocFile_free ho₁ hf hname ht h4
  have ho₂ := ho₁.moves hM
  have hM₂ := hA.moves.trans hM
  obtain ⟨c, cs, rfl⟩ := List.exists_cons_of_ne_nil hgood.1
  have h7 : (c :: cs ++ [0]).head? ≠ some 0 := fun h7 => hgood.2 (by
    rw [← Option.some.inj h7]
    exact List.mem_cons_self)
  have hN : Move Within sRoot true d₂ (d₂.write k (c :: cs ++ [0])) :=
    .name (h6 k rfl) (by simp at hl ⊢; omega) (by simp) h7
  refine ⟨named_write (by simp) h7, fun g hg hng => ?_⟩
  have hg₂ := Moves.linked hM₂ ho.valid hg
  have hne : g ≠ k := by
    rintro rfl
    exact hfree (Moves.named hM₂ ho.valid hg hng)
  exact ⟨hne, fun h8 => hne (ho₂.bare_from (h6 k rfl) hfree (hN.from_back ho₂.valid (h6 k rfl) hg₂ h8))⟩

theorem dirScan_error {test : Bytes → ℕ → Bool} {is : List ℕ} {e : ℤ}
    (h : dirScan test f is d = some (.error e, d')) : e ≠ -eFileExists := by
  rcases dirScan_codes h with rfl | rfl
  all_goals decide

theorem walkElements_error {els : List (List Byte)} {dir : Option ℕ} {e : ℤ} {last : Option (ℕ × List Byte)}
    (h : walkElements els dir f d = some (.failed e last, d')) : e ≠ -eFileExists := by
  induction els generalizing d f dir with
  | nil => cases h
  | cons name rest ih =>
    unfold walkElements at h
    split at h
    · cases h
      decide
    split at h
    · cases h
      decide
    obtain ⟨⟨r₁, d₁⟩, h1, h2⟩ := Option.bind_eq_some_iff.1 h
    rcases r₁ with e₁ | k
    · cases h2
      unfold dirLookup at h1
      split at h1
      · cases h1
      obtain ⟨⟨r₂, d₂⟩, h3, h4⟩ := Option.bind_eq_some_iff.1 h1
      rcases r₂ with e₂ | _ | k
      · cases h4
        exact dirScan_error h3
      · cases h4
        decide
      · cases h4
    · exact ih h2

/-- `file_create` says that the file exists only if the walk finds it. -/
theorem fileCreate_exists (hv : Valid sRoot true d) (h : fileCreate d path = some (.error (-eFileExists), d')) :
    Adds Within sRoot true d d' := by
  obtain ⟨⟨w, d₁⟩, h1, h2⟩ := Option.bind_eq_some_iff.1 h
  obtain ⟨hA, -⟩ := walkPath_adds dirsIn_within hv h1
  rcases w with ⟨dir, g⟩ | ⟨r, _ | ⟨dir, name⟩⟩
  · cases h2
    exact hA
  · cases h2
    exact absurd rfl (walkElements_error h1)
  · by_cases hr : r ≠ -eNotFound
    · simp only [if_pos hr] at h2
      cases h2
      exact absurd rfl (walkElements_error h1)
    simp only [if_neg hr] at h2
    obtain ⟨⟨r₂, d₂⟩, h4, h5⟩ := Option.bind_eq_some_iff.1 h2
    rcases r₂ with e | k
    · cases h5
      unfold dirAllocFile at h4
      split at h4
      · cases h4
      obtain ⟨⟨r₃, d₃⟩, h6, h7⟩ := Option.bind_eq_some_iff.1 h4
      rcases r₃ with e | _ | k
      · cases h7
        exact absurd rfl (dirScan_error h6)
      · rcases fileGetBlock_codes h7 with h8 | h8
        all_goals exact absurd h8 (by decide)
      · cases h7
    · cases h5

/-- **A file that `file_open` gives** had the path, and has a name. -/
theorem fileOpen_named (hv : Valid sRoot true d) (h : fileOpen d path = some (.ok f, d')) :
    Adds Within sRoot true d d' ∧ Named d' f ∧ Names d (elements path) sRoot f ∧
      ∀ name ∈ elements path, name.length < 128 := by
  obtain ⟨⟨w, d₁⟩, h1, h2⟩ := Option.bind_eq_some_iff.1 h
  obtain ⟨hA, hw⟩ := walkElements_adds dirsIn_within hv .refl (Or.inl rfl) (elements_good path) h1
  rcases w with ⟨dir, g⟩ | ⟨r, last⟩
  · cases h2
    exact ⟨hA, hw.2.1, hw.2.2⟩
  · cases h2

/-- **What `serve_open` opens** has a name. It is a new file, or it had the path and what lies
below it did so before. -/
theorem openPath_named (ho : Orderly d) (h : openPath d path omode = some (.ok f, d')) :
    Named d' f ∧ ∀ g, (tree sRoot true d).Linked (.file g) → Named d g → g ≠ f →
      (tree sRoot true d').From (.file f) (.file g) →
        Names d (elements path) sRoot f ∧ (tree sRoot true d).From (.file f) (.file g) := by
  have hopen : ∀ {d₁}, Adds Within sRoot true d d₁ → fileOpen d₁ path = some (.ok f, d') →
      Named d' f ∧ ∀ g, (tree sRoot true d).Linked (.file g) → Named d g → g ≠ f →
        (tree sRoot true d').From (.file f) (.file g) →
          Names d (elements path) sRoot f ∧ (tree sRoot true d).From (.file f) (.file g) := by
    intro d₁ hA h1
    obtain ⟨hA₁, hn, h2, h3⟩ := fileOpen_named (hA.valid ho.valid) h1
    have h4 := names_of_adds hA ho.valid .refl (fun name hm => ⟨elements_good path name hm, h3 name hm⟩) h2
    exact ⟨hn, fun g hg _ _ h5 =>
      ⟨h4, Moves.from_back (Adds.moves (hA.trans hA₁)) ho.valid (names_linked .refl h4) hg h5⟩⟩
  unfold openPath at h
  split at h
  · obtain ⟨⟨r₁, d₁⟩, h1, h2⟩ := Option.bind_eq_some_iff.1 h
    rcases r₁ with e | k
    · dsimp only at h2
      split at h2
      · rename_i he
        rw [he.2] at h1
        exact hopen (fileCreate_exists ho.valid h1) h2
      · cases h2
    · simp only [Option.some.injEq, Prod.mk.injEq, Except.ok.injEq] at h2
      obtain ⟨rfl, rfl⟩ := h2
      obtain ⟨h3, h4⟩ := fileCreate_new ho h1
      exact ⟨h3, fun g hg hng _ h5 => absurd h5 (h4 g hg hng).2⟩
  · exact hopen .refl h

/-- Files with a name are not made anew. -/
theorem madeBy_eq {made : ℕ → ℕ} (ho : Orderly d) (hg : (tree sRoot true d).Linked (.file g))
    (hn : Named d g) : madeBy page d made g = made g := by
  unfold madeBy
  split
  · generalize h : fileCreate d (reqPath page) = o
    rcases o with _ | ⟨_ | f, d'⟩
    · rfl
    · rfl
    · exact Function.update_of_ne ((fileCreate_new ho h).2 g hg hn).1 ..
  · rfl

/-! ## Files that stay open -/

/-- The files of the set `L` are linked and named. -/
def Stay (L : Set ℕ) (d : Bytes) : Prop := ∀ g ∈ L, (tree sRoot true d).Linked (.file g) ∧ Named d g

theorem Stay.moves (hL : Stay L d) (hv : Valid sRoot true d) (h : Moves P sRoot true d d') :
    Stay L d' := fun g hg =>
  ⟨Moves.linked h hv (hL g hg).1, Moves.named h hv (hL g hg).1 (hL g hg).2⟩

theorem Keeps.named (h : Keeps d d' g) (hn : Named d g) : Named d' g := by
  unfold Named at *
  rw [h.head.nameFree_eq]
  exact hn

/-- Files stay when the size of one is set, unless they lie below it. -/
theorem Stay.fileSetSize (hL : Stay L d) (ho : Orderly d)
    (hf : (tree sRoot true d).Linked (.file f)) (hn : Named d f)
    (hb : ∀ g ∈ L, g ≠ f → ¬ (tree sRoot true d).From (.file f) (.file g))
    (h : Fs.fileSetSize d f z = some d') :
    Stay L d' ∧ (tree sRoot true d').Linked (.file f) ∧ Named d' f := by
  have hf' : (tree sRoot true d').Linked (.file f) ∧ Named d' f := by
    unfold Fs.fileSetSize at h
    split at h
    · obtain ⟨d₁, h1, rfl⟩ := Option.map_eq_some_iff.1 h
      obtain ⟨hD, -, -⟩ := fileTruncateBlocks_drops ho.valid hf h1
      obtain ⟨hv₁, hf₁⟩ := hD.valid ho.valid hf
      refine ⟨(hv₁.sound.same_size hf₁).linked.2 hf₁, named_setFSize hv₁.sound hf₁ hf₁ ?_⟩
      unfold Named at *
      rw [(hD.head ho.valid hf).nameFree_eq]
      exact hn
    · obtain rfl := Option.some.inj h
      exact ⟨(ho.valid.sound.same_size hf).linked.2 hf, named_setFSize ho.valid.sound hf hf hn⟩
  refine ⟨fun g hg => ?_, hf'⟩
  by_cases he : g = f
  · rw [he]
    exact hf'
  · obtain ⟨h1, h2⟩ := fileSetSize_keeps ho.valid hf (hL g hg).1 he (hb g hg he) h
    exact ⟨h1, h2.named (hL g hg).2⟩

/-- **Opening keeps the files that are open**, and gives one that stays, if no file of `L` lies
below one that is truncated. -/
theorem serveOpen_open {pg : Option ℕ} {res : ℤ} (hL : Stay L σ.disk) (ho : Orderly σ.disk)
    (hb : page.load32 1024 &&& oTrunc ≠ 0 → ∀ f, Names σ.disk (elements (reqPath page)) sRoot f →
      ∀ g ∈ L, g ≠ f → ¬ (tree sRoot true σ.disk).From (.file f) (.file g))
    (h : serveOpen mem page σ = some (res, pg, σ')) :
    Orderly σ'.disk ∧ Stay L σ'.disk ∧
      ∀ f d, openPath σ.disk (reqPath page) (page.load32 1024) = some (.ok f, d) → pg ≠ none →
        (tree sRoot true σ'.disk).Linked (.file f) ∧ Named σ'.disk f := by
  unfold serveOpen at h
  generalize openfileAlloc mem σ.opentab = o at h
  obtain ⟨r₀, _ | i, t⟩ := o
  · cases h
    exact ⟨ho, hL, fun _ _ _ h => absurd rfl h⟩
  dsimp only at h
  split at h
  · cases h
    exact ⟨ho, hL, fun _ _ _ h => absurd rfl h⟩
  obtain ⟨⟨res, d₁⟩, h1, h2⟩ := Option.bind_eq_some_iff.1 h
  obtain ⟨hM, hl⟩ := openPath_moves dirsIn_within ho.valid h1
  have ho₁ := ho.moves hM
  have hL₁ := hL.moves ho.valid hM
  rcases res with e | f
  · cases h2
    exact ⟨ho₁, hL₁, fun _ _ _ h => absurd rfl h⟩
  obtain ⟨d₂, h3, h4⟩ := Option.bind_eq_some_iff.1 h2
  simp only [Option.some.injEq, Prod.mk.injEq] at h4
  obtain ⟨-, -, rfl⟩ := h4
  obtain ⟨hn, hbelow⟩ := openPath_named ho h1
  generalize elements (reqPath page) = els at hb hbelow
  have hgoal : Orderly d₂ ∧ Stay L d₂ ∧ (tree sRoot true d₂).Linked (.file f) ∧ Named d₂ f := by
    unfold truncOpen at h3
    split at h3
    · rename_i ht
      refine ⟨ho₁.fileSetSize (hl f rfl) (fun _ => ⟨le_rfl, by omega, by omega⟩) h3,
        hL₁.fileSetSize ho₁ (hl f rfl) hn (fun g hg hne h5 => ?_) h3⟩
      obtain ⟨h6, h7⟩ := hbelow g (hL g hg).1 (hL g hg).2 hne h5
      exact hb ht f h6 g hg hne h7
    · obtain rfl := Option.some.inj h3
      exact ⟨ho₁, hL₁, hl f rfl, hn⟩
  refine ⟨hgoal.1, hgoal.2.1, fun f' d h5 _ => ?_⟩
  rw [h1] at h5
  simp only [Option.some.injEq, Prod.mk.injEq, Except.ok.injEq] at h5
  rw [← h5.1]
  exact hgoal.2.2

/-! ## Reading and writing -/

/-- **A read** adds blocks below the size of its file, and copies bytes of the file only. -/
theorem fileRead_slice {count : ℕ} {res : ℤ × List Byte} (hv : Valid sRoot true d)
    (hf : (tree sRoot true d).Linked (.file f)) (h1 : -2 ^ 31 ≤ pos)
    (hok : pos < fSize d f → WriteOk pos (min count (u64 (fSize d f - pos))))
    (h : fileRead d f count pos = some (res, d')) :
    Adds (Under f) sRoot true d d' ∧ ∃ p n, res.2 = (List.range n).map fun k => fileByte d f (p + k) := by
  have hsz := fSize_lt d f
  have h := h
  unfold fileRead at h
  split at h
  · cases h
    exact ⟨.refl, 0, 0, rfl⟩
  rename_i hlt
  obtain ⟨⟨⟨r, bs⟩, d₁⟩, h2, h3⟩ := Option.bind_eq_some_iff.1 h
  simp only [Option.some.injEq, Prod.mk.injEq] at h3
  obtain ⟨rfl, rfl⟩ := h3
  have hk : u64 (fSize d f - pos) = (fSize d f - pos).toNat := u64_of_nonneg (by omega) (by omega)
  have hok := hok (by omega)
  rw [hk] at h2 hok
  by_cases h0 : 0 ≤ pos
  · rw [u64_of_nonneg (by omega) (by omega)] at h2
    obtain ⟨h4, -⟩ := fileReadLoop_slice hv hf h0 (by omega) (by omega) (by omega) h2
    exact ⟨fileReadLoop_adds hv hf (fun n hn => ⟨rfl, by have := hn h0; omega⟩) h2, pos.toNat, bs.length, h4⟩
  · obtain ⟨r', h4, -⟩ := fileReadLoop_skip (f := f) (d := d) (by omega) h1 hok (by omega)
    rw [h4] at h2
    cases h2
    exact ⟨.refl, 0, 0, rfl⟩

/-- A write to a regular file keeps the files that are open. -/
theorem Stay.fileWrite {buf : List Byte} {res : ℤ} (hL : Stay L d) (hv : Valid sRoot true d)
    (hf : f ∈ L) (ht : fType d f ≠ ftypeDir) (h1 : -2 ^ 31 ≤ pos) (hl : buf.length < 2 ^ 32)
    (hok : WriteOk pos buf.length) (ho : Orderly d) (h : Fs.fileWrite d f buf pos = some (res, d')) :
    Stay L d' := by
  obtain ⟨d₁, h2, h3⟩ := Option.bind_eq_some_iff.1 h
  obtain ⟨⟨r₁, d₂⟩, h4, h5⟩ := Option.bind_eq_some_iff.1 h3
  simp only [Option.some.injEq, Prod.mk.injEq] at h5
  rw [← h5.2]
  have hL₁ : Stay L d₁ := by
    unfold extendTo at h2
    split at h2
    · exact (hL.fileSetSize ho (hL f hf).1 (hL f hf).2 (fun g _ hne h6 => hne (regular_from ht h6)) h2).1
    · obtain rfl := Option.some.inj h2
      exact hL
  obtain ⟨hv₁, hf₁, ho₁⟩ := extendTo_valid hv (hL f hf).1 (opens_regular ht) h2
  by_cases h0 : 0 ≤ pos
  · exact hL₁.moves hv₁ (fileWriteLoop_moves (P := Only f) hv₁ hf₁ ho₁ h0 (fun _ _ => rfl) h4)
  · obtain ⟨res, h6, -⟩ := fileWriteLoop_skip (f := f) (d := d₁) _ (by omega) h1 hok hl
    rw [h6] at h4
    cases h4
    exact hL₁

/-- Removing a file keeps those that are not below it. -/
theorem Stay.fileRemove {res : ℤ} (hL : Stay L d) (ho : Orderly d)
    (hb : ∀ f, Names d (elements path) sRoot f → ∀ g ∈ L, ¬ (tree sRoot true d).From (.file f) (.file g))
    (h : Fs.fileRemove d path = some (res, d')) : Stay L d' := by
  obtain ⟨⟨w, d₁⟩, h1, h2⟩ := Option.bind_eq_some_iff.1 h
  obtain ⟨hA, hok⟩ := walkPath_adds dirsIn_within ho.valid h1
  have hL₁ := hL.moves ho.valid hA.moves
  have hv₁ := hA.valid ho.valid
  rcases w with ⟨dir, f⟩ | ⟨r, last⟩
  · obtain ⟨d₂, h3, h4⟩ := Option.bind_eq_some_iff.1 h2
    simp only [Option.some.injEq, Prod.mk.injEq] at h4
    obtain ⟨hD, -, -⟩ := fileTruncateBlocks_drops hv₁ hok.1 h3
    obtain ⟨hv₂, hf₂⟩ := hD.valid hv₁ hok.1
    have hsame : Same sRoot true d₂ (d₂.write f [0]) := hv₂.sound.same_head hf₂ le_rfl (by simp)
    rw [← h4.2]
    intro g hg
    have h5 : ¬ (tree sRoot true d₁).From (.file f) (.file g) := fun h5 =>
      hb f hok.2.2 g hg (Moves.from_back hA.moves ho.valid (names_linked .refl hok.2.2) (hL g hg).1 h5)
    have hne : g ≠ f := by
      rintro rfl
      exact h5 .refl
    obtain ⟨hg₂, hk₂⟩ := hD.keeps hv₁ hok.1 (hL₁ g hg).1 hne h5
    have hk₃ : Keeps d₂ (d₂.write f [0]) g := keeps_name hv₂.sound hf₂ hg₂ hne (by simp)
    have hs₃ := hsame.sound hv₂.sound
    have hg₃ := hsame.linked.2 hg₂
    have hf₃ := hsame.linked.2 hf₂
    have hk₄ : Keeps (d₂.write f [0]) (setFSize (d₂.write f [0]) f 0) g := keeps_size hs₃ hf₃ hg₃ hne
    exact ⟨(hs₃.same_size hf₃).linked.2 hg₃, (hk₂.trans (hk₃.trans hk₄)).named (hL₁ g hg).2⟩
  · simp only [Option.some.injEq, Prod.mk.injEq] at h2
    rw [← h2.2]
    exact hL₁

/-! ## Requests -/

/-- A request that leaves the files of `L` in place: none lies below a directory that is
truncated, or is removed or lies below a file that is; and reads and writes stay inside the
blocks of their file, which is a regular one for a write. -/
def Safe (L : Set ℕ) (req : BitVec 32) (page : Bytes) (σ : Server) : Prop :=
  match req.toNat with
  | 1 => page.load32 1024 &&& oTrunc ≠ 0 → ∀ f, Names σ.disk (elements (reqPath page)) sRoot f →
      ∀ g ∈ L, g ≠ f → ¬ (tree sRoot true σ.disk).From (.file f) (.file g)
  | 2 => ∀ f, ReqFile page σ f → fType σ.disk f = ftypeDir →
      (0 ≤ (page.load32 4).toInt ∧ (page.load32 4).toInt % 4096 = 0) ∧
        ∀ g ∈ L, g ≠ f → ¬ (tree sRoot true σ.disk).From (.file f) (.file g)
  | 3 => ∀ i f, openfileLookup σ.opentab (page.load32 0) = .ok i → (σ.opentab i).file = some f →
      (σ.opentab i).fd.offset.toInt < fSize σ.disk f → WriteOk (σ.opentab i).fd.offset.toInt
        (min (reqN page) (u64 (fSize σ.disk f - (σ.opentab i).fd.offset.toInt)))
  | 4 => ∀ i f, openfileLookup σ.opentab (page.load32 0) = .ok i → (σ.opentab i).file = some f →
      fType σ.disk f ≠ ftypeDir ∧ WriteOk (σ.opentab i).fd.offset.toInt (reqN page)
  | 7 => ∀ f, Names σ.disk (elements (reqPath page)) sRoot f →
      ∀ g ∈ L, ¬ (tree sRoot true σ.disk).From (.file f) (.file g)
  | _ => True

/-- What a read does. -/
theorem serveRead_cases {res : ℤ} {page' : Bytes} (ho : Orderly σ.disk)
    (hL : ∀ f, ReqFile page σ f → (tree sRoot true σ.disk).Linked (.file f))
    (hc : Safe L 3 page σ) (h : serveRead page σ = some (res, page', σ')) :
    (page' = page ∧ σ' = σ) ∨ ∃ f, ReqFile page σ f ∧ Adds (Under f) sRoot true σ.disk σ'.disk ∧
      ∃ p n, page' = page.write 0 ((List.range n).map fun k => fileByte σ.disk f (p + k)) := by
  unfold serveRead at h
  split at h
  · cases h
    exact Or.inl ⟨rfl, rfl⟩
  · rename_i i hi
    obtain ⟨f, hfile, h2⟩ := Option.bind_eq_some_iff.1 h
    obtain ⟨⟨⟨r, bs⟩, d⟩, h3, h4⟩ := Option.bind_eq_some_iff.1 h2
    have hreq : ReqFile page σ f := ⟨i, hi, hfile⟩
    obtain ⟨hA, p, n, rfl⟩ := fileRead_slice ho.valid (hL f hreq) (σ.opentab i).fd.offset.le_toInt
      (hc i f hi hfile) h3
    refine Or.inr ⟨f, hreq, ?_⟩
    dsimp only at h4
    split at h4
    · cases h4
      exact ⟨hA, p, n, rfl⟩
    · cases h4
      exact ⟨hA, p, n, rfl⟩

/-- What a write does. -/
theorem serveWrite_cases {res : ℤ} (hc : Safe L 4 page σ) (h : serveWrite page σ = some (res, σ')) :
    σ' = σ ∨ ∃ i f r, openfileLookup σ.opentab (page.load32 0) = .ok i ∧ (σ.opentab i).file = some f ∧
      fType σ.disk f ≠ ftypeDir ∧ WriteOk (σ.opentab i).fd.offset.toInt (reqN page) ∧
      Fs.fileWrite σ.disk f (reqBuf page σ.disk (reqN page)) (σ.opentab i).fd.offset.toInt =
        some (r, σ'.disk) := by
  unfold serveWrite at h
  split at h
  · cases h
    exact Or.inl rfl
  · rename_i i hi
    obtain ⟨f, hfile, h2⟩ := Option.bind_eq_some_iff.1 h
    obtain ⟨⟨r, d⟩, h3, h4⟩ := Option.bind_eq_some_iff.1 h2
    have h5 := hc i f hi hfile
    refine Or.inr ⟨i, f, r, hi, hfile, h5.1, h5.2, ?_⟩
    dsimp only at h4
    split at h4
    · cases h4
      exact h3
    · cases h4
      exact h3

/-- **The other requests** keep the files that are open. -/
theorem handle_open (hreq : req.toNat ≠ 1) (hL : Stay L σ.disk) (ho : Orderly σ.disk)
    (hfile : ∀ f, ReqFile page σ f → f ∈ L) (hc : Safe L req page σ)
    (h : handle mem req page σ = some rep) : Orderly rep.server.disk ∧ Stay L rep.server.disk := by
  unfold handle at h
  split at h
  · rename_i h1
    exact absurd h1 hreq
  · rename_i hr
    obtain ⟨⟨r, σ'⟩, h1, rfl⟩ := Option.map_eq_some_iff.1 h
    unfold serveSetSize at h1
    split at h1
    · cases h1
      exact ⟨ho, hL⟩
    · rename_i i hi
      obtain ⟨f, hf, h2⟩ := Option.bind_eq_some_iff.1 h1
      obtain ⟨d, h3, h4⟩ := Option.bind_eq_some_iff.1 h2
      cases h4
      unfold Safe at hc
      rw [hr] at hc
      have h5 := hc f ⟨i, hi, hf⟩
      obtain ⟨hl, hn⟩ := hL f (hfile f ⟨i, hi, hf⟩)
      have h6 := (page.load32 4).toInt_lt
      refine ⟨ho.fileSetSize hl (fun ht => ⟨(h5 ht).1.1, h6, (h5 ht).1.2⟩) h3,
        (hL.fileSetSize ho hl hn (fun g hg hne h7 => ?_) h3).1⟩
      by_cases ht : fType σ.disk f = ftypeDir
      · exact (h5 ht).2 g hg hne h7
      · exact hne (regular_from ht h7)
  · rename_i hr
    obtain ⟨⟨r, page', σ'⟩, h1, rfl⟩ := Option.map_eq_some_iff.1 h
    have hc' : Safe L 3 page σ := by
      unfold Safe at *
      rw [hr] at hc
      exact hc
    rcases serveRead_cases ho (fun f hf => (hL f (hfile f hf)).1) hc' h1 with ⟨-, rfl⟩ | ⟨f, hf, hA, -⟩
    · exact ⟨ho, hL⟩
    · obtain ⟨hl, hn⟩ := hL f (hfile f hf)
      exact ⟨ho.adds_under hl hn hA, hL.moves ho.valid hA.moves⟩
  · rename_i hr
    obtain ⟨⟨r, σ'⟩, h1, rfl⟩ := Option.map_eq_some_iff.1 h
    have hc' : Safe L 4 page σ := by
      unfold Safe at *
      rw [hr] at hc
      exact hc
    rcases serveWrite_cases hc' h1 with rfl | ⟨i, f, r, hi, hf, ht, hok, h2⟩
    · exact ⟨ho, hL⟩
    · have hm := hfile f ⟨i, hi, hf⟩
      have h3 := (σ.opentab i).fd.offset.le_toInt
      have h4 := reqN_le page
      have h5 : (reqBuf page σ.disk (reqN page)).length < 2 ^ 32 := by
        rw [reqBuf_length]
        omega
      rw [← reqBuf_length page σ.disk (reqN page)] at hok
      exact ⟨ho.fileWrite (hL f hm).1 ht h3 h5 hok h2, hL.fileWrite ho.valid hm ht h3 h5 hok ho h2⟩
  · obtain ⟨⟨r, page', σ'⟩, h1, rfl⟩ := Option.map_eq_some_iff.1 h
    unfold serveStat at h1
    split at h1
    · cases h1
      exact ⟨ho, hL⟩
    · obtain ⟨f, -, h2⟩ := Option.bind_eq_some_iff.1 h1
      cases h2
      exact ⟨ho, hL⟩
  · obtain ⟨⟨r, σ'⟩, h1, rfl⟩ := Option.map_eq_some_iff.1 h
    unfold serveFlush at h1
    split at h1
    · cases h1
      exact ⟨ho, hL⟩
    · obtain ⟨f, -, h2⟩ := Option.bind_eq_some_iff.1 h1
      cases h2
      exact ⟨ho, hL⟩
  · rename_i hr
    unfold Safe at hc
    rw [hr] at hc
    generalize hs : serveRemove page σ = o at h
    obtain ⟨⟨r, σ'⟩, rfl, rfl⟩ := Option.map_eq_some_iff.1 h
    unfold serveRemove at hs
    generalize hrm : Fs.fileRemove σ.disk (reqPath page) = o at hs
    obtain ⟨⟨r', d⟩, rfl, h2⟩ := Option.bind_eq_some_iff.1 hs
    cases h2
    exact ⟨ho.fileRemove hrm, hL.fileRemove ho hc hrm⟩
  · cases h
    exact ⟨ho, hL⟩
  · cases h
    exact ⟨ho, hL⟩

/-- **A read or write** keeps every file but its own, and copies bytes of this file only. -/
theorem handle_only (hreq : req.toNat = 3 ∨ req.toNat = 4) (hL : Stay L σ.disk) (ho : Orderly σ.disk)
    (hfile : ∀ f, ReqFile page σ f → f ∈ L) (hc : Safe L req page σ) (hf : ReqFile page σ f)
    (h : handle mem req page σ = some rep) :
    (∀ g, (tree sRoot true σ.disk).Linked (.file g) → g ≠ f → Keeps σ.disk rep.server.disk g) ∧
      ∃ p n, rep.page = page.write 0 ((List.range n).map fun k => fileByte σ.disk f (p + k)) := by
  have huniq : ∀ {k}, ReqFile page σ k → k = f := by
    rintro k ⟨i, h1, h2⟩
    obtain ⟨j, h3, h4⟩ := hf
    rw [h1] at h3
    cases h3
    rw [h2] at h4
    exact Option.some.inj h4
  have hnone : ∀ p : Bytes, p = p.write 0 [] := fun p => by
    unfold Bytes.write
    simp
  unfold handle at h
  unfold Safe at hc
  rcases hreq with hreq | hreq
  · rw [hreq] at h hc
    obtain ⟨⟨r, page', σ'⟩, h1, rfl⟩ := Option.map_eq_some_iff.1 h
    rcases serveRead_cases (L := L) ho (fun f hf => (hL f (hfile f hf)).1) hc h1 with
      ⟨rfl, rfl⟩ | ⟨k, hk, hA, p, n, rfl⟩
    · exact ⟨fun _ _ _ => .refl, 0, 0, hnone _⟩
    · obtain rfl := huniq hk
      exact ⟨fun g hg hne => hA.keeps (fun _ _ _ _ h => h.1) ho.valid hg hne, p, n, rfl⟩
  · rw [hreq] at h hc
    obtain ⟨⟨r, σ'⟩, h1, rfl⟩ := Option.map_eq_some_iff.1 h
    rcases serveWrite_cases (L := L) hc h1 with rfl | ⟨i, k, r, hi, hk, ht, hok, h2⟩
    · exact ⟨fun _ _ _ => .refl, 0, 0, hnone _⟩
    · obtain rfl := huniq ⟨i, hi, hk⟩
      have h4 := reqN_le page
      rw [← reqBuf_length page σ.disk (reqN page)] at hok
      refine ⟨fun g hg hne => (fileWrite_keeps ho.valid (hL k (hfile k hf)).1 ht
        (σ.opentab i).fd.offset.le_toInt ?_ hok hg hne h2).2, 0, 0, hnone _⟩
      rw [reqBuf_length]
      omega

/-! ## Ids over time -/

/-- The files of the entries that clients map. -/
def openFiles (T : Table) : Set ℕ :=
  {f | ∃ i < maxOpen, 0 < T.maps i ∧ (T.server.opentab i).file = some f}

/-- A request that leaves the files that are open in place. -/
def IdSafe (req : BitVec 32) (page : Bytes) (T : Table) : Prop := Safe (openFiles T) req page T.server

/-- The files that are open are linked and named, and were not created anew. -/
structure Ids (W : World) : Prop where
  table : Inv W.table
  disk : Orderly W.table.server.disk
  unused : ∀ i < maxOpen, (W.table.server.opentab i).ref = 0 → (W.table.server.opentab i).file = none
  stay : Stay (openFiles W.table) W.table.server.disk
  same : ∀ i < maxOpen, 0 < W.table.maps i → ∀ f, (W.table.server.opentab i).file = some f →
    W.made f = W.gen i

theorem init_ids (h : Consistent d) : Ids (World.init d) :=
  ⟨init_inv, h.orderly, fun _ _ _ => rfl, fun _ ⟨_, _, h, _⟩ => absurd h (lt_irrefl 0),
    fun _ _ h => absurd h (lt_irrefl 0)⟩

theorem IdStep.table {C : BitVec 32 → Bytes → Table → Prop} (h : IdStep C W W') :
    TableStep W.table W'.table := by
  cases h with
  | opened _ h1 h2 => exact .opened h1 h2
  | openedOnly _ h1 h2 => exact .openedOnly h1 h2
  | failed _ h1 => exact .failed h1
  | request h1 _ h2 => exact .request h1 h2
  | store fd h => exact .store fd h
  | unmap h => exact .unmap h

/-- The file of a request is open. -/
theorem Ids.reqFile (h : Ids W) (hf : ReqFile page W.table.server f) : f ∈ openFiles W.table := by
  obtain ⟨i, h1, h2⟩ := hf
  unfold openfileLookup at h1
  dsimp only at h1
  split at h1
  · cases h1
  · rename_i h3
    simp only [not_or, not_not, Except.ok.injEq] at h1 h3
    subst h1
    have hi := mod_maxOpen (page.load32 0)
    refine ⟨_, hi, ?_, h2⟩
    rcases (h.table _ hi).ref with h4 | h4
    · rw [h.unused _ hi h4] at h2
      cases h2
    · have := h3.1
      omega

/-- What a step has to keep, of the entries that clients map and of the one that is opened. -/
theorem Ids.keep (h : Ids W) (ht : TableStep W.table W'.table) (hd : Orderly W'.table.server.disk)
    (hs : Stay (openFiles W.table) W'.table.server.disk)
    (hu : ∀ j < maxOpen, (W'.table.server.opentab j).ref = 0 → (W.table.server.opentab j).ref = 0 ∧
      (W'.table.server.opentab j).file = (W.table.server.opentab j).file)
    (hl : ∀ j < maxOpen, 0 < W'.table.maps j →
      (0 < W.table.maps j ∧ (W'.table.server.opentab j).file = (W.table.server.opentab j).file ∧
        W'.gen j = W.gen j) ∨
      ∀ f, (W'.table.server.opentab j).file = some f →
        ((tree sRoot true W'.table.server.disk).Linked (.file f) ∧ Named W'.table.server.disk f) ∧
          W'.made f = W'.gen j)
    (hm : ∀ f ∈ openFiles W.table, W'.made f = W.made f) : Ids W' := by
  refine ⟨step_inv h.table ht, hd, fun j hj h1 => ?_, ?_, fun j hj h1 f h2 => ?_⟩
  · obtain ⟨h2, h3⟩ := hu j hj h1
    rw [h3]
    exact h.unused j hj h2
  · rintro f ⟨j, hj, h1, h2⟩
    rcases hl j hj h1 with ⟨h3, h4, -⟩ | h3
    · exact hs f ⟨j, hj, h3, h4.symm.trans h2⟩
    · exact (h3 f h2).1
  · rcases hl j hj h1 with ⟨h3, h4, h5⟩ | h3
    · rw [h4] at h2
      rw [h5, hm f ⟨j, hj, h3, h2⟩]
      exact h.same j hj h3 f h2
    · exact (h3 f h2).2

/-- **Every step keeps the ids.** -/
theorem step_ids (h : Ids W) (hstep : IdStep IdSafe W W') : Ids W' := by
  have ht := hstep.table
  cases hstep with
  | @opened mem page d f i r σ hc ho hs =>
    obtain ⟨hd, hst, hf⟩ := serveOpen_open h.stay h.disk hc hs
    have hf := hf f d ho nofun
    obtain ⟨h1, -⟩ | ⟨k, hk, hne, -, hr, hok⟩ := serveOpen_cases hs
    · cases h1
    -- the entry was free, so no client has its id
    obtain ⟨hik, -, hfile⟩ := hok.resolve_left nofun
    obtain rfl := Option.some.inj hik
    have hfile := hfile f d ho
    have hmade : ∀ g ∈ openFiles W.table, madeBy page W.table.server.disk W.made g = W.made g :=
      fun g hg => madeBy_eq h.disk (h.stay g hg).1 (h.stay g hg).2
    refine h.keep ht hd hst (fun j hj h1 => ?_) (fun j hj h1 => ?_) hmade
    · by_cases hji : j = i
      · rw [hji] at h1
        dsimp only at h1
        rw [setRef_self] at h1
        cases h1
      · dsimp only at h1 ⊢
        rw [setRef_ne hji, hne j hji] at h1 ⊢
        exact ⟨h1, rfl⟩
    · by_cases hji : j = i
      · refine Or.inr fun g hg => ?_
        rw [hji] at hg ⊢
        dsimp only at hg ⊢
        rw [setRef_self] at hg
        dsimp only at hg
        rw [hfile] at hg
        obtain rfl := Option.some.inj hg
        rw [Function.update_self]
        exact ⟨hf, rfl⟩
      · left
        dsimp only at h1 ⊢
        rw [Function.update_of_ne hji] at h1
        rw [setRef_ne hji, hne j hji, Function.update_of_ne hji]
        exact ⟨h1, rfl, rfl⟩
  | @openedOnly mem page d f i r σ hc ho hs =>
    obtain ⟨hd, hst, -⟩ := serveOpen_open h.stay h.disk hc hs
    obtain ⟨h1, -⟩ | ⟨k, hk, hne, -, hr, hok⟩ := serveOpen_cases hs
    · cases h1
    obtain ⟨hik, -⟩ := hok.resolve_left nofun
    obtain rfl := Option.some.inj hik
    -- the page of the entry is mapped by no client, who would name its file
    have hidle := (h.table i (freeEntry_some hk).1).idle_maps (freeEntry_some hk).2
    have hmade : ∀ g ∈ openFiles W.table, madeBy page W.table.server.disk W.made g = W.made g :=
      fun g hg => madeBy_eq h.disk (h.stay g hg).1 (h.stay g hg).2
    refine h.keep ht hd hst (fun j hj h1 => ?_) (fun j hj h1 => Or.inl ?_) hmade
    · by_cases hji : j = i
      · rw [hji] at h1
        dsimp only at h1
        rw [hr] at h1
        cases h1
      · dsimp only at h1 ⊢
        rw [hne j hji] at h1 ⊢
        exact ⟨h1, rfl⟩
    · have hji : j ≠ i := by
        rintro rfl
        rw [hidle] at h1
        exact absurd h1 (lt_irrefl 0)
      dsimp only at h1 ⊢
      rw [hne j hji, Function.update_of_ne hji]
      exact ⟨h1, rfl, rfl⟩
  | @failed mem page r σ hc hs =>
    obtain ⟨hd, hst, -⟩ := serveOpen_open h.stay h.disk hc hs
    -- an open that fails has taken an entry, or none
    rcases serveOpen_cases hs with ⟨-, h1⟩ | ⟨k, hk, hne, -, hr, -⟩
    · refine h.keep ht hd hst (fun j hj h2 => ?_) (fun j hj h2 => Or.inl ?_) fun _ _ => rfl
      · dsimp only at h2 ⊢
        rw [h1] at h2 ⊢
        exact ⟨h2, rfl⟩
      · dsimp only at h2 ⊢
        rw [h1]
        exact ⟨h2, rfl, rfl⟩
    · have hidle := (h.table k (freeEntry_some hk).1).idle_maps (freeEntry_some hk).2
      refine h.keep ht hd hst (fun j hj h1 => ?_) (fun j hj h1 => Or.inl ?_) fun _ _ => rfl
      · by_cases hjk : j = k
        · rw [hjk] at h1
          dsimp only at h1
          rw [hr] at h1
          cases h1
        · dsimp only at h1 ⊢
          rw [hne j hjk] at h1 ⊢
          exact ⟨h1, rfl⟩
      · have hjk : j ≠ k := by
          rintro rfl
          rw [hidle] at h1
          exact absurd h1 (lt_irrefl 0)
        dsimp only at h1 ⊢
        rw [hne j hjk]
        exact ⟨h1, rfl, rfl⟩
  | @request mem req page rep hreq hc hh =>
    have hent := handle_entries hreq hh
    obtain ⟨hd, hst⟩ := handle_open hreq h.stay h.disk (fun f hf => h.reqFile hf) hc hh
    refine h.keep ht hd hst (fun j hj h1 => ?_) (fun j hj h1 => Or.inl ⟨h1, (hent j).2.2, rfl⟩) fun _ _ => rfl
    rw [(hent j).2.1] at h1
    exact ⟨h1, (hent j).2.2⟩
  | @store i fd hi =>
    have hent := sameEntries_fd (σ := W.table.server) (i := i) fd
    refine h.keep ht h.disk h.stay (fun j hj h1 => ?_) (fun j hj h1 => Or.inl ⟨h1, (hent j).2.2, rfl⟩)
      fun _ _ => rfl
    rw [(hent j).2.1] at h1
    exact ⟨h1, (hent j).2.2⟩
  | @unmap i hi =>
    have hfile : ∀ j k, ((setRef W.table.server i k).opentab j).file = (W.table.server.opentab j).file := by
      intro j k
      by_cases hji : j = i
      · rw [hji, setRef_self]
      · rw [setRef_ne hji]
    refine h.keep ht h.disk h.stay (fun j hj h1 => ?_) (fun j hj h1 => Or.inl ⟨?_, hfile j _, rfl⟩)
      fun _ _ => rfl
    · refine ⟨?_, hfile j _⟩
      by_cases hji : j = i
      · rw [hji] at h1 hj
        dsimp only at h1
        rw [setRef_self] at h1
        dsimp only at h1
        -- the count goes from 2 to 1 here
        rcases (h.table i hj).ref with h2 | h2
        · rw [hji]
          exact h2
        · omega
      · dsimp only at h1
        rw [setRef_ne hji] at h1
        exact h1
    · by_cases hji : j = i
      · rw [hji]
        exact hi
      · dsimp only at h1
        rw [Function.update_of_ne hji] at h1
        exact h1

theorem run_ids (h : Ids W) (hr : IdRun IdSafe W W') : Ids W' := by
  induction hr with
  | refl => exact h
  | tail _ h1 ih => exact step_ids ih h1

/-- **Ids keep naming their file**: the id of each entry that a client maps finds the file that
was opened with it, which is not created anew; and a read or write with an id, if it satisfies
`C`, keeps every other file and copies bytes of its own only. -/
structure NamesSame (C : BitVec 32 → Bytes → Table → Prop) (W : World) : Prop where
  same : ∀ i < maxOpen, 0 < W.table.maps i → ∃ id f, W.table.issued i = some (id, f) ∧
    openfileLookup W.table.server.opentab id = .ok i ∧ (W.table.server.opentab i).file = some f ∧
    (tree sRoot true W.table.server.disk).Linked (.file f) ∧ W.made f = W.gen i
  only : ∀ mem req page rep f, req.toNat = 3 ∨ req.toNat = 4 → C req page W.table →
    ReqFile page W.table.server f → handle mem req page W.table.server = some rep →
    (∀ g, (tree sRoot true W.table.server.disk).Linked (.file g) → g ≠ f →
      Keeps W.table.server.disk rep.server.disk g) ∧
    ∃ p n, rep.page = page.write 0 ((List.range n).map fun k => fileByte W.table.server.disk f (p + k))

/-- **Ids keep naming their file** in every run from a consistent image whose requests leave the
files that are open in place. -/
theorem ids_same (h : Consistent d) (hr : IdRun IdSafe (World.init d) W) : NamesSame IdSafe W := by
  have hI := run_ids (init_ids h) hr
  refine ⟨fun i hi hm => ?_, fun mem req page rep f hreq hc hf hh =>
    handle_only hreq hI.stay hI.disk (fun f hf => hI.reqFile hf) hc hf hh⟩
  have hE := hI.table i hi
  obtain ⟨f, h1, h2⟩ := hE.issued hm
  refine ⟨_, f, h1, ?_, h2, (hI.stay f ⟨i, hi, hm, h2⟩).1, hI.same i hi hm f h2⟩
  unfold openfileLookup
  dsimp only
  rw [hE.slot]
  refine if_neg ?_
  rintro (h3 | h3)
  · have := hE.ref
    omega
  · exact h3 rfl

/-! ## Runs -/

/-- A request to open that succeeds, whose Fd page the client maps. -/
def idOpen (page : Bytes) (W : World) : Option World :=
  match openPath W.table.server.disk (reqPath page) (page.load32 1024), serveOpen true page W.table.server with
  | some (.ok f, _), some (_, some i, σ) =>
    some ⟨⟨setRef σ i ((σ.opentab i).ref + 1),
      Function.update W.table.issued i (some ((σ.opentab i).fd.id, f)),
      Function.update W.table.maps i (W.table.maps i + 1)⟩, madeBy page W.table.server.disk W.made,
      Function.update W.gen i (madeBy page W.table.server.disk W.made f)⟩
  | _, _ => none

theorem idOpen_step {C : BitVec 32 → Bytes → Table → Prop} (hc : C 1 page W.table)
    (h : idOpen page W = some W') : IdStep C W W' := by
  unfold idOpen at h
  split at h
  · rename_i f d r i σ ho hs
    obtain rfl := Option.some.inj h
    exact .opened hc ho hs
  · cases h

/-- A request to remove `/a`. -/
def removeA : Bytes := (⟨fun _ => 0⟩ : Bytes).write 0 [0x2F, 0x61]

/-- A request to create `/b`. -/
def createB : Bytes := ((⟨fun _ => 0⟩ : Bytes).write 0 [0x2F, 0x62]).store32 1024 0x102

/-- A run that creates `/a` and writes to it. -/
theorem ids_same_write : ∃ W, IdRun IdSafe (World.init binImage) W ∧ 0 < W.table.maps 0 ∧
    fSize W.table.server.disk (3 * 4096 + 256 * 1) = 2 ∧ NamesSame IdSafe W := by
  have hrun : ((idOpen createA (World.init binImage)).any fun W₁ =>
      decide (reqFile writeHi W₁.table.server = some (3 * 4096 + 256 * 1) ∧ 0 < W₁.table.maps 0 ∧
        fType W₁.table.server.disk (3 * 4096 + 256 * 1) ≠ ftypeDir ∧
        (W₁.table.server.opentab 0).fd.offset.toInt = 0) &&
      (handle true 4 writeHi W₁.table.server).any fun rep =>
        decide (fSize rep.server.disk (3 * 4096 + 256 * 1) = 2)) = true := by
    decide +kernel
  simp only [Option.any_eq_true, Bool.and_eq_true, decide_eq_true_eq] at hrun
  obtain ⟨W₁, h1, ⟨hfile, hm, ht, hoff⟩, rep, h2, hsz⟩ := hrun
  have hc : IdSafe 1 createA (World.init binImage).table := fun h => absurd h (by decide)
  have hs : IdSafe 4 writeHi W₁.table := by
    intro i f hi hif
    have h5 := (reqFile_eq hi hif).symm.trans hfile
    obtain rfl := Option.some.inj h5
    have h6 : openfileLookup W₁.table.server.opentab (writeHi.load32 0) = .ok i := hi
    unfold openfileLookup at h6
    dsimp only at h6
    split at h6
    · cases h6
    · have h7 : i = 0 := (Except.ok.inj h6).symm.trans (by decide)
      rw [h7]
      exact ⟨ht, Or.inl hoff.ge⟩
  have hr : IdRun IdSafe (World.init binImage)
      { W₁ with table := { W₁.table with server := rep.server } } :=
    .tail (.single (idOpen_step hc h1)) (.request (by decide) hs h2)
  exact ⟨_, hr, hm, hsz, ids_same binImage_consistent hr⟩

/-- **This fails**: `/a` is created and removed while it is open, and `/b` takes its entry. -/
theorem ids_same_counterexample : ¬ ∀ d W, Consistent d → IdRun (fun _ _ _ => True) (World.init d) W →
    NamesSame (fun _ _ _ => True) W := by
  intro h
  have hrun : ((idOpen createA (World.init binImage)).any fun W₁ =>
      (handle true 7 removeA W₁.table.server).any fun rep =>
        (idOpen createB { W₁ with table := { W₁.table with server := rep.server } }).any fun W₂ =>
          decide (0 < W₂.table.maps 0 ∧
            (W₂.table.server.opentab 0).file = some (3 * 4096 + 256 * 1) ∧
            W₂.made (3 * 4096 + 256 * 1) = 2 ∧ W₂.gen 0 = 1)) = true := by
    decide +kernel
  simp only [Option.any_eq_true, decide_eq_true_eq] at hrun
  obtain ⟨W₁, h1, rep, h2, W₂, h3, hm, hf, hmade, hgen⟩ := hrun
  have hr : IdRun (fun _ _ _ => True) (World.init binImage) W₂ :=
    .tail (.tail (.single (idOpen_step trivial h1)) (.request (by decide) trivial h2)) (idOpen_step trivial h3)
  obtain ⟨id, f, -, -, h4, -, h5⟩ := (h _ _ binImage_consistent hr).same 0 (by decide) hm
  rw [hf] at h4
  obtain rfl := Option.some.inj h4
  rw [hmade, hgen] at h5
  exact absurd h5 (by decide)

end Jos.Fs
