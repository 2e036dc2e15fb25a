import Jos.Proof.Resolve

/-!
# No name twice

In every run of `file_create` and `file_remove`, no directory has two entries with the same name
(`Once`): the entries of a new block have no names, and `file_create` gives a name only after a search
of all entries of the directory (`walkElements_absent`), to one of them (`dirAllocFile_entry`).
-/

namespace Jos.Fs

open Lib

variable {d d' d₁ : Bytes} {f g m n i j : ℕ} {z : ℤ} {name name' : List Byte} {els : List (List Byte)}
  {path : CString} {P : ℕ → ℕ → Bool → ℤ → Prop}

/-! ## Entries -/

/-- The `j`th entry in the `i`th block of a directory. -/
def entryAt (d : Bytes) (f i j : ℕ) : ℕ := fileBlock d f i * 4096 + 256 * j

/-- A directory entry with a name. -/
structure HasName (d : Bytes) (f i j : ℕ) (name : List Byte) : Prop where
  block : fileBlock d f i ≠ 0
  lt : j < 16
  eq : nameEq name d (entryAt d f i j) = true

/-- **Every name is that of one entry**, in all directories. -/
def Once (d : Bytes) : Prop :=
  ∀ f, (tree sRoot true d).Linked (.file f) → fType d f = ftypeDir →
    ∀ name, GoodName name → name.length < 128 → ∀ i j i' j', HasName d f i j name → HasName d f i' j' name →
      i = i' ∧ j = j'

theorem HasName.linked (h : HasName d f i j name) (hf : (tree sRoot true d).Linked (.file f))
    (ht : fType d f = ftypeDir) : (tree sRoot true d).Linked (.file (entryAt d f i j)) :=
  linked_entry hf (opens_dir ht) h.block h.lt

/-- **Adding blocks** names no entry. -/
theorem HasName.of_adds (h : HasName d' f i j name) (hA : Adds P sRoot true d d') (hv : Valid sRoot true d)
    (hf : (tree sRoot true d).Linked (.file f)) (ht : fType d f = ftypeDir) (hg : GoodName name)
    (hl : name.length < 128) : HasName d f i j name := by
  have h1 : fileBlock d f i = fileBlock d' f i := hA.block_old hv hf ht h.block h.lt (nameFree_of_nameEq hg h.eq)
  have h0 := h.block
  have h2 := h.eq
  unfold entryAt at h2
  rw [← h1] at h0 h2
  refine ⟨h0, h.lt, ?_⟩
  rw [(hA.head hv (linked_entry hf (opens_dir ht) h0 h.lt)).nameEq_eq hl] at h2
  exact h2

/-- A file that was not linked has no blocks yet. -/
theorem HasName.linked_before (h : HasName d' f i j name) (hA : AddStep P sRoot true d d') (hv : Valid sRoot true d)
    (hf : (tree sRoot true d').Linked (.file f)) : (tree sRoot true d).Linked (.file f) :=
  (hA.fileBlock_new hv.sound hf h.block).1

theorem Once.add (ho : Once d) (hv : Valid sRoot true d) (h : AddStep P sRoot true d d') : Once d' := by
  intro f hf ht name hg hl i j i' j' h1 h2
  have hf₀ := h1.linked_before h hv hf
  rw [(h.head hv.sound hf₀).fType_eq] at ht
  exact ho _ hf₀ ht _ hg hl _ _ _ _ (h1.of_adds (.single h) hv hf₀ ht hg hl) (h2.of_adds (.single h) hv hf₀ ht hg hl)

theorem Once.adds (ho : Once d) (hv : Valid sRoot true d) (h : Adds P sRoot true d d') : Once d' :=
  (h.rule hv (I := Once) ho fun _ _ hv₁ h1 h2 => h1.add hv₁ h2).2

/-- So does a change that leaves the slots, and the names of all entries but those of `f`. -/
theorem HasName.of_same (h : HasName d' f i j name) (hs : Same sRoot true d d')
    (hf : (tree sRoot true d).Linked (.file f)) (hn : nameEq name d' (entryAt d f i j) = true →
      nameEq name d (entryAt d f i j) = true) : HasName d f i j name := by
  have h1 : fileBlock d' f i = fileBlock d f i := hs.slotBlock_eq hf
  have h0 := h.block
  have h2 := h.eq
  unfold entryAt at h2
  rw [h1] at h0 h2
  exact ⟨h0, h.lt, hn h2⟩

theorem nameEq_setFSize (hs : Sound sRoot true d) (hf : (tree sRoot true d).Linked (.file f))
    (hg : (tree sRoot true d).Linked (.file g)) (hl : name.length < 128) :
    nameEq name (setFSize d f z) g = nameEq name d g := by
  by_cases he : g = f
  · rw [Bool.eq_iff_iff]
    unfold nameEq setFSize
    simp only [List.all_eq_true, List.mem_range]
    refine forall₂_congr fun k hk => ?_
    rw [he, Bytes.byte_store32_off (by omega)]
  · have h2 : SameHead g d (setFSize d f z) := hs.head_write hf (by omega) (by simp) hg he
    exact h2.nameEq_eq hl

theorem HasName.of_size (h : HasName (setFSize d g z) f i j name) (hs : Sound sRoot true d)
    (hg : (tree sRoot true d).Linked (.file g)) (hf : (tree sRoot true d).Linked (.file f))
    (ht : fType d f = ftypeDir) (hl : name.length < 128) : HasName d f i j name := by
  refine h.of_same (hs.same_size hg) hf fun h1 => ?_
  have h0 : fileBlock d f i ≠ 0 := by
    have h2 : fileBlock (setFSize d g z) f i = fileBlock d f i := (hs.same_size hg).slotBlock_eq hf
    rw [← h2]
    exact h.block
  have h3 : nameEq name (setFSize d g z) (entryAt d f i j) = nameEq name d (entryAt d f i j) :=
    nameEq_setFSize hs hg (linked_entry hf (opens_dir ht) h0 h.lt) hl
  rwa [h3] at h1

theorem Once.setFSize (ho : Once d) (hv : Valid sRoot true d) (hg : (tree sRoot true d).Linked (.file g)) :
    Once (Fs.setFSize d g z) := by
  intro f hf ht name hgood hl i j i' j' h1 h2
  have hsame : Same sRoot true d (Fs.setFSize d g z) := hv.sound.same_size hg
  rw [hsame.linked] at hf
  rw [hsame.type hf] at ht
  exact ho _ hf ht _ hgood hl _ _ _ _ (h1.of_size hv.sound hg hf ht hl) (h2.of_size hv.sound hg hf ht hl)

/-- **Dropping blocks** drops entries. -/
theorem Once.drops (ho : Once d) (hv : Valid sRoot true d) (hg : (tree sRoot true d).Linked (.file g))
    (h : Drops g m d d') : Once d' := by
  refine (h.rule hv hg (I := Once) ho fun d₁ d₂ hv₁ hg₁ h1 h2 => ?_).2.2
  intro f hf ht name hgood hl i j i' j' h3 h4
  have hf₁ := h2.linked_mono hv₁.sound hg₁ hf
  rw [(h2.head hv₁.sound hg₁ hf₁).fType_eq] at ht
  have key : ∀ {i j}, HasName d₂ f i j name → HasName d₁ f i j name := by
    intro i j h5
    have h6 : fileBlock d₁ f i = fileBlock d₂ f i := h2.slot_mono hv₁.sound hg₁ hf h5.block
    have h0 := h5.block
    have h7 := h5.eq
    unfold entryAt at h7
    rw [← h6] at h0 h7
    refine ⟨h0, h5.lt, ?_⟩
    rwa [(h2.head hv₁.sound hg₁ (linked_entry hf₁ (opens_dir ht) h0 h5.lt)).nameEq_eq hl] at h7
  exact h1 _ hf₁ ht _ hgood hl _ _ _ _ (key h3) (key h4)

/-! ## Writing a name -/

theorem HasName.of_write {bs : List Byte} (h : HasName (d.write g bs) f i j name) (hs : Sound sRoot true d)
    (hg : (tree sRoot true d).Linked (.file g)) (hf : (tree sRoot true d).Linked (.file f))
    (ht : fType d f = ftypeDir) (hb : bs.length ≤ 128) (hl : name.length < 128) (hne : entryAt d f i j ≠ g) :
    HasName d f i j name := by
  have hsame : Same sRoot true d (d.write g bs) := hs.same_head hg le_rfl (by omega)
  refine h.of_same hsame hf fun h1 => ?_
  have h0 : fileBlock d f i ≠ 0 := by
    have h2 : fileBlock (d.write g bs) f i = fileBlock d f i := hsame.slotBlock_eq hf
    rw [← h2]
    exact h.block
  have h3 : SameHead (entryAt d f i j) d (d.write g bs) :=
    hs.head_write hg le_rfl (by omega) (linked_entry hf (opens_dir ht) h0 h.lt) hne
  rwa [h3.nameEq_eq hl] at h1

/-- The name written is the only one that the entry has. -/
theorem name_written (hg : GoodName name) (hg' : GoodName name')
    (h : nameEq name (d.write g (name' ++ [0])) g = true) : name = name' := by
  have h1 : ∀ k ≤ name.length, k ≤ name'.length → (name ++ [0]).getD k 0 = (name' ++ [0]).getD k 0 := by
    intro k hk hk'
    have h2 := beq_iff_eq.1 (List.all_eq_true.1 h k (List.mem_range.2 (by omega)))
    have hlt : k < (name' ++ [0]).length := by
      rw [List.length_append]
      exact Nat.lt_succ_of_le hk'
    rw [Bytes.byte_write_in hlt] at h2
    rw [← h2, List.getD_eq_getElem _ _ hlt]
  have hend : ∀ xs : List Byte, (xs ++ [0]).getD xs.length 0 = 0 := by
    intro xs
    rw [List.getD_eq_getElem _ _ (by simp)]
    simp
  have hin : ∀ (xs : List Byte) (k : ℕ) (hk : k < xs.length), (xs ++ [0]).getD k 0 = xs[k] := by
    intro xs k hk
    rw [List.getD_eq_getElem _ _ (by rw [List.length_append]; omega), List.getElem_append_left hk]
  have hlen : name.length = name'.length := by
    rcases Nat.lt_trichotomy name.length name'.length with hlt | heq | hlt
    · -- the terminator of `name` is a character of the other
      have h2 := h1 name.length le_rfl hlt.le
      rw [hend, hin _ _ hlt] at h2
      exact absurd (h2 ▸ List.getElem_mem hlt) hg'.2
    · exact heq
    · have h2 := h1 name'.length hlt.le le_rfl
      rw [hend, hin _ _ hlt] at h2
      exact absurd (h2 ▸ List.getElem_mem hlt) hg.2
  refine List.ext_getElem hlen fun k hk hk' => ?_
  have h2 := h1 k hk.le hk'.le
  rwa [hin _ _ hk, hin _ _ hk'] at h2

/-- **A name that no entry of the directory has** may be given to one. -/
theorem Once.setName (ho : Once d) (hv : Valid sRoot true d) (hf : (tree sRoot true d).Linked (.file f))
    (ht : fType d f = ftypeDir) (h0 : fileBlock d f i ≠ 0) (hj : j < 16) (hgood : GoodName name')
    (hl' : name'.length < 128) (habs : ∀ i j, ¬ HasName d f i j name') :
    Once (d.write (entryAt d f i j) (name' ++ [0])) := by
  have hg : (tree sRoot true d).Linked (.file (entryAt d f i j)) := linked_entry hf (opens_dir ht) h0 hj
  have hb : (name' ++ [0]).length ≤ 128 := by
    rw [List.length_append]
    exact hl'
  have hsame : Same sRoot true d (d.write (entryAt d f i j) (name' ++ [0])) := hv.sound.same_head hg le_rfl (by omega)
  intro k hk htk name hgn hl a b a' b' h1 h2
  rw [hsame.linked] at hk
  rw [hsame.type hk] at htk
  have hblock : ∀ {a b}, HasName (d.write (entryAt d f i j) (name' ++ [0])) k a b name → fileBlock d k a ≠ 0 := by
    intro a b h3
    have h4 : fileBlock (d.write (entryAt d f i j) (name' ++ [0])) k a = fileBlock d k a := hsame.slotBlock_eq hk
    rw [← h4]
    exact h3.block
  -- an entry at the address is that entry, and has that name
  have hthis : ∀ {a b}, HasName (d.write (entryAt d f i j) (name' ++ [0])) k a b name →
      entryAt d k a b = entryAt d f i j → k = f ∧ a = i ∧ b = j ∧ name = name' := by
    intro a b h3 h4
    have h5 := h3.lt
    have h6 : fileBlock d k a = fileBlock d f i := by
      unfold entryAt at h4
      omega
    obtain ⟨rfl, h7⟩ := hv.sound.slot_unique hf hk h0 h6
    have h8 := h3.eq
    have h9 : entryAt (d.write (entryAt d k i j) (name' ++ [0])) k a b = entryAt d k a b := by
      unfold entryAt
      have h10 : fileBlock (d.write (fileBlock d k i * 4096 + 256 * j) (name' ++ [0])) k a = fileBlock d k a :=
        hsame.slotBlock_eq hk
      rw [h10]
    rw [h9, h4] at h8
    refine ⟨rfl, dataSlot_inj h7, ?_, name_written hgn hgood h8⟩
    unfold entryAt at h4
    omega
  by_cases e1 : entryAt d k a b = entryAt d f i j
  · obtain ⟨rfl, rfl, rfl, rfl⟩ := hthis h1 e1
    by_cases e2 : entryAt d k a' b' = entryAt d k a b
    · obtain ⟨-, rfl, rfl, -⟩ := hthis h2 e2
      exact ⟨rfl, rfl⟩
    · exact absurd (h2.of_write hv.sound hg hk htk hb hl e2) (habs a' b')
  · by_cases e2 : entryAt d k a' b' = entryAt d f i j
    · obtain ⟨rfl, rfl, rfl, rfl⟩ := hthis h2 e2
      exact absurd (h1.of_write hv.sound hg hk htk hb hl e1) (habs a b)
    · exact ho _ hk htk _ hgn hl _ _ _ _ (h1.of_write hv.sound hg hk htk hb hl e1) (h2.of_write hv.sound hg hk htk hb hl e2)

/-- A name may be cleared. -/
theorem Once.clearName (ho : Once d) (hv : Valid sRoot true d) (hg : (tree sRoot true d).Linked (.file g)) :
    Once (d.write g [0]) := by
  have hsame : Same sRoot true d (d.write g [0]) := hv.sound.same_head hg le_rfl (by simp)
  intro f hf ht name hgood hl i j i' j' h1 h2
  rw [hsame.linked] at hf
  rw [hsame.type hf] at ht
  have key : ∀ {i j}, HasName (d.write g [0]) f i j name → HasName d f i j name := by
    intro i j h3
    refine h3.of_write hv.sound hg hf ht (by simp) hl ?_
    rintro rfl
    have h4 := nameFree_of_nameEq hgood h3.eq
    have h5 : entryAt (d.write (entryAt d f i j) [0]) f i j = entryAt d f i j := by
      unfold entryAt
      have h6 : fileBlock (d.write (fileBlock d f i * 4096 + 256 * j) [0]) f i = fileBlock d f i := hsame.slotBlock_eq hf
      rw [h6]
    have h7 : (d.write (entryAt d f i j) [0]).byte (entryAt d f i j + 0) = 0 := Bytes.byte_write_in (by simp)
    rw [h5] at h4
    unfold nameFree at h4
    rw [Nat.add_zero] at h7
    rw [h7] at h4
    exact absurd h4 (by decide)
  exact ho _ hf ht _ hgood hl _ _ _ _ (key h1) (key h2)

/-! ## Searching -/

/-- **A search that finds nothing** has gone through all entries. -/
theorem dirScan_absent {is : List ℕ} (hv : Valid sRoot true d) (hf : (tree sRoot true d).Linked (.file f))
    (ht : fType d f = ftypeDir) (hg : GoodName name) (hl : name.length < 128)
    (h : dirScan (nameEq name) f is d = some (.ok none, d')) : ∀ i ∈ is, ∀ j, ¬ HasName d' f i j name := by
  induction is generalizing d with
  | nil => exact fun i hi => absurd hi List.not_mem_nil
  | cons n is ih =>
    obtain ⟨⟨r₁, d₁⟩, h1, h2⟩ := Option.bind_eq_some_iff.1 h
    obtain ⟨hA, -, hok⟩ := fileGetBlock_adds (P := fun _ _ _ _ => True) hv.sound hf trivial h1
    have hv₁ := hA.valid hv
    have hf₁ := hA.linked hv hf
    have ht₁ : fType d₁ f = ftypeDir := by rw [(hA.head hv hf).fType_eq, ht]
    rcases r₁ with e | blk
    · cases h2
    obtain ⟨-, -, rfl⟩ := hok blk rfl
    rcases hj : (List.range 16).find? fun j => nameEq name d₁ (fileBlock d₁ f n * 4096 + 256 * j) with _ | j
    · simp only [hj] at h2
      intro i hi j h3
      rcases List.mem_cons.1 hi with rfl | hi
      · -- the blocks that are added later are of other places
        obtain ⟨hA', -⟩ := dirScan_adds (P := fun _ _ _ _ => True) hv₁ hf₁ (fun _ _ => trivial) h2
        have h4 := h3.of_adds hA' hv₁ hf₁ ht₁ hg hl
        exact List.find?_eq_none.1 hj j (List.mem_range.2 h4.lt) h4.eq
      · exact ih hv₁ hf₁ ht₁ h2 i hi j h3
    · simp only [hj] at h2
      cases h2

theorem dirLookup_absent (hv : Valid sRoot true d) (hf : (tree sRoot true d).Linked (.file f))
    (ht : fType d f = ftypeDir) (hg : GoodName name) (hl : name.length < 128)
    (h : dirLookup d f name = some (.error (-eNotFound), d')) :
    ∀ i < dirBlocks d f, ∀ j, ¬ HasName d' f i j name := by
  unfold dirLookup at h
  split at h
  · cases h
  obtain ⟨⟨r₁, d₁⟩, h1, h2⟩ := Option.bind_eq_some_iff.1 h
  rcases r₁ with e | _ | g
  · cases h2
    rcases dirScan_codes h1 with h3 | h3
    all_goals exact absurd h3 (by decide)
  · cases h2
    exact fun i hi => dirScan_absent hv hf ht hg hl h1 i (List.mem_range.2 hi)
  · cases h2

/-- **A walk that fails at the last element** has found no entry with that name. -/
theorem walkElements_absent {dir : Option ℕ} {k : ℕ} {r : ℤ} (hv : Valid sRoot true d)
    (hf : (tree sRoot true d).Linked (.file f)) (hname : f = sRoot ∨ nameFree d f = false)
    (hg : ∀ k ∈ els, GoodName k) (h : walkElements els dir f d = some (.failed r (some (k, name)), d')) :
    ∀ i < dirBlocks d' k, ∀ j, ¬ HasName d' k i j name := by
  induction els generalizing d f dir with
  | nil => cases h
  | cons x rest ih =>
    have hx := hg x List.mem_cons_self
    unfold walkElements at h
    by_cases hl : x.length ≥ 128
    · rw [if_pos hl] at h
      cases h
    rw [if_neg hl] at h
    by_cases ht : fType d f ≠ ftypeDir
    · rw [if_pos ht] at h
      cases h
    rw [if_neg ht] at h
    have ht := not_not.1 ht
    obtain ⟨⟨r₁, d₁⟩, h1, h2⟩ := Option.bind_eq_some_iff.1 h
    obtain ⟨hA, -, hok⟩ := dirLookup_adds (P := fun _ _ _ _ => True) (fun _ _ _ _ => trivial) hv hf hname ht h1
    rcases r₁ with e | g
    · simp only [Option.some.injEq, Prod.mk.injEq, Walk.failed.injEq] at h2
      obtain ⟨⟨rfl, h3⟩, rfl⟩ := h2
      split at h3
      · rename_i hc
        obtain ⟨rfl, -⟩ := hc
        cases h3
        rw [dirBlocks_congr (hA.head hv hf).fSize_eq]
        exact dirLookup_absent hv hf ht hx (by omega) h1
      · cases h3
    · obtain ⟨hlg, heq, -⟩ := hok g rfl
      exact ih (hA.valid hv) hlg (Or.inr (nameFree_of_nameEq hx heq)) (fun k hk => hg k (List.mem_cons_of_mem _ hk)) h2

/-! ## Making and removing entries -/

/-- **The entry that `dir_alloc_file` gives** is one of the directory's, and no entry gets a name. -/
theorem dirAllocFile_entry {res : Except ℤ ℕ} (ho : Orderly d) (hn : Once d)
    (hf : (tree sRoot true d).Linked (.file f)) (ht : fType d f = ftypeDir)
    (h : dirAllocFile d f = some (res, d')) : Once d' ∧ fType d' f = ftypeDir ∧
      (∀ g, res = .ok g → ∃ i j, fileBlock d' f i ≠ 0 ∧ j < 16 ∧ g = entryAt d' f i j) ∧
        ∀ name, GoodName name → name.length < 128 → ∀ i j, HasName d' f i j name → HasName d f i j name := by
  unfold dirAllocFile at h
  split at h
  · cases h
  obtain ⟨⟨r₁, d₁⟩, h1, h2⟩ := Option.bind_eq_some_iff.1 h
  obtain ⟨hA, -, h3, h4⟩ := dirScan_adds (P := fun _ _ _ _ => True) ho.valid hf (fun _ _ => trivial) h1
  have hv₁ := hA.valid ho.valid
  have hf₁ := hA.linked ho.valid hf
  have ht₁ : fType d₁ f = ftypeDir := by rw [(hA.head ho.valid hf).fType_eq, ht]
  have hn₁ := hn.adds ho.valid hA
  rcases r₁ with e | _ | k
  · cases h2
    exact ⟨hn₁, ht₁, nofun, fun name hg hl i j h5 => h5.of_adds hA ho.valid hf ht hg hl⟩
  · -- the directory grows by a block, also if there is none for it
    have hsame : Same sRoot true d₁ (setFSize d₁ f (fSize d₁ f + 4096)) := hv₁.sound.same_size hf₁
    have hs₂ := hsame.sound hv₁.sound
    have hf₂ := hsame.linked.2 hf₁
    have ht₂ : fType (setFSize d₁ f (fSize d₁ f + 4096)) f = ftypeDir := by rw [hsame.type hf₁, ht₁]
    have hv₂ : Valid sRoot true (setFSize d₁ f (fSize d₁ f + 4096)) := by
      have h6 := ho.valid.size hf (opens_dir ht)
      have h7 : fSize d₁ f = fSize d f := (hA.head ho.valid hf).fSize_eq
      have h5 : dirBlocks d f ≤ 1034 := by
        by_contra h5
        have := h3 rfl 1034 (List.mem_range.2 (show 1034 < dirBlocks d f by omega))
        omega
      rw [dirBlocks_eq h6] at h5
      exact hv₁.setFSize hf₁ fun _ => by omega
    obtain ⟨hA', -, h8⟩ := fileGetBlock_adds (P := fun _ _ _ _ => True) hs₂ hf₂ trivial h2
    refine ⟨(hn₁.setFSize hv₁ hf₁).adds hv₂ hA', ?_, fun g hg => ?_, fun name hg hl i j h10 => ?_⟩
    · rw [(hA'.head hv₂ hf₂).fType_eq, ht₂]
    · obtain ⟨-, h9, rfl⟩ := h8 g hg
      exact ⟨dirBlocks d f, 0, h9, by omega, by unfold entryAt; omega⟩
    · have h11 := h10.of_adds hA' hv₂ hf₂ ht₂ hg hl
      exact (h11.of_size hv₁.sound hf₁ hf₁ ht₁ hl).of_adds hA ho.valid hf ht hg hl
  · cases h2
    refine ⟨hn₁, ht₁, fun g hg => ?_, fun name hg hl i j h6 => h6.of_adds hA ho.valid hf ht hg hl⟩
    cases hg
    obtain ⟨-, i, -, -, h5, j, hj, rfl⟩ := h4 k rfl
    exact ⟨i, j, h5, hj, rfl⟩

/-- **`file_create`** gives a name that is new in its directory. -/
theorem fileCreate_once {res : Except ℤ ℕ} (ho : Orderly d) (hn : Once d)
    (h : fileCreate d path = some (res, d')) : Once d' := by
  obtain ⟨⟨w, d₁⟩, h1, h2⟩ := Option.bind_eq_some_iff.1 h
  obtain ⟨hA, hw⟩ := walkPath_adds dirsIn_within ho.valid h1
  have ho₁ := ho.moves hA.moves
  have hn₁ := hn.adds ho.valid hA
  rcases w with ⟨dir, g⟩ | ⟨r, _ | ⟨dir, name⟩⟩
  · cases h2
    exact hn₁
  · cases h2
    exact hn₁
  obtain ⟨-, h3⟩ := hw
  obtain ⟨hf, hname, ht, hgood, hl⟩ := h3 dir name rfl
  by_cases hr : r ≠ -eNotFound
  · simp only [if_pos hr] at h2
    cases h2
    exact hn₁
  simp only [if_neg hr] at h2
  obtain ⟨⟨r₂, d₂⟩, h4, h5⟩ := Option.bind_eq_some_iff.1 h2
  obtain ⟨hM, h6⟩ := dirAllocFile_moves dirsIn_within ho₁.valid hf hname ht h4
  have ho₂ := ho₁.moves hM
  have hf₂ := hM.linked ho₁.valid hf
  obtain ⟨hn₂, ht₂, hentry, hold⟩ := dirAllocFile_entry ho₁ hn₁ hf ht h4
  rcases r₂ with e | k
  · cases h5
    exact hn₂
  simp only [Option.some.injEq, Prod.mk.injEq] at h5
  rw [← h5.2]
  obtain ⟨i, j, h0, hj, rfl⟩ := hentry k rfl
  refine hn₂.setName ho₂.valid hf₂ ht₂ h0 hj hgood hl fun a b h7 => ?_
  have h8 := hold name hgood hl a b h7
  -- the walk has searched all blocks of the directory
  have h9 : a < dirBlocks d₁ dir := by
    by_contra h9
    exact h8.block (ho₁.short hf ht (by omega))
  exact walkElements_absent ho.valid .refl (Or.inl rfl) (elements_good path) h1 a h9 b h8

/-- **`file_remove`** only removes names. -/
theorem fileRemove_once {res : ℤ} (ho : Orderly d) (hn : Once d) (h : fileRemove d path = some (res, d')) :
    Once d' := by
  obtain ⟨⟨w, d₁⟩, h1, h2⟩ := Option.bind_eq_some_iff.1 h
  obtain ⟨hA, hok⟩ := walkPath_adds dirsIn_within ho.valid h1
  have ho₁ := ho.moves hA.moves
  have hn₁ := hn.adds ho.valid hA
  rcases w with ⟨dir, f⟩ | ⟨r, last⟩
  · obtain ⟨d₂, h3, h4⟩ := Option.bind_eq_some_iff.1 h2
    simp only [Option.some.injEq, Prod.mk.injEq] at h4
    rw [← h4.2]
    obtain ⟨hD, -, -⟩ := fileTruncateBlocks_drops ho₁.valid hok.1 h3
    obtain ⟨hv₂, hf₂⟩ := hD.valid ho₁.valid hok.1
    have hn₂ := hn₁.drops ho₁.valid hok.1 hD
    have hsame : Same sRoot true d₂ (d₂.write f [0]) := hv₂.sound.same_head hf₂ le_rfl (by simp)
    exact (hn₂.clearName hv₂ hf₂).setFSize (hv₂.setName hf₂ (by simp)) (hsame.linked.2 hf₂)
  · cases h2
    exact hn₁

/-! ## Runs -/

theorem exec_once {c : Call} (ho : Orderly d) (hn : Once d) (hc : MakesRemoves d c) (h : exec d c = some d') :
    Orderly d' ∧ Once d' := by
  cases c with
  | create path =>
    obtain ⟨⟨res, d₁⟩, h1, rfl⟩ := Option.map_eq_some_iff.1 h
    exact ⟨ho.moves (fileCreate_moves dirsIn_within ho.valid h1).1, fileCreate_once ho hn h1⟩
  | remove path =>
    obtain ⟨⟨res, d₁⟩, h1, rfl⟩ := Option.map_eq_some_iff.1 h
    exact ⟨ho.fileRemove h1, fileRemove_once ho hn h1⟩
  | «open» _ => exact absurd hc id
  | read _ _ _ => exact absurd hc id
  | write _ _ _ => exact absurd hc id
  | setSize _ _ => exact absurd hc id

theorem run_once (ho : Orderly d) (hn : Once d) (hr : Run MakesRemoves d d') : Orderly d' ∧ Once d' := by
  induction hr with
  | refl => exact ⟨ho, hn⟩
  | tail _ h ih =>
    obtain ⟨c, -, hc, hx⟩ := h
    exact exec_once ih.1 ih.2 hc hx

theorem Once.unique (hn : Once d) : UniqueNames d := by
  intro f hf ht name h0 hl i j i' j' _ h1 hj _ h2 hj' h3 h4
  exact hn f (reachable_linked hf) ht name.chars ⟨h0, name.noNul⟩ hl i j i' j' ⟨h1, hj, h3⟩ ⟨h2, hj', h4⟩

theorem WellFormed.once (hw : WellFormed d) : Once d := by
  intro f hf ht name hg hl i j i' j' h1 h2
  have hlt : ∀ {i j}, HasName d f i j name → i < dirBlocks d f := by
    intro i j h3
    by_contra h4
    exact h3.block (hw.toConsistent.orderly.short hf ht (by omega))
  rcases hw.toConsistent.linked hf with h3 | h3
  · exact hw.unique f h3 ht ⟨name, hg.2⟩ hg.1 hl i j i' j' (hlt h1) h1.block h1.lt (hlt h2) h2.block h2.lt
      h1.eq h2.eq
  · exact absurd (h3.2 _) h1.block

/-- **Paths are resolved correctly, and no name is given twice.** On a well-formed directory tree
`walk_path` agrees with the reference resolver on every path, and no sequence of `file_create` and
`file_remove` makes two entries of a directory with the same name. -/
theorem path_resolution (hw : WellFormed d) :
    (∀ path : CString, ∃ out, walkPathScan d path = some (out, d) ∧ Resolves d (elements path) out) ∧
      ∀ d', Run MakesRemoves d d' → UniqueNames d' :=
  ⟨hw.walkPath_agrees, fun _ hr => (run_once hw.toConsistent.orderly hw.once hr).2.unique⟩

/-- The image with one directory is well-formed. -/
theorem binImage_wellFormed : WellFormed binImage where
  toConsistent := binImage_consistent
  full f i hf _ hi := by
    rcases binImage_reachable hf with rfl | rfl
    · have h1 : dirBlocks binImage sRoot = 1 := by decide +kernel
      rw [h1] at hi
      obtain rfl : i = 0 := by omega
      decide +kernel
    · have h1 : dirBlocks binImage 12288 = 0 := by decide +kernel
      omega
  ended f hf h0 := by
    rcases binImage_reachable hf with rfl | rfl
    · exact absurd rfl h0
    · exact ⟨3, by decide, by decide +kernel⟩
  unique f hf _ name h0 _ i j i' j' _ h1 hj _ h2 hj' h3 h4 := by
    have hg : GoodName name.chars := ⟨h0, name.noNul⟩
    have key : ∀ j < 16, nameFree binImage (3 * 4096 + 256 * j) = false → j = 0 := by decide +kernel
    rcases binImage_reachable hf with rfl | rfl
    · obtain ⟨rfl, h5⟩ := binImage_one.rootBlock h1
      obtain ⟨rfl, -⟩ := binImage_one.rootBlock h2
      rw [h5] at h3 h4
      exact ⟨rfl, (key j hj (nameFree_of_nameEq hg h3)).trans (key j' hj' (nameFree_of_nameEq hg h4)).symm⟩
    · have h5 : ∀ s, slotBlock binImage 12288 s = 0 := (binImage_one.entry (j := 0) (by decide)).2
      exact absurd (h5 _) h1

theorem path_resolution_bin : (∃ out, walkPathScan binImage binPath = some (out, binImage) ∧
    Resolves binImage (elements binPath) out) ∧ UniqueNames binImage :=
  ⟨(path_resolution binImage_wellFormed).1 binPath, (path_resolution binImage_wellFormed).2 _ .refl⟩

end Jos.Fs
