import Jos.Proof.Truncate

/-!
# Walking a path

`walk_path` adds blocks to the directories it searches and finds a linked file with the
given path. The blocks it adds are empty, so the path was there before (`names_of_adds`).
`file_create` and `dir_alloc_file` then write to the sizes and names of linked files.
-/

namespace Jos.Fs

open Lib

variable {root : ℕ} {d d' d₁ : Bytes} {b f g m n p q x : ℕ} {name : List Byte} {els : List (List Byte)}
  {P : ℕ → ℕ → Bool → ℤ → Prop}

/-! ## Elements -/

theorem mem_of_mem_splitOnP {test : Byte → Bool} {l xs : List Byte} {c : Byte}
    (hl : l ∈ xs.splitOnP test) (hc : c ∈ l) : c ∈ xs := by
  induction xs generalizing l with
  | nil =>
    rw [List.splitOnP_nil, List.mem_singleton] at hl
    rw [hl] at hc
    exact hc
  | cons y ys ih =>
    rw [List.splitOnP_cons_eq_if_modifyHead] at hl
    split at hl
    · rcases List.mem_cons.1 hl with rfl | hl
      · exact absurd hc (by simp)
      · exact List.mem_cons_of_mem _ (ih hl hc)
    · rcases hs : ys.splitOnP test with _ | ⟨l', ls⟩
      · exact absurd hs (List.splitOnP_ne_nil test ys)
      · rw [hs, List.modifyHead_cons] at hl
        rcases List.mem_cons.1 hl with rfl | hl
        · rcases List.mem_cons.1 hc with rfl | hc
          · exact List.mem_cons_self
          · exact List.mem_cons_of_mem _ (ih (by rw [hs]; exact List.mem_cons_self) hc)
        · exact List.mem_cons_of_mem _ (ih (by rw [hs]; exact List.mem_cons_of_mem _ hl) hc)

/-- A file name: not empty, and without a terminator. -/
def GoodName (name : List Byte) : Prop := name ≠ [] ∧ 0 ∉ name

theorem elements_good (path : CString) : ∀ name ∈ elements path, GoodName name := by
  intro name h
  obtain ⟨h1, h2⟩ := List.mem_filter.1 h
  refine ⟨by rintro rfl; simp at h2, fun h3 => path.noNul (mem_of_mem_splitOnP h1 h3)⟩

/-- A file with a good name has a name. -/
theorem nameFree_of_nameEq (hn : GoodName name) (h : nameEq name d f = true) : nameFree d f = false := by
  obtain ⟨c, cs, rfl⟩ := List.exists_cons_of_ne_nil hn.1
  unfold nameEq at h
  have h1 := List.all_eq_true.1 h 0 (by simp)
  have h2 : d.byte f = c := by simpa using h1
  have h3 : c ≠ 0 := fun h3 => hn.2 (by rw [h3]; exact List.mem_cons_self)
  unfold nameFree
  rw [h2]
  simpa using h3

/-! ## Blocks added to directories are empty -/

/-- Blocks may be added to a directory that is found on a walk, below its size. -/
def DirsIn (P : ℕ → ℕ → Bool → ℤ → Prop) (root : ℕ) : Prop :=
  ∀ {f n : ℕ} {free : Bool} {size : ℤ}, f = root ∨ free = false → 0 ≤ size →
    size < 2 ^ 31 → n < u32 (size.tdiv 4096) → P f n free size

theorem Adds.block_old (h : Adds P root true d d') (hv : Valid root true d)
    (hf : (tree root true d).Linked (.file f)) (ht : fType d f = ftypeDir) (h0 : fileBlock d' f n ≠ 0)
    {j : ℕ} (hj : j < 16) (hb : nameFree d' (fileBlock d' f n * 4096 + 256 * j) = false) :
    fileBlock d f n = fileBlock d' f n := by
  have key := (h.rule hv (I := fun d₁ => (tree root true d₁).Linked (.file f) ∧ fType d₁ f = ftypeDir ∧
    (fileBlock d₁ f n ≠ 0 → fileBlock d f n = fileBlock d₁ f n ∨
      nameFree d₁ (fileBlock d₁ f n * 4096 + 256 * j) = true)) ⟨hf, ht, fun _ => Or.inl rfl⟩
    fun d₁ d₂ hv₁ h1 h2 => ?_).2.2.2 h0
  · exact key.resolve_right fun h1 => by rw [hb] at h1; cases h1
  · obtain ⟨hf₁, ht₁, h3⟩ := h1
    refine ⟨h2.linked hv₁.sound hf₁, ?_, fun h4 => ?_⟩
    · rw [(h2.head hv₁.sound hf₁).fType_eq, ht₁]
    · rcases h2.slot_cases hv₁.sound hf₁ (dataSlot n) with h5 | h5
      · have h6 : fileBlock d₁ f n = fileBlock d₂ f n := h5.symm
        have h7 : fileBlock d₁ f n ≠ 0 := by rw [h6]; exact h4
        refine (h3 h7).imp (fun h8 => h8.trans h6) fun h8 => ?_
        have h9 := linked_entry hf₁ (by unfold opens; simp [ht₁]) h7 hj
        rw [← h6, (h2.head hv₁.sound h9).nameFree_eq]
        exact h8
      · right
        unfold nameFree fileBlock
        rw [h5 _ (by omega) (by omega)]
        rfl

/-- A path that is there after blocks were added was there before. -/
theorem names_of_adds (h : Adds P root true d d') (hv : Valid root true d)
    (hf : (tree root true d).Linked (.file f)) (hg : ∀ name ∈ els, GoodName name ∧ name.length < 128)
    (hn : Names d' els f g) : Names d els f g := by
  induction els generalizing f with
  | nil => exact hn
  | cons name rest ih =>
    obtain ⟨h1, i, hi, h0, j, hj, h2, h3⟩ := hn
    have hhd := h.head hv hf
    rw [hhd.fType_eq] at h1
    have h4 := h.block_old hv hf h1 h0 hj (nameFree_of_nameEq (hg name List.mem_cons_self).1 h2)
    rw [← h4] at h0 h2 h3
    have h5 := linked_entry hf (by unfold opens; simp [h1]) h0 hj
    refine ⟨h1, i, ?_, h0, j, hj, ?_, ih h5 (fun k hk => hg k (List.mem_cons_of_mem _ hk)) h3⟩
    · unfold dirBlocks at *
      rw [← hhd.fSize_eq]
      exact hi
    · rw [← (h.head hv h5).nameEq_eq (hg name List.mem_cons_self).2]
      exact h2

/-! ## Walking -/

theorem opens_dir (ht : fType d f = ftypeDir) : opens true d f = true := by
  unfold opens
  rw [ht]
  rfl

/-- The contents of a regular file do not count. -/
theorem opens_regular {dirs : Bool} (ht : fType d f ≠ ftypeDir) : opens dirs d f = false := by
  unfold opens
  cases dirs
  · rfl
  · simpa using ht

theorem dirLookup_adds {res : Except ℤ ℕ} (hP : DirsIn P root) (hv : Valid root true d)
    (hf : (tree root true d).Linked (.file f)) (hname : f = root ∨ nameFree d f = false)
    (ht : fType d f = ftypeDir) (h : dirLookup d f name = some (res, d')) :
    Adds P root true d d' ∧ (∀ e, res = .error e → e < 0) ∧
      ∀ g, res = .ok g → (tree root true d').Linked (.file g) ∧ nameEq name d' g = true ∧
        ∃ i < dirBlocks d f, fileBlock d' f i ≠ 0 ∧ ∃ j < 16, g = fileBlock d' f i * 4096 + 256 * j := by
  unfold dirLookup at h
  split at h
  · cases h
  obtain ⟨⟨r₁, d₁⟩, h1, h2⟩ := Option.bind_eq_some_iff.1 h
  obtain ⟨hA, h3, -, h4⟩ := dirScan_adds hv hf
    (fun i hi => hP hname (hv.size hf (opens_dir ht)) (fSize_lt d f) (List.mem_range.1 hi)) h1
  rcases r₁ with e | _ | g
  · simp only [Option.some.injEq, Prod.mk.injEq] at h2
    obtain ⟨rfl, rfl⟩ := h2
    refine ⟨hA, fun e' h5 => ?_, nofun⟩
    cases h5
    exact h3 e rfl
  · simp only [Option.some.injEq, Prod.mk.injEq] at h2
    obtain ⟨rfl, rfl⟩ := h2
    refine ⟨hA, fun e' h5 => ?_, nofun⟩
    cases h5
    decide
  · simp only [Option.some.injEq, Prod.mk.injEq] at h2
    obtain ⟨rfl, rfl⟩ := h2
    refine ⟨hA, nofun, fun g' h5 => ?_⟩
    cases h5
    obtain ⟨h6, i, hi, -, h7, j, hj, rfl⟩ := h4 g rfl
    refine ⟨linked_entry (hA.linked hv hf) ?_ h7 hj, h6, i, List.mem_range.1 hi, h7, j, hj, rfl⟩
    unfold opens
    rw [(hA.head hv hf).fType_eq, ht]
    rfl

/-- What a walk gives. -/
def WalkOk (root : ℕ) (d' : Bytes) (P : ℕ → Prop) : Walk → Prop
  | .found _ g => (tree root true d').Linked (.file g) ∧ (g = root ∨ nameFree d' g = false) ∧ P g
  | .failed r last => r < 0 ∧ ∀ dir name, last = some (dir, name) →
      (tree root true d').Linked (.file dir) ∧ (dir = root ∨ nameFree d' dir = false) ∧
        fType d' dir = ftypeDir ∧ GoodName name ∧ name.length < 128

/-- **Walking a path** adds blocks, and finds a file that had the path. -/
theorem walkElements_adds {dir : Option ℕ} {w : Walk} (hP : DirsIn P root) (hv : Valid root true d)
    (hf : (tree root true d).Linked (.file f)) (hname : f = root ∨ nameFree d f = false)
    (hg : ∀ name ∈ els, GoodName name) (h : walkElements els dir f d = some (w, d')) :
    Adds P root true d d' ∧ WalkOk root d' (fun g => Names d els f g ∧ ∀ name ∈ els, name.length < 128) w := by
  induction els generalizing d f dir with
  | nil =>
    simp only [walkElements, Option.some.injEq, Prod.mk.injEq] at h
    obtain ⟨rfl, rfl⟩ := h
    exact ⟨.refl, hf, hname, rfl, by simp⟩
  | cons name rest ih =>
    unfold walkElements at h
    by_cases hl : name.length ≥ 128
    · rw [if_pos hl] at h
      simp only [Option.some.injEq, Prod.mk.injEq] at h
      obtain ⟨rfl, rfl⟩ := h
      exact ⟨.refl, by decide, nofun⟩
    rw [if_neg hl] at h
    by_cases ht : fType d f ≠ ftypeDir
    · rw [if_pos ht] at h
      simp only [Option.some.injEq, Prod.mk.injEq] at h
      obtain ⟨rfl, rfl⟩ := h
      exact ⟨.refl, by decide, nofun⟩
    rw [if_neg ht] at h
    have ht := not_not.1 ht
    obtain ⟨⟨r₁, d₁⟩, h1, h2⟩ := Option.bind_eq_some_iff.1 h
    obtain ⟨hA, herr, hok⟩ := dirLookup_adds hP hv hf hname ht h1
    have hhd := hA.head hv hf
    have hn := hg name List.mem_cons_self
    rcases r₁ with e | g
    · simp only [Option.some.injEq, Prod.mk.injEq] at h2
      obtain ⟨rfl, rfl⟩ := h2
      refine ⟨hA, herr e rfl, fun dir' name' h3 => ?_⟩
      split at h3
      · cases h3
        refine ⟨hA.linked hv hf, ?_, ?_, hn, by omega⟩
        · rw [hhd.nameFree_eq]; exact hname
        · rw [hhd.fType_eq]; exact ht
      · cases h3
    · obtain ⟨hlg, heq, i, hi, h0, j, hj, rfl⟩ := hok g rfl
      have hnf := nameFree_of_nameEq hn heq
      obtain ⟨hA', h3⟩ := ih (hA.valid hv) hlg (Or.inr hnf) (fun k hk => hg k (List.mem_cons_of_mem _ hk)) h2
      refine ⟨hA.trans hA', ?_⟩
      rcases w with ⟨dir', g⟩ | ⟨r, last⟩
      · obtain ⟨h4, h5, h6, h7⟩ := h3
        have h8 : ∀ k ∈ name :: rest, k.length < 128 := by
          intro k hk
          rcases List.mem_cons.1 hk with rfl | hk
          · omega
          · exact h7 k hk
        refine ⟨h4, h5, names_of_adds hA hv hf (fun k hk => ⟨hg k hk, h8 k hk⟩) ?_, h8⟩
        refine ⟨by rw [hhd.fType_eq]; exact ht, i, ?_, h0, j, hj, heq, h6⟩
        unfold dirBlocks at *
        rw [hhd.fSize_eq]
        exact hi
      · exact h3

/-- The walk adds no blocks to files that are not above the one it finds. -/
theorem walkElements_others {dir dir' : Option ℕ} {s : Slot} (hv : Valid root true d)
    (hf : (tree root true d).Linked (.file f)) (hname : f = root ∨ nameFree d f = false)
    (hg : ∀ name ∈ els, GoodName name) (h : walkElements els dir f d = some (.found dir' g, d')) :
    (tree root true d').From (.file f) (.file g) ∧
      ∀ e, (tree root true d).Linked (.file e) → ¬ (tree root true d').From (.file e) (.file g) →
        slotBlock d' e s = slotBlock d e s := by
  induction els generalizing d f dir with
  | nil =>
    simp only [walkElements, Option.some.injEq, Prod.mk.injEq, Walk.found.injEq] at h
    obtain ⟨⟨-, rfl⟩, rfl⟩ := h
    exact ⟨.refl, fun _ _ _ => rfl⟩
  | cons name rest ih =>
    unfold walkElements at h
    by_cases hl : name.length ≥ 128
    · rw [if_pos hl] at h
      cases h
    rw [if_neg hl] at h
    by_cases ht : fType d f ≠ ftypeDir
    · rw [if_pos ht] at h
      cases h
    rw [if_neg ht] at h
    have ht := not_not.1 ht
    obtain ⟨⟨r₁, d₁⟩, h1, h2⟩ := Option.bind_eq_some_iff.1 h
    obtain ⟨hA, -, hok⟩ := dirLookup_adds (P := fun _ _ _ _ => True) (fun _ _ _ _ => trivial) hv hf hname ht h1
    have hhd := hA.head hv hf
    rcases r₁ with e | k
    · cases h2
    · obtain ⟨hlk, heq, i, hi, h0, j, hj, rfl⟩ := hok k rfl
      have hnf := nameFree_of_nameEq (hg name List.mem_cons_self) heq
      have hv₁ := hA.valid hv
      have hf₁ := hA.linked hv hf
      have hg' := fun k hk => hg k (List.mem_cons_of_mem name hk)
      obtain ⟨hA', -⟩ := walkElements_adds (P := fun _ _ _ _ => True) (fun _ _ _ _ => trivial) hv₁ hlk
        (Or.inr hnf) hg' h2
      obtain ⟨h3, h4⟩ := ih hv₁ hlk (Or.inr hnf) hg' h2
      have h5 : (tree root true d').From (.file f) (.file g) := by
        have h6 : fileBlock d' f i = fileBlock d₁ f i :=
          (hA'.rule hv₁ (I := fun d => (tree root true d).Linked (.file f) ∧ fileBlock d f i = fileBlock d₁ f i)
            ⟨hf₁, rfl⟩ fun d₂ d₃ hv₂ h7 h8 => ⟨h8.linked hv₂.sound h7.1, by
              have h9 := h8.slot_keep hv₂.sound (s := dataSlot i) h7.1 (by rw [← fileBlock, h7.2]; exact h0)
              exact h9.trans h7.2⟩).2.2
        rw [← h6] at h0 h3
        refine .trans (from_entry (hA'.linked hv₁ hf₁) ?_ h0 hj) h3
        unfold opens
        rw [(hA'.head hv₁ hf₁).fType_eq, hhd.fType_eq, ht]
        rfl
      refine ⟨h5, fun e he hne => ?_⟩
      have hef : e ≠ f := by rintro rfl; exact hne h5
      rw [h4 e (hA.linked hv he) hne]
      unfold dirLookup at h1
      split at h1
      · cases h1
      obtain ⟨⟨r₂, d₂⟩, h6, h7⟩ := Option.bind_eq_some_iff.1 h1
      have h8 := dirScan_others (s := s) hv hf h6 he hef
      rcases r₂ with e' | _ | g'
      · cases h7
      · cases h7
      · simp only [Option.some.injEq, Prod.mk.injEq] at h7
        rw [← h7.2, h8]

end Jos.Fs
