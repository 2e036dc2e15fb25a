import Jos.Proof.OpenIds
import Jos.Proof.Vacant

/-!
# Created files

`Created d d' path g` says that the entry `g` which `file_create` gives is an empty regular file and
that no other entry changes, but for blocks that are added to the directories on the path. It holds
after every run whose calls leave unused entries blank (`created_blank`).

Two kinds of call do not. `file_remove` leaves `f_type` as it is, so the entry of a directory that was
removed is given as a directory; and a write through the id of a file that was removed gives its entry
a size and blocks again (`created_blank_counterexample`).
-/

namespace Jos.Fs

open Lib

variable {d d' d₁ : Bytes} {s : Slot} {b e f g m n i j : ℕ} {z : ℤ} {bs : List Byte} {els : List (List Byte)}
  {path : CString} {P Q : ℕ → ℕ → Bool → ℤ → Prop}

/-! ## What is to hold -/

/-- The `struct File`s: the root directory and those in the blocks of directories, with a name or
without. -/
inductive DirEntry (d : Bytes) : ℕ → Prop
  | root : DirEntry d sRoot
  | mk {dir i j : ℕ} : Reachable d dir → fType d dir = ftypeDir → fileBlock d dir i ≠ 0 → j < 16 →
      DirEntry d (fileBlock d dir i * 4096 + 256 * j)

/-- File `e` is on the path of elements `els` from file `f`, and their lengths up to it are those of
names. -/
def OnPath (d : Bytes) (els : List (List Byte)) (f e : ℕ) : Prop :=
  ∃ pre, pre <+: els ∧ (∀ name ∈ pre, name.length < 128) ∧ Names d pre f e

/-- File `e` may have been given blocks and a larger size. -/
structure Grown (d d' : Bytes) (e : ℕ) : Prop where
  name : ∀ x < 128, d'.byte (e + x) = d.byte (e + x)
  type : fType d' e = fType d e
  size : fSize d e ≤ fSize d' e
  slot : ∀ s, slotBlock d e s ≠ 0 → slotBlock d' e s = slotBlock d e s

/-- **What `file_create` is to do**: the new entry is an empty regular file. The other entries are as
they were, but the directories on the path may have grown. -/
structure Created (d d' : Bytes) (path : CString) (g : ℕ) : Prop where
  blank : Blank d' g
  others : ∀ e, DirEntry d e → e ≠ g →
    Keeps d d' e ∨ fType d e = ftypeDir ∧ OnPath d (elements path) sRoot e ∧ Grown d d' e

/-- A consistent image whose unused entries are of type `FTYPE_REG`, as `fsformat` leaves them. -/
structure Formatted (d : Bytes) : Prop extends Consistent d where
  regular : ∀ f i j, Reachable d f → fType d f = ftypeDir → fileBlock d f i ≠ 0 → j < 16 →
    nameFree d (fileBlock d f i * 4096 + 256 * j) = true →
      fType d (fileBlock d f i * 4096 + 256 * j) = ftypeReg

/-- **The calls that leave unused entries blank.** A file is read, written and resized only while it is
there, at positions and to sizes that an `off_t` holds, or the call changes nothing; no directory is
written to, and none but the root is removed. -/
def LeavesBlank (d : Bytes) : Call → Prop
  | .create _ => True
  | .open _ => True
  | .read f _ offset => 0 ≤ offset ∧ Reachable d f ∨ fSize d f ≤ offset
  | .write f buf offset =>
    0 ≤ offset ∧ (offset + buf.length < 2 ^ 31 ∧ Reachable d f ∧ fType d f ≠ ftypeDir ∨
      buf = [] ∧ offset ≤ fSize d f)
  | .setSize f size => 0 ≤ size ∧ size < 2 ^ 31 ∧ Reachable d f ∨ size = fSize d f
  | .remove path => ∀ f, Names d (elements path) sRoot f → f = sRoot ∨ fType d f = ftypeReg

/-- Any calls that satisfy the condition `C` in the state before them, through handles to files that
may be gone. -/
abbrev Calls (C : Bytes → Call → Prop) : Bytes → Bytes → Prop :=
  Relation.ReflTransGen fun d d' => ∃ c, C d c ∧ exec d c = some d'

/-! ## Files that grow -/

theorem Grown.refl : Grown d d e := ⟨fun _ _ => rfl, rfl, le_rfl, fun _ _ => rfl⟩

theorem Grown.trans (h : Grown d d₁ e) (h' : Grown d₁ d' e) : Grown d d' e := by
  refine ⟨fun x hx => (h'.name x hx).trans (h.name x hx), h'.type.trans h.type, h.size.trans h'.size, ?_⟩
  intro s h0
  have h1 := h.slot s h0
  rw [h'.slot s (by rw [h1]; exact h0), h1]

theorem Keeps.grown (h : Keeps d d' e) : Grown d d' e :=
  ⟨fun x hx => h.head (e + x) (by omega) (by omega), h.head.fType_eq, h.head.fSize_eq.ge, fun s _ => h.slot s⟩

theorem AddStep.grown (h : AddStep P sRoot true d d') (hv : Valid sRoot true d)
    (he : (tree sRoot true d).Linked (.file e)) : Grown d d' e := by
  have hhd := h.head hv.sound he
  refine ⟨fun x hx => hhd (e + x) (by omega) (by omega), hhd.fType_eq, hhd.fSize_eq.ge, ?_⟩
  exact fun s h0 => h.slot_keep hv.sound he h0

theorem Adds.grown (h : Adds P sRoot true d d') (hv : Valid sRoot true d)
    (he : (tree sRoot true d).Linked (.file e)) : Grown d d' e :=
  (h.rule hv (I := fun d₁ => (tree sRoot true d₁).Linked (.file e) ∧ Grown d d₁ e) ⟨he, .refl⟩
    fun _ _ hv₁ h1 h2 => ⟨h2.linked hv₁.sound h1.1, h1.2.trans (h2.grown hv₁ h1.1)⟩).2.2

theorem grown_setFSize (hv : Valid sRoot true d) (he : (tree sRoot true d).Linked (.file e))
    (h0 : fSize d e ≤ z) (h1 : 0 ≤ z) (h2 : z < 2 ^ 31) : Grown d (setFSize d e z) e := by
  have hsame : Same sRoot true d (setFSize d e z) := hv.sound.same_size he
  refine ⟨fun x hx => Bytes.byte_store32_off (by omega), hsame.type he, ?_, fun s _ => hsame.slotBlock_eq he⟩
  rw [fSize_setFSize h1 h2]
  exact h0

/-! ## Steps with a weaker condition -/

theorem AddStep.imp {root : ℕ} {dirs : Bool} (hPQ : ∀ f n free z, P f n free z → Q f n free z)
    (h : AddStep P root dirs d d') : AddStep Q root dirs d d' := by
  cases h with
  | mk hf hP hn hs ha h0 hb => exact .mk hf (hPQ _ _ _ _ hP) hn hs ha h0 hb

theorem Adds.imp {root : ℕ} {dirs : Bool} (hPQ : ∀ f n free z, P f n free z → Q f n free z)
    (h : Adds P root dirs d d') : Adds Q root dirs d d' := by
  induction h with
  | refl => exact .refl
  | tail _ h1 ih => exact ih.tail (h1.imp hPQ)

/-! ## Walking -/

/-- Looking up a name adds blocks to the directory only. -/
theorem dirLookup_only {name : List Byte} {res : Except ℤ ℕ} (hv : Valid sRoot true d)
    (hf : (tree sRoot true d).Linked (.file f)) (h : dirLookup d f name = some (res, d')) :
    Adds (Only f) sRoot true d d' := by
  unfold dirLookup at h
  split at h
  · cases h
  obtain ⟨⟨r₁, d₁⟩, h1, h2⟩ := Option.bind_eq_some_iff.1 h
  obtain ⟨hA, -⟩ := dirScan_adds (P := Only f) hv hf (fun _ _ => rfl) h1
  rcases r₁ with e | _ | g
  all_goals
    cases h2
    exact hA

/-- **What a walk changes**: blocks are added to directories on the path. The one where the last
element is missing is on the path. -/
theorem walkElements_path {dir : Option ℕ} {w : Walk} (hv : Valid sRoot true d)
    (hf : (tree sRoot true d).Linked (.file f)) (hname : f = sRoot ∨ nameFree d f = false)
    (hg : ∀ name ∈ els, GoodName name) (h : walkElements els dir f d = some (w, d')) :
    (∀ e, (tree sRoot true d).Linked (.file e) →
      Keeps d d' e ∨ fType d e = ftypeDir ∧ OnPath d els f e) ∧
      ∀ r k name, w = .failed r (some (k, name)) → fType d k = ftypeDir ∧ OnPath d els f k := by
  induction els generalizing d f dir with
  | nil =>
    cases h
    exact ⟨fun _ _ => Or.inl .refl, by simp⟩
  | cons x rest ih =>
    have hx := hg x List.mem_cons_self
    have hhere : OnPath d (x :: rest) f f := ⟨[], List.nil_prefix, by simp, rfl⟩
    unfold walkElements at h
    by_cases hl : x.length ≥ 128
    · rw [if_pos hl] at h
      cases h
      exact ⟨fun _ _ => Or.inl .refl, by simp⟩
    rw [if_neg hl] at h
    by_cases ht : fType d f ≠ ftypeDir
    · rw [if_pos ht] at h
      cases h
      exact ⟨fun _ _ => Or.inl .refl, by simp⟩
    rw [if_neg ht] at h
    have ht := not_not.1 ht
    obtain ⟨⟨r₁, d₁⟩, h1, h2⟩ := Option.bind_eq_some_iff.1 h
    have hO := dirLookup_only hv hf h1
    -- the lookup changes the directory only
    have hkeep : ∀ e, (tree sRoot true d).Linked (.file e) → e ≠ f → Keeps d d₁ e :=
      fun e he hne => hO.keeps (fun _ _ _ _ h => h) hv he hne
    rcases r₁ with c | g
    · cases h2
      refine ⟨fun e he => ?_, fun r k name hw => ?_⟩
      · by_cases hef : e = f
        · rw [hef]
          exact Or.inr ⟨ht, hhere⟩
        · exact Or.inl (hkeep e he hef)
      · simp only [Walk.failed.injEq] at hw
        obtain ⟨-, hw⟩ := hw
        split at hw
        · cases hw
          exact ⟨ht, hhere⟩
        · cases hw
    · obtain ⟨hA, -, hok⟩ := dirLookup_adds (P := fun _ _ _ _ => True) (fun _ _ _ _ => trivial) hv hf hname ht h1
      obtain ⟨hlg, heq, i, hi, h0, j, hj, rfl⟩ := hok g rfl
      have hv₁ := hA.valid hv
      have hhd := hA.head hv hf
      -- a path from the entry is a path from here
      have hup : ∀ e, OnPath d₁ rest (fileBlock d₁ f i * 4096 + 256 * j) e → OnPath d (x :: rest) f e := by
        rintro e ⟨pre, hpre, hlen, hn⟩
        have hlen' : ∀ name ∈ x :: pre, name.length < 128 := by
          intro name hname
          rcases List.mem_cons.1 hname with rfl | hname
          · omega
          · exact hlen name hname
        refine ⟨x :: pre, List.cons_prefix_cons.2 ⟨rfl, hpre⟩, hlen', ?_⟩
        apply names_of_adds hA hv hf
        · intro name hname
          exact ⟨hg name ((List.cons_prefix_cons.2 ⟨rfl, hpre⟩ : x :: pre <+: x :: rest).subset hname),
            hlen' name hname⟩
        · refine ⟨by rw [hhd.fType_eq, ht], i, ?_, h0, j, hj, heq, hn⟩
          rw [dirBlocks_congr hhd.fSize_eq]
          exact hi
      obtain ⟨h3, h4⟩ := ih hv₁ hlg (Or.inr (nameFree_of_nameEq hx heq))
        (fun k hk => hg k (List.mem_cons_of_mem _ hk)) h2
      refine ⟨fun e he => ?_, fun r k name hw => ?_⟩
      · by_cases hef : e = f
        · rw [hef]
          exact Or.inr ⟨ht, hhere⟩
        · have h5 := hkeep e he hef
          rcases h3 e (hA.linked hv he) with h6 | ⟨h6, h7⟩
          · exact Or.inl (h5.trans h6)
          · rw [h5.head.fType_eq] at h6
            exact Or.inr ⟨h6, hup e h7⟩
      · obtain ⟨h5, h6⟩ := h4 r k name hw
        have h7 := hup k h6
        obtain ⟨pre, -, -, hn⟩ := h7
        rw [(hA.head hv (names_linked hf hn)).fType_eq] at h5
        exact ⟨h5, hup k h6⟩

/-! ## Making an entry -/

/-- Blocks are added to file `f`, below its size. -/
def BelowOf (f k n : ℕ) (free : Bool) (size : ℤ) : Prop := k = f ∧ Below k n free size

/-- **The entry that `dir_alloc_file` gives** has no name, and only the directory has changed. -/
theorem Vacant.dirAllocFile {res : Except ℤ ℕ} (hv : Vacant d) (hf : (tree sRoot true d).Linked (.file f))
    (hn : Named d f) (ht : fType d f = ftypeDir) (h : Fs.dirAllocFile d f = some (res, d')) :
    Vacant d' ∧ (∀ e, (tree sRoot true d).Linked (.file e) → (tree sRoot true d').Linked (.file e) ∧ Grown d d' e ∧
      (e ≠ f → Keeps d d' e)) ∧ ∀ g, res = .ok g → (tree sRoot true d').Linked (.file g) ∧ ¬ Named d' g := by
  unfold Fs.dirAllocFile at h
  split at h
  · cases h
  rename_i hmul
  obtain ⟨⟨r₁, d₁⟩, h1, h2⟩ := Option.bind_eq_some_iff.1 h
  have hsz := hv.size f hf
  have hlt := fSize_lt d f
  rw [Int.tmod_eq_emod_of_nonneg hsz] at hmul
  have hmul : fSize d f % 4096 = 0 := by simpa using hmul
  obtain ⟨hA, -, h3, h4⟩ := dirScan_adds (P := BelowOf f) hv.valid hf
    (fun i hi => ⟨rfl, dirsIn_below hn hsz hlt (List.mem_range.1 hi)⟩) h1
  have hv₁ := hv.adds (hA.imp fun _ _ _ _ h => h.2)
  have hf₁ := hA.linked hv.valid hf
  have hhd := hA.head hv.valid hf
  have hn₁ : Named d₁ f := by
    unfold Named at *
    rw [hhd.nameFree_eq]
    exact hn
  -- the scan only fills holes of the directory
  have hstep : ∀ e, (tree sRoot true d).Linked (.file e) →
      (tree sRoot true d₁).Linked (.file e) ∧ Grown d d₁ e ∧ (e ≠ f → Keeps d d₁ e) := fun e he =>
    ⟨hA.linked hv.valid he, hA.grown hv.valid he, fun hne => hA.keeps (fun _ _ _ _ h => h.1) hv.valid he hne⟩
  rcases r₁ with c | _ | k
  · cases h2
    exact ⟨hv₁, hstep, nofun⟩
  · -- all entries have names: the directory grows by a block, also where there is none for it
    have h5 : dirBlocks d f ≤ 1034 := by
      by_contra h5
      have := h3 rfl 1034 (List.mem_range.2 (show 1034 < dirBlocks d f by omega))
      omega
    rw [dirBlocks_eq hsz] at h5
    have h6 : fSize d₁ f = fSize d f := hhd.fSize_eq
    have hblocks : sizeBlocks (fSize d₁ f) = dirBlocks d f := by
      rw [h6, sizeBlocks_eq hsz hlt, dirBlocks_eq hsz]
      omega
    have hz : 0 ≤ fSize d₁ f + 4096 ∧ fSize d₁ f + 4096 < 2 ^ 31 := by omega
    have hv₂ : Vacant (Fs.setFSize d₁ f (fSize d₁ f + 4096)) := by
      apply hv₁.setFSize hf₁ hn₁ hz.1 hz.2
      intro n hm
      apply hv₁.past f n hf₁
      rw [sizeBlocks_eq hz.1 hz.2] at hm
      rw [sizeBlocks_eq (by omega) (by omega)]
      omega
    -- the new size first, then the block behind the old end
    have hsame : Same sRoot true d₁ (Fs.setFSize d₁ f (fSize d₁ f + 4096)) := hv₁.valid.sound.same_size hf₁
    have hf₂ := hsame.linked.2 hf₁
    have hn₂ := named_setFSize (z := fSize d₁ f + 4096) hv₁.valid.sound hf₁ hf₁ hn₁
    have hsize₂ : fSize (Fs.setFSize d₁ f (fSize d₁ f + 4096)) f = fSize d₁ f + 4096 := fSize_setFSize hz.1 hz.2
    obtain ⟨hA', -, h8⟩ := fileGetBlock_adds (P := BelowOf f) hv₂.valid.sound hf₂ (by
      refine ⟨rfl, hn₂, ?_⟩
      rw [hsize₂, sizeBlocks_eq hz.1 hz.2, dirBlocks_eq hsz]
      omega) h2
    refine ⟨hv₂.adds (hA'.imp fun _ _ _ _ h => h.2), fun e he => ?_, fun g hg => ?_⟩
    · obtain ⟨he₁, hg₁, hk₁⟩ := hstep e he
      have he₂ := hsame.linked.2 he₁
      refine ⟨hA'.linked hv₂.valid he₂, (hg₁.trans ?_).trans (hA'.grown hv₂.valid he₂), fun hne => ?_⟩
      · by_cases hef : e = f
        · rw [hef]
          exact grown_setFSize hv₁.valid hf₁ (by omega) hz.1 hz.2
        · exact (keeps_size hv₁.valid.sound hf₁ he₁ hef).grown
      · exact ((hk₁ hne).trans (keeps_size hv₁.valid.sound hf₁ he₁ hne)).trans
          (hA'.keeps (fun _ _ _ _ h => h.1) hv₂.valid he₂ hne)
    · obtain ⟨-, h9, rfl⟩ := h8 g hg
      have hty : fType (Fs.setFSize d₁ f (fSize d₁ f + 4096)) f = ftypeDir := by
        rw [hsame.type hf₁, hhd.fType_eq, ht]
      have hl := linked_entry (hA'.linked hv₂.valid hf₂)
        (opens_dir (by rw [(hA'.head hv₂.valid hf₂).fType_eq, hty])) h9 (show 0 < 16 by omega)
      rw [show fileBlock d' f (dirBlocks d f) * 4096 = fileBlock d' f (dirBlocks d f) * 4096 + 256 * 0 by omega]
      refine ⟨hl, ?_⟩
      rintro (h10 | h10)
      · exact entry_ne_root (hA'.valid hv₂.valid).sound (hA'.linked hv₂.valid hf₂) h9 h10
      · -- an entry with a name was there before, but the directory had no block there
        have h11 := hA'.block_old hv₂.valid hf₂ hty h9 (show 0 < 16 by omega) h10
        apply h9
        rw [← h11]
        exact (hsame.slotBlock_eq hf₁).trans (hv₁.past f _ hf₁ hblocks.le)
  · cases h2
    refine ⟨hv₁, hstep, fun g hg => ?_⟩
    cases hg
    obtain ⟨h5, i, -, -, h6, j, hj, rfl⟩ := h4 k rfl
    refine ⟨linked_entry hf₁ (opens_dir (by rw [hhd.fType_eq, ht])) h6 hj, ?_⟩
    rintro (h7 | h7)
    · exact entry_ne_root hv₁.valid.sound hf₁ h6 h7
    · rw [h5] at h7
      cases h7

theorem DirEntry.linked (h : DirEntry d e) : (tree sRoot true d).Linked (.file e) := by
  cases h with
  | root => exact .refl
  | mk hd ht h0 hj => exact linked_entry (reachable_linked hd) (opens_dir ht) h0 hj

/-- A blank file stays blank when a name is written to it. -/
theorem Blank.setName (h : Blank d g) (hs : Sound sRoot true d) (hg : (tree sRoot true d).Linked (.file g))
    (hl : bs.length ≤ 128) : Blank (d.write g bs) g := by
  have hsame : Same sRoot true d (d.write g bs) := hs.same_head hg le_rfl (by omega)
  refine ⟨?_, (hsame.type hg).trans h.type, fun s => (hsame.slotBlock_eq hg).trans (h.slot s)⟩
  rw [← h.size]
  unfold fSize
  rw [Bytes.load32_write_off (by omega)]

/-- What `file_create` does to the files of the layout where the unused entries are blank. -/
theorem Vacant.fileCreate_linked {res : Except ℤ ℕ} (hv : Vacant d) (h : Fs.fileCreate d path = some (res, d')) :
    Vacant d' ∧ ∀ g, res = .ok g → Blank d' g ∧ ∀ e, (tree sRoot true d).Linked (.file e) → e ≠ g →
      Keeps d d' e ∨ fType d e = ftypeDir ∧ OnPath d (elements path) sRoot e ∧ Grown d d' e := by
  obtain ⟨⟨w, d₁⟩, h1, h2⟩ := Option.bind_eq_some_iff.1 h
  obtain ⟨hA, hw⟩ := walkPath_adds dirsIn_below hv.valid h1
  obtain ⟨hkeep, hlast⟩ := walkElements_path hv.valid .refl (Or.inl rfl) (elements_good path) h1
  have hv₁ := hv.adds hA
  rcases w with ⟨dir, g⟩ | ⟨r, _ | ⟨dir, name⟩⟩
  · cases h2
    exact ⟨hv₁, nofun⟩
  · cases h2
    exact ⟨hv₁, nofun⟩
  obtain ⟨-, h3⟩ := hw
  obtain ⟨hf, hname, ht, hgood, hl⟩ := h3 dir name rfl
  obtain ⟨htd, hpath⟩ := hlast r dir name rfl
  by_cases hr : r ≠ -eNotFound
  · simp only [if_pos hr] at h2
    cases h2
    exact ⟨hv₁, nofun⟩
  simp only [if_neg hr] at h2
  obtain ⟨⟨r₂, d₂⟩, h4, h5⟩ := Option.bind_eq_some_iff.1 h2
  obtain ⟨hv₂, hstep, hnew⟩ := hv₁.dirAllocFile hf hname ht h4
  rcases r₂ with c | k
  · cases h5
    exact ⟨hv₂, nofun⟩
  simp only [Option.some.injEq, Prod.mk.injEq] at h5
  obtain ⟨rfl, rfl⟩ := h5
  obtain ⟨hk, hfree⟩ := hnew k rfl
  have hlen : (name ++ [0]).length ≤ 128 := by
    rw [List.length_append]
    exact hl
  obtain ⟨c, cs, rfl⟩ := List.exists_cons_of_ne_nil hgood.1
  have hhead : (c :: cs ++ [0]).head? ≠ some 0 := by
    intro h6
    apply hgood.2
    rw [← Option.some.inj h6]
    exact List.mem_cons_self
  refine ⟨hv₂.setName hk hlen (Or.inl (named_write (by simp) hhead)), fun g hg => ?_⟩
  cases hg
  refine ⟨(hv₂.unused k hk hfree).setName hv₂.valid.sound hk hlen, fun e he hne => ?_⟩
  have hl₁ := hA.linked hv.valid he
  obtain ⟨hl₂, hg₂, hk₂⟩ := hstep e hl₁
  have hlast := keeps_name hv₂.valid.sound hk hl₂ hne hlen
  have hgrown : Grown d (d₂.write k (c :: cs ++ [0])) e :=
    ((hA.grown hv.valid he).trans hg₂).trans hlast.grown
  by_cases hed : e = dir
  · rw [hed] at hgrown ⊢
    exact Or.inr ⟨htd, hpath, hgrown⟩
  · rcases hkeep e he with h6 | ⟨h6, h7⟩
    · exact Or.inl ((h6.trans (hk₂ hed)).trans hlast)
    · exact Or.inr ⟨h6, h7, hgrown⟩

/-- **`file_create`** gives a blank entry where the unused entries are blank. -/
theorem Vacant.fileCreate {res : Except ℤ ℕ} (hv : Vacant d) (h : Fs.fileCreate d path = some (res, d')) :
    Vacant d' ∧ ∀ g, res = .ok g → Created d d' path g := by
  obtain ⟨h1, h2⟩ := hv.fileCreate_linked h
  refine ⟨h1, fun g hg => ?_⟩
  obtain ⟨hblank, hothers⟩ := h2 g hg
  exact ⟨hblank, fun e he hne => hothers e he.linked hne⟩

/-! ## The other calls -/

/-- **`file_remove`** of a regular file, or of the root directory, which is no entry. -/
theorem Vacant.fileRemove {res : ℤ} (hv : Vacant d)
    (hc : ∀ g, Names d (elements path) sRoot g → g = sRoot ∨ fType d g = ftypeReg)
    (h : Fs.fileRemove d path = some (res, d')) : Vacant d' := by
  obtain ⟨⟨w, d₁⟩, h1, h2⟩ := Option.bind_eq_some_iff.1 h
  obtain ⟨hA, hw⟩ := walkPath_adds dirsIn_below hv.valid h1
  have hv₁ := hv.adds hA
  rcases w with ⟨dir, f⟩ | ⟨r, last⟩
  · obtain ⟨d₂, h3, h4⟩ := Option.bind_eq_some_iff.1 h2
    simp only [Option.some.injEq, Prod.mk.injEq] at h4
    obtain ⟨hf, hn, hnames⟩ := hw
    obtain ⟨hD, -, -⟩ := fileTruncateBlocks_drops hv₁.valid hf h3
    have hv₂ := hv₁.drops hf hD
    have hf₂ := (hD.valid hv₁.valid hf).2
    have hhd := hD.head hv₁.valid hf
    have hn₂ : Named d₂ f := by
      unfold Named
      rw [hhd.nameFree_eq]
      exact hn
    have hslots := hv₁.truncated hf h3
    -- the size is cleared before the name: the two writes do not meet
    have hcomm : Fs.setFSize (d₂.write f [0]) f 0 = (Fs.setFSize d₂ f 0).write f [0] := by
      unfold Fs.setFSize Bytes.store32
      exact Bytes.write_comm (by simp)
    have hsame : Same sRoot true d₂ (Fs.setFSize d₂ f 0) := hv₂.valid.sound.same_size hf₂
    rw [← h4.2, hcomm]
    apply (hv₂.setFSize hf₂ hn₂ le_rfl (by omega) fun n _ => hslots _).setName (hsame.linked.2 hf₂) (by simp)
    rcases hc f hnames with rfl | hty
    · exact Or.inl (Or.inl rfl)
    · refine Or.inr ⟨fSize_setFSize le_rfl (by omega), ?_, fun s => (hsame.slotBlock_eq hf₂).trans (hslots s)⟩
      rw [hsame.type hf₂, hhd.fType_eq, (hA.head hv.valid (names_linked .refl hnames)).fType_eq]
      exact hty
  · simp only [Option.some.injEq, Prod.mk.injEq] at h2
    rw [← h2.2]
    exact hv₁

/-- **`file_write`** to a regular file with a name. -/
theorem Vacant.fileWrite {buf : List Byte} {offset res : ℤ} (hv : Vacant d)
    (hf : (tree sRoot true d).Linked (.file f)) (hn : Named d f) (ht : fType d f ≠ ftypeDir) (h0 : 0 ≤ offset)
    (h1 : offset + buf.length < 2 ^ 31) (h : Fs.fileWrite d f buf offset = some (res, d')) : Vacant d' := by
  obtain ⟨d₁, h2, h3⟩ := Option.bind_eq_some_iff.1 h
  obtain ⟨⟨r₁, d₂⟩, h4, h5⟩ := Option.bind_eq_some_iff.1 h3
  simp only [Option.some.injEq, Prod.mk.injEq] at h5
  obtain ⟨-, hfree, -, hfin⟩ := growTo (P := Below) hf (hv.size f hf) (opens_regular ht) h0 h1 h2
  obtain ⟨hval, hf₁, ho₁⟩ := extendTo_valid hv.valid hf (opens_regular ht) h2
  have hv₁ : Vacant d₁ := by
    unfold extendTo at h2
    split at h2
    · have hz : i32 (u64 (offset + buf.length) : ℕ) = offset + buf.length := by
        rw [u64_of_nonneg (by omega) (by omega)]
        unfold i32
        rw [BitVec.toInt_ofInt, Int.bmod_eq_of_le (by omega) (by omega)]
        omega
      rw [hz] at h2
      exact hv.fileSetSize hf hn (by omega) h1 h2
    · obtain rfl := Option.some.inj h2
      exact hv
  rw [← h5.2]
  refine fileWriteLoop_rule (P := Below) (I := Vacant) hval hf₁ ho₁ h0 ?_ hv₁ ?_ ?_ h4
  · intro n hlt
    refine ⟨?_, ?_⟩
    · rw [hfree]
      exact hn
    · rw [sizeBlocks_eq (hv₁.size f hf₁) (fSize_lt d₁ f)]
      omega
  · exact fun _ _ _ _ h6 h7 => h6.add h7
  · exact fun _ _ _ _ _ hf ho h6 h7 h8 h9 => h6.data hf ho h7 h8 h9

/-- **One call** leaves unused entries blank. -/
theorem exec_vacant {c : Call} (hv : Vacant d) (hc : LeavesBlank d c) (h : exec d c = some d') : Vacant d' := by
  cases c with
  | create path =>
    obtain ⟨⟨r, d₁⟩, h1, rfl⟩ := Option.map_eq_some_iff.1 h
    exact (hv.fileCreate h1).1
  | «open» path =>
    obtain ⟨⟨r, d₁⟩, h1, rfl⟩ := Option.map_eq_some_iff.1 h
    exact hv.adds (fileOpen_adds dirsIn_below hv.valid h1).1
  | read f count offset =>
    obtain ⟨⟨r, d₁⟩, h1, rfl⟩ := Option.map_eq_some_iff.1 h
    rcases hc with ⟨h0, hf⟩ | hend
    · have hl := reachable_linked hf
      apply hv.adds (fileRead_adds hv.valid hl (fun n hn => ⟨reachable_named hf, ?_⟩) h1)
      have h2 := hn h0
      rw [sizeBlocks_eq (hv.size f hl) (fSize_lt d f)]
      omega
    · unfold fileRead at h1
      rw [if_pos hend] at h1
      cases h1
      exact hv
  | write f buf offset =>
    obtain ⟨⟨r, d₁⟩, h1, rfl⟩ := Option.map_eq_some_iff.1 h
    obtain ⟨h0, ⟨h2, hf, ht⟩ | ⟨rfl, hend⟩⟩ := hc
    · exact hv.fileWrite (reachable_linked hf) (reachable_named hf) ht h0 h2 h1
    · -- nothing is written, and the file is not extended
      have hsz := fSize_lt d f
      have hext : extendTo d f (u64 (offset + ([] : List Byte).length)) = some d := by
        unfold extendTo
        rw [if_neg]
        rw [u64_of_nonneg (by simpa using h0) (by simp; omega), u64_of_nonneg (by omega) (by omega)]
        simp only [List.length_nil]
        omega
      obtain ⟨d₂, h3, h4⟩ := Option.bind_eq_some_iff.1 h1
      rw [hext] at h3
      cases h3
      obtain ⟨⟨r₁, d₃⟩, h5, h6⟩ := Option.bind_eq_some_iff.1 h4
      cases h5
      cases h6
      exact hv
  | setSize f size =>
    rcases hc with ⟨h0, h1, hf⟩ | rfl
    · exact hv.fileSetSize (reachable_linked hf) (reachable_named hf) h0 h1 h
    · have h2 : setFSize d f (fSize d f) = d := by
        unfold setFSize fSize
        rw [BitVec.ofInt_toInt, Bytes.store32_load32]
      simp only [exec, fileSetSize, gt_iff_lt, lt_irrefl, if_false, h2, Option.some.injEq] at h
      rw [← h]
      exact hv
  | remove path =>
    obtain ⟨⟨r, d₁⟩, h1, rfl⟩ := Option.map_eq_some_iff.1 h
    exact hv.fileRemove hc h1

theorem calls_vacant (hv : Vacant d) (hr : Calls LeavesBlank d d') : Vacant d' := by
  induction hr with
  | refl => exact hv
  | tail _ h ih =>
    obtain ⟨c, hc, hx⟩ := h
    exact exec_vacant ih hc hx

/-! ## Runs -/

/-- On a consistent image the files of the layout are those in the blocks of reachable directories. -/
theorem Consistent.dirEntry (h : Consistent d) (hf : (tree sRoot true d).Linked (.file f)) : DirEntry d f := by
  rcases Owners.Linked.cases hf with h1 | ⟨r, s, b, hh, hk⟩
  · rw [show f = sRoot from Rec.file.inj h1]
    exact .root
  · obtain ⟨g, hg, rfl, rfl, h0⟩ := h.held hh
    obtain ⟨ho, hs, j, hj, rfl⟩ := kid_entry hk
    obtain ⟨n, rfl⟩ := data_of_slot h0 hs
    exact .mk hg (by simpa [opens] using ho) h0 hj

theorem Formatted.vacant (h : Formatted d) : Vacant d where
  valid := h.valid
  size f hf := h.toConsistent.tidy.size f hf
  past f n hf hn := h.toConsistent.tidy.short f n hf hn
  unused f hf hn := by
    rcases h.linked hf with h1 | ⟨h1, h2⟩
    · exact absurd (reachable_named h1) hn
    · refine ⟨h1, ?_, h2⟩
      cases h.toConsistent.dirEntry hf with
      | root => exact absurd (Or.inl rfl) hn
      | mk hd ht h0 hj =>
        refine h.regular _ _ _ hd ht h0 hj ?_
        by_contra h3
        exact hn (Or.inr (by simpa using h3))

/-- **A created file is empty and regular**, has no blocks, and creating it changes no other entry, but
that directories on its path may grow: after every run from a formatted image in which files are used
only while they are there, no directory is written to and none is removed. -/
theorem created_blank {d₀ : Bytes} (h : Formatted d₀) (hr : Calls LeavesBlank d₀ d)
    (hc : fileCreate d path = some (.ok g, d')) : Created d d' path g :=
  ((calls_vacant h.vacant hr).fileCreate hc).2 g rfl

/-! ## An entry that is used again -/

theorem binImage_formatted : Formatted binImage where
  toConsistent := binImage_consistent
  regular f i j hf _ h0 hj hfree := by
    have key : ∀ j < 16, nameFree binImage (3 * 4096 + 256 * j) = true →
        fType binImage (3 * 4096 + 256 * j) = ftypeReg := by decide +kernel
    rcases binImage_reachable hf with rfl | rfl
    · rw [(binImage_one.rootBlock h0).2] at hfree ⊢
      exact key j hj hfree
    · have h5 : ∀ s, slotBlock binImage 12288 s = 0 := (binImage_one.entry (j := 0) (by decide)).2
      exact absurd (h5 _) h0

/-- The path `/b`. -/
def pathB : CString := ⟨[0x2F, 0x62], by decide⟩

/-- The root directory has block 3 only, and entry `a` of it is a regular file. -/
def regularA (d : Bytes) : Bool :=
  decide (dirBlocks d sRoot = 1 ∧ fileBlock d sRoot 0 = 3) && (List.range 16).all fun j =>
    !nameEq [0x61] d (3 * 4096 + 256 * j) || fType d (3 * 4096 + 256 * j) == ftypeReg

theorem regularA_names (h : regularA d = true) (hn : Names d (elements pathA) sRoot f) : fType d f = ftypeReg := by
  obtain ⟨h0, h3⟩ := Bool.and_eq_true_iff.1 h
  obtain ⟨h1, h2⟩ := of_decide_eq_true h0
  have hels : elements pathA = [[0x61]] := by decide
  rw [hels] at hn
  obtain ⟨-, i, hi, -, j, hj, heq, rfl⟩ := hn
  rw [h1] at hi
  obtain rfl : i = 0 := by omega
  rw [h2] at heq ⊢
  have h4 := List.all_eq_true.1 h3 j (List.mem_range.2 hj)
  rw [heq] at h4
  simpa using h4

/-- `file_create` gives file `f`. -/
def gives (f : ℕ) (r : Except ℤ ℕ × Bytes) : Bool := r.1.toOption == some f

theorem gives_ok {r : Except ℤ ℕ × Bytes} (h : gives f r = true) : r = (.ok f, r.2) := by
  obtain ⟨r, d⟩ := r
  cases r with
  | error e => cases h
  | ok g =>
    have h1 : some g = some f := beq_iff_eq.1 h
    rw [Option.some.inj h1]

/-- **This fails**, for each kind of call that is left out. When `/bin` is removed its entry stays
a directory, and `/a` is created as one. When `/a` is removed and then written to through the file that
was created, `/b` is created with a size of 1. -/
theorem created_blank_counterexample :
    (¬ ∀ d₀ d d' path g, Formatted d₀ → Run (fun _ _ => True) d₀ d →
      fileCreate d path = some (.ok g, d') → Created d d' path g) ∧
    ¬ ∀ d₀ d₁ d₂ d₃ d₄ path path' g g' buf, Formatted d₀ → fileCreate d₀ path = some (.ok g, d₁) →
      exec d₁ (.remove path) = some d₂ → exec d₂ (.write g buf 0) = some d₃ →
      fileCreate d₃ path' = some (.ok g', d₄) → Created d₃ d₄ path' g' := by
  constructor
  · intro h
    have hrun : ((exec binImage (.remove binPath)).any fun d₁ => (fileCreate d₁ pathA).any fun r =>
        gives 12288 r && decide (fType r.2 12288 = ftypeDir)) = true := by decide +kernel
    obtain ⟨d₁, hx, h1⟩ := (Option.any_eq_true _ _).1 hrun
    obtain ⟨r, hr, h2⟩ := (Option.any_eq_true _ _).1 h1
    obtain ⟨h3, h4⟩ := Bool.and_eq_true_iff.1 h2
    rw [gives_ok h3] at hr
    have h5 := (h _ _ _ _ _ binImage_formatted (.single ⟨.remove binPath, trivial, trivial, hx⟩) hr).blank.type
    rw [of_decide_eq_true h4] at h5
    exact absurd h5 (by decide)
  · intro h
    have hrun : ((fileCreate binImage pathA).any fun r₁ => gives 12544 r₁ &&
        (exec r₁.2 (.remove pathA)).any fun d₂ => (exec d₂ (.write 12544 [0x68] 0)).any fun d₃ =>
          (fileCreate d₃ pathB).any fun r => gives 12544 r && decide (fSize r.2 12544 = 1)) = true := by
      decide +kernel
    obtain ⟨r₁, hr₁, h1⟩ := (Option.any_eq_true _ _).1 hrun
    obtain ⟨hg₁, h1⟩ := Bool.and_eq_true_iff.1 h1
    obtain ⟨d₂, hx₂, h2⟩ := (Option.any_eq_true _ _).1 h1
    obtain ⟨d₃, hx₃, h3⟩ := (Option.any_eq_true _ _).1 h2
    obtain ⟨r, hr, h4⟩ := (Option.any_eq_true _ _).1 h3
    obtain ⟨hg, h5⟩ := Bool.and_eq_true_iff.1 h4
    rw [gives_ok hg₁] at hr₁
    rw [gives_ok hg] at hr
    have h6 := (h _ _ _ _ _ _ _ _ _ _ binImage_formatted hr₁ hx₂ hx₃ hr).blank.size
    rw [of_decide_eq_true h5] at h6
    exact absurd h6 (by decide)

/-- `/a` is created, written to and removed, and `/b` gets its entry. -/
theorem created_blank_again : ∃ d d', Calls LeavesBlank binImage d ∧
    fileCreate d pathB = some (.ok 12544, d') ∧ Created d d' pathB 12544 := by
  have hrun : ((exec binImage (.create pathA)).any fun d₁ => hasEntry d₁ 1 &&
      decide (fType d₁ (3 * 4096 + 256 * 1) ≠ ftypeDir) &&
      (exec d₁ (.write (3 * 4096 + 256 * 1) [0x68, 0x69] 0)).any fun d₂ => regularA d₂ &&
        (exec d₂ (.remove pathA)).any fun d₃ => (fileCreate d₃ pathB).any (gives 12544)) = true := by
    decide +kernel
  obtain ⟨d₁, hx₁, h1⟩ := (Option.any_eq_true _ _).1 hrun
  simp only [Bool.and_eq_true, decide_eq_true_eq] at h1
  obtain ⟨⟨hb, ht⟩, h1⟩ := h1
  obtain ⟨d₂, hx₂, h2⟩ := (Option.any_eq_true _ _).1 h1
  obtain ⟨ha, h2⟩ := Bool.and_eq_true_iff.1 h2
  obtain ⟨d₃, hx₃, h3⟩ := (Option.any_eq_true _ _).1 h2
  obtain ⟨r, hr, hg⟩ := (Option.any_eq_true _ _).1 h3
  rw [gives_ok hg] at hr
  have hcalls : Calls LeavesBlank binImage d₃ := by
    refine .tail (b := d₂) (.tail (b := d₁) (.single ⟨.create pathA, trivial, hx₁⟩)
      ⟨.write (3 * 4096 + 256 * 1) [0x68, 0x69] 0, ?_, hx₂⟩) ⟨.remove pathA, ?_, hx₃⟩
    · exact ⟨le_rfl, Or.inl ⟨by decide, hasEntry_reachable hb (by omega), ht⟩⟩
    · exact fun f hn => Or.inr (regularA_names ha hn)
  exact ⟨d₃, r.2, hcalls, hr, created_blank binImage_formatted hcalls hr⟩

end Jos.Fs
