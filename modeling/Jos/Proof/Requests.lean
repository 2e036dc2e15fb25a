import Jos.Spec.Serv
import Jos.Proof.Exclusive
import Jos.Proof.Total

/-!
# The sizes of directories

Every request keeps the disk whole (`handle_whole`) unless it sets the size of a directory to
something that is no multiple of the block size, writes to a directory, or uses an id whose
file is gone. So the sizes of directories stay as `dir_lookup` and `dir_alloc_file` assert
(`dirs_whole`).

`serve_set_size` does not look at the type of the file (`dirs_whole_counterexample`).
-/

namespace Jos.Fs

open Lib

variable {d d' d₁ : Bytes} {σ σ' : Server} {mem : Bool} {req : BitVec 32} {page : Bytes} {rep : Reply}
  {f g i : ℕ} {z : ℤ} {buf : List Byte} {path : CString} {omode : BitVec 32}

/-! ## The calls that change sizes -/

theorem Whole.fileSetSize (hw : Whole d) (hf : (tree sRoot true d).Linked (.file f))
    (hz : fType d f = ftypeDir → 0 ≤ z ∧ z < 2 ^ 31 ∧ z % 4096 = 0)
    (h : Fs.fileSetSize d f z = some d') : Whole d' ∧ (tree sRoot true d').Linked (.file f) := by
  unfold Fs.fileSetSize at h
  split at h
  · obtain ⟨d₁, h2, rfl⟩ := Option.map_eq_some_iff.1 h
    obtain ⟨hD, -, -⟩ := fileTruncateBlocks_drops hw.valid hf h2
    obtain ⟨hv₁, hf₁⟩ := hD.valid hw.valid hf
    refine ⟨(hw.drops hf hD).setFSize hf₁ ?_, (hv₁.sound.same_size hf₁).linked.2 hf₁⟩
    rw [(hD.head hw.valid hf).fType_eq]
    exact hz
  · obtain rfl := Option.some.inj h
    exact ⟨hw.setFSize hf hz, (hw.valid.sound.same_size hf).linked.2 hf⟩

theorem Whole.fileWrite {offset : ℤ} {res : ℤ} (hw : Whole d) (hf : (tree sRoot true d).Linked (.file f))
    (ht : fType d f ≠ ftypeDir) (h1 : -2 ^ 31 ≤ offset) (hl : buf.length < 2 ^ 32)
    (hok : WriteOk offset buf.length) (h : Fs.fileWrite d f buf offset = some (res, d')) : Whole d' := by
  obtain ⟨d₁, h2, h3⟩ := Option.bind_eq_some_iff.1 h
  obtain ⟨⟨r₁, d₂⟩, h4, h5⟩ := Option.bind_eq_some_iff.1 h3
  simp only [Option.some.injEq, Prod.mk.injEq] at h5
  rw [← h5.2]
  have hw₁ : Whole d₁ := by
    unfold extendTo at h2
    split at h2
    · exact (hw.fileSetSize hf (fun h => absurd h ht) h2).1
    · obtain rfl := Option.some.inj h2
      exact hw
  obtain ⟨hv₁, hf₁, ho₁⟩ := extendTo_valid hw.valid hf (opens_regular ht) h2
  by_cases h0 : 0 ≤ offset
  · exact hw₁.moves (fileWriteLoop_moves (P := Anywhere) hv₁ hf₁ ho₁ h0 (fun _ _ => trivial) h4)
  · obtain ⟨res, h6, -⟩ := fileWriteLoop_skip (f := f) (d := d₁) _ (by omega) h1 hok hl
    rw [h6] at h4
    simp only [Option.some.injEq, Prod.mk.injEq] at h4
    rw [← h4.2]
    exact hw₁

theorem Whole.fileRemove {res : ℤ} (hw : Whole d) (h : Fs.fileRemove d path = some (res, d')) :
    Whole d' := by
  obtain ⟨⟨w, d₁⟩, h1, h2⟩ := Option.bind_eq_some_iff.1 h
  obtain ⟨hA, hok⟩ := walkPath_adds dirsIn_anywhere hw.valid h1
  have hw₁ := hw.adds hA
  rcases w with ⟨dir, f⟩ | ⟨r, last⟩
  · obtain ⟨d₂, h3, h4⟩ := Option.bind_eq_some_iff.1 h2
    simp only [Option.some.injEq, Prod.mk.injEq] at h4
    obtain ⟨hD, -, -⟩ := fileTruncateBlocks_drops hw₁.valid hok.1 h3
    obtain ⟨hv₂, hf₂⟩ := hD.valid hw₁.valid hok.1
    have hf₃ : (tree sRoot true (d₂.write f [0])).Linked (.file f) :=
      (hv₂.sound.same_head hf₂ le_rfl (by simp)).linked.2 hf₂
    rw [← h4.2]
    exact ((hw₁.drops hok.1 hD).setName hf₂ (by simp)).setFSize hf₃ fun _ => ⟨le_rfl, by omega, rfl⟩
  · simp only [Option.some.injEq, Prod.mk.injEq] at h2
    rw [← h2.2]
    exact hw₁

/-- The part of `serve_open` that opens the file gives a linked file. -/
theorem openPath_moves {P : ℕ → ℕ → Bool → ℤ → Prop} {res : Except ℤ ℕ} (hP : DirsIn P sRoot)
    (hv : Valid sRoot true d) (h : openPath d path omode = some (res, d')) :
    Moves P sRoot true d d' ∧ ∀ g, res = .ok g → (tree sRoot true d').Linked (.file g) := by
  unfold openPath at h
  split at h
  · obtain ⟨⟨r₁, d₁⟩, h1, h2⟩ := Option.bind_eq_some_iff.1 h
    obtain ⟨hM, hl⟩ := fileCreate_moves hP hv h1
    rcases r₁ with e | f
    · dsimp only at h2
      split at h2
      · obtain ⟨hA, hl'⟩ := fileOpen_adds hP (hM.valid hv) h2
        exact ⟨hM.trans hA.moves, hl'⟩
      · simp only [Option.some.injEq, Prod.mk.injEq] at h2
        obtain ⟨rfl, rfl⟩ := h2
        exact ⟨hM, nofun⟩
    · simp only [Option.some.injEq, Prod.mk.injEq] at h2
      obtain ⟨rfl, rfl⟩ := h2
      exact ⟨hM, hl⟩
  · obtain ⟨hA, hl⟩ := fileOpen_adds hP hv h
    exact ⟨hA.moves, hl⟩

theorem serveOpen_whole {r : ℤ} {pg : Option ℕ} (hw : Whole σ.disk)
    (h : serveOpen mem page σ = some (r, pg, σ')) : Whole σ'.disk := by
  unfold serveOpen at h
  generalize openfileAlloc mem σ.opentab = o at h
  obtain ⟨r₀, _ | i, t⟩ := o
  · simp only [Option.some.injEq, Prod.mk.injEq] at h
    obtain ⟨-, -, rfl⟩ := h
    exact hw
  dsimp only at h
  split at h
  · simp only [Option.some.injEq, Prod.mk.injEq] at h
    obtain ⟨-, -, rfl⟩ := h
    exact hw
  obtain ⟨⟨res, d₁⟩, h1, h2⟩ := Option.bind_eq_some_iff.1 h
  obtain ⟨hM, hl⟩ := openPath_moves dirsIn_anywhere hw.valid h1
  have hw₁ := hw.moves hM
  rcases res with e | f
  · simp only [Option.some.injEq, Prod.mk.injEq] at h2
    obtain ⟨-, -, rfl⟩ := h2
    exact hw₁
  obtain ⟨d₂, h3, h4⟩ := Option.bind_eq_some_iff.1 h2
  simp only [Option.some.injEq, Prod.mk.injEq] at h4
  obtain ⟨-, -, rfl⟩ := h4
  unfold truncOpen at h3
  split at h3
  · exact (hw₁.fileSetSize (hl f rfl) (fun _ => ⟨le_rfl, by omega, rfl⟩) h3).1
  · obtain rfl := Option.some.inj h3
    exact hw₁

/-! ## Requests -/

/-- A request that keeps the sizes of directories: its file is still in a block of a
directory; the new size of a directory is a multiple of the block size; and a write is not to
a directory, and stays inside the blocks of its file. -/
def DirSafe (req : BitVec 32) (page : Bytes) (σ : Server) : Prop :=
  ∀ i f, openfileLookup σ.opentab (page.load32 0) = .ok i → (σ.opentab i).file = some f →
    match req.toNat with
    | 2 => (tree sRoot true σ.disk).Linked (.file f) ∧
        (fType σ.disk f = ftypeDir → 0 ≤ (page.load32 4).toInt ∧ (page.load32 4).toInt % 4096 = 0)
    | 3 => (tree sRoot true σ.disk).Linked (.file f)
    | 4 => (tree sRoot true σ.disk).Linked (.file f) ∧ fType σ.disk f ≠ ftypeDir ∧
        WriteOk (σ.opentab i).fd.offset.toInt (reqN page)
    | _ => True

theorem reqN_le (page : Bytes) : reqN page ≤ 4096 := min_le_right ..

theorem reqBuf_length (page d : Bytes) (n : ℕ) : (reqBuf page d n).length = n := by simp [reqBuf]

/-- **Every such request keeps the disk whole.** -/
theorem handle_whole (hw : Whole σ.disk) (hc : DirSafe req page σ) (h : handle mem req page σ = some rep) :
    Whole rep.server.disk := by
  unfold handle at h
  split at h
  -- a request by its type; those that fail to find their file change nothing
  · obtain ⟨⟨r, pg, σ'⟩, h1, rfl⟩ := Option.map_eq_some_iff.1 h
    exact serveOpen_whole hw h1
  · rename_i hreq
    obtain ⟨⟨r, σ'⟩, h1, rfl⟩ := Option.map_eq_some_iff.1 h
    unfold serveSetSize at h1
    split at h1
    · cases h1
      exact hw
    · rename_i i hi
      obtain ⟨f, hfile, h2⟩ := Option.bind_eq_some_iff.1 h1
      obtain ⟨d, h3, h4⟩ := Option.bind_eq_some_iff.1 h2
      cases h4
      have h5 := hc i f hi hfile
      rw [hreq] at h5
      have h6 := (page.load32 4).toInt_lt
      exact (hw.fileSetSize h5.1 (fun ht => ⟨(h5.2 ht).1, h6, (h5.2 ht).2⟩) h3).1
  · rename_i hreq
    obtain ⟨⟨r, page', σ'⟩, h1, rfl⟩ := Option.map_eq_some_iff.1 h
    unfold serveRead at h1
    split at h1
    · cases h1
      exact hw
    · rename_i i hi
      obtain ⟨f, hfile, h2⟩ := Option.bind_eq_some_iff.1 h1
      obtain ⟨⟨⟨r, bs⟩, d⟩, h3, h4⟩ := Option.bind_eq_some_iff.1 h2
      have h5 := hc i f hi hfile
      rw [hreq] at h5
      have h6 := hw.adds (fileRead_adds (P := Anywhere) hw.valid h5 (fun _ _ => trivial) h3)
      dsimp only at h4
      split at h4
      · cases h4
        exact h6
      · cases h4
        exact h6
  · rename_i hreq
    obtain ⟨⟨r, σ'⟩, h1, rfl⟩ := Option.map_eq_some_iff.1 h
    unfold serveWrite at h1
    split at h1
    · cases h1
      exact hw
    · rename_i i hi
      obtain ⟨f, hfile, h2⟩ := Option.bind_eq_some_iff.1 h1
      obtain ⟨⟨r, d⟩, h3, h4⟩ := Option.bind_eq_some_iff.1 h2
      have h5 := hc i f hi hfile
      rw [hreq] at h5
      have h6 := (σ.opentab i).fd.offset.le_toInt
      have h7 := reqN_le page
      have h8 : Whole d := by
        refine hw.fileWrite h5.1 h5.2.1 h6 ?_ ?_ h3
        · rw [reqBuf_length]
          omega
        · rw [reqBuf_length]
          exact h5.2.2
      dsimp only at h4
      split at h4
      · cases h4
        exact h8
      · cases h4
        exact h8
  · obtain ⟨⟨r, page', σ'⟩, h1, rfl⟩ := Option.map_eq_some_iff.1 h
    unfold serveStat at h1
    split at h1
    · cases h1
      exact hw
    · obtain ⟨f, -, h2⟩ := Option.bind_eq_some_iff.1 h1
      cases h2
      exact hw
  · obtain ⟨⟨r, σ'⟩, h1, rfl⟩ := Option.map_eq_some_iff.1 h
    unfold serveFlush at h1
    split at h1
    · cases h1
      exact hw
    · obtain ⟨f, -, h2⟩ := Option.bind_eq_some_iff.1 h1
      cases h2
      exact hw
  · generalize hs : serveRemove page σ = o at h
    obtain ⟨⟨r, σ'⟩, rfl, rfl⟩ := Option.map_eq_some_iff.1 h
    unfold serveRemove at hs
    generalize ho : Fs.fileRemove σ.disk (reqPath page) = o at hs
    obtain ⟨⟨r', d⟩, rfl, h2⟩ := Option.bind_eq_some_iff.1 hs
    cases h2
    exact hw.fileRemove ho
  · cases h
    exact hw
  · cases h
    exact hw

theorem step_whole (hw : Whole σ.disk) (h : ServStep DirSafe σ σ') : Whole σ'.disk := by
  cases h with
  | request hc h => exact handle_whole hw hc h
  | clients _ => exact hw

theorem run_whole (hw : Whole σ.disk) (h : ServRun DirSafe σ σ') : Whole σ'.disk := by
  induction h with
  | refl => exact hw
  | tail _ h1 ih => exact step_whole ih h1

theorem Consistent.whole (h : Consistent d) : Whole d := by
  refine ⟨h.valid, fun {f} hf ht => ?_⟩
  rcases h.linked hf with h1 | h1
  · have h2 := h.dirSize f h1 ht
    rw [Int.tmod_eq_emod_of_nonneg (h.size f h1).1] at h2
    exact h2
  · rw [h1.1]
    rfl

/-! ## Directories -/

/-- The sizes of directories are multiples of the block size that are not negative, so no
call that looks up or makes an entry panics. -/
def DirsOk (d : Bytes) : Prop :=
  (∀ f, Reachable d f → fType d f = ftypeDir → 0 ≤ fSize d f ∧ fSize d f % 4096 = 0) ∧
  ∀ path, (fileCreate d path).isSome ∧ (fileOpen d path).isSome ∧ (fileRemove d path).isSome

theorem Whole.dirsOk (hw : Whole d) : DirsOk d := by
  refine ⟨fun f hf ht => ?_, fun path => ⟨?_, ?_, ?_⟩⟩
  · have hl := reachable_linked hf
    exact ⟨hw.valid.size hl (opens_dir ht), hw.dirSize hl ht⟩
  · obtain ⟨res, d', h⟩ := hw.fileCreate_total path
    rw [h]
    rfl
  · obtain ⟨res, d', h⟩ := hw.fileOpen_total path
    rw [h]
    rfl
  · obtain ⟨res, d', h⟩ := hw.fileRemove_total path
    rw [h]
    rfl

/-- **The sizes of directories** stay multiples of the block size in every run of the server
from a consistent image whose requests are safe for directories. -/
theorem dirs_whole (h : Consistent d) (hr : ServRun DirSafe ⟨d, serveInit⟩ σ) : DirsOk σ.disk :=
  (run_whole h.whole hr).dirsOk

/-! ## The root directory, opened -/

/-- The file that the id of a request names. -/
def reqFile (page : Bytes) (σ : Server) : Option ℕ :=
  match openfileLookup σ.opentab (page.load32 0) with
  | .error _ => none
  | .ok i => (σ.opentab i).file

theorem reqFile_eq (h : openfileLookup σ.opentab (page.load32 0) = .ok i)
    (hf : (σ.opentab i).file = some f) : reqFile page σ = some f := by
  unfold reqFile
  rw [h]
  exact hf

/-- A client maps or unmaps an Fd page. -/
theorem ServStep.setRef {C : BitVec 32 → Bytes → Server → Prop} (σ : Server) (i k : ℕ) :
    ServStep C σ (setRef σ i k) := by
  refine .clients (t := (Fs.setRef σ i k).opentab) fun j => ?_
  unfold Fs.setRef
  by_cases h : j = i
  · rw [h]
    dsimp only
    rw [Function.update_self]
    exact ⟨rfl, rfl, rfl⟩
  · dsimp only
    rw [Function.update_of_ne h]
    exact ⟨rfl, rfl, rfl⟩

/-- A request to open `/`. -/
def openRoot : Bytes := (⟨fun _ => 0⟩ : Bytes).write 0 [0x2F]

/-- A request to set the size of the file with id 1024. -/
def sizeReq (size : BitVec 32) : Bytes := ((⟨fun _ => 0⟩ : Bytes).store32 0 1024).store32 4 size

/-- **This fails**: the root directory is opened, and its size is set to 1. -/
theorem dirs_whole_counterexample :
    ¬ ∀ d σ, Consistent d → ServRun (fun _ _ _ => True) ⟨d, serveInit⟩ σ → DirsOk σ.disk := by
  intro h
  have hrun : ((handle true 1 openRoot ⟨binImage, serveInit⟩).any fun rep₁ =>
      (handle true 2 (sizeReq 1) (setRef rep₁.server 0 2)).any fun rep₂ =>
        decide (fType rep₂.server.disk sRoot = ftypeDir ∧ fSize rep₂.server.disk sRoot = 1)) = true := by
    decide +kernel
  obtain ⟨rep₁, h1, h2⟩ := (Option.any_eq_true _ _).1 hrun
  obtain ⟨rep₂, h3, h4⟩ := (Option.any_eq_true _ _).1 h2
  obtain ⟨ht, hsz⟩ := of_decide_eq_true h4
  have hr : ServRun (fun _ _ _ => True) ⟨binImage, serveInit⟩ rep₂.server :=
    .tail (.tail (.single (.request trivial h1)) (.setRef _ 0 2)) (.request trivial h3)
  have h5 := ((h _ _ binImage_consistent hr).1 sRoot .root ht).2
  rw [hsz] at h5
  exact absurd h5 (by decide)

/-- A run that opens the root directory and sets its size to two blocks. -/
theorem dirs_whole_grow :
    ∃ σ, ServRun DirSafe ⟨binImage, serveInit⟩ σ ∧ fSize σ.disk sRoot = 8192 ∧ DirsOk σ.disk := by
  have hrun : ((handle true 1 openRoot ⟨binImage, serveInit⟩).any fun rep₁ =>
      decide (reqFile (sizeReq 8192) (setRef rep₁.server 0 2) = some sRoot) &&
      (handle true 2 (sizeReq 8192) (setRef rep₁.server 0 2)).any fun rep₂ =>
        decide (fSize rep₂.server.disk sRoot = 8192)) = true := by
    decide +kernel
  obtain ⟨rep₁, h1, h2⟩ := (Option.any_eq_true _ _).1 hrun
  obtain ⟨hfile, h2⟩ := Bool.and_eq_true_iff.1 h2
  obtain ⟨rep₂, h3, h4⟩ := (Option.any_eq_true _ _).1 h2
  have hs₂ : DirSafe 2 (sizeReq 8192) (setRef rep₁.server 0 2) := by
    intro i f hi hf
    have h5 := (reqFile_eq hi hf).symm.trans (of_decide_eq_true hfile)
    rw [Option.some.inj h5]
    exact ⟨.refl, fun _ => ⟨by decide, by decide⟩⟩
  have hr : ServRun DirSafe ⟨binImage, serveInit⟩ rep₂.server :=
    .tail (.tail (.single (.request (fun _ _ _ _ => trivial) h1)) (.setRef _ 0 2)) (.request hs₂ h3)
  exact ⟨_, hr, of_decide_eq_true h4, dirs_whole binImage_consistent hr⟩

end Jos.Fs
