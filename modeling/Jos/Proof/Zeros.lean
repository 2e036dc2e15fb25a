import Jos.Proof.ReadBack
import Jos.Proof.SetSize

/-!
# Extending a file

A history of reads, writes and changes of size goes with the set of the positions of one file
that have been written since its size was last at or below them. `Zeroed` says that all others
hold zeros, also past the size, and every call keeps it that does not cut a block
(`grown_zero`).

`file_truncate_blocks` gives back whole blocks only: what is cut from the last block comes back
when the file grows again (`grown_zero_counterexample`).
-/

namespace Jos.Fs

open Lib

variable {root : ℕ} {dirs : Bool} {d d' d₁ : Bytes} {s : Slot} {f g k m n x : ℕ}
  {bs buf : List Byte} {offset z : ℤ} {res : ℤ} {c : Call}

/-! ## Histories -/

/-- The number of bytes that `file_write` puts in place. -/
def fileWriteCopied (d : Bytes) (f : ℕ) (buf : List Byte) (offset : ℤ) : ℕ :=
  match extendTo d f (u64 (offset + buf.length)) with
  | none => 0
  | some d => copied f (u64 (offset + buf.length)) buf.length offset buf d

/-- The positions of file `f` at which a call puts bytes. -/
def put (d : Bytes) (f : ℕ) : Call → Set ℕ
  | .write g buf offset =>
    if g = f then {x | offset ≤ x ∧ x < offset + fileWriteCopied d f buf offset} else ∅
  | _ => ∅

/-- A disk, and the positions of a file that have been written since the size of the file was
last at or below them. -/
structure History where
  disk : Bytes
  written : Set ℕ

/-- A read, a write or a change of size of file `f`, or of another file when neither is a
directory that the call could change. -/
def Touches (f : ℕ) (d : Bytes) : Call → Prop
  | .read g _ _ => g = f ∨ fType d f ≠ ftypeDir
  | .write g _ _ => g = f ∨ fType d f ≠ ftypeDir ∧ fType d g ≠ ftypeDir
  | .setSize g _ => g = f ∨ fType d f ≠ ftypeDir ∧ fType d g ≠ ftypeDir
  | _ => False

/-- A call that satisfies the condition `C` in the state before it. -/
def HistoryStep (C : Bytes → Call → Prop) (f : ℕ) (h h' : History) : Prop :=
  ∃ c, Touches f h.disk c ∧ Allowed h.disk c ∧ C h.disk c ∧ exec h.disk c = some h'.disk ∧
    h'.written = {x | (x ∈ h.written ∨ x ∈ put h.disk f c) ∧ x < fSize h'.disk f}

/-- Any sequence of such calls. -/
abbrev HistoryRun (C : Bytes → Call → Prop) (f : ℕ) : History → History → Prop :=
  Relation.ReflTransGen (HistoryStep C f)

/-- **No cut**: where file `f` is made smaller, the rest of the block in which it ends then is
clear. -/
def CutsClear (f : ℕ) (d : Bytes) : Call → Prop
  | .setSize g z => g = f → z < fSize d f → ∀ x : ℕ, z ≤ x → x < blocksFor z * 4096 → fileByte d f x = 0
  | _ => True

/-- **Unwritten positions read as 0**, wherever `file_read` is called. -/
def ReadsZeros (f : ℕ) (h : History) : Prop :=
  ∀ (count offset : ℕ) (res : ℤ) (bs : List Byte) (d : Bytes),
    fileRead h.disk f count offset = some ((res, bs), d) →
      ∀ i, i < bs.length → offset + i ∉ h.written → bs.getD i 0 = 0

/-! ## The bytes of a truncated file -/

/-- Truncation leaves the blocks that the file keeps. -/
theorem Drops.byte_own (h : Drops f m d d') (hv : Valid root dirs d)
    (hf : (tree root dirs d).Linked (.file f)) (ho : opens dirs d f = false)
    (h0 : fileBlock d' f n ≠ 0) :
    fileBlock d f n = fileBlock d' f n ∧ ∀ a, a / 4096 = fileBlock d' f n → d'.byte a = d.byte a := by
  have key := (h.rule hv hf (I := fun d₁ => opens dirs d₁ f = false ∧ ∀ n, fileBlock d₁ f n ≠ 0 →
    fileBlock d f n = fileBlock d₁ f n ∧ ∀ a, a / 4096 = fileBlock d₁ f n → d₁.byte a = d.byte a)
    ⟨ho, fun n _ => ⟨rfl, fun _ _ => rfl⟩⟩ fun d₁ d₂ hv₁ hf₁ h1 h2 => ?_).2.2.2
  · exact key n h0
  obtain ⟨ho₁, h1⟩ := h1
  refine ⟨by rw [(h2.head hv₁.sound hf₁ hf₁).opens_eq]; exact ho₁, fun n h3 => ?_⟩
  have h4 : fileBlock d₁ f n = fileBlock d₂ f n := h2.slot_mono hv₁.sound hf₁ (h2.linked hv₁.sound hf₁) h3
  obtain ⟨h5, h6⟩ := h1 n (by rw [h4]; exact h3)
  refine ⟨h5.trans h4, fun a ha => ?_⟩
  obtain ⟨r, s, p, b, -, hr, hp, hval, rfl⟩ := h2.slot hf₁
  rw [← h4] at ha h3
  rw [hv₁.sound.byte_dropBlock hr hp hval hf₁ (hv₁.sound.data_apart hf₁ ho₁ h3 hr) h3 ha, h6 a ha]

/-- **What `file_set_size` leaves in a file**: the bytes of the blocks that it keeps. -/
theorem fileSetSize_byte (hv : Valid root dirs d) (hf : (tree root dirs d).Linked (.file f))
    (ho : opens dirs d f = false) (h : fileSetSize d f z = some d')
    (h0 : fileBlock d' f (x / 4096) ≠ 0) : fileByte d' f x = fileByte d f x := by
  unfold fileSetSize at h
  split at h
  · obtain ⟨d₁, h1, rfl⟩ := Option.map_eq_some_iff.1 h
    obtain ⟨hD, -, -⟩ := fileTruncateBlocks_drops hv hf h1
    obtain ⟨hv₁, hf₁⟩ := hD.valid hv hf
    have ho₁ : opens dirs d₁ f = false := by rw [(hD.head hv hf).opens_eq]; exact ho
    have hsame : Same root dirs d₁ (setFSize d₁ f z) := hv₁.sound.same_size hf₁
    rw [show fileBlock (setFSize d₁ f z) f _ = fileBlock d₁ f _ from hsame.slotBlock_eq hf₁] at h0
    rw [fileByte_setFSize hv₁.sound hf₁ ho₁]
    obtain ⟨h2, h3⟩ := hD.byte_own hv hf ho h0
    unfold fileByte
    rw [h2, if_neg h0, if_neg h0]
    exact h3 _ (by omega)
  · obtain rfl := Option.some.inj h
    exact fileByte_setFSize hv.sound hf ho

/-! ## Calls on the file -/

/-- A write to a file, which may fail on the way. -/
theorem fileWrite_copied (hv : Valid f false d) (hsz : 0 ≤ fSize d f) (h0 : 0 ≤ offset)
    (h1 : offset + buf.length < 2 ^ 31) (h : fileWrite d f buf offset = some (res, d')) :
    Valid f false d' ∧ fType d' f = fType d f ∧ fSize d' f = max (fSize d f) (offset + buf.length) ∧
      fileWriteCopied d f buf offset ≤ buf.length ∧
      ∀ x : ℕ, ¬ (offset ≤ x ∧ x < offset + fileWriteCopied d f buf offset) →
        fileByte d' f x = fileByte d f x := by
  obtain ⟨hv', -⟩ := fileWrite_valid hv .refl opens_alone h0 h
  obtain ⟨d₁, h2, h3⟩ := Option.bind_eq_some_iff.1 h
  obtain ⟨⟨r₁, d₂⟩, h4, h5⟩ := Option.bind_eq_some_iff.1 h3
  simp only [Option.some.injEq, Prod.mk.injEq] at h5
  obtain ⟨-, rfl⟩ := h5
  obtain ⟨hv₁, hf₁, ho₁⟩ := extendTo_valid hv .refl opens_alone h2
  obtain ⟨h6, h7, h8⟩ := extendTo_exact hv.sound .refl opens_alone hsz h0 h1 h2
  unfold fileWriteCopied
  rw [h2]
  have hfin : u64 (offset + buf.length) = offset.toNat + buf.length := by
    rw [u64_of_nonneg (by omega) (by omega)]
    omega
  rw [hfin] at h4 ⊢
  obtain ⟨h9, h10, -, h11⟩ := fileWriteLoop_copied hv₁ hf₁ ho₁ h0 (by omega) le_rfl (by omega) h4 rfl
  refine ⟨hv', ?_, by rw [h9, h6], h10, fun x hx => ?_⟩
  · refine fileWriteLoop_rule (I := fun d₃ => fType d₃ f = fType d f) hv₁ hf₁ ho₁ h0
      (P := Only f) (fun _ _ => rfl) h7 (fun d₃ d₄ hv hf h1 h2 => ?_) (fun d₃ n q bs hv hf ho h1 h2 h3 h4 => ?_) h4
    · rw [(h2.head hv.sound hf).fType_eq, h1]
    · rw [(hv.sound.head_block hf ho h2 h3 h4 hf).fType_eq, h1]
  · dsimp only at hx
    rw [h11, if_neg (by omega), h8]

theorem fileSetSize_type (hv : Valid root dirs d) (hf : (tree root dirs d).Linked (.file f))
    (h : fileSetSize d f z = some d') : fType d' f = fType d f := by
  unfold fileSetSize at h
  split at h
  · obtain ⟨d₁, h1, rfl⟩ := Option.map_eq_some_iff.1 h
    obtain ⟨hD, -, -⟩ := fileTruncateBlocks_drops hv hf h1
    rw [← (hD.head hv hf).fType_eq]
    exact Bytes.load32_store32_off (by omega)
  · obtain rfl := Option.some.inj h
    exact Bytes.load32_store32_off (by omega)

/-- Reading a file changes nothing in it. -/
theorem fileRead_own {count : ℕ} {r : ℤ × List Byte} (hv : Valid f false d)
    (h : fileRead d f count offset = some (r, d')) :
    Valid f false d' ∧ SameHead f d d' ∧ ∀ x, fileByte d' f x = fileByte d f x := by
  have hA : Adds (Only f) f false d d' := fileRead_adds hv .refl (fun _ _ => rfl) h
  exact ⟨hA.valid hv, hA.head hv .refl, fun x => hA.fileByte_own hv .refl⟩

/-! ## The invariant -/

/-- What holds after every call: the file is laid out soundly, and every position that is not
written holds 0. -/
structure Zeroed (f : ℕ) (h : History) : Prop where
  alone : Valid f false h.disk
  whole : fType h.disk f ≠ ftypeDir → Valid sRoot true h.disk ∧ (tree sRoot true h.disk).Linked (.file f)
  size : 0 ≤ fSize h.disk f
  below : ∀ x ∈ h.written, (x : ℤ) < fSize h.disk f
  zero : ∀ x, x ∉ h.written → fileByte h.disk f x = 0

section Step

variable {H H' : History}

/-- A call that leaves the file as it was. -/
theorem Zeroed.kept (hz : Zeroed f H) (hv : Valid f false H'.disk)
    (hw : fType H.disk f ≠ ftypeDir → Valid sRoot true H'.disk ∧ (tree sRoot true H'.disk).Linked (.file f))
    (hhd : SameHead f H.disk H'.disk) (hb : ∀ x, fileByte H'.disk f x = fileByte H.disk f x)
    (hW : H'.written = {x | (x ∈ H.written ∨ x ∈ (∅ : Set ℕ)) ∧ x < fSize H'.disk f}) : Zeroed f H' := by
  refine ⟨hv, fun ht => hw (by rw [← hhd.fType_eq]; exact ht), ?_, fun x hx => ?_, fun x hx => ?_⟩
  · rw [hhd.fSize_eq]
    exact hz.size
  · rw [hW] at hx
    exact hx.2
  · rw [hb]
    refine hz.zero x fun hx' => hx ?_
    rw [hW, hhd.fSize_eq]
    exact ⟨Or.inl hx', hz.below x hx'⟩

/-- **One call keeps the zeros.** -/
theorem Zeroed.step (hz : Zeroed f H) (hs : HistoryStep (CutsClear f) f H H') : Zeroed f H' := by
  obtain ⟨c, ht, ha, hc, hx, hW⟩ := hs
  -- another file: the whole layout is sound, and the call keeps this file
  have hother : ∀ {v}, fType H.disk f ≠ ftypeDir → Valid sRoot true H'.disk →
      (tree sRoot true H'.disk).Linked (.file f) ∧ Keeps H.disk H'.disk f → v = (∅ : Set ℕ) →
      H'.written = {x | (x ∈ H.written ∨ x ∈ v) ∧ x < fSize H'.disk f} → Zeroed f H' := by
    rintro v ht hv ⟨hf, hk⟩ rfl hW
    exact hz.kept (hv.sound.file hf) (fun _ => ⟨hv, hf⟩) hk.head (hk.data ht) hW
  cases c with
  | create path => exact absurd ht (by simp [Touches])
  | «open» path => exact absurd ht (by simp [Touches])
  | remove path => exact absurd ht (by simp [Touches])
  | read g count offset =>
    obtain ⟨⟨r, d'⟩, h1, h2⟩ := Option.map_eq_some_iff.1 hx
    obtain rfl : d' = H'.disk := h2
    by_cases hg : g = f
    · subst hg
      obtain ⟨h3, h4, h5⟩ := fileRead_own hz.alone h1
      refine hz.kept h3 (fun ht => ?_) h4 h5 hW
      obtain ⟨hv, hf⟩ := hz.whole ht
      have hA := fileRead_adds (P := Anywhere) hv hf (fun _ _ => trivial) h1
      exact ⟨hA.valid hv, hA.linked hv hf⟩
    · have ht := ht.resolve_left hg
      obtain ⟨hv, hf⟩ := hz.whole ht
      have hA := fileRead_adds (P := Only g) hv (reachable_linked ha.1) (fun _ _ => rfl) h1
      exact hother ht (hA.valid hv) ⟨hA.linked hv hf, hA.keeps (fun _ _ _ _ h => h) hv hf (Ne.symm hg)⟩ rfl hW
  | write g buf offset =>
    obtain ⟨⟨r, d'⟩, h1, h2⟩ := Option.map_eq_some_iff.1 hx
    obtain rfl : d' = H'.disk := h2
    have hmax : maxFileSize < 2 ^ 30 := by decide
    obtain ⟨ha₁, ⟨-, hl⟩, h0, h0'⟩ := ha
    by_cases hg : g = f
    · subst hg
      obtain ⟨h3, h4, h5, h6, h7⟩ := fileWrite_copied hz.alone hz.size h0 (by omega) h1
      simp only [put, if_true] at hW
      refine ⟨h3, fun ht => ?_, by rw [h5]; have := hz.size; omega, fun x hx => ?_, fun x hx => ?_⟩
      · rw [h4] at ht
        obtain ⟨hv, hf⟩ := hz.whole ht
        exact fileWrite_valid hv hf (opens_regular ht) h0 h1
      · rw [hW] at hx
        exact hx.2
      · rw [hW] at hx
        have h8 : ¬ (offset ≤ x ∧ x < offset + fileWriteCopied H.disk g buf offset) := fun h8 =>
          hx ⟨Or.inr h8, by rw [h5]; omega⟩
        rw [h7 x h8]
        refine hz.zero x fun h9 => hx ⟨Or.inl h9, ?_⟩
        have := hz.below x h9
        rw [h5]
        omega
    · obtain ⟨ht, htg⟩ := ht.resolve_left hg
      obtain ⟨hv, hf⟩ := hz.whole ht
      have hg' := reachable_linked ha₁
      refine hother ht (fileWrite_valid hv hg' (opens_regular htg) h0 h1).1 ?_ (if_neg hg) hW
      exact fileWrite_keeps hv hg' htg (by omega) (by omega) (Or.inl h0) hf (Ne.symm hg) h1
  | setSize g z =>
    have hmax : maxFileSize < 2 ^ 30 := by decide
    obtain ⟨ha₁, hr⟩ := ha
    by_cases hg : g = f
    · subst hg
      obtain ⟨h3, h4, -, -⟩ := fileSetSize_exact hz.alone .refl hz.size hr hx
      have h5 := fileSetSize_type hz.alone .refl hx
      obtain ⟨h6, -⟩ := fileSetSize_valid hz.alone .refl nofun hx
      refine ⟨h6, fun ht => ?_, by rw [h3]; exact hr.1, fun x hx => ?_, fun x hxW => ?_⟩
      · rw [h5] at ht
        obtain ⟨hv, hf⟩ := hz.whole ht
        have hr2 := hr.2
        obtain ⟨h7, h8, -⟩ := fileSetSize_valid hv hf (fun _ => ⟨hr.1, by omega⟩) hx
        exact ⟨h7, h8⟩
      · rw [hW] at hx
        exact hx.2
      · by_cases h0 : fileBlock H'.disk g (x / 4096) = 0
        · unfold fileByte
          rw [if_pos h0]
        rw [fileSetSize_byte hz.alone .refl opens_alone hx h0]
        by_cases h7 : x ∈ H.written
        · -- the position was cut off, in the block that is kept
          have h8 := hz.below x h7
          have h9 : ¬ (x : ℤ) < z := fun h9 => hxW (by rw [hW]; exact ⟨Or.inl h7, by rw [h3]; exact h9⟩)
          refine hc rfl (by omega) x (by omega) ?_
          by_contra h10
          refine h0 ?_
          rw [h4, if_pos]
          refine ⟨by omega, Or.inl ⟨?_, ?_⟩⟩
          · omega
          · unfold blocksFor
            omega
        · exact hz.zero x h7
    · obtain ⟨ht, htg⟩ := ht.resolve_left hg
      obtain ⟨hv, hf⟩ := hz.whole ht
      have hg' := reachable_linked ha₁
      have hr2 := hr.2
      obtain ⟨h7, -, -⟩ := fileSetSize_valid hv hg' (fun _ => ⟨hr.1, by omega⟩) hx
      refine hother ht h7 ?_ rfl hW
      exact fileSetSize_keeps hv hg' hf (Ne.symm hg) (fun h => hg (regular_from htg h).symm) hx

end Step

/-- What `file_read` copies, also when it fails. -/
theorem fileRead_copied {count p : ℕ} (hv : Valid root dirs d) (hf : (tree root dirs d).Linked (.file f))
    (h : fileRead d f count p = some ((res, bs), d')) :
    bs = (List.range bs.length).map fun i => fileByte d f (p + i) := by
  unfold fileRead at h
  have hsz := fSize_lt d f
  split at h
  · simp only [Option.some.injEq, Prod.mk.injEq] at h
    rw [← h.1.2]
    rfl
  · obtain ⟨⟨⟨r₁, bs₁⟩, d₁⟩, h1, h2⟩ := Option.bind_eq_some_iff.1 h
    simp only [Option.some.injEq, Prod.mk.injEq] at h2
    obtain ⟨⟨-, rfl⟩, -⟩ := h2
    have hu : u64 (fSize d f - p) = (fSize d f).toNat - p := by
      rw [u64_of_nonneg (by omega) (by omega)]
      omega
    rw [hu] at h1
    generalize hc : min count ((fSize d f).toNat - p) = c at h1
    have hfin : u64 (p + c : ℤ) = p + c := by
      rw [u64_of_nonneg (by omega) (by omega)]
      omega
    rw [hfin] at h1
    have h3 := (fileReadLoop_slice hv hf (by omega) (by omega) (by omega) (by omega) h1).1
    rw [Int.toNat_natCast] at h3
    exact h3

theorem Zeroed.reads {H : History} (hz : Zeroed f H) : ReadsZeros f H := by
  intro count offset res bs d h i hi hW
  have h1 := fileRead_copied hz.alone .refl h
  rw [h1, List.getD_eq_getElem _ _ (by simpa using hi), List.getElem_map, List.getElem_range]
  exact hz.zero _ hW

/-- **Extending a file exposes only zeros**, in every history in which no call cuts a block that
is not clear. -/
theorem grown_zero {H : History} (hv : Valid sRoot true d) (hf : (tree sRoot true d).Linked (.file f))
    (hsz : 0 ≤ fSize d f) (h0 : ∀ x : ℕ, fSize d f ≤ x → fileByte d f x = 0)
    (hr : HistoryRun (CutsClear f) f ⟨d, {x | x < fSize d f}⟩ H) : ReadsZeros f H := by
  have key : Zeroed f H := by
    induction hr with
    | refl => exact ⟨hv.sound.file hf, fun _ => ⟨hv, hf⟩, hsz, fun _ hx => hx, fun x hx => h0 x (by simpa using hx)⟩
    | tail _ hs ih => exact ih.step hs
  exact key.reads

/-! ## A file that is cut and grows again -/

/-- A new file: it has no block. -/
def bare (d : Bytes) (f : ℕ) : Bool :=
  decide (fSize d f = 0) && (List.range 11).all fun i => d.load32 (fDirect f i) == 0

theorem bare_zero (h : bare d f = true) : fSize d f = 0 ∧ ∀ x, fileByte d f x = 0 := by
  simp only [bare, Bool.and_eq_true, decide_eq_true_eq, List.all_eq_true, beq_iff_eq] at h
  have h1 : ∀ s, slotBlock d f s = 0 := slots_zero
    (fun i hi => h.2 i (List.mem_range.2 (by omega))) (h.2 10 (List.mem_range.2 (by omega)))
  refine ⟨h.1, fun x => ?_⟩
  unfold fileByte fileBlock
  rw [if_pos (h1 _)]

/-- The file `/a` of the image. -/
abbrev fileA : ℕ := 3 * 4096 + 256 * 1

/-- `/a` is written, gets size `z`, and size 2 again. -/
theorem history_a (C : Bytes → Call → Prop) {z : ℤ} (hz : InRange z)
    (hC : ∀ d, C d (.write fileA [1, 2] 0)) (hC₂ : ∀ d, C d (.setSize fileA z))
    (hC₃ : ∀ d, fSize d fileA = z → C d (.setSize fileA 2)) {P : Bytes → Bool}
    (hrun : ((exec binImage (.create ⟨[0x61], by decide⟩)).any fun d => hasEntry d 1 && bare d fileA &&
      (exec d (.write fileA [1, 2] 0)).any fun d₁ => hasEntry d₁ 1 &&
        (exec d₁ (.setSize fileA z)).any fun d₂ => hasEntry d₂ 1 && decide (fSize d₂ fileA = z) &&
          (exec d₂ (.setSize fileA 2)).any fun d₃ => P d₃) = true) :
    ∃ d H, Valid sRoot true d ∧ (tree sRoot true d).Linked (.file fileA) ∧ bare d fileA = true ∧
      HistoryRun C fileA ⟨d, {x | x < fSize d fileA}⟩ H ∧ P H.disk = true ∧
        ∀ x : ℕ, z ≤ x → x ∉ H.written := by
  obtain ⟨d, hx, h1⟩ := (Option.any_eq_true _ _).1 hrun
  simp only [Bool.and_eq_true, Option.any_eq_true, decide_eq_true_eq] at h1
  obtain ⟨⟨he, hb⟩, d₁, hx₁, he₁, d₂, hx₂, ⟨he₂, hsz₂⟩, d₃, hx₃, hP⟩ := h1
  have hr : ∀ {d}, hasEntry d 1 = true → Reachable d fileA := fun h => hasEntry_reachable h (by omega)
  generalize fileA = f at *
  let H₀ : History := ⟨d, {x | x < fSize d f}⟩
  let H₁ : History := ⟨d₁, {x | (x ∈ H₀.written ∨ x ∈ put H₀.disk f (.write f [1, 2] 0)) ∧ x < fSize d₁ f}⟩
  let H₂ : History := ⟨d₂, {x | (x ∈ H₁.written ∨ x ∈ put d₁ f (.setSize f z)) ∧ x < fSize d₂ f}⟩
  let H₃ : History := ⟨d₃, {x | (x ∈ H₂.written ∨ x ∈ put d₂ f (.setSize f 2)) ∧ x < fSize d₃ f}⟩
  have s₁ : HistoryStep C f H₀ H₁ :=
    ⟨.write f [1, 2] 0, Or.inl rfl, ⟨hr he, ⟨by decide, by decide⟩, by decide, by decide⟩, hC d, hx₁, rfl⟩
  have s₂ : HistoryStep C f H₁ H₂ :=
    ⟨.setSize f z, Or.inl rfl, ⟨hr he₁, hz⟩, hC₂ d₁, hx₂, rfl⟩
  have s₃ : HistoryStep C f H₂ H₃ :=
    ⟨.setSize f 2, Or.inl rfl, ⟨hr he₂, by decide, by decide⟩, hC₃ d₂ hsz₂, hx₃, rfl⟩
  refine ⟨d, H₃, exec_valid (c := .create _) binImage_consistent.valid trivial trivial hx,
    reachable_linked (hr he), hb, .tail (.tail (.single s₁) s₂) s₃, hP, fun x h2 h3 => ?_⟩
  rcases h3.1 with h4 | h4
  · have h5 : (x : ℤ) < fSize d₂ f := h4.2
    omega
  · exact h4

/-- All of `/a` is cut, and it grows again. -/
theorem grown_zero_empty : ∃ H, fSize H.disk fileA = 2 ∧ ReadsZeros fileA H := by
  obtain ⟨d, H, hv, hf, hb, hr, hP, -⟩ := history_a (CutsClear fileA) (z := 0) ⟨le_rfl, by decide⟩
    (fun _ => trivial) (fun d _ _ x _ h1 => absurd h1 (by simp [blocksFor]))
    (fun d h1 _ h2 => by rw [h1] at h2; omega) (P := fun d => decide (fSize d fileA = 2)) (by decide +kernel)
  obtain ⟨h1, h2⟩ := bare_zero hb
  exact ⟨H, of_decide_eq_true hP, grown_zero hv hf h1.ge (fun x _ => h2 x) hr⟩

/-- **This fails**: `/a` has the bytes 1 and 2, is cut to one byte and grows to two. The
second byte is 2 again. -/
theorem grown_zero_counterexample : ¬ ∀ d f H, Valid sRoot true d →
    (tree sRoot true d).Linked (.file f) → 0 ≤ fSize d f →
    (∀ x : ℕ, fSize d f ≤ x → fileByte d f x = 0) →
    HistoryRun (fun _ _ => True) f ⟨d, {x | x < fSize d f}⟩ H → ReadsZeros f H := by
  intro h
  obtain ⟨d, H, hv, hf, hb, hr, hP, hW⟩ := history_a (fun _ _ => True) (z := 1) ⟨by decide, by decide⟩
    (fun _ => trivial) (fun _ => trivial) (fun _ _ => trivial)
    (P := fun d => (fileRead d fileA 2 0).any fun (r : (ℤ × List Byte) × Bytes) => decide (r.1.2 = [1, 2])) (by decide +kernel)
  obtain ⟨h1, h2⟩ := bare_zero hb
  obtain ⟨⟨⟨res, bs⟩, d'⟩, h3, h4⟩ := (Option.any_eq_true _ _).1 hP
  obtain rfl : bs = [1, 2] := of_decide_eq_true h4
  have h5 := h d fileA H hv hf h1.ge (fun x _ => h2 x) hr 2 0 res _ d' h3 1 (by decide) (hW 1 (by decide))
  exact absurd h5 (by decide)

end Jos.Fs
