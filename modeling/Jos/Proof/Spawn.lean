import Jos.Proof.Segment

/-!
# What a failed spawn leaves

`spawn` gets hold of a descriptor, an environment and the page at `UTEMP`, in this order, and its calls may fail
at any point in between. What is left then depends on where it returns: `map_segment` keeps `UTEMP` mapped if a
read fails (`Stop.Ends`), and only the errors in front of `sys_exofork` and those of `map_segment` close the
descriptor. So a failed spawn cleans up exactly if it goes none of the other ways (`spawn_cleans_up`).
-/

namespace Jos.Spawn

open Lib

open Fd (Pte)

open Fs (CString)

variable {files : CString → Except Code File} {writable : VA → Bool} {behind elf : Bytes} {prog : CString}
  {argv : List CString} {child : ℤ} {rsp rsp' va a : VA} {o : Calls} {w w' w₁ : World} {fd : Fin 32} {r : ℤ} {stop : Stop}
  {bs : List Byte} {so : StackCalls}

/-! ## The stack -/

/-- Stores of the caller change no entries and no descriptors. -/
structure Stored (w w' : World) : Prop where
  utemp : w'.utemp = w.utemp
  fds : w'.fds = w.fds
  child : w'.child = w.child
  fresh : w'.fresh = w.fresh

theorem Stored.refl (w : World) : Stored w w := ⟨rfl, rfl, rfl, rfl⟩

theorem Stored.trans (h : Stored w w₁) (h' : Stored w₁ w') : Stored w w' :=
  ⟨h'.utemp.trans h.utemp, h'.fds.trans h.fds, h'.child.trans h.child, h'.fresh.trans h.fresh⟩

theorem storeByte_stored {b : Byte} (h : storeByte writable w a b = some w') : Stored w w' := by
  unfold storeByte at h
  split at h
  · split at h
    · cases h
    · split at h
      · obtain rfl := Option.some.inj h
        exact ⟨rfl, rfl, rfl, rfl⟩
      · cases h
  · split at h
    · obtain rfl := Option.some.inj h
      exact ⟨rfl, rfl, rfl, rfl⟩
    · cases h

theorem store_stored (h : store writable w a bs = some w') : Stored w w' := by
  induction bs generalizing w a with
  | nil =>
    obtain rfl := Option.some.inj h
    exact .refl w
  | cons b bs ih =>
    obtain ⟨w₁, h1, h2⟩ := Option.bind_eq_some_iff.1 h
    exact (storeByte_stored h1).trans (ih h2)

theorem stackLoop_stored {A ss ss' : VA} {i : ℕ} (h : stackLoop writable A i argv ss w = some (ss', w')) : Stored w w' := by
  induction argv generalizing i ss w with
  | nil =>
    obtain ⟨-, rfl⟩ := Prod.mk.inj (Option.some.inj h)
    exact .refl w
  | cons s argv ih =>
    obtain ⟨w₁, h1, h⟩ := Option.bind_eq_some_iff.1 h
    obtain ⟨w₂, h2, h3⟩ := Option.bind_eq_some_iff.1 h
    exact (store_stored h1).trans ((store_stored h2).trans (ih h3))

theorem fillStack_stored (h : fillStack writable argv w = some w') : Stored w w' := by
  obtain ⟨⟨ss, w₁⟩, h1, h⟩ := Option.bind_eq_some_iff.1 h
  obtain ⟨w₂, h2, h⟩ := Option.bind_eq_some_iff.1 h
  split at h
  · cases h
  obtain ⟨w₃, h3, h4⟩ := Option.bind_eq_some_iff.1 h
  exact (stackLoop_stored h1).trans ((store_stored h2).trans ((store_stored h3).trans (store_stored h4)))

/-- The calls of `init_stack` do not fail. -/
def StackGoes (argv : List CString) (so : StackCalls) : Prop := ¬ Refuses argv ∧ so.alloc = true ∧ so.map = true

/-- `sys_page_map` for the stack fails only for lack of memory. -/
theorem sysPageMapTemp_stack {pte : Pte} (hu : w.utemp = some pte) (hw : flag pte.perm pteW = true) (hc : w.child.isSome)
    {mem : Bool} (h : sysPageMapTemp w (ustacktop - pgsize) rwPerm mem = (r, w')) : r < 0 ↔ mem = false := by
  unfold sysPageMapTemp at h
  split at h
  · rename_i hn
    rw [hn] at hc
    cases hc
  · rw [if_neg (by decide), if_neg (by decide)] at h
    split at h
    · rename_i hn
      rw [hn] at hu
      cases hu
    · rename_i pte' ht
      rw [hu] at ht
      obtain rfl := Option.some.inj ht
      rw [hw] at h
      cases mem with
      | true =>
        obtain ⟨rfl, -⟩ := Prod.mk.inj h
        decide
      | false =>
        obtain ⟨rfl, -⟩ := Prod.mk.inj h
        decide

/-- **How `init_stack` ends** in `spawn`: the descriptors and the child are kept. -/
theorem initStack_ends (hc : w.child.isSome) (h : initStack writable argv so rsp w = some (r, rsp', w')) :
    w'.fds = w.fds ∧ w'.child.isSome ∧ w.fresh ≤ w'.fresh ∧ (r < 0 ↔ ¬ StackGoes argv so) ∧
      (¬ r < 0 → r = 0 ∧ w'.utemp = none) := by
  unfold initStack at h
  split at h
  · cases h
  split at h
  · rename_i href
    obtain ⟨rfl, -, rfl⟩ := Option.some.inj h
    exact ⟨rfl, hc, le_rfl, iff_of_true (by decide) fun hs => hs.1 href, fun hn => absurd (by decide) hn⟩
  rename_i href
  cases ha : so.alloc with
  | false =>
    rw [ha, sysPageAllocTemp_false] at h
    obtain ⟨rfl, -, rfl⟩ := Option.some.inj h
    refine ⟨rfl, hc, le_rfl, iff_of_true (by decide) fun hs => ?_, fun hn => absurd (by decide) hn⟩
    rw [hs.2.1] at ha
    cases ha
  | true =>
    rw [ha, sysPageAllocTemp_true] at h
    dsimp only at h
    rw [if_neg (lt_irrefl _)] at h
    obtain ⟨w₁, h1, h⟩ := Option.bind_eq_some_iff.1 h
    have hst := fillStack_stored h1
    have hfresh : w.fresh ≤ w₁.fresh := hst.fresh ▸ Nat.le_succ _
    rcases hm : sysPageMapTemp w₁ (ustacktop - pgsize) rwPerm so.map with ⟨r₁, w₂⟩
    have hu : w₁.utemp = some ⟨w.fresh, rwPerm⟩ := hst.utemp
    have hcode := sysPageMapTemp_stack hu rwPerm_flags.2 (hst.child ▸ hc) hm
    -- the call that maps the page is the last one that can fail
    have hgoes : so.map = false ↔ ¬ StackGoes argv so := by
      constructor
      · rintro hf ⟨-, -, hs⟩
        rw [hs] at hf
        cases hf
      · intro hs
        by_contra hf
        exact hs ⟨href, ha, Bool.not_eq_false _ ▸ hf⟩
    rw [hm] at h
    dsimp only at h
    have hw₂ : w₂.fds = w.fds ∧ w₂.child.isSome ∧ w.fresh ≤ w₂.fresh := by
      rcases sysPageMapTemp_cases hm with ⟨-, rfl⟩ | ⟨-, -, s, hs, pte, hlt, -, rfl⟩
      · exact ⟨hst.fds, hst.child ▸ hc, hfresh⟩
      · exact ⟨hst.fds, rfl, hfresh⟩
    split at h
    · rename_i hneg
      obtain ⟨h2, h⟩ := Prod.mk.inj (Option.some.inj h)
      obtain ⟨-, rfl⟩ := Prod.mk.inj h
      subst h2
      exact ⟨hw₂.1, hw₂.2.1, hw₂.2.2, hcode.trans hgoes, fun hn => absurd hneg hn⟩
    · rename_i hneg
      obtain ⟨h2, h3⟩ := Prod.mk.inj (Option.some.inj h)
      obtain ⟨-, rfl⟩ := Prod.mk.inj h3
      subst h2
      refine ⟨hw₂.1, hw₂.2.1, hw₂.2.2, ?_, fun _ => ⟨rfl, rfl⟩⟩
      rw [← hgoes, ← hcode]
      exact iff_of_false (lt_irrefl 0) hneg

/-! ## The segments -/

/-- **How the loading of segments ends**: the other descriptors are kept; if it began without a page at `UTEMP`,
then it ends with none, unless a read has failed; then it ends with a new one. -/
def Stop.Ends (fd : Fin 32) (w : World) : Stop → Prop
  | .alloc r w' => r < 0 ∧ (∀ j ≠ fd, w'.fds j = w.fds j) ∧ (w.utemp = none → w'.utemp = none)
  | .read r w' => r < 0 ∧ ∃ p, w.fresh ≤ p ∧ w'.utemp = some ⟨p, rwPerm⟩
  | .done w' => (∀ j ≠ fd, w'.fds j = w.fds j) ∧ (w.utemp = none → w'.utemp = none) ∧ w.fresh ≤ w'.fresh

theorem Stop.Ends.next (h : Stop.Ends fd w (.done w₁)) (h' : stop.Ends fd w₁) : stop.Ends fd w := by
  obtain ⟨h1, h2, h3⟩ := h
  cases stop with
  | alloc r w' => exact ⟨h'.1, fun j hj => (h'.2.1 j hj).trans (h1 j hj), fun hu => h'.2.2 (h2 hu)⟩
  | read r w' =>
    obtain ⟨hr, p, hp, hu⟩ := h'
    exact ⟨hr, p, h3.trans hp, hu⟩
  | done w' => exact ⟨fun j hj => (h'.1 j hj).trans (h1 j hj), fun hu => h'.2.1 (h2 hu), h3.trans h'.2.2⟩

theorem mapSegmentLoop_ends {memsz filesz : BitVec 64} {fileoffset perm i : BitVec 32} {calls : ℕ → PageCalls} {turns k : ℕ}
    (h : mapSegmentLoop va memsz fd filesz fileoffset perm calls turns i k w = some stop) : stop.Ends fd w := by
  induction turns generalizing i k w with
  | zero => cases h
  | succ turns ih =>
    unfold mapSegmentLoop at h
    split at h
    · split at h
      · -- a page behind the file: zeros
        rcases ha : sysPageAllocChild w (va + i.signExtend 64) perm (calls k).alloc with ⟨r, w₁⟩
        rw [ha] at h
        dsimp only at h
        rcases sysPageAllocChild_cases fd ha with ⟨hr, rfl⟩ | ⟨rfl, -, ht, hu, -⟩
        · rw [if_pos hr] at h
          obtain rfl := Option.some.inj h
          exact ⟨hr, fun _ _ => rfl, id⟩
        · rw [if_neg (lt_irrefl _)] at h
          have h1 : Stop.Ends fd w (.done w₁) := ⟨ht.fds.1, fun h0 => hu.trans h0, ht.fresh⟩
          exact h1.next (ih h)
      · rcases hrd : readPage fd (fileoffset + i) (min 4096 (filesz - i.signExtend 64).toNat) (calls k) w
          with ⟨r, w₁⟩ | ⟨r, w₁⟩ | w₁
        · rw [hrd] at h
          obtain rfl := Option.some.inj h
          rcases readPage_cases hrd with ⟨_, hr, h1⟩ | ⟨_, _, _, h1, -⟩ | ⟨_, h1, -⟩
          · obtain ⟨rfl, rfl⟩ := Stop.alloc.inj h1
            exact ⟨hr, fun _ _ => rfl, id⟩
          · cases h1
          · cases h1
        · rw [hrd] at h
          obtain rfl := Option.some.inj h
          rcases readPage_cases hrd with ⟨_, _, h1⟩ | ⟨_, hr, _, h1, hu, -⟩ | ⟨_, h1, -⟩
          · cases h1
          · obtain ⟨rfl, rfl⟩ := Stop.read.inj h1
            exact ⟨hr, w.fresh, le_rfl, hu⟩
          · cases h1
        · have htemp : Temped fd w w₁ := by
            rcases readPage_cases hrd with ⟨_, _, h1⟩ | ⟨_, _, _, h1, -⟩ | ⟨_, h1, h2⟩
            · cases h1
            · cases h1
            · obtain rfl := Stop.done.inj h1
              exact h2
          rw [hrd] at h
          dsimp only at h
          rcases hmap : sysPageMapTemp w₁ (va + i.signExtend 64) perm (calls k).map with ⟨r, w₂⟩
          rw [hmap] at h
          dsimp only at h
          split at h
          · cases h
          · rename_i hr
            obtain ⟨-, ht, -⟩ := turn_of_read htemp hmap hr
            have h1 : Stop.Ends fd w (.done (sysPageUnmapTemp w₂)) := ⟨ht.fds.1, fun _ => rfl, ht.fresh⟩
            exact h1.next (ih h)
    · obtain rfl := Option.some.inj h
      exact ⟨fun _ _ => rfl, id, le_rfl⟩

theorem loadSegments_ends {calls : ℕ → ℕ → PageCalls} {i : ℕ} {phs : List (Icode.Proghdr × BitVec 32)}
    (h : loadSegments fd calls i phs w = some stop) : stop.Ends fd w := by
  induction phs generalizing i w with
  | nil =>
    obtain rfl := Option.some.inj h
    exact ⟨fun _ _ => rfl, id, le_rfl⟩
  | cons x phs ih =>
    obtain ⟨ph, flags⟩ := x
    unfold loadSegments at h
    split at h
    · exact ih h
    · split at h
      · cases h
      · rename_i w₁ hm
        exact (mapSegmentLoop_ends hm).next (ih h)
      · rename_i s _ hm
        obtain rfl := Option.some.inj h
        exact mapSegmentLoop_ends hm

/-! ## `spawn` -/

/-- **What a failed `spawn` is to leave**: the descriptors and `UTEMP` as they were, and no child. -/
structure CleanedUp (w w' : World) : Prop where
  fds : w'.fds = w.fds
  utemp : w'.utemp = w.utemp
  child : w'.child = none

/-- The file is opened as `fd`, and begins with the header of a program, which is read into `elf`. -/
def HeaderRead (files : CString → Except Code File) (behind : Bytes) (prog : CString) (replies : ℕ → Reply) (w : World)
    (fd : Fin 32) (elf : Bytes) (w' : World) : Prop :=
  ∃ w₁ bs, openFile files prog w = (.ok fd, w₁) ∧ readn w₁ fd replies 512 = (512, bs, w') ∧ elf = behind.write 0 bs ∧
    elf.load32 0 = elfMagic

/-- A read for one of the segments fails. -/
def ReadFails (writable : VA → Bool) (argv : List CString) (rsp : VA) (o : Calls) (fd : Fin 32) (elf : Bytes) (w : World) :
    Prop :=
  ∃ rsp' w₁ r w₂, initStack writable argv o.stack rsp w.exofork = some (0, rsp', w₁) ∧
    loadSegments fd o.segments 0 (programHeaders elf) w₁ = some (.read r w₂)

/-- **Which failures are cleaned up**: those in front of `sys_exofork`; and those of `map_segment` that are no read,
if `UTEMP` was unmapped. -/
def GoodWay (files : CString → Except Code File) (writable : VA → Bool) (behind : Bytes) (prog : CString)
    (argv : List CString) (rsp : VA) (o : Calls) (w : World) : Prop :=
  ∀ fd elf w₁, HeaderRead files behind prog o.replies w fd elf w₁ →
    o.exofork = none ∧ StackGoes argv o.stack ∧ w.utemp = none ∧ ¬ ReadFails writable argv rsp o fd elf w₁

/-- **How `open` ends.** -/
theorem openFile_cases {res : Except ℤ (Fin 32)} (h : openFile files prog w = (res, w')) :
    (∃ r < 0, res = .error r ∧ w' = w) ∨ ∃ fd file, res = .ok fd ∧ w.fds fd = none ∧
      w' = w.setFds (Function.update w.fds fd (some ⟨file, 0⟩)) := by
  unfold openFile at h
  split at h
  · obtain ⟨rfl, rfl⟩ := h
    exact Or.inl ⟨_, by decide, rfl, rfl⟩
  · split at h
    · obtain ⟨rfl, rfl⟩ := h
      exact Or.inl ⟨_, by decide, rfl, rfl⟩
    · rename_i fd hfd
      split at h
      · rename_i r _
        obtain ⟨rfl, rfl⟩ := h
        exact Or.inl ⟨r, r.2, rfl, rfl⟩
      · rename_i file _
        obtain ⟨rfl, rfl⟩ := h
        unfold fdAlloc at hfd
        have hnone := List.find?_some hfd
        exact Or.inr ⟨fd, file, rfl, Option.isNone_iff_eq_none.1 hnone, rfl⟩

/-- There is one header to be read. -/
theorem HeaderRead.unique {replies : ℕ → Reply} {fd' : Fin 32} {n : ℤ} {w₂ : World}
    (h : HeaderRead files behind prog replies w fd elf w') (hopen : openFile files prog w = (.ok fd', w₁))
    (hread : readn w₁ fd' replies 512 = (n, bs, w₂)) :
    fd = fd' ∧ elf = behind.write 0 bs ∧ w' = w₂ ∧ n = 512 ∧ (behind.write 0 bs).load32 0 = elfMagic := by
  obtain ⟨w₃, bs₂, h1, h2, rfl, h3⟩ := h
  rw [hopen] at h1
  obtain ⟨h4, rfl⟩ := Prod.mk.inj h1
  obtain rfl := Except.ok.inj h4
  rw [hread] at h2
  obtain ⟨h5, h6⟩ := Prod.mk.inj h2
  obtain ⟨rfl, rfl⟩ := Prod.mk.inj h6
  exact ⟨rfl, rfl, rfl, h5, h3⟩

/-- The bytes that were read begin with the magic number. -/
theorem HeaderRead.magic {replies : ℕ → Reply} (h : HeaderRead files behind prog replies w fd elf w') :
    (openFile files prog w).1 = .ok fd ∧
      (behind.write 0 (readn (openFile files prog w).2 fd replies 512).2.1).load32 0 = elfMagic := by
  obtain ⟨w₁, bs, h1, h2, rfl, h3⟩ := h
  rw [h1]
  refine ⟨rfl, ?_⟩
  rw [h2]
  exact h3

/-- The descriptors behind the reads of the header. -/
theorem opened_fds {file : File} {w₂ : World} (hnone : w.fds fd = none)
    (h : Moved fd (w.setFds (Function.update w.fds fd (some ⟨file, 0⟩))) w₂) : (∀ j ≠ fd, w₂.fds j = w.fds j) ∧
      w₂.fds ≠ w.fds ∧ w₂.utemp = w.utemp ∧ w₂.child = w.child ∧ w₂.fresh = w.fresh := by
  obtain ⟨g, rfl, h1, h2⟩ := h
  refine ⟨fun j hj => (h1 j hj).trans (Function.update_of_ne hj ..), fun heq => ?_, rfl, rfl, rfl⟩
  have h3 : g fd = none := (congrFun heq fd).trans hnone
  have h4 : (w.setFds (Function.update w.fds fd (some ⟨file, 0⟩))).fds fd = some ⟨file, 0⟩ := Function.update_self ..
  rw [h3, h4] at h2
  cases h2

theorem close_fds (hnone : w.fds fd = none) (h : ∀ j ≠ fd, w'.fds j = w.fds j) : (close w' fd).fds = w.fds := by
  funext j
  show Function.update w'.fds fd none j = _
  by_cases hj : j = fd
  · rw [hj, Function.update_self, hnone]
  · rw [Function.update_of_ne hj, h j hj]

/-- **A failed `spawn`** leaves everything as it was, exactly if it fails in one of the good ways. -/
theorem spawn_cleans_up (hc : w.child = none)
    (h : spawn files writable behind prog argv child rsp o w = some (r, w')) :
    CleanedUp w w' ↔ GoodWay files writable behind prog argv rsp o w := by
  unfold spawn at h
  rcases hopen : openFile files prog w with ⟨r₀ | fd, w₁⟩
  · -- the file cannot be opened
    rw [hopen] at h
    obtain ⟨-, rfl⟩ := Prod.mk.inj (Option.some.inj h)
    obtain ⟨-, -, -, rfl⟩ := (openFile_cases hopen).resolve_right fun ⟨_, _, h1, _⟩ => by cases h1
    refine iff_of_true ⟨rfl, rfl, hc⟩ ?_
    rintro fd elf w₂ ⟨_, _, h1, -⟩
    rw [hopen] at h1
    cases h1
  rw [hopen] at h
  dsimp only at h
  obtain ⟨fd', file, h1, hnone, rfl⟩ := (openFile_cases hopen).resolve_left fun ⟨_, _, h1, _⟩ => by cases h1
  obtain rfl := Except.ok.inj h1
  rcases hread : readn (w.setFds (Function.update w.fds fd (some ⟨file, 0⟩))) fd o.replies 512 with ⟨n, bs, w₂⟩
  obtain ⟨hothers, hdiff, hu, hch, hfresh⟩ := opened_fds hnone (readnLoop_moved hread)
  rw [hread] at h
  dsimp only at h
  by_cases hhead : n ≠ 512 ∨ (behind.write 0 bs).load32 0 ≠ elfMagic
  · -- the file is no program
    rw [if_pos hhead] at h
    obtain ⟨-, rfl⟩ := Prod.mk.inj (Option.some.inj h)
    refine iff_of_true ⟨close_fds hnone hothers, hu, hch.trans hc⟩ ?_
    intro fd₂ elf w₃ hh
    obtain ⟨-, -, -, h2, h3⟩ := hh.unique hopen hread
    exact hhead.elim (absurd h2) (absurd h3)
  rw [if_neg hhead] at h
  rw [not_or, not_not, not_not] at hhead
  obtain ⟨rfl, hmagic⟩ := hhead
  have hheader : HeaderRead files behind prog o.replies w fd (behind.write 0 bs) w₂ := ⟨_, bs, hopen, hread, rfl, hmagic⟩
  cases hfork : o.exofork with
  | some c =>
    -- `fd` stays open
    rw [hfork] at h
    obtain ⟨-, rfl⟩ := Prod.mk.inj (Option.some.inj h)
    refine iff_of_false (fun hcl => hdiff hcl.fds) fun hgood => ?_
    have h2 := (hgood _ _ _ hheader).1
    rw [hfork] at h2
    cases h2
  | none =>
    rw [hfork] at h
    dsimp only at h
    obtain ⟨⟨r₁, rsp', w₃⟩, hinit, h⟩ := Option.bind_eq_some_iff.1 h
    obtain ⟨hfds, hchild, hmono, hgoes, hunmapped⟩ := initStack_ends (w := w₂.exofork) rfl hinit
    dsimp only at h
    by_cases hneg : r₁ < 0
    · -- `fd` stays open, and the child is there
      rw [if_pos hneg] at h
      obtain ⟨-, rfl⟩ := Prod.mk.inj (Option.some.inj h)
      refine iff_of_false (fun hcl => hdiff (hfds.symm.trans hcl.fds)) fun hgood => ?_
      exact hgoes.1 hneg (hgood _ _ _ hheader).2.1
    rw [if_neg hneg] at h
    obtain ⟨stop, hload, h⟩ := Option.bind_eq_some_iff.1 h
    have hends := loadSegments_ends hload
    have hstack : StackGoes argv o.stack := not_not.1 fun hn => hneg (hgoes.2 hn)
    cases stop with
    | done w₄ => cases h
    | alloc r₂ w₄ =>
      obtain ⟨-, rfl⟩ := Prod.mk.inj (Option.some.inj h)
      obtain ⟨-, h2, h3⟩ := hends
      have hnoread : ¬ ReadFails writable argv rsp o fd (behind.write 0 bs) w₂ := by
        rintro ⟨_, _, _, _, h4, h5⟩
        rw [hinit] at h4
        obtain ⟨-, h4⟩ := Prod.mk.inj (Option.some.inj h4)
        obtain ⟨-, rfl⟩ := Prod.mk.inj h4
        rw [hload] at h5
        cases h5
      have hut : w₄.utemp = none := h3 (hunmapped hneg).2
      constructor
      · rintro ⟨-, hcl, -⟩ fd₂ elf w₅ hh
        obtain ⟨rfl, rfl, rfl, -⟩ := hh.unique hopen hread
        exact ⟨hfork, hstack, hcl.symm.trans hut, hnoread⟩
      · intro hgood
        refine ⟨close_fds hnone fun j hj => (h2 j hj).trans ((congrFun hfds j).trans (hothers j hj)), ?_, rfl⟩
        exact hut.trans (hgood _ _ _ hheader).2.2.1.symm
    | read r₂ w₄ =>
      -- the page of the failed read stays at `UTEMP`
      obtain ⟨-, rfl⟩ := Prod.mk.inj (Option.some.inj h)
      obtain ⟨-, p, hp, hpage⟩ := hends
      refine iff_of_false (fun hcl => ?_) fun hgood => ?_
      · have h4 := w.utemp_lt _ (hcl.utemp.symm.trans hpage)
        have h5 : w₂.fresh ≤ w₃.fresh := hmono
        dsimp only at h4
        omega
      · obtain ⟨rfl, -⟩ := hunmapped hneg
        exact (hgood _ _ _ hheader).2.2.2 ⟨_, _, _, _, hinit, hload⟩

/-- A file that begins like a program, and a read of it. -/
def magicFile : File := ⟨512, fun x => [0x7F, 0x45, 0x4C, 0x46].getD x.toNat 0⟩

/-- A world without a child. -/
def parentWorld : World := emptyWorld.destroyChild

/-- The name of a program. -/
def initName : CString := ⟨[0x69], by decide⟩

/-- A file of text is not spawned. -/
theorem spawn_cleans_up_abc : ∃ w', spawn (fun _ => .ok abcFile) (fun _ => true) ⟨fun _ => 0⟩ initName [] 4096 0
      ⟨fun _ => .upTo 511, none, ⟨true, true⟩, fun _ => allGo⟩ parentWorld = some (-eNotExec, w') ∧
    CleanedUp parentWorld w' := by
  have hrun : ((spawn (fun _ => .ok abcFile) (fun _ => true) ⟨fun _ => 0⟩ initName [] 4096 0
      ⟨fun _ => .upTo 511, none, ⟨true, true⟩, fun _ => allGo⟩ parentWorld).any fun x => x.1 == -eNotExec) = true := by
    decide +kernel
  obtain ⟨⟨r, w'⟩, h, hr⟩ := (Option.any_eq_true _ _).1 hrun
  obtain rfl : r = -eNotExec := by simpa using hr
  refine ⟨w', h, (spawn_cleans_up rfl h).2 ?_⟩
  intro fd elf w₁ hh
  obtain ⟨h1, h2⟩ := hh.magic
  obtain rfl : fd = 0 := Except.ok.inj (h1.symm.trans (by decide +kernel))
  exact absurd h2 (by decide +kernel)

/-- **This fails** if there is no free environment: the file stays open. -/
theorem spawn_cleans_up_counterexample : ∃ w', spawn (fun _ => .ok magicFile) (fun _ => true) ⟨fun _ => 0⟩ initName [] 4096 0
      ⟨fun _ => .upTo 511, some ⟨-eNoFreeEnv, by decide⟩, ⟨true, true⟩, fun _ => allGo⟩ parentWorld = some (-eNoFreeEnv, w') ∧
    ¬ CleanedUp parentWorld w' := by
  have hrun : ((spawn (fun _ => .ok magicFile) (fun _ => true) ⟨fun _ => 0⟩ initName [] 4096 0
      ⟨fun _ => .upTo 511, some ⟨-eNoFreeEnv, by decide⟩, ⟨true, true⟩, fun _ => allGo⟩ parentWorld).any fun x =>
        x.1 == -eNoFreeEnv && (x.2.fds 0).isSome) = true := by
    decide +kernel
  obtain ⟨⟨r, w'⟩, h, hr⟩ := (Option.any_eq_true _ _).1 hrun
  rw [Bool.and_eq_true] at hr
  obtain rfl : r = -eNoFreeEnv := by simpa using hr.1
  refine ⟨w', h, fun hcl => ?_⟩
  have hopen := hr.2
  rw [hcl.fds] at hopen
  cases hopen

end Jos.Spawn
