import Jos.Spec.Serv

/-!
# The table of open files

`Inv` says what the count of references of each entry tells: 0 that the entry was never
allocated, 1 that no client has it, and more that its id and its file are those of the last
successful `serve_open`. Every step keeps it (`step_inv`), so `open_table` says of each id
whether the server honours it as it should, and of each state whether `openfile_alloc` does.

The ids of entries that were never allocated are honoured, with a null file
(`open_table_counterexample`).
-/

namespace Jos.Fs

open Lib

variable {T T' : Table} {σ σ' : Server} {t t' : ℕ → OpenFile} {mem : Bool} {page d : Bytes} {i j f : ℕ}
  {r : ℤ} {fileid : BitVec 32}

/-- `fileid` is the id that the last successful `serve_open` of its entry gave out, for file
`f`, and a client maps its Fd page. -/
def Live (T : Table) (fileid : BitVec 32) (f : ℕ) : Prop :=
  T.issued (fileid.toNat % maxOpen) = some (fileid, f) ∧ 0 < T.maps (fileid.toNat % maxOpen)

/-- `openfile_lookup` finds the file of a live id, and refuses every other id. -/
def Honoured (T : Table) (fileid : BitVec 32) : Prop :=
  (∀ f, Live T fileid f →
    ∃ i, openfileLookup T.server.opentab fileid = .ok i ∧ (T.server.opentab i).file = some f) ∧
  ((¬ ∃ f, Live T fileid f) → openfileLookup T.server.opentab fileid = .error (-eInval))

/-- `openfile_alloc` fails only if every entry is in use or there is no memory. -/
def AllocOk (T : Table) (mem : Bool) : Prop :=
  (openfileAlloc mem T.server.opentab).1 < 0 → mem = false ∨ ∀ i < maxOpen, 0 < T.maps i

/-- The entry that `openfile_alloc` picks. -/
def freeEntry (t : ℕ → OpenFile) : Option ℕ :=
  (List.range maxOpen).find? fun i => decide ((t i).ref ≤ 1)

/-- The next id of the entry that `openfile_alloc` picks is negative as an `int`. -/
def Wraps (t : ℕ → OpenFile) : Prop :=
  ∃ i, freeEntry t = some i ∧ ((t i).fileid + BitVec.ofNat 32 maxOpen).toInt < 0

/-! ## Allocation -/

theorem freeEntry_some (h : freeEntry t = some i) : i < maxOpen ∧ (t i).ref ≤ 1 := by
  unfold freeEntry at h
  have h1 := List.find?_some h
  exact ⟨List.mem_range.1 (List.mem_of_find?_eq_some h), of_decide_eq_true h1⟩

theorem freeEntry_none (h : freeEntry t = none) (hi : i < maxOpen) : 2 ≤ (t i).ref := by
  unfold freeEntry at h
  have h1 := List.find?_eq_none.1 h i (List.mem_range.2 hi)
  simp only [decide_eq_true_eq, not_le] at h1
  omega

/-- **What `openfile_alloc` does**: it fails and leaves the table, or it takes a free entry. -/
theorem openfileAlloc_cases (mem : Bool) (t : ℕ → OpenFile) :
    (openfileAlloc mem t = (-eMaxOpen, none, t) ∧ freeEntry t = none) ∨
    (∃ i, freeEntry t = some i ∧ mem = false ∧ openfileAlloc mem t = (-eNoMem, none, t)) ∨
    ∃ i, freeEntry t = some i ∧
      openfileAlloc mem t = (((t i).fileid + BitVec.ofNat 32 maxOpen).toInt, some i,
        Function.update t i
          { t i with fileid := (t i).fileid + BitVec.ofNat 32 maxOpen, ref := 1, fd := ⟨0, 0, 0, 0⟩ }) := by
  unfold openfileAlloc
  generalize hf : (List.range maxOpen).find? (fun i => decide ((t i).ref ≤ 1)) = o
  have hf : freeEntry t = o := hf
  rcases o with _ | i
  · exact Or.inl ⟨rfl, hf⟩
  · dsimp only
    split
    · rename_i h1
      exact Or.inr (Or.inl ⟨i, hf, h1.2, rfl⟩)
    · exact Or.inr (Or.inr ⟨i, hf, rfl⟩)

/-! ## The invariant -/

/-- What the count of references of an entry tells. -/
structure Entry (T : Table) (i : ℕ) : Prop where
  slot : (T.server.opentab i).fileid.toNat % maxOpen = i
  unused : (T.server.opentab i).ref = 0 → (T.server.opentab i).fileid.toNat = i
  ref : (T.server.opentab i).ref = 0 ∨ (T.server.opentab i).ref = T.maps i + 1
  idle : (T.server.opentab i).ref = 0 → T.maps i = 0
  issued : 0 < T.maps i → ∃ f, T.issued i = some ((T.server.opentab i).fileid, f) ∧
    (T.server.opentab i).file = some f

def Inv (T : Table) : Prop := ∀ i < maxOpen, Entry T i

theorem init_inv : Inv (Table.init d) := by
  intro i hi
  unfold maxOpen at *
  have h1 : (BitVec.ofNat 32 i).toNat = i := by
    rw [BitVec.toNat_ofNat]
    omega
  refine ⟨?_, fun _ => h1, Or.inl rfl, fun _ => rfl, fun h => absurd h (lt_irrefl 0)⟩
  show (BitVec.ofNat 32 i).toNat % maxOpen = i
  rw [h1]
  exact Nat.mod_eq_of_lt hi

/-- An entry that a step leaves. -/
theorem Entry.congr (h : Entry T i) (h1 : (T'.server.opentab i).fileid = (T.server.opentab i).fileid)
    (h2 : (T'.server.opentab i).ref = (T.server.opentab i).ref)
    (h3 : (T'.server.opentab i).file = (T.server.opentab i).file)
    (h4 : T'.issued i = T.issued i) (h5 : T'.maps i = T.maps i) : Entry T' i := by
  refine ⟨?_, ?_, ?_, ?_, ?_⟩
  · rw [h1]; exact h.slot
  · rw [h1, h2]; exact h.unused
  · rw [h2, h5]; exact h.ref
  · rw [h2, h5]; exact h.idle
  · rw [h1, h3, h4, h5]; exact h.issued

/-- The id of an entry stays in its class when it is allocated. -/
theorem next_slot (h : fileid.toNat % maxOpen = i) :
    (fileid + BitVec.ofNat 32 maxOpen).toNat % maxOpen = i := by
  unfold maxOpen at *
  rw [BitVec.toNat_add, BitVec.toNat_ofNat]
  omega

/-- **What `serve_open` does to the table**: it leaves the table, or it allocates an entry
that no client has; if it succeeds, the file and the id in the Fd page are set. -/
theorem serveOpen_cases {pg : Option ℕ} (h : serveOpen mem page σ = some (r, pg, σ')) :
    (pg = none ∧ σ'.opentab = σ.opentab) ∨
    ∃ i, freeEntry σ.opentab = some i ∧ (∀ j, j ≠ i → σ'.opentab j = σ.opentab j) ∧
      (σ'.opentab i).fileid = (σ.opentab i).fileid + BitVec.ofNat 32 maxOpen ∧
      (σ'.opentab i).ref = 1 ∧
      (pg = none ∨ pg = some i ∧ (σ'.opentab i).fd.id = (σ'.opentab i).fileid ∧
        ∀ f d, openPath σ.disk (reqPath page) (page.load32 1024) = some (.ok f, d) →
          (σ'.opentab i).file = some f) := by
  unfold serveOpen at h
  rcases openfileAlloc_cases mem σ.opentab with ⟨h1, -⟩ | ⟨i, -, -, h1⟩ | ⟨i, hi, h1⟩
  · rw [h1] at h
    simp only [Option.some.injEq, Prod.mk.injEq] at h
    obtain ⟨-, rfl, rfl⟩ := h
    exact Or.inl ⟨rfl, rfl⟩
  · rw [h1] at h
    simp only [Option.some.injEq, Prod.mk.injEq] at h
    obtain ⟨-, rfl, rfl⟩ := h
    exact Or.inl ⟨rfl, rfl⟩
  rw [h1] at h
  generalize ht : Function.update σ.opentab i _ = t at h
  have hj : ∀ j, j ≠ i → t j = σ.opentab j := fun j hj => by rw [← ht, Function.update_of_ne hj]
  have hid : (t i).fileid = (σ.opentab i).fileid + BitVec.ofNat 32 maxOpen := by
    rw [← ht, Function.update_self]
  have hr : (t i).ref = 1 := by rw [← ht, Function.update_self]
  dsimp only at h
  refine Or.inr ⟨i, hi, ?_⟩
  split at h
  · simp only [Option.some.injEq, Prod.mk.injEq] at h
    obtain ⟨-, rfl, rfl⟩ := h
    exact ⟨hj, hid, hr, Or.inl rfl⟩
  obtain ⟨⟨res, d₁⟩, h2, h3⟩ := Option.bind_eq_some_iff.1 h
  rcases res with e | f
  · simp only [Option.some.injEq, Prod.mk.injEq] at h3
    obtain ⟨-, rfl, rfl⟩ := h3
    exact ⟨hj, hid, hr, Or.inl rfl⟩
  obtain ⟨d₂, h4, h5⟩ := Option.bind_eq_some_iff.1 h3
  simp only [Option.some.injEq, Prod.mk.injEq] at h5
  obtain ⟨-, rfl, rfl⟩ := h5
  refine ⟨fun j hji => ?_, ?_, ?_, Or.inr ⟨rfl, ?_, fun f' d' h6 => ?_⟩⟩
  · rw [← hj j hji]
    exact Function.update_of_ne hji ..
  · rw [← hid]
    dsimp only
    rw [Function.update_self]
  · rw [← hr]
    dsimp only
    rw [Function.update_self]
  · dsimp only
    rw [Function.update_self]
  · rw [h2] at h6
    simp only [Option.some.injEq, Prod.mk.injEq, Except.ok.injEq] at h6
    dsimp only
    rw [Function.update_self, h6.1]

/-- The other requests leave the ids, the files and the references. -/
def SameEntries (σ σ' : Server) : Prop := ∀ i, (σ'.opentab i).fileid = (σ.opentab i).fileid ∧
  (σ'.opentab i).ref = (σ.opentab i).ref ∧ (σ'.opentab i).file = (σ.opentab i).file

theorem sameEntries_of_eq (h : σ'.opentab = σ.opentab) : SameEntries σ σ' := fun i => by
  rw [h]
  exact ⟨rfl, rfl, rfl⟩

theorem sameEntries_fd (fd : Fd) : SameEntries σ (setFd σ i fd) := fun j => by
  unfold setFd
  by_cases h : j = i
  · rw [h]
    dsimp only
    rw [Function.update_self]
    exact ⟨rfl, rfl, rfl⟩
  · dsimp only
    rw [Function.update_of_ne h]
    exact ⟨rfl, rfl, rfl⟩

theorem sameEntries_advance {z : ℤ} : SameEntries σ ⟨d, advance σ.opentab i z⟩ :=
  sameEntries_fd _

theorem serveRemove_opentab (h : serveRemove page σ = some (r, σ')) : σ'.opentab = σ.opentab := by
  unfold serveRemove at h
  generalize fileRemove σ.disk (reqPath page) = o at h
  obtain ⟨⟨r', d⟩, -, h2⟩ := Option.bind_eq_some_iff.1 h
  cases h2
  rfl

theorem handle_entries {req : BitVec 32} {rep : Reply} (hreq : req.toNat ≠ 1)
    (h : handle mem req page σ = some rep) : SameEntries σ rep.server := by
  unfold handle at h
  split at h
  · rename_i h1
    exact absurd h1 hreq
  · obtain ⟨⟨r, σ'⟩, h1, rfl⟩ := Option.map_eq_some_iff.1 h
    unfold serveSetSize at h1
    split at h1
    · cases h1
      exact sameEntries_of_eq rfl
    · obtain ⟨f, -, h2⟩ := Option.bind_eq_some_iff.1 h1
      obtain ⟨d, -, h3⟩ := Option.bind_eq_some_iff.1 h2
      cases h3
      exact sameEntries_of_eq rfl
  · obtain ⟨⟨r, page', σ'⟩, h1, rfl⟩ := Option.map_eq_some_iff.1 h
    unfold serveRead at h1
    split at h1
    · cases h1
      exact sameEntries_of_eq rfl
    · obtain ⟨f, -, h2⟩ := Option.bind_eq_some_iff.1 h1
      obtain ⟨⟨⟨r, bs⟩, d⟩, -, h3⟩ := Option.bind_eq_some_iff.1 h2
      dsimp only at h3
      split at h3
      · cases h3
        exact sameEntries_of_eq rfl
      · cases h3
        exact sameEntries_advance
  · obtain ⟨⟨r, σ'⟩, h1, rfl⟩ := Option.map_eq_some_iff.1 h
    unfold serveWrite at h1
    split at h1
    · cases h1
      exact sameEntries_of_eq rfl
    · obtain ⟨f, -, h2⟩ := Option.bind_eq_some_iff.1 h1
      obtain ⟨⟨r, d⟩, -, h3⟩ := Option.bind_eq_some_iff.1 h2
      dsimp only at h3
      split at h3
      · cases h3
        exact sameEntries_of_eq rfl
      · cases h3
        exact sameEntries_advance
  · obtain ⟨⟨r, page', σ'⟩, h1, rfl⟩ := Option.map_eq_some_iff.1 h
    unfold serveStat at h1
    split at h1
    · cases h1
      exact sameEntries_of_eq rfl
    · obtain ⟨f, -, h2⟩ := Option.bind_eq_some_iff.1 h1
      cases h2
      exact sameEntries_of_eq rfl
  · obtain ⟨⟨r, σ'⟩, h1, rfl⟩ := Option.map_eq_some_iff.1 h
    unfold serveFlush at h1
    split at h1
    · cases h1
      exact sameEntries_of_eq rfl
    · obtain ⟨f, -, h2⟩ := Option.bind_eq_some_iff.1 h1
      cases h2
      exact sameEntries_of_eq rfl
  · generalize hs : serveRemove page σ = o at h
    obtain ⟨⟨r, σ'⟩, rfl, rfl⟩ := Option.map_eq_some_iff.1 h
    exact sameEntries_of_eq (serveRemove_opentab hs)
  · cases h
    exact sameEntries_of_eq rfl
  · cases h
    exact sameEntries_of_eq rfl

/-- A free entry is mapped by no client. -/
theorem Entry.idle_maps (h : Entry T i) (hr : (T.server.opentab i).ref ≤ 1) : T.maps i = 0 := by
  rcases h.ref with h1 | h1
  · exact h.idle h1
  · omega

/-- An entry that is allocated. -/
theorem Entry.alloc (h : Entry T i) (hr : (T.server.opentab i).ref ≤ 1)
    (h1 : (T'.server.opentab i).fileid = (T.server.opentab i).fileid + BitVec.ofNat 32 maxOpen)
    (h2 : (T'.server.opentab i).ref = 1) (h3 : T'.maps i = T.maps i) : Entry T' i := by
  have h4 := h.idle_maps hr
  refine ⟨?_, fun h5 => ?_, Or.inr (by rw [h2, h3, h4]), fun _ => h3.trans h4, fun h5 => ?_⟩
  · rw [h1]
    exact next_slot h.slot
  · rw [h2] at h5
    cases h5
  · rw [h3, h4] at h5
    exact absurd h5 (lt_irrefl 0)

theorem setRef_self {k : ℕ} : (setRef σ i k).opentab i = { σ.opentab i with ref := k } :=
  Function.update_self ..

theorem setRef_ne {k : ℕ} (h : j ≠ i) : (setRef σ i k).opentab j = σ.opentab j :=
  Function.update_of_ne h ..

theorem setFd_self {fd : Fd} : (setFd σ i fd).opentab i = { σ.opentab i with fd := fd } :=
  Function.update_self ..

/-- **Every step keeps the invariant.** -/
theorem step_inv (hI : Inv T) (h : TableStep T T') : Inv T' := by
  intro j hj
  have hE := hI j hj
  cases h with
  | @opened mem page d f i r σ ho hs =>
    obtain ⟨h1, -⟩ | ⟨k, hk, hne, hid, hr, hok⟩ := serveOpen_cases hs
    · cases h1
    obtain ⟨hik, hfd, hf⟩ := hok.resolve_left nofun
    obtain rfl := Option.some.inj hik
    by_cases hji : j = i
    · subst hji
      have hm := hE.idle_maps (freeEntry_some hk).2
      have hA : Entry { T with server := σ } j := hE.alloc (freeEntry_some hk).2 hid hr rfl
      refine ⟨?_, ?_, Or.inr ?_, ?_, fun _ => ⟨f, ?_, ?_⟩⟩
      · dsimp only
        rw [setRef_self]
        exact hA.slot
      · dsimp only
        rw [setRef_self]
        exact fun h => absurd h (Nat.succ_ne_zero _)
      · dsimp only
        rw [setRef_self, Function.update_self, hr, hm]
      · dsimp only
        rw [setRef_self]
        exact fun h => absurd h (Nat.succ_ne_zero _)
      · dsimp only
        rw [setRef_self, Function.update_self, hfd]
      · dsimp only
        rw [setRef_self]
        exact hf f d ho
    · have h1 := hne j hji
      have h2 := setRef_ne (σ := σ) (k := (σ.opentab i).ref + 1) hji
      exact hE.congr (by rw [h2, h1]) (by rw [h2, h1]) (by rw [h2, h1]) (Function.update_of_ne hji ..)
        (Function.update_of_ne hji ..)
  | @openedOnly mem page d f i r σ ho hs =>
    obtain ⟨h1, -⟩ | ⟨k, hk, hne, hid, hr, hok⟩ := serveOpen_cases hs
    · cases h1
    obtain ⟨hik, -, -⟩ := hok.resolve_left nofun
    obtain rfl := Option.some.inj hik
    by_cases hji : j = i
    · subst hji
      exact hE.alloc (freeEntry_some hk).2 hid hr rfl
    · have h1 := hne j hji
      exact hE.congr (by rw [h1]) (by rw [h1]) (by rw [h1]) (Function.update_of_ne hji ..) rfl
  | failed hs =>
    rcases serveOpen_cases hs with ⟨-, h1⟩ | ⟨k, hk, hne, hid, hr, -⟩
    · exact hE.congr (by rw [h1]) (by rw [h1]) (by rw [h1]) rfl rfl
    · by_cases hjk : j = k
      · subst hjk
        exact hE.alloc (freeEntry_some hk).2 hid hr rfl
      · have h1 := hne j hjk
        exact hE.congr (by rw [h1]) (by rw [h1]) (by rw [h1]) rfl rfl
  | request hreq h =>
    obtain ⟨h1, h2, h3⟩ := handle_entries hreq h j
    exact hE.congr h1 h2 h3 rfl rfl
  | @store i fd _ =>
    obtain ⟨h1, h2, h3⟩ := sameEntries_fd (σ := T.server) (i := i) fd j
    exact hE.congr h1 h2 h3 rfl rfl
  | @unmap i hm =>
    by_cases hji : j = i
    · subst hji
      have hr : (T.server.opentab j).ref = T.maps j + 1 := by
        refine hE.ref.resolve_left fun h => ?_
        have := hE.idle h
        omega
      refine ⟨?_, ?_, Or.inr ?_, ?_, fun _ => ?_⟩
      · dsimp only
        rw [setRef_self]
        exact hE.slot
      · dsimp only
        rw [setRef_self]
        dsimp only
        omega
      · dsimp only
        rw [setRef_self, Function.update_self]
        dsimp only
        omega
      · dsimp only
        rw [setRef_self]
        dsimp only
        omega
      · dsimp only
        rw [setRef_self]
        exact hE.issued hm
    · have h2 := setRef_ne (σ := T.server) (k := (T.server.opentab i).ref - 1) hji
      exact hE.congr (by rw [h2]) (by rw [h2]) (by rw [h2]) rfl (Function.update_of_ne hji ..)

theorem run_inv (hI : Inv T) (h : TableRun T T') : Inv T' := by
  induction h with
  | refl => exact hI
  | tail _ h1 ih => exact step_inv ih h1

/-! ## Lookup and allocation -/

theorem mod_maxOpen (fileid : BitVec 32) : fileid.toNat % maxOpen < maxOpen :=
  Nat.mod_lt _ (by decide)

/-- **An id is honoured as it should** unless its entry was never allocated. -/
theorem honoured_iff (hI : Inv T) (fileid : BitVec 32) : Honoured T fileid ↔
    ¬ (fileid.toNat < maxOpen ∧ (T.server.opentab fileid.toNat).ref = 0) := by
  have hE := hI _ (mod_maxOpen fileid)
  constructor
  · rintro ⟨-, h⟩ ⟨h1, h2⟩
    have h3 := Nat.mod_eq_of_lt h1
    rw [h3] at hE
    have h4 : ¬ ∃ f, Live T fileid f := by
      rintro ⟨f, -, h4⟩
      rw [h3, hE.idle h2] at h4
      exact absurd h4 (lt_irrefl 0)
    have h5 : (T.server.opentab fileid.toNat).fileid = fileid := BitVec.eq_of_toNat_eq (hE.unused h2)
    have h6 := h h4
    unfold openfileLookup at h6
    dsimp only at h6
    rw [h3, if_neg (by rw [h2, h5]; simp)] at h6
    cases h6
  · intro h
    constructor
    · rintro f ⟨h1, h2⟩
      obtain ⟨g, h3, h4⟩ := hE.issued h2
      rw [h1] at h3
      simp only [Option.some.injEq, Prod.mk.injEq] at h3
      obtain ⟨h5, rfl⟩ := h3
      refine ⟨_, ?_, h4⟩
      unfold openfileLookup
      refine if_neg ?_
      rintro (h6 | h6)
      · have h7 := hE.ref
        omega
      · exact h6 h5.symm
    · intro h1
      unfold openfileLookup
      refine if_pos ?_
      by_contra h2
      simp only [not_or, not_not] at h2
      obtain ⟨h3, h4⟩ := h2
      rcases hE.ref with h5 | h5
      · have h6 := hE.unused h5
        rw [h4] at h6
        refine h ⟨?_, ?_⟩
        · rw [h6]
          exact mod_maxOpen fileid
        · rw [h6]
          exact h5
      · obtain ⟨f, h6, -⟩ := hE.issued (by omega)
        rw [h4] at h6
        exact h1 ⟨f, h6, by omega⟩

/-- **Allocation fails as it should** unless the id of the entry it picks wraps. -/
theorem allocOk_iff (hI : Inv T) (mem : Bool) :
    AllocOk T mem ↔ mem = false ∨ ¬ Wraps T.server.opentab := by
  constructor
  · intro h
    by_contra h1
    simp only [not_or, not_not, Bool.not_eq_false] at h1
    obtain ⟨rfl, i, hi, hneg⟩ := h1
    rcases openfileAlloc_cases true T.server.opentab with ⟨-, h2⟩ | ⟨k, -, h2, -⟩ | ⟨k, hk, h2⟩
    · rw [hi] at h2
      cases h2
    · cases h2
    · rw [hi] at hk
      obtain rfl := Option.some.inj hk
      unfold AllocOk at h
      rw [h2] at h
      dsimp only at h
      have h3 := (h hneg).resolve_left nofun i (freeEntry_some hi).1
      have h4 := (hI i (freeEntry_some hi).1).idle_maps (freeEntry_some hi).2
      omega
  · rintro (h | h) hneg
    · exact Or.inl h
    · rcases openfileAlloc_cases mem T.server.opentab with ⟨-, h2⟩ | ⟨k, -, h2, -⟩ | ⟨k, hk, h2⟩
      · refine Or.inr fun i hi => ?_
        have h3 := freeEntry_none h2 hi
        have h4 := (hI i hi).ref
        omega
      · exact Or.inl h2
      · rw [h2] at hneg
        dsimp only at hneg
        exact absurd ⟨k, hk, hneg⟩ h

end Jos.Fs
