import Jos.Proof.Ends

/-!
# The counts of a pipe, in every run

Each process changes its own table and those of the children that it makes, so what its program
keeps of them (`prog_wp`) holds whatever the others do (`WorldInv.run`). The counts of the pages
are the numbers of their entries, and the data page has as many as both ends together, or more
(`pipe_counts`).

`duppage` tests for a positive result of `sys_page_map`, so `fork` goes on where a page was not
mapped (`pipe_counts_counterexample`).
-/

namespace Jos.Fd

open Lib Prog World

variable {P : Pipe} {w w' : World} {va : Va} {p page : ℕ} {e e' c : EnvIdx} {pte : Option Pte}
  {perm : BitVec 32} {ch : Choice} {C : World → EnvIdx → Choice → Prop}

/-! ## The count of a page -/

/-- The pages of all entries. -/
def slots (w : World) (s : EnvIdx × Va) : Option ℕ := w.page s.1 s.2

/-- The counts of the pages of the pipe are right. -/
def Counted (P : Pipe) (w : World) : Prop := ∀ p ∈ P.pages, w.ppRef p = BitVec.ofNat 16 (refs (slots w) p)

theorem page_setPte : (w.setPte e va pte).page e va = pte.map (·.page) := by
  simp [World.page, World.setPte]

theorem slots_setPte {s : EnvIdx × Va} (h : s ≠ (e, va)) : slots (w.setPte e va pte) s = slots w s := by
  obtain ⟨e', va'⟩ := s
  unfold slots World.page World.setPte
  by_cases he : e' = e
  · subst he
    have hva : va' ≠ va := fun hva => h (by rw [hva])
    simp [Function.update_of_ne hva]
  · simp [Function.update_of_ne he]

theorem pageLookup_page (hp : p ≠ 0) : (w.pageLookup e va).page = p ↔ w.page e va = some p := by
  unfold World.pageLookup World.page
  rcases w.table e va with _ | pte
  · simpa using hp.symm
  · simp

/-- **One entry changes**, and with it the counts of its old and its new page. -/
theorem Counted.change (h : Counted P w) (hs : ∀ s, s ≠ (e, va) → slots w' s = slots w s)
    (hr : ∀ p ∈ P.pages, w'.ppRef p + (if slots w (e, va) = some p then 1 else 0) =
      w.ppRef p + if slots w' (e, va) = some p then 1 else 0) : Counted P w' := by
  intro p hp
  have h0 : refs (slots w') p + (if slots w (e, va) = some p then 1 else 0) =
      refs (slots w) p + if slots w' (e, va) = some p then 1 else 0 := by
    convert refs_set hs
  have h1 := congrArg (BitVec.ofNat 16) h0
  have h2 : ∀ (q : Prop) [Decidable q], BitVec.ofNat 16 (if q then 1 else 0) = if q then 1 else 0 := by
    intro q _
    split <;> rfl
  rw [BitVec.ofNat_add, BitVec.ofNat_add, h2, h2, ← h p hp, ← hr p hp] at h1
  exact (BitVec.add_right_inj _).1 (by rw [BitVec.add_comm, ← h1, BitVec.add_comm])

theorem pageRemove_ppRef (hp : p ≠ 0) : (w.pageRemove e va).ppRef p =
    if slots w (e, va) = some p then w.ppRef p - 1 else w.ppRef p := by
  show Function.update w.ppRef _ _ p = _
  rw [Function.update_apply]
  by_cases h1 : slots w (e, va) = some p
  · have h2 := (pageLookup_page hp).2 h1
    rw [if_pos h2.symm, if_pos h1, h2]
  · rw [if_neg fun h2 => h1 ((pageLookup_page hp).1 h2.symm), if_neg h1]

theorem pageInsert_ppRef (hp : p ≠ 0) : (w.pageInsert e va page perm).ppRef p =
    (if slots w (e, va) = some p then (w.incRef page).ppRef p - 1 else (w.incRef page).ppRef p) := by
  unfold World.pageInsert
  dsimp only
  by_cases h : (w.table e va).isSome = true
  · rw [if_pos (show ((w.incRef page).table e va).isSome = true from h)]
    exact pageRemove_ppRef (w := w.incRef page) hp
  · rw [if_neg (show ¬ ((w.incRef page).table e va).isSome = true from h), if_neg]
    · rfl
    · unfold slots World.page
      simp only [Bool.not_eq_true, Option.isSome_eq_false_iff, Option.isNone_iff_eq_none] at h
      rw [h]
      nofun

theorem table_pageInsert : (w.pageInsert e va page perm).table =
    (w.setPte e va (some ⟨page, perm ||| pteP⟩)).table := by
  unfold World.pageInsert
  dsimp only
  split
  · simp [World.setPte, World.pageRemove, World.decRef, World.incRef]
  · rfl

section Counted

variable (hP : 0 ∉ P.pages) (h : Counted P w)
include hP h

theorem Counted.remove : Counted P (w.pageRemove e va) := by
  refine h.change (fun s hs => slots_setPte hs) fun p hp => ?_
  have h1 : slots (w.pageRemove e va) (e, va) ≠ some p := by
    rw [show slots (w.pageRemove e va) (e, va) = none from page_setPte]
    nofun
  rw [pageRemove_ppRef fun h0 => hP (h0 ▸ hp), if_neg h1]
  split
  · exact (BitVec.sub_add_cancel _ _).trans (BitVec.add_zero _).symm
  · rfl

theorem Counted.insert : Counted P (w.pageInsert e va page perm) := by
  have hs : slots (w.pageInsert e va page perm) = slots (w.setPte e va (some ⟨page, perm ||| pteP⟩)) := by
    unfold slots World.page
    rw [table_pageInsert]
  refine h.change (e := e) (fun s (hne : s ≠ (e, va)) => ?_) fun p hp => ?_
  · rw [hs]
    exact slots_setPte hne
  · have h1 : slots (w.pageInsert e va page perm) (e, va) = some page := by
      rw [hs]
      exact page_setPte
    rw [pageInsert_ppRef fun h0 => hP (h0 ▸ hp), h1]
    have h2 : (w.incRef page).ppRef p = w.ppRef p + if some page = some p then 1 else 0 := by
      show Function.update w.ppRef _ _ p = _
      rw [Function.update_apply]
      by_cases h3 : p = page
      · rw [if_pos h3, if_pos (by rw [h3]), h3]
      · rw [if_neg h3, if_neg fun h4 => h3 (Option.some.inj h4).symm]
        exact (BitVec.add_zero _).symm
    rw [← h2]
    split
    · exact BitVec.sub_add_cancel _ _
    · exact BitVec.add_zero _

end Counted

/-! ## What a process sees -/

/-- The table of `c`, if `e` makes it. -/
def kid (w : World) (e c : EnvIdx) : Option Table :=
  match w.run c with
  | .embryo parent => if parent = e then some (w.table c) else none
  | _ => none

def view (w : World) (e : EnvIdx) : Local := ⟨w.table e, kid w e⟩

theorem kid_embryo (h : w.run c = .embryo e) : kid w e c = some (w.table c) := by
  unfold kid
  rw [h]
  exact if_pos rfl

theorem kid_eq_some {t : Table} (h : kid w e c = some t) : w.run c = .embryo e ∧ w.table c = t := by
  unfold kid at h
  rcases hr : w.run c with _ | parent | u <;> rw [hr] at h
  · cases h
  · dsimp only at h
    split at h
    · rename_i he
      rw [he]
      exact ⟨rfl, Option.some.inj h⟩
    · cases h
  · cases h

theorem kid_none (h : w.run c ≠ .embryo e) : kid w e c = none := by
  rcases hk : kid w e c with _ | t
  · rfl
  · exact absurd (kid_eq_some hk).1 h

/-- The invariant: each program keeps what it is to keep, whatever it is told. -/
structure WorldInv (P : Pipe) (w : World) : Prop where
  prog : ∀ e u, w.run e = .running u → Wp P u (fun _ => LocalEnd P) (view w e)
  parent : ∀ c e, w.run c = .embryo e → ∃ u, w.run e = .running u
  free : ∀ e, w.run e = .free → ∀ va, w.table e va = none
  count : Counted P w

/-- A call of `fork` that maps a page of the pipe is not short of memory. -/
def ForkMaps (P : Pipe) (w : World) (e : EnvIdx) (ch : Choice) : Prop :=
  ∀ srcva env dstva perm k, w.run e = .running (.call (.pageMap srcva (some env) dstva perm) k) →
    (∃ p ∈ P.pages, w.page e srcva = some p) → ch.noMem = false

/-- What a change of one table leaves of the others. -/
theorem view_other (hrun : w'.run = w.run) (htab : ∀ x, x ≠ c → w'.table x = w.table x)
    (hne : e' ≠ c) (hkid : w.run c ≠ .embryo e') : view w' e' = view w e' := by
  unfold view
  rw [htab e' hne]
  congr 1
  funext x
  unfold kid
  rw [hrun]
  by_cases hx : x = c
  · subst hx
    rcases hr : w.run x with _ | parent | u
    · rfl
    · have h1 : parent ≠ e' := fun h1 => hkid (by rw [hr, h1])
      simp [h1]
    · rfl
  · rw [htab x hx]

/-- **What `sys_page_map` does.** -/
theorem pageMap_cases (srcva dstva : Va) (perm : BitVec 32) (noMem : Bool) :
    (∃ r, r < 0 ∧ w.pageMap e srcva c dstva perm noMem = (r, w) ∧ (PermFits (w.table e) srcva perm → noMem = true)) ∨
      w.pageMap e srcva c dstva perm noMem = (0, w.pageInsert c dstva (w.pageLookup e srcva).page perm) := by
  unfold World.pageMap PermFits
  split
  · rename_i h
    exact Or.inl ⟨_, by decide, rfl, fun h1 => absurd h1.1 h⟩
  · dsimp only
    split
    · rename_i h1
      rw [Bool.and_eq_true, Bool.not_eq_true'] at h1
      refine Or.inl ⟨_, by decide, rfl, fun h2 => ?_⟩
      have h3 : flag (w.pageLookup e srcva).perm pteW = true := h2.2 h1.2
      rw [h1.1] at h3
      cases h3
    · split
      · rename_i h2
        exact Or.inl ⟨_, by decide, rfl, fun _ => h2⟩
      · exact Or.inr rfl

/-! ## One call -/

/-- One table changes, that of the process or that of a child that it makes. -/
def OneTable (P : Pipe) (w : World) (e : EnvIdx) (w' : World) : Prop :=
  w'.run = w.run ∧ (∃ c, (c = e ∨ w.run c = .embryo e) ∧ ∀ x, x ≠ c → w'.table x = w.table x) ∧
    (Counted P w → Counted P w')

theorem OneTable.refl : OneTable P w e w := ⟨rfl, ⟨e, Or.inl rfl, fun _ _ => rfl⟩, fun h => h⟩

theorem run_pageInsert : (w.pageInsert e va page perm).run = w.run := by
  unfold World.pageInsert
  dsimp only
  split <;> rfl

theorem table_insert_of_ne (h : e' ≠ e) : (w.pageInsert e va page perm).table e' = w.table e' := by
  rw [table_pageInsert]
  exact Function.update_of_ne h _ _

theorem table_insert_self :
    (w.pageInsert e va page perm).table e = (w.table e).set va (some ⟨page, perm ||| pteP⟩) := by
  rw [table_pageInsert]
  exact Function.update_self ..

theorem oneTable_insert (hP : 0 ∉ P.pages) (hc : c = e ∨ w.run c = .embryo e) :
    OneTable P w e (w.pageInsert c va page perm) := by
  exact ⟨run_pageInsert, ⟨c, hc, fun x hx => table_insert_of_ne hx⟩, fun h => h.insert hP⟩

/-- What the kernel does in a call to the other processes: it changes one table, or it makes a
child, or it lets a child run. -/
def Effect (P : Pipe) (w : World) (e : EnvIdx) (s : Sys) (w' : World) : Prop :=
  OneTable P w e w' ∨
    (∃ env, w.run env = .free ∧
      w' = { w with table := Function.update w.table env fun _ => none }.setRun env (.embryo e)) ∨
    ∃ env, s = .setRunnable env ∧ w.run env = .embryo e ∧ w' = w.setRun env (.running (.ret ()))

section Exec

variable {s : Sys} {r : s.Result} {u : User Unit} (hrun : w.run e = .running u)
include hrun

/-- The process is no child of its own. -/
theorem kid_self : kid w e e = none := kid_none (by rw [hrun]; nofun)

theorem view_own (h : w'.run = w.run) (ht : ∀ x, x ≠ e → w'.table x = w.table x) :
    view w' e = { view w e with own := w'.table e } := by
  unfold view
  congr 1
  funext x
  by_cases hx : x = e
  · subst hx
    exact (kid_none (by rw [h, hrun]; nofun)).trans (kid_self hrun).symm
  · unfold kid
    rw [h, ht x hx]

theorem view_kid (h : w'.run = w.run) (ht : ∀ x, x ≠ c → w'.table x = w.table x) (hc : w.run c = .embryo e) :
    view w' e = { view w e with kids := Function.update (view w e).kids c (some (w'.table c)) } := by
  have hne : e ≠ c := by
    rintro rfl
    rw [hrun] at hc
    cases hc
  unfold view
  rw [ht e hne]
  congr 1
  funext x
  rw [Function.update_apply]
  split
  · rename_i hx
    rw [hx]
    exact kid_embryo (by rw [h, hc])
  · rename_i hx
    unfold kid
    rw [h, ht x hx]

/-- **A call**, for the process and for the others. -/
theorem exec_cases (hP : 0 ∉ P.pages) (hC : ∀ srcva env dstva perm, s = .pageMap srcva (some env) dstva perm →
      (∃ p ∈ P.pages, w.page e srcva = some p) → ch.noMem = false)
    (h : w.exec e ch s = some (r, w')) : LocalExec P s (view w e) r (view w' e) ∧ Effect P w e s w' := by
  cases s with
  | uvpt =>
    simp only [World.exec, Option.some.injEq] at h
    cases h
    exact ⟨⟨rfl, rfl⟩, Or.inl .refl⟩
  | pageMap srcva dst dstva perm =>
    cases dst with
    | none =>
      simp only [World.exec] at h
      rcases pageMap_cases (w := w) (e := e) (c := e) srcva dstva perm ch.noMem with ⟨r₁, h1, h2, -⟩ | h1
      · rw [h2] at h
        cases h
        exact ⟨Or.inl ⟨h1, rfl⟩, Or.inl .refl⟩
      · rw [h1] at h
        cases h
        refine ⟨Or.inr ⟨rfl, ?_⟩, Or.inl (oneTable_insert hP (Or.inl rfl))⟩
        rw [view_own hrun run_pageInsert fun x hx => table_insert_of_ne hx]
        exact congrArg (Local.mk · (kid w e)) table_insert_self
    | some env =>
      -- an id of no child is refused, and the process has no such child
      have hbad : ∀ (r : ℤ) w', w.run env ≠ .embryo e → (r, w') = (-eBadEnv, w) →
          LocalExec P (.pageMap srcva (some env) dstva perm) (view w e) r (view w' e) := by
        intro r w' h1 h2
        cases h2
        refine Or.inl ⟨by decide, rfl, fun t p h2 => ?_⟩
        rw [show (view w e).kids env = none from kid_none h1] at h2
        cases h2
      simp only [World.exec] at h
      rcases hr : w.run env with _ | parent | u <;> rw [hr] at h
      · have h1 := (Option.some.inj h).symm
        cases h1
        exact ⟨hbad _ _ (by rw [hr]; nofun) rfl, Or.inl .refl⟩
      · dsimp only at h
        split at h
        · rename_i he
          subst he
          rcases pageMap_cases (w := w) (e := parent) (c := env) srcva dstva perm ch.noMem with
            ⟨r₁, h1, h2, h3⟩ | h1
          · rw [h2] at h
            cases h
            refine ⟨Or.inl ⟨h1, rfl, fun t p _ hfit hpage hp => ?_⟩, Or.inl .refl⟩
            -- the only failure left is `-E_NO_MEM`, which the condition excludes for pipe pages
            have h4 := hC srcva env dstva perm rfl ⟨p, hp, hpage⟩
            rw [h3 hfit] at h4
            cases h4
          · rw [h1] at h
            cases h
            refine ⟨Or.inr ⟨w.table env, kid_embryo hr, rfl, ?_⟩, Or.inl (oneTable_insert hP (Or.inr hr))⟩
            rw [view_kid hrun run_pageInsert (fun x hx => table_insert_of_ne hx) hr, table_insert_self]
            rfl
        · rename_i he
          cases h
          exact ⟨hbad _ _ (by rw [hr]; exact fun h => he (RunState.embryo.inj h)) rfl, Or.inl .refl⟩
      · cases h
        exact ⟨hbad _ _ (by rw [hr]; nofun) rfl, Or.inl .refl⟩
  | pageUnmap va =>
    simp only [World.exec, Option.some.injEq] at h
    cases h
    have hr : (w.pageRemove e va).run = w.run := rfl
    have ht : ∀ x, x ≠ e → (w.pageRemove e va).table x = w.table x := fun x hx => Function.update_of_ne hx _ _
    refine ⟨?_, Or.inl ⟨hr, ⟨e, Or.inl rfl, ht⟩, fun h => h.remove hP⟩⟩
    show view (w.pageRemove e va) e = _
    rw [view_own hrun hr ht]
    exact congrArg (Local.mk · (kid w e)) (Function.update_self ..)
  | exofork =>
    simp only [World.exec] at h
    split at h
    · cases h
      exact ⟨Or.inl ⟨rfl, rfl⟩, Or.inl .refl⟩
    · split at h
      · rename_i hfree
        cases h
        refine ⟨Or.inr ⟨ch.env, rfl, ?_⟩, Or.inr (Or.inl ⟨_, hfree, rfl⟩)⟩
        have hne : e ≠ ch.env := fun he => by
          rw [← he, hrun] at hfree
          cases hfree
        unfold view
        congr 1
        · exact Function.update_of_ne hne _ _
        · funext x
          rw [Function.update_apply]
          split
          · rename_i hx
            subst hx
            refine (kid_embryo (Function.update_self ..)).trans ?_
            exact congrArg some (Function.update_self ..)
          · rename_i hx
            unfold kid World.setRun
            simp only [Function.update_of_ne hx]
      · cases h
  | setRunnable env =>
    simp only [World.exec] at h
    have hstay : w.run env ≠ .embryo e → LocalExec P (.setRunnable env) (view w e) r (view w e) := fun h1 => by
      refine congrArg (Local.mk _) ?_
      have h2 : kid w e env = none := kid_none h1
      show kid w e = Function.update (kid w e) env none
      rw [← h2, Function.update_eq_self]
    rcases hr : w.run env with _ | parent | u <;> rw [hr] at h
    · cases h
      exact ⟨hstay (by rw [hr]; nofun), Or.inl .refl⟩
    · dsimp only at h
      split at h
      · rename_i he
        subst he
        cases h
        refine ⟨congrArg (Local.mk _) (funext fun x => ?_), Or.inr (Or.inr ⟨env, rfl, hr, rfl⟩)⟩
        rw [Function.update_apply]
        split
        · rename_i hx
          rw [hx]
          exact kid_none (by simp [World.setRun])
        · rename_i hx
          unfold kid World.setRun
          simp only [Function.update_of_ne hx]
          rfl
      · rename_i he
        cases h
        exact ⟨hstay (by rw [hr]; exact fun h => he (RunState.embryo.inj h)), Or.inl .refl⟩
    · cases h
      exact ⟨hstay (by rw [hr]; nofun), Or.inl .refl⟩
  | envDestroy => cases h

end Exec

/-! ## The other processes -/

theorem run_setRun_of_ne {r : RunState} (h : e' ≠ e) : (w.setRun e r).run e' = w.run e' :=
  Function.update_of_ne h _ _

@[simp] theorem run_setRun_self {r : RunState} : (w.setRun e r).run e = r := Function.update_self ..

theorem view_setRun {v u : User Unit} (h : w.run e = .running u) :
    view (w.setRun e (.running v)) e' = view w e' := by
  unfold view
  refine congrArg (Local.mk _) (funext fun x => ?_)
  by_cases hx : x = e
  · subst hx
    exact (kid_none (by rw [run_setRun_self]; nofun)).trans (kid_none (by rw [h]; nofun)).symm
  · unfold kid
    rw [run_setRun_of_ne hx]
    rfl

/-- The invariant, but for the program of environment `e`. -/
structure Others (P : Pipe) (e : EnvIdx) (w : World) : Prop where
  self : ∃ u, w.run e = .running u
  prog : ∀ e' u, e' ≠ e → w.run e' = .running u → Wp P u (fun _ => LocalEnd P) (view w e')
  parent : ∀ c e, w.run c = .embryo e → ∃ u, w.run e = .running u
  free : ∀ e, w.run e = .free → ∀ va, w.table e va = none
  count : Counted P w

/-- It is whole again when the program is known. -/
theorem Others.done {u : User Unit} (h : Others P e w) (hu : Wp P u (fun _ => LocalEnd P) (view w e)) :
    WorldInv P (w.setRun e (.running u)) := by
  obtain ⟨u₀, hself⟩ := h.self
  refine ⟨fun e' v hv => ?_, fun x e' hx => ?_, fun e' hf va => ?_, h.count⟩
  · rw [view_setRun hself]
    by_cases he : e' = e
    · subst he
      rw [run_setRun_self] at hv
      cases hv
      exact hu
    · rw [run_setRun_of_ne he] at hv
      exact h.prog e' v he hv
  · have h1 : x ≠ e := by
      rintro rfl
      rw [run_setRun_self] at hx
      cases hx
    rw [run_setRun_of_ne h1] at hx
    obtain ⟨v, hv⟩ := h.parent x e' hx
    by_cases he : e' = e
    · exact ⟨u, by rw [he, run_setRun_self]⟩
    · exact ⟨v, by rw [run_setRun_of_ne he, hv]⟩
  · have h1 : e' ≠ e := by
      rintro rfl
      rw [run_setRun_self] at hf
      cases hf
    rw [run_setRun_of_ne h1] at hf
    exact h.free e' hf va

namespace WorldInv

variable {u : User Unit} (h : WorldInv P w) (hrun : w.run e = .running u)
include h

omit hrun in
/-- A child makes no child. -/
theorem embryo_kids (hc : w.run c = .embryo e) (x : EnvIdx) : kid w c x = none := by
  refine kid_none fun h1 => ?_
  obtain ⟨u, h2⟩ := h.parent x c h1
  rw [hc] at h2
  cases h2

include hrun

/-- A change of one table. -/
theorem others_table (hT : OneTable P w e w') : Others P e w' := by
  obtain ⟨hr, ⟨c, hc, ht⟩, hcount⟩ := hT
  have hnotfree : w.run c ≠ .free := by
    rcases hc with rfl | hc
    · rw [hrun]
      nofun
    · rw [hc]
      nofun
  refine ⟨⟨u, by rw [hr, hrun]⟩, fun e' v hne hv => ?_, fun x e' hx => ?_, fun e' hf va => ?_, hcount h.count⟩
  · rw [hr] at hv
    have hkid : w.run c ≠ .embryo e' := by
      rcases hc with rfl | hc
      · rw [hrun]
        nofun
      · rw [hc]
        exact fun h1 => hne (RunState.embryo.inj h1).symm
    have hec : e' ≠ c := by
      rintro rfl
      rcases hc with rfl | hc
      · exact hne rfl
      · rw [hv] at hc
        cases hc
    rw [view_other hr ht hec hkid]
    exact h.prog e' v hv
  · rw [hr] at hx ⊢
    exact h.parent x e' hx
  · rw [hr] at hf
    rw [ht e' fun h1 => hnotfree (h1 ▸ hf)]
    exact h.free e' hf va

/-- A child is made. -/
theorem others_child {env : EnvIdx} (hfree : w.run env = .free) (hr : w'.run env = .embryo e)
    (hrest : ∀ x, x ≠ env → w'.run x = w.run x) (ht : w'.table = w.table) (href : w'.ppRef = w.ppRef) :
    Others P e w' := by
  have hne : e ≠ env := by
    rintro rfl
    rw [hrun] at hfree
    cases hfree
  refine ⟨⟨u, by rw [hrest e hne, hrun]⟩, fun e' v hne' hv => ?_, fun x e' hx => ?_, fun e' hf va => ?_,
    fun p hp => ?_⟩
  · have h1 : e' ≠ env := by
      rintro rfl
      rw [hr] at hv
      cases hv
    rw [hrest e' h1] at hv
    have h2 : view w' e' = view w e' := by
      unfold view
      rw [ht]
      refine congrArg (Local.mk _) (funext fun x => ?_)
      by_cases hx : x = env
      · subst hx
        refine (kid_none ?_).trans (kid_none (by rw [hfree]; nofun)).symm
        rw [hr]
        exact fun h3 => hne' (RunState.embryo.inj h3).symm
      · unfold kid
        rw [hrest x hx, ht]
    rw [h2]
    exact h.prog e' v hv
  · by_cases hxe : x = env
    · subst hxe
      rw [hr] at hx
      obtain rfl := RunState.embryo.inj hx
      exact ⟨u, by rw [hrest e hne, hrun]⟩
    · rw [hrest x hxe] at hx
      obtain ⟨v, hv⟩ := h.parent x e' hx
      refine ⟨v, ?_⟩
      rw [hrest e' ?_, hv]
      rintro rfl
      rw [hfree] at hv
      cases hv
  · have h1 : e' ≠ env := by
      rintro rfl
      rw [hr] at hf
      cases hf
    rw [ht]
    exact h.free e' (by rwa [hrest e' h1] at hf) va
  · have h1 : slots w' = slots w := by
      unfold slots World.page
      rw [ht]
    rw [href, h1]
    exact h.count p hp

/-- A child runs. -/
theorem others_runs {env : EnvIdx} (hemb : w.run env = .embryo e) (hb : Balanced P (w.table env)) :
    Others P e (w.setRun env (.running (.ret ()))) := by
  have hne : e ≠ env := by
    rintro rfl
    rw [hrun] at hemb
    cases hemb
  have hview : ∀ e', e' ≠ e → view (w.setRun env (.running (.ret ()))) e' = view w e' := by
    intro e' hne'
    unfold view
    refine congrArg (Local.mk _) (funext fun x => ?_)
    by_cases hx : x = env
    · subst hx
      refine (kid_none (by rw [run_setRun_self]; nofun)).trans (kid_none ?_).symm
      rw [hemb]
      exact fun h1 => hne' (RunState.embryo.inj h1).symm
    · unfold kid
      rw [run_setRun_of_ne hx]
      rfl
  refine ⟨⟨u, by rw [run_setRun_of_ne hne, hrun]⟩, fun e' v hne' hv => ?_, fun x e' hx => ?_, fun e' hf va => ?_,
    h.count⟩
  · rw [hview e' hne']
    by_cases h1 : e' = env
    · subst h1
      rw [run_setRun_self] at hv
      cases hv
      exact ⟨hb, fun x => h.embryo_kids hemb x⟩
    · rw [run_setRun_of_ne h1] at hv
      exact h.prog e' v hv
  · have h1 : x ≠ env := by
      rintro rfl
      rw [run_setRun_self] at hx
      cases hx
    rw [run_setRun_of_ne h1] at hx
    obtain ⟨v, hv⟩ := h.parent x e' hx
    by_cases h2 : e' = env
    · exact ⟨_, by rw [h2]; exact run_setRun_self⟩
    · exact ⟨v, by rw [run_setRun_of_ne h2, hv]⟩
  · have h1 : e' ≠ env := by
      rintro rfl
      rw [run_setRun_self] at hf
      cases hf
    rw [run_setRun_of_ne h1] at hf
    exact h.free e' hf va

/-- **The other processes** after a call. -/
theorem others {s : Sys} (hinv : LocalInv P s (view w e)) (hE : Effect P w e s w') : Others P e w' := by
  rcases hE with hT | ⟨env, hfree, rfl⟩ | ⟨env, rfl, hemb, rfl⟩
  · exact h.others_table hrun hT
  · refine h.others_child hrun hfree run_setRun_self (fun x hx => run_setRun_of_ne hx) (funext fun x => ?_) rfl
    by_cases hx : x = env
    · subst hx
      exact (Function.update_self ..).trans (funext fun va => (h.free x hfree va).symm)
    · exact Function.update_of_ne hx _ _
  · exact h.others_runs hrun hemb (hinv.2.2.1 env _ rfl (kid_embryo hemb))

end WorldInv

/-! ## Steps and runs -/

/-- All entries of a process go when it ends. -/
theorem envFree_fold (hP : 0 ∉ P.pages) (hcount : Counted P w) (xs : List Va) :
    let w' := xs.foldl (fun w va => if (w.table e va).isSome then w.pageRemove e va else w) w
    Counted P w' ∧ w'.run = w.run ∧ (∀ x, x ≠ e → w'.table x = w.table x) ∧
      ∀ va, w'.table e va = if va ∈ xs then none else w.table e va := by
  induction xs generalizing w with
  | nil => exact ⟨hcount, rfl, fun _ _ => rfl, fun _ => rfl⟩
  | cons va xs ih =>
    dsimp only
    rw [List.foldl_cons]
    generalize hw₁ : (if (w.table e va).isSome then w.pageRemove e va else w) = w₁
    have h1 : Counted P w₁ ∧ w₁.run = w.run ∧ (∀ x, x ≠ e → w₁.table x = w.table x) ∧
        ∀ va', w₁.table e va' = if va' = va then none else w.table e va' := by
      rw [← hw₁]
      split
      · refine ⟨hcount.remove hP, rfl, fun x hx => Function.update_of_ne hx _ _, fun va' => ?_⟩
        unfold World.pageRemove World.setPte
        simp only [Function.update_self]
        rw [Function.update_apply]
        rfl
      · rename_i hnone
        refine ⟨hcount, rfl, fun _ _ => rfl, fun va' => ?_⟩
        split
        · rename_i hva
          subst hva
          simpa using hnone
        · rfl
    obtain ⟨h2, h3, h4, h5⟩ := h1
    obtain ⟨h6, h7, h8, h9⟩ := ih h2
    refine ⟨h6, h7.trans h3, fun x hx => (h8 x hx).trans (h4 x hx), fun va' => ?_⟩
    rw [h9, h5]
    by_cases hva : va' = va
    · simp [hva]
    · simp [hva]

namespace WorldInv

variable (h : WorldInv P w)
include h

/-- **The end of a process**, which has made its children runnable. -/
theorem envFree (hP : 0 ∉ P.pages) {u : User Unit} (hrun : w.run e = .running u) (hk : ∀ x, kid w e x = none) :
    WorldInv P (w.envFree e) := by
  obtain ⟨h1, h2, h3, h4⟩ := envFree_fold (e := e) hP h.count (List.finRange 64)
  unfold World.envFree
  generalize (List.finRange 64).foldl
    (fun w va => if (w.table e va).isSome then w.pageRemove e va else w) w = w₁ at h1 h2 h3 h4
  refine ⟨fun e' v hv => ?_, fun x e' hx => ?_, fun e' hf va => ?_, h1⟩
  · have hne : e' ≠ e := by
      rintro rfl
      rw [run_setRun_self] at hv
      cases hv
    rw [run_setRun_of_ne hne, h2] at hv
    have h5 : view (w₁.setRun e .free) e' = view w e' := by
      unfold view
      rw [show (w₁.setRun e .free).table e' = w.table e' from h3 e' hne]
      refine congrArg (Local.mk _) (funext fun x => ?_)
      by_cases hx : x = e
      · subst hx
        exact (kid_none (by rw [run_setRun_self]; nofun)).trans (kid_none (by rw [hrun]; nofun)).symm
      · unfold kid
        rw [run_setRun_of_ne hx, h2, show (w₁.setRun e .free).table x = w.table x from h3 x hx]
    rw [h5]
    exact h.prog e' v hv
  · have hne : x ≠ e := by
      rintro rfl
      rw [run_setRun_self] at hx
      cases hx
    rw [run_setRun_of_ne hne, h2] at hx
    obtain ⟨v, hv⟩ := h.parent x e' hx
    refine ⟨v, ?_⟩
    rw [run_setRun_of_ne, h2, hv]
    rintro rfl
    have h5 := hk x
    rw [kid_embryo hx] at h5
    cases h5
  · by_cases he : e' = e
    · subst he
      exact (h4 va).trans (if_pos (List.mem_finRange va))
    · rw [run_setRun_of_ne he, h2] at hf
      show w₁.table e' va = none
      rw [h3 e' he]
      exact h.free e' hf va

/-- **A call** keeps the invariant. -/
theorem sys (hP : 0 ∉ P.pages) (hC : ForkMaps P w e ch) (hs : w.sysStep e ch = some w') : WorldInv P w' := by
  unfold World.sysStep at hs
  rcases hrun : w.run e with _ | parent | (_ | ⟨s, k⟩) <;> rw [hrun] at hs
  · cases hs
  · cases hs
  · cases hs
  obtain ⟨hinv, hnext⟩ := h.prog e _ hrun
  by_cases hd : s = .envDestroy
  · subst hd
    obtain rfl := Option.some.inj hs
    exact h.envFree hP hrun (hinv.2.2.2 rfl)
  · have hs' : ((w.exec e ch s).map fun x => x.2.setRun e (.running (k x.1))) = some w' := by
      cases s <;> first | exact hs | exact absurd rfl hd
    obtain ⟨⟨r, w₁⟩, h1, rfl⟩ := Option.map_eq_some_iff.1 hs'
    obtain ⟨h2, h3⟩ := exec_cases hrun hP (fun srcva env dstva perm hs hp => by
      subst hs
      exact hC srcva env dstva perm k hrun hp) h1
    exact (h.others hrun hinv h3).done (hnext r _ h2)

theorem others_refl {u : User Unit} (hrun : w.run e = .running u) : Others P e w :=
  h.others_table hrun .refl

theorem idle (hi : w.Idle e) : LocalEnd P (view w e) := h.prog e _ hi

end WorldInv

theorem Others.idle (h : Others P e w) (hi : w.Idle e) (hu : LocalEnd P (view w e)) : WorldInv P w := by
  have h1 := h.done (u := .ret ()) hu
  have h2 : w.setRun e (.running (.ret ())) = w := by
    unfold World.setRun
    rw [show RunState.running (.ret ()) = w.run e from hi.symm, Function.update_eq_self]
  rwa [h2] at h1

theorem WorldInv.other {ppRef : ℕ → BitVec 16} (h : WorldInv P w) (hi : w.Idle e)
    (hp : ∀ p ∈ P.pages, w.page e va ≠ some p ∧ pte.map (·.page) ≠ some p ∧ ppRef p = w.ppRef p) :
    WorldInv P { w.setPte e va pte with ppRef := ppRef } := by
  have ht : ∀ x, x ≠ e → (w.setPte e va pte).table x = w.table x := fun x hx => Function.update_of_ne hx _ _
  have hT : OneTable P w e { w.setPte e va pte with ppRef := ppRef } := by
    refine ⟨rfl, ⟨e, Or.inl rfl, ht⟩, fun hc => hc.change (e := e)
      (fun s (hs : s ≠ (e, va)) => slots_setPte hs) fun p hpp => ?_⟩
    obtain ⟨h1, h2, h3⟩ := hp p hpp
    have h4 : slots { w.setPte e va pte with ppRef := ppRef } (e, va) = pte.map (·.page) :=
      page_setPte (w := w) (e := e)
    rw [if_neg (show ¬ slots w (e, va) = some p from h1), h4, if_neg h2]
    exact congrArg (· + 0) h3
  refine (h.others_table hi hT).idle hi ⟨?_, fun x => ?_⟩
  · have h1 : SameEnds P (w.table e) ((w.table e).set va pte) := .set fun p hpp => ⟨(hp p hpp).1, (hp p hpp).2.1⟩
    have h2 := h1.balanced (h.idle hi).1
    show Balanced P (Function.update w.table e _ e)
    rw [Function.update_self]
    exact h2
  · by_cases hx : x = e
    · subst hx
      exact kid_self hi
    · have h1 : kid w e x = none := (h.idle hi).2 x
      unfold kid at *
      exact (show (match w.run x with
        | .embryo parent => if parent = e then some (Function.update w.table e _ x) else none
        | _ => none) = none by rw [Function.update_of_ne hx]; exact h1)

/-- `pipe()` opens two ends, and gives both the data page. -/
theorem Balanced.pipe {t t' : Table} {fd0 fd1 : Fin 32} {perm : BitVec 32} (h : Balanced P t)
    (ht : t' = (((t.set (index2fd fd0) (some ⟨P.r, perm⟩)).set (index2fd fd1) (some ⟨P.w, perm⟩)).set
      (index2data fd0) (some ⟨P.d, perm⟩)).set (index2data fd1) (some ⟨P.d, perm⟩)) : Balanced P t' := by
  have hfd : ∀ i, t'.page (index2fd i) =
      if i = fd1 then some P.w else if i = fd0 then some P.r else t.page (index2fd i) := by
    intro i
    rw [ht]
    simp only [Table.page_set, index_ne, if_false, index2fd_inj, Option.map_some]
  have hdata : ∀ i, t'.page (index2data i) =
      if i = fd1 then some P.d else if i = fd0 then some P.d else t.page (index2data i) := by
    intro i
    rw [ht]
    simp only [Table.page_set, index_ne.symm, if_false, index2data_inj, Option.map_some]
  have hrw := P.rw
  have hrd := P.rd
  have hwd := P.wd
  refine ⟨⟨fun i => ?_, fun i => ?_⟩, fun i => ?_⟩
  · rw [hfd]
    have := h.fd i
    split_ifs <;> simp_all
  · rw [hdata]
    have := h.data i
    split_ifs <;> simp_all [eq_comm]
  · have h1 := h.iff i
    unfold IsEnd HasData at *
    rw [hfd, hdata]
    split_ifs <;> simp_all

theorem table_pipe {fd0 fd1 : Fin 32} : ∃ perm, (w.pipe P e fd0 fd1).table e =
    ((((w.table e).set (index2fd fd0) (some ⟨P.r, perm⟩)).set (index2fd fd1) (some ⟨P.w, perm⟩)).set
      (index2data fd0) (some ⟨P.d, perm⟩)).set (index2data fd1) (some ⟨P.d, perm⟩) := by
  unfold World.pipe
  dsimp only
  rw [table_insert_self, table_insert_self, table_insert_self, table_insert_self]
  exact ⟨_, rfl⟩

theorem WorldInv.pipe (hP : 0 ∉ P.pages) {fd0 fd1 : Fin 32} (h : WorldInv P w) (hi : w.Idle e) :
    WorldInv P (w.pipe P e fd0 fd1) := by
  have hr : (w.pipe P e fd0 fd1).run = w.run := by
    unfold World.pipe
    simp only [run_pageInsert]
  have ht : ∀ x, x ≠ e → (w.pipe P e fd0 fd1).table x = w.table x := by
    intro x hx
    unfold World.pipe
    simp only [table_insert_of_ne hx]
  have hT : OneTable P w e (w.pipe P e fd0 fd1) := by
    refine ⟨hr, ⟨e, Or.inl rfl, ht⟩, fun hc => ?_⟩
    exact (((hc.insert hP).insert hP).insert hP).insert hP
  have hi' : (w.pipe P e fd0 fd1).Idle e := by
    unfold World.Idle
    rw [hr]
    exact hi
  refine (h.others_table hi hT).idle hi' ?_
  rw [view_own hi hr ht]
  obtain ⟨perm, ht⟩ := @table_pipe P w e fd0 fd1
  exact ⟨(h.idle hi).1.pipe ht, (h.idle hi).2⟩

/-- **A step** keeps the invariant. -/
theorem WorldInv.act (hP : 0 ∉ P.pages) (h : WorldInv P w) (hs : Act P (ForkMaps P) e w w') : WorldInv P w' := by
  cases hs with
  | start op hi => exact (h.others_refl hi).done (prog_wp hP op (h.idle hi))
  | sys hC hs => exact h.sys hP hC hs
  | pipe hi _ _ _ _ _ _ => exact h.pipe hP hi
  | other hi hp => exact h.other hi hp

theorem World.Boot.inv (h : Boot P w) : WorldInv P w := by
  have hrun : ∀ c e, w.run c ≠ .embryo e := by
    intro c e h1
    rcases h.run c with h2 | h2
    · rw [h2] at h1
      cases h1
    · rw [show w.run c = _ from h2] at h1
      cases h1
  refine ⟨fun e u hu => ?_, fun c e hc => absurd hc (hrun c e), h.free, fun p hp => ?_⟩
  · rcases h.run e with h2 | h2
    · rw [h2] at hu
      cases hu
    · rw [show w.run e = _ from h2] at hu
      cases hu
      have hno : ∀ va, ∀ p ∈ P.pages, (w.table e).page va ≠ some p := h.page e
      have hr : P.r ∈ P.pages := Or.inl rfl
      have hw : P.w ∈ P.pages := Or.inr (Or.inl rfl)
      have hd : P.d ∈ P.pages := Or.inr (Or.inr rfl)
      refine ⟨⟨⟨fun i => hno _ _ hd, fun i => ⟨hno _ _ hr, hno _ _ hw⟩⟩, fun i => ?_⟩, fun x => kid_none (hrun x e)⟩
      exact iff_of_false (not_or.2 ⟨hno _ _ hr, hno _ _ hw⟩) (hno _ _ hd)
  · have h1 : refs (slots w) p = 0 := refs_eq_zero.2 fun s => h.page s.1 s.2 p hp
    rw [h.ppRef p hp, h1]
    rfl

theorem WorldInv.run {w₀ : World} (hP : 0 ∉ P.pages) (h : WorldInv P w₀) (hr : World.Run P (ForkMaps P) w₀ w) :
    WorldInv P w := by
  induction hr with
  | refl => exact h
  | tail _ hs ih =>
    obtain ⟨e, hs⟩ := hs
    exact ih.act hP hs

/-! ## Counting -/

/-- Every table is covered, whatever its process does. -/
theorem WorldInv.covered (h : WorldInv P w) (e : EnvIdx) : Covered P (w.table e) := by
  rcases hr : w.run e with _ | parent | u
  · have hno : ∀ va p, (w.table e).page va ≠ some p := fun va p => by
      rw [Table.page_none.2 (h.free e hr va)]
      nofun
    exact ⟨⟨fun i => hno _ _, fun i => ⟨hno _ _, hno _ _⟩⟩, fun i hi => (hi.elim (hno _ _) (hno _ _)).elim⟩
  · obtain ⟨u, hu⟩ := h.parent e parent hr
    have h1 := h.prog parent u hu
    have h2 : kid w parent e = some (w.table e) := kid_embryo hr
    cases u with
    | ret a =>
      rw [show kid w parent e = none from h1.2 e] at h2
      cases h2
    | call s k => exact h1.1.2.1 e _ h2
  · have h1 := h.prog e u hr
    cases u with
    | ret a => exact h1.1.covered
    | call s k => exact h1.1.1

/-- The data page of the descriptor at an address. -/
def besideFd (s : EnvIdx × Va) : EnvIdx × Va := (s.1, s.2 + 32)

theorem besideFd_inj : Function.Injective besideFd := by
  rintro ⟨e, va⟩ ⟨e', va'⟩ h
  simp only [besideFd, Prod.mk.injEq, add_left_inj] at h
  rw [h.1, h.2]

theorem besideFd_fd (i : Fin 32) : besideFd (e, index2fd i) = (e, index2data i) := by
  simp only [besideFd, Prod.mk.injEq, true_and, index2fd, index2data, Fin.ext_iff, Fin.val_add]
  omega

section Counting

variable (h : ∀ e, Covered P (w.table e))
include h

/-- Where the ends are. -/
theorem ends_slot {s : EnvIdx × Va} (hs : slots w s = some P.r ∨ slots w s = some P.w) :
    ∃ i, s.2 = index2fd i ∧ IsEnd P (w.table s.1) i := by
  rcases index_cases s.2 with ⟨i, hi⟩ | ⟨i, hi⟩
  · refine ⟨i, hi, ?_⟩
    unfold IsEnd
    rw [← hi]
    exact hs
  · have h1 := (h s.1).data i
    rw [← hi] at h1
    exact (hs.elim h1.1 h1.2).elim

/-- Where the data page is. -/
theorem data_slot {s : EnvIdx × Va} (hs : slots w s = some P.d) :
    ∃ i, s.2 = index2data i ∧ HasData P (w.table s.1) i := by
  rcases index_cases s.2 with ⟨i, hi⟩ | ⟨i, hi⟩
  · have h1 := (h s.1).fd i
    rw [← hi] at h1
    exact (h1 hs).elim
  · refine ⟨i, hi, ?_⟩
    unfold HasData
    rw [← hi]
    exact hs

omit h in
theorem ends_ncard : refs (slots w) P.r + refs (slots w) P.w =
    ({s | slots w s = some P.r} ∪ {s | slots w s = some P.w}).ncard := by
  unfold refs
  refine (Set.ncard_union_eq ?_ (Set.toFinite _) (Set.toFinite _)).symm
  refine Set.disjoint_left.2 fun s h1 h2 => P.rw ?_
  exact Option.some.inj (h1.symm.trans h2)

/-- **The data page has as many entries as both ends.** -/
theorem refs_le : refs (slots w) P.r + refs (slots w) P.w ≤ refs (slots w) P.d := by
  rw [ends_ncard]
  refine Set.ncard_le_ncard_of_injOn besideFd (fun s hs => ?_) besideFd_inj.injOn (Set.toFinite _)
  obtain ⟨i, hi, h1⟩ := ends_slot h hs
  obtain ⟨e, va⟩ := s
  obtain rfl : va = index2fd i := hi
  rw [besideFd_fd]
  exact (h e).cover i h1

theorem refs_eq (hb : ∀ e, Balanced P (w.table e)) :
    refs (slots w) P.r + refs (slots w) P.w = refs (slots w) P.d := by
  refine le_antisymm (refs_le h) ?_
  rw [ends_ncard]
  refine le_trans (Set.ncard_le_ncard (fun s hs => ?_) (Set.toFinite _)) (Set.ncard_image_le (f := besideFd) (Set.toFinite _))
  obtain ⟨i, hi, h1⟩ := data_slot h hs
  obtain ⟨e, va⟩ := s
  obtain rfl : va = index2data i := hi
  exact ⟨(e, index2fd i), ((hb e).iff i).2 h1, besideFd_fd i⟩

/-- The 16 bits of `pp_ref` are enough: there are `NENV * MAXFD` descriptors. -/
theorem refs_data_le : refs (slots w) P.d ≤ 1024 * 32 := by
  have h1 : {s | slots w s = some P.d} ⊆
      (fun s : EnvIdx × Fin 32 => (s.1, index2data s.2)) '' Set.univ := by
    rintro ⟨e, va⟩ hs
    obtain ⟨i, hi, -⟩ := data_slot h hs
    exact ⟨(e, i), trivial, by rw [show va = index2data i from hi]⟩
  refine (Set.ncard_le_ncard h1 (Set.toFinite _)).trans ((Set.ncard_image_le (Set.toFinite _)).trans ?_)
  rw [Set.ncard_univ, Nat.card_prod, Nat.card_fin, Nat.card_fin]

end Counting

/-- **`pp_ref` is the number of entries**, for the pages of the pipe. -/
theorem WorldInv.ppRef (h : WorldInv P w) (hp : p ∈ P.pages) : (w.ppRef p).toNat = refs (slots w) p := by
  have hle := refs_le h.covered
  have hmax := refs_data_le h.covered
  have h1 : refs (slots w) p ≤ 1024 * 32 := by
    rcases hp with rfl | rfl | rfl <;> omega
  rw [h.count p hp, BitVec.toNat_ofNat, Nat.mod_eq_of_lt (by omega)]

/-- **The data page counts at least both ends of a pipe**, in every run in which no `fork` is
short of memory for a page of the pipe; when no operation is in progress it counts as many. -/
theorem pipe_counts {w₀ : World} (hP : 0 ∉ P.pages) (h0 : Boot P w₀) (hr : World.Run P (ForkMaps P) w₀ w) :
    (w.ppRef P.r).toNat + (w.ppRef P.w).toNat ≤ (w.ppRef P.d).toNat ∧
      (w.Quiet → (w.ppRef P.r).toNat + (w.ppRef P.w).toNat = (w.ppRef P.d).toNat) := by
  have h := h0.inv.run hP hr
  rw [h.ppRef (Or.inl rfl), h.ppRef (Or.inr (Or.inl rfl)), h.ppRef (Or.inr (Or.inr rfl))]
  refine ⟨refs_le h.covered, fun hq => refs_eq h.covered fun e => ?_⟩
  rcases hq e with hf | hi
  · have hno : ∀ va p, (w.table e).page va ≠ some p := fun va p => by
      rw [Table.page_none.2 (h.free e hf va)]
      nofun
    exact ⟨(h.covered e).toPlaced, fun i => iff_of_false (not_or.2 ⟨hno _ _, hno _ _⟩) (hno _ _)⟩
  · exact (h.idle hi).1

/-! ## A fork that is short of memory -/

/-- A pipe in pages 1 and 2, with the data in page 3. -/
def pipe123 : Pipe := ⟨1, 2, 3, by decide, by decide, by decide, fun _ => none⟩

/-- One process. -/
def alone : World where
  table _ _ := none
  ppRef _ := 0
  run e := if e = 0 then .running (.ret ()) else .free

theorem alone_boot : Boot pipe123 alone := by
  refine ⟨fun e => ?_, fun _ _ _ => rfl, fun _ _ _ _ => nofun, fun _ _ => rfl⟩
  unfold World.Idle alone
  by_cases he : e = 0
  · exact Or.inr (if_pos he)
  · exact Or.inl (if_neg he)

/-- It calls `pipe()`. -/
theorem alone_pipe : World.Run pipe123 C alone (alone.pipe pipe123 0 0 1) :=
  .single ⟨0, .pipe rfl (by decide) rfl rfl rfl rfl rfl⟩

/-- Both ends are open once, and the data page is there twice. -/
theorem pipe_counts_open : ((alone.pipe pipe123 0 0 1).ppRef 1).toNat + ((alone.pipe pipe123 0 0 1).ppRef 2).toNat =
    ((alone.pipe pipe123 0 0 1).ppRef 3).toNat :=
  (pipe_counts (P := pipe123) (by simp [Pipe.pages, pipe123]) alone_boot alone_pipe).2 alone_boot.run

/-- The calls of one process, with what the kernel decides. -/
theorem sysSteps_act {l : List Choice} (hC : ∀ w, ∀ ch ∈ l, C w e ch)
    (h : l.foldlM (fun w ch => World.sysStep w e ch) w = some w') : Relation.ReflTransGen (Act P C e) w w' := by
  induction l generalizing w with
  | nil =>
    cases h
    exact .refl
  | cons ch l ih =>
    rw [List.foldlM_cons] at h
    obtain ⟨w₁, h1, h2⟩ := Option.bind_eq_some_iff.1 h
    exact .head (.sys (hC _ _ List.mem_cons_self) h1) (ih (fun w ch hch => hC w ch (List.mem_cons_of_mem _ hch)) h2)

theorem acts_run (h : Relation.ReflTransGen (Act P C e) w w') : World.Run P C w w' :=
  Relation.ReflTransGen.mono (fun _ _ h => ⟨e, h⟩) _ _ h

/-- There is no memory when the data pages are to be mapped. -/
def short : List Choice :=
  ⟨false, 1⟩ :: (List.replicate 36 ⟨true, 1⟩ ++ List.replicate 33 ⟨false, 1⟩)

/-- **This fails** where `fork` cannot map the data page into the child and goes on: then
it maps the write end. -/
theorem pipe_counts_counterexample : ¬ ∀ P w₀ w, 0 ∉ P.pages → Boot P w₀ →
    World.Run P (fun _ _ _ => True) w₀ w →
      (w.ppRef P.r).toNat + (w.ppRef P.w).toNat ≤ (w.ppRef P.d).toNat := by
  intro h
  have hrun : ((short.foldlM (fun w ch => World.sysStep w 0 ch)
      ((alone.pipe pipe123 0 0 1).setRun 0 (.running (Op.prog pipe123 .fork)))).any
        fun w => decide ((w.ppRef 3).toNat < (w.ppRef 1).toNat + (w.ppRef 2).toNat)) = true := by
    decide +kernel
  obtain ⟨w, h1, h2⟩ := (Option.any_eq_true _ _).1 hrun
  have h3 : World.Run pipe123 (fun _ _ _ => True) alone w :=
    alone_pipe.trans (acts_run (e := 0) (.head (.start .fork rfl) (sysSteps_act (fun _ _ _ => trivial) h1)))
  exact absurd (h pipe123 alone w (by simp [Pipe.pages, pipe123]) alone_boot h3) (not_le.2 (of_decide_eq_true h2))

end Jos.Fd
