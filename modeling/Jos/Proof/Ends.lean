import Jos.Spec.Fd
import Jos.Lib.Refs

/-!
# The counts of a pipe

In every table a descriptor that has an end of the pipe has the data page too (`Covered`), also
between two calls of `dup`, `close` and `fork`; in no operation the two go together
(`Balanced`). Each program keeps this of its own table and of that of the child that it makes
(`prog_wp`), whatever the other processes do, and the counts are those of the entries.
-/

namespace Jos.Fd

open Lib Prog

variable {P : Pipe} {t t' : Table} {va va' : Va} {i fd fdnum oldfdnum newfdnum : Fin 32} {p : ℕ} {e c : EnvIdx}
  {perm : BitVec 32} {ch : World.Choice} {w w' : World}

/-! ## Tables -/

/-- The page at an address. -/
def Table.page (t : Table) (va : Va) : Option ℕ := (t va).map (·.page)

/-- Descriptor `i` has an end of the pipe. -/
def IsEnd (P : Pipe) (t : Table) (i : Fin 32) : Prop :=
  t.page (index2fd i) = some P.r ∨ t.page (index2fd i) = some P.w

/-- Descriptor `i` has the data page. -/
def HasData (P : Pipe) (t : Table) (i : Fin 32) : Prop := t.page (index2data i) = some P.d

/-- The pages of the pipe are where they belong. -/
structure Placed (P : Pipe) (t : Table) : Prop where
  fd : ∀ i, t.page (index2fd i) ≠ some P.d
  data : ∀ i, t.page (index2data i) ≠ some P.r ∧ t.page (index2data i) ≠ some P.w

/-- **Every open end has the data page.** -/
structure Covered (P : Pipe) (t : Table) : Prop extends Placed P t where
  cover : ∀ i, IsEnd P t i → HasData P t i

/-- The open ends and the data pages go together. -/
structure Balanced (P : Pipe) (t : Table) : Prop extends Placed P t where
  iff : ∀ i, IsEnd P t i ↔ HasData P t i

theorem Balanced.covered (h : Balanced P t) : Covered P t := ⟨h.toPlaced, fun i => (h.iff i).1⟩

theorem index2fd_inj : index2fd i = index2fd fd ↔ i = fd := by
  simp only [index2fd, Fin.ext_iff]

theorem index2data_inj : index2data i = index2data fd ↔ i = fd := by
  simp only [index2data, Fin.ext_iff]
  omega

theorem index_ne : index2fd i ≠ index2data fd := by
  simp only [index2fd, index2data, ne_eq, Fin.ext_iff]
  omega

theorem index_cases (va : Va) : (∃ i, va = index2fd i) ∨ ∃ i, va = index2data i := by
  by_cases h : va.val < 32
  · exact Or.inl ⟨⟨va, h⟩, rfl⟩
  · refine Or.inr ⟨⟨va - 32, by omega⟩, ?_⟩
    simp only [index2data, Fin.ext_iff]
    omega

/-- The table after a change of one entry. -/
def Table.set (t : Table) (va : Va) (pte : Option Pte) : Table := Function.update t va pte

@[simp] theorem Table.page_set {pte : Option Pte} :
    (t.set va pte).page va' = if va' = va then pte.map (·.page) else t.page va' := by
  unfold Table.page Table.set
  by_cases h : va' = va
  · subst h
    simp
  · rw [Function.update_of_ne h, if_neg h]

@[simp] theorem Table.page_none : t.page va = none ↔ t va = none := by
  unfold Table.page
  exact Option.map_eq_none_iff

/-- Only which entries have a page of the pipe counts. -/
structure SameEnds (P : Pipe) (t t' : Table) : Prop where
  page : ∀ va, ∀ p ∈ P.pages, t'.page va = some p ↔ t.page va = some p

namespace SameEnds

variable (h : SameEnds P t t')
include h

theorem r_iff : t'.page va = some P.r ↔ t.page va = some P.r := h.page va _ (Or.inl rfl)

theorem w_iff : t'.page va = some P.w ↔ t.page va = some P.w := h.page va _ (Or.inr (Or.inl rfl))

theorem d_iff : t'.page va = some P.d ↔ t.page va = some P.d := h.page va _ (Or.inr (Or.inr rfl))

theorem placed (hp : Placed P t) : Placed P t' :=
  ⟨fun i => mt h.d_iff.1 (hp.fd i), fun i => (hp.data i).imp (mt h.r_iff.1) (mt h.w_iff.1)⟩

theorem isEnd : IsEnd P t' i ↔ IsEnd P t i := or_congr h.r_iff h.w_iff

theorem hasData : HasData P t' i ↔ HasData P t i := h.d_iff

theorem balanced (hb : Balanced P t) : Balanced P t' :=
  ⟨h.placed hb.toPlaced, fun i => by rw [h.isEnd, h.hasData]; exact hb.iff i⟩

theorem covered (hc : Covered P t) : Covered P t' :=
  ⟨h.placed hc.toPlaced, fun i hi => h.hasData.2 (hc.cover i (h.isEnd.1 hi))⟩

end SameEnds

theorem SameEnds.refl : SameEnds P t t := ⟨fun _ _ _ => Iff.rfl⟩

/-- An entry that has no page of the pipe gets none. -/
theorem SameEnds.set {pte : Option Pte}
    (h : ∀ p ∈ P.pages, t.page va ≠ some p ∧ pte.map (·.page) ≠ some p) : SameEnds P t (t.set va pte) := by
  refine ⟨fun va' p hp => ?_⟩
  rw [Table.page_set]
  by_cases hva : va' = va
  · subst hva
    rw [if_pos rfl]
    exact iff_of_false (h p hp).2 (h p hp).1
  · rw [if_neg hva]

/-- A page is mapped again where it is. -/
theorem SameEnds.remap {pte : Option Pte} (h : pte.map (·.page) = t.page va) : SameEnds P t (t.set va pte) := by
  refine ⟨fun va' p _ => ?_⟩
  rw [Table.page_set, h]
  split
  · rename_i hva
    rw [hva]
  · rfl

/-! ## What one process sees -/

/-- The table of a process, and the tables of the children that it makes. -/
structure Local where
  own : Table
  kids : EnvIdx → Option Table

/-- The checks of `sys_page_map` on the flags pass. -/
def PermFits (t : Table) (srcva : Va) (perm : BitVec 32) : Prop :=
  perm ||| pteSyscall = pteSyscall ∧ (flag perm pteW = true → flag ((t srcva).getD ⟨0, 0⟩).perm pteW = true)

/-- What is mapped where `srcva` is. -/
def mapped (t : Table) (srcva : Va) (perm : BitVec 32) : Option Pte :=
  some ⟨((t srcva).getD ⟨0, 0⟩).page, perm ||| pteP⟩

/-- What a call does to what its process sees. A page of the pipe is always mapped into a child. -/
def LocalExec (P : Pipe) : (c : Sys) → Local → c.Result → Local → Prop
  | .uvpt, l, r, l' => r = l.own ∧ l' = l
  | .pageMap srcva none dstva perm, l, (r : ℤ), l' =>
    r < 0 ∧ l' = l ∨ r = 0 ∧ l' = { l with own := l.own.set dstva (mapped l.own srcva perm) }
  | .pageMap srcva (some env) dstva perm, l, (r : ℤ), l' =>
    r < 0 ∧ l' = l ∧ (∀ t p, l.kids env = some t → PermFits l.own srcva perm → l.own.page srcva = some p →
      p ∉ P.pages) ∨
    ∃ t, l.kids env = some t ∧ r = 0 ∧
      l' = { l with kids := Function.update l.kids env (some (t.set dstva (mapped l.own srcva perm))) }
  | .pageUnmap va, l, _, l' => l' = { l with own := l.own.set va none }
  | .exofork, l, (r : Option EnvIdx), l' =>
    r = none ∧ l' = l ∨
      ∃ env, r = some env ∧ l' = { l with kids := Function.update l.kids env (some fun _ => none) }
  | .setRunnable env, l, _, l' => l' = { l with kids := Function.update l.kids env none }
  | .envDestroy, _, _, _ => False

/-- What holds before a call: every table is covered, a child is balanced when it is made
runnable, and there is none when the process ends. -/
def LocalInv (P : Pipe) (c : Sys) (l : Local) : Prop :=
  Covered P l.own ∧ (∀ env t, l.kids env = some t → Covered P t) ∧
    (∀ env t, c = .setRunnable env → l.kids env = some t → Balanced P t) ∧
    (c = .envDestroy → ∀ env, l.kids env = none)

/-- What holds at the end. -/
def LocalEnd (P : Pipe) (l : Local) : Prop := Balanced P l.own ∧ ∀ env, l.kids env = none

/-- The weakest precondition of user code. -/
abbrev Wp (P : Pipe) {α : Type} (u : User α) (Q : α → Local → Prop) (l : Local) : Prop :=
  u.wp (LocalInv P) (LocalExec P) Q l

section Alone

variable {α : Type} {l : Local} {Q : α → Local → Prop} (hk : ∀ env, l.kids env = none)
include hk

/-- A process without children may make any call that does not end it. -/
theorem localInv_alone {s : Sys} (h : Covered P l.own) : LocalInv P s l := by
  refine ⟨h, fun env t h1 => ?_, fun env t _ h1 => ?_, fun _ => hk⟩ <;>
  · rw [hk env] at h1
    cases h1

theorem uvpt_wp {f : Table → User α} (h : Covered P l.own) (hQ : Wp P (f l.own) Q l) :
    Wp P (uvpt >>= f) Q l := by
  refine ⟨localInv_alone hk h, fun r l' hx => ?_⟩
  obtain ⟨rfl, rfl⟩ := hx
  exact hQ

theorem sysPageUnmap_wp {f : Unit → User α} (h : Covered P l.own)
    (hQ : Wp P (f ()) Q { l with own := l.own.set va none }) : Wp P (sysPageUnmap va >>= f) Q l := by
  refine ⟨localInv_alone hk h, fun r l' hx => ?_⟩
  obtain rfl := hx
  exact hQ

/-- Mapping a page of the own table fails, or it does not. -/
theorem sysPageMap_wp {f : ℤ → User α} (h : Covered P l.own) (hneg : ∀ r < 0, Wp P (f r) Q l)
    (hok : Wp P (f 0) Q { l with own := l.own.set va' (mapped l.own va perm) }) :
    Wp P (sysPageMap va none va' perm >>= f) Q l := by
  refine ⟨localInv_alone hk h, fun r l' hx => ?_⟩
  rcases hx with ⟨hr, rfl⟩ | ⟨rfl, rfl⟩
  · exact hneg r hr
  · exact hok

end Alone

/-! ## Closing a descriptor -/

/-- What closing descriptor `fd` does. -/
structure Closed (P : Pipe) (fd : Fin 32) (t t' : Table) : Prop where
  balanced : Balanced P t'
  closed : t' (index2fd fd) = none
  rest : ∀ va, va ≠ index2fd fd → va ≠ index2data fd → t' va = t va

/-- **First the end goes, then the data page.** -/
theorem Balanced.unmap_fd (h : Balanced P t) : Covered P (t.set (index2fd fd) none) := by
  refine ⟨⟨fun i => ?_, fun i => ?_⟩, fun i hi => ?_⟩
  · rw [Table.page_set]
    split
    · nofun
    · exact h.fd i
  · rw [Table.page_set, if_neg index_ne.symm]
    exact h.data i
  · unfold IsEnd HasData at *
    rw [Table.page_set] at hi ⊢
    rw [if_neg index_ne.symm]
    split at hi
    · simp at hi
    · exact (h.iff i).1 hi

theorem Balanced.unmap_both (h : Balanced P t) :
    Balanced P ((t.set (index2fd fd) none).set (index2data fd) none) := by
  have h1 : Covered P (t.set (index2fd fd) none) := h.unmap_fd
  refine ⟨⟨fun i => ?_, fun i => ?_⟩, fun i => ?_⟩
  · rw [Table.page_set, if_neg index_ne]
    exact h1.fd i
  · rw [Table.page_set]
    split
    · exact ⟨nofun, nofun⟩
    · exact h1.data i
  · unfold IsEnd HasData
    simp only [Table.page_set, index2fd_inj, index2data_inj, index_ne, index_ne.symm, if_false]
    by_cases hi : i = fd
    · simp [hi]
    · simp only [if_neg hi]
      exact h.iff i

/-- A descriptor that has no end of the pipe is unmapped. -/
theorem Balanced.unmap_other (h : Balanced P t) (hi : ¬ IsEnd P t fd) :
    Balanced P (t.set (index2fd fd) none) := by
  refine (SameEnds.set (P := P) fun p hp => ⟨?_, by simp⟩).balanced h
  rcases hp with rfl | rfl | rfl
  · exact fun h1 => hi (Or.inl h1)
  · exact fun h1 => hi (Or.inr h1)
  · exact h.fd fd

theorem fdClose_wp {l : Local} {b : Bool} (hb : Balanced P l.own) (hk : ∀ env, l.kids env = none)
    {Q : ℤ → Local → Prop} (hQ : ∀ r t, Closed P fd l.own t → Q r { l with own := t }) :
    Wp P (fdClose P fd b) Q l := by
  unfold fdClose
  refine uvpt_wp hk hb.covered ?_
  rcases hfd : l.own (index2fd fd) with _ | pte
  · exact hQ _ _ ⟨hb, hfd, fun _ _ _ => rfl⟩
  have hpage : l.own.page (index2fd fd) = some pte.page := by
    unfold Table.page
    rw [hfd]
    rfl
  dsimp only
  -- the second unmapping of the descriptor
  have hlast : ∀ r t, Balanced P t → Closed P fd l.own (t.set (index2fd fd) none) →
      Wp P (do sysPageUnmap (index2fd fd); return r) Q { l with own := t } := fun r t h h1 =>
    sysPageUnmap_wp (l := { l with own := t }) hk h.covered (hQ r _ h1)
  have hother : P.devLookup pte.page ≠ some .pipe → Closed P fd l.own (l.own.set (index2fd fd) none) := by
    intro hdev
    refine ⟨hb.unmap_other fun hi => hdev ?_, by simp [Table.set], fun va h1 _ => ?_⟩
    · unfold IsEnd at hi
      rw [hpage, Option.some.injEq, Option.some.injEq] at hi
      unfold Pipe.devLookup
      rw [if_pos hi]
    · exact Function.update_of_ne h1 _ _
  rcases hdev : P.devLookup pte.page with _ | _ | r
  · rw [hdev] at hother
    exact hlast _ _ hb (hother nofun)
  · refine wp_bind ?_
    unfold devpipeClose
    refine sysPageUnmap_wp hk hb.covered
      (sysPageUnmap_wp (l := { l with own := l.own.set (index2fd fd) none }) hk hb.unmap_fd ?_)
    refine hlast _ _ hb.unmap_both ⟨?_, by simp [Table.set], fun va h1 h2 => ?_⟩
    · exact hb.unmap_both.unmap_other (by simp [IsEnd, index_ne])
    · simp only [Table.set, Function.update_of_ne h1, Function.update_of_ne h2]
  · rw [hdev] at hother
    exact hlast _ _ hb (hother nofun)

/-- **`close`** leaves the descriptor closed and the rest of the table as it was. -/
theorem close_wp {l : Local} (hb : Balanced P l.own) (hk : ∀ env, l.kids env = none)
    {Q : ℤ → Local → Prop} (hQ : ∀ r t, Closed P fdnum l.own t → Q r { l with own := t }) :
    Wp P (close P fdnum) Q l := by
  unfold close
  refine uvpt_wp hk hb.covered ?_
  rcases hfd : l.own (index2fd fdnum) with _ | pte
  · exact hQ _ _ ⟨hb, hfd, fun _ _ _ => rfl⟩
  · exact fdClose_wp hb hk hQ

theorem closeAll_wp {l : Local} (hb : Balanced P l.own) (hk : ∀ env, l.kids env = none) :
    Wp P (closeAll P) (fun _ => LocalEnd P) l := by
  refine wp_forM (I := fun _ => LocalEnd P) (fun i is l h => ?_) ⟨hb, hk⟩
  exact wp_bind (close_wp h.1 h.2 fun r t hc => ⟨hc.balanced, h.2⟩)

/-- `exit` ends the process without an open end. -/
theorem exit_wp {l : Local} (hb : Balanced P l.own) (hk : ∀ env, l.kids env = none) :
    Wp P (exit P) (fun _ => LocalEnd P) l := by
  refine wp_bind (wp_mono (closeAll_wp hb hk) fun _ l h => ?_)
  exact ⟨localInv_alone h.2 h.1.covered, fun _ _ hx => hx.elim⟩

/-! ## Duplicating a descriptor -/

theorem mapped_page (hP : 0 ∉ P.pages) (hp : p ∈ P.pages) :
    (mapped t va perm).map (·.page) = some p ↔ t.page va = some p := by
  unfold mapped Table.page
  rcases h : t va with _ | pte
  · simp only [Option.getD_none, Option.map_some, Option.map_none, Option.some.injEq, reduceCtorEq, iff_false]
    rintro rfl
    exact hP hp
  · simp

/-- **Between the two calls of `dup`**: the new descriptor is closed, and its data page is that
of the old one. -/
structure Halfway (P : Pipe) (oldfdnum newfdnum : Fin 32) (t t' : Table) : Prop extends Placed P t' where
  ends : ∀ i, t' (index2fd i) = t (index2fd i)
  new : HasData P t' newfdnum ↔ HasData P t oldfdnum
  rest : ∀ i, i ≠ newfdnum → (HasData P t' i ↔ HasData P t i)

theorem not_isEnd (hnew : t (index2fd newfdnum) = none) : ¬ IsEnd P t newfdnum := by
  unfold IsEnd Table.page
  simp [hnew]

section Dup

variable (hb : Balanced P t)
include hb

/-- The old descriptor has no data page. -/
theorem Halfway.skip (hnew : t (index2fd newfdnum) = none) (h : t (index2data oldfdnum) = none) :
    Halfway P oldfdnum newfdnum t t := by
  refine ⟨hb.toPlaced, fun _ => rfl, iff_of_false (fun h1 => ?_) fun h1 => ?_, fun _ _ => Iff.rfl⟩
  · exact not_isEnd hnew ((hb.iff _).2 h1)
  · unfold HasData at h1
    rw [Table.page_none.2 h] at h1
    cases h1

/-- The data page is mapped. -/
theorem Halfway.map (hP : 0 ∉ P.pages) : Halfway P oldfdnum newfdnum t
    (t.set (index2data newfdnum) (mapped t (index2data oldfdnum) perm)) := by
  refine ⟨⟨fun i => ?_, fun i => ?_⟩, fun i => ?_, ?_, fun i hi => ?_⟩
  · rw [Table.page_set, if_neg index_ne]
    exact hb.fd i
  · rw [Table.page_set]
    split
    · rw [ne_eq, ne_eq, mapped_page hP (Or.inl rfl), mapped_page hP (Or.inr (Or.inl rfl))]
      exact hb.data oldfdnum
    · exact hb.data i
  · exact Function.update_of_ne index_ne _ _
  · unfold HasData
    rw [Table.page_set, if_pos rfl, mapped_page hP (Or.inr (Or.inr rfl))]
  · unfold HasData
    rw [Table.page_set, if_neg (mt index2data_inj.1 hi)]

end Dup

section Halfway

variable (hP : 0 ∉ P.pages) (hb : Balanced P t) (hnew : t (index2fd newfdnum) = none)
  (h : Halfway P oldfdnum newfdnum t t')
include hP hb hnew h

omit hP hb hnew in
theorem Halfway.isEnd : IsEnd P t' i ↔ IsEnd P t i := by
  unfold IsEnd Table.page
  rw [h.ends]

omit hP in
theorem Halfway.covered : Covered P t' := by
  refine ⟨h.toPlaced, fun i hi => ?_⟩
  have h1 := h.isEnd.1 hi
  by_cases hin : i = newfdnum
  · subst hin
    exact absurd h1 (not_isEnd hnew)
  · exact (h.rest i hin).2 ((hb.iff i).1 h1)

omit hP hnew in
/-- The error path of `dup`. -/
theorem Halfway.undo : Balanced P ((t'.set (index2fd newfdnum) none).set (index2data newfdnum) none) := by
  refine ⟨⟨fun i => ?_, fun i => ?_⟩, fun i => ?_⟩
  · rw [Table.page_set, if_neg index_ne, Table.page_set]
    split
    · simp
    · exact h.toPlaced.fd i
  · rw [Table.page_set]
    split
    · simp
    · rw [Table.page_set, if_neg index_ne.symm]
      exact h.data i
  · unfold IsEnd HasData
    simp only [Table.page_set, index2fd_inj, index2data_inj, index_ne, index_ne.symm, if_false]
    by_cases hi : i = newfdnum
    · simp [hi]
    · simp only [if_neg hi]
      exact h.isEnd.trans ((hb.iff i).trans (h.rest i hi).symm)

omit hnew in
/-- The second call of `dup`. -/
theorem Halfway.done : Balanced P (t'.set (index2fd newfdnum) (mapped t' (index2fd oldfdnum) perm)) := by
  refine ⟨⟨fun i => ?_, fun i => ?_⟩, fun i => ?_⟩
  · rw [Table.page_set]
    split
    · rw [ne_eq, mapped_page hP (Or.inr (Or.inr rfl))]
      exact h.toPlaced.fd oldfdnum
    · exact h.toPlaced.fd i
  · rw [Table.page_set, if_neg index_ne.symm]
    exact h.data i
  · unfold IsEnd HasData
    simp only [Table.page_set, index2fd_inj, index_ne.symm, if_false]
    by_cases hi : i = newfdnum
    · subst hi
      simp only [if_true]
      rw [mapped_page hP (Or.inl rfl), mapped_page hP (Or.inr (Or.inl rfl))]
      exact h.isEnd.trans ((hb.iff oldfdnum).trans h.new.symm)
    · simp only [if_neg hi]
      exact h.isEnd.trans ((hb.iff i).trans (h.rest i hi).symm)

end Halfway

theorem dupErr_wp {l : Local} {r : ℤ} (hk : ∀ env, l.kids env = none) (h : Covered P l.own)
    (h1 : Covered P (l.own.set (index2fd newfdnum) none))
    (h2 : Balanced P ((l.own.set (index2fd newfdnum) none).set (index2data newfdnum) none)) :
    Wp P (dupErr newfdnum r) (fun _ => LocalEnd P) l := by
  refine sysPageUnmap_wp hk h ?_
  refine sysPageUnmap_wp (l := { l with own := l.own.set (index2fd newfdnum) none }) hk h1 ?_
  exact ⟨h2, hk⟩

/-- The second half of `dup`. -/
theorem dup_second_wp (hP : 0 ∉ P.pages) {l : Local} (hb : Balanced P t)
    (hnew : t (index2fd newfdnum) = none) (h : Halfway P oldfdnum newfdnum t l.own)
    (hk : ∀ env, l.kids env = none) :
    Wp P (do
      let t ← uvpt
      let r ← sysPageMap (index2fd oldfdnum) none (index2fd newfdnum) (syscallPerm t (index2fd oldfdnum))
      if r < 0 then dupErr newfdnum r else return newfdnum) (fun _ => LocalEnd P) l := by
  refine uvpt_wp hk (h.covered hb hnew) (sysPageMap_wp hk (h.covered hb hnew) (fun r hr => ?_) ?_)
  · rw [if_pos hr]
    have h1 : SameEnds P l.own (l.own.set (index2fd newfdnum) none) := .set fun p _ =>
      ⟨by rw [Table.page_none.2 ((h.ends _).trans hnew)]; nofun, by simp⟩
    exact dupErr_wp hk (h.covered hb hnew) (h1.covered (h.covered hb hnew)) (h.undo hb)
  · rw [if_neg (by decide)]
    exact ⟨h.done hP hb, hk⟩

/-- **`dup`** maps the data page first. -/
theorem dup_wp (hP : 0 ∉ P.pages) {l : Local} (hb : Balanced P l.own) (hk : ∀ env, l.kids env = none) :
    Wp P (dup P oldfdnum newfdnum) (fun _ => LocalEnd P) l := by
  unfold dup
  refine uvpt_wp hk hb.covered ?_
  rcases hold : l.own (index2fd oldfdnum) with _ | pte
  · exact ⟨hb, hk⟩
  dsimp only
  refine wp_bind (close_wp hb hk fun r t hc => ?_)
  refine uvpt_wp (l := { l with own := t }) hk hc.balanced.covered ?_
  dsimp only
  by_cases hd : (t (index2data oldfdnum)).isSome = true
  · rw [if_pos hd]
    refine sysPageMap_wp (l := { l with own := t }) hk hc.balanced.covered (fun r hr => ?_) ?_
    · rw [if_pos hr]
      exact dupErr_wp (l := { l with own := t }) hk hc.balanced.covered hc.balanced.unmap_fd hc.balanced.unmap_both
    · rw [if_neg (by decide)]
      exact dup_second_wp hP hc.balanced hc.closed (.map hc.balanced hP) hk
  · rw [if_neg hd]
    exact dup_second_wp hP hc.balanced hc.closed (.skip hc.balanced hc.closed (by simpa using hd)) hk

/-! ## Making a child -/

theorem flag_and_not {z b : BitVec 32} : flag (z &&& ~~~b) b = false := by
  have h : z &&& ~~~b &&& b = 0 := by
    ext i hi
    simp
  unfold flag
  rw [h]
  rfl

theorem flag_of_and {x m b : BitVec 32} (h : flag (x &&& m) b = true) : flag x b = true := by
  unfold flag at *
  rw [bne_iff_ne] at *
  intro h1
  refine h ?_
  rw [BitVec.and_assoc, BitVec.and_comm m, ← BitVec.and_assoc, h1]
  exact BitVec.zero_and

/-- The flags with which `duppage` maps a page pass the checks of `sys_page_map`. -/
theorem permFits_syscall : PermFits t va (syscallPerm t va) := by
  unfold PermFits syscallPerm
  rcases t va with _ | pte
  · exact ⟨by decide, by decide⟩
  · refine ⟨?_, flag_of_and⟩
    ext i hi
    simp only [BitVec.getElem_or, BitVec.getElem_and]
    cases pte.perm[i] <;> simp

theorem permFits_cow (h : PermFits t va perm) : PermFits t va ((perm ||| pteCow) &&& ~~~pteW) := by
  refine ⟨?_, fun h1 => ?_⟩
  · have hc : pteCow ||| pteSyscall = (pteSyscall : BitVec 32) := by decide
    have h1 := h.1
    ext i hi
    have h2 := congrArg (fun x : BitVec 32 => x[i]) hc
    have h3 := congrArg (fun x : BitVec 32 => x[i]) h1
    simp only [BitVec.getElem_or, BitVec.getElem_and] at h2 h3 ⊢
    revert h2 h3
    cases perm[i] <;> cases (pteCow)[i] <;> simp <;> exact fun h _ => h
  · rw [flag_and_not] at h1
    cases h1

/-- **In the loop of `fork`**, with the pages `xs` still to come: the others that belong to the
pipe are in the table of the child. The data pages come first. -/
structure Copying (P : Pipe) (xs : List Va) (t t' : Table) : Prop where
  sorted : xs.Pairwise (· > ·)
  lower : ∀ va ∈ xs, ∀ va' ≤ va, va' ∈ xs
  left : ∀ va ∈ xs, t' va = none
  done : ∀ va, va ∉ xs → ∀ p ∈ P.pages, t'.page va = some p ↔ t.page va = some p

namespace Copying

variable {xs : List Va} {t₁ : Table}

theorem same (h : Copying P xs t t') (hs : SameEnds P t t₁) : Copying P xs t₁ t' :=
  ⟨h.sorted, h.lower, h.left, fun va hva p hp => (h.done va hva p hp).trans (hs.page va p hp).symm⟩

theorem placed (h : Copying P xs t t') (hp : Placed P t) : Placed P t' := by
  have key : ∀ va, ∀ p ∈ P.pages, t'.page va = some p → t.page va = some p := by
    intro va p hp h1
    refine (h.done va (fun h2 => ?_) p hp).1 h1
    rw [Table.page_none.2 (h.left va h2)] at h1
    cases h1
  exact ⟨fun i => mt (key _ _ (Or.inr (Or.inr rfl))) (hp.fd i), fun i =>
    (hp.data i).imp (mt (key _ _ (Or.inl rfl))) (mt (key _ _ (Or.inr (Or.inl rfl))))⟩

/-- An end is copied after its data page. -/
theorem covered (h : Copying P xs t t') (hb : Balanced P t) : Covered P t' := by
  refine ⟨h.placed hb.toPlaced, fun i hi => ?_⟩
  have hin : index2fd i ∉ xs := fun hin => by
    unfold IsEnd at hi
    rw [Table.page_none.2 (h.left _ hin)] at hi
    simp at hi
  have hdata : index2data i ∉ xs := fun h1 => hin (h.lower _ h1 _ (by simp [index2fd, index2data]))
  have h1 : IsEnd P t i := hi.imp (h.done _ hin _ (Or.inl rfl)).1 (h.done _ hin _ (Or.inr (Or.inl rfl))).1
  exact (h.done _ hdata _ (Or.inr (Or.inr rfl))).2 ((hb.iff i).1 h1)

theorem balanced (h : Copying P [] t t') (hb : Balanced P t) : Balanced P t' :=
  SameEnds.balanced ⟨fun va p hp => h.done va (List.not_mem_nil) p hp⟩ hb

theorem start : Copying P (List.finRange 64).reverse t fun _ => none := by
  refine ⟨?_, fun _ _ va _ => by simp, fun _ _ => rfl, fun va hva => absurd (by simp) hva⟩
  rw [List.pairwise_reverse]
  exact List.pairwise_lt_finRange 64

/-- The next page is in the table of the child, unless it is no page of the pipe. -/
theorem next (h : Copying P (va :: xs) t t') {pte : Option Pte}
    (hp : ∀ p ∈ P.pages, pte.map (·.page) = some p ↔ t.page va = some p) :
    Copying P xs t (t'.set va pte) := by
  have h1 := List.pairwise_cons.1 h.sorted
  refine ⟨h1.2, fun x hx y hy => ?_, fun x hx => ?_, fun x hx p hpp => ?_⟩
  · have h2 := h.lower x (List.mem_cons_of_mem _ hx) y hy
    rcases List.mem_cons.1 h2 with rfl | h2
    · exact absurd (h1.1 x hx) (not_lt.2 hy)
    · exact h2
  · have h2 : x ≠ va := (h1.1 x hx).ne
    unfold Table.set
    rw [Function.update_of_ne h2]
    exact h.left x (List.mem_cons_of_mem _ hx)
  · rw [Table.page_set]
    split
    · rename_i h2
      rw [h2]
      exact hp p hpp
    · rename_i h2
      refine h.done x (fun h3 => ?_) p hpp
      rcases List.mem_cons.1 h3 with h3 | h3
      · exact h2 h3
      · exact hx h3

/-- The next page stays out. -/
theorem skip (h : Copying P (va :: xs) t t') (hp : ∀ p ∈ P.pages, t.page va ≠ some p) : Copying P xs t t' := by
  have h1 : t' va = none := h.left va List.mem_cons_self
  have h2 : t'.set va none = t' := by
    unfold Table.set
    rw [← h1, Function.update_eq_self]
  rw [← h2]
  exact h.next fun p hpp => iff_of_false (by simp) (hp p hpp)

end Copying

/-- A process in the loop of its `fork`. -/
def Forking (P : Pipe) (c : EnvIdx) (xs : List Va) (l : Local) : Prop :=
  Balanced P l.own ∧ ∃ t, l.kids = Function.update (fun _ => none) c (some t) ∧ Copying P xs l.own t

section Forking

variable {α : Type} {l : Local} {Q : α → Local → Prop} {xs : List Va} (h : Forking P c xs l)
include h

/-- While the child is made, both tables are covered. -/
theorem Forking.inv {s : Sys} (hs : ∀ env, s = .setRunnable env → xs = []) (hd : s ≠ .envDestroy) :
    LocalInv P s l := by
  obtain ⟨hb, t, hk, hc⟩ := h
  have hkid : ∀ env t', l.kids env = some t' → t' = t := by
    intro env t' h1
    rw [hk, Function.update_apply] at h1
    split at h1
    · exact (Option.some.inj h1).symm
    · cases h1
  refine ⟨hb.covered, fun env t' h1 => ?_, fun env t' h1 h2 => ?_, fun h1 => absurd h1 hd⟩
  · rw [hkid env t' h1]
    exact hc.covered hb
  · obtain rfl := hs env h1
    rw [hkid env t' h2]
    exact hc.balanced hb

theorem Forking.uvpt {f : Table → User α} (hQ : Wp P (f l.own) Q l) : Wp P (uvpt >>= f) Q l := by
  refine ⟨h.inv nofun nofun, fun r l' hx => ?_⟩
  obtain ⟨rfl, rfl⟩ := hx
  exact hQ

/-- A page that is mapped again in the own table. -/
theorem Forking.remap {f : ℤ → User α} (hva : (l.own va).isSome = true)
    (hQ : ∀ r l', Forking P c xs l' → Wp P (f r) Q l') : Wp P (sysPageMap va none va perm >>= f) Q l := by
  refine ⟨h.inv nofun nofun, fun r l' hx => ?_⟩
  obtain ⟨hb, t, hk, hc⟩ := h
  rcases hx with ⟨-, rfl⟩ | ⟨rfl, rfl⟩
  · exact hQ _ _ ⟨hb, t, hk, hc⟩
  · have hs : SameEnds P l.own (l.own.set va (mapped l.own va perm)) := by
      obtain ⟨pte, hpte⟩ := Option.isSome_iff_exists.1 hva
      refine .remap ?_
      simp [mapped, Table.page, hpte]
    exact hQ _ _ ⟨hs.balanced hb, t, hk, hc.same hs⟩

end Forking

/-- The page `va` is mapped into the child, or it is no page of the pipe. -/
theorem Forking.map {α : Type} {l : Local} {Q : α → Local → Prop} {xs : List Va} {f : ℤ → User α}
    (h : Forking P c (va :: xs) l) (hP : 0 ∉ P.pages) (hva : (l.own va).isSome = true)
    (hperm : PermFits l.own va perm)
    (hQ : ∀ r l', l'.own = l.own → Forking P c xs l' → Wp P (f r) Q l') :
    Wp P (sysPageMap va (some c) va perm >>= f) Q l := by
  refine ⟨h.inv nofun nofun, fun r l' hx => ?_⟩
  obtain ⟨hb, t, hk, hc⟩ := h
  have hkc : l.kids c = some t := by rw [hk, Function.update_self]
  rcases hx with ⟨-, rfl, hno⟩ | ⟨t', h1, rfl, rfl⟩
  · exact hQ _ _ rfl ⟨hb, t, hk, hc.skip fun p hp h1 => hno t p hkc hperm h1 hp⟩
  · obtain rfl : t = t' := Option.some.inj (hkc.symm.trans h1)
    refine hQ _ _ rfl ⟨hb, t.set va (mapped l.own va perm), ?_, hc.next fun p hp => mapped_page hP hp⟩
    rw [hk]
    exact Function.update_idem ..

/-- **`duppage`** copies a page. -/
theorem duppage_wp (hP : 0 ∉ P.pages) {l : Local} {xs : List Va} (h : Forking P c (va :: xs) l)
    (hva : (l.own va).isSome = true) : Wp P (duppage c va) (fun _ => Forking P c xs) l := by
  have hperm : PermFits l.own va (syscallPerm l.own va) := permFits_syscall
  refine h.uvpt ?_
  dsimp only
  split
  · exact h.map hP hva hperm fun _ _ _ h1 => h1
  · split
    · refine h.map hP hva (permFits_cow hperm) fun r l' hl h1 => ?_
      exact h1.remap (by rw [hl]; exact hva) fun _ _ h2 => h2
    · exact h.map hP hva hperm fun _ _ _ h1 => h1

theorem forkPages_wp (hP : 0 ∉ P.pages) {l : Local} (h : Forking P c (List.finRange 64).reverse l) :
    Wp P (forkPages c) (fun _ => Forking P c []) l := by
  refine wp_forM (I := Forking P c) (fun va xs l h => h.uvpt ?_) h
  split
  · rename_i hva
    exact duppage_wp hP h hva
  · rename_i hva
    obtain ⟨hb, t, hk, hc⟩ := h
    refine ⟨hb, t, hk, hc.skip fun p _ h1 => ?_⟩
    rw [Table.page_none.2 (by simpa using hva)] at h1
    cases h1

/-- **`fork`** gives the child the open ends with their data pages. -/
theorem fork_wp (hP : 0 ∉ P.pages) {l : Local} (hb : Balanced P l.own) (hk : ∀ env, l.kids env = none) :
    Wp P fork (fun _ => LocalEnd P) l := by
  refine ⟨localInv_alone hk hb.covered, fun r l' hx => ?_⟩
  rcases hx with ⟨rfl, rfl⟩ | ⟨env, rfl, rfl⟩
  · exact ⟨hb, hk⟩
  · have h : Forking P env (List.finRange 64).reverse
        { l with kids := Function.update l.kids env (some fun _ => none) } :=
      ⟨hb, _, congrArg (fun g => Function.update g env _) (funext hk), .start⟩
    show Wp P (do forkPages env; sysEnvSetRunnable env) _ _
    refine wp_bind (wp_mono (forkPages_wp hP h) fun _ l h => ?_)
    refine ⟨h.inv (fun _ _ => rfl) nofun, fun r l' hx => ?_⟩
    obtain rfl := hx
    obtain ⟨hb, t, hk, -⟩ := h
    refine ⟨hb, fun env' => ?_⟩
    rw [hk]
    simp [Function.update_apply]

/-- **Every operation** keeps the tables covered, and leaves the own one balanced. -/
theorem prog_wp (hP : 0 ∉ P.pages) {l : Local} (op : Op) (h : LocalEnd P l) :
    Wp P (op.prog P) (fun _ => LocalEnd P) l := by
  obtain ⟨hb, hk⟩ := h
  cases op with
  | dup oldfdnum newfdnum => exact wp_bind (dup_wp hP hb hk)
  | close fdnum => exact wp_bind (close_wp hb hk fun r t hc => ⟨hc.balanced, hk⟩)
  | fork => exact fork_wp hP hb hk
  | exit => exact exit_wp hb hk

end Jos.Fd
