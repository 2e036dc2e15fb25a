import Jos.Proof.Pages
import Jos.Spec.CheckFree

/-!
# Reordering the free list

`check_page_free_list` takes the pages of the list apart by `PDX`, in place. `Reorder.Built` is what its loop keeps:
from `pp1` and from `pp2` the pages of each kind follow in the order of the list, and `tp` points to the last link
field of each. `reorder_spec`: so the list has the same pages, first those with a low `PDX` and then the others.

`PDX` is a field of the address: it is 0 again from 1 GB on. With that much memory, the pages there come before those
from 2 MB on (`reorder_low_first`).
-/

namespace Jos

open Lib

variable {m m' : Pmap} {l xs ys : List ℕ} {limit n p : ℕ} {s : Reorder} {c : LinkPtr} {v pp1 pp2 : Option ℕ} {t : Bool}

namespace Reorder

/-! ## The link fields -/

/-- `*c`. -/
def get (s : Reorder) : LinkPtr → Option ℕ
  | .pp1 => s.pp1
  | .pp2 => s.pp2
  | .link pp => s.pm.link pp

theorem store_get (s : Reorder) (c : LinkPtr) (v : Option ℕ) : (s.store c v).get = Function.update s.get c v := by
  funext d
  cases c with
  | pp1 => cases d <;> rfl
  | pp2 => cases d <;> rfl
  | link p =>
    cases d with
    | pp1 => rfl
    | pp2 => rfl
    | link q =>
      change ((s.pm.setLink p v).pages q).ppLink = _
      rw [Pmap.setLink_link]
      by_cases hq : q = p
      · rw [if_pos hq, hq, Function.update_self]
      · rw [if_neg hq, Function.update_of_ne (by rwa [Ne, LinkPtr.link.injEq])]
        rfl

theorem store_tp (s : Reorder) (c : LinkPtr) (v : Option ℕ) : (s.store c v).tp = s.tp := by
  cases c <;> rfl

/-- All but the links and the head. -/
structure SameRest (m m' : Pmap) : Prop where
  npages : m'.npages = m.npages
  ref : ∀ p, (m'.pages p).ppRef = (m.pages p).ppRef
  mem : m'.mem = m.mem
  boot : m'.bootPml4e = m.bootPml4e

theorem store_rest (s : Reorder) (c : LinkPtr) (v : Option ℕ) : SameRest s.pm (s.store c v).pm := by
  cases c with
  | pp1 => exact ⟨rfl, fun _ => rfl, rfl, rfl⟩
  | pp2 => exact ⟨rfl, fun _ => rfl, rfl, rfl⟩
  | link p =>
    refine ⟨rfl, fun q => ?_, rfl, rfl⟩
    unfold store Pmap.setLink
    dsimp only
    split
    · rfl
    · rfl

theorem SameRest.trans {m₁ : Pmap} (h : SameRest m m₁) (h' : SameRest m₁ m') : SameRest m m' :=
  ⟨h'.npages.trans h.npages, fun p => (h'.ref p).trans (h.ref p), h'.mem.trans h.mem, h'.boot.trans h.boot⟩

/-! ## The loop -/

/-- `&pp1` and `&pp2`. -/
def start (t : Bool) : LinkPtr := if t then .pp2 else .pp1

/-- The pages of one kind. -/
def kind (limit : ℕ) (t : Bool) (l : List ℕ) : List ℕ := l.filter fun p => pagetype limit p = t

theorem mem_kind : p ∈ kind limit t l ↔ p ∈ l ∧ pagetype limit p = t := by
  unfold kind
  rw [List.mem_filter, decide_eq_true_iff]

/-- **What the loop keeps.** -/
structure Built (m : Pmap) (limit : ℕ) (xs : List ℕ) (s : Reorder) : Prop where
  path : ∀ t, Path LinkPtr.link s.get (start t) (kind limit t xs) (s.tp t)
  rest : ∀ p, p ∉ xs → s.pm.link p = m.link p
  kept : SameRest m s.pm

theorem mem_cells : c ∈ cells LinkPtr.link (start t) (kind limit t xs) ↔
    c = start t ∨ ∃ p ∈ xs, pagetype limit p = t ∧ c = .link p := by
  unfold cells
  rw [List.mem_cons, List.mem_map]
  constructor
  · rintro (h | ⟨p, hp, rfl⟩)
    · exact Or.inl h
    · exact Or.inr ⟨p, (mem_kind.1 hp).1, (mem_kind.1 hp).2, rfl⟩
  · rintro (h | ⟨p, h1, h2, rfl⟩)
    · exact Or.inl h
    · exact Or.inr ⟨p, mem_kind.2 ⟨h1, h2⟩, rfl⟩

theorem cells_nodup (hnd : xs.Nodup) (t : Bool) : (cells LinkPtr.link (start t) (kind limit t xs)).Nodup := by
  unfold cells
  refine List.nodup_cons.2 ⟨fun h => ?_, (hnd.filter _).map fun p q h => LinkPtr.link.inj h⟩
  obtain ⟨p, -, hp⟩ := List.mem_map.1 h
  cases t
  · exact LinkPtr.noConfusion hp
  · exact LinkPtr.noConfusion hp

/-- The two lists have no cell in common. -/
theorem cells_disjoint (h : c ∈ cells LinkPtr.link (start t) (kind limit t xs)) {u : Bool} (hu : u ≠ t) :
    c ∉ cells LinkPtr.link (start u) (kind limit u xs) := by
  intro h'
  rcases mem_cells.1 h with rfl | ⟨p, -, hp, rfl⟩
  · rcases mem_cells.1 h' with heq | ⟨q, -, -, heq⟩
    · cases t <;> cases u <;> first | exact hu rfl | exact LinkPtr.noConfusion heq
    · cases t <;> exact LinkPtr.noConfusion heq
  · rcases mem_cells.1 h' with heq | ⟨q, -, hq, heq⟩
    · cases u <;> exact LinkPtr.noConfusion heq
    · rw [LinkPtr.link.inj heq] at hp
      exact hu (hq.symm.trans hp)

/-- **One turn.** -/
theorem turn_built (h : Built m limit xs s) (hnd : xs.Nodup) {a : ℕ} (ha : a ∉ xs) :
    ∃ s', turn limit s a = some s' ∧ Built m limit (xs ++ [a]) s' ∧ s'.pm.link a = m.link a := by
  obtain ⟨t, ht⟩ : ∃ t, t = pagetype limit a := ⟨_, rfl⟩
  have hend := (h.path t).end_mem
  have hne : ∀ p, p ∉ xs → LinkPtr.link p ≠ s.tp t := by
    intro p hp heq
    rw [← heq] at hend
    rcases mem_cells.1 hend with h1 | ⟨q, hq, -, h1⟩
    · cases t <;> exact LinkPtr.noConfusion h1
    · exact hp (LinkPtr.link.inj h1 ▸ hq)
  -- the links of the pages to come are as before
  have hlink : ∀ p, p ∉ xs → (s.store (s.tp t) (some a)).pm.link p = m.link p := by
    intro p hp
    have hget : (s.store (s.tp t) (some a)).get (.link p) = s.get (.link p) := by
      rw [store_get, Function.update_of_ne (hne p hp)]
    exact hget.trans (h.rest p hp)
  refine ⟨_, rfl, ⟨fun u => ?_, fun p hp => ?_, h.kept.trans (store_rest ..)⟩, ?_⟩
  · rw [← ht]
    change Path LinkPtr.link (s.store (s.tp t) (some a)).get (start u) (kind limit u (xs ++ [a]))
      (Function.update (s.store (s.tp t) (some a)).tp t (.link a) u)
    rw [store_get, store_tp]
    by_cases hu : u = t
    · have hkind : kind limit u (xs ++ [a]) = kind limit u xs ++ [a] := by
        unfold kind
        rw [List.filter_append, List.filter_cons_of_pos (by rw [hu, ht]; exact decide_eq_true rfl), List.filter_nil]
      rw [hkind, hu, Function.update_self]
      exact ((h.path t).set_end (cells_nodup hnd t)).snoc (Function.update_self ..)
    · have hkind : kind limit u (xs ++ [a]) = kind limit u xs := by
        unfold kind
        rw [List.filter_append, List.filter_cons_of_neg (by rw [decide_eq_true_iff, ← ht]; exact Ne.symm hu), List.filter_nil,
          List.append_nil]
      rw [hkind, Function.update_of_ne hu]
      exact (h.path u).set_other (cells_disjoint hend hu)
  · rw [← ht]
    exact hlink p fun h1 => hp (List.mem_append_left _ h1)
  · rw [← ht]
    exact hlink a ha

/-- The two stores behind the loop close the lists. -/
theorem Built.close (h : Built m limit l s) (hnd : l.Nodup) {s₁ s₂ : Reorder} (h1 : s₁ = s.store (s.tp true) none)
    (h2 : s₂ = s₁.store (s₁.tp false) s₁.pp2) : Chain s₂.pm.link s₂.pp1 (kind limit false l ++ kind limit true l) ∧
      SameRest m s₂.pm ∧ ∀ p, p ∉ l → s₂.pm.link p = m.link p := by
  have hlow := (h.path false).end_mem
  have hhigh := (h.path true).end_mem
  have hget₁ : s₁.get = Function.update s.get (s.tp true) none := by rw [h1, store_get]
  have hget₂ : s₂.get = Function.update s₁.get (s.tp false) s₁.pp2 := by rw [h2, store_get, h1, store_tp]
  -- each of the two stores ends one list, and is none of the cells of the other
  have hpath : ∀ t, Path LinkPtr.link s₂.get (start t) (kind limit t l) (s.tp t) := by
    intro t
    rw [hget₂, hget₁]
    cases t with
    | false =>
      exact ((h.path false).set_other (cells_disjoint hhigh Bool.false_ne_true)).set_end (cells_nodup hnd false)
    | true =>
      exact ((h.path true).set_end (cells_nodup hnd true)).set_other (cells_disjoint hlow (Ne.symm Bool.false_ne_true))
  have hends : s.tp true ≠ s.tp false := by
    intro heq
    rw [heq] at hhigh
    exact cells_disjoint hlow (Ne.symm Bool.false_ne_true) hhigh
  have hpp2 : LinkPtr.pp2 ≠ s.tp false := by
    intro heq
    rw [← heq] at hlow
    exact cells_disjoint hlow (Ne.symm Bool.false_ne_true) List.mem_cons_self
  have hlast : s₂.get (s.tp true) = none := by rw [hget₂, Function.update_of_ne hends, hget₁, Function.update_self]
  -- the list of the low pages goes on with that of the others
  have hjoin : s₂.get (s.tp false) = s₂.get .pp2 := by
    rw [hget₂, Function.update_self, Function.update_of_ne hpp2]
    rfl
  have hkept : SameRest m s₂.pm := by
    rw [h2]
    refine SameRest.trans ?_ (store_rest ..)
    rw [h1]
    exact h.kept.trans (store_rest ..)
  refine ⟨?_, hkept, fun p hp => ?_⟩
  · have hhighs : Chain (fun a => s₂.get (.link a)) (s₂.get .pp2) (kind limit true l ++ []) := by
      refine (hpath true).chain ?_
      rw [hlast]
      exact .nil
    rw [List.append_nil, ← hjoin] at hhighs
    exact (hpath false).chain hhighs
  · have hne : ∀ t, LinkPtr.link p ≠ s.tp t := by
      intro t heq
      have hmem := (h.path t).end_mem
      rw [← heq] at hmem
      rcases mem_cells.1 hmem with h3 | ⟨q, hq, -, h3⟩
      · cases t <;> exact LinkPtr.noConfusion h3
      · exact hp (LinkPtr.link.inj h3 ▸ hq)
    have hget : s₂.get (.link p) = s.get (.link p) := by
      rw [hget₂, Function.update_of_ne (hne false), hget₁, Function.update_of_ne (hne true)]
    exact hget.trans (h.rest p hp)

end Reorder

open Reorder in
/-- **The list is taken apart by `PDX`**, and nothing else is changed. -/
theorem reorder_spec (limit : ℕ) (pp1 pp2 : Option ℕ) (hc : Chain m.link m.pageFreeList l) (hn : l.length ≤ n) :
    ∃ m', reorder n limit pp1 pp2 m = some m' ∧
      Chain m'.link m'.pageFreeList (kind limit false l ++ kind limit true l) ∧ SameRest m m' ∧
        ∀ p, p ∉ l → m'.link p = m.link p := by
  have hnd := hc.nodup
  have hstart : Built m limit [] ⟨m, pp1, pp2, fun t => if t then .pp2 else .pp1⟩ :=
    ⟨fun t => .nil, fun p _ => rfl, ⟨rfl, fun _ => rfl, rfl, rfl⟩⟩
  obtain ⟨s, h1, h2⟩ := hc.walk (fun s pp => (s.pm.pages pp).ppLink) (turn limit) (d := []) hn
    (fun ys a zs s heq hb => by
      rw [List.nil_append] at heq
      rw [heq] at hnd
      obtain ⟨h3, h4, h5⟩ := List.nodup_append.1 hnd
      exact turn_built hb h3 fun h6 => h5 a h6 a List.mem_cons_self rfl) hstart
  rw [List.nil_append] at h2
  obtain ⟨s₁, hs₁⟩ : ∃ s₁, s₁ = s.store (s.tp true) none := ⟨_, rfl⟩
  obtain ⟨s₂, hs₂⟩ : ∃ s₂, s₂ = s₁.store (s₁.tp false) s₁.pp2 := ⟨_, rfl⟩
  obtain ⟨h3, h4, h5⟩ := h2.close hnd hs₁ hs₂
  refine ⟨s₂.pm.setHead s₂.pp1, ?_, h3, ⟨h4.npages, h4.ref, h4.mem, h4.boot⟩, h5⟩
  unfold reorder
  rw [h1]
  dsimp only [Option.bind_eq_bind, Option.bind_some]
  rw [← hs₁, ← hs₂]

/-! ## The checks -/

/-- The list, its pages and their number are the same. -/
structure SameList (m m' : Pmap) : Prop where
  pages : m'.pages = m.pages
  head : m'.pageFreeList = m.pageFreeList
  npages : m'.npages = m.npages

theorem kaddr_isSome {m : Pmap} {p : ℕ} (hp : p < m.npages) : (kaddr m (page2pa p)).isSome := by
  have hppn : ppn (page2pa p) ≤ p := by
    unfold ppn page2pa
    rw [BitVec.toNat_ushiftRight, BitVec.toNat_shiftLeft, BitVec.toNat_ofNat, Nat.shiftRight_eq_div_pow, Nat.shiftLeft_eq]
    omega
  have hmod : ppn (page2pa p) % 2 ^ 32 ≤ ppn (page2pa p) := Nat.mod_le _ _
  unfold kaddr
  rw [if_neg (by omega)]
  rfl

theorem fillPage_same {a : ℕ} (h : fillPage limit m a = some m') : SameList m m' := by
  unfold fillPage at h
  split at h
  · obtain ⟨q, -, rfl⟩ := Option.map_eq_some_iff.1 h
    exact ⟨rfl, rfl, rfl⟩
  · rw [← Option.some.inj h]
    exact ⟨rfl, rfl, rfl⟩

/-- The loop over the low pages returns if all pages are in the array, and leaves the list. -/
theorem fill_spec (limit : ℕ) (hl : ∀ p ∈ l, p < m.npages) : ∃ m', l.foldlM (fillPage limit) m = some m' ∧ SameList m m' := by
  induction l generalizing m with
  | nil => exact ⟨m, rfl, rfl, rfl, rfl⟩
  | cons a l ih =>
    have ha := kaddr_isSome (hl a List.mem_cons_self)
    obtain ⟨m₁, h1⟩ : ∃ m₁, fillPage limit m a = some m₁ := by
      unfold fillPage
      split
      · obtain ⟨q, hq⟩ := Option.isSome_iff_exists.1 ha
        rw [hq]
        exact ⟨_, rfl⟩
      · exact ⟨m, rfl⟩
    have hsame := fillPage_same h1
    obtain ⟨m', h2, h3⟩ := ih fun p hp => by
      rw [hsame.npages]
      exact hl p (List.mem_cons_of_mem _ hp)
    refine ⟨m', ?_, h3.pages.trans hsame.pages, h3.head.trans hsame.head, h3.npages.trans hsame.npages⟩
    rw [List.foldlM_cons, h1]
    exact h2

theorem fill_same (h : l.foldlM (fillPage limit) m = some m') : SameList m m' := by
  induction l generalizing m with
  | nil =>
    rw [← Option.some.inj h]
    exact ⟨rfl, rfl, rfl⟩
  | cons a l ih =>
    rw [List.foldlM_cons] at h
    obtain ⟨m₁, h1, h2⟩ := Option.bind_eq_some_iff.1 h
    have h3 := fillPage_same h1
    have h4 := ih h2
    exact ⟨h4.pages.trans h3.pages, h4.head.trans h3.head, h4.npages.trans h3.npages⟩

/-- The page is counted in `nfree_extmem`. -/
def IsExt (p : ℕ) : Prop := ¬ (page2pa p).toNat < extphysmem

instance (p : ℕ) : Decidable (IsExt p) := by
  unfold IsExt
  infer_instance

/-- **The assertions** hold on each page if the loop ends. -/
theorem check_asserts {top : VA} {st st' : Pmap × ℕ × ℕ} (h : l.foldlM (checkPage top) st = some st') :
    st'.1 = st.1 ∧ ∀ p ∈ l, assertPage st.1 top p = true := by
  induction l generalizing st with
  | nil =>
    rw [← Option.some.inj h]
    exact ⟨rfl, nofun⟩
  | cons a l ih =>
    rw [List.foldlM_cons] at h
    obtain ⟨st₁, h1, h2⟩ := Option.bind_eq_some_iff.1 h
    obtain ⟨ha, hst₁⟩ : assertPage st.1 top a = true ∧ st₁.1 = st.1 := by
      unfold checkPage at h1
      split at h1
      · rename_i ha
        split at h1
        · exact ⟨ha, by rw [← Option.some.inj h1]⟩
        · exact ⟨ha, by rw [← Option.some.inj h1]⟩
      · exact absurd h1.symm (Option.some_ne_none _)
    obtain ⟨h3, h4⟩ := ih h2
    rw [hst₁] at h3 h4
    exact ⟨h3, List.forall_mem_cons.2 ⟨ha, h4⟩⟩

/-- It ends if they do, and has counted the pages. -/
theorem check_counts (top : VA) (hl : ∀ p ∈ l, assertPage m top p = true) (base ext : ℕ) :
    ∃ base', l.foldlM (checkPage top) (m, base, ext) = some (m, base', ext + l.countP (IsExt ·)) := by
  induction l generalizing base ext with
  | nil => exact ⟨base, rfl⟩
  | cons a l ih =>
    have ih := ih fun p hp => hl p (List.mem_cons_of_mem _ hp)
    rw [List.foldlM_cons, List.countP_cons]
    unfold checkPage
    dsimp only
    rw [if_pos (hl a List.mem_cons_self)]
    by_cases hext : (page2pa a).toNat < extphysmem
    · have hnot : ¬ decide (IsExt a) = true := by
        rw [decide_eq_true_iff]
        exact not_not.2 hext
      rw [if_pos hext, if_neg hnot]
      exact ih (base + 1) ext
    · have hyes : decide (IsExt a) = true := decide_eq_true hext
      rw [if_neg hext, if_pos hyes, Nat.add_comm (l.countP _), ← Nat.add_assoc]
      exact ih base (ext + 1)

/-- What the checks ask of a list. -/
structure ListPasses (m : Pmap) (top : VA) (l : List ℕ) : Prop where
  ne : l ≠ []
  asserts : ∀ p ∈ l, assertPage m top p = true
  ext : ∃ p ∈ l, IsExt p

/-! ## All of it -/

open Reorder

theorem kind_perm (limit : ℕ) (l : List ℕ) : (kind limit false l ++ kind limit true l).Perm l := by
  have h1 : kind limit true l = l.filter fun p => !decide (pagetype limit p = false) := by
    unfold kind
    refine List.filter_congr fun p _ => ?_
    cases pagetype limit p <;> rfl
  rw [h1]
  exact List.filter_append_perm _ l

theorem assertPage_congr {top : VA} (hn : m'.npages = m.npages) : assertPage m' top p = assertPage m top p := by
  unfold assertPage kaddr
  rw [hn]

theorem assertPage_lt {top : VA} (h : assertPage m top p = true) : p < m.npages := by
  unfold assertPage at h
  simp only [Bool.and_eq_true, decide_eq_true_eq] at h
  exact h.1.1.1.1.1.1

/-- **`check_page_free_list(1)`**: the list is reordered first, and not changed after that. The function returns if the
assertions hold on all pages of the list. -/
theorem checkPageFreeList_spec (pp1 pp2 : Option ℕ) (top : VA) (hc : Chain m.link m.pageFreeList l) (hn : l.length ≤ n) :
    ∃ m₁, reorder n 1 pp1 pp2 m = some m₁ ∧ Chain m₁.link m₁.pageFreeList (kind 1 false l ++ kind 1 true l) ∧ SameRest m m₁ ∧
      (∀ m', checkPageFreeList n pp1 pp2 top true m = some m' → SameList m₁ m') ∧
        ((checkPageFreeList n pp1 pp2 top true m).isSome ↔ ListPasses m top l) := by
  obtain ⟨m₁, h1, h2, h3, -⟩ := reorder_spec 1 pp1 pp2 hc hn
  have hperm := kind_perm 1 l
  obtain ⟨l₁, hl₁⟩ : ∃ l₁, l₁ = kind 1 false l ++ kind 1 true l := ⟨_, rfl⟩
  rw [← hl₁] at h2 hperm ⊢
  have hlen : l₁.length ≤ n := hperm.length_eq ▸ hn
  -- the two loops behind it, over the new list
  have hfill : walk (fun m pp => (m.pages pp).ppLink) (fillPage 1) n m₁.pageFreeList m₁ = l₁.foldlM (fillPage 1) m₁ :=
    h2.walk_eq_foldlM hlen rfl fun s a s' h => by rw [(fillPage_same h).pages]
  have hcheck : ∀ m₂, SameList m₁ m₂ → walk (fun s pp => (s.1.pages pp).ppLink) (checkPage top) n m₂.pageFreeList (m₂, 0, 0) =
      l₁.foldlM (checkPage top) (m₂, 0, 0) := by
    intro m₂ h4
    rw [h4.head]
    refine h2.walk_eq_foldlM hlen (by rw [h4.pages]; rfl) fun s a s' h => ?_
    have h5 := (check_asserts (l := [a]) (by rw [List.foldlM_cons, h]; rfl)).1
    rw [h5]
  have hfun : checkPageFreeList n pp1 pp2 top true m = if m.pageFreeList = none then none else
      (l₁.foldlM (fillPage 1) m₁).bind fun m₂ =>
        (walk (fun s pp => (s.1.pages pp).ppLink) (checkPage top) n m₂.pageFreeList (m₂, 0, 0)).bind fun r =>
          if r.2.2 > 0 then some r.1 else none := by
    rw [← hfill]
    unfold checkPageFreeList
    simp only [if_true, h1]
    rfl
  have hreturn : ∀ m', checkPageFreeList n pp1 pp2 top true m = some m' → SameList m₁ m' ∧ ListPasses m top l := by
    intro m' h4
    rw [hfun] at h4
    by_cases hhead : m.pageFreeList = none
    · rw [if_pos hhead] at h4
      exact absurd h4.symm (Option.some_ne_none _)
    rw [if_neg hhead] at h4
    obtain ⟨m₂, h5, h6⟩ := Option.bind_eq_some_iff.1 h4
    have hsame := fill_same h5
    rw [hcheck m₂ hsame] at h6
    obtain ⟨r, h7, h8⟩ := Option.bind_eq_some_iff.1 h6
    obtain ⟨h9, hasserts⟩ := check_asserts h7
    obtain ⟨base, hcount⟩ := check_counts top hasserts 0 0
    have hr : r = (m₂, base, 0 + l₁.countP (IsExt ·)) := Option.some.inj (h7.symm.trans hcount)
    split at h8
    · rename_i hpos
      rw [← Option.some.inj h8, h9]
      refine ⟨hsame, fun hl => hhead (hc.none_iff.2 hl), fun p hp => ?_, ?_⟩
      · have h10 := hasserts p (hperm.mem_iff.2 hp)
        rwa [assertPage_congr (hsame.npages.trans h3.npages)] at h10
      · rw [hr] at hpos
        dsimp only at hpos
        rw [Nat.zero_add] at hpos
        obtain ⟨p, hp, hext⟩ := List.countP_pos_iff.1 hpos
        exact ⟨p, hperm.mem_iff.1 hp, of_decide_eq_true hext⟩
    · exact absurd h8.symm (Option.some_ne_none _)
  refine ⟨m₁, h1, h2, h3, fun m' h4 => (hreturn m' h4).1, fun hsome => ?_, fun hpass => ?_⟩
  · obtain ⟨m', h4⟩ := Option.isSome_iff_exists.1 hsome
    exact (hreturn m' h4).2
  · have hasserts : ∀ p ∈ l₁, assertPage m top p = true := fun p hp => hpass.asserts p (hperm.mem_iff.1 hp)
    obtain ⟨m₂, h5, hsame⟩ := fill_spec (m := m₁) (l := l₁) 1 fun p hp => by
      rw [h3.npages]
      exact assertPage_lt (hasserts p hp)
    obtain ⟨base, hcount⟩ := check_counts (m := m₂) (l := l₁) top
      (fun p hp => by rw [assertPage_congr (hsame.npages.trans h3.npages)]; exact hasserts p hp) 0 0
    obtain ⟨p, hp, hext⟩ := hpass.ext
    have hpos : 0 + l₁.countP (IsExt ·) > 0 := by
      rw [Nat.zero_add]
      exact List.countP_pos_iff.2 ⟨p, hperm.mem_iff.2 hp, decide_eq_true hext⟩
    rw [hfun, if_neg fun hhead => hpass.ne (hc.none_iff.1 hhead), h5, Option.bind_some, hcheck m₂ hsame, hcount,
      Option.bind_some, if_pos hpos]
    rfl

/-! ## Low pages -/

/-- The page is below the limit of the low memory: the first 2 MB, which one entry of a page directory maps. -/
def lowMem (p : ℕ) : Bool := (page2pa p).toNat < 0x200000

/-- The page has the `PDX` of the low memory, but is not there. -/
def wraps (p : ℕ) : Bool := !lowMem p && !pagetype 1 p

theorem pagetype_low (h : lowMem p = true) : pagetype 1 p = false := by
  unfold lowMem at h
  have h1 := of_decide_eq_true h
  unfold pagetype pdx field
  refine decide_eq_false ?_
  dsimp only
  rw [BitVec.toNat_ushiftRight, Nat.shiftRight_eq_div_pow]
  omega

/-- A list is in the order of the addresses if and only if the pages with a `PDX` that is 0 again stand behind all low
pages and before all others. -/
theorem kind_eq_low (l : List ℕ) : kind 1 false l ++ kind 1 true l = l.filter lowMem ++ l.filter (fun p => !lowMem p) ↔
    l.Pairwise fun a b => ¬ (wraps a = true ∧ lowMem b = true) ∧ ¬ (pagetype 1 a = true ∧ wraps b = true) := by
  have hlow : kind 1 false l = l.filter fun p => lowMem p || wraps p := by
    unfold kind
    refine List.filter_congr fun p _ => ?_
    unfold wraps
    cases hp : lowMem p with
    | true => rw [pagetype_low hp]; rfl
    | false => cases pagetype 1 p <;> rfl
  have hhigh : kind 1 true l = l.filter (pagetype 1) := by
    unfold kind
    refine List.filter_congr fun p _ => ?_
    cases pagetype 1 p <;> rfl
  have hnot : (l.filter fun p => !lowMem p) = l.filter fun p => wraps p || pagetype 1 p := by
    refine List.filter_congr fun p _ => ?_
    unfold wraps
    cases hp : lowMem p with
    | true => rw [pagetype_low hp]; rfl
    | false => cases pagetype 1 p <;> rfl
  rw [hlow, hhigh, hnot]
  refine filter_regroup (fun p h => ?_) (fun p h => ?_) (fun p h => pagetype_low h) l
  · unfold wraps
    rw [h]
    rfl
  · unfold wraps at h
    simpa using (Bool.and_eq_true_iff.1 h).2

/-- With up to 1 GB of memory there are no such pages. -/
theorem wraps_lt (hp : p < 2 ^ 18) : wraps p = false := by
  have hpa : (page2pa p).toNat = p * 4096 := by
    unfold page2pa
    rw [BitVec.toNat_shiftLeft, BitVec.toNat_ofNat, Nat.shiftLeft_eq]
    omega
  by_cases hlow : p < 512
  · have h1 : lowMem p = true := by
      refine decide_eq_true ?_
      rw [hpa]
      omega
    unfold wraps
    rw [h1]
    rfl
  · have h1 : pagetype 1 p = true := by
      refine decide_eq_true ?_
      change 1 ≤ (page2pa p >>> 21).toNat % 512
      rw [BitVec.toNat_ushiftRight, Nat.shiftRight_eq_div_pow, hpa]
      omega
    unfold wraps
    rw [h1, Bool.not_true, Bool.and_false]

/-- **`check_page_free_list(1)`** leaves the same pages, first those with a low `PDX` and then the others, each in the
order of the list. These are the pages of the low memory, and then the others, if and only if the pages from 1 GB on
that have a low `PDX` stand between them. -/
theorem checkPageFreeList_low_first (pp1 pp2 : Option ℕ) (top : VA) (hc : Chain m.link m.pageFreeList l)
    (hn : l.length ≤ n) : ∃ m₁, reorder n 1 pp1 pp2 m = some m₁ ∧
      (∀ m', checkPageFreeList n pp1 pp2 top true m = some m' → SameList m₁ m') ∧
        ((checkPageFreeList n pp1 pp2 top true m).isSome ↔ ListPasses m top l) ∧
          Chain m₁.link m₁.pageFreeList (kind 1 false l ++ kind 1 true l) ∧ (kind 1 false l ++ kind 1 true l).Perm l ∧
            (Chain m₁.link m₁.pageFreeList (l.filter lowMem ++ l.filter (fun p => !lowMem p)) ↔
              l.Pairwise fun a b => ¬ (wraps a = true ∧ lowMem b = true) ∧ ¬ (pagetype 1 a = true ∧ wraps b = true)) := by
  obtain ⟨m₁, h1, h2, -, h4, h5⟩ := checkPageFreeList_spec pp1 pp2 top hc hn
  refine ⟨m₁, h1, h4, h5, h2, kind_perm 1 l, ?_⟩
  rw [← kind_eq_low]
  constructor
  · exact fun h => h2.unique h
  · intro h
    rw [← h]
    exact h2

/-- A free list of two pages, at 4 MB and at 1 GB. -/
def gigabyte : Pmap where
  npages := 262145
  pages := fun p => if p = 1024 then ⟨some 262144, 0⟩ else ⟨none, 0⟩
  pageFreeList := some 1024
  mem := fun _ _ => 0
  bootPml4e := 0

theorem gigabyte_link (p : ℕ) : gigabyte.link p = if p = 1024 then some 262144 else none := by
  unfold Pmap.link gigabyte
  dsimp only
  split
  · rfl
  · rfl

theorem gigabyte_chain : Chain gigabyte.link gigabyte.pageFreeList [1024, 262144] := by
  refine .cons ?_
  rw [gigabyte_link, if_pos rfl]
  refine .cons ?_
  rw [gigabyte_link, if_neg (by decide)]
  exact .nil

/-- The assertions hold, with 2 MB for the kernel. -/
theorem gigabyte_passes : ListPasses gigabyte (kernbase + 0x200000#64) [1024, 262144] :=
  ⟨List.cons_ne_nil _ _, by decide, 1024, List.mem_cons_self, by decide⟩

/-- The two pages. -/
theorem checkPageFreeList_low_first_gigabyte : ∃ m₁, reorder 2 1 none none gigabyte = some m₁ ∧
    (∀ m', checkPageFreeList 2 none none (kernbase + 0x200000#64) true gigabyte = some m' → SameList m₁ m') ∧
      ((checkPageFreeList 2 none none (kernbase + 0x200000#64) true gigabyte).isSome ↔
        ListPasses gigabyte (kernbase + 0x200000#64) [1024, 262144]) ∧
        Chain m₁.link m₁.pageFreeList (kind 1 false [1024, 262144] ++ kind 1 true [1024, 262144]) ∧
          (kind 1 false [1024, 262144] ++ kind 1 true [1024, 262144]).Perm [1024, 262144] ∧
            (Chain m₁.link m₁.pageFreeList ([1024, 262144].filter lowMem ++ [1024, 262144].filter (fun p => !lowMem p)) ↔
              [1024, 262144].Pairwise fun a b => ¬ (wraps a = true ∧ lowMem b = true) ∧
                ¬ (pagetype 1 a = true ∧ wraps b = true)) :=
  checkPageFreeList_low_first none none (kernbase + 0x200000#64) gigabyte_chain le_rfl

/-- The page at 1 GB comes before the one at 4 MB then. -/
theorem checkPageFreeList_low_first_counterexample : ∃ m', Chain gigabyte.link gigabyte.pageFreeList [1024, 262144] ∧
    checkPageFreeList 2 none none (kernbase + 0x200000#64) true gigabyte = some m' ∧
      Chain m'.link m'.pageFreeList [262144, 1024] ∧
        ¬ Chain m'.link m'.pageFreeList ([1024, 262144].filter lowMem ++ [1024, 262144].filter (fun p => !lowMem p)) := by
  obtain ⟨m₁, -, h1, -, h2, h3⟩ := checkPageFreeList_spec none none (kernbase + 0x200000#64) gigabyte_chain le_rfl
  obtain ⟨m', h4⟩ := Option.isSome_iff_exists.1 (h3.2 gigabyte_passes)
  have hsame := h2 m' h4
  have hkind : kind 1 false [1024, 262144] ++ kind 1 true [1024, 262144] = [262144, 1024] := by decide
  have hlow : [1024, 262144].filter lowMem ++ [1024, 262144].filter (fun p => !lowMem p) = [1024, 262144] := by decide
  have hchain : Chain m'.link m'.pageFreeList [262144, 1024] := by
    unfold Pmap.link
    rw [hsame.pages, hsame.head, ← hkind]
    exact h1
  refine ⟨m', gigabyte_chain, h4, hchain, fun h => ?_⟩
  rw [hlow] at h
  exact absurd (hchain.unique h) (by decide)

end Jos
