import Jos.Proof.Pages
import Jos.Spec.Alloc

/-!
# Freeing a page twice

`page_free` panics on a page whose count is not 0 or whose link is not `NULL`. The last page of the
free list has count 0 and no link: it can be freed again, and then the list has no end.

* `alloc_sound`: in every run without such a call the list ends, no page is on it twice, and no page
  is returned again that was not freed in between; after such a call the list has no end.
-/

namespace Jos

open Lib

variable {m m' : Pmap} {l fl : List ℕ} {p q : ℕ} {σ σ₀ σ' : Allocator} {c : PageCall}

/-! ## The list -/

/-- The free list ends, and only its pages have a link. -/
structure Threaded (m : Pmap) (l : List ℕ) : Prop where
  chain : Chain m.link m.pageFreeList l
  off : ∀ p, p ∉ l → m.link p = none

theorem FreeOK.threaded (h : FreeOK m fl) : Threaded m fl := ⟨h.chain, h.link⟩

theorem link_setRef {r : BitVec 16} : (m.setRef p r).link = m.link := by
  funext q
  exact Pmap.setRef_link

theorem link_freed : (freed m p).link q = if q = p then m.pageFreeList else m.link q := by
  unfold freed Pmap.link
  rw [Pmap.setHead_pages, Pmap.setLink_link]

/-- A count does not matter for the list. -/
theorem Threaded.setRef (h : Threaded m l) (p : ℕ) (r : BitVec 16) : Threaded (m.setRef p r) l := by
  refine ⟨?_, ?_⟩
  · rw [link_setRef]
    exact h.chain
  · rw [link_setRef]
    exact h.off

/-- **Pushing** a page that is not on the list. -/
theorem Threaded.freed (h : Threaded m l) (hp : p ∉ l) : Threaded (Jos.freed m p) (p :: l) := by
  refine ⟨h.chain.push hp ?_ fun q hq => ?_, fun q hq => ?_⟩
  · rw [link_freed, if_pos rfl]
  · rw [link_freed, if_neg hq]
  · rw [List.mem_cons, not_or] at hq
    rw [link_freed, if_neg hq.1]
    exact h.off q hq.2

/-- **Popping** the first page. -/
theorem Threaded.pop (h : Threaded m l) (hh : m.pageFreeList = some p) (h1 : m'.pageFreeList = m.link p)
    (h2 : ∀ q, m'.link q = if q = p then none else m.link q) : ∃ l', l = p :: l' ∧ p ∉ l' ∧ Threaded m' l' := by
  obtain ⟨hc, hoff⟩ := h
  rw [hh] at hc
  obtain ⟨l', rfl, hp, hc'⟩ := hc.pop
  refine ⟨l', rfl, hp, ?_, fun q hq => ?_⟩
  · rw [h1]
    refine hc'.congr fun q hq => ?_
    rw [h2, if_neg]
    rintro rfl
    exact hp hq
  · rw [h2]
    split
    · rfl
    · rename_i hne
      exact hoff q (by simp [hne, hq])

/-! ## The calls -/

/-- `page_alloc` does nothing with an empty list, or it takes the first page. -/
theorem pageAlloc_cases {z : Bool} {r : Option ℕ} (h : pageAlloc m z = some (r, m')) :
    (m.pageFreeList = none ∧ r = none ∧ m' = m) ∨
      ∃ p, m.pageFreeList = some p ∧ r = some p ∧ m'.pageFreeList = m.link p ∧
        ∀ q, m'.link q = if q = p then none else m.link q := by
  unfold pageAlloc at h
  cases hh : m.pageFreeList with
  | none =>
    rw [hh] at h
    cases h
    exact Or.inl ⟨rfl, rfl, rfl⟩
  | some p =>
    rw [hh] at h
    refine Or.inr ⟨p, rfl, ?_⟩
    have key : ∀ m₁ : Pmap, m₁.pages = m.pages → m₁.pageFreeList = m.link p → r = some p →
        m' = m₁.setLink p none → r = some p ∧ m'.pageFreeList = m.link p ∧
          ∀ q, m'.link q = if q = p then none else m.link q := by
      rintro m₁ h1 h2 h3 rfl
      refine ⟨h3, h2, fun q => ?_⟩
      unfold Pmap.link
      rw [Pmap.setLink_link, h1]
    cases z with
    | false =>
      cases h
      exact key (m.setHead (m.link p)) rfl rfl rfl rfl
    | true =>
      obtain ⟨m₁, h1, h2⟩ := Option.bind_eq_some_iff.1 h
      obtain ⟨k, -, rfl⟩ := Option.map_eq_some_iff.1 h1
      cases h2
      exact key ((m.setHead (m.link p)).clear k) rfl rfl rfl rfl

/-- `page_free` panics, or it pushes the page. -/
theorem pageFree_cases (h : pageFree m p = some m') :
    (m.pages p).ppRef = 0 ∧ m.link p = none ∧ m' = freed m p := by
  unfold pageFree at h
  split at h
  · cases h
  · rename_i hn
    obtain ⟨h1, h2⟩ := not_or.1 hn
    exact ⟨not_not.1 h1, not_not.1 h2, (Option.some.inj h).symm⟩

theorem pageFree_eq_none : pageFree m p = none ↔ (m.pages p).ppRef ≠ 0 ∨ m.link p ≠ none := by
  unfold pageFree
  split
  · rename_i hn
    exact ⟨fun _ => hn, fun _ => rfl⟩
  · rename_i hn
    exact ⟨nofun, fun h => absurd h hn⟩

theorem sub_one_eq_zero (r : BitVec 16) : r - 1 = 0 ↔ r = 1 := by
  constructor
  · intro h
    bv_omega
  · rintro rfl
    rfl

/-- `page_decref` counts, or it counts and pushes the page. -/
theorem pageDecref_cases (h : pageDecref m p = some m') :
    ((m.pages p).ppRef ≠ 1 ∧ m' = m.setRef p ((m.pages p).ppRef - 1)) ∨
      ((m.pages p).ppRef = 1 ∧ m.link p = none ∧ m' = freed (m.setRef p 0) p) := by
  unfold pageDecref at h
  dsimp only at h
  rw [Pmap.setRef_ref, if_pos rfl] at h
  split at h
  · rename_i h0
    have h1 := (sub_one_eq_zero _).1 h0
    rw [h0] at h
    obtain ⟨-, h2, h3⟩ := pageFree_cases h
    rw [link_setRef] at h2
    exact Or.inr ⟨h1, h2, h3⟩
  · rename_i h0
    exact Or.inl ⟨fun h1 => h0 ((sub_one_eq_zero _).2 h1), (Option.some.inj h).symm⟩

/-! ## Runs -/

/-- The page is the last one of the free list. -/
def Pmap.LastFree (m : Pmap) (p : ℕ) : Prop := m.OnFreeList p ∧ (m.pages p).ppLink = none

/-- The call is to free the last page of the free list. -/
def PageCall.FreesLast (m : Pmap) : PageCall → Prop
  | .alloc _ => False
  | .free pp => m.LastFree pp
  | .decref pp => (m.pages pp).ppRef = 1 ∧ m.LastFree pp

/-- **What is to hold of the allocator**: the list ends, no page is on it twice, and `page_alloc`
returns no page that it has returned before and that was not freed in between. -/
structure Allocator.Sound (σ : Allocator) : Prop where
  finite : ∃ l, Chain σ.pm.link σ.pm.pageFreeList l ∧ l.Nodup
  fresh : ∀ zero p m', pageAlloc σ.pm zero = some (some p, m') → p ∉ σ.out

/-- The invariant: the pages that are out are not on the list. -/
structure Allocator.Inv (σ : Allocator) (l : List ℕ) : Prop where
  threaded : Threaded σ.pm l
  out : ∀ p ∈ l, p ∉ σ.out

theorem Allocator.Inv.sound (h : σ.Inv l) : σ.Sound := by
  refine ⟨⟨l, h.threaded.chain, h.threaded.chain.nodup⟩, fun zero p m' ha => ?_⟩
  rcases pageAlloc_cases ha with ⟨-, h1, -⟩ | ⟨q, hh, h1, h2, h3⟩
  · cases h1
  · cases h1
    obtain ⟨l', rfl, -⟩ := h.threaded.pop hh h2 h3
    exact h.out p List.mem_cons_self

/-- A page that passes the test of `page_free` and is on the list is its last one. -/
theorem Threaded.lastFree (h : Threaded m l) (hl : m.link p = none) : m.LastFree p ↔ p ∈ l :=
  ⟨fun hp => h.chain.linked_iff.1 hp.1, fun hp => ⟨h.chain.linked_iff.2 hp, hl⟩⟩

/-- **One call** that does not free the last page keeps the invariant. -/
theorem Allocator.Inv.step (h : σ.Inv l) (hc : ¬ c.FreesLast σ.pm) (hs : σ.exec c = some σ') :
    ∃ l', σ'.Inv l' := by
  cases c with
  | alloc zero =>
    obtain ⟨⟨r, m'⟩, ha, rfl⟩ := Option.map_eq_some_iff.1 hs
    rcases pageAlloc_cases ha with ⟨-, rfl, rfl⟩ | ⟨q, hh, rfl, h2, h3⟩
    · refine ⟨l, h.threaded, fun p hp => ?_⟩
      simpa using h.out p hp
    · obtain ⟨l', rfl, hq, h4⟩ := h.threaded.pop hh h2 h3
      refine ⟨l', h4, fun p hp => ?_⟩
      rintro (hout | he)
      · exact h.out p (List.mem_cons_of_mem _ hp) hout
      · cases he
        exact hq hp
  | free pp =>
    obtain ⟨m', ha, rfl⟩ := Option.map_eq_some_iff.1 hs
    obtain ⟨-, hl, rfl⟩ := pageFree_cases ha
    have hpp : pp ∉ l := fun hp => hc ((h.threaded.lastFree hl).2 hp)
    refine ⟨pp :: l, h.threaded.freed hpp, fun p hp hout => ?_⟩
    rcases List.mem_cons.1 hp with rfl | hp
    · exact hout.2 rfl
    · exact h.out p hp hout.1
  | decref pp =>
    obtain ⟨m', ha, rfl⟩ := Option.map_eq_some_iff.1 hs
    rcases pageDecref_cases ha with ⟨h1, rfl⟩ | ⟨h1, hl, rfl⟩
    · refine ⟨l, h.threaded.setRef _ _, fun p hp => ?_⟩
      rw [if_neg h1]
      exact h.out p hp
    · have hpp : pp ∉ l := fun hp => hc ⟨h1, (h.threaded.lastFree hl).2 hp⟩
      refine ⟨pp :: l, (h.threaded.setRef _ _).freed hpp, fun p hp hout => ?_⟩
      rw [if_pos h1] at hout
      rcases List.mem_cons.1 hp with rfl | hp
      · exact hout.2 rfl
      · exact h.out p hp hout.1

/-- The invariant holds in every run without such a call. -/
theorem Allocator.Inv.run (h : σ₀.Inv l) (hr : Allocator.Run (fun m c => ¬ c.FreesLast m) σ₀ σ) :
    ∃ l', σ.Inv l' := by
  induction hr with
  | refl => exact ⟨l, h⟩
  | tail _ hs ih =>
    obtain ⟨l', h1⟩ := ih
    obtain ⟨c, -, hc, hx⟩ := hs
    exact h1.step hc hx

/-- **A page freed again**, where it is the last one: the list has no end. -/
theorem Threaded.freed_endless (h : Threaded m l) (hp : m.LastFree p) :
    ¬ ∃ l', Chain (Jos.freed m p).link (Jos.freed m p).pageFreeList l' := by
  refine h.chain.push_endless (h.chain.linked_iff.1 hp.1) ?_ fun q hq => ?_
  · rw [link_freed, if_pos rfl]
  · rw [link_freed, if_neg hq]

theorem Allocator.Inv.endless (h : σ.Inv l) (hc : c.FreesLast σ.pm) (hs : σ.exec c = some σ') : ¬ σ'.Sound := by
  rintro ⟨⟨l', hl', -⟩, -⟩
  cases c with
  | alloc zero => exact hc
  | free pp =>
    obtain ⟨m', ha, rfl⟩ := Option.map_eq_some_iff.1 hs
    obtain ⟨-, -, rfl⟩ := pageFree_cases ha
    exact h.threaded.freed_endless hc ⟨l', hl'⟩
  | decref pp =>
    obtain ⟨m', ha, rfl⟩ := Option.map_eq_some_iff.1 hs
    obtain ⟨h1, h2⟩ := hc
    rcases pageDecref_cases ha with ⟨h3, -⟩ | ⟨-, -, rfl⟩
    · exact h3 h1
    · refine (h.threaded.setRef pp 0).freed_endless ⟨?_, ?_⟩ ⟨l', hl'⟩
      · unfold Pmap.OnFreeList
        rw [link_setRef]
        exact h2.1
      · rw [Pmap.setRef_link]
        exact h2.2

/-- **When double frees are detected**: in every run from a well-formed free list the allocator is
sound as long as no call frees the last page of the list, and the next call keeps it so exactly if
it does not. `page_free` panics on a page of the list exactly if it is not the last one, or counted. -/
theorem alloc_sound (hm : FreeOK m fl) (hr : Allocator.Run (fun m c => ¬ c.FreesLast m) ⟨m, ∅⟩ σ) :
    σ.Sound ∧ (∀ c σ', σ.exec c = some σ' → (σ'.Sound ↔ ¬ c.FreesLast σ.pm)) ∧
      ∀ p, σ.pm.OnFreeList p → (pageFree σ.pm p = none ↔ ¬ σ.pm.LastFree p ∨ (σ.pm.pages p).ppRef ≠ 0) := by
  have h0 : Allocator.Inv ⟨m, ∅⟩ fl := ⟨hm.threaded, fun _ _ => Set.notMem_empty _⟩
  obtain ⟨l, h⟩ := h0.run hr
  refine ⟨h.sound, fun c σ' hs => ⟨fun hs' hc => h.endless hc hs hs', fun hc => ?_⟩, fun p hp => ?_⟩
  · obtain ⟨l', h1⟩ := h.step hc hs
    exact h1.sound
  · rw [pageFree_eq_none]
    unfold Pmap.LastFree Pmap.link
    tauto

/-! ## A list of one page -/

/-- Two pages, of which page 1 is free. -/
def onePage : Pmap where
  npages := 2
  pages := fun _ => ⟨none, 0⟩
  pageFreeList := some 1
  mem := fun _ _ => 0
  bootPml4e := 0

theorem onePage_free : FreeOK onePage [1] := by
  refine ⟨by decide, .cons .nil, ?_, fun _ _ => rfl, fun _ _ => rfl⟩
  intro p hp
  obtain rfl := List.mem_singleton.1 hp
  decide

/-- **This fails** where page 1 is freed again: `page_alloc` then returns it twice. -/
theorem alloc_sound_counterexample : ¬ ∀ m fl σ, FreeOK m fl → Allocator.Run (fun _ _ => True) ⟨m, ∅⟩ σ →
    σ.Sound ∧ ∀ p, σ.pm.OnFreeList p → pageFree σ.pm p = none := by
  intro h
  have h1 : Allocator.exec ⟨onePage, ∅⟩ (.free 1) = some ⟨freed onePage 1, ∅ \ {1}⟩ := rfl
  have h2 : Allocator.exec ⟨freed onePage 1, ∅ \ {1}⟩ (.alloc false) =
      some ⟨(((freed onePage 1).setHead (some 1)).setLink 1 none), (∅ \ {1}) ∪ {p | some 1 = some p}⟩ := rfl
  have hr : Allocator.Run (fun _ _ => True) ⟨onePage, ∅⟩
      ⟨(((freed onePage 1).setHead (some 1)).setLink 1 none), (∅ \ {1}) ∪ {p | some 1 = some p}⟩ :=
    .tail (.single ⟨.free 1, (by decide : 1 < 2), trivial, h1⟩) ⟨.alloc false, trivial, trivial, h2⟩
  refine (h _ _ _ onePage_free hr).1.fresh false 1 _ rfl ?_
  exact Or.inr rfl

/-- A run that takes page 1 and gives it back. -/
theorem alloc_sound_onePage : ∃ σ, Allocator.Run (fun m c => ¬ c.FreesLast m) ⟨onePage, ∅⟩ σ ∧ σ.Sound := by
  have h1 : Allocator.exec ⟨onePage, ∅⟩ (.alloc false) =
      some ⟨(onePage.setHead none).setLink 1 none, ∅ ∪ {p | some 1 = some p}⟩ := rfl
  have h2 : Allocator.exec ⟨(onePage.setHead none).setLink 1 none, ∅ ∪ {p | some 1 = some p}⟩ (.free 1) =
      some ⟨freed ((onePage.setHead none).setLink 1 none) 1, (∅ ∪ {p | some 1 = some p}) \ {1}⟩ := rfl
  have hfree : ¬ PageCall.FreesLast ((onePage.setHead none).setLink 1 none) (.free 1) := by
    rintro ⟨hl, -⟩
    cases hl
  have hr : Allocator.Run (fun m c => ¬ c.FreesLast m) ⟨onePage, ∅⟩ _ :=
    .tail (.single ⟨.alloc false, trivial, id, h1⟩) ⟨.free 1, (by decide : 1 < 2), hfree, h2⟩
  exact ⟨_, hr, (alloc_sound onePage_free hr).1⟩

end Jos
