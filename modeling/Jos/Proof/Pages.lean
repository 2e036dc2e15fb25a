import Jos.Lib.Chain
import Jos.Proof.Bits

/-!
# The page allocator

What each update of the state leaves alone, and what `page_alloc`, `page_free` and
`page_decref` do to the free list.
-/

namespace Jos

open Lib

namespace Pmap

variable {m : Pmap} {p q t : ℕ} {i j : Idx} {r : BitVec 16} {l : Option ℕ} {v : PTE}

@[simp] theorem setRef_npages : (m.setRef p r).npages = m.npages := rfl
@[simp] theorem setRef_head : (m.setRef p r).pageFreeList = m.pageFreeList := rfl
@[simp] theorem setRef_mem : (m.setRef p r).mem = m.mem := rfl
@[simp] theorem setRef_boot : (m.setRef p r).bootPml4e = m.bootPml4e := rfl
@[simp] theorem setRef_ref :
    ((m.setRef p r).pages q).ppRef = if q = p then r else (m.pages q).ppRef := by
  unfold setRef; dsimp only; split <;> rfl
@[simp] theorem setRef_link : ((m.setRef p r).pages q).ppLink = (m.pages q).ppLink := by
  unfold setRef; dsimp only; split <;> rfl

@[simp] theorem setLink_npages : (m.setLink p l).npages = m.npages := rfl
@[simp] theorem setLink_head : (m.setLink p l).pageFreeList = m.pageFreeList := rfl
@[simp] theorem setLink_mem : (m.setLink p l).mem = m.mem := rfl
@[simp] theorem setLink_boot : (m.setLink p l).bootPml4e = m.bootPml4e := rfl
@[simp] theorem setLink_ref : ((m.setLink p l).pages q).ppRef = (m.pages q).ppRef := by
  unfold setLink; dsimp only; split <;> rfl
@[simp] theorem setLink_link :
    ((m.setLink p l).pages q).ppLink = if q = p then l else (m.pages q).ppLink := by
  unfold setLink; dsimp only; split <;> rfl

@[simp] theorem setHead_npages : (m.setHead l).npages = m.npages := rfl
@[simp] theorem setHead_head : (m.setHead l).pageFreeList = l := rfl
@[simp] theorem setHead_mem : (m.setHead l).mem = m.mem := rfl
@[simp] theorem setHead_boot : (m.setHead l).bootPml4e = m.bootPml4e := rfl
@[simp] theorem setHead_pages : (m.setHead l).pages = m.pages := rfl

@[simp] theorem incRef_npages : (m.incRef p).npages = m.npages := rfl
@[simp] theorem incRef_head : (m.incRef p).pageFreeList = m.pageFreeList := rfl
@[simp] theorem incRef_mem : (m.incRef p).mem = m.mem := rfl
@[simp] theorem incRef_boot : (m.incRef p).bootPml4e = m.bootPml4e := rfl
@[simp] theorem incRef_ref :
    ((m.incRef p).pages q).ppRef = if q = p then (m.pages p).ppRef + 1 else (m.pages q).ppRef := by
  simp [incRef]
@[simp] theorem incRef_link : ((m.incRef p).pages q).ppLink = (m.pages q).ppLink := by
  simp [incRef]

@[simp] theorem write_npages : (m.write t i v).npages = m.npages := rfl
@[simp] theorem write_head : (m.write t i v).pageFreeList = m.pageFreeList := rfl
@[simp] theorem write_pages : (m.write t i v).pages = m.pages := rfl
@[simp] theorem write_boot : (m.write t i v).bootPml4e = m.bootPml4e := rfl
theorem write_mem : (m.write t i v).mem q j = if q = t ∧ j = i then v else m.mem q j := rfl
@[simp] theorem write_mem_self : (m.write t i v).mem t i = v := by simp [write_mem]
theorem write_mem_of_ne (h : ¬ (q = t ∧ j = i)) : (m.write t i v).mem q j = m.mem q j := by
  simp [write_mem, h]

@[simp] theorem clear_npages : (m.clear p).npages = m.npages := rfl
@[simp] theorem clear_head : (m.clear p).pageFreeList = m.pageFreeList := rfl
@[simp] theorem clear_pages : (m.clear p).pages = m.pages := rfl
@[simp] theorem clear_boot : (m.clear p).bootPml4e = m.bootPml4e := rfl
theorem clear_mem : (m.clear p).mem q j = if q = p then 0 else m.mem q j := rfl

end Pmap

/-- The `pp_link` fields as a `next` function. -/
def Pmap.link (m : Pmap) (p : ℕ) : Option ℕ := (m.pages p).ppLink

/-- A page is on `page_free_list`. -/
def Pmap.OnFreeList (m : Pmap) (p : ℕ) : Prop := Linked m.link m.pageFreeList p

variable {m m' : Pmap} {fl : List ℕ} {p : ℕ}

theorem kaddr_pteAddr {e : PTE} (hn : m.npages ≤ 2 ^ 32) (h : ppn e < m.npages) :
    kaddr m (pteAddr e) = some (ppn e) := by
  unfold kaddr
  rw [ppn_pteAddr, Nat.mod_eq_of_lt (by omega), if_neg (by omega)]

theorem kaddr_page2pa (hn : m.npages ≤ 2 ^ 32) (h : p < m.npages) :
    kaddr m (page2pa p) = some p := by
  unfold kaddr
  rw [ppn_page2pa (by omega), Nat.mod_eq_of_lt (by omega), if_neg (by omega)]

/-- **The free list.** It is a list of distinct pages inside `pages`, with count 0, and
only its pages have a link. -/
structure FreeOK (m : Pmap) (fl : List ℕ) : Prop where
  npages_le : m.npages ≤ 2 ^ 32
  chain : Chain m.link m.pageFreeList fl
  lt : ∀ p ∈ fl, p < m.npages
  ref : ∀ p ∈ fl, (m.pages p).ppRef = 0
  link : ∀ p, p ∉ fl → (m.pages p).ppLink = none

theorem FreeOK.onFreeList (h : FreeOK m fl) : m.OnFreeList p ↔ p ∈ fl := h.chain.linked_iff

theorem FreeOK.nodup (h : FreeOK m fl) : fl.Nodup := h.chain.nodup

/-- The free list depends on the `pages` array, the head and the number of pages. -/
theorem FreeOK.congr (h : FreeOK m fl) (hp : m'.pages = m.pages)
    (hh : m'.pageFreeList = m.pageFreeList) (hn : m'.npages = m.npages) : FreeOK m' fl := by
  have hl : m'.link = m.link := by funext q; simp [Pmap.link, hp]
  exact ⟨hn ▸ h.npages_le, by rw [hl, hh]; exact h.chain, by rw [hn]; exact h.lt,
    by rw [hp]; exact h.ref, by rw [hp]; exact h.link⟩

/-- Counting references to a page off the list leaves the list alone. -/
theorem FreeOK.setRef (h : FreeOK m fl) (hp : p ∉ fl) (r : BitVec 16) : FreeOK (m.setRef p r) fl := by
  refine ⟨h.npages_le, ?_, h.lt, ?_, ?_⟩
  · have hl : (m.setRef p r).link = m.link := by funext q; simp [Pmap.link]
    rw [hl]; exact h.chain
  · intro q hq
    rw [Pmap.setRef_ref, if_neg (by rintro rfl; exact hp hq)]; exact h.ref q hq
  · intro q hq
    rw [Pmap.setRef_link]; exact h.link q hq

theorem FreeOK.incRef (h : FreeOK m fl) (hp : p ∉ fl) : FreeOK (m.incRef p) fl := h.setRef hp _

theorem pageAlloc_nil (h : FreeOK m []) (z : Bool) : pageAlloc m z = some (none, m) := by
  have := h.chain.none_iff.2 rfl
  unfold pageAlloc; rw [this]

/-- The state after `page_alloc` has taken page `p`. -/
def taken (m : Pmap) (z : Bool) (p : ℕ) : Pmap :=
  let m := m.setHead (m.pages p).ppLink
  (if z then m.clear p else m).setLink p none

/-- **`page_alloc` takes the head** of a list that is not empty. -/
theorem pageAlloc_cons (h : FreeOK m (p :: fl)) (z : Bool) :
    pageAlloc m z = some (some p, taken m z p) := by
  have hh : m.pageFreeList = some p := by
    have := h.chain
    cases hm : m.pageFreeList with
    | none => rw [hm] at this; cases this
    | some q => rw [hm] at this; cases this with | cons => rfl
  have hk : kaddr (m.setHead (m.pages p).ppLink) (page2pa p) = some p :=
    kaddr_page2pa h.npages_le (h.lt p List.mem_cons_self)
  unfold pageAlloc taken
  rw [hh]
  cases z <;> simp [hk]

section taken

variable {z : Bool} {q : ℕ} {j : Idx}

@[simp] theorem taken_npages : (taken m z p).npages = m.npages := by
  unfold taken; cases z <;> rfl
@[simp] theorem taken_boot : (taken m z p).bootPml4e = m.bootPml4e := by
  unfold taken; cases z <;> rfl
@[simp] theorem taken_ref : ((taken m z p).pages q).ppRef = (m.pages q).ppRef := by
  unfold taken; cases z <;> simp
@[simp] theorem taken_link :
    ((taken m z p).pages q).ppLink = if q = p then none else (m.pages q).ppLink := by
  unfold taken; cases z <;> simp
@[simp] theorem taken_head : (taken m z p).pageFreeList = (m.pages p).ppLink := by
  unfold taken; cases z <;> rfl
theorem taken_mem_of_ne (h : q ≠ p) : (taken m z p).mem q j = m.mem q j := by
  unfold taken; cases z <;> simp [Pmap.clear_mem, h]
@[simp] theorem taken_mem_self : (taken m true p).mem p j = 0 := by
  simp [taken, Pmap.clear_mem]

end taken

/-- The rest of the list is the list of the state after. -/
theorem FreeOK.taken (h : FreeOK m (p :: fl)) (z : Bool) : FreeOK (taken m z p) fl := by
  have hc := h.chain
  have hnd := List.nodup_cons.1 h.nodup
  have hh : m.pageFreeList = some p := by
    cases hm : m.pageFreeList with
    | none => rw [hm] at hc; cases hc
    | some q => rw [hm] at hc; cases hc with | cons => rfl
  rw [hh] at hc
  refine ⟨by rw [taken_npages]; exact h.npages_le, ?_, ?_, ?_, ?_⟩
  · rw [taken_head]
    cases hc with
    | cons hc =>
      refine hc.congr fun a ha => ?_
      have hne : a ≠ p := by rintro rfl; exact hnd.1 ha
      simp [Pmap.link, hne]
  · intro q hq; rw [taken_npages]; exact h.lt q (List.mem_cons_of_mem _ hq)
  · intro q hq; rw [taken_ref]; exact h.ref q (List.mem_cons_of_mem _ hq)
  · intro q hq
    rw [taken_link]
    split
    · rfl
    · rename_i hne
      exact h.link q (by simp [hne, hq])

/-- The state after `page_free` has put page `p` back. -/
def freed (m : Pmap) (p : ℕ) : Pmap := (m.setLink p m.pageFreeList).setHead (some p)

/-- **`page_free` puts a page back** that has count 0 and is not on the list. -/
theorem pageFree_eq (h : FreeOK m fl) (hp : p ∉ fl) (h0 : (m.pages p).ppRef = 0) :
    pageFree m p = some (freed m p) := by
  unfold pageFree freed
  rw [if_neg]
  simp [h0, h.link p hp]

theorem FreeOK.freed (h : FreeOK m fl) (hp : p ∉ fl) (hlt : p < m.npages)
    (h0 : (m.pages p).ppRef = 0) : FreeOK (freed m p) (p :: fl) := by
  refine ⟨h.npages_le, ?_, ?_, ?_, ?_⟩
  · refine h.chain.push hp ?_ fun c hc => ?_
    · simp [Jos.freed, Pmap.link]
    · simp [Jos.freed, Pmap.link, hc]
  · intro q hq
    rcases List.mem_cons.1 hq with rfl | hq
    · exact hlt
    · exact h.lt q hq
  · intro q hq
    rcases List.mem_cons.1 hq with rfl | hq
    · simpa [Jos.freed] using h0
    · simpa [Jos.freed] using h.ref q hq
  · intro q hq
    rw [List.mem_cons, not_or] at hq
    simp [Jos.freed, hq.1, h.link q hq.2]

/-- The state after `page_decref(p)`: one reference less, and the page back on the
list if that was the last one. -/
def dropped (m : Pmap) (p : ℕ) : Pmap :=
  let m' := m.setRef p ((m.pages p).ppRef - 1)
  if (m.pages p).ppRef = 1 then freed m' p else m'

/-- **`page_decref`** does not panic: a page on the list has count 0, not 1. -/
theorem pageDecref_eq (h : FreeOK m fl) : pageDecref m p = some (dropped m p) := by
  unfold pageDecref dropped
  have hr : ((m.setRef p ((m.pages p).ppRef - 1)).pages p).ppRef = (m.pages p).ppRef - 1 := by simp
  have hz : ((m.pages p).ppRef - 1 = 0) ↔ (m.pages p).ppRef = 1 := by
    constructor
    · intro h; bv_omega
    · intro h; rw [h]; rfl
  simp only [hr, hz]
  split
  · rename_i h1
    have hp : p ∉ fl := fun hp => by rw [h.ref p hp] at h1; cases h1
    exact pageFree_eq (h.setRef hp _) hp (by rw [hr, h1]; rfl)
  · rfl

section dropped

variable {q : ℕ}

@[simp] theorem dropped_npages : (dropped m p).npages = m.npages := by
  unfold dropped; dsimp only; split <;> rfl
@[simp] theorem dropped_boot : (dropped m p).bootPml4e = m.bootPml4e := by
  unfold dropped; dsimp only; split <;> rfl
@[simp] theorem dropped_mem : (dropped m p).mem = m.mem := by
  unfold dropped; dsimp only; split <;> rfl
@[simp] theorem dropped_ref : ((dropped m p).pages q).ppRef =
    if q = p then (m.pages p).ppRef - 1 else (m.pages q).ppRef := by
  unfold dropped freed; dsimp only; split <;> simp

end dropped

/-- The free list after `page_decref`. -/
def dropList (m : Pmap) (fl : List ℕ) (p : ℕ) : List ℕ :=
  if (m.pages p).ppRef = 1 then p :: fl else fl

theorem mem_dropList {q : ℕ} : q ∈ dropList m fl p ↔ (q = p ∧ (m.pages p).ppRef = 1) ∨ q ∈ fl := by
  unfold dropList
  split <;> simp_all

theorem FreeOK.dropped (h : FreeOK m fl) (hp : p ∉ fl) (hlt : p < m.npages) :
    FreeOK (dropped m p) (dropList m fl p) := by
  unfold Jos.dropped dropList
  dsimp only
  split
  · rename_i h1
    exact (h.setRef hp _).freed hp hlt (by simp [h1])
  · exact h.setRef hp _

end Jos
