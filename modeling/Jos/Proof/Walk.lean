import Jos.Proof.Space

/-!
# The walk with `create`

`pml4e_walk`, `pdpe_walk` and `pgdir_walk` are one recursion over the table indices of
an address (`walkPath`). A walk that fails undoes what it made (`walkPath_failed`, from
any tables); a walk in well-formed tables fails exactly when more tables are missing
than pages are free, and otherwise makes the missing ones (`Wf.walkPath`).
-/

namespace Jos

open Lib

variable {R : Roots} {m m' m₁ m₂ : Pmap} {fl fl' fl₁ fl₂ new new₁ new₂ : List ℕ} {o o' : Owner}
variable {π π' ρ : List Idx} {t p q : ℕ} {i j d : Idx} {c : Bool} {va : VA} {r : ℕ}

/-- The walk from table `t` along the table indices `ρ` to the entry at index `d`. -/
def walkPath (d : Idx) (create : Bool) : List Idx → Pmap → ℕ → Option (Option PtePtr × Pmap)
  | [], m, t => some (some ⟨t, d⟩, m)
  | i :: ρ, m, t => walkVia (walkPath d create ρ) m t i create

/-- The table indices of an address. -/
def path (va : VA) : List Idx := [pml4 va, pdpe va, pdx va]

theorem pgdirWalk_eq : pgdirWalk m t va c = walkPath (ptx va) c [pdx va] m t := by
  unfold pgdirWalk walkPath walkVia walkPath
  split
  · rfl
  · cases kaddr m (pteAddr (m.mem t (pdx va))) <;> rfl

theorem pml4eWalk_eq : pml4eWalk m t va c = walkPath (ptx va) c (path va) m t := by
  have h1 : (fun m t => pgdirWalk m t va c) = walkPath (ptx va) c [pdx va] := by
    funext m t; exact pgdirWalk_eq
  unfold pml4eWalk pdpeWalk
  rw [h1]; rfl

/-- The number of tables that a walk finds missing. -/
def missing (m : Pmap) : ℕ → List Idx → ℕ
  | _, [] => 0
  | t, i :: ρ => if flag (m.mem t i) pteP then missing m (ppn (m.mem t i)) ρ else ρ.length + 1

/-- The state after a walk has made table `p` for the entry `i` of table `t`. -/
def linked (m : Pmap) (t : ℕ) (i : Idx) (p : ℕ) : Pmap :=
  ((taken m true p).incRef p).write t i (page2pa p ||| pteP ||| pteW ||| pteU)

section linked

@[simp] theorem linked_npages : (linked m t i p).npages = m.npages := by simp [linked]
@[simp] theorem linked_boot : (linked m t i p).bootPml4e = m.bootPml4e := by simp [linked]
@[simp] theorem linked_head : (linked m t i p).pageFreeList = (m.pages p).ppLink := by simp [linked]
@[simp] theorem linked_ref : ((linked m t i p).pages q).ppRef =
    if q = p then (m.pages p).ppRef + 1 else (m.pages q).ppRef := by simp [linked]
@[simp] theorem linked_link : ((linked m t i p).pages q).ppLink =
    if q = p then none else (m.pages q).ppLink := by simp [linked]
@[simp] theorem linked_entry :
    (linked m t i p).mem t i = page2pa p ||| pteP ||| pteW ||| pteU := by simp [linked]
theorem linked_mem (hp : q ≠ p) (h : ¬ (q = t ∧ j = i)) : (linked m t i p).mem q j = m.mem q j := by
  unfold linked
  rw [Pmap.write_mem_of_ne h, Pmap.incRef_mem, taken_mem_of_ne hp]
theorem linked_new (hp : p ≠ t) : (linked m t i p).mem p j = 0 := by
  unfold linked
  rw [Pmap.write_mem_of_ne (fun h => hp h.1), Pmap.incRef_mem, taken_mem_self]

end linked

theorem FreeOK.linked (h : FreeOK m (p :: fl)) : FreeOK (linked m t i p) fl := by
  have hp : p ∉ fl := (List.nodup_cons.1 h.nodup).1
  exact ((h.taken true).incRef hp).congr rfl rfl rfl

theorem FreeOK.lt_two (h : FreeOK m fl) (hp : p ∈ fl) : p < 2 ^ 52 := by
  have h1 := h.lt p hp
  have h2 := h.npages_le
  omega

/-! ## One level of the walk -/

section level

variable {below : Pmap → ℕ → Option (Option PtePtr × Pmap)} {x : Option PtePtr}

/-- At a present entry, or without `create`, the walk goes on in the next table. -/
theorem walkVia_present (h : (c && !flag (m.mem t i) pteP) = false) :
    walkVia below m t i c = (kaddr m (pteAddr (m.mem t i))).bind (below m) := by
  unfold walkVia; rw [h]; rfl

/-- With no page left an absent entry ends the walk. -/
theorem walkVia_nil (hf : FreeOK m []) (h : flag (m.mem t i) pteP = false) :
    walkVia below m t i true = some (none, m) := by
  unfold walkVia
  rw [h, pageAlloc_nil hf]; rfl

/-- An absent entry takes a page, and gives it back when the walk fails below it. -/
theorem walkVia_absent (hf : FreeOK m (p :: fl)) (h : flag (m.mem t i) pteP = false) :
    walkVia below m t i true = (below (linked m t i p) p).bind fun r => match r.1 with
      | some pte => some (some pte, r.2)
      | none => (pageDecref (r.2.write t i 0) p).map fun m => (none, m) := by
  have hk : kaddr (linked m t i p) (pteAddr ((linked m t i p).mem t i)) = some p := by
    have hp := ppn_link (hf.lt_two List.mem_cons_self)
    have hlt := hf.lt p List.mem_cons_self
    rw [linked_entry, kaddr_pteAddr (by rw [linked_npages]; exact hf.npages_le)
      (by rw [hp, linked_npages]; exact hlt), hp]
  unfold walkVia
  rw [h, pageAlloc_cons hf]
  change (kaddr (linked m t i p) (pteAddr ((linked m t i p).mem t i))).bind _ = _
  rw [hk]
  simp only [Option.bind_some, Option.bind_eq_bind]
  change (below (linked m t i p) p).bind _ = _
  refine congrArg (Option.bind _) (funext fun found => ?_)
  obtain ⟨x, m₁⟩ := found
  cases x with
  | some pte => rfl
  | none =>
    change (pageDecref (m₁.write t i 0) p).bind _ = _
    cases pageDecref (m₁.write t i 0) p <;> rfl

end level

/-- **Without `create`** a walk leaves the state alone, and never returns `NULL`. -/
theorem walkPath_false {x : Option PtePtr × Pmap} (h : walkPath d false ρ m t = some x) :
    ∃ q, x = (some ⟨q, d⟩, m) := by
  induction ρ generalizing t with
  | nil => cases h; exact ⟨t, rfl⟩
  | cons i ρ ih =>
    unfold walkPath at h
    rw [walkVia_present (by simp)] at h
    obtain ⟨s, -, h⟩ := Option.bind_eq_some_iff.1 h
    exact ih h

/-! ## Failure -/

/-- The state is the one before, up to the contents of free pages. -/
structure Restored (m m' : Pmap) (fl : List ℕ) : Prop where
  npages : m'.npages = m.npages
  pages : m'.pages = m.pages
  head : m'.pageFreeList = m.pageFreeList
  boot : m'.bootPml4e = m.bootPml4e
  mem : ∀ q, q ∉ fl → m'.mem q = m.mem q

theorem Restored.refl : Restored m m fl := ⟨rfl, rfl, rfl, rfl, fun _ _ => rfl⟩

/-- Along the path, the tables are not free and an absent entry is 0. -/
def Steady (m : Pmap) (fl : List ℕ) : ℕ → List Idx → Prop
  | _, [] => True
  | t, i :: ρ => t ∉ fl ∧
    if flag (m.mem t i) pteP then Steady m fl (ppn (m.mem t i)) ρ else m.mem t i = 0

/-- A table of zeros is steady. -/
theorem steady_zero (hp : p ∉ fl) (h0 : ∀ j, m.mem p j = 0) : Steady m fl p ρ := by
  cases ρ with
  | nil => trivial
  | cons i ρ => exact ⟨hp, by simp [h0 i]⟩

/-- **Unwinding.** Below a table made by the walk everything is as after making it; then
the entry is cleared and the page goes back to the head of the list. -/
theorem restored_unwind (hf : FreeOK m (p :: fl)) (ht : t ∉ p :: fl) (h0 : m.mem t i = 0)
    (h : Restored (linked m t i p) m₁ fl) (hd : pageDecref (m₁.write t i 0) p = some m') :
    Restored m m' (p :: fl) := by
  have hp : p ∉ fl := (List.nodup_cons.1 hf.nodup).1
  have hpt : p ≠ t := by rintro rfl; exact ht List.mem_cons_self
  have hr0 : (m.pages p).ppRef = 0 := hf.ref p List.mem_cons_self
  have hf₁ : FreeOK (m₁.write t i 0) fl := hf.linked.congr h.pages h.head h.npages
  have hhead : m.pageFreeList = some p := by
    have hc := hf.chain
    generalize m.pageFreeList = x at hc
    cases hc; rfl
  rw [pageDecref_eq hf₁] at hd
  obtain rfl := Option.some.inj hd
  have hr1 : ((m₁.write t i 0).pages p).ppRef = 1 := by
    rw [Pmap.write_pages, h.pages, linked_ref, if_pos rfl, hr0]; rfl
  refine ⟨by simp [h.npages], ?_, ?_, by simp [h.boot], fun q hq => ?_⟩
  · funext q
    unfold dropped freed
    rw [if_pos hr1]
    ext1
    · simp only [Pmap.setHead_pages, Pmap.setLink_link, Pmap.setRef_link, Pmap.setRef_head,
        Pmap.write_head, Pmap.write_pages, h.head, h.pages, linked_head, linked_link]
      split <;> simp_all
    · simp only [Pmap.setHead_pages, Pmap.setLink_ref, Pmap.setRef_ref, Pmap.write_pages, h.pages,
        linked_ref]
      split
      · subst q; rw [hr0]; rfl
      · rfl
  · unfold dropped freed
    rw [if_pos hr1, hhead]; rfl
  · have hqp : q ≠ p := by rintro rfl; exact hq List.mem_cons_self
    have hm := h.mem q fun h => hq (List.mem_cons_of_mem _ h)
    funext j
    rw [dropped_mem]
    by_cases hw : q = t ∧ j = i
    · obtain ⟨rfl, rfl⟩ := hw
      rw [Pmap.write_mem_self, h0]
    · rw [Pmap.write_mem_of_ne hw, hm, linked_mem hqp hw]

/-- **A walk that fails changes nothing** but the contents of free pages. -/
theorem walkPath_failed (hf : FreeOK m fl) (hs : Steady m fl t ρ)
    (h : walkPath d true ρ m t = some (none, m')) : Restored m m' fl := by
  induction ρ generalizing m m' fl t with
  | nil => cases h
  | cons i ρ ih =>
    obtain ⟨ht, hs⟩ := hs
    unfold walkPath at h
    by_cases hp : flag (m.mem t i) pteP = true
    · rw [if_pos hp] at hs
      rw [walkVia_present (by simp [hp])] at h
      obtain ⟨s, hk, h⟩ := Option.bind_eq_some_iff.1 h
      have hse : s = ppn (m.mem t i) := by
        unfold kaddr at hk
        split at hk
        · cases hk
        · rw [ppn_pteAddr] at hk; exact (Option.some.inj hk).symm
      exact ih hf (hse ▸ hs) h
    · rw [Bool.not_eq_true] at hp
      rw [if_neg (by simp [hp])] at hs
      cases fl with
      | nil => rw [walkVia_nil hf hp] at h; cases h; exact .refl
      | cons p fl =>
        have hpf : p ∉ fl := (List.nodup_cons.1 hf.nodup).1
        have hpt : p ≠ t := by rintro rfl; exact ht List.mem_cons_self
        rw [walkVia_absent hf hp] at h
        obtain ⟨⟨x, m₁⟩, h1, h2⟩ := Option.bind_eq_some_iff.1 h
        cases x with
        | some pte => cases h2
        | none =>
          obtain ⟨m₂, hd, he⟩ := Option.map_eq_some_iff.1 h2
          cases he
          exact restored_unwind hf ht hs (ih hf.linked (steady_zero hpf fun j => linked_new hpt) h1) hd

/-! ## Success -/

/-- **What a walk that succeeds does** to well-formed tables: it takes the pages `new`
from the head of the free list and makes each a table of owner `o`, counted once. -/
structure Grown (R : Roots) (o : Owner) (m : Pmap) (fl : List ℕ) (m' : Pmap)
    (fl' new : List ℕ) : Prop where
  wf : Wf R m' fl'
  list : fl = new ++ fl'
  keep : ∀ o π n, (tables R m).At o π n → (tables R m').At o π n
  only : ∀ o π n, (tables R m').At o π n → (tables R m).At o π n ∨ n ∈ new
  node : ∀ p ∈ new, ∃ π, (tables R m').At o π p
  view : view R m' = view R m
  ref : ∀ q, (m'.pages q).ppRef = if q ∈ new then 1 else (m.pages q).ppRef
  npages : m'.npages = m.npages
  boot : m'.bootPml4e = m.bootPml4e
  off : ∀ q, (∀ π, ¬ (tables R m).At o π q) → q ∉ new → m'.mem q = m.mem q
  entry : ∀ q j, (tables R m).Node q → flag (m.mem q j) pteP = true → m'.mem q j = m.mem q j

theorem Grown.refl (h : Wf R m fl) : Grown R o m fl m fl [] where
  wf := h
  list := rfl
  keep := fun _ _ _ h => h
  only := fun _ _ _ h => Or.inl h
  node := nofun
  view := rfl
  ref := fun q => by simp
  npages := rfl
  boot := rfl
  off := fun _ _ _ => rfl
  entry := fun _ _ _ _ => rfl

theorem Grown.node_keep (h : Grown R o m fl m' fl' new) (hp : (tables R m).Node p) :
    (tables R m').Node p := by
  obtain ⟨o, π, hp⟩ := hp
  exact ⟨o, π, h.keep o π p hp⟩

theorem Grown.trans (h : Grown R o m fl m₁ fl₁ new₁) (h' : Grown R o m₁ fl₁ m₂ fl₂ new₂) :
    Grown R o m fl m₂ fl₂ (new₁ ++ new₂) where
  wf := h'.wf
  list := by rw [h.list, h'.list, List.append_assoc]
  keep := fun o π n hn => h'.keep o π n (h.keep o π n hn)
  only := fun o π n hn => by
    rcases h'.only o π n hn with hn | hn
    · rcases h.only o π n hn with hn | hn
      · exact Or.inl hn
      · exact Or.inr (List.mem_append_left _ hn)
    · exact Or.inr (List.mem_append_right _ hn)
  node := fun p hp => by
    rcases List.mem_append.1 hp with hp | hp
    · obtain ⟨π, hp⟩ := h.node p hp
      exact ⟨π, h'.keep o π p hp⟩
    · exact h'.node p hp
  view := h'.view.trans h.view
  ref := fun q => by
    rw [h'.ref, h.ref]
    by_cases h2 : q ∈ new₂
    · simp [h2]
    · simp [h2]
  npages := h'.npages.trans h.npages
  boot := h'.boot.trans h.boot
  off := fun q hq hn => by
    rw [List.mem_append, not_or] at hn
    rw [h'.off q (fun π hk => ?_) hn.2, h.off q hq hn.1]
    rcases h.only o π q hk with hk | hk
    · exact hq π hk
    · exact hn.1 hk
  entry := fun q j hq hj => by
    have h1 := h.entry q j hq hj
    rw [h'.entry q j (h.node_keep hq) (by rw [h1]; exact hj), h1]

/-- **One table is made.** -/
theorem Wf.grow (h : Wf R m (p :: fl)) (ht : (tables R m).At o π t) (hd : inTree o (π ++ [i]))
    (h0 : flag (m.mem t i) pteP = false) : Grown R o m (p :: fl) (linked m t i p) fl [p] ∧
      (tables R (linked m t i p)).At o (π ++ [i]) p ∧ ∀ j, (linked m t i p).mem p j = 0 := by
  have hp : ¬ (tables R m).Node p := h.free_node p List.mem_cons_self
  have hpf : p ∉ fl := (List.nodup_cons.1 h.free.nodup).1
  have hpt : p ≠ t := by rintro rfl; exact hp ht.node
  have hlt : p < 2 ^ 52 := h.free.lt_two List.mem_cons_self
  have hne : ∀ {q}, (tables R m).Node q → q ≠ p := fun hq e => hp (e ▸ hq)
  have hm : ∀ q, (tables R m).Node q → ∀ j, ¬ (q = t ∧ j = i) →
      (linked m t i p).mem q j = m.mem q j := fun q hq j hj => linked_mem (hne hq) hj
  have hz : ∀ j, (linked m t i p).mem p j = 0 := fun j => linked_new hpt
  have h1 : flag ((linked m t i p).mem t i) pteP = true := by rw [linked_entry]; exact flag_link p
  have h2 : ppn ((linked m t i p).mem t i) = p := by rw [linked_entry]; exact ppn_link hlt
  have hat : ∀ o' π' q, (tables R (linked m t i p)).At o' π' q ↔
      (tables R m).At o' π' q ∨ (o' = o ∧ π' = π ++ [i] ∧ q = p) :=
    fun o' π' q => at_link h.unshared ht hd h0 hm hz h1 h2
  have hview : Jos.view R (linked m t i p) = Jos.view R m :=
    view_link h.unshared ht hd h0 hm hz h1 h2
  have hnode : ∀ q, (tables R (linked m t i p)).Node q → (tables R m).Node q ∨ q = p := by
    rintro q ⟨o', π', hq⟩
    rcases (hat o' π' q).1 hq with hq | ⟨-, -, hq⟩
    · exact Or.inl hq.node
    · exact Or.inr hq
  have hnew : (tables R (linked m t i p)).At o (π ++ [i]) p := (hat _ _ _).2 (Or.inr ⟨rfl, rfl, rfl⟩)
  have href : ∀ q, ((linked m t i p).pages q).ppRef = if q = p then 1 else (m.pages q).ppRef := by
    intro q
    rw [linked_ref, h.free.ref p List.mem_cons_self]; rfl
  -- the entry that is made is no entry of a PML4 above the slot of its tree
  have hroot : ∀ {e r} {k : Idx}, R (.env e) = some r → k ≠ 0 →
      (linked m t i p).mem r k = m.mem r k := by
    intro e r k hr hk
    refine hm r (root_at hr).node k ?_
    rintro ⟨rfl, rfl⟩
    obtain ⟨rfl, rfl⟩ := h.unshared (root_at hr) ht
    exact hk (inTree_one.1 hd)
  have hboot : (linked m t i p).mem m.bootPml4e 1 = m.mem m.bootPml4e 1 := by
    refine hm _ (root_at h.kern).node 1 ?_
    rintro ⟨rfl, rfl⟩
    rw [h.kern_link.1] at h0; cases h0
  refine ⟨⟨⟨h.free.linked, ?_, ?_, ?_, ?_, ?_, h.kern, ?_, ?_, ?_⟩, rfl, ?_, ?_, ?_, hview, ?_,
    linked_npages, linked_boot, ?_, ?_⟩, hnew, hz⟩
  · intro q hq hn
    rcases hnode q hn with hn | rfl
    · exact h.free_node q (List.mem_cons_of_mem _ hq) hn
    · exact hpf hq
  · exact h.unshared.insert hp fun o' π' n hn => (hat o' π' n).1 hn
  · intro q hq
    rw [linked_npages]
    rcases hnode q hq with hq | rfl
    · exact h.node_lt q hq
    · exact h.free.lt _ List.mem_cons_self
  · intro o' π' q hq hne'
    rw [href]
    rcases (hat o' π' q).1 hq with hq | ⟨-, -, rfl⟩
    · rw [if_neg (hne hq.node)]; exact h.node_ref o' π' q hq hne'
    · rw [if_pos rfl]
  · intro q hq k hk
    rcases hnode q hq with hq | rfl
    · by_cases hw : q = t ∧ k = i
      · obtain ⟨rfl, rfl⟩ := hw
        rw [h1] at hk; cases hk
      · rw [hm q hq k hw] at hk ⊢; exact h.clean q hq k hk
    · exact hz k
  · obtain ⟨s, hs⟩ := h.spine
    exact ⟨s, (hat _ _ _).2 (Or.inl hs)⟩
  · intro e r hr
    obtain ⟨h3, h4, h5⟩ := h.top e r hr
    rw [linked_boot, hboot, hroot hr (by decide), hroot hr (by decide)]
    refine ⟨h3, h4, fun k hk => ?_⟩
    rw [hroot hr (by rintro rfl; simp at hk), h5 k hk]
  · intro s e hs he
    rw [hview] at he
    obtain ⟨h3, h4, h5⟩ := h.leaf s e hs he
    rw [List.mem_cons, not_or] at h4
    refine ⟨by rw [linked_npages]; exact h3, h4.2, fun hn => ?_⟩
    rcases hnode _ hn with hn | hn
    · exact h5 hn
    · exact h4.1 hn
  · exact fun o' π' n hn => (hat _ _ _).2 (Or.inl hn)
  · intro o' π' n hn
    rcases (hat _ _ _).1 hn with hn | ⟨-, -, hn⟩
    · exact Or.inl hn
    · exact Or.inr (List.mem_singleton.2 hn)
  · intro q hq
    rw [List.mem_singleton.1 hq]; exact ⟨_, hnew⟩
  · intro q
    rw [href]; simp
  · intro q hq hqp
    funext k
    exact linked_mem (by simpa using hqp) fun hw => hq π (hw.1 ▸ ht)
  · intro q k hq hk
    refine hm q hq k ?_
    rintro ⟨rfl, rfl⟩
    rw [h0] at hk; cases hk

/-- A walk stays in the trees: its path from a node counts. -/
theorem inTree_snoc (h : inTree o (π ++ i :: ρ)) : inTree o (π ++ [i]) := by
  obtain ⟨h1, h2⟩ := h
  refine ⟨by simp at h1 ⊢; omega, fun j hj => h2 j ?_⟩
  cases π with
  | nil => exact hj
  | cons a π => exact hj

/-- Nothing is made on a path that exists. -/
theorem Wf.walkPath_at (h : Wf R m fl) (ht : (tables R m).At o π t) (hq : (tables R m).At o (π ++ ρ) q) :
    walkPath d c ρ m t = some (some ⟨q, d⟩, m) := by
  induction ρ generalizing π t with
  | nil =>
    rw [List.append_nil] at hq
    rw [ht.det hq]; rfl
  | cons i ρ ih =>
    have hd : inTree o (π ++ [i]) := inTree_snoc hq.1
    have hq' : (tables R m).At o ((π ++ [i]) ++ ρ) q := by simpa using hq
    obtain ⟨s, hs⟩ : ∃ s, (tables R m).At o (π ++ [i]) s := hq'.prefix
    obtain ⟨-, t', ht', hn⟩ := Forest.at_append.1 hs
    rw [ht'.det ht] at hn
    obtain ⟨h1, h2⟩ := next_eq_some.1 hn
    have hlt : ppn (m.mem t i) < m.npages := by rw [h2]; exact h.node_lt s hs.node
    unfold walkPath
    rw [walkVia_present (by simp [h1]), kaddr_pteAddr h.npages_le hlt, h2]
    exact ih hs hq'

/-- The path exists exactly when no table is missing. -/
theorem missing_eq_zero (ht : (tables R m).At o π t) (hd : inTree o (π ++ ρ)) :
    missing m t ρ = 0 ↔ ∃ q, (tables R m).At o (π ++ ρ) q := by
  induction ρ generalizing π t with
  | nil => simp only [missing, List.append_nil, true_iff]; exact ⟨t, ht⟩
  | cons i ρ ih =>
    have hd' : inTree o ((π ++ [i]) ++ ρ) := by simpa using hd
    unfold missing
    split
    · rename_i hp
      rw [ih (child_at ht (inTree_snoc hd) hp) hd', List.append_assoc, List.singleton_append]
    · rename_i hp
      refine ⟨fun h => by omega, fun ⟨q, hq⟩ => ?_⟩
      have hq' : (tables R m).At o ((π ++ [i]) ++ ρ) q := by simpa using hq
      obtain ⟨s, hs⟩ := hq'.prefix
      obtain ⟨-, t', ht', hn⟩ := Forest.at_append.1 hs
      rw [ht'.det ht] at hn
      exact absurd (next_eq_some.1 hn).1 hp

/-- Nodes are steady. -/
theorem Wf.steady (h : Wf R m fl) (ht : (tables R m).At o π t) (hd : inTree o (π ++ ρ)) :
    Steady m fl t ρ := by
  induction ρ generalizing π t with
  | nil => trivial
  | cons i ρ ih =>
    refine ⟨fun hf => h.free_node t hf ht.node, ?_⟩
    split
    · rename_i hp
      exact ih (child_at ht (inTree_snoc hd) hp) (by simpa using hd)
    · rename_i hp
      exact h.clean t ht.node i (by simpa using hp)

/-- All tables below a table of zeros are missing. -/
theorem missing_zero (h0 : ∀ j, m.mem p j = 0) : missing m p ρ = ρ.length := by
  cases ρ with
  | nil => rfl
  | cons i ρ => simp [missing, h0 i]

/-- **A walk with enough free pages** makes the missing tables. -/
theorem Wf.walkPath (h : Wf R m fl) (ht : (tables R m).At o π t) (hd : inTree o (π ++ ρ))
    (hm : missing m t ρ ≤ fl.length) : ∃ m' q, Jos.walkPath d true ρ m t = some (some ⟨q, d⟩, m') ∧
      Grown R o m fl m' (fl.drop (missing m t ρ)) (fl.take (missing m t ρ)) ∧
      (tables R m').At o (π ++ ρ) q := by
  induction ρ generalizing m fl π t with
  | nil => exact ⟨m, t, rfl, .refl h, by rw [List.append_nil]; exact ht⟩
  | cons i ρ ih =>
    have hdi : inTree o (π ++ [i]) := inTree_snoc hd
    have hd' : inTree o ((π ++ [i]) ++ ρ) := by simpa using hd
    by_cases hp : flag (m.mem t i) pteP = true
    · have hc := child_at ht hdi hp
      have hms : missing m t (i :: ρ) = missing m (ppn (m.mem t i)) ρ := by simp [missing, hp]
      rw [hms] at hm ⊢
      obtain ⟨m', q, h1, h2, h3⟩ := ih h hc hd' hm
      refine ⟨m', q, ?_, h2, by simpa using h3⟩
      unfold Jos.walkPath
      rw [walkVia_present (by simp [hp]), kaddr_pteAddr h.npages_le (h.node_lt _ hc.node)]
      exact h1
    · rw [Bool.not_eq_true] at hp
      have hms : missing m t (i :: ρ) = ρ.length + 1 := by simp [missing, hp]
      rw [hms] at hm ⊢
      cases fl with
      | nil => simp at hm
      | cons p fl =>
        obtain ⟨hg, hat, hz⟩ := h.grow ht hdi hp
        have hmz := missing_zero (ρ := ρ) hz
        rw [List.length_cons] at hm
        obtain ⟨m', q, h1, h2, h3⟩ := ih hg.wf hat hd' (by omega)
        rw [hmz] at h2
        refine ⟨m', q, ?_, by simpa using hg.trans h2, by simpa using h3⟩
        unfold Jos.walkPath
        rw [walkVia_absent h.free hp, h1]; rfl

/-- **A walk without enough free pages** fails. -/
theorem Wf.walkPath_short (h : Wf R m fl) (ht : (tables R m).At o π t) (hd : inTree o (π ++ ρ))
    (hm : fl.length < missing m t ρ) : ∃ m', Jos.walkPath d true ρ m t = some (none, m') := by
  induction ρ generalizing m fl π t with
  | nil => simp [missing] at hm
  | cons i ρ ih =>
    have hdi : inTree o (π ++ [i]) := inTree_snoc hd
    have hd' : inTree o ((π ++ [i]) ++ ρ) := by simpa using hd
    by_cases hp : flag (m.mem t i) pteP = true
    · have hc := child_at ht hdi hp
      have hms : missing m t (i :: ρ) = missing m (ppn (m.mem t i)) ρ := by simp [missing, hp]
      obtain ⟨m', h1⟩ := ih h hc hd' (by omega)
      refine ⟨m', ?_⟩
      unfold Jos.walkPath
      rw [walkVia_present (by simp [hp]), kaddr_pteAddr h.npages_le (h.node_lt _ hc.node)]
      exact h1
    · rw [Bool.not_eq_true] at hp
      have hms : missing m t (i :: ρ) = ρ.length + 1 := by simp [missing, hp]
      unfold Jos.walkPath
      cases fl with
      | nil => exact ⟨m, walkVia_nil h.free hp⟩
      | cons p fl =>
        obtain ⟨hg, hat, hz⟩ := h.grow ht hdi hp
        have hmz := missing_zero (ρ := ρ) hz
        rw [List.length_cons] at hm
        obtain ⟨m', h1⟩ := ih hg.wf hat hd' (by omega)
        have hr := walkPath_failed hg.wf.free (hg.wf.steady hat hd') h1
        have hf : FreeOK (m'.write t i 0) fl := h.free.linked.congr hr.pages hr.head hr.npages
        refine ⟨dropped (m'.write t i 0) p, ?_⟩
        rw [walkVia_absent h.free hp, h1]
        simp only [Option.bind_some]
        rw [pageDecref_eq hf]; rfl

/-! ## Addresses below `UTOP` -/

theorem user_vpn {e : EnvIdx} (h : va < utop) : User (ownerOf e va, vpn va) := by
  unfold ownerOf
  rcases below_utop h with h | ⟨h, h1, h2⟩
  · rw [if_pos h]; trivial
  · rw [if_neg (by rw [h]; decide)]
    exact ⟨h1, h2⟩

/-- An address below `UTOP` is in the slot of its owner. -/
theorem slot_ownerOf {e : EnvIdx} (h : va < utop) : pml4 va = slot (ownerOf e va) := by
  unfold ownerOf
  rcases below_utop h with h | ⟨h, -⟩
  · rw [if_pos h, h]; rfl
  · rw [if_neg (by rw [h]; decide), h]; rfl

/-- The path of an address below `UTOP` counts in the tree of its owner. -/
theorem inTree_path {e : EnvIdx} (h : va < utop) : inTree (ownerOf e va) (path va) :=
  inTree_leaf.2 (slot_ownerOf h)

/-- **The two halves.** From the PML4 of an environment the walk of an address in one of
the two slots is the walk from the root of the tree that owns the address. -/
theorem Wf.owner_root (h : Wf R m fl) {e : EnvIdx} (hr : R (.env e) = some r)
    (hs : pml4 va = slot (ownerOf e va)) :
    ∃ s, R (ownerOf e va) = some s ∧ m.mem r (pml4 va) = m.mem s (pml4 va) := by
  by_cases h4 : pml4 va = 0
  · have ho : ownerOf e va = .env e := if_pos h4
    exact ⟨r, by rw [ho]; exact hr, rfl⟩
  · have ho : ownerOf e va = .kern := if_neg h4
    rw [ho] at hs ⊢
    exact ⟨m.bootPml4e, h.kern, by rw [hs]; exact (h.top e r hr).1⟩

theorem walkVia_congr {below : Pmap → ℕ → Option (Option PtePtr × Pmap)} {s : ℕ}
    (h : m.mem r i = m.mem s i) (hp : flag (m.mem s i) pteP = true) :
    walkVia below m r i c = walkVia below m s i c := by
  rw [walkVia_present (by simp [h, hp]), walkVia_present (by simp [hp]), h]

/-- The walk of an address as a walk in the tree that owns it. -/
theorem Wf.pml4eWalk_owner (h : Wf R m fl) {e : EnvIdx} (hr : R (.env e) = some r)
    (hva : va < utop) : ∃ s, (tables R m).At (ownerOf e va) [] s ∧
      pml4eWalk m r va c = Jos.walkPath (ptx va) c (path va) m s ∧
      missing m r (path va) = missing m s (path va) := by
  obtain ⟨s, hs, hm⟩ := h.owner_root hr (slot_ownerOf hva)
  refine ⟨s, root_at hs, ?_, ?_⟩
  · rw [pml4eWalk_eq]
    by_cases hrs : r = s
    · rw [hrs]
    · have h4 : pml4 va ≠ 0 := by
        intro h4
        unfold ownerOf at hs
        rw [if_pos h4, hr] at hs
        exact hrs (Option.some.inj hs)
      have h4 : pml4 va = 1 := by
        rcases below_utop hva with h5 | ⟨h5, -⟩
        · exact absurd h5 h4
        · exact h5
      have hb : s = m.bootPml4e := by
        unfold ownerOf at hs
        rw [if_neg (by rw [h4]; decide), h.kern] at hs
        exact (Option.some.inj hs).symm
      have hp : flag (m.mem s (pml4 va)) pteP = true := by rw [hb, h4]; exact h.kern_link.1
      exact walkVia_congr hm hp
  · unfold path missing
    rw [hm]

/-- The leaf entry of an address in one of the two slots is in the view of its owner. -/
theorem Wf.leafEntry_slot (h : Wf R m fl) {e : EnvIdx} (hr : R (.env e) = some r)
    (hs : pml4 va = slot (ownerOf e va)) : leafEntry m r va = view R m (ownerOf e va, vpn va) := by
  obtain ⟨s, hs', hm⟩ := h.owner_root hr hs
  have hv : view R m (ownerOf e va, vpn va) = leafFrom m (some s) (vpn va) := by
    unfold view
    exact (if_pos hs).trans (by rw [hs'])
  rw [leafEntry_eq, hv]
  unfold leafFrom vpn descend
  simp only [List.foldl_cons, Option.bind_some, next, hm]

theorem Wf.leafEntry_view (h : Wf R m fl) {e : EnvIdx} (hr : R (.env e) = some r)
    (hva : va < utop) : leafEntry m r va = view R m (ownerOf e va, vpn va) :=
  h.leafEntry_slot hr (slot_ownerOf hva)

/-- The number of tables that are missing for `va`. -/
def missingTables (m : Pmap) (r : ℕ) (va : VA) : ℕ := missing m r (path va)

/-- **`pml4e_walk` with `create`**, for an address below `UTOP` of an environment, when
there are enough free pages. -/
theorem Wf.pml4eWalk (h : Wf R m fl) {e : EnvIdx} (hr : R (.env e) = some r) (hva : va < utop)
    (hm : missingTables m r va ≤ fl.length) : ∃ m' q,
      Jos.pml4eWalk m r va true = some (some ⟨q, ptx va⟩, m') ∧
      Grown R (ownerOf e va) m fl m' (fl.drop (missingTables m r va))
        (fl.take (missingTables m r va)) ∧
      (tables R m').At (ownerOf e va) (path va) q := by
  obtain ⟨s, hs, hw, hms⟩ := h.pml4eWalk_owner hr hva
  unfold missingTables at hm ⊢
  rw [hms] at hm ⊢
  rw [hw]
  exact h.walkPath hs (inTree_path hva) hm

/-- **`pml4e_walk` with `create`** when there are not. -/
theorem Wf.pml4eWalk_short (h : Wf R m fl) {e : EnvIdx} (hr : R (.env e) = some r) (hva : va < utop)
    (hm : fl.length < missingTables m r va) :
    ∃ m', Jos.pml4eWalk m r va true = some (none, m') ∧ Restored m m' fl := by
  obtain ⟨s, hs, hw, hms⟩ := h.pml4eWalk_owner hr hva
  unfold missingTables at hm
  rw [hms] at hm
  obtain ⟨m', h1⟩ := h.walkPath_short hs (inTree_path hva) hm
  exact ⟨m', hw.trans h1, walkPath_failed h.free (h.steady hs (inTree_path hva)) h1⟩

/-- `pml4e_walk` of an address whose tables exist. -/
theorem Wf.pml4eWalk_at (h : Wf R m fl) {e : EnvIdx} (hr : R (.env e) = some r) (hva : va < utop)
    (hq : (tables R m).At (ownerOf e va) (path va) q) :
    Jos.pml4eWalk m r va c = some (some ⟨q, ptx va⟩, m) := by
  obtain ⟨s, hs, hw, -⟩ := h.pml4eWalk_owner (c := c) hr hva
  rw [hw]
  exact h.walkPath_at hs hq

theorem Wf.missingTables_eq_zero (h : Wf R m fl) {e : EnvIdx} (hr : R (.env e) = some r)
    (hva : va < utop) : missingTables m r va = 0 ↔ ∃ q, (tables R m).At (ownerOf e va) (path va) q := by
  obtain ⟨s, hs, -, hms⟩ := h.pml4eWalk_owner (c := true) hr hva
  unfold missingTables
  rw [hms]
  exact missing_eq_zero hs (inTree_path hva)

/-- Restoring a state keeps it well-formed. -/
theorem Wf.restored (h : Wf R m fl) (hr : Restored m m' fl) : Wf R m' fl ∧
    (∀ o π n, (tables R m').At o π n ↔ (tables R m).At o π n) ∧ view R m' = view R m := by
  have hm : ∀ t, (tables R m).Node t → m'.mem t = m.mem t :=
    fun t ht => hr.mem t fun hf => h.free_node t hf ht
  exact h.of_off hm (h.free.congr hr.pages hr.head hr.npages) (fun _ h => h) hr.npages hr.boot
    fun p _ => by rw [hr.pages]

end Jos
