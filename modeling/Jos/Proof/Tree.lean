import Jos.Proof.Walk

/-!
# The page-table tree of one root

`pml4e_walk` with `create`, for any root and any address. The tables that a PML4 links to through
the slots `S` are a tree; the other slots may hold anything (an environment links its PML4 to
itself for `UVPT`). `TreeOk` says that these tables are apart from each other and from the free
list, and that absent entries above the leaves are 0.

`TreeOk.walkPath` is what a walk leaves that has enough free pages (`Extended`): the tables that
it makes hold nothing but entries of the walk, all other words are as before, and every address
translates as before. A walk without enough pages changes nothing (`TreeOk.walkPath_short`).
-/

namespace Jos

open Lib

variable {S : Set Idx} {m m' m₁ m₂ : Pmap} {fl fl' fl₁ fl₂ new new₁ new₂ : List ℕ}
variable {π π' ρ : List Idx} {r s t p q : ℕ} {i j d a b c : Idx} {va va₁ : VA} {e : PTE}
variable {w w' w₁ w₂ : List (ℕ × Idx)}

/-! ## Tables at paths -/

/-- A path to a table: at most three links, the first from one of the slots. -/
def InSlots (S : Set Idx) (π : List Idx) : Prop := π.length ≤ 3 ∧ ∀ i ∈ π.head?, i ∈ S

/-- The tables below the PML4 in page `r`. -/
def pageTree (S : Set Idx) (r : ℕ) (m : Pmap) : Forest Unit ℕ Idx where
  root := fun _ => some r
  next := next m
  dom := fun _ => InSlots S
  dom_nil := fun _ => ⟨Nat.zero_le _, nofun⟩
  dom_init := by
    rintro - π i ⟨h1, h2⟩
    refine ⟨by simp at h1; omega, fun j hj => h2 j ?_⟩
    cases π with
    | nil => cases hj
    | cons a π => exact hj

/-- Table `t` is at path `π` from `r`. -/
abbrev TableAt (S : Set Idx) (r : ℕ) (m : Pmap) (π : List Idx) (t : ℕ) : Prop :=
  (pageTree S r m).At () π t

/-- **Well-formedness** of the tables below `r`, with the free list `fl`. -/
structure TreeOk (S : Set Idx) (r : ℕ) (m : Pmap) (fl : List ℕ) : Prop where
  free : FreeOK m fl
  unshared : ∀ π π' t, TableAt S r m π t → TableAt S r m π' t → π = π'
  notFree : ∀ π t, TableAt S r m π t → t ∉ fl
  lt : ∀ π t, TableAt S r m π t → t < m.npages
  clean : ∀ π t i, TableAt S r m π t → InSlots S (π ++ [i]) → flag (m.mem t i) pteP = false →
    m.mem t i = 0

theorem inSlots_path (h : pml4 va ∈ S) : InSlots S (path va) := by
  refine ⟨le_rfl, fun i hi => ?_⟩
  cases hi
  exact h

theorem inSlots_snoc (h : InSlots S (π ++ i :: ρ)) : InSlots S (π ++ [i]) := by
  obtain ⟨h1, h2⟩ := h
  refine ⟨by simp at h1 ⊢; omega, fun j hj => h2 j ?_⟩
  cases π with
  | nil => exact hj
  | cons a π => exact hj

theorem tableAt_root : TableAt S r m [] r := Forest.at_nil.2 rfl

/-- The table that a present entry links to. -/
theorem tableAt_child (h : TableAt S r m π t) (hd : InSlots S (π ++ [i]))
    (hp : flag (m.mem t i) pteP = true) : TableAt S r m (π ++ [i]) (ppn (m.mem t i)) :=
  h.child hd (next_eq_some.2 ⟨hp, rfl⟩)

theorem TreeOk.forest_unshared (h : TreeOk S r m fl) : (pageTree S r m).Unshared :=
  fun _ _ _ _ _ h1 h2 => ⟨rfl, h.unshared _ _ _ h1 h2⟩

/-! ## Translations -/

/-- The four table indices of an address. -/
def indices (va : VA) : List Idx := path va ++ [ptx va]

/-- The entries that a walk from table `t` meets, if all of them are present. -/
def presentEntries (m : Pmap) : ℕ → List Idx → Option (List PTE)
  | _, [] => some []
  | t, i :: ρ => (presentAt m t i).bind fun e => (presentEntries m (ppn e) ρ).map (e :: ·)

/-- The translation that four entries make. -/
def Translation.ofEntries : List PTE → Option Translation
  | [e4, e3, e2, e1] => some
      { pte := e1
        writeable := flag e4 pteW && flag e3 pteW && flag e2 pteW && flag e1 pteW
        user := flag e4 pteU && flag e3 pteU && flag e2 pteU && flag e1 pteU }
  | _ => none

theorem translate_eq : translate m r va = (presentEntries m r (indices va)).bind Translation.ofEntries := by
  have h1 : indices va = [pml4 va, pdpe va, pdx va, ptx va] := rfl
  simp only [h1, translate, presentEntries, Option.bind_eq_bind]
  cases presentAt m r (pml4 va) with
  | none => simp only [Option.bind_none]
  | some e4 =>
    simp only [Option.bind_some]
    cases presentAt m (ppn e4) (pdpe va) with
    | none => simp only [Option.bind_none, Option.map_none]
    | some e3 =>
      simp only [Option.bind_some]
      cases presentAt m (ppn e3) (pdx va) with
      | none => simp only [Option.bind_none, Option.map_none]
      | some e2 =>
        simp only [Option.bind_some]
        cases presentAt m (ppn e2) (ptx va) with
        | none => simp only [Option.bind_none, Option.map_none]
        | some e1 => rfl

theorem translate_of_entries (h : presentEntries m' r (indices va) = presentEntries m r (indices va)) :
    translate m' r va = translate m r va := by rw [translate_eq, translate_eq, h]

/-- The addresses of one page. -/
theorem vpn_page (h : va.toNat / 4096 = va₁.toNat / 4096) : vpn va = vpn va₁ := by
  simp only [vpn, Prod.mk.injEq, pml4, pdpe, pdx, ptx, Fin.ext_iff, field_val]
  omega

theorem indices_vpn (h : vpn va = vpn va₁) : indices va = indices va₁ := by
  simp only [vpn, Prod.mk.injEq] at h
  simp only [indices, path, h.1, h.2.1, h.2.2.1, h.2.2.2]

theorem translate_vpn (h : vpn va = vpn va₁) : translate m r va = translate m r va₁ := by
  rw [translate_eq, translate_eq, indices_vpn h]

/-- **Linking an empty table** to an absent entry makes no walk of four entries complete. -/
theorem TreeOk.entries_linked (h : TreeOk S r m (p :: fl)) (ht : TableAt S r m π t) (hd : InSlots S (π ++ [i]))
    (h0 : flag (m.mem t i) pteP = false) (hs : TableAt S r m π' s) (hl : π'.length + ρ.length = 4)
    (hr : ∀ x ∈ (π' ++ ρ).head?, x ∈ S) :
    presentEntries (linked m t i p) s ρ = presentEntries m s ρ := by
  have hp : ∀ {π s}, TableAt S r m π s → s ≠ p := by
    rintro π s hs rfl
    exact h.notFree _ _ hs List.mem_cons_self
  induction ρ generalizing π' s with
  | nil => rfl
  | cons k ρ ih =>
    unfold presentEntries
    by_cases hw : s = t ∧ k = i
    · -- the walk now meets the new table, which is empty
      obtain ⟨rfl, rfl⟩ := hw
      obtain rfl := h.unshared _ _ _ hs ht
      have h1 : presentAt m s k = none := by
        unfold presentAt
        rw [h0]
        rfl
      rw [h1]
      obtain ⟨k', ρ', rfl⟩ : ∃ k' ρ', ρ = k' :: ρ' := by
        have h2 : π'.length + 1 ≤ 3 := by simpa using hd.1
        rw [List.length_cons] at hl
        cases ρ with
        | nil =>
          rw [List.length_nil] at hl
          omega
        | cons k' ρ' => exact ⟨k', ρ', rfl⟩
      have h2 : presentAt (linked m s k p) s k = some (page2pa p ||| pteP ||| pteW ||| pteU) :=
        presentAt_eq_some.2 ⟨linked_entry, flag_link p⟩
      have h3 : presentAt (linked m s k p) p k' = none := by
        unfold presentAt
        rw [linked_new (hp hs).symm]
        rfl
      rw [h2, Option.bind_some, ppn_link (h.free.lt_two List.mem_cons_self)]
      unfold presentEntries
      rw [h3]
      rfl
    · have h1 : presentAt (linked m t i p) s k = presentAt m s k := by
        unfold presentAt
        rw [linked_mem (hp hs) hw]
      rw [h1]
      cases he : presentAt m s k with
      | none => rfl
      | some e =>
        obtain ⟨rfl, hf⟩ := presentAt_eq_some.1 he
        rw [Option.bind_some, Option.bind_some]
        cases ρ with
        | nil => rfl
        | cons k' ρ' =>
          have h2 : InSlots S (π' ++ [k]) := by
            rw [List.length_cons, List.length_cons] at hl
            refine ⟨by rw [List.length_append, List.length_singleton]; omega, fun x hx => hr x ?_⟩
            cases π' with
            | nil => exact hx
            | cons y π' => exact hx
          rw [ih (tableAt_child hs h2 hf) (by rw [List.length_append, List.length_singleton]; simp at hl ⊢; omega)
            (by simpa using hr)]

/-- **Frame.** A walk is as before if the words that it meets are. -/
theorem entries_frame {full : List Idx} (hl : full.length = 4) (hr : ∀ x ∈ full.head?, x ∈ S)
    (hm : ∀ π t i ρ, TableAt S r m π t → full = π ++ i :: ρ → m'.mem t i = m.mem t i)
    (hs : TableAt S r m π s) (hf : full = π ++ ρ) : presentEntries m' s ρ = presentEntries m s ρ := by
  induction ρ generalizing π s with
  | nil => rfl
  | cons k ρ ih =>
    unfold presentEntries
    have h1 : presentAt m' s k = presentAt m s k := by
      unfold presentAt
      rw [hm π s k ρ hs hf]
    rw [h1]
    cases he : presentAt m s k with
    | none => rfl
    | some e =>
      obtain ⟨rfl, hp⟩ := presentAt_eq_some.1 he
      rw [Option.bind_some, Option.bind_some]
      cases ρ with
      | nil => rfl
      | cons k' ρ' =>
        subst hf
        have h2 : InSlots S (π ++ [k]) := by
          refine ⟨?_, fun x hx => hr x ?_⟩
          · rw [List.length_append, List.length_cons, List.length_cons] at hl
            rw [List.length_append, List.length_singleton]
            omega
          · cases π with
            | nil => exact hx
            | cons y π => exact hx
        rw [ih (tableAt_child hs h2 hp) (by simp)]

theorem translate_frame (hva : pml4 va ∈ S)
    (hm : ∀ π t i ρ, TableAt S r m π t → indices va = π ++ i :: ρ → m'.mem t i = m.mem t i) :
    translate m' r va = translate m r va := by
  refine translate_of_entries (entries_frame (S := S) rfl (fun x hx => ?_) hm tableAt_root rfl)
  cases hx
  exact hva

/-! ## The last table -/

theorem leafEntry_at (hq : TableAt S r m (path va) q) : leafEntry m r va = presentAt m q (ptx va) := by
  rw [leafEntry_eq]
  unfold leafFrom vpn
  have h1 : descend (next m) (some r) [pml4 va, pdpe va, pdx va] = some q := hq.2
  simp only [h1, Option.bind_some]

/-- The path exists exactly when no table is missing. -/
theorem missing_eq_zero_iff (ht : TableAt S r m π t) (hd : InSlots S (π ++ ρ)) :
    missing m t ρ = 0 ↔ ∃ q, TableAt S r m (π ++ ρ) q := by
  induction ρ generalizing π t with
  | nil =>
    simp only [missing, List.append_nil, true_iff]
    exact ⟨t, ht⟩
  | cons i ρ ih =>
    have hd' : InSlots S ((π ++ [i]) ++ ρ) := by simpa using hd
    unfold missing
    split
    · rename_i hp
      rw [ih (tableAt_child ht (inSlots_snoc hd) hp) hd', List.append_assoc, List.singleton_append]
    · rename_i hp
      refine ⟨fun h => by omega, ?_⟩
      rintro ⟨q, hq⟩
      have hq' : TableAt S r m ((π ++ [i]) ++ ρ) q := by simpa using hq
      obtain ⟨s, hs⟩ := hq'.prefix
      obtain ⟨-, t', ht', hn⟩ := Forest.at_append.1 hs
      rw [ht'.det ht] at hn
      exact absurd (next_eq_some.1 hn).1 hp

theorem missing_frame (hm : ∀ π t, TableAt S r m π t → m'.mem t = m.mem t) (ht : TableAt S r m π t)
    (hd : InSlots S (π ++ ρ)) : missing m' t ρ = missing m t ρ := by
  induction ρ generalizing π t with
  | nil => rfl
  | cons i ρ ih =>
    unfold missing
    rw [hm π t ht]
    split
    · rename_i hp
      exact ih (tableAt_child ht (inSlots_snoc hd) hp) (by simpa using hd)
    · rfl

theorem missingTables_eq_zero (hva : pml4 va ∈ S) :
    missingTables m r va = 0 ↔ ∃ q, TableAt S r m (path va) q :=
  missing_eq_zero_iff tableAt_root (inSlots_path hva)

/-- An address whose tables are not all there has no leaf entry. -/
theorem leafEntry_missing (h : missingTables m r va ≠ 0) : leafEntry m r va = none := by
  cases hv : leafEntry m r va with
  | none => rfl
  | some v =>
    rw [leafEntry_eq] at hv
    obtain ⟨t, ht, -⟩ := Option.bind_eq_some_iff.1 hv
    refine absurd ((missingTables_eq_zero (S := Set.univ) (Set.mem_univ _)).2 ⟨t, ⟨?_, ht⟩⟩) h
    exact inSlots_path (Set.mem_univ _)

/-! ## Changes that keep the tree -/

/-- **A change off the tables** keeps the tree and every translation. -/
theorem TreeOk.off (h : TreeOk S r m fl) (hm : ∀ π t, TableAt S r m π t → m'.mem t = m.mem t)
    (hf : FreeOK m' fl') (hn : ∀ π t, TableAt S r m π t → t ∉ fl') (hp : m'.npages = m.npages) :
    TreeOk S r m' fl' ∧ (∀ π n, TableAt S r m' π n ↔ TableAt S r m π n) ∧
      ∀ va, pml4 va ∈ S → translate m' r va = translate m r va := by
  have hat : ∀ π n, TableAt S r m' π n ↔ TableAt S r m π n := fun π n =>
    Forest.frame (F := pageTree S r m) (G := pageTree S r m') rfl rfl fun o π i t ht _ => by
      simp only [pageTree, next, hm π t ht]
  refine ⟨⟨hf, ?_, ?_, ?_, ?_⟩, hat, fun va hva => translate_frame hva fun π t i ρ ht _ => by rw [hm π t ht]⟩
  · exact fun π π' t h1 h2 => h.unshared π π' t ((hat _ _).1 h1) ((hat _ _).1 h2)
  · exact fun π t h1 => hn π t ((hat _ _).1 h1)
  · intro π t h1
    rw [hp]
    exact h.lt π t ((hat _ _).1 h1)
  · intro π t i h1 h2 h3
    have h1 := (hat _ _).1 h1
    rw [hm π t h1] at h3 ⊢
    exact h.clean π t i h1 h2 h3

/-- A walk that fails keeps the tree. -/
theorem TreeOk.restored (h : TreeOk S r m fl) (hr : Restored m m' fl) : TreeOk S r m' fl ∧
    (∀ π n, TableAt S r m' π n ↔ TableAt S r m π n) ∧
      ∀ va, pml4 va ∈ S → Jos.translate m' r va = Jos.translate m r va :=
  h.off (fun π t ht => hr.mem t (h.notFree π t ht)) (h.free.congr hr.pages hr.head hr.npages) h.notFree hr.npages

theorem TreeOk.missing_restored (h : TreeOk S r m fl) (hr : Restored m m' fl) (hva : pml4 va ∈ S) :
    missingTables m' r va = missingTables m r va :=
  missing_frame (fun π t ht => hr.mem t (h.notFree π t ht)) tableAt_root (inSlots_path hva)

/-- **A store into a last-level table** keeps the tree, and changes the translation of one page. -/
theorem TreeOk.leafWrite {v : PTE} (h : TreeOk S r m fl) (ht : TableAt S r m [a, b, c] t) :
    TreeOk S r (m.write t d v) fl ∧ (∀ π n, TableAt S r (m.write t d v) π n ↔ TableAt S r m π n) ∧
      ∀ va, pml4 va ∈ S → indices va ≠ [a, b, c, d] →
        Jos.translate (m.write t d v) r va = Jos.translate m r va := by
  have hne : ∀ π s i, TableAt S r m π s → InSlots S (π ++ [i]) → s ≠ t := by
    rintro π s i hs hi rfl
    obtain rfl := h.unshared _ _ _ hs ht
    exact absurd hi.1 (by simp)
  have hat : ∀ π n, TableAt S r (m.write t d v) π n ↔ TableAt S r m π n := fun π n =>
    Forest.frame (F := pageTree S r m) (G := pageTree S r (m.write t d v)) rfl rfl fun o π i s hs hi => by
      simp only [pageTree, next, Pmap.write_mem_of_ne (fun hc => hne π s i hs hi hc.1)]
  refine ⟨⟨h.free.congr rfl rfl rfl, ?_, ?_, ?_, ?_⟩, hat, fun va hva hvne => ?_⟩
  · exact fun π π' s h1 h2 => h.unshared π π' s ((hat _ _).1 h1) ((hat _ _).1 h2)
  · exact fun π s h1 => h.notFree π s ((hat _ _).1 h1)
  · exact fun π s h1 => h.lt π s ((hat _ _).1 h1)
  · intro π s i h1 h2 h3
    have h1 := (hat _ _).1 h1
    rw [Pmap.write_mem_of_ne fun hc => hne π s i h1 h2 hc.1] at h3 ⊢
    exact h.clean π s i h1 h2 h3
  · refine translate_frame hva fun π s i ρ hs hf => Pmap.write_mem_of_ne ?_
    rintro ⟨rfl, rfl⟩
    obtain rfl := h.unshared _ _ _ hs ht
    -- a path of four indices that goes on after three has one more
    have h1 : ρ = [] := by
      have h2 := congrArg List.length hf
      simp [indices, path] at h2
      exact h2
    rw [h1] at hf
    exact hvne hf

/-! ## What a walk leaves -/

theorem flag_link_w (p : ℕ) : flag (page2pa p ||| pteP ||| pteW ||| pteU) pteW = true := by
  rw [link_eq, flag_or (by decide)]
  rfl

theorem flag_link_u (p : ℕ) : flag (page2pa p ||| pteP ||| pteW ||| pteU) pteU = true := by
  rw [link_eq, flag_or (by decide)]
  rfl

/-- The words that a walk from table `t` reads, once all its tables exist. -/
def walkWords (m : Pmap) : ℕ → List Idx → List (ℕ × Idx)
  | _, [] => []
  | t, i :: ρ => (t, i) :: walkWords m (ppn (m.mem t i)) ρ

/-- **What a walk leaves** that reads the words `w`: it takes the pages `new` from the head of the
free list, and counts each once. -/
structure Extended (S : Set Idx) (r : ℕ) (m : Pmap) (fl : List ℕ) (m' : Pmap) (fl' new : List ℕ)
    (w : List (ℕ × Idx)) : Prop where
  ok : TreeOk S r m' fl'
  list : fl = new ++ fl'
  keep : ∀ π n, TableAt S r m π n → TableAt S r m' π n
  translate : ∀ va, pml4 va ∈ S → translate m' r va = translate m r va
  ref : ∀ q, (m'.pages q).ppRef = if q ∈ new then 1 else (m.pages q).ppRef
  npages : m'.npages = m.npages
  boot : m'.bootPml4e = m.bootPml4e
  zero : ∀ q ∈ new, ∀ j, (q, j) ∉ w → m'.mem q j = 0
  frame : ∀ q, q ∉ new → ∀ j, (q, j) ∉ w → m'.mem q j = m.mem q j
  entry : ∀ q, q ∉ new → ∀ j, flag (m.mem q j) pteP = true → m'.mem q j = m.mem q j
  made : ∀ q j, (q ∉ new ∧ m'.mem q j = m.mem q j) ∨ m'.mem q j = 0 ∨
    ppn (m'.mem q j) ∈ new ∧ flag (m'.mem q j) pteW = true ∧ flag (m'.mem q j) pteU = true

theorem Extended.refl (h : TreeOk S r m fl) : Extended S r m fl m fl [] w where
  ok := h
  list := rfl
  keep := fun _ _ h => h
  translate := fun _ _ => rfl
  ref := fun _ => (if_neg List.not_mem_nil).symm
  npages := rfl
  boot := rfl
  zero := nofun
  frame := fun _ _ _ _ => rfl
  entry := fun _ _ _ _ => rfl
  made := fun _ _ => Or.inl ⟨List.not_mem_nil, rfl⟩

theorem Extended.weaken (h : Extended S r m fl m' fl' new w) (hw : ∀ x ∈ w, x ∈ w') :
    Extended S r m fl m' fl' new w' :=
  { h with
    zero := fun q hq j hj => h.zero q hq j fun hx => hj (hw _ hx)
    frame := fun q hq j hj => h.frame q hq j fun hx => hj (hw _ hx) }

theorem Extended.trans (h : Extended S r m fl m₁ fl₁ new₁ w₁) (h' : Extended S r m₁ fl₁ m₂ fl₂ new₂ w₂) :
    Extended S r m fl m₂ fl₂ (new₁ ++ new₂) (w₁ ++ w₂) where
  ok := h'.ok
  list := by rw [h.list, h'.list, List.append_assoc]
  keep := fun π n hn => h'.keep π n (h.keep π n hn)
  translate := fun va hva => (h'.translate va hva).trans (h.translate va hva)
  ref := fun q => by
    rw [h'.ref, h.ref]
    by_cases h2 : q ∈ new₂
    · simp [h2]
    · simp [h2]
  npages := h'.npages.trans h.npages
  boot := h'.boot.trans h.boot
  zero := fun q hq j hj => by
    rw [List.mem_append, not_or] at hj
    by_cases h2 : q ∈ new₂
    · exact h'.zero q h2 j hj.2
    · rw [h'.frame q h2 j hj.2]
      exact h.zero q ((List.mem_append.1 hq).resolve_right h2) j hj.1
  frame := fun q hq j hj => by
    rw [List.mem_append, not_or] at hq hj
    rw [h'.frame q hq.2 j hj.2, h.frame q hq.1 j hj.1]
  entry := fun q hq j hj => by
    rw [List.mem_append, not_or] at hq
    have h1 := h.entry q hq.1 j hj
    rw [h'.entry q hq.2 j (by rw [h1]; exact hj), h1]
  made := fun q j => by
    simp only [List.mem_append, not_or]
    rcases h'.made q j with ⟨h1, h2⟩ | h1 | ⟨h1, h2⟩
    · rw [h2]
      rcases h.made q j with ⟨h3, h4⟩ | h3 | ⟨h3, h4⟩
      · exact Or.inl ⟨⟨h3, h1⟩, h4⟩
      · exact Or.inr (Or.inl h3)
      · exact Or.inr (Or.inr ⟨Or.inl h3, h4⟩)
    · exact Or.inr (Or.inl h1)
    · exact Or.inr (Or.inr ⟨Or.inr h1, h2⟩)

/-- **One table is made.** -/
theorem TreeOk.link (h : TreeOk S r m (p :: fl)) (ht : TableAt S r m π t) (hd : InSlots S (π ++ [i]))
    (h0 : flag (m.mem t i) pteP = false) :
    Extended S r m (p :: fl) (linked m t i p) fl [p] [(t, i)] ∧
      TableAt S r (linked m t i p) (π ++ [i]) p ∧ ∀ j, (linked m t i p).mem p j = 0 := by
  have hp : ∀ {π s}, TableAt S r m π s → s ≠ p := by
    rintro π s hs rfl
    exact h.notFree _ _ hs List.mem_cons_self
  have hpf : p ∉ fl := (List.nodup_cons.1 h.free.nodup).1
  have hz : ∀ j, (linked m t i p).mem p j = 0 := fun j => linked_new (hp ht).symm
  have h1 : flag ((linked m t i p).mem t i) pteP = true := by
    rw [linked_entry]
    exact flag_link p
  have h2 : ppn ((linked m t i p).mem t i) = p := by
    rw [linked_entry]
    exact ppn_link (h.free.lt_two List.mem_cons_self)
  -- one owner only, so that the rule for forests applies
  have hat : ∀ π' n, TableAt S r (linked m t i p) π' n ↔ TableAt S r m π' n ∨ (π' = π ++ [i] ∧ n = p) := by
    intro π' n
    have h3 : TableAt S r (linked m t i p) π' n ↔ TableAt S r m π' n ∨ (() = () ∧ π' = π ++ [i] ∧ n = p) :=
      Forest.link_iff (F := pageTree S r m) (G := pageTree S r (linked m t i p))
        h.forest_unshared rfl rfl ht hd (next_eq_none.2 h0) (next_eq_some.2 ⟨h1, h2⟩)
      (fun j => next_eq_none.2 (by rw [hz j]; exact flag_zero _))
      fun o₁ π₁ j s hs _ hne => by simp only [pageTree, next, linked_mem (hp hs) hne]
    simpa only [true_and] using h3
  refine ⟨⟨⟨h.free.linked, ?_, ?_, ?_, ?_⟩, rfl, fun π' n hn => (hat π' n).2 (Or.inl hn), ?_, ?_, linked_npages,
    linked_boot, ?_, ?_, ?_, ?_⟩, (hat _ _).2 (Or.inr ⟨rfl, rfl⟩), hz⟩
  · intro π₁ π₂ s hs hs'
    rcases (hat _ _).1 hs with hs | ⟨h3, h4⟩ <;> rcases (hat _ _).1 hs' with hs' | ⟨h5, h6⟩
    · exact h.unshared _ _ _ hs hs'
    · exact absurd h6 (hp hs)
    · exact absurd h4 (hp hs')
    · rw [h3, h5]
  · intro π₁ s hs
    rcases (hat _ _).1 hs with hs | ⟨-, rfl⟩
    · exact fun hf => h.notFree _ _ hs (List.mem_cons_of_mem _ hf)
    · exact hpf
  · intro π₁ s hs
    rw [linked_npages]
    rcases (hat _ _).1 hs with hs | ⟨-, rfl⟩
    · exact h.lt _ _ hs
    · exact h.free.lt _ List.mem_cons_self
  -- the entries that are absent are 0, in the old tables and in the new one
  · intro π₁ s k hs hk hf
    rcases (hat _ _).1 hs with hs | ⟨-, h3⟩
    · by_cases hw : s = t ∧ k = i
      · obtain ⟨rfl, rfl⟩ := hw
        rw [h1] at hf
        cases hf
      · rw [linked_mem (hp hs) hw] at hf ⊢
        exact h.clean _ _ _ hs hk hf
    · rw [h3]
      exact hz k
  · intro va hva
    refine translate_of_entries (h.entries_linked ht hd h0 tableAt_root rfl fun x hx => ?_)
    cases hx
    exact hva
  · intro q
    rw [linked_ref, h.free.ref p List.mem_cons_self]
    simp
  · intro q hq j _
    rw [List.mem_singleton.1 hq]
    exact hz j
  · intro q hq j hj
    refine linked_mem (by simpa using hq) ?_
    rintro ⟨rfl, rfl⟩
    exact hj List.mem_cons_self
  · intro q hq j hj
    refine linked_mem (by simpa using hq) ?_
    rintro ⟨rfl, rfl⟩
    rw [h0] at hj
    cases hj
  · intro q j
    by_cases hw : q = t ∧ j = i
    · obtain ⟨rfl, rfl⟩ := hw
      rw [h2, linked_entry]
      exact Or.inr (Or.inr ⟨List.mem_singleton_self _, flag_link_w p, flag_link_u p⟩)
    · by_cases hq : q = p
      · subst hq
        exact Or.inr (Or.inl (hz j))
      · exact Or.inl ⟨by simpa using hq, linked_mem hq hw⟩

/-! ## User access -/

/-- The present entries of a walk let user programs write. -/
def OpenWalk (m : Pmap) (t : ℕ) (ρ : List Idx) : Prop :=
  ∀ e ∈ walkEntries m t ρ, flag e pteW = true ∧ flag e pteU = true

theorem openWalk_cons : OpenWalk m t (i :: ρ) ↔ (flag (m.mem t i) pteP = true →
    (flag (m.mem t i) pteW = true ∧ flag (m.mem t i) pteU = true) ∧ OpenWalk m (ppn (m.mem t i)) ρ) := by
  unfold OpenWalk
  conv_lhs => unfold walkEntries
  cases he : presentAt m t i with
  | none =>
    have h1 : ¬ flag (m.mem t i) pteP = true := by
      intro hp
      rw [presentAt_eq_some.2 ⟨rfl, hp⟩] at he
      cases he
    exact ⟨fun _ hp => absurd hp h1, fun _ e he => absurd he List.not_mem_nil⟩
  | some e =>
    obtain ⟨rfl, hp⟩ := presentAt_eq_some.1 he
    simp only [List.mem_cons, forall_eq_or_imp, hp, true_imp_iff]

/-- The access depends on the entries above the leaf. -/
theorem openWalk_frame (hm : ∀ π t i, TableAt S r m π t → InSlots S (π ++ [i]) → m'.mem t i = m.mem t i)
    (ht : TableAt S r m π t) (hd : InSlots S (π ++ ρ)) : OpenWalk m' t ρ ↔ OpenWalk m t ρ := by
  induction ρ generalizing π t with
  | nil => exact ⟨fun _ e he => absurd he List.not_mem_nil, fun _ e he => absurd he List.not_mem_nil⟩
  | cons i ρ ih =>
    rw [openWalk_cons, openWalk_cons, hm π t i ht (inSlots_snoc hd)]
    refine forall_congr' fun hp => and_congr_right fun _ => ?_
    exact ih (tableAt_child ht (inSlots_snoc hd) hp) (by simpa using hd)

/-- The tables that a walk has made are open. -/
theorem Extended.open_new (h : Extended S r m fl m' fl' new w) (hq : q ∈ new) : OpenWalk m' q ρ := by
  induction ρ generalizing q with
  | nil => exact fun e he => absurd he List.not_mem_nil
  | cons i ρ ih =>
    rw [openWalk_cons]
    intro hp
    rcases h.made q i with ⟨h1, -⟩ | h1 | ⟨h1, h2⟩
    · exact absurd hq h1
    · rw [h1] at hp
      exact absurd hp (by decide)
    · exact ⟨h2, ih h1⟩

/-- **A walk leaves the access to an address as it is.** -/
theorem Extended.open_iff (h : Extended S r m fl m' fl' new w) (ho : TreeOk S r m fl)
    (ht : TableAt S r m π t) (hd : InSlots S (π ++ ρ)) : OpenWalk m' t ρ ↔ OpenWalk m t ρ := by
  induction ρ generalizing π t with
  | nil => exact ⟨fun _ e he => absurd he List.not_mem_nil, fun _ e he => absurd he List.not_mem_nil⟩
  | cons i ρ ih =>
    have hn : t ∉ new := fun hf => ho.notFree _ _ ht (by rw [h.list]; exact List.mem_append_left _ hf)
    rw [openWalk_cons, openWalk_cons]
    by_cases hp : flag (m.mem t i) pteP = true
    · rw [h.entry t hn i hp, ih (tableAt_child ht (inSlots_snoc hd) hp) (by simpa using hd)]
    · refine ⟨fun _ hp' => absurd hp' hp, fun _ hp' => ?_⟩
      rcases h.made t i with ⟨-, h1⟩ | h1 | ⟨h1, h2⟩
      · rw [h1] at hp'
        exact absurd hp' hp
      · rw [h1] at hp'
        exact absurd hp' (by decide)
      · exact ⟨h2, h.open_new h1⟩

/-! ## The walk -/

/-- Tables are steady. -/
theorem TreeOk.steady (h : TreeOk S r m fl) (ht : TableAt S r m π t) (hd : InSlots S (π ++ ρ)) :
    Steady m fl t ρ := by
  induction ρ generalizing π t with
  | nil => trivial
  | cons i ρ ih =>
    refine ⟨h.notFree _ _ ht, ?_⟩
    split
    · rename_i hp
      exact ih (tableAt_child ht (inSlots_snoc hd) hp) (by simpa using hd)
    · rename_i hp
      exact h.clean _ _ _ ht (inSlots_snoc hd) (by simpa using hp)

/-- One level of a walk through a present entry. -/
theorem TreeOk.walkPath_present {create : Bool} (h : TreeOk S r m fl) (ht : TableAt S r m π t)
    (hd : InSlots S (π ++ [i])) (hp : flag (m.mem t i) pteP = true) :
    Jos.walkPath d create (i :: ρ) m t = Jos.walkPath d create ρ m (ppn (m.mem t i)) := by
  have hlt := h.lt _ _ (tableAt_child ht hd hp)
  conv_lhs => unfold Jos.walkPath
  rw [walkVia_present (by simp [hp]), kaddr_pteAddr h.free.npages_le hlt]
  rfl

/-- **A walk with enough free pages** makes the missing tables. -/
theorem TreeOk.walkPath (h : TreeOk S r m fl) (ht : TableAt S r m π t) (hd : InSlots S (π ++ ρ))
    (hm : missing m t ρ ≤ fl.length) : ∃ m' q, Jos.walkPath d true ρ m t = some (some ⟨q, d⟩, m') ∧
      Extended S r m fl m' (fl.drop (missing m t ρ)) (fl.take (missing m t ρ)) (walkWords m' t ρ) ∧
      TableAt S r m' (π ++ ρ) q := by
  induction ρ generalizing m fl π t with
  | nil =>
    refine ⟨m, t, rfl, .refl h, ?_⟩
    rw [List.append_nil]
    exact ht
  | cons i ρ ih =>
    have hdi : InSlots S (π ++ [i]) := inSlots_snoc hd
    have hd' : InSlots S ((π ++ [i]) ++ ρ) := by simpa using hd
    by_cases hp : flag (m.mem t i) pteP = true
    · have hms : missing m t (i :: ρ) = missing m (ppn (m.mem t i)) ρ := by simp [missing, hp]
      rw [hms] at hm ⊢
      obtain ⟨m', q, h1, h2, h3⟩ := ih h (tableAt_child ht hdi hp) hd' hm
      refine ⟨m', q, (h.walkPath_present ht hdi hp).trans h1, ?_, by simpa using h3⟩
      have htn : t ∉ fl.take (missing m (ppn (m.mem t i)) ρ) := fun hf =>
        h.notFree _ _ ht (List.mem_of_mem_take hf)
      refine h2.weaken fun x hx => ?_
      unfold walkWords
      rw [h2.entry t htn i hp]
      exact List.mem_cons_of_mem _ hx
    · rw [Bool.not_eq_true] at hp
      have hms : missing m t (i :: ρ) = ρ.length + 1 := by simp [missing, hp]
      rw [hms] at hm ⊢
      cases fl with
      | nil => simp at hm
      | cons p fl =>
        obtain ⟨hg, hat, hz⟩ := h.link ht hdi hp
        have hmz := missing_zero (ρ := ρ) hz
        rw [List.length_cons] at hm
        obtain ⟨m', q, h1, h2, h3⟩ := ih hg.ok hat hd' (by omega)
        rw [hmz] at h2
        refine ⟨m', q, ?_, ?_, by simpa using h3⟩
        · unfold Jos.walkPath
          rw [walkVia_absent h.free hp, h1]
          rfl
        · have htn : t ∉ fl.take ρ.length := fun hf =>
            h.notFree _ _ ht (List.mem_cons_of_mem _ (List.mem_of_mem_take hf))
          have h4 : m'.mem t i = page2pa p ||| pteP ||| pteW ||| pteU := by
            rw [h2.entry t htn i (by rw [linked_entry]; exact flag_link p), linked_entry]
          have h5 : walkWords m' t (i :: ρ) = (t, i) :: walkWords m' p ρ := by
            conv_lhs => unfold walkWords
            rw [h4, ppn_link (h.free.lt_two List.mem_cons_self)]
          rw [h5]
          exact hg.trans h2

/-- **A walk without enough free pages** fails, and changes nothing. -/
theorem TreeOk.walkPath_short (h : TreeOk S r m fl) (ht : TableAt S r m π t) (hd : InSlots S (π ++ ρ))
    (hm : fl.length < missing m t ρ) :
    ∃ m', Jos.walkPath d true ρ m t = some (none, m') ∧ Restored m m' fl := by
  suffices hw : ∃ m', Jos.walkPath d true ρ m t = some (none, m') by
    obtain ⟨m', h1⟩ := hw
    exact ⟨m', h1, walkPath_failed h.free (h.steady ht hd) h1⟩
  induction ρ generalizing m fl π t with
  | nil => simp [missing] at hm
  | cons i ρ ih =>
    have hdi : InSlots S (π ++ [i]) := inSlots_snoc hd
    have hd' : InSlots S ((π ++ [i]) ++ ρ) := by simpa using hd
    by_cases hp : flag (m.mem t i) pteP = true
    · have hms : missing m t (i :: ρ) = missing m (ppn (m.mem t i)) ρ := by simp [missing, hp]
      obtain ⟨m', h1⟩ := ih h (tableAt_child ht hdi hp) hd' (by omega)
      exact ⟨m', (h.walkPath_present ht hdi hp).trans h1⟩
    · rw [Bool.not_eq_true] at hp
      have hms : missing m t (i :: ρ) = ρ.length + 1 := by simp [missing, hp]
      unfold Jos.walkPath
      cases fl with
      | nil => exact ⟨m, walkVia_nil h.free hp⟩
      | cons p fl =>
        obtain ⟨hg, hat, hz⟩ := h.link ht hdi hp
        have hmz := missing_zero (ρ := ρ) hz
        rw [List.length_cons] at hm
        obtain ⟨m', h1⟩ := ih hg.ok hat hd' (by omega)
        have hr := walkPath_failed hg.ok.free (hg.ok.steady hat hd') h1
        have hf : FreeOK (m'.write t i 0) fl := h.free.linked.congr hr.pages hr.head hr.npages
        refine ⟨dropped (m'.write t i 0) p, ?_⟩
        rw [walkVia_absent h.free hp, h1]
        simp only [Option.bind_some]
        rw [pageDecref_eq hf]
        rfl

/-- A walk whose tables exist changes nothing. -/
theorem TreeOk.walkPath_at {create : Bool} (h : TreeOk S r m fl) (ht : TableAt S r m π t)
    (hq : TableAt S r m (π ++ ρ) q) : Jos.walkPath d create ρ m t = some (some ⟨q, d⟩, m) := by
  induction ρ generalizing π t with
  | nil =>
    rw [List.append_nil] at hq
    rw [ht.det hq]
    rfl
  | cons i ρ ih =>
    have hq' : TableAt S r m ((π ++ [i]) ++ ρ) q := by simpa using hq
    obtain ⟨s, hs⟩ := hq'.prefix
    obtain ⟨hd, t', ht', hn⟩ := Forest.at_append.1 hs
    rw [ht'.det ht] at hn
    obtain ⟨h1, h2⟩ := next_eq_some.1 hn
    rw [h.walkPath_present ht hd h1, h2]
    exact ih hs hq'

theorem TreeOk.pml4eWalk_at {create : Bool} (h : TreeOk S r m fl) (hq : TableAt S r m (path va) q) :
    Jos.pml4eWalk m r va create = some (some ⟨q, ptx va⟩, m) := by
  rw [pml4eWalk_eq]
  exact h.walkPath_at tableAt_root hq

/-- **`pml4e_walk` with `create`**, with enough free pages. -/
theorem TreeOk.pml4eWalk (h : TreeOk S r m fl) (hva : pml4 va ∈ S)
    (hm : missingTables m r va ≤ fl.length) : ∃ m' q,
      Jos.pml4eWalk m r va true = some (some ⟨q, ptx va⟩, m') ∧
      Extended S r m fl m' (fl.drop (missingTables m r va)) (fl.take (missingTables m r va))
        (walkWords m' r (path va)) ∧
      TableAt S r m' (path va) q := by
  rw [pml4eWalk_eq]
  exact h.walkPath tableAt_root (inSlots_path hva) hm

/-- **`pml4e_walk` with `create`**, without. -/
theorem TreeOk.pml4eWalk_short (h : TreeOk S r m fl) (hva : pml4 va ∈ S)
    (hm : fl.length < missingTables m r va) :
    ∃ m', Jos.pml4eWalk m r va true = some (none, m') ∧ Restored m m' fl := by
  rw [pml4eWalk_eq]
  exact h.walkPath_short tableAt_root (inSlots_path hva) hm

end Jos
