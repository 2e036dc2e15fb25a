import Jos.Lib.Loop
import Jos.Spec.Multiboot

/-!
# Sorting the memory map

Where an entry goes before another one, the loop that makes room for it starts one place above the
end of the sorted part (`shiftUp_room`). For the last entry this place is outside of the array
(`shiftUp_full`). The merging pass leaves null pointers only behind itself.

`memory_map_sorted`: `multiboot_read` stays in bounds, and the list is sorted, exactly if no entry has
a larger address than the last one.
-/

namespace Jos

open Lib

variable {s s' : Multiboot} {a b l l' : List ℕ} {r : List Ptr} {e : ℕ → MemoryMap} {p x y : Ptr} {i j k n : ℕ}
  {addr : BitVec 64}

/-! ## Making room -/

/-- A place in front of the rest of a list. -/
theorem storePtr_append {q : List Ptr} (h : q.length = j) : storePtr (q ++ x :: r) j p = some (q ++ p :: r) := by
  unfold storePtr
  rw [if_pos (by simp; omega), ← h]
  simp

/-- **Moving up a block** that has room behind it: the place in front of it becomes free. -/
theorem shiftUp_room {q : List Ptr} : ∀ {c r : List Ptr} {x : Ptr},
    ∃ y, shiftUp (q ++ (c ++ x :: r)) q.length c.length = some (q ++ y :: (c ++ r)) := by
  intro c
  induction c using List.reverseRecOn with
  | nil =>
    intro r x
    exact ⟨x, rfl⟩
  | append_singleton c z ih =>
    intro r x
    -- the last one of the block is stored above, and the rest is a smaller block
    obtain ⟨y, hy⟩ := ih (r := z :: r) (x := z)
    refine ⟨y, ?_⟩
    have hget : (q ++ (c ++ [z] ++ x :: r))[q.length + c.length]? = some z := by
      rw [← List.append_assoc, ← List.append_assoc, List.append_assoc (q ++ c),
        List.getElem?_append_right (by simp)]
      simp
    have hset : storePtr (q ++ (c ++ [z] ++ x :: r)) (q.length + c.length + 1) z =
        some (q ++ (c ++ z :: (z :: r))) := by
      have h1 := storePtr_append (q := q ++ (c ++ [z])) (x := x) (p := z) (r := r) (j := q.length + c.length + 1)
        (by simp; omega)
      simpa using h1
    rw [List.length_append, List.length_singleton, shiftUp, hget]
    simp only [Option.bind_eq_bind, Option.bind_some]
    rw [hset, Option.bind_some, hy]
    simp

/-- Without room the first store is outside. -/
theorem shiftUp_full {q : List Ptr} (h : q.length = j + n + 1) : shiftUp q j (n + 1) = none := by
  rw [shiftUp]
  rcases q[j + n]? with _ | z
  · rfl
  · simp only [Option.bind_eq_bind, Option.bind_some]
    unfold storePtr
    rw [if_neg (by omega)]
    rfl

/-! ## The place of an entry -/

/-- `mmap_list` with the pointers to some entries first. -/
def listed (l : List ℕ) (r : List Ptr) : List Ptr := l.map .entry ++ r

theorem findSlot_step (hs : s.list = listed (a ++ k :: b) r) (h : (s.entries k).addr ≤ addr) :
    findSlot s addr a.length (n + 1) = findSlot s addr (a.length + 1) n := by
  have hget : s.list[a.length]? = some (.entry k) := by
    rw [hs, listed]
    simp
  rw [findSlot, hget]
  simp only [Option.bind_eq_bind, Option.bind_some, deref]
  rw [if_neg (BitVec.not_lt.2 h)]

theorem findSlot_stop (hs : s.list = listed (a ++ k :: b) r) (h : addr < (s.entries k).addr) :
    findSlot s addr a.length (n + 1) = (shiftUp s.list a.length (n + 2)).map fun l => (l, a.length) := by
  have hget : s.list[a.length]? = some (.entry k) := by
    rw [hs, listed]
    simp
  rw [findSlot, hget]
  simp only [Option.bind_eq_bind, Option.bind_some, deref]
  rw [if_pos h]
  rcases shiftUp s.list a.length (n + 2) <;> rfl

/-- **The loop stops** behind the entries with smaller or equal addresses. -/
theorem findSlot_spec (addr : BitVec 64) (hs : s.list = listed (a ++ b) r) (ha : ∀ k ∈ a, (s.entries k).addr ≤ addr) :
    ((∀ k ∈ b, (s.entries k).addr ≤ addr) ∧
        findSlot s addr a.length b.length = some (s.list, (a ++ b).length)) ∨
      ∃ c k d, b = c ++ k :: d ∧ (∀ x ∈ c, (s.entries x).addr ≤ addr) ∧ addr < (s.entries k).addr ∧
        findSlot s addr a.length b.length =
          (shiftUp s.list (a ++ c).length (d.length + 2)).map fun l => (l, (a ++ c).length) := by
  induction b generalizing a with
  | nil =>
    refine Or.inl ⟨nofun, ?_⟩
    rw [List.append_nil]
    rfl
  | cons k b ih =>
    rw [List.length_cons]
    by_cases hk : (s.entries k).addr ≤ addr
    · rw [findSlot_step hs hk]
      have h1 := ih (a := a ++ [k]) (by rw [hs, List.append_assoc]; rfl) (by
        intro x hx
        rcases List.mem_append.1 hx with hx | hx
        · exact ha x hx
        · exact (List.mem_singleton.1 hx) ▸ hk)
      rw [List.length_append, List.length_singleton, List.append_assoc] at h1
      rcases h1 with ⟨h1, h2⟩ | ⟨c, k', d, hb, hc, hk', h2⟩
      · refine Or.inl ⟨List.forall_mem_cons.2 ⟨hk, h1⟩, h2⟩
      · refine Or.inr ⟨k :: c, k', d, by rw [hb]; rfl, List.forall_mem_cons.2 ⟨hk, hc⟩, hk', ?_⟩
        rw [h2, List.append_assoc]
        rfl
    · exact Or.inr ⟨[], k, b, rfl, nofun, BitVec.not_le.1 hk, by
        rw [findSlot_stop hs (BitVec.not_le.1 hk), List.append_nil]⟩

/-! ## The first loop -/

/-- The list after the first `i` of `n` entries, which are in the order `l`. -/
structure Placed (e : ℕ → MemoryMap) (n i : ℕ) (l : List ℕ) (s : Multiboot) : Prop where
  addrs : ∀ k, (s.entries k).addr = (e k).addr
  perm : l.Perm (List.range i)
  sorted : l.Pairwise fun a b => (e a).addr ≤ (e b).addr
  list : ∃ r, s.list = listed l r
  length : s.list.length = n

/-- The list with entry `i` at its place. -/
theorem Placed.insert (h : Placed e n i (a ++ b) s) (ha : ∀ k ∈ a, (e k).addr ≤ (e i).addr)
    (hb : ∀ k ∈ b, (e i).addr ≤ (e k).addr) (hs : ∀ k, (s'.entries k).addr = (e k).addr)
    (hl : s'.list = listed (a ++ i :: b) r) (hn : s'.list.length = n) : Placed e n (i + 1) (a ++ i :: b) s' := by
  refine ⟨hs, ?_, ?_, ⟨r, hl⟩, hn⟩
  · rw [List.range_succ]
    exact List.perm_middle.trans ((List.perm_cons i).2 h.perm |>.trans (List.perm_append_singleton i _).symm)
  · obtain ⟨h1, h2, h3⟩ := List.pairwise_append.1 h.sorted
    refine List.pairwise_append.2 ⟨h1, List.pairwise_cons.2 ⟨hb, h2⟩, fun x hx y hy => ?_⟩
    rcases List.mem_cons.1 hy with rfl | hy
    · exact ha x hx
    · exact h3 x hx y hy

/-- The place that the search finds, and the rest of the turn from there. -/
theorem insertEntry_eq (h : Placed e n i l s) :
    ∃ s₁ : Multiboot, (∀ k, (s₁.entries k).addr = (e k).addr) ∧ s₁.list = s.list ∧
      insertEntry s i = (findSlot s₁ (e i).addr 0 i).bind fun x =>
        (storePtr x.1 x.2 (.entry i)).map fun l => { s₁ with list := l } := by
  refine ⟨⟨Function.update s.entries i { s.entries i with
    type := if (s.entries i).type > 5 ∨ (s.entries i).type < 1 then mbTypeReserved else (s.entries i).type }, s.list⟩,
    fun k => ?_, rfl, ?_⟩
  · rw [← h.addrs k]
    dsimp only
    by_cases hk : k = i
    · rw [hk, Function.update_self]
      rfl
    · rw [Function.update_of_ne hk]
  · rw [← h.addrs i]
    unfold insertEntry
    dsimp only
    rcases findSlot _ (s.entries i).addr 0 i with _ | ⟨l, j⟩
    · rfl
    · simp only [Option.bind_eq_bind, Option.bind_some]
      rcases storePtr l j (.entry i) <;> rfl

theorem listed_length : (listed l r).length = l.length + r.length := by
  unfold listed
  rw [List.length_append, List.length_map]

theorem listed_append : listed (a ++ b) r = a.map .entry ++ (b.map .entry ++ r) := by
  unfold listed
  rw [List.map_append, List.append_assoc]

/-- **One turn.** It succeeds except where the last entry goes before another one. -/
theorem Placed.step (h : Placed e n i l s) (hi : i < n) :
    (∃ s' l', insertEntry s i = some s' ∧ Placed e n (i + 1) l' s' ∧
      (i + 1 = n → ∀ k < i, (e k).addr ≤ (e i).addr)) ∨
      insertEntry s i = none ∧ i + 1 = n ∧ ∃ k < i, (e i).addr < (e k).addr := by
  obtain ⟨s₁, he, hl₁, heq⟩ := insertEntry_eq h
  obtain ⟨r, hr⟩ := h.list
  have hlen : l.length = i := by rw [h.perm.length_eq, List.length_range]
  have hrn : i + r.length = n := by rw [← h.length, hr, listed_length, hlen]
  obtain ⟨x, r, rfl⟩ : ∃ x r', r = x :: r' := by
    cases r with
    | nil =>
      rw [List.length_nil] at hrn
      omega
    | cons x r => exact ⟨x, r, rfl⟩
  rw [List.length_cons] at hrn
  rw [← hl₁] at hr
  rcases findSlot_spec (a := []) (b := l) (e i).addr hr nofun with ⟨h1, h2⟩ | ⟨c, k, d, rfl, hc, hk, h2⟩
  · -- the entry goes to the end of the sorted part
    rw [List.length_nil, List.nil_append, hlen] at h2
    have h3 : storePtr (listed l (x :: r)) i (.entry i) = some (listed (l ++ i :: []) r) := by
      rw [listed_append]
      exact storePtr_append (by rw [List.length_map, hlen])
    refine Or.inl ⟨{ s₁ with list := listed (l ++ i :: []) r }, l ++ i :: [], ?_, ?_, fun _ k hk => ?_⟩
    · rw [heq, h2, Option.bind_some, hr]
      dsimp only
      rw [h3]
      rfl
    · refine Placed.insert (a := l) (b := []) (by rw [List.append_nil]; exact h) (fun k hk => ?_) nofun he rfl ?_
      · rw [← he k]
        exact h1 k hk
      · dsimp only
        rw [listed_length, List.length_append, hlen]
        simp only [List.length_cons, List.length_nil]
        omega
    · rw [← he k]
      exact h1 k (h.perm.symm.subset (List.mem_range.2 hk))
  · rw [List.nil_append, List.length_nil, hlen] at h2
    have hcd : c.length + d.length + 1 = i := by
      rw [← hlen, List.length_append, List.length_cons]
      omega
    rw [he k] at hk
    cases r with
    | nil =>
      -- no place is left
      refine Or.inr ⟨?_, by rw [List.length_nil] at hrn; omega, k, ?_, hk⟩
      · rw [heq, h2, hr, shiftUp_full (by rw [listed_length]; simp)]
        rfl
      · exact List.mem_range.1 (h.perm.subset (List.mem_append_right _ List.mem_cons_self))
    | cons z r =>
      have hsh : ∃ y, shiftUp (listed (c ++ k :: d) (x :: z :: r)) c.length (d.length + 2) =
          some (c.map .entry ++ y :: (((k :: d).map .entry ++ [x]) ++ r)) := by
        obtain ⟨y, hy⟩ := shiftUp_room (q := c.map .entry) (c := (k :: d).map .entry ++ [x]) (x := z) (r := r)
        refine ⟨y, ?_⟩
        rw [List.length_append, List.length_map, List.length_map, List.length_singleton, List.length_cons] at hy
        rw [← hy, listed_append]
        simp
      obtain ⟨y, hy⟩ := hsh
      refine Or.inl ⟨{ s₁ with list := listed (c ++ i :: k :: d) (x :: r) }, c ++ i :: k :: d, ?_, ?_, fun h => ?_⟩
      · rw [heq, h2, hr, hy]
        simp only [Option.map_some, Option.bind_some]
        rw [storePtr_append (List.length_map ..), listed_append]
        simp
      · refine Placed.insert h (fun k hk => ?_) (fun u hu => ?_) he rfl ?_
        · rw [← he k]
          exact hc k hk
        · obtain ⟨-, h4, -⟩ := List.pairwise_append.1 h.sorted
          rcases List.mem_cons.1 hu with rfl | hu
          · exact BitVec.le_of_lt hk
          · exact BitVec.le_trans (BitVec.le_of_lt hk) ((List.pairwise_cons.1 h4).1 u hu)
        · dsimp only
          rw [listed_length]
          simp only [List.length_append, List.length_cons] at hrn ⊢
          omega
      · rw [List.length_cons] at hrn
        omega

theorem insertEntries_prefix (hk : k < n) :
    ∃ s l, (List.range k).foldlM insertEntry ⟨e, List.replicate n .junk⟩ = some s ∧ Placed e n k l s := by
  have hstep : ∀ i < k, ∀ s, (∃ l, Placed e n i l s) → ∃ s', insertEntry s i = some s' ∧ ∃ l, Placed e n (i + 1) l s' := by
    rintro i hi s ⟨l, hl⟩
    rcases hl.step (by omega) with ⟨s', l', h1, h2, -⟩ | ⟨-, h1, -⟩
    · exact ⟨s', h1, l', h2⟩
    · omega
  have h0 : ∃ l, Placed e n 0 l ⟨e, List.replicate n .junk⟩ :=
    ⟨[], fun _ => rfl, List.Perm.refl _, List.Pairwise.nil, ⟨_, rfl⟩, List.length_replicate⟩
  obtain ⟨s, hs, l, hl⟩ := range_total hstep h0
  exact ⟨s, l, hs, hl⟩

/-- **The first loop** ends in bounds exactly if no entry has a larger address than the last one. -/
theorem insertEntries_placed :
    (∃ s, insertEntries e n = some s) ↔ ∀ k < n, (e k).addr ≤ (e (n - 1)).addr := by
  cases n with
  | zero => exact ⟨fun _ => nofun, fun _ => ⟨_, rfl⟩⟩
  | succ n =>
    obtain ⟨s, l, hs, hl⟩ := insertEntries_prefix (e := e) (Nat.lt_succ_self n)
    have hrun : insertEntries e (n + 1) = insertEntry s n := by
      unfold insertEntries
      rw [List.range_succ, List.foldlM_append, hs]
      simp
    rw [hrun, Nat.add_sub_cancel]
    refine ⟨fun ⟨s', h⟩ k hk => ?_, fun h => ?_⟩
    · rcases hl.step (Nat.lt_succ_self n) with ⟨-, -, -, -, h1⟩ | ⟨h1, -⟩
      · rcases Nat.lt_succ_iff_lt_or_eq.1 hk with hlt | rfl
        · exact h1 rfl k hlt
        · exact BitVec.le_refl _
      · rw [h1] at h
        exact absurd h nofun
    · rcases hl.step (Nat.lt_succ_self n) with ⟨s', -, h1, -⟩ | ⟨-, -, k, hk, h1⟩
      · exact ⟨s', h1⟩
      · exact absurd h1 (BitVec.not_lt.2 (h k (by omega)))

theorem insertEntries_sorted (h : insertEntries e n = some s) : ∃ l, Placed e n n l s := by
  cases n with
  | zero =>
    cases h
    exact ⟨[], fun _ => rfl, List.Perm.refl _, List.Pairwise.nil, ⟨_, rfl⟩, rfl⟩
  | succ n =>
    obtain ⟨s₁, l, hs, hl⟩ := insertEntries_prefix (e := e) (Nat.lt_succ_self n)
    unfold insertEntries at h
    rw [List.range_succ, List.foldlM_append, hs] at h
    have h : insertEntry s₁ n = some s := by simpa using h
    rcases hl.step (Nat.lt_succ_self n) with ⟨s', l', h1, h2, -⟩ | ⟨h1, -⟩
    · rw [h1] at h
      cases h
      exact ⟨l', h2⟩
    · rw [h1] at h
      exact absurd h nofun

/-! ## The other loops -/

/-- From place `i - 1` on, all pointers are to entries, and the ones before it may be null. -/
structure Merging (n i : ℕ) (s : Multiboot) : Prop where
  length : s.list.length = n
  ahead : ∀ k, i ≤ k + 1 → k < n → ∃ t, s.list[k]? = some (.entry t)
  good : ∀ k < n, s.list[k]? ≠ some .junk

theorem Merging.keep (h : Merging n i s) (hl : s'.list = s.list) : Merging n (i + 1) s' := by
  refine ⟨by rw [hl]; exact h.length, fun k hk => ?_, fun k hk => ?_⟩
  · rw [hl]
    exact h.ahead k (by omega)
  · rw [hl]
    exact h.good k hk

/-- **One turn** of the second loop. -/
theorem Merging.step (h : Merging n i s) (hi : 1 ≤ i) (hn : i < n) :
    ∃ s', mergeEntry s i = some s' ∧ Merging n (i + 1) s' := by
  obtain ⟨p, hp⟩ := h.ahead (i - 1) (by omega) (by omega)
  obtain ⟨t, ht⟩ := h.ahead i (by omega) hn
  unfold mergeEntry
  rw [hp, ht]
  simp only [Option.bind_eq_bind, Option.bind_some, deref]
  have hlt : i - 1 < s.list.length := by
    rw [h.length]
    omega
  split
  · rw [storePtr, if_pos hlt]
    refine ⟨_, rfl, ?_, fun k hk hkn => ?_, fun k hk => ?_⟩
    · dsimp only
      rw [List.length_set]
      exact h.length
    · dsimp only
      rw [List.getElem?_set_ne (by omega)]
      exact h.ahead k (by omega) hkn
    · dsimp only
      by_cases he : i - 1 = k
      · rw [← he, List.getElem?_set_self hlt]
        exact nofun
      · rw [List.getElem?_set_ne he]
        exact h.good k hk
  · split
    · exact ⟨_, rfl, h.keep rfl⟩
    · exact ⟨_, rfl, h.keep rfl⟩

theorem Merging.sum (h : Merging n i s) (hk : k < n) (mem : BitVec 64 × BitVec 64) :
    ∃ mem', sumEntry s mem k = some mem' := by
  have hlt : k < s.list.length := by
    rw [h.length]
    exact hk
  obtain ⟨p, hp⟩ : ∃ p, s.list[k]? = some p := ⟨_, List.getElem?_eq_getElem hlt⟩
  unfold sumEntry
  rw [hp]
  simp only [Option.bind_eq_bind, Option.bind_some]
  cases p with
  | junk => exact absurd hp (h.good k hk)
  | null => exact ⟨_, rfl⟩
  | entry t =>
    simp only [deref, Option.bind_some]
    split
    · split
      · exact ⟨_, rfl⟩
      · exact ⟨_, rfl⟩
    · exact ⟨_, rfl⟩

theorem Placed.merging (h : Placed e n n l s) : Merging n 1 s := by
  obtain ⟨r, hr⟩ := h.list
  have hl : l.length = n := by rw [h.perm.length_eq, List.length_range]
  have hget : ∀ k < n, ∃ t, s.list[k]? = some (.entry t) := by
    intro k hk
    refine ⟨l.get ⟨k, by omega⟩, ?_⟩
    rw [hr, listed, List.getElem?_append_left (by rw [List.length_map]; omega), List.getElem?_map,
      List.getElem?_eq_getElem (by omega)]
    rfl
  refine ⟨h.length, fun k _ hk => hget k hk, fun k hk => ?_⟩
  obtain ⟨t, ht⟩ := hget k hk
  rw [ht]
  exact nofun

/-! ## The result -/

/-- `mmap_list` has each entry once, in the order of their addresses. -/
def SortedList (e : ℕ → MemoryMap) (n : ℕ) (s : Multiboot) : Prop :=
  ∃ l : List ℕ, s.list = l.map .entry ∧ l.Perm (List.range n) ∧ (∀ k, (s.entries k).addr = (e k).addr) ∧
    l.Pairwise fun a b => (s.entries a).addr ≤ (s.entries b).addr

theorem Placed.sortedList (h : Placed e n n l s) : SortedList e n s := by
  obtain ⟨r, hr⟩ := h.list
  have hl : l.length = n := by rw [h.perm.length_eq, List.length_range]
  have hr0 : r = [] := by
    have h1 := h.length
    rw [hr, listed_length, hl] at h1
    exact List.length_eq_zero_iff.1 (by omega)
  refine ⟨l, ?_, h.perm, h.addrs, ?_⟩
  · rw [hr, hr0, listed, List.append_nil]
  · simp only [h.addrs]
    exact h.sorted

/-- **The memory map is read in bounds**, through no null pointer, and is sorted after the first
loop, exactly if no entry has a larger address than the last one. -/
theorem memory_map_sorted :
    (∃ s, insertEntries e n = some s ∧ SortedList e n s ∧ ∃ mem, multibootRead e n = some mem) ↔
      ∀ k < n, (e k).addr ≤ (e (n - 1)).addr := by
  refine ⟨fun ⟨s, h, _⟩ => insertEntries_placed.1 ⟨s, h⟩, fun h => ?_⟩
  obtain ⟨s, hs⟩ := insertEntries_placed.2 h
  obtain ⟨l, hl⟩ := insertEntries_sorted hs
  refine ⟨s, hs, hl.sortedList, ?_⟩
  -- the second loop, and the third
  obtain ⟨s', hs', hm⟩ := range'_total (n := n - 1) (fun i h1 h2 s hm => Merging.step hm h1 (by omega)) hl.merging
  obtain ⟨mem, hmem, -⟩ := range_total (f := sumEntry s') (n := n) (b := (0, 0)) (P := fun _ _ => True)
    (fun i hi mem _ => by
      obtain ⟨mem', h1⟩ := hm.sum hi mem
      exact ⟨mem', h1, trivial⟩) trivial
  refine ⟨mem, ?_⟩
  unfold multibootRead
  rw [hs]
  simp only [Option.bind_eq_bind, Option.bind_some]
  rw [hs']
  exact hmem

/-- Three entries, the last of which comes first. -/
def threeEntries : ℕ → MemoryMap
  | 0 => ⟨0x100000, 0, 0x100000, 0, 1⟩
  | 1 => ⟨0x200000, 0, 0x100000, 0, 2⟩
  | _ => ⟨0, 0, 0xA0000, 0, 1⟩

/-- It is stored behind the array. -/
theorem memory_map_sorted_counterexample : ¬ ∀ (e : ℕ → MemoryMap) (n : ℕ),
    ∃ s, insertEntries e n = some s ∧ SortedList e n s ∧ ∃ mem, multibootRead e n = some mem := by
  intro h
  obtain ⟨s, hs, -⟩ := h threeEntries 3
  have h1 := insertEntries_placed.1 ⟨s, hs⟩ 0 (by decide)
  exact absurd h1 (by decide)

end Jos
