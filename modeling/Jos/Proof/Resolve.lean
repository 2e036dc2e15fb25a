import Jos.Proof.Orderly
import Jos.Proof.ReadBack
import Jos.Spec.Path

/-!
# Paths name files

On a well-formed directory tree `walk_path` agrees with the reference resolver (`walkPath_agrees`):
the scan cuts the string into its elements (`walkLoop_eq`), a search of a directory finds the one
entry with the name (`dirLookup_found`, `dirLookup_missing`), and so each turn of the loop follows
one element.
-/

namespace Jos.Fs

open Lib

variable {d : Bytes} {f g g' h dir : ℕ} {name : List Byte} {els rest above : List (List Byte)} {p : List Byte}

/-! ## The scan -/

/-- The elements of a string. -/
def elems (p : List Byte) : List (List Byte) := (p.splitOnP (· == 0x2F)).filter (!·.isEmpty)

theorem elems_slash : elems (0x2F :: p) = elems p := by
  unfold elems
  rw [List.splitOnP_cons_eq_if_modifyHead, if_pos (by decide), List.filter_cons_of_neg (by decide)]

theorem elems_skip : elems (skipSlash p) = elems p := by
  induction p with
  | nil => rfl
  | cons c p ih =>
    unfold skipSlash
    split
    · rename_i hc
      rw [ih, hc, elems_slash]
    · rfl

theorem skipSlash_cases (p : List Byte) : skipSlash p = [] ∨ ∃ c q, skipSlash p = c :: q ∧ c ≠ 0x2F := by
  induction p with
  | nil => exact Or.inl rfl
  | cons c p ih =>
    unfold skipSlash
    split
    · exact ih
    · rename_i hc
      exact Or.inr ⟨c, p, rfl, hc⟩

/-- The characters passed have no slash, and the rest starts with one. -/
theorem passElem_spec (p : List Byte) : p = (passElem p).1 ++ (passElem p).2 ∧
    (∀ c ∈ (passElem p).1, (c == 0x2F) = false) ∧ ((passElem p).2 = [] ∨ ∃ q, (passElem p).2 = 0x2F :: q) := by
  induction p with
  | nil => exact ⟨rfl, by simp [passElem], Or.inl rfl⟩
  | cons c p ih =>
    unfold passElem
    split
    · rename_i hc
      exact ⟨rfl, by simp, Or.inr ⟨p, by rw [hc]⟩⟩
    · rename_i hc
      obtain ⟨h1, h2, h3⟩ := ih
      refine ⟨congrArg (c :: ·) h1, fun x hx => ?_, h3⟩
      rcases List.mem_cons.1 hx with rfl | hx
      · exact beq_false_of_ne hc
      · exact h2 x hx

theorem elems_pass {c : Byte} (hc : c ≠ 0x2F) :
    elems (c :: p) = (passElem (c :: p)).1 :: elems (skipSlash (passElem (c :: p)).2) := by
  obtain ⟨h1, h2, h3⟩ := passElem_spec (c :: p)
  have h4 : (!(passElem (c :: p)).1.isEmpty) = true := by
    rw [passElem, if_neg hc]
    rfl
  rw [elems_skip]
  conv_lhs => rw [h1]
  unfold elems
  rcases h3 with h3 | ⟨q, h3⟩
  · rw [h3, List.append_nil, List.splitOnP_eq_singleton h2, List.filter_cons_of_pos (p := fun x : List Byte => !x.isEmpty) h4]
    rfl
  · rw [h3, List.splitOnP_append_cons_of_forall_mem h2 _ (by decide), List.filter_cons_of_pos (p := fun x : List Byte => !x.isEmpty) h4,
      List.splitOnP_cons_eq_if_modifyHead, if_pos (by decide), List.filter_cons_of_neg (by decide)]

theorem elems_nil : elems [] = [] := rfl

/-- What a walk stores. -/
def Walk.out : Walk → Walked
  | .found pdir pf => ⟨0, pdir, some pf, none⟩
  | .failed r none => ⟨r, none, none, none⟩
  | .failed r (some (dir, name)) => ⟨r, some dir, none, some name⟩

/-- **The scan walks the elements**, from behind the slashes. -/
theorem walkLoop_eq {pdir : Option ℕ} (hp : p = [] ∨ ∃ c q, p = c :: q ∧ c ≠ 0x2F) :
    walkLoop p pdir f d = (walkElements (elems p) pdir f d).map fun x => (x.1.out, x.2) := by
  induction hn : p.length using Nat.strong_induction_on generalizing p pdir f d with
  | _ n ih =>
    subst hn
    unfold walkLoop
    rcases hp with rfl | ⟨c, q, rfl, hc⟩
    · rfl
    · rw [if_neg (List.cons_ne_nil c q), elems_pass hc]
      unfold walkElements
      have hrest := skipSlash_cases (passElem (c :: q)).2
      have hlen := scan_length (List.cons_ne_nil c q)
      by_cases hl : (passElem (c :: q)).1.length ≥ 128
      · simp only [if_pos hl]
        rfl
      · by_cases ht : fType d f ≠ ftypeDir
        · simp only [if_neg hl, if_pos ht]
          rfl
        · simp only [if_neg hl, if_neg ht]
          rcases dirLookup d f (passElem (c :: q)).1 with _ | ⟨⟨r⟩ | ⟨g⟩, d₁⟩
          · rfl
          · have he : elems (skipSlash (passElem (c :: q)).2) = [] ↔ skipSlash (passElem (c :: q)).2 = [] := by
              rcases hrest with h1 | ⟨b, w, h1, hb⟩
              · rw [h1]
                exact ⟨fun _ => rfl, fun _ => rfl⟩
              · rw [h1, elems_pass hb]
                exact iff_of_false (List.cons_ne_nil _ _) (List.cons_ne_nil _ _)
            simp only [Option.bind_eq_bind, Option.bind_some, he]
            split <;> rfl
          · exact ih _ hlen hrest rfl

theorem walkPathScan_eq {path : CString} :
    walkPathScan d path = (walkPath d path).map fun x => (x.1.out, x.2) := by
  unfold walkPathScan walkPath elements
  rw [walkLoop_eq (skipSlash_cases path.chars), elems_skip]
  rfl

/-! ## Searching a directory without holes -/

theorem dirScan_full (test : Bytes → ℕ → Bool) {is : List ℕ} (hv : Valid sRoot true d)
    (hf : (tree sRoot true d).Linked (.file f)) (h0 : ∀ i ∈ is, fileBlock d f i ≠ 0) :
    ∃ res, dirScan test f is d = some (.ok res, d) ∧
      (res = none → ∀ i ∈ is, ∀ j < 16, test d (fileBlock d f i * 4096 + 256 * j) = false) ∧
      ∀ g, res = some g → ∃ i ∈ is, ∃ j < 16, g = fileBlock d f i * 4096 + 256 * j ∧ test d g = true := by
  induction is with
  | nil => exact ⟨none, rfl, by simp, by simp⟩
  | cons i is ih =>
    obtain ⟨res, h1, h2, h3⟩ := ih fun k hk => h0 k (List.mem_cons_of_mem _ hk)
    unfold dirScan
    rw [fileGetBlock_present hv.sound hf (h0 i List.mem_cons_self)]
    simp only [Option.bind_eq_bind, Option.bind_some]
    rcases hj : (List.range 16).find? fun j => test d (fileBlock d f i * 4096 + 256 * j) with _ | j
    · refine ⟨res, h1, fun hres k hk j hj' => ?_, fun g hg => ?_⟩
      · rcases List.mem_cons.1 hk with rfl | hk
        · have h4 := List.find?_eq_none.1 hj j (List.mem_range.2 hj')
          exact Bool.not_eq_true _ ▸ h4
        · exact h2 hres k hk j hj'
      · obtain ⟨k, hk, h4⟩ := h3 g hg
        exact ⟨k, List.mem_cons_of_mem _ hk, h4⟩
    · refine ⟨_, rfl, by simp, fun g hg => ?_⟩
      cases hg
      have h4 : test d (fileBlock d f i * 4096 + 256 * j) = true := by simpa using List.find?_some hj
      exact ⟨i, List.mem_cons_self, j, List.mem_range.1 (List.mem_of_find?_eq_some hj), rfl, h4⟩

theorem names_one : Names d [name] f g ↔ fType d f = ftypeDir ∧ ∃ i < dirBlocks d f, fileBlock d f i ≠ 0 ∧
    ∃ j < 16, nameEq name d (fileBlock d f i * 4096 + 256 * j) = true ∧ g = fileBlock d f i * 4096 + 256 * j :=
  Iff.rfl

theorem names_append : Names d (above ++ rest) f g ↔ ∃ h, Names d above f h ∧ Names d rest h g := by
  induction above generalizing f with
  | nil => exact ⟨fun h => ⟨f, rfl, h⟩, fun ⟨h, h1, h2⟩ => by cases h1; exact h2⟩
  | cons name above ih =>
    constructor
    · rintro ⟨ht, i, hi, h0, j, hj, hn, h1⟩
      obtain ⟨h, h2, h3⟩ := ih.1 h1
      exact ⟨h, ⟨ht, i, hi, h0, j, hj, hn, h2⟩, h3⟩
    · rintro ⟨h, ⟨ht, i, hi, h0, j, hj, hn, h1⟩, h2⟩
      exact ⟨ht, i, hi, h0, j, hj, hn, ih.2 ⟨h, h1, h2⟩⟩

theorem names_cons : Names d (name :: rest) f g ↔ ∃ h, Names d [name] f h ∧ Names d rest h g := by
  rw [← List.singleton_append, names_append]

theorem names_reachable (hf : Reachable d f) (hg : ∀ name ∈ els, GoodName name) (hn : Names d els f g) :
    Reachable d g := by
  induction els generalizing f with
  | nil =>
    cases hn
    exact hf
  | cons name els ih =>
    obtain ⟨ht, i, hi, h0, j, hj, h1, h2⟩ := hn
    have h3 := nameFree_of_nameEq (hg name List.mem_cons_self) h1
    exact ih (.entry hf ht hi h0 hj h3) (fun k hk => hg k (List.mem_cons_of_mem _ hk)) h2

/-- A name that ends has fewer than 128 characters. -/
theorem nameEq_short (hg : GoodName name) (h : nameEq name d g = true) (he : ∃ k < 128, d.byte (g + k) = 0) :
    name.length < 128 := by
  obtain ⟨k, hk, h0⟩ := he
  by_contra hl
  have hlt : k < name.length := by omega
  have h1 := List.all_eq_true.1 h k (List.mem_range.2 (by omega))
  have h2 : d.byte (g + k) = name[k] := by
    have h3 : (name ++ [0]).getD k 0 = name[k] := by
      rw [List.getD_eq_getElem _ _ (by rw [List.length_append]; omega), List.getElem_append_left (by omega)]
    rw [h3] at h1
    exact beq_iff_eq.1 h1
  rw [h0] at h2
  apply hg.2
  rw [h2]
  exact List.getElem_mem _

/-- The directory that the walk has come from. -/
def Above (d : Bytes) (above : List (List Byte)) : Option ℕ → Prop
  | none => above = []
  | some dir => ∃ a name, above = a ++ [name] ∧ Names d a sRoot dir

namespace WellFormed

variable (hw : WellFormed d)
include hw

/-- **A search finds the entry with the name**, or says that there is none. -/
theorem dirLookup_full (hf : Reachable d f) (ht : fType d f = ftypeDir) (name : List Byte) :
    ∃ res, dirLookup d f name = some (res, d) ∧ (∀ g, res = .ok g → Names d [name] f g) ∧
      ∀ r, res = .error r → r = -eNotFound ∧ ∀ g, ¬ Names d [name] f g := by
  obtain ⟨res, h1, h2, h3⟩ := dirScan_full (nameEq name) hw.toConsistent.valid (reachable_linked hf)
    fun i hi => hw.full f i hf ht (List.mem_range.1 hi)
  have hsz := hw.dirSize f hf ht
  unfold dirLookup
  rw [if_neg (not_not.2 hsz), h1]
  simp only [Option.bind_eq_bind, Option.bind_some]
  rcases res with _ | g
  · refine ⟨_, rfl, nofun, fun r hr => ?_⟩
    cases hr
    refine ⟨rfl, ?_⟩
    rintro g ⟨-, i, hi, -, j, hj, h4, -⟩
    rw [h2 rfl i (List.mem_range.2 hi) j hj] at h4
    cases h4
  · refine ⟨_, rfl, fun g' hg => ?_, nofun⟩
    cases hg
    obtain ⟨i, hi, j, hj, rfl, h4⟩ := h3 g rfl
    have hi := List.mem_range.1 hi
    exact ⟨ht, i, hi, hw.full f i hf ht hi, j, hj, h4, rfl⟩

/-- An element names an entry only if it is short. -/
theorem short_of_names (hf : Reachable d f) (hg : GoodName name) (hn : Names d [name] f g) : name.length < 128 := by
  have h1 := names_reachable hf (by simpa using hg) hn
  obtain ⟨ht, i, hi, h0, j, hj, h2, rfl⟩ := hn
  refine nameEq_short hg h2 (hw.ended _ h1 ?_)
  exact entry_ne_root hw.toConsistent.valid.sound (reachable_linked hf) h0

/-- A path names one file. -/
theorem names_unique (hf : Reachable d f) (hg : ∀ name ∈ els, GoodName name) (h1 : Names d els f g)
    (h2 : Names d els f g') : g = g' := by
  induction els generalizing f with
  | nil => exact h1.trans h2.symm
  | cons name els ih =>
    have hn := hg name List.mem_cons_self
    obtain ⟨h, h3, h4⟩ := names_cons.1 h1
    obtain ⟨h', h5, h6⟩ := names_cons.1 h2
    have hl := hw.short_of_names hf hn h3
    have hr := names_reachable hf (by simpa using hn) h3
    obtain ⟨ht, i, hi, h0, j, hj, h7, rfl⟩ := h3
    obtain ⟨-, i', hi', h0', j', hj', h8, rfl⟩ := h5
    obtain ⟨rfl, rfl⟩ := hw.unique f hf ht ⟨name, hn.2⟩ hn.1 hl i j i' j' hi h0 hj hi' h0' hj' h7 h8
    exact ih hr (fun k hk => hg k (List.mem_cons_of_mem _ hk)) h4 h6

theorem short_of_path (hf : Reachable d f) (hg : ∀ name ∈ els, GoodName name) (h1 : Names d els f g) :
    ∀ name ∈ els, name.length < 128 := by
  intro name hmem
  obtain ⟨a, b, rfl⟩ := List.append_of_mem hmem
  obtain ⟨h, h2, h3⟩ := names_append.1 h1
  obtain ⟨h', h4, -⟩ := names_cons.1 h3
  have hr := names_reachable hf (fun k hk => hg k (List.mem_append_left _ hk)) h2
  exact hw.short_of_names hr (hg name hmem) h4

/-! ## The walk -/

/-- Behind an element that names nothing, no other is reached. -/
theorem stuck {above' rest' : List (List Byte)} {name' : List Byte} (hf : Names d above sRoot f)
    (hg : ∀ k ∈ above ++ name :: rest, GoodName k) (hdead : ∀ g, ¬ Names d [name] f g)
    (hn : Names d above' sRoot g) (he : above ++ name :: rest = above' ++ name' :: rest') :
    above = above' ∧ name = name' ∧ rest = rest' ∧ g = f ∨ name'.length < 128 ∧ rest' ≠ [] := by
  have hga : ∀ k ∈ above, GoodName k := fun k hk => hg k (List.mem_append_left _ hk)
  rcases List.append_eq_append_iff.1 he with ⟨c, h1, h2⟩ | ⟨c, h1, h2⟩
  · cases c with
    | nil =>
      rw [List.append_nil] at h1
      cases h2
      rw [h1] at hn
      exact Or.inl ⟨h1.symm, rfl, rfl, hw.names_unique .root hga hn hf⟩
    | cons x c =>
      -- the walk went through the element `x`
      obtain ⟨rfl, -⟩ := List.cons.inj h2
      exfalso
      rw [h1] at hn
      obtain ⟨h, h3, h4⟩ := names_append.1 hn
      cases hw.names_unique .root hga h3 hf
      obtain ⟨k, h5, -⟩ := names_cons.1 h4
      exact hdead k h5
  · cases c with
    | nil =>
      rw [List.append_nil] at h1
      cases h2
      rw [← h1] at hn
      exact Or.inl ⟨h1, rfl, rfl, hw.names_unique .root hga hn hf⟩
    | cons x c =>
      obtain ⟨rfl, h3⟩ := List.cons.inj h2
      refine Or.inr ⟨hw.short_of_path .root hga hf _ ?_, ?_⟩
      · rw [h1]
        exact List.mem_append_right _ List.mem_cons_self
      · rw [h3]
        simp

/-- **A walk that fails** at an element. -/
theorem resolves_failed {r : ℤ} {last : Option (ℕ × List Byte)} (hf : Names d above sRoot f)
    (hg : ∀ k ∈ above ++ name :: rest, GoodName k) (hdead : ∀ g, ¬ Names d [name] f g)
    (hr : r = if 128 ≤ name.length then -eBadPath else -eNotFound)
    (hlast : last = if name.length < 128 ∧ rest = [] ∧ fType d f = ftypeDir then some (f, name) else none) :
    Resolves d (above ++ name :: rest) (Walk.failed r last).out := by
  have hne : r ≠ 0 := by
    rw [hr]
    split <;> decide
  have hout : (Walk.failed r last).out.r = r := by
    rcases last with _ | ⟨_, _⟩ <;> rfl
  have hbad : r = -eBadPath ↔ 128 ≤ name.length := by
    rw [hr]
    split
    · simp [*]
    · simp only [*, iff_false]
      decide
  have hnot : r = -eNotFound ↔ name.length < 128 := by
    rw [hr]
    split
    · simp only [show ¬ name.length < 128 by omega, iff_false]
      decide
    · simp only [show name.length < 128 by omega]
  constructor
  · -- nothing has the path
    rw [hout]
    refine ⟨fun h => absurd h hne, ?_⟩
    rintro ⟨g, h1⟩
    obtain ⟨h, h2, h3⟩ := names_append.1 h1
    cases hw.names_unique .root (fun k hk => hg k (List.mem_append_left _ hk)) h2 hf
    obtain ⟨k, h5, -⟩ := names_cons.1 h3
    exact absurd h5 (hdead k)
  · rw [hout]
    exact fun h => absurd h hne
  · rw [hout]
    exact fun h => absurd h hne
  · rw [hout, hbad]
    constructor
    · intro h1
      exact ⟨above, name, rest, f, rfl, hf, h1⟩
    · rintro ⟨above', name', rest', g, h1, h2, h3⟩
      rcases hw.stuck hf hg hdead h2 h1 with ⟨-, rfl, -⟩ | ⟨h4, -⟩
      · exact h3
      · omega
  · rw [hout]
    intro _ h1
    rw [hr] at h1 ⊢
    split at h1
    · exact absurd rfl h1
    · rw [if_neg (by assumption)]
  · intro _
    rcases last with _ | ⟨_, _⟩ <;> rfl
  · intro _ dir' name'
    rw [hout, hnot]
    have hl : ((Walk.failed r last).out.pdir = some dir' ∧ (Walk.failed r last).out.lastelem = some name') ↔
        last = some (dir', name') := by
      rcases last with _ | ⟨a, b⟩
      · exact ⟨fun h => (nomatch h.1), nofun⟩
      · simp [Walk.out]
    rw [hl, hlast]
    constructor
    · intro h1
      split at h1
      · rename_i hc
        cases h1
        exact ⟨hc.1, above, by rw [hc.2.1], hf, hc.2.2⟩
      · cases h1
    · rintro ⟨h1, above', h2, h3, h4⟩
      rcases hw.stuck hf hg hdead h3 h2 with ⟨rfl, rfl, rfl, rfl⟩ | ⟨-, h5⟩
      · rw [if_pos ⟨h1, rfl, h4⟩]
      · exact absurd rfl h5
  · intro _
    rcases last with _ | ⟨_, _⟩
    · exact ⟨fun _ => rfl, fun _ => rfl⟩
    · exact ⟨nofun, nofun⟩

/-- **The walk resolves the path.** The induction is on the elements still to follow. -/
theorem walkElements_resolves {pdir : Option ℕ} (hf : Names d above sRoot f) (hd : Above d above pdir)
    (hg : ∀ k ∈ above ++ els, GoodName k) :
    ∃ w, walkElements els pdir f d = some (w, d) ∧ Resolves d (above ++ els) w.out := by
  induction els generalizing above f pdir with
  | nil =>
    rw [List.append_nil] at hg ⊢
    refine ⟨.found pdir f, rfl, ?_⟩
    have hu : ∀ g, Names d above sRoot g ↔ g = f :=
      fun g => ⟨fun h => hw.names_unique .root hg h hf, fun h => h ▸ hf⟩
    constructor
    · exact ⟨fun _ => ⟨f, hf⟩, fun _ => rfl⟩
    · exact fun _ => ⟨f, rfl, hu⟩
    · intro _
      rcases pdir with _ | dir
      · exact Or.inl ⟨hd, rfl⟩
      · obtain ⟨a, name, rfl, h1⟩ := hd
        have hga : ∀ k ∈ a, GoodName k := fun k hk => hg k (List.mem_append_left _ hk)
        exact Or.inr ⟨a, name, dir, rfl, rfl, fun g => ⟨fun h => hw.names_unique .root hga h h1, fun h => h ▸ h1⟩⟩
    · constructor
      · intro h1
        have h2 : (0 : ℤ) = -eBadPath := h1
        exact absurd h2 (by decide)
      · rintro ⟨a, name, rest, g, rfl, -, h2⟩
        have h3 := hw.short_of_path .root hg hf name (by simp)
        omega
    · exact fun h => absurd rfl h
    · exact fun h => absurd rfl h
    · exact fun h => absurd rfl h
    · exact fun h => absurd rfl h
  | cons name rest ih =>
    have hn := hg name (by simp)
    have hfr := names_reachable .root (fun k hk => hg k (List.mem_append_left _ hk)) hf
    unfold walkElements
    by_cases hl : name.length ≥ 128
    · rw [if_pos hl]
      refine ⟨_, rfl, hw.resolves_failed hf hg (fun g h1 => ?_) (if_pos hl).symm ?_⟩
      · have := hw.short_of_names hfr hn h1
        omega
      · rw [if_neg fun hc => by omega]
    · rw [if_neg hl]
      by_cases ht : fType d f ≠ ftypeDir
      · rw [if_pos ht]
        refine ⟨_, rfl, hw.resolves_failed hf hg (fun g h1 => ht h1.1) (if_neg hl).symm ?_⟩
        rw [if_neg fun hc => ht hc.2.2]
      · rw [if_neg ht]
        rw [not_not] at ht
        obtain ⟨res, h1, h2, h3⟩ := hw.dirLookup_full hfr ht name
        rw [h1]
        simp only [Option.bind_eq_bind, Option.bind_some]
        rcases res with r | g
        · obtain ⟨rfl, hdead⟩ := h3 r rfl
          refine ⟨_, rfl, hw.resolves_failed hf hg hdead (if_neg hl).symm ?_⟩
          by_cases hrest : rest = []
          · rw [if_pos ⟨rfl, hrest⟩, if_pos ⟨by omega, hrest, ht⟩]
          · rw [if_neg fun hc => hrest hc.2, if_neg fun hc => hrest hc.2.1]
        · have h4 : Names d (above ++ [name]) sRoot g := names_append.2 ⟨f, hf, h2 g rfl⟩
          have h5 : above ++ name :: rest = above ++ [name] ++ rest := by simp
          rw [h5] at hg ⊢
          exact ih h4 ⟨above, name, rfl, hf⟩ hg

/-- **`walk_path` agrees with the reference resolver**, and changes nothing. -/
theorem walkPath_agrees (path : CString) :
    ∃ out, walkPathScan d path = some (out, d) ∧ Resolves d (elements path) out := by
  have hg : ∀ k ∈ [] ++ elements path, GoodName k := elements_good path
  have hroot : Names d [] sRoot sRoot := rfl
  have habove : Above d [] none := rfl
  obtain ⟨w, h1, h2⟩ := hw.walkElements_resolves hroot habove hg
  refine ⟨w.out, ?_, h2⟩
  rw [walkPathScan_eq]
  unfold walkPath
  rw [h1]
  rfl

end WellFormed

end Jos.Fs
