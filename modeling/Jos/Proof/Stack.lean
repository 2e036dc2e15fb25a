import Jos.Spec.Spawn

/-!
# The stack of a new program

`Placed` is what `_start` and `umain` rely on: at the stack pointer are `argc` and the address of the array,
whose pointers lead to the arguments, and nothing overlaps. `stackLoop_spec` says what the loop of
`init_stack` stores, as long as all of it goes to `UTEMP`; and if no byte goes anywhere else, then the
arguments fit (`stackLoop_stray`). So `init_stack` is right exactly if they fit, or if it stops before it
stores anything (`init_stack_right`): the test itself is done with a difference that may wrap around.
-/

namespace Jos.Spawn

open Lib

open Fd (Pte)

open Fs (CString)

variable {writable : VA → Bool} {w w' : World} {a ss ss' A : VA} {bs : List Byte} {argv : List CString} {pte : Pte}
  {o : StackCalls} {rsp : VA} {d : Bytes} {i : ℕ}

/-! ## The layout -/

/-- The bytes of the arguments, with their terminators. -/
def total (argv : List CString) : ℕ := (argv.map fun s => s.chars.length + 1).sum

/-- The bytes that `init_stack` needs: the arguments, up to a multiple of 8, the array, and two words. -/
def need (argv : List CString) : ℕ := (total argv + 7) / 8 * 8 + 8 * (argv.length + 1) + 16

/-- The address of the stack page of the child. -/
def stackBase : ℕ := (ustacktop - pgsize).toNat

/-- The word at an address of the child in its stack page. -/
def word (page : Bytes) (a : VA) : BitVec 64 := page.load64 (a.toNat - stackBase)

/-- The parts of the stack page, with their lengths: the two words, the array, and each argument. -/
def part (rsp args : VA) (ptr : ℕ → VA) (argv : List CString) : ℕ → ℕ × ℕ
  | 0 => (rsp.toNat, 16)
  | 1 => (args.toNat, 8 * (argv.length + 1))
  | i + 2 => ((ptr i).toNat, ((argv[i]?).map fun s => s.chars.length + 1).getD 0)

/-- **The layout**: `args` is the address of the array, and `ptr i` that of argument `i`. -/
structure Placed (page : Bytes) (rsp args : VA) (ptr : ℕ → VA) (argv : List CString) : Prop where
  count : word page rsp = BitVec.ofNat 64 argv.length
  array : word page (rsp + 8) = args
  aligned : args.toNat % 8 = 0
  pointer : ∀ i < argv.length, word page (args + BitVec.ofNat 64 (8 * i)) = ptr i
  null : word page (args + BitVec.ofNat 64 (8 * argv.length)) = 0
  string : ∀ i s, argv[i]? = some s →
    page.read ((ptr i).toNat - stackBase) (s.chars.length + 1) = s.chars ++ [0]
  inside : ∀ i < argv.length + 2, stackBase ≤ (part rsp args ptr argv i).1 ∧
    (part rsp args ptr argv i).1 + (part rsp args ptr argv i).2 ≤ stackBase + 4096
  apart : ∀ i < argv.length + 2, ∀ j < argv.length + 2, i ≠ j →
    (part rsp args ptr argv i).1 + (part rsp args ptr argv i).2 ≤ (part rsp args ptr argv j).1 ∨
      (part rsp args ptr argv j).1 + (part rsp args ptr argv j).2 ≤ (part rsp args ptr argv i).1

/-- **What `init_stack` is to do**: it fails and has stored nothing outside of `UTEMP`, or the stack page of
the child is laid out; and `UTEMP` is unmapped. -/
def StackRight (writable : VA → Bool) (argv : List CString) (o : StackCalls) (initRsp : VA) (w : World) : Prop :=
  ∃ r rsp w', initStack writable argv o initRsp w = some (r, rsp, w') ∧ w'.utemp = none ∧
    (r < 0 ∧ w'.stray = w.stray ∨ r = 0 ∧ ∃ s pte args ptr, w'.child = some s ∧
      s (pageNo (ustacktop - pgsize)) = some pte ∧ Placed (w'.mem pte.page) rsp args ptr argv)

/-! ## What fits -/

/-- Ranges that are apart fit into a range one after the other. -/
theorem sum_le_of_apart {ι : Type} (t : Finset ι) (start len : ι → ℕ) (lo n : ℕ)
    (hin : ∀ i ∈ t, lo ≤ start i ∧ start i + len i ≤ lo + n)
    (hap : ∀ i ∈ t, ∀ j ∈ t, i ≠ j → start i + len i ≤ start j ∨ start j + len j ≤ start i) :
    ∑ i ∈ t, len i ≤ n := by
  classical
  have hcard : (t.biUnion fun i => Finset.Ico (start i) (start i + len i)).card = ∑ i ∈ t, len i := by
    rw [Finset.card_biUnion]
    · simp only [Nat.card_Ico, Nat.add_sub_cancel_left]
    · intro i hi j hj hne
      refine Finset.disjoint_left.2 ?_
      intro x hx hx'
      rw [Finset.mem_Ico] at hx hx'
      have := hap i hi j hj hne
      omega
  have hsub : (t.biUnion fun i => Finset.Ico (start i) (start i + len i)) ⊆ Finset.Ico lo (lo + n) := by
    intro x hx
    obtain ⟨i, hi, hx⟩ := Finset.mem_biUnion.1 hx
    rw [Finset.mem_Ico] at hx ⊢
    have := hin i hi
    omega
  have hle := Finset.card_le_card hsub
  rw [hcard, Nat.card_Ico] at hle
  omega

/-- The lengths of the arguments, one by one. -/
theorem sum_lengths (argv : List CString) :
    ∑ i ∈ Finset.range argv.length, ((argv[i]?).map fun s => s.chars.length + 1).getD 0 = total argv := by
  unfold total
  induction argv with
  | nil => rfl
  | cons s argv ih =>
    rw [List.length_cons, Finset.sum_range_succ', List.map_cons, List.sum_cons, ← ih]
    simp only [List.getElem?_cons_succ, List.getElem?_cons_zero, Option.map_some, Option.getD_some]
    omega

/-- **A layout has room** for all parts. -/
theorem Placed.need_le {page : Bytes} {args : VA} {ptr : ℕ → VA} (h : Placed page rsp args ptr argv) :
    need argv ≤ 4096 := by
  have hsum := sum_le_of_apart (Finset.range (argv.length + 2)) (fun i => (part rsp args ptr argv i).1)
    (fun i => (part rsp args ptr argv i).2) stackBase 4096 (fun i hi => h.inside i (Finset.mem_range.1 hi))
    fun i hi j hj hne => h.apart i (Finset.mem_range.1 hi) j (Finset.mem_range.1 hj) hne
  rw [Finset.sum_range_succ', Finset.sum_range_succ'] at hsum
  have h1 : ∑ i ∈ Finset.range argv.length, (part rsp args ptr argv (i + 1 + 1)).2 = total argv :=
    sum_lengths argv
  have h2 : (part rsp args ptr argv (0 + 1)).2 = 8 * (argv.length + 1) := rfl
  have h3 : (part rsp args ptr argv 0).2 = 16 := rfl
  rw [h1, h2, h3] at hsum
  unfold need
  omega

theorem length_le_total (argv : List CString) : argv.length ≤ total argv := by
  unfold total
  induction argv with
  | nil => exact Nat.zero_le _
  | cons s argv ih =>
    rw [List.length_cons, List.map_cons, List.sum_cons]
    omega

theorem utemp_toNat : Jos.utemp.toNat = 0x400000 := by decide

theorem stackBase_eq : stackBase = 0xEF7FD000 := by decide

/-- The computed size. -/
theorem stringSize_eq (argv : List CString) : stringSize argv = BitVec.ofNat 64 (total argv) := by
  have hgen : ∀ (l : List CString) (z : BitVec 64),
      l.foldl (fun size s => size + (BitVec.ofNat 64 s.chars.length + 1)) z = z + BitVec.ofNat 64 (total l) := by
    intro l
    unfold total
    induction l with
    | nil =>
      intro z
      exact (BitVec.add_zero z).symm
    | cons s l ih =>
      intro z
      rw [List.foldl_cons, ih, List.map_cons, List.sum_cons, BitVec.ofNat_add, BitVec.ofNat_add, BitVec.add_assoc]
      rfl
  unfold stringSize
  rw [hgen]
  exact BitVec.zero_add _

/-- Where `argv_store` is, as long as `8 * (argc + 1)` does not overflow. -/
theorem argvStore_toNat (hn : argv.length + 1 < 2 ^ 28) (hs : total argv < 2 ^ 62) :
    (stringStore argv).toNat = (2 ^ 64 + 0x401000 - total argv) % 2 ^ 64 ∧
      (argvStore argv).toNat = (2 ^ 64 + 0x401000 - (total argv + 7) / 8 * 8 - 8 * (argv.length + 1)) % 2 ^ 64 := by
  have h1 : (stringStore argv).toNat = (2 ^ 64 + 0x401000 - total argv) % 2 ^ 64 := by
    unfold stringStore
    rw [stringSize_eq, BitVec.toNat_sub, BitVec.toNat_ofNat]
    have h2 : (Jos.utemp + pgsize).toNat = 0x401000 := by decide
    omega
  refine ⟨h1, ?_⟩
  have h3 : ((8 * (argc argv + 1)).signExtend 64).toNat = 8 * (argv.length + 1) := by
    have h4 : (8 * (argc argv + 1)).toNat = 8 * (argv.length + 1) := by
      unfold argc
      rw [BitVec.toNat_mul, BitVec.toNat_add, BitVec.toNat_ofNat]
      have h5 : (8 : BitVec 32).toNat = 8 := rfl
      have h6 : (1 : BitVec 32).toNat = 1 := rfl
      rw [h5, h6]
      omega
    rw [BitVec.signExtend_eq_setWidth_of_msb_false, BitVec.toNat_setWidth, h4]
    · omega
    · rw [BitVec.msb_eq_decide, h4]
      exact decide_eq_false (by omega)
  unfold argvStore roundDown
  have h8 : (8 : BitVec 64).toNat = 8 := rfl
  rw [BitVec.toNat_sub, h3, BitVec.toNat_sub, BitVec.toNat_umod, h8, h1]
  omega

/-- **Which arguments are refused**: those that need between a page and what is below the end of `UTEMP`. -/
theorem refuses_iff (hn : argv.length + 1 < 2 ^ 28) (hs : total argv < 2 ^ 62) :
    Refuses argv ↔ 4096 < need argv ∧ need argv ≤ 0x401000 := by
  obtain ⟨-, h1⟩ := argvStore_toNat hn hs
  have h16 : (16 : BitVec 64).toNat = 16 := rfl
  have hle := length_le_total argv
  unfold Refuses need
  rw [BitVec.lt_def, BitVec.toNat_sub, h16, utemp_toNat, h1]
  omega

/-- If the strings fit into a page, then what is not refused fits. -/
theorem need_le_of_total (h : total argv ≤ 4096) (hr : ¬ Refuses argv) : need argv ≤ 4096 := by
  have hle := length_le_total argv
  rw [refuses_iff (by omega) (by omega)] at hr
  have hmax : need argv ≤ 0x401000 := by
    unfold need
    omega
  omega

/-! ## Stores to `UTEMP` -/

@[simp] theorem setPage_utemp {p : ℕ} : (w.setPage p d).utemp = w.utemp := rfl

@[simp] theorem setPage_mem {p : ℕ} : (w.setPage p d).mem p = d := Function.update_self ..

theorem setPage_setPage {p : ℕ} {d' : Bytes} : (w.setPage p d).setPage p d' = w.setPage p d' := by
  unfold World.setPage
  simp only [Function.update_idem]

theorem setPage_self {p : ℕ} : w.setPage p (w.mem p) = w := by
  unfold World.setPage
  simp only [Function.update_eq_self]

/-- The page at `UTEMP` can be written. -/
def TempPage (w : World) (pte : Pte) : Prop := w.utemp = some pte ∧ flag pte.perm pteU = true ∧ flag pte.perm pteW = true

/-- An address in the page. -/
def temp (off : ℕ) : VA := Jos.utemp + BitVec.ofNat 64 off

theorem temp_sub {off : ℕ} (h : off < 4096) : (temp off - Jos.utemp).toNat = off ∧ temp off - Jos.utemp < pgsize := by
  have h1 : temp off - Jos.utemp = BitVec.ofNat 64 off := by
    unfold temp
    rw [BitVec.add_comm, BitVec.add_sub_cancel]
  have h2 : (BitVec.ofNat 64 off).toNat = off := by
    rw [BitVec.toNat_ofNat]
    omega
  rw [h1]
  refine ⟨h2, ?_⟩
  rw [BitVec.lt_def, h2]
  exact h

theorem ofNat_succ (n : ℕ) : BitVec.ofNat 64 n + 1 = BitVec.ofNat 64 (n + 1) := (BitVec.ofNat_add ..).symm

theorem temp_add {off k : ℕ} : temp off + BitVec.ofNat 64 k = temp (off + k) := by
  unfold temp
  rw [BitVec.ofNat_add, BitVec.add_assoc]

/-- **A store to the page** goes through. -/
theorem store_temp {off : ℕ} (h : TempPage w pte) (hoff : off + bs.length ≤ 4096) :
    store writable w (temp off) bs = some (w.setPage pte.page ((w.mem pte.page).write off bs)) := by
  induction bs generalizing w off with
  | nil =>
    rw [Bytes.write_nil, setPage_self]
    rfl
  | cons b bs ih =>
    rw [List.length_cons] at hoff
    obtain ⟨h1, h2⟩ := temp_sub (show off < 4096 by omega)
    have hb : storeByte writable w (temp off) b = some (w.setPage pte.page ((w.mem pte.page).write off [b])) := by
      unfold storeByte
      rw [if_pos h2, h.1]
      dsimp only
      rw [h.2.1, h.2.2, h1]
      rfl
    have hnext : temp off + 1 = temp (off + 1) := temp_add
    have hw : TempPage (w.setPage pte.page ((w.mem pte.page).write off [b])) pte := h
    unfold store
    rw [hb, Option.bind_eq_bind, Option.bind_some, hnext, ih hw (by omega), setPage_mem, setPage_setPage]
    have hcat := Bytes.write_write (w.mem pte.page) off [b] bs
    rw [List.length_singleton] at hcat
    rw [hcat]
    rfl

/-- **A store that stays in the page** ends in it. -/
theorem store_stray (h : store writable w a bs = some w') : w.stray ≤ w'.stray ∧
    (w'.stray = w.stray → bs ≠ [] → (a - Jos.utemp).toNat + bs.length ≤ 4096) := by
  induction bs generalizing w a with
  | nil =>
    obtain rfl := Option.some.inj h
    exact ⟨le_rfl, fun _ hne => absurd rfl hne⟩
  | cons b bs ih =>
    obtain ⟨w₁, h1, h2⟩ := Option.bind_eq_some_iff.1 h
    obtain ⟨h3, h4⟩ := ih h2
    unfold storeByte at h1
    split at h1
    · rename_i hin
      have hstray : w₁.stray = w.stray := by
        split at h1
        · cases h1
        · split at h1
          · rw [← Option.some.inj h1]
            rfl
          · cases h1
      rw [BitVec.lt_def] at hin
      have hpg : pgsize.toNat = 4096 := rfl
      rw [hpg] at hin
      refine ⟨hstray ▸ h3, fun heq _ => ?_⟩
      rw [List.length_cons]
      by_cases hbs : bs = []
      · rw [hbs, List.length_nil]
        omega
      · have hle := h4 (heq.trans hstray.symm) hbs
        have hnext : (a + 1 - Jos.utemp).toNat = (a - Jos.utemp).toNat + 1 := by
          have h5 : (1 : BitVec 64).toNat = 1 := rfl
          rw [add_sub_right_comm, BitVec.toNat_add, h5]
          omega
        omega
    · split at h1
      · obtain rfl := Option.some.inj h1
        -- the byte is counted, for good
        have h5 : w.addStray.stray = w.stray + 1 := rfl
        exact ⟨by omega, fun heq _ => by omega⟩
      · cases h1

/-! ## The loop -/

/-- An address of the page as the child sees it. -/
def childAddr (off : ℕ) : VA := ustacktop - pgsize + BitVec.ofNat 64 off

theorem utemp2ustack_temp (off : ℕ) : utemp2ustack (temp off) = childAddr off := by
  unfold utemp2ustack temp childAddr
  rw [BitVec.add_comm, ← BitVec.add_assoc, BitVec.add_comm (ustacktop - pgsize), BitVec.add_assoc, BitVec.add_comm,
    BitVec.add_sub_cancel]

theorem childAddr_toNat {off : ℕ} (h : off ≤ 4096) : (childAddr off).toNat = stackBase + off := by
  unfold childAddr
  rw [BitVec.toNat_add, BitVec.toNat_ofNat]
  have h1 : (ustacktop - pgsize).toNat = stackBase := rfl
  rw [h1, stackBase_eq]
  omega

/-- The place of argument `i`, if the first is at `ss`. -/
def place (ss : ℕ) (argv : List CString) (i : ℕ) : ℕ := ss + total (argv.take i)

theorem total_cons (s : CString) (argv : List CString) : total (s :: argv) = s.chars.length + 1 + total argv := by
  unfold total
  rw [List.map_cons, List.sum_cons]

theorem place_zero (ss : ℕ) (argv : List CString) : place ss argv 0 = ss := rfl

theorem place_succ (ss : ℕ) (s : CString) (argv : List CString) (i : ℕ) :
    place ss (s :: argv) (i + 1) = place (ss + (s.chars.length + 1)) argv i := by
  unfold place
  rw [List.take_succ_cons, total_cons]
  omega

/-- An argument ends before the next begins, and before the end. -/
theorem place_next {s : CString} (ss : ℕ) (h : argv[i]? = some s) :
    (∀ j, i < j → place ss argv i + (s.chars.length + 1) ≤ place ss argv j) ∧
      place ss argv i + (s.chars.length + 1) ≤ ss + total argv ∧ ss ≤ place ss argv i := by
  induction argv generalizing i ss with
  | nil => cases h
  | cons t argv ih =>
    cases i with
    | zero =>
      obtain rfl := Option.some.inj h
      rw [place_zero, total_cons]
      refine ⟨fun j hj => ?_, by omega, le_rfl⟩
      obtain ⟨k, rfl⟩ : ∃ k, j = k + 1 := ⟨j - 1, by omega⟩
      rw [place_succ]
      exact Nat.le_add_right _ _
    | succ i =>
      obtain ⟨h1, h2, h3⟩ := ih (ss + (t.chars.length + 1)) h
      rw [place_succ, total_cons]
      refine ⟨fun j hj => ?_, by omega, by omega⟩
      obtain ⟨k, rfl⟩ : ∃ k, j = k + 1 := ⟨j - 1, by omega⟩
      rw [place_succ]
      exact h1 k (by omega)

theorem word64_length (x : BitVec 64) : (word64 x).length = 8 := rfl

theorem write_word64 (d : Bytes) (off : ℕ) (x : BitVec 64) : d.write off (word64 x) = d.store64 off x :=
  (Bytes.write_write d off _ _).symm

/-- **What the loop stores**: for each argument that is left, the pointer and the bytes. -/
theorem stackLoop_spec (writable : VA → Bool) {A : ℕ} (ss : ℕ) (argv : List CString) (h : TempPage w pte) (hA : A + 8 * (i + argv.length) ≤ ss)
    (hss : ss + total argv ≤ 4096) : ∃ d, stackLoop writable (temp A) i argv (temp ss) w =
      some (temp (ss + total argv), w.setPage pte.page d) ∧
    (∀ x, x < A + 8 * i ∨ A + 8 * (i + argv.length) ≤ x → x < ss ∨ ss + total argv ≤ x →
      d.byte x = (w.mem pte.page).byte x) ∧
    ∀ k s, argv[k]? = some s → d.load64 (A + 8 * (i + k)) = childAddr (place ss argv k) ∧
      d.read (place ss argv k) (s.chars.length + 1) = s.chars ++ [0] := by
  induction argv generalizing i ss w with
  | nil =>
    refine ⟨w.mem pte.page, ?_, fun _ _ _ => rfl, nofun⟩
    rw [setPage_self]
    rfl
  | cons s argv ih =>
    rw [total_cons] at hss ⊢
    rw [List.length_cons] at hA ⊢
    have hlen : (s.chars ++ [0]).length = s.chars.length + 1 := by rw [List.length_append, List.length_singleton]
    have hw := word64_length (utemp2ustack (temp ss))
    let d₁ := (w.mem pte.page).write (A + 8 * i) (word64 (utemp2ustack (temp ss)))
    let d₂ := d₁.write ss (s.chars ++ [0])
    -- the pointer goes into `argv`, then the string behind those before it
    have h1 : store writable w (temp A + BitVec.ofNat 64 (8 * i)) (word64 (utemp2ustack (temp ss))) =
        some (w.setPage pte.page d₁) := by
      rw [temp_add]
      exact store_temp h (by omega)
    have h2 : store writable (w.setPage pte.page d₁) (temp ss) (s.chars ++ [0]) = some (w.setPage pte.page d₂) := by
      have ht : TempPage (w.setPage pte.page d₁) pte := h
      rw [store_temp ht (by omega), setPage_mem, setPage_setPage]
    have hnext : temp ss + (BitVec.ofNat 64 s.chars.length + 1) = temp (ss + (s.chars.length + 1)) := by
      rw [ofNat_succ, temp_add]
    obtain ⟨d, h3, h4, h5⟩ := ih (w := w.setPage pte.page d₂) (i := i + 1) (ss + (s.chars.length + 1)) h
      (by omega) (by omega)
    rw [setPage_setPage, Nat.add_assoc] at h3
    rw [setPage_mem] at h4
    refine ⟨d, ?_, fun x hx hx' => ?_, fun k t hk => ?_⟩
    · unfold stackLoop
      rw [h1, Option.bind_eq_bind, Option.bind_some, h2, Option.bind_some, hnext]
      exact h3
    · rw [h4 x (by omega) (by omega), Bytes.byte_write_off (by omega), Bytes.byte_write_off (by omega)]
    · cases k with
      | zero =>
        obtain rfl := Option.some.inj hk
        rw [place_zero]
        constructor
        · -- the pointer is below all that is stored from here on
          have h6 : d.load64 (A + 8 * (i + 0)) = d₂.load64 (A + 8 * (i + 0)) :=
            Bytes.load64_copy fun k hk => h4 _ (by omega) (by omega)
          rw [h6, Bytes.load64_write_off (by omega), Nat.add_zero, ← utemp2ustack_temp]
          show ((w.mem pte.page).write (A + 8 * i) _).load64 _ = _
          rw [write_word64, Bytes.load64_store64]
        · rw [Bytes.read_congr (d := d₂) fun k hk => h4 _ (by omega) (by omega), ← hlen]
          exact Bytes.read_write ..
      | succ k =>
        rw [place_succ, show i + (k + 1) = i + 1 + k by omega]
        exact h5 k t hk

/-- **A loop that stays in the page** has room for all arguments. -/
theorem stackLoop_stray (h : stackLoop writable A i argv ss w = some (ss', w')) : w.stray ≤ w'.stray ∧
    (w'.stray = w.stray → argv ≠ [] → (ss - Jos.utemp).toNat + total argv ≤ 4096) := by
  induction argv generalizing i ss w with
  | nil =>
    obtain ⟨-, rfl⟩ := Prod.mk.inj (Option.some.inj h)
    exact ⟨le_rfl, fun _ hne => absurd rfl hne⟩
  | cons s argv ih =>
    obtain ⟨w₁, h1, h⟩ := Option.bind_eq_some_iff.1 h
    obtain ⟨w₂, h2, h3⟩ := Option.bind_eq_some_iff.1 h
    obtain ⟨l1, -⟩ := store_stray h1
    obtain ⟨l2, r2⟩ := store_stray h2
    obtain ⟨l3, r3⟩ := ih h3
    refine ⟨by omega, fun heq _ => ?_⟩
    have hlen : (s.chars ++ [0]).length = s.chars.length + 1 := by rw [List.length_append, List.length_singleton]
    have hs := r2 (by omega) (List.append_ne_nil_of_right_ne_nil _ (List.cons_ne_nil _ _))
    rw [total_cons]
    by_cases hnil : argv = []
    · rw [hnil]
      have h0 : total [] = 0 := rfl
      omega
    · have hrest := r3 (by omega) hnil
      have hnext : (ss + (BitVec.ofNat 64 s.chars.length + 1) - Jos.utemp).toNat =
          (ss - Jos.utemp).toNat + (s.chars.length + 1) := by
        rw [ofNat_succ, add_sub_right_comm, BitVec.toNat_add, BitVec.toNat_ofNat]
        omega
      omega

/-! ## Arguments that fit -/

/-- Where `argv_store` is in the page, if all fits. -/
def arrayOff (argv : List CString) : ℕ := 4096 - (total argv + 7) / 8 * 8 - 8 * (argv.length + 1)

theorem temp_toNat {off : ℕ} (h : off ≤ 4096) : (temp off).toNat = 0x400000 + off := by
  unfold temp
  rw [BitVec.toNat_add, utemp_toNat, BitVec.toNat_ofNat]
  omega

theorem temp_sub_ofNat {off k : ℕ} (h : k ≤ off) : temp off - BitVec.ofNat 64 k = temp (off - k) := by
  rw [← Nat.sub_add_cancel h, ← temp_add, Nat.add_sub_cancel, add_sub_cancel_right]

theorem childAddr_add {off k : ℕ} : childAddr off + BitVec.ofNat 64 k = childAddr (off + k) := by
  unfold childAddr
  rw [BitVec.ofNat_add, BitVec.add_assoc]

theorem word_childAddr {off : ℕ} (h : off ≤ 4096) : word d (childAddr off) = d.load64 off := by
  unfold word
  rw [childAddr_toNat h, Nat.add_sub_cancel_left]

theorem argc_signExtend (h : argv.length < 2 ^ 31) : (argc argv).signExtend 64 = BitVec.ofNat 64 argv.length := by
  unfold argc
  apply BitVec.eq_of_toNat_eq
  rw [BitVec.signExtend_eq_setWidth_of_msb_false, BitVec.toNat_setWidth, BitVec.toNat_ofNat, BitVec.toNat_ofNat]
  · omega
  · rw [BitVec.msb_eq_decide, BitVec.toNat_ofNat]
    exact decide_eq_false (by omega)

section Fits

variable (hn : need argv ≤ 4096)
include hn

theorem stringStore_fits : stringStore argv = temp (4096 - total argv) := by
  have hle := length_le_total argv
  unfold need at hn
  apply BitVec.eq_of_toNat_eq
  rw [(argvStore_toNat (by omega) (by omega)).1, temp_toNat (by omega)]
  omega

theorem argvStore_fits : argvStore argv = temp (arrayOff argv) := by
  have hle := length_le_total argv
  unfold need at hn
  unfold arrayOff
  apply BitVec.eq_of_toNat_eq
  rw [(argvStore_toNat (by omega) (by omega)).2, temp_toNat (by omega)]
  omega

/-- The parts of the page are apart. -/
theorem parts_apart : ∀ i < argv.length + 2, ∃ off len, off + len ≤ 4096 ∧
    part (childAddr (arrayOff argv - 16)) (childAddr (arrayOff argv))
      (fun i => childAddr (place (4096 - total argv) argv i)) argv i = (stackBase + off, len) ∧
    ∀ j < argv.length + 2, i < j → off + len ≤ (part (childAddr (arrayOff argv - 16)) (childAddr (arrayOff argv))
      (fun i => childAddr (place (4096 - total argv) argv i)) argv j).1 - stackBase := by
  have hA : arrayOff argv + 8 * (argv.length + 1) ≤ 4096 - total argv ∧ 16 ≤ arrayOff argv := by
    unfold need at hn
    unfold arrayOff
    omega
  have htot : total argv ≤ 4096 := by
    unfold need at hn
    omega
  -- where the parts begin
  have hbegin : ∀ k < argv.length, (childAddr (place (4096 - total argv) argv k)).toNat =
      stackBase + place (4096 - total argv) argv k ∧ 4096 - total argv ≤ place (4096 - total argv) argv k := by
    intro k hk
    obtain ⟨-, h1, h2⟩ := place_next (4096 - total argv) (List.getElem?_eq_getElem hk)
    exact ⟨childAddr_toNat (by omega), h2⟩
  intro i hi
  match i, hi with
  | 0, _ =>
    refine ⟨arrayOff argv - 16, 16, by omega, ?_, fun j hj hlt => ?_⟩
    · show ((childAddr (arrayOff argv - 16)).toNat, 16) = _
      rw [childAddr_toNat (by omega)]
    · match j, hlt with
      | 1, _ =>
        show _ ≤ (childAddr (arrayOff argv)).toNat - stackBase
        rw [childAddr_toNat (by omega)]
        omega
      | j + 2, _ =>
        show _ ≤ (childAddr (place (4096 - total argv) argv j)).toNat - stackBase
        have h1 := hbegin j (by omega)
        omega
  | 1, _ =>
    refine ⟨arrayOff argv, 8 * (argv.length + 1), by omega, ?_, fun j hj hlt => ?_⟩
    · show ((childAddr (arrayOff argv)).toNat, 8 * (argv.length + 1)) = _
      rw [childAddr_toNat (by omega)]
    · match j, hlt with
      | j + 2, _ =>
        show _ ≤ (childAddr (place (4096 - total argv) argv j)).toNat - stackBase
        have h1 := hbegin j (by omega)
        omega
  | i + 2, hi =>
    have hlt : i < argv.length := by omega
    obtain ⟨h1, h2, -⟩ := place_next (4096 - total argv) (List.getElem?_eq_getElem hlt)
    refine ⟨place (4096 - total argv) argv i, argv[i].chars.length + 1, by omega, ?_, fun j hj hij => ?_⟩
    · show ((childAddr _).toNat, ((argv[i]?).map _).getD 0) = _
      rw [List.getElem?_eq_getElem hlt, (hbegin i hlt).1]
      rfl
    · match j, hij with
      | j + 2, hij =>
        show _ ≤ (childAddr (place (4096 - total argv) argv j)).toNat - stackBase
        rw [(hbegin j (by omega)).1]
        have h3 := h1 j (by omega)
        omega

/-- **What fits is laid out.** -/
theorem fillStack_fits (writable : VA → Bool) (h : TempPage w pte) : ∃ d, fillStack writable argv w = some (w.setPage pte.page d) ∧
    Placed d (childAddr (arrayOff argv - 16)) (childAddr (arrayOff argv))
      (fun i => childAddr (place (4096 - total argv) argv i)) argv := by
  have hA : arrayOff argv + 8 * (argv.length + 1) ≤ 4096 - total argv ∧ 16 ≤ arrayOff argv ∧ arrayOff argv % 8 = 0 := by
    unfold need at hn
    unfold arrayOff
    omega
  obtain ⟨hA, h16, h8⟩ := hA
  have htot : total argv ≤ 4096 := by
    unfold need at hn
    omega
  have hle := length_le_total argv
  have hlen : argv.length < 2 ^ 31 := by omega
  obtain ⟨d₀, h1, -, h2⟩ := stackLoop_spec writable (i := 0) (A := arrayOff argv) (4096 - total argv) argv h
    (by omega) (by omega)
  let d₁ := d₀.write (arrayOff argv + 8 * argv.length) (word64 0)
  let d₂ := d₁.write (arrayOff argv - 8) (word64 (childAddr (arrayOff argv)))
  let d₃ := d₂.write (arrayOff argv - 16) (word64 (BitVec.ofNat 64 argv.length))
  have hw : ∀ x : BitVec 64, (word64 x).length = 8 := word64_length
  have hstore : ∀ (d : Bytes) (off : ℕ) (x : BitVec 64), off + 8 ≤ 4096 →
      store writable (w.setPage pte.page d) (temp off) (word64 x) = some (w.setPage pte.page (d.write off (word64 x))) := by
    intro d off x hoff
    have ht : TempPage (w.setPage pte.page d) pte := h
    rw [store_temp ht (by rw [hw]; exact hoff), setPage_mem, setPage_setPage]
  have hend : temp (arrayOff argv) + 8 * (argc argv).signExtend 64 = temp (arrayOff argv + 8 * argv.length) := by
    rw [argc_signExtend hlen, ← temp_add, BitVec.ofNat_mul]
    rfl
  have hm8 : temp (arrayOff argv) - 8 = temp (arrayOff argv - 8) := temp_sub_ofNat (show 8 ≤ arrayOff argv by omega)
  have hm16 : temp (arrayOff argv) - 16 = temp (arrayOff argv - 16) := temp_sub_ofNat h16
  refine ⟨d₃, ?_, ?_⟩
  · unfold fillStack
    rw [argvStore_fits hn, stringStore_fits hn, h1, Option.bind_eq_bind, Option.bind_some]
    dsimp only
    rw [hend, hstore _ _ _ (by omega), Option.bind_eq_bind, Option.bind_some, Nat.sub_add_cancel htot,
      if_neg (not_not_intro (by decide : temp 4096 = Jos.utemp + pgsize)),
      hm8, utemp2ustack_temp, hstore _ _ _ (by omega), Option.bind_some, hm16, argc_signExtend hlen, hstore _ _ _ (by omega)]
  -- what is behind the two words is as it was before them
  have hword : ∀ off, arrayOff argv ≤ off → d₃.load64 off = d₁.load64 off := by
    intro off hoff
    have h3 := hw (BitVec.ofNat 64 argv.length)
    have h4 := hw (childAddr (arrayOff argv))
    rw [Bytes.load64_write_off (by omega), Bytes.load64_write_off (by omega)]
  have hparts := parts_apart hn
  refine ⟨?_, ?_, ?_, fun i hi => ?_, ?_, fun i s hs => ?_, fun i hi => ?_, fun i hi j hj hne => ?_⟩
  · rw [word_childAddr (by omega)]
    show (d₂.write _ _).load64 _ = _
    rw [write_word64, Bytes.load64_store64]
  · have h3 : childAddr (arrayOff argv - 16) + 8 = childAddr (arrayOff argv - 8) := by
      have h4 : arrayOff argv - 8 = arrayOff argv - 16 + 8 := by omega
      rw [h4]
      exact childAddr_add
    have h5 := hw (BitVec.ofNat 64 argv.length)
    rw [h3, word_childAddr (by omega), Bytes.load64_write_off (by omega)]
    show (d₁.write _ _).load64 _ = _
    rw [write_word64, Bytes.load64_store64]
  · rw [childAddr_toNat (by omega), stackBase_eq]
    omega
  · obtain ⟨h3, -⟩ := h2 i _ (List.getElem?_eq_getElem hi)
    rw [Nat.zero_add] at h3
    have h4 := hw 0
    rw [childAddr_add, word_childAddr (by omega), hword _ (by omega), Bytes.load64_write_off (by omega), h3]
  · rw [childAddr_add, word_childAddr (by omega), hword _ (by omega)]
    show (d₀.write _ _).load64 _ = _
    rw [write_word64, Bytes.load64_store64]
  · obtain ⟨-, h3⟩ := h2 i s hs
    obtain ⟨-, h4, h5⟩ := place_next (4096 - total argv) hs
    have h6 := hw (BitVec.ofNat 64 argv.length)
    have h7 := hw (childAddr (arrayOff argv))
    have h8 := hw 0
    rw [childAddr_toNat (by omega), Nat.add_sub_cancel_left, ← h3]
    refine Bytes.read_congr fun k hk => ?_
    rw [Bytes.byte_write_off (by omega), Bytes.byte_write_off (by omega), Bytes.byte_write_off (by omega)]
  · obtain ⟨off, len, h3, h4, -⟩ := hparts i hi
    rw [h4]
    exact ⟨by omega, by omega⟩
  · obtain ⟨off, len, h3, h4, h5⟩ := hparts i hi
    obtain ⟨off', len', h6, h7, h8⟩ := hparts j hj
    rcases Nat.lt_or_gt_of_ne hne with hij | hji
    · have h9 := h5 j hj hij
      rw [h7] at h9
      rw [h4, h7]
      exact Or.inl (by omega)
    · have h9 := h8 i hi hji
      rw [h4] at h9
      rw [h4, h7]
      exact Or.inr (by omega)

end Fits

/-! ## `init_stack` -/

theorem rwPerm_flags : flag rwPerm pteU = true ∧ flag rwPerm pteW = true := by decide

/-- The world after `sys_page_alloc` at `UTEMP`. -/
theorem tempPage_alloc (h : ∀ p ∈ some (⟨w.fresh, rwPerm⟩ : Pte), p.page < w.pageAlloc.fresh) :
    TempPage (w.pageAlloc.setUtemp (some ⟨w.fresh, rwPerm⟩) h) ⟨w.fresh, rwPerm⟩ :=
  ⟨rfl, rwPerm_flags.1, rwPerm_flags.2⟩

/-- **How `sys_page_map` from `UTEMP` ends**: it fails and changes nothing, or the child has the page. -/
theorem sysPageMapTemp_cases {va : VA} {perm : BitVec 32} {mem : Bool} {r : ℤ}
    (h : sysPageMapTemp w va perm mem = (r, w')) : r < 0 ∧ w' = w ∨ r = 0 ∧ va < utop ∧ ∃ s hs pte hlt,
      w.utemp = some pte ∧ w' = w.setEntry s hs (pageNo va) ⟨pte.page, perm ||| pteP⟩ hlt := by
  unfold sysPageMapTemp at h
  split at h
  · obtain ⟨rfl, rfl⟩ := Prod.mk.inj h
    exact Or.inl ⟨by decide, rfl⟩
  · split at h
    · obtain ⟨rfl, rfl⟩ := Prod.mk.inj h
      exact Or.inl ⟨by decide, rfl⟩
    · split at h
      · obtain ⟨rfl, rfl⟩ := Prod.mk.inj h
        exact Or.inl ⟨by decide, rfl⟩
      · split at h
        · obtain ⟨rfl, rfl⟩ := Prod.mk.inj h
          exact Or.inl ⟨by decide, rfl⟩
        · rename_i s hs hva _ pte ht
          split at h
          · obtain ⟨rfl, rfl⟩ := Prod.mk.inj h
            exact Or.inl ⟨by decide, rfl⟩
          · split at h
            · obtain ⟨rfl, rfl⟩ := Prod.mk.inj h
              exact Or.inr ⟨rfl, BitVec.not_le.1 fun hc => hva (Or.inl hc), s, hs, pte, w.utemp_lt pte ht, ht, rfl⟩
            · obtain ⟨rfl, rfl⟩ := Prod.mk.inj h
              exact Or.inl ⟨by decide, rfl⟩

/-- If `fillStack` goes through and stores nothing outside of `UTEMP`, the arguments fit into a page. -/
theorem fillStack_stray (h : fillStack writable argv w = some w') : w.stray ≤ w'.stray ∧
    (w'.stray = w.stray → total argv ≤ 4096) := by
  obtain ⟨⟨ss, w₁⟩, h1, h⟩ := Option.bind_eq_some_iff.1 h
  obtain ⟨w₂, h2, h⟩ := Option.bind_eq_some_iff.1 h
  split at h
  · cases h
  obtain ⟨w₃, h3, h4⟩ := Option.bind_eq_some_iff.1 h
  obtain ⟨l1, r1⟩ := stackLoop_stray h1
  obtain ⟨l2, -⟩ := store_stray h2
  obtain ⟨l3, -⟩ := store_stray h3
  obtain ⟨l4, -⟩ := store_stray h4
  refine ⟨by omega, fun heq => ?_⟩
  by_cases hnil : argv = []
  · rw [hnil]
    exact Nat.zero_le _
  · have hle := r1 (by omega) hnil
    omega

/-- **When it is right**: it is refused, or there is no memory, while `UTEMP` is unmapped; or all fits. -/
def StackFits (argv : List CString) (o : StackCalls) (w : World) : Prop :=
  argv.length < 2 ^ 31 ∧ ((Refuses argv ∨ o.alloc = false) ∧ w.utemp = none ∨
    ¬ (Refuses argv ∨ o.alloc = false) ∧ need argv ≤ 4096)

theorem StackRight.fits (h : StackRight writable argv o rsp w) : StackFits argv o w := by
  obtain ⟨r, rsp', w', h, hu, hres⟩ := h
  unfold initStack at h
  split at h
  · cases h
  rename_i hlen
  refine ⟨not_le.1 hlen, ?_⟩
  split at h
  · rename_i href
    obtain ⟨-, -, rfl⟩ := Option.some.inj h
    exact Or.inl ⟨Or.inl href, hu⟩
  rename_i href
  unfold sysPageAllocTemp at h
  by_cases ha : o.alloc = true
  · refine Or.inr ⟨by simp [href, ha], ?_⟩
    rw [if_pos ha] at h
    dsimp only at h
    rw [if_neg (lt_irrefl _)] at h
    obtain ⟨w₂, h1, h⟩ := Option.bind_eq_some_iff.1 h
    obtain ⟨hle, htot⟩ := fillStack_stray h1
    rcases hr : sysPageMapTemp w₂ (ustacktop - pgsize) rwPerm o.map with ⟨r₁, w₃⟩
    rw [hr] at h
    rcases hres with ⟨hneg, hstray⟩ | ⟨-, s, pte, args, ptr, -, -, hp⟩
    · -- the error comes after the stores
      refine need_le_of_total (htot ?_) href
      rcases sysPageMapTemp_cases hr with ⟨h2, rfl⟩ | ⟨h2, -⟩
      · dsimp only at h
        rw [if_pos h2] at h
        obtain ⟨-, h⟩ := Prod.mk.inj (Option.some.inj h)
        obtain ⟨-, rfl⟩ := Prod.mk.inj h
        exact hstray
      · dsimp only at h
        rw [if_neg (by omega)] at h
        obtain ⟨rfl, -⟩ := Prod.mk.inj (Option.some.inj h)
        exact absurd hneg (lt_irrefl _)
    · exact hp.need_le
  · rw [if_neg ha] at h
    obtain ⟨-, -, rfl⟩ := Option.some.inj h
    exact Or.inl ⟨Or.inr (Bool.not_eq_true _ ▸ ha), hu⟩

/-- **The layout of arguments that fit.** -/
theorem StackFits.right (h : StackFits argv o w) : StackRight writable argv o rsp w := by
  obtain ⟨hlen, h⟩ := h
  unfold StackRight initStack
  rw [if_neg (not_le.2 hlen)]
  by_cases href : Refuses argv
  · rw [if_pos href]
    obtain ⟨-, hu⟩ := h.resolve_right fun h => h.1 (Or.inl href)
    exact ⟨_, _, _, rfl, hu, Or.inl ⟨by decide, rfl⟩⟩
  rw [if_neg href]
  unfold sysPageAllocTemp
  by_cases ha : o.alloc = true
  · rw [if_pos ha]
    dsimp only
    rw [if_neg (lt_irrefl _)]
    obtain ⟨-, hn⟩ := h.resolve_left fun h => by simp [href, ha] at h
    obtain ⟨d, h1, h2⟩ := fillStack_fits hn writable (tempPage_alloc (w := w) fun _ h =>
      Option.mem_some_iff.1 h ▸ Nat.lt_succ_self _)
    rw [h1, Option.bind_eq_bind, Option.bind_some]
    dsimp only
    rcases hr : sysPageMapTemp _ (ustacktop - pgsize) rwPerm o.map with ⟨r₁, w₃⟩
    dsimp only
    rcases sysPageMapTemp_cases hr with ⟨h3, rfl⟩ | ⟨rfl, -, s, hs, pte, hlt, h4, rfl⟩
    · rw [if_pos h3]
      exact ⟨_, _, _, rfl, rfl, Or.inl ⟨h3, rfl⟩⟩
    · obtain rfl := Option.some.inj h4
      rw [if_neg (lt_irrefl _), argvStore_fits hn]
      refine ⟨_, _, _, rfl, rfl, Or.inr ⟨rfl, _, ⟨w.fresh, rwPerm ||| pteP⟩, childAddr (arrayOff argv),
        fun i => childAddr (place (4096 - total argv) argv i), rfl, Function.update_self .., ?_⟩⟩
      have h16 : temp (arrayOff argv) - 16 = temp (arrayOff argv - 16) := temp_sub_ofNat (show 16 ≤ arrayOff argv by
        unfold need at hn
        unfold arrayOff
        omega)
      rw [h16, utemp2ustack_temp]
      exact (congrArg (fun d => Placed d _ _ _ _) (Function.update_self ..)).mpr h2
  · rw [if_neg ha]
    obtain ⟨-, hu⟩ := h.resolve_right fun h => h.1 (Or.inr (Bool.not_eq_true _ ▸ ha))
    exact ⟨_, _, _, rfl, hu, Or.inl ⟨by decide, rfl⟩⟩

/-- **`init_stack`** lays out the arguments or refuses them, exactly if they fit into a page, or if the test or
`sys_page_alloc` fails, with `UTEMP` unmapped before. -/
theorem init_stack_right (writable : VA → Bool) (argv : List CString) (o : StackCalls) (initRsp : VA) (w : World) :
    StackRight writable argv o initRsp w ↔ StackFits argv o w :=
  ⟨StackRight.fits, StackFits.right⟩

/-- Strings that reach from the end of `UTEMP` down to below 0 pass the test. -/
theorem not_fits_of_wrap (hn : argv.length + 1 < 2 ^ 28) (hs : total argv < 2 ^ 62) (hw : 0x401000 < total argv)
    (ha : o.alloc = true) : ¬ StackFits argv o w := by
  have hneed : 0x401000 < need argv := by
    unfold need
    omega
  rintro ⟨-, ⟨h1 | h1, -⟩ | ⟨-, h1⟩⟩
  · rw [refuses_iff hn hs] at h1
    omega
  · rw [ha] at h1
    cases h1
  · omega

/-- A world with a child that has no pages. -/
def emptyWorld : World where
  mem _ := ⟨fun _ => 0⟩
  fresh := 0
  utemp := none
  fds _ := none
  child := some fun _ => none
  stray := 0
  utemp_lt := nofun
  child_lt s hs n pte hp := by
    obtain rfl := Option.mem_some_iff.1 hs
    cases hp

/-- A long argument. -/
def longArg : CString := ⟨List.replicate 0x401000 0x61, fun h => absurd (List.eq_of_mem_replicate h) (by decide)⟩

theorem longArg_length : longArg.chars.length = 0x401000 := List.length_replicate

/-- **This fails** for an argument of 4 MB: `string_store` wraps around, and the test does not see it. -/
theorem init_stack_counterexample : ¬ StackRight (fun _ => true) [longArg] ⟨true, true⟩ 0 emptyWorld := by
  intro h
  have hnil : total [] = 0 := rfl
  have htot : total [longArg] = 0x401001 := by rw [total_cons, longArg_length, hnil]
  refine not_fits_of_wrap ?_ ?_ ?_ rfl h.fits
  · rw [List.length_singleton]
    omega
  · rw [htot]
    omega
  · rw [htot]
    omega

end Jos.Spawn
