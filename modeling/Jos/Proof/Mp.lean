import Jos.Spec.Mp

/-!
# The processors in the MP configuration table

`mp_init` walks over as many entries as the table says, and never compares their offsets with the
length of the table. It takes `bootcpu` from `ncpu`, before it tests if there is a place in `cpus`
for the processor.

`mp_init_bounds`: `mp_init` stays in the table and in `cpus` exactly if the entries that it comes to
(`Reached`) lie in the table, and none of the processors after eight enabled ones has the flag of the
boot processor (`EntryOk`).
-/

namespace Jos.Mp

open Lib

variable {mem : Bytes} {npages conf k n p : ℕ} {s s' : State}

/-! ## The entries of a table -/

/-- The offset of entry `k`. -/
def entryAt (mem : Bytes) (conf : ℕ) : ℕ → ℕ
  | 0 => 44
  | k + 1 => entryAt mem conf k + if mem.byte (conf + entryAt mem conf k) = 0 then 20 else 8

def entryType (mem : Bytes) (conf k : ℕ) : Byte := mem.byte (conf + entryAt mem conf k)

/-- The flags of entry `k`, which is for a processor. -/
def entryFlags (mem : Bytes) (conf k : ℕ) : Byte := mem.byte (conf + entryAt mem conf k + 3)

/-- The number of enabled processors before entry `k`. -/
def enabled (mem : Bytes) (conf : ℕ) : ℕ → ℕ
  | 0 => 0
  | k + 1 => enabled mem conf k + if entryType mem conf k = 0 ∧ (entryFlags mem conf k).getLsbD 0 then 1 else 0

/-- No entry before entry `k` is of an unknown type. -/
def Reached (mem : Bytes) (conf k : ℕ) : Prop := ∀ j < k, (entryType mem conf j).toNat ≤ 4

/-- The fields of entry `k` that are read are in the table. After eight enabled processors there is
no boot processor. -/
structure EntryOk (mem : Bytes) (conf k : ℕ) : Prop where
  type : entryAt mem conf k + 1 ≤ confLength mem conf
  proc : entryType mem conf k = 0 → enabled mem conf k < NCPU → entryAt mem conf k + 12 ≤ confLength mem conf
  full : entryType mem conf k = 0 → NCPU ≤ enabled mem conf k →
    entryAt mem conf k + 4 ≤ confLength mem conf ∧ (entryFlags mem conf k).getLsbD 1 = false

/-! ## One entry -/

/-- The processors that were found before entry `k`. -/
structure Found (mem : Bytes) (conf k : ℕ) (s : State) : Prop where
  ncpu : s.ncpu = min (enabled mem conf k) NCPU
  ids : ∀ i < s.ncpu, s.cpuId i = BitVec.ofNat 8 i
  first : s.cpuId 0 = 0
  boot : s.bootcpu ≤ s.ncpu

/-- The variables after an entry for a processor. -/
def procState (flags : Byte) (s : State) : State :=
  let s := if flags.getLsbD 1 then { s with bootcpu := s.ncpu } else s
  if s.ncpu < NCPU ∧ flags.getLsbD 0 then
    { s with cpuId := Function.update s.cpuId s.ncpu (BitVec.ofNat 8 s.ncpu), ncpu := s.ncpu + 1 }
  else s

theorem mpProc_eq : mpProc mem conf p s =
    if p + 4 ≤ confLength mem conf ∧ (s.ncpu < NCPU → p + 12 ≤ confLength mem conf) then
      some (procState (mem.byte (conf + p + 3)) s) else none := by
  unfold mpProc procState
  dsimp only
  have hn : (if (mem.byte (conf + p + 3)).getLsbD 1 then { s with bootcpu := s.ncpu } else s).ncpu = s.ncpu := by
    split <;> rfl
  generalize (if (mem.byte (conf + p + 3)).getLsbD 1 then { s with bootcpu := s.ncpu } else s) = s' at hn ⊢
  rw [hn]
  by_cases h4 : p + 4 ≤ confLength mem conf
  · have hf : access mem conf (p + 3) 1 = some () := if_pos (by omega)
    have ha : access mem conf (p + 1) 1 = some () := if_pos (by omega)
    rw [hf]
    simp only [Option.bind_eq_bind, Option.bind_some]
    by_cases hlt : s.ncpu < NCPU
    · rw [if_pos hlt]
      by_cases h12 : p + 12 ≤ confLength mem conf
      · have hp : access mem conf p 12 = some () := if_pos h12
        have hc : p + 4 ≤ confLength mem conf ∧ (s.ncpu < NCPU → p + 12 ≤ confLength mem conf) := ⟨h4, fun _ => h12⟩
        rw [hp, Option.bind_some, if_pos hc]
        simp only [hlt, true_and]
      · have hp : access mem conf p 12 = none := if_neg h12
        have hc : ¬ (p + 4 ≤ confLength mem conf ∧ (s.ncpu < NCPU → p + 12 ≤ confLength mem conf)) :=
          fun h => h12 (h.2 hlt)
        rw [hp, if_neg hc]
        rfl
    · have hc : p + 4 ≤ confLength mem conf ∧ (s.ncpu < NCPU → p + 12 ≤ confLength mem conf) :=
        ⟨h4, fun h => absurd h hlt⟩
      rw [if_neg hlt, ha, Option.bind_some, if_pos hc]
      simp only [hlt, false_and, if_false]
  · have hf : access mem conf (p + 3) 1 = none := if_neg (by omega)
    have hc : ¬ (p + 4 ≤ confLength mem conf ∧ (s.ncpu < NCPU → p + 12 ≤ confLength mem conf)) := fun h => h4 h.1
    rw [hf, if_neg hc]
    rfl

/-- **An entry for a processor.** -/
theorem Found.proc (h : Found mem conf k s) (ht : entryType mem conf k = 0) :
    Found mem conf (k + 1) (procState (entryFlags mem conf k) s) := by
  obtain ⟨h1, h2, h3, h4⟩ := h
  generalize hf : entryFlags mem conf k = flags
  have hen : enabled mem conf (k + 1) = enabled mem conf k + if flags.getLsbD 0 then 1 else 0 := by
    rw [enabled, hf]
    simp only [ht, true_and]
  have hs : ∃ b ≤ s.ncpu, (if flags.getLsbD 1 then { s with bootcpu := s.ncpu } else s) = { s with bootcpu := b } := by
    by_cases hb : flags.getLsbD 1
    · exact ⟨s.ncpu, le_rfl, if_pos hb⟩
    · exact ⟨s.bootcpu, h4, if_neg hb⟩
  obtain ⟨b, hb, hs⟩ := hs
  unfold procState
  dsimp only
  rw [hs]
  dsimp only
  by_cases hc : s.ncpu < NCPU ∧ flags.getLsbD 0
  · rw [if_pos hc]
    obtain ⟨hc1, hc2⟩ := hc
    rw [if_pos hc2] at hen
    refine ⟨?_, fun i hi => ?_, ?_, ?_⟩
    · dsimp only
      omega
    · dsimp only at hi ⊢
      by_cases he : i = s.ncpu
      · rw [he, Function.update_self]
      · rw [Function.update_of_ne he]
        exact h2 i (by omega)
    · dsimp only
      by_cases he : 0 = s.ncpu
      · rw [← he, Function.update_self]
        rfl
      · rw [Function.update_of_ne he]
        exact h3
    · dsimp only
      omega
  · rw [if_neg hc]
    refine ⟨?_, h2, h3, hb⟩
    dsimp only
    rw [h1, hen]
    by_cases he : flags.getLsbD 0
    · have hge : ¬ s.ncpu < NCPU := fun h => hc ⟨h, he⟩
      omega
    · rw [if_neg he]
      rfl

theorem Found.other (h : Found mem conf k s) (ht : entryType mem conf k ≠ 0) : Found mem conf (k + 1) s := by
  obtain ⟨h1, h2, h3, h4⟩ := h
  refine ⟨?_, h2, h3, h4⟩
  rw [h1, enabled, if_neg fun h => ht h.1]
  rfl

theorem procState_boot (flags : Byte) (s : State) :
    (procState flags s).bootcpu = if flags.getLsbD 1 then s.ncpu else s.bootcpu := by
  unfold procState
  dsimp only
  split <;> split <;> rfl

theorem procState_ncpu (flags : Byte) (h : s.ncpu = NCPU) : (procState flags s).ncpu = NCPU := by
  unfold procState
  dsimp only
  have hn : (if flags.getLsbD 1 then { s with bootcpu := s.ncpu } else s).ncpu = s.ncpu := by
    split <;> rfl
  rw [hn, if_neg fun hc => absurd h hc.1.ne, hn]
  exact h

/-! ## The loop -/

theorem mpEntries_succ (h : entryAt mem conf k + 1 ≤ confLength mem conf) :
    mpEntries mem conf (n + 1) (entryAt mem conf k) s =
      if entryType mem conf k = 0 then
        (mpProc mem conf (entryAt mem conf k) s).bind (mpEntries mem conf n (entryAt mem conf (k + 1)))
      else if (entryType mem conf k).toNat ≤ 4 then mpEntries mem conf n (entryAt mem conf (k + 1)) s
      else some { s with ismp := false } := by
  have ha : access mem conf (entryAt mem conf k) 1 = some () := if_pos h
  rw [mpEntries, ha]
  simp only [Option.bind_eq_bind, Option.bind_some]
  rw [entryAt]
  unfold entryType
  by_cases ht : mem.byte (conf + entryAt mem conf k) = 0
  · rw [if_pos ht, if_pos ht, if_pos ht]
  · rw [if_neg ht, if_neg ht, if_neg ht]

/-- A `bootcpu` behind `cpus` stays there. -/
theorem mpEntries_stuck (hn : s.ncpu = NCPU) (hb : s.bootcpu = NCPU)
    (h : mpEntries mem conf n (entryAt mem conf k) s = some s') : s'.bootcpu = NCPU := by
  induction n generalizing k s with
  | zero =>
    cases h
    exact hb
  | succ n ih =>
    by_cases hlen : entryAt mem conf k + 1 ≤ confLength mem conf
    · rw [mpEntries_succ hlen] at h
      split at h
      · obtain ⟨s₁, h1, h2⟩ := Option.bind_eq_some_iff.1 h
        rw [mpProc_eq] at h1
        split at h1
        · cases h1
          refine ih (procState_ncpu _ hn) ?_ h2
          rw [procState_boot, hn, hb, ite_self]
        · exact absurd h1 nofun
      · split at h
        · exact ih hn hb h
        · cases h
          exact hb
    · have ha : access mem conf (entryAt mem conf k) 1 = none := if_neg hlen
      rw [mpEntries, ha] at h
      exact absurd h nofun

theorem Found.ok (h : Found mem conf k s) (ht : entryType mem conf k = 0)
    (hlen : entryAt mem conf k + 1 ≤ confLength mem conf) : EntryOk mem conf k ↔
      (entryAt mem conf k + 4 ≤ confLength mem conf ∧ (s.ncpu < NCPU → entryAt mem conf k + 12 ≤ confLength mem conf)) ∧
        (s.ncpu = NCPU → (entryFlags mem conf k).getLsbD 1 = false) := by
  have h1 := h.ncpu
  have h8 : NCPU = 8 := rfl
  refine ⟨fun ⟨_, hp, hf⟩ => ?_, fun ⟨⟨h4, h12⟩, hb⟩ => ⟨hlen, fun _ he => h12 (by omega), fun _ he => ⟨h4, hb (by omega)⟩⟩⟩
  by_cases he : enabled mem conf k < NCPU
  · have h12 := hp ht he
    exact ⟨⟨by omega, fun _ => h12⟩, fun hn => by omega⟩
  · obtain ⟨h4, hb⟩ := hf ht (by omega)
    exact ⟨⟨h4, fun hn => by omega⟩, fun _ => hb⟩

/-- **The loop** stays in the table, and leaves `bootcpu` in `cpus`, exactly if the entries that it
comes to are as they should be. -/
theorem Found.entries (h : Found mem conf k s) (hb : s.bootcpu < NCPU) (hr : Reached mem conf k) :
    (∃ s', mpEntries mem conf n (entryAt mem conf k) s = some s' ∧ s'.bootcpu < NCPU) ↔
      ∀ i, k ≤ i → i < k + n → Reached mem conf i → EntryOk mem conf i := by
  have h8 : NCPU = 8 := rfl
  induction n generalizing k s with
  | zero => exact ⟨fun _ i h1 h2 => by omega, fun _ => ⟨s, rfl, hb⟩⟩
  | succ n ih =>
    by_cases hlen : entryAt mem conf k + 1 ≤ confLength mem conf
    swap
    · -- the type of the entry is not in the table
      have ha : access mem conf (entryAt mem conf k) 1 = none := if_neg hlen
      refine ⟨fun ⟨s', hs', _⟩ => ?_, fun hok => absurd (hok k le_rfl (by omega) hr).type hlen⟩
      rw [mpEntries, ha] at hs'
      exact absurd hs' nofun
    rw [mpEntries_succ hlen]
    have hnext : ∀ {P : ℕ → Prop}, (∀ i, k ≤ i → i < k + (n + 1) → Reached mem conf i → P i) ↔
        P k ∧ ∀ i, k + 1 ≤ i → i < k + 1 + n → Reached mem conf i → P i := by
      refine fun {P} => ⟨fun hP => ⟨hP k le_rfl (by omega) hr, fun i h1 h2 => hP i (by omega) (by omega)⟩,
        fun ⟨hP, hPs⟩ i h1 h2 hi => ?_⟩
      rcases Nat.eq_or_lt_of_le h1 with rfl | hlt
      · exact hP
      · exact hPs i hlt (by omega) hi
    rw [hnext]
    have hreach : (entryType mem conf k).toNat ≤ 4 → Reached mem conf (k + 1) := by
      intro ht j hj
      rcases Nat.lt_succ_iff_lt_or_eq.1 hj with hlt | rfl
      · exact hr j hlt
      · exact ht
    by_cases ht : entryType mem conf k = 0
    · rw [if_pos ht, h.ok ht hlen, mpProc_eq]
      have hr' := hreach (by rw [ht]; decide)
      -- a processor: its flags are read always, its id only while there is room
      by_cases hc : entryAt mem conf k + 4 ≤ confLength mem conf ∧
          (s.ncpu < NCPU → entryAt mem conf k + 12 ≤ confLength mem conf)
      · rw [if_pos hc, Option.bind_some]
        change (∃ s', mpEntries mem conf n _ (procState (entryFlags mem conf k) s) = some s' ∧ _) ↔ _
        have hn := h.ncpu
        by_cases hfull : s.ncpu = NCPU ∧ (entryFlags mem conf k).getLsbD 1 = true
        · -- the boot processor comes after eight enabled ones
          refine ⟨fun ⟨s', hs', hlt⟩ => ?_, fun hok => ?_⟩
          · have hst := mpEntries_stuck (procState_ncpu _ hfull.1) (by rw [procState_boot, if_pos hfull.2, hfull.1]) hs'
            omega
          · have h1 := hok.1.2 hfull.1
            rw [hfull.2] at h1
            exact absurd h1 nofun
        · have hlt : (procState (entryFlags mem conf k) s).bootcpu < NCPU := by
            rw [procState_boot]
            split
            · rename_i h1
              have hne : s.ncpu ≠ NCPU := fun he => hfull ⟨he, h1⟩
              omega
            · exact hb
          refine (ih (h.proc ht) hlt hr').trans ⟨fun hok => ⟨⟨hc, fun he => ?_⟩, hok⟩, fun hok => hok.2⟩
          rw [Bool.eq_false_iff]
          exact fun h1 => hfull ⟨he, h1⟩
      · rw [if_neg hc, Option.bind_none]
        exact ⟨fun ⟨s', hs', _⟩ => absurd hs' nofun, fun hok => absurd hok.1.1 hc⟩
    · have hok : EntryOk mem conf k := ⟨hlen, fun h0 => absurd h0 ht, fun h0 => absurd h0 ht⟩
      rw [if_neg ht]
      by_cases ht4 : (entryType mem conf k).toNat ≤ 4
      · rw [if_pos ht4]
        exact (ih (h.other ht) hb (hreach ht4)).trans ⟨fun hs => ⟨hok, hs⟩, fun hs => hs.2⟩
      · -- an unknown type ends the loop
        rw [if_neg ht4]
        refine ⟨fun _ => ⟨hok, fun i h1 _ hi => absurd (hi k h1) ht4⟩, fun _ => ⟨_, rfl, hb⟩⟩

/-- The processors that the loop has found. -/
theorem Found.run (h : Found mem conf k s) (hs : mpEntries mem conf n (entryAt mem conf k) s = some s') :
    ∃ i, Found mem conf i { s' with ismp := s.ismp } := by
  induction n generalizing k s with
  | zero =>
    cases hs
    exact ⟨k, h⟩
  | succ n ih =>
    by_cases hlen : entryAt mem conf k + 1 ≤ confLength mem conf
    · rw [mpEntries_succ hlen] at hs
      split at hs
      · rename_i ht
        obtain ⟨s₁, h1, h2⟩ := Option.bind_eq_some_iff.1 hs
        rw [mpProc_eq] at h1
        split at h1
        · cases h1
          obtain ⟨i, hi⟩ := ih (h.proc ht) h2
          exact ⟨i, ⟨hi.ncpu, hi.ids, hi.first, hi.boot⟩⟩
        · exact absurd h1 nofun
      · rename_i ht
        split at hs
        · exact ih (h.other ht) hs
        · cases hs
          exact ⟨k, h⟩
    · have ha : access mem conf (entryAt mem conf k) 1 = none := if_neg hlen
      rw [mpEntries, ha] at hs
      exact absurd hs nofun

/-! ## The result -/

/-- The processors after `mp_init`. -/
structure Started (s : Mp.State) : Prop where
  ncpu : s.ncpu ≤ NCPU
  boot : s.bootcpu < NCPU
  ids : ∀ i < s.ncpu, s.cpuId i = BitVec.ofNat 8 i

/-- **`mp_init` stays in the table and in `cpus`**, for a table that `mpconfig` accepts, exactly if the
header is in the table, and all entries that the loop comes to are as they should be. -/
theorem mp_init_bounds (h : mpconfig npages mem = some (some conf)) :
    (∃ s, mpInit npages mem = some s ∧ Started s) ↔
      40 ≤ confLength mem conf ∧ ∀ k < confEntry mem conf, Reached mem conf k → EntryOk mem conf k := by
  unfold mpInit
  rw [h]
  simp only [Option.bind_eq_bind, Option.bind_some]
  by_cases hlen : 40 ≤ confLength mem conf
  swap
  · have ha : access mem conf 36 4 = none := if_neg hlen
    rw [ha]
    exact ⟨fun ⟨s, hs, _⟩ => absurd hs nofun, fun hok => absurd hok.1 hlen⟩
  have ha : access mem conf 36 4 = some () := if_pos hlen
  have ha' : access mem conf 34 2 = some () := if_pos (by omega)
  rw [ha, ha']
  simp only [Option.bind_some]
  have h0 : Found mem conf 0 { start with ismp := true, lapicaddr := mem.load32 (conf + 36) } :=
    ⟨rfl, nofun, rfl, le_rfl⟩
  have hb0 : ({ start with ismp := true, lapicaddr := mem.load32 (conf + 36) } : State).bootcpu < NCPU :=
    (by decide : 0 < 8)
  have hloop := h0.entries (n := confEntry mem conf) hb0 nofun
  rw [Nat.zero_add] at hloop
  refine ⟨fun ⟨s, hs, _⟩ => ⟨hlen, fun k hk => ?_⟩, fun hok => ?_⟩
  · obtain ⟨s', h1, h2⟩ := Option.bind_eq_some_iff.1 hs
    by_cases hlt : s'.bootcpu < NCPU
    · exact hloop.1 ⟨s', h1, hlt⟩ k (Nat.zero_le k) hk
    · rw [if_neg hlt] at h2
      exact absurd h2 nofun
  · obtain ⟨s', h1, hlt⟩ := hloop.2 fun k _ hk => hok.2 k hk
    obtain ⟨i, hi⟩ := h0.run h1
    have hle : s'.ncpu ≤ NCPU := hi.ncpu.trans_le (min_le_right _ _)
    have h1 : mpEntries mem conf (confEntry mem conf) 44 { start with
      ismp := true, lapicaddr := mem.load32 (conf + 36) } = some s' := h1
    refine ⟨_, by rw [h1, Option.bind_some, if_pos hlt], ?_⟩
    split
    · exact ⟨hle, hlt, hi.ids⟩
    · refine ⟨(by decide : 1 ≤ 8), hlt, fun i hi1 => ?_⟩
      have hi0 : i = 0 := Nat.lt_one_iff.1 hi1
      rw [hi0]
      exact hi.first

/-! ## Two tables -/

/-- A floating pointer in the first KB of the EBDA, and a table at `0x1000` with `entries`. -/
def tableMem (length entry checksum : Byte) (entries : List Byte) : Bytes :=
  ((((⟨fun _ => 0⟩ : Bytes).write 0x40E [0xC0, 0x9F]).write 0x9FC00
    [0x5F, 0x4D, 0x50, 0x5F, 0, 0x10, 0, 0, 1, 4, 0x90]).write 0x1000
      ([0x50, 0x43, 0x4D, 0x50, length, 0, 4, checksum] ++ List.replicate 26 0 ++ [entry, 0, 0, 0, 0xE0, 0xFE])).write
        0x102C entries

/-- The entry of a processor. -/
def procEntry (apicid flags : Byte) : List Byte := [0, apicid, 0x14, flags] ++ List.replicate 16 0

/-- A table with one processor. -/
theorem mp_init_bounds_single : ∃ s, mpInit 0x1000 (tableMem 0x40 1 0x96 (procEntry 0 3)) = some s ∧ Started s := by
  have h : mpconfig 0x1000 (tableMem 0x40 1 0x96 (procEntry 0 3)) = some (some 0x1000) := by decide +kernel
  refine (mp_init_bounds h).2 ⟨by decide +kernel, fun k hk _ => ?_⟩
  have hk0 : k = 0 := by
    have h1 : confEntry (tableMem 0x40 1 0x96 (procEntry 0 3)) 0x1000 = 1 := by decide +kernel
    omega
  rw [hk0]
  exact ⟨by decide +kernel, fun _ _ => by decide +kernel, fun _ hen => absurd hen (by decide +kernel)⟩

/-- Eight enabled processors, and the boot processor after them. -/
def nineProcs : Bytes := tableMem 0xE0 9 0x22
  (procEntry 0 1 ++ procEntry 1 1 ++ procEntry 2 1 ++ procEntry 3 1 ++ procEntry 4 1 ++ procEntry 5 1 ++ procEntry 6 1 ++
    procEntry 7 1 ++ procEntry 8 3)

theorem mp_init_bounds_counterexample : ¬ ∀ (npages : ℕ) (mem : Bytes) (conf : ℕ),
    mpconfig npages mem = some (some conf) → ∃ s, mpInit npages mem = some s ∧ Started s := by
  intro h
  obtain ⟨s, hs, -⟩ := h 0x1000 nineProcs 0x1000 (by decide +kernel)
  have h1 : (mpInit 0x1000 nineProcs).isNone = true := by decide +kernel
  rw [hs] at h1
  exact absurd h1 nofun

end Jos.Mp
