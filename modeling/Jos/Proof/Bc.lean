import Jos.Lib.Loop
import Jos.Spec.Bc

/-!
# The block cache does not show

* `bcPgfault_fills`: a fault brings blocks in and changes nothing else, however deep it nests.
* `exec_flat`: every access on the cache is the same access on the memory that the cache shows.
* `cached_refines`: so every program of accesses that does not panic computes on the cache what it
  computes on a plain memory.
-/

namespace Jos.Fs.Bc

open Lib

variable {σ σ' : Bc} {a b n k : ℕ} {bs : List Byte} {d : Bytes}

/-! ## The IDE disk -/

theorem lba_block (hb : b * 4096 < diskSize) : lba (b * 8) = b * 8 := by
  unfold diskSize at hb
  unfold lba
  omega

/-- One more sector is copied. -/
theorem copy_sector (f g : ℕ → Byte) (b n : ℕ) :
    (Bytes.write ⟨fun x => if b * 4096 ≤ x ∧ x < b * 4096 + 512 * n then f x else g x⟩ (b * 4096 + 512 * n)
      (Bytes.read ⟨f⟩ (b * 4096 + 512 * n) 512)).byte =
        fun x => if b * 4096 ≤ x ∧ x < b * 4096 + 512 * (n + 1) then f x else g x := by
  funext x
  rw [Bytes.byte_write, Bytes.read_length]
  by_cases hx : b * 4096 + 512 * n ≤ x ∧ x < b * 4096 + 512 * n + 512
  · have h2 : b * 4096 ≤ x ∧ x < b * 4096 + 512 * (n + 1) := ⟨(Nat.le_add_right _ _).trans hx.1, by omega⟩
    have hi : x - (b * 4096 + 512 * n) < 512 := by omega
    have hx' : b * 4096 + 512 * n + (x - (b * 4096 + 512 * n)) = x := Nat.add_sub_cancel' hx.1
    rw [if_pos hx, Bytes.getD_read hi, hx']
    exact (if_pos h2).symm
  · have hiff : b * 4096 ≤ x ∧ x < b * 4096 + 512 * (n + 1) ↔ b * 4096 ≤ x ∧ x < b * 4096 + 512 * n := by omega
    simp only [if_neg hx, hiff]

theorem sector_addr : 512 * (b * 8 + n) = b * 4096 + 512 * n := by omega

/-- The first `n` turns of `ide_read`, into the page of the block. -/
theorem insw_loop (hb : b * 4096 < diskSize) (h : (List.range n).foldlM (insw (b * 8) (b * 4096)) σ = some σ') :
    ∃ dirty, (∀ c, c ≠ b → dirty c = σ.dirty c) ∧ σ' = { σ with
      mem := fun x => if b * 4096 ≤ x ∧ x < b * 4096 + 512 * n then σ.disk x else σ.mem x
      dirty := dirty } := by
  induction n generalizing σ' with
  | zero =>
    cases h
    refine ⟨σ.dirty, fun _ _ => rfl, ?_⟩
    have hmem : (fun x => if b * 4096 ≤ x ∧ x < b * 4096 + 512 * 0 then σ.disk x else σ.mem x) = σ.mem :=
      funext fun x => if_neg (by omega)
    rw [hmem]
  | succ n ih =>
    obtain ⟨σ₁, h1, h3⟩ := range_last h
    obtain ⟨dirty, hd, rfl⟩ := ih h1
    unfold insw at h3
    split at h3
    · cases h3
    · obtain rfl := Option.some.inj h3
      have hd' : ∀ c, c ≠ b → (if c = b then true else dirty c) = σ.dirty c := by
        intro c hc
        rw [if_neg hc]
        exact hd c hc
      refine ⟨fun c => if c = b then true else dirty c, hd', ?_⟩
      unfold setDirty setPages pages platter
      rw [lba_block hb, Nat.mul_div_cancel _ (by decide), sector_addr, copy_sector]

/-- The first `n` turns of `ide_write`, from the page of the block. -/
theorem outsw_loop (hb : b * 4096 < diskSize) (h : (List.range n).foldlM (outsw (b * 8) (b * 4096)) σ = some σ') :
    σ' = { σ with disk := fun x => if b * 4096 ≤ x ∧ x < b * 4096 + 512 * n then σ.mem x else σ.disk x } := by
  induction n generalizing σ' with
  | zero =>
    cases h
    have hdisk : (fun x => if b * 4096 ≤ x ∧ x < b * 4096 + 512 * 0 then σ.mem x else σ.disk x) = σ.disk :=
      funext fun x => if_neg (by omega)
    rw [hdisk]
  | succ n ih =>
    obtain ⟨σ₁, h1, h3⟩ := range_last h
    obtain rfl := ih h1
    unfold outsw at h3
    split at h3
    · cases h3
    · obtain rfl := Option.some.inj h3
      unfold setPlatter pages platter
      rw [lba_block hb, sector_addr, copy_sector]

/-! ## Faults -/

/-- The addresses of a block. -/
theorem in_block {x : ℕ} : b * 4096 ≤ x ∧ x < b * 4096 + 512 * 8 ↔ x / 4096 = b := by omega

/-- Some blocks are brought in, and the pointers stay. -/
structure FillsTo (σ σ' : Bc) : Prop where
  fills : Cache.Fills (· / 4096) σ.toCache σ'.toCache
  super : σ'.super = σ.super
  bitmap : σ'.bitmap = σ.bitmap

theorem FillsTo.refl : FillsTo σ σ := ⟨.refl, rfl, rfl⟩

theorem FillsTo.trans {σ₁ : Bc} (h : FillsTo σ σ₁) (h' : FillsTo σ₁ σ') : FillsTo σ σ' :=
  ⟨h.fills.trans h'.fills, h'.super.trans h.super, h'.bitmap.trans h.bitmap⟩

/-- The block is brought in, into a new page. -/
def fillBlock (σ : Bc) (b : ℕ) : Bc := { σ with toCache := σ.toCache.fill (· / 4096) b, room := σ.room - 1 }

/-- A new page, with what `ide_read` copies into it. -/
theorem load_eq {σ₁ σ₂ : Bc} (hb : b * 4096 < diskSize)
    (h1 : σ.sysPageAlloc b = some σ₁) (h2 : σ₁.ideRead (b * 8) (b * 4096) 8 = some σ₂) :
    σ₂.setDirty b false = σ.fillBlock b := by
  unfold sysPageAlloc at h1
  split at h1
  · cases h1
  obtain rfl := Option.some.inj h1
  unfold ideRead at h2
  rw [if_neg (by decide)] at h2
  obtain ⟨dirty, hd, rfl⟩ := insw_loop hb h2
  unfold setDirty fillBlock Cache.fill
  dsimp only
  congr 2
  · funext x
    simp only [in_block]
    refine if_ctx_congr Iff.rfl (fun _ => rfl) fun hx => ?_
    exact Bytes.byte_zero_off (by omega)
  · funext c
    by_cases hc : c = b
    · rw [if_pos hc, if_pos hc]
    · rw [if_neg hc, if_neg hc, hd c hc]
      exact if_neg hc

theorem fillBlock_fills (hm : σ.mapped b = false) : FillsTo σ (σ.fillBlock b) ∧ (σ.fillBlock b).mapped b = true :=
  ⟨⟨.single ⟨b, hm, rfl⟩, rfl, rfl⟩, if_pos rfl⟩

/-- The handler reads the super block, which is in memory then. -/
theorem bcPgfault_super (hs : σ.super = true) (h : bcPgfault n b σ = some σ') : σ.mapped 1 = true := by
  induction n generalizing b σ σ' with
  | zero => cases h
  | succ n ih =>
    unfold bcPgfault at h
    dsimp only at h
    split at h
    · cases h
    obtain ⟨σ₁, h1, -⟩ := Option.bind_eq_some_iff.1 h
    unfold readSuper at h1
    rw [if_pos hs] at h1
    dsimp only at h1
    split at h1
    · assumption
    · exact ih hs h1

theorem checkInUse_fills {touch : ℕ → Bc → Option Bc}
    (ht : ∀ {c σ σ'}, touch c σ = some σ' → FillsTo σ σ') (h : checkInUse touch b σ = some σ') : FillsTo σ σ' := by
  unfold checkInUse at h
  split at h
  · obtain ⟨σ₁, h1, h⟩ := Option.bind_eq_some_iff.1 h
    split at h
    · obtain ⟨σ₂, h2, h⟩ := Option.bind_eq_some_iff.1 h
      split at h
      · cases h
      · obtain rfl := Option.some.inj h
        exact (ht h1).trans (ht h2)
    · obtain rfl := Option.some.inj h
      exact ht h1
  · obtain rfl := Option.some.inj h
    exact .refl

/-- **A fault** brings the block in, and what the handler needs. -/
theorem bcPgfault_fills (hm : σ.mapped b = false) (h : bcPgfault n b σ = some σ') :
    FillsTo σ σ' ∧ σ'.mapped b = true := by
  induction n generalizing b σ σ' with
  | zero => cases h
  | succ n ih =>
    have htouch : ∀ {c σ σ'}, (if σ.mapped c = true then some σ else bcPgfault n c σ) = some σ' →
        FillsTo σ σ' := by
      intro c σ σ' h1
      split at h1
      · obtain rfl := Option.some.inj h1
        exact .refl
      · rename_i hc
        exact (ih (by simpa using hc) h1).1
    have hn := h
    unfold bcPgfault at h
    dsimp only at h
    split at h
    · cases h
    rename_i hb
    obtain ⟨σ₁, h1, hrest⟩ := Option.bind_eq_some_iff.1 h
    obtain rfl : σ₁ = σ := by
      unfold readSuper at h1
      split at h1
      · rename_i hs
        dsimp only at h1
        rw [if_pos (bcPgfault_super hs hn)] at h1
        exact (Option.some.inj h1).symm
      · exact (Option.some.inj h1).symm
    split at hrest
    · cases hrest
    obtain ⟨σ₂, h2, hload⟩ := Option.bind_eq_some_iff.1 hrest
    obtain ⟨σ₃, h3, hcheck⟩ := Option.bind_eq_some_iff.1 hload
    rw [load_eq (by omega) h2 h3] at hcheck
    obtain ⟨hf, hmap⟩ := fillBlock_fills hm
    have hcheck := checkInUse_fills htouch hcheck
    exact ⟨hf.trans hcheck, (hcheck.fills.mapped hmap).1⟩

/-- **An access** to a block. -/
theorem touch_fills (h : touch b σ = some σ') : FillsTo σ σ' ∧ σ'.mapped b = true := by
  unfold touch at h
  split at h
  · obtain rfl := Option.some.inj h
    exact ⟨.refl, by assumption⟩
  · rename_i hm
    exact bcPgfault_fills (by simpa using hm) h

theorem touches_fills {s : List ℕ} (h : s.foldlM (fun σ b => touch b σ) σ = some σ') :
    FillsTo σ σ' ∧ ∀ b ∈ s, σ'.mapped b = true := by
  induction s generalizing σ with
  | nil => cases h; exact ⟨.refl, by simp⟩
  | cons c s ih =>
    rw [List.foldlM_cons] at h
    obtain ⟨σ₁, h1, h2⟩ := Option.bind_eq_some_iff.1 h
    obtain ⟨hf1, hm1⟩ := touch_fills h1
    obtain ⟨hf2, hm2⟩ := ih h2
    refine ⟨hf1.trans hf2, fun b hb => ?_⟩
    rcases List.mem_cons.1 hb with rfl | hb
    · exact (hf2.fills.mapped hm1).1
    · exact hm2 b hb

/-! ## Accesses -/

theorem mem_blocksOf : b ∈ blocksOf a n ↔ ∃ x, a ≤ x ∧ x < a + n ∧ x / 4096 = b := by
  unfold blocksOf
  split
  · rename_i h
    simp only [List.not_mem_nil, false_iff]
    rintro ⟨x, h1, h2, -⟩
    omega
  · rename_i h
    rw [List.mem_range'_1]
    constructor
    · rintro ⟨h1, h2⟩
      by_cases hb : b * 4096 < a
      · exact ⟨a, le_rfl, by omega, by omega⟩
      · exact ⟨b * 4096, by omega, by omega, by omega⟩
    · rintro ⟨x, h1, h2, rfl⟩
      omega

/-- What the server sees in the blocks of an access. -/
theorem pages_byte {x : ℕ} (h : σ.mapped (x / 4096) = true) : σ.pages.byte x = σ.view.byte x :=
  (@Cache.view_mapped _ _ _ (· / 4096) σ.toCache x h).symm

/-- A word of a block that is in memory. -/
theorem pages_load32 (h : σ.mapped (a / 4096) = true) (ha : a % 4096 ≤ 4092) :
    σ.pages.load32 a = σ.view.load32 a := by
  have hb : ∀ k < 4, σ.pages.byte (a + k) = σ.view.byte (a + k) := by
    intro k hk
    have hab : (a + k) / 4096 = a / 4096 := by omega
    exact pages_byte (by rw [hab, h])
  unfold Bytes.load32
  rw [← hb 1 (by omega), ← hb 2 (by omega), ← hb 3 (by omega), ← pages_byte h]

theorem FillsTo.view (h : FillsTo σ σ') : σ'.view = σ.view := Bytes.ext h.fills.view

/-- **A flush** either finds nothing to do, or writes the block back. -/
theorem flushBlock_cases (h : σ.flushBlock a = some σ') :
    a < diskSize ∧ ((σ' = σ ∧ (σ.mapped (a / 4096) = true → σ.dirty (a / 4096) = false)) ∨
      σ.mapped (a / 4096) = true ∧
        σ' = { σ with toCache := σ.toCache.flush (· / 4096) (a / 4096) }) := by
  unfold flushBlock at h
  split at h
  · cases h
  rename_i ha
  refine ⟨by omega, ?_⟩
  split at h
  · rename_i hc
    refine Or.inl ⟨(Option.some.inj h).symm, fun hm => ?_⟩
    simpa [hm] using hc
  · rename_i hc
    simp only [Bool.or_eq_true, Bool.not_eq_true', not_or, Bool.not_eq_false] at hc
    obtain ⟨σ₁, h1, h2⟩ := Option.bind_eq_some_iff.1 h
    obtain rfl := Option.some.inj h2
    refine Or.inr ⟨hc.1, ?_⟩
    unfold ideWrite at h1
    rw [if_neg (by decide)] at h1
    have hb : a / 4096 * 4096 < diskSize := (Nat.div_mul_le_self a 4096).trans_lt (by omega)
    rw [outsw_loop hb h1]
    simp only [in_block]
    rfl

/-- A store to pages that are in memory. -/
def stored (σ : Bc) (a : ℕ) (bs : List Byte) : Bc :=
  { σ.setPages (σ.pages.write a bs) with
    dirty := fun b => if b ∈ blocksOf a bs.length then true else σ.dirty b }

theorem exec_write {σ₁ : Bc} (h : (blocksOf a bs.length).foldlM (fun σ b => touch b σ) σ = some σ₁) :
    exec (.write a bs) σ = some ((), σ₁.stored a bs) := Option.bind_eq_some_iff.2 ⟨σ₁, h, rfl⟩

/-- **Every access** on the cache is the same access on what the cache shows. -/
theorem exec_flat {c : Acc} {r : c.Result} (hc : σ.Coherent (· / 4096)) (h : exec c σ = some (r, σ')) :
    flatExec c σ.view = some (r, σ'.view) ∧ σ'.Coherent (· / 4096) := by
  cases c with
  | read a n =>
    obtain ⟨σ₁, h1, h2⟩ := Option.bind_eq_some_iff.1 h
    obtain ⟨rfl, rfl⟩ := Prod.mk.inj (Option.some.inj h2)
    obtain ⟨hf, hm⟩ := touches_fills h1
    refine ⟨?_, hf.fills.coherent hc⟩
    have hread : σ₁.pages.read a n = σ.view.read a n := by
      rw [← hf.view]
      exact Bytes.read_congr fun k hk => pages_byte (hm _ (mem_blocksOf.2 ⟨a + k, by omega, by omega, rfl⟩))
    rw [hread, hf.view]
    rfl
  | write a bs =>
    obtain ⟨σ₁, h1, h2⟩ := Option.bind_eq_some_iff.1 h
    obtain ⟨-, rfl⟩ := Prod.mk.inj (Option.some.inj h2)
    obtain ⟨hf, hm⟩ := touches_fills h1
    -- the page table marks the blocks of the store, and no others change
    have hstore : σ₁.toCache.store (· / 4096) (blocksOf a bs.length) (σ₁.pages.write a bs).byte =
        { σ₁.toCache with
          mem := (σ₁.pages.write a bs).byte
          dirty := fun b => if b ∈ blocksOf a bs.length then true else σ₁.dirty b } := by
      unfold Cache.store
      congr 1
      funext x
      by_cases hx : x / 4096 ∈ blocksOf a bs.length
      · exact if_pos hx
      · rw [if_neg hx, Bytes.byte_write_off]
        · rfl
        · by_contra hin
          exact hx (mem_blocksOf.2 ⟨x, by omega, by omega, rfl⟩)
    have hview : (σ₁.toCache.store (· / 4096) (blocksOf a bs.length) (σ₁.pages.write a bs).byte).view (· / 4096) =
        (σ.view.write a bs).byte := by
      rw [Cache.view_store hm]
      funext x
      rw [← hf.view]
      simp only [Bytes.byte_write]
      by_cases hx : x / 4096 ∈ blocksOf a bs.length
      · rw [if_pos hx, pages_byte (hm _ hx)]
      · rw [if_neg hx, if_neg]
        · rfl
        · rintro ⟨h3, h4⟩
          exact hx (mem_blocksOf.2 ⟨x, h3, h4, rfl⟩)
    refine ⟨?_, ?_⟩
    · rw [hstore] at hview
      exact congrArg some (Prod.ext rfl (Bytes.ext hview.symm))
    · have hco := (hf.fills.coherent hc).store (s := blocksOf a bs.length) (f := (σ₁.pages.write a bs).byte)
      rw [hstore] at hco
      exact hco
  | flush a =>
    obtain ⟨σ₁, h1, h2⟩ := Option.map_eq_some_iff.1 h
    obtain ⟨-, rfl⟩ := Prod.mk.inj h2
    rcases (flushBlock_cases h1).2 with ⟨rfl, -⟩ | ⟨hm, rfl⟩
    · exact ⟨rfl, hc⟩
    · refine ⟨?_, hc.flush⟩
      exact congrArg some (Prod.ext rfl (Bytes.ext (Cache.view_flush hm).symm))
  | panic => cases h

/-- **The cache does not show.** A program of accesses that does not panic on the cache has the
same result on the memory that the cache shows, and leaves that memory in the cache. -/
theorem cached_refines {α : Type} {p : Prog Acc Acc.Result α} {r : α} (hc : σ.Coherent (· / 4096))
    (h : p.interp exec σ = some (r, σ')) :
    p.interp flatExec σ.view = some (r, σ'.view) ∧ σ'.Coherent (· / 4096) := by
  have hstep : ∀ (c : Acc) (σ : Bc) (d : Bytes) (r : c.Result) (σ' : Bc), σ.Coherent (· / 4096) ∧ σ.view = d →
      exec c σ = some (r, σ') → ∃ d', flatExec c d = some (r, d') ∧ σ'.Coherent (· / 4096) ∧ σ'.view = d' := by
    rintro c σ d r σ' ⟨hc, rfl⟩ h1
    obtain ⟨h2, h3⟩ := exec_flat hc h1
    exact ⟨σ'.view, h2, h3, rfl⟩
  obtain ⟨d', h1, h2, rfl⟩ := Prog.interp_sim (E := fun σ d => σ.Coherent (· / 4096) ∧ σ.view = d) hstep h
    ⟨hc, rfl⟩
  exact ⟨h1, h2⟩

end Jos.Fs.Bc
