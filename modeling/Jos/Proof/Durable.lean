import Jos.Proof.FsIo

/-!
# What a crash leaves

* `crash_image`: whenever the server stops, each block of the disk is as the server saw it when it
  flushed the block last; a block that it never flushed is as it was at the start.
* `sync_durable`: after `fs_sync`, every block of the disk is as the server sees it.
* `flush_durable`: after `file_flush`, a crash keeps the size and the contents of the file.
-/

namespace Jos.Fs

open Lib

variable {σ σ' : Bc} {a b n : ℕ} {d : Bytes}

/-! ## Accesses and the disk -/

namespace Bc

/-- Only a flush of its block changes a byte of the disk. -/
theorem exec_disk {c : Acc} {r : c.Result} (h : exec c σ = some (r, σ')) {x : ℕ}
    (hne : ∀ a, c = .flush a → a / 4096 ≠ x / 4096) : σ'.disk x = σ.disk x := by
  cases c with
  | read a n =>
    obtain ⟨σ₁, h1, h2⟩ := Option.bind_eq_some_iff.1 h
    obtain ⟨-, rfl⟩ := Prod.mk.inj (Option.some.inj h2)
    exact congrFun (touches_fills h1).1.fills.disk x
  | write a bs =>
    obtain ⟨σ₁, h1, h2⟩ := Option.bind_eq_some_iff.1 h
    obtain ⟨-, rfl⟩ := Prod.mk.inj (Option.some.inj h2)
    exact congrFun (touches_fills h1).1.fills.disk x
  | flush a =>
    obtain ⟨σ₁, h1, h2⟩ := Option.map_eq_some_iff.1 h
    obtain ⟨-, rfl⟩ := Prod.mk.inj h2
    rcases (flushBlock_cases h1).2 with ⟨rfl, -⟩ | ⟨-, rfl⟩
    · rfl
    · exact Cache.flush_disk_of_ne (hne a rfl).symm
  | panic => cases h

/-- **A flush** leaves the block on the disk as it is seen. -/
theorem exec_flush {r : Unit} (hc : σ.Coherent (· / 4096)) (h : exec (.flush a) σ = some (r, σ')) {x : ℕ}
    (hx : a / 4096 = x / 4096) : σ'.disk x = σ.view.byte x := by
  obtain ⟨σ₁, h1, h2⟩ := Option.map_eq_some_iff.1 h
  obtain ⟨-, rfl⟩ := Prod.mk.inj h2
  rcases (flushBlock_cases h1).2 with ⟨rfl, hcl⟩ | ⟨hm, rfl⟩
  · rw [hx] at hcl
    cases hm : σ₁.mapped (x / 4096) with
    | true => exact (hc.view_clean (hcl hm)).symm
    | false => exact (@Cache.view_unmapped _ _ _ (· / 4096) σ₁.toCache x hm).symm
  · rw [hx] at hm
    rw [← pages_byte hm, hx]
    exact if_pos rfl

/-! ## Crashes -/

/-- The same bytes in a block. -/
def SameBlock (b : ℕ) (d d' : Bytes) : Prop := ∀ x, x / 4096 = b → d.byte x = d'.byte x

/-- A flush of the block. -/
def Flushes (b : ℕ) (c : Acc) : Prop := ∃ a, c = .flush a ∧ a / 4096 = b

theorem calls_flat {cs : List Acc} (hc : σ.Coherent (· / 4096)) (h : Prog.calls exec cs σ = some σ') :
    Prog.calls flatExec cs σ.view = some σ'.view ∧ σ'.Coherent (· / 4096) := by
  induction cs generalizing σ with
  | nil => cases h; exact ⟨rfl, hc⟩
  | cons c cs ih =>
    unfold Prog.calls at h
    rw [List.foldlM_cons] at h
    obtain ⟨σ₁, h1, h2⟩ := Option.bind_eq_some_iff.1 h
    obtain ⟨⟨r, _⟩, h3, rfl⟩ := Option.map_eq_some_iff.1 h1
    obtain ⟨h4, h5⟩ := exec_flat hc h3
    obtain ⟨h6, h7⟩ := ih h5 h2
    refine ⟨?_, h7⟩
    unfold Prog.calls
    rw [List.foldlM_cons, h4]
    exact h6

/-- **What is on the disk** after some accesses: each block as it was seen when it was flushed last. -/
theorem calls_disk {cs : List Acc} (hc : σ.Coherent (· / 4096)) (h : Prog.calls exec cs σ = some σ') (b : ℕ) :
    ((∀ c ∈ cs, ¬ Flushes b c) ∧ SameBlock b σ'.platter σ.platter) ∨
      ∃ pre c post d, cs = pre ++ c :: post ∧ Flushes b c ∧ (∀ c ∈ post, ¬ Flushes b c) ∧
        Prog.calls flatExec pre σ.view = some d ∧ SameBlock b σ'.platter d := by
  induction cs using List.reverseRecOn generalizing σ' with
  | nil =>
    cases h
    exact Or.inl ⟨by simp, fun _ _ => rfl⟩
  | append_singleton cs c ih =>
    obtain ⟨σ₁, r, h1, h2⟩ := Prog.calls_concat h
    obtain ⟨hflat, hc₁⟩ := calls_flat hc h1
    by_cases hf : Flushes b c
    · -- this access is the last flush of the block
      refine Or.inr ⟨cs, c, [], σ₁.view, rfl, hf, by simp, hflat, fun x hx => ?_⟩
      obtain ⟨a, rfl, ha⟩ := hf
      exact exec_flush hc₁ h2 (ha.trans hx.symm)
    · have hdisk : SameBlock b σ'.platter σ₁.platter := by
        intro x hx
        refine exec_disk h2 fun a ha hab => hf ⟨a, ha, ?_⟩
        rw [hab, hx]
      rcases ih h1 with ⟨h3, h4⟩ | ⟨pre, c', post, d, rfl, h3, h4, h5, h6⟩
      · refine Or.inl ⟨?_, fun x hx => (hdisk x hx).trans (h4 x hx)⟩
        intro c' hc'
        rcases List.mem_append.1 hc' with hc' | hc'
        · exact h3 c' hc'
        · obtain rfl := List.mem_singleton.1 hc'
          exact hf
      · refine Or.inr ⟨pre, c', post ++ [c], d, by simp, h3, ?_, h5, fun x hx => (hdisk x hx).trans (h6 x hx)⟩
        intro c' hc'
        rcases List.mem_append.1 hc' with hc' | hc'
        · exact h4 c' hc'
        · obtain rfl := List.mem_singleton.1 hc'
          exact hf

/-- After a crash, the disk is what is seen. -/
@[simp] theorem view_reboot : (σ.reboot n).view = σ.platter :=
  Bytes.ext (@Cache.view_crash _ _ _ (· / 4096) σ.toCache)

end Bc

namespace Io

open Prog Bc

variable {α β : Type} {f i p : ℕ}

/-! ## Code that flushes and does not store -/

/-- The block is on the disk as it is seen. -/
def OnDisk (σ : Bc) (b : ℕ) : Prop := SameBlock b σ.platter σ.view

/-- The same memory is seen, and what was on the disk still is. -/
structure Kept (σ σ' : Bc) : Prop where
  coherent : σ'.Coherent (· / 4096)
  view : σ'.view = σ.view
  onDisk : ∀ b, OnDisk σ b → OnDisk σ' b

theorem Kept.refl (hc : σ.Coherent (· / 4096)) : Kept σ σ := ⟨hc, rfl, fun _ h => h⟩

theorem Kept.trans {σ₁ : Bc} (h : Kept σ σ₁) (h' : Kept σ₁ σ') : Kept σ σ' :=
  ⟨h'.coherent, h'.view.trans h.view, fun b hb => h'.onDisk b (h.onDisk b hb)⟩

/-- The run of code on the cache. -/
def cached (p : Code α) (σ : Bc) : Option (α × Bc) := p.interp Bc.exec σ

theorem cached_of_bind {p : Code α} {g : α → Code β} {y : β} (h : cached (p >>= g) σ = some (y, σ')) :
    ∃ x σ₁, cached p σ = some (x, σ₁) ∧ cached (g x) σ₁ = some (y, σ') := by
  unfold cached at h
  rw [interp_bind] at h
  obtain ⟨⟨x, σ₁⟩, h1, h2⟩ := Option.bind_eq_some_iff.1 h
  exact ⟨x, σ₁, h1, h2⟩

theorem cached_pure {x y : α} (h : cached (pure x) σ = some (y, σ')) : y = x ∧ σ' = σ := by
  obtain ⟨rfl, rfl⟩ := Prod.mk.inj (Option.some.inj h)
  exact ⟨rfl, rfl⟩

theorem cached_load32 {w : BitVec 32} (hc : σ.Coherent (· / 4096)) (h : cached (load32 a) σ = some (w, σ')) :
    w = σ.view.load32 a ∧ Kept σ σ' := by
  obtain ⟨bs, σ₁, h1, h2⟩ := cached_of_bind h
  obtain ⟨rfl, rfl⟩ := cached_pure h2
  obtain ⟨⟨r, σ₂⟩, h3, h4⟩ := Option.bind_eq_some_iff.1 h1
  obtain ⟨rfl, rfl⟩ := cached_pure h4
  obtain ⟨h5, h6⟩ := exec_flat hc h3
  obtain ⟨rfl, hv⟩ := Prod.mk.inj (Option.some.inj h5)
  refine ⟨rfl, h6, hv.symm, fun b hb x hx => ?_⟩
  rw [← hv, ← hb x hx]
  exact exec_disk h3 fun a ha => by cases ha

/-- **A flush** puts its block on the disk, and keeps the others there. -/
theorem cached_flush {r : Unit} (hc : σ.Coherent (· / 4096)) (h : cached (flushBlock a) σ = some (r, σ')) :
    Kept σ σ' ∧ OnDisk σ' (a / 4096) := by
  obtain ⟨⟨r, σ₂⟩, h3, h4⟩ := Option.bind_eq_some_iff.1 h
  obtain ⟨-, rfl⟩ := cached_pure h4
  obtain ⟨h5, h6⟩ := exec_flat hc h3
  obtain ⟨-, hv⟩ := Prod.mk.inj (Option.some.inj h5)
  have hflush : OnDisk σ' (a / 4096) := by
    intro x hx
    rw [← hv]
    exact exec_flush hc h3 hx.symm
  refine ⟨⟨h6, hv.symm, fun b hb => ?_⟩, hflush⟩
  by_cases hab : a / 4096 = b
  · exact hab ▸ hflush
  · intro x hx
    rw [← hv, ← hb x hx]
    refine exec_disk h3 fun a' ha' => ?_
    cases ha'
    rwa [hx]

theorem cached_nblocks {k : ℕ} (hc : σ.Coherent (· / 4096)) (h : cached nblocks σ = some (k, σ')) :
    k = Fs.nblocks σ.view ∧ Kept σ σ' := by
  obtain ⟨w, σ₁, h1, h2⟩ := cached_of_bind h
  obtain ⟨rfl, rfl⟩ := cached_pure h2
  obtain ⟨rfl, hk⟩ := cached_load32 hc h1
  exact ⟨rfl, hk⟩

theorem cached_diskaddr (hc : σ.Coherent (· / 4096)) (h : cached (diskaddr b) σ = some (a, σ')) :
    a = b * 4096 ∧ Kept σ σ' := by
  unfold diskaddr at h
  split at h
  · cases h
  · obtain ⟨k, σ₁, h1, h2⟩ := cached_of_bind h
    obtain ⟨-, hk⟩ := cached_nblocks hc h1
    split at h2
    · cases h2
    · obtain ⟨rfl, rfl⟩ := cached_pure h2
      exact ⟨rfl, hk⟩

/-- `flush_block(diskaddr(b))`. -/
theorem cached_flush_diskaddr {r : Unit} (hc : σ.Coherent (· / 4096))
    (h : cached (diskaddr b >>= flushBlock) σ = some (r, σ')) : Kept σ σ' ∧ OnDisk σ' b := by
  obtain ⟨a, σ₁, h1, h2⟩ := cached_of_bind h
  obtain ⟨rfl, hk⟩ := cached_diskaddr hc h1
  obtain ⟨hk', hd⟩ := cached_flush hk.coherent h2
  rw [Nat.mul_div_cancel _ (by decide)] at hd
  exact ⟨hk.trans hk', hd⟩

theorem cached_syncLoop {r : Unit} (hc : σ.Coherent (· / 4096)) (hn : Fs.nblocks σ.view ≤ i + n)
    (h : cached (syncLoop n i) σ = some (r, σ')) :
    Kept σ σ' ∧ ∀ b, i ≤ b → b < Fs.nblocks σ.view → OnDisk σ' b := by
  induction n generalizing i σ with
  | zero =>
    obtain ⟨-, rfl⟩ := cached_pure h
    exact ⟨.refl hc, fun b h1 h2 => by omega⟩
  | succ n ih =>
    unfold syncLoop at h
    obtain ⟨k, σ₁, h1, h2⟩ := cached_of_bind h
    obtain ⟨rfl, hk⟩ := cached_nblocks hc h1
    split at h2
    · have h2' : cached ((diskaddr i >>= flushBlock) >>= fun _ => syncLoop n (i + 1)) σ₁ = some (r, σ') := by
        unfold cached at h2 ⊢
        simpa [Option.bind_assoc] using h2
      obtain ⟨_, σ₂, h3, h4⟩ := cached_of_bind h2'
      obtain ⟨hk₂, hi⟩ := cached_flush_diskaddr hk.coherent h3
      have hv : σ₂.view = σ.view := hk₂.view.trans hk.view
      obtain ⟨hk₃, hrest⟩ := ih hk₂.coherent (by rw [hv]; omega) h4
      refine ⟨(hk.trans hk₂).trans hk₃, fun b hb hlt => ?_⟩
      rcases Nat.eq_or_lt_of_le hb with rfl | hb
      · exact hk₃.onDisk _ hi
      · exact hrest b hb (by rwa [hv])
    · obtain ⟨-, rfl⟩ := cached_pure h2
      exact ⟨hk, fun b h1 h2 => by omega⟩

/-- **After `fs_sync`**, a crash keeps every block but block 0 as the server sees it. -/
theorem sync_durable {r : Unit} (room : ℕ) (hc : σ.Coherent (· / 4096))
    (h : fsSync.interp Bc.exec σ = some (r, σ')) (h0 : b ≠ 0) (hb : b < Fs.nblocks σ.view) :
    σ'.view = σ.view ∧ SameBlock b (σ'.reboot room).view σ.view := by
  have hn : Fs.nblocks σ.view ≤ 1 + 2 ^ 32 := by
    unfold Fs.nblocks
    omega
  obtain ⟨hk, hall⟩ := cached_syncLoop hc hn h
  rw [view_reboot, ← hk.view]
  exact ⟨rfl, hall b (by omega) hb⟩

/-! ## `file_flush` -/

theorem cached_fSize {z : ℤ} (hc : σ.Coherent (· / 4096)) (h : cached (fSize f) σ = some (z, σ')) :
    z = Fs.fSize σ.view f ∧ Kept σ σ' := by
  obtain ⟨w, σ₁, h1, h2⟩ := cached_of_bind h
  obtain ⟨rfl, rfl⟩ := cached_pure h2
  obtain ⟨rfl, hk⟩ := cached_load32 hc h1
  exact ⟨rfl, hk⟩

/-- The shared lines allocate nothing where the slot has a block. -/
theorem cached_allocAt {ok : Bool} (hc : σ.Coherent (· / 4096)) (h0 : σ.view.load32 p ≠ 0)
    (h : cached (allocAt p) σ = some (ok, σ')) : ok = true ∧ Kept σ σ' := by
  unfold allocAt at h
  obtain ⟨w, σ₁, h1, h2⟩ := cached_of_bind h
  obtain ⟨rfl, hk⟩ := cached_load32 hc h1
  rw [if_pos h0] at h2
  obtain ⟨rfl, rfl⟩ := cached_pure h2
  exact ⟨rfl, hk⟩

/-- **The block walk without `alloc`** only reads, and finds the slot of the block. -/
theorem cached_fileBlockWalk {r : Except ℤ ℕ} (hc : σ.Coherent (· / 4096))
    (h : cached (fileBlockWalk f i false) σ = some (r, σ')) :
    Kept σ σ' ∧ ∀ s, slotAddr σ.view f (dataSlot i) = some s → r = .ok s := by
  unfold fileBlockWalk at h
  split at h
  · rename_i h1
    obtain ⟨rfl, rfl⟩ := cached_pure h
    refine ⟨.refl hc, fun s hs => ?_⟩
    unfold dataSlot slotAddr at hs
    rw [if_neg (by omega)] at hs
    dsimp only at hs
    rw [if_neg (by omega)] at hs
    cases hs
  split at h
  · rename_i h1 h2
    obtain ⟨rfl, rfl⟩ := cached_pure h
    refine ⟨.refl hc, fun s hs => ?_⟩
    rw [slotAddr_direct h2] at hs
    exact congrArg _ (Option.some.inj hs)
  · rename_i h1 h2
    obtain ⟨w, σ₁, h3, h4⟩ := cached_of_bind h
    obtain ⟨rfl, hk⟩ := cached_load32 hc h3
    by_cases h0 : σ.view.load32 (fIndirect f) = 0
    · rw [if_pos ⟨h0, rfl⟩] at h4
      obtain ⟨rfl, rfl⟩ := cached_pure h4
      refine ⟨hk, fun s hs => ?_⟩
      unfold dataSlot slotAddr at hs
      rw [if_neg (by omega)] at hs
      dsimp only at hs
      rw [if_neg (fun h5 => h5.2 h0)] at hs
      cases hs
    · rw [if_neg (fun h5 => h0 h5.1)] at h4
      obtain ⟨ok, σ₂, h5, h6⟩ := cached_of_bind h4
      obtain ⟨rfl, hk₂⟩ := cached_allocAt hk.coherent (by rwa [hk.view]) h5
      rw [if_pos rfl] at h6
      obtain ⟨w, σ₃, h7, h8⟩ := cached_of_bind h6
      obtain ⟨rfl, hk₃⟩ := cached_load32 hk₂.coherent h7
      obtain ⟨a, σ₄, h9, h10⟩ := cached_of_bind h8
      obtain ⟨rfl, hk₄⟩ := cached_diskaddr hk₃.coherent h9
      obtain ⟨rfl, rfl⟩ := cached_pure h10
      refine ⟨((hk.trans hk₂).trans hk₃).trans hk₄, fun s hs => ?_⟩
      rw [slotAddr_indirect (by omega) (by omega) h0] at hs
      rw [hk₂.view, hk.view]
      exact congrArg _ (Option.some.inj hs)

/-- **One turn** of `file_flush` puts its block on the disk. -/
theorem cached_flushAt {r : Unit} (hc : σ.Coherent (· / 4096)) (h : cached (flushAt f i) σ = some (r, σ')) :
    Kept σ σ' ∧ (fileBlock σ.view f i ≠ 0 → OnDisk σ' (fileBlock σ.view f i)) := by
  unfold flushAt at h
  obtain ⟨x, σ₁, h1, h2⟩ := cached_of_bind h
  obtain ⟨hk, hx⟩ := cached_fileBlockWalk hc h1
  -- the block has a slot, which the walk has found
  have hslot : fileBlock σ.view f i ≠ 0 → ∃ s, x = .ok s ∧ fileBlock σ.view f i = (σ.view.load32 s).toNat := by
    intro h0
    unfold fileBlock slotBlock at h0 ⊢
    cases hs : slotAddr σ.view f (dataSlot i) with
    | none =>
      rw [hs] at h0
      exact absurd rfl h0
    | some s => exact ⟨s, hx s hs, rfl⟩
  cases x with
  | error e =>
    obtain ⟨-, rfl⟩ := cached_pure h2
    refine ⟨hk, fun h0 => ?_⟩
    obtain ⟨s, hs, -⟩ := hslot h0
    cases hs
  | ok s =>
    obtain ⟨w, σ₂, h3, h4⟩ := cached_of_bind h2
    obtain ⟨rfl, hk₂⟩ := cached_load32 hk.coherent h3
    have hk₁₂ := hk.trans hk₂
    split at h4
    · obtain ⟨w, σ₃, h5, h6⟩ := cached_of_bind h4
      obtain ⟨rfl, hk₃⟩ := cached_load32 hk₂.coherent h5
      obtain ⟨hk₄, hd⟩ := cached_flush_diskaddr hk₃.coherent h6
      refine ⟨(hk₁₂.trans hk₃).trans hk₄, fun h0 => ?_⟩
      obtain ⟨s', hs, hb⟩ := hslot h0
      cases hs
      rw [hb, ← hk₁₂.view]
      exact hd
    · rename_i h0
      obtain ⟨-, rfl⟩ := cached_pure h4
      refine ⟨hk₁₂, fun h5 => ?_⟩
      obtain ⟨s', hs, hb⟩ := hslot h5
      cases hs
      rw [hk.view, not_not] at h0
      rw [hb, h0] at h5
      exact absurd rfl h5

theorem cached_flushLoop {r : Unit} (hc : σ.Coherent (· / 4096))
    (hn : flushTurns (Fs.fSize σ.view f) ≤ i + n) (h : cached (flushLoop f n i) σ = some (r, σ')) :
    Kept σ σ' ∧ ∀ k, i ≤ k → k < flushTurns (Fs.fSize σ.view f) → fileBlock σ.view f k ≠ 0 →
      OnDisk σ' (fileBlock σ.view f k) := by
  induction n generalizing i σ with
  | zero =>
    obtain ⟨-, rfl⟩ := cached_pure h
    exact ⟨.refl hc, fun k h1 h2 => by omega⟩
  | succ n ih =>
    unfold flushLoop at h
    obtain ⟨z, σ₁, h1, h2⟩ := cached_of_bind h
    obtain ⟨rfl, hk⟩ := cached_fSize hc h1
    split at h2
    · obtain ⟨_, σ₂, h3, h4⟩ := cached_of_bind h2
      obtain ⟨hk₂, hi⟩ := cached_flushAt hk.coherent h3
      have hv : σ₂.view = σ.view := hk₂.view.trans hk.view
      obtain ⟨hk₃, hrest⟩ := ih hk₂.coherent (by rw [hv]; omega) h4
      refine ⟨(hk.trans hk₂).trans hk₃, fun k hle hlt h0 => ?_⟩
      rcases Nat.eq_or_lt_of_le hle with rfl | hle
      · rw [hk.view] at hi
        exact hk₃.onDisk _ (hi h0)
      · rw [hv] at hrest
        exact hrest k hle hlt h0
    · obtain ⟨-, rfl⟩ := cached_pure h2
      exact ⟨hk, fun k h1 h2 => by omega⟩

/-- **What `file_flush` puts on the disk**: the blocks of the file, the block of its `struct File`
and its indirect block. -/
theorem cached_fileFlush {r : Unit} (hc : σ.Coherent (· / 4096)) (h : cached (fileFlush f) σ = some (r, σ')) :
    Kept σ σ' ∧ OnDisk σ' (f / 4096) ∧
      (∀ k < flushTurns (Fs.fSize σ.view f), fileBlock σ.view f k ≠ 0 → OnDisk σ' (fileBlock σ.view f k)) ∧
      (σ.view.load32 (fIndirect f) ≠ 0 → OnDisk σ' (σ.view.load32 (fIndirect f)).toNat) := by
  have hn : flushTurns (Fs.fSize σ.view f) ≤ 0 + 2 ^ 32 := by
    unfold flushTurns i32
    have h1 := (BitVec.ofInt 32 (Fs.fSize σ.view f + 4096 - 1)).toInt_lt
    have h2 := (BitVec.ofInt 32 (Fs.fSize σ.view f + 4096 - 1)).le_toInt
    have h3 := Int.natAbs_tdiv_le_natAbs (BitVec.ofInt 32 (Fs.fSize σ.view f + 4096 - 1)).toInt 4096
    omega
  unfold fileFlush at h
  obtain ⟨_, σ₁, h1, h2⟩ := cached_of_bind h
  obtain ⟨hk, hdata⟩ := cached_flushLoop hc hn h1
  obtain ⟨_, σ₂, h3, h4⟩ := cached_of_bind h2
  obtain ⟨hk₂, hhead⟩ := cached_flush hk.coherent h3
  obtain ⟨w, σ₃, h5, h6⟩ := cached_of_bind h4
  obtain ⟨rfl, hk₃⟩ := cached_load32 hk₂.coherent h5
  have hv : σ₂.view = σ.view := hk₂.view.trans hk.view
  have hk₂₃ := hk₂.trans hk₃
  split at h6
  · obtain ⟨w, σ₄, h7, h8⟩ := cached_of_bind h6
    obtain ⟨rfl, hk₄⟩ := cached_load32 hk₃.coherent h7
    obtain ⟨hk₅, hind⟩ := cached_flush_diskaddr hk₄.coherent h8
    have hk₃₅ := (hk₃.trans hk₄).trans hk₅
    refine ⟨hk.trans (hk₂.trans hk₃₅), hk₃₅.onDisk _ hhead, fun k hlt h0 => ?_, fun _ => ?_⟩
    · exact (hk₂.trans hk₃₅).onDisk _ (hdata k (Nat.zero_le k) hlt h0)
    · rwa [hk₃.view, hv] at hind
  · rename_i h0
    obtain ⟨-, rfl⟩ := cached_pure h6
    refine ⟨hk.trans hk₂₃, hk₃.onDisk _ hhead, fun k hlt h1 => ?_, fun h1 => ?_⟩
    · exact hk₂₃.onDisk _ (hdata k (Nat.zero_le k) hlt h1)
    · rw [hv] at h0
      exact absurd h1 h0

/-! ## `file_flush` and a crash -/

theorem load32_of_sameBlock {d' : Bytes} (h : SameBlock b d d') (hb : a / 4096 = b) (ha : a % 4096 ≤ 4092) :
    d.load32 a = d'.load32 a := by
  unfold Bytes.load32
  rw [h a hb, h (a + 1) (by omega), h (a + 2) (by omega), h (a + 3) (by omega)]

/-- The number of a block of the file is the same on the disk. -/
theorem fileBlock_onDisk {k : ℕ} (hf : f % 4096 + 256 ≤ 4096) (hhead : OnDisk σ (f / 4096))
    (hind : σ.view.load32 (fIndirect f) ≠ 0 → OnDisk σ (σ.view.load32 (fIndirect f)).toNat) :
    fileBlock σ.platter f k = fileBlock σ.view f k := by
  have hp : σ.platter.load32 (fIndirect f) = σ.view.load32 (fIndirect f) :=
    load32_of_sameBlock hhead (by unfold fIndirect; omega) (by unfold fIndirect; omega)
  unfold fileBlock slotBlock dataSlot
  by_cases hk : k < 10
  · simp only [hk, if_true, slotAddr]
    rw [load32_of_sameBlock hhead (by unfold fDirect; omega) (by unfold fDirect; omega)]
  · simp only [hk, if_false, slotAddr, hp]
    by_cases hj : k - 10 < 1024 ∧ σ.view.load32 (fIndirect f) ≠ 0
    · simp only [hj, if_true, ne_eq, not_false_eq_true, and_self]
      rw [load32_of_sameBlock (hind hj.2) (by omega) (by omega)]
    · simp only [hj, if_false]

theorem flushTurns_eq {z : ℤ} (hle : z ≤ maxFileSize) {x : ℕ} (hx : x < z.toNat) : x / 4096 < flushTurns z := by
  unfold maxFileSize at hle
  unfold flushTurns i32
  rw [BitVec.toInt_ofInt, Int.bmod_eq_of_le (by omega) (by omega), Int.tdiv_eq_ediv_of_nonneg (by omega)]
  omega

/-- **Flushing a file**: a crash after `file_flush` loses nothing of the `struct File`, nor of the
contents of the file. -/
theorem flush_durable {r : Unit} {room : ℕ} (hc : σ.Coherent (· / 4096)) (hf : f % 4096 + 256 ≤ 4096)
    (hle : Fs.fSize σ.view f ≤ maxFileSize) (h : cached (fileFlush f) σ = some (r, σ')) :
    (∀ k < 256, (σ'.reboot room).view.byte (f + k) = σ.view.byte (f + k)) ∧
      contents (σ'.reboot room).view f = contents σ.view f := by
  obtain ⟨hk, hhead, hdata, hind⟩ := cached_fileFlush hc h
  rw [view_reboot]
  rw [← hk.view] at hind hle hdata ⊢
  have hsize : Fs.fSize σ'.platter f = Fs.fSize σ'.view f := by
    unfold Fs.fSize
    rw [load32_of_sameBlock hhead (by omega) (by omega)]
  refine ⟨fun k hk => hhead (f + k) (by omega), ?_⟩
  unfold contents
  rw [hsize]
  refine List.map_congr_left fun x hx => ?_
  have hturn := flushTurns_eq hle (List.mem_range.1 hx)
  unfold fileByte
  rw [fileBlock_onDisk hf hhead hind]
  split
  · rfl
  · rename_i h0
    exact hdata _ hturn h0 _ (by omega)

/-- `/a` is created, written to and flushed before a crash. -/
theorem flush_durable_hi : ∃ σ σ', Fs.fSize σ.view 12544 = 2 ∧ cached (fileFlush 12544) σ = some ((), σ') ∧
    contents (σ'.reboot 8).view 12544 = contents σ.view 12544 := by
  have hrun : (((codes [.call (.create pathA), .call (.write 12544 [0x68, 0x69] 0)]).interp Bc.exec
      (Bc.start binImage 8)).any fun r => decide (Fs.fSize r.2.view 12544 = 2) &&
        (cached (fileFlush 12544) r.2).isSome) = true := by decide +kernel
  obtain ⟨⟨rs, σ⟩, h1, h2⟩ := (Option.any_eq_true _ _).1 hrun
  obtain ⟨h3, h4⟩ := Bool.and_eq_true_iff.1 h2
  obtain ⟨⟨_, σ'⟩, h5⟩ := Option.isSome_iff_exists.1 h4
  have hsize := of_decide_eq_true h3
  have hc := (cached_refines (start_coherent _ _) h1).2
  exact ⟨σ, σ', hsize, h5, (flush_durable hc (by decide) (by rw [hsize]; decide) h5).2⟩

end Io

end Jos.Fs
