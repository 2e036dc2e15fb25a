import Jos.Proof.FsIo
import Jos.Proof.Ready
import Jos.Proof.Requests

/-!
# The file server does not panic

On a disk that is whole, every access of `fs.c` is to a block in use and leaves the super block and
the bitmap sound (`safe_fileWrite` and its siblings). So over a cache that is ready, the calls of the
server return (`server_run`).
-/

namespace Jos.Fs.Io

open Lib Prog

variable {α β : Type} {dirs : Bool} {d d' d₁ : Bytes} {r : Rec} {a b f i n p : ℕ} {w : BitVec 32} {bs v : List Byte}

/-- The run of a program whose accesses must be good. -/
noncomputable def safe (p : Code α) (d : Bytes) : Option (α × Bytes) := p.interp (guarded Bc.Good flatExec) d

/-- The run succeeds. -/
def Safe (p : Code α) (d : Bytes) : Prop := ∃ x d', safe p d = some (x, d')

theorem flat_of_safe {r : α × Bytes} {p : Code α} (h : safe p d = some r) : flat p d = some r := interp_guarded h

@[simp] theorem safe_pure (x : α) : safe (pure x) d = some (x, d) := rfl

@[simp] theorem safe_ret (x : α) : safe (.ret x) d = some (x, d) := rfl

@[simp] theorem safe_bind (p : Code α) (g : α → Code β) :
    safe (p >>= g) d = (safe p d).bind fun r => safe (g r.1) r.2 := interp_bind p g d

theorem Safe.pure (x : α) : Safe (pure x) d := ⟨x, d, rfl⟩

/-- **Sequential composition.** -/
theorem Safe.bind {p : Code α} {g : α → Code β} (h : Safe p d)
    (hg : ∀ x d', safe p d = some (x, d') → Safe (g x) d') : Safe (p >>= g) d := by
  obtain ⟨x, d', h1⟩ := h
  obtain ⟨y, d₂, h2⟩ := hg x d' h1
  exact ⟨y, d₂, by rw [safe_bind, h1]; exact h2⟩

/-- A part of a program with a known result. -/
theorem Safe.of_eq {p : Code α} {g : α → Code β} {x : α} (h : safe p d = some (x, d')) (hg : Safe (g x) d') :
    Safe (p >>= g) d := by
  obtain ⟨y, d₂, h2⟩ := hg
  exact ⟨y, d₂, by rw [safe_bind, h]; exact h2⟩

/-! ## Accesses -/

theorem safe_read (h : ∀ x, a ≤ x → x < a + n → InUse d (x / 4096)) : safe (read a n) d = some (d.read a n, d) := by
  have hg : Bc.Good (.read a n) d := by
    intro b hb
    obtain ⟨x, h1, h2, rfl⟩ := Bc.mem_blocksOf.1 hb
    exact h x h1 h2
  show (guarded Bc.Good flatExec (Acc.read a n) d).bind _ = _
  rw [guarded_pos hg]
  rfl

theorem safe_write (h : ∀ x, a ≤ x → x < a + v.length → InUse d (x / 4096)) (hc : Checked (d.write a v))
    (ha : 4104 ≤ a) : safe (write a v) d = some ((), d.write a v) := by
  have hg : Bc.Good (.write a v) d := by
    refine ⟨fun b hb => ?_, hc, ha⟩
    obtain ⟨x, h1, h2, rfl⟩ := Bc.mem_blocksOf.1 hb
    exact h x h1 h2
  show (guarded Bc.Good flatExec (Acc.write a v) d).bind _ = _
  rw [guarded_pos hg]
  rfl

theorem safe_flushBlock (h : a < diskSize) : safe (flushBlock a) d = some ((), d) := by
  have hg : Bc.Good (.flush a) d := h
  show (guarded Bc.Good flatExec (Acc.flush a) d).bind _ = _
  rw [guarded_pos hg]
  rfl

theorem safe_load32 (hu : InUse d (a / 4096)) (ha : a % 4096 ≤ 4092) :
    safe (load32 a) d = some (d.load32 a, d) := by
  unfold load32
  rw [safe_bind, safe_read]
  · rfl
  · intro x h1 h2
    have hx : x / 4096 = a / 4096 := by omega
    rw [hx]
    exact hu

theorem safe_loadByte (hu : InUse d (a / 4096)) : safe (loadByte a) d = some (d.byte a, d) := by
  unfold loadByte
  rw [safe_bind, safe_read]
  · rfl
  · intro x h1 h2
    have hx : x / 4096 = a / 4096 := by omega
    rw [hx]
    exact hu

/-- A store above the super block and off the bitmap. -/
theorem checked_write (hc : Checked d) (h1 : 4104 ≤ a)
    (h2 : ∀ x, a ≤ x → x < a + v.length → ∀ c < Fs.nblocks d, x / 4096 ≠ bitmapWord (c / 32) / 4096) :
    Checked (d.write a v) := by
  have hn : Fs.nblocks (d.write a v) = Fs.nblocks d := Bc.nblocks_write h1
  refine ⟨by rw [hn]; exact hc.two, by rw [hn]; exact hc.size, fun b hb hr => ?_⟩
  have hr' : Reserved d b := by
    unfold Reserved at hr ⊢
    rwa [hn] at hr
  have hb' : b < Fs.nblocks d := by rwa [hn] at hb
  have hword : (d.write a v).load32 (bitmapWord (b / 32)) = d.load32 (bitmapWord (b / 32)) := by
    refine Bytes.load32_congr fun i hi => Bytes.byte_write_off ?_
    by_contra hcon
    refine h2 (bitmapWord (b / 32) + i) (by omega) (by omega) b hb' ?_
    unfold bitmapWord
    omega
  have hfree := hc.reserved b hb' hr'
  unfold Fs.blockIsFree at hfree ⊢
  rwa [hn, hword]

theorem safe_write_off (hc : Checked d) (hu : ∀ x, a ≤ x → x < a + v.length → InUse d (x / 4096)) (h1 : 4104 ≤ a)
    (h2 : ∀ x, a ≤ x → x < a + v.length → ∀ c < Fs.nblocks d, x / 4096 ≠ bitmapWord (c / 32) / 4096) :
    safe (write a v) d = some ((), d.write a v) ∧ Checked (d.write a v) := by
  have h3 := checked_write hc h1 h2
  exact ⟨safe_write hu h3 h1, h3⟩

/-- A store to a block that is not reserved. -/
theorem safe_write_block (hc : Checked d) (hb : InUse d b) (hr : ¬ Reserved d b) (h1 : b * 4096 ≤ a)
    (h2 : a + v.length ≤ (b + 1) * 4096) :
    safe (write a v) d = some ((), d.write a v) ∧ Checked (d.write a v) := by
  have h3 : ¬ b < 2 := fun h4 => hr (Or.inl h4)
  refine safe_write_off hc (fun x h4 h5 => ?_) (by omega) fun x h4 h5 c hlt he => ?_
  · have hx : x / 4096 = b := by omega
    rw [hx]
    exact hb
  · have hx : x / 4096 = b := by omega
    rw [hx] at he
    exact hr (he ▸ reserved_bitmapWord hlt)

/-! ## Blocks -/

theorem inUse_super (hc : Checked d) : InUse d 1 :=
  ⟨by have := hc.two; omega, hc.reserved 1 (by have := hc.two; omega) (Or.inl (by omega))⟩

theorem inUse_bitmap (hc : Checked d) (hb : b < Fs.nblocks d) : InUse d (bitmapWord (b / 32) / 4096) := by
  have h2 := hc.two
  have hlt : bitmapWord (b / 32) / 4096 < Fs.nblocks d := by
    rw [Bc.bitmapWord_block]
    omega
  exact ⟨hlt, hc.reserved _ hlt (reserved_bitmapWord hb)⟩

theorem safe_nblocks (hc : Checked d) : safe nblocks d = some (Fs.nblocks d, d) := by
  unfold nblocks
  rw [safe_bind, safe_load32 (inUse_super hc) (by decide)]
  rfl

theorem safe_diskaddr (hc : Checked d) (h0 : b ≠ 0) (hb : b < Fs.nblocks d) :
    safe (diskaddr b) d = some (b * 4096, d) := by
  unfold diskaddr
  rw [if_neg h0, safe_bind, safe_nblocks hc, Option.bind_some, if_neg (Nat.not_le.2 hb)]
  rfl

theorem safe_bitmapWord (hc : Checked d) (hb : b < Fs.nblocks d) :
    safe (load32 (bitmapWord (b / 32))) d = some (d.load32 (bitmapWord (b / 32)), d) :=
  safe_load32 (inUse_bitmap hc hb) (by unfold bitmapWord; omega)

theorem safe_blockIsFree (hc : Checked d) : safe (blockIsFree b) d = some (Fs.blockIsFree d b, d) := by
  unfold blockIsFree Fs.blockIsFree
  rw [safe_bind, safe_nblocks hc, Option.bind_some]
  by_cases hb : b ≥ Fs.nblocks d
  · simp [hb, Nat.not_lt.2 hb]
  · rw [if_neg hb, safe_bind, safe_bitmapWord hc (Nat.not_le.1 hb)]
    simp [Nat.not_le.1 hb]

/-- Marking a block, if it is not a reserved block that becomes free. -/
theorem checked_markBlock {u : Bool} (hc : Checked d) (hu : u = true → ¬ Reserved d b) :
    Checked (markBlock d b u) := by
  refine ⟨by rw [nblocks_markBlock]; exact hc.two, by rw [nblocks_markBlock]; exact hc.size, fun c hlt hr => ?_⟩
  rw [nblocks_markBlock] at hlt
  have hr' : Reserved d c := by
    unfold Reserved at hr ⊢
    rwa [nblocks_markBlock] at hr
  rw [blockIsFree_markBlock]
  split
  · rename_i he
    subst he
    cases u with
    | true => exact absurd hr' (hu rfl)
    | false => exact Bool.and_false _
  · exact hc.reserved c hlt hr'

theorem safe_markBlock {u : Bool} (hc : Checked d) (hb : b < Fs.nblocks d) (hu : u = true → ¬ Reserved d b) :
    safe (store32 (bitmapWord (b / 32))
      (if u then d.load32 (bitmapWord (b / 32)) ||| 1#32 <<< (b % 32)
        else d.load32 (bitmapWord (b / 32)) &&& ~~~(1#32 <<< (b % 32)))) d = some ((), markBlock d b u) := by
  refine safe_write (fun x h1 h2 => ?_) (checked_markBlock hc hu) (by unfold bitmapWord; omega)
  have hx : x / 4096 = bitmapWord (b / 32) / 4096 := by
    rw [Bytes.word32_length] at h2
    unfold bitmapWord at *
    omega
  rw [hx]
  exact inUse_bitmap hc hb

theorem safe_freeBlock (hc : Checked d) (h0 : b ≠ 0) (hb : b < Fs.nblocks d) (hr : ¬ Reserved d b) :
    safe (freeBlock b) d = some ((), markBlock d b true) := by
  unfold freeBlock
  rw [if_neg h0, safe_bind, safe_bitmapWord hc hb]
  exact safe_markBlock (u := true) hc hb fun _ => hr

theorem safe_allocLoop (hc : Checked d) : safe (allocLoop n i) d = flat (allocLoop n i) d := by
  induction n generalizing i with
  | zero => rfl
  | succ n ih =>
    unfold allocLoop
    rw [safe_bind, flat_bind, safe_nblocks hc, flat_nblocks, Option.bind_some, Option.bind_some]
    by_cases hi : i < Fs.nblocks d
    · rw [if_pos hi, safe_bind, flat_bind, safe_blockIsFree hc, flat_blockIsFree, Option.bind_some, Option.bind_some]
      by_cases hf : Fs.blockIsFree d i = true
      · have hsize := hc.size
        have ha : bitmapWord (i / 32) < diskSize := by
          unfold bitmapWord diskSize at *
          omega
        have hmark := safe_markBlock (u := false) hc hi fun h => Bool.noConfusion h
        rw [if_pos hf, safe_bind, flat_bind, safe_bitmapWord hc hi, flat_load32, Option.bind_some, Option.bind_some,
          safe_bind, flat_bind]
        simp only [Bool.false_eq_true, if_false] at hmark
        rw [hmark, flat_store32, Option.bind_some, Option.bind_some, safe_bind, safe_flushBlock ha]
        rfl
      · rw [if_neg hf]
        exact ih
    · rw [if_neg hi]
      rfl

theorem safe_allocBlock (hc : Checked d) : safe allocBlock d = some (Fs.allocBlock d) :=
  (safe_allocLoop hc).trans flat_allocBlock

/-! ## Records -/

/-- The sizes that the super block gives stay. -/
theorem checked_of_sound (hc : Checked d) (hs : Sound sRoot dirs d') (hn : Fs.nblocks d' = Fs.nblocks d) :
    Checked d' :=
  ⟨by rw [hn]; exact hc.two, by rw [hn]; exact hc.size, fun b _ h => hs.reserved b h⟩

section Sound

variable (hs : Sound sRoot dirs d) (hc : Checked d)
include hs hc

/-- The block of a record is in use. -/
theorem inUse_record (hr : (tree sRoot dirs d).Linked r) : InUse d r.block := by
  rcases linked_block hr with rfl | ⟨q, t, h, -⟩
  · exact inUse_super hc
  · exact (hs.good h).1

/-- The bytes of a record. -/
theorem inUse_byte (hr : (tree sRoot dirs d).Linked r) {x : ℕ} (h1 : r.base ≤ x) (h2 : x < r.base + r.size) :
    InUse d (x / 4096) ∧ ∀ c < Fs.nblocks d, x / 4096 ≠ bitmapWord (c / 32) / 4096 := by
  have h3 := hs.fits_block hr
  have hx : x / 4096 = r.block := by omega
  rw [hx]
  exact ⟨inUse_record hs hc hr, (hs.block_used hr).2.1⟩

theorem safe_load_record (hr : (tree sRoot dirs d).Linked r) (h1 : r.base ≤ a) (h2 : a + 4 ≤ r.base + r.size) :
    safe (load32 a) d = some (d.load32 a, d) := by
  have h3 := hs.fits_block hr
  exact safe_load32 (inUse_byte hs hc hr h1 (by omega)).1 (by omega)

theorem safe_write_record (hr : (tree sRoot dirs d).Linked r) (h1 : r.base ≤ a)
    (h2 : a + v.length ≤ r.base + r.size) :
    safe (write a v) d = some ((), d.write a v) ∧ Checked (d.write a v) :=
  safe_write_off hc (fun x h3 h4 => (inUse_byte hs hc hr (by omega) (by omega)).1)
    ((hs.block_used hr).2.2.trans h1) fun x h3 h4 => (inUse_byte hs hc hr (by omega) (by omega)).2

theorem safe_load_slot {s : Slot} (hf : (tree sRoot dirs d).Linked (.file f)) (ha : slotAddr d f s = some p) :
    safe (load32 p) d = some (d.load32 p, d) := by
  have hw : (slotRec dirs d f s).word s = some p := word_of_slotAddr ha
  have h1 := word_fits hw
  exact safe_load_record hs hc (linked_slotRec hf ha) h1.1 h1.2

/-- The block number in a slot can be followed. -/
theorem safe_diskaddr_slot {s : Slot} (hf : (tree sRoot dirs d).Linked (.file f)) (ha : slotAddr d f s = some p)
    (h0 : d.load32 p ≠ 0) :
    safe (diskaddr (d.load32 p).toNat) d = some ((d.load32 p).toNat * 4096, d) := by
  obtain ⟨h1, h2, -⟩ := lt_of_diskaddr (hs.diskaddr_slot hf ha h0)
  exact safe_diskaddr hc h1 h2

/-- The lines of `alloc_block` and `memset` that `file_block_walk` and `file_get_block` share. -/
theorem safe_allocAt {s : Slot} (hf : (tree sRoot dirs d).Linked (.file f)) (ha : slotAddr d f s = some p) :
    Safe (allocAt p) d := by
  unfold allocAt
  refine .of_eq (safe_load_slot hs hc hf ha) ?_
  split
  · exact .pure _
  · have hrun := safe_allocBlock hc
    rw [allocBlock_eq] at hrun
    rcases hx : (List.range (Fs.nblocks d)).find? (Fs.blockIsFree d) with _ | x
    · rw [hx] at hrun
      exact .of_eq hrun (.pure _)
    · rw [hx] at hrun
      refine .of_eq hrun ?_
      have hfree : Fs.blockIsFree d x = true := List.find?_some hx
      have hlt := blockIsFree_lt hfree
      have hres : ¬ Reserved d x := fun h => by
        rw [hs.reserved x h] at hfree
        cases hfree
      have h0 : x ≠ 0 := fun h => hres (Or.inl (by omega))
      have hsize := hc.size
      -- the block is marked
      have hc₁ : Checked (allocated d x) := checked_markBlock (u := false) hc fun h => Bool.noConfusion h
      have hn₁ : Fs.nblocks (allocated d x) = Fs.nblocks d := nblocks_markBlock (u := false)
      have hmark : ∀ c, Fs.blockIsFree (allocated d x) c = if c = x then false else Fs.blockIsFree d c := by
        intro c
        refine (blockIsFree_markBlock (u := false)).trans ?_
        rw [Bool.and_false]
      have hmono : ∀ c, InUse d c → InUse (allocated d x) c := by
        intro c hu
        refine ⟨by rw [hn₁]; exact hu.1, ?_⟩
        rw [hmark, hu.2, ite_self]
      -- the slot is set
      have hr := linked_slotRec hf ha
      have hw : (slotRec dirs d f s).word s = some p := word_of_slotAddr ha
      have h1 := word_fits hw
      have hstore := safe_write_off (v := Bytes.word32 (BitVec.ofNat 32 x)) hc₁ (a := p)
        (fun y h3 h4 => hmono _ (inUse_byte hs hc hr (by omega) (by rw [Bytes.word32_length] at h4; omega)).1)
        ((hs.block_used hr).2.2.trans h1.1) fun y h3 h4 c hlt => by
          rw [hn₁] at hlt
          exact (inUse_byte hs hc hr (by omega) (by rw [Bytes.word32_length] at h4; omega)).2 c hlt
      obtain ⟨hset, hc₂⟩ := hstore
      have hn₂ : Fs.nblocks ((allocated d x).store32 p (BitVec.ofNat 32 x)) = Fs.nblocks d :=
        hs.nblocks_mark hr (word_of_slotAddr ha) (u := false)
      have hfree₂ : ∀ c, Fs.blockIsFree ((allocated d x).store32 p (BitVec.ofNat 32 x)) c =
          if c = x then false else Fs.blockIsFree d c := by
        intro c
        refine (hs.blockIsFree_mark hr (word_of_slotAddr ha) (u := false)).trans ?_
        rw [Bool.and_false]
      have hu₂ : InUse ((allocated d x).store32 p (BitVec.ofNat 32 x)) x :=
        ⟨by rw [hn₂]; exact hlt, by rw [hfree₂, if_pos rfl]⟩
      have hres₂ : ¬ Reserved ((allocated d x).store32 p (BitVec.ofNat 32 x)) x := by
        unfold Reserved at hres ⊢
        rwa [hn₂]
      obtain ⟨hclear, hc₃⟩ := safe_write_block (v := List.replicate 4096 0) hc₂ hu₂ hres₂ le_rfl
        (by rw [List.length_replicate]; omega)
      have hn₃ : Fs.nblocks (((allocated d x).store32 p (BitVec.ofNat 32 x)).write (x * 4096)
          (List.replicate 4096 0)) = Fs.nblocks d := by
        refine Eq.trans ?_ hn₂
        unfold Fs.nblocks
        rw [Bytes.load32_write_off]
        have : ¬ x < 2 := fun h => hres (Or.inl h)
        omega
      refine .of_eq hset (.of_eq (safe_diskaddr hc₂ h0 (hlt.trans_eq hn₂.symm)) (.of_eq hclear ?_))
      refine .of_eq (safe_diskaddr hc₃ h0 (hlt.trans_eq hn₃.symm)) (.of_eq (safe_flushBlock ?_) (.pure _))
      unfold diskSize at *
      omega

/-- After that, the slot is set. -/
theorem allocAt_ok {s : Slot} (hf : (tree sRoot dirs d).Linked (.file f)) (ha : slotAddr d f s = some p)
    (h : safe (allocAt p) d = some (true, d₁)) :
    Sound sRoot dirs d₁ ∧ Checked d₁ ∧ (tree sRoot dirs d₁).Linked (.file f) ∧ slotAddr d₁ f s = some p ∧
      d₁.load32 p ≠ 0 := by
  have h1 := allocAt_flat (flat_of_safe h)
  rcases hs.allocAt_total hf ha with ⟨h2, -⟩ | ⟨h0, h2⟩ | ⟨h0, b, hb, h2⟩
  · rw [h1] at h2
    cases h2
  · rw [h1] at h2
    obtain ⟨-, rfl⟩ := Prod.mk.inj (Option.some.inj h2)
    exact ⟨hs, hc, hf, ha, h0⟩
  · rw [h1] at h2
    obtain ⟨-, rfl⟩ := Prod.mk.inj (Option.some.inj h2)
    have hr := linked_slotRec hf ha
    have hp : (slotRec dirs d f s).word s = some p := word_of_slotAddr ha
    have ha' := hs.slotAddr_addBlock hr hp hb h0 hf ha
    have hs' := hs.add hr hp hb h0
    have hn := hs.nblocks_addBlock hr hp hb
    refine ⟨hs', checked_of_sound hc hs' hn, (hs.linked_addBlock hr hp hb h0).2 (Or.inl hf), ha', fun h3 => ?_⟩
    have h4 := (hs.slot_add hf ha h0 hb).1
    have h5 := (hs.free_apart hb).1
    rw [slotBlock_eq ha', h3] at h4
    rw [← h4] at h5
    exact absurd h5 (by decide)

theorem safe_fileBlockWalk (hf : (tree sRoot dirs d).Linked (.file f)) (n : ℕ) (alloc : Bool) :
    Safe (fileBlockWalk f n alloc) d := by
  unfold fileBlockWalk
  split
  · exact .pure _
  split
  · exact .pure _
  have ha : slotAddr d f .fIndirect = some (fIndirect f) := rfl
  refine .of_eq (safe_load_slot hs hc hf ha) ?_
  split
  · exact .pure _
  refine .bind (safe_allocAt hs hc hf ha) fun ok d₁ h1 => ?_
  cases ok with
  | false => exact .pure _
  | true =>
    obtain ⟨hs₁, hc₁, hf₁, ha₁, h0⟩ := allocAt_ok hs hc hf ha h1
    exact .of_eq (safe_load_slot hs₁ hc₁ hf₁ ha₁) (.of_eq (safe_diskaddr_slot hs₁ hc₁ hf₁ ha₁ h0) (.pure _))

/-- What the walk leaves. -/
theorem fileBlockWalk_ok {alloc : Bool} {x : Except ℤ ℕ} (hf : (tree sRoot dirs d).Linked (.file f))
    (h : safe (fileBlockWalk f n alloc) d = some (x, d₁)) :
    Sound sRoot dirs d₁ ∧ Checked d₁ ∧ (tree sRoot dirs d₁).Linked (.file f) ∧
      ∀ p, x = .ok p → slotAddr d₁ f (dataSlot n) = some p := by
  rcases fileBlockWalk_cases (fileBlockWalk_flat (flat_of_safe h)) with ⟨e, -, rfl, rfl, -⟩ | ⟨p, rfl, -, hp, hd⟩
  · exact ⟨hs, hc, hf, nofun⟩
  · rcases hd with rfl | ⟨-, -, h0, b, hb, rfl⟩
    · exact ⟨hs, hc, hf, fun q hq => Except.ok.inj hq ▸ hp⟩
    · have ha : slotAddr d f .fIndirect = some (fIndirect f) := rfl
      have hr := linked_slotRec hf ha
      have hw : (slotRec dirs d f .fIndirect).word .fIndirect = some (fIndirect f) := word_of_slotAddr ha
      have hs' := hs.add hr hw hb h0
      have hn := hs.nblocks_addBlock hr hw hb
      exact ⟨hs', checked_of_sound hc hs' hn, (hs.linked_addBlock hr hw hb h0).2 (Or.inl hf), fun q hq => Except.ok.inj hq ▸ hp⟩

theorem safe_fileGetBlock (hf : (tree sRoot dirs d).Linked (.file f)) (n : ℕ) : Safe (fileGetBlock f n) d := by
  unfold fileGetBlock
  refine .bind (safe_fileBlockWalk hs hc hf n true) fun x d₁ h1 => ?_
  obtain ⟨hs₁, hc₁, hf₁, hp⟩ := fileBlockWalk_ok hs hc hf h1
  cases x with
  | error e => exact .pure _
  | ok p =>
    have ha := hp p rfl
    refine .bind (safe_allocAt hs₁ hc₁ hf₁ ha) fun ok d₂ h2 => ?_
    cases ok with
    | false => exact .pure _
    | true =>
      obtain ⟨hs₂, hc₂, hf₂, ha₂, h0⟩ := allocAt_ok hs₁ hc₁ hf₁ ha h2
      exact .of_eq (safe_load_slot hs₂ hc₂ hf₂ ha₂) (.of_eq (safe_diskaddr_slot hs₂ hc₂ hf₂ ha₂ h0) (.pure _))

end Sound

/-! ## Directories -/

theorem checked_adds {P : ℕ → ℕ → Bool → ℤ → Prop} (hc : Checked d) (hv : Valid sRoot dirs d)
    (h : Adds P sRoot dirs d d') : Checked d' :=
  (h.rule hv (I := Checked) hc fun _ _ hv₁ hc₁ h1 => checked_of_sound hc₁ (h1.sound hv₁.sound) (h1.nblocks_eq hv₁.sound)).2

section Sound

variable (hs : Sound sRoot dirs d) (hc : Checked d) (hf : (tree sRoot dirs d).Linked (.file f))
include hs hc hf

theorem safe_fSize : safe (fSize f) d = some (Fs.fSize d f, d) := by
  unfold fSize
  rw [safe_bind, safe_load_record (a := f + 128) hs hc hf (Nat.le_add_right ..)
    (by simp only [Rec.base, Rec.size]; omega)]
  rfl

theorem safe_fType : safe (load32 (f + 132)) d = some (fType d f, d) :=
  safe_load_record hs hc hf (Nat.le_add_right ..) (by simp only [Rec.base, Rec.size]; omega)

theorem safe_setFSize (z : ℤ) : safe (setFSize f z) d = some ((), Fs.setFSize d f z) ∧ Checked (Fs.setFSize d f z) :=
  safe_write_record hs hc hf (Nat.le_add_right ..) (by
    rw [Bytes.word32_length]
    simp only [Rec.base, Rec.size]
    omega)

end Sound

theorem safe_findM {t : ℕ → Code Bool} {q : ℕ → Bool} {l : List ℕ} (ht : ∀ j ∈ l, safe (t j) d = some (q j, d)) :
    safe (findM t l) d = some (l.find? q, d) := by
  induction l with
  | nil => rfl
  | cons j l ih =>
    unfold findM
    rw [safe_bind, ht j List.mem_cons_self, Option.bind_some, List.find?_cons]
    cases q j with
    | true => rfl
    | false => exact ih fun k hk => ht k (List.mem_cons_of_mem _ hk)

theorem safe_strEq {name : List Byte} (hb : InUse d b) (h1 : b * 4096 ≤ f) (h2 : f + name.length < (b + 1) * 4096) :
    safe (strEq name f) d = some (Fs.nameEq name d f, d) := by
  have hu : InUse d (f / 4096) := by
    have hx : f / 4096 = b := by omega
    rwa [hx]
  induction name generalizing f with
  | nil =>
    unfold strEq Fs.nameEq
    rw [safe_bind, safe_loadByte hu]
    simp [List.range_succ]
  | cons c cs ih =>
    rw [List.length_cons] at h2
    unfold strEq
    rw [nameEq_cons, safe_bind, safe_loadByte hu, Option.bind_some]
    by_cases hc : d.byte f = c
    · have hu' : InUse d ((f + 1) / 4096) := by
        have hx : (f + 1) / 4096 = b := by omega
        rwa [hx]
      simp [hc, ih (f := f + 1) (by omega) (by omega) hu']
    · simp [hc]

/-- The test of a directory entry reads one block. -/
def Tests (t : ℕ → Code Bool) (q : Bytes → ℕ → Bool) : Prop :=
  ∀ d b, InUse d b → ∀ j < 16, safe (t (b * 4096 + 256 * j)) d = some (q d (b * 4096 + 256 * j), d)

theorem tests_strEq {name : List Byte} (hl : name.length < 128) : Tests (strEq name) (Fs.nameEq name) :=
  fun _ b hb j hj => safe_strEq (b := b) hb (Nat.le_add_right ..) (by omega)

theorem tests_nameFree : Tests nameFree Fs.nameFree := by
  intro d b hb j hj
  have hu : InUse d ((b * 4096 + 256 * j) / 4096) := by
    have hx : (b * 4096 + 256 * j) / 4096 = b := by omega
    rwa [hx]
  unfold nameFree Fs.nameFree
  rw [safe_bind, safe_loadByte hu]
  rfl

/-- A block that a file holds. -/
theorem inUse_fileBlock (hs : Sound sRoot dirs d) (hf : (tree sRoot dirs d).Linked (.file f))
    (h0 : fileBlock d f n ≠ 0) : InUse d (fileBlock d f n) ∧ ¬ Reserved d (fileBlock d f n) := by
  obtain ⟨h1, h2, -⟩ := hs.good (held_slotBlock hf h0)
  exact ⟨h1, h2⟩

theorem safe_dirScan {t : ℕ → Code Bool} {q : Bytes → ℕ → Bool} (ht : Tests t q) (is : List ℕ)
    (hv : Valid sRoot dirs d) (hc : Checked d) (hf : (tree sRoot dirs d).Linked (.file f)) :
    Safe (dirScan t f is) d := by
  induction is generalizing d with
  | nil => exact .pure _
  | cons i is ih =>
    unfold dirScan
    refine .bind (safe_fileGetBlock hv.sound hc hf i) fun x d₁ h1 => ?_
    have h2 := fileGetBlock_flat (flat_of_safe h1)
    obtain ⟨hA, -, hok⟩ := fileGetBlock_adds (P := fun _ _ _ _ => True) hv.sound hf trivial h2
    cases x with
    | error e => exact .pure _
    | ok blk =>
      obtain ⟨-, h3, rfl⟩ := hok blk rfl
      have hv₁ := hA.valid hv
      have hf₁ := hA.linked hv hf
      have hu := (inUse_fileBlock hv₁.sound hf₁ h3).1
      refine .of_eq (safe_findM fun j hj => ht d₁ _ hu j (List.mem_range.1 hj)) ?_
      cases (List.range 16).find? fun j => q d₁ (fileBlock d₁ f i * 4096 + 256 * j) with
      | some j => exact .pure _
      | none => exact ih hv₁ (checked_adds hc hv hA) hf₁

section Whole

variable (hw : Whole d) (hc : Checked d) (hf : (tree sRoot true d).Linked (.file f)) (ht : fType d f = ftypeDir)
include hw hc hf ht

theorem safe_dirLookup {name : List Byte} (hl : name.length < 128) : Safe (dirLookup f name) d := by
  have hsize := safe_fSize hw.valid.sound hc hf
  unfold dirLookup
  refine .of_eq hsize ?_
  rw [if_neg (not_not.2 (hw.assertion hf ht))]
  refine .of_eq hsize (.bind (safe_dirScan (tests_strEq hl) _ hw.valid hc hf) fun x d₁ _ => ?_)
  rcases x with e | _ | g
  · exact .pure _
  · exact .pure _
  · exact .pure _

theorem safe_dirAllocFile : Safe (dirAllocFile f) d := by
  have hsize := safe_fSize hw.valid.sound hc hf
  unfold dirAllocFile
  refine .of_eq hsize ?_
  rw [if_neg (not_not.2 (hw.assertion hf ht))]
  refine .of_eq hsize (.bind (safe_dirScan tests_nameFree _ hw.valid hc hf) fun x d₁ h1 => ?_)
  rcases x with e | _ | g
  · exact .pure _
  · have h2 := dirScan_flat (q := Fs.nameFree) (fun d j => flat_nameFree) (flat_of_safe h1)
    obtain ⟨hA, -⟩ := dirScan_adds (P := fun _ _ _ _ => True) hw.valid hf (fun _ _ => trivial) h2
    have hv₁ := hA.valid hw.valid
    have hf₁ := hA.linked hw.valid hf
    have hc₁ := checked_adds hc hw.valid hA
    obtain ⟨hset, hc₂⟩ := safe_setFSize hv₁.sound hc₁ hf₁ (Fs.fSize d₁ f + 4096)
    have hsame : Same sRoot true d₁ (Fs.setFSize d₁ f (Fs.fSize d₁ f + 4096)) := hv₁.sound.same_size hf₁
    exact .of_eq (safe_fSize hv₁.sound hc₁ hf₁)
      (.of_eq hset (safe_fileGetBlock (hsame.sound hv₁.sound) hc₂ (hsame.linked.2 hf₁) _))
  · exact .pure _

end Whole

/-- The walk looks up names in linked directories only. -/
theorem safe_walkElements {els : List (List Byte)} {dir : Option ℕ} (hw : Whole d) (hc : Checked d)
    (hf : (tree sRoot true d).Linked (.file f)) (hname : f = sRoot ∨ Fs.nameFree d f = false)
    (hg : ∀ name ∈ els, GoodName name) : Safe (walkElements els dir f) d := by
  induction els generalizing d f dir with
  | nil => exact .pure _
  | cons name rest ih =>
    unfold walkElements
    split
    · exact .pure _
    rename_i hl
    refine .of_eq (safe_fType hw.valid.sound hc hf) ?_
    split
    · exact .pure _
    rename_i ht
    have ht := not_not.1 ht
    refine .bind (safe_dirLookup hw hc hf ht (by omega)) fun x d₁ h1 => ?_
    cases x with
    | error e => exact .pure _
    | ok g =>
      have h2 := dirLookup_flat (flat_of_safe h1)
      obtain ⟨hA, -, hok⟩ := dirLookup_adds (P := fun _ _ _ _ => True) (fun _ _ _ _ => trivial)
        hw.valid hf hname ht h2
      obtain ⟨hlg, heq, -⟩ := hok g rfl
      exact ih (hw.adds hA) (checked_adds hc hw.valid hA) hlg
        (Or.inr (nameFree_of_nameEq (hg name List.mem_cons_self) heq)) fun k hk => hg k (List.mem_cons_of_mem _ hk)

theorem safe_walkPath (hw : Whole d) (hc : Checked d) (path : CString) : Safe (walkPath path) d :=
  safe_walkElements hw hc .refl (Or.inl rfl) (elements_good path)

/-! ## Flushing -/

/-- A block of the disk is below the end of the disk map. -/
theorem block_lt (hc : Checked d) (ha : a / 4096 < Fs.nblocks d) : a < diskSize := by
  have h := hc.size
  unfold diskSize at *
  omega

section Sound

variable (hs : Sound sRoot dirs d) (hc : Checked d) (hf : (tree sRoot dirs d).Linked (.file f))
include hs hc hf

theorem safe_flush_slot {s : Slot} (ha : slotAddr d f s = some p) (h0 : d.load32 p ≠ 0) :
    Safe (load32 p >>= fun w => diskaddr w.toNat >>= flushBlock) d := by
  have hlt := (lt_of_diskaddr (hs.diskaddr_slot hf ha h0)).2.1
  refine .of_eq (safe_load_slot hs hc hf ha) (.of_eq (safe_diskaddr_slot hs hc hf ha h0) ?_)
  exact ⟨(), d, safe_flushBlock (block_lt hc (by rwa [Nat.mul_div_cancel _ (by decide)]))⟩

theorem safe_flushAt (i : ℕ) : Safe (flushAt f i) d := by
  unfold flushAt
  refine .bind (safe_fileBlockWalk hs hc hf i false) fun x d₁ h1 => ?_
  obtain ⟨hs₁, hc₁, hf₁, hp⟩ := fileBlockWalk_ok hs hc hf h1
  cases x with
  | error e => exact .pure _
  | ok p =>
    refine .of_eq (safe_load_slot hs₁ hc₁ hf₁ (hp p rfl)) ?_
    split
    · rename_i h0
      exact safe_flush_slot hs₁ hc₁ hf₁ (hp p rfl) h0
    · exact .pure _

theorem safe_flushLoop (n i : ℕ) : Safe (flushLoop f n i) d := by
  induction n generalizing i with
  | zero => exact .pure _
  | succ n ih =>
    unfold flushLoop
    refine .of_eq (safe_fSize hs hc hf) ?_
    split
    · refine .bind (safe_flushAt hs hc hf i) fun _ d₁ h1 => ?_
      obtain ⟨-, rfl⟩ := Prod.mk.inj (flushAt_flat (flat_of_safe h1))
      exact ih (i + 1)
    · exact .pure _

theorem safe_fileFlush : Safe (fileFlush f) d := by
  have hblock := inUse_byte hs hc hf (x := f) (Nat.le_refl _) (by simp only [Rec.base, Rec.size]; omega)
  have ha : slotAddr d f .fIndirect = some (fIndirect f) := rfl
  unfold fileFlush
  refine .bind (safe_flushLoop hs hc hf (2 ^ 32) 0) fun _ d₁ h1 => ?_
  obtain ⟨-, rfl⟩ := Prod.mk.inj (flushLoop_flat (flat_of_safe h1))
  refine .of_eq (safe_flushBlock (block_lt hc hblock.1.1)) (.of_eq (safe_load_slot hs hc hf ha) ?_)
  split
  · rename_i h0
    exact safe_flush_slot hs hc hf ha h0
  · exact .pure _

end Sound

theorem safe_syncLoop (hc : Checked d) (hi : i ≠ 0) : Safe (syncLoop n i) d := by
  induction n generalizing i with
  | zero => exact .pure _
  | succ n ih =>
    unfold syncLoop
    refine .of_eq (safe_nblocks hc) ?_
    split
    · rename_i hlt
      refine .of_eq (safe_diskaddr hc hi hlt) (.of_eq (safe_flushBlock ?_) (ih (Nat.succ_ne_zero i)))
      exact block_lt hc (by rwa [Nat.mul_div_cancel _ (by decide)])
    · exact .pure _

/-! ## Making and finding files -/

theorem move_nblocks {P : ℕ → ℕ → Bool → ℤ → Prop} (h : Move P sRoot dirs d d') (hv : Valid sRoot dirs d) :
    Fs.nblocks d' = Fs.nblocks d := by
  cases h with
  | add h => exact h.nblocks_eq hv.sound
  | grow hf _ _ _ => exact (hv.sound.same_size hf).nblocks
  | name hf hl _ _ => exact (hv.sound.same_head hf le_rfl (by omega)).nblocks
  | data hf ho h0 h1 h2 => exact (hv.sound.same_block hf ho h0 h1 h2).nblocks

theorem checked_moves {P : ℕ → ℕ → Bool → ℤ → Prop} (hc : Checked d) (hv : Valid sRoot dirs d)
    (h : Moves P sRoot dirs d d') : Checked d' :=
  (h.rule hv (I := Checked) hc fun _ _ hv₁ hc₁ h1 =>
    checked_of_sound hc₁ (h1.valid hv₁).sound (move_nblocks h1 hv₁)).2

theorem safe_fileOpen (hw : Whole d) (hc : Checked d) (path : CString) : Safe (fileOpen path) d := by
  unfold fileOpen
  refine .bind (safe_walkPath hw hc path) fun x d₁ _ => ?_
  cases x <;> exact .pure _

theorem safe_fileCreate (hw : Whole d) (hc : Checked d) (path : CString) : Safe (fileCreate path) d := by
  unfold fileCreate
  refine .bind (safe_walkPath hw hc path) fun x d₁ h1 => ?_
  obtain ⟨hA, hok⟩ := walkPath_adds dirsIn_true hw.valid (walkPath_flat (flat_of_safe h1))
  have hw₁ := hw.adds hA
  have hc₁ := checked_adds hc hw.valid hA
  rcases x with ⟨dir, g⟩ | ⟨e, _ | ⟨dir, name⟩⟩
  · exact .pure _
  · exact .pure _
  · obtain ⟨hf, hname, ht, hgood, hl⟩ := hok.2 dir name rfl
    dsimp only
    split
    · exact .pure _
    refine .bind (safe_dirAllocFile hw₁ hc₁ hf ht) fun x d₂ h2 => ?_
    obtain ⟨hM, hg⟩ := dirAllocFile_moves dirsIn_true hw₁.valid hf hname ht (dirAllocFile_flat (flat_of_safe h2))
    have hv₂ := hM.valid hw₁.valid
    have hf₂ := hM.linked hw₁.valid hf
    cases x with
    | error e => exact .pure _
    | ok g =>
      have hg := hg g rfl
      have hlen : (name ++ [0]).length ≤ 128 := by
        rw [List.length_append]
        simpa using hl
      obtain ⟨hset, hc₃⟩ := safe_write_record (v := name ++ [0]) hv₂.sound (checked_moves hc₁ hw₁.valid hM) hg
        (a := g) (Nat.le_refl _) (by simp only [Rec.base, Rec.size]; omega)
      have hsame : Same sRoot true d₂ (d₂.write g (name ++ [0])) := hv₂.sound.same_head hg le_rfl (by omega)
      exact .of_eq hset (.bind (safe_fileFlush (hsame.sound hv₂.sound) hc₃ (hsame.linked.2 hf₂)) fun _ _ _ => .pure _)

/-! ## Reading and truncating -/

theorem safe_fileReadLoop {fin : ℕ} {pos : ℤ} (hv : Valid sRoot dirs d) (hc : Checked d)
    (hf : (tree sRoot dirs d).Linked (.file f)) (h0 : 0 ≤ pos) : Safe (fileReadLoop f fin n pos) d := by
  induction n generalizing d pos with
  | zero => exact .pure _
  | succ n ih =>
    unfold fileReadLoop
    split
    · refine .bind (safe_fileGetBlock hv.sound hc hf _) fun x d₁ h1 => ?_
      obtain ⟨hA, -, hok⟩ := fileGetBlock_adds (P := fun _ _ _ _ => True) hv.sound hf trivial
        (fileGetBlock_flat (flat_of_safe h1))
      cases x with
      | error e => exact .pure _
      | ok blk =>
        obtain ⟨-, h3, rfl⟩ := hok blk rfl
        have hv₁ := hA.valid hv
        have hf₁ := hA.linked hv hf
        have hu := (inUse_fileBlock hv₁.sound hf₁ h3).1
        have hchunk := chunk_le fin h0
        refine .of_eq (safe_read fun x h4 h5 => ?_)
          (.bind (ih hv₁ (checked_adds hc hv hA) hf₁ (by omega)) fun _ _ _ => .pure _)
        have hx : x / 4096 = fileBlock d₁ f (u32 (pos.tdiv 4096)) := by
          rw [Int.tmod_eq_emod_of_nonneg h0] at h4 h5
          omega
        rw [hx]
        exact hu
    · exact .pure _

theorem safe_fileRead {count : ℕ} {offset : ℤ} (hv : Valid sRoot dirs d) (hc : Checked d)
    (hf : (tree sRoot dirs d).Linked (.file f)) (h0 : 0 ≤ offset) : Safe (fileRead f count offset) d := by
  have hsize := safe_fSize hv.sound hc hf
  unfold fileRead
  refine .of_eq hsize ?_
  split
  · exact .pure _
  · exact .of_eq hsize (.bind (safe_fileReadLoop hv hc hf h0) fun _ _ _ => .pure _)

/-- A block that is held is not the block of the slot that holds it. -/
theorem slot_apart {s : Slot} (hs : Sound sRoot dirs d) (hr : (tree sRoot dirs d).Linked r) (hp : r.word s = some p)
    (hv : (tree sRoot dirs d).val r s = some b) : r.block ≠ b := by
  rintro rfl
  have hr' : (tree sRoot dirs (dropBlock d p)).Linked r :=
    Owners.unlink_above hs.alone hs.apart (hs.off_dropBlock hr hp hv) .refl hr .refl
  have h1 := ((hs.drop hr hp hv).block_used hr').1
  rw [hs.blockIsFree_dropBlock hr hp hv, if_pos rfl] at h1
  cases h1

/-- The lines of `free_block` that `file_free_block` and `file_truncate_blocks` share. -/
theorem safe_dropBlock {s : Slot} (hs : Sound sRoot dirs d) (hc : Checked d)
    (hf : (tree sRoot dirs d).Linked (.file f)) (ha : slotAddr d f s = some p) (h0 : d.load32 p ≠ 0) :
    safe (freeBlock (d.load32 p).toNat) d = some ((), markBlock d (d.load32 p).toNat true) ∧
      safe (store32 p 0) (markBlock d (d.load32 p).toNat true) = some ((), dropBlock d p) := by
  have hr := linked_slotRec hf ha
  have hp : (slotRec dirs d f s).word s = some p := word_of_slotAddr ha
  have hne : (d.load32 p).toNat ≠ 0 := fun h1 => h0 (BitVec.eq_of_toNat_eq h1)
  have hv : (tree sRoot dirs d).val (slotRec dirs d f s) s = some (d.load32 p).toNat := val_eq_some.2 ⟨p, hp, rfl, hne⟩
  obtain ⟨hu, hres, -⟩ := hs.good ⟨hr, hv⟩
  have hc₁ : Checked (markBlock d (d.load32 p).toNat true) := checked_markBlock hc fun _ => hres
  have h1 := word_fits hp
  have h2 := (hs.word_block hr hp)
  have hstore := safe_write_off (v := Bytes.word32 0) hc₁ (a := p) (fun x h3 h4 => by
      rw [Bytes.word32_length] at h4
      have hx : x / 4096 = (slotRec dirs d f s).block := by omega
      have hin := inUse_record hs hc hr
      rw [hx]
      refine ⟨by rw [nblocks_markBlock]; exact hin.1, ?_⟩
      rw [blockIsFree_markBlock, if_neg (slot_apart hs hr hp hv)]
      exact hin.2)
    ((hs.block_used hr).2.2.trans h1.1) fun x h3 h4 c hlt => by
      rw [nblocks_markBlock] at hlt
      exact (inUse_byte hs hc hr (by omega) (by rw [Bytes.word32_length] at h4; omega)).2 c hlt
  exact ⟨safe_freeBlock hc hne hu.1 hres, hstore.1⟩

theorem checked_drops {m : ℕ} (hc : Checked d) (hv : Valid sRoot dirs d) (hf : (tree sRoot dirs d).Linked (.file f))
    (h : Drops f m d d') : Checked d' := by
  refine (h.rule hv hf (I := Checked) hc fun d₁ d₂ hv₁ hf₁ hc₁ h1 => ?_).2.2
  refine checked_of_sound hc₁ (h1.sound hv₁.sound hf₁) ?_
  obtain ⟨r, s, p, b, -, hr, hp, -, rfl⟩ := h1.slot hf₁
  exact hv₁.sound.nblocks_dropBlock hr hp

section Valid

variable (hv : Valid sRoot dirs d) (hc : Checked d) (hf : (tree sRoot dirs d).Linked (.file f))
include hv hc hf

theorem safe_fileFreeBlock (n : ℕ) : Safe (fileFreeBlock f n) d := by
  unfold fileFreeBlock
  refine .bind (safe_fileBlockWalk hv.sound hc hf n false) fun x d₁ h1 => ?_
  obtain ⟨hs₁, hc₁, hf₁, hp⟩ := fileBlockWalk_ok hv.sound hc hf h1
  cases x with
  | error e => exact .pure _
  | ok p =>
    have hload := safe_load_slot hs₁ hc₁ hf₁ (hp p rfl)
    refine .of_eq hload ?_
    split
    · rename_i h0
      obtain ⟨hfree, hset⟩ := safe_dropBlock hs₁ hc₁ hf₁ (hp p rfl) h0
      exact .of_eq hload (.of_eq hfree (.of_eq hset (.pure _)))
    · exact .pure _

theorem safe_truncateLoop (is : List ℕ) : Safe (truncateLoop f is) d := by
  induction is generalizing d with
  | nil => exact .pure _
  | cons i is ih =>
    unfold truncateLoop
    refine .bind (safe_fileFreeBlock hv hc hf i) fun x d₁ h1 => ?_
    have h2 : [i].foldlM (fun d bno => (Fs.fileFreeBlock d f bno).map (·.2)) d = some d₁ := by
      rw [List.foldlM_cons, fileFreeBlock_flat (flat_of_safe h1)]
      rfl
    obtain ⟨hD, -⟩ := freeLoop_drops (m := 0) hv hf (fun _ _ => Nat.zero_le _) h2
    obtain ⟨hv₁, hf₁⟩ := hD.valid hv hf
    exact ih hv₁ (checked_drops hc hv hf hD) hf₁

theorem safe_fileTruncateBlocks (z : ℤ) : Safe (fileTruncateBlocks f z) d := by
  unfold fileTruncateBlocks
  refine .of_eq (safe_fSize hv.sound hc hf) (.bind (safe_truncateLoop hv hc hf _) fun _ d₁ h1 => ?_)
  obtain ⟨hD, -⟩ := freeLoop_drops (m := 0) hv hf (fun _ _ => Nat.zero_le _) (truncateLoop_flat (flat_of_safe h1))
  obtain ⟨hv₁, hf₁⟩ := hD.valid hv hf
  have hc₁ := checked_drops hc hv hf hD
  have ha : slotAddr d₁ f .fIndirect = some (fIndirect f) := rfl
  have hload := safe_load_slot hv₁.sound hc₁ hf₁ ha
  split
  · refine .of_eq hload ?_
    split
    · rename_i h0
      obtain ⟨hfree, hset⟩ := safe_dropBlock hv₁.sound hc₁ hf₁ ha h0
      refine .of_eq hload (.of_eq hfree ?_)
      exact ⟨(), _, hset⟩
    · exact .pure _
  · exact .pure _

theorem checked_setFSize (z : ℤ) : Checked (Fs.setFSize d f z) := (safe_setFSize hv.sound hc hf z).2

theorem checked_fileSetSize {z : ℤ} (h : Fs.fileSetSize d f z = some d') : Checked d' := by
  unfold Fs.fileSetSize at h
  split at h
  · obtain ⟨d₁, h1, rfl⟩ := Option.map_eq_some_iff.1 h
    obtain ⟨hD, -, -⟩ := fileTruncateBlocks_drops hv hf h1
    obtain ⟨hv₁, hf₁⟩ := hD.valid hv hf
    exact checked_setFSize hv₁ (checked_drops hc hv hf hD) hf₁ z
  · obtain rfl := Option.some.inj h
    exact checked_setFSize hv hc hf z

theorem safe_fileSetSize (z : ℤ) : Safe (fileSetSize f z) d := by
  have hrest : ∀ {d₁}, Valid sRoot dirs d₁ → Checked d₁ → (tree sRoot dirs d₁).Linked (.file f) →
      Safe (setFSize f z >>= fun _ => flushBlock f) d₁ := by
    intro d₁ hv₁ hc₁ hf₁
    obtain ⟨hset, hc₂⟩ := safe_setFSize hv₁.sound hc₁ hf₁ z
    have hsame : Same sRoot dirs d₁ (Fs.setFSize d₁ f z) := hv₁.sound.same_size hf₁
    have hin := inUse_byte (hsame.sound hv₁.sound) hc₂ (hsame.linked.2 hf₁) (x := f) (Nat.le_refl _)
      (by simp only [Rec.base, Rec.size]; omega)
    exact .of_eq hset ⟨(), _, safe_flushBlock (block_lt hc₂ hin.1.1)⟩
  unfold fileSetSize
  refine .of_eq (safe_fSize hv.sound hc hf) ?_
  split
  · refine .bind (safe_fileTruncateBlocks hv hc hf z) fun _ d₁ h1 => ?_
    obtain ⟨hD, -, -⟩ := fileTruncateBlocks_drops hv hf (fileTruncateBlocks_flat (flat_of_safe h1))
    obtain ⟨hv₁, hf₁⟩ := hD.valid hv hf
    exact hrest hv₁ (checked_drops hc hv hf hD) hf₁
  · exact hrest hv hc hf

end Valid

theorem safe_fileRemove (hw : Whole d) (hc : Checked d) (path : CString) : Safe (fileRemove path) d := by
  unfold fileRemove
  refine .bind (safe_walkPath hw hc path) fun x d₁ h1 => ?_
  obtain ⟨hA, hok⟩ := walkPath_adds dirsIn_true hw.valid (walkPath_flat (flat_of_safe h1))
  have hw₁ := hw.adds hA
  have hc₁ := checked_adds hc hw.valid hA
  rcases x with ⟨dir, g⟩ | ⟨e, last⟩
  · have hf := hok.1
    refine .bind (safe_fileTruncateBlocks hw₁.valid hc₁ hf 0) fun _ d₂ h2 => ?_
    obtain ⟨hD, -, -⟩ := fileTruncateBlocks_drops hw₁.valid hf (fileTruncateBlocks_flat (flat_of_safe h2))
    obtain ⟨hv₂, hf₂⟩ := hD.valid hw₁.valid hf
    obtain ⟨hset, hc₃⟩ := safe_write_record (v := [0]) hv₂.sound (checked_drops hc₁ hw₁.valid hf hD) hf₂ (a := g)
      (Nat.le_refl _) (by simp [Rec.base, Rec.size])
    have hsame : Same sRoot true d₂ (d₂.write g [0]) := hv₂.sound.same_head hf₂ le_rfl (by simp)
    have hs₃ := hsame.sound hv₂.sound
    have hf₃ := hsame.linked.2 hf₂
    obtain ⟨hsize, hc₄⟩ := safe_setFSize hs₃ hc₃ hf₃ 0
    have hsame' : Same sRoot true (d₂.write g [0]) (Fs.setFSize (d₂.write g [0]) g 0) := hs₃.same_size hf₃
    have hin := inUse_byte (hsame'.sound hs₃) hc₄ (hsame'.linked.2 hf₃) (x := g) (Nat.le_refl _)
      (by simp only [Rec.base, Rec.size]; omega)
    exact .of_eq hset (.of_eq hsize (.of_eq (safe_flushBlock (block_lt hc₄ hin.1.1)) (.pure _)))
  · exact .pure _

/-! ## Writing -/

theorem safe_fileWriteLoop {fin : ℕ} {pos : ℤ} (hv : Valid sRoot dirs d) (hc : Checked d)
    (hf : (tree sRoot dirs d).Linked (.file f)) (ho : opens dirs d f = false) (h0 : 0 ≤ pos) :
    Safe (fileWriteLoop f fin n pos bs) d := by
  induction n generalizing d pos bs with
  | zero => exact .pure _
  | succ n ih =>
    unfold fileWriteLoop
    split
    · refine .bind (safe_fileGetBlock hv.sound hc hf _) fun x d₁ h1 => ?_
      cases x with
      | error e => exact .pure _
      | ok blk =>
        obtain ⟨hA, hb, ha, hM, hhd⟩ := write_turn (P := fun _ _ _ _ => True) bs fin hv hf ho h0 trivial
          (fileGetBlock_flat (flat_of_safe h1))
        have hv₁ := hA.valid hv
        have hf₁ := hA.linked hv hf
        obtain ⟨hu, hres⟩ := inUse_fileBlock hv₁.sound hf₁ hb
        have hchunk := chunk_le fin h0
        have hlen := List.length_take_le (chunk fin pos) bs
        obtain ⟨hset, hc₂⟩ := safe_write_block (v := bs.take (chunk fin pos)) (checked_adds hc hv hA) hu hres
          (a := (blk + pos.tmod 4096).toNat) (by omega) (by omega)
        exact .of_eq hset (ih (hM.valid hv₁) hc₂ (hM.linked hv₁.sound hf₁) (by rw [hhd.opens_eq]; exact ho) (by omega))
    · exact .pure _

theorem safe_fileWrite {offset : ℤ} (hv : Valid sRoot dirs d) (hc : Checked d)
    (hf : (tree sRoot dirs d).Linked (.file f)) (ho : opens dirs d f = false) (h0 : 0 ≤ offset) :
    Safe (fileWrite f bs offset) d := by
  unfold fileWrite
  refine .of_eq (safe_fSize hv.sound hc hf) ?_
  dsimp only
  split
  · refine .bind (safe_fileSetSize hv hc hf _) fun _ d₁ h1 => ?_
    obtain ⟨hv₁, hf₁, ho₁⟩ := fileSetSize_valid hv hf (by rw [ho]; exact nofun) (fileSetSize_flat (flat_of_safe h1))
    have hc₁ := checked_fileSetSize hv hc hf (fileSetSize_flat (flat_of_safe h1))
    exact .bind (safe_fileWriteLoop hv₁ hc₁ hf₁ (ho₁.trans ho) h0) fun _ _ _ => .pure _
  · exact .bind (safe_fileWriteLoop hv hc hf ho h0) fun _ _ _ => .pure _

/-! ## Runs of the server -/

/-- The server may make the call: its file exists, offsets and sizes are in range, no directory is
written to as a file, and the size of a directory stays a multiple of the block size. -/
def Op.Fits (d : Bytes) : Op → Prop
  | .call (.write f buf offset) => Reachable d f ∧ InRange buf.length ∧ InRange offset ∧ fType d f ≠ ftypeDir
  | .call (.setSize f size) => Reachable d f ∧ InRange size ∧ (fType d f = ftypeDir → size % 4096 = 0)
  | .call c => Allowed d c
  | .flush f => Reachable d f
  | .sync => True

/-- Every call of a list fits where it is made. -/
def Fit : List Op → Bytes → Prop
  | [], _ => True
  | o :: os, d => o.Fits d ∧ ∀ r d', o.plain d = some (r, d') → Fit os d'

theorem safe_code {o : Op} (hw : Whole d) (hc : Checked d) (ho : o.Fits d) : Safe o.code d := by
  have hv := hw.valid
  cases o with
  | call c =>
    cases c with
    | create path => exact .bind (safe_fileCreate hw hc path) fun _ _ _ => .pure _
    | «open» path => exact .bind (safe_fileOpen hw hc path) fun _ _ _ => .pure _
    | read f count offset =>
      exact .bind (safe_fileRead hv hc (reachable_linked ho.1) ho.2.2.1) fun _ _ _ => .pure _
    | write f buf offset =>
      have hreg : opens true d f = false := opens_regular ho.2.2.2
      exact .bind (safe_fileWrite hv hc (reachable_linked ho.1) hreg ho.2.2.1.1) fun _ _ _ => .pure _
    | setSize f size => exact .bind (safe_fileSetSize hv hc (reachable_linked ho.1) size) fun _ _ _ => .pure _
    | remove path => exact .bind (safe_fileRemove hw hc path) fun _ _ _ => .pure _
  | flush f => exact .bind (safe_fileFlush hv.sound hc (reachable_linked ho)) fun _ _ _ => .pure _
  | sync => exact .bind (safe_syncLoop hc Nat.one_ne_zero) fun _ _ _ => .pure _

theorem checked_fileWrite {offset res : ℤ} (hv : Valid sRoot dirs d) (hc : Checked d)
    (hf : (tree sRoot dirs d).Linked (.file f)) (ho : opens dirs d f = false) (h0 : 0 ≤ offset)
    (h : Fs.fileWrite d f bs offset = some (res, d')) : Checked d' := by
  obtain ⟨d₁, h2, h3⟩ := Option.bind_eq_some_iff.1 h
  obtain ⟨⟨r₁, d₂⟩, h4, h5⟩ := Option.bind_eq_some_iff.1 h3
  obtain ⟨-, rfl⟩ := Prod.mk.inj (Option.some.inj h5)
  obtain ⟨hv₁, hf₁, ho₁⟩ := extendTo_valid hv hf ho h2
  have hc₁ : Checked d₁ := by
    unfold extendTo at h2
    split at h2
    · exact checked_fileSetSize hv hc hf h2
    · obtain rfl := Option.some.inj h2
      exact hc
  exact checked_moves hc₁ hv₁ (fileWriteLoop_moves (P := fun _ _ _ _ => True) hv₁ hf₁ ho₁ h0 (fun _ _ => trivial) h4)

theorem checked_fileRemove {path : CString} {res : ℤ} (hw : Whole d) (hc : Checked d)
    (h : Fs.fileRemove d path = some (res, d')) : Checked d' := by
  obtain ⟨⟨w, d₁⟩, h1, h2⟩ := Option.bind_eq_some_iff.1 h
  obtain ⟨hA, hok⟩ := walkPath_adds dirsIn_true hw.valid h1
  have hv₁ := hA.valid hw.valid
  have hc₁ := checked_adds hc hw.valid hA
  rcases w with ⟨dir, f⟩ | ⟨r, last⟩
  · obtain ⟨d₂, h3, h4⟩ := Option.bind_eq_some_iff.1 h2
    obtain ⟨-, rfl⟩ := Prod.mk.inj (Option.some.inj h4)
    obtain ⟨hD, -, -⟩ := fileTruncateBlocks_drops hv₁ hok.1 h3
    obtain ⟨hv₂, hf₂⟩ := hD.valid hv₁ hok.1
    have hsame : Same sRoot true d₂ (d₂.write f [0]) := hv₂.sound.same_head hf₂ le_rfl (by simp)
    have hs₃ := hsame.sound hv₂.sound
    have hc₃ := checked_of_sound (checked_drops hc₁ hv₁ hok.1 hD) hs₃ hsame.nblocks
    exact (safe_setFSize hs₃ hc₃ (hsame.linked.2 hf₂) 0).2
  · obtain ⟨-, rfl⟩ := Prod.mk.inj (Option.some.inj h2)
    exact hc₁

/-- **Every call that fits** keeps the disk whole, and the super block and the bitmap sound. -/
theorem plain_keeps {o : Op} {x : Reply} (hw : Whole d) (hc : Checked d) (ho : o.Fits d)
    (h : o.plain d = some (x, d')) : Whole d' ∧ Checked d' := by
  have hv := hw.valid
  cases o with
  | call c =>
    cases c with
    | create path =>
      obtain ⟨⟨res, d₁⟩, h1, h2⟩ := Option.map_eq_some_iff.1 h
      obtain ⟨-, rfl⟩ := Prod.mk.inj h2
      obtain ⟨hM, -⟩ := fileCreate_moves dirsIn_true hv h1
      exact ⟨hw.moves hM, checked_moves hc hv hM⟩
    | «open» path =>
      obtain ⟨⟨res, d₁⟩, h1, h2⟩ := Option.map_eq_some_iff.1 h
      obtain ⟨-, rfl⟩ := Prod.mk.inj h2
      obtain ⟨hA, -⟩ := fileOpen_adds dirsIn_true hv h1
      exact ⟨hw.adds hA, checked_adds hc hv hA⟩
    | read f count offset =>
      obtain ⟨⟨res, d₁⟩, h1, h2⟩ := Option.map_eq_some_iff.1 h
      obtain ⟨-, rfl⟩ := Prod.mk.inj h2
      have hA := fileRead_adds (P := fun _ _ _ _ => True) hv (reachable_linked ho.1) (fun _ _ => trivial) h1
      exact ⟨hw.adds hA, checked_adds hc hv hA⟩
    | write f buf offset =>
      obtain ⟨⟨res, d₁⟩, h1, h2⟩ := Option.map_eq_some_iff.1 h
      obtain ⟨-, rfl⟩ := Prod.mk.inj h2
      obtain ⟨hf, hlen, h0, ht⟩ := ho
      have hl := reachable_linked hf
      have hmax := hlen.2
      unfold maxFileSize at hmax
      have h3 := h0.1
      exact ⟨hw.fileWrite hl ht (by omega) (by omega) (Or.inl h3) h1,
        checked_fileWrite hv hc hl (opens_regular ht) h3 h1⟩
    | setSize f size =>
      obtain ⟨d₁, h1, h2⟩ := Option.map_eq_some_iff.1 h
      obtain ⟨-, rfl⟩ := Prod.mk.inj h2
      obtain ⟨hf, ⟨h0, hmax⟩, hdir⟩ := ho
      unfold maxFileSize at hmax
      have hl := reachable_linked hf
      exact ⟨(hw.fileSetSize hl (fun ht => ⟨h0, by omega, hdir ht⟩) h1).1, checked_fileSetSize hv hc hl h1⟩
    | remove path =>
      obtain ⟨⟨res, d₁⟩, h1, h2⟩ := Option.map_eq_some_iff.1 h
      obtain ⟨-, rfl⟩ := Prod.mk.inj h2
      exact ⟨hw.fileRemove h1, checked_fileRemove hw hc h1⟩
  | flush f =>
    obtain ⟨-, rfl⟩ := Prod.mk.inj (Option.some.inj h)
    exact ⟨hw, hc⟩
  | sync =>
    obtain ⟨-, rfl⟩ := Prod.mk.inj (Option.some.inj h)
    exact ⟨hw, hc⟩

theorem safe_codes {os : List Op} (hw : Whole d) (hc : Checked d) (ho : Fit os d) : Safe (codes os) d := by
  induction os generalizing d with
  | nil => exact .pure _
  | cons o os ih =>
    unfold codes
    refine .bind (safe_code hw hc ho.1) fun r d₁ h1 => ?_
    have h2 := code_flat (flat_of_safe h1)
    obtain ⟨hw₁, hc₁⟩ := plain_keeps hw hc ho.1 h2
    exact .bind (ih hw₁ hc₁ (ho.2 r d₁ h2)) fun _ _ _ => .pure _

theorem plains_keeps {os : List Op} {rs : List Reply} (hw : Whole d) (hc : Checked d) (ho : Fit os d)
    (h : plains os d = some (rs, d')) : Whole d' ∧ Checked d' := by
  induction os generalizing d rs with
  | nil =>
    obtain ⟨-, rfl⟩ := Prod.mk.inj (Option.some.inj h)
    exact ⟨hw, hc⟩
  | cons o os ih =>
    obtain ⟨⟨r, d₁⟩, h1, h2⟩ := Option.bind_eq_some_iff.1 h
    obtain ⟨⟨rs₁, d₂⟩, h3, h4⟩ := Option.bind_eq_some_iff.1 h2
    obtain ⟨-, rfl⟩ := Prod.mk.inj (Option.some.inj h4)
    obtain ⟨hw₁, hc₁⟩ := plain_keeps hw hc ho.1 h1
    exact ih hw₁ hc₁ (ho.2 r d₁ h1) h3

theorem fit_append {os os' : List Op} (ho : Fit (os ++ os') d) :
    Fit os d ∧ ∀ rs d₁, plains os d = some (rs, d₁) → Fit os' d₁ := by
  induction os generalizing d with
  | nil =>
    refine ⟨trivial, fun rs d₁ h => ?_⟩
    obtain ⟨-, rfl⟩ := Prod.mk.inj (Option.some.inj h)
    exact ho
  | cons o os ih =>
    refine ⟨⟨ho.1, fun r d₁ h => (ih (ho.2 r d₁ h)).1⟩, fun rs d₂ h => ?_⟩
    obtain ⟨⟨r, d₁⟩, h1, h2⟩ := Option.bind_eq_some_iff.1 h
    obtain ⟨⟨rs₁, d₃⟩, h3, h4⟩ := Option.bind_eq_some_iff.1 h2
    obtain ⟨-, rfl⟩ := Prod.mk.inj (Option.some.inj h4)
    exact (ih (ho.2 r d₁ h1)).2 rs₁ d₃ h3

theorem plains_append {os os' : List Op} {rs rs' : List Reply} (h : plains os d = some (rs, d₁))
    (h' : plains os' d₁ = some (rs', d')) : plains (os ++ os') d = some (rs ++ rs', d') := by
  induction os generalizing d rs with
  | nil =>
    obtain ⟨rfl, rfl⟩ := Prod.mk.inj (Option.some.inj h)
    exact h'
  | cons o os ih =>
    obtain ⟨⟨r, d₂⟩, h1, h2⟩ := Option.bind_eq_some_iff.1 h
    obtain ⟨⟨rs₁, d₃⟩, h3, h4⟩ := Option.bind_eq_some_iff.1 h2
    obtain ⟨rfl, rfl⟩ := Prod.mk.inj (Option.some.inj h4)
    rw [List.cons_append, plains, h1]
    dsimp only [Option.bind_eq_bind, Option.bind_some]
    rw [ih h3]
    rfl

/-- **A run of the server** over a cache that is ready, on a disk that is whole. -/
theorem server_run {σ : Bc} {os : List Op} (hco : σ.Coherent (· / 4096)) (hr : σ.Ready) (hw : Whole σ.view)
    (ho : Fit os σ.view) : ∃ rs σ', (codes os).interp Bc.exec σ = some (rs, σ') ∧
      plains os σ.view = some (rs, σ'.view) ∧ σ'.Coherent (· / 4096) ∧ σ'.Ready ∧ σ.Quiet σ' := by
  obtain ⟨rs, d', h⟩ := safe_codes hw hr.checked ho
  obtain ⟨σ', h1, rfl, hco', hr', hq⟩ := Bc.guarded_total hco hr h
  exact ⟨rs, σ', h1, codes_flat (flat_of_safe h), hco', hr', hq⟩

end Jos.Fs.Io
