import Jos.Proof.Stack

/-!
# Loading a segment

`readn_fits` says what the reads of a page get, however many there are, and `readPage_cases` what the page at
`UTEMP` is then. One turn of the loop of `map_segment` gives the child one page, and leaves the others
(`Turn`); `mapSegmentLoop_done` puts the turns together. They end where the `int` `i` would be 2^31: what is
behind that is not loaded, and `map_segment` returns 0 (`map_segment_loads`).
-/

namespace Jos.Spawn

open Lib

open Fd (Pte)

variable {w w' w₁ : World} {fd : Fin 32} {f : File} {replies : ℕ → Reply} {n k turns : ℕ} {r : ℤ} {bs : List Byte}
  {o : PageCalls} {off perm : BitVec 32} {stop : Stop} {va a : VA}

/-! ## Reading -/

/-- Nothing but the position of `fd` changes. -/
def Moved (fd : Fin 32) (w w' : World) : Prop :=
  ∃ g, w' = w.setFds g ∧ (∀ j ≠ fd, g j = w.fds j) ∧ (g fd).map (·.file) = (w.fds fd).map (·.file)

theorem Moved.refl (fd : Fin 32) (w : World) : Moved fd w w := ⟨w.fds, rfl, fun _ _ => rfl, rfl⟩

theorem Moved.trans (h : Moved fd w w₁) (h' : Moved fd w₁ w') : Moved fd w w' := by
  obtain ⟨g, rfl, h1, h2⟩ := h
  obtain ⟨g', rfl, h3, h4⟩ := h'
  exact ⟨g', rfl, fun j hj => (h3 j hj).trans (h1 j hj), h4.trans h2⟩

/-- A new position. -/
theorem moved_offset {of : OpenFile} (h : w.fds fd = some of) (off : BitVec 32) :
    Moved fd w (w.setFds (Function.update w.fds fd (some { of with offset := off }))) := by
  refine ⟨_, rfl, fun j hj => Function.update_of_ne hj .., ?_⟩
  rw [Function.update_self, h]
  rfl

theorem read_moved (h : read w fd n reply = (r, bs, w')) : Moved fd w w' := by
  unfold read at h
  split at h
  · obtain ⟨-, -, rfl⟩ := h
    exact .refl ..
  · rename_i hf
    split at h
    · obtain ⟨-, -, rfl⟩ := h
      exact .refl ..
    · split at h
      · obtain ⟨-, -, rfl⟩ := h
        exact .refl ..
      · obtain ⟨-, -, rfl⟩ := h
        exact moved_offset hf _

theorem readnLoop_moved (h : readnLoop fd replies turns k n w = (r, bs, w')) : Moved fd w w' := by
  induction turns generalizing k n w r bs with
  | zero =>
    obtain ⟨-, -, rfl⟩ := h
    exact .refl ..
  | succ turns ih =>
    unfold readnLoop at h
    split at h
    · obtain ⟨-, -, rfl⟩ := h
      exact .refl ..
    · rcases hr : read w fd n (replies k) with ⟨m, bs₁, w₁⟩
      have h1 := read_moved hr
      rw [hr] at h
      dsimp only at h
      split at h
      · obtain ⟨-, -, rfl⟩ := h
        exact h1
      · split at h
        · obtain ⟨-, -, rfl⟩ := h
          exact h1
        · rcases hl : readnLoop fd replies turns (k + 1) (n - m.toNat) w₁ with ⟨r₂, cs, w₂⟩
          rw [hl] at h
          obtain ⟨-, -, rfl⟩ := h
          exact h1.trans (ih hl)

/-- Bytes of a file that are all there. -/
theorem File.bytes_eq {pos : ℤ} (h : pos + n ≤ f.size) : f.bytes pos n = (List.range n).map fun (k : ℕ) => f.byte (pos + k) := by
  unfold File.bytes
  rw [min_eq_left (by omega)]

theorem File.bytes_add {pos : ℤ} {m : ℕ} (h : pos + (m + n : ℕ) ≤ f.size) :
    f.bytes pos m ++ f.bytes (pos + m) n = f.bytes pos (m + n) := by
  rw [File.bytes_eq (by omega), File.bytes_eq (by omega), File.bytes_eq h, List.range_add, List.map_append,
    List.map_map]
  congr 1
  apply List.map_congr_left
  intro j _
  rw [Function.comp, Nat.cast_add, add_assoc]

theorem File.bytes_length {pos : ℤ} (h : pos + n ≤ f.size) : (f.bytes pos n).length = n := by
  rw [File.bytes_eq h, List.length_map, List.length_range]

theorem toInt_ofNat (h : n < 2 ^ 31) : (BitVec.ofNat 32 n).toInt = n := by
  have h1 : (BitVec.ofNat 32 n).toNat = n := by
    rw [BitVec.toNat_ofNat]
    omega
  rw [BitVec.toInt_eq_toNat_of_lt (by omega), h1]

/-- **What `readn` gets** of bytes that are there, unless a read fails. -/
theorem readnLoop_fits (of : OpenFile) (hf : w.fds fd = some of) (h0 : 0 ≤ of.offset.toInt)
    (hle : of.offset.toInt + n ≤ of.file.size) (hsz : of.file.size < 2 ^ 31) (hn : n ≤ 4096) (ht : n ≤ turns)
    (h : readnLoop fd replies turns k n w = (r, bs, w')) (hr : ¬ r < 0) :
    r = n ∧ bs = of.file.bytes of.offset.toInt n := by
  induction turns generalizing k n w r bs of with
  | zero =>
    obtain ⟨rfl, rfl, -⟩ := h
    obtain rfl : n = 0 := by omega
    exact ⟨rfl, rfl⟩
  | succ turns ih =>
    unfold readnLoop at h
    split at h
    · rename_i hzero
      obtain ⟨rfl, rfl, -⟩ := h
      rw [hzero]
      exact ⟨rfl, rfl⟩
    · rename_i hne
      rcases hread : read w fd n (replies k) with ⟨m, bs₁, w₁⟩
      rw [hread] at h
      dsimp only at h
      split at h
      · rename_i hneg
        obtain ⟨rfl, -⟩ := h
        exact absurd hneg hr
      · rename_i hneg
        -- a read that does not fail gets at least one byte
        unfold read at hread
        rw [hf] at hread
        dsimp only at hread
        split at hread
        · rename_i c _
          obtain ⟨rfl, -⟩ := hread
          exact absurd c.2 hneg
        · rename_i most _
          rw [if_neg (by omega)] at hread
          obtain ⟨j, hj, hj1, hjn⟩ : ∃ j, min n (min 4096 (most + 1)) = j ∧ 1 ≤ j ∧ j ≤ n := ⟨_, rfl, by omega, by omega⟩
          rw [hj, File.bytes_length (by omega)] at hread
          obtain ⟨rfl, rfl, rfl⟩ := hread
          rw [if_neg (by omega), Int.toNat_natCast] at h
          rcases hl : readnLoop fd replies turns (k + 1) (n - j) _ with ⟨r₂, cs, w₂⟩
          rw [hl] at h
          obtain ⟨rfl, rfl, -⟩ := h
          have hoff : (of.offset + BitVec.ofNat 32 j).toInt = of.offset.toInt + j := by
            rw [BitVec.toInt_add, toInt_ofNat (by omega), Int.bmod_eq_of_le (by omega) (by omega)]
          have hr₂ : ¬ r₂ < 0 := by
            intro hlt
            rw [if_pos hlt] at hr
            exact hr hlt
          obtain ⟨h1, h2⟩ := ih ⟨of.file, of.offset + BitVec.ofNat 32 j⟩ (Function.update_self ..)
            (by dsimp only; omega) (by dsimp only; omega) hsz (by omega) (by omega) hl hr₂
          dsimp only at h2
          rw [hoff] at h2
          rw [if_neg hr₂, h1, h2, File.bytes_add (by omega), Nat.add_sub_cancel' hjn]
          exact ⟨by omega, rfl⟩

/-! ## A page from the file -/

/-- There is a new page at `UTEMP`, and `fd` may have moved. -/
structure Temped (fd : Fin 32) (w w' : World) : Prop where
  utemp : w'.utemp = some ⟨w.fresh, rwPerm⟩
  child : w'.child = w.child
  fresh : w'.fresh = w.fresh + 1
  mem : ∀ p < w.fresh, w'.mem p = w.mem p
  fds : (∀ j ≠ fd, w'.fds j = w.fds j) ∧ (w'.fds fd).map (·.file) = (w.fds fd).map (·.file)

theorem fillTemp_eq {pte : Pte} (h : w.utemp = some pte) (bs : List Byte) :
    fillTemp w bs = w.setPage pte.page ((w.mem pte.page).write 0 bs) := by
  unfold fillTemp
  rw [h]

/-- The world behind `sys_page_alloc` at `UTEMP`. -/
def allocTemp (w : World) : World :=
  w.pageAlloc.setUtemp (some ⟨w.fresh, rwPerm⟩) (fresh_lt w)

theorem sysPageAllocTemp_true (w : World) : sysPageAllocTemp w true = (0, allocTemp w) := rfl

theorem sysPageAllocTemp_false (w : World) : sysPageAllocTemp w false = (-eNoMem, w) := rfl

theorem temped_fill (h : Moved fd (allocTemp w) w₁) (bs : List Byte) : Temped fd w (fillTemp w₁ bs) ∧
    (fillTemp w₁ bs).mem w.fresh = (⟨fun _ => 0⟩ : Bytes).write 0 bs := by
  obtain ⟨g, rfl, h1, h2⟩ := h
  have hu : ((allocTemp w).setFds g).utemp = some ⟨w.fresh, rwPerm⟩ := rfl
  have hm : ((allocTemp w).setFds g).mem = Function.update w.mem w.fresh ⟨fun _ => 0⟩ := rfl
  rw [fillTemp_eq hu]
  refine ⟨⟨rfl, rfl, rfl, fun p hp => ?_, h1, h2⟩, ?_⟩
  · show Function.update _ w.fresh _ p = _
    rw [Function.update_of_ne hp.ne, hm, Function.update_of_ne hp.ne]
  · rw [setPage_mem, hm, Function.update_self]

/-- **How the reading of a page ends.** -/
theorem readPage_cases (h : readPage fd off n o w = stop) : (∃ r < 0, stop = .alloc r w) ∨
    (∃ r < 0, ∃ w₁, stop = .read r w₁ ∧ w₁.utemp = some ⟨w.fresh, rwPerm⟩ ∧ w₁.child = w.child ∧
      ∀ j ≠ fd, w₁.fds j = w.fds j) ∨ ∃ w₁, stop = .done w₁ ∧ Temped fd w w₁ := by
  unfold readPage at h
  cases ha : o.alloc with
  | false =>
    rw [ha, sysPageAllocTemp_false] at h
    exact Or.inl ⟨-eNoMem, by decide, h.symm⟩
  | true =>
    rw [ha, sysPageAllocTemp_true] at h
    dsimp only at h
    rw [if_neg (lt_irrefl _)] at h
    rcases hs : seek (allocTemp w) fd off with ⟨r, w₁⟩
    rw [hs] at h
    dsimp only at h
    have hseek : Moved fd (allocTemp w) w₁ := by
      unfold seek at hs
      split at hs
      · obtain ⟨-, rfl⟩ := hs
        exact .refl ..
      · rename_i hf
        obtain ⟨-, rfl⟩ := hs
        exact moved_offset hf _
    split at h
    · rename_i hneg
      obtain ⟨g, rfl, h1, -⟩ := hseek
      exact Or.inr (Or.inl ⟨r, hneg, _, h.symm, rfl, rfl, h1⟩)
    · rcases hr : readn w₁ fd o.replies n with ⟨r₂, bs, w₂⟩
      rw [hr] at h
      dsimp only at h
      obtain ⟨ht, -⟩ := temped_fill (hseek.trans (readnLoop_moved hr)) bs
      split at h
      · rename_i hneg
        exact Or.inr (Or.inl ⟨r₂, hneg, _, h.symm, ht.utemp, ht.child, ht.fds.1⟩)
      · exact Or.inr (Or.inr ⟨_, h.symm, ht⟩)

/-- **What is in the page** if nothing fails: `n` bytes of the file, and zeros. -/
theorem readPage_bytes (hf : (w.fds fd).map (·.file) = some f) (h0 : 0 ≤ off.toInt) (hle : off.toInt + n ≤ f.size)
    (hsz : f.size < 2 ^ 31) (hn : n ≤ 4096) (h : readPage fd off n o w = .done w') (x : ℕ) :
    (w'.mem w.fresh).byte x = if x < n then f.byte (off.toInt + x) else 0 := by
  obtain ⟨of, hof, rfl⟩ := Option.map_eq_some_iff.1 hf
  unfold readPage at h
  cases ha : o.alloc with
  | false =>
    rw [ha, sysPageAllocTemp_false] at h
    cases h
  | true =>
    rw [ha, sysPageAllocTemp_true] at h
    dsimp only at h
    rw [if_neg (lt_irrefl _)] at h
    have hof' : (allocTemp w).fds fd = some of := hof
    have hs : seek (allocTemp w) fd off =
        (0, (allocTemp w).setFds (Function.update (allocTemp w).fds fd (some { of with offset := off }))) := by
      unfold seek
      rw [hof']
    rw [hs] at h
    dsimp only at h
    rw [if_neg (lt_irrefl _)] at h
    rcases hr : readn ((allocTemp w).setFds (Function.update (allocTemp w).fds fd (some { of with offset := off }))) fd
      o.replies n with ⟨r, bs, w₂⟩
    rw [hr] at h
    dsimp only at h
    split at h
    · cases h
    · rename_i hneg
      obtain ⟨-, rfl⟩ := readnLoop_fits { of with offset := off } (Function.update_self ..) h0 hle hsz hn le_rfl hr hneg
      obtain rfl := Stop.done.inj h
      obtain ⟨-, hm⟩ := temped_fill ((moved_offset hof' off).trans (readnLoop_moved hr)) (of.file.bytes off.toInt n)
      dsimp only
      rw [hm, Bytes.byte_write, File.bytes_length hle]
      by_cases hx : x < n
      · rw [if_pos ⟨Nat.zero_le _, by omega⟩, if_pos hx, File.bytes_eq hle, Nat.sub_zero,
          List.getD_eq_getElem _ _ (by rw [List.length_map, List.length_range]; exact hx), List.getElem_map,
          List.getElem_range]
      · rw [if_neg (by omega), if_neg hx]

/-! ## One turn -/

/-- The byte of a segment at offset `y` from its first page: of the file, or zero. -/
def segByte (f : File) (fileoffset : ℤ) (filesz y : ℕ) : Byte := if y < filesz then f.byte (fileoffset + y) else 0

/-- The child has page `m`, with these bytes. -/
def PageIs (w : World) (m : ℕ) (perm : BitVec 32) (bytes : ℕ → Byte) : Prop :=
  ∃ s pte, w.child = some s ∧ s m = some pte ∧ pte.perm = perm ||| pteP ∧ ∀ x < 4096, (w.mem pte.page).byte x = bytes x

/-- What `w'` has of the pages in `w`, but for page `m`. -/
structure Turn (m : ℕ) (fd : Fin 32) (w w' : World) : Prop where
  child : ∃ s s', w.child = some s ∧ w'.child = some s' ∧ ∀ n ≠ m, s' n = s n
  fresh : w.fresh ≤ w'.fresh
  mem : ∀ p < w.fresh, w'.mem p = w.mem p
  fds : (∀ j ≠ fd, w'.fds j = w.fds j) ∧ (w'.fds fd).map (·.file) = (w.fds fd).map (·.file)

/-- **How `sys_page_alloc` for the child ends.** -/
theorem sysPageAllocChild_cases (fd : Fin 32) {mem : Bool} (h : sysPageAllocChild w a perm mem = (r, w')) : r < 0 ∧ w' = w ∨
    r = 0 ∧ a < utop ∧ Turn (pageNo a) fd w w' ∧ w'.utemp = w.utemp ∧ PageIs w' (pageNo a) perm fun _ => 0 := by
  unfold sysPageAllocChild at h
  split at h
  · obtain ⟨rfl, rfl⟩ := h
    exact Or.inl ⟨by decide, rfl⟩
  rename_i hva
  split at h
  · obtain ⟨rfl, rfl⟩ := h
    exact Or.inl ⟨by decide, rfl⟩
  split at h
  · obtain ⟨rfl, rfl⟩ := h
    exact Or.inl ⟨by decide, rfl⟩
  rename_i s hs
  split at h
  · obtain ⟨rfl, rfl⟩ := h
    refine Or.inr ⟨rfl, BitVec.not_le.1 fun hc => hva (Or.inl hc), ⟨⟨s, _, hs, rfl, fun n hn => Function.update_of_ne hn ..⟩,
      Nat.le_succ _, fun p hp => Function.update_of_ne hp.ne .., fun _ _ => rfl, rfl⟩, rfl, _, ⟨w.fresh, perm ||| pteP⟩,
      rfl, Function.update_self .., rfl, fun x _ => ?_⟩
    show (Function.update w.mem w.fresh _ w.fresh).byte x = 0
    rw [Function.update_self]
  · obtain ⟨rfl, rfl⟩ := h
    exact Or.inl ⟨by decide, rfl⟩

/-- **A page from the file** that gets to the child. -/
theorem turn_of_read {mem : Bool} (ht : Temped fd w w₁) (h : sysPageMapTemp w₁ a perm mem = (r, w')) (hr : ¬ r < 0) :
    a < utop ∧ Turn (pageNo a) fd w (sysPageUnmapTemp w') ∧ ∀ bytes, (∀ x < 4096, (w₁.mem w.fresh).byte x = bytes x) →
      PageIs (sysPageUnmapTemp w') (pageNo a) perm bytes := by
  obtain ⟨-, hva, s, hs, pte, hlt, hpte, rfl⟩ := (sysPageMapTemp_cases h).resolve_left fun h => hr h.1
  rw [ht.utemp] at hpte
  obtain rfl := Option.some.inj hpte
  rw [ht.child] at hs
  refine ⟨hva, ⟨⟨s, _, hs, rfl, fun n hn => Function.update_of_ne hn ..⟩, ?_, ht.mem, ht.fds⟩, fun bytes hb =>
    ⟨_, _, rfl, Function.update_self .., rfl, hb⟩⟩
  show w.fresh ≤ w₁.fresh
  rw [ht.fresh]
  exact Nat.le_succ _

/-- Another page of the child is as it was. -/
theorem Turn.pageIs_iff {m : ℕ} {bytes : ℕ → Byte} (h : Turn m fd w w') (hn : n ≠ m) :
    PageIs w' n perm bytes ↔ PageIs w n perm bytes := by
  obtain ⟨s, s', hs, hs', hss⟩ := h.child
  have hmem : ∀ pte, s n = some pte → w'.mem pte.page = w.mem pte.page := fun pte hp =>
    h.mem _ (w.child_lt s hs n pte hp)
  constructor
  · rintro ⟨t, pte, ht, hp, hperm, hb⟩
    rw [hs'] at ht
    obtain rfl := Option.some.inj ht
    rw [hss n hn] at hp
    rw [hmem pte hp] at hb
    exact ⟨s, pte, hs, hp, hperm, hb⟩
  · rintro ⟨t, pte, ht, hp, hperm, hb⟩
    rw [hs] at ht
    obtain rfl := Option.some.inj ht
    rw [← hmem pte hp] at hb
    exact ⟨s', pte, hs', (hss n hn).trans hp, hperm, hb⟩

/-! ## The loop -/

theorem utop_toNat_lt : utop.toNat < 2 ^ 40 := by decide

/-- The values of `i`, as long as they do not overflow. -/
theorem signExtend_page (h : k < 2 ^ 19) : ((BitVec.ofNat 32 (4096 * k)).signExtend 64).toNat = 4096 * k := by
  have h1 : (BitVec.ofNat 32 (4096 * k)).toNat = 4096 * k := by
    rw [BitVec.toNat_ofNat]
    omega
  rw [BitVec.signExtend_eq_setWidth_of_msb_false, BitVec.toNat_setWidth, h1]
  · omega
  · rw [BitVec.msb_eq_decide, h1]
    exact decide_eq_false (by omega)

/-- The value behind them. -/
theorem signExtend_overflow : ((BitVec.ofNat 32 (4096 * 2 ^ 19)).signExtend 64).toNat = 2 ^ 64 - 2 ^ 31 := by decide

section Loop

variable {memsz filesz : BitVec 64} {fileoffset : BitVec 32} {calls : ℕ → PageCalls}

/-- **What the loop does from page `k` on**: it loads the pages that it gets to, leaves the others, and
unmaps `UTEMP` if it uses it. -/
structure Loads (va : VA) (memsz filesz : ℕ) (fileoffset : ℤ) (perm : BitVec 32) (f : File) (k : ℕ) (w w' : World) :
    Prop where
  pages : ∀ j, k ≤ j → 4096 * j < memsz → j < 2 ^ 19 →
    PageIs w' (pageNo va + j) perm fun x => segByte f fileoffset filesz (4096 * j + x)
  others : ∀ n, (∀ j, k ≤ j → 4096 * j < memsz → j < 2 ^ 19 → n ≠ pageNo va + j) → ∀ perm bytes,
    PageIs w' n perm bytes ↔ PageIs w n perm bytes
  used : 4096 * k < filesz → k < 2 ^ 19 → w'.utemp = none
  unused : filesz ≤ 4096 * k ∨ 2 ^ 19 ≤ k → w'.utemp = w.utemp
  low : 4096 * k < memsz → k < 2 ^ 19 → va < utop

/-- The end of the loop. -/
theorem Loads.nil {filesz memsz : ℕ} {fileoffset : ℤ} (h : memsz ≤ 4096 * k ∨ 2 ^ 19 ≤ k) (hle : filesz ≤ memsz) :
    Loads va memsz filesz fileoffset perm f k w w :=
  ⟨fun _ _ _ _ => by omega, fun _ _ _ _ => Iff.rfl, fun _ _ => by omega, fun _ => rfl, fun _ _ => by omega⟩

/-- **One turn**, with those behind it. -/
theorem Loads.cons {filesz memsz : ℕ} {fileoffset : ℤ} (hk : 4096 * k < memsz) (hk' : k < 2 ^ 19)
    (hlow : va < utop) (ht : Turn (pageNo va + k) fd w w₁)
    (hp : PageIs w₁ (pageNo va + k) perm fun x => segByte f fileoffset filesz (4096 * k + x))
    (hused : 4096 * k < filesz → w₁.utemp = none) (hunused : filesz ≤ 4096 * k → w₁.utemp = w.utemp)
    (h : Loads va memsz filesz fileoffset perm f (k + 1) w₁ w') : Loads va memsz filesz fileoffset perm f k w w' where
  pages j hj hm hlt := by
    rcases Nat.eq_or_lt_of_le hj with rfl | hj
    · exact (h.others _ (fun j' _ _ _ => by omega) _ _).2 hp
    · exact h.pages j hj hm hlt
  others n hn perm bytes := by
    rw [h.others n (fun j hj hm hlt => hn j (by omega) hm hlt)]
    exact ht.pageIs_iff (hn k le_rfl hk hk')
  used hu _ := by
    by_cases hnext : 4096 * (k + 1) < filesz ∧ k + 1 < 2 ^ 19
    · exact h.used hnext.1 hnext.2
    · rw [h.unused (by omega)]
      exact hused hu
  unused hu := by
    rw [h.unused (by omega)]
    exact hunused (by omega)
  low _ _ := hlow

/-- **The loop**: if it returns 0, it has loaded all pages that it gets to. -/
theorem mapSegmentLoop_done (hva : va.toNat % 4096 = 0) (hM : memsz.toNat < 2 ^ 31 + 4096)
    (hF : filesz.toNat ≤ memsz.toNat) (hoff : 0 ≤ fileoffset.toInt) (hcov : fileoffset.toInt + filesz.toNat ≤ f.size)
    (hsz : f.size < 2 ^ 31) (hk : k ≤ 2 ^ 19) (hlow : k = 0 ∨ va < utop) (hf : (w.fds fd).map (·.file) = some f)
    (h : mapSegmentLoop va memsz fd filesz fileoffset perm calls turns (BitVec.ofNat 32 (4096 * k)) k w = some stop)
    (hc : stop.code = 0) :
    ∃ w', stop = .done w' ∧ Loads va memsz.toNat filesz.toNat fileoffset.toInt perm f k w w' := by
  induction turns generalizing k w with
  | zero => cases h
  | succ turns ih =>
    unfold mapSegmentLoop at h
    rcases Nat.eq_or_lt_of_le hk with rfl | hlt
    · -- `i` has overflowed
      rw [if_neg (by rw [BitVec.lt_def, signExtend_overflow]; omega)] at h
      obtain rfl := Option.some.inj h
      exact ⟨w, rfl, .nil (Or.inr le_rfl) hF⟩
    have hi := signExtend_page hlt
    by_cases hm : 4096 * k < memsz.toNat
    · rw [if_pos (by rw [BitVec.lt_def, hi]; exact hm)] at h
      have hnext : BitVec.ofNat 32 (4096 * k) + 4096 = BitVec.ofNat 32 (4096 * (k + 1)) := by
        rw [Nat.mul_succ, BitVec.ofNat_add]
        rfl
      rw [hnext] at h
      -- the page of the child
      have hpage : va + (BitVec.ofNat 32 (4096 * k)).signExtend 64 < utop → va < utop ∧
          pageNo (va + (BitVec.ofNat 32 (4096 * k)).signExtend 64) = pageNo va + k := by
        intro ha
        have hb := utop_toNat_lt
        have hlow' : va < utop := by
          rcases hlow with rfl | hlow
          · exact lt_of_eq_of_lt (BitVec.add_zero va).symm ha
          · exact hlow
        refine ⟨hlow', ?_⟩
        rw [BitVec.lt_def] at hlow'
        unfold pageNo
        rw [BitVec.toNat_add, hi, Nat.mod_eq_of_lt (by omega)]
        omega
      by_cases hz : filesz.toNat ≤ 4096 * k
      · -- a blank page
        have hge : (BitVec.ofNat 32 (4096 * k)).signExtend 64 ≥ filesz := by
          show filesz ≤ _
          rw [BitVec.le_def, hi]
          exact hz
        rw [if_pos hge] at h
        rcases ha : sysPageAllocChild w (va + (BitVec.ofNat 32 (4096 * k)).signExtend 64) perm (calls k).alloc with ⟨r, w₁⟩
        rw [ha] at h
        dsimp only at h
        rcases sysPageAllocChild_cases fd ha with ⟨hr, -⟩ | ⟨rfl, hau, ht, hu, hp⟩
        · rw [if_pos hr] at h
          obtain rfl := Option.some.inj h
          exact absurd hc hr.ne
        · rw [if_neg (lt_irrefl _)] at h
          obtain ⟨hlow', hno⟩ := hpage hau
          rw [hno] at ht hp
          obtain ⟨w', h1, h2⟩ := ih hlt (Or.inr hlow') (ht.fds.2.trans hf) h
          have hbytes : (fun x => segByte f fileoffset.toInt filesz.toNat (4096 * k + x)) = fun _ => 0 := by
            funext x
            exact if_neg (by omega)
          refine ⟨w', h1, .cons hm hlt hlow' ht ?_ (fun hc => by omega) (fun _ => hu) h2⟩
          rw [hbytes]
          exact hp
      · -- a page with bytes of the file
        have hge : ¬ (BitVec.ofNat 32 (4096 * k)).signExtend 64 ≥ filesz := by
          show ¬ filesz ≤ _
          rw [BitVec.le_def, hi]
          exact hz
        have hsub : (filesz - (BitVec.ofNat 32 (4096 * k)).signExtend 64).toNat = filesz.toNat - 4096 * k := by
          rw [BitVec.toNat_sub, hi]
          omega
        have hofs : (fileoffset + BitVec.ofNat 32 (4096 * k)).toInt = fileoffset.toInt + (4096 * k : ℕ) := by
          rw [BitVec.toInt_add, toInt_ofNat (by omega), Int.bmod_eq_of_le (by omega) (by omega)]
        rw [if_neg hge, hsub] at h
        rcases hrd : readPage fd (fileoffset + BitVec.ofNat 32 (4096 * k)) (min 4096 (filesz.toNat - 4096 * k)) (calls k) w
          with ⟨r, w₁⟩ | ⟨r, w₁⟩ | w₁
        · rw [hrd] at h
          obtain rfl := Option.some.inj h
          rcases readPage_cases hrd with ⟨r', hr, h1⟩ | ⟨_, _, _, h1, -⟩ | ⟨_, h1, -⟩
          · obtain ⟨rfl, -⟩ := Stop.alloc.inj h1
            exact absurd hc hr.ne
          · cases h1
          · cases h1
        · rw [hrd] at h
          obtain rfl := Option.some.inj h
          rcases readPage_cases hrd with ⟨_, _, h1⟩ | ⟨r', hr, _, h1, -⟩ | ⟨_, h1, -⟩
          · cases h1
          · obtain ⟨rfl, -⟩ := Stop.read.inj h1
            exact absurd hc hr.ne
          · cases h1
        · have hb := readPage_bytes hf (by omega) (by omega) hsz (min_le_left ..) hrd
          have htemp : Temped fd w w₁ := by
            rcases readPage_cases hrd with ⟨_, _, h1⟩ | ⟨_, _, _, h1, -⟩ | ⟨_, h1, h2⟩
            · cases h1
            · cases h1
            · obtain rfl := Stop.done.inj h1
              exact h2
          rw [hrd] at h
          dsimp only at h
          rcases hmap : sysPageMapTemp w₁ (va + (BitVec.ofNat 32 (4096 * k)).signExtend 64) perm (calls k).map with ⟨r, w₂⟩
          rw [hmap] at h
          dsimp only at h
          split at h
          · cases h
          · rename_i hr
            obtain ⟨hau, ht, hp⟩ := turn_of_read htemp hmap hr
            obtain ⟨hlow', hno⟩ := hpage hau
            rw [hno] at ht hp
            obtain ⟨w', h1, h2⟩ := ih hlt (Or.inr hlow') (ht.fds.2.trans hf) h
            refine ⟨w', h1, .cons hm hlt hlow' ht (hp _ fun x hx => ?_) (fun _ => rfl) (fun hc => absurd hc hz) h2⟩
            rw [hb, hofs]
            unfold segByte
            by_cases hxF : 4096 * k + x < filesz.toNat
            · rw [if_pos (by omega), if_pos hxF, add_assoc, Nat.cast_add]
            · rw [if_neg (by omega), if_neg hxF]
    · rw [if_neg (by rw [BitVec.lt_def, hi]; exact hm)] at h
      obtain rfl := Option.some.inj h
      exact ⟨w, rfl, .nil (Or.inl (by omega)) hF⟩

end Loop

/-! ## `map_segment` -/

/-- The child has the byte at `va + o` of a segment, on a page with the right permission. -/
def LoadedAt (w : World) (f : File) (va : VA) (filesz : ℕ) (fileoffset : ℤ) (perm : BitVec 32) (o : ℕ) : Prop :=
  ∃ s pte, w.child = some s ∧ s (pageNo (va + BitVec.ofNat 64 o)) = some pte ∧ pte.perm = perm ||| pteP ∧
    (w.mem pte.page).byte ((va + BitVec.ofNat 64 o).toNat % 4096) = segByte f fileoffset filesz o

/-- **What `map_segment` is to do** if it returns 0. -/
def SegmentLoaded (w : World) (f : File) (va : VA) (memsz filesz : ℕ) (fileoffset : ℤ) (perm : BitVec 32) : Prop :=
  (∀ o < memsz, LoadedAt w f va filesz fileoffset perm o) ∧ w.utemp = none

theorem loadedAt_iff {filesz o m x : ℕ} {fileoffset : ℤ} (hm : pageNo (va + BitVec.ofNat 64 o) = m)
    (hx : (va + BitVec.ofNat 64 o).toNat % 4096 = x) : LoadedAt w f va filesz fileoffset perm o ↔
      ∃ bytes, PageIs w m perm bytes ∧ bytes x = segByte f fileoffset filesz o := by
  subst hm hx
  constructor
  · rintro ⟨s, pte, h1, h2, h3, h4⟩
    exact ⟨_, ⟨s, pte, h1, h2, h3, fun _ _ => rfl⟩, h4⟩
  · rintro ⟨bytes, ⟨s, pte, h1, h2, h3, h4⟩, h5⟩
    exact ⟨s, pte, h1, h2, h3, (h4 _ (Nat.mod_lt _ (by omega))).trans h5⟩

theorem pgoff_toNat (va : VA) : (pgoff va).toNat = va.toNat % 4096 := by
  unfold pgoff
  rw [BitVec.toNat_and]
  exact Nat.and_two_pow_sub_one_eq_mod va.toNat 12

theorem page_toNat (va : VA) : (va - pgoff va).toNat = va.toNat - va.toNat % 4096 := by
  have hva := va.isLt
  rw [BitVec.toNat_sub, pgoff_toNat]
  omega

/-- Where the byte at `va + o` is. -/
theorem segment_addr {o : ℕ} (hlow : va - pgoff va < utop) (ho : o < 2 ^ 31) :
    pageNo (va + BitVec.ofNat 64 o) = pageNo (va - pgoff va) + (va.toNat % 4096 + o) / 4096 ∧
      (va + BitVec.ofNat 64 o).toNat % 4096 = (va.toNat % 4096 + o) % 4096 := by
  have hb := utop_toNat_lt
  rw [BitVec.lt_def, page_toNat] at hlow
  unfold pageNo
  rw [BitVec.toNat_add, BitVec.toNat_ofNat, page_toNat, Nat.mod_eq_of_lt (by omega : o < 2 ^ 64),
    Nat.mod_eq_of_lt (by omega : va.toNat + o < 2 ^ 64)]
  omega

section Segment

variable {memsz filesz : BitVec 64} {fileoffset : BitVec 32} {calls : ℕ → PageCalls}
  (hF : filesz.toNat ≤ memsz.toNat) (hM : memsz.toNat < 2 ^ 31) (hoff : 0 ≤ fileoffset.toInt)
  (hpg : fileoffset.toInt % 4096 = (va.toNat % 4096 : ℕ)) (hcov : fileoffset.toInt + filesz.toNat ≤ f.size)
  (hsz : f.size < 2 ^ 31) (hf : (w.fds fd).map (·.file) = some f)
  (h : mapSegment w va memsz fd filesz fileoffset perm calls = some (0, w'))
include hF hM hoff hpg hcov hsz hf h

/-- **The pages of a segment**: those in front of 2 GB are loaded, the others are as they were. -/
theorem mapSegment_pages : Loads (va - pgoff va) (memsz.toNat + va.toNat % 4096) (filesz.toNat + va.toNat % 4096)
    (fileoffset.toInt - (va.toNat % 4096 : ℕ)) perm f 0 w w' := by
  have hva := va.isLt
  have hi := pgoff_toNat va
  obtain ⟨stop, h1, h2⟩ := Option.map_eq_some_iff.1 h
  obtain ⟨hc, rfl⟩ := Prod.mk.inj h2
  unfold mapSegmentStop at h1
  have hva' : (va - pgoff va).toNat % 4096 = 0 := by
    rw [page_toNat]
    omega
  have hM' : (memsz + pgoff va).toNat = memsz.toNat + va.toNat % 4096 := by
    rw [BitVec.toNat_add, hi]
    omega
  have hF' : (filesz + pgoff va).toNat = filesz.toNat + va.toNat % 4096 := by
    rw [BitVec.toNat_add, hi]
    omega
  have hoff' : (fileoffset - (pgoff va).setWidth 32).toInt = fileoffset.toInt - (va.toNat % 4096 : ℕ) := by
    have hw : (pgoff va).setWidth 32 = BitVec.ofNat 32 (va.toNat % 4096) := by
      apply BitVec.eq_of_toNat_eq
      rw [BitVec.toNat_setWidth, hi, BitVec.toNat_ofNat]
    rw [hw, BitVec.toInt_sub, toInt_ofNat (by omega), Int.bmod_eq_of_le (by omega) (by omega)]
  obtain ⟨w₁, rfl, h3⟩ := mapSegmentLoop_done (k := 0) hva' (by rw [hM']; omega) (by rw [hM', hF']; omega)
    (by rw [hoff']; omega) (by rw [hoff', hF']; omega) hsz (by omega) (Or.inl rfl) hf h1 hc
  rw [hM', hF', hoff'] at h3
  exact h3

/-- The bytes in front of 2 GB. -/
theorem mapSegment_front {o : ℕ} (ho : o < memsz.toNat) (hlt : va.toNat % 4096 + o < 2 ^ 31) :
    LoadedAt w' f va filesz.toNat fileoffset.toInt perm o := by
  have hl := mapSegment_pages hF hM hoff hpg hcov hsz hf h
  obtain ⟨h1, h2⟩ := segment_addr (hl.low (by omega) (by omega)) (show o < 2 ^ 31 by omega)
  rw [loadedAt_iff h1 h2]
  refine ⟨_, hl.pages ((va.toNat % 4096 + o) / 4096) (Nat.zero_le _) (by omega) (by omega), ?_⟩
  unfold segByte
  by_cases hof : o < filesz.toNat
  · rw [if_pos (by omega), if_pos hof]
    congr 1
    omega
  · rw [if_neg (by omega), if_neg hof]

/-- The bytes behind them. -/
theorem mapSegment_back {o : ℕ} (ho : o < memsz.toNat) (hle : 2 ^ 31 ≤ va.toNat % 4096 + o) :
    LoadedAt w' f va filesz.toNat fileoffset.toInt perm o ↔ LoadedAt w f va filesz.toNat fileoffset.toInt perm o := by
  have hl := mapSegment_pages hF hM hoff hpg hcov hsz hf h
  obtain ⟨h1, h2⟩ := segment_addr (hl.low (by omega) (by omega)) (show o < 2 ^ 31 by omega)
  rw [loadedAt_iff h1 h2, loadedAt_iff h1 h2]
  refine exists_congr fun bytes => ?_
  rw [hl.others _ (fun j _ _ _ => by omega)]

/-- `UTEMP` behind the call. -/
theorem mapSegment_utemp : w'.utemp = none ↔ w.utemp = none ∨ 0 < va.toNat % 4096 + filesz.toNat := by
  have hl := mapSegment_pages hF hM hoff hpg hcov hsz hf h
  by_cases hF0 : 0 < va.toNat % 4096 + filesz.toNat
  · rw [hl.used (by omega) (by omega)]
    exact ⟨fun _ => Or.inr hF0, fun _ => rfl⟩
  · rw [hl.unused (by omega)]
    exact ⟨Or.inl, fun h => h.resolve_right hF0⟩

/-- **`map_segment`** that returns 0 has loaded the segment, exactly if what is behind 2 GB, counted from the page
of `va`, was there before; and `UTEMP` is unmapped if it was, or if any page came from the file. -/
theorem map_segment_loads : SegmentLoaded w' f va memsz.toNat filesz.toNat fileoffset.toInt perm ↔
    (∀ o < memsz.toNat, 2 ^ 31 ≤ va.toNat % 4096 + o → LoadedAt w f va filesz.toNat fileoffset.toInt perm o) ∧
      (w.utemp = none ∨ 0 < va.toNat % 4096 + filesz.toNat) := by
  unfold SegmentLoaded
  rw [mapSegment_utemp hF hM hoff hpg hcov hsz hf h]
  refine and_congr_left fun _ => ⟨fun h1 o ho hle => ?_, fun h1 o ho => ?_⟩
  · exact (mapSegment_back hF hM hoff hpg hcov hsz hf h ho hle).1 (h1 o ho)
  · by_cases hlt : va.toNat % 4096 + o < 2 ^ 31
    · exact mapSegment_front hF hM hoff hpg hcov hsz hf h ho hlt
    · exact (mapSegment_back hF hM hoff hpg hcov hsz hf h ho (by omega)).2 (h1 o ho (by omega))

end Segment

/-- A file of a page, `abc` over and over. -/
def abcFile : File := ⟨4096, fun x => [0x61, 0x62, 0x63].getD (x.toNat % 3) 0⟩

/-- The world with this file open. -/
def abcWorld : World := emptyWorld.setFds fun _ => some ⟨abcFile, 0⟩

/-- Calls that do not fail. -/
def allGo (_ : ℕ) : PageCalls := ⟨true, fun _ => .upTo 4095, true⟩

/-- A segment with three bytes of the file, and 5000 in all. -/
theorem map_segment_loads_abc : ∃ w', mapSegment abcWorld 0x800002 5000 0 3 2 rwPerm allGo = some (0, w') ∧
    SegmentLoaded w' abcFile 0x800002 5000 3 2 rwPerm := by
  have hrun : ((mapSegment abcWorld 0x800002 5000 0 3 2 rwPerm allGo).any fun x => x.1 == 0) = true := by
    decide +kernel
  obtain ⟨⟨r, w'⟩, h, hr⟩ := (Option.any_eq_true _ _).1 hrun
  obtain rfl : r = 0 := by simpa using hr
  refine ⟨w', h, (map_segment_loads (f := abcFile) (by decide) (by decide) (by decide) (by decide) (by decide) (by decide) rfl h).2
    ⟨fun o ho hle => ?_, Or.inl rfl⟩⟩
  have h1 : (5000 : BitVec 64).toNat = 5000 := rfl
  have h2 : (0x800002 : VA).toNat % 4096 = 2 := rfl
  omega

/-- `sys_page_alloc` for a child that is there. -/
theorem sysPageAllocChild_go (ha : a < utop) (h0 : a.toNat % 4096 = 0) (hp : perm ||| pteSyscall = pteSyscall)
    (hc : w.child.isSome) : ∃ w', sysPageAllocChild w a perm true = (0, w') ∧ w'.child.isSome := by
  have hal : a &&& 0xFFF = 0 := by
    apply BitVec.eq_of_toNat_eq
    rw [BitVec.toNat_and]
    exact (Nat.and_two_pow_sub_one_eq_mod a.toNat 12).trans h0
  unfold sysPageAllocChild
  rw [if_neg (fun hc => hc.elim (BitVec.not_le.2 ha) fun hc => hc hal), if_neg (not_not_intro hp)]
  split
  · rename_i hn
    rw [hn] at hc
    cases hc
  · exact ⟨_, rfl, rfl⟩

/-- **The blank pages** of a segment are loaded if there is memory. -/
theorem mapSegmentLoop_blank {memsz filesz : BitVec 64} {fileoffset : BitVec 32} {calls : ℕ → PageCalls}
    (hz : filesz.toNat ≤ 4096 * k) (hva : va.toNat % 4096 = 0) (hlow : va.toNat + 2 ^ 31 ≤ utop.toNat) (hM : memsz.toNat < 2 ^ 31 + 4096)
    (hp : perm ||| pteSyscall = pteSyscall) (hcalls : ∀ k, (calls k).alloc = true) (hk : k ≤ 2 ^ 19)
    (ht : 2 ^ 19 < turns + k) (hc : w.child.isSome) :
    ∃ w', mapSegmentLoop va memsz fd filesz fileoffset perm calls turns (BitVec.ofNat 32 (4096 * k)) k w = some (.done w') := by
  have hb := utop_toNat_lt
  induction turns generalizing k w with
  | zero => omega
  | succ turns ih =>
    unfold mapSegmentLoop
    rcases Nat.eq_or_lt_of_le hk with rfl | hlt
    · rw [if_neg (by rw [BitVec.lt_def, signExtend_overflow]; omega)]
      exact ⟨w, rfl⟩
    have hi := signExtend_page hlt
    have hzero : (BitVec.ofNat 32 (4096 * k)).signExtend 64 ≥ filesz := by
      rw [ge_iff_le, BitVec.le_def, hi]
      exact hz
    by_cases hm : 4096 * k < memsz.toNat
    · rw [if_pos (by rw [BitVec.lt_def, hi]; exact hm), if_pos hzero, hcalls]
      have hadd : (va + (BitVec.ofNat 32 (4096 * k)).signExtend 64).toNat = va.toNat + 4096 * k := by
        rw [BitVec.toNat_add, hi, Nat.mod_eq_of_lt (by omega)]
      obtain ⟨w₁, h1, hc₁⟩ := sysPageAllocChild_go (w := w) (a := va + (BitVec.ofNat 32 (4096 * k)).signExtend 64)
        (by rw [BitVec.lt_def, hadd]; omega) (by rw [hadd]; omega) hp hc
      have hnext : BitVec.ofNat 32 (4096 * k) + 4096 = BitVec.ofNat 32 (4096 * (k + 1)) := by
        rw [Nat.mul_succ, BitVec.ofNat_add]
        rfl
      rw [h1]
      dsimp only
      rw [if_neg (lt_irrefl _), hnext]
      exact ih (by omega) hlt (by omega) hc₁
    · rw [if_neg (by rw [BitVec.lt_def, hi]; exact hm)]
      exact ⟨w, rfl⟩

/-- The first page of the segment below. -/
def firstPage : Option World :=
  match readPage 0 0 4095 (allGo 0) abcWorld with
  | .done w => if (sysPageMapTemp w 0x800000 rwPerm true).1 = 0 then some (sysPageMapTemp w 0x800000 rwPerm true).2 else none
  | _ => none

/-- **This fails** for 2^31 - 1 bytes from offset 4095 of a page on: the last page is not mapped. -/
theorem map_segment_counterexample : ∃ w', mapSegment abcWorld 0x800FFF 0x7FFFFFFF 0 0 0xFFF rwPerm allGo = some (0, w') ∧
    ¬ SegmentLoaded w' abcFile 0x800FFF 0x7FFFFFFF 0 0xFFF rwPerm := by
  have hfirst : (firstPage.any fun w => w.child.isSome) = true := by decide +kernel
  obtain ⟨w₁, h1, hc⟩ := (Option.any_eq_true _ _).1 hfirst
  unfold firstPage at h1
  split at h1
  · rename_i w₀ hread
    split at h1
    · rename_i hmap
      obtain rfl := Option.some.inj h1
      obtain ⟨w', hrun⟩ : ∃ w', mapSegmentLoop 0x800000 (0x7FFFFFFF + 0xFFF) 0 0xFFF 0 rwPerm allGo (2 ^ 20) 4096 1
          (sysPageUnmapTemp (sysPageMapTemp w₀ 0x800000 rwPerm true).2) = some (.done w') :=
        mapSegmentLoop_blank (k := 1) (by decide) (by decide) (by decide) (by decide) (by decide) (fun _ => rfl) (by omega)
          (by omega) hc
      have h : mapSegment abcWorld 0x800FFF 0x7FFFFFFF 0 0 0xFFF rwPerm allGo = some (0, w') := by
        have hturn : mapSegmentLoop 0x800000 (0x7FFFFFFF + 0xFFF) 0 0xFFF 0 rwPerm allGo (2 ^ 20 + 1) 0 0 abcWorld =
            some (.done w') := by
          rw [mapSegmentLoop, if_pos (by decide), if_neg (by decide),
            show readPage 0 (0 + 0) (min 4096 (0xFFF - (0 : BitVec 32).signExtend 64).toNat) (allGo 0) abcWorld = .done w₀
              from hread]
          dsimp only
          rw [show sysPageMapTemp w₀ (0x800000 + (0 : BitVec 32).signExtend 64) rwPerm (allGo 0).map =
              sysPageMapTemp w₀ 0x800000 rwPerm true from rfl, if_neg (by rw [hmap]; exact lt_irrefl _)]
          exact hrun
        have h1 : (0x800FFF : VA) - pgoff 0x800FFF = 0x800000 := by decide
        have h2 : (0x7FFFFFFF : BitVec 64) + pgoff 0x800FFF = 0x7FFFFFFF + 0xFFF := by decide
        have h3 : (0 : BitVec 64) + pgoff 0x800FFF = 0xFFF := by decide
        have h4 : (0xFFF : BitVec 32) - (pgoff 0x800FFF).setWidth 32 = 0 := by decide
        unfold mapSegment mapSegmentStop
        dsimp only
        rw [h1, h2, h3, h4, hturn]
        rfl
      refine ⟨w', h, fun hl => ?_⟩
      have hback := (mapSegment_back (f := abcFile) (by decide) (by decide) (by decide) (by decide) (by decide) (by decide)
        rfl h (show 0x7FFFFFFE < _ by decide) (by decide)).1 (hl.1 0x7FFFFFFE (by decide))
      obtain ⟨s, pte, hs, hp, -⟩ := hback
      obtain rfl := Option.some.inj hs
      cases hp
    · cases h1
  · cases h1

end Jos.Spawn
