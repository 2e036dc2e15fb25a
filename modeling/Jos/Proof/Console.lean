import Jos.Lib.Ring
import Jos.Spec.Console

/-!
# Console input is a queue

The buffer has no test for being full: when the write position meets the read position, the buffer is empty again,
and the `CONSBUFSIZE` characters in it are lost. So `cons_getc` may skip characters, but returns what it returns in
order, and none of them twice (`console_queue`): the invariant has a place `r` in the stream of arrivals that only
moves forward, to which the characters from `rpos` on belong. If fewer than `CONSBUFSIZE` characters are waiting at
any time, it skips none.
-/

namespace Jos.Console

open Lib

variable {s : State} {cons : Cons} {arrived returned : List Byte} {r : ℕ} {c : Byte}

/-- The buffer holds the arrivals from `r` on. -/
structure Buffered (cons : Cons) (arrived : List Byte) (r : ℕ) : Prop where
  le : r ≤ arrived.length
  lt : arrived.length < r + CONSBUFSIZE
  rpos : cons.rpos = BitVec.ofNat 32 (r % CONSBUFSIZE)
  wpos : cons.wpos = BitVec.ofNat 32 (arrived.length % CONSBUFSIZE)
  ring : Ring.Holds cons.buf CONSBUFSIZE arrived r arrived.length

/-! ## Positions -/

theorem toNat_pos (k : ℕ) : (BitVec.ofNat 32 (k % CONSBUFSIZE)).toNat = k % CONSBUFSIZE := by
  unfold CONSBUFSIZE
  rw [BitVec.toNat_ofNat]
  omega

/-- A position moves on, and from the last one to 0. -/
theorem next_pos (k : ℕ) : (if BitVec.ofNat 32 (k % CONSBUFSIZE) + 1 = BitVec.ofNat 32 CONSBUFSIZE then (0 : BitVec 32)
    else BitVec.ofNat 32 (k % CONSBUFSIZE) + 1) = BitVec.ofNat 32 ((k + 1) % CONSBUFSIZE) := by
  have hlt : k % CONSBUFSIZE < 512 := Nat.mod_lt _ (by decide)
  have hsucc : BitVec.ofNat 32 (k % CONSBUFSIZE) + 1 = BitVec.ofNat 32 (k % CONSBUFSIZE + 1) := (BitVec.ofNat_add ..).symm
  unfold CONSBUFSIZE at hlt hsucc ⊢
  rw [hsucc]
  by_cases hlast : k % 512 = 511
  · have hzero : (k + 1) % 512 = 0 := by omega
    rw [hlast, hzero]
    rfl
  · have hnext : (k + 1) % 512 = k % 512 + 1 := by omega
    have hne : BitVec.ofNat 32 (k % 512 + 1) ≠ BitVec.ofNat 32 512 := by
      rw [Ne, ← BitVec.toNat_inj, BitVec.toNat_ofNat, BitVec.toNat_ofNat]
      omega
    rw [if_neg hne, hnext]

/-! ## Arrivals -/

/-- **A character arrives.** If there is no room for it, all that is in the buffer is skipped. -/
theorem Buffered.put (h : Buffered cons arrived r) (hc : c ≠ 0) :
    Buffered (cons.put c) (arrived ++ [c]) (if arrived.length + 1 = r + CONSBUFSIZE then arrived.length + 1 else r) := by
  have hlen : (arrived ++ [c]).length = arrived.length + 1 := by rw [List.length_append, List.length_singleton]
  have hle := h.le
  have hlt := h.lt
  unfold Cons.put
  rw [if_neg hc]
  dsimp only
  have hwpos : (if cons.wpos + 1 = BitVec.ofNat 32 CONSBUFSIZE then (0 : BitVec 32) else cons.wpos + 1) =
      BitVec.ofNat 32 ((arrived ++ [c]).length % CONSBUFSIZE) := by
    rw [h.wpos, next_pos, hlen]
  have hcell : Function.update cons.buf cons.wpos.toNat c (arrived.length % CONSBUFSIZE) = c := by
    rw [h.wpos, toNat_pos, Function.update_self]
  by_cases hfull : arrived.length + 1 = r + CONSBUFSIZE
  · rw [if_pos hfull]
    refine ⟨by omega, by rw [hlen]; unfold CONSBUFSIZE; omega, ?_, hwpos, hlen ▸ .empty⟩
    rw [hfull, Nat.add_mod_right]
    exact h.rpos
  · rw [if_neg hfull]
    refine ⟨by omega, by omega, h.rpos, hwpos, ?_⟩
    rw [hlen]
    refine Ring.Holds.put (Ring.Holds.set h.ring hlt fun i _ hi => ?_) rfl hcell
    rw [h.wpos, toNat_pos]
    exact Function.update_of_ne hi _ _

/-- **`cons_intr`**: the place moves forward, or stays if there is room for all. -/
theorem Buffered.intr (h : Buffered cons arrived r) (proc : List Byte) : ∃ r', r ≤ r' ∧
    Buffered (consIntr proc cons) (arrived ++ proc.filter (· ≠ 0)) r' ∧
      (arrived.length + (proc.filter (· ≠ 0)).length < r + CONSBUFSIZE → r' = r) := by
  induction proc generalizing cons arrived r with
  | nil =>
    rw [List.filter_nil, List.append_nil]
    exact ⟨r, le_rfl, h, fun _ => rfl⟩
  | cons c proc ih =>
    by_cases hc : c = 0
    · have hskip : consIntr (c :: proc) cons = consIntr proc cons := by
        unfold consIntr Cons.put
        rw [List.foldl_cons, if_pos hc]
      rw [hskip, List.filter_cons_of_neg (by simpa using hc)]
      exact ih h
    · rw [List.filter_cons_of_pos (by simpa using hc), List.length_cons]
      obtain ⟨r', h1, h2, h3⟩ := ih (h.put hc)
      rw [List.append_assoc] at h2
      rw [List.length_append, List.length_singleton] at h3
      by_cases hfull : arrived.length + 1 = r + CONSBUFSIZE
      · rw [if_pos hfull] at h1
        exact ⟨r', by unfold CONSBUFSIZE at hfull; omega, h2, fun h4 => absurd h4 (by omega)⟩
      · rw [if_neg hfull] at h1 h3
        exact ⟨r', h1, h2, fun h4 => h3 (by omega)⟩

/-! ## Reads -/

theorem Buffered.pos_eq_iff (h : Buffered cons arrived r) : cons.rpos = cons.wpos ↔ r = arrived.length := by
  have hle := h.le
  have hlt := h.lt
  rw [h.rpos, h.wpos, ← BitVec.toNat_inj, toNat_pos, toNat_pos]
  constructor
  · intro heq
    by_contra hne
    exact Ring.mod_ne (by omega) hlt heq
  · rintro rfl
    rfl

/-- **A read** takes the character at the place. -/
theorem Buffered.get (h : Buffered cons arrived r) (hlt : r < arrived.length) :
    arrived[r]? = some (cons.buf cons.rpos.toNat) ∧
      Buffered { cons with rpos := if cons.rpos + 1 = BitVec.ofNat 32 CONSBUFSIZE then 0 else cons.rpos + 1 } arrived (r + 1) := by
  have hbound := h.lt
  constructor
  · rw [h.rpos, toNat_pos]
    exact h.ring.get hlt
  · refine ⟨hlt, by omega, ?_, h.wpos, h.ring.mono (Nat.le_succ r)⟩
    dsimp only
    rw [h.rpos, next_pos]

/-- What is in the buffer. -/
theorem Buffered.waiting_eq (h : Buffered cons arrived r) : cons.waiting = arrived.drop r := by
  have hle := h.le
  have hlt := h.lt
  have hlen : (arrived.length % CONSBUFSIZE + CONSBUFSIZE - r % CONSBUFSIZE) % CONSBUFSIZE = arrived.length - r := by
    unfold CONSBUFSIZE at hlt ⊢
    omega
  unfold Cons.waiting
  rw [h.rpos, h.wpos, toNat_pos, toNat_pos, hlen]
  apply List.ext_getElem (by rw [List.length_map, List.length_range, List.length_drop])
  intro i h1 h2
  rw [List.length_map, List.length_range] at h1
  have hcell := h.ring (r + i) (Nat.le_add_right r i) (by omega)
  rw [List.getElem?_eq_getElem (by omega)] at hcell
  rw [List.getElem_map, List.getElem_range, List.getElem_drop, Nat.mod_add_mod]
  exact (Option.some.inj hcell).symm

/-! ## Runs -/

/-- **The invariant**: what was returned came before the place, in order. -/
structure Inv (s : State) (r : ℕ) : Prop where
  buffered : Buffered s.cons s.arrived r
  order : s.returned.Sublist (s.arrived.take r)
  nonzero : ∀ c ∈ s.arrived, c ≠ 0

theorem initial_inv : Inv initial 0 where
  buffered := ⟨le_rfl, by decide, rfl, rfl, .empty⟩
  order := .slnil
  nonzero := nofun

/-- The characters of an event arrive. -/
def arrive (s : State) (proc : List Byte) : State :=
  { s with cons := consIntr proc s.cons, arrived := s.arrived ++ proc.filter (· ≠ 0) }

theorem arrive_inv (h : Inv s r) (proc : List Byte) : ∃ r', Inv (arrive s proc) r' ∧
    (s.arrived.length + (proc.filter (· ≠ 0)).length < s.returned.length + CONSBUFSIZE → s.returned = s.arrived.take r →
      (arrive s proc).returned = (arrive s proc).arrived.take r') := by
  have hle := h.buffered.le
  obtain ⟨r', h1, h2, h3⟩ := h.buffered.intr proc
  have htake : (s.arrived ++ proc.filter (· ≠ 0)).take r = s.arrived.take r := List.take_append_of_le_length hle
  refine ⟨r', ⟨h2, ?_, fun c hc => ?_⟩, fun hroom hall => ?_⟩
  · change s.returned.Sublist ((s.arrived ++ proc.filter (· ≠ 0)).take r')
    refine h.order.trans ?_
    rw [← htake]
    exact (List.take_prefix_take_left h1).sublist
  · rcases List.mem_append.1 hc with hc | hc
    · exact h.nonzero c hc
    · simpa using (List.mem_filter.1 hc).2
  · have hlen : s.returned.length = r := by rw [hall, List.length_take, Nat.min_eq_left hle]
    change s.returned = (s.arrived ++ proc.filter (· ≠ 0)).take r'
    rw [h3 (by omega), htake]
    exact hall

/-- A character that is there is returned, as it is. -/
theorem getc_eq (h : Inv s r) : step s (.getc [] []) = if s.cons.rpos ≠ s.cons.wpos then
    ⟨{ s.cons with rpos := if s.cons.rpos + 1 = BitVec.ofNat 32 CONSBUFSIZE then 0 else s.cons.rpos + 1 }, s.arrived,
      s.returned ++ [s.cons.buf s.cons.rpos.toNat]⟩ else s := by
  have hpoll : consIntr [] (consIntr [] s.cons) = s.cons := rfl
  unfold step consGetc Event.arrivals
  simp only [hpoll, List.append_nil, List.filter_nil]
  by_cases hne : s.cons.rpos ≠ s.cons.wpos
  · have hlt : r < s.arrived.length := lt_of_le_of_ne h.buffered.le fun heq => hne (h.buffered.pos_eq_iff.2 heq)
    have hmem := List.mem_of_getElem? (h.buffered.get hlt).1
    have hback : ((s.cons.buf s.cons.rpos.toNat).setWidth 32).setWidth 8 = s.cons.buf s.cons.rpos.toNat := by simp
    have hnz : (s.cons.buf s.cons.rpos.toNat).setWidth 32 ≠ (0 : BitVec 32) := by
      intro hzero
      rw [hzero] at hback
      exact h.nonzero _ hmem hback.symm
    rw [if_pos hne, if_pos hne]
    dsimp only
    rw [if_neg hnz, hback]
  · rw [if_neg hne, if_neg hne]
    rfl

/-- **A call of `cons_getc`** that has polled the devices. -/
theorem getc_inv (h : Inv s r) : ∃ r', Inv (step s (.getc [] [])) r' ∧
    (s.returned = s.arrived.take r → (step s (.getc [] [])).returned = (step s (.getc [] [])).arrived.take r') := by
  rw [getc_eq h]
  by_cases hne : s.cons.rpos ≠ s.cons.wpos
  · have hlt : r < s.arrived.length := lt_of_le_of_ne h.buffered.le fun heq => hne (h.buffered.pos_eq_iff.2 heq)
    obtain ⟨h1, h2⟩ := h.buffered.get hlt
    have htake := Ring.take_succ_eq h1
    rw [if_pos hne]
    refine ⟨r + 1, ⟨h2, ?_, h.nonzero⟩, fun hall => ?_⟩
    · dsimp only
      rw [htake]
      exact h.order.append (List.Sublist.refl _)
    · dsimp only
      rw [htake, ← hall]
  · rw [if_neg hne]
    exact ⟨r, h, id⟩

/-- The polls are arrivals before it. -/
theorem step_getc (s : State) (serial kbd : List Byte) :
    step s (.getc serial kbd) = step (arrive s (serial ++ kbd)) (.getc [] []) := by
  have hpoll : consIntr kbd (consIntr serial s.cons) = consIntr (serial ++ kbd) s.cons := (List.foldl_append ..).symm
  have hnil : consIntr [] (consIntr [] (consIntr (serial ++ kbd) s.cons)) = consIntr (serial ++ kbd) s.cons := rfl
  unfold step consGetc arrive Event.arrivals
  simp only [hpoll, hnil, List.append_nil, List.filter_nil]

/-- **One event** keeps the invariant, and no character is skipped if there is room for all. -/
theorem step_inv (h : Inv s r) (e : Event) : ∃ r', Inv (step s e) r' ∧
    (s.arrived.length + e.arrivals.length < s.returned.length + CONSBUFSIZE → s.returned = s.arrived.take r →
      (step s e).returned = (step s e).arrived.take r') := by
  cases e with
  | intr proc => exact arrive_inv h proc
  | getc serial kbd =>
    obtain ⟨r₁, h1, h2⟩ := arrive_inv h (serial ++ kbd)
    obtain ⟨r', h3, h4⟩ := getc_inv h1
    rw [step_getc]
    exact ⟨r', h3, fun hroom hall => h4 (h2 hroom hall)⟩

/-- **A run.** -/
theorem run_inv (h : Inv s r) (es : List Event) : ∃ r', Inv (run s es) r' ∧
    (Calm s es → s.returned = s.arrived.take r → (run s es).returned = (run s es).arrived.take r') := by
  induction es generalizing s r with
  | nil => exact ⟨r, h, fun _ => id⟩
  | cons e es ih =>
    obtain ⟨r₁, h1, h2⟩ := step_inv h e
    obtain ⟨r', h3, h4⟩ := ih h1
    exact ⟨r', h3, fun hcalm hall => h4 hcalm.2 (h2 hcalm.1 hall)⟩

/-- **Console input is a queue**: what is returned came in this order, and at different places of the arrivals. If
fewer than `CONSBUFSIZE` characters are waiting at any time, what came and was not returned is in the buffer, and a
call returns the first of it. -/
theorem console_queue (es : List Event) : (run initial es).returned.Sublist (run initial es).arrived ∧
    (run initial es).cons.rpos.toNat < CONSBUFSIZE ∧ (run initial es).cons.wpos.toNat < CONSBUFSIZE ∧
      (Calm initial es → (run initial es).arrived = (run initial es).returned ++ (run initial es).cons.waiting) ∧
        ∀ c cs, (run initial es).cons.waiting = c :: cs → (consGetc [] [] (run initial es).cons).1 = c.setWidth 32 ∧
          (consGetc [] [] (run initial es).cons).2.waiting = cs := by
  obtain ⟨r, h, hall⟩ := run_inv initial_inv es
  obtain ⟨s, hs⟩ : ∃ s, s = run initial es := ⟨_, rfl⟩
  rw [← hs] at h hall ⊢
  have hlt : ∀ k, k % CONSBUFSIZE < CONSBUFSIZE := fun k => Nat.mod_lt _ (by decide)
  refine ⟨h.order.trans (List.take_sublist r _), ?_, ?_, fun hcalm => ?_, fun c cs hwait => ?_⟩
  · rw [h.buffered.rpos, toNat_pos]
    exact hlt r
  · rw [h.buffered.wpos, toNat_pos]
    exact hlt _
  · rw [h.buffered.waiting_eq, hall hcalm rfl, List.take_append_drop]
  · rw [h.buffered.waiting_eq] at hwait
    have hr : r < s.arrived.length := by
      have hlen := congrArg List.length hwait
      rw [List.length_drop, List.length_cons] at hlen
      omega
    obtain ⟨h1, h2⟩ := h.buffered.get hr
    have hne : s.cons.rpos ≠ s.cons.wpos := fun heq => absurd (h.buffered.pos_eq_iff.1 heq) (by omega)
    have hpoll : consIntr [] (consIntr [] s.cons) = s.cons := rfl
    rw [List.drop_eq_getElem_cons hr] at hwait
    obtain ⟨hc, hcs⟩ := List.cons.inj hwait
    rw [List.getElem?_eq_getElem hr, hc] at h1
    unfold consGetc
    simp only [hpoll]
    rw [if_pos hne]
    exact ⟨by rw [Option.some.inj h1], h2.waiting_eq.trans hcs⟩

/-- One character too many empties the buffer. -/
example : (run initial [.intr (List.replicate 512 1)]).cons.waiting = [] := by decide +kernel

end Jos.Console
