import Jos.Proof.Bits
import Jos.Spec.Client

/-!
# Requests that can be sent

The page of `fsipcbuf` is writable exactly if its process has stored to it since it last forked: `fork`
makes it copy-on-write, and the first store after that gets the process a copy of its own. All calls but
`sync` store to it before they send it (`Op.body_stores`).

`requests_sendable`: no send fails with `-E_INVAL` in a run in which `sync` is called after a store only;
and in any run, a send is accepted exactly after a store, so that only those of `sync` are refused.
-/

namespace Jos.Client

open Lib

open Fd (Pte pteShare pteCow)

variable {t t' tc tc' : Table} {mem mem' : Mem} {va src dst : Pg} {perm w : BitVec 32} {page : Option ℕ} {noMem : Bool}
  {pte pte' : Pte} {i off : ℕ} {b : Byte} {handler : Bool} {p p' : Process} {X : BitVec 32 → Prop}

/-! ## Permissions -/

theorem flag_w (w : BitVec 32) : flag w pteW = w.getLsbD 1 := flag_twoPow w 1 (by decide)

theorem flag_u (w : BitVec 32) : flag w pteU = w.getLsbD 2 := flag_twoPow w 2 (by decide)

theorem flag_share (w : BitVec 32) : flag w pteShare = w.getLsbD 10 := flag_twoPow w 10 (by decide)

/-- A page that its process may change, and does not share. -/
structure Own (pte : Pte) : Prop where
  u : flag pte.perm pteU = true
  w : flag pte.perm pteW = true
  share : flag pte.perm pteShare = false

/-- A page that is not writable. -/
structure ReadOnly (pte : Pte) : Prop where
  w : flag pte.perm pteW = false
  share : flag pte.perm pteShare = false

theorem own_rw (page : ℕ) : Own ⟨page, rwPerm ||| pteP⟩ where
  u := (by decide : flag (rwPerm ||| pteP) pteU = true)
  w := (by decide : flag (rwPerm ||| pteP) pteW = true)
  share := (by decide : flag (rwPerm ||| pteP) pteShare = false)

theorem own_loaded (h : pte.perm &&& pteSyscall = rwPerm) : Own pte := by
  have h1 : ∀ n, n < 32 → (pteSyscall : BitVec 32).getLsbD n = true → pte.perm.getLsbD n = rwPerm.getLsbD n := by
    intro n _ hs
    rw [← h, BitVec.getLsbD_and, hs, Bool.and_true]
  refine ⟨?_, ?_, ?_⟩
  · rw [flag_u, h1 2 (by decide) (by decide)]
    decide
  · rw [flag_w, h1 1 (by decide) (by decide)]
    decide
  · rw [flag_share, h1 10 (by decide) (by decide)]
    decide

/-! ## `duppage` -/

theorem sysPageMap_cases (src : Table) (s : Pg) (dst : Table) (d : Pg) (perm : BitVec 32) (noMem : Bool) :
    (sysPageMap src s dst d perm noMem).2 = dst ∨
      (sysPageMap src s dst d perm noMem).2 = Function.update dst d (some ⟨((src s).getD ⟨0, 0⟩).page, perm ||| pteP⟩) := by
  unfold sysPageMap
  dsimp only
  split
  · exact Or.inl rfl
  · split
    · exact Or.inl rfl
    · split
      · exact Or.inl rfl
      · exact Or.inr rfl

/-- A mapping without `PTE_W` is made, if there is memory. -/
theorem sysPageMap_made (src : Table) (s : Pg) (dst : Table) (d : Pg) (hp : perm ||| pteSyscall = pteSyscall)
    (hw : flag perm pteW = false) : (sysPageMap src s dst d perm false).2 =
      Function.update dst d (some ⟨((src s).getD ⟨0, 0⟩).page, perm ||| pteP⟩) := by
  unfold sysPageMap
  rw [if_neg (not_not.2 hp)]
  simp only [hw, Bool.and_false, Bool.false_eq_true, if_false]

theorem duppage_other (h : dst ≠ va) :
    (duppage t tc va noMem).1 dst = t dst ∧ (duppage t tc va noMem).2 dst = tc dst := by
  have hmap : ∀ (s d : Table) (perm : BitVec 32) (n : Bool), (sysPageMap s va d va perm n).2 dst = d dst := by
    intro s d perm n
    rcases sysPageMap_cases s va d va perm n with h1 | h1
    · rw [h1]
    · rw [h1, Function.update_of_ne h]
  unfold duppage
  dsimp only
  split
  · exact ⟨rfl, hmap _ _ _ _⟩
  · split
    · exact ⟨hmap _ _ _ _, hmap _ _ _ _⟩
    · exact ⟨rfl, hmap _ _ _ _⟩

/-- The permissions that `duppage` gives. -/
theorem readOnly_masked (page : ℕ) (hs : flag w pteShare = false) (hw : flag w pteW = false) :
    ReadOnly ⟨page, w ||| pteP⟩ := by
  rw [flag_share] at hs
  rw [flag_w] at hw
  have h1 : (pteP : BitVec 32).getLsbD 1 = false := by decide
  have h2 : (pteP : BitVec 32).getLsbD 10 = false := by decide
  refine ⟨?_, ?_⟩
  · rw [flag_w, BitVec.getLsbD_or, hw, h1]
    rfl
  · rw [flag_share, BitVec.getLsbD_or, hs, h2]
    rfl

/-- The permissions of a copy-on-write mapping. -/
theorem cow_perm (w : BitVec 32) : ((w &&& pteSyscall) ||| pteCow) &&& ~~~pteW ||| pteSyscall = pteSyscall ∧
    flag (((w &&& pteSyscall) ||| pteCow) &&& ~~~pteW) pteW = false ∧
    (flag w pteShare = false → flag (((w &&& pteSyscall) ||| pteCow) &&& ~~~pteW) pteShare = false) := by
  refine ⟨?_, ?_, fun hs => ?_⟩
  · have hcow : pteCow ||| pteSyscall = pteSyscall := by decide
    ext k hk
    have h1 := congrArg (fun x => x.getLsbD k) hcow
    simp only [BitVec.getLsbD_eq_getElem hk] at h1
    simp only [BitVec.getElem_or, BitVec.getElem_and]
    grind
  · have h1 : (pteW : BitVec 32).getLsbD 1 = true := by decide
    rw [flag_w, BitVec.getLsbD_and, BitVec.getLsbD_not, h1]
    simp
  · have h1 : (pteCow : BitVec 32).getLsbD 10 = false := by decide
    rw [flag_share] at hs ⊢
    rw [BitVec.getLsbD_and, BitVec.getLsbD_or, BitVec.getLsbD_and, hs, h1]
    rfl

/-- **`duppage`** of a page that is not shared leaves it read-only for both. -/
theorem duppage_self (ht : t va = some pte) (hs : flag pte.perm pteShare = false) (hc : tc va = none) :
    (∀ q, (duppage t tc va noMem).1 va = some q → ReadOnly q) ∧ ∀ q, (duppage t tc va noMem).2 va = some q → ReadOnly q := by
  -- what is mapped for the child, if it is
  have hchild : ∀ perm, flag perm pteShare = false → flag perm pteW = false →
      ∀ q, (sysPageMap t va tc va perm noMem).2 va = some q → ReadOnly q := by
    intro perm h1 h2 q hq
    rcases sysPageMap_cases t va tc va perm noMem with h3 | h3
    · rw [h3, hc] at hq
      cases hq
    · rw [h3, Function.update_self] at hq
      cases hq
      exact readOnly_masked _ h1 h2
  have hmask : flag (pte.perm &&& pteSyscall) pteShare = false := by
    rw [flag_share] at hs ⊢
    rw [BitVec.getLsbD_and, hs]
    rfl
  have hperm : syscallPerm t va = pte.perm &&& pteSyscall := by
    unfold syscallPerm
    rw [ht]
  unfold duppage
  rw [hperm]
  dsimp only
  rw [if_neg (by rw [hmask]; decide)]
  by_cases hw : (flag (pte.perm &&& pteSyscall) pteW || flag (pte.perm &&& pteSyscall) pteCow) = true
  · rw [if_pos hw]
    obtain ⟨h1, h2, h3⟩ := cow_perm pte.perm
    refine ⟨fun q hq => ?_, hchild _ (h3 hs) h2⟩
    rw [sysPageMap_made t va t va h1 h2] at hq
    dsimp only at hq
    rw [Function.update_self] at hq
    cases hq
    exact readOnly_masked _ (h3 hs) h2
  · rw [if_neg hw]
    rw [Bool.or_eq_true, not_or, Bool.not_eq_true, Bool.not_eq_true] at hw
    refine ⟨fun q hq => ?_, hchild _ hmask hw.1⟩
    cases ht.symm.trans hq
    refine ⟨?_, hs⟩
    have h1 := hw.1
    have h2 : (pteSyscall : BitVec 32).getLsbD 1 = true := by decide
    rw [flag_w, BitVec.getLsbD_and, h2, Bool.and_true] at h1
    rw [flag_w]
    exact h1

/-- **`fork`** leaves the page of `fsipcbuf` read-only, for the parent and for the child. -/
theorem forkTables_readOnly {noMem : Pg → Bool} (hs : ∀ q, t .fsipcbuf = some q → flag q.perm pteShare = false) :
    (∀ q, (forkTables t noMem).1 .fsipcbuf = some q → ReadOnly q) ∧
      ∀ q, (forkTables t noMem).2 .fsipcbuf = some q → ReadOnly q := by
  unfold forkTables
  simp only [List.foldl_cons, List.foldl_nil]
  -- the page behind it comes first
  obtain ⟨ts, hts⟩ : ∃ ts, ts = forkPage noMem (t, fun _ => none) .next := ⟨_, rfl⟩
  have h1 : ts.1 .fsipcbuf = t .fsipcbuf ∧ ts.2 .fsipcbuf = none := by
    rw [hts]
    unfold forkPage
    split
    · exact duppage_other nofun
    · exact ⟨rfl, rfl⟩
  rw [← hts]
  have h2 : (∀ q, (forkPage noMem ts .fsipcbuf).1 .fsipcbuf = some q → ReadOnly q) ∧
      ∀ q, (forkPage noMem ts .fsipcbuf).2 .fsipcbuf = some q → ReadOnly q := by
    unfold forkPage
    cases ht : t .fsipcbuf with
    | none =>
      rw [ht] at h1
      rw [h1.1, if_neg (by decide)]
      refine ⟨fun q hq => ?_, fun q hq => ?_⟩
      · rw [h1.1] at hq
        cases hq
      · rw [h1.2] at hq
        cases hq
    | some pte =>
      rw [ht] at h1
      rw [h1.1, if_pos (by rfl)]
      exact duppage_self h1.1 (hs pte ht) h1.2
  refine ⟨fun q hq => h2.1 q ?_, h2.2⟩
  unfold sysPageUnmap at hq
  rw [Function.update_of_ne (by decide : Pg.fsipcbuf ≠ .pftemp)] at hq
  exact hq

/-! ## Stores -/

theorem storeByte_own (h : storeByte t mem va i b = some mem') :
    ∃ pte, t va = some pte ∧ flag pte.perm pteU = true ∧ flag pte.perm pteW = true := by
  unfold storeByte at h
  obtain ⟨pte, ht, h⟩ := Option.bind_eq_some_iff.1 h
  split at h
  · rename_i hf
    rw [Bool.and_eq_true] at hf
    exact ⟨pte, ht, hf⟩
  · cases h

/-- **`pgfault`** that returns has put a page of its own in place. -/
theorem pgfault_own (hva : va ≠ .pftemp) (h : pgfault t mem va page = some (t', mem')) :
    (∃ q, t' va = some q ∧ Own q) ∧ ∀ va', va' ≠ va → va' ≠ .pftemp → t' va' = t va' := by
  have hrw : ¬ rwPerm ||| pteSyscall ≠ pteSyscall := by decide
  unfold pgfault sysPageAlloc at h
  rw [if_neg hrw] at h
  cases page with
  | none =>
    dsimp only at h
    rw [if_neg (by decide)] at h
    cases h
  | some n =>
    dsimp only at h
    rw [if_pos rfl] at h
    obtain ⟨m, -, h⟩ := Option.bind_eq_some_iff.1 h
    have hw : (!flag (rwPerm ||| pteP) pteW && flag rwPerm pteW) = false := by decide
    unfold sysPageMap at h
    rw [if_neg hrw] at h
    simp only [Function.update_self, Option.getD_some, hw, Bool.false_eq_true, if_false, lt_irrefl] at h
    cases h
    refine ⟨⟨⟨n, rwPerm ||| pteP⟩, ?_, own_rw n⟩, fun va' h1 h2 => ?_⟩
    · unfold sysPageUnmap
      rw [Function.update_of_ne hva, Function.update_self]
    · unfold sysPageUnmap
      rw [Function.update_of_ne h2, Function.update_of_ne h1, Function.update_of_ne h2]

/-- **A store** that is made: to a page that was writable, or to one that is now the process's own. -/
theorem store_own (hva : va ≠ .pftemp) (h : store t mem handler va i b page = some (t', mem')) :
    (∃ q, t' va = some q ∧ (t va = some q ∧ flag q.perm pteU = true ∧ flag q.perm pteW = true ∨ Own q)) ∧
      ∀ va', va' ≠ va → va' ≠ .pftemp → t' va' = t va' := by
  unfold store at h
  cases hs : storeByte t mem va i b with
  | some m =>
    rw [hs] at h
    cases h
    obtain ⟨q, h1, h2⟩ := storeByte_own hs
    exact ⟨⟨q, h1, Or.inl ⟨h1, h2⟩⟩, fun _ _ _ => rfl⟩
  | none =>
    rw [hs] at h
    dsimp only at h
    split at h
    · obtain ⟨⟨t₁, m₁⟩, h1, h⟩ := Option.bind_eq_some_iff.1 h
      obtain ⟨m₂, -, h⟩ := Option.bind_eq_some_iff.1 h
      cases h
      obtain ⟨⟨q, h2, h3⟩, h4⟩ := pgfault_own hva h1
      exact ⟨⟨q, h2, Or.inr h3⟩, h4⟩
    · cases h

/-! ## Calls -/

theorem bytesAt_first {bs : List Byte} (h : bs ≠ []) : ∃ x ∈ bytesAt 0 bs, x.1 < 4096 := by
  obtain ⟨b, bs, rfl⟩ := List.exists_cons_of_ne_nil h
  refine ⟨(0, b), ?_, Nat.zero_lt_succ _⟩
  unfold bytesAt
  rw [List.length_cons, List.range_succ_eq_map]
  exact List.mem_cons_self

/-- **All calls but `sync`** store to the page of `fsipcbuf` before they send it. -/
theorem Op.body_stores {op : Op} {type : BitVec 32} (h : op.body.2 = .fsipc type) :
    op = .sync ∧ type = fsreqSync ∨ type ≠ fsreqSync ∧ ∃ x ∈ op.body.1, x.1 < 4096 := by
  have hword : ∀ w : BitVec 32, ∃ x ∈ bytesAt 0 (Bytes.word32 w), x.1 < 4096 := fun w => bytesAt_first nofun
  have hpath : ∀ bs : List Byte, ∃ x ∈ bytesAt 0 (bs ++ [0]), x.1 < 4096 := fun bs => bytesAt_first (by simp)
  have happ : ∀ {l l' : List (ℕ × Byte)}, (∃ x ∈ l, x.1 < 4096) → ∃ x ∈ l ++ l', x.1 < 4096 :=
    fun ⟨x, hx, hlt⟩ => ⟨x, List.mem_append_left _ hx, hlt⟩
  -- every request but `sync` fills the page before it is sent
  cases op with
  | sync =>
    cases h
    exact Or.inl ⟨rfl, rfl⟩
  | «open» path mode fd =>
    unfold Op.body at h ⊢
    dsimp only at h ⊢
    split at h
    · cases h
    · split at h
      · cases h
      · rename_i h1 h2
        rw [if_neg h1, if_neg h2]
        cases h
        exact Or.inr ⟨by decide, happ (hpath path)⟩
  | read fileid n =>
    cases h
    exact Or.inr ⟨by decide, happ (hword fileid)⟩
  | write fileid buf =>
    unfold Op.body at h ⊢
    dsimp only at h ⊢
    split at h
    · rename_i h1
      rw [if_pos h1]
      cases h
      exact Or.inr ⟨by decide, happ (happ (hword fileid))⟩
    · cases h
  | fstat fileid =>
    cases h
    exact Or.inr ⟨by decide, hword fileid⟩
  | ftruncate fileid newsize =>
    cases h
    exact Or.inr ⟨by decide, happ (hword fileid)⟩
  | remove path =>
    unfold Op.body at h ⊢
    dsimp only at h ⊢
    split at h
    · cases h
    · rename_i h1
      rw [if_neg h1]
      cases h
      exact Or.inr ⟨by decide, hpath path⟩
  | close fileid =>
    cases h
    exact Or.inr ⟨by decide, hword fileid⟩

/-! ## Sends -/

/-- **A page that is its process's own** is not refused. -/
theorem trySend_own (e : Receiver) {q : Pte} (hq : t .fsipcbuf = some q) (ho : Own q) :
    sysIpcTrySend t e .fsipcbuf rwPerm ≠ -eInval := by
  have h1 : ¬ rwPerm &&& (pteU ||| pteP) ≠ pteU ||| pteP := by decide
  have h2 : ¬ rwPerm &&& ~~~pteSyscall ≠ 0 := by decide
  unfold sysIpcTrySend
  rw [if_neg h1, if_neg h2, hq]
  simp only [Option.getD_some, ho.w, Bool.not_true, Bool.false_and, Bool.false_eq_true, if_false]
  split
  · decide
  · split
    · decide
    · split
      · decide
      · decide

/-- **A page that is not writable**, or not there, is refused by a receiver that waits. -/
theorem trySend_readOnly {e : Receiver} (ha : e.alive = true) (hr : e.recving = true)
    (hq : ∀ q, t .fsipcbuf = some q → ReadOnly q) : sysIpcTrySend t e .fsipcbuf rwPerm = -eInval := by
  have h1 : ¬ rwPerm &&& (pteU ||| pteP) ≠ pteU ||| pteP := by decide
  have h2 : ¬ rwPerm &&& ~~~pteSyscall ≠ 0 := by decide
  have h3 : flag ((t .fsipcbuf).getD ⟨0, 0⟩).perm pteW = false := by
    cases ht : t .fsipcbuf with
    | none => decide
    | some q => exact (hq q ht).w
  have h4 : flag rwPerm pteW = true := by decide
  unfold sysIpcTrySend
  rw [if_neg h1, if_neg h2]
  simp only [ha, hr, h3, h4, Bool.not_true, Bool.not_false, Bool.and_self, Bool.false_eq_true, if_false, if_true]

/-! ## Runs -/

variable {ι : Type} [DecidableEq ι] {C : World ι → ι → Op → Prop} {w₀ w' : World ι} {c : ι}

/-- What holds of each process: its page is writable exactly after a store, and a store comes before every
send, but for one with a code of `X`. -/
structure Ok (X : BitVec 32 → Prop) (p : Process) : Prop where
  own : p.stored = true → ∃ q, p.table .fsipcbuf = some q ∧ Own q
  readOnly : p.stored = false → ∀ q, p.table .fsipcbuf = some q → ReadOnly q
  store : ∀ stores type, p.pc = .store stores (.fsipc type) → ¬ X type → p.stored = true ∨ ∃ x ∈ stores, x.1 < 4096
  send : ∀ type, p.pc = .send type → ¬ X type → p.stored = true
  panicked : (∀ type, ¬ X type) → p.pc ≠ .panicked (-eInval)

/-- In user mode nothing is left to send. -/
theorem Ok.of_user (ho : p.stored = true → ∃ q, p.table .fsipcbuf = some q ∧ Own q)
    (hr : p.stored = false → ∀ q, p.table .fsipcbuf = some q → ReadOnly q) (hp : p.pc = .user) : Ok X p where
  own := ho
  readOnly := hr
  store stores type h := by
    rw [hp] at h
    cases h
  send type h := by
    rw [hp] at h
    cases h
  panicked _ := by
    rw [hp]
    exact nofun

/-- The page is not shared with a child. -/
theorem Ok.share (h : Ok X p) {q : Pte} (hq : p.table .fsipcbuf = some q) : flag q.perm pteShare = false := by
  cases hs : p.stored with
  | true =>
    obtain ⟨q', h1, h2⟩ := h.own hs
    cases hq.symm.trans h1
    exact h2.share
  | false => exact (h.readOnly hs q hq).share

/-- **The page after a store** to `fsipcbuf`. -/
theorem Ok.stored_own (h : Ok X p) {va : Pg} (hva : va ≠ .pftemp)
    (hst : Client.store p.table mem p.handler va i b page = some (t', mem')) :
    (va = .fsipcbuf → ∃ q, t' .fsipcbuf = some q ∧ Own q) ∧ (va ≠ .fsipcbuf → t' .fsipcbuf = p.table .fsipcbuf) := by
  obtain ⟨⟨q, h1, h2⟩, h3⟩ := store_own hva hst
  refine ⟨?_, fun hne => h3 .fsipcbuf (Ne.symm hne) (by decide)⟩
  rintro rfl
  rcases h2 with ⟨h2, -, hw⟩ | h2
  · -- it was writable, so that there has been a store
    cases hs : p.stored with
    | true =>
      obtain ⟨q', h4, h5⟩ := h.own hs
      cases h2.symm.trans h4
      exact ⟨q, h1, h5⟩
    | false => cases hw.symm.trans (h.readOnly hs q h2).w
  · exact ⟨q, h1, h2⟩

namespace World

def AllOk (X : BitVec 32 → Prop) (w : World ι) : Prop := ∀ c, (w.proc c).pc = .free ∨ Ok X (w.proc c)

variable {w : World ι}

theorem AllOk.setProc (h : AllOk X w) (hp : p.pc = .free ∨ Ok X p) : AllOk X (w.setProc c p) := by
  intro d
  unfold World.setProc
  dsimp only
  by_cases hd : d = c
  · rw [hd, Function.update_self]
    exact hp
  · rw [Function.update_of_ne hd]
    exact h d

omit [DecidableEq ι] in
/-- A process that does something. -/
theorem AllOk.proc (h : AllOk X w) {pc : Pc} (hpc : (w.proc c).pc = pc) (hne : pc ≠ .free) : Ok X (w.proc c) := by
  rw [← hpc] at hne
  exact (h c).resolve_left hne

/-- A process that goes on without a change of its table. -/
theorem AllOk.setPc (h : AllOk X w) {pc₀ pc : Pc} (hpc : (w.proc c).pc = pc₀) (hne : pc₀ ≠ .free)
    (h1 : ∀ stores type, pc = .store stores (.fsipc type) → ¬ X type →
      (w.proc c).stored = true ∨ ∃ x ∈ stores, x.1 < 4096)
    (h2 : ∀ type, pc = .send type → ¬ X type → (w.proc c).stored = true)
    (h3 : (∀ type, ¬ X type) → pc ≠ .panicked (-eInval)) : AllOk X (w.setPc c pc) :=
  h.setProc (Or.inr ⟨(h.proc hpc hne).own, (h.proc hpc hne).readOnly, h1, h2, h3⟩)

omit [DecidableEq ι] in
theorem loaded_allOk (h : Loaded w) : AllOk X w := by
  intro c
  rcases h c with h1 | ⟨h1, h2, q, h3, h4⟩
  · exact Or.inl h1
  · apply Or.inr
    refine Ok.of_user (fun _ => ⟨q, h3, own_loaded h4⟩) (fun hs => ?_) h1
    rw [h2] at hs
    cases hs

theorem bufPage_ne (off : ℕ) : bufPage off ≠ .pftemp := by
  unfold bufPage
  split
  · decide
  · decide

theorem bufPage_eq (off : ℕ) : bufPage off = .fsipcbuf ↔ off < 4096 := by
  unfold bufPage
  split
  · rename_i h
    exact iff_of_true rfl h
  · rename_i h
    exact iff_of_false (by decide) h

/-- **A store** to `fsipcbuf`. -/
theorem AllOk.storeBuf {rest : List (ℕ × Byte)} {last : Last} (h : AllOk X w)
    (hpc : (w.proc c).pc = .store ((off, b) :: rest) last) : AllOk X (w.storeBuf c off b page (.store rest last)) := by
  have hp := h.proc hpc nofun
  unfold World.storeBuf
  dsimp only
  cases hst : store (w.proc c).table w.mem (w.proc c).handler (bufPage off) (off % 4096) b page with
  | none => exact h.setPc hpc nofun nofun nofun (fun _ => nofun)
  | some tm =>
    obtain ⟨h1, h2⟩ := hp.stored_own (bufPage_ne off) hst
    rw [bufPage_eq] at h1
    rw [Ne, bufPage_eq] at h2
    refine h.setProc (Or.inr ⟨?_, ?_, ?_, nofun, fun _ => nofun⟩)
    · -- writable after the store, or still
      intro hs
      dsimp only at hs ⊢
      by_cases hlt : off < 4096
      · exact h1 hlt
      · rw [h2 hlt]
        rw [decide_eq_false hlt, Bool.or_false] at hs
        exact hp.own hs
    · intro hs
      dsimp only at hs ⊢
      rw [Bool.or_eq_false_iff, decide_eq_false_iff_not] at hs
      rw [h2 hs.2]
      exact hp.readOnly hs.1
    · intro stores type heq hX
      dsimp only at heq ⊢
      cases heq
      rcases hp.store _ type hpc hX with h3 | ⟨x, hx, hlt⟩
      · rw [h3]
        exact Or.inl rfl
      · rcases List.mem_cons.1 hx with rfl | hx
        · rw [decide_eq_true hlt, Bool.or_true]
          exact Or.inl rfl
        · exact Or.inr ⟨x, hx, hlt⟩

/-- **`ipc_send`** with a page of the process's own. -/
theorem AllOk.ipcSend {type : BitVec 32} {e : Receiver} (h : AllOk X w) (hpc : (w.proc c).pc = .send type) :
    AllOk X (w.ipcSend c e) := by
  unfold World.ipcSend
  dsimp only
  split
  · refine h.setPc hpc nofun nofun nofun (fun hX heq => ?_)
    obtain ⟨q, h1, h2⟩ := (h.proc hpc nofun).own ((h.proc hpc nofun).send type hpc (hX type))
    exact trySend_own e h1 h2 (Pc.panicked.inj heq)
  · split
    · exact h
    · exact h.setPc hpc nofun nofun nofun (fun _ => nofun)

/-- **`fork`**. -/
theorem AllOk.fork {child : ι} {noMem : Pg → Bool} (h : AllOk X w) (hpc : (w.proc c).pc = .user) :
    AllOk X (w.fork c child noMem) := by
  have hs : ∀ q, (w.proc c).table .fsipcbuf = some q → flag q.perm pteShare = false := fun _ hq =>
    (h.proc hpc nofun).share hq
  unfold World.fork
  refine AllOk.setProc (AllOk.setProc h (Or.inr ?_)) (Or.inr ?_)
  · exact Ok.of_user nofun (fun _ => (forkTables_readOnly hs).1) hpc
  · exact Ok.of_user nofun (fun _ => (forkTables_readOnly hs).2) rfl

/-- **One step.** A call of `sync` needs a store before it, unless its code is exempt. -/
theorem Step.ok (hC : ∀ w c op, C w c op → op = .sync → ¬ X fsreqSync → (w.proc c).stored = true) (h : AllOk X w)
    (hs : Step C w w') : AllOk X w' := by
  cases hs with
  | call op hpc hop =>
    rename_i c
    refine h.setPc hpc nofun (fun stores type heq hX => ?_) nofun (fun _ => nofun)
    obtain ⟨h1, h2⟩ := Pc.store.inj heq
    rcases Op.body_stores h2 with ⟨h3, h4⟩ | ⟨-, h3⟩
    · rw [h4] at hX
      exact Or.inl (hC w c op hop h3 hX)
    · rw [h1] at h3
      exact Or.inr h3
  | store hpc => exact h.storeBuf hpc
  | fsipc hpc =>
    rename_i c type
    refine h.setPc hpc nofun nofun (fun type' heq hX => ?_) (fun _ => nofun)
    cases heq
    rcases (h.proc hpc nofun).store [] type hpc hX with h1 | ⟨x, hx, -⟩
    · exact h1
    · cases hx
  | ret hpc => exact h.setPc hpc nofun nofun nofun (fun _ => nofun)
  | panic hpc => exact h.setPc hpc nofun nofun nofun (fun _ => nofun)
  | send hpc _ => exact h.ipcSend hpc
  | reply mem hpc => exact h.setPc hpc nofun nofun nofun (fun _ => nofun)
  | fork hpc _ => exact h.fork hpc
  | forkPanic hpc => exact h.setPc hpc nofun nofun nofun (fun _ => nofun)
  | exit hpc => exact h.setPc hpc nofun nofun nofun (fun _ => nofun)

/-- **A run.** -/
theorem Run.ok (hC : ∀ w c op, C w c op → op = .sync → ¬ X fsreqSync → (w.proc c).stored = true) (h : Loaded w₀)
    (hr : Run C w₀ w) : AllOk X w := by
  induction hr with
  | refl => exact loaded_allOk h
  | tail _ hs ih => exact hs.ok hC ih

/-- `sys_ipc_try_send` does not refuse the page of `fsipcbuf`. -/
def Sendable (w : World ι) (c : ι) : Prop :=
  ∀ e : Receiver, e.alive = true → sysIpcTrySend (w.proc c).table e .fsipcbuf rwPerm ≠ -eInval

omit [DecidableEq ι] in
theorem AllOk.sendable_iff (h : AllOk X w) {pc : Pc} (hpc : (w.proc c).pc = pc) (hne : pc ≠ .free) :
    Sendable w c ↔ (w.proc c).stored = true := by
  constructor
  · intro hs
    cases hst : (w.proc c).stored with
    | true => rfl
    | false => exact absurd (trySend_readOnly rfl rfl ((h.proc hpc hne).readOnly hst)) (hs ⟨true, true, false⟩ rfl)
  · intro hst e _
    obtain ⟨q, h1, h2⟩ := (h.proc hpc hne).own hst
    exact trySend_own e h1 h2

/-- **Requests can be sent**: if every call of `sync` comes after a store to the page of `fsipcbuf`, then the
page of every request is accepted, and `ipc_send` never panics with `-E_INVAL`. In any run, the page of a
request is accepted exactly after a store; and that is so of every request other than that of `sync`. -/
theorem requests_sendable (h : Loaded w₀) :
    (∀ w, Run (fun w c op => op = .sync → (w.proc c).stored = true) w₀ w → ∀ c,
      (w.proc c).pc ≠ .panicked (-eInval) ∧ ∀ type, (w.proc c).pc = .send type → Sendable w c) ∧
    ∀ w, Run (fun _ _ _ => True) w₀ w → ∀ c type, (w.proc c).pc = .send type →
      (Sendable w c ↔ (w.proc c).stored = true) ∧ (type ≠ fsreqSync → (w.proc c).stored = true) := by
  refine ⟨fun w hr c => ?_, fun w hr c type hpc => ?_⟩
  · have hok : AllOk (fun _ => False) w := Run.ok (fun w c op hop hsync _ => hop hsync) h hr
    refine ⟨fun hpc => ?_, fun type hpc => ?_⟩
    · exact (hok.proc hpc nofun).panicked (fun _ => id) hpc
    · exact (hok.sendable_iff hpc nofun).2 ((hok.proc hpc nofun).send type hpc id)
  · have hok : AllOk (fun type => type = fsreqSync) w := Run.ok (fun _ _ _ _ _ hX => absurd rfl hX) h hr
    exact ⟨hok.sendable_iff hpc nofun, fun hty => (hok.proc hpc nofun).send type hpc hty⟩

/-- A process that was just loaded, alone. -/
def start : World ℕ where
  proc c := {
    table := fun va => if va = .fsipcbuf then some ⟨1, rwPerm⟩ else none
    handler := false
    pc := if c = 0 then .user else .free
    stored := true }
  mem _ := ⟨fun _ => 0⟩

theorem start_loaded : Loaded start := by
  intro c
  by_cases hc : c = 0
  · rw [hc]
    exact Or.inr ⟨rfl, rfl, ⟨1, rwPerm⟩, rfl, by decide⟩
  · exact Or.inl (if_neg hc)

/-- The process forks, and calls `sync`. -/
def started : World ℕ := start.fork 0 1 (fun _ => false)

def called : World ℕ := started.setPc 0 (.store Op.sync.body.1 Op.sync.body.2)

def sending : World ℕ := called.setPc 0 (.send fsreqSync)

/-- **The request of `sync` after a `fork`** is refused, and `ipc_send` panics. -/
theorem requests_sendable_counterexample : Loaded start ∧
    Run (fun _ _ _ => True) start (sending.ipcSend 0 ⟨true, true, false⟩) ∧
    ¬ Sendable sending 0 ∧ ((sending.ipcSend 0 ⟨true, true, false⟩).proc 0).pc = .panicked (-eInval) := by
  have hr : sysIpcTrySend (sending.proc 0).table ⟨true, true, false⟩ .fsipcbuf rwPerm = -eInval := by decide
  refine ⟨start_loaded, ?_, fun hs => hs ⟨true, true, false⟩ rfl hr, ?_⟩
  · apply Relation.ReflTransGen.head (b := started) (Step.fork rfl rfl)
    apply Relation.ReflTransGen.head (b := called) (Step.call .sync rfl trivial)
    apply Relation.ReflTransGen.head (b := sending) (Step.fsipc rfl)
    exact Relation.ReflTransGen.single (Step.send rfl rfl)
  · unfold World.ipcSend
    rw [hr, if_pos (by decide)]
    rfl

/-- Of the requests of one process. -/
theorem requests_sendable_one :
    (∀ w, Run (fun w c op => op = .sync → (w.proc c).stored = true) start w → ∀ c,
      (w.proc c).pc ≠ .panicked (-eInval) ∧ ∀ type, (w.proc c).pc = .send type → Sendable w c) ∧
    ∀ w, Run (fun _ _ _ => True) start w → ∀ c type, (w.proc c).pc = .send type →
      (Sendable w c ↔ (w.proc c).stored = true) ∧ (type ≠ fsreqSync → (w.proc c).stored = true) :=
  requests_sendable start_loaded

end World

end Jos.Client
