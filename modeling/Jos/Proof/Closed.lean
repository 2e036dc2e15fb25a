import Jos.Spec.Closed
import Jos.Proof.Counts

/-!
# When a pipe is reported closed

`_pipeisclosed` compares two counts that it reads one after the other. If no count of the pipe
changes in between, they are equal only if the other end is closed (`WorldInv.peer_closed`), and
a closed end stays closed. Where `env_runs` is unchanged the process was in user mode all the
time, so on one CPU no other process acted (`one_cpu_undisturbed`); on several CPUs another
process can act between the two reads (`reports_closed_counterexample`).
-/

namespace Jos.Fd

open Lib Prog World

variable {P : Pipe} {w w' : World} {va : Va} {p q : ℕ} {e x c : EnvIdx} {fd : Fin 32} {ch : Choice}
  {C : World → EnvIdx → Choice → Prop} {u v : User Unit}

/-! ## What one process leaves of the others -/

section EnvFree

variable (hP : 0 ∉ P.pages) (hcount : Counted P w)
include hP hcount

theorem table_envFree_self : (w.envFree e).table e va = none := by
  obtain ⟨-, -, -, h4⟩ := envFree_fold (e := e) hP hcount (List.finRange 64)
  unfold World.envFree
  generalize (List.finRange 64).foldl
    (fun w va => if (w.table e va).isSome then w.pageRemove e va else w) w = w₁ at h4
  exact (h4 va).trans (if_pos (List.mem_finRange va))

theorem table_envFree_of_ne (hne : x ≠ e) : (w.envFree e).table x = w.table x := by
  obtain ⟨-, -, h3, -⟩ := envFree_fold (e := e) hP hcount (List.finRange 64)
  unfold World.envFree
  generalize (List.finRange 64).foldl
    (fun w va => if (w.table e va).isSome then w.pageRemove e va else w) w = w₁ at h3
  exact h3 x hne

theorem run_envFree_of_ne (hne : x ≠ e) : (w.envFree e).run x = w.run x := by
  obtain ⟨-, h2, -, -⟩ := envFree_fold (e := e) hP hcount (List.finRange 64)
  unfold World.envFree
  generalize (List.finRange 64).foldl
    (fun w va => if (w.table e va).isSome then w.pageRemove e va else w) w = w₁ at h2
  exact (run_setRun_of_ne hne).trans (congrFun h2 x)

end EnvFree

/-- A process that is not at work is left alone. -/
theorem act_other (hP : 0 ∉ P.pages) (h : WorldInv P w) (hact : Act P (ForkMaps P) e w w') (hne : x ≠ e)
    (hx : w.run x = .running u) : w'.table x = w.table x ∧ w'.run x = w.run x := by
  cases hact with
  | start op hi => exact ⟨rfl, run_setRun_of_ne hne⟩
  | pipe hi _ _ _ _ _ _ =>
    unfold World.pipe
    simp only [run_pageInsert, table_insert_of_ne hne, and_self]
  | other hi hp => exact ⟨Function.update_of_ne hne _ _, rfl⟩
  | @sys _ ch hC hs =>
    unfold World.sysStep at hs
    rcases hrun : w.run e with _ | parent | (_ | ⟨s, k⟩) <;> rw [hrun] at hs
    · cases hs
    · cases hs
    · cases hs
    by_cases hd : s = .envDestroy
    · subst hd
      obtain rfl := Option.some.inj hs
      exact ⟨table_envFree_of_ne hP h.count hne, run_envFree_of_ne hP h.count hne⟩
    · have hs' : ((w.exec e ch s).map fun x => x.2.setRun e (.running (k x.1))) = some w' := by
        cases s <;> first | exact hs | exact absurd rfl hd
      obtain ⟨⟨r, w₁⟩, h1, rfl⟩ := Option.map_eq_some_iff.1 hs'
      obtain ⟨-, h3⟩ := exec_cases hrun hP (fun srcva env dstva perm hs hp => by
        subst hs
        exact hC srcva env dstva perm k hrun hp) h1
      have h4 : w₁.table x = w.table x ∧ w₁.run x = w.run x := by
        rcases h3 with ⟨hr, ⟨c, hc, ht⟩, -⟩ | ⟨env, hfree, rfl⟩ | ⟨env, -, hemb, rfl⟩
        · have hxc : x ≠ c := by
            rintro rfl
            rcases hc with rfl | hc
            · exact hne rfl
            · rw [hx] at hc
              cases hc
          exact ⟨ht x hxc, congrFun hr x⟩
        · have hxe : x ≠ env := by
            rintro rfl
            rw [hx] at hfree
            cases hfree
          exact ⟨Function.update_of_ne hxe _ _, run_setRun_of_ne hxe⟩
        · have hxe : x ≠ env := by
            rintro rfl
            rw [hx] at hemb
            cases hemb
          exact ⟨rfl, run_setRun_of_ne hxe⟩
      exact ⟨h4.1, (run_setRun_of_ne hne).trans h4.2⟩

/-- Every page of the tables is in the tables of `w` too. -/
def NoNew (p : ℕ) (w w' : World) : Prop := ∀ x va, w'.page x va = some p → ∃ x va, w.page x va = some p

theorem NoNew.refl : NoNew p w w := fun x va h => ⟨x, va, h⟩

theorem noNew_setPte (h : ∀ pte', pte = some pte' → pte'.page = p → ∃ x va, w.page x va = some p) :
    NoNew p w (w.setPte e va pte) := by
  intro x va' h1
  by_cases hs : (x, va') = (e, va)
  · cases hs
    rw [page_setPte] at h1
    obtain ⟨pte', h2, h3⟩ := Option.map_eq_some_iff.1 h1
    exact h pte' h2 h3
  · have h2 : slots (w.setPte e va pte) (x, va') = slots w (x, va') := slots_setPte hs
    exact ⟨x, va', h2.symm.trans h1⟩

theorem noNew_pageMap {r : ℤ} {srcva dstva : Va} {noMem : Bool} (hp : p ≠ 0)
    (h : w.pageMap e srcva c dstva perm noMem = (r, w')) : NoNew p w w' := by
  rcases pageMap_cases (w := w) (e := e) (c := c) srcva dstva perm noMem with ⟨r₁, -, h2, -⟩ | h1
  · rw [h2] at h
    cases h
    exact .refl
  · rw [h1] at h
    cases h
    have h2 : NoNew p w (w.setPte c dstva (some ⟨(w.pageLookup e srcva).page, perm ||| pteP⟩)) :=
      noNew_setPte fun pte' h2 h3 => by
        cases h2
        exact ⟨e, srcva, (pageLookup_page hp).1 h3⟩
    intro x va h3
    refine h2 x va ?_
    unfold World.page at *
    rwa [table_pageInsert] at h3

/-- **No call brings a page into the tables** that was in none, but for page 0. -/
theorem sys_noNew (hP : 0 ∉ P.pages) (hcount : Counted P w) (hs : w.sysStep e ch = some w') (hp : p ≠ 0) :
    NoNew p w w' := by
  unfold World.sysStep at hs
  rcases hrun : w.run e with _ | parent | (_ | ⟨s, k⟩) <;> rw [hrun] at hs
  · cases hs
  · cases hs
  · cases hs
  by_cases hd : s = .envDestroy
  · subst hd
    obtain rfl := Option.some.inj hs
    intro x va h
    refine ⟨x, va, ?_⟩
    unfold World.page at *
    by_cases hx : x = e
    · subst hx
      rw [table_envFree_self hP hcount] at h
      cases h
    · rwa [table_envFree_of_ne hP hcount hx] at h
  · have hs' : ((w.exec e ch s).map fun x => x.2.setRun e (.running (k x.1))) = some w' := by
      cases s <;> first | exact hs | exact absurd rfl hd
    obtain ⟨⟨r, w₁⟩, h, rfl⟩ := Option.map_eq_some_iff.1 hs'
    suffices hno : NoNew p w w₁ from hno
    cases s with
    | uvpt =>
      simp only [World.exec, Option.some.injEq] at h
      cases h
      exact .refl
    | pageMap srcva dst dstva perm =>
      cases dst with
      | none =>
        simp only [World.exec] at h
        exact noNew_pageMap hp (Option.some.inj h)
      | some env =>
        simp only [World.exec] at h
        split at h
        · split at h
          · exact noNew_pageMap hp (Option.some.inj h)
          · cases h
            exact .refl
        · cases h
          exact .refl
    | pageUnmap va =>
      simp only [World.exec, Option.some.injEq] at h
      cases h
      exact noNew_setPte (w := w.decRef _) (by simp)
    | exofork =>
      simp only [World.exec] at h
      split at h
      · cases h
        exact .refl
      · split at h
        · cases h
          intro x va h1
          refine ⟨x, va, ?_⟩
          by_cases hx : x = ch.env
          · subst hx
            simp [World.page, World.setRun] at h1
          · simpa [World.page, World.setRun, Function.update_of_ne hx] using h1
        · cases h
    | setRunnable env =>
      simp only [World.exec] at h
      split at h
      · split at h
        · cases h
          exact .refl
        · cases h
          exact .refl
      · cases h
        exact .refl
    | envDestroy => exact absurd rfl hd

/-- **A page of the pipe that is in no table** stays out while another one is in some table. -/
theorem act_absent (hP : 0 ∉ P.pages) (h : WorldInv P w) (hact : Act P C e w w') (hp : p ∈ P.pages)
    (hq : q ∈ P.pages) (hno : ∀ x va, w.page x va ≠ some p) (hsome : w.page x va = some q) :
    ∀ x va, w'.page x va ≠ some p := by
  have hp0 : p ≠ 0 := fun h0 => hP (h0 ▸ hp)
  suffices hnew : NoNew p w w' from fun x va h1 => (hnew x va h1).elim fun x ⟨va, h2⟩ => hno x va h2
  cases hact with
  | start op hi => exact .refl
  | sys hC hs => exact sys_noNew hP h.count hs hp0
  | pipe hi _ _ _ hr hw hd =>
    have h1 : w.ppRef q = 0 := by
      rcases hq with rfl | rfl | rfl
      · exact hr
      · exact hw
      · exact hd
    have h2 := h.ppRef hq
    rw [h1] at h2
    exact absurd hsome (refs_eq_zero.1 h2.symm (x, va))
  | other hi hpages =>
    intro x va h1
    have h2 := noNew_setPte (w := w) (e := e) (p := p) (fun pte' h2 h3 => ?_) x va h1
    · exact h2
    · exact absurd (by rw [h2]; exact congrArg some h3) (hpages p hp).2.1

/-! ## Equal counts -/

theorem peerClosed_of (h : ¬ IsEnd P (w.table x) fd) : PeerClosed P w x fd :=
  ⟨fun h1 => absurd (Or.inl h1) h, fun h1 => absurd (Or.inr h1) h⟩

theorem PeerClosed.act (hP : 0 ∉ P.pages) (h : WorldInv P w) (hact : Act P C e w w')
    (htab : w'.table x = w.table x) (hpc : PeerClosed P w x fd) : PeerClosed P w' x fd := by
  have hpage : w'.page x (index2fd fd) = w.page x (index2fd fd) := by
    unfold World.page
    rw [htab]
  refine ⟨fun h1 => ?_, fun h1 => ?_⟩ <;> rw [hpage] at h1
  · exact act_absent hP h hact (Or.inr (Or.inl rfl)) (Or.inl rfl) (hpc.1 h1) h1
  · exact act_absent hP h hact (Or.inl rfl) (Or.inr (Or.inl rfl)) (hpc.2 h1) h1

theorem WorldInv.data (h : WorldInv P w) (hi : w.Idle x) (hend : IsEnd P (w.table x) fd) :
    w.page x (index2data fd) = some P.d := ((h.idle hi).1.iff fd).1 hend

/-- The count of the data page is that of an end, or above it. -/
theorem WorldInv.le_data (h : WorldInv P w) (hq : q = P.r ∨ q = P.w) : (w.ppRef q).toNat ≤ (w.ppRef P.d).toNat := by
  have hle := refs_le h.covered
  have hmem : q ∈ P.pages := by
    rcases hq with rfl | rfl
    · exact Or.inl rfl
    · exact Or.inr (Or.inl rfl)
  rw [h.ppRef hmem, h.ppRef (Or.inr (Or.inr rfl))]
  rcases hq with rfl | rfl <;> omega

/-- **Where the two counts are equal the other end is closed.** -/
theorem WorldInv.peer_closed (h : WorldInv P w)
    (heq : ∀ q, w.page x (index2fd fd) = some q → q = P.r ∨ q = P.w → (w.ppRef q).toNat = (w.ppRef P.d).toNat) :
    PeerClosed P w x fd := by
  have hle := refs_le h.covered
  have hd := h.ppRef (p := P.d) (Or.inr (Or.inr rfl))
  refine ⟨fun h1 e' va => ?_, fun h1 e' va => ?_⟩
  · have h2 := heq _ h1 (Or.inl rfl)
    rw [hd, h.ppRef (Or.inl rfl)] at h2
    exact refs_eq_zero.1 (show refs (slots w) P.w = 0 by omega) (e', va)
  · have h2 := heq _ h1 (Or.inr rfl)
    rw [hd, h.ppRef (Or.inr (Or.inl rfl))] at h2
    exact refs_eq_zero.1 (show refs (slots w) P.r = 0 by omega) (e', va)

/-! ## The reads -/

namespace Smp

variable {K : Type} {σ σ' : Smp K}

/-- Process `x` has been in user mode since it read `n` from `env_runs`. -/
def Since (σ : Smp K) (x : EnvIdx) (n : ℕ) : Prop := n = σ.envRuns x ∧ σ.Current x

/-- A step of the processes does no harm to a process that stands between its reads: if that has
read the count of its end, the count of the data page does not fall; if it has read the count of
the data page, that of its end does not rise. -/
def Undisturbed (P : Pipe) (σ : Smp K) (w' : World) : Prop := ∀ x u fd n r,
  (σ.phase x = .readFd u fd n r → Since σ x n → IsEnd P (σ.world.table x) fd →
    (σ.world.ppRef P.d).toNat ≤ (w'.ppRef P.d).toNat) ∧
  (σ.phase x = .readData u fd n r → Since σ x n → ∀ q, σ.world.page x (index2fd fd) = some q →
    q = P.r ∨ q = P.w → (w'.ppRef q).toNat ≤ (σ.world.ppRef q).toNat)

/-- What is known in a phase. -/
def Known (P : Pipe) (σ : Smp K) (x : EnvIdx) : Phase → Prop
  | .readFd _ fd n r => n ≤ σ.envRuns x ∧ (Since σ x n → IsEnd P (σ.world.table x) fd →
      r ≤ (σ.world.ppRef P.d).toNat ∧ (r = (σ.world.ppRef P.d).toNat → PeerClosed P σ.world x fd))
  | .readData _ fd n r => n ≤ σ.envRuns x ∧ (Since σ x n → ∀ q, σ.world.page x (index2fd fd) = some q →
      q = P.r ∨ q = P.w →
        (σ.world.ppRef q).toNat ≤ r ∧ ((σ.world.ppRef q).toNat = r → PeerClosed P σ.world x fd))
  | .counted _ _ n => n ≤ σ.envRuns x
  | .compared _ fd n b => n ≤ σ.envRuns x ∧ (Since σ x n → b = true → PeerClosed P σ.world x fd)
  | .returned .isClosed fd r => r = 1 → PeerClosed P σ.world x fd
  | .returned (.read n _) fd r => 0 < n → r = 0 → PeerClosed P σ.world x fd
  | .returned (.write n _) fd r => 0 < n → r = 0 → PeerClosed P σ.world x fd
  | _ => True

/-- The invariant. -/
structure Inv (P : Pipe) (σ : Smp K) : Prop where
  world : WorldInv P σ.world
  idle : ∀ x, σ.phase x ≠ .out → σ.world.Idle x
  known : ∀ x, Known P σ x (σ.phase x)

theorem Known.act (hP : 0 ∉ P.pages) {x : EnvIdx} (h : WorldInv P σ.world) (hact : World.Act P C e σ.world w')
    (htab : w'.table x = σ.world.table x) (hd : Undisturbed P σ w') (hk : Known P σ x (σ.phase x)) :
    Known P { σ with world := w' } x (σ.phase x) := by
  have hpc : ∀ fd, PeerClosed P σ.world x fd → PeerClosed P w' x fd := fun fd => .act hP h hact htab
  have hpage : ∀ va, w'.page x va = σ.world.page x va := fun va => by
    unfold World.page
    rw [htab]
  cases hph : σ.phase x with
  | out => trivial
  | io u fd => trivial
  | top u fd => trivial
  | counted u fd n =>
    rw [hph] at hk
    exact hk
  | readFd u fd n r =>
    rw [hph] at hk
    refine ⟨hk.1, fun hs hend => ?_⟩
    have hend' : IsEnd P (σ.world.table x) fd := by
      have h1 : IsEnd P (w'.table x) fd := hend
      rwa [htab] at h1
    have h1 := (hd x u fd n r).1 hph hs hend'
    obtain ⟨h2, h3⟩ := hk.2 hs hend'
    exact ⟨h2.trans h1, fun h4 => hpc fd (h3 (le_antisymm h2 (h4 ▸ h1)))⟩
  | readData u fd n r =>
    rw [hph] at hk
    refine ⟨hk.1, fun hs q hq hqe => ?_⟩
    have hq' : σ.world.page x (index2fd fd) = some q := (hpage _).symm.trans hq
    have h1 := (hd x u fd n r).2 hph hs q hq' hqe
    obtain ⟨h2, h3⟩ := hk.2 hs q hq' hqe
    exact ⟨h1.trans h2, fun h4 => hpc fd (h3 (le_antisymm h2 (h4 ▸ h1)))⟩
  | compared u fd n b =>
    rw [hph] at hk
    exact ⟨hk.1, fun hs hb => hpc fd (hk.2 hs hb)⟩
  | returned u fd r =>
    rw [hph] at hk
    cases u with
    | isClosed => exact fun h1 => hpc fd ((show r = 1 → _ from hk) h1)
    | read n i => exact fun h1 h2 => hpc fd ((show 0 < n → r = 0 → _ from hk) h1 h2)
    | write n i => exact fun h1 h2 => hpc fd ((show 0 < n → r = 0 → _ from hk) h1 h2)

@[simp] theorem phase_setPhase_self {ph : Phase} : (σ.setPhase e ph).phase e = ph := Function.update_self ..

/-- Nothing is forgotten when a process goes on, and nothing is to be known when it is run again. -/
theorem Known.mono {x : EnvIdx} {ph : Phase} (hw : σ'.world = σ.world) (hr : σ.envRuns x ≤ σ'.envRuns x)
    (hs : ∀ n, n ≤ σ.envRuns x → Since σ' x n → Since σ x n) (h : Known P σ x ph) : Known P σ' x ph := by
  cases ph with
  | out => trivial
  | io u fd => trivial
  | top u fd => trivial
  | counted u fd n => exact le_trans h hr
  | readFd u fd n r =>
    refine ⟨h.1.trans hr, ?_⟩
    rw [hw]
    exact fun h1 => h.2 (hs n h.1 h1)
  | readData u fd n r =>
    refine ⟨h.1.trans hr, ?_⟩
    rw [hw]
    exact fun h1 => h.2 (hs n h.1 h1)
  | compared u fd n b =>
    refine ⟨h.1.trans hr, ?_⟩
    rw [hw]
    exact fun h1 => h.2 (hs n h.1 h1)
  | returned u fd r =>
    cases u <;>
    · unfold Known at *
      rw [hw]
      exact h

theorem pageref_of_page {va : Va} (h : w.page x va = some q) : pageref w x va = (w.ppRef q).toNat := by
  unfold World.page at h
  obtain ⟨pte, h1, rfl⟩ := Option.map_eq_some_iff.1 h
  unfold pageref
  rw [h1]

section Next

variable {x : EnvIdx} {n r : ℕ} {use : Use} (h : Inv P σ)
include h

/-- The count of the end is read first. -/
theorem Known.readFd (hn : n ≤ σ.envRuns x) :
    Known P σ x (.readFd use fd n (pageref σ.world x (index2fd fd))) := by
  refine ⟨hn, fun _ hend => ?_⟩
  obtain ⟨q, hq, hqe⟩ : ∃ q, σ.world.page x (index2fd fd) = some q ∧ (q = P.r ∨ q = P.w) :=
    hend.elim (fun h1 => ⟨_, h1, Or.inl rfl⟩) fun h1 => ⟨_, h1, Or.inr rfl⟩
  rw [pageref_of_page hq]
  refine ⟨h.world.le_data hqe, fun h1 => h.world.peer_closed fun q' hq' _ => ?_⟩
  obtain rfl := Option.some.inj (hq.symm.trans hq')
  exact h1

/-- The count of the data page is read first. -/
theorem Known.readData (hi : σ.world.Idle x) (hn : n ≤ σ.envRuns x) :
    Known P σ x (.readData use fd n (pageref σ.world x (index2data fd))) := by
  refine ⟨hn, fun _ q hq hqe => ?_⟩
  have hend : IsEnd P (σ.world.table x) fd := by
    rcases hqe with rfl | rfl
    · exact Or.inl hq
    · exact Or.inr hq
  rw [pageref_of_page (h.world.data hi hend)]
  refine ⟨h.world.le_data hqe, fun h1 => h.world.peer_closed fun q' hq' _ => ?_⟩
  obtain rfl := Option.some.inj (hq.symm.trans hq')
  exact h1

/-- **The next step of a process** in one of the functions. -/
theorem Known.next (hc : σ.Current x) (b : Bool) : Known P σ x (σ.next x b (σ.phase x)) := by
  have hk := h.known x
  cases hph : σ.phase x with
  | out => trivial
  | io use fd =>
    cases use with
    | isClosed => trivial
    | read n i =>
      unfold Smp.next
      dsimp only
      split_ifs with h1 h2 h3
      · trivial
      · exact fun _ h4 => absurd h4 (by omega)
      · trivial
      · exact fun h4 h5 => absurd h4 (by omega)
    | write n i =>
      unfold Smp.next
      dsimp only
      split_ifs with h1 h2
      · trivial
      · trivial
      · exact fun h4 h5 => absurd h4 (by omega)
  | top use fd => exact le_refl _
  | counted use fd n =>
    rw [hph] at hk
    have hi := h.idle x (by rw [hph]; nofun)
    unfold Smp.next
    dsimp only
    split_ifs
    · exact .readFd h hk
    · exact .readData h hi hk
  | readFd use fd n r =>
    rw [hph] at hk
    have hi := h.idle x (by rw [hph]; nofun)
    refine ⟨hk.1, fun hs hb => ?_⟩
    by_cases hend : IsEnd P (σ.world.table x) fd
    · rw [beq_iff_eq, pageref_of_page (h.world.data hi hend)] at hb
      exact (hk.2 hs hend).2 hb
    · exact peerClosed_of hend
  | readData use fd n r =>
    rw [hph] at hk
    refine ⟨hk.1, fun hs hb => ?_⟩
    by_cases hend : IsEnd P (σ.world.table x) fd
    · obtain ⟨q, hq, hqe⟩ : ∃ q, σ.world.page x (index2fd fd) = some q ∧ (q = P.r ∨ q = P.w) :=
        hend.elim (fun h1 => ⟨_, h1, Or.inl rfl⟩) fun h1 => ⟨_, h1, Or.inr rfl⟩
      rw [beq_iff_eq, pageref_of_page hq] at hb
      exact (hk.2 hs q hq hqe).2 hb
    · exact peerClosed_of hend
  | compared use fd n b =>
    rw [hph] at hk
    unfold Smp.next
    dsimp only
    split_ifs with hn
    · -- no interruption between the two reads
      have h1 : b = true → PeerClosed P σ.world x fd := hk.2 ⟨hn, hc⟩
      cases use with
      | isClosed =>
        refine fun h2 => h1 ?_
        cases b
        · cases h2
        · rfl
      | read n i =>
        unfold back
        dsimp only
        split_ifs with h2
        · exact fun _ _ => h1 h2
        · trivial
      | write n i =>
        unfold back
        dsimp only
        split_ifs with h2
        · exact fun _ _ => h1 h2
        · trivial
    · trivial
  | returned use fd r => trivial

end Next

/-- **A step** keeps the invariant. -/
theorem Inv.step [DecidableEq K] (hP : 0 ∉ P.pages) (h : Inv P σ) (hs : Step P (ForkMaps P) (Undisturbed P) σ σ') :
    Inv P σ' := by
  have hset : ∀ e ph, (ph ≠ .out → σ.world.Idle e) → Known P σ e ph → Inv P (σ.setPhase e ph) := by
    intro e ph hi hk
    refine ⟨h.world, fun x hx => ?_, fun x => ?_⟩
    · by_cases hxe : x = e
      · subst hxe
        unfold setPhase at hx
        simp only [Function.update_self] at hx
        exact hi hx
      · unfold setPhase at hx
        simp only [Function.update_of_ne hxe] at hx
        exact h.idle x hx
    · refine Known.mono (σ := σ) rfl (le_refl _) (fun _ _ h1 => h1) ?_
      unfold setPhase
      by_cases hxe : x = e
      · subst hxe
        simp only [Function.update_self]
        exact hk
      · simp only [Function.update_of_ne hxe]
        exact h.known x
  cases hs with
  | @act e w' hc hph hact hd =>
    have hother : ∀ x, σ.phase x ≠ .out → w'.table x = σ.world.table x ∧ w'.run x = σ.world.run x := by
      intro x hx
      refine act_other hP h.world hact ?_ (h.idle x hx)
      rintro rfl
      exact hx hph
    refine ⟨h.world.act hP hact, fun x hx => (hother x hx).2.trans (h.idle x hx), fun x => ?_⟩
    by_cases hx : σ.phase x = .out
    · show Known P _ x (σ.phase x)
      rw [hx]
      trivial
    · exact (h.known x).act hP h.world hact (hother x hx).1 hd
  | @call e fd u hc hph hi hsome =>
    refine hset e _ (fun _ => hi) ?_
    cases u <;> trivial
  | @user e b hc =>
    refine hset e _ (fun hne => h.idle e fun hout => hne ?_) (.next h hc b)
    rw [hout]
    rfl
  | trap k =>
    refine ⟨h.world, h.idle, fun x => Known.mono (σ := σ) rfl (le_refl _) (fun n _ h1 => ⟨h1.1, ?_⟩) (h.known x)⟩
    obtain ⟨k', hk'⟩ := h1.2
    dsimp only at hk'
    rw [Function.update_apply] at hk'
    split at hk'
    · cases hk'
    · exact ⟨k', hk'⟩
  | @envRun k e v hk hc hrun =>
    refine ⟨h.world, h.idle, fun x => Known.mono (σ := σ) rfl ?_ (fun n hn h1 => ?_) (h.known x)⟩
    · show σ.envRuns x ≤ Function.update σ.envRuns e _ x
      rw [Function.update_apply]
      split
      · rename_i hx
        rw [hx]
        omega
      · exact le_refl _
    · obtain ⟨h2, k', hk'⟩ := h1
      by_cases hxe : x = e
      · subst hxe
        have h3 : n = σ.envRuns x + 1 := h2.trans (Function.update_self ..)
        omega
      · refine ⟨h2.trans (Function.update_of_ne hxe _ _), k', ?_⟩
        dsimp only at hk'
        rw [Function.update_apply] at hk'
        split at hk'
        · exact absurd (Option.some.inj hk').symm hxe
        · exact hk'

theorem Boot.inv (h : Boot P σ) : Inv P σ := by
  refine ⟨h.world.inv, fun x hx => absurd (h.phase x) hx, fun x => ?_⟩
  rw [h.phase]
  trivial

/-- **A live peer is never reported as gone**, in every run in which no process changes the
counts of the pipe in the wrong direction between the two reads of another one. -/
theorem reports_closed [DecidableEq K] {σ₀ : Smp K} (hP : 0 ∉ P.pages) (h0 : Boot P σ₀)
    (hr : Run P (ForkMaps P) (Undisturbed P) σ₀ σ) {x : EnvIdx} (h : ReportsClosed σ x fd) :
    PeerClosed P σ.world x fd := by
  have hinv : Inv P σ := by
    clear h
    induction hr with
    | refl => exact h0.inv
    | tail _ hs ih => exact ih.step hP hs
  have hk := hinv.known x
  rcases h with h1 | ⟨n, i, hn, h1 | h1⟩ <;> rw [h1] at hk
  · exact (show 1 = 1 → _ from hk) rfl
  · exact (show 0 < n → 0 = 0 → _ from hk) hn rfl
  · exact (show 0 < n → 0 = 0 → _ from hk) hn rfl

/-- **On one CPU** no process is ever disturbed: none but the one that reads is in user mode. -/
theorem one_cpu_undisturbed [DecidableEq K] [Subsingleton K] {D : Smp K → World → Prop}
    (hr : Run P C D σ σ') : Run P C (Undisturbed P) σ σ' := by
  refine Relation.ReflTransGen.mono (fun σ σ' hs => ?_) _ _ hr
  cases hs with
  | @act e w' hc hph hact hd =>
    refine .act hc hph hact fun x u fd n r => ?_
    have hne : ∀ ph, ph ≠ .out → σ.phase x = ph → ¬ Since σ x n := by
      rintro ph hout hx ⟨-, k, hk⟩
      obtain ⟨k', hk'⟩ := hc
      rw [Subsingleton.elim k k', hk'] at hk
      obtain rfl := Option.some.inj hk
      exact hout (hx.symm.trans hph)
    exact ⟨fun h1 h2 => absurd h2 (hne (.readFd u fd n r) nofun h1),
      fun h1 h2 => absurd h2 (hne (.readData u fd n r) nofun h1)⟩
  | call u hc hph hi hsome => exact .call u hc hph hi hsome
  | user b hc => exact .user b hc
  | trap k => exact .trap k
  | envRun hk hc hrun => exact .envRun hk hc hrun

/-! ## Two CPUs -/

instance (w : World) (e : EnvIdx) : Decidable (w.Idle e) :=
  match h : w.run e with
  | .running (.ret ()) => isTrue h
  | .running (.call _ _) => isFalse fun h1 => nomatch h.symm.trans h1
  | .free => isFalse fun h1 => nomatch h.symm.trans h1
  | .embryo _ => isFalse fun h1 => nomatch h.symm.trans h1

/-- The steps of one process, on its CPU. -/
theorem acts_smp [DecidableEq K] (hc : σ.Current e) (hph : σ.phase e = .out)
    (h : Relation.ReflTransGen (World.Act P C e) σ.world w') :
    Run P C (fun _ _ => True) σ { σ with world := w' } := by
  induction h with
  | refl => exact .refl
  | @tail w₁ w₂ _ hact ih =>
    exact ih.tail (.act (σ := { σ with world := w₁ }) hc hph hact trivial)

/-- One operation of a process that is given memory. -/
def opRun (w : World) (e : EnvIdx) (op : Op) (n : ℕ) : Option World :=
  (List.replicate n (Choice.mk false 1)).foldlM (fun w ch => World.sysStep w e ch)
    (w.setRun e (.running (op.prog pipe123)))

theorem opRun_smp [DecidableEq K] {op : Op} {n : ℕ} (hc : σ.Current e) (hph : σ.phase e = .out)
    (hi : σ.world.Idle e) (h : opRun σ.world e op n = some w') :
    Run pipe123 (ForkMaps pipe123) (fun _ _ => True) σ { σ with world := w' } := by
  refine acts_smp hc hph (.head (.start op hi) (sysSteps_act (fun w ch hch srcva env dstva perm k _ _ => ?_) h))
  rw [List.eq_of_mem_replicate hch]

/-- A call of `pipeisclosed` that reads equal counts, while the others get from `σ.world` to `w'`
between its reads. -/
theorem isClosed_smp [DecidableEq K] {D : Smp K → World → Prop} {x : EnvIdx} (hc : σ.Current x)
    (hph : σ.phase x = .out) (hi : σ.world.Idle x) (hsome : (σ.world.table x (index2fd fd)).isSome)
    (heq : pageref σ.world x (index2fd fd) = pageref w' x (index2data fd))
    (h : ∀ ph, Run P C D (σ.setPhase x ph) { σ.setPhase x ph with world := w' }) :
    Run P C D σ ({ σ with world := w' }.setPhase x (.returned .isClosed fd 1)) := by
  have huser : ∀ {σ : Smp K} {ph} b, σ.Current x →
      Run P C D (σ.setPhase x ph) (σ.setPhase x (σ.next x b ph)) := by
    intro σ ph b hc
    have h1 : Step P C D (σ.setPhase x ph) _ := .user b hc
    unfold setPhase at h1 ⊢
    simp only [Function.update_self, Function.update_idem] at h1
    exact .single h1
  have h1 := Relation.ReflTransGen.head (Step.call .isClosed hc hph hi hsome) (huser false hc)
  have h2 := (h1.trans (huser true hc)).trans (h _)
  have h3 := h2.trans ((huser (σ := { σ with world := w' }) true hc).trans (huser true hc))
  have hn : next { σ with world := w' } x true (.compared .isClosed fd (σ.envRuns x)
      (pageref σ.world x (index2fd fd) == pageref w' x (index2data fd))) = .returned .isClosed fd 1 := by
    rw [heq, beq_self_eq_true]
    exact if_pos rfl
  exact hn ▸ h3

/-- Process 0 is in user mode on one of two CPUs. -/
def twoCpus : Smp Bool := ⟨alone, fun k => if k then some 0 else none, fun _ => 0, fun _ => .out⟩

/-- Process 0 calls `fork`; its child closes both ends. -/
def forkCloses : Option (World × World × World) := do
  let w₁ ← opRun (alone.pipe pipe123 0 0 1) 0 .fork 74
  let w₂ ← opRun w₁ 1 (.close 1) 5
  let w₃ ← opRun w₂ 1 (.close 0) 5
  return (w₁, w₂, w₃)

/-- **This fails** on two CPUs: process 0 reads that the read end is open twice, then its
child closes that end on the other CPU, and then the data page has two references, one of them
for the write end of process 0. -/
theorem reports_closed_counterexample : ¬ ∀ (P : Pipe) (σ₀ σ : Smp Bool) x fd, 0 ∉ P.pages → Boot P σ₀ →
    Run P (ForkMaps P) (fun _ _ => True) σ₀ σ → ReportsClosed σ x fd → PeerClosed P σ.world x fd := by
  intro h
  have hrun : (forkCloses.any fun (w₁, w₂, w₃) => decide (w₁.Idle 1 ∧ w₂.Idle 0 ∧ w₂.Idle 1 ∧
      (w₂.table 0 (index2fd 0)).isSome ∧ pageref w₂ 0 (index2fd 0) = pageref w₃ 0 (index2data 0) ∧
      w₃.page 0 (index2fd 0) = some 1 ∧ w₃.page 0 (index2fd 1) = some 2)) = true := by
    decide +kernel
  obtain ⟨⟨w₁, w₂, w₃⟩, h0, h1⟩ := (Option.any_eq_true _ _).1 hrun
  obtain ⟨hi₁, hi₀, hi₂, hsome, heq, hr, hw⟩ := of_decide_eq_true h1
  simp only [forkCloses, Option.bind_eq_bind, Option.bind_eq_some_iff, Option.pure_def, Option.some.injEq,
    Prod.mk.injEq] at h0
  obtain ⟨w₁, hfork, w₂, hclose₁, w₃, hclose₀, rfl, rfl, rfl⟩ := h0
  have hpipe : World.Act pipe123 (ForkMaps pipe123) 0 alone (alone.pipe pipe123 0 0 1) :=
    .pipe rfl (by decide) rfl rfl rfl rfl rfl
  have hc0 : ∀ w, Current { twoCpus with world := w } 0 := fun _ => ⟨true, rfl⟩
  have h1 : Run pipe123 (ForkMaps pipe123) (fun _ _ => True) twoCpus { twoCpus with world := w₁ } :=
    .head (.act (hc0 _) rfl hpipe trivial) (opRun_smp (hc0 _) rfl rfl hfork)
  -- the child runs on the other CPU
  have hnot : ¬ Current { twoCpus with world := w₁ } 1 := by
    rintro ⟨_ | _, hk⟩
    · cases hk
    · exact absurd (Option.some.inj hk) (by decide)
  have h2 := h1.tail (.envRun (k := false) rfl hnot hi₁)
  have h3 := h2.trans (opRun_smp ⟨false, rfl⟩ rfl hi₁ hclose₁)
  have h4 := h3.trans (isClosed_smp (x := 0) ⟨true, rfl⟩ rfl hi₀ hsome heq fun ph =>
    opRun_smp (σ := setPhase _ 0 ph) ⟨false, rfl⟩ rfl hi₂ hclose₀)
  exact (h pipe123 twoCpus _ 0 0 (by simp [Pipe.pages, pipe123]) ⟨alone_boot, fun _ => rfl⟩ h4
    (Or.inl phase_setPhase_self)).1 hr 0 _ hw

/-- Process 0 is in user mode on the only CPU. -/
def oneCpu : Smp Unit := ⟨alone, fun _ => some 0, fun _ => 0, fun _ => .out⟩

/-- It closes the write end, and then the pipe is closed. -/
theorem reports_closed_true : ∃ σ, Run pipe123 (ForkMaps pipe123) (Undisturbed pipe123) oneCpu σ ∧
    σ.world.page 0 (index2fd 0) = some 1 ∧ ReportsClosed σ 0 0 ∧ PeerClosed pipe123 σ.world 0 0 := by
  have hrun : ((opRun (alone.pipe pipe123 0 0 1) 0 (.close 1) 5).any fun w => decide (w.Idle 0 ∧
      (w.table 0 (index2fd 0)).isSome ∧ pageref w 0 (index2fd 0) = pageref w 0 (index2data 0) ∧
      w.page 0 (index2fd 0) = some 1)) = true := by
    decide +kernel
  obtain ⟨w, hclose, h1⟩ := (Option.any_eq_true _ _).1 hrun
  obtain ⟨hi, hsome, heq, hr⟩ := of_decide_eq_true h1
  have hpipe : World.Act pipe123 (ForkMaps pipe123) 0 alone (alone.pipe pipe123 0 0 1) :=
    .pipe rfl (by decide) rfl rfl rfl rfl rfl
  have hc0 : ∀ w, Current { oneCpu with world := w } 0 := fun _ => ⟨(), rfl⟩
  have h2 : Run pipe123 (ForkMaps pipe123) (fun _ _ => True) oneCpu { oneCpu with world := w } :=
    .head (.act (hc0 _) rfl hpipe trivial) (opRun_smp (hc0 _) rfl rfl hclose)
  have h3 := one_cpu_undisturbed (h2.trans (isClosed_smp (hc0 w) rfl hi hsome heq fun _ => .refl))
  have h4 : ReportsClosed (setPhase { oneCpu with world := w } 0 (.returned .isClosed 0 1)) 0 0 :=
    Or.inl phase_setPhase_self
  exact ⟨_, h3, hr, h4, reports_closed (by simp [Pipe.pages, pipe123]) ⟨alone_boot, fun _ => rfl⟩ h3 h4⟩

end Smp

end Jos.Fd
