import Jos.Spec.Fsipc

/-!
# Requests and replies pair up

`View` is what concerns one client: where it is, its `ipc` fields, its page, and the lists of
what it called, what was handled for it and what it got. In each place a client can be in,
these fit together (`ClientOk`), and the client that the server works for waits (`Waits`).
Every step keeps this (`step_inv`), since it changes the view of one client at most.
-/

namespace Jos.Fs

open Lib

variable {ι : Type} [DecidableEq ι] {N N' : Net ι} {σ σ₀ : Server} {c w x : ι} {req r : BitVec 32}
  {pg : Option ℕ}

/-- What concerns one client. -/
structure View (ι : Type) where
  pc : ClientPc
  recving : Bool
  msg : BitVec 32 × Option ℕ
  buf : Bytes
  wrote : Bool
  calls : List Fsreq
  served : List (Handled ι)
  rets : List Fsret

def Net.view (N : Net ι) (c : ι) : View ι :=
  ⟨N.cpc c, N.crecving c, N.cmsg c, N.fsipcbuf c, N.wrote c, N.calls c, servedOf c N.served, N.rets c⟩

namespace View

variable (v : View ι)

/-- All calls are done. -/
def Settled : Prop := v.calls = v.served.map (·.req) ∧ v.rets = v.served.map (·.ret)

/-- The last call is still to be handled. -/
def Pending (req : BitVec 32) : Prop :=
  v.calls = v.served.map (·.req) ++ [⟨req, v.buf⟩] ∧ v.rets = v.served.map (·.ret)

/-- The last call was handled, and has not returned. -/
def Done (r : BitVec 32) (pg : Option ℕ) : Prop :=
  ∃ l e, v.served = l ++ [e] ∧ e.ret = ⟨r, pg, v.buf⟩ ∧ v.calls = v.served.map (·.req) ∧
    v.rets = l.map (·.ret)

/-- The client waits for its reply, or is about to. -/
def Waits : Prop := v.pc = .recv ∨ v.pc = .blocked ∧ v.recving = true

/-- **What holds of a client**, by where it is. -/
structure ClientOk : Prop where
  recving : v.recving = true → v.pc = .blocked
  user : v.pc = .user → v.Settled ∧
    (v.wrote = false → ∀ e, v.served.getLast? = some e → v.buf = e.ret.page)
  send : ∀ req, v.pc = .send req → v.Pending req
  waits : v.Waits → (∃ req, v.Pending req) ∨ ∃ r pg, v.Done r pg
  back : v.pc = .blocked → v.recving = false → v.Done v.msg.1 v.msg.2
  panicked : v.pc = .panicked → ∃ req, v.Pending req

end View

/-- **The invariant.** -/
structure NetInv (σ₀ : Server) (N : Net ι) : Prop where
  clients : ∀ c, (N.view c).ClientOk
  recving : N.srecving = true → N.spc = .blocked
  got : N.spc = .blocked → N.srecving = false → N.fsreq = some N.smsg.sender ∧
    (N.view N.smsg.sender).Waits ∧ (N.view N.smsg.sender).Pending N.smsg.value
  serve : ∀ w req, N.spc = .serve w req → N.fsreq = some w ∧ (N.view w).Waits ∧ (N.view w).Pending req
  reply : ∀ w r pg, N.spc = .reply w r pg → (N.view w).Waits ∧ (N.view w).Done r pg
  inTurn : InTurn σ₀ N.served N.server

theorem init_inv_net (σ : Server) (msg : ServerMsg ι) (buf : ι → Bytes) :
    NetInv σ (Net.init σ msg buf) where
  clients c := by
    refine ⟨nofun, fun _ => ⟨⟨rfl, rfl⟩, nofun⟩, nofun, ?_, nofun, nofun⟩
    rintro (h | h)
    · cases h
    · cases h.1
  recving := nofun
  got := nofun
  serve := nofun
  reply := nofun
  inTurn := .nil

/-! ## One client moves -/

/-- A step that changes the view of client `c` only, which does not wait for a reply to be
handled or waits after it, keeps what holds of the server. -/
theorem NetInv.client (h : NetInv σ₀ N) (hother : ∀ x, x ≠ c → N'.view x = N.view x)
    (hok : (N'.view c).ClientOk)
    (hwait : (N.view c).Waits → (N'.view c).Waits ∧ (∀ req, (N.view c).Pending req → (N'.view c).Pending req) ∧
      ∀ r pg, (N.view c).Done r pg → (N'.view c).Done r pg)
    (h1 : N'.srecving = N.srecving) (h2 : N'.spc = N.spc) (h3 : N'.smsg = N.smsg) (h4 : N'.fsreq = N.fsreq)
    (h5 : InTurn σ₀ N'.served N'.server) : NetInv σ₀ N' := by
  have key : ∀ x, (N.view x).Waits → (N'.view x).Waits ∧
      (∀ req, (N.view x).Pending req → (N'.view x).Pending req) ∧
      ∀ r pg, (N.view x).Done r pg → (N'.view x).Done r pg := by
    intro x hx
    by_cases he : x = c
    · rw [he] at hx ⊢
      exact hwait hx
    · rw [hother x he]
      exact ⟨hx, fun _ h => h, fun _ _ h => h⟩
  refine ⟨fun x => ?_, fun h6 => ?_, fun h6 h7 => ?_, fun w req h6 => ?_, fun w r pg h6 => ?_, h5⟩
  · by_cases he : x = c
    · rw [he]
      exact hok
    · rw [hother x he]
      exact h.clients x
  · rw [h2]
    exact h.recving (h1 ▸ h6)
  · rw [h3, h4]
    obtain ⟨h8, h9, h10⟩ := h.got (h2 ▸ h6) (h1 ▸ h7)
    obtain ⟨h11, h12, -⟩ := key _ h9
    exact ⟨h8, h11, h12 _ h10⟩
  · obtain ⟨h8, h9, h10⟩ := h.serve w req (h2 ▸ h6)
    obtain ⟨h11, h12, -⟩ := key _ h9
    rw [h4]
    exact ⟨h8, h11, h12 _ h10⟩
  · obtain ⟨h9, h10⟩ := h.reply w r pg (h2 ▸ h6)
    obtain ⟨h11, -, h12⟩ := key _ h9
    exact ⟨h11, h12 _ _ h10⟩

omit [DecidableEq ι] in
theorem not_waits {v : View ι} (h1 : v.pc ≠ .recv) (h2 : v.pc ≠ .blocked) : ¬ v.Waits := by
  rintro (h | h)
  · exact h1 h
  · exact h2 h.1

theorem servedOf_append (c : ι) (l : List (Handled ι)) (e : Handled ι) :
    servedOf c (l ++ [e]) = servedOf c l ++ if e.client = c then [e] else [] := by
  unfold servedOf
  rw [List.filter_append]
  congr 1
  by_cases h : e.client = c <;> simp [h]

/-- **Every step keeps the invariant.** -/
theorem step_inv_net (h : NetInv σ₀ N) (hstep : NetStep N N') : NetInv σ₀ N' := by
  cases hstep with
  | store c page hpc =>
    have hv := h.clients c
    have hpc : (N.view c).pc = .user := hpc
    have hnw : ¬ (N.view c).Waits := not_waits (by rw [hpc]; nofun) (by rw [hpc]; nofun)
    have hview : ({ N with fsipcbuf := Function.update N.fsipcbuf c page
                           wrote := Function.update N.wrote c true } : Net ι).view c =
        { N.view c with buf := page, wrote := true } := by simp [Net.view]
    refine h.client (c := c) (fun x hx => ?_) ?_ (fun hw => absurd hw hnw) rfl rfl rfl rfl h.inTurn
    · simp [Net.view, Function.update_of_ne hx]
    · rw [hview]
      exact ⟨hv.recving, fun h1 => ⟨(hv.user h1).1, nofun⟩, fun _ h1 => absurd (hpc.symm.trans h1) nofun,
        fun hw => absurd hw hnw, fun h1 => absurd (hpc.symm.trans h1) nofun,
        fun h1 => absurd (hpc.symm.trans h1) nofun⟩
  | fds ht =>
    exact h.client (c := N.smsg.sender) (fun _ _ => rfl) (h.clients _)
      (fun hw => ⟨hw, fun _ h => h, fun _ _ h => h⟩) rfl rfl rfl rfl (.fds h.inTurn ht)
  | call c type hpc =>
    have hv := h.clients c
    have hpc : (N.view c).pc = .user := hpc
    have hnw : ¬ (N.view c).Waits := not_waits (by rw [hpc]; nofun) (by rw [hpc]; nofun)
    have hview : ({ N with cpc := Function.update N.cpc c (.send type)
                           calls := Function.update N.calls c (N.calls c ++ [⟨type, N.fsipcbuf c⟩]) } :
          Net ι).view c =
        { N.view c with pc := .send type, calls := (N.view c).calls ++ [⟨type, (N.view c).buf⟩] } := by
      simp [Net.view]
    obtain ⟨⟨hcalls, hrets⟩, -⟩ := hv.user hpc
    refine h.client (c := c) (fun x hx => ?_) ?_ (fun hw => absurd hw hnw) rfl rfl rfl rfl h.inTurn
    · simp [Net.view, Function.update_of_ne hx]
    · rw [hview]
      refine ⟨fun h1 => absurd (hpc.symm.trans (hv.recving h1)) nofun, nofun, fun req h1 => ?_,
        fun hw => absurd hw (not_waits nofun nofun), nofun, nofun⟩
      cases h1
      exact ⟨by rw [hcalls], hrets⟩
  | yield _ _ => exact h
  | @sendPanic c type hpc hs =>
    have hv := h.clients c
    have hpc : (N.view c).pc = .send type := hpc
    have hnw : ¬ (N.view c).Waits := not_waits (by rw [hpc]; nofun) (by rw [hpc]; nofun)
    have hview : ({ N with cpc := Function.update N.cpc c .panicked } : Net ι).view c =
        { N.view c with pc := .panicked } := by simp [Net.view]
    refine h.client (c := c) (fun x hx => ?_) ?_ (fun hw => absurd hw hnw) rfl rfl rfl rfl h.inTurn
    · simp [Net.view, Function.update_of_ne hx]
    · rw [hview]
      exact ⟨fun h1 => absurd (hpc.symm.trans (hv.recving h1)) nofun, nofun, nofun,
        fun hw => absurd hw (not_waits nofun nofun), nofun, fun _ => ⟨type, hv.send type hpc⟩⟩
  | @send c type hpc hs =>
    have hv := h.clients c
    have hpc : (N.view c).pc = .send type := hpc
    have hpend := hv.send type hpc
    have hspc := h.recving hs
    have hview : ({ N with srecving := false, smsg := ⟨c, type, fsipcPerm⟩, fsreq := some c
                           cpc := Function.update N.cpc c .recv } : Net ι).view c =
        { N.view c with pc := .recv } := by simp [Net.view]
    -- the server is at `recv`, so no other request is in its hands
    refine ⟨fun x => ?_, nofun, fun _ _ => ?_, fun w req h1 => ?_, fun w r pg h1 => ?_, h.inTurn⟩
    · by_cases hx : x = c
      · rw [hx, hview]
        exact ⟨fun h1 => absurd (hpc.symm.trans (hv.recving h1)) nofun, nofun, nofun,
          fun _ => Or.inl ⟨type, hpend⟩, nofun, nofun⟩
      · have h1 := h.clients x
        simpa [Net.view, Function.update_of_ne hx] using h1
    · dsimp only
      rw [hview]
      exact ⟨rfl, Or.inl rfl, hpend⟩
    · exact absurd (hspc.symm.trans h1) nofun
    · exact absurd (hspc.symm.trans h1) nofun
  | @recv c hpc =>
    have hv := h.clients c
    have hpc : (N.view c).pc = .recv := hpc
    have hview : ({ N with crecving := Function.update N.crecving c true
                           cpc := Function.update N.cpc c .blocked } : Net ι).view c =
        { N.view c with pc := .blocked, recving := true } := by simp [Net.view]
    refine h.client (c := c) (fun x hx => ?_) ?_ (fun hw => ?_) rfl rfl rfl rfl h.inTurn
    · simp [Net.view, Function.update_of_ne hx]
    · rw [hview]
      exact ⟨fun _ => rfl, nofun, nofun, fun _ => hv.waits (Or.inl hpc), nofun, nofun⟩
    · rw [hview]
      exact ⟨Or.inr ⟨rfl, rfl⟩, fun _ h1 => h1, fun _ _ h1 => h1⟩
  | @ret c hpc hrec =>
    have hv := h.clients c
    have hpc : (N.view c).pc = .blocked := hpc
    have hrec : (N.view c).recving = false := hrec
    -- the answer that came is that of the last request that was served
    obtain ⟨l, e, h1, h2, h3, h4⟩ := hv.back hpc hrec
    have hview : ({ N with cpc := Function.update N.cpc c .user
                           rets := Function.update N.rets c
                             (N.rets c ++ [⟨(N.cmsg c).1, (N.cmsg c).2, N.fsipcbuf c⟩])
                           wrote := Function.update N.wrote c false } : Net ι).view c =
        { N.view c with pc := .user, wrote := false,
                        rets := (N.view c).rets ++ [⟨(N.view c).msg.1, (N.view c).msg.2, (N.view c).buf⟩] } := by
      simp [Net.view]
    refine h.client (c := c) (fun x hx => ?_) ?_ (fun hw => ?_) rfl rfl rfl rfl h.inTurn
    · simp [Net.view, Function.update_of_ne hx]
    · rw [hview]
      refine ⟨fun h5 => absurd (hrec.symm.trans h5) nofun, fun _ => ⟨⟨h3, ?_⟩, fun _ e' h5 => ?_⟩, nofun,
        fun hw => absurd hw (not_waits nofun nofun), nofun, nofun⟩
      · dsimp only
        rw [h4, h1, List.map_append, ← h2]
        rfl
      · dsimp only at h5
        rw [h1, List.getLast?_append] at h5
        simp only [List.getLast?_singleton, Option.some_or, Option.some.injEq] at h5
        rw [← h5, h2]
    · rcases hw with hw | hw
      · exact absurd (hpc.symm.trans hw) nofun
      · exact absurd (hrec.symm.trans hw.2) nofun
  | serverRecv hs =>
    refine ⟨h.clients, fun _ => rfl, nofun, nofun, nofun, h.inTurn⟩
  | serverGot hs hr hp =>
    obtain ⟨h1, h2, h3⟩ := h.got hs hr
    refine ⟨h.clients, fun h4 => absurd (hr.symm.trans h4) nofun, nofun, fun w req h4 => ?_, nofun, h.inTurn⟩
    cases h4
    exact ⟨h1, h2, h3⟩
  | serverSkip hs hr hp =>
    exact ⟨h.clients, fun h4 => absurd (hr.symm.trans h4) nofun, nofun, nofun, nofun, h.inTurn⟩
  | @handle mem whom c req rep hs hc hh =>
    obtain ⟨h1, h2, h3, h4⟩ := h.serve whom req hs
    obtain rfl := Option.some.inj (h1.symm.trans hc)
    have hv := h.clients whom
    have hview : ({ N with
          server := rep.server
          fsipcbuf := Function.update N.fsipcbuf whom rep.page
          spc := .reply whom (BitVec.ofInt 32 rep.r) rep.pg
          served := N.served ++
            [⟨whom, ⟨req, N.fsipcbuf whom⟩, ⟨BitVec.ofInt 32 rep.r, rep.pg, rep.page⟩⟩] } : Net ι).view whom =
        { N.view whom with
          buf := rep.page
          served := (N.view whom).served ++
            [⟨whom, ⟨req, (N.view whom).buf⟩, ⟨BitVec.ofInt 32 rep.r, rep.pg, rep.page⟩⟩] } := by
      simp [Net.view, servedOf_append]
    -- the request is the only one of this client that has no answer yet
    have hdone : View.Done { N.view whom with
          buf := rep.page
          served := (N.view whom).served ++
            [⟨whom, ⟨req, (N.view whom).buf⟩, ⟨BitVec.ofInt 32 rep.r, rep.pg, rep.page⟩⟩] }
        (BitVec.ofInt 32 rep.r) rep.pg := by
      refine ⟨_, _, rfl, rfl, ?_, h4⟩
      dsimp only
      rw [h3, List.map_append]
      rfl
    refine ⟨fun x => ?_, fun h5 => absurd (hs.symm.trans (h.recving h5)) nofun, nofun, nofun,
      fun w r pg h5 => ?_, h.inTurn.handle hh⟩
    · by_cases hx : x = whom
      · rw [hx, hview]
        refine ⟨hv.recving, fun h5 => ?_, fun _ h5 => ?_, fun _ => Or.inr ⟨_, _, hdone⟩, fun h5 h6 => ?_,
          fun h5 => ?_⟩
        · exact absurd h2 (not_waits (by rw [show (N.view whom).pc = _ from h5]; nofun)
            (by rw [show (N.view whom).pc = _ from h5]; nofun))
        · exact absurd h2 (not_waits (by rw [show (N.view whom).pc = _ from h5]; nofun)
            (by rw [show (N.view whom).pc = _ from h5]; nofun))
        · rcases h2 with h2 | h2
          · exact absurd (h2.symm.trans h5) nofun
          · exact absurd (h6.symm.trans h2.2) nofun
        · exact absurd h2 (not_waits (by rw [show (N.view whom).pc = _ from h5]; nofun)
            (by rw [show (N.view whom).pc = _ from h5]; nofun))
      · have h5 := h.clients x
        have h6 : whom ≠ x := fun h6 => hx h6.symm
        simpa [Net.view, Function.update_of_ne hx, servedOf_append, h6] using h5
    · cases h5
      rw [hview]
      exact ⟨h2, hdone⟩
  | handlePanic hs _ _ =>
    exact ⟨h.clients, fun h5 => absurd (hs.symm.trans (h.recving h5)) nofun, nofun, nofun, nofun, h.inTurn⟩
  | serverYield _ _ => exact h
  | replyPanic hs _ =>
    exact ⟨h.clients, fun h5 => absurd (hs.symm.trans (h.recving h5)) nofun, nofun, nofun, nofun, h.inTurn⟩
  | @reply whom r pg hs hrec =>
    -- the client still waits: it left `user` with the request that is answered now
    obtain ⟨h2, h3⟩ := h.reply whom r pg hs
    have hv := h.clients whom
    have hrec : (N.view whom).recving = true := hrec
    have hview : ({ N with server := sendPg N.server pg
                           crecving := Function.update N.crecving whom false
                           cmsg := Function.update N.cmsg whom (r, pg)
                           spc := .unmap } : Net ι).view whom =
        { N.view whom with recving := false, msg := (r, pg) } := by simp [Net.view]
    refine ⟨fun x => ?_, fun h5 => absurd (hs.symm.trans (h.recving h5)) nofun, nofun, nofun, nofun, ?_⟩
    · by_cases hx : x = whom
      · have hpc := hv.recving hrec
        rw [hx, hview]
        refine ⟨nofun, fun h5 => absurd (hpc.symm.trans h5) nofun, fun _ h5 => absurd (hpc.symm.trans h5) nofun,
          fun h5 => ?_, fun _ _ => h3, fun h5 => absurd (hpc.symm.trans h5) nofun⟩
        rcases h5 with h5 | h5
        · exact absurd (hpc.symm.trans h5) nofun
        · cases h5.2
      · have h5 := h.clients x
        simpa [Net.view, Function.update_of_ne hx] using h5
    · cases pg with
      | none => exact h.inTurn
      | some i =>
        refine .fds (σ := N.server) h.inTurn fun j => ?_
        by_cases hj : j = i
        · rw [hj]
          dsimp only
          rw [Function.update_self]
          exact ⟨rfl, rfl, rfl⟩
        · dsimp only
          rw [Function.update_of_ne hj]
          exact ⟨rfl, rfl, rfl⟩
  | unmap hs =>
    exact ⟨h.clients, fun h5 => absurd (hs.symm.trans (h.recving h5)) nofun, nofun, nofun, nofun, h.inTurn⟩

theorem run_inv_net (h : NetInv σ₀ N) (hr : NetRun N N') : NetInv σ₀ N' := by
  induction hr with
  | refl => exact h
  | tail _ h1 ih => exact step_inv_net ih h1

/-! ## Pairs -/

omit [DecidableEq ι] in
/-- What holds of a client wherever it is: what was handled are its first calls, and what it
got are the first results. -/
theorem View.ClientOk.pairs {v : View ι} (h : v.ClientOk) :
    v.served.map (·.req) <+: v.calls ∧ v.rets <+: v.served.map (·.ret) := by
  have hpend : ∀ {req}, v.Pending req → v.served.map (·.req) <+: v.calls ∧ v.rets <+: v.served.map (·.ret) := by
    rintro req ⟨h1, h2⟩
    rw [h1, h2]
    exact ⟨List.prefix_append .., List.prefix_refl _⟩
  have hdone : ∀ {r pg}, v.Done r pg → v.served.map (·.req) <+: v.calls ∧ v.rets <+: v.served.map (·.ret) := by
    rintro r pg ⟨l, e, h1, -, h2, h3⟩
    rw [h2, h3, h1]
    simp only [List.map_append]
    exact ⟨List.prefix_refl _, List.prefix_append ..⟩
  cases hpc : v.pc with
  | user =>
    obtain ⟨⟨h1, h2⟩, -⟩ := h.user hpc
    rw [h1, h2]
    exact ⟨List.prefix_refl _, List.prefix_refl _⟩
  | send req => exact hpend (h.send req hpc)
  | recv =>
    rcases h.waits (Or.inl hpc) with ⟨req, h1⟩ | ⟨r, pg, h1⟩
    · exact hpend h1
    · exact hdone h1
  | blocked =>
    cases hrec : v.recving with
    | true =>
      rcases h.waits (Or.inr ⟨hpc, hrec⟩) with ⟨req, h1⟩ | ⟨r, pg, h1⟩
      · exact hpend h1
      · exact hdone h1
    | false => exact hdone (h.back hpc hrec)
  | panicked =>
    obtain ⟨req, h1⟩ := h.panicked hpc
    exact hpend h1

/-- **Requests and replies pair up**, for any number of clients and any interleaving. -/
theorem fsipc_pairs (σ : Server) (msg : ServerMsg ι) (buf : ι → Bytes) (N : Net ι)
    (hr : NetRun (Net.init σ msg buf) N) : Paired σ N := by
  have h := run_inv_net (init_inv_net σ msg buf) hr
  refine ⟨h.inTurn, fun c => (h.clients c).pairs.1, fun c => (h.clients c).pairs.2,
    fun c hc => ((h.clients c).user hc).1, fun c e hc hw he => ((h.clients c).user hc).2 hw e he⟩

/-- Two clients ask for `FSREQ_SYNC`; one gets its reply while the other tries to send. -/
theorem fsipc_pairs_sync : ∃ N : Net Bool,
    NetRun (Net.init ⟨⟨fun _ => 0⟩, serveInit⟩ ⟨false, 0, 0⟩ fun _ => ⟨fun _ => 0⟩) N ∧
      (N.rets true).length = 1 ∧ (N.calls false).length = 1 ∧ (N.rets false).length = 0 ∧
        Paired ⟨⟨fun _ => 0⟩, serveInit⟩ N := by
  have h : ∃ N : Net Bool,
      NetRun (Net.init ⟨⟨fun _ => 0⟩, serveInit⟩ ⟨false, 0, 0⟩ fun _ => ⟨fun _ => 0⟩) N ∧
        (N.rets true).length = 1 ∧ (N.calls false).length = 1 ∧ (N.rets false).length = 0 := by
    refine ⟨_, .tail (.tail (.tail (.tail (.tail (.tail (.tail (.tail (.tail .refl
      (.call true 8 rfl)) (.call false 8 rfl)) (.serverRecv rfl)) (.send (c := true) rfl rfl))
      (.serverGot rfl rfl (by decide))) (.handle (c := true) rfl rfl (show Fs.handle true _ _ _ = some _ from rfl)))
      (.recv (c := true) rfl)) (.reply rfl rfl)) (.ret (c := true) rfl rfl), ?_, ?_, ?_⟩
    · rfl
    · rfl
    · rfl
  obtain ⟨N, hr, h1, h2, h3⟩ := h
  exact ⟨N, hr, h1, h2, h3, fsipc_pairs _ _ _ N hr⟩

end Jos.Fs
