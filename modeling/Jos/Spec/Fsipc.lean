import Jos.Spec.Serv

/-!
# Requests to the file server, and its replies

Any number of clients in `fsipc` of `lib/file.c`, and the loop of `serve` in `fs/serv.c`, with
`ipc_send` and `ipc_recv` of `lib/ipc.c`, as steps from one system call to the next. A system
call runs under the kernel lock, so it is one step; between two calls the others may run.

The page of a request is `fsipcbuf` of the client: after `sys_ipc_try_send` it is mapped at
`fsreq` in the server too, until `sys_page_unmap`. `fsipc` is called with a `dstva` that is
page-aligned or 0, so `sys_ipc_recv` does not fail.

The lists of calls, of handled requests and of returns, and `wrote`, are there for the
statements.
-/

namespace Jos.Fs

open Lib

/-- A request: its code and its page. -/
structure Fsreq where
  type : BitVec 32
  page : Bytes

/-- The result of a request, with the entry whose Fd page is sent, and the request page. -/
structure Fsret where
  r : BitVec 32
  pg : Option ℕ
  page : Bytes

/-- A request that the server handled. -/
structure Handled (ι : Type) where
  client : ι
  req : Fsreq
  ret : Fsret

/-- Where a client is. -/
inductive ClientPc
  /-- outside `fsipc` -/
  | user
  /-- in the loop of `ipc_send` -/
  | send (type : BitVec 32)
  /-- before `sys_ipc_recv` -/
  | recv
  /-- in `sys_ipc_recv` -/
  | blocked
  /-- after the panic of `ipc_send` -/
  | panicked

/-- Where the server is in the loop of `serve`. -/
inductive ServerPc (ι : Type)
  /-- before `sys_ipc_recv` -/
  | recv
  /-- in `sys_ipc_recv` -/
  | blocked
  /-- before the handler -/
  | serve (whom : ι) (req : BitVec 32)
  /-- in the loop of `ipc_send` -/
  | reply (whom : ι) (r : BitVec 32) (pg : Option ℕ)
  /-- before `sys_page_unmap` -/
  | unmap
  | panicked

/-- The message for the server: `env_ipc_from`, `env_ipc_value` and `env_ipc_perm`. -/
structure ServerMsg (ι : Type) where
  sender : ι
  value : BitVec 32
  perm : BitVec 32

/-- The server and its clients. `crecving` and `srecving` are `env_ipc_recving`, `cmsg` is
`env_ipc_value` with the Fd page that came with it, and `fsreq` says whose `fsipcbuf` is mapped
at `fsreq` in the server. -/
structure Net (ι : Type) where
  server : Server
  spc : ServerPc ι
  srecving : Bool
  smsg : ServerMsg ι
  fsreq : Option ι
  cpc : ι → ClientPc
  crecving : ι → Bool
  cmsg : ι → BitVec 32 × Option ℕ
  fsipcbuf : ι → Bytes
  calls : ι → List Fsreq
  served : List (Handled ι)
  rets : ι → List Fsret
  wrote : ι → Bool

variable {ι : Type} [DecidableEq ι]

/-- Before the first request; `msg` is in the `ipc` fields of the server. -/
def Net.init (σ : Server) (msg : ServerMsg ι) (fsipcbuf : ι → Bytes) : Net ι where
  server := σ
  spc := .recv
  srecving := false
  smsg := msg
  fsreq := none
  cpc _ := .user
  crecving _ := false
  cmsg _ := (0, none)
  fsipcbuf := fsipcbuf
  calls _ := []
  served := []
  rets _ := []
  wrote _ := true

/-- The permissions with which `fsipc` sends its page. -/
def fsipcPerm : BitVec 32 := pteP ||| pteW ||| pteU

/-- The server after the reply: the client has the Fd page mapped. -/
def sendPg (σ : Server) : Option ℕ → Server
  | none => σ
  | some i => setRef σ i ((σ.opentab i).ref + 1)

/-- Changes that clients make to the Fd pages. -/
def FdsOnly (t t' : ℕ → OpenFile) : Prop :=
  ∀ i, (t' i).fileid = (t i).fileid ∧ (t' i).file = (t i).file ∧ (t' i).mode = (t i).mode

/-- **One step** of a client or of the server. -/
inductive NetStep (N : Net ι) : Net ι → Prop
  /-- a client fills in a request -/
  | store (c : ι) (page : Bytes) : N.cpc c = .user →
      NetStep N { N with fsipcbuf := Function.update N.fsipcbuf c page
                         wrote := Function.update N.wrote c true }
  /-- clients store to the Fd pages that they share with the server, and unmap them -/
  | fds {t : ℕ → OpenFile} : FdsOnly N.server.opentab t →
      NetStep N { N with server := ⟨N.server.disk, t⟩ }
  /-- `fsipc(type, dstva)` -/
  | call (c : ι) (type : BitVec 32) : N.cpc c = .user →
      NetStep N { N with cpc := Function.update N.cpc c (.send type)
                         calls := Function.update N.calls c (N.calls c ++ [⟨type, N.fsipcbuf c⟩]) }
  /-- `sys_ipc_try_send` of a client gives `-E_IPC_NOT_RECV` -/
  | yield {c : ι} {type : BitVec 32} : N.cpc c = .send type → N.srecving = false → NetStep N N
  /-- there is no page for the page tables of the server -/
  | sendPanic {c : ι} {type : BitVec 32} : N.cpc c = .send type → N.srecving = true →
      NetStep N { N with cpc := Function.update N.cpc c .panicked }
  /-- `sys_ipc_try_send` of a client succeeds -/
  | send {c : ι} {type : BitVec 32} : N.cpc c = .send type → N.srecving = true →
      NetStep N { N with srecving := false
                         smsg := ⟨c, type, fsipcPerm⟩
                         fsreq := some c
                         cpc := Function.update N.cpc c .recv }
  /-- `sys_ipc_recv` of a client -/
  | recv {c : ι} : N.cpc c = .recv →
      NetStep N { N with crecving := Function.update N.crecving c true
                         cpc := Function.update N.cpc c .blocked }
  /-- `ipc_recv` of a client returns -/
  | ret {c : ι} : N.cpc c = .blocked → N.crecving c = false →
      NetStep N { N with cpc := Function.update N.cpc c .user
                         rets := Function.update N.rets c
                           (N.rets c ++ [⟨(N.cmsg c).1, (N.cmsg c).2, N.fsipcbuf c⟩])
                         wrote := Function.update N.wrote c false }
  /-- `sys_ipc_recv` of the server -/
  | serverRecv : N.spc = .recv → NetStep N { N with srecving := true, spc := .blocked }
  /-- the server has a message -/
  | serverGot : N.spc = .blocked → N.srecving = false → flag N.smsg.perm pteP = true →
      NetStep N { N with spc := .serve N.smsg.sender N.smsg.value }
  /-- the server has a message without a page -/
  | serverSkip : N.spc = .blocked → N.srecving = false → flag N.smsg.perm pteP = false →
      NetStep N { N with spc := .recv }
  /-- the handler -/
  | handle {mem : Bool} {whom c : ι} {req : BitVec 32} {rep : Reply} : N.spc = .serve whom req →
      N.fsreq = some c → handle mem req (N.fsipcbuf c) N.server = some rep →
      NetStep N { N with
        server := rep.server
        fsipcbuf := Function.update N.fsipcbuf c rep.page
        spc := .reply whom (BitVec.ofInt 32 rep.r) rep.pg
        served := N.served ++
          [⟨whom, ⟨req, N.fsipcbuf c⟩, ⟨BitVec.ofInt 32 rep.r, rep.pg, rep.page⟩⟩] }
  /-- the handler panics -/
  | handlePanic {mem : Bool} {whom c : ι} {req : BitVec 32} : N.spc = .serve whom req →
      N.fsreq = some c → Fs.handle mem req (N.fsipcbuf c) N.server = none →
      NetStep N { N with spc := .panicked }
  /-- `sys_ipc_try_send` of the server gives `-E_IPC_NOT_RECV` -/
  | serverYield {whom : ι} {r : BitVec 32} {pg : Option ℕ} : N.spc = .reply whom r pg →
      N.crecving whom = false → NetStep N N
  /-- there is no page for the page tables of the client -/
  | replyPanic {whom : ι} {r : BitVec 32} {i : ℕ} : N.spc = .reply whom r (some i) →
      N.crecving whom = true → NetStep N { N with spc := .panicked }
  /-- `sys_ipc_try_send` of the server succeeds -/
  | reply {whom : ι} {r : BitVec 32} {pg : Option ℕ} : N.spc = .reply whom r pg →
      N.crecving whom = true →
      NetStep N { N with server := sendPg N.server pg
                         crecving := Function.update N.crecving whom false
                         cmsg := Function.update N.cmsg whom (r, pg)
                         spc := .unmap }
  /-- `sys_page_unmap(0, fsreq)` -/
  | unmap : N.spc = .unmap → NetStep N { N with fsreq := none, spc := .recv }

/-- Any interleaving of such steps. -/
abbrev NetRun : Net ι → Net ι → Prop := Relation.ReflTransGen NetStep

/-! ## What has to hold -/

/-- The server gets from `σ₀` to `σ` by handling these requests, one after the other; in
between clients only change Fd pages. -/
inductive InTurn (σ₀ : Server) : List (Handled ι) → Server → Prop
  | nil : InTurn σ₀ [] σ₀
  | handle {mem : Bool} {l : List (Handled ι)} {σ : Server} {c : ι} {req : BitVec 32} {page : Bytes}
      {rep : Reply} : InTurn σ₀ l σ → handle mem req page σ = some rep →
      InTurn σ₀ (l ++ [⟨c, ⟨req, page⟩, ⟨BitVec.ofInt 32 rep.r, rep.pg, rep.page⟩⟩]) rep.server
  | fds {l : List (Handled ι)} {σ : Server} {t : ℕ → OpenFile} : InTurn σ₀ l σ →
      FdsOnly σ.opentab t → InTurn σ₀ l ⟨σ.disk, t⟩

/-- The requests of one client that were handled. -/
def servedOf (c : ι) (l : List (Handled ι)) : List (Handled ι) := l.filter fun e => decide (e.client = c)

/-- **Requests and replies pair up**: the server handles the requests one after the other; for
each client these are its calls in their order, on the pages it wrote, and its returns are
the results in their order, with the pages that the server left; outside `fsipc` all of them are
done, and until the client writes to it again the page is as the server left it. -/
structure Paired (σ₀ : Server) (N : Net ι) : Prop where
  inTurn : InTurn σ₀ N.served N.server
  calls : ∀ c, (servedOf c N.served).map (·.req) <+: N.calls c
  rets : ∀ c, N.rets c <+: (servedOf c N.served).map (·.ret)
  done : ∀ c, N.cpc c = .user →
    N.calls c = (servedOf c N.served).map (·.req) ∧ N.rets c = (servedOf c N.served).map (·.ret)
  page : ∀ c e, N.cpc c = .user → N.wrote c = false → (servedOf c N.served).getLast? = some e →
    N.fsipcbuf c = e.ret.page

end Jos.Fs
