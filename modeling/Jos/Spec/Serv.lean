import Jos.Spec.Fs

/-!
# The file server and its clients

The requests of `fs/serv.c`, with the table of open files, and the functions of
`lib/file.c` and `lib/fd.c` that make them. A request is a page, at address 0, laid out as
`union Fsipc`.

The `struct Fd` of an open file is on a page that the clients share: `ref` is what `pageref`
gives for it, 0 if the server has not mapped it and else one more than its mappings in
clients. A result `none` is a panic or a failed assertion.

`file_flush` and `fs_sync` leave the contents of the block cache as they are.
-/

namespace Jos.Fs

open Lib

/-! ## Open files -/

/-- `struct Fd`. -/
structure Fd where
  devId : BitVec 32
  offset : BitVec 32
  omode : BitVec 32
  id : BitVec 32

/-- `struct OpenFile`, with `pageref(o_fd)` and `*o_fd`; a null `o_file` is `none`. -/
structure OpenFile where
  fileid : BitVec 32
  file : Option ℕ
  mode : BitVec 32
  ref : ℕ
  fd : Fd

/-- The block cache and `opentab`. -/
structure Server where
  disk : Bytes
  opentab : ℕ → OpenFile

/-- `opentab` after `serve_init`. -/
def serveInit (i : ℕ) : OpenFile := ⟨BitVec.ofNat 32 i, none, if i = 0 then 1 else 0, 0, ⟨0, 0, 0, 0⟩⟩

/-- `MAXOPEN`. -/
def maxOpen : ℕ := 1024

/-- `openfile_alloc(&o)`, and the index of `o` in the table; `mem` says whether a page can be
allocated. -/
def openfileAlloc (mem : Bool) (t : ℕ → OpenFile) : ℤ × Option ℕ × (ℕ → OpenFile) :=
  match (List.range maxOpen).find? fun i => decide ((t i).ref ≤ 1) with
  | none => (-eMaxOpen, none, t)
  | some i =>
    if (t i).ref = 0 ∧ mem = false then (-eNoMem, none, t)
    else
      let fileid := (t i).fileid + BitVec.ofNat 32 maxOpen
      (fileid.toInt, some i,
        Function.update t i { t i with fileid := fileid, ref := 1, fd := ⟨0, 0, 0, 0⟩ })

/-- `openfile_lookup(envid, fileid, &o)`: the index of `o`. -/
def openfileLookup (t : ℕ → OpenFile) (fileid : BitVec 32) : Except ℤ ℕ :=
  let i := fileid.toNat % maxOpen
  if (t i).ref = 1 ∨ (t i).fileid ≠ fileid then .error (-eInval) else .ok i

/-! ## Requests -/

def oAccmode : BitVec 32 := 0x3
def oRdonly : BitVec 32 := 0x0
def oWronly : BitVec 32 := 0x1
def oCreat : BitVec 32 := 0x100
def oTrunc : BitVec 32 := 0x200
def oExcl : BitVec 32 := 0x400

/-- `devfile.dev_id`. -/
def devfileId : BitVec 32 := 0x66

theorem zero_notMem_takeWhile (bs : List Byte) : 0 ∉ bs.takeWhile (· ≠ 0) := by
  intro h
  simpa using List.mem_takeWhile_imp h

/-- The path at the start of a request, cut off at `MAXPATHLEN`. -/
def reqPath (page : Bytes) : CString :=
  ⟨(page.read 0 1023).takeWhile (· ≠ 0), zero_notMem_takeWhile _⟩

/-- The part of `serve_open` that opens the file, in mode `omode`. -/
def openPath (d : Bytes) (path : CString) (omode : BitVec 32) : Option (Except ℤ ℕ × Bytes) :=
  if omode &&& oCreat ≠ 0 then do
    let (r, d) ← fileCreate d path
    match r with
    | .ok f => some (.ok f, d)
    | .error r => if omode &&& oExcl = 0 ∧ r = -eFileExists then fileOpen d path else some (.error r, d)
  else fileOpen d path

/-- The part of `serve_open` that truncates the file. -/
def truncOpen (d : Bytes) (f : ℕ) (omode : BitVec 32) : Option Bytes :=
  if omode &&& oTrunc ≠ 0 then fileSetSize d f 0 else some d

/-- `serve_open(envid, req, &pg, &perm)`: `pg` is the Fd page of the given entry. -/
def serveOpen (mem : Bool) (page : Bytes) (σ : Server) : Option (ℤ × Option ℕ × Server) :=
  let omode := page.load32 1024
  match openfileAlloc mem σ.opentab with
  | (r, none, t) => some (r, none, ⟨σ.disk, t⟩)
  | (r, some i, t) =>
    if r < 0 then some (r, none, ⟨σ.disk, t⟩)
    else do
      let (f, d) ← openPath σ.disk (reqPath page) omode
      match f with
      | .error r => some (r, none, ⟨d, t⟩)
      | .ok f => do
        let d ← truncOpen d f omode
        let fd := { (t i).fd with id := (t i).fileid, omode := omode &&& oAccmode, devId := devfileId }
        some (0, some i, ⟨d, Function.update t i { t i with file := some f, fd := fd, mode := omode }⟩)

/-- The table after `o->o_fd->fd_offset += r`. -/
def advance (t : ℕ → OpenFile) (i : ℕ) (r : ℤ) : ℕ → OpenFile :=
  Function.update t i { t i with fd := { (t i).fd with offset := (t i).fd.offset + BitVec.ofInt 32 r } }

/-- `serve_set_size(envid, req)`. -/
def serveSetSize (page : Bytes) (σ : Server) : Option (ℤ × Server) :=
  match openfileLookup σ.opentab (page.load32 0) with
  | .error r => some (r, σ)
  | .ok i => do
    let f ← (σ.opentab i).file
    let d ← fileSetSize σ.disk f (page.load32 4).toInt
    some (0, { σ with disk := d })

/-- `req->req_n > PGSIZE ? PGSIZE : req->req_n`. -/
def reqN (page : Bytes) : ℕ := min (page.load64 8).toNat 4096

/-- `serve_read(envid, ipc)`, and the page after it. -/
def serveRead (page : Bytes) (σ : Server) : Option (ℤ × Bytes × Server) :=
  match openfileLookup σ.opentab (page.load32 0) with
  | .error r => some (r, page, σ)
  | .ok i => do
    let f ← (σ.opentab i).file
    let ((r, bs), d) ← fileRead σ.disk f (reqN page) (σ.opentab i).fd.offset.toInt
    let page := page.write 0 bs
    if r < 0 then some (r, page, { σ with disk := d })
    else some (r, page, ⟨d, advance σ.opentab i r⟩)

/-- The `n` bytes at `req->req_buf`. The request page is the last one below `DISKMAP`, so it
is followed by block 0 of the disk. -/
def reqBuf (page d : Bytes) (n : ℕ) : List Byte :=
  (List.range n).map fun k => if 16 + k < 4096 then page.byte (16 + k) else d.byte (16 + k - 4096)

/-- `serve_write(envid, req)`. -/
def serveWrite (page : Bytes) (σ : Server) : Option (ℤ × Server) :=
  match openfileLookup σ.opentab (page.load32 0) with
  | .error r => some (r, σ)
  | .ok i => do
    let f ← (σ.opentab i).file
    let (r, d) ← fileWrite σ.disk f (reqBuf page σ.disk (reqN page)) (σ.opentab i).fd.offset.toInt
    if r < 0 then some (r, { σ with disk := d })
    else some (r, ⟨d, advance σ.opentab i r⟩)

/-- `serve_stat(envid, ipc)`, and the page after it. -/
def serveStat (page : Bytes) (σ : Server) : Option (ℤ × Bytes × Server) :=
  match openfileLookup σ.opentab (page.load32 0) with
  | .error r => some (r, page, σ)
  | .ok i => do
    let f ← (σ.opentab i).file
    let name := (σ.disk.read f 4096).takeWhile (· ≠ 0)
    let page := page.write 0 (name ++ [0])
    let page := page.store32 128 (σ.disk.load32 (f + 128))
    some (0, page.store32 132 (if fType σ.disk f = ftypeDir then 1 else 0), σ)

/-- `serve_flush(envid, req)`. -/
def serveFlush (page : Bytes) (σ : Server) : Option (ℤ × Server) :=
  match openfileLookup σ.opentab (page.load32 0) with
  | .error r => some (r, σ)
  | .ok i => do
    let _ ← (σ.opentab i).file
    some (0, σ)

/-- `serve_remove(envid, req)`. -/
def serveRemove (page : Bytes) (σ : Server) : Option (ℤ × Server) := do
  let (r, d) ← fileRemove σ.disk (reqPath page)
  some (r, { σ with disk := d })

/-- The reply to a request: the result, the entry whose Fd page is sent, the request page and
the server. -/
structure Reply where
  r : ℤ
  pg : Option ℕ
  page : Bytes
  server : Server

/-- The body of the loop of `serve`, up to the reply. -/
def handle (mem : Bool) (req : BitVec 32) (page : Bytes) (σ : Server) : Option Reply :=
  match req.toNat with
  | 1 => (serveOpen mem page σ).map fun (r, pg, σ) => ⟨r, pg, page, σ⟩
  | 2 => (serveSetSize page σ).map fun (r, σ) => ⟨r, none, page, σ⟩
  | 3 => (serveRead page σ).map fun (r, page, σ) => ⟨r, none, page, σ⟩
  | 4 => (serveWrite page σ).map fun (r, σ) => ⟨r, none, page, σ⟩
  | 5 => (serveStat page σ).map fun (r, page, σ) => ⟨r, none, page, σ⟩
  | 6 => (serveFlush page σ).map fun (r, σ) => ⟨r, none, page, σ⟩
  | 7 => (serveRemove page σ).map fun (r, σ) => ⟨r, none, page, σ⟩
  | 8 => some ⟨0, none, page, σ⟩
  | _ => some ⟨-eInval, none, page, σ⟩

/-! ## The table of open files over time -/

/-- The entry `i` of the table with another count of references. -/
def setRef (σ : Server) (i ref : ℕ) : Server :=
  { σ with opentab := Function.update σ.opentab i { σ.opentab i with ref := ref } }

/-- The entry `i` with another Fd page. -/
def setFd (σ : Server) (i : ℕ) (fd : Fd) : Server :=
  { σ with opentab := Function.update σ.opentab i { σ.opentab i with fd := fd } }

/-- The server, with what was given out: for each entry the id and the file of its last
successful `serve_open`, and the number of clients that map its Fd page. -/
structure Table where
  server : Server
  issued : ℕ → Option (BitVec 32 × ℕ)
  maps : ℕ → ℕ

/-- The table after `serve_init`. -/
def Table.init (d : Bytes) : Table := ⟨⟨d, serveInit⟩, fun _ => none, fun _ => 0⟩

/-- One step of the server or a client: an open, whose reply maps the Fd page if the client
asks for one; another request; a client that stores to an Fd page it maps, or unmaps it. -/
inductive TableStep (T : Table) : Table → Prop
  | opened {mem : Bool} {page d : Bytes} {f i : ℕ} {r : ℤ} {σ : Server} :
      openPath T.server.disk (reqPath page) (page.load32 1024) = some (.ok f, d) →
      serveOpen mem page T.server = some (r, some i, σ) →
      TableStep T ⟨setRef σ i ((σ.opentab i).ref + 1),
        Function.update T.issued i (some ((σ.opentab i).fd.id, f)),
        Function.update T.maps i (T.maps i + 1)⟩
  | openedOnly {mem : Bool} {page d : Bytes} {f i : ℕ} {r : ℤ} {σ : Server} :
      openPath T.server.disk (reqPath page) (page.load32 1024) = some (.ok f, d) →
      serveOpen mem page T.server = some (r, some i, σ) →
      TableStep T ⟨σ, Function.update T.issued i (some ((σ.opentab i).fd.id, f)), T.maps⟩
  | failed {mem : Bool} {page : Bytes} {r : ℤ} {σ : Server} :
      serveOpen mem page T.server = some (r, none, σ) → TableStep T { T with server := σ }
  | request {mem : Bool} {req : BitVec 32} {page : Bytes} {rep : Reply} : req.toNat ≠ 1 →
      handle mem req page T.server = some rep → TableStep T { T with server := rep.server }
  | store {i : ℕ} (fd : Fd) : 0 < T.maps i → TableStep T { T with server := setFd T.server i fd }
  | unmap {i : ℕ} : 0 < T.maps i →
      TableStep T { T with server := setRef T.server i ((T.server.opentab i).ref - 1)
                           maps := Function.update T.maps i (T.maps i - 1) }

/-- Any sequence of such steps. -/
abbrev TableRun : Table → Table → Prop := Relation.ReflTransGen TableStep

/-! ## Files over time -/

/-- The server and its table, with the number of files that were created at each address, and
for each entry that number for its file when it was opened. -/
structure World where
  table : Table
  made : ℕ → ℕ
  gen : ℕ → ℕ

/-- The world after `serve_init`. -/
def World.init (d : Bytes) : World := ⟨Table.init d, fun _ => 0, fun _ => 0⟩

/-- The files created, after a request to open that succeeds. -/
def madeBy (page d : Bytes) (made : ℕ → ℕ) : ℕ → ℕ :=
  if page.load32 1024 &&& oCreat ≠ 0 then
    match fileCreate d (reqPath page) with
    | some (.ok f, _) => Function.update made f (made f + 1)
    | _ => made
  else made

/-- A step of the table, whose request satisfies the condition `C` in the state before it. -/
inductive IdStep (C : BitVec 32 → Bytes → Table → Prop) (W : World) : World → Prop
  | opened {mem : Bool} {page d : Bytes} {f i : ℕ} {r : ℤ} {σ : Server} : C 1 page W.table →
      openPath W.table.server.disk (reqPath page) (page.load32 1024) = some (.ok f, d) →
      serveOpen mem page W.table.server = some (r, some i, σ) →
      IdStep C W ⟨⟨setRef σ i ((σ.opentab i).ref + 1),
        Function.update W.table.issued i (some ((σ.opentab i).fd.id, f)),
        Function.update W.table.maps i (W.table.maps i + 1)⟩, madeBy page W.table.server.disk W.made,
        Function.update W.gen i (madeBy page W.table.server.disk W.made f)⟩
  | openedOnly {mem : Bool} {page d : Bytes} {f i : ℕ} {r : ℤ} {σ : Server} : C 1 page W.table →
      openPath W.table.server.disk (reqPath page) (page.load32 1024) = some (.ok f, d) →
      serveOpen mem page W.table.server = some (r, some i, σ) →
      IdStep C W ⟨⟨σ, Function.update W.table.issued i (some ((σ.opentab i).fd.id, f)), W.table.maps⟩,
        madeBy page W.table.server.disk W.made,
        Function.update W.gen i (madeBy page W.table.server.disk W.made f)⟩
  | failed {mem : Bool} {page : Bytes} {r : ℤ} {σ : Server} : C 1 page W.table →
      serveOpen mem page W.table.server = some (r, none, σ) →
      IdStep C W { W with table := { W.table with server := σ } }
  | request {mem : Bool} {req : BitVec 32} {page : Bytes} {rep : Reply} : req.toNat ≠ 1 →
      C req page W.table → handle mem req page W.table.server = some rep →
      IdStep C W { W with table := { W.table with server := rep.server } }
  | store {i : ℕ} (fd : Fd) : 0 < W.table.maps i →
      IdStep C W { W with table := { W.table with server := setFd W.table.server i fd } }
  | unmap {i : ℕ} : 0 < W.table.maps i →
      IdStep C W { W with table :=
        { W.table with server := setRef W.table.server i ((W.table.server.opentab i).ref - 1)
                       maps := Function.update W.table.maps i (W.table.maps i - 1) } }

/-- Any sequence of such steps. -/
abbrev IdRun (C : BitVec 32 → Bytes → Table → Prop) : World → World → Prop :=
  Relation.ReflTransGen (IdStep C)

/-! ## Runs of the server -/

/-- One step: a request that satisfies the condition `C` in the state before it, or clients
that map, unmap and store to Fd pages, which leaves the rest of the table. -/
inductive ServStep (C : BitVec 32 → Bytes → Server → Prop) (σ : Server) : Server → Prop
  | request {mem : Bool} {req : BitVec 32} {page : Bytes} {rep : Reply} : C req page σ →
      handle mem req page σ = some rep → ServStep C σ rep.server
  | clients {t : ℕ → OpenFile} :
      (∀ i, (t i).fileid = (σ.opentab i).fileid ∧ (t i).file = (σ.opentab i).file ∧
        (t i).mode = (σ.opentab i).mode) → ServStep C σ ⟨σ.disk, t⟩

/-- Any sequence of such steps. -/
abbrev ServRun (C : BitVec 32 → Bytes → Server → Prop) : Server → Server → Prop :=
  Relation.ReflTransGen (ServStep C)

/-- The id of a request names file `f`. -/
def ReqFile (page : Bytes) (σ : Server) (f : ℕ) : Prop :=
  ∃ i, openfileLookup σ.opentab (page.load32 0) = .ok i ∧ (σ.opentab i).file = some f

/-! ## Clients -/

/-- `devfile_read(fd, buf, n)` of a client that has the Fd page of entry `i` mapped, with the
bytes put into `buf`; `fsipcbuf` is its request page. -/
def devfileRead (fsipcbuf : Bytes) (i n : ℕ) (σ : Server) : Option (ℤ × List Byte × Server) := do
  let page := (fsipcbuf.store32 0 (σ.opentab i).fd.id).store64 8 (BitVec.ofNat 64 n)
  let (r, page, σ) ← serveRead page σ
  if r < 0 then some (r, [], σ)
  else if r ≤ n ∧ r ≤ 4096 then some (r, page.read 0 r.toNat, σ)
  else none

/-- `devfile_write(fd, buf, n)`, where `buf` is the `n` bytes at `buf`. Of `fsipcbuf` only one
page is sent. -/
def devfileWrite (fsipcbuf : Bytes) (i : ℕ) (buf : List Byte) (σ : Server) : Option (ℤ × Server) := do
  let page := (fsipcbuf.store32 0 (σ.opentab i).fd.id).store64 8 (BitVec.ofNat 64 buf.length)
  if buf.length ≤ 4096 - 12 then do
    let page := page.write 16 buf
    let (r, σ) ← serveWrite page σ
    if r < 0 ∨ r ≤ buf.length then some (r, σ) else none
  else none

/-- `write(fdnum, buf, n)`, on a file. -/
def writeFd (fsipcbuf : Bytes) (i : ℕ) (buf : List Byte) (σ : Server) : Option (ℤ × Server) :=
  if (σ.opentab i).fd.omode &&& oAccmode = oRdonly then some (-eInval, σ)
  else devfileWrite fsipcbuf i buf σ

end Jos.Fs
