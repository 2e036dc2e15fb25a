import Jos.Spec.Serv

/-!
# `copy`

`copy` of `lib/file.c`, with `open`, `read`, `write` and `close` as it calls them. The process makes one request
after the other, and no other process makes any meanwhile.

A result `none` is a panic or a failed assertion, or it stands for a descriptor that is not that of a file, which
`copy` does not use. The loop of `copy` is given a number of turns, and is `none` if it needs more.
-/

namespace Jos.Copy

open Lib

open Fs

/-- A process and the file server: for each descriptor, the entry of `opentab` whose Fd page is mapped. -/
structure World where
  fds : Fin 32 → Option ℕ
  server : Server

/-- The requests of `copy`. -/
inductive Request
  | openSrc
  | openDest
  | read (turn : ℕ)
  | write (turn : ℕ)
  | flushSrc
  | flushDest

/-- What `fsipcbuf` holds before each request, and whether the server has memory for an Fd page then. -/
structure Given where
  fsipcbuf : Request → Bytes
  mem : Request → Bool

/-! ## Descriptors -/

/-- `fd_alloc(&fd)`. -/
def fdAlloc (fds : Fin 32 → Option ℕ) : Option (Fin 32) := (List.finRange 32).find? fun i => (fds i).isNone

/-- The request page of `open`. -/
def openReq (fsipcbuf : Bytes) (path : CString) (mode : BitVec 32) : Bytes :=
  (fsipcbuf.write 0 (path.chars ++ [0])).store32 1024 mode

/-- `open(path, mode)`. If the request fails, `fd_close` finds no page mapped. -/
def openFile (fsipcbuf : Bytes) (mem : Bool) (path : CString) (mode : BitVec 32) (w : World) :
    Option (Except ℤ (Fin 32) × World) :=
  if path.chars.length ≥ 1024 then some (.error (-eBadPath), w)
  else match fdAlloc w.fds with
  | none => some (.error (-eMaxOpen), w)
  | some fd => do
    let (r, pg, σ) ← serveOpen mem (openReq fsipcbuf path mode) w.server
    if r < 0 then some (.error r, { w with server := σ })
    else match pg with
      | none => some (.ok fd, { w with server := σ })
      | some i => some (.ok fd, ⟨Function.update w.fds fd (some i), setRef σ i ((σ.opentab i).ref + 1)⟩)

/-- `read(fdnum, buf, n)`, with the bytes put into `buf`. -/
def read (fsipcbuf : Bytes) (fdnum : Fin 32) (n : ℕ) (w : World) : Option (ℤ × List Byte × World) :=
  match w.fds fdnum with
  | none => some (-eInval, [], w)
  | some i =>
    let fd := (w.server.opentab i).fd
    if fd.devId ≠ devfileId then none
    else if fd.omode &&& oAccmode = oWronly then some (-eInval, [], w)
    else do
      let (r, bs, σ) ← devfileRead fsipcbuf i n w.server
      some (r, bs, { w with server := σ })

/-- `write(fdnum, buf, n)`, where `buf` is the `n` bytes at `buf`. -/
def write (fsipcbuf : Bytes) (fdnum : Fin 32) (buf : List Byte) (w : World) : Option (ℤ × World) :=
  match w.fds fdnum with
  | none => some (-eInval, w)
  | some i =>
    if (w.server.opentab i).fd.devId ≠ devfileId then none
    else do
      let (r, σ) ← writeFd fsipcbuf i buf w.server
      some (r, { w with server := σ })

/-- `close(fdnum)`; its result is not used. The Fd page is unmapped whether `devfile_flush` succeeds or not. -/
def close (fsipcbuf : Bytes) (fdnum : Fin 32) (w : World) : Option World :=
  match w.fds fdnum with
  | none => some w
  | some i =>
    let fd := (w.server.opentab i).fd
    if fd.devId ≠ devfileId then none
    else do
      let (_, σ) ← serveFlush (fsipcbuf.store32 0 fd.id) w.server
      some ⟨Function.update w.fds fdnum none, setRef σ i ((σ.opentab i).ref - 1)⟩

/-! ## `copy` -/

/-- The loop of `copy`, with what it returns behind it: `write_size` if a write fails, and else the last
`read_size`. -/
def copyLoop (o : Given) (fdSrc fdDest : Fin 32) : ℕ → ℕ → World → Option (ℤ × World)
  | 0, _, _ => none
  | n + 1, turn, w => do
    let (readSize, buffer, w) ← read (o.fsipcbuf (.read turn)) fdSrc 512 w
    if readSize > 0 then do
      let (writeSize, w) ← write (o.fsipcbuf (.write turn)) fdDest buffer w
      if writeSize < 0 then some (writeSize, w) else copyLoop o fdSrc fdDest n (turn + 1) w
    else some (readSize, w)

/-- `copy(src, dest)`. It closes both descriptors wherever it leaves the loop. -/
def copy (o : Given) (src dest : CString) (turns : ℕ) (w : World) : Option (ℤ × World) := do
  let (r, w) ← openFile (o.fsipcbuf .openSrc) (o.mem .openSrc) src oRdonly w
  match r with
  | .error r => some (r, w)
  | .ok fdSrc => do
    let (r, w) ← openFile (o.fsipcbuf .openDest) (o.mem .openDest) dest (oCreat ||| oWronly) w
    match r with
    | .error r => do
      let w ← close (o.fsipcbuf .flushSrc) fdSrc w
      some (r, w)
    | .ok fdDest => do
      let (r, w) ← copyLoop o fdSrc fdDest turns 0 w
      let w ← close (o.fsipcbuf .flushSrc) fdSrc w
      let w ← close (o.fsipcbuf .flushDest) fdDest w
      some (r, w)

end Jos.Copy
