import Jos.Proof.Content
import Jos.Proof.Opens
import Jos.Proof.Requests

/-!
# Reading a file in pieces

`fileRead_bytes` gives the bytes that one call of `file_read` copies, and `devfileRead_step`
what a client gets for it: the next bytes of the file, as many as it asked for, up to a page.
So however a client cuts up its reads, it gets a prefix of the file (`reads_prefix`).
-/

namespace Jos.Fs

open Lib

variable {root : ℕ} {dirs : Bool} {d d' : Bytes} {σ σ' σ'' : Server} {page fsipcbuf : Bytes}
  {i f n m : ℕ} {r : ℤ} {bs xs : List Byte}

/-! ## One read -/

/-- The bytes from position `p` on. -/
theorem map_fileByte {p k : ℕ} (h : p + k ≤ (fSize d f).toNat) :
    ((List.range k).map fun j => fileByte d f (p + j)) = ((contents d f).drop p).take k := by
  refine List.ext_getElem? fun j => ?_
  rw [List.getElem?_map, List.getElem?_take, List.getElem?_drop, contents_getElem?]
  by_cases hj : j < k
  · rw [List.getElem?_range hj, if_pos hj, if_pos (by omega)]
    rfl
  · rw [if_neg hj, List.getElem?_eq_none (by simpa using hj)]
    rfl

theorem contents_length (d : Bytes) (f : ℕ) : (contents d f).length = (fSize d f).toNat := by
  simp [contents]

/-- Adding blocks changes no contents. -/
theorem Adds.contents_eq {P : ℕ → ℕ → Bool → ℤ → Prop} (h : Adds P root dirs d d') (hv : Valid root dirs d)
    (hf : (tree root dirs d).Linked (.file f)) (ho : opens dirs d f = false) :
    contents d' f = contents d f := by
  unfold contents
  rw [(h.head hv hf).fSize_eq]
  exact List.map_congr_left fun x _ => h.fileByte_eq hv hf ho

/-- **What `file_read` copies**: the bytes of the file from `offset` on. -/
theorem fileRead_bytes {count p : ℕ} (hv : Valid root dirs d) (hf : (tree root dirs d).Linked (.file f))
    (h : fileRead d f count p = some ((r, bs), d')) :
    r < 0 ∨ r = (min count ((contents d f).length - p) : ℕ) ∧ bs = ((contents d f).drop p).take r.toNat := by
  rw [contents_length]
  unfold fileRead at h
  have hsz := fSize_lt d f
  split at h
  · rename_i hge
    simp only [Option.some.injEq, Prod.mk.injEq] at h
    obtain ⟨⟨rfl, rfl⟩, -⟩ := h
    exact Or.inr ⟨by omega, rfl⟩
  · rename_i hlt
    obtain ⟨⟨⟨r₁, bs₁⟩, d₁⟩, h1, h2⟩ := Option.bind_eq_some_iff.1 h
    simp only [Option.some.injEq, Prod.mk.injEq] at h2
    obtain ⟨⟨rfl, rfl⟩, rfl⟩ := h2
    have hu : u64 (fSize d f - p) = (fSize d f).toNat - p := by
      rw [u64_of_nonneg (by omega) (by omega)]
      omega
    rw [hu] at h1 ⊢
    generalize hc : min count ((fSize d f).toNat - p) = c at h1 ⊢
    have hfin : u64 (p + c : ℤ) = p + c := by
      rw [u64_of_nonneg (by omega) (by omega)]
      omega
    rw [hfin] at h1
    rcases fileReadLoop_bytes hv hf (by omega) (by omega) (by omega) (by simp) h1 with h3 | ⟨rfl, h3⟩
    · rw [if_pos h3]
      exact Or.inl h3
    · rw [if_neg (lt_irrefl 0)]
      refine Or.inr ⟨rfl, ?_⟩
      rw [Int.toNat_natCast] at h3 ⊢
      rw [h3, Nat.add_sub_cancel_left]
      exact map_fileByte (by omega)

/-! ## One call of a client -/

/-- Entry `i` is that of an open file `f`, on a whole disk. -/
structure IsOpen (σ : Server) (i f : ℕ) : Prop where
  whole : Whole σ.disk
  linked : (tree sRoot true σ.disk).Linked (.file f)
  size : 0 ≤ fSize σ.disk f
  slot : (σ.opentab i).fileid.toNat % maxOpen = i
  ref : (σ.opentab i).ref ≠ 1
  file : (σ.opentab i).file = some f
  id : (σ.opentab i).fd.id = (σ.opentab i).fileid

/-- The file is a regular one. -/
structure OpenFor (σ : Server) (i f : ℕ) : Prop extends IsOpen σ i f where
  regular : fType σ.disk f ≠ ftypeDir

theorem IsOpen.lookup (h : IsOpen σ i f) : openfileLookup σ.opentab (σ.opentab i).fd.id = .ok i := by
  unfold openfileLookup
  dsimp only
  rw [h.id, h.slot, if_neg]
  rintro (h1 | h1)
  · exact h.ref h1
  · exact h1 rfl

/-- The request page of a read or a write. -/
theorem reqPage_fields (fsipcbuf : Bytes) (id : BitVec 32) (hn : n < 2 ^ 64) :
    ((fsipcbuf.store32 0 id).store64 8 (BitVec.ofNat 64 n)).load32 0 = id ∧
      reqN ((fsipcbuf.store32 0 id).store64 8 (BitVec.ofNat 64 n)) = min n 4096 := by
  constructor
  · unfold Bytes.store64
    rw [Bytes.load32_store32_off (by omega), Bytes.load32_store32_off (by omega), Bytes.load32_store32]
  · unfold reqN
    rw [Bytes.load64_store64, BitVec.toNat_ofNat, Nat.mod_eq_of_lt hn]

/-- The position of an entry. -/
def filePos (σ : Server) (i : ℕ) : ℤ := (σ.opentab i).fd.offset.toInt

theorem advance_self (t : ℕ → OpenFile) (i : ℕ) (r : ℤ) : advance t i r i =
    { t i with fd := { (t i).fd with offset := (t i).fd.offset + BitVec.ofInt 32 r } } :=
  Function.update_self ..

theorem filePos_advance {p : ℤ} (hp : filePos σ i = p) (h0 : 0 ≤ r) (h1 : p + r < 2 ^ 31)
    (h2 : r < 2 ^ 31) : filePos ⟨d, advance σ.opentab i r⟩ i = p + r := by
  unfold filePos at *
  have h3 := (σ.opentab i).fd.offset.le_toInt
  dsimp only
  rw [advance_self]
  dsimp only
  rw [BitVec.toInt_add, hp, BitVec.toInt_ofInt, Int.bmod_eq_of_le (n := r) (by omega) (by omega),
    Int.bmod_eq_of_le (by omega) (by omega)]

/-- What a read leaves of an open file, when blocks are added to the disk. -/
theorem OpenFor.adds (h : OpenFor σ i f) (hA : Adds Anywhere sRoot true σ.disk d) {t : ℕ → OpenFile}
    (h1 : (t i).fileid = (σ.opentab i).fileid) (h2 : (t i).ref = (σ.opentab i).ref)
    (h3 : (t i).file = (σ.opentab i).file) (h4 : (t i).fd.id = (σ.opentab i).fd.id) :
    OpenFor ⟨d, t⟩ i f := by
  have hhd := hA.head h.whole.valid h.linked
  refine ⟨⟨h.whole.adds hA, hA.linked h.whole.valid h.linked, ?_, ?_, ?_, ?_, ?_⟩, ?_⟩
  · rw [hhd.fSize_eq]; exact h.size
  · rw [h1]; exact h.slot
  · rw [h2]; exact h.ref
  · rw [h3]; exact h.file
  · rw [h4, h1]; exact h.id
  · rw [hhd.fType_eq]; exact h.regular

theorem OpenFor.advance (h : OpenFor σ i f) (hA : Adds Anywhere sRoot true σ.disk d) (r : ℤ) :
    OpenFor ⟨d, Fs.advance σ.opentab i r⟩ i f :=
  h.adds hA (by rw [advance_self]) (by rw [advance_self]) (by rw [advance_self]) (by rw [advance_self])

/-- `serve_read`, where the id of the request names an open file. -/
theorem serveRead_eq {count : ℕ} (hl : openfileLookup σ.opentab (page.load32 0) = .ok i)
    (hf : (σ.opentab i).file = some f) (hn : reqN page = count)
    (h : fileRead σ.disk f count (filePos σ i) = some ((r, bs), d)) :
    serveRead page σ =
      some (r, page.write 0 bs, ⟨d, if r < 0 then σ.opentab else advance σ.opentab i r⟩) := by
  unfold filePos at h
  unfold serveRead
  rw [hl]
  dsimp only
  rw [hf, hn]
  dsimp only [Option.bind_eq_bind, Option.bind_some]
  rw [h]
  dsimp only [Option.bind_some]
  split
  · rfl
  · rfl

/-- What `devfile_read` does at position `p`: it fails, or it gives the next bytes of the file and moves on.
Either way it only adds blocks to the disk. -/
theorem devfileRead_adds (fsipcbuf : Bytes) {p : ℕ} (h : OpenFor σ i f) (hn : n < 2 ^ 64) (hp : filePos σ i = p) :
    ∃ r bs d, devfileRead fsipcbuf i n σ =
        some (r, bs, ⟨d, if r < 0 then σ.opentab else Fs.advance σ.opentab i r⟩) ∧
      Adds Anywhere sRoot true σ.disk d ∧
      (r < 0 ∧ bs = [] ∨ r = (min n (min 4096 ((contents σ.disk f).length - p)) : ℕ) ∧
        bs = ((contents σ.disk f).drop p).take r.toNat) := by
  obtain ⟨h1, h2⟩ := reqPage_fields fsipcbuf (σ.opentab i).fd.id hn
  obtain ⟨⟨r, bs⟩, d, h3⟩ := fileRead_total (min n 4096) p h.whole.valid h.linked
  have hA := fileRead_adds (P := Anywhere) h.whole.valid h.linked (fun _ _ => trivial) h3
  have h4 := serveRead_eq (by rw [h1]; exact h.lookup) h.file h2 (by rw [hp]; exact h3)
  unfold devfileRead
  dsimp only
  rw [h4]
  dsimp only [Option.bind_eq_bind, Option.bind_some]
  rcases fileRead_bytes h.whole.valid h.linked h3 with hr | ⟨hr, hbs⟩
  · rw [if_pos hr]
    exact ⟨r, [], d, rfl, hA, Or.inl ⟨hr, rfl⟩⟩
  · have hr0 : ¬ r < 0 := by omega
    have hlen : bs.length = r.toNat := by
      rw [hbs, List.length_take, List.length_drop]
      omega
    rw [if_neg hr0, if_pos (by omega)]
    refine ⟨r, _, d, rfl, hA, Or.inr ⟨by omega, ?_⟩⟩
    rw [← hbs]
    refine List.ext_getElem? fun j => ?_
    unfold Bytes.read
    rw [List.getElem?_map]
    by_cases hj : j < r.toNat
    · rw [List.getElem?_range hj, Option.map_some, Nat.zero_add, Bytes.byte_write, if_pos (by omega),
        Nat.sub_zero, List.getD_eq_getElem _ _ (by omega), List.getElem?_eq_getElem (by omega)]
    · rw [List.getElem?_eq_none (by simpa using hj), List.getElem?_eq_none (by omega)]
      rfl

theorem contents_lt (d : Bytes) (f : ℕ) : (contents d f).length < 2 ^ 31 := by
  rw [contents_length]
  have := fSize_lt d f
  omega

/-- **What a client gets for a read** at position `p`: the call never fails an assertion. It
fails and leaves the position, or it gives the next bytes of the file and moves on. -/
theorem devfileRead_step (fsipcbuf : Bytes) {p : ℕ} (h : OpenFor σ i f) (hn : n < 2 ^ 64) (hp : filePos σ i = p)
    (hle : p ≤ (contents σ.disk f).length) :
    ∃ r bs σ', devfileRead fsipcbuf i n σ = some (r, bs, σ') ∧ OpenFor σ' i f ∧
      contents σ'.disk f = contents σ.disk f ∧
      (r < 0 ∧ bs = [] ∧ filePos σ' i = p ∨
        r = (min n (min 4096 ((contents σ.disk f).length - p)) : ℕ) ∧
          bs = ((contents σ.disk f).drop p).take r.toNat ∧ filePos σ' i = p + r) := by
  obtain ⟨r, bs, d, h1, hA, h2⟩ := devfileRead_adds fsipcbuf h hn hp
  have hc := hA.contents_eq h.whole.valid h.linked (opens_regular h.regular)
  have hsz := contents_lt σ.disk f
  rcases h2 with ⟨hr, hbs⟩ | ⟨hr, hbs⟩
  · rw [if_pos hr] at h1
    exact ⟨r, bs, _, h1, h.adds hA rfl rfl rfl rfl, hc, Or.inl ⟨hr, hbs, hp⟩⟩
  · rw [if_neg (by omega)] at h1
    exact ⟨r, bs, _, h1, h.advance hA r, hc,
      Or.inr ⟨hr, hbs, filePos_advance hp (by omega) (by omega) (by omega)⟩⟩

/-! ## Reading in pieces -/

/-- A call of `devfile_read`: the size asked for, the result, the bytes, and the positions
before and after it. -/
structure ReadCall where
  n : ℕ
  r : ℤ
  bytes : List Byte
  before : ℤ
  after : ℤ

/-- A client reads file `f` through entry `i`, while no one else modifies the file or moves
the position. -/
inductive Reads (i f : ℕ) : Server → List ReadCall → Server → Prop
  | nil {σ : Server} : Reads i f σ [] σ
  | call {σ σ' σ'' : Server} {fsipcbuf : Bytes} {n : ℕ} {r : ℤ} {bs : List Byte} {cs : List ReadCall} :
      n < 2 ^ 64 → devfileRead fsipcbuf i n σ = some (r, bs, σ') → Reads i f σ' cs σ'' →
      Reads i f σ (⟨n, r, bs, filePos σ i, filePos σ' i⟩ :: cs) σ''
  | others {σ σ' σ'' : Server} {cs : List ReadCall} : OpenFor σ' i f → filePos σ' i = filePos σ i →
      contents σ'.disk f = contents σ.disk f → Reads i f σ' cs σ'' → Reads i f σ cs σ''

/-- The bytes that calls return. -/
def bytesOf (cs : List ReadCall) : List Byte := cs.flatMap (·.bytes)

/-- What a call at position `p` of a file gives. -/
def CallOk (xs : List Byte) (p : ℕ) (c : ReadCall) : Prop :=
  c.before = p ∧ (c.r < 0 ∧ c.bytes = [] ∧ c.after = c.before ∨
    c.r = (min c.n (min 4096 (xs.length - p)) : ℕ) ∧ c.bytes = (xs.drop p).take c.r.toNat ∧
      c.after = c.before + c.r)

/-- The calls of a session that starts at position `p`. -/
def CallsOk (xs : List Byte) : ℕ → List ReadCall → Prop
  | _, [] => True
  | p, c :: cs => CallOk xs p c ∧ CallsOk xs (p + c.bytes.length) cs

theorem CallOk.length {p : ℕ} {c : ReadCall} (h : CallOk xs p c) (hp : p ≤ xs.length) :
    c.bytes = (xs.drop p).take c.bytes.length ∧ p + c.bytes.length ≤ xs.length ∧
      c.after = (p + c.bytes.length : ℕ) := by
  obtain ⟨h0, ⟨-, h1, h2⟩ | ⟨h1, h2, h3⟩⟩ := h
  · rw [h1, h2, h0]
    exact ⟨rfl, hp, rfl⟩
  · have h4 : c.bytes.length = c.r.toNat := by
      rw [h2, List.length_take, List.length_drop]
      omega
    rw [h3, h0, h4]
    exact ⟨h2, by omega, by omega⟩

/-- **Every session** gives, call by call, the bytes from its first position on. -/
theorem Reads.callsOk {p : ℕ} {cs : List ReadCall} (h : Reads i f σ cs σ') (ho : OpenFor σ i f)
    (hp : filePos σ i = p) (hle : p ≤ (contents σ.disk f).length) :
    CallsOk (contents σ.disk f) p cs ∧ OpenFor σ' i f ∧ contents σ'.disk f = contents σ.disk f ∧
      filePos σ' i = (p + (bytesOf cs).length : ℕ) ∧ p + (bytesOf cs).length ≤ (contents σ.disk f).length := by
  induction h generalizing p with
  | nil => exact ⟨trivial, ho, rfl, hp, hle⟩
  | @call σ σ₁ σ₂ fsipcbuf n r bs cs hn hc _ ih =>
    obtain ⟨r', bs', σ', h1, ho₁, h2, h3⟩ := devfileRead_step fsipcbuf ho hn hp hle
    rw [hc] at h1
    simp only [Option.some.injEq, Prod.mk.injEq] at h1
    obtain ⟨rfl, rfl, rfl⟩ := h1
    have hok : CallOk (contents σ.disk f) p ⟨n, r, bs, filePos σ i, filePos σ₁ i⟩ := by
      refine ⟨hp, ?_⟩
      dsimp only
      rw [hp]
      exact h3
    obtain ⟨h4, h5, h6⟩ := hok.length hle
    obtain ⟨h7, h8, h9, h10, h11⟩ := ih ho₁ h6 (by rw [h2]; exact h5)
    rw [h2] at h7 h9 h11
    have h12 : (bytesOf (⟨n, r, bs, filePos σ i, filePos σ₁ i⟩ :: cs)).length =
        bs.length + (bytesOf cs).length := by simp [bytesOf]
    rw [h12, ← Nat.add_assoc]
    exact ⟨⟨hok, h7⟩, h8, h9, h10, h11⟩
  | @others σ σ₁ σ₂ cs ho₁ hp₁ hc₁ _ ih =>
    rw [← hc₁]
    exact ih ho₁ (hp₁.trans hp) (by rw [hc₁]; exact hle)

/-- The bytes of a session are the first of those from its position on. -/
theorem CallsOk.bytesOf_le {p : ℕ} {cs : List ReadCall} (h : CallsOk xs p cs) (hp : p ≤ xs.length) :
    bytesOf cs <+: xs.drop p := by
  induction cs generalizing p with
  | nil => exact ⟨_, List.nil_append _⟩
  | cons c cs ih =>
    obtain ⟨h1, h2⟩ := h
    obtain ⟨h3, h4, -⟩ := h1.length hp
    obtain ⟨t, ht⟩ := ih h2 h4
    have h6 : bytesOf (c :: cs) = c.bytes ++ bytesOf cs := rfl
    have h7 : c.bytes ++ (xs.drop p).drop c.bytes.length = xs.drop p := by
      conv_lhs =>
        arg 1
        rw [h3]
      exact List.take_append_drop ..
    refine ⟨t, ?_⟩
    rw [h6, List.append_assoc, ht, ← List.drop_drop, h7]

/-- **Reading in pieces.** From position 0, the bytes that the calls return are the first of
the file; each call that succeeds gives as many as it was asked for, up to a page and to the
end of the file, and moves the position by that; no call fails an assertion; and of two
sessions on one file, one returns the first bytes of what the other returns. -/
theorem reads_chunks {cs : List ReadCall} (h : OpenFor σ i f) (h0 : filePos σ i = 0)
    (hr : Reads i f σ cs σ') :
    bytesOf cs <+: contents σ.disk f ∧ CallsOk (contents σ.disk f) 0 cs ∧
      filePos σ' i = (bytesOf cs).length ∧
      (∀ fsipcbuf n, n < 2 ^ 64 → (devfileRead fsipcbuf i n σ').isSome) ∧
      ∀ {j g : ℕ} {ρ ρ' : Server} {cs' : List ReadCall}, OpenFor ρ j g → filePos ρ j = 0 →
        contents ρ.disk g = contents σ.disk f → Reads j g ρ cs' ρ' →
          bytesOf cs <+: bytesOf cs' ∨ bytesOf cs' <+: bytesOf cs := by
  obtain ⟨h1, h2, h3, h4, h5⟩ := hr.callsOk (p := 0) h h0 (Nat.zero_le _)
  have h6 : bytesOf cs <+: contents σ.disk f := h1.bytesOf_le (Nat.zero_le _)
  rw [Nat.zero_add] at h4 h5
  refine ⟨h6, h1, h4, fun fsipcbuf n hn => ?_, fun {j g ρ ρ' cs'} hρ hρ0 hc hr' => ?_⟩
  · obtain ⟨r, bs, σ'', h7, -⟩ := devfileRead_step fsipcbuf h2 hn h4 (by rw [h3]; exact h5)
    rw [h7]
    rfl
  · obtain ⟨h7, -⟩ := hr'.callsOk (p := 0) hρ hρ0 (Nat.zero_le _)
    have h8 : bytesOf cs' <+: contents ρ.disk g := h7.bytesOf_le (Nat.zero_le _)
    rw [hc] at h8
    exact List.prefix_or_prefix_of_prefix h6 h8

/-- A request to create `/a`. -/
def createA : Bytes := ((⟨fun _ => 0⟩ : Bytes).write 0 [0x2F, 0x61]).store32 1024 0x102

/-- A request to write `hi` to the file with id 1024. -/
def writeHi : Bytes :=
  (((⟨fun _ => 0⟩ : Bytes).store32 0 1024).store64 8 2).write 16 [0x68, 0x69]

/-- `/a` is created, `hi` is written to it, and it is read from the start in two pieces. -/
theorem reads_chunks_two : ∃ σ cs σ', Reads 0 (3 * 4096 + 256 * 1) σ cs σ' ∧
    cs.map (·.bytes) = [[0x68], [0x69]] ∧ bytesOf cs <+: contents σ.disk (3 * 4096 + 256 * 1) := by
  have hrun : ((handle true 1 createA ⟨binImage, serveInit⟩).any fun rep₁ =>
      hasEntry rep₁.server.disk 1 &&
      decide (reqFile writeHi (setRef rep₁.server 0 2) = some (3 * 4096 + 256 * 1) ∧
        fType rep₁.server.disk (3 * 4096 + 256 * 1) ≠ ftypeDir ∧
        (rep₁.server.opentab 0).fd.offset.toInt = 0) &&
      (handle true 4 writeHi (setRef rep₁.server 0 2)).any fun rep₂ =>
        hasEntry rep₂.server.disk 1 &&
        decide (fType rep₂.server.disk (3 * 4096 + 256 * 1) ≠ ftypeDir ∧
          0 ≤ fSize rep₂.server.disk (3 * 4096 + 256 * 1) ∧ (rep₂.server.opentab 0).fileid = 1024 ∧
          (rep₂.server.opentab 0).ref = 2 ∧
          (rep₂.server.opentab 0).file = some (3 * 4096 + 256 * 1)) &&
        (devfileRead ⟨fun _ => 0⟩ 0 1 (setFd rep₂.server 0 ⟨0, 0, 0, 1024⟩)).any fun x₁ =>
          decide (x₁.2.1 = [0x68]) && (devfileRead ⟨fun _ => 0⟩ 0 10 x₁.2.2).any fun x₂ =>
            decide (x₂.2.1 = [0x69])) = true := by
    decide +kernel
  simp only [Option.any_eq_true, Bool.and_eq_true, decide_eq_true_eq] at hrun
  obtain ⟨rep₁, h1, ⟨hb₁, hfile, ht₁, hoff⟩, rep₂, h2, ⟨hb₂, ht₂, hsz, hid, href, hf⟩, x₁, h3, hx₁, x₂, h4, hx₂⟩ :=
    hrun
  have hs₂ : DirSafe 4 writeHi (setRef rep₁.server 0 2) := by
    intro i f hi hif
    have h5 := (reqFile_eq hi hif).symm.trans hfile
    obtain rfl := Option.some.inj h5
    have h6 : (openfileLookup (setRef rep₁.server 0 2).opentab (writeHi.load32 0)) = .ok i := hi
    unfold openfileLookup at h6
    dsimp only at h6
    split at h6
    · cases h6
    · have h7 : i = 0 := (Except.ok.inj h6).symm.trans (by decide)
      rw [h7, setRef_self]
      exact ⟨reachable_linked (hasEntry_reachable hb₁ (by omega)), ht₁, Or.inl hoff.ge⟩
  have hw : Whole rep₂.server.disk := run_whole (σ := ⟨binImage, serveInit⟩) binImage_consistent.whole
    (.tail (.tail (.single (.request (fun _ _ _ _ => trivial) h1)) (.setRef _ 0 2)) (.request hs₂ h2))
  have ho : OpenFor (setFd rep₂.server 0 ⟨0, 0, 0, 1024⟩) 0 (3 * 4096 + 256 * 1) := by
    refine ⟨⟨hw, reachable_linked (hasEntry_reachable hb₂ (by omega)), hsz, ?_, ?_, ?_, ?_⟩, ht₂⟩
    · rw [setFd_self, hid]
      decide
    · rw [setFd_self, href]
      decide
    · rw [setFd_self]
      exact hf
    · rw [setFd_self, hid]
  have h0 : filePos (setFd rep₂.server 0 ⟨0, 0, 0, 1024⟩) 0 = 0 := by
    unfold filePos
    rw [setFd_self]
    rfl
  obtain ⟨r₁, bs₁, σ₁⟩ := x₁
  obtain ⟨r₂, bs₂, σ₂⟩ := x₂
  obtain rfl : bs₁ = [0x68] := hx₁
  obtain rfl : bs₂ = [0x69] := hx₂
  have hr := Reads.call (f := 3 * 4096 + 256 * 1) (by omega) h3 (.call (by omega) h4 .nil)
  exact ⟨_, _, _, hr, rfl, (reads_chunks ho h0 hr).1⟩

end Jos.Fs
