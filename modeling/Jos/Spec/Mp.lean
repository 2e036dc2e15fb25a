import Jos.Lib.Bytes

/-!
# The MP configuration table

`mpsearch`, `mpconfig` and `mp_init` of `kern/mpconfig.c`, on physical memory. `mpInit` gives `none`
also where it reads past the length of the table, or stores outside of `cpus`.
-/

namespace Jos.Mp

open Lib

/-- `NCPU`. -/
def NCPU : ℕ := 8

/-- `sum(addr, len)`. -/
def sum (mem : Bytes) (addr len : ℕ) : Byte := (mem.read addr len).sum

/-- `KADDR(pa)`. -/
def kaddr (npages pa : ℕ) : Option ℕ := if npages ≤ pa / 4096 then none else some pa

/-- A little-endian field of two bytes. -/
def load16 (mem : Bytes) (a : ℕ) : ℕ := (mem.byte a).toNat + 256 * (mem.byte (a + 1)).toNat

/-! ## `mpconfig` -/

/-- `mpsearch1(a, len)`. -/
def mpsearch1 (npages : ℕ) (mem : Bytes) (a len : ℕ) : Option (Option ℕ) := do
  let mp ← kaddr npages a
  let _ ← kaddr npages (a + len)
  some (((List.range ((len + 15) / 16)).map (mp + 16 * ·)).find? fun mp =>
    mem.read mp 4 == [0x5F, 0x4D, 0x50, 0x5F] && sum mem mp 16 == 0)

/-- `mpsearch()`. -/
def mpsearch (npages : ℕ) (mem : Bytes) : Option (Option ℕ) := do
  let bda ← kaddr npages 0x400
  let p := load16 mem (bda + 0x0E)
  let first ← if p ≠ 0 then mpsearch1 npages mem (p * 16) 1024
    else mpsearch1 npages mem ((load16 mem (bda + 0x13) * 1024 + 2 ^ 32 - 1024) % 2 ^ 32) 1024
  match first with
  | some mp => some (some mp)
  | none => mpsearch1 npages mem 0xF0000 0x10000

/-- `conf->length`, `conf->entry` and `conf->xlength`. -/
def confLength (mem : Bytes) (conf : ℕ) : ℕ := load16 mem (conf + 4)
def confEntry (mem : Bytes) (conf : ℕ) : ℕ := load16 mem (conf + 34)
def confXlength (mem : Bytes) (conf : ℕ) : ℕ := load16 mem (conf + 40)

/-- `mpconfig(&mp)`: the address of the table. -/
def mpconfig (npages : ℕ) (mem : Bytes) : Option (Option ℕ) := do
  match ← mpsearch npages mem with
  | none => some none
  | some mp =>
    let physaddr := (mem.load32 (mp + 4)).toNat
    if physaddr = 0 ∨ mem.byte (mp + 11) ≠ 0 then some none
    else
      let conf ← kaddr npages physaddr
      if mem.read conf 4 ≠ [0x50, 0x43, 0x4D, 0x50] then some none
      else if sum mem conf (confLength mem conf) ≠ 0 then some none
      else if mem.byte (conf + 6) ≠ 1 ∧ mem.byte (conf + 6) ≠ 4 then some none
      else if sum mem (conf + confLength mem conf) (confXlength mem conf) ≠ mem.byte (conf + 42) then some none
      else some (some conf)

/-! ## `mp_init` -/

/-- The variables that `mp_init` sets, and `cpu_id` and `cpu_status` in `cpus`. `bootcpu` is an index
into `cpus`. -/
structure State where
  ismp : Bool
  ncpu : ℕ
  bootcpu : ℕ
  lapicaddr : BitVec 32
  cpuId : ℕ → Byte
  cpuStarted : ℕ → Bool

/-- The variables before `mp_init`, after `bootcpu = &cpus[0]`. -/
def start : State := ⟨false, 0, 0, 0, fun _ => 0, fun _ => false⟩

/-- A read of `n` bytes of the table, from offset `o` on. -/
def access (mem : Bytes) (conf o n : ℕ) : Option Unit := if o + n ≤ confLength mem conf then some () else none

/-- The case `MPPROC`, for the entry at offset `p`. -/
def mpProc (mem : Bytes) (conf p : ℕ) (s : State) : Option State := do
  access mem conf (p + 3) 1
  let flags := mem.byte (conf + p + 3)
  let s := if flags.getLsbD 1 then { s with bootcpu := s.ncpu } else s
  if s.ncpu < NCPU then
    -- `cprintf` reads the fields up to `feature`
    access mem conf p 12
    some (if flags.getLsbD 0 then
      { s with cpuId := Function.update s.cpuId s.ncpu (BitVec.ofNat 8 s.ncpu), ncpu := s.ncpu + 1 } else s)
  else
    access mem conf (p + 1) 1
    some s

/-- The loop, for `n` more entries, the first of them at offset `p`. -/
def mpEntries (mem : Bytes) (conf : ℕ) : ℕ → ℕ → State → Option State
  | 0, _, s => some s
  | n + 1, p, s => do
    access mem conf p 1
    let type := mem.byte (conf + p)
    if type = 0 then mpEntries mem conf n (p + 20) (← mpProc mem conf p s)
    else if type.toNat ≤ 4 then mpEntries mem conf n (p + 8) s
    else some { s with ismp := false }

/-- `mp_init()`, up to the switch of the interrupt mode. -/
def mpInit (npages : ℕ) (mem : Bytes) : Option State := do
  match ← mpconfig npages mem with
  | none => some start
  | some conf =>
    access mem conf 36 4
    let s := { start with ismp := true, lapicaddr := mem.load32 (conf + 36) }
    access mem conf 34 2
    let s ← mpEntries mem conf (confEntry mem conf) 44 s
    if s.bootcpu < NCPU then
      let s := { s with cpuStarted := Function.update s.cpuStarted s.bootcpu true }
      some (if s.ismp then s else { s with ncpu := 1, lapicaddr := 0 })
    else none

end Jos.Mp
