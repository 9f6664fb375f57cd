import HeteroSim.EngineRuns

/-!
The unloaded latency of one granule, twice: `nominal_read_ps` of the board
generator is a formula with two cases, `Engine::nominal_read_ps` runs an access on
a fresh engine. A parameter set here is any dictionary `params()` can return: every
field of a preset may be overridden. For a HyperRAM the engine's figure has a formula
too.
-/

namespace HeteroSim.NominalLatency

open DramParams DramChannel ChannelMachine DramEngine EngineRuns Effect

/-! ### The generator's formula -/

/-- `p['bankgroups'] > 1 and p['mapping'].endswith('Bg')`. -/
def rotates (p : Params) : Bool :=
  decide (1 < p.bankgroups) && decide (['B', 'g'] <:+ p.mapping)

def pyBurstBytes (p : Params) : Int := p.widthBits.fdiv 8 * p.burstLength

def pyBurstPs (p : Params) : Int := (p.burstLength * 1000000).fdiv p.mtps

/-- How many bursts the granule takes. -/
def pyBursts (p : Params) : Int :=
  max 1 ((max p.granule (pyBurstBytes p)).fdiv (pyBurstBytes p))

def pyGap (p : Params) : Int :=
  if rotates p then max (max (pyBurstPs p) p.tCCD_S) p.tRRD_S else max (pyBurstPs p) p.tCCD_L

/-- `Engine::nominal_read_ps()`. -/
def engineReadPs (fuel : Nat) (p : Params) : Option Int :=
  match create p with
  | .error _ => none
  | .ok fresh =>
      match access fuel 0 0 p.granule.toNat false fresh with
      | .error _ _ => none
      | .ok done _ => some done

/-! ### HyperRAM -/

def overheadClks (p : Params) : Int :=
  p.hbCaClks + p.hbLatClks * if p.hbFixed2x ≠ 0 then 2 else 1

def maxChunk (p : Params) : Int :=
  max (2 * p.hbBusBytes) ((p.hbCsmPs.tdiv p.hbCkPs - overheadClks p) * (2 * p.hbBusBytes))

def movedBytes (p : Params) (addr size : Nat) : Int :=
  toInt64 (lastOf p.granule addr size + word - firstOf p.granule addr + 1)

/-- How many transactions a granule takes. -/
def transactions (p : Params) : Int := (p.granule + maxChunk p - 1) / maxChunk p

section HyperRam

theorem maxChunk_units (p : Params) (bus : 0 < p.hbBusBytes) :
    ∃ units, 0 < units ∧ maxChunk p = units * (2 * p.hbBusBytes) := by
  by_cases few : p.hbCsmPs.tdiv p.hbCkPs - overheadClks p ≤ 1
  · refine ⟨1, by omega, ?_⟩
    have less := Int.mul_le_mul_of_nonneg_right few (by omega : 0 ≤ 2 * p.hbBusBytes)
    rw [maxChunk, max_eq_left (by omega), Int.one_mul]
  · refine ⟨p.hbCsmPs.tdiv p.hbCkPs - overheadClks p, by omega, ?_⟩
    have more := Int.mul_le_mul_of_nonneg_right (by omega : 1 ≤
      p.hbCsmPs.tdiv p.hbCkPs - overheadClks p)
      (by omega : 0 ≤ 2 * p.hbBusBytes)
    rw [maxChunk, max_eq_right (by omega)]

theorem access_chunks (p : Params) (e : Engine) (config : e.g = { p := p, hyperram := true })
    (fuel : Nat) (now : Int) (addr size : Nat) (w : Bool) :
    access fuel now addr size w e =
      match chunks p (overheadClks p) (2 * p.hbBusBytes) (maxChunk p) fuel
        (movedBytes p addr (max size 1)) (max (now + p.ctrlPs.tdiv 2) e.hbFree)
        (max (now + p.ctrlPs.tdiv 2) e.hbFree) (e.st.request w) with
      | none => .error () { e with st := e.st.request w }
      | some (ended, st) => .ok (ended + (p.ctrlPs - p.ctrlPs.tdiv 2))
          { e with st := st, hbFree := ended + p.hbRwrPs } := by
  have asked : (if size = 0 then 1 else size) = max size 1 := by
    split <;> omega
  have kind : e.g.hyperram = true := by rw [config]
  rw [access, asked]
  show (if e.g.hyperram = true then accessHyperram fuel now addr (max size 1) else _ : Op Int)
    { e with st := e.st.request w } = _
  rw [if_pos kind]
  show (match chunks e.g.p (overheadClks e.g.p) (2 * e.g.p.hbBusBytes) (maxChunk e.g.p) fuel
      (movedBytes e.g.p addr (max size 1)) (max (now + e.g.p.ctrlPs.tdiv 2) e.hbFree)
      (max (now + e.g.p.ctrlPs.tdiv 2) e.hbFree) (e.st.request w) with
    | none => _
    | some (ended, st) => _ : Op Int) _ = _
  rw [config]
  cases chunks p (overheadClks p) (2 * p.hbBusBytes) (maxChunk p) fuel
    (movedBytes p addr (max size 1)) (max (now + p.ctrlPs.tdiv 2) e.hbFree)
    (max (now + p.ctrlPs.tdiv 2) e.hbFree) (e.st.request w) with
  | none => rfl
  | some out => rfl

end HyperRam

end HeteroSim.NominalLatency
