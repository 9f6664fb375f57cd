import HeteroSim.TimingCache

/-!
The sweep's rules for a design point, and what the design is built from: the host's
caches, the clusters' TCDM layout and the address map. Knobs are any integers, as
in a Python dictionary; the two AXI widths are left out, no rule reads them.
-/

namespace HeteroSim.DesignRules

open TimingCache

/-- `DEFAULTS`. -/
structure Design where
  hostVlen : Int := 4096
  hostNbLanes : Int := 4
  hostLaneWidth : Int := 8
  spatzVlen : Int := 512
  spatzNbLanes : Int := 4
  spatzLaneWidth : Int := 8
  snitchNbCore : Int := 9
  spatzNbCore : Int := 9
  tcdmSize : Int := 0x20000
  icacheSize : Int := 16 * 1024
  icacheWays : Int := 4
  dcacheSize : Int := 32 * 1024
  dcacheWays : Int := 8
  l2Size : Int := 512 * 1024
  l2Ways : Int := 8
  lineSize : Int := 64

/-! ### `validate` -/

/-- `_pow2`. -/
def pow2 (n : Int) : Bool := decide (0 < n) && (n.toNat &&& (n.toNat - 1) == 0)

/-- `if fails: bad.append(text)`. -/
def reason (fails : Bool) (text : String) : List String := if fails then [text] else []

def vectorReasons (tag : String) (vlen lanes width : Int) : List String :=
  let chunkBits := lanes * width * 8
  reason (decide (vlen < chunkBits))
    (s!"{tag}: {lanes} lanes x {width} B = {chunkBits} bits per cycle exceeds VLEN {vlen}; " ++
      "the model would retire a whole vector op per cycle and overstate this design") ++
  reason (!pow2 vlen) s!"{tag}: VLEN {vlen} is not a power of two" ++
  reason (!pow2 lanes) s!"{tag}: {lanes} lanes is not a power of two"

/-- One cache; `%` and `//` raise on zero. -/
def cacheReasons (tag : String) (size ways line : Int) : Except String (List String) :=
  if ways * line = 0 then .error "ZeroDivisionError"
  else if size.fmod (ways * line) ≠ 0 then
    .ok [s!"{tag}: {size} B does not divide into {ways} ways x {line} B lines"]
  else
    let sets := size.fdiv (ways * line)
    .ok (reason (!pow2 sets) s!"{tag}: {sets} sets is not a power of two")

def clusterReasons (tag : String) (n tcdmSize : Int) : List String :=
  reason (decide (n < 2))
    s!"{tag}_NB_CORE {n}: a cluster needs a DMA core plus at least one compute core" ++
  reason (decide (tcdmSize ≤ n * 0x1000 + 0x200))
    s!"{tag}: {n} cores x 4 KiB of stack does not fit a {tcdmSize} B TCDM"

/-- Reasons this design could not be built. -/
def validate (d : Design) : Except String (List String) := do
  let icache ← cacheReasons "ICACHE" d.icacheSize d.icacheWays d.lineSize
  let dcache ← cacheReasons "DCACHE" d.dcacheSize d.dcacheWays d.lineSize
  let l2 ← cacheReasons "L2" d.l2Size d.l2Ways d.lineSize
  return vectorReasons "host" d.hostVlen d.hostNbLanes d.hostLaneWidth ++
    vectorReasons "spatz" d.spatzVlen d.spatzNbLanes d.spatzLaneWidth ++
    icache ++ dcache ++ l2 ++
    reason (!pow2 d.lineSize) s!"LINE_SIZE {d.lineSize} is not a power of two" ++
    reason (!pow2 d.tcdmSize) s!"TCDM_SIZE {d.tcdmSize} is not a power of two" ++
    reason (decide (d.tcdmSize.fmod 32 ≠ 0))
      s!"TCDM_SIZE {d.tcdmSize} does not divide into 32 banks" ++
    clusterReasons "SNITCH" d.snitchNbCore d.tcdmSize ++
    clusterReasons "SPATZ" d.spatzNbCore d.tcdmSize

/-! ### What a design is built into -/

def mailboxSize : Int := 0x200
def clusterStackSize : Int := 0x1000

def hbmBase : Int := 0x80000000
def hbmSize : Int := 0x80000000

def peripheralSize : Int := 0x10000
def zeroMemSize : Int := 0x10000

/-- `CLUSTER_WINDOW`: the TCDM, the peripherals and the zero memory. -/
def clusterWindow (d : Design) : Int := d.tcdmSize + peripheralSize + zeroMemSize

structure Cluster where
  base : Int
  nbCore : Int
  useSpatz : Bool

def snitchCluster (d : Design) : Cluster :=
  { base := 0x10000000, nbCore := d.snitchNbCore, useSpatz := false }

def spatzCluster (d : Design) : Cluster :=
  { base := 0x00100000, nbCore := d.spatzNbCore, useSpatz := true }

/-- `ctrl_core`, which is the DMA core. -/
def Cluster.ctrlCore (c : Cluster) : Int := if c.useSpatz then 0 else c.nbCore - 1

/-- `__stack_region` of the cluster's linker script; the script's TCDM starts above
the mailbox. -/
def Cluster.stackRegion (d : Design) (c : Cluster) : Int :=
  (c.base + mailboxSize) + (d.tcdmSize - mailboxSize) - c.nbCore * clusterStackSize

/-- Core `i` runs on the bytes below this address. -/
def Cluster.stackTop (d : Design) (c : Cluster) (i : Int) : Int :=
  c.stackRegion d + (i + 1) * clusterStackSize

/-! ### What it takes to build one -/

def geometry (size ways line : Int) : Config :=
  { size := size.toNat, lineSize := line.toNat, ways := ways.toNat }

/-- A cache the constructor takes, with something in it. Its figures reach the
constructor as `int`. -/
structure CacheBuilt (size ways line : Int) : Prop where
  lines : 0 < line
  nonempty : 1 ≤ ways
  fits : size < 2 ^ 31
  sets : 1 ≤ (geometry size ways line).nbSets
  accepted : (geometry size ways line).accepts = true

structure StacksFit (d : Design) (c : Cluster) : Prop where
  mailbox : mailboxSize ≤ d.tcdmSize
  inside : ∀ i, 0 ≤ i → i < c.nbCore → c.base + mailboxSize ≤ c.stackTop d i - clusterStackSize ∧
    c.stackTop d i ≤ c.base + d.tcdmSize
  apart : ∀ i j, 0 ≤ i → i < j → j < c.nbCore → c.stackTop d i ≤ c.stackTop d j - clusterStackSize

/-- Two address windows, by base and size, do not overlap. -/
def Apart (base size base' size' : Int) : Prop := base + size ≤ base' ∨ base' + size' ≤ base

structure Buildable (d : Design) : Prop where
  icache : CacheBuilt d.icacheSize d.icacheWays d.lineSize
  dcache : CacheBuilt d.dcacheSize d.dcacheWays d.lineSize
  l2 : CacheBuilt d.l2Size d.l2Ways d.lineSize
  layout : StacksFit d (snitchCluster d) ∧ StacksFit d (spatzCluster d)
  clusters : Apart (snitchCluster d).base (clusterWindow d) (spatzCluster d).base (clusterWindow d)
  memory : Apart (snitchCluster d).base (clusterWindow d) hbmBase hbmSize ∧
    Apart (spatzCluster d).base (clusterWindow d) hbmBase hbmSize
  doorbells : (snitchCluster d).ctrlCore < 32 ∧ (spatzCluster d).ctrlCore < 32

/-- `validate` returns, and finds nothing only in designs that can be built. -/
def Sound (d : Design) : Prop :=
  ∃ bad, validate d = .ok bad ∧ (bad = [] → Buildable d)

/-! ### What the rules let through -/

def VectorFits (vlen lanes width : Int) : Prop :=
  lanes * width * 8 ≤ vlen ∧ pow2 vlen ∧ pow2 lanes

def Divides (size ways line : Int) : Prop :=
  ∃ sets, pow2 sets ∧ size = ways * line * sets

/-- A design none of the rules objects to. -/
structure Admitted (d : Design) : Prop where
  host : VectorFits d.hostVlen d.hostNbLanes d.hostLaneWidth
  spatz : VectorFits d.spatzVlen d.spatzNbLanes d.spatzLaneWidth
  icache : Divides d.icacheSize d.icacheWays d.lineSize
  dcache : Divides d.dcacheSize d.dcacheWays d.lineSize
  l2 : Divides d.l2Size d.l2Ways d.lineSize
  line : pow2 d.lineSize
  tcdm : pow2 d.tcdmSize ∧ d.tcdmSize.fmod 32 = 0
  cores : 2 ≤ d.snitchNbCore ∧ 2 ≤ d.spatzNbCore
  room : d.snitchNbCore * 0x1000 + 0x200 < d.tcdmSize ∧
    d.spatzNbCore * 0x1000 + 0x200 < d.tcdmSize

def NoZero (d : Design) : Prop :=
  d.lineSize ≠ 0 ∧ d.icacheWays ≠ 0 ∧ d.dcacheWays ≠ 0 ∧ d.l2Ways ≠ 0

theorem cacheReasons_returns (tag : String) (size ways line : Int) :
    (∃ bad, cacheReasons tag size ways line = .ok bad) ↔ ways ≠ 0 ∧ line ≠ 0 := by
  rw [← not_or, ← Int.mul_eq_zero]
  by_cases zero : ways * line = 0
  · simp [cacheReasons, zero]
  · by_cases divides : size.fmod (ways * line) = 0 <;> simp [cacheReasons, zero, divides]

theorem validate_returns (d : Design) : (∃ bad, validate d = .ok bad) ↔ NoZero d := by
  have icache := cacheReasons_returns "ICACHE" d.icacheSize d.icacheWays d.lineSize
  have dcache := cacheReasons_returns "DCACHE" d.dcacheSize d.dcacheWays d.lineSize
  have l2 := cacheReasons_returns "L2" d.l2Size d.l2Ways d.lineSize
  constructor
  · rintro ⟨bad, ran⟩
    simp only [validate, DramParams.except_bind] at ran
    obtain ⟨first, ranI, second, ranD, third, ranL, _⟩ := ran
    have ways := icache.mp ⟨first, ranI⟩
    exact ⟨ways.2, ways.1, (dcache.mp ⟨second, ranD⟩).1, (l2.mp ⟨third, ranL⟩).1⟩
  · rintro ⟨line, ways, ways', ways''⟩
    obtain ⟨first, ranI⟩ := icache.mpr ⟨ways, line⟩
    obtain ⟨second, ranD⟩ := dcache.mpr ⟨ways', line⟩
    obtain ⟨third, ranL⟩ := l2.mpr ⟨ways'', line⟩
    simp [validate, ranI, ranD, ranL, bind, Except.bind, pure, Except.pure]

end HeteroSim.DesignRules
