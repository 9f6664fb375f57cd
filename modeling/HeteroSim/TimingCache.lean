import HeteroSim.DramParams

/-!
The timing-only cache in front of a memory level: its tag array, the line
lookups of an access, and the requests it passes on. The next level is a port:
what it answers and what it becomes. `now` is the clock's cycle count. Addresses
and counters are 64-bit words, times are integers; a configuration's times are
cycle counts. Energy, traces, printed lines and the backdoor are left out.
-/

namespace HeteroSim.TimingCache

open DramParams (log2i)

def word : Nat := 2 ^ 64

/-- `LINE_INVALID`. -/
def lineInvalid : Nat := word - 1

/-! ### Requests and ports -/

inductive Status where
  | ok
  | invalid
  | denied
  | pending
  deriving DecidableEq

/-- `vp::IoReq`. `data` is the master's buffer. -/
structure Req where
  addr : Nat
  size : Nat
  isWrite : Bool
  debug : Bool := false
  data : List UInt8 := []
  latency : Int := 0

/-- Why a request does not come back: the simulation was stopped, or a loop of the
timing engine did not end. -/
inductive Stop where
  | fatal
  | endless

/-- A memory level with state `σ`. -/
abbrev Port (σ : Type) := Nat → Req → σ → Except Stop (Status × Req × σ)

/-! ### Geometry -/

structure Config where
  size : Nat
  lineSize : Nat
  ways : Nat
  hitLatency : Nat := 1
  missLatency : Nat := 0
  refillCycles : Nat := 0
  writeCycles : Nat := 0
  storeBufferSize : Nat := 0
  writeAllocate : Bool := true
  writeback : Bool := false

def Config.storeBufferCycles (g : Config) : Nat := g.storeBufferSize * g.writeCycles

def Config.nbSets (g : Config) : Nat := g.size / g.lineSize / g.ways

def Config.lineBits (g : Config) : Nat := log2i g.lineSize

def Config.setMask (g : Config) : Nat := g.nbSets - 1

/-- The checks of the constructor. -/
def Config.accepts (g : Config) : Bool :=
  decide (2 ^ g.lineBits = g.lineSize) && (g.nbSets &&& g.setMask == 0) &&
    (g.nbSets * g.ways * g.lineSize == g.size) && (!g.writeback || g.writeAllocate)

/-- A configuration that the constructor accepts, with a power-of-two number of
sets and lines of more than one byte. `size` is an `int`. -/
structure Accepted (g : Config) : Prop where
  checked : g.accepts = true
  sets : 0 < g.nbSets
  ways : 1 ≤ g.ways
  line : 2 ≤ g.lineSize
  small : g.size < 2 ^ 31

def Config.set (g : Config) (line : Nat) : Nat := line &&& g.setMask

def Config.index (g : Config) (set way : Nat) : Nat := set * g.ways + way

def Config.firstLine (g : Config) (addr : Nat) : Nat := addr >>> g.lineBits

def Config.lastLine (g : Config) (addr size : Nat) : Nat :=
  ((addr + (if size = 0 then 1 else size) - 1) % word) >>> g.lineBits

/-- The lines of an access, in the order of its loops. -/
def Config.lines (g : Config) (addr size : Nat) : List Nat :=
  List.range' (g.firstLine addr) (g.lastLine addr size + 1 - g.firstLine addr)

/-- A store that misses only allocates in a write-allocate cache. -/
def Config.allocates (g : Config) (isWrite : Bool) : Bool := !isWrite || g.writeAllocate

section Geometry

variable {g : Config}

theorem Accepted.line_bits (accepted : Accepted g) : 2 ^ g.lineBits = g.lineSize := by
  have checked := accepted.checked
  simp only [Config.accepts, Bool.and_eq_true, decide_eq_true_eq] at checked
  exact checked.1.1.1

theorem Accepted.bits_positive (accepted : Accepted g) : 1 ≤ g.lineBits := by
  by_contra none
  have zero : g.lineBits = 0 := by omega
  have line := accepted.line_bits
  rw [zero] at line
  have := accepted.line
  omega

theorem Accepted.size_product (accepted : Accepted g) :
    g.nbSets * g.ways * g.lineSize = g.size := by
  have checked := accepted.checked
  simp only [Config.accepts, Bool.and_eq_true, beq_iff_eq] at checked
  exact checked.1.2

theorem Accepted.line_small (accepted : Accepted g) : g.lineSize < 2 ^ 31 := by
  have sets := accepted.sets
  have ways := accepted.ways
  have small := accepted.small
  rw [← accepted.size_product] at small
  exact Nat.lt_of_le_of_lt (Nat.le_mul_of_pos_left _ (Nat.mul_pos sets ways)) small

theorem Accepted.sets_pow (accepted : Accepted g) : ∃ k, g.nbSets = 2 ^ k := by
  have checked := accepted.checked
  simp only [Config.accepts, Bool.and_eq_true, beq_iff_eq] at checked
  exact (Nat.and_sub_one_eq_zero_iff_isPowerOfTwo accepted.sets.ne').mp checked.1.1.2

theorem Accepted.allocates (accepted : Accepted g) (writeback : g.writeback = true)
    (isWrite : Bool) : g.allocates isWrite = true := by
  have checked := accepted.checked
  simp only [Config.accepts, Bool.and_eq_true, Bool.or_eq_true, writeback] at checked
  simp [Config.allocates, checked.2.resolve_left (by simp)]

theorem set_mod (accepted : Accepted g) (line : Nat) : g.set line = line % g.nbSets := by
  obtain ⟨k, pow⟩ := accepted.sets_pow
  rw [Config.set, Config.setMask, pow, Nat.and_two_pow_sub_one_eq_mod]

theorem set_lt (accepted : Accepted g) (line : Nat) : g.set line < g.nbSets := by
  rw [set_mod accepted]
  exact Nat.mod_lt _ accepted.sets

theorem index_inj {set set' way way' : Nat} (inside : way < g.ways) (inside' : way' < g.ways)
    (same : g.index set way = g.index set' way') : set = set' ∧ way = way' := by
  simp only [Config.index] at same
  have sets : set = set' := by
    have quotient := congrArg (· / g.ways) same
    simpa [Nat.mul_add_div (Nat.zero_lt_of_lt inside), Nat.mul_comm _ g.ways,
      Nat.div_eq_of_lt inside, Nat.div_eq_of_lt inside'] using quotient
  subst sets
  exact ⟨rfl, by omega⟩

theorem mem_lines {addr size line : Nat} :
    line ∈ g.lines addr size ↔ g.firstLine addr ≤ line ∧ line ≤ g.lastLine addr size := by
  simp only [Config.lines, List.mem_range'_1]
  omega

theorem line_valid (accepted : Accepted g) {addr size line : Nat}
    (member : line ∈ g.lines addr size) : line < lineInvalid := by
  have last := (mem_lines.mp member).2
  have half : g.lastLine addr size < 2 ^ 63 := by
    rw [Config.lastLine, Nat.shiftRight_eq_div_pow]
    -- A line has two bytes at least, so its number lies in the lower half of the words.
    refine Nat.div_lt_of_lt_mul ?_
    have two : 2 ^ 1 ≤ 2 ^ g.lineBits := Nat.pow_le_pow_right (by omega) accepted.bits_positive
    have below : (addr + (if size = 0 then 1 else size) - 1) % word < word :=
      Nat.mod_lt _ (by decide)
    have whole : word = 2 * 2 ^ 63 := by decide
    calc (addr + (if size = 0 then 1 else size) - 1) % word < 2 * 2 ^ 63 := by omega
      _ ≤ 2 ^ g.lineBits * 2 ^ 63 := Nat.mul_le_mul_right _ two
  have invalid : 2 ^ 63 ≤ lineInvalid := by decide
  omega

end Geometry

/-! ### The tag array -/

structure Cache where
  tags : Nat → Nat
  lru : Nat → Nat
  lineReady : Nat → Int
  dirty : Nat → Bool
  lruCounter : Nat
  nextLevelFree : Int
  victims : List Nat := []
  sideData : List UInt8 := []
  nbRead : Nat := 0
  nbWrite : Nat := 0
  nbHit : Nat := 0
  nbMiss : Nat := 0
  nbLatencyCycles : Nat := 0
  nbWriteback : Nat := 0

def reset : Cache where
  tags _ := lineInvalid
  lru _ := 0
  lineReady _ := 0
  dirty _ := false
  lruCounter := 0
  nextLevelFree := 0

def Cache.tag (g : Config) (c : Cache) (set way : Nat) : Nat := c.tags (g.index set way)

def Cache.stamp (g : Config) (c : Cache) (set way : Nat) : Nat := c.lru (g.index set way)

def Cache.findWay (g : Config) (c : Cache) (line : Nat) : Option Nat :=
  (List.range g.ways).find? fun way => c.tag g (g.set line) way == line

def Cache.victim (g : Config) (c : Cache) (set : Nat) : Nat :=
  ((List.range' 1 (g.ways - 1)).foldl
    (fun (best : Nat × Nat) way =>
      if c.stamp g set way < best.2 then (way, c.stamp g set way) else best)
    (0, c.stamp g set 0)).1

def setAt {α : Type} (f : Nat → α) (i : Nat) (v : α) : Nat → α :=
  fun j => if j = i then v else f j

def Cache.stamped (g : Config) (c : Cache) (set way : Nat) : Cache :=
  { c with
    lruCounter := (c.lruCounter + 1) % word
    lru := setAt c.lru (g.index set way) ((c.lruCounter + 1) % word) }

def Cache.allocated (g : Config) (c : Cache) (line : Nat) (readyTime : Int) : Cache :=
  let set := g.set line
  let way := c.victim g set
  let i := g.index set way
  let c := { c with
    -- Only a write-back cache keeps what it evicts; a write-through victim is dropped.
    victims :=
      if g.writeback && c.tags i != lineInvalid && c.dirty i then c.victims ++ [c.tags i]
      else c.victims
    dirty := if g.writeback then setAt c.dirty i false else c.dirty
    tags := setAt c.tags i line }
  let c := c.stamped g set way
  { c with lineReady := setAt c.lineReady i readyTime }

def Cache.lookup (g : Config) (c : Cache) (line : Nat) (allocate : Bool) (readyTime : Int) :
    Int × Cache :=
  match c.findWay g line with
  | some way => (c.lineReady (g.index (g.set line) way), c.stamped g (g.set line) way)
  | none => if allocate then (-1, c.allocated g line readyTime) else (-1, c)

def Cache.resident (g : Config) (c : Cache) (line : Nat) : Bool :=
  (List.range g.ways).any fun way => c.tag g (g.set line) way == line

def Cache.probe (g : Config) (c : Cache) (addr size : Nat) : Bool :=
  (g.lines addr size).all fun line => c.resident g line

/-- `mark_dirty`: the first way that holds the line. -/
def Cache.markDirty (g : Config) (c : Cache) (line : Nat) : Cache :=
  match c.findWay g line with
  | some way => { c with dirty := setAt c.dirty (g.index (g.set line) way) true }
  | none => c

/-! ### An access -/

/-- What an access asks of the tag array. -/
structure Access where
  now : Int
  addr : Nat
  size : Nat
  isWrite : Bool
  nextLevelLatency : Int

/-- The body of the loop over the lines: when the access is ready, and the cache. -/
def turn (g : Config) (a : Access) (st : Int × Cache) (line : Nat) : Int × Cache :=
  let (ready, c) := st
  let allocate := g.allocates a.isWrite
  let start := max a.now c.nextLevelFree
  let refillDone := start + a.nextLevelLatency + g.missLatency + g.refillCycles
  let (lineReady, c) := c.lookup g line allocate refillDone
  if 0 ≤ lineReady then
    (max ready lineReady, { c with nbHit := (c.nbHit + 1) % word })
  -- A store that goes around the cache waits for no refill and takes no line.
  else if !allocate then (ready, { c with nbMiss := (c.nbMiss + 1) % word })
  else
    (max ready refillDone,
      { c with nbMiss := (c.nbMiss + 1) % word, nextLevelFree := start + g.refillCycles })

def Cache.counted (c : Cache) (isWrite : Bool) : Cache :=
  if isWrite then { c with nbWrite := (c.nbWrite + 1) % word }
  else { c with nbRead := (c.nbRead + 1) % word }

/-- The end of an access: a store stays in the cache, or goes to the store buffer. -/
def stored (g : Config) (a : Access) (st : Int × Cache) : Int × Cache :=
  let (ready, c) := st
  if a.isWrite && g.writeback then (ready, (g.lines a.addr a.size).foldl (Cache.markDirty g) c)
  else if a.isWrite then
    -- The store buffer hides the next level's time up to its size.
    let start := max a.now c.nextLevelFree
    (max ready (start + g.writeCycles - g.storeBufferCycles),
      { c with nextLevelFree := start + g.writeCycles })
  else (ready, c)

/-- The latency an access shows its master. -/
def Cache.access (g : Config) (c : Cache) (a : Access) : Int × Cache :=
  let (ready, c) := stored g a
    ((g.lines a.addr a.size).foldl (turn g a) (a.now + g.hitLatency, c.counted a.isWrite))
  let latency := max 0 (ready - a.now)
  (latency, { c with nbLatencyCycles := (c.nbLatencyCycles + latency.toNat) % word })

/-! ### Requests -/

section Requests

variable {σ : Type}

theorem bind_ok {α β : Type} (first : Except Stop α) (next : α → Except Stop β) (result : β) :
    (first >>= next) = .ok result ↔ ∃ middle, first = .ok middle ∧ next middle = .ok result := by
  cases first <;> simp [bind, Except.bind]

def expectOk (status : Status) : Except Stop Unit :=
  if status = .ok then .ok () else .error .fatal

theorem expectOk_ok {status : Status} {u : Unit} : expectOk status = .ok u ↔ status = .ok := by
  unfold expectOk
  split <;> simp [*]

/-- `side_data.resize(n)`. -/
def resize (data : List UInt8) (n : Nat) : List UInt8 :=
  data.take n ++ List.replicate (n - data.length) 0

def Config.fillRange (g : Config) (addr size : Nat) : Nat × Nat :=
  let first := g.firstLine addr <<< g.lineBits
  let last := g.lastLine addr size <<< g.lineBits
  (first, (last + word - first + 2 ^ g.lineBits) % word)

/-- A request of the cache's own, answered into `side_data`. -/
def side (next : Port σ) (now : Nat) (r : Req) (c : Cache) (s : σ) :
    Except Stop (Req × Cache × σ) := do
  let (status, r, s) ← next now r s
  expectOk status
  return (r, { c with sideData := r.data }, s)

/-- `timed_fill`: the latency the next level reported. -/
def timedFill (g : Config) (next : Port σ) (now addr size : Nat) (c : Cache) (s : σ) :
    Except Stop (Int × Cache × σ) := do
  let (first, bytes) := g.fillRange addr size
  let data := resize c.sideData bytes
  let (r, c, s) ←
    side next now { addr := first, size := bytes, isWrite := false, data := data } c s
  return (r.latency, c, s)

def flushVictim (g : Config) (next : Port σ) (now line : Nat) (c : Cache) (s : σ) :
    Except Stop (Cache × σ) := do
  let addr := line <<< g.lineBits
  let size := 2 ^ g.lineBits
  let (_, c, s) ← side next now
    { addr := addr, size := size, isWrite := false, debug := true, data := c.sideData } c s
  let (_, c, s) ← side next now
    { addr := addr, size := size, isWrite := true, data := c.sideData } c s
  return ({ c with nbWriteback := (c.nbWriteback + 1) % word }, s)

def flushTurns (g : Config) (next : Port σ) (now : Nat) : List Nat → Cache → σ →
    Except Stop (Cache × σ)
  | [], c, s => return (c, s)
  | line :: rest, c, s => do
      let (c, s) ← flushVictim g next now line c s
      flushTurns g next now rest c s

def flushVictims (g : Config) (next : Port σ) (now : Nat) (c : Cache) (s : σ) :
    Except Stop (Cache × σ) := do
  let (c, s) ← flushTurns g next now c.victims
    { c with sideData := resize c.sideData (2 ^ g.lineBits) } s
  return ({ c with victims := [] }, s)

/-- The refill a write-back cache times: the request itself, or for a store that
misses one of its own. -/
def refill (g : Config) (next : Port σ) (now : Nat) (req answer : Req) (c : Cache) (s : σ) :
    Except Stop (Int × Cache × σ) :=
  if c.probe g req.addr req.size then return (0, c, s)
  else if req.isWrite then timedFill g next now req.addr req.size c s
  else return (answer.latency, c, s)

def Req.access (r : Req) (now : Nat) (nextLevelLatency : Int) : Access :=
  { now := now, addr := r.addr, size := r.size, isWrite := r.isWrite,
    nextLevelLatency := nextLevelLatency }

def forward (next : Port σ) : Port (Cache × σ) := fun now req (c, s) => do
  let (status, answer, s) ← next now req s
  return (status, answer, (c, s))

def reqWriteback (g : Config) (next : Port σ) : Port (Cache × σ) := fun now req (c, s) =>
  if req.debug then forward next now req (c, s)
  else do
    -- Only a load that misses reaches the next level as a timed request.
    let isRefill := !c.probe g req.addr req.size && !req.isWrite
    let (status, answer, s) ← next now { req with debug := !isRefill } s
    let answer := { answer with debug := if isRefill then answer.debug else false }
    if status = .invalid then return (status, answer, (c, s))
    else do
      expectOk status
      let (nextLevelLatency, c, s) ← refill g next now req answer c s
      let (latency, c) := c.access g (req.access now nextLevelLatency)
      let (c, s) ← flushVictims g next now c s
      return (.ok, { answer with latency := latency }, (c, s))

def reqThrough (g : Config) (next : Port σ) : Port (Cache × σ) := fun now req (c, s) => do
  -- A load served here still takes its bytes from the next level, untimed.
  let servedHere := !req.debug && !req.isWrite && c.probe g req.addr req.size
  let (status, answer, s) ← next now { req with debug := req.debug || servedHere } s
  let answer := { answer with debug := if servedHere then false else answer.debug }
  if req.debug || status = .invalid then return (status, answer, (c, s))
  else
    let (latency, c) := c.access g (req.access now answer.latency)
    let latency := if status = .ok then latency else answer.latency + latency
    return (status, { answer with latency := latency }, (c, s))

/-- `TimingCache::req`. -/
def req (g : Config) (next : Port σ) : Port (Cache × σ) :=
  if g.writeback then reqWriteback g next else reqThrough g next

end Requests

end HeteroSim.TimingCache
