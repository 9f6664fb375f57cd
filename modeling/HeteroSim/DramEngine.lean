import HeteroSim.CombiningQueue
import HeteroSim.DramChannel
import HeteroSim.Effect

/-!
The timing engine around its channels: the write queue, `access`, and the
HyperRAM path. A computation may give up where a loop of the source need not
end (replanning and the loop over an access's bursts): `fuel` bounds these, and
the state it gives up in is one the source passes through. Counters are
naturals. `trace`, newest first, is a history variable that no function reads.
-/

namespace HeteroSim.DramEngine

open DramParams DramChannel
open Effect (bind_run get_run set_run)

structure Stats where
  reads : Nat := 0
  writes : Nat := 0
  bursts : Nat := 0
  rowHits : Nat := 0
  rowMisses : Nat := 0
  rowConflicts : Nat := 0
  refreshes : Nat := 0
  forwarded : Nat := 0
  merged : Nat := 0
  busyPs : Int := 0

structure QueuedWrite where
  arrive : Int
  addr : Nat

structure Engine where
  g : Config
  st : Stats := {}
  chan : List Channel := []
  wq : List QueuedWrite := []
  leaving : List Int := []
  hbFree : Int := 0
  trace : List (CombiningQueue.Note Nat) := []

def create (p : Params) : Except String Engine := do
  let g ← configure p
  return { g := g
           chan := if g.hyperram then [] else List.replicate p.channels.toNat (Channel.fresh p) }

abbrev Op := EStateM Unit Engine

def Engine.channel (e : Engine) (ch : Int) : Channel :=
  e.chan.getD ch.toNat (Channel.fresh e.g.p)

/-- `refresh(c, t)` on the engine's channel `ch`. -/
def Engine.refresh (e : Engine) (ch : Int) (t : Int) : Engine :=
  let refreshed := (e.channel ch).refresh e.g.p t
  { e with
    chan := e.chan.set ch.toNat refreshed.1
    st := { e.st with refreshes := e.st.refreshes + refreshed.2 } }

def Stats.serve (st : Stats) (kind : RowKind) (refreshes : Nat) (burstPs : Int) : Stats :=
  { st with
    bursts := st.bursts + 1
    rowHits := if kind = .hit then st.rowHits + 1 else st.rowHits
    rowMisses := if kind = .miss then st.rowMisses + 1 else st.rowMisses
    rowConflicts := if kind = .conflict then st.rowConflicts + 1 else st.rowConflicts
    refreshes := st.refreshes + refreshes
    busyPs := st.busyPs + burstPs }

def burst (fuel : Nat) (arrive : Int) (addr : Nat) (w : Bool) : Op Int := do
  let e ← get
  let k := decode e.g addr
  match (e.channel k.ch).burst e.g fuel k arrive w with
  | none => throw ()
  | some (c, refreshes, pl) => do
      set { e with
            chan := e.chan.set k.ch.toNat c
            st := e.st.serve pl.kind refreshes e.g.burstPs
            trace := .committed addr w :: e.trace }
      return pl.dataEnd

theorem burst_runs {e : Engine} {c : Channel} {n : Nat} {pl : Plan} (fuel : Nat) (arrive : Int)
    (addr : Nat) (w : Bool)
    (ended : (e.channel (decode e.g addr).ch).burst e.g fuel (decode e.g addr) arrive w =
      some (c, n, pl)) :
    burst fuel arrive addr w e = .ok pl.dataEnd
      { e with
        chan := e.chan.set (decode e.g addr).ch.toNat c
        st := e.st.serve pl.kind n e.g.burstPs
        trace := .committed addr w :: e.trace } := by
  simp only [burst, bind_run, get_run, ended, set_run]
  rfl

/-! ### The write queue -/

def issueOldest (fuel : Nat) (t : Int) : Op Unit := do
  let e ← get
  match e.wq with
  | [] => return
  | q :: rest => do
      set { e with wq := rest }
      let dataEnd ← burst fuel (max t q.arrive) q.addr true
      modify fun e => { e with leaving := e.leaving ++ [dataEnd] }

/-- The loop of `drain_idle`: every turn that goes on takes a write off the
queue, so the queue's length bounds the turns. -/
def drainTurns (fuel : Nat) (t : Int) : Nat → Op Unit
  | 0 => return
  | turns + 1 => do
      let e ← get
      match e.wq with
      | [] => return
      | q :: _ => do
          let k := decode e.g q.addr
          let start := max q.arrive (e.channel k.ch).order
          if t ≤ start then return
          else do
            set (e.refresh k.ch start)
            let e ← get
            if t ≤ ((e.channel k.ch).plan e.g k start true).col then return
            else do
              issueOldest fuel start
              drainTurns fuel t turns

def drainIdle (fuel : Nat) (t : Int) : Op Unit := do
  let e ← get
  drainTurns fuel t e.wq.length

def Engine.retire (e : Engine) (t : Int) : Engine :=
  { e with leaving := e.leaving.dropWhile fun dataEnd => decide (dataEnd ≤ t) }

/-- `if (leaving.empty()) issue_oldest(t)`. -/
def makeRoom (fuel : Nat) (t : Int) : Op Unit := do
  let e ← get
  if e.leaving.isEmpty then issueOldest fuel t else return

/-- A full queue holds the write back. Every turn that goes on gives up one
slot, so the slots in use bound the turns. -/
def holdBack (fuel : Nat) : Nat → Int → Op Int
  | 0, t => return t
  | turns + 1, t => do
      let e ← get
      if ((e.wq.length + e.leaving.length : Nat) : Int) < e.g.p.wqDepth then return t
      else do
        makeRoom fuel t
        let e ← get
        match e.leaving with
        | [] => return t
        | dataEnd :: rest => do
            set { e with leaving := rest }
            holdBack fuel turns (max t dataEnd)

/-- `while (wq.size() >= wq_low) issue_oldest(t)`. -/
def drainBatch (fuel : Nat) (t : Int) : Nat → Op Unit
  | 0 => return
  | turns + 1 => do
      let e ← get
      if (e.wq.length : Int) < e.g.p.wqLow then return
      else do
        issueOldest fuel t
        drainBatch fuel t turns

def drainHigh (fuel : Nat) (t : Int) : Op Unit := do
  let e ← get
  if e.g.p.wqHigh < e.wq.length then drainBatch fuel t e.wq.length else return

def enqueue (fuel : Nat) (arrive : Int) (addr : Nat) : Op Int := do
  modify fun e => e.retire arrive
  let e ← get
  let t ← holdBack fuel (e.wq.length + e.leaving.length) arrive
  modify fun e => { e with wq := e.wq ++ [⟨t, addr⟩], trace := .accepted addr :: e.trace }
  drainHigh fuel t
  return t

/-- One burst through the write queue. -/
def queued (fuel : Nat) (arrive : Int) (addr : Nat) (w : Bool) : Op Int := do
  drainIdle fuel arrive
  let e ← get
  if e.wq.any (fun q => q.addr == addr) then
    if w then do
      set { e with st := { e.st with merged := e.st.merged + 1 }
                   trace := .merged addr :: e.trace }
      return arrive
    else do
      set { e with st := { e.st with forwarded := e.st.forwarded + 1 }
                   trace := .forwarded addr :: e.trace }
      return arrive + e.g.p.tCK
  else if w then enqueue fuel arrive addr
  else burst fuel arrive addr false

/-! ### `access` -/

def word : Nat := 2 ^ 64

/-- `addr & ~(uint64_t)(align - 1)`. -/
def firstOf (align : Int) (addr : Nat) : Nat := addr &&& (word - 1 - (align.toNat - 1))

/-- `(addr + size - 1) | (uint64_t)(align - 1)`. -/
def lastOf (align : Int) (addr size : Nat) : Nat :=
  ((addr + size - 1) % word) ||| (align.toNat - 1)

def present (fuel : Nat) (arrive : Int) (addr : Nat) (w : Bool) : Op Int := do
  let e ← get
  if 0 < e.g.p.wqDepth then queued fuel arrive addr w else burst fuel arrive addr w

/-- `for (uint64_t a = first; a < last; a += burst_bytes)`. -/
def accessTurns (fuel : Nat) (arrive : Int) (last : Nat) (w : Bool) : Nat → Nat → Int → Op Int
  | 0, a, done => if a < last then throw () else return done
  | turns + 1, a, done =>
      if a < last then do
        modify fun e => { e with trace := .presented a w :: e.trace }
        let e ← get
        let dataEnd ← present fuel arrive a w
        accessTurns fuel arrive last w turns ((a + e.g.burstBytes.toNat) % word) (max done dataEnd)
      else return done

def chunks (p : Params) (overhead bytesPerClk maxChunk : Int) :
    Nat → Int → Int → Int → Stats → Option (Int × Stats)
  | 0, bytes, _, ended, st => if 0 < bytes then none else some (ended, st)
  | turns + 1, bytes, t, ended, st =>
      if 0 < bytes then
        let chunk := min bytes maxChunk
        let dataClks := (chunk + bytesPerClk - 1).tdiv bytesPerClk
        let ended := t + (overhead + dataClks) * p.hbCkPs
        chunks p overhead bytesPerClk maxChunk turns (bytes - chunk) (ended + p.hbRwrPs) ended
          { st with bursts := st.bursts + 1, busyPs := st.busyPs + dataClks * p.hbCkPs }
      else some (ended, st)

/-- The conversion of a 64-bit word to `int64_t`. -/
def toInt64 (v : Nat) : Int :=
  if v % word < 2 ^ 63 then (v % word : Nat) else ((v % word : Nat) : Int) - word

/-- `~(uint64_t)(granule - 1)` and `(uint64_t)(granule - 1)` are taken as in
`access`: the constructor makes the granule positive. -/
def accessHyperram (fuel : Nat) (now : Int) (addr size : Nat) : Op Int := do
  let e ← get
  let p := e.g.p
  let first := firstOf p.granule addr
  let last := lastOf p.granule addr size
  let bytes := toInt64 (last + word - first + 1)
  let bytesPerClk := 2 * p.hbBusBytes
  let lat := p.hbLatClks * if p.hbFixed2x ≠ 0 then 2 else 1
  let overhead := p.hbCaClks + lat
  let maxClks := p.hbCsmPs.tdiv p.hbCkPs - overhead
  let maxChunk := max bytesPerClk (maxClks * bytesPerClk)
  let t := max (now + p.ctrlPs.tdiv 2) e.hbFree
  match chunks p overhead bytesPerClk maxChunk fuel bytes t t e.st with
  | none => throw ()
  | some (ended, st) => do
      set { e with st := st, hbFree := ended + p.hbRwrPs }
      return ended + (p.ctrlPs - p.ctrlPs.tdiv 2)

def Stats.request (st : Stats) (w : Bool) : Stats :=
  if w then { st with writes := st.writes + 1 } else { st with reads := st.reads + 1 }

/-- Completion time of an access arriving at `now`. -/
def access (fuel : Nat) (now : Int) (addr size : Nat) (w : Bool) : Op Int := do
  let size := if size = 0 then 1 else size
  modify fun e => { e with st := e.st.request w }
  let e ← get
  if e.g.hyperram then accessHyperram fuel now addr size
  else do
    let arrive := now + e.g.p.ctrlPs.tdiv 2
    let done ← accessTurns fuel arrive (lastOf e.g.align addr size) w fuel
      (firstOf e.g.align addr) arrive
    return done + (e.g.p.ctrlPs - e.g.p.ctrlPs.tdiv 2)

end HeteroSim.DramEngine
