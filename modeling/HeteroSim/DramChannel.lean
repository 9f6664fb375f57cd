import HeteroSim.DramParams
import Mathlib.Logic.Relation
import Mathlib.Logic.Function.Iterate

/-!
One channel of the timing engine: `plan`, `commit`, `refresh` and the replanning
loop of `burst`, on the channel's own state. `log` is a history variable, newest
event first, that no function reads; the laws of the channel are stated on it.
-/

namespace HeteroSim.DramChannel

open DramParams

/-- `INT64_MIN / 4`: the time of a command that never happened. -/
def never : Int := -(2 ^ 61)

structure Bank where
  openRow : Int := -1
  act : Int := never
  actOk : Int := 0
  preOk : Int := 0

inductive RowKind where
  | hit | miss | conflict
  deriving DecidableEq

structure Plan where
  k : Coord
  bank : Nat
  kind : RowKind
  act : Int
  firstCmd : Int
  col : Int
  dataEnd : Int

structure Burst where
  arrive : Int
  pl : Plan
  w : Bool

/-- A committed burst, or a refresh from its precharge-all start to its end. -/
inductive Event where
  | burst (x : Burst)
  | refresh (start stop : Int)

structure Channel where
  banks : List Bank
  order : Int := 0
  busFree : Int := 0
  lastCol : Int := never
  lastColRank : Int := -1
  lastColBg : Int := -1
  lastWasWrite : Bool := false
  lastWriteEnd : Int := never
  lastAct : Int := never
  lastActRank : Int := -1
  lastActBg : Int := -1
  faw : List (List Int)
  nextRefresh : Int
  log : List Event := []

def Channel.fresh (p : Params) : Channel :=
  { banks := List.replicate (bankCount p) {}
    faw := List.replicate p.ranks.toNat []
    nextRefresh := p.tREFI }

def Channel.bank (c : Channel) (i : Nat) : Bank := c.banks.getD i {}

def Channel.acts (c : Channel) (rank : Int) : List Int := c.faw.getD rank.toNat []

/-! ### `plan` -/

/-- The ACTIVATE a closed or conflicting bank gets, at or after `act`. -/
def Channel.actAt (p : Params) (c : Channel) (b : Bank) (k : Coord) (act : Int) : Int :=
  let act := max (max act b.actOk) (b.act + p.tRC)
  let act := if c.lastActRank = k.ra then
      max act (c.lastAct + if c.lastActBg = k.bg then p.tRRD_L else p.tRRD_S)
    else act
  if (c.acts k.ra).length = 4 then max act ((c.acts k.ra).headD 0 + p.tFAW) else act

def Channel.sameGroup (c : Channel) (k : Coord) : Bool :=
  c.lastColRank == k.ra && c.lastColBg == k.bg

/-- The column command at or after `col`: ordering, bank-group spacing and bus
turnarounds. -/
def Channel.colAt (p : Params) (c : Channel) (k : Coord) (w : Bool) (col : Int) : Int :=
  let same := c.sameGroup k
  let col := max col (c.lastCol + if same then p.tCCD_L else p.tCCD_S)
  let col := if !w && c.lastWasWrite then
      max col (c.lastWriteEnd + if same then p.tWTR_L else p.tWTR_S)
    else col
  if w && !c.lastWasWrite then
    max col (c.lastCol + if same && p.tRTW_L != 0 then p.tRTW_L else p.tRTW)
  else col

def latency (p : Params) (w : Bool) : Int := if w then p.tWL else p.tRL

def Channel.settle (g : Config) (c : Channel) (k : Coord) (w : Bool) (kind : RowKind)
    (act firstCmd col : Int) : Plan :=
  let lat := latency g.p w
  let data := max (c.colAt g.p k w col + lat) c.busFree
  { k := k, bank := bankIndex g.p k, kind := kind, act := act, firstCmd := firstCmd
    col := data - lat, dataEnd := data + g.burstPs }

def Channel.plan (g : Config) (c : Channel) (k : Coord) (t : Int) (w : Bool) : Plan :=
  let p := g.p
  let b := c.bank (bankIndex p k)
  if b.openRow = k.row then
    let col := max t (b.act + p.tRCD)
    c.settle g k w .hit b.act col col
  else if 0 ≤ b.openRow then
    let pre := max (max t (b.act + p.tRAS)) b.preOk
    let act := c.actAt p b k (pre + p.tRP)
    c.settle g k w .conflict act (if pre < 0 then act else pre) (act + p.tRCD)
  else
    let act := c.actAt p b k t
    c.settle g k w .miss act act (act + p.tRCD)

/-! ### `commit` -/

/-- `if (faw.size() == 4) faw.pop_front(); faw.push_back(act)`. -/
def pushAct (faw : List Int) (act : Int) : List Int :=
  (if faw.length = 4 then faw.tail else faw) ++ [act]

/-- The part of `commit` that only a burst opening its row runs. -/
def Channel.activate (c : Channel) (pl : Plan) : Channel :=
  if pl.kind = .hit then c else
    { c with
      faw := c.faw.modify pl.k.ra.toNat fun q => pushAct q pl.act
      lastAct := pl.act
      lastActRank := pl.k.ra
      lastActBg := pl.k.bg
      banks := c.banks.modify pl.bank fun b => { b with openRow := pl.k.row, act := pl.act } }

def Plan.order (pl : Plan) : Int := min pl.firstCmd pl.col

def Channel.commit (g : Config) (c : Channel) (arrive : Int) (pl : Plan) (w : Bool) : Channel :=
  let c := c.activate pl
  let recovered := if w then pl.dataEnd + g.p.tCK + g.p.tWR else pl.col + g.p.tRTP
  { c with
    busFree := pl.dataEnd
    lastCol := pl.col
    lastColRank := pl.k.ra
    lastColBg := pl.k.bg
    lastWasWrite := w
    lastWriteEnd := if w then pl.dataEnd else c.lastWriteEnd
    order := pl.order
    banks := c.banks.modify pl.bank fun b => { b with preOk := max b.preOk recovered }
    log := .burst ⟨arrive, pl, w⟩ :: c.log }

/-! ### `refresh` -/

/-- The loop over the banks that finds when a refresh due at `start` may begin,
and whether a bank is open. -/
def refreshScan (p : Params) : List Bank → Int → Bool → Int × Bool
  | [], start, anyOpen => (start, anyOpen)
  | b :: rest, start, anyOpen =>
      let opened := decide (0 ≤ b.openRow)
      let start := if opened then max (max start (b.act + p.tRAS)) b.preOk else start
      refreshScan p rest (max start b.actOk) (anyOpen || opened)

def Channel.refreshWindow (p : Params) (c : Channel) : Int × Int :=
  let scanned := refreshScan p c.banks (max c.nextRefresh c.busFree) false
  (scanned.1, (if scanned.2 then scanned.1 + p.tRPab else scanned.1) + p.tRFC)

def Channel.refreshOnce (p : Params) (c : Channel) : Channel :=
  let window := c.refreshWindow p
  { c with
    banks := c.banks.map fun b => { b with openRow := -1, actOk := max b.actOk window.2 }
    nextRefresh := c.nextRefresh + p.tREFI
    log := .refresh window.1 window.2 :: c.log }

def Channel.skipped (p : Params) (c : Channel) (stop t : Int) : Nat :=
  if c.nextRefresh + p.tRFC ≤ t ∧ stop ≤ c.nextRefresh then
    ((t - p.tRFC - c.nextRefresh).tdiv p.tREFI).toNat
  else 0

def skippedEvents (p : Params) (first : Int) : Nat → List Event
  | 0 => []
  | n + 1 => .refresh (first + n * p.tREFI) (first + n * p.tREFI + p.tRFC) ::
      skippedEvents p first n

def Channel.skipAhead (p : Params) (c : Channel) (n : Nat) : Channel :=
  if n = 0 then c else
    let nextRefresh := c.nextRefresh + n * p.tREFI
    let lastEnd := nextRefresh - p.tREFI + p.tRFC
    { c with
      nextRefresh := nextRefresh
      banks := c.banks.map fun b => { b with actOk := max b.actOk lastEnd }
      log := skippedEvents p c.nextRefresh n ++ c.log }

/-- `while (c.next_refresh <= t)`, with the refreshes counted. Every turn moves
`nextRefresh` on by `tREFI`, at least 1, so `turns` covers the distance to `t`. -/
def Channel.refreshLoop (p : Params) (t : Int) : Nat → Channel → Channel × Nat
  | 0, c => (c, 0)
  | turns + 1, c =>
      if c.nextRefresh ≤ t then
        let once := c.refreshOnce p
        let n := once.skipped p (c.refreshWindow p).2 t
        let rest := Channel.refreshLoop p t turns (once.skipAhead p n)
        (rest.1, rest.2 + 1 + n)
      else (c, 0)

/-- Process every refresh due by `t`, and count them. -/
def Channel.refresh (p : Params) (c : Channel) (t : Int) : Channel × Nat :=
  if p.tREFI ≤ 0 then (c, 0)
  else c.refreshLoop p t (t + 1 - c.nextRefresh).toNat

/-! ### `burst` -/

/-- The replanning loop: a refresh due before the column command goes first.
`fuel` bounds its turns; `none` is a loop that has not ended yet. -/
def Channel.replan (g : Config) (k : Coord) (t : Int) (w : Bool) :
    Nat → Channel → Option (Channel × Nat × Plan)
  | 0, _ => none
  | fuel + 1, c =>
      let pl := c.plan g k t w
      if 0 < g.p.tREFI ∧ c.nextRefresh ≤ pl.col then do
        let refreshed := c.refresh g.p pl.col
        let (c, n, pl) ← Channel.replan g k t w fuel refreshed.1
        return (c, refreshed.2 + n, pl)
      else some (c, 0, pl)

/-- Plan, let any refresh the burst would run into go first, commit. The second
component counts the refreshes. -/
def Channel.burst (g : Config) (fuel : Nat) (c : Channel) (k : Coord) (arrive : Int)
    (w : Bool) : Option (Channel × Nat × Plan) := do
  let t := max arrive c.order
  let due := c.refresh g.p t
  let (c, n, pl) ← due.1.replan g k t w fuel
  return (c.commit g arrive pl w, due.2 + n, pl)

end HeteroSim.DramChannel
