import HeteroSim.Backend
import HeteroSim.BoundedLog
import Mathlib.Algebra.Group.Nat.Defs
import Mathlib.Data.Finset.Basic

/-!
The desktop program's job queue: what `update` makes of a message, as far as jobs,
their logs and the sweep in progress go. Times, the tabs' own state and the lists
of operators and of sweeps on disk are left out. `F` is the type of the numbers
with a fraction, whose texts and whose JSON are given.
-/

namespace HeteroSim.JobQueue

open Backend

/-- `LOG_LINES`. -/
def logLines : Nat := 4000

inductive JobKind where
  | makeOp
  | run (out : Text)
  | sweep (out : Text)
  deriving DecidableEq

inductive JobStatus where
  | queued
  | running
  | finished (code : Option Int)
  | failed (msg : Text)
  | cancelled
  deriving DecidableEq

def JobStatus.isActive : JobStatus → Bool
  | .queued | .running => true
  | _ => false

def showInt : Int → Text
  | .ofNat n => Nat.toDigits 10 n
  | .negSucc n => '-' :: Nat.toDigits 10 (n + 1)

def JobStatus.label : JobStatus → Text
  | .queued => "queued".toList
  | .running => "running".toList
  | .finished (some 0) => "done".toList
  | .finished (some c) => "exit ".toList ++ showInt c
  | .finished none => "killed".toList
  | .failed _ => "failed to start".toList
  | .cancelled => "cancelled".toList

structure Job where
  id : Nat
  title : Text
  kind : JobKind
  invocation : Invocation
  launch : Option Launch
  status : JobStatus
  pid : Option Nat
  log : List Text
  progress : Option (Nat × Nat)
  phase : Text
  deriving DecidableEq

structure NewJob where
  title : Text
  kind : JobKind
  inv : Invocation

def Job.new (id : Nat) (title : Text) (kind : JobKind) (invocation : Invocation) : Job :=
  { id, title, kind, invocation, launch := none, status := .queued, pid := none, log := []
    progress := none, phase := [] }

def Job.pushLine (job : Job) (line : Text) : Job :=
  { job with log := BoundedLog.push logLines job.log line }

inductive Channel where
  | stdout
  | stderr
  deriving DecidableEq

inductive JobEvent where
  | started (pid : Option Nat)
  | line (channel : Channel) (text : Text)
  | exited (code : Option Int)
  | spawnFailed (msg : Text)

/-! ### Texts -/

/-- The text before and after the first `sep`. -/
def cut (sep : Text) : Text → Option (Text × Text)
  | [] => if sep = [] then some ([], []) else none
  | c :: rest =>
      if sep.isPrefixOf (c :: rest) then some ([], (c :: rest).drop sep.length)
      else (cut sep rest).map fun parts => (c :: parts.1, parts.2)

/-- `char::is_whitespace`: what Unicode calls `White_Space`. -/
def isWhiteSpace (c : Char) : Bool :=
  let n := c.toNat
  decide (0x9 ≤ n ∧ n ≤ 0xd ∨ n = 0x20 ∨ n = 0x85 ∨ n = 0xa0 ∨ n = 0x1680 ∨
    0x2000 ≤ n ∧ n ≤ 0x200a ∨ n = 0x2028 ∨ n = 0x2029 ∨ n = 0x202f ∨ n = 0x205f ∨ n = 0x3000)

/-- `str::trim`. -/
def trim (s : Text) : Text :=
  ((s.dropWhile isWhiteSpace).reverse.dropWhile isWhiteSpace).reverse

/-- `str::parse::<usize>`. -/
def parseUsize (s : Text) : Option Nat :=
  let digits := match s with
    | '+' :: rest => rest
    | _ => s
  if digits = [] ∨ ¬ digits.all Char.isDigit then none
  else
    let n := digits.foldl (fun n c => n * 10 + (c.toNat - 48)) 0
    if n < 2 ^ 64 then some n else none

/-- The `(i/n)` at the end of a line of `run.py` or `make_op.py`. -/
def parseProgress (line : Text) : Option (Nat × Nat) := do
  let parts ← cut ['('] line.reverse
  let tail := parts.1.reverse
  let (a, b) ← cut ['/'] (tail.reverse.dropWhile (· = ')')).reverse
  return (← parseUsize (trim a), ← parseUsize (trim b))

/-- `explain_missing_script`, for one line. -/
def explainMissingScript (settings : Settings) (line : Text) : Option Text :=
  if (cut "can't open file".toList line).isSome ∧ (cut "pipeline/".toList line).isSome then
    let script := match cut "open file '".toList line with
      | none => "the script".toList
      | some (_, after) =>
          let piece := ((cut "open file '".toList after).map Prod.fst).getD after
          ((cut ['\''] piece).map Prod.fst).getD piece
    some (match settings.backend with
      | .docker =>
          "The Docker image \"".toList ++ settings.dockerImage ++ "\" has no ".toList ++ script ++
            (": it is older than this checkout. Rebuild it (docker build -t ").toList ++
            settings.dockerImage ++
            (" . in the workspace), choose a newer image in Settings, or tick \"Mount pipeline/, "
              ++
             "runtime/ and targets/\" there.").toList
      | .native =>
          script ++ " does not exist in the workspace ".toList ++ settings.workspace ++
            ": point Settings at an up-to-date checkout.".toList)
  else none

/-! ### A sweep's events -/

section Events

variable (F : Type)

structure SweepRow where
  designSlug : Text
  model : Text
  status : Text
  reasons : List Text
  cycles : Option Nat
  cyclesPerImage : Option Nat
  cyclesPerClip : Option Nat
  wallS : Option F

inductive SweepEvent where
  | start (total : Nat)
  | cell (index : Nat) (cell : Text)
  | phase (phase : Text)
  | row (done total : Nat) (etaS : Option F) (row : SweepRow F)
  | done (done total : Nat)

/-- What is not the program's own: `serde_json::from_str`, how the quotient of two
whole numbers prints to so many places, and how the wall time of a row does. -/
structure Library where
  parse : Text → Option (SweepEvent F)
  fixed : (places n divisor : Nat) → Text
  fmtWall : Option F → Text

variable {F}

def fmtCycles (lib : Library F) (c : Nat) : Text :=
  if c < 10000 then Nat.toDigits 10 c
  else if c < 1000000 then lib.fixed 1 c 1000 ++ ['k']
  else if c < 1000000000 then lib.fixed 2 c 1000000 ++ ['M']
  else lib.fixed 2 c 1000000000 ++ ['G']

/-- `SweepRow::cycles`. -/
def SweepRow.count (row : SweepRow F) : Option Nat :=
  ((row.cyclesPerImage.or row.cyclesPerClip).or row.cycles).filter (0 < ·)

/-- `lines().next()`. -/
def firstLine (s : Text) : Text :=
  let line := s.takeWhile (· ≠ '\n')
  if line.getLast? = some '\r' ∧ line.length < s.length then line.dropLast else line

def separator : Text := " · ".toList

def leading (phase : Text) : Text :=
  match cut separator phase with
  | none => phase
  | some (first, rest) =>
      first ++ separator ++ ((cut separator rest).map Prod.fst).getD rest

def sweepEvent (lib : Library F) (job : Job) : SweepEvent F → Job × Option Text
  | .start total =>
      ({ job with progress := some (0, total) },
        some ("sweep: ".toList ++ Nat.toDigits 10 total ++ " cells".toList))
  | .cell index cell =>
      ({ job with phase := cell },
        some ('[' :: Nat.toDigits 10 (index + 1) ++ "] ".toList ++ cell))
  | .phase phase => ({ job with phase := leading job.phase ++ separator ++ phase }, none)
  | .row done total _ row =>
      let why := match row.reasons with
        | [] => []
        | reason :: _ =>
            "  (".toList ++ (firstLine reason).take 120 ++ ")".toList
      ({ job with progress := some (done, total) },
        some ("  ".toList ++ row.designSlug ++ separator ++ row.model ++ ": ".toList
          ++ row.status ++
          " cycles=".toList ++ (row.count.map (fmtCycles lib)).getD "-".toList ++
          " wall=".toList ++ lib.fmtWall row.wallS ++ "s".toList ++ why))
  | .done done total =>
      (job, some ("sweep finished: ".toList ++ Nat.toDigits 10 done ++ '/' ::
        Nat.toDigits 10 total ++ " cells".toList))

end Events

/-! ### The program's state -/

section Queue

variable (F : Type)

structure Live where
  done : Nat := 0
  total : Nat := 0
  cell : Text := []
  phase : Text := []
  etaS : Option F := none
  running : Bool := false

structure App where
  settings : Settings
  draft : Settings
  jobs : List Job
  nextId : Nat
  selectedJob : Option Nat
  cancelRequested : Finset Nat
  current : Option Text
  rows : List (SweepRow F)
  live : Option (Text × Live F)
  toast : Option Text

/-- What is on disk when a message is handled: the rows in a sweep's directory, and
whether a run's result can be loaded. -/
structure Disk where
  rows : Text → List (SweepRow F)
  loads : Text → Bool

variable {F}

inductive Effect where
  | run (id : Nat) (launch : Launch)
  | cancel (launch : Launch) (pid : Option Nat)
  | copy (command : Text)
  | refreshOps
  | analyse (dir : Text)
  | reload

def alterFirst (p : Job → Bool) (f : Job → Job) : List Job → List Job
  | [] => []
  | job :: rest => if p job then f job :: rest else job :: alterFirst p f rest

def lookup (id : Nat) (jobs : List Job) : Option Job := jobs.find? fun job => job.id = id

def alter (id : Nat) (f : Job → Job) (jobs : List Job) : List Job :=
  alterFirst (fun job => job.id = id) f jobs

def countRunning (jobs : List Job) : Nat := jobs.countP fun job => job.status = .running

def isQueued (job : Job) : Bool := job.status = .queued

def enqueue (app : App F) (j : NewJob) : App F :=
  { app with
    jobs := app.jobs ++ [Job.new app.nextId j.title j.kind j.inv]
    nextId := app.nextId + 1
    selectedJob := some app.nextId }

def Job.started (job : Job) (launch : Launch) : Job :=
  { job.pushLine ("$ ".toList ++ launch.display) with launch := some launch, status := .running }

/-- The loop of `pump`: each turn starts the first queued job. -/
def startQueued (host : Host) (settings : Settings) (limit : Nat) :
    Nat → List Job → List Job × List Effect
  | 0, jobs => (jobs, [])
  | turns + 1, jobs =>
      if limit ≤ countRunning jobs then (jobs, [])
      else
        match jobs.find? isQueued with
        | none => (jobs, [])
        | some job =>
            let launch := launch host settings job.invocation job.id
            let (jobs, more) := startQueued host settings limit turns
              (alterFirst isQueued (·.started launch) jobs)
            (jobs, .run job.id launch :: more)

def pump (host : Host) (app : App F) : App F × List Effect :=
  let (jobs, effects) := startQueued host app.settings (max app.settings.concurrency 1)
    app.jobs.length app.jobs
  ({ app with jobs := jobs }, effects)

/-- `absorb`: what a tab asked for. -/
def absorb (host : Host) (disk : Disk F) (app : App F) (jobs : List NewJob) (refreshOps : Bool)
    (toast : Option Text) : App F × List Effect :=
  let app := { app with toast := toast.or app.toast }
  let started := jobs.findSome? fun j => match j.kind with
    | .sweep out => some out
    | _ => none
  let app := jobs.foldl enqueue app
  let app := match started with
    | some dir =>
        { app with
          current := some dir
          rows := disk.rows dir
          live := some (dir, { running := true, phase := "queued".toList }) }
    | none => app
  let (app, effects) := pump host app
  (app, (if refreshOps then [.refreshOps] else []) ++ effects)

def onSweepEvent (app : App F) (out : Text) (ev : SweepEvent F) : App F :=
  match app.live with
  | none => app
  | some (dir, live) =>
      if dir ≠ out then app
      else
        match ev with
        | .start total => { app with live := some (dir, { live with total := total }) }
        | .cell _ cell =>
            { app with live := some (dir, { live with cell := cell, phase := "starting".toList }) }
        | .phase phase => { app with live := some (dir, { live with phase := phase }) }
        | .row done total etaS row =>
            { app with
              live := some (dir, { live with done := done, total := total, etaS := etaS })
              rows := if app.current = some out then app.rows ++ [row] else app.rows }
        | .done done total =>
            { app with
              live := some (dir, { live with done := done, total := total, running := false }) }

/-- The sweep of `out` is no longer in progress. -/
def settle (out : Text) : Option (Text × Live F) → Option (Text × Live F)
  | some (dir, live) => some (dir, if dir = out then { live with running := false } else live)
  | none => none

/-- What a finished job feeds back into. -/
def finished (disk : Disk F) (app : App F) (id : Nat) : App F × List Effect :=
  match lookup id app.jobs with
  | none => (app, [])
  | some job =>
      match job.kind with
      | .makeOp =>
          ({ app with
            toast := some (job.title ++ if job.status = .finished (some 0) then ": done".toList
              else ": failed, see Jobs".toList) }, [.refreshOps])
      | .run out =>
          if disk.loads out then
            ({ app with toast := some (job.title ++ ": result in Compare cores".toList) }, [])
          else if job.status = .cancelled then (app, [])
          else
            ({ app with toast := some (job.title ++ ": no result written, see Jobs".toList) }, [])
      | .sweep out =>
          let app := { app with
            live := settle out app.live
            toast := some (job.title ++ ": ".toList ++ job.status.label) }
          if app.current = some out then ({ app with rows := disk.rows out }, [.analyse out])
          else (app, [])

def sweepLine (lib : Library F) (job : Job) (ch : Channel) (line : Text) :
    Option (Text × SweepEvent F) :=
  match job.kind, ch with
  | .sweep out, .stdout => (lib.parse line).map fun ev => (out, ev)
  | _, _ => none

/-- What a line that is no sweep event does to its job. -/
def Job.read (settings : Settings) (job : Job) (ch : Channel) (line : Text) : Job :=
  let job := match job.kind with
    | .run _ =>
        { job with
          progress := (parseProgress line).or job.progress
          phase := if ch = Channel.stdout ∧ trim line ≠ [] ∧ line.head? = some '[' then line.take 70
            else job.phase }
    | _ => job
  match explainMissingScript settings line with
  | none => job.pushLine line
  | some hint => { (job.pushLine line).pushLine hint with phase := hint }

def Job.heed (lib : Library F) (settings : Settings) (cancelRequested : Bool) (job : Job) :
    JobEvent → Job
  | .started pid => { job with pid := pid }
  | .line ch line =>
      match sweepLine lib job ch line with
      | some (_, ev) =>
          match sweepEvent lib job ev with
          | (job, some summary) => job.pushLine summary
          | (job, none) => job
      | none => job.read settings ch line
  | .spawnFailed msg => { job.pushLine msg with status := .failed msg }
  | .exited code =>
      let status := if cancelRequested then .cancelled else .finished code
      { job with status := status }.pushLine ('[' :: status.label ++ [']'])

def onJobEvent (lib : Library F) (host : Host) (disk : Disk F) (app : App F) (id : Nat)
    (e : JobEvent) : App F × List Effect :=
  match lookup id app.jobs with
  | none => (app, [])
  | some job =>
      let heard := { app with
        jobs := alter id (·.heed lib app.settings (decide (id ∈ app.cancelRequested)) e) app.jobs }
      match e with
      | .started _ => (heard, [])
      | .line ch line =>
          match sweepLine lib job ch line with
          | some (out, ev) => (onSweepEvent heard out ev, [])
          | none => (heard, [])
      | .spawnFailed _ =>
          let (app, told) := finished disk heard id
          let (app, effects) := pump host app
          (app, told ++ effects)
      | .exited _ =>
          let (app, told) := finished disk
            { heard with cancelRequested := app.cancelRequested.erase id } id
          let (app, effects) := pump host app
          (app, told ++ effects)

/-- `Cancel` in the jobs tab. -/
def onCancel (app : App F) (id : Nat) : App F × List Effect :=
  match lookup id app.jobs with
  | none => (app, [])
  | some job =>
      match job.status with
      | .queued =>
          ({ app with
            jobs := alter id (fun job => { job with status := .cancelled }) app.jobs
            live := match job.kind with
              | .sweep out => settle out app.live
              | _ => app.live }, [])
      | .running =>
          ({ app with
            jobs := alter id (·.pushLine "[cancelling…]".toList) app.jobs
            cancelRequested := insert id app.cancelRequested },
            match job.launch with
            | some l => [.cancel l job.pid]
            | none => [])
      | _ => (app, [])

inductive Message (F : Type) where
  | ask (jobs : List NewJob) (refreshOps : Bool) (toast : Option Text)
  | showSweep (dir : Text)
  | select (id : Nat)
  | copy (id : Nat)
  | cancel (id : Nat)
  | clearFinished
  | edit (draft : Settings)
  | revert
  | apply (error : Option Text)
  | job (id : Nat) (e : JobEvent)

def update (lib : Library F) (host : Host) (disk : Disk F) (app : App F) :
    Message F → App F × List Effect
  | .ask jobs refreshOps toast => absorb host disk app jobs refreshOps toast
  | .showSweep dir => ({ app with current := some dir, rows := disk.rows dir }, [])
  | .select id => ({ app with selectedJob := some id }, [])
  | .copy id =>
      match (lookup id app.jobs).bind Job.launch with
      | some l => ({ app with toast := some "command copied".toList }, [.copy l.display])
      | none => (app, [])
  | .cancel id => onCancel app id
  | .clearFinished =>
      let jobs := app.jobs.filter (·.status.isActive)
      ({ app with
        jobs := jobs
        selectedJob := app.selectedJob.filter fun id => jobs.any fun job => job.id = id }, [])
  | .edit draft => ({ app with draft := draft }, [])
  | .revert => ({ app with draft := app.settings }, [])
  | .apply error =>
      let (app, effects) := pump host
        { app with
          settings := app.draft
          toast := (error.map ("settings not saved: ".toList ++ ·)).or app.toast }
      (app, .reload :: effects)
  | .job id e => onJobEvent lib host disk app id e

end Queue

end HeteroSim.JobQueue
