import HeteroSim.ClusterJob

/-!
The mailbox between the host and one cluster: `hes_post`, `hes_wait` and
`hes_offload` on one side, the control core's job loop on the other, one word
access a step. Calls on another engine do not touch this mailbox and are not
steps here. The run starts when the cluster has signed in and `hes_engine_init`
has read its `done_seq`. The heartbeat texts are left out.
-/

namespace HeteroSim.Mailbox

open SharedWords ClusterJob

/-- `hes_result_t`. -/
structure Result where
  cycles : UInt32 := 0
  nbCores : UInt32 := 0
  staged : UInt32 := 0
  ok : Bool := false
  error : UInt32 := 0

/-- The arguments of `hes_post`. -/
structure Job where
  kernel : UInt32
  args : Nat → UInt32
  nargs : UInt32
  flags : UInt32

def Job.flagged (job : Job) (requiresStaging : Bool) : Job :=
  if requiresStaging then { job with flags := job.flags ||| jobStage } else job

def Job.slots (job : Job) : Nat := min job.nargs.toNat maxArgs

/-- The stores of `hes_post` that come before the job number. -/
def Job.stores (job : Job) : List (Word × UInt32) :=
  (List.range job.slots).map (fun i => (.args i, job.args i)) ++
    [(.kernelId, job.kernel), (.nargs, job.nargs), (.flags, job.flags)]

/-- The words a job posts and their values. -/
def Job.posted (job : Job) : Word → Option UInt32
  | .kernelId => some job.kernel
  | .nargs => some job.nargs
  | .flags => some job.flags
  | .args i => if i < job.slots then some (job.args i) else none
  | _ => none

/-- `HES_MAX_HEARTBEATS * HES_HEARTBEAT_POLLS`. -/
def maxPolls : Nat := 200 * 2 ^ 16

abbrev Collect := Thread Word UInt32 Empty Result

/-- What `hes_wait` reads once the job is done. -/
def collect : Collect := do
  let cycles ← Thread.load .cycles .ret
  let nbCores ← Thread.load .nbCores .ret
  let staged ← Thread.load .staged .ret
  let error ← Thread.load .error .ret
  let trapCause ← Thread.load .trapCause .ret
  if trapCause = 0 then do
    let again ← Thread.load .error .ret
    return { cycles, nbCores, staged, error, ok := again = 0 }
  else return { cycles, nbCores, staged, error, ok := false }

/-- Where the host is in a call on this engine. `waits` is set in `hes_offload`. -/
inductive Host where
  | idle
  | posting (job : Job) (rest : List (Word × UInt32)) (waits : Bool)
  | ringing (waits : Bool)
  | waiting
  | polling (left : Nat)
  | collecting (rest : Collect)

inductive Control where
  | looking
  | asleep
  | waking
  | taking
  | serving (rest : Core Unit)
  | parked

structure Link where
  words : Word → UInt32
  doorbell : Bool
  nextSeq : UInt32
  inFlight : Bool
  busyCycles : UInt32
  host : Host
  served : UInt32
  control : Control

def setWord (words : Word → UInt32) (w : Word) (v : UInt32) : Word → UInt32 :=
  fun other => if other = w then v else words other

inductive Event where
  | refuse
  | accept (job : Job)
  | store (w : Word) (v : UInt32)
  | publish
  | ring
  | wait
  | look (w : Word) (v : UInt32)
  | poll
  | done
  | giveUp
  | result (r : Result)
  | check
  | wake
  | clear
  | take
  | coreLoad (w : Word) (v : UInt32)
  | coreStore (w : Word) (v : UInt32)
  | coreAct (a : Act)
  | finish
  | trap

inductive HostStep (requiresStaging : Bool) : Link → Event → Link → Prop
  | refuse (l : Link) (idle : l.host = .idle) (busy : l.inFlight = true) :
      HostStep requiresStaging l .refuse l
  | accept (l : Link) (job : Job) (waits : Bool) (idle : l.host = .idle)
      (free : l.inFlight = false) :
      HostStep requiresStaging l (.accept (job.flagged requiresStaging))
        { l with
          host := .posting (job.flagged requiresStaging) (job.flagged requiresStaging).stores
            waits }
  | store (l : Link) (job : Job) (w : Word) (v : UInt32) (rest : List (Word × UInt32))
      (waits : Bool) (here : l.host = .posting job ((w, v) :: rest) waits) :
      HostStep requiresStaging l (.store w v)
        { l with words := setWord l.words w v, host := .posting job rest waits }
  | publish (l : Link) (job : Job) (waits : Bool) (here : l.host = .posting job [] waits) :
      HostStep requiresStaging l .publish
        { l with
          words := setWord l.words .seq (l.nextSeq + 1)
          nextSeq := l.nextSeq + 1
          host := .ringing waits }
  | ring (l : Link) (waits : Bool) (here : l.host = .ringing waits) :
      HostStep requiresStaging l .ring
        { l with
          doorbell := true
          inFlight := true
          host := if waits then .waiting else .idle }
  | nothing (l : Link) (idle : l.host = .idle) (free : l.inFlight = false) :
      HostStep requiresStaging l (.result {}) l
  | wait (l : Link) (idle : l.host = .idle) (busy : l.inFlight = true) :
      HostStep requiresStaging l .wait { l with host := .waiting }
  | begin (l : Link) (here : l.host = .waiting) :
      HostStep requiresStaging l (.look .kernelId (l.words .kernelId))
        { l with inFlight := false, host := .polling maxPolls }
  | poll (l : Link) (left : Nat) (here : l.host = .polling (left + 1))
      (running : l.words .doneSeq ≠ l.nextSeq) :
      HostStep requiresStaging l .poll { l with host := .polling left }
  | done (l : Link) (left : Nat) (here : l.host = .polling (left + 1))
      (same : l.words .doneSeq = l.nextSeq) :
      HostStep requiresStaging l .done { l with host := .collecting collect }
  | giveUp (l : Link) (here : l.host = .polling 0) :
      HostStep requiresStaging l .giveUp { l with host := .idle }
  | gather (l : Link) (w : Word) (next : UInt32 → Collect)
      (here : l.host = .collecting (.load w next)) :
      HostStep requiresStaging l (.look w (l.words w))
        { l with host := .collecting (next (l.words w)) }
  | answer (l : Link) (r : Result) (here : l.host = .collecting (.ret r)) :
      HostStep requiresStaging l (.result r)
        { l with busyCycles := l.busyCycles + r.cycles, host := .idle }

/-- One step of the control core. `active` and `cycles` stand for what the
active arguments held and for what the cycle counter will say. A trap of a
compute core leaves the control core in the barrier for good. -/
inductive CoreStep (c : Cluster) : Link → Event → Link → Prop
  | sleep (l : Link) (here : l.control = .looking) (same : l.words .seq = l.served) :
      CoreStep c l .check { l with control := .asleep }
  | notice (l : Link) (here : l.control = .looking) (fresh : l.words .seq ≠ l.served) :
      CoreStep c l .check { l with control := .taking }
  | wake (l : Link) (here : l.control = .asleep) (rung : l.doorbell = true) :
      CoreStep c l .wake { l with control := .waking }
  | clear (l : Link) (here : l.control = .waking) :
      CoreStep c l .clear { l with doorbell := false, control := .looking }
  | take (l : Link) (active : Nat → UInt32) (cycles : UInt32) (here : l.control = .taking) :
      CoreStep c l .take
        { l with served := l.words .seq, control := .serving (serve c active cycles) }
  | load (l : Link) (w : Word) (next : UInt32 → Core Unit)
      (here : l.control = .serving (.load w next)) :
      CoreStep c l (.coreLoad w (l.words w)) { l with control := .serving (next (l.words w)) }
  | store (l : Link) (w : Word) (v : UInt32) (next : Core Unit)
      (here : l.control = .serving (.store w v next)) :
      CoreStep c l (.coreStore w v)
        { l with words := setWord l.words w v, control := .serving next }
  | act (l : Link) (a : Act) (next : Core Unit) (here : l.control = .serving (.act a next)) :
      CoreStep c l (.coreAct a) { l with control := .serving next }
  | finish (l : Link) (here : l.control = .serving (.ret ())) :
      CoreStep c l .finish
        { l with words := setWord l.words .doneSeq l.served, control := .looking }
  | trap (l : Link) (rest : Core Unit) (cause : UInt32) (here : l.control = .serving rest) :
      CoreStep c l .trap
        { l with words := setWord l.words .trapCause cause, control := .parked }

def Step (c : Cluster) (l : Link) (e : Event) (l' : Link) : Prop :=
  HostStep c.requiresStaging l e l' ∨ CoreStep c l e l'

/-- The cluster has signed in and the host has read its `done_seq`. -/
structure Started (l : Link) : Prop where
  seq : l.words .seq = 0
  doneSeq : l.words .doneSeq = 0
  trapCause : l.words .trapCause = 0
  nextSeq : l.nextSeq = 0
  inFlight : l.inFlight = false
  host : l.host = .idle
  served : l.served = 0
  control : l.control = .looking

/-! ### What happened

Jobs are numbered from 0 in the order they were accepted. -/

structure History where
  jobs : List Job := []
  /-- The mailbox at each store of a job number. -/
  descriptors : List (Word → UInt32) := []
  /-- The job the control core took last. -/
  current : Nat := 0
  reads : List (Nat × Word × UInt32) := []
  acts : List (Nat × Act) := []
  finished : List Nat := []
  /-- The last wait that polled gave up. -/
  gaveUp : Bool := false

def History.record (h : History) (l : Link) : Event → History
  | .accept job => { h with jobs := h.jobs ++ [job] }
  | .publish => { h with descriptors := h.descriptors ++ [l.words] }
  | .giveUp => { h with gaveUp := true }
  | .done => { h with gaveUp := false }
  | .take => { h with current := h.descriptors.length - 1 }
  | .coreLoad w v => { h with reads := h.reads ++ [(h.current, w, v)] }
  | .coreAct a => { h with acts := h.acts ++ [(h.current, a)] }
  | .finish => { h with finished := h.finished ++ [h.current] }
  | _ => h

/-- The states of the runs whose every step is `allowed` where it is taken. -/
inductive Reachable (c : Cluster) (allowed : Link → History → Event → Prop) :
    Link → History → Prop
  | start (l : Link) (started : Started l) : Reachable c allowed l {}
  | step (l l' : Link) (h : History) (e : Event) (before : Reachable c allowed l h)
      (permitted : allowed l h e) (taken : Step c l e l') :
      Reachable c allowed l' (h.record l e)

end HeteroSim.Mailbox
