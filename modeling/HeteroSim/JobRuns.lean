import HeteroSim.JobQueue

/-!
The job queue while it runs: messages from the user and events from the processes
of launched jobs, in any order. Jobs start in the order they were asked for, no
process is without a running job and no room is left unused, and a job's record is
what its own events make of it.
-/

namespace HeteroSim.JobRuns

open Backend JobQueue

/-- How far the process of a launched job has come: `run` sends `SpawnFailed`, or
`Started`, then lines, then `Exited`. -/
inductive Stream where
  | spawning
  | reading

inductive Emits : Stream → JobEvent → Option Stream → Prop
  | failed (msg : Text) : Emits .spawning (.spawnFailed msg) none
  | started (pid : Option Nat) : Emits .spawning (.started pid) (some .reading)
  | line (ch : Channel) (text : Text) : Emits .reading (.line ch text) (some .reading)
  | exited (code : Option Int) : Emits .reading (.exited code) none

/-- The program and the processes whose events it has yet to see the end of. -/
structure Desk (F : Type) where
  app : App F
  streams : List (Nat × Stream)

/-- What matters to a job. -/
inductive Happening where
  | asked (id : Nat) (job : NewJob)
  | launched (id : Nat) (launch : Launch)
  | heard (id : Nat) (settings : Settings) (e : JobEvent)
  | cancelled (id : Nat)
  | applied (settings : Settings)
  | cleared

def launches (effects : List Effect) : List (Nat × Launch) :=
  effects.filterMap fun
    | .run id launch => some (id, launch)
    | _ => none

section Runs

variable {F : Type}

def happenings (app : App F) (m : Message F) (effects : List Effect) : List Happening :=
  (match m with
    | .ask jobs _ _ => jobs.zipIdx.map fun one => .asked (app.nextId + one.2) one.1
    | .job id e => [.heard id app.settings e]
    | .cancel id => (lookup id app.jobs).toList.map fun _ => .cancelled id
    | .apply _ => [.applied app.draft]
    | .clearFinished => [.cleared]
    | _ => []) ++ (launches effects).map fun one => .launched one.1 one.2

def fromUser : Message F → Bool
  | .job _ _ => false
  | _ => true

variable (lib : Library F)

structure Opened (settings : Settings) (d : Desk F) : Prop where
  settings : d.app.settings = settings
  jobs : d.app.jobs = []
  nextId : d.app.nextId = 1
  cancelRequested : d.app.cancelRequested = ∅
  streams : d.streams = []

def Desk.next (d : Desk F) (host : Host) (m : Message F) (disk : Disk F)
    (streams : List (Nat × Stream)) :
    Desk F :=
  { app := (update lib host disk d.app m).1
    streams := streams ++ (launches (update lib host disk d.app m).2).map fun one =>
      (one.1, .spawning) }

/-- What a run of the program has come to, and what happened on the way. The machine's
answers are a step's own: who owns the workspace depends on the workspace in force. -/
inductive Run (settings : Settings) : Desk F → List Happening → Prop
  | opened (d : Desk F) (fresh : Opened settings d) : Run settings d []
  | user (d : Desk F) (past : List Happening) (m : Message F) (host : Host) (disk : Disk F)
      (before : Run settings d past) (mine : fromUser m = true) :
      Run settings (d.next lib host m disk d.streams)
        (past ++ happenings d.app m (update lib host disk d.app m).2)
  | event (d : Desk F) (past : List Happening) (host : Host) (disk : Disk F)
      (front back : List (Nat × Stream)) (id : Nat) (stage : Stream) (e : JobEvent)
      (next : Option Stream) (before : Run settings d past)
      (here : d.streams = front ++ (id, stage) :: back) (sent : Emits stage e next) :
      Run settings
        (d.next lib host (.job id e) disk (front ++ (next.map fun s => (id, s)).toList ++ back))
        (past ++ happenings d.app (.job id e) (update lib host disk d.app (.job id e)).2)

/-! ### A job's own life -/

/-- What a happening makes of a job's record and of whether its cancelling has been
asked for. -/
def live (id : Nat) (life : Option (Job × Bool)) : Happening → Option (Job × Bool)
  | .asked i j => if i = id then some (Job.new id j.title j.kind j.inv, false) else life
  | .launched i launch =>
      if i = id then life.map fun one => (one.1.started launch, one.2) else life
  | .heard i settings e =>
      if i = id then life.map fun one =>
        (one.1.heed lib settings one.2 e, match e with
          | .exited _ => false
          | _ => one.2)
      else life
  | .cancelled i =>
      if i = id then life.map fun one =>
        match one.1.status with
        | .queued => ({ one.1 with status := .cancelled }, one.2)
        | .running => (one.1.pushLine "[cancelling…]".toList, true)
        | _ => one
      else life
  | .applied _ => life
  | .cleared => life

def lifeOf (id : Nat) (past : List Happening) : Option (Job × Bool) :=
  past.foldl (live lib id) none

def launchedIds (past : List Happening) : List Nat :=
  past.filterMap fun
    | .launched id _ => some id
    | _ => none

def askedIds (past : List Happening) : List Nat :=
  past.filterMap fun
    | .asked id _ => some id
    | _ => none

/-- The largest number of jobs at once that was ever asked for. -/
def peak (settings : Settings) (past : List Happening) : Nat :=
  past.foldl (fun most one => match one with
    | .applied later => max most (max later.concurrency 1)
    | _ => most) (max settings.concurrency 1)

/-! ### Lists of jobs -/

def Ordered (jobs : List Job) : Prop := jobs.Pairwise fun one two => one.id < two.id

/-- The jobs with job `id` changed. -/
def change (id : Nat) (f : Job → Job) (jobs : List Job) : List Job :=
  jobs.map fun job => if job.id = id then f job else job

theorem alterFirst_change {p : Job → Bool} {f : Job → Job} {jobs : List Job} {job : Job}
    (ordered : Ordered jobs) (found : jobs.find? p = some job) :
    alterFirst p f jobs = change job.id f jobs := by
  induction jobs with
  | nil => cases found
  | cons first rest ih =>
      obtain ⟨above, later⟩ := List.pairwise_cons.mp ordered
      rw [List.find?_cons] at found
      rw [alterFirst, change, List.map_cons]
      cases hit : p first with
      | true =>
          rw [hit] at found
          cases found
          rw [if_pos rfl, if_pos rfl]
          congr 1
          refine (List.map_id rest).symm.trans (List.map_congr_left fun other member => ?_)
          exact (if_neg (above other member).ne').symm
      | false =>
          rw [hit] at found
          have apart : first.id ≠ job.id := (above job (List.mem_of_find?_eq_some found)).ne
          rw [if_neg apart, ih later found]
          rfl

theorem alter_change {id : Nat} {f : Job → Job} {jobs : List Job} {job : Job}
    (ordered : Ordered jobs) (found : lookup id jobs = some job) :
    alter id f jobs = change id f jobs := by
  have same : job.id = id := by simpa using List.find?_some found
  rw [alter, alterFirst_change ordered found, same]

theorem lookup_of_mem {jobs : List Job} (ordered : Ordered jobs) {job : Job}
    (member : job ∈ jobs) : lookup job.id jobs = some job := by
  induction jobs with
  | nil => cases member
  | cons first rest ih =>
      obtain ⟨above, later⟩ := List.pairwise_cons.mp ordered
      rw [lookup, List.find?_cons]
      rcases List.mem_cons.mp member with rfl | tail
      · simp
      · have apart : first.id ≠ job.id := (above job tail).ne
        simp only [apart, decide_false]
        exact ih later tail

theorem lookup_only {id : Nat} {jobs : List Job} {job old : Job} (ordered : Ordered jobs)
    (found : lookup id jobs = some job) (member : old ∈ jobs)
    (named : old.id = id) : old = job := by
  rw [← named, lookup_of_mem ordered member] at found
  exact Option.some.inj found

theorem change_ordered {id : Nat} {f : Job → Job} {jobs : List Job}
    (keeps : ∀ job, (f job).id = job.id)
    (ordered : Ordered jobs) : Ordered (change id f jobs) := by
  refine List.pairwise_map.mpr (ordered.imp ?_)
  intro one two below
  split <;> split <;> simpa only [keeps] using below

theorem mem_change {id : Nat} {f : Job → Job} {jobs : List Job} {job : Job} :
    job ∈ change id f jobs ↔
      ∃ old ∈ jobs, job = if old.id = id then f old else old := by
  simp only [change, List.mem_map, eq_comm]

def Running (jobs : List Job) (id : Nat) : Prop :=
  ∃ job ∈ jobs, job.id = id ∧ job.status = .running

theorem running_change {id : Nat} (f : Job → Job) {jobs : List Job} {job : Job}
    (ordered : Ordered jobs) (found : lookup id jobs = some job)
    (keeps : ∀ job, (f job).id = job.id) (other : Nat) :
    Running (change id f jobs) other ↔
      if other = id then (f job).status = .running else Running jobs other := by
  have member : job ∈ jobs := List.mem_of_find?_eq_some found
  have same : job.id = id := by simpa using List.find?_some found
  by_cases about : other = id
  · rw [if_pos about]
    constructor
    · rintro ⟨new, here, named, running⟩
      obtain ⟨old, was, rfl⟩ := mem_change.mp here
      by_cases alike : old.id = id
      · rwa [if_pos alike, lookup_only ordered found was alike] at running
      · rw [if_neg alike] at named
        exact absurd (named.trans about) alike
    · intro running
      refine ⟨f job, mem_change.mpr ⟨job, member, (if_pos same).symm⟩, ?_, running⟩
      rw [keeps, same, about]
  · rw [if_neg about]
    constructor
    · rintro ⟨new, here, named, running⟩
      obtain ⟨old, was, rfl⟩ := mem_change.mp here
      have apart : old.id ≠ id := by
        intro alike
        rw [if_pos alike, keeps, alike] at named
        exact about named.symm
      rw [if_neg apart] at named running
      exact ⟨old, was, named, running⟩
    · rintro ⟨old, was, named, running⟩
      have apart : old.id ≠ id := fun alike => about (named.symm.trans alike)
      exact ⟨old, mem_change.mpr ⟨old, was, (if_neg apart).symm⟩, named, running⟩

theorem countRunning_streams {jobs : List Job} {streams : List (Nat × Stream)}
    (ordered : Ordered jobs) (once : (streams.map Prod.fst).Nodup)
    (ours : ∀ id, id ∈ streams.map Prod.fst ↔ Running jobs id) :
    countRunning jobs = streams.length := by
  let busy := (jobs.filter fun job => job.status = .running).map Job.id
  have distinct : busy.Nodup := by
    refine List.Nodup.sublist (List.filter_sublist.map Job.id) ?_
    exact List.pairwise_map.mpr (ordered.imp fun below => below.ne)
  have alike : ∀ id, id ∈ streams.map Prod.fst ↔ id ∈ busy := by
    intro id
    rw [ours]
    simp only [busy, Running, List.mem_map, List.mem_filter, decide_eq_true_eq]
    constructor
    · rintro ⟨job, member, named, running⟩
      exact ⟨job, ⟨member, running⟩, named⟩
    · rintro ⟨job, ⟨member, running⟩, named⟩
      exact ⟨job, member, named, running⟩
  have same := ((List.perm_ext_iff_of_nodup once distinct).mpr alike).length_eq
  rw [List.length_map] at same
  rw [same, List.length_map, countRunning, List.countP_eq_length_filter]

/-! ### What the queue does at once -/

variable (host : Host)

structure Queue where
  jobs : List Job
  nextId : Nat
  cancelRequested : Finset Nat
  settings : Settings
  streams : List (Nat × Stream)

def App.queue (app : App F) (streams : List (Nat × Stream)) : Queue :=
  ⟨app.jobs, app.nextId, app.cancelRequested, app.settings, streams⟩

def Desk.queue (d : Desk F) : Queue := App.queue d.app d.streams

/-- The requests left when `id` has sent `e`. -/
def outstanding (id : Nat) (requested : Finset Nat) : JobEvent → Finset Nat
  | .exited _ => requested.erase id
  | _ => requested

inductive Act : Queue → List Happening → Queue → Prop
  | ask (q : Queue) (j : NewJob) :
      Act q [.asked q.nextId j]
        { q with jobs := q.jobs ++ [Job.new q.nextId j.title j.kind j.inv], nextId := q.nextId + 1 }
  | clear (q : Queue) : Act q [.cleared] { q with jobs := q.jobs.filter (·.status.isActive) }
  | apply (q : Queue) (settings : Settings) :
      Act q [.applied settings] { q with settings := settings }
  | launch (q : Queue) (job : Job) (room : countRunning q.jobs < max q.settings.concurrency 1)
      (first : q.jobs.find? isQueued = some job) :
      Act q [.launched job.id (launch host q.settings job.invocation job.id)]
        { q with
          jobs := change job.id (·.started (launch host q.settings job.invocation job.id)) q.jobs
          streams := q.streams ++ [(job.id, .spawning)] }
  | withdraw (q : Queue) (job : Job) (found : lookup job.id q.jobs = some job)
      (waits : job.status = .queued) :
      Act q [.cancelled job.id]
        { q with jobs := change job.id (fun job => { job with status := .cancelled }) q.jobs }
  | stop (q : Queue) (job : Job) (found : lookup job.id q.jobs = some job)
      (runs : job.status = .running) :
      Act q [.cancelled job.id]
        { q with
          jobs := change job.id (·.pushLine "[cancelling…]".toList) q.jobs
          cancelRequested := insert job.id q.cancelRequested }
  | late (q : Queue) (job : Job) (found : lookup job.id q.jobs = some job)
      (ended : job.status.isActive = false) : Act q [.cancelled job.id] q
  | hear (q : Queue) (job : Job) (front back : List (Nat × Stream)) (stage : Stream) (e : JobEvent)
      (next : Option Stream) (found : lookup job.id q.jobs = some job)
      (here : q.streams = front ++ (job.id, stage) :: back) (sent : Emits stage e next) :
      Act q [.heard job.id q.settings e]
        { q with
          jobs := change job.id
            (·.heed lib q.settings (decide (job.id ∈ q.cancelRequested)) e) q.jobs
          cancelRequested := outstanding job.id q.cancelRequested e
          streams := front ++ (next.map fun s => (job.id, s)).toList ++ back }

inductive Acts : Queue → List Happening → Queue → Prop
  | none (q : Queue) : Acts q [] q
  | more (one two three : Queue) (past now : List Happening) (before : Acts one past two)
      (act : Act lib host two now three) : Acts one (past ++ now) three

variable {lib host}

theorem Act.acts {one two : Queue} {now : List Happening} (act : Act lib host one now two) :
    Acts lib host one now two :=
  .more one one two [] now (.none one) act

theorem Acts.trans {one two three : Queue} {past now : List Happening}
    (before : Acts lib host one past two) (after : Acts lib host two now three) :
    Acts lib host one (past ++ now) three := by
  induction after with
  | none => rwa [List.append_nil]
  | more three four now more after act ih =>
      rw [← List.append_assoc]
      exact .more one three four _ more ih act

@[simp] theorem heed_id (settings : Settings) (asked : Bool) (job : Job) (e : JobEvent) :
    (job.heed lib settings asked e).id = job.id := by
  cases e with
  | started pid => rfl
  | spawnFailed msg => rfl
  | exited code => rfl
  | line ch line =>
      rw [Job.heed]
      split
      · next ev _ => cases ev <;> rfl
      · rw [Job.read]
        cases job.kind <;> cases explainMissingScript settings line <;> rfl

theorem Act.ordered {one two : Queue} {now : List Happening} (act : Act lib host one now two)
    (fresh : ∀ job ∈ one.jobs, job.id < one.nextId) (ordered : Ordered one.jobs) :
    Ordered two.jobs := by
  cases act with
  | ask j =>
      refine List.pairwise_append.mpr ⟨ordered, List.pairwise_singleton _ _, ?_⟩
      intro old was new here
      rw [List.mem_singleton.mp here]
      exact fresh old was
  | clear => exact ordered.sublist List.filter_sublist
  | apply settings => exact ordered
  | launch job room first => exact change_ordered (fun _ => rfl) ordered
  | withdraw job found waits => exact change_ordered (fun _ => rfl) ordered
  | stop job found runs => exact change_ordered (fun _ => rfl) ordered
  | late job found ended => exact ordered
  | hear job front back stage e next found here sent =>
      exact change_ordered (fun _ => heed_id ..) ordered

theorem change_ids (P : Nat → Prop) {id : Nat} {f : Job → Job} {jobs : List Job}
    (keeps : ∀ job, (f job).id = job.id) (all : ∀ job ∈ jobs, P job.id) :
    ∀ job ∈ change id f jobs, P job.id := by
  intro job member
  obtain ⟨old, was, rfl⟩ := mem_change.mp member
  split
  · rw [keeps]
    exact all old was
  · exact all old was

theorem Act.fresh {one two : Queue} {now : List Happening} (act : Act lib host one now two)
    (fresh : ∀ job ∈ one.jobs, job.id < one.nextId) : ∀ job ∈ two.jobs, job.id < two.nextId := by
  cases act with
  | ask j =>
      intro job member
      rcases List.mem_append.mp member with old | new
      · exact Nat.lt_succ_of_lt (fresh job old)
      · rw [List.mem_singleton.mp new]
        exact Nat.lt_succ_self _
  | clear => exact fun job member => fresh job (List.mem_filter.mp member).1
  | apply settings => exact fresh
  | launch job room first => exact change_ids (· < one.nextId) (fun _ => rfl) fresh
  | withdraw job found waits => exact change_ids (· < one.nextId) (fun _ => rfl) fresh
  | stop job found runs => exact change_ids (· < one.nextId) (fun _ => rfl) fresh
  | late job found ended => exact fresh
  | hear job front back stage e next found here sent =>
      exact change_ids (· < one.nextId) (fun _ => heed_id ..) fresh

theorem Acts.sorted {one two : Queue} {past : List Happening} (acts : Acts lib host one past two)
    (fresh : ∀ job ∈ one.jobs, job.id < one.nextId) (ordered : Ordered one.jobs) :
    (∀ job ∈ two.jobs, job.id < two.nextId) ∧ Ordered two.jobs := by
  induction acts with
  | none => exact ⟨fresh, ordered⟩
  | more three four past now before act ih => exact ⟨act.fresh ih.1, act.ordered ih.1 ih.2⟩

/-! ### Messages as acts -/

variable (lib host)

theorem launches_append (one two : List Effect) :
    launches (one ++ two) = launches one ++ launches two := List.filterMap_append

def launchedAll (effects : List Effect) : List Happening :=
  (launches effects).map fun one => .launched one.1 one.2

def spawned (effects : List Effect) : List (Nat × Stream) :=
  (launches effects).map fun one => (one.1, .spawning)

theorem startQueued_acts (turns : Nat) (q : Queue) (ordered : Ordered q.jobs) :
    Acts lib host q
      (launchedAll (startQueued host q.settings (max q.settings.concurrency 1) turns q.jobs).2)
      { q with
        jobs := (startQueued host q.settings (max q.settings.concurrency 1) turns q.jobs).1
        streams := q.streams ++
          spawned (startQueued host q.settings (max q.settings.concurrency 1) turns
            q.jobs).2 } := by
  induction turns generalizing q with
  | zero => simpa [startQueued, launchedAll, launches, spawned] using Acts.none q
  | succ turns ih =>
      rw [startQueued]
      by_cases busy : max q.settings.concurrency 1 ≤ countRunning q.jobs
      · rw [if_pos busy]
        simpa [launchedAll, launches, spawned] using Acts.none q
      · rw [if_neg busy]
        cases first : q.jobs.find? isQueued with
        | none => simpa [launchedAll, launches, spawned] using Acts.none q
        | some job =>
            let launch := launch host q.settings job.invocation job.id
            let after : Queue := { q with
              jobs := change job.id (·.started launch) q.jobs
              streams := q.streams ++ [(job.id, .spawning)] }
            have act : Act lib host q [.launched job.id launch] after :=
              .launch q job (Nat.not_le.mp busy) first
            have all := act.acts.trans (ih after (change_ordered (fun _ => rfl) ordered))
            dsimp only [after] at all
            rw [← alterFirst_change ordered first] at all
            simpa [launchedAll, launches, spawned] using all

theorem pump_acts (app : App F) (streams : List (Nat × Stream)) (ordered : Ordered app.jobs) :
    Acts lib host (App.queue app streams) (launchedAll (pump host app).2)
      (App.queue (pump host app).1 (streams ++ spawned (pump host app).2)) :=
  startQueued_acts lib host app.jobs.length (App.queue app streams) ordered

theorem enqueue_acts (jobs : List NewJob) (app : App F) (streams : List (Nat × Stream)) :
    Acts lib host (App.queue app streams)
      (jobs.zipIdx.map fun one => .asked (app.nextId + one.2) one.1)
      (App.queue (jobs.foldl enqueue app) streams) := by
  induction jobs generalizing app with
  | nil => exact .none _
  | cons j rest ih =>
      have act : Act lib host (App.queue app streams) [.asked app.nextId j]
          (App.queue (enqueue app j) streams) := .ask _ j
      have all := act.acts.trans (ih (enqueue app j))
      rw [List.zipIdx_cons', List.map_cons, List.map_map]
      refine (congrArg (fun past => Acts lib host _ past _) ?_).mp all
      refine congrArg (_ :: ·) (List.map_congr_left fun one _ => ?_)
      simp only [enqueue, Function.comp_apply, Prod.map, id, Nat.add_assoc, Nat.add_comm 1]

theorem finished_queue (disk : Disk F) (app : App F) (id : Nat) (streams : List (Nat × Stream)) :
    App.queue (finished disk app id).1 streams = App.queue app streams ∧
      launches (finished disk app id).2 = [] := by
  rw [finished]
  split
  · exact ⟨rfl, rfl⟩
  · next job _ =>
      split
      · exact ⟨rfl, rfl⟩
      · split
        · exact ⟨rfl, rfl⟩
        · split <;> exact ⟨rfl, rfl⟩
      · dsimp only
        split <;> exact ⟨rfl, rfl⟩

theorem onSweepEvent_queue (app : App F) (out : Text) (ev : SweepEvent F)
    (streams : List (Nat × Stream)) :
    App.queue (onSweepEvent app out ev) streams = App.queue app streams := by
  rw [onSweepEvent]
  split
  · rfl
  · split
    · rfl
    · split <;> rfl

theorem absorb_acts (disk : Disk F) (app : App F) (jobs : List NewJob) (refreshOps : Bool)
    (toast : Option Text) (streams : List (Nat × Stream))
    (fresh : ∀ job ∈ app.jobs, job.id < app.nextId)
    (ordered : Ordered app.jobs) :
    Acts lib host (App.queue app streams)
      ((jobs.zipIdx.map fun one => .asked (app.nextId + one.2) one.1) ++
        launchedAll (absorb host disk app jobs refreshOps toast).2)
      (App.queue (absorb host disk app jobs refreshOps toast).1
        (streams ++ spawned (absorb host disk app jobs refreshOps toast).2)) := by
  let told : App F := { app with toast := toast.or app.toast }
  have asked : Acts lib host (App.queue app streams) _
    (App.queue (jobs.foldl enqueue told) streams) :=
    enqueue_acts lib host jobs told streams
  have later := (asked.sorted fresh ordered).2
  have quiet : launches (if refreshOps then [Effect.refreshOps] else []) = [] := by
    cases refreshOps <;> rfl
  rw [absorb]
  simp only [launchedAll, spawned, launches_append, quiet, List.nil_append]
  split
  · exact asked.trans (pump_acts lib host { jobs.foldl enqueue told with
      current := some _, rows := _, live := _ } streams later)
  · exact asked.trans (pump_acts lib host (jobs.foldl enqueue told) streams later)

theorem lookup_id {id : Nat} {jobs : List Job} {job : Job} (found : lookup id jobs = some job) :
    job.id = id := by simpa using List.find?_some found

theorem onCancel_acts (app : App F) (id : Nat) (streams : List (Nat × Stream))
    (ordered : Ordered app.jobs) :
    Acts lib host (App.queue app streams) ((lookup id app.jobs).toList.map fun _ => .cancelled id)
        (App.queue (onCancel app id).1 streams) ∧ launches (onCancel app id).2 = [] := by
  rw [onCancel]
  cases found : lookup id app.jobs with
  | none => exact ⟨.none _, rfl⟩
  | some job =>
      obtain rfl := lookup_id found
      have same := @alter_change job.id
      cases status : job.status with
      | queued =>
          simp only [status, alter_change ordered found]
          exact ⟨(Act.withdraw (App.queue app streams) job found status).acts, rfl⟩
      | running =>
          simp only [status, alter_change ordered found]
          refine ⟨(Act.stop (App.queue app streams) job found status).acts, ?_⟩
          cases job.launch <;> rfl
      | finished code =>
          simp only [status]
          exact ⟨(Act.late (App.queue app streams) job found (by rw [status]; rfl)).acts, rfl⟩
      | failed msg =>
          simp only [status]
          exact ⟨(Act.late (App.queue app streams) job found (by rw [status]; rfl)).acts, rfl⟩
      | cancelled =>
          simp only [status]
          exact ⟨(Act.late (App.queue app streams) job found (by rw [status]; rfl)).acts, rfl⟩

theorem user_acts (d : Desk F) (m : Message F) (disk : Disk F) (mine : fromUser m = true)
    (fresh : ∀ job ∈ d.app.jobs, job.id < d.app.nextId) (ordered : Ordered d.app.jobs) :
    Acts lib host d.queue (happenings d.app m (update lib host disk d.app m).2)
      (d.next lib host m disk d.streams).queue := by
  have still : Acts lib host d.queue ([] ++ launchedAll [])
      (App.queue d.app (d.streams ++ spawned [])) := by
    rw [show d.streams ++ spawned [] = d.streams from List.append_nil _]
    exact .none _
  cases m with
  | ask jobs refreshOps toast =>
      exact absorb_acts lib host disk d.app jobs refreshOps toast d.streams fresh ordered
  | showSweep dir => exact still
  | select id => exact still
  | copy id =>
      simp only [happenings, Desk.next, update]
      cases (lookup id d.app.jobs).bind Job.launch <;> exact still
  | cancel id =>
      obtain ⟨acts, quiet⟩ := onCancel_acts lib host d.app id d.streams ordered
      simpa [happenings, Desk.next, Desk.queue, update, quiet] using acts
  | clearFinished =>
      have act : Act lib host d.queue [.cleared] _ := .clear d.queue
      simpa [happenings, Desk.next, Desk.queue, App.queue, update, launches] using act.acts
  | edit draft => exact still
  | revert => exact still
  | apply error =>
      have act : Act lib host d.queue [.applied d.app.draft]
          (App.queue { d.app with settings := d.app.draft } d.streams) :=
        .apply d.queue d.app.draft
      exact act.acts.trans (pump_acts lib host { d.app with
        settings := d.app.draft
        toast := (error.map ("settings not saved: ".toList ++ ·)).or d.app.toast }
          d.streams ordered)
  | job id e => cases mine

theorem event_acts (d : Desk F) (disk : Disk F) (front back : List (Nat × Stream)) (id : Nat)
    (stage : Stream) (e : JobEvent) (next : Option Stream)
    (here : d.streams = front ++ (id, stage) :: back) (sent : Emits stage e next)
    (known : (lookup id d.app.jobs).isSome) (ordered : Ordered d.app.jobs) :
    Acts lib host d.queue (happenings d.app (.job id e) (update lib host disk d.app (.job id e)).2)
      (d.next lib host (.job id e) disk
        (front ++ (next.map fun s => (id, s)).toList ++ back)).queue := by
  obtain ⟨job, found⟩ := Option.isSome_iff_exists.mp known
  obtain rfl := lookup_id found
  let heard : App F := { d.app with
    jobs := change job.id
      (·.heed lib d.app.settings (decide (job.id ∈ d.app.cancelRequested)) e) d.app.jobs
    cancelRequested := outstanding job.id d.app.cancelRequested e }
  have act : Acts lib host d.queue [.heard job.id d.app.settings e]
      (App.queue heard (front ++ (next.map fun s => (job.id, s)).toList ++ back)) :=
    (Act.hear d.queue job front back stage e next found here sent).acts
  have later : Ordered heard.jobs := change_ordered (fun _ => heed_id ..) ordered
  -- An end is followed by what a finished job feeds back into, which is not the queue's.
  have ending (streams : List (Nat × Stream)) (acts : Acts lib host d.queue
      [.heard job.id d.app.settings e] (App.queue heard streams)) :
      Acts lib host d.queue
        (.heard job.id d.app.settings e ::
          launchedAll
            ((finished disk heard job.id).2 ++ (pump host (finished disk heard job.id).1).2))
        (App.queue (pump host (finished disk heard job.id).1).1
          (streams ++
            spawned ((finished disk heard job.id).2 ++
              (pump host (finished disk heard job.id).1).2))) := by
    obtain ⟨same, quiet⟩ := finished_queue disk heard job.id streams
    have sorted : Ordered (finished disk heard job.id).1.jobs := by
      rwa [show (finished disk heard job.id).1.jobs = heard.jobs from congrArg Queue.jobs same]
    simp only [launchedAll, spawned, launches_append, quiet, List.nil_append]
    rw [← same] at acts
    exact acts.trans (pump_acts lib host _ streams sorted)
  simp only [happenings, Desk.next, update, onJobEvent, found, alter_change ordered found]
  cases sent with
  | failed msg => exact ending _ act
  | exited code => exact ending _ act
  | started pid => simpa [launches, heard, Desk.queue, App.queue, outstanding] using act
  | line ch text =>
      dsimp only
      split
      · simp only [launches, List.filterMap_nil, List.map_nil, List.append_nil, Desk.queue,
          onSweepEvent_queue]
        exact act
      · simpa [launches, heard, Desk.queue, App.queue, outstanding] using act

end Runs

end HeteroSim.JobRuns
