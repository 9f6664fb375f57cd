import HeteroSim.JobHistory

/-!
The job queue over whole runs: its order, its processes, what is left when it is left
alone, and each job's record.
-/

namespace HeteroSim.JobFates

open Backend JobQueue JobRuns JobHistory

section Runs

variable {F : Type} {lib : Library F} {host : Host} {settings : Settings}

/-! ### Runs keep the invariant -/

theorem opened_kept {d : Desk F} (fresh : Opened settings d) : Kept lib settings d.queue [] := by
  have none {P : Job → Prop} : ∀ job ∈ d.queue.jobs, P job := by
    intro job member
    rw [show d.queue.jobs = [] from fresh.jobs] at member
    cases member
  have silent {P : Nat → Prop} : ∀ id ∈ ([] : List Nat), P id :=
    fun id member => absurd member List.not_mem_nil
  refine ⟨none, ?_, ⟨?_, ?_⟩, ⟨List.Pairwise.nil, silent, silent⟩, ⟨?_, ?_⟩,
    ⟨List.Pairwise.nil, silent, none, silent⟩, ⟨none, ?_⟩, ⟨?_, none⟩⟩
  · rw [Ordered, show d.queue.jobs = [] from fresh.jobs]
    exact List.Pairwise.nil
  · rw [show d.queue.streams = [] from fresh.streams]
    exact List.Pairwise.nil
  · intro id
    rw [Running, show d.queue.jobs = [] from fresh.jobs, show d.queue.streams =
      [] from fresh.streams]
    simp
  · rw [show d.queue.settings = settings from fresh.settings]
    exact Nat.le_refl _
  · rw [show d.queue.streams = [] from fresh.streams]
    exact Nat.zero_le _
  · intro id member
    rw [show d.queue.cancelRequested = ∅ from fresh.cancelRequested] at member
    exact absurd member (Finset.notMem_empty id)
  · exact fun one member => absurd member List.not_mem_nil

theorem launched_calm (effects : List Effect) : ∀ h ∈ launchedAll effects, stirs h = false := by
  intro h member
  obtain ⟨one, -, rfl⟩ := List.mem_map.mp member
  rfl

theorem absorb_full (disk : Disk F) (app : App F) (jobs : List NewJob) (refreshOps : Bool)
    (toast : Option Text) :
    Full (absorb host disk app jobs refreshOps toast).1.settings
      (absorb host disk app jobs refreshOps toast).1.jobs := by
  rw [absorb]
  dsimp only
  split <;> exact pump_full _

theorem user_full {d : Desk F} {past : List Happening} {m : Message F} {disk : Disk F}
    (mine : fromUser m = true) (kept : Kept lib settings d.queue past)
    (full : Full d.app.settings d.app.jobs) :
    Full (update lib host disk d.app m).1.settings (update lib host disk d.app m).1.jobs := by
  have acts := user_acts lib host d m disk mine kept.fresh kept.ordered
  cases m with
  | ask jobs refreshOps toast => exact absorb_full disk d.app jobs refreshOps toast
  | apply error => exact pump_full _
  | job id e => cases mine
  | showSweep dir => exact full
  | select id => exact full
  | edit draft => exact full
  | revert => exact full
  | copy id =>
      rw [update]
      cases (lookup id d.app.jobs).bind Job.launch <;> exact full
  | cancel id =>
      refine Acts.full acts (fun h member => ?_) kept full
      rcases List.mem_append.mp member with asked | launched
      · obtain ⟨job, -, rfl⟩ := List.mem_map.mp asked
        rfl
      · exact launched_calm _ h launched
  | clearFinished =>
      refine Acts.full acts (fun h member => ?_) kept full
      rw [List.mem_singleton.mp member]
      rfl

theorem event_full {d : Desk F} {past : List Happening} {disk : Disk F}
    {front back : List (Nat × Stream)} {id : Nat} {stage : Stream} {e : JobEvent}
    {next : Option Stream} (here : d.streams = front ++ (id, stage) :: back)
    (sent : Emits stage e next) (known : (lookup id d.app.jobs).isSome)
    (kept : Kept lib settings d.queue past) (full : Full d.app.settings d.app.jobs) :
    Full (update lib host disk d.app (.job id e)).1.settings
      (update lib host disk d.app (.job id e)).1.jobs := by
  have acts := event_acts lib host d disk front back id stage e next here sent known kept.ordered
  obtain ⟨job, found⟩ := Option.isSome_iff_exists.mp known
  cases sent with
  | failed msg =>
      simp only [update, onJobEvent, found]
      exact pump_full _
  | exited code =>
      simp only [update, onJobEvent, found]
      exact pump_full _
  | started pid =>
      refine Acts.full acts (fun h member => ?_) kept full
      rcases List.mem_append.mp member with heard | launched
      · rw [List.mem_singleton.mp heard]
        rfl
      · exact launched_calm _ h launched
  | line ch text =>
      refine Acts.full acts (fun h member => ?_) kept full
      rcases List.mem_append.mp member with heard | launched
      · rw [List.mem_singleton.mp heard]
        rfl
      · exact launched_calm _ h launched

theorem known_stream {d : Desk F} {past : List Happening} {front back : List (Nat × Stream)}
    {id : Nat} {stage : Stream} (here : d.streams = front ++ (id, stage) :: back)
    (kept : Kept lib settings d.queue past) : (lookup id d.app.jobs).isSome := by
  have member : id ∈ d.queue.streams.map Prod.fst := by
    rw [show d.queue.streams = front ++ (id, stage) :: back from here]
    simp
  obtain ⟨job, is, rfl, -⟩ := (kept.matched.ours id).mp member
  rw [show lookup job.id d.app.jobs = some job from lookup_of_mem kept.ordered is]
  rfl

theorem run_kept {d : Desk F} {past : List Happening} (run : Run lib settings d past) :
    Kept lib settings d.queue past ∧ Full d.app.settings d.app.jobs := by
  induction run with
  | opened d fresh =>
      refine ⟨opened_kept fresh, fun job member => ?_⟩
      rw [fresh.jobs] at member
      cases member
  | user d past m host disk before mine ih =>
      have acts := user_acts lib host d m disk mine ih.1.fresh ih.1.ordered
      exact ⟨Acts.kept acts ih.1, user_full mine ih.1 ih.2⟩
  | event d past host disk front back id stage e next before here sent ih =>
      have known := known_stream here ih.1
      have acts := event_acts lib host d disk front back id stage e next here sent
        known ih.1.ordered
      exact ⟨Acts.kept acts ih.1, event_full here sent known ih.1 ih.2⟩

def active (jobs : List Job) : Nat := jobs.countP (·.status.isActive)

def waiting (jobs : List Job) : List Nat := (jobs.filter isQueued).map Job.id

def openDesk (F : Type) (settings : Settings) : Desk F where
  app :=
    { settings, draft := settings, jobs := [], nextId := 1, selectedJob := none
      cancelRequested := ∅, current := none, rows := [], live := none, toast := none }
  streams := []

theorem openDesk_opened (F : Type) (settings : Settings) : Opened settings (openDesk F settings) :=
  ⟨rfl, rfl, rfl, rfl, rfl⟩

/-- One job at a time, on this machine. -/
def oneAtATime : Settings := ⟨.native, "/w".toList, [], false, 1⟩

def noLibrary : Library Unit := ⟨fun _ => none, fun _ _ _ => [], fun _ => []⟩

def noHost : Host := ⟨[], none⟩

def noDisk : Disk Unit := ⟨fun _ => [], fun _ => false⟩

def generate : NewJob := ⟨"op".toList, .makeOp, ⟨"pipeline/make_op.py".toList, []⟩⟩

def desk (jobs : List NewJob) : Desk Unit :=
  (openDesk Unit oneAtATime).next noLibrary noHost (.ask jobs false none) noDisk []

/-- What happened when `jobs` were asked for first. -/
def asking (jobs : List NewJob) : List Happening :=
  [] ++ happenings (openDesk Unit oneAtATime).app (.ask jobs false none)
    (update noLibrary noHost noDisk (openDesk Unit oneAtATime).app (.ask jobs false none)).2

theorem asking_run (jobs : List NewJob) :
    Run noLibrary oneAtATime (desk jobs) (asking jobs) :=
  .user _ [] _ noHost noDisk (.opened _ (openDesk_opened Unit oneAtATime)) rfl

/-- Jobs are numbered as they are asked for and start in that order, each at most once and
none past one that waits. Never do more run than were ever allowed at once, and one only
waits while as many run as are allowed. -/
theorem jobs_in_turn {d : Desk F} {past : List Happening} (run : Run lib settings d past) :
    ((askedIds past).Pairwise fun one two => one < two) ∧
      ((launchedIds past).Pairwise fun one two => one < two) ∧
      (∀ id ∈ launchedIds past, id ∈ askedIds past) ∧
      (∀ id ∈ launchedIds past, ∀ job ∈ d.app.jobs, job.status = .queued → id < job.id) ∧
      countRunning d.app.jobs ≤ peak settings past ∧
      ∀ job ∈ d.app.jobs, job.status = .queued →
        max d.app.settings.concurrency 1 ≤ countRunning d.app.jobs := by
  obtain ⟨kept, full⟩ := run_kept run
  refine ⟨kept.numbered.rising, kept.inTurn.rising, kept.numbered.launched, kept.inTurn.before,
    ?_, full⟩
  exact kept.count.trans_le kept.within.few

theorem two_in_turn :
    launchedIds (asking [generate, generate]) = [1] ∧
      waiting (desk [generate, generate]).app.jobs = [2] ∧
      (askedIds (asking [generate, generate])).Pairwise (fun one two => one < two) ∧
      (launchedIds (asking [generate, generate])).Pairwise (fun one two => one < two) ∧
      (∀ id ∈ launchedIds (asking [generate, generate]),
        id ∈ askedIds (asking [generate, generate])) ∧
      (∀ id ∈ launchedIds (asking [generate, generate]),
        ∀ job ∈ (desk [generate, generate]).app.jobs, job.status = .queued → id < job.id) ∧
      countRunning (desk [generate, generate]).app.jobs ≤
        peak oneAtATime (asking [generate, generate]) ∧
      ∀ job ∈ (desk [generate, generate]).app.jobs, job.status = .queued →
        max (desk [generate, generate]).app.settings.concurrency 1 ≤
          countRunning (desk [generate, generate]).app.jobs :=
  ⟨rfl, rfl, jobs_in_turn (asking_run [generate, generate])⟩

/-- Of the jobs that ended, those show as cancelled that were cancelled before they were
launched, or while they ran and before their process exited: whatever its exit code, and
no job whose process could not be started. -/
theorem cancelled_iff {d : Desk F} {past : List Happening} (run : Run lib settings d past)
    (job : Job) (member : job ∈ d.app.jobs) :
    job.status = .cancelled ↔ Withdrawn job.id past ∨ Stopped job.id past := by
  have story := (run_kept run).1.told.story job member
  cases status : job.status with
  | queued =>
      obtain ⟨-, -, uncancelled, unexited⟩ := story.waits status
      refine iff_of_false JobStatus.noConfusion ?_
      rintro (withdrawn | stopped)
      · exact uncancelled withdrawn.1
      · exact unexited stopped.exited
  | running =>
      obtain ⟨launched, -, unexited⟩ := story.runs status
      refine iff_of_false JobStatus.noConfusion ?_
      rintro (withdrawn | stopped)
      · exact withdrawn.2 launched
      · exact unexited stopped.exited
  | finished code =>
      have whether := (story.ended (by rw [status]; rfl)).1
      rwa [status] at whether
  | failed msg =>
      have whether := (story.ended (by rw [status]; rfl)).1
      rwa [status] at whether
  | cancelled =>
      have whether := (story.ended (by rw [status]; rfl)).1
      rwa [status] at whether

theorem second_withdrawn :
    ∃ past, ∃ job ∈ ((desk [generate, generate]).next noLibrary noHost (.cancel 2) noDisk
        (desk [generate, generate]).streams).app.jobs,
      job.id = 2 ∧ job.status = .cancelled ∧
        (job.status = .cancelled ↔ Withdrawn job.id past ∨ Stopped job.id past) :=
  ⟨_, _, List.mem_cons_of_mem _ List.mem_cons_self, rfl, rfl,
    cancelled_iff (.user _ _ (.cancel 2) noHost noDisk (asking_run [generate, generate]) rfl) _
      (List.mem_cons_of_mem _ List.mem_cons_self)⟩

/-! ### A job's record -/

/-- The lines that a happening adds to the log of job `id`. -/
def lines (lib : Library F) (id : Nat) (life : Option (Job × Bool)) : Happening → List Text
  | .asked _ _ => []
  | .applied _ => []
  | .cleared => []
  | .launched i launch => if i = id then ["$ ".toList ++ launch.display] else []
  | .cancelled i =>
      if i = id ∧ (life.map fun one => one.1.status) = some .running then ["[cancelling…]".toList]
      else []
  | .heard i settings e =>
      if i = id then
        match life, e with
        | none, _ => []
        | some _, .started _ => []
        | some (job, _), .line ch text =>
            match sweepLine lib job ch text with
            | some (_, ev) => (sweepEvent lib job ev).2.toList
            | none => text :: (explainMissingScript settings text).toList
        | some _, .spawnFailed msg => [msg]
        | some (_, asked), .exited code =>
            ['[' :: (if asked then JobStatus.cancelled else .finished code).label ++ [']']]
      else []

def tell (lib : Library F) (id : Nat) (told : Option (Job × Bool) × List Text) (h : Happening) :
    Option (Job × Bool) × List Text :=
  (live lib id told.1 h, match h with
    | .asked i _ => if i = id then [] else told.2
    | _ => told.2 ++ lines lib id told.1 h)

def transcript (lib : Library F) (id : Nat) (past : List Happening) : List Text :=
  (past.foldl (tell lib id) (none, [])).2

def Logged (told : Option (Job × Bool) × List Text) : Prop :=
  ∀ job asked, told.1 = some (job, asked) → job.log = BoundedLog.last logLines told.2

theorem pushLine_logged {job : Job} {told : List Text}
    (logged : job.log = BoundedLog.last logLines told)
    (line : Text) : (job.pushLine line).log = BoundedLog.last logLines (told ++ [line]) := by
  rw [Job.pushLine, logged, BoundedLog.push_last (by decide)]

theorem sweepEvent_log (job : Job) (ev : SweepEvent F) :
    (sweepEvent lib job ev).1.log = job.log := by
  cases ev <;> rfl

theorem read_logged {job : Job} {told : List Text}
    (logged : job.log = BoundedLog.last logLines told)
    (settings : Settings) (ch : Channel) (text : Text) :
    (job.read settings ch text).log =
      BoundedLog.last logLines (told ++ text :: (explainMissingScript settings text).toList) := by
  rw [Job.read]
  cases explainMissingScript settings text with
  | none =>
      cases job.kind with
      | run out =>
          refine pushLine_logged ?_ text
          exact logged
      | makeOp => exact pushLine_logged logged text
      | sweep out => exact pushLine_logged logged text
  | some hint =>
      rw [Option.toList_some, ← List.singleton_append, ← List.append_assoc]
      cases job.kind with
      | run out =>
          refine pushLine_logged (pushLine_logged ?_ text) hint
          exact logged
      | makeOp => exact pushLine_logged (pushLine_logged logged text) hint
      | sweep out => exact pushLine_logged (pushLine_logged logged text) hint

theorem heed_logged {job : Job} {told : List Text}
    (logged : job.log = BoundedLog.last logLines told)
    (id : Nat) (settings : Settings) (asked : Bool) (e : JobEvent) :
    (job.heed lib settings asked e).log =
      BoundedLog.last logLines (told ++ lines lib id (some (job, asked))
        (.heard id settings e)) := by
  cases e with
  | started pid =>
      simp only [lines, if_true, List.append_nil]
      exact logged
  | spawnFailed msg =>
      simp only [lines, if_true]
      exact pushLine_logged logged msg
  | exited code =>
      simp only [lines, if_true]
      exact @pushLine_logged
        { job with status := if asked then .cancelled else .finished code } told
        logged _
  | line ch text =>
      simp only [lines, if_true, Job.heed]
      cases sweepLine lib job ch text with
      | none => exact read_logged logged settings ch text
      | some found =>
          obtain ⟨out, ev⟩ := found
          have kept := (@sweepEvent_log _ lib job ev).trans logged
          dsimp only
          generalize sweepEvent lib job ev = made at kept
          obtain ⟨after, _ | summary⟩ := made
          · exact kept.trans (by rw [Option.toList_none, List.append_nil])
          · exact pushLine_logged kept summary

theorem tell_logged {id : Nat} {told : Option (Job × Bool) × List Text} (h : Happening)
    (logged : Logged told) : Logged (tell lib id told h) := by
  obtain ⟨life, text⟩ := told
  intro job asked now
  cases h with
  | asked i j =>
      by_cases mine : i = id
      · simp only [tell, live, if_pos mine] at now ⊢
        cases now
        rfl
      · simp only [tell, live, if_neg mine] at now ⊢
        exact logged job asked now
  | applied later =>
      simp only [tell, live, lines, List.append_nil] at now ⊢
      exact logged job asked now
  | cleared =>
      simp only [tell, live, lines, List.append_nil] at now ⊢
      exact logged job asked now
  | launched i launch =>
      by_cases mine : i = id
      · simp only [tell, live, lines, if_pos mine] at now ⊢
        obtain ⟨⟨before, flag⟩, was, same⟩ := Option.map_eq_some_iff.mp now
        cases same
        exact @pushLine_logged before text (logged before flag was) _
      · simp only [tell, live, lines, if_neg mine, List.append_nil] at now ⊢
        exact logged job asked now
  | heard i settings e =>
      by_cases mine : i = id
      · subst mine
        simp only [tell, live, if_pos] at now ⊢
        obtain ⟨⟨before, flag⟩, was, same⟩ := Option.map_eq_some_iff.mp now
        obtain ⟨rfl, -⟩ := Prod.mk.inj same
        rw [was]
        exact heed_logged (logged before flag was) i settings flag e
      · simp only [tell, live, lines, if_neg mine, List.append_nil] at now ⊢
        exact logged job asked now
  | cancelled i =>
      by_cases mine : i = id
      · subst mine
        simp only [tell, live, if_pos] at now ⊢
        obtain ⟨⟨before, flag⟩, was, same⟩ := Option.map_eq_some_iff.mp now
        have kept := logged before flag was
        cases status : before.status with
        | running =>
            simp only [status] at same
            cases same
            rw [was]
            simp only [lines, Option.map_some, status, and_self, if_true]
            exact pushLine_logged kept _
        | _ =>
            simp only [status] at same
            cases same
            rw [was]
            simpa [lines, status] using kept
      · have other : ¬ (i = id ∧ (life.map fun one => one.1.status) = some .running) :=
          fun both => mine both.1
        simp only [tell, live, lines, if_neg mine, if_neg other, List.append_nil] at now ⊢
        exact logged job asked now

theorem tell_fold (id : Nat) (past : List Happening) (told : Option (Job × Bool) × List Text)
    (logged : Logged told) :
    (past.foldl (tell lib id) told).1 = past.foldl (live lib id) told.1 ∧
      Logged (past.foldl (tell lib id) told) := by
  induction past generalizing told with
  | nil => exact ⟨rfl, logged⟩
  | cons h rest ih => exact ih (tell lib id told h) (tell_logged h logged)

theorem lifeOf_filter (id : Nat) (past : List Happening) :
    lifeOf lib id (past.filter fun h => about h = some id) = lifeOf lib id past := by
  rw [lifeOf, lifeOf]
  generalize (none : Option (Job × Bool)) = life
  induction past generalizing life with
  | nil => rfl
  | cons h rest ih =>
      by_cases mine : about h = some id
      · rw [List.filter_cons_of_pos (by simpa using mine), List.foldl_cons, List.foldl_cons, ih]
      · have still : live lib id life h = life := by
          cases h with
          | applied later => rfl
          | cleared => rfl
          | _ => exact if_neg fun same => mine (congrArg some same)
        rw [List.filter_cons_of_neg (by simpa using mine), List.foldl_cons, still, ih]

/-- A job's record is what its own events make of it: in two runs that did the same to it,
whatever else went on, it is the same. Its log is the last of the lines it was sent. -/
theorem own_record {settings₁ settings₂ : Settings} {d₁ d₂ : Desk F}
    {past₁ past₂ : List Happening} (one : Run lib settings₁ d₁ past₁)
    (two : Run lib settings₂ d₂ past₂) (job₁ job₂ : Job) (here₁ : job₁ ∈ d₁.app.jobs)
    (here₂ : job₂ ∈ d₂.app.jobs) (named : job₂.id = job₁.id)
    (same : (past₁.filter fun h => about h = some job₁.id) =
      past₂.filter fun h => about h = some job₁.id) :
    job₁ = job₂ ∧ job₁.log = BoundedLog.last logLines (transcript lib job₁.id past₁) := by
  have first := (run_kept one).1.own.life job₁ here₁
  have second := (run_kept two).1.own.life job₂ here₂
  constructor
  · rw [← lifeOf_filter, same, lifeOf_filter, ← named, second] at first
    exact (Prod.mk.inj (Option.some.inj first)).1.symm
  · have start : Logged (none, []) := fun job asked bad => by cases bad
    obtain ⟨life, logged⟩ := @tell_fold _ lib job₁.id past₁ (none, []) start
    exact logged job₁ _ (life.trans first)

theorem first_record :
    ∃ one ∈ (desk [generate]).app.jobs, ∃ two ∈ (desk [generate, generate]).app.jobs,
      one.id = 1 ∧ two.id = 1 ∧ one = two ∧
        one.log = BoundedLog.last logLines (transcript noLibrary one.id (asking [generate])) :=
  ⟨_, List.mem_cons_self, _, List.mem_cons_self, rfl, rfl,
    own_record (asking_run [generate]) (asking_run [generate, generate]) _ _ List.mem_cons_self
      List.mem_cons_self rfl rfl⟩

/-! ### A copied command -/

theorem heed_launch (settings : Settings) (asked : Bool) (job : Job) (e : JobEvent) :
    (job.heed lib settings asked e).launch = job.launch := by
  cases e with
  | started pid => rfl
  | spawnFailed msg => rfl
  | exited code => rfl
  | line ch line =>
      rw [Job.heed]
      split
      · next ev _ => cases ev <;> rfl
      · rw [Job.read]
        cases job.kind <;> cases explainMissingScript settings line <;> rfl

theorem life_launch (id : Nat) (past : List Happening) (job : Job) (asked : Bool)
    (life : lifeOf lib id past = some (job, asked)) (l : Launch) (launched : job.launch = some l) :
    .launched id l ∈ past := by
  induction past using List.reverseRecOn generalizing job asked with
  | nil => cases life
  | append_singleton past h ih =>
      refine List.mem_append.mpr ?_
      rw [lifeOf_append, List.foldl_cons, List.foldl_nil] at life
      -- Only being launched sets it; every other happening leaves it as it was.
      have kept {f : Job × Bool → Job × Bool} (same : ∀ one, (f one).1.launch = one.1.launch)
          (now : (lifeOf lib id past).map f = some (job, asked)) : .launched id l ∈ past := by
        obtain ⟨one, before, made⟩ := Option.map_eq_some_iff.mp now
        refine ih one.1 one.2 before ((same one).symm.trans ?_)
        rw [made]
        exact launched
      cases h with
      | applied later => exact .inl (ih job asked life launched)
      | cleared => exact .inl (ih job asked life launched)
      | asked i j =>
          rw [live] at life
          split at life
          · cases life
            cases launched
          · exact .inl (ih job asked life launched)
      | launched i now =>
          rw [live] at life
          split at life
          · next same =>
              obtain ⟨one, before, made⟩ := Option.map_eq_some_iff.mp life
              cases made
              cases launched
              exact .inr (same ▸ List.mem_singleton_self _)
          · exact .inl (ih job asked life launched)
      | heard i settings e =>
          rw [live] at life
          split at life
          · exact .inl (kept (fun one => heed_launch settings one.2 one.1 e) life)
          · exact .inl (ih job asked life launched)
      | cancelled i =>
          rw [live] at life
          split at life
          · refine .inl (kept (fun one => ?_) life)
            cases one.1.status <;> rfl
          · exact .inl (ih job asked life launched)

/-- The command that is copied for a job is, as a shell reads it, the program and the
arguments that the job's process was started with. -/
theorem copied_is_run {d : Desk F} {past : List Happening} (run : Run lib settings d past)
    (id : Nat) (host : Host) (disk : Disk F) (command : Text)
    (copied : .copy command ∈ (update lib host disk d.app (.copy id)).2) :
    ∃ l, .launched id l ∈ past ∧ words .bare none command = some (l.program :: l.args) := by
  cases found : (lookup id d.app.jobs).bind Job.launch with
  | none => simp [update, found] at copied
  | some l =>
      obtain ⟨job, here, launched⟩ := Option.bind_eq_some_iff.mp found
      obtain rfl := lookup_id here
      have life := (run_kept run).1.own.life job (List.mem_of_find?_eq_some here)
      have same : command = l.display := by simpa [update, found] using copied
      exact ⟨l, life_launch job.id past job _ life l launched, same ▸ display_words l⟩

theorem first_copied :
    ∃ command, .copy command ∈ (update noLibrary noHost noDisk (desk [generate]).app (.copy 1)).2 ∧
      ∃ l, .launched 1 l ∈ asking [generate] ∧
        words .bare none command = some (l.program :: l.args) :=
  ⟨_, List.mem_singleton_self _,
    copied_is_run (asking_run [generate]) 1 noHost noDisk _ (List.mem_singleton_self _)⟩

/-! ### Left alone -/

/-- What the processes' events do to the queue when the user asks for nothing more. -/
inductive Drain (lib : Library F) (d : Desk F) : List Happening → Desk F → Prop
  | still : Drain lib d [] d
  | event (now : Desk F) (past : List Happening) (host : Host) (disk : Disk F)
      (front back : List (Nat × Stream)) (id : Nat) (stage : Stream) (e : JobEvent)
      (next : Option Stream)
      (before : Drain lib d past now) (here : now.streams = front ++ (id, stage) :: back)
      (sent : Emits stage e next) :
      Drain lib d
        (past ++ happenings now.app (.job id e) (update lib host disk now.app (.job id e)).2)
        (now.next lib host (.job id e) disk (front ++ (next.map fun s => (id, s)).toList ++ back))

def isEnd : Happening → Bool
  | .heard _ _ (.exited _) => true
  | .heard _ _ (.spawnFailed _) => true
  | _ => false

/-- How many processes have ended. -/
def ends (past : List Happening) : Nat := past.countP isEnd

/-- From `one` to `two` by `now`, every job stayed, those that waited were launched from the
front, and one fewer is active for each process that ended. -/
structure Drained (one two : Queue) (now : List Happening) : Prop where
  ids : two.jobs.map Job.id = one.jobs.map Job.id
  order : launchedIds now ++ waiting two.jobs = waiting one.jobs
  count : active two.jobs + ends now = active one.jobs

theorem Drained.trans {one two three : Queue} {now later : List Happening}
    (first : Drained one two now) (second : Drained two three later) :
    Drained one three (now ++ later) := by
  refine ⟨second.ids.trans first.ids, ?_, ?_⟩
  · rw [launchedIds_append, List.append_assoc, second.order, first.order]
  · have split : ends (now ++ later) = ends now + ends later := List.countP_append
    have one := first.count
    have two := second.count
    omega

theorem ids_change {id : Nat} (f : Job → Job) {jobs : List Job}
    (keeps : ∀ job, (f job).id = job.id) :
    (change id f jobs).map Job.id = jobs.map Job.id := by
  rw [change, List.map_map]
  refine List.map_congr_left fun job _ => ?_
  dsimp only [Function.comp_apply]
  split
  · exact keeps job
  · rfl

theorem waiting_change {id : Nat} (f : Job → Job) {jobs : List Job} {job : Job}
    (ordered : Ordered jobs) (found : lookup id jobs = some job)
    (keeps : ∀ job, (f job).id = job.id) (same : isQueued (f job) = isQueued job) :
    waiting (change id f jobs) = waiting jobs := by
  rw [waiting, waiting, change, List.filter_map, List.map_map]
  have alike : jobs.filter (isQueued ∘ fun job => if job.id = id then f job else job) =
      jobs.filter isQueued := by
    refine List.filter_congr fun old member => ?_
    rw [Function.comp_apply]
    by_cases about : old.id = id
    · rw [if_pos about, lookup_only ordered found member about, same]
    · rw [if_neg about]
  rw [alike]
  refine List.map_congr_left fun old _ => ?_
  rw [Function.comp_apply]
  split
  · exact keeps old
  · rfl

theorem waiting_first {jobs : List Job} {job : Job} (launch : Launch)
    (first : jobs.find? isQueued = some job) :
    job.id :: waiting (alterFirst isQueued (·.started launch) jobs) = waiting jobs := by
  induction jobs with
  | nil => cases first
  | cons head rest ih =>
      rw [List.find?_cons] at first
      cases hit : isQueued head with
      | true =>
          rw [hit] at first
          cases first
          rw [alterFirst, if_pos hit, waiting, waiting, List.filter_cons_of_pos hit,
            List.filter_cons_of_neg (by simp [isQueued, Job.started])]
          rfl
      | false =>
          rw [hit] at first
          rw [alterFirst, if_neg (by simp [hit]), waiting, waiting,
            List.filter_cons_of_neg (by simp [hit]), List.filter_cons_of_neg (by simp [hit])]
          exact ih first

theorem count_change {id : Nat} (p : Job → Bool) (f : Job → Job) {jobs : List Job} {job : Job}
    (ordered : Ordered jobs) (found : lookup id jobs = some job) :
    (change id f jobs).countP p + (p job).toNat = jobs.countP p + (p (f job)).toNat := by
  induction jobs with
  | nil => cases found
  | cons head rest ih =>
      obtain ⟨above, later⟩ := List.pairwise_cons.mp ordered
      by_cases about : head.id = id
      · have same := lookup_only ordered found List.mem_cons_self about
        have still : change id f rest = rest := by
          refine (List.map_congr_left fun other member => ?_).trans (List.map_id rest)
          exact if_neg fun alike => (above other member).ne (about.trans alike.symm)
        rw [change, List.map_cons, if_pos about, ← change, still, same, List.countP_cons,
          List.countP_cons]
        cases p job <;> cases p (f job) <;> simp
      · have inside : lookup id rest = some job := by
          rw [lookup, List.find?_cons, decide_eq_false about] at found
          exact found
        have fewer := ih later inside
        rw [change, List.map_cons, if_neg about, ← change, List.countP_cons, List.countP_cons]
        omega

def unasked : Happening → Bool
  | .launched _ _ => true
  | .heard _ _ _ => true
  | _ => false

theorem Act.drained {one two : Queue} {past now : List Happening} (act : Act lib host one now two)
    (alone : ∀ h ∈ now, unasked h = true) (kept : Kept lib settings one past) :
    Drained one two now := by
  cases act with
  | ask j => cases alone _ (List.mem_singleton_self _)
  | clear => cases alone _ (List.mem_singleton_self _)
  | apply later => cases alone _ (List.mem_singleton_self _)
  | withdraw job found waits => cases alone _ (List.mem_singleton_self _)
  | stop job found runs => cases alone _ (List.mem_singleton_self _)
  | late job found ended => cases alone _ (List.mem_singleton_self _)
  | launch job room first =>
      have found := lookup_first kept.ordered first
      have waits := queued_first first
      refine ⟨ids_change _ (fun _ => rfl), ?_, ?_⟩
      · dsimp only
        rw [← alterFirst_change kept.ordered first]
        exact waiting_first _ first
      · have same := count_change (·.status.isActive)
          (·.started (launch host one.settings job.invocation job.id)) kept.ordered found
        rw [waits] at same
        exact Nat.add_right_cancel same
  | hear job front back stage e next found here sent =>
      have runs : job.status = .running := by
        rw [← running_lookup kept.ordered found, ← kept.matched.ours, here]
        simp
      have heard := count_change (·.status.isActive)
        (·.heed lib one.settings (decide (job.id ∈ one.cancelRequested)) e) kept.ordered found
      refine ⟨ids_change _ (fun _ => heed_id ..), ?_, ?_⟩
      · refine waiting_change (·.heed lib _ _ e) kept.ordered found (fun _ => heed_id ..) ?_
        refine (decide_eq_false fun bad => ?_).trans (decide_eq_false (by rw [runs]; decide)).symm
        have waited := heed_waited sent _ _ job bad
        rw [runs] at waited
        cases waited
      · cases next with
        | some next =>
            rw [heed_going sent] at heard
            have going : isEnd (.heard job.id one.settings e) = false := by
              cases sent <;> rfl
            have zero : ends [.heard job.id one.settings e] = 0 := by
              rw [ends, List.countP_cons_of_neg (by simp [going]), List.countP_nil]
            rw [zero]
            exact Nat.add_right_cancel heard
        | none =>
            rw [heed_over sent, runs] at heard
            have last : isEnd (.heard job.id one.settings e) = true := by
              cases sent <;> rfl
            have single : ends [.heard job.id one.settings e] = 1 := by
              rw [ends, List.countP_cons_of_pos last, List.countP_nil]
            rw [single]
            exact heard

theorem Acts.drained {one two : Queue} {past now : List Happening}
    (acts : Acts lib host one now two)
    (alone : ∀ h ∈ now, unasked h = true) (kept : Kept lib settings one past) :
    Drained one two now := by
  induction acts with
  | none => exact ⟨rfl, rfl, rfl⟩
  | more three four earlier now before act ih =>
      refine (ih fun h member => alone h (List.mem_append_left _ member)).trans ?_
      exact Act.drained act (fun h member => alone h (List.mem_append_right _ member))
        (Acts.kept before kept)

theorem Drain.run {d now : Desk F} {past later : List Happening}
    (run : Run lib settings d past) (drain : Drain lib d later now) :
    Run lib settings now (past ++ later) := by
  induction drain with
  | still => rwa [List.append_nil]
  | event now later host disk front back id stage e next before here sent ih =>
      rw [← List.append_assoc]
      exact .event now _ host disk front back id stage e next ih here sent

theorem Drain.drained {d now : Desk F} {past later : List Happening}
    (run : Run lib settings d past) (drain : Drain lib d later now) :
    Drained d.queue now.queue later := by
  induction drain with
  | still => exact ⟨rfl, rfl, rfl⟩
  | event now later host disk front back id stage e next before here sent ih =>
      have kept := (run_kept (Drain.run run before)).1
      have acts := event_acts lib host now disk front back id stage e next here sent
        (known_stream here kept) kept.ordered
      refine ih.trans (Acts.drained acts (fun h member => ?_) kept)
      rcases List.mem_append.mp member with heard | launched
      · rw [List.mem_singleton.mp heard]
        rfl
      · obtain ⟨one, -, rfl⟩ := List.mem_map.mp launched
        rfl

theorem idle_iff {d : Desk F} {past : List Happening} (run : Run lib settings d past) :
    d.streams = [] ↔ active d.app.jobs = 0 := by
  obtain ⟨kept, full⟩ := run_kept run
  have count : countRunning d.app.jobs = d.streams.length := kept.count
  rw [active, List.countP_eq_zero]
  constructor
  · intro empty job member
    rw [empty] at count
    cases status : job.status with
    | queued =>
        have room := full job member status
        rw [count] at room
        exact absurd room (by simp)
    | running =>
        have nothing := List.countP_eq_zero.mp count job member
        simp [status] at nothing
    | _ => exact Bool.false_ne_true
  · intro idle
    rw [← List.length_eq_zero_iff, ← count, countRunning, List.countP_eq_zero]
    intro job member runs
    have active := idle job member
    rw [of_decide_eq_true runs] at active
    exact active rfl

/-- No two jobs have one number, no process is without a running job, none has two, and no
running job is without one. -/
theorem processes_are_jobs {d : Desk F} {past : List Happening}
    (run : Run lib settings d past) :
    (d.app.jobs.map Job.id).Nodup ∧ (d.streams.map Prod.fst).Nodup ∧
      ∀ id, id ∈ d.streams.map Prod.fst ↔
        ∃ job ∈ d.app.jobs, job.id = id ∧ job.status = .running := by
  have kept := (run_kept run).1
  have distinct : (d.app.jobs.map Job.id).Nodup :=
    List.pairwise_map.mpr (kept.ordered.imp fun below => below.ne)
  exact ⟨distinct, kept.matched.once, kept.matched.ours⟩

theorem first_process :
    (desk [generate, generate]).streams = [(1, .spawning)] ∧
      ((desk [generate, generate]).app.jobs.map Job.id).Nodup ∧
      ((desk [generate, generate]).streams.map Prod.fst).Nodup ∧
      ∀ id, id ∈ (desk [generate, generate]).streams.map Prod.fst ↔
        ∃ job ∈ (desk [generate, generate]).app.jobs, job.id = id ∧ job.status = .running :=
  ⟨rfl, processes_are_jobs (asking_run [generate, generate])⟩

/-- Left alone the queue runs dry: the waiting jobs are launched from the front, every
process that ends takes one off the active jobs, and no process is left only when no
job is active. -/
theorem left_alone {d now : Desk F} {past later : List Happening}
    (run : Run lib settings d past) (drain : Drain lib d later now) :
    now.app.jobs.map Job.id = d.app.jobs.map Job.id ∧
      launchedIds later ++ waiting now.app.jobs = waiting d.app.jobs ∧
      active now.app.jobs + ends later = active d.app.jobs ∧
      (now.streams = [] ↔ active now.app.jobs = 0) :=
  have drained := Drain.drained run drain
  ⟨drained.ids, drained.order, drained.count, idle_iff (Drain.run run drain)⟩

theorem first_done :
    ∃ (now : Desk Unit) (later : List Happening),
      launchedIds later = [2] ∧ ends later = 1 ∧ now.streams ≠ [] ∧
      now.app.jobs.map Job.id = (desk [generate, generate]).app.jobs.map Job.id ∧
      launchedIds later ++ waiting now.app.jobs = waiting (desk [generate, generate]).app.jobs ∧
      active now.app.jobs + ends later = active (desk [generate, generate]).app.jobs ∧
      (now.streams = [] ↔ active now.app.jobs = 0) :=
  have started : Drain noLibrary (desk [generate, generate]) _ _ :=
    .event _ _ noHost noDisk [] [] 1 .spawning (.started none) (some .reading) .still
      rfl (.started none)
  have exited := Drain.event _ _ noHost noDisk [] [] 1 .reading (.exited (some 0)) none started rfl
    (.exited (some 0))
  ⟨_, _, rfl, rfl, List.cons_ne_nil _ _, left_alone (asking_run [generate, generate]) exited⟩

end Runs

end HeteroSim.JobFates
