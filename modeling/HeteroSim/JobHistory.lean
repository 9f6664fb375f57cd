import HeteroSim.JobRuns

/-!
What holds of the job queue after any run. Each thing the queue does keeps every
part of the invariant, so every run does; the room left is what `pump` leaves.
-/

namespace HeteroSim.JobHistory

open Backend JobQueue JobRuns

section Acts

variable {F : Type} {lib : Library F} {host : Host}

/-! ### Processes and running jobs -/

/-- Every process is a running job's, every running job has one, and no more. -/
structure Matched (q : Queue) : Prop where
  once : (q.streams.map Prod.fst).Nodup
  ours : ∀ id, id ∈ q.streams.map Prod.fst ↔ Running q.jobs id

theorem running_lookup {jobs : List Job} {id : Nat} {job : Job} (ordered : Ordered jobs)
    (found : lookup id jobs = some job) : Running jobs id ↔ job.status = .running := by
  constructor
  · rintro ⟨other, member, rfl, running⟩
    rw [lookup_of_mem ordered member] at found
    cases found
    exact running
  · intro running
    exact ⟨job, List.mem_of_find?_eq_some found, lookup_id found, running⟩

theorem heed_going {stage next : Stream} {e : JobEvent} (sent : Emits stage e (some next))
    (settings : Settings) (asked : Bool) (job : Job) :
    (job.heed lib settings asked e).status = job.status := by
  cases sent with
  | started pid => rfl
  | line ch text =>
      rw [Job.heed]
      split
      · next ev _ => cases ev <;> rfl
      · rw [Job.read]
        cases job.kind <;> cases explainMissingScript settings text <;> rfl

theorem heed_over {stage : Stream} {e : JobEvent} (sent : Emits stage e none)
    (settings : Settings) (asked : Bool) (job : Job) :
    (job.heed lib settings asked e).status.isActive = false := by
  cases sent with
  | failed msg => rfl
  | exited code => cases asked <;> rfl

theorem running_unchanged {id : Nat} (f : Job → Job) {jobs : List Job} {job : Job}
    (ordered : Ordered jobs) (found : lookup id jobs = some job)
    (keeps : ∀ job, (f job).id = job.id)
    (same : (f job).status = .running ↔ job.status = .running) (other : Nat) :
    Running (change id f jobs) other ↔ Running jobs other := by
  rw [running_change f ordered found keeps]
  by_cases about : other = id
  · subst about
    rw [if_pos rfl, same, running_lookup ordered found]
  · rw [if_neg about]

theorem lookup_first {jobs : List Job} {job : Job} (ordered : Ordered jobs)
    (first : jobs.find? isQueued = some job) : lookup job.id jobs = some job :=
  lookup_of_mem ordered (List.mem_of_find?_eq_some first)

theorem queued_first {jobs : List Job} {job : Job} (first : jobs.find? isQueued = some job) :
    job.status = .queued := by simpa [isQueued] using List.find?_some first

theorem Act.matched {one two : Queue} {now : List Happening} (act : Act lib host one now two)
    (ordered : Ordered one.jobs) (matched : Matched one) : Matched two := by
  cases act with
  | ask j =>
      refine ⟨matched.once, fun id => (matched.ours id).trans ?_⟩
      simp [Running, List.mem_append, or_and_right, exists_or, Job.new]
  | clear =>
      refine ⟨matched.once, fun id => (matched.ours id).trans ?_⟩
      refine exists_congr fun job => ?_
      rw [List.mem_filter]
      constructor
      · rintro ⟨member, named, running⟩
        exact ⟨⟨member, by rw [running]; rfl⟩, named, running⟩
      · rintro ⟨⟨member, -⟩, named, running⟩
        exact ⟨member, named, running⟩
  | apply settings => exact ⟨matched.once, matched.ours⟩
  | launch job room first =>
      have found := lookup_first ordered first
      have idle : job.id ∉ one.streams.map Prod.fst := by
        rw [matched.ours, running_lookup ordered found, queued_first first]
        exact JobStatus.noConfusion
      constructor
      · rw [List.map_append]
        exact List.nodup_append.mpr ⟨matched.once, List.nodup_singleton _, fun id old new here => by
          rintro rfl
          rw [List.map_singleton, List.mem_singleton] at here
          rw [here] at old
          exact idle old⟩
      · intro id
        rw [running_change (·.started _) ordered found fun _ => rfl, List.map_append,
          List.mem_append,
          List.map_singleton, List.mem_singleton, matched.ours]
        by_cases about : id = job.id
        · simp [about, Job.started]
        · simp [about]
  | withdraw job found waits =>
      refine ⟨matched.once, fun id => (matched.ours id).trans ?_⟩
      refine (running_unchanged (fun job => { job with status := .cancelled }) ordered found
        (fun _ => rfl) ?_ id).symm
      simp [waits]
  | stop job found runs =>
      refine ⟨matched.once, fun id => (matched.ours id).trans ?_⟩
      exact (running_unchanged (·.pushLine _) ordered found (fun _ => rfl) Iff.rfl id).symm
  | late job found ended => exact matched
  | hear job front back stage e next found here sent =>
      have split : one.streams.map Prod.fst =
        front.map Prod.fst ++ job.id :: back.map Prod.fst := by
        rw [here, List.map_append, List.map_cons]
      have once := matched.once
      rw [split] at once
      cases next with
      | some next =>
          have same : ((front ++ [(job.id, next)] ++ back).map Prod.fst) =
            one.streams.map Prod.fst := by
            rw [split]
            simp
          refine ⟨?_, fun id => ?_⟩
          · dsimp only [Option.map, Option.toList]
            rw [same]
            exact matched.once
          · dsimp only [Option.map, Option.toList]
            rw [same, matched.ours]
            refine (running_unchanged (·.heed lib _ _ e) ordered found (fun _ =>
              heed_id ..) ?_ id).symm
            rw [heed_going sent]
      | none =>
          obtain ⟨apart, rest⟩ := List.nodup_cons.mp (List.perm_middle.nodup_iff.mp once)
          refine ⟨?_, fun id => ?_⟩
          · simpa using rest
          · have ended :
              (job.heed lib one.settings (decide (job.id ∈ one.cancelRequested)) e).status ≠
                .running := by
              intro running
              have idle := @heed_over _ lib _ _ sent one.settings
                (decide (job.id ∈ one.cancelRequested)) job
              rw [running] at idle
              cases idle
            have whose := matched.ours id
            rw [split] at whose
            rw [running_change (·.heed lib _ _ e) ordered found fun _ => heed_id ..]
            by_cases about : id = job.id
            · subst about
              simp only [if_true, ended, iff_false]
              simpa using apart
            · rw [if_neg about, ← whose]
              simp [about]

/-! ### The order of starting -/

/-- Jobs have started in the order of their numbers, and none past a waiting one. -/
structure InTurn (q : Queue) (past : List Happening) : Prop where
  rising : (launchedIds past).Pairwise fun one two => one < two
  known : ∀ id ∈ launchedIds past, id < q.nextId
  before : ∀ id ∈ launchedIds past, ∀ job ∈ q.jobs, job.status = .queued → id < job.id

theorem launchedIds_append (past now : List Happening) :
    launchedIds (past ++ now) = launchedIds past ++ launchedIds now := List.filterMap_append

theorem queued_change {id : Nat} (f : Job → Job) {jobs : List Job} {job : Job}
    (keeps : ∀ job, (f job).id = job.id)
    (waited : ∀ job, (f job).status = .queued → job.status = .queued)
    (member : job ∈ change id f jobs) (waits : job.status = .queued) :
    ∃ old ∈ jobs, old.status = .queued ∧ old.id = job.id := by
  obtain ⟨old, was, rfl⟩ := mem_change.mp member
  refine ⟨old, was, ?_⟩
  by_cases about : old.id = id
  · rw [if_pos about] at waits ⊢
    exact ⟨waited old waits, (keeps old).symm⟩
  · rw [if_neg about] at waits ⊢
    exact ⟨waits, rfl⟩

theorem heed_waited {stage : Stream} {e : JobEvent} {next : Option Stream}
    (sent : Emits stage e next)
    (settings : Settings) (asked : Bool) (job : Job)
    (waits : (job.heed lib settings asked e).status = .queued) : job.status = .queued := by
  cases next with
  | some next => rwa [heed_going sent] at waits
  | none =>
      have idle := @heed_over _ lib _ _ sent settings asked job
      rw [waits] at idle
      cases idle

theorem first_least {jobs : List Job} {job other : Job} (ordered : Ordered jobs)
    (first : jobs.find? isQueued = some job) (member : other ∈ jobs)
    (waits : other.status = .queued) :
    job.id ≤ other.id := by
  induction jobs with
  | nil => cases member
  | cons head rest ih =>
      obtain ⟨above, later⟩ := List.pairwise_cons.mp ordered
      rw [List.find?_cons] at first
      cases hit : isQueued head with
      | true =>
          rw [hit] at first
          cases first
          rcases List.mem_cons.mp member with rfl | tail
          · exact Nat.le_refl _
          · exact (above other tail).le
      | false =>
          rw [hit] at first
          rcases List.mem_cons.mp member with rfl | tail
          · simp [isQueued, waits] at hit
          · exact ih later first tail

theorem InTurn.quiet {one two : Queue} {past now : List Happening} (turn : InTurn one past)
    (silent : launchedIds now = []) (grown : one.nextId ≤ two.nextId)
    (waited : ∀ job ∈ two.jobs, job.status = .queued →
      one.nextId ≤ job.id ∨ ∃ old ∈ one.jobs, old.status = .queued ∧ old.id = job.id) :
    InTurn two (past ++ now) := by
  have same : launchedIds (past ++ now) = launchedIds past := by
    rw [launchedIds_append, silent, List.append_nil]
  refine ⟨same ▸ turn.rising, ?_, ?_⟩ <;> rw [same]
  · intro id member
    exact (turn.known id member).trans_le grown
  · intro id member job here waits
    rcases waited job here waits with new | ⟨old, was, waited, named⟩
    · exact (turn.known id member).trans_le new
    · exact named ▸ turn.before id member old was waited

theorem Act.inTurn {one two : Queue} {past now : List Happening} (act : Act lib host one now two)
    (fresh : ∀ job ∈ one.jobs, job.id < one.nextId) (ordered : Ordered one.jobs)
    (turn : InTurn one past) : InTurn two (past ++ now) := by
  cases act with
  | ask j =>
      refine turn.quiet rfl (Nat.le_succ _) fun job member waits => ?_
      rcases List.mem_append.mp member with old | new
      · exact .inr ⟨job, old, waits, rfl⟩
      · rw [List.mem_singleton.mp new]
        exact .inl (Nat.le_refl _)
  | clear =>
      refine turn.quiet rfl (Nat.le_refl _) fun job member waits => ?_
      exact .inr ⟨job, (List.mem_filter.mp member).1, waits, rfl⟩
  | apply settings =>
      exact turn.quiet rfl (Nat.le_refl _) fun job member waits => .inr ⟨job, member, waits, rfl⟩
  | launch job room first =>
      let launch := launch host one.settings job.invocation job.id
      have here := List.mem_of_find?_eq_some first
      have last : launchedIds (past ++ [.launched job.id launch]) = launchedIds past ++ [job.id] :=
        launchedIds_append past _
      refine ⟨?_, ?_, ?_⟩ <;> rw [last]
      · refine List.pairwise_append.mpr ⟨turn.rising, List.pairwise_singleton _ _, ?_⟩
        intro id earlier new this
        rw [List.mem_singleton.mp this]
        exact turn.before id earlier job here (queued_first first)
      · intro id member
        rcases List.mem_append.mp member with earlier | this
        · exact turn.known id earlier
        · exact List.mem_singleton.mp this ▸ fresh job here
      · intro id member new changed waits
        have apart : new.id ≠ job.id := by
          intro same
          obtain ⟨old, was, rfl⟩ := mem_change.mp changed
          by_cases about : old.id = job.id
          · rw [if_pos about] at waits
            cases waits
          · rw [if_neg about] at same
            exact about same
        obtain ⟨old, was, waited, named⟩ :=
          queued_change (·.started launch) (fun _ => rfl)
            (fun job bad => by cases bad) changed waits
        rcases List.mem_append.mp member with earlier | this
        · exact named ▸ turn.before id earlier old was waited
        · rw [List.mem_singleton.mp this]
          have least := first_least ordered first was waited
          omega
  | withdraw job found waits =>
      refine turn.quiet rfl (Nat.le_refl _) fun new member waits => .inr ?_
      exact queued_change (fun job => { job with status := .cancelled }) (fun _ => rfl)
        (fun job bad => by cases bad) member waits
  | stop job found runs =>
      refine turn.quiet rfl (Nat.le_refl _) fun new member waits => .inr ?_
      exact queued_change (·.pushLine _) (fun _ => rfl) (fun job waits => waits) member waits
  | late job found ended =>
      exact turn.quiet rfl (Nat.le_refl _) fun job member waits => .inr ⟨job, member, waits, rfl⟩
  | hear job front back stage e next found here sent =>
      refine turn.quiet rfl (Nat.le_refl _) fun new member waits => .inr ?_
      exact queued_change (·.heed lib _ _ e) (fun _ => heed_id ..)
        (fun job waits => heed_waited sent _ _ job waits) member waits

/-! ### How many at once -/

theorem peak_more (settings : Settings) (past now : List Happening) :
    peak settings past ≤ peak settings (past ++ now) := by
  rw [peak, peak, List.foldl_append]
  generalize past.foldl _ _ = most
  induction now generalizing most with
  | nil => exact Nat.le_refl _
  | cons one rest ih =>
      refine Nat.le_trans ?_ (ih _)
      cases one with
      | applied later => exact Nat.le_max_left _ _
      | _ => exact Nat.le_refl _

structure Within (settings : Settings) (q : Queue) (past : List Happening) : Prop where
  limit : max q.settings.concurrency 1 ≤ peak settings past
  few : q.streams.length ≤ peak settings past

theorem Act.within {one two : Queue} {past now : List Happening} {settings : Settings}
    (act : Act lib host one now two) (ordered : Ordered one.jobs) (matched : Matched one)
    (within : Within settings one past) : Within settings two (past ++ now) := by
  have more := peak_more settings past now
  have limit := within.limit.trans more
  have few := within.few.trans more
  cases act with
  | apply later =>
      refine ⟨?_, few⟩
      rw [peak, List.foldl_append]
      exact Nat.le_max_right _ _
  | launch job room first =>
      refine ⟨limit, ?_⟩
      rw [countRunning_streams ordered matched.once matched.ours] at room
      rw [List.length_append]
      exact (Nat.succ_le_of_lt room).trans limit
  | hear job front back stage e next found here sent =>
      refine ⟨limit, Nat.le_trans ?_ few⟩
      rw [here]
      cases next <;> simp
  | ask j => exact ⟨limit, few⟩
  | clear => exact ⟨limit, few⟩
  | withdraw job found waits => exact ⟨limit, few⟩
  | stop job found runs => exact ⟨limit, few⟩
  | late job found ended => exact ⟨limit, few⟩

/-! ### The order of asking -/

/-- Jobs are numbered in the order they are asked for, and none is launched unasked. -/
structure Numbered (q : Queue) (past : List Happening) : Prop where
  rising : (askedIds past).Pairwise fun one two => one < two
  below : ∀ id ∈ askedIds past, id < q.nextId
  listed : ∀ job ∈ q.jobs, job.id ∈ askedIds past
  launched : ∀ id ∈ launchedIds past, id ∈ askedIds past

theorem askedIds_append (past now : List Happening) :
    askedIds (past ++ now) = askedIds past ++ askedIds now := List.filterMap_append

theorem Numbered.quiet {one two : Queue} {past now : List Happening} (numbered : Numbered one past)
    (silent : askedIds now = []) (same : two.nextId = one.nextId)
    (listed : ∀ job ∈ two.jobs, job.id ∈ askedIds past)
    (launched : ∀ id ∈ launchedIds now, ∃ job ∈ one.jobs, job.id = id) :
    Numbered two (past ++ now) := by
  have asked : askedIds (past ++ now) = askedIds past := by
    rw [askedIds_append, silent, List.append_nil]
  refine ⟨asked ▸ numbered.rising, ?_, asked ▸ listed, fun id member => ?_⟩
  · rw [asked, same]
    exact numbered.below
  · rw [launchedIds_append] at member
    rw [asked]
    rcases List.mem_append.mp member with earlier | new
    · exact numbered.launched id earlier
    · obtain ⟨job, here, rfl⟩ := launched id new
      exact numbered.listed job here

theorem Act.numbered {one two : Queue} {past now : List Happening} (act : Act lib host one now two)
    (numbered : Numbered one past) : Numbered two (past ++ now) := by
  have nobody : ∀ id ∈ ([] : List Nat), ∃ job ∈ one.jobs, job.id = id :=
    fun id member => absurd member List.not_mem_nil
  cases act with
  | ask j =>
      have asked : askedIds (past ++ [.asked one.nextId j]) = askedIds past ++ [one.nextId] :=
        askedIds_append past _
      have launched : launchedIds (past ++ [.asked one.nextId j]) = launchedIds past :=
        (launchedIds_append past _).trans (List.append_nil _)
      refine ⟨?_, ?_, ?_, ?_⟩ <;> rw [asked]
      · refine List.pairwise_append.mpr ⟨numbered.rising, List.pairwise_singleton _ _, ?_⟩
        intro id earlier new this
        rw [List.mem_singleton.mp this]
        exact numbered.below id earlier
      · intro id member
        rcases List.mem_append.mp member with earlier | this
        · exact Nat.lt_succ_of_lt (numbered.below id earlier)
        · rw [List.mem_singleton.mp this]
          exact Nat.lt_succ_self _
      · intro job member
        rcases List.mem_append.mp member with old | new
        · exact List.mem_append_left _ (numbered.listed job old)
        · rw [List.mem_singleton.mp new]
          exact List.mem_append_right _ (List.mem_singleton_self _)
      · rw [launched]
        exact fun id member => List.mem_append_left _ (numbered.launched id member)
  | clear =>
      exact numbered.quiet rfl rfl
        (fun job member => numbered.listed job (List.mem_filter.mp member).1) nobody
  | apply settings => exact numbered.quiet rfl rfl numbered.listed nobody
  | launch job room first =>
      refine numbered.quiet rfl rfl (change_ids (· ∈ askedIds past) (fun _ => rfl) numbered.listed)
        fun id member => ?_
      exact ⟨job, List.mem_of_find?_eq_some first, (List.mem_singleton.mp member).symm⟩
  | withdraw job found waits =>
      exact numbered.quiet rfl rfl (change_ids (· ∈ askedIds past) (fun _ => rfl)
        numbered.listed) nobody
  | stop job found runs =>
      exact numbered.quiet rfl rfl (change_ids (· ∈ askedIds past) (fun _ => rfl)
        numbered.listed) nobody
  | late job found ended => exact numbered.quiet rfl rfl numbered.listed nobody
  | hear job front back stage e next found here sent =>
      exact numbered.quiet rfl rfl (change_ids (· ∈ askedIds past) (fun _ => heed_id ..)
        numbered.listed) nobody

/-! ### Each job's own life -/

/-- A job's record, and whether its cancelling has been asked for, are what happened to
it makes of them. -/
structure Own (lib : Library F) (q : Queue) (past : List Happening) : Prop where
  life : ∀ job ∈ q.jobs, lifeOf lib job.id past = some (job, decide (job.id ∈ q.cancelRequested))
  known : ∀ id ∈ q.cancelRequested, id < q.nextId

theorem lifeOf_append (id : Nat) (past now : List Happening) :
    lifeOf lib id (past ++ now) = now.foldl (live lib id) (lifeOf lib id past) :=
  List.foldl_append

theorem own_change {id : Nat} (f : Job → Job) {jobs : List Job} {job : Job} {past : List Happening}
    {one : Happening} {before after : Finset Nat} (ordered : Ordered jobs)
    (found : lookup id jobs = some job) (keeps : ∀ job, (f job).id = job.id)
    (own : ∀ job ∈ jobs, lifeOf lib job.id past = some (job, decide (job.id ∈ before)))
    (mine : live lib id (some (job, decide (id ∈ before))) one =
      some (f job, decide (id ∈ after)))
    (others : ∀ other life, other ≠ id → live lib other life one = life ∧
      (other ∈ after ↔ other ∈ before)) :
    ∀ job ∈ change id f jobs, lifeOf lib job.id (past ++ [one]) =
      some (job, decide (job.id ∈ after)) := by
  intro new changed
  obtain ⟨old, was, rfl⟩ := mem_change.mp changed
  rw [lifeOf_append, List.foldl_cons, List.foldl_nil]
  by_cases about : old.id = id
  · rw [if_pos about, keeps, own old was, about]
    rw [lookup_only ordered found was about, mine]
  · obtain ⟨still, asked⟩ := others old.id (some (old, decide (old.id ∈ before))) about
    rw [if_neg about, own old was, still]
    simp only [asked]

theorem Act.own {one two : Queue} {past now : List Happening} (act : Act lib host one now two)
    (fresh : ∀ job ∈ one.jobs, job.id < one.nextId) (ordered : Ordered one.jobs)
    (own : Own lib one past) : Own lib two (past ++ now) := by
  cases act with
  | ask j =>
      refine ⟨fun job member => ?_, fun id asked => Nat.lt_succ_of_lt (own.known id asked)⟩
      rw [lifeOf_append, List.foldl_cons, List.foldl_nil, live]
      rcases List.mem_append.mp member with old | new
      · rw [if_neg (fresh job old).ne']
        exact own.life job old
      · have unasked : one.nextId ∉ one.cancelRequested := fun asked =>
          Nat.lt_irrefl _ (own.known _ asked)
        rw [List.mem_singleton.mp new]
        simp [Job.new, unasked]
  | clear =>
      refine ⟨fun job member => ?_, own.known⟩
      rw [lifeOf_append]
      exact own.life job (List.mem_filter.mp member).1
  | apply settings =>
      refine ⟨fun job member => ?_, own.known⟩
      rw [lifeOf_append]
      exact own.life job member
  | launch job room first =>
      refine ⟨own_change _ ordered (lookup_first ordered first) (fun _ => rfl) own.life ?_ ?_,
        own.known⟩
      · simp [live]
      · intro other life apart
        simp [live, apart.symm]
  | withdraw job found waits =>
      refine ⟨own_change (fun job => { job with status := .cancelled }) ordered found (fun _ => rfl)
        own.life ?_ ?_, own.known⟩
      · simp [live, waits]
      · intro other life apart
        simp [live, apart.symm]
  | stop job found runs =>
      refine ⟨own_change (·.pushLine _) ordered found (fun _ => rfl) own.life ?_ ?_,
        fun id asked => ?_⟩
      · simp [live, runs]
      · intro other life apart
        simp [live, apart.symm, apart]
      · rcases Finset.mem_insert.mp asked with rfl | earlier
        · exact fresh job (List.mem_of_find?_eq_some found)
        · exact own.known id earlier
  | late job found ended =>
      refine ⟨fun other member => ?_, own.known⟩
      rw [lifeOf_append, List.foldl_cons, List.foldl_nil, own.life other member, live]
      by_cases same : job.id = other.id
      · rw [same, lookup_of_mem ordered member] at found
        cases found
        rw [if_pos rfl, Option.map_some]
        cases status : job.status with
        | queued => rw [status] at ended; cases ended
        | running => rw [status] at ended; cases ended
        | _ => rfl
      · rw [if_neg same]
  | hear job front back stage e next found here sent =>
      refine ⟨own_change (·.heed lib _ _ e) ordered found (fun _ => heed_id ..) own.life ?_ ?_, ?_⟩
      · rw [live, if_pos rfl, Option.map_some]
        cases e with
        | exited code => simp [outstanding]
        | _ => rfl
      · intro other life apart
        cases e <;> simp [live, apart.symm, apart, outstanding]
      · intro id asked
        refine own.known id ?_
        cases e with
        | exited code => exact (Finset.mem_erase.mp asked).2
        | _ => exact asked

/-! ### What became of a job -/

def about : Happening → Option Nat
  | .asked id _ => some id
  | .launched id _ => some id
  | .heard id _ _ => some id
  | .cancelled id => some id
  | .applied _ => none
  | .cleared => none

def Exited (id : Nat) (past : List Happening) : Prop :=
  ∃ settings code, .heard id settings (.exited code) ∈ past

/-- It was cancelled and never launched. -/
def Withdrawn (id : Nat) (past : List Happening) : Prop :=
  .cancelled id ∈ past ∧ id ∉ launchedIds past

/-- It was cancelled, and then its process exited. -/
def Stopped (id : Nat) (past : List Happening) : Prop :=
  ∃ settings code, [.cancelled id, .heard id settings (.exited code)].Sublist past

theorem Stopped.exited {id : Nat} {past : List Happening} (stopped : Stopped id past) :
    Exited id past := by
  obtain ⟨settings, code, sub⟩ := stopped
  exact ⟨settings, code, sub.subset (by simp)⟩

theorem Stopped.cancelled {id : Nat} {past : List Happening} (stopped : Stopped id past) :
    .cancelled id ∈ past := by
  obtain ⟨settings, code, sub⟩ := stopped
  exact sub.subset (by simp)

theorem exited_append {id : Nat} {past : List Happening} {one : Happening}
    (other : ∀ settings code, one ≠ .heard id settings (.exited code)) :
    Exited id (past ++ [one]) ↔ Exited id past := by
  constructor
  · rintro ⟨settings, code, member⟩
    rcases List.mem_append.mp member with earlier | this
    · exact ⟨settings, code, earlier⟩
    · exact absurd (List.mem_singleton.mp this).symm (other settings code)
  · rintro ⟨settings, code, member⟩
    exact ⟨settings, code, List.mem_append_left _ member⟩

theorem stopped_append {id : Nat} {past : List Happening} {one : Happening}
    (other : ∀ settings code, one ≠ .heard id settings (.exited code)) :
    Stopped id (past ++ [one]) ↔ Stopped id past := by
  constructor
  · rintro ⟨settings, code, sub⟩
    have reversed := sub.reverse
    rw [List.reverse_append, List.reverse_singleton, List.singleton_append] at reversed
    rcases List.sublist_cons_iff.mp reversed with inside | ⟨rest, same, -⟩
    · exact ⟨settings, code, by simpa using inside.reverse⟩
    · exact absurd (List.cons.inj same).1.symm (other settings code)
  · rintro ⟨settings, code, sub⟩
    exact ⟨settings, code, sub.trans (List.sublist_append_left _ _)⟩

theorem stopped_exit (id : Nat) (past : List Happening) (settings : Settings) (code : Option Int)
    (asked : .cancelled id ∈ past) : Stopped id (past ++ [.heard id settings (.exited code)]) :=
  ⟨settings, code, (List.singleton_sublist.mpr asked).append (List.Sublist.refl _)⟩

/-- How a job's status comes from what happened to it, `asked` being whether its
cancelling has been asked for. -/
structure Story (past : List Happening) (job : Job) (asked : Prop) : Prop where
  waits : job.status = .queued →
    ¬ asked ∧ job.id ∉ launchedIds past ∧ .cancelled job.id ∉ past ∧ ¬ Exited job.id past
  runs : job.status = .running →
    job.id ∈ launchedIds past ∧ (asked ↔ .cancelled job.id ∈ past) ∧ ¬ Exited job.id past
  ended : job.status.isActive = false →
    (job.status = .cancelled ↔ Withdrawn job.id past ∨ Stopped job.id past) ∧
      (job.status ≠ .cancelled → job.id ∈ launchedIds past)

theorem mem_launchedIds {id : Nat} {past : List Happening} :
    id ∈ launchedIds past ↔ ∃ launch, .launched id launch ∈ past := by
  rw [launchedIds, List.mem_filterMap]
  constructor
  · rintro ⟨one, member, same⟩
    cases one with
    | launched other launch =>
        cases same
        exact ⟨launch, member⟩
    | _ => cases same
  · rintro ⟨launch, member⟩
    exact ⟨_, member, rfl⟩

theorem Story.elsewhere {past : List Happening} {one : Happening} {job : Job} {asked later : Prop}
    (story : Story past job asked) (other : about one ≠ some job.id) (same : later ↔ asked) :
    Story (past ++ [one]) job later := by
  have exit : ∀ settings code, one ≠ .heard job.id settings (.exited code) := by
    rintro settings code rfl
    exact other rfl
  have launches : job.id ∈ launchedIds (past ++ [one]) ↔ job.id ∈ launchedIds past := by
    rw [mem_launchedIds, mem_launchedIds]
    refine exists_congr fun launch => ?_
    rw [List.mem_append, List.mem_singleton, or_iff_left]
    rintro rfl
    exact other rfl
  have cancels : .cancelled job.id ∈ past ++ [one] ↔ .cancelled job.id ∈ past := by
    rw [List.mem_append, List.mem_singleton, or_iff_left]
    rintro rfl
    exact other rfl
  refine ⟨?_, ?_, ?_⟩
  · rw [launches, cancels, exited_append exit, same]
    exact story.waits
  · rw [launches, cancels, exited_append exit, same]
    exact story.runs
  · rw [Withdrawn, launches, cancels, stopped_append exit]
    exact story.ended

theorem Story.fresh {past : List Happening} {job : Job} {asked : Prop} (j : NewJob)
    (waits : job.status = .queued) (unasked : ¬ asked)
    (unknown : ∀ one ∈ past, about one ≠ some job.id) :
    Story (past ++ [.asked job.id j]) job asked := by
  have before {one : Happening} (member : one ∈ past ++ [.asked job.id j])
      (whose : about one = some job.id) : one = .asked job.id j := by
    rcases List.mem_append.mp member with earlier | this
    · exact absurd whose (unknown one earlier)
    · exact List.mem_singleton.mp this
  refine ⟨fun _ => ⟨unasked, ?_, ?_, ?_⟩, fun runs => ?_, fun ended => ?_⟩
  · rw [mem_launchedIds]
    rintro ⟨launch, member⟩
    cases before member rfl
  · intro member
    cases before member rfl
  · rintro ⟨settings, code, member⟩
    cases before member rfl
  · rw [waits] at runs
    cases runs
  · rw [waits] at ended
    cases ended

structure Told (q : Queue) (past : List Happening) : Prop where
  known : ∀ one ∈ past, ∀ id, about one = some id → id < q.nextId
  story : ∀ job ∈ q.jobs, Story past job (job.id ∈ q.cancelRequested)

theorem story_change {id : Nat} (f : Job → Job) {jobs : List Job} {job : Job}
    {past : List Happening}
    {one : Happening} {before after : Finset Nat} (ordered : Ordered jobs)
    (found : lookup id jobs = some job) (keeps : ∀ job, (f job).id = job.id)
    (stories : ∀ job ∈ jobs, Story past job (job.id ∈ before)) (whose : about one = some id)
    (others : ∀ other, other ≠ id → (other ∈ after ↔ other ∈ before))
    (mine : Story past job (job.id ∈ before) → Story (past ++ [one]) (f job) (id ∈ after)) :
    ∀ job ∈ change id f jobs, Story (past ++ [one]) job (job.id ∈ after) := by
  intro new changed
  obtain ⟨old, was, rfl⟩ := mem_change.mp changed
  by_cases about : old.id = id
  · have same := lookup_only ordered found was about
    rw [if_pos about, keeps, about, same]
    exact mine (stories job (same ▸ was))
  · rw [if_neg about]
    refine (stories old was).elsewhere ?_ (others old.id about)
    rw [whose]
    exact fun same => about (Option.some.inj same).symm

theorem Story.launched {past : List Happening} {job : Job} {asked : Prop} (launch : Launch)
    (story : Story past job asked) (waits : job.status = .queued) :
    Story (past ++ [.launched job.id launch]) (job.started launch) asked := by
  obtain ⟨unasked, -, kept, unexited⟩ := story.waits waits
  refine ⟨JobStatus.noConfusion, fun _ => ⟨?_, ?_, ?_⟩, Bool.noConfusion⟩
  · exact mem_launchedIds.mpr ⟨launch, List.mem_append_right _ (List.mem_singleton_self _)⟩
  · refine iff_of_false unasked fun member => ?_
    rcases List.mem_append.mp member with earlier | this
    · exact kept earlier
    · cases List.mem_singleton.mp this
  · exact fun exited => unexited ((exited_append fun _ _ => Happening.noConfusion).mp exited)

theorem Story.withdrawn {past : List Happening} {job : Job} {asked later : Prop}
    (story : Story past job asked) (waits : job.status = .queued) :
    Story (past ++ [.cancelled job.id]) { job with status := .cancelled } later := by
  obtain ⟨-, unlaunched, -, -⟩ := story.waits waits
  refine ⟨JobStatus.noConfusion, JobStatus.noConfusion, fun _ =>
    ⟨iff_of_true rfl (.inl ⟨?_, ?_⟩), fun other => absurd rfl other⟩⟩
  · exact List.mem_append_right _ (List.mem_singleton_self _)
  · rw [launchedIds_append]
    simpa [launchedIds] using unlaunched

theorem Story.stopping {past : List Happening} {job : Job} {asked later : Prop} (line : Text)
    (story : Story past job asked) (runs : job.status = .running) (now : later) :
    Story (past ++ [.cancelled job.id]) (job.pushLine line) later := by
  obtain ⟨launched, -, unexited⟩ := story.runs runs
  have status : (job.pushLine line).status = .running := runs
  refine ⟨fun bad => ?_, fun _ => ⟨?_, ?_, ?_⟩, fun bad => ?_⟩
  · rw [status] at bad
    cases bad
  · rw [launchedIds_append]
    exact List.mem_append_left _ launched
  · exact iff_of_true now (List.mem_append_right _ (List.mem_singleton_self _))
  · exact fun exited => unexited ((exited_append fun _ _ => Happening.noConfusion).mp exited)
  · rw [status] at bad
    cases bad

theorem Story.late {past : List Happening} {job : Job} {asked : Prop} (story : Story past job asked)
    (ended : job.status.isActive = false) : Story (past ++ [.cancelled job.id]) job asked := by
  obtain ⟨whether, launched⟩ := story.ended ended
  refine ⟨fun waits => ?_, fun runs => ?_, fun _ => ⟨?_, fun other => ?_⟩⟩
  · rw [waits] at ended
    cases ended
  · rw [runs] at ended
    cases ended
  · have same : launchedIds (past ++ [.cancelled job.id]) = launchedIds past := by
      rw [launchedIds_append]
      exact List.append_nil _
    rw [stopped_append (fun _ _ => Happening.noConfusion), Withdrawn, same]
    constructor
    · intro cancelled
      refine (whether.mp cancelled).imp_left fun withdrawn => ?_
      exact ⟨List.mem_append_left _ withdrawn.1, withdrawn.2⟩
    · rintro (⟨-, unlaunched⟩ | stopped)
      · by_contra other
        exact unlaunched (launched other)
      · exact whether.mpr (.inr stopped)
  · rw [launchedIds_append]
    exact List.mem_append_left _ (launched other)

theorem Story.heard {past : List Happening} {job : Job} {requested : Finset Nat} {stage : Stream}
    {e : JobEvent} {next : Option Stream} {settings : Settings} (sent : Emits stage e next)
    (story : Story past job (job.id ∈ requested)) (runs : job.status = .running) :
    Story (past ++ [.heard job.id settings e])
      (job.heed lib settings (decide (job.id ∈ requested)) e)
      (job.id ∈ outstanding job.id requested e) := by
  obtain ⟨launched, whether, unexited⟩ := story.runs runs
  have launches : launchedIds (past ++ [.heard job.id settings e]) = launchedIds past := by
    rw [launchedIds_append]
    exact List.append_nil _
  have cancels : .cancelled job.id ∈ past ++ [.heard job.id settings e] ↔
    .cancelled job.id ∈ past := by
    rw [List.mem_append, List.mem_singleton, or_iff_left Happening.noConfusion]
  cases next with
  | some next =>
      have status :=
        (@heed_going _ lib _ _ _ sent settings (decide (job.id ∈ requested)) job).trans runs
      have going : ∀ other code, Happening.heard job.id settings e ≠ .heard job.id other
        (.exited code) := by
        rintro other code same
        cases same
        cases sent
      have same : outstanding job.id requested e = requested := by
        cases sent <;> rfl
      refine ⟨fun bad => ?_, fun _ => ?_, fun bad => ?_⟩
      · rw [status] at bad
        cases bad
      · rw [heed_id, launches, cancels, same, exited_append going]
        exact ⟨launched, whether, unexited⟩
      · rw [status] at bad
        cases bad
  | none =>
      have idle := @heed_over _ lib _ _ sent settings (decide (job.id ∈ requested)) job
      have unfinished : ¬ Withdrawn job.id (past ++ [.heard job.id settings e]) := by
        rw [Withdrawn, launches]
        exact fun withdrawn => withdrawn.2 launched
      refine ⟨fun bad => ?_, fun bad => ?_, fun _ => ⟨?_, fun _ => ?_⟩⟩
      · rw [bad] at idle
        cases idle
      · rw [bad] at idle
        cases idle
      · rw [heed_id, or_iff_right unfinished]
        cases sent with
        | failed msg =>
            rw [stopped_append (fun other code same => by cases same)]
            exact iff_of_false JobStatus.noConfusion fun stopped => unexited stopped.exited
        | exited code =>
            by_cases asked : job.id ∈ requested
            · refine iff_of_true ?_ (stopped_exit job.id past settings code (whether.mp asked))
              rw [decide_eq_true asked]
              rfl
            · refine iff_of_false ?_ fun stopped =>
                asked (whether.mpr (cancels.mp stopped.cancelled))
              rw [decide_eq_false asked]
              exact JobStatus.noConfusion
      · rw [heed_id, launches]
        exact launched

theorem Act.told {one two : Queue} {past now : List Happening} (act : Act lib host one now two)
    (fresh : ∀ job ∈ one.jobs, job.id < one.nextId) (ordered : Ordered one.jobs)
    (matched : Matched one) (own : Own lib one past) (told : Told one past) :
    Told two (past ++ now) := by
  have known {bound : Nat} {one' : Happening} {id : Nat} (whose : about one' = some id)
      (grown : one.nextId ≤ bound) (below : id < bound) :
      ∀ h ∈ past ++ [one'], ∀ id, about h = some id → id < bound := by
    intro h member other named
    rcases List.mem_append.mp member with earlier | this
    · exact (told.known h earlier other named).trans_le grown
    · rw [List.mem_singleton.mp this, whose] at named
      exact Option.some.inj named ▸ below
  have nobody {one' : Happening} (whose : about one' = none) :
      ∀ h ∈ past ++ [one'], ∀ id, about h = some id → id < one.nextId := by
    intro h member id named
    rcases List.mem_append.mp member with earlier | this
    · exact told.known h earlier id named
    · rw [List.mem_singleton.mp this, whose] at named
      cases named
  have before {job : Job} (found : lookup job.id one.jobs = some job) : job.id < one.nextId :=
    fresh job (List.mem_of_find?_eq_some found)
  cases act with
  | ask j =>
      refine ⟨known rfl (Nat.le_succ _) (Nat.lt_succ_self _), fun job member => ?_⟩
      rcases List.mem_append.mp member with old | new
      · refine (told.story job old).elsewhere ?_ Iff.rfl
        exact fun same => (fresh job old).ne (Option.some.inj same).symm
      · rw [List.mem_singleton.mp new]
        refine @Story.fresh past (Job.new one.nextId j.title j.kind j.inv) _ j rfl
          (fun asked => Nat.lt_irrefl _ (own.known _ asked)) ?_
        exact fun one' member whose => Nat.lt_irrefl _ (told.known one' member _ whose)
  | clear =>
      refine ⟨nobody rfl, fun job member => ?_⟩
      exact (told.story job (List.mem_filter.mp member).1).elsewhere
        (fun same => by cases same) Iff.rfl
  | apply settings =>
      refine ⟨nobody rfl, fun job member => ?_⟩
      exact (told.story job member).elsewhere (fun same => by cases same) Iff.rfl
  | launch job room first =>
      have found := lookup_first ordered first
      exact ⟨known rfl (Nat.le_refl _) (before found),
        story_change (·.started _) ordered found (fun _ => rfl) told.story rfl (fun _ _ => Iff.rfl)
          fun story => story.launched _ (queued_first first)⟩
  | withdraw job found waits =>
      exact ⟨known rfl (Nat.le_refl _) (before found),
        story_change (fun job => { job with status := .cancelled }) ordered found (fun _ => rfl)
          told.story rfl (fun _ _ => Iff.rfl) fun story => story.withdrawn waits⟩
  | stop job found runs =>
      refine ⟨known rfl (Nat.le_refl _) (before found),
        story_change (·.pushLine _) ordered found (fun _ => rfl) told.story rfl
          (fun other apart => ?_)
          fun story => story.stopping _ runs (Finset.mem_insert_self _ _)⟩
      rw [Finset.mem_insert, or_iff_right apart]
  | late job found ended =>
      refine ⟨known rfl (Nat.le_refl _) (before found), fun other member => ?_⟩
      by_cases same : other.id = job.id
      · rw [← same, lookup_of_mem ordered member] at found
        cases found
        exact (told.story job member).late ended
      · refine (told.story other member).elsewhere ?_ Iff.rfl
        exact fun alike => same (Option.some.inj alike).symm
  | hear job front back stage e next found here sent =>
      have runs : job.status = .running := by
        rw [← running_lookup ordered found, ← matched.ours, here]
        simp
      refine ⟨known rfl (Nat.le_refl _) (before found),
        story_change (·.heed lib _ _ e) ordered found (fun _ => heed_id ..) told.story rfl
          (fun other apart => ?_) fun story => story.heard sent runs⟩
      cases e with
      | exited code => exact Finset.mem_erase.trans (and_iff_right apart)
      | _ => exact Iff.rfl

/-! ### All of it -/

structure Kept (lib : Library F) (settings : Settings) (q : Queue)
    (past : List Happening) : Prop where
  fresh : ∀ job ∈ q.jobs, job.id < q.nextId
  ordered : Ordered q.jobs
  matched : Matched q
  inTurn : InTurn q past
  within : Within settings q past
  numbered : Numbered q past
  own : Own lib q past
  told : Told q past

theorem Acts.kept {one two : Queue} {past now : List Happening} {settings : Settings}
    (acts : Acts lib host one now two) (kept : Kept lib settings one past) :
    Kept lib settings two (past ++ now) := by
  induction acts with
  | none => rwa [List.append_nil]
  | more three four earlier now before act ih =>
      rw [← List.append_assoc]
      exact
        { fresh := act.fresh ih.fresh
          ordered := act.ordered ih.fresh ih.ordered
          matched := Act.matched act ih.ordered ih.matched
          inTurn := Act.inTurn act ih.fresh ih.ordered ih.inTurn
          within := Act.within act ih.ordered ih.matched ih.within
          numbered := Act.numbered act ih.numbered
          own := Act.own act ih.fresh ih.ordered ih.own
          told := Act.told act ih.fresh ih.ordered ih.matched ih.own ih.told }

theorem Kept.count {settings : Settings} {q : Queue} {past : List Happening}
    (kept : Kept lib settings q past) : countRunning q.jobs = q.streams.length :=
  countRunning_streams kept.ordered kept.matched.once kept.matched.ours

/-! ### Room -/

def Full (settings : Settings) (jobs : List Job) : Prop :=
  ∀ job ∈ jobs, job.status = .queued → max settings.concurrency 1 ≤ countRunning jobs

theorem alterFirst_fewer {jobs : List Job} {job : Job} (launch : Launch)
    (first : jobs.find? isQueued = some job) :
    (alterFirst isQueued (·.started launch) jobs).countP isQueued + 1 = jobs.countP isQueued := by
  induction jobs with
  | nil => cases first
  | cons head rest ih =>
      rw [List.find?_cons] at first
      cases hit : isQueued head with
      | true =>
          have started : isQueued (head.started launch) = false := rfl
          rw [alterFirst, if_pos hit, List.countP_cons_of_neg (by simp [started]),
            List.countP_cons_of_pos hit]
      | false =>
          rw [hit] at first
          rw [alterFirst, if_neg (by simp [hit]), List.countP_cons_of_neg (by simp [hit]),
            List.countP_cons_of_neg (by simp [hit])]
          exact ih first

theorem startQueued_full (settings : Settings) (turns : Nat) (jobs : List Job)
    (enough : jobs.countP isQueued ≤ turns) :
    Full settings (startQueued host settings (max settings.concurrency 1) turns jobs).1 := by
  induction turns generalizing jobs with
  | zero =>
      intro job member waits
      have nothing := List.countP_eq_zero.mp (Nat.le_zero.mp enough) job member
      simp [isQueued, waits] at nothing
  | succ turns ih =>
      rw [startQueued]
      by_cases busy : max settings.concurrency 1 ≤ countRunning jobs
      · rw [if_pos busy]
        exact fun _ _ _ => busy
      · rw [if_neg busy]
        cases first : jobs.find? isQueued with
        | none =>
            intro job member waits
            have other := List.find?_eq_none.mp first job member
            simp [isQueued, waits] at other
        | some job =>
            refine ih _ ?_
            have fewer := alterFirst_fewer (launch host settings job.invocation job.id) first
            omega

theorem pump_full (app : App F) : Full (pump host app).1.settings (pump host app).1.jobs :=
  startQueued_full app.settings app.jobs.length app.jobs List.countP_le_length

def stirs : Happening → Bool
  | .asked _ _ => true
  | .applied _ => true
  | .heard _ _ (.exited _) => true
  | .heard _ _ (.spawnFailed _) => true
  | _ => false

theorem Act.full {one two : Queue} {now past : List Happening} {settings : Settings}
    (act : Act lib host one now two) (calm : ∀ h ∈ now, stirs h = false)
    (before : Kept lib settings one past) (full : Full one.settings one.jobs) :
    Full two.settings two.jobs := by
  have after : Kept lib settings two (past ++ now) := Acts.kept act.acts before
  have still (same : two.settings = one.settings) (more : one.streams.length ≤ two.streams.length)
      (waited : ∀ job ∈ two.jobs, job.status = .queued →
        ∃ old ∈ one.jobs, old.status = .queued ∧ old.id = job.id) :
      Full two.settings two.jobs := by
    intro job member waits
    obtain ⟨old, was, queued, -⟩ := waited job member waits
    rw [after.count, same]
    have busy := full old was queued
    rw [before.count] at busy
    exact busy.trans more
  cases act with
  | ask j => cases calm _ (List.mem_singleton_self _)
  | clear => exact still rfl (Nat.le_refl _) fun job member waits =>
      ⟨job, (List.mem_filter.mp member).1, waits, rfl⟩
  | apply later => cases calm _ (List.mem_singleton_self _)
  | launch job room first =>
      refine still rfl ?_ fun new member waits =>
        queued_change (·.started _) (fun _ => rfl) (fun job bad => by cases bad) member waits
      rw [List.length_append]
      exact Nat.le_add_right _ _
  | withdraw job found waits =>
      exact still rfl (Nat.le_refl _) fun new member waits =>
        queued_change (fun job => { job with status := .cancelled }) (fun _ => rfl)
          (fun job bad => by cases bad) member waits
  | stop job found runs =>
      exact still rfl (Nat.le_refl _) fun new member waits =>
        queued_change (·.pushLine _) (fun _ => rfl) (fun job waits => waits) member waits
  | late job found ended => exact full
  | hear job front back stage e next found here sent =>
      cases next with
      | none => cases sent <;> cases calm _ (List.mem_singleton_self _)
      | some next =>
          refine still rfl ?_ fun new member waits =>
            queued_change (·.heed lib _ _ e) (fun _ => heed_id ..)
              (fun job waits => heed_waited sent _ _ job waits) member waits
          rw [here]
          simp

theorem Acts.full {one two : Queue} {now past : List Happening} {settings : Settings}
    (acts : Acts lib host one now two) (calm : ∀ h ∈ now, stirs h = false)
    (kept : Kept lib settings one past) (full : Full one.settings one.jobs) :
    Full two.settings two.jobs := by
  induction acts with
  | none => exact full
  | more three four earlier now before act ih =>
      have middle := ih fun h member => calm h (List.mem_append_left _ member)
      exact Act.full act (fun h member => calm h (List.mem_append_right _ member))
        (Acts.kept before kept) middle

end Acts

end HeteroSim.JobHistory
