import HeteroSim.PostedJobs
import Mathlib.Logic.Function.Basic

/-!
The host and both clusters. The host is in one call at a time; each cluster has
its own mailbox. As long as no wait gives up, an engine serves the jobs posted
to it one after the other, each once and whole, and what a wait returns is what
that job's pass wrote.
-/

namespace HeteroSim.ExactlyOnce

open SharedWords ClusterJob Mailbox DescriptorIntegrity
open Relation (ReflTransGen)

/-- The engines that have a mailbox. -/
inductive Engine where
  | snitch | spatz
  deriving DecidableEq

abbrev Board := Engine → Site

/-- A step of the host on one engine while it is in no call on another, a step of
a control core, or an interrupt that wakes a core without its bell. -/
inductive BoardStep (c : Engine → Cluster) : Board → Event → Board → Prop
  | host (b : Board) (on : Engine) (e : Event) (l : Link)
      (alone : ∀ other, other ≠ on → (b other).link.host = .idle)
      (taken : HostStep (c on).requiresStaging (b on).link e l) :
      BoardStep c b e (Function.update b on ((b on).next e l))
  | core (b : Board) (on : Engine) (e : Event) (l : Link)
      (taken : CoreStep (c on) (b on).link e l) :
      BoardStep c b e (Function.update b on ((b on).next e l))
  | stir (b : Board) (on : Engine) (here : (b on).link.control = .asleep) :
      BoardStep c b .wake
        (Function.update b on ((b on).next .wake { (b on).link with control := .waking }))

/-- Every cluster has signed in and `hes_engine_init` has read its `done_seq`. -/
def Booted (b : Board) : Prop :=
  ∀ on, ∃ l, Started l ∧ l.busyCycles = 0 ∧ b on = { link := l }

/-- The boards of the runs in which no wait gives up. -/
inductive Reachable (c : Engine → Cluster) : Board → Prop
  | start (b : Board) (booted : Booted b) : Reachable c b
  | step (b b' : Board) (e : Event) (before : Reachable c b) (patient : e ≠ .giveUp)
      (taken : BoardStep c b e b') : Reachable c b'

/-- A step of one engine's control core. -/
def CoreMove (c : Engine → Cluster) (on : Engine) (b b' : Board) : Prop :=
  ∃ e l, CoreStep (c on) (b on).link e l ∧ b' = Function.update b on ((b on).next e l)

/-! ### Runs of the board -/

section Boards

variable {c : Engine → Cluster} {b : Board}

theorem update_accounted {on : Engine} {s : Site} (others : ∀ other, Accounted (c other) (b other))
    (here : Accounted (c on) s) (other : Engine) :
    Accounted (c other) (Function.update b on s other) :=
  (Function.forall_update_iff b fun other site => Accounted (c other) site).mpr
    ⟨here, fun other _ => others other⟩ other

theorem reachable_accounted (reached : Reachable c b) (on : Engine) :
    Accounted (c on) (b on) := by
  induction reached generalizing on with
  | start b booted =>
      obtain ⟨l, started, none, same⟩ := booted on
      rw [same]
      exact started_accounted started none
  | step b b' e before patient taken ih =>
      cases taken with
      | host moved e l alone step =>
          exact update_accounted ih (host_accounted step patient (ih moved)) on
      | core moved e l step => exact update_accounted ih (core_accounted step (ih moved)) on
      | stir moved asleep => exact update_accounted ih (stir_accounted asleep (ih moved)) on

theorem moves_board (on : Engine) (s' : Site) (moves : ReflTransGen (SiteMove (c on)) (b on) s') :
    ReflTransGen (CoreMove c on) b (Function.update b on s') := by
  induction moves with
  | refl => rw [Function.update_eq_self]
  | tail _ last ih =>
      obtain ⟨e, l, step, rfl⟩ := last
      refine ih.tail ⟨e, l, ?_, ?_⟩
      · rwa [Function.update_self]
      · rw [Function.update_self, Function.update_idem]

theorem inner_reached (reached : Reachable c b) (on : Engine)
    (alone : ∀ other, other ≠ on → (b other).link.host = .idle) {s : Site}
    (run : ReflTransGen (InnerStep (c on)) (b on) s) :
    Reachable c (Function.update b on s) := by
  induction run with
  | refl => rwa [Function.update_eq_self]
  | tail _ last ih =>
      obtain ⟨e, l, inside, step, rfl⟩ := last
      have patient : e ≠ .giveUp := by
        rintro rfl
        exact inside
      rename_i mid _
      have still : ∀ other, other ≠ on → (Function.update b on mid other).link.host = .idle := by
        intro other apart
        rw [Function.update_of_ne apart]
        exact alone other apart
      have here : (Function.update b on mid) on = mid := Function.update_self ..
      have taken : BoardStep c (Function.update b on mid) e
          (Function.update (Function.update b on mid) on
            ((Function.update b on mid on).next e l)) := by
        rcases step with host | core
        · exact .host _ on e l still (by rwa [here])
        · exact .core _ on e l (by rwa [here])
      have after := ih.step _ _ e patient taken
      rwa [here, Function.update_idem] at after

/-- In every run in which no wait gives up, each engine's jobs are served once
each and in the order they were posted, what a wait returned is what that job's
pass stored, and the cycles counted are those of the jobs waited for. A cluster
that has not trapped needs nobody else to finish what was posted to it. -/
theorem exactly_once (c : Engine → Cluster) (b : Board) (reached : Reachable c b) (on : Engine) :
    Once (c on) (b on) ∧
      ((∀ job rest waits, (b on).link.host ≠ .posting job rest waits) →
        (∀ waits, (b on).link.host ≠ .ringing waits) → (b on).link.control ≠ .parked →
        ∃ b', ReflTransGen (CoreMove c on) b b' ∧
          (b' on).past.finished = List.range (b on).past.jobs.length) := by
  have accounted := reachable_accounted reached on
  refine ⟨accounted_once accounted, fun posted silent alive => ?_⟩
  obtain ⟨s', moves, _, finished⟩ := posted_ends accounted silent alive
  refine ⟨_, moves_board on s' moves, ?_⟩
  rw [Function.update_self, finished]
  have host := accounted.intact.host
  cases here : (b on).link.host with
  | posting job rest waits => exact absurd here (posted job rest waits)
  | idle => simp only [HostOk, here] at host; rw [host.1]
  | collecting rest => simp only [HostOk, here] at host; rw [host.1]
  | ringing waits => simp only [HostOk, here] at host; rw [host]
  | waiting => simp only [HostOk, here] at host; rw [host]
  | polling left => simp only [HostOk, here] at host; rw [host]

def freshBoard : Board := fun _ => { link := signedIn }

/-- Two jobs posted to the Snitch cluster, the first of them waited for: the wait
returned what the first job's pass stored, and the second can be finished. -/
theorem exactly_once_first : ∃ b, Reachable (fun _ => plain) b ∧ Once plain (b .snitch) ∧
    (b .snitch).past.jobs = [oneArg 0x82000000, oneArg 0x83000000] ∧
    (∃ r, (b .snitch).account.waited = [(0, r)] ∧
      (b .snitch).account.storesOf 0 = statusOf r) ∧
    ∃ b', ReflTransGen (CoreMove (fun _ => plain) .snitch) b b' ∧
      (b' .snitch).past.finished = [0, 1] := by
  have start : Reachable (fun _ => plain) freshBoard :=
    .start _ fun _ => ⟨signedIn, ⟨rfl, rfl, rfl, rfl, rfl, rfl, rfl, rfl⟩, rfl, rfl⟩
  -- the other engine's link stays as it was, so the host is free on it
  have alone : ∀ s : Site, ∀ other, other ≠ Engine.snitch →
      (Function.update freshBoard .snitch s other).link.host = .idle := by
    intro s other apart
    rw [Function.update_of_ne apart]
    rfl
  have step : ∀ s e l, Reachable (fun _ => plain) (Function.update freshBoard .snitch s) →
      HostStep plain.requiresStaging s.link e l → e ≠ .giveUp →
      Reachable (fun _ => plain) (Function.update freshBoard .snitch (s.next e l)) := by
    intro s e l before taken patient
    have after := before.step _ _ _ patient (.host _ .snitch e l (alone s)
      (by rwa [Function.update_self]))
    rwa [Function.update_self, Function.update_idem] at after
  have goes : ∀ s s', Reachable (fun _ => plain) (Function.update freshBoard .snitch s) →
      ReflTransGen (InnerStep plain) s s' →
      Reachable (fun _ => plain) (Function.update freshBoard .snitch s') := by
    intro s s' before run
    have after := inner_reached before .snitch (alone s) (s := s')
      (by rwa [Function.update_self])
    rwa [Function.update_idem] at after
  have posts : ∀ s v waits, Reachable (fun _ => plain) (Function.update freshBoard .snitch s) →
      s.link.host = .idle → s.link.inFlight = false →
      ∃ s', Reachable (fun _ => plain) (Function.update freshBoard .snitch s') ∧
        s'.link.control = s.link.control ∧ s'.link.host = .ringing waits ∧
        s'.past.jobs = s.past.jobs ++ [oneArg v] ∧ s'.account.waited = s.account.waited := by
    intro s v waits before idle free
    have accepted := step s _ _ before (.accept _ (oneArg v) waits idle free) (by simp)
    obtain ⟨s', run, control, ringing, _⟩ := posting_rings (c := plain) (oneArg v) _ waits
      (s.next (.accept (oneArg v)) { s.link with
        host := .posting (oneArg v) (oneArg v).stores waits }) rfl
    obtain ⟨jobs, waited⟩ := inner_keeps run
    exact ⟨s', goes _ _ accepted run, control, ringing, jobs, waited⟩
  have fresh : Function.update freshBoard .snitch (freshBoard .snitch) = freshBoard :=
    Function.update_eq_self _ _
  obtain ⟨first, published, looking, rings, jobs, waited⟩ :=
    posts (freshBoard .snitch) 0x82000000 true (by rwa [fresh]) rfl rfl
  have rung := step first _ _ published (.ring _ true rings) (by simp)
  have accounted := reachable_accounted rung .snitch
  rw [Function.update_self] at accounted
  obtain ⟨last, r, run, alive, answer⟩ := waiting_answers accounted
    (show first.link.control ≠ .parked by rw [looking]; rintro ⟨⟩) rfl
  have collected := goes _ _ rung run
  have after := reachable_accounted collected .snitch
  rw [Function.update_self] at after
  obtain ⟨sameJobs, sameWaited⟩ := inner_keeps run
  have host := after.intact.host
  have owed := after.owed
  simp only [HostOk, answer] at host
  simp only [Owed, answer] at owed
  have came := step last _ _ collected (.answer _ r answer) (by simp)
  obtain ⟨second, posted, control, rings', jobs', waited'⟩ :=
    posts _ 0x83000000 false came rfl owed.1
  have rung' := step second _ _ posted (.ring _ false rings') (by simp)
  -- The wait was for the only job posted before it.
  have both : second.past.jobs = [oneArg 0x82000000, oneArg 0x83000000] := by
    rw [jobs']
    exact congrArg (· ++ [oneArg 0x83000000]) (sameJobs.trans jobs)
  have one : second.account.waited = [(0, r)] := by
    have count : last.past.descriptors.length = 1 := by
      rw [← host.1, sameJobs]
      exact congrArg List.length jobs
    rw [waited', answered_waited answer, count, sameWaited]
    exact congrArg (· ++ [(0, r)]) waited
  obtain ⟨once, ends⟩ := exactly_once (fun _ => plain) _ rung' .snitch
  rw [Function.update_self] at once ends
  obtain ⟨b', moves, finished⟩ := ends (by rintro _ _ _ ⟨⟩) (by rintro _ ⟨⟩)
    (show second.link.control ≠ .parked by rw [control]; exact alive)
  refine ⟨_, rung', by rwa [Function.update_self], by rwa [Function.update_self], ⟨r, ?_, ?_⟩, b',
    moves, finished.trans ?_⟩
  · rwa [Function.update_self]
  · rw [Function.update_self]
    have member : (0, r) ∈ second.account.waited := one ▸ List.mem_cons_self
    exact (once.waited 0 r member).2
  · show List.range second.past.jobs.length = [0, 1]
    rw [both]
    rfl

end Boards

end HeteroSim.ExactlyOnce
