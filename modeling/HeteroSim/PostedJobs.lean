import HeteroSim.JobAccounts

/-!
A posted job gets done. The steps of its cluster alone take it to its end, and the
host then comes to the end of its wait, unless a core has trapped or the wait has no
polls left.
-/

namespace HeteroSim.ExactlyOnce

open SharedWords ClusterJob Mailbox DescriptorIntegrity
open Relation (ReflTransGen)

section Posted

variable {c : Cluster} {s s' : Site}

/-! ### The cluster alone -/

def SiteMove (c : Cluster) (s s' : Site) : Prop :=
  ∃ e l, CoreStep c s.link e l ∧ s' = s.next e l

theorem pass_ends (rest : Core Unit) (s : Site) (serving : s.link.control = .serving rest) :
    ∃ s', ReflTransGen (SiteMove c) s s' ∧ s'.link.control = .looking ∧
      s'.past.finished = s.past.finished ++ [s.past.current] := by
  -- On the thread of the pass: every step shortens it, whatever a load reads.
  induction rest generalizing s with
  | ret done => exact ⟨_, .single ⟨_, _, .finish _ serving, rfl⟩, rfl, rfl⟩
  | load w next ih =>
      obtain ⟨s', moves, finished⟩ := ih (s.link.words w) (s.next (.coreLoad w (s.link.words w))
        { s.link with control := .serving (next (s.link.words w)) }) rfl
      exact ⟨s', .head ⟨_, _, .load _ w next serving, rfl⟩ moves, finished⟩
  | store w v next ih =>
      obtain ⟨s', moves, finished⟩ := ih (s.next (.coreStore w v)
        { s.link with words := setWord s.link.words w v, control := .serving next }) rfl
      exact ⟨s', .head ⟨_, _, .store _ w v next serving, rfl⟩ moves, finished⟩
  | act a next ih =>
      obtain ⟨s', moves, finished⟩ := ih (s.next (.coreAct a)
        { s.link with control := .serving next }) rfl
      exact ⟨s', .head ⟨_, _, .act _ a next serving, rfl⟩ moves, finished⟩

theorem take_ends (taking : s.link.control = .taking) :
    ∃ s', ReflTransGen (SiteMove c) s s' ∧ s'.link.control = .looking ∧
      s'.past.finished = s.past.finished ++ [s.past.descriptors.length - 1] := by
  obtain ⟨s', moves, finished⟩ := pass_ends (c := c) (serve c (fun _ => 0) 0) (s.next .take
    { s.link with served := s.link.words .seq, control := .serving (serve c (fun _ => 0) 0) }) rfl
  exact ⟨s', .head ⟨_, _, .take _ (fun _ => 0) 0 taking, rfl⟩ moves, finished⟩

theorem look_ends (looking : s.link.control = .looking)
    (fresh : s.link.words .seq ≠ s.link.served) :
    ∃ s', ReflTransGen (SiteMove c) s s' ∧ s'.link.control = .looking ∧
      s'.past.finished = s.past.finished ++ [s.past.descriptors.length - 1] := by
  obtain ⟨s', moves, finished⟩ :=
    take_ends (c := c) (s := s.next .check { s.link with control := .taking }) rfl
  exact ⟨s', .head ⟨_, _, .notice _ looking fresh, rfl⟩ moves, finished⟩

theorem rest_ends (accounted : Accounted c s) (silent : ∀ waits, s.link.host ≠ .ringing waits)
    (resting : AtRest s.link.control) (fresh : s.link.words .seq ≠ s.link.served) :
    ∃ s', ReflTransGen (SiteMove c) s s' ∧ s'.link.control = .looking ∧
      s'.past.finished = s.past.finished ++ [s.past.descriptors.length - 1] := by
  have woken : ∀ s : Site, s.link.control = .waking → s.link.words .seq ≠ s.link.served →
      ∃ s', ReflTransGen (SiteMove c) s s' ∧ s'.link.control = .looking ∧
        s'.past.finished = s.past.finished ++ [s.past.descriptors.length - 1] := by
    intro s waking fresh
    obtain ⟨s', moves, finished⟩ := look_ends (c := c) (s := s.next .clear
      { s.link with doorbell := false, control := .looking }) rfl fresh
    exact ⟨s', .head ⟨_, _, .clear _ waking, rfl⟩ moves, finished⟩
  cases here : s.link.control with
  | looking => exact look_ends here fresh
  | waking => exact woken s here fresh
  | asleep =>
      -- the host is past its ring, so the bell is pending
      have bell : s.link.doorbell = true := by
        rcases accounted.rung.bell here fresh with bell | ⟨waits, rings⟩
        · exact bell
        · exact absurd rings (silent waits)
      obtain ⟨s', moves, finished⟩ :=
        woken (s.next .wake { s.link with control := .waking }) rfl fresh
      exact ⟨s', .head ⟨_, _, .wake _ here bell, rfl⟩ moves, finished⟩
  | taking => simp [AtRest, here] at resting
  | serving rest => simp [AtRest, here] at resting
  | parked => simp [AtRest, here] at resting

theorem posted_ends (accounted : Accounted c s)
    (silent : ∀ waits, s.link.host ≠ .ringing waits) (alive : s.link.control ≠ .parked) :
    ∃ s', ReflTransGen (SiteMove c) s s' ∧ s'.link.control ≠ .parked ∧
      s'.past.finished = List.range s.past.descriptors.length := by
  obtain ⟨taken, finished, inside, current, posted⟩ := accounted.counted
  -- The last posted job is done, not yet taken, or being served.
  rcases accounted.intact.phase with quiet | pending | busy
  · refine ⟨s, .refl, alive, ?_⟩
    rw [if_pos (quiet_same quiet).1] at posted
    rw [posted]
    exact finished
  · obtain ⟨seq, doneSeq, control, _⟩ := pending
    have behind : s.link.words .seq ≠ s.link.served := by
      rw [seq]
      exact (succ_apart _).symm
    rw [if_neg (by rw [doneSeq]; exact behind)] at posted
    have number : s.past.descriptors.length - 1 = s.past.finished.length := by omega
    have ends : ∃ s', ReflTransGen (SiteMove c) s s' ∧ s'.link.control = .looking ∧
        s'.past.finished = s.past.finished ++ [s.past.descriptors.length - 1] := by
      rcases control with resting | taking
      · exact rest_ends accounted silent resting behind
      · exact take_ends taking
    obtain ⟨s', moves, looks, done⟩ := ends
    refine ⟨s', moves, by simp [looks], ?_⟩
    rw [done, number, posted, List.range_succ, ← finished]
  · obtain ⟨seq, doneSeq, served, _, d, _, _, passing⟩ := busy
    rw [if_neg (by rw [seq, ← doneSeq]; exact (succ_apart _).symm)] at posted
    cases here : s.link.control with
    | serving rest =>
        obtain ⟨s', moves, looks, done⟩ := pass_ends (c := c) rest s here
        refine ⟨s', moves, by simp [looks], ?_⟩
        rw [done, current (by rw [here]; trivial), posted, List.range_succ, ← finished]
    | parked => exact absurd here alive
    | looking => simp [Passing, here] at passing
    | asleep => simp [Passing, here] at passing
    | waking => simp [Passing, here] at passing
    | taking => simp [Passing, here] at passing

/-! ### Inside a call -/

/-- The steps that neither take up a call nor come back from one. -/
def inner : Event → Prop
  | .accept _ | .refuse | .ring | .wait | .giveUp | .result _ => False
  | _ => True

def InnerStep (c : Cluster) (s s' : Site) : Prop :=
  ∃ e l, inner e ∧ Mailbox.Step c s.link e l ∧ s' = s.next e l

theorem host_inner {e : Event} {l : Link} (step : HostStep c.requiresStaging s.link e l)
    (inside : inner e) : InnerStep c s (s.next e l) :=
  ⟨e, l, inside, Or.inl step, rfl⟩

theorem move_inner (move : SiteMove c s s') : InnerStep c s s' := by
  obtain ⟨e, l, step, rfl⟩ := move
  refine ⟨e, l, ?_, Or.inr step, rfl⟩
  cases step <;> trivial

theorem inner_accounted (run : ReflTransGen (InnerStep c) s s') (accounted : Accounted c s) :
    Accounted c s' := by
  induction run with
  | refl => exact accounted
  | tail _ last ih =>
      obtain ⟨e, l, inside, host | core, rfl⟩ := last
      · exact host_accounted host (by rintro rfl; exact inside) ih
      · exact core_accounted core ih

theorem inner_keeps (run : ReflTransGen (InnerStep c) s s') :
    s'.past.jobs = s.past.jobs ∧ s'.account.waited = s.account.waited := by
  induction run with
  | refl => exact ⟨rfl, rfl⟩
  | tail _ last ih =>
      obtain ⟨e, l, inside, _, rfl⟩ := last
      obtain ⟨jobs, waited⟩ := ih
      cases e <;> first | exact inside.elim | exact ⟨jobs, waited⟩

theorem moves_beside (moves : ReflTransGen (SiteMove c) s s') :
    s'.link.host = s.link.host ∧ s'.past.descriptors = s.past.descriptors := by
  induction moves with
  | refl => exact ⟨rfl, rfl⟩
  | tail _ last ih =>
      obtain ⟨e, l, step, rfl⟩ := last
      obtain ⟨host, _, _, _, descriptors, _⟩ := core_leaves (h := Site.past _) step
      exact ⟨host.trans ih.1, descriptors.trans ih.2⟩

theorem posting_rings (job : Job) (rest : List (Word × UInt32)) (waits : Bool) (s : Site)
    (here : s.link.host = .posting job rest waits) :
    ∃ s', ReflTransGen (InnerStep c) s s' ∧ s'.link.control = s.link.control ∧
      s'.link.host = .ringing waits ∧ s'.link.inFlight = s.link.inFlight := by
  induction rest generalizing s with
  | nil =>
      exact ⟨_, .single (host_inner (.publish _ job waits here) trivial), rfl, rfl, rfl⟩
  | cons one rest ih =>
      obtain ⟨w, v⟩ := one
      obtain ⟨s', run, same⟩ := ih (s.next (.store w v) { s.link with
        words := setWord s.link.words w v, host := .posting job rest waits }) rfl
      exact ⟨s', .head (host_inner (.store _ job w v rest waits here) trivial) run, same⟩

abbrev Loads (rest : Collect) : Prop := rest.Within (fun _ => True) fun _ => False

def Collects (l : Link) : Prop := ∀ rest, l.host = .collecting rest → Loads rest

theorem collect_loads : Loads collect := by
  unfold Loads collect
  refine ⟨trivial, fun _ => ⟨trivial, fun _ => ⟨trivial, fun _ => ⟨trivial, fun _ =>
    ⟨trivial, fun cause => ?_⟩⟩⟩⟩⟩
  exact Thread.Within.ite ⟨trivial, fun _ => trivial⟩ trivial

theorem host_collects {requiresStaging : Bool} {l l' : Link} {e : Event}
    (step : HostStep requiresStaging l e l') (before : Collects l) : Collects l' := by
  intro rest there
  cases step with
  | refuse idle busy => exact before rest there
  | nothing idle free => exact before rest there
  | accept job waits idle free => cases there
  | store job w v left waits here => cases there
  | publish job waits here => cases there
  | ring waits here => cases waits <;> cases there
  | wait idle busy => cases there
  | begin here => cases there
  | poll left here running => cases there
  | done left here same =>
      cases there
      exact collect_loads
  | giveUp here => cases there
  | gather w next here =>
      cases there
      exact (before _ here).2 _
  | answer r here => cases there

theorem collecting_answers (rest : Collect) (s : Site)
    (loads : Loads rest)
    (here : s.link.host = .collecting rest) :
    ∃ s' r, ReflTransGen (InnerStep c) s s' ∧ s'.link.control = s.link.control ∧
      s'.link.host = .collecting (.ret r) := by
  induction rest generalizing s with
  | ret r => exact ⟨s, r, .refl, rfl, here⟩
  | load w next ih =>
      obtain ⟨s', r, run, same⟩ := ih (s.link.words w) (s.next (.look w (s.link.words w))
        { s.link with host := .collecting (next (s.link.words w)) }) (loads.2 _) rfl
      exact ⟨s', r, .head (host_inner (.gather _ w next here) trivial) run, same⟩
  | store w v next ih => exact loads.1.elim
  | act a next ih => exact a.elim

theorem polling_answers (accounted : Accounted c s) (alive : s.link.control ≠ .parked)
    (left : Nat) (here : s.link.host = .polling (left + 1)) :
    ∃ s' r, ReflTransGen (InnerStep c) s s' ∧ s'.link.control ≠ .parked ∧
      s'.link.host = .collecting (.ret r) := by
  obtain ⟨mid, moves, awake, finished⟩ := posted_ends accounted (by simp [here]) alive
  obtain ⟨host, descriptors⟩ := moves_beside moves
  have run : ReflTransGen (InnerStep c) s mid := moves.lift id fun _ _ => move_inner
  have after := inner_accounted run accounted
  -- Every job is done, so the number of the last one is published.
  have done : mid.link.words .doneSeq = mid.link.nextSeq := by
    have posted := after.counted.posted
    rw [finished, descriptors, List.length_range] at posted
    by_cases same : mid.link.words .seq = mid.link.words .doneSeq
    · rw [after.intact.number, same]
    · rw [if_neg same] at posted
      omega
  obtain ⟨s', r, gathers, control, answer⟩ := collecting_answers (c := c) collect
    (mid.next .done { mid.link with host := .collecting collect }) collect_loads rfl
  refine ⟨s', r, run.trans (.head (host_inner (.done _ left (host.trans here) done) trivial)
    gathers), ?_, answer⟩
  rw [control]
  exact awake

theorem waiting_answers (accounted : Accounted c s) (alive : s.link.control ≠ .parked)
    (here : s.link.host = .waiting) :
    ∃ s' r, ReflTransGen (InnerStep c) s s' ∧ s'.link.control ≠ .parked ∧
      s'.link.host = .collecting (.ret r) := by
  have first := host_inner (c := c) (.begin _ here) trivial
  obtain ⟨s', r, run, rest⟩ := polling_answers (inner_accounted (.single first) accounted) alive
    (maxPolls - 1) rfl
  exact ⟨s', r, .head first run, rest⟩

end Posted

end HeteroSim.ExactlyOnce
