import HeteroSim.KeywordSteps

/-!
The loop gets to its end. A call whose job the cluster can serve comes back, and
each step of `main` goes on to the next place, in either build.
-/

namespace HeteroSim.KeywordLoop

open SharedWords ClusterJob Mailbox DescriptorIntegrity ExactlyOnce
open Relation (ReflTransGen)

variable {R M : Type}

/-- Whatever the mailbox held before, the cluster serves this job without an error. -/
def Served (c : Cluster) (job : Job) : Prop :=
  ∀ d, (∀ w v, (job.flagged c.requiresStaging).posted w = some v → d w = v) →
    jobError c d = errNone

structure App.Servable (app : App R M) (c : Engine → Cluster) : Prop where
  features : ∀ n half, n = 0 ∨ n < app.clips → Served (c app.frontEnd) (app.mfccJob n half)
  nodes : ∀ node ∈ app.nodes, ∀ e, node.engine = some e → Served (c e) node.job

def Live (s : Chip R M) : Prop :=
  ∀ on, (s.board on).link.control ≠ .parked ∧ (s.board on).link.host ≠ .polling 0

/-! ### A wait comes back well -/

section Links

variable {c : Cluster} {s : Site} {e : Event} {l : Link}

/-- A cluster that has not trapped has published no cause, and every job it was
given it can serve. -/
structure Fit (c : Cluster) (s : Site) : Prop where
  untrapped : s.link.control = .parked ∨ s.link.words .trapCause = 0
  collects : Collects s.link
  jobs : ∀ job ∈ s.past.jobs, ∃ posted, Served c posted ∧ job = posted.flagged c.requiresStaging

theorem host_fit {call : Call M} (step : HostStep c.requiresStaging s.link e l)
    (permitted : call.Permits c.requiresStaging l e)
    (served : ∀ job, call.job = some job → Served c job) (intact : Intact c s.link s.past)
    (fit : Fit c s) : Fit c (s.next e l) := by
  obtain ⟨untrapped, collects, jobs⟩ := fit
  refine ⟨?_, host_collects step collects, ?_⟩
  · cases step with
    | store job w v rest waits here =>
        have host := intact.host
        simp only [HostOk, here] at host
        have apart := descriptor_apart w
          (posted_descriptor job w v (host.2.2.2.2 w v List.mem_cons_self))
        exact untrapped.imp_right fun none => (setWord_other _ _ _ _ apart.2.2.1.symm).trans none
    | publish job waits here =>
        exact untrapped.imp_right fun none =>
          (setWord_other s.link.words .seq (s.link.nextSeq + 1) .trapCause (by simp)).trans none
    | _ => exact untrapped
  · cases step with
    | accept job waits idle free =>
        intro one member
        rcases List.mem_append.mp member with old | new
        · exact jobs one old
        · obtain ⟨posted, _, mine, same, _⟩ := permitted
          rw [List.mem_singleton.mp new]
          exact ⟨posted, served posted mine, same⟩
    | _ => exact jobs

theorem core_fit (step : CoreStep c s.link e l) (accounted : Accounted c s) (fit : Fit c s) :
    Fit c (s.next e l) := by
  obtain ⟨untrapped, collects, jobs⟩ := fit
  obtain ⟨host, _, _, same, _⟩ := core_leaves (h := s.past) step
  refine ⟨?_, fun rest there => collects rest (host.symm.trans there), ?_⟩
  · cases step with
    | store w v next here =>
        have apart := status_apart w (store_status accounted here)
        have kept := setWord_other s.link.words w v .trapCause apart.2.2.1.symm
        exact Or.inr (kept.trans (untrapped.resolve_left (by simp [here])))
    | finish here =>
        have kept := setWord_other s.link.words .doneSeq s.link.served .trapCause (by simp)
        exact Or.inr (kept.trans (untrapped.resolve_left (by simp [here])))
    | trap rest cause here => exact Or.inl rfl
    | sleep here same => exact Or.inr (untrapped.resolve_left (by simp [here]))
    | notice here fresh => exact Or.inr (untrapped.resolve_left (by simp [here]))
    | wake here rung => exact Or.inr (untrapped.resolve_left (by simp [here]))
    | clear here => exact Or.inr (untrapped.resolve_left (by simp [here]))
    | take active cycles here => exact Or.inr (untrapped.resolve_left (by simp [here]))
    | load w next here => exact Or.inr (untrapped.resolve_left (by simp [here]))
    | act a next here => exact Or.inr (untrapped.resolve_left (by simp [here]))
  · rw [show (s.next e l).past.jobs = s.past.jobs from same]
    exact jobs

theorem stir_fit (asleep : s.link.control = .asleep) (fit : Fit c s) :
    Fit c (s.next .wake { s.link with control := .waking }) :=
  ⟨Or.inr (fit.untrapped.resolve_left (by simp [asleep])), fit.collects, fit.jobs⟩

theorem started_fit (started : Mailbox.Started l) : Fit c { link := l } where
  untrapped := Or.inr started.trapCause
  collects rest there := by
    rw [started.host] at there
    cases there
  jobs := by simp

theorem answer_ok {r : Result} (accounted : Accounted c s) (fit : Fit c s)
    (alive : s.link.control ≠ .parked) (here : s.link.host = .collecting (.ret r)) :
    r.ok = true := by
  have host := accounted.intact.host
  have owed := accounted.owed
  simp only [HostOk, here] at host
  simp only [Owed, Unwaited, here] at owed
  obtain ⟨member, stores⟩ :=
    collected accounted.counted host.2 accounted.shown accounted.executed owed.2.1
  obtain ⟨job, d, active, cycles, known, agrees, _, passed⟩ := accounted.executed _ member
  obtain ⟨posted, served, same⟩ := fit.jobs job (List.mem_of_getElem? known)
  have read : r = collect.eval s.link.words := accounted.reading _ here
  have clear := fit.untrapped.resolve_left alive
  have error : s.link.words .error = 0 := by
    have first := congrArg List.head? (passed.symm.trans stores)
    rw [serve_stores, served d (same ▸ agrees)] at first
    simp only [statusOf, List.head?_cons, Option.some.injEq, Prod.mk.injEq, true_and] at first
    simpa [collect, Thread.eval, clear, errNone] using first.symm
  rw [read]
  simp [collect, Thread.eval, clear, error]

end Links

/-! ### A call comes back -/

section Calls

variable {app : App R M} {c : Engine → Cluster} {net : M} {zero : R} {s t : Chip R M}

theorem call_served (servable : app.Servable c) {place : Place} (sane : app.Sane place)
    {call : Call M} (known : app.call place = some call) {job : Job}
    (posts : call.job = some job) : Served (c call.on) job := by
  cases place with
  | node n k =>
      obtain ⟨node, e, entry, engine, rfl⟩ := node_call known
      cases posts
      exact servable.nodes node (List.mem_of_getElem? entry) e engine
  | prime =>
      cases known
      cases posts
      exact servable.features 0 0 (Or.inl rfl)
  | post n =>
      cases known
      cases posts
      exact servable.features _ _ (Or.inr sane.2)
  | collect n =>
      cases known
      cases ahead : app.pipelined <;> simp only [ahead, if_true, Bool.false_eq_true, if_false,
        Option.some.injEq, reduceCtorEq] at posts
      subst posts
      exact servable.features _ _ (Or.inr sane)
  | _ => cases known

theorem update_fit {b : Board} {on : Engine} {site : Site}
    (others : ∀ other, Fit (c other) (b other)) (here : Fit (c on) site) (other : Engine) :
    Fit (c other) (Function.update b on site other) :=
  (Function.forall_update_iff b fun other site => Fit (c other) site).mpr
    ⟨here, fun other _ => others other⟩ other

theorem reachable_fit (apart : app.Apart) (servable : app.Servable c)
    (reached : Reachable app c net zero s) (on : Engine) : Fit (c on) (s.board on) := by
  induction reached generalizing on with
  | start s started =>
      obtain ⟨l, ready, _, same⟩ := started.booted on
      rw [same]
      exact started_fit ready
  | step s s' before taken ih =>
      obtain ⟨m, sound⟩ := reachable_sound apart before
      cases taken with
      | main m' taken => exact ih on
      | call call e l here taken permitted =>
          have sane : app.Sane s.main.place := by
            rw [sound.place]
            exact sound.sane
          exact update_fit ih (host_fit taken permitted
            (fun job posts => call_served servable sane here posts)
            (sound.accounted call.on).intact (ih call.on)) on
      | core moved e l after taken effect =>
          exact update_fit ih (core_fit taken (sound.accounted moved) (ih moved)) on
      | stir moved here => exact update_fit ih (stir_fit here (ih moved)) on

theorem reached_run (reached : Reachable app c net zero s) (run : ReflTransGen (Step app c) s t) :
    Reachable app c net zero t := by
  induction run with
  | refl => exact reached
  | tail _ last ih => exact ih.step _ _ last

theorem update_live {on : Engine} {site : Site} (live : Live s)
    (board : t.board = Function.update s.board on site) (alive : site.link.control ≠ .parked)
    (polls : site.link.host ≠ .polling 0) : Live t := by
  intro other
  rw [board]
  by_cases here : other = on
  · subst here
    rw [Function.update_self]
    exact ⟨alive, polls⟩
  · rw [Function.update_of_ne here]
    exact live other

theorem effect_met (app : App R M) (task : Option (Task M)) (l : Link) (before : Store R M)
    (e : Event) : ∃ after, app.Effect task l before after e := by
  have inside : ∀ one : Task M, one.Within before before := by
    intro one
    cases one with
    | features clip half => exact ⟨fun _ _ => rfl, rfl⟩
    | network result => rfl
  cases e
  case coreAct a => exact ⟨before, fun one _ => inside one⟩
  case finish =>
    cases task with
    | none => exact ⟨before, fun one known => by cases known⟩
    | some one =>
        cases one with
        | features clip half =>
            refine ⟨⟨Function.update before.features half (app.mfcc (app.audio clip)),
              before.net⟩, fun one known => ?_⟩
            cases known
            refine ⟨⟨fun other apart => Function.update_of_ne apart _ _, rfl⟩, fun _ _ i _ => ?_⟩
            exact congrFun (Function.update_self ..) i
        | network result =>
            refine ⟨{ before with net := result }, fun one known => ?_⟩
            cases known
            exact ⟨rfl, fun _ _ => rfl⟩
  all_goals exact ⟨before, rfl⟩

theorem inner_run {call : Call M} (known : app.call s.main.place = some call) {site : Site}
    (run : ReflTransGen (InnerStep (c call.on)) (s.board call.on) site) :
    ∃ t, ReflTransGen (Step app c) s t ∧
      t.board = Function.update s.board call.on site ∧ t.main.place = s.main.place := by
  induction run with
  | refl => exact ⟨s, .refl, (Function.update_eq_self _ _).symm, rfl⟩
  | @tail mid last _ taken ih =>
      obtain ⟨t, run, board, place⟩ := ih
      obtain ⟨e, l, inside, step, rfl⟩ := taken
      have here : t.board call.on = mid := by
        rw [board]
        exact Function.update_self ..
      have after : Function.update t.board call.on ((t.board call.on).next e l) =
          Function.update s.board call.on (mid.next e l) := by
        rw [here, board, Function.update_idem]
      rcases step with host | core
      · have permitted : call.Permits (c call.on).requiresStaging l e := by
          cases e <;> first | exact inside.elim | trivial
        have stays : call.returns e = false := by
          cases e <;> first | exact inside.elim | rfl
        refine ⟨_, run.tail (.call t call e l (place ▸ known) (by rwa [here]) permitted), after, ?_⟩
        simpa [Chip.called, stays] using place
      · obtain ⟨memory, effect⟩ := effect_met app
          ((t.tasks call.on)[(t.board call.on).past.current]?) l t.store e
        exact ⟨_, run.tail (.core t call.on e l memory (by rwa [here]) effect), after, place⟩

section Returns

variable (apart : app.Apart) (servable : app.Servable c) (reached : Reachable app c net zero s)
  (live : Live s) {call : Call M} (known : app.call s.main.place = some call)

include apart servable reached live known

theorem answer_returns {r : Result}
    (here : (s.board call.on).link.host = .collecting (.ret r)) :
    ∃ t, ReflTransGen (Step app c) s t ∧ Live t ∧ t.main.place = s.main.place.back := by
  obtain ⟨m, sound⟩ := reachable_sound apart reached
  have ok := answer_ok (sound.accounted call.on) (reachable_fit apart servable reached call.on)
    (live call.on).1 here
  refine ⟨_, .single (.call s call _ _ known (.answer _ r here) ok), ?_, rfl⟩
  exact update_live live rfl (live call.on).1 (by simp [Site.next])

theorem wait_returns
    (ends : ∃ site r, ReflTransGen (InnerStep (c call.on)) (s.board call.on) site ∧
      site.link.control ≠ .parked ∧ site.link.host = .collecting (.ret r)) :
    ∃ t, ReflTransGen (Step app c) s t ∧ Live t ∧ t.main.place = s.main.place.back := by
  obtain ⟨site, r, inner, alive, answer⟩ := ends
  obtain ⟨t, run, board, place⟩ := inner_run known inner
  have here : t.board call.on = site := by
    rw [board]
    exact Function.update_self ..
  obtain ⟨u, more, later, back⟩ := answer_returns apart servable (reached_run reached run)
    (update_live live board alive (by simp [answer])) (place ▸ known) (by rw [here, answer])
  exact ⟨u, run.trans more, later, back.trans (by rw [place])⟩

theorem waiting_returns (here : (s.board call.on).link.host = .waiting) :
    ∃ t, ReflTransGen (Step app c) s t ∧ Live t ∧ t.main.place = s.main.place.back := by
  obtain ⟨m, sound⟩ := reachable_sound apart reached
  exact wait_returns apart servable reached live known
    (waiting_answers (sound.accounted call.on) (live call.on).1 here)

theorem ringing_returns (here : (s.board call.on).link.host = .ringing call.waits) :
    ∃ t, ReflTransGen (Step app c) s t ∧ Live t ∧ t.main.place = s.main.place.back := by
  have rings := Step.call (c := c) s call _ _ known (.ring _ call.waits here) trivial
  cases waits : call.waits
  · refine ⟨_, .single rings, update_live live rfl (live call.on).1 ?_, ?_⟩
    · simp [Site.next, waits]
    · simp [Chip.called, Call.returns, waits]
  · have place : (s.called call .ring { (s.board call.on).link with
        doorbell := true
        inFlight := true
        host := if call.waits then .waiting else .idle }).main.place = s.main.place := by
      simp [Chip.called, Call.returns, waits]
    obtain ⟨t, run, later, back⟩ := waiting_returns apart servable (reached.step _ _ rings)
      (update_live live rfl (live call.on).1 (by simp [Site.next, waits])) (place ▸ known)
      (by rw [called_here]; simp [Site.next, waits])
    exact ⟨t, .head rings run, later, back.trans (by rw [place])⟩

theorem posting_returns {job : Job} {rest : List (Word × UInt32)}
    (here : (s.board call.on).link.host = .posting job rest call.waits) :
    ∃ t, ReflTransGen (Step app c) s t ∧ Live t ∧ t.main.place = s.main.place.back := by
  obtain ⟨site, inner, control, rings, _⟩ := posting_rings (c := c call.on) _ _ _ _ here
  obtain ⟨t, run, board, place⟩ := inner_run known inner
  have there : t.board call.on = site := by
    rw [board]
    exact Function.update_self ..
  obtain ⟨u, more, later, back⟩ := ringing_returns apart servable (reached_run reached run)
    (update_live live board (by rw [control]; exact (live call.on).1) (by simp [rings]))
    (place ▸ known) (by rw [there, rings])
  exact ⟨u, run.trans more, later, back.trans (by rw [place])⟩

theorem call_returns :
    ∃ t, ReflTransGen (Step app c) s t ∧ Live t ∧ t.main.place = s.main.place.back := by
  obtain ⟨m, sound⟩ := reachable_sound apart reached
  have stands := calling_stands sound (by rwa [← sound.place])
  cases here : (s.board call.on).link.host with
  | idle =>
      simp only [Stands, here] at stands
      cases posts : call.job with
      | none =>
          simp only [posts, Option.isSome_none, Bool.false_eq_true, if_false] at stands
          have waits := Step.call (c := c) s call _ _ known (.wait _ here stands.1) posts
          obtain ⟨t, run, rest⟩ := waiting_returns apart servable (reached.step _ _ waits)
            (update_live live rfl (live call.on).1 (by rintro ⟨⟩)) known
            (by rw [called_here]; rfl)
          exact ⟨t, .head waits run, rest⟩
      | some job =>
          simp only [posts, Option.isSome_some, if_true] at stands
          have accepts := Step.call (c := c) s call _ _ known (.accept _ job call.waits here stands)
            ⟨job, _, posts, rfl, rfl⟩
          obtain ⟨t, run, rest⟩ := posting_returns apart servable (reached.step _ _ accepts)
            (update_live live rfl (live call.on).1 (by rintro ⟨⟩)) known (by rw [called_here]; rfl)
          exact ⟨t, .head accepts run, rest⟩
  | posting job rest waits =>
      simp only [Stands, here] at stands
      exact posting_returns apart servable reached live known (by rw [here, stands.2.1])
  | ringing waits =>
      simp only [Stands, here] at stands
      exact ringing_returns apart servable reached live known (by rw [here, stands.2.1])
  | waiting =>
      simp only [Stands, here] at stands
      exact waiting_returns apart servable reached live known here
  | polling left =>
      simp only [Stands, here] at stands
      cases left with
      | zero => exact absurd here (live call.on).2
      | succ left =>
          exact wait_returns apart servable reached live known
            (polling_answers (sound.accounted call.on) (live call.on).1 left here)
  | collecting rest =>
      simp only [Stands, here] at stands
      obtain ⟨site, r, inner, control, answer⟩ := collecting_answers (c := c call.on) rest _
        ((reachable_fit apart servable reached call.on).collects rest here) here
      exact wait_returns apart servable reached live known
        ⟨site, r, inner, by rw [control]; exact (live call.on).1, answer⟩

end Returns

end Calls

/-! ### The loop -/

section Loop

variable {app : App R M} {c : Engine → Cluster} {net : M} {zero : R} {s : Chip R M}

def App.onward (app : App R M) : Place → Place
  | .head n =>
      if n < app.clips then
        if app.pipelined && decide (n + 1 < app.clips) then .post n else .copy n 0
      else .ended
  | .copy n i => if i < app.inputs then .copy n (i + 1) else .node n 0
  | .node n k => if k < app.nodes.length then .node n (k + 1) else .compare n 0
  | .compare n i => if i < app.elems then .compare n (i + 1) else .score n
  | .score n => if n + 1 < app.clips then .collect n else .head (n + 1)
  | place => place.back

theorem call_onward {place : Place} {call : Call M} (known : app.call place = some call) :
    place.back = app.onward place := by
  cases place with
  | node n k =>
      obtain ⟨node, e, entry, _, _⟩ := node_call known
      obtain ⟨within, _⟩ := List.getElem?_eq_some_iff.mp entry
      simp [App.onward, Place.back, within]
  | prime | post n | collect n => rfl
  | _ => cases known

theorem advance_onward (feat : Nat → Nat → R) (m : Main R M) (free : app.call m.place = none)
    (more : m.place ≠ .ended) :
    ∃ m', app.advance feat m = some m' ∧ m'.place = app.onward m.place := by
  cases here : m.place with
  | head n =>
      by_cases inside : n < app.clips
      · exact ⟨_, by rw [App.advance, here]; exact if_pos inside, by simp [App.onward, inside]⟩
      · exact ⟨_, by rw [App.advance, here]; exact if_neg inside, by simp [App.onward, inside]⟩
  | copy n i =>
      by_cases inside : i < app.inputs
      · exact ⟨_, by rw [App.advance, here]; exact if_pos inside, by simp [App.onward, inside]⟩
      · exact ⟨_, by rw [App.advance, here]; exact if_neg inside, by simp [App.onward, inside]⟩
  | node n k =>
      cases entry : app.nodes[k]? with
      | none =>
          have outside := Nat.not_lt.mpr (List.getElem?_eq_none_iff.mp entry)
          exact ⟨_, by simp only [App.advance, here, entry]; rfl, by simp [App.onward, outside]⟩
      | some node =>
          obtain ⟨within, _⟩ := List.getElem?_eq_some_iff.mp entry
          cases engine : node.engine with
          | none =>
              exact ⟨_, by simp only [App.advance, here, entry, engine]; rfl,
                by simp [App.onward, within]⟩
          | some e => simp [App.call, here, entry, engine] at free
  | compare n i =>
      by_cases inside : i < app.elems
      · exact ⟨_, by rw [App.advance, here]; exact if_pos inside, by simp [App.onward, inside]⟩
      · exact ⟨_, by rw [App.advance, here]; exact if_neg inside, by simp [App.onward, inside]⟩
  | score n => exact ⟨_, by rw [App.advance, here], rfl⟩
  | ended => exact absurd here more
  | prime | post n | collect n =>
      rw [here] at free
      cases free

theorem place_goes (apart : app.Apart) (servable : app.Servable c)
    (reached : Reachable app c net zero s) (live : Live s) (more : s.main.place ≠ .ended) :
    ∃ t, ReflTransGen (Step app c) s t ∧ Live t ∧ t.main.place = app.onward s.main.place := by
  cases known : app.call s.main.place with
  | some call =>
      obtain ⟨t, run, later, back⟩ := call_returns apart servable reached live known
      exact ⟨t, run, later, back.trans (call_onward known)⟩
  | none =>
      obtain ⟨m, taken, there⟩ :=
        advance_onward (fun n => s.features (n % 2)) s.main known more
      exact ⟨_, .single (.main s m taken), live, there⟩

/-- The places of one clip. -/
def App.turns (app : App R M) : Nat := app.inputs + app.nodes.length + app.elems + 7

def App.togo (app : App R M) : Place → Nat
  | .prime => app.clips * app.turns + 2
  | .head n => (app.clips - n) * app.turns + 1
  | .collect n => (app.clips - (n + 1)) * app.turns + 2
  | .score n => (app.clips - (n + 1)) * app.turns + 3
  | .compare n i => (app.clips - (n + 1)) * app.turns + 4 + (app.elems - i)
  | .node n k => (app.clips - (n + 1)) * app.turns + 5 + app.elems + (app.nodes.length - k)
  | .copy n i =>
      (app.clips - (n + 1)) * app.turns + 6 + app.elems + app.nodes.length + (app.inputs - i)
  | .post n => (app.clips - (n + 1)) * app.turns + app.turns
  | .ended => 0

theorem onward_fewer (place : Place) (more : place ≠ .ended) :
    app.togo (app.onward place) < app.togo place := by
  cases place with
  | prime => simp [App.onward, App.togo, Place.back]
  | head n =>
      by_cases inside : n < app.clips
      · have clip : app.clips - n = app.clips - (n + 1) + 1 := by omega
        have whole : (app.clips - n) * app.turns =
            (app.clips - (n + 1)) * app.turns + app.turns := by rw [clip, Nat.succ_mul]
        have turns : app.turns = app.inputs + app.nodes.length + app.elems + 7 := rfl
        have next : app.onward (.head n) = .post n ∨ app.onward (.head n) = .copy n 0 := by
          cases ahead : app.pipelined && decide (n + 1 < app.clips) <;>
            simp [App.onward, inside, ahead]
        rcases next with post | copy
        · simp only [post, App.togo, whole]
          exact Nat.lt_succ_self _
        · simp only [copy, App.togo, whole]
          omega
      · simp [App.onward, App.togo, inside]
  | post n =>
      simp only [App.onward, Place.back, App.togo, App.turns]
      omega
  | copy n i =>
      by_cases inside : i < app.inputs <;> simp only [App.onward, inside, if_true, if_false,
        App.togo] <;> omega
  | node n k =>
      by_cases inside : k < app.nodes.length <;> simp only [App.onward, inside, if_true, if_false,
        App.togo] <;> omega
  | compare n i =>
      by_cases inside : i < app.elems <;> simp only [App.onward, inside, if_true, if_false,
        App.togo] <;> omega
  | score n =>
      by_cases inside : n + 1 < app.clips <;> simp only [App.onward, inside, if_true, if_false,
        App.togo] <;> omega
  | collect n =>
      simp only [App.onward, Place.back, App.togo]
      exact Nat.lt_succ_self _
  | ended => exact absurd rfl more

theorem loop_ends (apart : app.Apart) (servable : app.Servable c)
    (reached : Reachable app c net zero s) (live : Live s) :
    ∃ t, ReflTransGen (Step app c) s t ∧ t.main.place = .ended := by
  -- On the places that are left.
  induction count : app.togo s.main.place using Nat.strong_induction_on generalizing s with
  | _ left ih =>
      by_cases ended : s.main.place = .ended
      · exact ⟨s, .refl, ended⟩
      · obtain ⟨t, run, later, there⟩ := place_goes apart servable reached live ended
        have fewer : app.togo t.main.place < left := by
          rw [there, ← count]
          exact onward_fewer _ ended
        obtain ⟨u, rest, done⟩ := ih _ fewer (reached_run reached run) later rfl
        exact ⟨u, run.trans rest, done⟩

end Loop

end HeteroSim.KeywordLoop
