import HeteroSim.KeywordLoop

/-!
What the place of `main` says of each engine: that it has no job, that it runs the
front-end job of the next clip, or how far a call on it is. One step of the host
inside a call and one step of a control core keep it.
-/

namespace HeteroSim.KeywordLoop

open SharedWords ClusterJob Mailbox DescriptorIntegrity ExactlyOnce
open Relation (ReflTransGen)

variable {R M : Type}

/-! ### What an engine is doing -/

/-- What the place of `main` says of an engine: no job, a job in flight, or a call. -/
inductive Standing (M : Type) where
  | free
  | running (task : Task M)
  | calling (call : Call M)

def App.beside (app : App R M) : Place → Option Nat
  | .copy n _ | .node n _ | .compare n _ | .score n =>
      if app.pipelined && decide (n + 1 < app.clips) then some n else none
  | .collect n => if app.pipelined then some n else none
  | _ => none

/-- An engine that `main` is not calling. -/
def App.left (app : App R M) (place : Place) (on : Engine) : Standing M :=
  if on = app.frontEnd then
    match app.beside place with
    | some n => .running (following n)
    | none => .free
  else .free

def App.standing (app : App R M) (place : Place) (on : Engine) : Standing M :=
  match app.call place with
  | some call => if call.on = on then .calling call else app.left place on
  | none => app.left place on

def Stands (net : M) (standing : Standing M) (l : Link) (last : Option (Task M)) : Prop :=
  match standing with
  | .free => l.host = .idle ∧ l.inFlight = false
  | .running task => l.host = .idle ∧ l.inFlight = true ∧ last = some task
  | .calling call =>
      match l.host with
      | .idle =>
          if call.job.isSome then l.inFlight = false
          else l.inFlight = true ∧ last = some (call.task net)
      | .posting _ _ waits => call.job.isSome ∧ waits = call.waits ∧ l.inFlight = false
      | .ringing waits =>
          call.job.isSome ∧ waits = call.waits ∧ l.inFlight = false ∧
            last = some (call.task net)
      | .waiting => call.waits = true ∧ last = some (call.task net)
      | .polling _ | .collecting _ =>
          call.waits = true ∧ l.inFlight = false ∧ last = some (call.task net)

def Owing (l : Link) : Prop :=
  l.inFlight = true ∨
    match l.host with
    | .idle | .posting .. => False
    | _ => True

def Delivered (app : App R M) (l : Link) (h : History) (tasks : List (Task M))
    (store : Store R M) : Prop :=
  Owing l → Quiet l h → l.words .error = 0 → l.words .trapCause = 0 →
    ∀ task, tasks.getLast? = some task → app.Done task store

/-- The clip whose features `main` has before it. -/
def App.uses (app : App R M) : Place → Option Nat
  | .head n => if n < app.clips then some n else none
  | .post n | .copy n _ | .node n _ | .compare n _ | .score n => some n
  | _ => none

/-- The clip whose half of `features` the next step reads. -/
def App.reads (app : App R M) : Place → Option Nat
  | .copy n i => if i < app.inputs then some n else none
  | .compare n i => if i < app.elems then some n else none
  | _ => none

/-- `m` is where the serial loop would be. -/
structure Sound (app : App R M) (c : Engine → Cluster) (m₀ m : Main R M) (s : Chip R M) :
    Prop where
  reached : ExactlyOnce.Reachable c s.board
  numbered : ∀ on, (s.tasks on).length = (s.board on).past.descriptors.length
  kinds : ∀ on, ∀ task ∈ s.tasks on, task.ofFront = decide (on = app.frontEnd)
  stands : ∀ on, Stands m.net (app.standing m.place on) (s.board on).link (s.tasks on).getLast?
  delivered : ∀ on, Delivered app (s.board on).link (s.board on).past (s.tasks on) s.store
  same : s.main = { m with net := s.main.net }
  settled : (∀ on, on ≠ app.frontEnd → ¬ Owing (s.board on).link) → s.main.net = m.net
  ready : ∀ n, app.uses m.place = some n →
    ∀ i < app.elems, s.features (n % 2) i = app.mfcc (app.audio n) i
  sane : app.Sane m.place
  serial : ReflTransGen app.Follows m₀ m.serial

/-! ### One engine -/

section Links

variable {app : App R M} {c : Cluster} {site : Site} {l : Link} {e : Event} {call : Call M}
  {net : M} {last : Option (Task M)} {tasks : List (Task M)} {before after : Store R M}

theorem free_settled (stands : Stands net .free l last) : ¬ Owing l := by
  obtain ⟨idle, free⟩ := stands
  simp [Owing, idle, free]

theorem running_last {task : Task M} (stands : Stands net (.running task) l last) :
    last = some task := stands.2.2

theorem calling_last (stands : Stands net (.calling call) l last) (owing : Owing l) :
    last = some (call.task net) := by
  cases here : l.host <;> simp only [Stands, Owing, here, or_true, or_false] at stands owing
  case idle =>
    cases none : call.job.isSome
    · rw [none] at stands
      exact stands.2
    · rw [none, if_pos rfl, owing] at stands
      cases stands
  case posting job rest waits =>
    rw [owing] at stands
    cases stands.2.2
  case ringing waits => exact stands.2.2.2
  case waiting => exact stands.2
  case polling left => exact stands.2.2
  case collecting rest => exact stands.2.2

theorem stands_same {l' : Link} {standing : Standing M} (host : l'.host = l.host)
    (flight : l'.inFlight = l.inFlight) (stands : Stands net standing l last) :
    Stands net standing l' last := by
  cases standing <;> simpa only [Stands, host, flight] using stands

theorem owing_same {l' : Link} (host : l'.host = l.host) (flight : l'.inFlight = l.inFlight) :
    Owing l' ↔ Owing l := by
  simp only [Owing, host, flight]

theorem call_stands {requiresStaging : Bool} (step : HostStep requiresStaging site.link e l)
    (permitted : call.Permits requiresStaging l e)
    (stands : Stands net (.calling call) site.link tasks.getLast?) :
    Stands net
      (if call.returns e then if call.waits then .free else .running (call.task net)
        else .calling call) l (listed tasks (call.task net) e).getLast? := by
  cases step with
  | refuse idle busy => exact permitted.elim
  | giveUp here => exact permitted.elim
  | nothing idle free => cases permitted
  | accept job waits idle free =>
      obtain ⟨posted, rest, known, _, there⟩ := permitted
      simp only [Host.posting.injEq] at there
      exact ⟨by rw [known]; rfl, there.2.2, free⟩
  | store job w v rest waits here =>
      simp only [Stands, here] at stands
      exact stands
  | publish job waits here =>
      simp only [Stands, here] at stands
      exact ⟨stands.1, stands.2.1, stands.2.2, List.getLast?_concat⟩
  | ring waits here =>
      simp only [Stands, here] at stands
      obtain ⟨_, same, _, published⟩ := stands
      cases wait : call.waits
      · simp [Call.returns, listed, wait, Stands, same, published]
      · simp [Call.returns, listed, wait, Stands, same, published]
  | wait idle busy =>
      simp only [Stands, idle, show call.job = none from permitted, Option.isSome_none,
        Bool.false_eq_true, if_false] at stands
      exact ⟨call.sits permitted, stands.2⟩
  | begin here =>
      simp only [Stands, here] at stands
      exact ⟨stands.1, rfl, stands.2⟩
  | poll left here running =>
      simp only [Stands, here] at stands
      exact stands
  | done left here same =>
      simp only [Stands, here] at stands
      exact stands
  | gather w next here =>
      simp only [Stands, here] at stands
      exact stands
  | answer r here =>
      simp only [Stands, here] at stands
      simp only [Call.returns, stands.1, if_true]
      exact ⟨rfl, stands.2.1⟩

theorem owing_kept {requiresStaging : Bool} (step : HostStep requiresStaging site.link e l)
    (permitted : call.Permits requiresStaging l e) (stays : call.returns e = false)
    (owing : Owing site.link) : Owing l := by
  cases step with
  | refuse idle busy => exact permitted.elim
  | giveUp here => exact permitted.elim
  | nothing idle free => cases stays
  | answer r here => cases stays
  | accept job waits idle free => simp [Owing, idle, free] at owing
  | store job w v rest waits here => simpa [Owing, here] using owing
  | publish job waits here => exact Or.inr trivial
  | ring waits here => exact Or.inl rfl
  | wait idle busy => exact Or.inr trivial
  | begin here => exact Or.inr trivial
  | poll left here running => exact Or.inr trivial
  | done left here same => exact Or.inr trivial
  | gather w next here => exact Or.inr trivial

theorem quiet_or_owing (intact : Intact c site.link site.past)
    (patient : site.past.gaveUp = false) : Quiet site.link site.past ∨ Owing site.link := by
  have host := intact.host
  cases here : site.link.host <;> simp only [HostOk, here] at host
  case idle =>
    cases flight : site.link.inFlight
    · exact Or.inl (host.2 flight patient)
    · exact Or.inr (Or.inl flight)
  case posting job rest waits => exact Or.inl host.1
  all_goals exact Or.inr (Or.inr (by rw [here]; trivial))

theorem last_task (numbered : tasks.length = site.past.descriptors.length)
    (served : site.past.current + 1 = site.past.descriptors.length) :
    tasks[site.past.current]? = tasks.getLast? := by
  rw [List.getLast?_eq_getElem?, numbered, ← served, Nat.add_sub_cancel]

theorem core_store (step : CoreStep c site.link e l) (accounted : Accounted c site)
    (numbered : tasks.length = site.past.descriptors.length)
    (effect : app.Effect tasks[site.past.current]? l before after e) :
    after = before ∨ Owing site.link ∧ ∃ task, tasks.getLast? = some task ∧
      task.Within before after := by
  have inside : ∀ rest, site.link.control = .serving rest →
      (∀ one, tasks[site.past.current]? = some one → one.Within before after) →
      Owing site.link ∧ ∃ task, tasks.getLast? = some task ∧ task.Within before after := by
    intro rest here within
    have busy := inside_busy accounted.intact (by rw [here]; trivial)
    obtain ⟨_, _, served, _⟩ := busy
    rw [last_task numbered served] at within
    refine ⟨(quiet_or_owing accounted.intact accounted.patient).resolve_left fun quiet => ?_, ?_⟩
    · exact (quiet_same quiet).2 (by rw [here]; trivial)
    · have nonempty : tasks ≠ [] := by
        intro none
        rw [none] at numbered
        simp only [List.length_nil] at numbered
        omega
      exact ⟨_, List.getLast?_eq_some_getLast nonempty,
        within _ (List.getLast?_eq_some_getLast nonempty)⟩
  cases step with
  | act a next here => exact Or.inr (inside _ here effect)
  | finish here => exact Or.inr (inside _ here fun one known => (effect one known).1)
  | _ => exact Or.inl effect

theorem core_delivered (step : CoreStep c site.link e l) (accounted : Accounted c site)
    (numbered : tasks.length = site.past.descriptors.length)
    (effect : app.Effect tasks[site.past.current]? l before after e)
    (delivered : Delivered app site.link site.past tasks before) :
    Delivered app l (site.past.record site.link e) tasks after := by
  intro owing quiet error trap task last
  obtain ⟨seq, doneSeq, resting, finished⟩ := quiet
  have still : ∀ control, site.link.control = control → AtRest control →
      AtRest site.link.control := fun control here rest => by rwa [here]
  cases step with
  | sleep here same =>
      cases effect
      exact delivered owing ⟨seq, doneSeq, still _ here trivial, finished⟩ error trap task last
  | wake here rung =>
      cases effect
      exact delivered owing ⟨seq, doneSeq, still _ here trivial, finished⟩ error trap task last
  | clear here =>
      cases effect
      exact delivered owing ⟨seq, doneSeq, still _ here trivial, finished⟩ error trap task last
  | finish here =>
      -- The job that ends is the last one published, and its effect is the result.
      obtain ⟨_, _, served, _⟩ := inside_busy accounted.intact (by rw [here]; trivial)
      rw [← last_task numbered served] at last
      exact (effect task last).2 error trap
  | _ => exact resting.elim

theorem host_delivered {requiresStaging : Bool} {store : Store R M} (task : Task M)
    (step : HostStep requiresStaging site.link e l) (intact : Intact c site.link site.past)
    (delivered : Delivered app site.link site.past tasks store) :
    Delivered app l (site.past.record site.link e) (listed tasks task e) store := by
  have host := intact.host
  intro owing quiet error trap
  obtain ⟨seq, doneSeq, resting, finished⟩ := quiet
  cases step with
  | publish job waits here =>
      -- the new number is ahead of what the cluster has served
      simp only [HostOk, here] at host
      have next : setWord site.link.words .seq (site.link.nextSeq + 1) .seq = site.link.served :=
        seq
      rw [setWord_same, intact.number, host.1.1] at next
      exact absurd next.symm (succ_apart _)
  | store job w v rest waits here =>
      simp only [HostOk, here] at host
      obtain ⟨_, _, _, _, left⟩ := host
      obtain ⟨notSeq, notDone, notTrap, notStatus⟩ := descriptor_apart w
        (posted_descriptor job w v (left w v List.mem_cons_self))
      have kept : ∀ other, other ≠ w → setWord site.link.words w v other =
          site.link.words other := fun other apart => setWord_other _ _ _ _ apart
      refine delivered (by simpa [Owing, here] using owing) ⟨?_, ?_, resting, finished⟩ ?_ ?_
      · exact (kept _ notSeq.symm).symm.trans seq
      · exact (kept _ notDone.symm).symm.trans doneSeq
      · exact (kept .error (by rintro rfl; exact notStatus trivial)).symm.trans error
      · exact (kept .trapCause notTrap.symm).symm.trans trap
  -- An accepted job is not published yet, so nothing is owed.
  | accept job waits idle free => simp [Owing, free] at owing
  | refuse idle busy => exact delivered owing ⟨seq, doneSeq, resting, finished⟩ error trap
  | nothing idle free => exact delivered owing ⟨seq, doneSeq, resting, finished⟩ error trap
  | wait idle busy => exact delivered (Or.inl busy) ⟨seq, doneSeq, resting, finished⟩ error trap
  | ring waits here =>
      exact delivered (Or.inr (by rw [here]; trivial)) ⟨seq, doneSeq, resting, finished⟩ error trap
  | begin here =>
      exact delivered (Or.inr (by rw [here]; trivial)) ⟨seq, doneSeq, resting, finished⟩ error trap
  | poll left here running =>
      exact delivered (Or.inr (by rw [here]; trivial)) ⟨seq, doneSeq, resting, finished⟩ error trap
  | done left here same =>
      exact delivered (Or.inr (by rw [here]; trivial)) ⟨seq, doneSeq, resting, finished⟩ error trap
  | giveUp here =>
      exact delivered (Or.inr (by rw [here]; trivial)) ⟨seq, doneSeq, resting, finished⟩ error trap
  | gather w next here =>
      exact delivered (Or.inr (by rw [here]; trivial)) ⟨seq, doneSeq, resting, finished⟩ error trap
  | answer r here =>
      exact delivered (Or.inr (by rw [here]; trivial)) ⟨seq, doneSeq, resting, finished⟩ error trap

theorem answered_done {store : Store R M} {r : Result} (accounted : Accounted c site)
    (here : site.link.host = .collecting (.ret r)) (ok : r.ok = true)
    (delivered : Delivered app site.link site.past tasks store) :
    ∀ task, tasks.getLast? = some task → app.Done task store := by
  have host := accounted.intact.host
  simp only [HostOk, here] at host
  have read : r = collect.eval site.link.words := accounted.reading _ here
  -- `hes_wait` reports a trap or an error as a failure.
  have clean : site.link.words .trapCause = 0 ∧ site.link.words .error = 0 := by
    rw [read] at ok
    by_cases nothing : site.link.words .trapCause = 0
    · refine ⟨nothing, ?_⟩
      simp only [collect, Thread.eval, Thread.eval_bind, nothing, if_true] at ok
      exact of_decide_eq_true ok
    · simp [collect, Thread.eval, nothing] at ok
  exact delivered (Or.inr (by rw [here]; trivial)) host.2 clean.2 clean.1

end Links

/-! ### The places of `main` -/

section Places

variable {app : App R M} {m m' : Main R M} {place : Place} {on : Engine} {net : M} {l : Link}
  {last : Option (Task M)}

/-- No node of the network is on the front-end's engine. -/
def App.Apart (app : App R M) : Prop := ∀ node ∈ app.nodes, node.engine ≠ some app.frontEnd

theorem node_call {n k : Nat} {call : Call M} (known : app.call (.node n k) = some call) :
    ∃ node e, app.nodes[k]? = some node ∧ node.engine = some e ∧
      call = ⟨e, some node.job, fun net => .network (node.run net), true, nofun⟩ := by
  simp only [App.call] at known
  cases entry : app.nodes[k]? with
  | none => simp [entry] at known
  | some node =>
      cases engine : node.engine with
      | none => simp [entry, engine] at known
      | some e =>
          simp only [entry, engine, Option.some.injEq] at known
          exact ⟨node, e, rfl, engine, known.symm⟩

theorem node_apart (apart : app.Apart) {k : Nat} {node : Node M} {e : Engine}
    (entry : app.nodes[k]? = some node) (engine : node.engine = some e) : e ≠ app.frontEnd := by
  rintro rfl
  exact apart node (List.mem_of_getElem? entry) engine

theorem call_kind (apart : app.Apart) {call : Call M} (known : app.call place = some call)
    (net : M) : (call.task net).ofFront = decide (call.on = app.frontEnd) := by
  cases place with
  | node n k =>
      obtain ⟨node, e, entry, engine, rfl⟩ := node_call known
      simp [Task.ofFront, node_apart apart entry engine]
  | prime | post n | collect n =>
      cases known
      simp [Task.ofFront, following]
  | _ => cases known

theorem call_left (apart : app.Apart) {call : Call M} (known : app.call place = some call)
    (net : M) : app.left place call.on =
      match call.job with
      | some _ => .free
      | none => .running (call.task net) := by
  cases place with
  | node n k =>
      obtain ⟨node, e, entry, engine, rfl⟩ := node_call known
      simp [App.left, node_apart apart entry engine]
  | collect n =>
      cases known
      cases ahead : app.pipelined <;> simp [App.left, App.beside, ahead]
  | prime | post n =>
      cases known
      simp [App.left, App.beside]
  | _ => cases known

theorem left_standing (apart : app.Apart) (stands : Stands net (app.left place on) l last) :
    Stands net (app.standing place on) l last := by
  cases known : app.call place with
  | none => simpa only [App.standing, known] using stands
  | some call =>
      by_cases mine : call.on = on
      · subst mine
        rw [call_left apart known net] at stands
        simp only [App.standing, known, if_true]
        cases posts : call.job with
        | none =>
            rw [posts] at stands
            simpa [Stands, posts, stands.1] using stands.2
        | some job =>
            rw [posts] at stands
            simpa [Stands, posts, stands.1] using stands.2
      · simpa only [App.standing, known, mine, if_false] using stands

theorem uses_last (apart : app.Apart) {n : Nat} (uses : app.uses place = some n)
    (stands : Stands net (app.standing place app.frontEnd) l last) (owing : Owing l) :
    last = some (following n) := by
  have beside : app.beside place = none ∨ app.beside place = some n := by
    cases place <;> simp only [App.uses, Option.some.injEq, reduceCtorEq] at uses <;>
      simp only [App.beside, true_or]
    all_goals
      subst uses
      split
      · exact Or.inr rfl
      · exact Or.inl rfl
  have rest : Stands net (app.left place app.frontEnd) l last → last = some (following n) := by
    intro stands
    rcases beside with none | some
    · rw [App.left, if_pos rfl, none] at stands
      exact absurd owing (free_settled stands)
    · rw [App.left, if_pos rfl, some] at stands
      exact running_last stands
  cases known : app.call place with
  | none =>
      rw [App.standing, known] at stands
      exact rest stands
  | some call =>
      rw [App.standing, known] at stands
      by_cases mine : call.on = app.frontEnd
      · simp only [mine, if_true] at stands
        -- Of the calls to the front-end only the one that posts ahead is made with features in use.
        have same : call.task net = following n := by
          cases place with
          | post k =>
              cases known
              cases uses
              rfl
          | node k j =>
              obtain ⟨node, e, entry, engine, rfl⟩ := node_call known
              exact absurd mine (node_apart apart entry engine)
          | prime | collect k => cases uses
          | _ => cases known
        rw [calling_last stands owing, same]
      · simp only [mine, if_false] at stands
        exact rest stands

theorem advance_local {feat : Nat → Nat → R} (taken : app.advance feat m = some m') :
    app.call m.place = none := by
  cases here : m.place <;> simp only [App.advance, here, reduceCtorEq] at taken <;>
    simp only [App.call]
  case node n k =>
    cases entry : app.nodes[k]? with
    | none => rfl
    | some node =>
        cases engine : node.engine with
        | none => simp only [engine]
        | some e => simp [entry, engine] at taken

theorem advance_serial {feat : Nat → Nat → R} (taken : app.advance feat m = some m')
    (sane : app.Sane m.place)
    (ready : ∀ n, app.uses m.place = some n → ∀ i < app.elems,
      feat n i = app.mfcc (app.audio n) i) :
    app.beside m'.place = app.beside m.place ∧ app.Sane m'.place ∧
      (∀ n, app.uses m'.place = some n → app.uses m.place = some n) ∧
      app.Follows m.serial m'.serial := by
  have free := advance_local taken
  cases here : m.place <;> simp only [App.advance, here, reduceCtorEq] at taken
  case head n =>
    simp only [App.Sane, here] at sane
    have still : m.serial = m := by simp [Main.serial, here]
    rw [still]
    by_cases more : n < app.clips
    · rw [if_pos more] at taken
      cases taken
      cases ahead : app.pipelined && decide (n + 1 < app.clips)
      · simp [App.beside, App.Sane, App.uses, App.Follows, App.ideal, App.call, App.advance,
          Main.serial, here, more, ahead]
      · simp only [Bool.and_eq_true, decide_eq_true_eq] at ahead
        simp [App.beside, App.Sane, App.uses, App.Follows, App.ideal, App.call, App.advance,
          Main.serial, here, more, ahead]
    · rw [if_neg more] at taken
      cases taken
      simp [App.beside, App.Sane, App.uses, App.Follows, App.ideal, App.call, App.advance,
        Main.serial, here, more]
  case copy n i =>
    simp only [App.Sane, here] at sane
    have read := ready n (by rw [here]; rfl) i
    by_cases more : i < app.inputs
    · rw [if_pos more] at taken
      cases taken
      simp [App.beside, App.Sane, App.uses, App.Follows, App.ideal, App.call, App.advance,
        Main.serial, here, more, sane, read (Nat.lt_of_lt_of_le more app.fits)]
    · rw [if_neg more] at taken
      cases taken
      simp [App.beside, App.Sane, App.uses, App.Follows, App.ideal, App.call, App.advance,
        Main.serial, here, more, sane]
  case node n k =>
    simp only [App.Sane, here] at sane
    cases entry : app.nodes[k]? with
    | none =>
        simp only [entry, Option.some.injEq] at taken
        subst taken
        simp [App.beside, App.Sane, App.uses, App.Follows, App.ideal, App.call, App.advance,
          Main.serial, here, entry, sane]
    | some node =>
        cases engine : node.engine with
        | none =>
            simp only [entry, engine, Option.some.injEq] at taken
            subst taken
            simp [App.beside, App.Sane, App.uses, App.Follows, App.ideal, App.call, App.advance,
              Main.serial, here, entry, engine, sane]
        | some e => simp [entry, engine] at taken
  case compare n i =>
    simp only [App.Sane, here] at sane
    have read := ready n (by rw [here]; rfl) i
    by_cases more : i < app.elems
    · rw [if_pos more] at taken
      cases taken
      simp [App.beside, App.Sane, App.uses, App.Follows, App.ideal, App.call, App.advance,
        Main.serial, here, more, sane, read more]
    · rw [if_neg more] at taken
      cases taken
      simp [App.beside, App.Sane, App.uses, App.Follows, App.ideal, App.call, App.advance,
        Main.serial, here, more, sane]
  case score n =>
    simp only [App.Sane, here] at sane
    cases taken
    -- After the last clip the loop goes to its head, which ends it.
    by_cases more : n + 1 < app.clips
    · simp [App.beside, App.Sane, App.uses, App.Follows, App.ideal, App.call, App.advance,
        Main.serial, here, more]
    · simp [App.beside, App.Sane, App.uses, App.Follows, App.ideal, App.call, App.advance,
        Main.serial, here, more, Nat.succ_le_of_lt sane]

/-- What the serial loop makes of a call. -/
def App.after (m : Main R M) (call : Call M) : Main R M :=
  match call.task m.net with
  | .features _ _ => { m with place := m.place.back }
  | .network result => { m with net := result, place := m.place.back }

theorem call_serial {call : Call M} (known : app.call m.place = some call)
    (sane : app.Sane m.place) :
    app.Sane (App.after m call).place ∧
      ReflTransGen app.Follows m.serial (App.after m call).serial := by
  cases here : m.place with
  | prime =>
      rw [here] at known
      cases known
      have steps : app.ideal m = some { m with place := .head 0 } := by
        simp [App.ideal, App.call, here, Place.back]
      simpa [App.after, App.Sane, Main.serial, here, Place.back] using .single steps
  | post n =>
      rw [here] at known sane
      cases known
      simp only [App.after, following, here, Place.back, App.Sane, Main.serial]
      exact ⟨Nat.lt_of_succ_lt sane.2, .refl⟩
  | node n k =>
      rw [here] at known sane
      have call := known
      obtain ⟨node, e, entry, engine, rfl⟩ := node_call known
      have steps : app.ideal m =
          some { m with net := node.run m.net, place := .node n (k + 1) } := by
        simp [App.ideal, here, call, Place.back]
      simp only [App.after, here, Place.back, Main.serial]
      exact ⟨sane, .single steps⟩
  | collect n =>
      rw [here] at known sane
      cases known
      have steps : app.ideal m = some { m with place := .head (n + 1) } := by
        simp [App.ideal, App.call, following, here, Place.back]
      simp only [App.after, following, here, Place.back, App.Sane, Main.serial]
      exact ⟨Nat.le_of_lt sane, .single steps⟩
  | _ =>
      rw [here] at known
      cases known

theorem call_leaves (apart : app.Apart) {call : Call M} (known : app.call place = some call)
    (sane : app.Sane place) (net : M) (on : Engine) : app.left place.back on =
      if on = call.on then if call.waits then .free else .running (call.task net)
      else app.left place on := by
  cases place with
  | prime =>
      cases known
      simp [Place.back, App.left, App.beside]
  | post n =>
      cases known
      by_cases mine : on = app.frontEnd <;>
        simp [Place.back, App.left, App.beside, mine, sane.1, sane.2]
  | node n k =>
      obtain ⟨node, e, entry, engine, rfl⟩ := node_call known
      by_cases mine : on = e
      · simp [App.left, mine, node_apart apart entry engine]
      · simp [Place.back, App.left, App.beside, mine]
  | collect n =>
      cases known
      by_cases mine : on = app.frontEnd <;> simp [Place.back, App.left, App.beside, mine]
  | _ => cases known

theorem back_uses {call : Call M} (known : app.call place = some call) (net : M) {n : Nat}
    (uses : app.uses place.back = some n) :
    app.uses place = some n ∨ call.waits = true ∧ call.task net = .features n (n % 2) := by
  cases place with
  | prime =>
      cases known
      simp only [Place.back, App.uses] at uses
      split at uses
      · cases uses
        exact Or.inr ⟨rfl, rfl⟩
      · cases uses
  | collect k =>
      cases known
      simp only [Place.back, App.uses] at uses
      split at uses
      · cases uses
        exact Or.inr ⟨rfl, rfl⟩
      · cases uses
  | post k => exact Or.inl uses
  | node k j => exact Or.inl uses
  | _ => cases known

theorem call_waits {call : Call M} (known : app.call place = some call)
    (elsewhere : call.on ≠ app.frontEnd) : call.waits = true := by
  cases place with
  | node n k =>
      obtain ⟨node, e, entry, engine, rfl⟩ := node_call known
      rfl
  | prime | post n | collect n =>
      cases known
      exact absurd rfl elsewhere
  | _ => cases known

theorem left_same {place' : Place} (net' : M) (same : app.left place' on = app.left place on)
    (stands : Stands net (app.left place on) l last) :
    Stands net' (app.left place' on) l last := by
  rw [same]
  cases left : app.left place on with
  | free => rwa [left] at stands
  | running task => rwa [left] at stands
  | calling call =>
      unfold App.left at left
      split at left
      · split at left <;> cases left
      · cases left

theorem left_idle (stands : Stands net (app.left place on) l last) : l.host = .idle := by
  rw [App.left] at stands
  split at stands
  · split at stands
    · exact stands.1
    · exact stands.1
  · exact stands.1

end Places

end HeteroSim.KeywordLoop
