import HeteroSim.ExactlyOnce

/-!
The keyword-spotting application: `main` of `kws_main.c` over the two mailboxes.
A front-end job fills one half of `features`; the nodes of the network run on the
host or are offloaded. Between its calls `main` takes one small step at a time,
so that the clusters can move at any point of it. The arithmetic, the network's
memory and the descriptors are parameters; the printed lines and the cycle counts
are left out.
-/

namespace HeteroSim.KeywordLoop

open SharedWords ClusterJob Mailbox DescriptorIntegrity ExactlyOnce
open Relation (ReflTransGen)

/-! ### The application -/

/-- A node of the generated network. `M` is the network's memory. -/
structure Node (M : Type) where
  /-- `none` is the host. -/
  engine : Option Engine
  job : Job
  run : M → M

structure App (R M : Type) where
  /-- `KWS_PIPELINED`. -/
  pipelined : Bool
  /-- `KWS_FRONTEND_ENGINE`. -/
  frontEnd : Engine
  /-- `RUN_CLIPS`. -/
  clips : Nat
  /-- `KWS_FEAT_ELEMS`. -/
  elems : Nat
  /-- The elements of `DeeployNetwork_inputs[0]`. -/
  inputs : Nat
  fits : inputs ≤ elems
  /-- `KWS_NUM_CLASSES`. -/
  classes : Nat
  audio : Nat → Nat → R
  /-- What an Mfcc job makes of its audio. -/
  mfcc : (Nat → R) → Nat → R
  /-- The descriptor for a clip and a half of `features`. -/
  mfccJob : Nat → Nat → Job
  nodes : List (Node M)
  setInput : M → Nat → R → M
  outputs : M → Nat → R
  /-- `fabsf(a - b)`. -/
  distance : R → R → R
  /-- `a > b`. -/
  above : R → R → Bool
  mfccRef : Nat → Nat → R
  labels : Nat → Nat
  reference : Nat → Nat

variable {R M : Type}

def argmax (above : R → R → Bool) (p : Nat → R) (n : Nat) : Nat :=
  (List.range' 1 (n - 1)).foldl (fun best i => if above (p i) (p best) then i else best) 0

/-- Where `main` is: before the loop, at its head for a clip, in the call that
posts ahead, in `memcpy`, in `RunNetwork`, in the comparison, before the score, in
the call that ends a pass. -/
inductive Place where
  | prime
  | head (n : Nat)
  | post (n : Nat)
  | copy (n i : Nat)
  | node (n k : Nat)
  | compare (n i : Nat)
  | score (n : Nat)
  | collect (n : Nat)
  | ended

/-- The variables of `main` and the network's memory. `copied` and `compared` list
the elements that were handed to the network and compared, with clip and index. -/
structure Main (R M : Type) where
  place : Place := .prime
  net : M
  correct : Nat := 0
  agree : Nat := 0
  maxdiff : R
  copied : List (Nat × Nat × R) := []
  compared : List (Nat × Nat × R) := []

/-- A step of `main` outside the calls. `feat n` is `features[n & 1]`. -/
def App.advance (app : App R M) (feat : Nat → Nat → R) (m : Main R M) : Option (Main R M) :=
  match m.place with
  | .head n =>
      if n < app.clips then
        some { m with
          place := if app.pipelined && decide (n + 1 < app.clips) then .post n else .copy n 0 }
      else some { m with place := .ended }
  | .copy n i =>
      if i < app.inputs then
        some { m with
          net := app.setInput m.net i (feat n i)
          copied := m.copied ++ [(n, i, feat n i)]
          place := .copy n (i + 1) }
      else some { m with place := .node n 0 }
  | .node n k =>
      match app.nodes[k]? with
      | none => some { m with place := .compare n 0 }
      | some node =>
          match node.engine with
          | none => some { m with net := node.run m.net, place := .node n (k + 1) }
          | some _ => none
  | .compare n i =>
      if i < app.elems then
        let d := app.distance (feat n i) (app.mfccRef n i)
        some { m with
          maxdiff := if app.above d m.maxdiff then d else m.maxdiff
          compared := m.compared ++ [(n, i, feat n i)]
          place := .compare n (i + 1) }
      else some { m with place := .score n }
  | .score n =>
      let got := argmax app.above (app.outputs m.net) app.classes
      some { m with
        correct := if got = app.labels n then m.correct + 1 else m.correct
        agree := if got = app.reference n then m.agree + 1 else m.agree
        place := if n + 1 < app.clips then .collect n else .head (n + 1) }
  | _ => none

/-- What a job is for: the features of a clip in a half of `features`, or a node's
result in the network's memory. -/
inductive Task (M : Type) where
  | features (clip half : Nat)
  | network (result : M)

def Task.ofFront : Task M → Bool
  | .features _ _ => true
  | .network _ => false

/-- A call of the host runtime: `hes_post`, `hes_offload`, or without a job
`hes_wait`. The task may depend on the network's memory when the job is posted. -/
structure Call (M : Type) where
  on : Engine
  job : Option Job
  task : M → Task M
  waits : Bool
  sits : job = none → waits = true

/-- The features of the clip after clip `n`. -/
def following (n : Nat) : Task M := .features (n + 1) ((n + 1) % 2)

def App.call (app : App R M) : Place → Option (Call M)
  | .prime => some ⟨app.frontEnd, some (app.mfccJob 0 0), fun _ => .features 0 0, true, nofun⟩
  | .post n =>
      some ⟨app.frontEnd, some (app.mfccJob (n + 1) ((n + 1) % 2)), fun _ => following n, false,
        nofun⟩
  | .node _ k =>
      match app.nodes[k]? with
      | none => none
      | some node =>
          match node.engine with
          | none => none
          | some e => some ⟨e, some node.job, fun net => .network (node.run net), true, nofun⟩
  | .collect n =>
      some ⟨app.frontEnd,
        if app.pipelined then none else some (app.mfccJob (n + 1) ((n + 1) % 2)),
        fun _ => following n, true, fun _ => rfl⟩
  | _ => none

/-- Where a call returns to. -/
def Place.back : Place → Place
  | .prime => .head 0
  | .post n => .copy n 0
  | .node n k => .node n (k + 1)
  | .collect n => .head (n + 1)
  | place => place

/-- The steps of a call in a run in which every post is accepted and every wait
comes back with `ok` set. -/
def Call.Permits (call : Call M) (requiresStaging : Bool) (l : Link) : Event → Prop
  | .accept job => ∃ posted rest, call.job = some posted ∧ job = posted.flagged requiresStaging ∧
      l.host = .posting job rest call.waits
  | .wait => call.job = none
  | .result r => r.ok = true
  | .refuse => False
  | .giveUp => False
  | _ => True

def Call.returns (call : Call M) : Event → Bool
  | .ring => !call.waits
  | .result _ => true
  | _ => false

/-! ### The chip -/

/-- `features`, both halves, and the network's memory. -/
structure Store (R M : Type) where
  features : Nat → Nat → R
  net : M

def Task.Within (task : Task M) (before after : Store R M) : Prop :=
  match task with
  | .features _ half =>
      (∀ other, other ≠ half → after.features other = before.features other) ∧
        after.net = before.net
  | .network _ => after.features = before.features

def App.Done (app : App R M) (task : Task M) (store : Store R M) : Prop :=
  match task with
  | .features clip half =>
      ∀ i < app.elems, store.features half i = app.mfcc (app.audio clip) i
  | .network result => store.net = result

/-- What a step of a control core does to memory. While a job runs, its output may
hold anything; a job that publishes its end with neither an error nor a trap leaves
its result there. -/
def App.Effect (app : App R M) (task : Option (Task M)) (l : Link) (before after : Store R M) :
    Event → Prop
  | .coreAct _ => ∀ one, task = some one → one.Within before after
  | .finish => ∀ one, task = some one → one.Within before after ∧
      (l.words .error = 0 → l.words .trapCause = 0 → app.Done one after)
  | _ => after = before

/-- `tasks` lists what each engine's published jobs are for, by job number. -/
structure Chip (R M : Type) where
  board : Board
  tasks : Engine → List (Task M)
  features : Nat → Nat → R
  main : Main R M

def Chip.store (s : Chip R M) : Store R M := ⟨s.features, s.main.net⟩

def listed (tasks : List (Task M)) (task : Task M) : Event → List (Task M)
  | .publish => tasks ++ [task]
  | _ => tasks

def Chip.called (s : Chip R M) (call : Call M) (e : Event) (l : Link) : Chip R M :=
  { s with
    board := Function.update s.board call.on ((s.board call.on).next e l)
    tasks := Function.update s.tasks call.on
      (listed (s.tasks call.on) (call.task s.main.net) e)
    main := if call.returns e then { s.main with place := s.main.place.back } else s.main }

def Chip.moved (s : Chip R M) (on : Engine) (e : Event) (l : Link) (after : Store R M) :
    Chip R M :=
  { s with
    board := Function.update s.board on ((s.board on).next e l)
    features := after.features
    main := { s.main with net := after.net } }

/-- A step of `main`, of the host inside a call, or of a control core. -/
inductive Step (app : App R M) (c : Engine → Cluster) : Chip R M → Chip R M → Prop
  | main (s : Chip R M) (m : Main R M)
      (taken : app.advance (fun n => s.features (n % 2)) s.main = some m) :
      Step app c s { s with main := m }
  | call (s : Chip R M) (call : Call M) (e : Event) (l : Link)
      (here : app.call s.main.place = some call)
      (taken : HostStep (c call.on).requiresStaging (s.board call.on).link e l)
      (permitted : call.Permits (c call.on).requiresStaging l e) :
      Step app c s (s.called call e l)
  | core (s : Chip R M) (on : Engine) (e : Event) (l : Link) (after : Store R M)
      (taken : CoreStep (c on) (s.board on).link e l)
      (effect : app.Effect ((s.tasks on)[(s.board on).past.current]?) l s.store after e) :
      Step app c s (s.moved on e l after)
  | stir (s : Chip R M) (on : Engine) (here : (s.board on).link.control = .asleep) :
      Step app c s
        (s.moved on .wake { (s.board on).link with control := .waking } s.store)

/-- The clusters have signed in and `main` is before its first call. -/
structure Started (s : Chip R M) (net : M) (zero : R) : Prop where
  booted : Booted s.board
  tasks : ∀ on, s.tasks on = []
  main : s.main = { net := net, maxdiff := zero }

/-- The states of the runs in which every post and every wait succeeds. -/
inductive Reachable (app : App R M) (c : Engine → Cluster) (net : M) (zero : R) :
    Chip R M → Prop
  | start (s : Chip R M) (started : Started s net zero) : Reachable app c net zero s
  | step (s s' : Chip R M) (before : Reachable app c net zero s) (taken : Step app c s s') :
      Reachable app c net zero s'

/-! ### The serial loop without the clusters -/

/-- The serial loop in which each call does its work at once and the features of a
clip are there when they are read. -/
def App.ideal (app : App R M) (m : Main R M) : Option (Main R M) :=
  match app.call m.place with
  | some call =>
      match call.task m.net with
      | .features _ _ => some { m with place := m.place.back }
      | .network result => some { m with net := result, place := m.place.back }
  | none => { app with pipelined := false }.advance (fun n => app.mfcc (app.audio n)) m

def Main.serial (m : Main R M) : Main R M :=
  match m.place with
  | .post n => { m with place := .copy n 0 }
  | _ => m

def App.Follows (app : App R M) (m m' : Main R M) : Prop := app.ideal m = some m'

theorem ideal_pipelined (app : App R M) (pipelined : Bool) (m : Main R M) :
    App.ideal { app with pipelined := pipelined } m = app.ideal m := by
  cases here : m.place <;> simp only [App.ideal, App.call, App.advance, here]

theorem ideal_ends {app : App R M} {m a b : Main R M} (first : ReflTransGen app.Follows m a)
    (second : ReflTransGen app.Follows m b) (endA : a.place = .ended) (endB : b.place = .ended) :
    a = b := by
  -- The loop is deterministic, so one of the runs goes on from the other, and ended runs do not.
  have stops : ∀ x y : Main R M, x.place = .ended → ReflTransGen app.Follows x y → y = x := by
    intro x y ended run
    induction run with
    | refl => rfl
    | tail _ last ih =>
        subst ih
        simp [App.Follows, App.ideal, App.call, App.advance, ended] at last
  have unique : Relator.RightUnique app.Follows := by
    intro x y z one other
    exact Option.some.inj (one.symm.trans other)
  rcases ReflTransGen.total_of_right_unique unique first second with run | run
  · exact (stops _ _ endA run).symm
  · exact stops _ _ endB run

/-! ### What the serial loop reads -/

/-- The first `i` features of clip `n`. -/
def App.row (app : App R M) (n i : Nat) : List (Nat × Nat × R) :=
  (List.range i).map fun j => (n, j, app.mfcc (app.audio n) j)

/-- The first `limit` features of the clips before clip `n`. -/
def App.rows (app : App R M) (limit n : Nat) : List (Nat × Nat × R) :=
  (List.range n).flatMap fun k => app.row k limit

theorem row_succ (app : App R M) (n i : Nat) :
    app.row n (i + 1) = app.row n i ++ [(n, i, app.mfcc (app.audio n) i)] := by
  simp [App.row, List.range_succ]

theorem rows_succ (app : App R M) (limit n : Nat) :
    app.rows limit (n + 1) = app.rows limit n ++ app.row n limit := by
  simp [App.rows, List.range_succ]

theorem row_value (app : App R M) (n i : Nat) :
    ∀ x ∈ app.row n i, x.2.2 = app.mfcc (app.audio x.1) x.2.1 := by
  intro x member
  obtain ⟨j, _, rfl⟩ := List.mem_map.mp member
  rfl

theorem rows_value (app : App R M) (limit n : Nat) :
    ∀ x ∈ app.rows limit n, x.2.2 = app.mfcc (app.audio x.1) x.2.1 := by
  intro x member
  obtain ⟨k, _, inside⟩ := List.mem_flatMap.mp member
  exact row_value app k limit x inside

/-- The clips `main` can be at. -/
def App.Sane (app : App R M) : Place → Prop
  | .head n => n ≤ app.clips
  | .post n => app.pipelined = true ∧ n + 1 < app.clips
  | .collect n => n + 1 < app.clips
  | .copy n _ | .node n _ | .compare n _ | .score n => n < app.clips
  | _ => True

def App.copies (app : App R M) : Place → Nat × Nat
  | .prime => (0, 0)
  | .head n | .post n => (n, 0)
  | .copy n i => (n, i)
  | .node n _ | .compare n _ | .score n | .collect n => (n + 1, 0)
  | .ended => (app.clips, 0)

def App.compares (app : App R M) : Place → Nat × Nat
  | .prime => (0, 0)
  | .head n | .post n | .copy n _ | .node n _ => (n, 0)
  | .compare n i => (n, i)
  | .score n | .collect n => (n + 1, 0)
  | .ended => (app.clips, 0)

structure Logged (app : App R M) (m : Main R M) : Prop where
  copied : m.copied = app.rows app.inputs (app.copies m.place).1 ++
    app.row (app.copies m.place).1 (app.copies m.place).2
  compared : m.compared = app.rows app.elems (app.compares m.place).1 ++
    app.row (app.compares m.place).1 (app.compares m.place).2
  copies : (app.copies m.place).2 ≤ app.inputs
  compares : (app.compares m.place).2 ≤ app.elems
  sane : app.Sane m.place

theorem follows_logged {app : App R M} {m m' : Main R M} (step : app.Follows m m')
    (logged : Logged app m) : Logged app m' := by
  obtain ⟨copied, compared, copies, compares, sane⟩ := logged
  cases here : m.place with
  | prime =>
      simp only [App.Follows, App.ideal, App.call, here, Place.back, Option.some.injEq] at step
      subst step
      simp only [here, App.copies, App.compares] at copied compared
      exact ⟨copied, compared, Nat.zero_le _, Nat.zero_le _, Nat.zero_le _⟩
  | head n =>
      simp only [here, App.copies, App.compares, App.Sane] at copied compared sane
      simp only [App.Follows, App.ideal, App.call, App.advance, here, Bool.false_and,
        Bool.false_eq_true, if_false] at step
      by_cases more : n < app.clips
      · rw [if_pos more] at step
        cases step
        exact ⟨copied, compared, Nat.zero_le _, Nat.zero_le _, more⟩
      · rw [if_neg more] at step
        cases step
        -- The loop stops at the number of clips exactly.
        have last : n = app.clips := Nat.le_antisymm sane (Nat.le_of_not_lt more)
        subst last
        exact ⟨copied, compared, Nat.zero_le _, Nat.zero_le _, trivial⟩
  | post n =>
      simp only [here, App.Sane] at sane
      simp only [App.Follows, App.ideal, App.call, following, here, Place.back,
        Option.some.injEq] at step
      subst step
      simp only [here, App.copies, App.compares] at copied compared
      exact ⟨copied, compared, Nat.zero_le _, Nat.zero_le _, Nat.lt_of_succ_lt sane.2⟩
  | copy n i =>
      simp only [here, App.copies, App.compares, App.Sane] at copied compared copies sane
      simp only [App.Follows, App.ideal, App.call, App.advance, here] at step
      by_cases more : i < app.inputs
      · rw [if_pos more] at step
        cases step
        refine ⟨?_, compared, more, Nat.zero_le _, sane⟩
        simp only [App.copies, copied, row_succ, List.append_assoc]
      · rw [if_neg more] at step
        cases step
        have whole : i = app.inputs := Nat.le_antisymm copies (Nat.le_of_not_lt more)
        refine ⟨?_, compared, Nat.zero_le _, Nat.zero_le _, sane⟩
        simp only [App.copies, copied, whole, rows_succ]
        exact (List.append_nil _).symm
  | node n k =>
      simp only [here, App.copies, App.compares, App.Sane] at copied compared sane
      simp only [App.Follows, App.ideal, App.call, App.advance, here] at step
      cases entry : app.nodes[k]? with
      | none =>
          simp only [entry, Option.some.injEq] at step
          subst step
          exact ⟨copied, compared, Nat.zero_le _, Nat.zero_le _, sane⟩
      | some node =>
          cases engine : node.engine <;>
            simp only [entry, engine, Option.some.injEq] at step <;> subst step
          · exact ⟨copied, compared, Nat.zero_le _, Nat.zero_le _, sane⟩
          · exact ⟨copied, compared, Nat.zero_le _, Nat.zero_le _, sane⟩
  | compare n i =>
      simp only [here, App.copies, App.compares, App.Sane] at copied compared compares sane
      simp only [App.Follows, App.ideal, App.call, App.advance, here] at step
      by_cases more : i < app.elems
      · rw [if_pos more] at step
        cases step
        refine ⟨copied, ?_, Nat.zero_le _, more, sane⟩
        simp only [App.compares, compared, row_succ, List.append_assoc]
      · rw [if_neg more] at step
        cases step
        have whole : i = app.elems := Nat.le_antisymm compares (Nat.le_of_not_lt more)
        refine ⟨copied, ?_, Nat.zero_le _, Nat.zero_le _, sane⟩
        simp only [App.compares, compared, whole, rows_succ]
        exact (List.append_nil _).symm
  | score n =>
      simp only [here, App.copies, App.compares, App.Sane] at copied compared sane
      simp only [App.Follows, App.ideal, App.call, App.advance, here, Option.some.injEq] at step
      subst step
      by_cases more : n + 1 < app.clips
      · refine ⟨?_, ?_, ?_, ?_, ?_⟩ <;> simp only [more, if_true]
        · exact copied
        · exact compared
        · exact Nat.zero_le _
        · exact Nat.zero_le _
        · exact more
      · refine ⟨?_, ?_, ?_, ?_, ?_⟩ <;> simp only [more, if_false]
        · exact copied
        · exact compared
        · exact Nat.zero_le _
        · exact Nat.zero_le _
        · exact sane
  | collect n =>
      simp only [here, App.copies, App.compares, App.Sane] at copied compared sane
      simp only [App.Follows, App.ideal, App.call, following, here, Place.back,
        Option.some.injEq] at step
      subst step
      exact ⟨copied, compared, Nat.zero_le _, Nat.zero_le _, Nat.le_of_lt sane⟩
  | ended => simp [App.Follows, App.ideal, App.call, App.advance, here] at step

end HeteroSim.KeywordLoop
