import HeteroSim.KeywordCalls

/-!
The chip follows the serial loop without the clusters, step by step, in both builds.
-/

namespace HeteroSim.KeywordLoop

open SharedWords ClusterJob Mailbox DescriptorIntegrity ExactlyOnce
open Relation (ReflTransGen)

variable {R M : Type}

/-! ### Steps of the chip -/

section Steps

variable {app : App R M} {c : Engine → Cluster} {m₀ m : Main R M} {s : Chip R M}

theorem Sound.accounted (sound : Sound app c m₀ m s) (on : Engine) :
    Accounted (c on) (s.board on) := reachable_accounted sound.reached on

theorem Sound.place (sound : Sound app c m₀ m s) : s.main.place = m.place := by
  rw [sound.same]

theorem Sound.task_kind (sound : Sound app c m₀ m s) {on : Engine} {task : Task M}
    (last : (s.tasks on).getLast? = some task) : task.ofFront = decide (on = app.frontEnd) :=
  sound.kinds on task (List.mem_of_getLast? last)

theorem left_settled {place : Place} {on : Engine} {net : M} {l : Link} {last : Option (Task M)}
    (elsewhere : on ≠ app.frontEnd) (stands : Stands net (app.left place on) l last) :
    ¬ Owing l := by
  rw [App.left, if_neg elsewhere] at stands
  exact free_settled stands

theorem done_kept {task : Task M} {before after : Store R M}
    (done : app.Done task before) (front : task.ofFront = true)
    (same : after.features = before.features) : app.Done task after := by
  cases task with
  | features clip half => rwa [App.Done, same]
  | network result => cases front

theorem sound_main (apart : app.Apart) (sound : Sound app c m₀ m s) {m' : Main R M}
    (taken : app.advance (fun n => s.features (n % 2)) s.main = some m') :
    Sound app c m₀ m' { s with main := m' } := by
  have outside : app.call m.place = none := by
    rw [← sound.place]
    exact advance_local taken
  have left : ∀ on, Stands m.net (app.left m.place on) (s.board on).link
      (s.tasks on).getLast? := by
    intro on
    have stands := sound.stands on
    rwa [App.standing, outside] at stands
  have settled : ∀ on, on ≠ app.frontEnd → ¬ Owing (s.board on).link :=
    fun on elsewhere => left_settled elsewhere (left on)
  -- Outside a call nothing is owed, so the network's memory is the serial loop's.
  have same : s.main = m := by
    rw [sound.same, sound.settled settled]
  rw [same] at taken
  obtain ⟨beside, sane, uses, serial⟩ := advance_serial taken sound.sane sound.ready
  refine ⟨sound.reached, sound.numbered, sound.kinds, fun on => ?_, fun on => ?_, rfl,
    fun _ => rfl, fun n used => sound.ready n (uses n used), sane, sound.serial.tail serial⟩
  · refine left_standing apart ?_
    exact left_same _ (by rw [App.left, App.left, beside]) (left on)
  · by_cases mine : on = app.frontEnd
    · intro owing quiet error trap task last
      have front := sound.task_kind last
      rw [decide_eq_true mine] at front
      exact done_kept (sound.delivered on owing quiet error trap task last) front rfl
    · exact fun owing => absurd owing (settled on mine)

/-! ### A step away from the host -/

section Moves

variable (sound : Sound app c m₀ m s) {on : Engine} {after : Store R M}
  (writes : after = s.store ∨ Owing (s.board on).link ∧ ∃ task,
    (s.tasks on).getLast? = some task ∧ task.Within s.store after)

include sound writes

theorem moved_features (back : on ≠ app.frontEnd) : after.features = s.features := by
  rcases writes with same | ⟨_, task, last, within⟩
  · rw [same]
    rfl
  · have kind := sound.task_kind last
    rw [decide_eq_false back] at kind
    cases task with
    | features clip half => cases kind
    | network result => exact within

theorem moved_net (front : on = app.frontEnd) : after.net = s.main.net := by
  rcases writes with same | ⟨_, task, last, within⟩
  · rw [same]
    rfl
  · have kind := sound.task_kind last
    rw [decide_eq_true front] at kind
    cases task with
    | features clip half => exact within.2
    | network result => cases kind

theorem moved_done {other : Engine} (elsewhere : other ≠ on) {task : Task M}
    (last : (s.tasks other).getLast? = some task) (done : app.Done task s.store) :
    app.Done task after := by
  have kind := sound.task_kind last
  -- one of the two engines is the front-end's
  by_cases front : on = app.frontEnd
  · have back : other ≠ app.frontEnd := fun same => elsewhere (same.trans front.symm)
    rw [decide_eq_false back] at kind
    cases task with
    | features clip half => cases kind
    | network result => exact (moved_net sound writes front).trans done
  · have front' : other = app.frontEnd := by
      revert elsewhere front
      cases on <;> cases other <;> cases app.frontEnd <;> simp
    rw [decide_eq_true front'] at kind
    exact done_kept done kind (moved_features sound writes front)

theorem moved_ready (apart : app.Apart) {n : Nat} (used : app.uses m.place = some n) :
    ∀ i < app.elems, after.features (n % 2) i = app.mfcc (app.audio n) i := by
  intro i below
  rw [← sound.ready n used i below]
  by_cases front : on = app.frontEnd
  · rcases writes with same | ⟨posted, task, last, within⟩
    · rw [same]
      rfl
    · have stands := sound.stands on
      rw [front] at stands last posted
      rw [uses_last apart used stands posted] at last
      cases last
      -- The job in flight is for the next clip, which has the other half.
      have halves : n % 2 ≠ (n + 1) % 2 := by omega
      exact congrFun (within.1 _ halves) i
  · rw [moved_features sound writes front]

end Moves

theorem moved_apart (s : Chip R M) (on : Engine) (e : Event) (l : Link) (after : Store R M)
    {other : Engine} (elsewhere : other ≠ on) : (s.moved on e l after).board other =
    s.board other :=
  Function.update_of_ne elsewhere _ _

theorem moved_here (s : Chip R M) (on : Engine) (e : Event) (l : Link) (after : Store R M) :
    (s.moved on e l after).board on = (s.board on).next e l :=
  Function.update_self ..

theorem sound_moved (apart : app.Apart) (sound : Sound app c m₀ m s) (on : Engine) (e : Event)
    (l : Link) (after : Store R M)
    (reached : ExactlyOnce.Reachable c (Function.update s.board on ((s.board on).next e l)))
    (host : l.host = (s.board on).link.host) (flight : l.inFlight = (s.board on).link.inFlight)
    (descriptors : ((s.board on).next e l).past.descriptors = (s.board on).past.descriptors)
    (delivered : Delivered app l ((s.board on).next e l).past (s.tasks on) after)
    (writes : after = s.store ∨ Owing (s.board on).link ∧ ∃ task,
      (s.tasks on).getLast? = some task ∧ task.Within s.store after) :
    Sound app c m₀ m (s.moved on e l after) := by
  have kept : ∀ other, ((s.moved on e l after).board other).link.host = (s.board other).link.host ∧
      ((s.moved on e l after).board other).link.inFlight = (s.board other).link.inFlight := by
    intro other
    by_cases mine : other = on
    · subst mine
      rw [moved_here]
      exact ⟨host, flight⟩
    · rw [moved_apart s on e l after mine]
      exact ⟨rfl, rfl⟩
  have owing : ∀ other, Owing ((s.moved on e l after).board other).link ↔
      Owing (s.board other).link := fun other => owing_same (kept other).1 (kept other).2
  refine ⟨reached, fun other => ?_, sound.kinds, fun other => ?_, fun other => ?_, ?_, ?_,
    fun n used => moved_ready sound writes apart used, sound.sane, sound.serial⟩
  · by_cases mine : other = on
    · subst mine
      rw [moved_here, descriptors]
      exact sound.numbered _
    · rw [moved_apart s on e l after mine]
      exact sound.numbered other
  · exact stands_same (kept other).1 (kept other).2 (sound.stands other)
  · by_cases mine : other = on
    · subst mine
      rw [moved_here]
      exact delivered
    · rw [moved_apart s on e l after mine]
      intro owing quiet error trap task last
      exact moved_done sound writes mine last
        (sound.delivered other owing quiet error trap task last)
  · exact congrArg (fun main : Main R M => { main with net := after.net }) sound.same
  · intro settled
    have before : s.main.net = m.net :=
      sound.settled fun other back => (owing other).not.mp (settled other back)
    refine Eq.trans ?_ before
    by_cases front : on = app.frontEnd
    · exact moved_net sound writes front
    · -- an engine away from the front-end that writes owes its job
      rcases writes with same | ⟨posted, _⟩
      · rw [same]
        rfl
      · exact absurd ((owing on).mpr posted) (settled on front)

theorem sound_core (apart : app.Apart) (sound : Sound app c m₀ m s) (on : Engine) (e : Event)
    (l : Link) (after : Store R M) (taken : CoreStep (c on) (s.board on).link e l)
    (effect : app.Effect ((s.tasks on)[(s.board on).past.current]?) l s.store after e) :
    Sound app c m₀ m (s.moved on e l after) := by
  have patient : e ≠ .giveUp := by
    rintro rfl
    cases taken
  have accounted := sound.accounted on
  obtain ⟨host, flight, _, _, descriptors, _⟩ := core_leaves (h := (s.board on).past) taken
  exact sound_moved apart sound on e l after
    (sound.reached.step _ _ _ patient (.core _ on e l taken)) host flight descriptors
    (core_delivered taken accounted (sound.numbered on) effect (sound.delivered on))
    (core_store taken accounted (sound.numbered on) effect)

theorem sound_stir (apart : app.Apart) (sound : Sound app c m₀ m s) (on : Engine)
    (here : (s.board on).link.control = .asleep) :
    Sound app c m₀ m
      (s.moved on .wake { (s.board on).link with control := .waking } s.store) := by
  refine sound_moved apart sound on _ _ s.store
    (sound.reached.step _ _ .wake nofun (.stir _ on here)) rfl rfl rfl ?_ (Or.inl rfl)
  intro owing quiet error trap
  obtain ⟨seq, doneSeq, _, finished⟩ := quiet
  exact sound.delivered on owing ⟨seq, doneSeq, by rw [here]; trivial, finished⟩ error trap

theorem after_place (call : Call M) : (App.after m call).place = m.place.back := by
  unfold App.after
  split <;> rfl

theorem called_store (call : Call M) (e : Event) (l : Link) :
    (s.called call e l).store = s.store := by
  simp only [Chip.store, Chip.called]
  split <;> rfl

/-! ### A step of a call -/

theorem called_apart (s : Chip R M) (call : Call M) (e : Event) (l : Link) {on : Engine}
    (other : on ≠ call.on) :
    (s.called call e l).board on = s.board on ∧ (s.called call e l).tasks on = s.tasks on :=
  ⟨Function.update_of_ne other _ _, Function.update_of_ne other _ _⟩

theorem called_here (s : Chip R M) (call : Call M) (e : Event) (l : Link) :
    (s.called call e l).board call.on = (s.board call.on).next e l :=
  Function.update_self ..

section Calls

variable (sound : Sound app c m₀ m s) {call : Call M} {e : Event} {l : Link}
  (known : app.call m.place = some call)

include sound known

theorem calling_stands :
    Stands m.net (.calling call) (s.board call.on).link (s.tasks call.on).getLast? := by
  have stands := sound.stands call.on
  simpa only [App.standing, known, if_true] using stands

theorem beside_stands {on : Engine} (other : on ≠ call.on) :
    Stands m.net (app.left m.place on) (s.board on).link (s.tasks on).getLast? := by
  have stands := sound.stands on
  simpa only [App.standing, known, if_neg other.symm] using stands

theorem call_settled (own : call.on ≠ app.frontEnd → ¬ Owing (s.board call.on).link) :
    s.main.net = m.net := by
  refine sound.settled fun on back => ?_
  by_cases here : on = call.on
  · subst here
    exact own back
  · exact left_settled back (beside_stands sound known here)

variable (taken : HostStep (c call.on).requiresStaging (s.board call.on).link e l)

include taken

theorem called_tasks :
    (s.called call e l).tasks call.on = listed (s.tasks call.on) (call.task m.net) e := by
  have published : e = .publish → call.task s.main.net = call.task m.net := by
    rintro rfl
    have mine := calling_stands sound known
    cases taken with
    | publish job waits here =>
        rw [call_settled sound known fun _ => ?_]
        simp only [Stands, here] at mine
        simp [Owing, here, mine.2.2]
  refine (Function.update_self ..).trans ?_
  cases e <;> first | rfl | rw [published rfl]

theorem called_numbered (on : Engine) :
    ((s.called call e l).tasks on).length =
      ((s.called call e l).board on).past.descriptors.length := by
  by_cases other : on = call.on
  · subst other
    rw [called_tasks sound known taken, called_here]
    cases e
    case publish => simp [listed, Site.next, History.record, sound.numbered]
    all_goals exact sound.numbered _
  · obtain ⟨board, tasks⟩ := called_apart s call e l other
    rw [board, tasks]
    exact sound.numbered on

theorem called_kinds (apart : app.Apart) (on : Engine) :
    ∀ task ∈ (s.called call e l).tasks on, task.ofFront = decide (on = app.frontEnd) := by
  intro task member
  by_cases other : on = call.on
  · subst other
    rw [called_tasks sound known taken] at member
    cases e
    case publish =>
      rcases List.mem_append.mp member with old | new
      · exact sound.kinds _ task old
      · cases List.mem_singleton.mp new
        exact call_kind apart known m.net
    all_goals exact sound.kinds _ task member
  · rw [(called_apart s call e l other).2] at member
    exact sound.kinds on task member

theorem called_delivered (on : Engine) :
    Delivered app ((s.called call e l).board on).link ((s.called call e l).board on).past
      ((s.called call e l).tasks on) (s.called call e l).store := by
  rw [called_store]
  by_cases other : on = call.on
  · subst other
    rw [called_here, called_tasks sound known taken]
    exact host_delivered _ taken (sound.accounted _).intact (sound.delivered _)
  · obtain ⟨board, tasks⟩ := called_apart s call e l other
    rw [board, tasks]
    exact sound.delivered on

variable (permitted : call.Permits (c call.on).requiresStaging l e)

include permitted

theorem called_stands (apart : app.Apart) (on : Engine) :
    Stands (if call.returns e then App.after m call else m).net
      (app.standing (if call.returns e then App.after m call else m).place on)
      ((s.called call e l).board on).link ((s.called call e l).tasks on).getLast? := by
  have leaves := call_leaves apart known sound.sane m.net on
  by_cases other : on = call.on
  · subst other
    have stands := call_stands taken permitted (calling_stands sound known)
    rw [called_here, called_tasks sound known taken]
    cases returns : call.returns e
    · rw [returns] at stands
      simpa [App.standing, known, Site.next] using stands
    · rw [returns] at stands
      simp only [if_true] at stands leaves ⊢
      rw [after_place]
      refine left_standing apart ?_
      rw [leaves]
      cases waits : call.waits <;> rw [waits] at stands <;> exact stands
  · obtain ⟨board, tasks⟩ := called_apart s call e l other
    rw [board, tasks]
    cases returns : call.returns e
    · exact sound.stands on
    · simp only [if_true]
      rw [after_place]
      refine left_standing apart ?_
      exact left_same _ (leaves.trans (if_neg other)) (beside_stands sound known other)

theorem returned_done (returns : call.returns e = true) (waits : call.waits = true) :
    app.Done (call.task m.net) s.store := by
  have stands := calling_stands sound known
  cases taken with
  | ring again here => simp [Call.returns, waits] at returns
  | nothing idle free => cases permitted
  | answer r here =>
      refine answered_done (sound.accounted _) here permitted (sound.delivered _) _ ?_
      exact calling_last stands (Or.inr (by rw [here]; trivial))
  | _ => cases returns

theorem called_settled (apart : app.Apart)
    (free : ∀ on, on ≠ app.frontEnd → ¬ Owing ((s.called call e l).board on).link) :
    (s.called call e l).main.net = (if call.returns e then App.after m call else m).net := by
  cases returns : call.returns e
  · have net : (s.called call e l).main.net = s.main.net := by simp [Chip.called, returns]
    rw [net]
    refine call_settled sound known fun back owing => free call.on back ?_
    rw [called_here]
    exact owing_kept taken permitted returns owing
  · have net : (s.called call e l).main.net = s.main.net := by simp [Chip.called, returns]
    rw [net]
    simp only [if_true]
    have kind := call_kind apart known m.net
    cases task : call.task m.net with
    | features clip half =>
        rw [task] at kind
        have front := of_decide_eq_true kind.symm
        simp only [App.after, task]
        exact call_settled sound known fun back => absurd front back
    | network result =>
        -- a network task is away from the front-end, so it is waited for
        have waits : call.waits = true := by
          rw [task] at kind
          have back := of_decide_eq_false kind.symm
          exact call_waits known back
        have whole := returned_done sound known taken permitted returns waits
        rw [task] at whole
        simp only [App.after, task]
        exact whole

theorem called_ready {n : Nat}
    (used : app.uses (if call.returns e then App.after m call else m).place = some n) :
    ∀ i < app.elems,
      (s.called call e l).features (n % 2) i = app.mfcc (app.audio n) i := by
  intro i below
  have features : (s.called call e l).features = s.features := rfl
  rw [features]
  cases returns : call.returns e
  · rw [returns] at used
    exact sound.ready n used i below
  · rw [returns] at used
    simp only [if_true] at used
    rw [after_place] at used
    rcases back_uses known m.net used with same | ⟨waits, task⟩
    · exact sound.ready n same i below
    · have whole := returned_done sound known taken permitted returns waits
      rw [task] at whole
      exact whole i below

end Calls

theorem called_same (sound : Sound app c m₀ m s) (call : Call M) (e : Event) (l : Link) :
    (s.called call e l).main =
      { (if call.returns e then App.after m call else m) with
        net := (s.called call e l).main.net } := by
  cases returns : call.returns e
  · simpa [Chip.called, returns] using sound.same
  · have same := congrArg (fun main : Main R M => { main with place := main.place.back })
      sound.same
    simp only [Chip.called, returns, if_true]
    refine Eq.trans same ?_
    unfold App.after
    split <;> rfl

theorem sound_call (apart : app.Apart) (sound : Sound app c m₀ m s) (call : Call M) (e : Event)
    (l : Link) (known : app.call m.place = some call)
    (taken : HostStep (c call.on).requiresStaging (s.board call.on).link e l)
    (permitted : call.Permits (c call.on).requiresStaging l e) :
    Sound app c m₀ (if call.returns e then App.after m call else m) (s.called call e l) where
  reached := by
    have patient : e ≠ .giveUp := by
      rintro rfl
      exact permitted
    exact sound.reached.step _ _ e patient (.host _ call.on e l
      (fun on other => left_idle (beside_stands sound known other)) taken)
  numbered := called_numbered sound known taken
  kinds := called_kinds sound known taken apart
  stands := called_stands sound known taken permitted apart
  delivered := called_delivered sound known taken
  same := called_same sound call e l
  settled := called_settled sound known taken permitted apart
  ready n used := called_ready sound known taken permitted used
  sane := by
    cases returns : call.returns e
    · exact sound.sane
    · exact (call_serial known sound.sane).1
  serial := by
    cases returns : call.returns e
    · exact sound.serial
    · exact sound.serial.trans (call_serial known sound.sane).2

/-- `main` before its first call. -/
def begin (net : M) (zero : R) : Main R M := { net := net, maxdiff := zero }

theorem started_sound {net : M} {zero : R} (started : Started s net zero) :
    Sound app c (begin net zero) (begin net zero) s := by
  have booted : ∀ on, ∃ l, Mailbox.Started l ∧ s.board on = { link := l } := by
    intro on
    obtain ⟨l, ready, _, same⟩ := started.booted on
    exact ⟨l, ready, same⟩
  refine ⟨.start _ started.booted, fun on => ?_, fun on task member => ?_, fun on => ?_,
    fun on => ?_, ?_, fun _ => ?_, nofun, trivial, .refl⟩
  · obtain ⟨l, _, same⟩ := booted on
    rw [started.tasks, same]
    rfl
  · rw [started.tasks] at member
    cases member
  · obtain ⟨l, ready, same⟩ := booted on
    rw [same]
    by_cases front : app.frontEnd = on
    · simp [begin, App.standing, App.call, front, Stands, ready.host, ready.inFlight]
    · simp [begin, App.standing, App.call, front, App.left, App.beside, Stands, ready.host,
        ready.inFlight]
  · intro owing quiet error trap task last
    rw [started.tasks] at last
    cases last
  · rw [started.main]
    rfl
  · rw [started.main]
    rfl

theorem reachable_sound (apart : app.Apart) {net : M} {zero : R}
    (reached : Reachable app c net zero s) : ∃ m, Sound app c (begin net zero) m s := by
  induction reached with
  | start s started => exact ⟨_, started_sound started⟩
  | step s s' before taken ih =>
      obtain ⟨m, sound⟩ := ih
      cases taken with
      | main m' taken => exact ⟨m', sound_main apart sound taken⟩
      | call call e l here taken permitted =>
          rw [sound.place] at here
          exact ⟨_, sound_call apart sound call e l here taken permitted⟩
      | core on e l after taken effect =>
          exact ⟨m, sound_core apart sound on e l after taken effect⟩
      | stir on here => exact ⟨m, sound_stir apart sound on here⟩

theorem follows_all {m' : Main R M} (run : ReflTransGen app.Follows m m')
    (logged : Logged app m) : Logged app m' := by
  induction run with
  | refl => exact logged
  | tail _ last ih => exact follows_logged last ih

theorem sound_logged {net : M} {zero : R} (sound : Sound app c (begin net zero) m s) :
    s.main.copied = app.rows app.inputs (app.copies m.place).1 ++
        app.row (app.copies m.place).1 (app.copies m.place).2 ∧
      s.main.compared = app.rows app.elems (app.compares m.place).1 ++
        app.row (app.compares m.place).1 (app.compares m.place).2 := by
  have logged : Logged app m.serial :=
    follows_all sound.serial ⟨rfl, rfl, Nat.zero_le _, Nat.zero_le _, trivial⟩
  rw [sound.same]
  -- Posting ahead reads nothing, so the lists are those of the place it returns to.
  cases here : m.place with
  | post n =>
      have copied := logged.copied
      have compared := logged.compared
      simp only [Main.serial, here] at copied compared
      exact ⟨copied, compared⟩
  | _ =>
      have still : m.serial = m := by simp only [Main.serial, here]
      rw [still] at logged
      rw [← here]
      exact ⟨logged.copied, logged.compared⟩

/-- A front-end job in flight, posted and not collected or not done, that fills this
half of `features`. -/
def Chip.Filling (app : App R M) (s : Chip R M) (half : Nat) : Prop :=
  ∃ clip, (s.tasks app.frontEnd).getLast? = some (.features clip half) ∧
    ((s.board app.frontEnd).link.inFlight = true ∨
      ∃ k < (s.tasks app.frontEnd).length, k ∉ (s.board app.frontEnd).past.finished)

theorem reads_apart (apart : app.Apart) (sound : Sound app c m₀ m s) {n half : Nat}
    (reads : app.reads s.main.place = some n) (filling : s.Filling app half) : half ≠ n % 2 := by
  rw [sound.place] at reads
  have uses : app.uses m.place = some n := by
    cases here : m.place <;> simp only [App.reads, here, reduceCtorEq] at reads
    case copy k i =>
      split at reads
      · exact reads
      · cases reads
    case compare k i =>
      split at reads
      · exact reads
      · cases reads
  obtain ⟨clip, last, flight⟩ := filling
  have owing : Owing (s.board app.frontEnd).link := by
    rcases flight with flight | ⟨k, below, undone⟩
    · exact Or.inl flight
    · have accounted := sound.accounted app.frontEnd
      refine (quiet_or_owing accounted.intact accounted.patient).resolve_left fun quiet => ?_
      rw [sound.numbered] at below
      exact undone (quiet.2.2.2 k below)
  rw [uses_last apart uses (sound.stands app.frontEnd) owing] at last
  cases last
  omega

theorem reads_beside (sound : Sound app c m₀ m s) (ahead : app.pipelined = true) {n : Nat}
    (reads : app.reads s.main.place = some n) (more : n + 1 < app.clips) :
    s.Filling app ((n + 1) % 2) := by
  have outside : app.call m.place = none ∧ app.beside m.place = some n := by
    rw [sound.place] at reads
    cases here : m.place <;> simp only [App.reads, here, reduceCtorEq] at reads
    case copy k i =>
      split at reads <;> cases reads
      simp [App.call, App.beside, ahead, more]
    case compare k i =>
      split at reads <;> cases reads
      simp [App.call, App.beside, ahead, more]
  have stands := sound.stands app.frontEnd
  simp only [App.standing, App.left, outside.1, outside.2, if_true, Stands] at stands
  exact ⟨n + 1, stands.2.2, Or.inl stands.2.1⟩

theorem ended_main (sound : Sound app c m₀ m s) (ended : s.main.place = .ended) :
    s.main = m ∧ m.serial = m := by
  rw [sound.place] at ended
  have settled : ∀ on, on ≠ app.frontEnd → ¬ Owing (s.board on).link := by
    intro on elsewhere
    have stands := sound.stands on
    rw [App.standing, ended] at stands
    exact left_settled elsewhere stands
  constructor
  · rw [sound.same, sound.settled settled]
  · simp only [Main.serial, ended]

end Steps

end HeteroSim.KeywordLoop
