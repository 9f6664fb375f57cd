import HeteroSim.BankLaw
import HeteroSim.EngineRuns
import HeteroSim.WriteQueueLaw

/-!
Runs of the engine burst by burst, with the history of its write queue: when
each new write arrived and was accepted, and when the data of each write sent to
the DRAM ended. Writes are sent in the order they were accepted in, so the k-th
data end belongs to the k-th write. `hold` says when a write is accepted: when
it arrives, or when the write `wq_depth` before it has left its slot.
-/

namespace HeteroSim.QueueRuns

open DramParams DramEngine EngineRuns Effect
open WriteQueueLaw (Ends Holds Fits Settled slots)

/-- A new write: when it was presented and when the queue accepted it. -/
structure Write where
  arrive : Int
  accepted : Int

/-- The new writes, and the data ends of those sent, oldest first. -/
structure History where
  writes : List Write := []
  ends : List Int := []

def History.append (h more : History) : History :=
  { writes := h.writes ++ more.writes, ends := h.ends ++ more.ends }

/-! ### The history of one call -/

/-- The data ends of the writes sent between two states, while no slot was freed. -/
def sent (e after : Engine) : List Int := after.leaving.drop e.leaving.length

/-- The data ends of the writes `holdBack` sends. -/
def heldEnds (fuel : Nat) : Nat → Int → Engine → List Int
  | 0, _, _ => []
  | turns + 1, t, e =>
      if ((e.wq.length + e.leaving.length : Nat) : Int) < e.g.p.wqDepth then []
      else
        match makeRoom fuel t e with
        | .error _ _ => []
        | .ok _ roomy =>
            sent e roomy ++
              match roomy.leaving with
              | [] => []
              | dataEnd :: rest => heldEnds fuel turns (max t dataEnd)
                  { roomy with leaving := rest }

def Engine.join (e : Engine) (t : Int) (addr : Nat) : Engine :=
  { e with wq := e.wq ++ [⟨t, addr⟩], trace := .accepted addr :: e.trace }

def enqueueHistory (fuel : Nat) (arrive : Int) (addr : Nat) (e : Engine) : History :=
  let retired := e.retire arrive
  let turns := retired.wq.length + retired.leaving.length
  match holdBack fuel turns arrive retired with
  | .error _ _ => {}
  | .ok t held =>
      match drainHigh fuel t (Engine.join held t addr) with
      | .error _ _ => {}
      | .ok _ after =>
          { writes := [⟨arrive, t⟩]
            ends := heldEnds fuel turns arrive retired ++ sent (Engine.join held t addr) after }

def waits (e : Engine) (addr : Nat) : Bool := e.wq.any fun q => q.addr == addr

def queuedHistory (fuel : Nat) (arrive : Int) (addr : Nat) (w : Bool) (e : Engine) : History :=
  match drainIdle fuel arrive e with
  | .error _ _ => {}
  | .ok _ drained =>
      History.append { ends := sent e drained }
        (if waits drained addr then {} else if w then enqueueHistory fuel arrive addr
          drained else {})

/-! ### Runs -/

/-- Between two accesses, or inside one, before the burst at `a`. -/
inductive Stage where
  | idle (now : Int)
  | serving (now : Int) (last a : Nat) (w : Bool)

def Stage.now : Stage → Int
  | .idle now => now
  | .serving now _ _ _ => now

def Stage.Aligned (g : Config) : Stage → Prop
  | .idle _ => True
  | .serving _ _ a _ => g.burstBytes.toNat ∣ a

/-- When the bursts of an access made at `now` reach the queue. -/
def arrival (p : Params) (now : Int) : Int := now + p.ctrlPs.tdiv 2

def Engine.note (e : Engine) (a : Nat) (w : Bool) : Engine :=
  { e with trace := .presented a w :: e.trace }

/-- A run of accesses, each made at a time `Next` to the one before it, stopped
between two bursts. -/
inductive Runs (p : Params) (Next : Int → Int → Prop) : Engine → History → Stage → Prop where
  | start (e : Engine) (now : Int) (created : create p = .ok e) : Runs p Next e {} (.idle now)
  | arrive (e : Engine) (h : History) (last now : Int) (addr size : Nat) (w : Bool)
      (reached : Runs p Next e h (.idle last)) (next : Next last now) (addressed : addr < word)
      (sized : size < word) :
      Runs p Next { e with st := e.st.request w } h
        (.serving now (lastOf e.g.align addr (if size = 0 then 1 else size))
          (firstOf e.g.align addr) w)
  | burst (e after : Engine) (h : History) (now : Int) (last a : Nat) (w : Bool) (fuel : Nat)
      (answer : Int) (reached : Runs p Next e h (.serving now last a w)) (more : a < last)
      (served : queued fuel (arrival p now) a w (Engine.note e a w) = .ok answer after) :
      Runs p Next after
        (h.append (queuedHistory fuel (arrival p now) a w (Engine.note e a w)))
        (.serving now last ((a + e.g.burstBytes.toNat) % word) w)
  | finish (e : Engine) (h : History) (now : Int) (last a : Nat) (w : Bool)
      (reached : Runs p Next e h (.serving now last a w)) (past : ¬ a < last) :
      Runs p Next e h (.idle now)

theorem Runs.accepted {p : Params} {Next : Int → Int → Prop} {e : Engine} {h : History}
    {stage : Stage} (dram : p.kind = .dram) (run : Runs p Next e h stage) :
    ∃ g, Accepted p g ∧ ∀ e, create p = .ok e → Connected g e := by
  induction run with
  | start e now created =>
      obtain ⟨g, accepted, connected⟩ := create_connected p e dram created
      refine ⟨g, accepted, fun other again => ?_⟩
      cases created.symm.trans again
      exact connected
  | arrive _ _ _ _ _ _ _ _ _ _ _ ih => exact ih
  | burst _ _ _ _ _ _ _ _ _ _ _ _ ih => exact ih
  | finish _ _ _ _ _ _ _ _ ih => exact ih

section Standing

variable {p : Params} {g : Config} {Next : Int → Int → Prop} {e : Engine} {h : History}
variable {stage : Stage}

theorem Runs.settled (accepted : Accepted p g) (start : ∀ e, create p = .ok e → e.g = g)
    (positive : 0 < p.wqDepth) (run : Runs p Next e h stage) : Settled g e ∧ stage.Aligned g := by
  obtain ⟨low, order, high⟩ := WriteQueueLaw.watermarks accepted.queue positive
  have same := accepted.same
  induction run with
  | start e now created =>
      have config := start e created
      have empty : e.wq = [] ∧ e.leaving = [] ∧ e.trace = [] ∧ e.st = {} := by
        simp only [create, except_bind] at created
        obtain ⟨g', configured, made⟩ := created
        cases made
        exact ⟨rfl, rfl, rfl, rfl⟩
      obtain ⟨wq, leaving, trace, st⟩ := empty
      refine ⟨⟨[], ⟨config, ?_, ?_, ?_, ?_, ?_, ?_, ?_, ?_, ?_⟩, ?_, ?_⟩, trivial⟩
      all_goals simp [WriteQueueLaw.queuedAddrs, slots, wq, leaving, trace, st, same,
        CombiningQueue.Legal, CombiningQueue.waiting, CombiningQueue.presented,
        CombiningQueue.settled]
      all_goals omega
  | arrive e h last now addr size w reached next addressed sized ih =>
      obtain ⟨⟨asked, holds, fits⟩, _⟩ := ih
      refine ⟨⟨asked, ?_, fits.high, fits.depth⟩, ?_⟩
      · refine holds.same rfl rfl rfl ?_ ?_ ?_ ?_ <;> cases w <;> rfl
      · rw [holds.config]
        exact WriteQueueLaw.first_aligned accepted addr
  | burst e after h now last a w fuel answer reached more served ih =>
      obtain ⟨⟨asked, holds, fits⟩, aligned⟩ := ih
      obtain ⟨settled, fit⟩ := (WriteQueueLaw.queued_ends g ((a, w) :: asked) asked fuel
        (arrival p now) a w aligned (same ▸ positive) (same ▸ low) (same ▸ order)).ok
        (Engine.note e a w) after answer ⟨holds.present a w, fits.high, fits.depth⟩ served
      refine ⟨⟨_, settled, fit⟩, ?_⟩
      rw [holds.config]
      exact WriteQueueLaw.next_aligned accepted a aligned
  | finish e h now last a w reached past ih => exact ⟨ih.1, trivial⟩

theorem Runs.connected (accepted : Accepted p g) (timed : NonNegative p)
    (start : ∀ e, create p = .ok e → Connected g e) (run : Runs p Next e h stage) :
    Connected g e := by
  induction run with
  | start e now created => exact start e created
  | arrive e h last now addr size w reached next addressed sized ih =>
      exact ih.same rfl rfl (by cases w <;> rfl)
  | burst e after h now last a w fuel answer reached more served ih =>
      exact ((connected_stable (accepted.same.symm ▸ timed) accepted).queued fuel
        (arrival p now) a w).ok
        (Engine.note e a w) after answer (ih.same rfl rfl rfl) served
  | finish e h now last a w reached past ih => exact ih

theorem Runs.config (dram : p.kind = .dram) (positive : 0 < p.wqDepth)
    (run : Runs p Next e h stage) : e.g.p = p ∧ e.g.hyperram = false := by
  obtain ⟨g, accepted, start⟩ := run.accepted dram
  obtain ⟨⟨_, holds, _⟩, _⟩ :=
    run.settled accepted (fun e created => (start e created).config) positive
  rw [holds.config]
  exact ⟨accepted.same, accepted.dram⟩

end Standing

theorem accessTurns_runs {p : Params} {Next : Int → Int → Prop} (dram : p.kind = .dram)
    (positive : 0 < p.wqDepth) (fuel turns : Nat)
    (now : Int) (last a : Nat) (w : Bool) (done answer : Int) (e after : Engine) (h : History)
    (run : Runs p Next e h (.serving now last a w))
    (ended : accessTurns fuel (arrival p now) last w turns a done e = .ok answer after) :
    ∃ more, Runs p Next after (h.append more) (.idle now) := by
  induction turns generalizing a done e h with
  | zero =>
      rcases ite_ok.mp ended with ⟨_, stuck⟩ | ⟨past, stops⟩
      · cases stuck
      · cases stops
        exact ⟨{}, by simpa [History.append] using Runs.finish _ h now last a w run past⟩
  | succ turns ih =>
      rcases ite_ok.mp ended with ⟨more, goes⟩ | ⟨past, stops⟩
      · obtain ⟨_, _, noted, rest⟩ := bind_ok.mp goes
        cases noted
        obtain ⟨_, _, read, rest⟩ := bind_ok.mp rest
        cases read
        obtain ⟨dataEnd, next, served, rest⟩ := bind_ok.mp rest
        obtain ⟨_, _, read, served⟩ := bind_ok.mp served
        cases read
        rcases ite_ok.mp served with ⟨_, served⟩ | ⟨none, _⟩
        · obtain ⟨later, runs⟩ := ih _ _ next _ (.burst e next h now last a w fuel dataEnd run more
            served) rest
          refine ⟨History.append
            (queuedHistory fuel (arrival p now) a w (Engine.note e a w)) later, ?_⟩
          simpa [History.append, List.append_assoc] using runs
        · exact absurd ((run.config dram positive).1 ▸ positive) none
      · cases stops
        exact ⟨{}, by simpa [History.append] using Runs.finish _ h now last a w run past⟩

theorem access_runs {p : Params} {Next : Int → Int → Prop} (dram : p.kind = .dram)
    (positive : 0 < p.wqDepth) (fuel : Nat)
    (last now done : Int) (addr size : Nat) (w : Bool) (e after : Engine) (h : History)
    (run : Runs p Next e h (.idle last)) (next : Next last now) (addressed : addr < word)
    (sized : size < word) (ended : access fuel now addr size w e = .ok done after) :
    ∃ more, Runs p Next after (h.append more) (.idle now) := by
  obtain ⟨config, kind⟩ := run.config dram positive
  obtain ⟨_, _, counted, rest⟩ := bind_ok.mp ended
  cases counted
  obtain ⟨_, _, read, rest⟩ := bind_ok.mp rest
  cases read
  rcases ite_ok.mp rest with ⟨other, _⟩ | ⟨_, rest⟩
  · simp [kind] at other
  obtain ⟨answer, middle, served, rest⟩ := bind_ok.mp rest
  cases rest
  have began := Runs.arrive e h last now addr size w run next addressed sized
  simp only [config] at served
  exact accessTurns_runs dram positive fuel fuel now _ _ w _ answer _ _ h began served

theorem reachable_runs {p : Params} (dram : p.kind = .dram) (positive : 0 < p.wqDepth) {e : Engine}
    (reached : Reachable p e) : ∃ h now, Runs p (fun _ _ => True) e h (.idle now) := by
  induction reached with
  | start e created => exact ⟨{}, 0, .start e 0 created⟩
  | access e after fuel now addr size w done _ addressed sized ended ih =>
      obtain ⟨h, last, run⟩ := ih
      obtain ⟨more, runs⟩ := access_runs dram positive fuel last now done addr size w e after h run
        trivial addressed sized ended
      exact ⟨h.append more, now, runs⟩

/-! ### Concrete runs -/

/-- The loop of `access` over its bursts, with the history. -/
def replayTurns (p : Params) (fuel : Nat) (now : Int) (last : Nat) (w : Bool) :
    Nat → Nat → Engine → History → Option (Engine × History)
  | 0, _, _, _ => none
  | turns + 1, a, e, h =>
      if a < last then
        let noted := Engine.note e a w
        match queued fuel (arrival p now) a w noted with
        | .error _ _ => none
        | .ok _ after => replayTurns p fuel now last w turns ((a + e.g.burstBytes.toNat) % word)
            after (h.append (queuedHistory fuel (arrival p now) a w noted))
      else some (e, h)

/-- Accesses at non-decreasing times, from `last` on. -/
def replay (p : Params) (fuel : Nat) : Int → List Request → Engine → History →
    Option (Engine × History)
  | _, [], e, h => some (e, h)
  | last, r :: rest, e, h =>
      if last ≤ r.now ∧ r.addr < word ∧ r.size < word then do
        let size := if r.size = 0 then 1 else r.size
        let (e, h) ← replayTurns p fuel r.now (lastOf e.g.align r.addr size) r.w fuel
          (firstOf e.g.align r.addr) { e with st := e.st.request r.w } h
        replay p fuel r.now rest e h
      else none

def finish : Int → List Request → Int
  | last, [] => last
  | _, r :: rest => finish r.now rest

theorem replayTurns_runs {p : Params} {Next : Int → Int → Prop} (fuel turns : Nat) (now : Int)
    (last a : Nat) (w : Bool) (e after : Engine) (h later : History)
    (run : Runs p Next e h (.serving now last a w))
    (replayed : replayTurns p fuel now last w turns a e h = some (after, later)) :
    Runs p Next after later (.idle now) := by
  induction turns generalizing a e h with
  | zero => cases replayed
  | succ turns ih =>
      rw [replayTurns] at replayed
      split at replayed
      next more =>
        simp only at replayed
        split at replayed
        next => cases replayed
        next answer next served =>
          exact ih _ _ _ (.burst e next h now last a w fuel answer run more served) replayed
      next past =>
        cases replayed
        exact .finish _ _ now last a w run past

theorem replay_runs {p : Params} (fuel : Nat) (requests : List Request) (last : Int)
    (e after : Engine) (h later : History) (run : Runs p (· ≤ ·) e h (.idle last))
    (replayed : replay p fuel last requests e h = some (after, later)) :
    Runs p (· ≤ ·) after later (.idle (finish last requests)) := by
  induction requests generalizing last e h with
  | nil =>
      cases replayed
      exact run
  | cons r rest ih =>
      rw [replay] at replayed
      split at replayed
      next fits =>
        simp only [Option.bind_eq_bind, Option.bind_eq_some_iff, Prod.exists] at replayed
        obtain ⟨next, more, served, rest⟩ := replayed
        have began := Runs.arrive e h last r.now r.addr r.size r.w run fits.1 fits.2.1 fits.2.2
        exact ih r.now next more (replayTurns_runs fuel fuel r.now _ _ r.w _ next h
          more began served)
          rest
      next => cases replayed

/-- The requests are served and what is checked holds of the engine and history
they lead to. -/
def displays (p : Params) (fuel : Nat) (start : Int) (requests : List Request)
    (holds : Engine → History → Bool) : Bool :=
  match create p with
  | .error _ => false
  | .ok e =>
      match replay p fuel start requests e {} with
      | none => false
      | some (after, h) => holds after h

theorem displays_runs (p : Params) (fuel : Nat) (start : Int) (requests : List Request)
    (holds : Engine → History → Bool) (shown : displays p fuel start requests holds = true) :
    ∃ e h, Runs p (· ≤ ·) e h (.idle (finish start requests)) ∧ holds e h = true := by
  unfold displays at shown
  cases created : create p with
  | error reason => simp [created] at shown
  | ok e =>
      cases replayed : replay p fuel start requests e {} with
      | none => simp [created, replayed] at shown
      | some found =>
          obtain ⟨after, h⟩ := found
          simp only [created, replayed] at shown
          exact ⟨after, h, replay_runs fuel requests start e after {} h (.start e start created)
            replayed, shown⟩

/-! ### Sending -/

/-- Between the two states the writes at the front of the queue were sent, their
data ending at `ends`, and no slot was freed. -/
structure Sent (Good : Int → Int → Prop) (e after : Engine) (ends : List Int) : Prop where
  config : after.g = e.g
  count : ends.length ≤ e.wq.length
  queue : after.wq = e.wq.drop ends.length
  out : after.leaving = e.leaving ++ ends
  good : ∀ (j : Nat) q dataEnd, e.wq[j]? = some q → ends[j]? = some dataEnd →
    Good q.arrive dataEnd

/-- What the channels and counters satisfy while writes are sent, and what a
write's data end then satisfies. -/
structure Watch (g : Config) (Inv : Engine → Prop) (Good : Int → Int → Prop) : Prop where
  config : ∀ e, Inv e → e.g = g
  same : ∀ e after, Inv e → after.g = e.g → after.chan = e.chan →
    after.st.busyPs = e.st.busyPs → Inv after
  refreshed : ∀ e addr t, Inv e → Inv (e.refresh (decode g addr).ch t)
  writes : ∀ fuel arrive (q : QueuedWrite), q.arrive ≤ arrive →
    Ends Inv (burst fuel arrive q.addr true) (fun dataEnd e => Inv e ∧ Good q.arrive dataEnd)
  reads : ∀ fuel arrive addr, Ends Inv (burst fuel arrive addr false) (fun _ => Inv)

section Sending

variable {Good : Int → Int → Prop}

theorem Sent.none (e : Engine) : Sent Good e e [] :=
  ⟨rfl, Nat.zero_le _, rfl, (List.append_nil _).symm, by simp⟩

theorem Sent.trans {e middle after : Engine} {one more : List Int} (first : Sent Good e middle one)
    (second : Sent Good middle after more) : Sent Good e after (one ++ more) where
  config := second.config.trans first.config
  count := by
    have fits := second.count
    have known := first.count
    rw [first.queue, List.length_drop] at fits
    rw [List.length_append]
    omega
  queue := by rw [second.queue, first.queue, List.drop_drop, List.length_append]
  out := by rw [second.out, first.out, List.append_assoc]
  good := by
    intro j q dataEnd waiting ended
    by_cases early : j < one.length
    · rw [List.getElem?_append_left early] at ended
      exact first.good j q dataEnd waiting ended
    · rw [List.getElem?_append_right (by omega)] at ended
      refine second.good (j - one.length) q dataEnd ?_ ended
      rw [first.queue, List.getElem?_drop, Nat.add_sub_cancel' (by omega)]
      exact waiting

theorem Sent.same {e middle after : Engine} {ends : List Int} (first : Sent Good e middle ends)
    (config : after.g = middle.g) (wq : after.wq = middle.wq)
    (leaving : after.leaving = middle.leaving) : Sent Good e after ends :=
  ⟨config.trans first.config, first.count, wq.trans first.queue, leaving.trans first.out,
    first.good⟩

theorem Sent.sent_eq {e after : Engine} {ends : List Int} (first : Sent Good e after ends) :
    sent e after = ends := by
  rw [sent, first.out, List.drop_left]

theorem Sent.slots_eq {e after : Engine} {ends : List Int} (first : Sent Good e after ends) :
    slots after = slots e := by
  have count := first.count
  simp only [slots, first.queue, first.out, List.length_drop, List.length_append]
  omega

variable {g : Config} {Inv : Engine → Prop} (watch : Watch g Inv Good) (e₀ : Engine)

/-- From `e₀` on only writes were sent. -/
abbrev Sending (Inv : Engine → Prop) (Good : Int → Int → Prop) (e₀ e : Engine) : Prop :=
  Inv e ∧ ∃ ends, Sent Good e₀ e ends

include watch

theorem issueOldest_sends (fuel : Nat) (t : Int) :
    Ends (Sending Inv Good e₀) (issueOldest fuel t) (fun _ => Sending Inv Good e₀) := by
  apply Triple.get
  rintro e ⟨inv, ends, before⟩
  cases front : e.wq with
  | nil =>
      refine Triple.pure _ ?_
      rintro _ rfl
      exact ⟨inv, ends, before⟩
  | cons q rest =>
      refine Triple.bind (fun _ now => now = { e with wq := rest })
        (Triple.put _ fun _ _ => rfl) fun _ => ?_
      refine Triple.bind (fun dataEnd now => (Inv now ∧ Good q.arrive dataEnd) ∧ now.g = e.g ∧
        now.wq = rest ∧ now.leaving = e.leaving) ?_ fun dataEnd => Triple.update _ ?_
      · have kept := watch.writes fuel (max t q.arrive) q (Int.le_max_right ..)
        have queue := WriteQueueLaw.burst_effect fuel (max t q.arrive) q.addr true
          fun now => now.g = e.g ∧ now.wq = rest ∧ now.leaving = e.leaving
        refine (kept.both queue).forget.weaken ?_ fun _ _ held => held
        rintro _ rfl
        exact ⟨watch.same e _ inv rfl rfl rfl, fun _ _ _ => ⟨rfl, rfl, rfl⟩⟩
      · rintro now ⟨⟨kept, good⟩, config, queue, out⟩
        refine ⟨watch.same now _ kept rfl rfl rfl, ends ++ [dataEnd], before.trans ?_⟩
        refine ⟨config, ?_, ?_, ?_, ?_⟩
        · rw [front]
          simp
        · simp only [queue, front, List.length_singleton, List.drop_succ_cons, List.drop_zero]
        · simp only [out]
        · intro j q' dataEnd' waiting ended
          obtain ⟨rfl, rfl⟩ : j = 0 ∧ dataEnd = dataEnd' := by
            cases j with
            | zero => simpa using ended
            | succ j => simp at ended
          rw [front, List.getElem?_cons_zero, Option.some.injEq] at waiting
          exact waiting ▸ good

theorem drainTurns_sends (fuel : Nat) (t : Int) (turns : Nat) :
    Ends (Sending Inv Good e₀) (drainTurns fuel t turns) (fun _ => Sending Inv Good e₀) := by
  induction turns with
  | zero => exact Triple.pure _ fun _ held => held
  | succ turns ih =>
      apply Triple.read
      rintro e ⟨inv, ends, before⟩
      cases e.wq with
      | nil => exact Triple.pure _ fun _ held => held
      | cons q rest =>
          refine Triple.ite (fun _ => Triple.pure _ fun _ held => held) fun _ => ?_
          refine Triple.bind (fun _ => Sending Inv Good e₀) (Triple.put _ fun _ _ => ?_) fun _ => ?_
          · have refreshed :=
              watch.refreshed e q.addr (max q.arrive (e.channel (decode g q.addr).ch).order) inv
            rw [watch.config e inv]
            exact ⟨refreshed, ends, before.same rfl rfl rfl⟩
          · apply Triple.read
            rintro now _
            refine Triple.ite (fun _ => Triple.pure _ fun _ held => held) fun _ => ?_
            exact Triple.bind _ (issueOldest_sends watch e₀ fuel _) fun _ => ih

theorem drainIdle_sends (fuel : Nat) (t : Int) :
    Ends (Sending Inv Good e₀) (drainIdle fuel t) (fun _ => Sending Inv Good e₀) :=
  Triple.read fun e _ => drainTurns_sends watch e₀ fuel t e.wq.length

theorem makeRoom_sends (fuel : Nat) (t : Int) :
    Ends (Sending Inv Good e₀) (makeRoom fuel t) (fun _ => Sending Inv Good e₀) :=
  Triple.read fun _ _ => Triple.ite (fun _ => issueOldest_sends watch e₀ fuel t)
    (fun _ => Triple.pure _ fun _ held => held)

theorem drainBatch_sends (fuel : Nat) (t : Int) (turns : Nat) :
    Ends (Sending Inv Good e₀) (drainBatch fuel t turns) (fun _ => Sending Inv Good e₀) := by
  induction turns with
  | zero => exact Triple.pure _ fun _ held => held
  | succ turns ih =>
      apply Triple.read
      rintro e _
      refine Triple.ite (fun _ => Triple.pure _ fun _ held => held) fun _ => ?_
      exact Triple.bind _ (issueOldest_sends watch e₀ fuel t) fun _ => ih

theorem drainHigh_sends (fuel : Nat) (t : Int) :
    Ends (Sending Inv Good e₀) (drainHigh fuel t) (fun _ => Sending Inv Good e₀) :=
  Triple.read fun e _ => Triple.ite (fun _ => drainBatch_sends watch e₀ fuel t e.wq.length)
    (fun _ => Triple.pure _ fun _ held => held)

end Sending

theorem watch_plain (g : Config) : Watch g (fun e => e.g = g) (fun _ _ => True) where
  config _ inv := inv
  same _ _ inv config _ _ := config.trans inv
  refreshed _ _ _ inv := inv
  writes fuel arrive q _ := (WriteQueueLaw.burst_effect fuel arrive q.addr true
    fun e => e.g = g ∧ True).weaken (fun _ inv _ _ _ => ⟨inv, trivial⟩) fun _ _ held => held
  reads fuel arrive addr := (WriteQueueLaw.burst_effect fuel arrive addr false
    fun e => e.g = g).weaken (fun _ inv _ _ _ => inv) fun _ _ held => held

theorem burst_ends_later {g : Config} (timed : NonNegative g.p) (bus : 0 ≤ g.burstPs)
    (fuel : Nat) (arrive : Int) (addr : Nat) :
    Ends (Connected g) (burst fuel arrive addr true) (fun dataEnd _ => arrive ≤ dataEnd) := by
  apply Triple.get
  rintro e connected now rfl
  cases ended : (now.channel (decode now.g addr).ch).burst now.g fuel
    (decode now.g addr) arrive true
    with
  | none => simp only [ended]; trivial
  | some found =>
      obtain ⟨c, n, pl⟩ := found
      simp only [ended]
      rw [connected.config] at ended
      obtain ⟨before, refreshed, _, planned, _, _⟩ :=
        ChannelMachine.burst_spec g timed fuel _ c _ arrive true n pl ended
      have sound := (BankLaw.channel_law g timed _ (connected.channel (decode g addr).ch)).1
      have kept : before.order = (now.channel (decode g addr).ch).order := by
        rw [refreshed, ChannelMachine.iterate_order]
      have started := sound.ordered
      have plan := ChannelMachine.plan_planned g before (decode g addr)
        (max arrive before.order) true
        (by omega)
      rw [← planned] at plan
      have order := plan.start timed.tRP timed.tRCD
      have write := timed.tWL
      show arrive ≤ pl.dataEnd
      rw [plan.data]
      simp only [DramChannel.Plan.order, DramChannel.latency, if_true] at order ⊢
      omega

theorem watch_timed {p : Params} {g : Config} (timed : NonNegative g.p) (accepted : Accepted p g)
    (bus : 0 ≤ g.burstPs) : Watch g (Connected g) (· ≤ ·) where
  config _ inv := inv.config
  same _ _ inv config chan busy := inv.same config chan busy
  refreshed _ addr t inv := inv.refreshed timed accepted addr t
  writes fuel arrive q after := by
    have kept := burst_keeps timed accepted fuel arrive q.addr true
    have later := burst_ends_later timed bus fuel arrive q.addr
    refine (kept.both later).forget.weaken (fun _ inv => ⟨inv, inv⟩) ?_
    rintro dataEnd e ⟨inv, ended⟩
    exact ⟨inv, Int.le_trans after ended⟩
  reads fuel arrive addr := (burst_keeps timed accepted fuel arrive addr false).forget

end HeteroSim.QueueRuns
