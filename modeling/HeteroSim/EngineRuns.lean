import HeteroSim.ChannelMachine
import HeteroSim.DramEngine
import HeteroSim.DramPresets
import HeteroSim.Effect
import Mathlib.Algebra.BigOperators.Group.List.Basic

/-!
Runs of the engine. A run is any sequence of accesses; `Visited` adds the states
inside an access, whether it returns or not. Whatever the write queue and the
idle drain do, each channel of a visited engine is a run of the channel machine.
-/

namespace HeteroSim.EngineRuns

open DramParams DramChannel ChannelMachine DramEngine Effect

/-- The engine between two accesses. -/
inductive Reachable (p : Params) : Engine → Prop where
  | start (e : Engine) (created : create p = .ok e) : Reachable p e
  | access (e after : Engine) (fuel : Nat) (now : Int) (addr size : Nat) (w : Bool) (done : Int)
      (reached : Reachable p e) (addressed : addr < word) (sized : size < word)
      (ended : access fuel now addr size w e = .ok done after) : Reachable p after

/-- The engine between two accesses, or at a loop turn inside one. -/
inductive Visited (p : Params) : Engine → Prop where
  | between (e : Engine) (reached : Reachable p e) : Visited p e
  | within (e inside : Engine) (fuel : Nat) (now : Int) (addr size : Nat) (w : Bool)
      (reached : Reachable p e) (addressed : addr < word) (sized : size < word)
      (stops : access fuel now addr size w e = .error () inside) : Visited p inside

/-- Every channel is a run of the channel machine, and the bus time the engine
has counted is that of the channels' bursts. -/
structure Connected (g : Config) (e : Engine) : Prop where
  config : e.g = g
  runs : ∀ c ∈ e.chan, Run g (Channel.fresh g.p) c
  sized : e.chan.length = g.p.channels.toNat
  busy : e.st.busyPs = (e.chan.map fun c => (bursts c.log).length * g.burstPs).sum

section Keeping

variable {p : Params} {g : Config}

theorem Connected.channel {e : Engine} (connected : Connected g e) (ch : Int) :
    Run g (Channel.fresh g.p) (e.channel ch) := by
  rw [Engine.channel, List.getD_eq_getElem?_getD, connected.config]
  cases found : e.chan[ch.toNat]? with
  | none => exact .refl
  | some c => exact connected.runs c (List.mem_of_getElem? found)

theorem Connected.same {e after : Engine} (connected : Connected g e) (config : after.g = e.g)
    (chan : after.chan = e.chan) (busy : after.st.busyPs = e.st.busyPs) : Connected g after :=
  ⟨config.trans connected.config, chan ▸ connected.runs, chan ▸ connected.sized,
    by rw [busy, chan]; exact connected.busy⟩

theorem sum_set (load : Channel → Int) (chan : List Channel) (i : Nat) (c old : Channel)
    (found : chan[i]? = some old) :
    ((chan.set i c).map load).sum = (chan.map load).sum + (load c - load old) := by
  induction chan generalizing i with
  | nil => simp at found
  | cons head rest ih =>
      cases i with
      | zero =>
          simp only [List.getElem?_cons_zero, Option.some.injEq] at found
          simp only [List.set_cons_zero, List.map_cons, List.sum_cons, found]
          ring
      | succ i =>
          simp only [List.getElem?_cons_succ] at found
          simp only [List.set_cons_succ, List.map_cons, List.sum_cons, ih i found]
          ring

theorem Connected.advance {e after : Engine} (connected : Connected g e) (ch : Int)
    (c : Channel) (inside : 0 ≤ ch ∧ ch < g.p.channels) (run : Run g (e.channel ch) c)
    (config : after.g = e.g) (chan : after.chan = e.chan.set ch.toNat c)
    (busy : after.st.busyPs = e.st.busyPs +
      ((bursts c.log).length - (bursts (e.channel ch).log).length) * g.burstPs) :
    Connected g after := by
  have within : ch.toNat < e.chan.length := by
    rw [connected.sized]
    omega
  have found : e.chan[ch.toNat]? = some (e.channel ch) := by
    simp [Engine.channel, List.getD_eq_getElem?_getD, within]
  refine ⟨config.trans connected.config, ?_, ?_, ?_⟩
  · intro other member
    rw [chan] at member
    rcases List.mem_or_eq_of_mem_set member with old | new
    · exact connected.runs other old
    · exact new ▸ (connected.channel ch).trans run
  · rw [chan, List.length_set]
    exact connected.sized
  · rw [busy, chan, sum_set _ _ _ _ _ found, connected.busy]
    ring

theorem refresh_bursts (timed : NonNegative g.p) (c : Channel) (t : Int) :
    bursts (c.refresh g.p t).1.log = bursts c.log := by
  rw [refresh_iterates timed, iterate_bursts]

theorem Connected.refreshed {e : Engine} (connected : Connected g e) (timed : NonNegative g.p)
    (accepted : Accepted p g) (addr : Nat) (t : Int) :
    Connected g (e.refresh (decode g addr).ch t) := by
  have ranged := (accepted.decode_in_range addr).ch
  rw [← accepted.same] at ranged
  refine connected.advance _ ((e.channel (decode g addr).ch).refresh g.p t).1 ranged
    (refresh_run g timed _ t) rfl ?_ ?_
  · simp only [Engine.refresh, connected.config]
  · rw [refresh_bursts timed]
    simp only [Engine.refresh]
    ring

theorem burst_keeps (timed : NonNegative g.p) (accepted : Accepted p g) (fuel : Nat)
    (arrive : Int) (addr : Nat) (w : Bool) :
    Keeps (Connected g) (burst fuel arrive addr w) := by
  apply Triple.get
  rintro e connected now rfl
  have ranged := accepted.decode_in_range addr
  rw [← accepted.same] at ranged
  simp only [connected.config]
  cases ended : (now.channel (decode g addr).ch).burst g fuel (decode g addr) arrive w with
  | none => exact connected
  | some found =>
      obtain ⟨c, n, pl⟩ := found
      have run := burst_run g timed fuel _ c _ arrive w n pl ranged ended
      obtain ⟨before, refreshed, _, _, _, after⟩ :=
        burst_spec g timed fuel _ c _ arrive w n pl ended
      refine connected.advance (decode g addr).ch c ranged.ch run connected.config.symm rfl ?_
      rw [after, commit_log, bursts_burst, refreshed, iterate_bursts, List.length_cons]
      simp only [Stats.serve]
      push_cast
      ring

/-- An invariant that the steps an access is made of keep: a burst, a refresh before a
planned write, and the bookkeeping of the queue, which the channels do not see. -/
structure Stable (Inv : Engine → Prop) : Prop where
  edit : ∀ e after, Inv e → after.g = e.g → after.chan = e.chan →
    after.st.busyPs = e.st.busyPs →
    CombiningQueue.presented after.trace = CombiningQueue.presented e.trace → Inv after
  refreshed : ∀ e addr t, Inv e → Inv (e.refresh (decode e.g addr).ch t)
  burst : ∀ fuel arrive addr w, Keeps Inv (burst fuel arrive addr w)

theorem connected_stable (timed : NonNegative g.p) (accepted : Accepted p g) :
    Stable (Connected g) where
  edit _ _ held config chan busy _ := held.same config chan busy
  refreshed e addr t held := by
    rw [held.config]
    exact held.refreshed timed accepted addr t
  burst := burst_keeps timed accepted

section Rules

variable {Inv : Engine → Prop} (stable : Stable Inv)

include stable

theorem Stable.issueOldest (fuel : Nat) (t : Int) : Keeps Inv (issueOldest fuel t) := by
  apply Triple.read
  intro e held
  cases e.wq with
  | nil => exact Keeps.pure _
  | cons q rest =>
      refine Keeps.bind (Keeps.put _ (stable.edit e _ held rfl rfl rfl rfl)) fun _ => ?_
      refine Keeps.bind (stable.burst fuel _ q.addr true) fun dataEnd => ?_
      exact Keeps.update _ fun now kept => stable.edit now _ kept rfl rfl rfl rfl

theorem Stable.drainTurns (fuel : Nat) (t : Int) (turns : Nat) :
    Keeps Inv (drainTurns fuel t turns) := by
  induction turns with
  | zero => exact Keeps.pure _
  | succ turns ih =>
      apply Triple.read
      intro e held
      cases e.wq with
      | nil => exact Keeps.pure _
      | cons q rest =>
          refine Triple.ite (fun _ => Keeps.pure _) fun _ => ?_
          refine Keeps.bind (Keeps.put _ (stable.refreshed e q.addr _ held)) fun _ => ?_
          apply Triple.read
          intro now _
          refine Triple.ite (fun _ => Keeps.pure _) fun _ => ?_
          exact Keeps.bind (stable.issueOldest fuel _) fun _ => ih

theorem Stable.drainIdle (fuel : Nat) (t : Int) : Keeps Inv (drainIdle fuel t) :=
  Triple.read fun e _ => stable.drainTurns fuel t e.wq.length

theorem Stable.makeRoom (fuel : Nat) (t : Int) : Keeps Inv (makeRoom fuel t) :=
  Triple.read fun _ _ => Triple.ite (fun _ => stable.issueOldest fuel t) (fun _ => Keeps.pure _)

theorem Stable.holdBack (fuel turns : Nat) (t : Int) : Keeps Inv (holdBack fuel turns t) := by
  induction turns generalizing t with
  | zero => exact Keeps.pure _
  | succ turns ih =>
      apply Triple.read
      intro e _
      refine Triple.ite (fun _ => Keeps.pure _) fun _ => ?_
      refine Keeps.bind (stable.makeRoom fuel t) fun _ => ?_
      apply Triple.read
      intro now held
      cases now.leaving with
      | nil => exact Keeps.pure _
      | cons dataEnd rest =>
          exact Keeps.bind (Keeps.put _ (stable.edit now _ held rfl rfl rfl rfl)) fun _ => ih _

theorem Stable.drainBatch (fuel : Nat) (t : Int) (turns : Nat) :
    Keeps Inv (drainBatch fuel t turns) := by
  induction turns with
  | zero => exact Keeps.pure _
  | succ turns ih =>
      apply Triple.read
      intro e _
      refine Triple.ite (fun _ => Keeps.pure _) fun _ => ?_
      exact Keeps.bind (stable.issueOldest fuel t) fun _ => ih

theorem Stable.drainHigh (fuel : Nat) (t : Int) : Keeps Inv (drainHigh fuel t) :=
  Triple.read fun _ _ => Triple.ite (fun _ => stable.drainBatch fuel t _)
    (fun _ => Keeps.pure _)

theorem Stable.enqueue (fuel : Nat) (arrive : Int) (addr : Nat) :
    Keeps Inv (enqueue fuel arrive addr) := by
  refine Keeps.bind (Keeps.update _ fun now held => stable.edit now _ held rfl rfl rfl rfl)
    fun _ => ?_
  apply Triple.read
  intro e _
  refine Keeps.bind (stable.holdBack fuel _ arrive) fun t => ?_
  refine Keeps.bind (Keeps.update _ fun now held => stable.edit now _ held rfl rfl rfl rfl)
    fun _ => ?_
  exact Keeps.bind (stable.drainHigh fuel t) fun _ => Keeps.pure _

theorem Stable.queued (fuel : Nat) (arrive : Int) (addr : Nat) (w : Bool) :
    Keeps Inv (queued fuel arrive addr w) := by
  refine Keeps.bind (stable.drainIdle fuel arrive) fun _ => ?_
  apply Triple.read
  intro e held
  refine Triple.ite (fun _ => Triple.ite (fun _ => ?_) fun _ => ?_) fun _ =>
    Triple.ite (fun _ => ?_) fun _ => ?_
  · exact Keeps.bind (Keeps.put _ (stable.edit e _ held rfl rfl rfl rfl)) fun _ => Keeps.pure _
  · exact Keeps.bind (Keeps.put _ (stable.edit e _ held rfl rfl rfl rfl)) fun _ => Keeps.pure _
  · exact stable.enqueue fuel arrive addr
  · exact stable.burst fuel arrive addr false

theorem Stable.present (fuel : Nat) (arrive : Int) (addr : Nat) (w : Bool) :
    Keeps Inv (present fuel arrive addr w) :=
  Triple.read fun _ _ => Triple.ite (fun _ => stable.queued fuel arrive addr w)
    (fun _ => stable.burst fuel arrive addr w)

end Rules

theorem accessTurns_keeps (timed : NonNegative g.p) (accepted : Accepted p g) (fuel : Nat)
    (arrive : Int) (last : Nat) (w : Bool) (turns a : Nat) (done : Int) :
    Keeps (Connected g) (accessTurns fuel arrive last w turns a done) := by
  induction turns generalizing a done with
  | zero =>
      exact Triple.ite (fun _ => Triple.throw _ fun _ held => held)
        (fun _ => Keeps.pure _)
  | succ turns ih =>
      refine Triple.ite (fun _ => ?_) fun _ => Keeps.pure _
      refine Keeps.bind (Keeps.update _ fun _ held =>
        held.same (by rfl) (by rfl) (by rfl)) fun _ => ?_
      apply Triple.read
      intro e _
      exact Keeps.bind ((connected_stable timed accepted).present fuel arrive a w)
        fun dataEnd => ih _ _

theorem access_keeps (timed : NonNegative g.p) (accepted : Accepted p g) (fuel : Nat)
    (now : Int) (addr size : Nat) (w : Bool) :
    Keeps (Connected g) (access fuel now addr size w) := by
  refine Keeps.bind (Keeps.update _ fun e held => held.same (by rfl) (by rfl) ?_) fun _ => ?_
  · cases w <;> rfl
  · apply Triple.read
    intro e connected
    have dram : ¬ e.g.hyperram = true := by
      rw [connected.config, accepted.dram]
      simp
    rw [if_neg dram]
    exact Keeps.bind (accessTurns_keeps timed accepted fuel _ _ w fuel _ _)
      fun done => Keeps.pure _

theorem create_connected (p : Params) (e : Engine) (dram : p.kind = .dram)
    (created : create p = .ok e) : ∃ g, Accepted p g ∧ Connected g e := by
  simp only [create, except_bind] at created
  obtain ⟨g, configured, made⟩ := created
  have accepted := configure_accepted p g dram configured
  rw [accepted.dram] at made
  cases made
  refine ⟨g, accepted, rfl, ?_, ?_, ?_⟩
  · intro c member
    simp only [Bool.false_eq_true, if_false] at member
    rw [List.eq_of_mem_replicate member, accepted.same]
  · simp [accepted.same]
  · simp [Channel.fresh]

end Keeping

theorem visited_connected (p : Params) (e : Engine) (dram : p.kind = .dram)
    (timed : NonNegative p) (visited : Visited p e) :
    ∃ g, Accepted p g ∧ Connected g e := by
  have between : ∀ e, Reachable p e → ∃ g, Accepted p g ∧ Connected g e := by
    intro e reached
    induction reached with
    | start e created => exact create_connected p e dram created
    | access before after fuel now addr size w done _ _ _ ended ih =>
        obtain ⟨g, accepted, connected⟩ := ih
        exact ⟨g, accepted, (access_keeps (accepted.same.symm ▸ timed) accepted fuel now addr size
          w).ok before after done connected ended⟩
  cases visited with
  | between _ reached => exact between e reached
  | within before _ fuel now addr size w reached _ _ stops =>
      obtain ⟨g, accepted, connected⟩ := between before reached
      exact ⟨g, accepted, (access_keeps (accepted.same.symm ▸ timed) accepted fuel now addr size
        w).error before e () connected stops⟩

/-! ### Concrete runs -/

structure Request where
  now : Int
  addr : Nat
  size : Nat
  w : Bool

def serve (fuel : Nat) : List Request → Op Unit
  | [] => return
  | r :: rest => do
      let _ ← access fuel r.now r.addr r.size r.w
      serve fuel rest

def shows (p : Params) (fuel : Nat) (requests : List Request) (holds : Engine → Bool) : Bool :=
  match create p with
  | .error _ => false
  | .ok e =>
      match serve fuel requests e with
      | .error _ _ => false
      | .ok _ after => holds after && requests.all fun r => decide (r.addr < word ∧ r.size < word)

theorem serve_reachable (p : Params) (fuel : Nat) (requests : List Request) (e after : Engine)
    (reached : Reachable p e) (words : ∀ r ∈ requests, r.addr < word ∧ r.size < word)
    (served : serve fuel requests e = .ok () after) : Reachable p after := by
  induction requests generalizing e with
  | nil =>
      cases served
      exact reached
  | cons r rest ih =>
      simp only [serve, bind, EStateM.bind] at served
      split at served
      next done next ended =>
        have fits := words r List.mem_cons_self
        have more := reached.access e next fuel r.now r.addr r.size r.w done fits.1 fits.2 ended
        exact ih next more (fun r' member => words r' (List.mem_cons_of_mem r member)) served
      next => cases served

theorem shows_reachable (p : Params) (fuel : Nat) (requests : List Request)
    (holds : Engine → Bool) (shown : shows p fuel requests holds = true) :
    ∃ e, Reachable p e ∧ holds e = true := by
  unfold shows at shown
  cases created : create p with
  | error reason => simp [created] at shown
  | ok e =>
      cases served : serve fuel requests e with
      | error reason stuck => simp [created, served] at shown
      | ok done after =>
          simp only [created, served, Bool.and_eq_true, List.all_eq_true, decide_eq_true_eq]
            at shown
          exact ⟨after, serve_reachable p fuel requests e after (.start e created) shown.2 served,
            shown.1⟩

/-- A line is written, the next line of its page is read, and much later the
first one. -/
def lines : List Request := [⟨0, 0, 64, true⟩, ⟨25000, 128, 64, false⟩, ⟨4000000, 0, 64, false⟩]

theorem lines_served : ∃ e, Reachable DramPresets.lpddr5 e ∧
    decide (e.st.bursts = 6 ∧ e.st.refreshes = 1 ∧ e.chan.length = 1) = true :=
  shows_reachable DramPresets.lpddr5 4 lines _ (by decide +kernel)

end HeteroSim.EngineRuns
