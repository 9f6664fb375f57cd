import HeteroSim.AcceptanceLaw

/-!
Reads answered from the write queue and writes merged into it. The answer is
computed from the request's arrival alone, while a write held back by a full queue
is accepted in the future of its own; the two are in order exactly when the write
the request meets was accepted by then.
-/

namespace HeteroSim.QueueAnswers

open DramParams DramEngine EngineRuns Effect QueueRuns AcceptanceLaw
open WriteQueueLaw (Ends queuedAddrs)

/-- The queued write a request for `addr` relies on. -/
def meets (e : Engine) (addr : Nat) : Option QueuedWrite := e.wq.find? fun q => q.addr == addr

/-- The answer of a request does not come before the write it relies on was
accepted. -/
def Causal (fuel : Nat) (now : Int) (addr : Nat) (w : Bool) (e : Engine) : Prop :=
  ∀ answer after drained q, queued fuel now addr w e = .ok answer after →
    drainIdle fuel now e = .ok () drained → meets drained addr = some q → q.arrive ≤ answer

theorem meets_unique (e : Engine) (addr : Nat) (q : QueuedWrite) (nodup : (queuedAddrs e).Nodup)
    (waits : q ∈ e.wq) (same : q.addr = addr) : meets e addr = some q := by
  cases found : meets e addr with
  | none =>
      have nothing := List.find?_eq_none.mp found q waits
      simp [same] at nothing
  | some other =>
      have member := List.mem_of_find?_eq_some found
      have sameAddr : other.addr = addr := by simpa using List.find?_some found
      rw [List.inj_on_of_nodup_map nodup member waits (sameAddr.trans same.symm)]

theorem issueOldest_pops (fuel : Nat) (t : Int) (q : QueuedWrite) (rest : List QueuedWrite) :
    Ends (fun e => e.wq = q :: rest) (issueOldest fuel t) (fun _ e => e.wq = rest) := by
  apply Triple.get
  intro e front
  rw [front]
  refine Triple.bind (fun _ (now : Engine) => now.wq = rest) (Triple.put _ fun _ _ => rfl)
    fun _ => ?_
  refine Triple.bind (fun _ (now : Engine) => now.wq = rest) ?_ fun dataEnd =>
    Triple.update _ fun _ queue => queue
  exact (WriteQueueLaw.burst_effect fuel _ q.addr true fun (now : Engine) => now.wq = rest).weaken
    (fun _ queue _ _ _ => queue) fun _ _ held => held

theorem drainTurns_early (e₀ : Engine) (fuel : Nat) (t : Int) (turns : Nat) :
    Ends (fun e => ∃ gone, e₀.wq = gone ++ e.wq ∧ ∀ q ∈ gone, q.arrive < t)
      (drainTurns fuel t turns)
      (fun _ e => ∃ gone, e₀.wq = gone ++ e.wq ∧ ∀ q ∈ gone, q.arrive < t) := by
  induction turns with
  | zero => exact Triple.pure _ fun _ held => held
  | succ turns ih =>
      apply Triple.get
      rintro e ⟨gone, split, early⟩
      have stays : ∀ now : Engine, now.wq = e.wq →
          ∃ gone, e₀.wq = gone ++ now.wq ∧ ∀ q ∈ gone, q.arrive < t :=
        fun now queue => ⟨gone, queue ▸ split, early⟩
      cases front : e.wq with
      | nil => exact Triple.pure _ fun now same => stays now (same ▸ rfl)
      | cons q rest =>
          refine Triple.ite (fun _ => Triple.pure _ fun now same => stays now (same ▸ rfl))
            fun before => ?_
          refine Triple.bind (fun _ now => now.wq = q :: rest) (Triple.put _ fun _ _ => front)
            fun _ => ?_
          apply Triple.read
          intro now _
          refine Triple.ite (fun _ => Triple.pure _ fun now queue =>
            stays now (queue.trans front.symm)) fun _ => ?_
          refine Triple.bind (fun _ now => ∃ gone, e₀.wq = gone ++ now.wq ∧
            ∀ q ∈ gone, q.arrive < t) ?_ fun _ => ih
          refine (issueOldest_pops fuel _ q rest).weaken (fun _ queue => queue) ?_
          intro _ after queue
          refine ⟨gone ++ [q], by rw [queue, split, front]; simp, ?_⟩
          intro q' member
          rcases List.mem_append.mp member with old | new
          · exact early q' old
          · rw [List.mem_singleton.mp new]
            omega

theorem queued_answer (fuel : Nat) (now answer : Int) (addr : Nat) (w : Bool)
    (e after drained : Engine) (q : QueuedWrite) (met : meets drained addr = some q)
    (draining : drainIdle fuel now e = .ok () drained)
    (served : queued fuel now addr w e = .ok answer after) :
    answer = now + if w then 0 else drained.g.p.tCK := by
  obtain ⟨_, drained', draining', rest⟩ := bind_ok.mp served
  cases draining.symm.trans draining'
  obtain ⟨_, _, read, rest⟩ := bind_ok.mp rest
  cases read
  have found : drained.wq.any (fun q => q.addr == addr) = true := by
    have member := List.mem_of_find?_eq_some met
    have same := List.find?_some met
    exact List.any_eq_true.mpr ⟨q, member, same⟩
  rcases ite_ok.mp rest with ⟨_, answered⟩ | ⟨missing, _⟩
  · rcases ite_ok.mp answered with ⟨writes, merged⟩ | ⟨reads, forwarded⟩
    · obtain ⟨_, _, counted, same⟩ := bind_ok.mp merged
      cases same
      simp [writes]
    · obtain ⟨_, _, counted, same⟩ := bind_ok.mp forwarded
      cases same
      simp [reads]
  · exact absurd found missing

/-- A burst is answered causally if and only if no write of its address waits in
the queue that was accepted after the burst arrived (a clock after, for a read).
The time kept with a waiting write is when it was accepted. -/
theorem answers_causal {p : Params} {e : Engine} {h : History} {now : Int} {last a : Nat} {w : Bool}
    (dram : p.kind = .dram) (positive : 0 < p.wqDepth) (clock : 0 ≤ p.tCK)
    (run : Runs p (· ≤ ·) e h (.serving now last a w)) (fuel : Nat) (answer : Int) (after : Engine)
    (served : queued fuel (arrival p now) a w (Engine.note e a w) = .ok answer after) :
    (∀ (i : Nat) q, e.wq[i]? = some q →
      ∃ accepted, h.writes[h.ends.length + i]? = some accepted ∧ accepted.accepted = q.arrive) ∧
    (Causal fuel (arrival p now) a w (Engine.note e a w) ↔
      ∀ q ∈ e.wq, q.addr = a → q.arrive ≤ arrival p now + if w then 0 else p.tCK) := by
  obtain ⟨g, accepted, start⟩ := run.accepted dram
  have config : ∀ e, create p = .ok e → e.g = g := fun e created => (start e created).config
  have tracks := (runs_tracks (watch_plain g) config accepted positive run).2
  obtain ⟨⟨asked, holds, _⟩, _⟩ := run.settled accepted config positive
  have nodup := CombiningQueue.waiting_nodup e.trace holds.legal
  rw [holds.queue] at nodup
  obtain ⟨_, drained, draining, _⟩ := bind_ok.mp served
  obtain ⟨gone, split, early⟩ := (drainTurns_early (Engine.note e a w) fuel (arrival p now) _).ok
    (Engine.note e a w) drained () ⟨[], rfl, by simp⟩ draining
  have config : drained.g = g := ((drainIdle_sends (watch_plain g) (Engine.note e a w) fuel
    (arrival p now)).ok (Engine.note e a w) drained () ⟨tracks.config, [], Sent.none _⟩ draining).1
  have queue : e.wq = gone ++ drained.wq := split
  constructor
  · intro i q found
    have waiting := tracks.waiting i
    rw [found] at waiting
    obtain ⟨accepted, joined, same⟩ := Option.map_eq_some_iff.mp waiting.symm
    exact ⟨accepted, joined, same⟩
  constructor
  · intro causal q member same
    by_contra late
    have waits : q ∈ drained.wq := by
      rw [queue] at member
      rcases List.mem_append.mp member with old | new
      · have before := early q old
        cases w <;> simp only [if_true, Bool.false_eq_true, if_false] at late <;> omega
      · exact new
    have met := meets_unique drained a q (nodup.sublist (by
      rw [queuedAddrs, queuedAddrs, queue, List.map_append]
      exact List.sublist_append_right ..)) waits same
    have answered := queued_answer fuel _ answer a w _ after drained q met draining served
    have order := causal answer after drained q served draining met
    rw [answered, config, accepted.same] at order
    exact late order
  · intro known answer' after' drained' q served' draining' met
    cases draining.symm.trans draining'
    have answered := queued_answer fuel _ answer' a w _ after' drained q met draining served'
    rw [answered, config, accepted.same]
    apply known q
    · rw [queue]
      exact List.mem_append_right _ (List.mem_of_find?_eq_some met)
    · simpa using List.find?_some met

/-- One LPDDR4 channel behind a queue of two slots, in lines of 32 bytes. -/
def twoSlots : Params :=
  { DramPresets.lpddr4 with granule := 32, wqDepth := 2, wqHigh := 1, wqLow := 1 }

/-- The first two writes fill the queue; the third is accepted when the first
one's data ends. -/
def full : List Request := [⟨0, 0, 32, true⟩, ⟨0, 32, 32, true⟩, ⟨0, 128, 32, true⟩]

/-- The engine at the first burst of an access at `addr`. -/
def begun (e : Engine) (addr : Nat) (w : Bool) : Engine :=
  Engine.note { e with st := e.st.request w } (firstOf e.g.align addr) w

def tooEarly (fuel : Nat) (now : Int) (addr : Nat) (w : Bool) (e : Engine) : Bool :=
  match drainIdle fuel now e, queued fuel now addr w e with
  | .ok _ drained, .ok answer _ => (meets drained addr).any fun q : QueuedWrite =>
      decide (answer < q.arrive)
  | _, _ => false

theorem tooEarly_sound (fuel : Nat) (now : Int) (addr : Nat) (w : Bool) (e : Engine)
    (early : tooEarly fuel now addr w e = true) : ¬ Causal fuel now addr w e := by
  intro causal
  unfold tooEarly at early
  split at early
  next drained answer after draining served =>
    simp only [Option.any_eq_true, decide_eq_true_eq] at early
    obtain ⟨q, met, before⟩ := early
    have order := causal answer after drained q served draining met
    omega
  next => cases early

/-- The third write is read or written again as it arrives: the answer comes some
31 ns before the write it relies on is in the queue. -/
theorem answered_before_accepted : NonNegative twoSlots ∧ ∀ w, ∃ e h now last a,
    Runs twoSlots (· ≤ ·) e h (.serving now last a w) ∧
      ¬ Causal 4 (arrival twoSlots now) a w (Engine.note e a w) := by
  refine ⟨by decide, fun w => ?_⟩
  obtain ⟨e, h, run, shown⟩ := displays_runs twoSlots 4 0 full
    (fun e _ => tooEarly 4 (arrival twoSlots 0) (firstOf e.g.align 128) w (begun e 128 w))
    (by cases w <;> decide +kernel)
  exact ⟨_, h, 0, _, _, .arrive e h 0 0 128 32 w run (Int.le_refl 0) (by decide) (by decide),
    tooEarly_sound _ _ _ _ _ shown⟩

/-- Later, once the third write has been accepted, the answer is in order. -/
theorem answers_causal_later : ∃ e h now last a,
    Runs twoSlots (· ≤ ·) e h (.serving now last a false) ∧ (∃ q ∈ e.wq, q.addr = a) ∧
      Causal 4 (arrival twoSlots now) a false (Engine.note e a false) := by
  obtain ⟨e, h, run, shown⟩ := displays_runs twoSlots 4 0 full
    (fun e _ => e.wq.any (fun q : QueuedWrite => q.addr == firstOf e.g.align 128) &&
      e.wq.all (fun q : QueuedWrite => decide (q.arrive ≤ arrival twoSlots 40000)) &&
      match queued 4 (arrival twoSlots 40000) (firstOf e.g.align 128) false (begun e 128 false) with
      | .ok _ _ => true
      | .error _ _ => false) (by decide +kernel)
  simp only [Bool.and_eq_true, List.any_eq_true, List.all_eq_true, beq_iff_eq, decide_eq_true_eq]
    at shown
  obtain ⟨⟨waits, known⟩, ends⟩ := shown
  split at ends
  next answer after served =>
    have serving := Runs.arrive e h 0 40000 128 32 false run (by decide) (by decide) (by decide)
    have law := answers_causal rfl (by decide) (by decide) serving 4 answer after served
    refine ⟨_, h, 40000, _, _, serving, waits, law.2.mpr fun q member _ => ?_⟩
    exact Int.le_trans (known q member) (by decide)
  next => cases ends

end HeteroSim.QueueAnswers
