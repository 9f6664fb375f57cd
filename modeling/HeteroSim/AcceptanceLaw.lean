import HeteroSim.QueueRuns
import Mathlib.Data.List.TakeWhile

/-!
When the write queue accepts a write. Slots are freed in the order the writes
took them, so in every run the k-th new write is accepted when it arrives or, if
that is later, when the data of the write `wq_depth` before it ends. How full the
queue is at any instant follows from this law by counting.
-/

namespace HeteroSim.AcceptanceLaw

open DramParams DramEngine EngineRuns Effect QueueRuns
open WriteQueueLaw (Ends Holds Fits Settled slots queuedAddrs)

/-- The k-th new write of a history waited for the slot of the write `depth`
before it, and for nothing else. -/
def Lawful (h : History) (depth k : Nat) (w : Write) : Prop :=
  (k < depth → w.accepted = w.arrive) ∧
    ∀ i, k = i + depth → ∃ dataEnd, h.ends[i]? = some dataEnd ∧ w.accepted = max w.arrive dataEnd

/-- A history up to `now` and the engine it leads to. `freed` are the data ends
whose slots have been given up: those over by `now`, and those a later write has
waited for. -/
structure Tracks (Good : Int → Int → Prop) (g : Config) (now : Int) (h : History) (e : Engine) :
    Prop where
  config : e.g = g
  count : h.ends.length ≤ h.writes.length
  queue : e.wq.map (fun q => q.arrive) = (h.writes.drop h.ends.length).map fun w => w.accepted
  freed : ∃ freed, h.ends = freed ++ e.leaving ∧ ∀ (i : Nat) dataEnd, freed[i]? = some dataEnd →
    dataEnd ≤ now ∨ i + g.p.wqDepth.toNat < h.writes.length
  arrived : ∀ w ∈ h.writes, w.arrive ≤ now
  ordered : h.writes.Pairwise fun older newer => older.arrive ≤ newer.arrive
  law : ∀ (k : Nat) w, h.writes[k]? = some w → Lawful h g.p.wqDepth.toNat k w
  good : ∀ (k : Nat) w dataEnd, h.writes[k]? = some w → h.ends[k]? = some dataEnd →
    Good w.accepted dataEnd

section Steps

variable {Good : Int → Int → Prop} {g : Config} {now : Int} {h : History} {e after : Engine}

theorem append_ends (h : History) (ends : List Int) :
    h.append { ends := ends } = { h with ends := h.ends ++ ends } := by
  simp [History.append]

theorem append_append (h one more : History) :
    (h.append one).append more = h.append (one.append more) := by
  simp [History.append, List.append_assoc]

@[simp] theorem append_empty (h : History) : h.append {} = h := by simp [History.append]

theorem Lawful.more {depth k : Nat} {w : Write} (lawful : Lawful h depth k w) (more : History) :
    Lawful (h.append more) depth k w := by
  refine ⟨lawful.1, fun i before => ?_⟩
  obtain ⟨dataEnd, found, accepted⟩ := lawful.2 i before
  refine ⟨dataEnd, ?_, accepted⟩
  obtain ⟨inside, _⟩ := List.getElem?_eq_some_iff.mp found
  rw [History.append, List.getElem?_append_left inside]
  exact found

theorem Tracks.start (created : e.g = g) (wq : e.wq = []) (leaving : e.leaving = []) :
    Tracks Good g now {} e where
  config := created
  count := Nat.le_refl _
  queue := by simp [wq]
  freed := ⟨[], by simp [leaving], by simp⟩
  arrived := by simp
  ordered := .nil
  law := by simp
  good := by simp

theorem Tracks.later {soon : Int} (tracks : Tracks Good g now h e) (later : now ≤ soon) :
    Tracks Good g soon h e where
  config := tracks.config
  count := tracks.count
  queue := tracks.queue
  freed := by
    obtain ⟨freed, split, past⟩ := tracks.freed
    refine ⟨freed, split, fun i dataEnd found => ?_⟩
    exact (past i dataEnd found).imp_left fun ended => Int.le_trans ended later
  arrived := fun w member => Int.le_trans (tracks.arrived w member) later
  ordered := tracks.ordered
  law := tracks.law
  good := tracks.good

theorem Tracks.same (tracks : Tracks Good g now h e) (config : after.g = e.g)
    (wq : after.wq = e.wq) (leaving : after.leaving = e.leaving) : Tracks Good g now h after where
  config := config.trans tracks.config
  count := tracks.count
  queue := by rw [wq]; exact tracks.queue
  freed := by rw [leaving]; exact tracks.freed
  arrived := tracks.arrived
  ordered := tracks.ordered
  law := tracks.law
  good := tracks.good

theorem Tracks.waiting (tracks : Tracks Good g now h e) (j : Nat) :
    (e.wq[j]?).map (fun q => q.arrive) =
      (h.writes[h.ends.length + j]?).map fun w => w.accepted := by
  rw [← List.getElem?_map, tracks.queue, List.getElem?_map, List.getElem?_drop]

theorem Tracks.wq_length (tracks : Tracks Good g now h e) :
    e.wq.length + h.ends.length = h.writes.length := by
  have lengths := congrArg List.length tracks.queue
  have count := tracks.count
  simp only [List.length_map, List.length_drop] at lengths
  omega

theorem Tracks.send {ends : List Int} (tracks : Tracks Good g now h e)
    (sent : Sent Good e after ends) : Tracks Good g now (h.append { ends := ends }) after where
  config := sent.config.trans tracks.config
  count := by
    have fits := sent.count
    have length := tracks.wq_length
    simp only [append_ends, List.length_append]
    omega
  queue := by
    rw [sent.queue, List.map_drop, tracks.queue, append_ends]
    simp only [List.length_append, ← List.map_drop, List.drop_drop]
  freed := by
    obtain ⟨freed, split, past⟩ := tracks.freed
    rw [append_ends]
    exact ⟨freed, by simp only [split, sent.out, List.append_assoc], past⟩
  arrived := by rw [append_ends]; exact tracks.arrived
  ordered := by rw [append_ends]; exact tracks.ordered
  law := by
    intro k w found
    rw [append_ends] at found
    exact (tracks.law k w found).more _
  good := by
    intro k w dataEnd found ended
    rw [append_ends] at found ended
    by_cases early : k < h.ends.length
    · rw [List.getElem?_append_left early] at ended
      exact tracks.good k w dataEnd found ended
    · rw [List.getElem?_append_right (by omega)] at ended
      have waiting := tracks.waiting (k - h.ends.length)
      rw [Nat.add_sub_cancel' (by omega), found] at waiting
      obtain ⟨q, queued, accepted⟩ := Option.map_eq_some_iff.mp waiting
      have good := sent.good _ q dataEnd queued ended
      rwa [accepted] at good

theorem Tracks.retire {arrive : Int} (tracks : Tracks Good g now h e) (later : now ≤ arrive) :
    Tracks Good g arrive h (e.retire arrive) where
  config := tracks.config
  count := tracks.count
  queue := tracks.queue
  freed := by
    obtain ⟨freed, split, past⟩ := tracks.freed
    refine ⟨freed ++ e.leaving.takeWhile fun dataEnd => decide (dataEnd ≤ arrive), ?_, ?_⟩
    · rw [List.append_assoc, Engine.retire, List.takeWhile_append_dropWhile]
      exact split
    · intro i dataEnd found
      by_cases early : i < freed.length
      · rw [List.getElem?_append_left early] at found
        exact (past i dataEnd found).imp_left fun ended => Int.le_trans ended later
      · rw [List.getElem?_append_right (by omega)] at found
        have ended := List.mem_takeWhile_imp (List.mem_of_getElem? found)
        exact .inl (by simpa using ended)
  arrived := fun w member => Int.le_trans (tracks.arrived w member) later
  ordered := tracks.ordered
  law := tracks.law
  good := tracks.good

theorem Tracks.join (tracks : Tracks Good g now h e) (t : Int) (addr : Nat) (freed rest : List Int)
    (split : h.ends = freed ++ rest)
    (past : ∀ (i : Nat) dataEnd, freed[i]? = some dataEnd →
      dataEnd ≤ now ∨ i + g.p.wqDepth.toNat < h.writes.length + 1)
    (lawful : Lawful h g.p.wqDepth.toNat h.writes.length ⟨now, t⟩) :
    Tracks Good g now (h.append { writes := [⟨now, t⟩] })
      (Engine.join { e with leaving := rest } t addr) where
  config := tracks.config
  count := by
    have count := tracks.count
    simp only [History.append, List.append_nil, List.length_append]
    omega
  queue := by
    simp only [Engine.join, List.map_append, tracks.queue, History.append, List.append_nil,
      List.drop_append_of_le_length tracks.count, List.map_cons, List.map_nil]
  freed := by
    refine ⟨freed, by simpa [History.append, Engine.join] using split, ?_⟩
    simpa [History.append] using past
  arrived := by
    intro w member
    simp only [History.append, List.mem_append, List.mem_singleton] at member
    rcases member with old | new
    · exact tracks.arrived w old
    · exact new ▸ Int.le_refl now
  ordered := by
    simp only [History.append, List.pairwise_append, List.pairwise_singleton, List.mem_singleton,
      forall_eq, true_and]
    exact ⟨tracks.ordered, tracks.arrived⟩
  law := by
    intro k w found
    simp only [History.append] at found
    by_cases old : k < h.writes.length
    · rw [List.getElem?_append_left old] at found
      exact (tracks.law k w found).more _
    · rw [List.getElem?_append_right (by omega)] at found
      obtain ⟨last, rfl⟩ : k = h.writes.length ∧ ⟨now, t⟩ = w := by
        cases gap : k - h.writes.length with
        | zero =>
            rw [gap] at found
            exact ⟨by omega, by simpa using found⟩
        | succ n => simp [gap] at found
      exact last ▸ lawful.more _
  good := by
    intro k w dataEnd found ended
    simp only [History.append, List.append_nil] at found ended
    obtain ⟨inside, _⟩ := List.getElem?_eq_some_iff.mp ended
    have count := tracks.count
    rw [List.getElem?_append_left (by omega)] at found
    exact tracks.good k w dataEnd found ended

theorem Tracks.slots_freed (tracks : Tracks Good g now h e) {freed : List Int}
    (split : h.ends = freed ++ e.leaving) : slots e + freed.length = h.writes.length := by
  have length := tracks.wq_length
  have lengths := congrArg List.length split
  rw [List.length_append] at lengths
  simp only [slots]
  omega

theorem Tracks.accept (tracks : Tracks Good g now h e) (addr : Nat)
    (room : slots e < g.p.wqDepth.toNat) :
    Tracks Good g now (h.append { writes := [⟨now, now⟩] }) (Engine.join e now addr) := by
  obtain ⟨freed, split, past⟩ := tracks.freed
  have balance := tracks.slots_freed split
  refine tracks.join now addr freed e.leaving split ?_ ⟨fun _ => rfl, ?_⟩
  · exact fun i dataEnd found => (past i dataEnd found).imp_right fun waited => by omega
  · intro i before
    have inside : i < freed.length := by omega
    have found := List.getElem?_eq_getElem inside
    refine ⟨freed[i], ?_, ?_⟩
    · rw [split, List.getElem?_append_left inside, found]
    · rcases past i _ found with ended | waited
      · exact (max_eq_left ended).symm
      · omega

theorem Tracks.release (tracks : Tracks Good g now h e) (addr : Nat) (dataEnd : Int)
    (rest : List Int) (full : slots e = g.p.wqDepth.toNat) (front : e.leaving = dataEnd :: rest) :
    Tracks Good g now (h.append { writes := [⟨now, max now dataEnd⟩] })
      (Engine.join { e with leaving := rest } (max now dataEnd) addr) := by
  obtain ⟨freed, split, past⟩ := tracks.freed
  have balance := tracks.slots_freed split
  rw [front] at split
  refine tracks.join _ addr (freed ++ [dataEnd]) rest (by simpa using split) ?_ ⟨?_, ?_⟩
  · intro i d found
    by_cases old : i < freed.length
    · rw [List.getElem?_append_left old] at found
      exact (past i d found).imp_right fun waited => by omega
    · obtain ⟨inside, _⟩ := List.getElem?_eq_some_iff.mp found
      rw [List.length_append, List.length_singleton] at inside
      exact .inr (by omega)
  · intro early
    omega
  · intro i before
    have last : i = freed.length := by omega
    exact ⟨dataEnd, by simp [split, last], rfl⟩

end Steps

/-! ### The calls of a run -/

theorem makeRoom_takes (fuel : Nat) (t : Int) :
    Ends (fun e => 0 < slots e) (makeRoom fuel t) (fun _ e => e.leaving ≠ []) := by
  apply Triple.get
  intro e used
  refine Triple.ite (fun empty => ?_) fun taken => Triple.pure _ ?_
  · apply Triple.get
    intro now same
    subst same
    rw [List.isEmpty_iff] at empty
    cases front : now.wq with
    | nil => simp [slots, empty, front] at used
    | cons q rest =>
        refine Triple.bind (fun _ _ => True) (Triple.put _ fun _ _ => trivial) fun _ => ?_
        refine Triple.bind (fun _ _ => True) ?_ fun dataEnd => Triple.update _ ?_
        · exact (WriteQueueLaw.burst_effect fuel _ q.addr true fun _ => True).weaken
            (fun _ _ _ _ _ => trivial) fun _ _ held => held
        · intro now _
          simp
  · rintro _ rfl
    simpa using taken

theorem holdBack_room (fuel turns : Nat) (t : Int) (e : Engine)
    (room : (slots e : Int) < e.g.p.wqDepth) :
    holdBack fuel turns t e = .ok t e ∧ heldEnds fuel turns t e = [] := by
  cases turns with
  | zero => exact ⟨rfl, rfl⟩
  | succ turns =>
      refine ⟨?_, if_pos room⟩
      simp only [slots] at room
      simp only [holdBack, bind_run, get_run, if_pos room]
      rfl

theorem holdBack_full (fuel turns : Nat) (t : Int) (e : Engine)
    (full : ¬ (slots e : Int) < e.g.p.wqDepth) :
    (holdBack fuel (turns + 1) t e = match makeRoom fuel t e with
      | .error reason stuck => .error reason stuck
      | .ok _ roomy => match roomy.leaving with
        | [] => .ok t roomy
        | dataEnd :: rest =>
            holdBack fuel turns (max t dataEnd) { roomy with leaving := rest }) ∧
    heldEnds fuel (turns + 1) t e = match makeRoom fuel t e with
      | .error _ _ => []
      | .ok _ roomy => sent e roomy ++ match roomy.leaving with
        | [] => []
        | dataEnd :: rest =>
            heldEnds fuel turns (max t dataEnd) { roomy with leaving := rest } := by
  refine ⟨?_, if_neg full⟩
  simp only [slots] at full
  simp only [holdBack, bind_run, get_run, if_neg full]
  cases makeRoom fuel t e with
  | error reason stuck => rfl
  | ok done roomy =>
      simp only
      cases roomy.leaving <;> rfl

theorem enqueue_cases (fuel : Nat) (now answer : Int) (addr : Nat) (e after : Engine)
    (ended : enqueue fuel now addr e = .ok answer after) :
    ∃ held, holdBack fuel (slots (e.retire now)) now (e.retire now) = .ok answer held ∧
      drainHigh fuel answer (Engine.join held answer addr) = .ok () after := by
  obtain ⟨_, _, retired, rest⟩ := bind_ok.mp ended
  cases retired
  obtain ⟨_, _, read, rest⟩ := bind_ok.mp rest
  cases read
  obtain ⟨t, held, holding, rest⟩ := bind_ok.mp rest
  obtain ⟨_, _, joined, rest⟩ := bind_ok.mp rest
  cases joined
  obtain ⟨_, last, draining, rest⟩ := bind_ok.mp rest
  cases rest
  exact ⟨held, holding, draining⟩

section Calls

variable {Good : Int → Int → Prop} {g : Config} {Inv : Engine → Prop} (watch : Watch g Inv Good)
include watch

theorem holdBack_once (fuel : Nat) (t accepted : Int) (e held : Engine) (inv : Inv e)
    (fits : slots e ≤ g.p.wqDepth.toNat) (positive : 0 < g.p.wqDepth)
    (ended : holdBack fuel (slots e) t e = .ok accepted held) :
    (slots e < g.p.wqDepth.toNat ∧ accepted = t ∧ held = e ∧ heldEnds fuel (slots e) t e = []) ∨
      (slots e = g.p.wqDepth.toNat ∧ ∃ roomy ends dataEnd rest, Inv roomy ∧
        Sent Good e roomy ends ∧ roomy.leaving = dataEnd :: rest ∧ accepted = max t dataEnd ∧
        held = { roomy with leaving := rest } ∧ heldEnds fuel (slots e) t e = ends) := by
  have config := watch.config e inv
  by_cases room : (slots e : Int) < e.g.p.wqDepth
  · obtain ⟨stays, none⟩ := holdBack_room fuel (slots e) t e room
    rw [stays] at ended
    cases ended
    rw [config] at room
    exact .inl ⟨by omega, rfl, rfl, none⟩
  · have full : slots e = g.p.wqDepth.toNat := by
      rw [config] at room
      omega
    obtain ⟨turns, used⟩ : ∃ turns, slots e = turns + 1 := ⟨slots e - 1, by omega⟩
    obtain ⟨goes, more⟩ := holdBack_full fuel turns t e room
    rw [used, goes] at ended
    rw [used, more]
    cases made : makeRoom fuel t e with
    | error reason stuck => simp [made] at ended
    | ok done roomy =>
        obtain ⟨kept, ends, sent⟩ := (makeRoom_sends watch e fuel t).ok e roomy done
          ⟨inv, [], Sent.none e⟩ made
        have taken := (makeRoom_takes fuel t).ok e roomy done (by omega) made
        simp only [made] at ended ⊢
        cases out : roomy.leaving with
        | nil => exact absurd out taken
        | cons dataEnd rest =>
            have fewer : (slots { roomy with leaving := rest } : Int) < roomy.g.p.wqDepth := by
              have same := sent.slots_eq
              simp only [slots, out, List.length_cons] at same full ⊢
              rw [sent.config, config]
              omega
            obtain ⟨stays, none⟩ := holdBack_room fuel turns (max t dataEnd) _ fewer
            simp only [out] at ended ⊢
            rw [stays] at ended
            cases ended
            exact .inr ⟨used ▸ full, roomy, ends, dataEnd, rest, kept, sent, out, rfl, rfl,
              by rw [none, List.append_nil, sent.sent_eq]⟩

theorem enqueue_tracks (fuel : Nat) (now answer : Int) (addr : Nat) (h : History)
    (e after : Engine) (inv : Inv e) (positive : 0 < g.p.wqDepth)
    (fits : slots e ≤ g.p.wqDepth.toNat) (tracks : Tracks Good g now h e)
    (ended : enqueue fuel now addr e = .ok answer after) :
    Inv after ∧ Tracks Good g now (h.append (enqueueHistory fuel now addr e)) after := by
  have retired := tracks.retire (Int.le_refl now)
  have keeps : Inv (e.retire now) := watch.same e _ inv rfl rfl rfl
  have fewer : slots (e.retire now) ≤ g.p.wqDepth.toNat := by
    have shorter : (e.retire now).leaving.length ≤ e.leaving.length :=
      (List.dropWhile_sublist _).length_le
    simp only [slots, Engine.retire] at fits shorter ⊢
    omega
  obtain ⟨held, holding, draining⟩ := enqueue_cases fuel now answer addr e after ended
  generalize ends_eq : heldEnds fuel (slots (e.retire now)) now (e.retire now) = ends
  have joined : Inv held ∧ Tracks Good g now ((h.append { ends := ends }).append
      { writes := [⟨now, answer⟩] }) (Engine.join held answer addr) := by
    rcases holdBack_once watch fuel now answer _ held keeps fewer positive holding with
      ⟨room, rfl, rfl, none⟩ | ⟨full, roomy, ends, dataEnd, rest, kept, sent, out, rfl, rfl, more⟩
    · rw [← ends_eq, none]
      exact ⟨keeps, by simpa [History.append] using retired.accept addr room⟩
    · rw [← ends_eq, more]
      exact ⟨watch.same roomy _ kept rfl rfl rfl,
        (retired.send sent).release addr dataEnd rest (sent.slots_eq.trans full) out⟩
  have inside := watch.same held (Engine.join held answer addr) joined.1 rfl rfl rfl
  obtain ⟨kept, later, sent⟩ :=
    (drainHigh_sends watch (Engine.join held answer addr) fuel answer).ok
    (Engine.join held answer addr) after () ⟨inside, [], Sent.none _⟩ draining
  refine ⟨kept, ?_⟩
  have history : h.append (enqueueHistory fuel now addr e) =
      ((h.append { ends := ends }).append { writes := [⟨now, answer⟩] }).append
        { ends := later } := by
    simp only [slots] at holding ends_eq
    simp only [enqueueHistory, holding, draining, ends_eq, sent.sent_eq]
    simp [History.append, List.append_assoc]
  rw [history]
  exact joined.2.send sent

theorem queued_tracks (fuel : Nat) (now answer : Int) (addr : Nat) (w : Bool) (h : History)
    (e after : Engine) (inv : Inv e) (positive : 0 < g.p.wqDepth)
    (fits : slots e ≤ g.p.wqDepth.toNat) (tracks : Tracks Good g now h e)
    (ended : queued fuel now addr w e = .ok answer after) :
    Inv after ∧ Tracks Good g now (h.append (queuedHistory fuel now addr w e)) after := by
  obtain ⟨_, drained, draining, rest⟩ := bind_ok.mp ended
  obtain ⟨kept, ends, sent⟩ := (drainIdle_sends watch e fuel now).ok e drained ()
    ⟨inv, [], Sent.none e⟩ draining
  have idle := tracks.send sent
  have count := sent.slots_eq
  have history : h.append (queuedHistory fuel now addr w e) = (h.append { ends := ends }).append
      (if waits drained addr then {} else if w then enqueueHistory fuel now addr
        drained else {}) := by
    simp only [queuedHistory, draining, sent.sent_eq, append_append]
  rw [history]
  obtain ⟨_, _, read, rest⟩ := bind_ok.mp rest
  cases read
  rcases ite_ok.mp rest with ⟨met, answered⟩ | ⟨missing, rest⟩
  · simp only [waits, met, if_true, append_empty]
    rcases ite_ok.mp answered with ⟨_, merged⟩ | ⟨_, forwarded⟩
    · obtain ⟨_, _, counted, same⟩ := bind_ok.mp merged
      cases counted
      cases same
      exact ⟨watch.same drained _ kept rfl rfl rfl, idle.same rfl rfl rfl⟩
    · obtain ⟨_, _, counted, same⟩ := bind_ok.mp forwarded
      cases counted
      cases same
      exact ⟨watch.same drained _ kept rfl rfl rfl, idle.same rfl rfl rfl⟩
  · simp only [waits, missing]
    rcases ite_ok.mp rest with ⟨writes, rest⟩ | ⟨read, rest⟩
    · simp only [writes, if_true]
      exact enqueue_tracks watch fuel now answer addr _ drained after kept positive
        (count ▸ fits) idle rest
    · simp only [read, Bool.false_eq_true, if_false, append_empty]
      have effect := (WriteQueueLaw.burst_effect fuel now addr false fun last =>
        last.g = drained.g ∧ last.wq = drained.wq ∧ last.leaving = drained.leaving).ok drained
          after answer (fun _ _ _ => ⟨rfl, rfl, rfl⟩) rest
      exact ⟨(watch.reads fuel now addr).ok drained after answer kept rest,
        idle.same effect.1 effect.2.1 effect.2.2⟩

end Calls

/-! ### Runs -/

theorem runs_tracks {Good : Int → Int → Prop} {Inv : Engine → Prop} {p : Params} {g : Config}
    (watch : Watch g Inv Good) (fresh : ∀ e, create p = .ok e → Inv e) (accepted : Accepted p g)
    (positive : 0 < p.wqDepth) {e : Engine} {h : History} {stage : Stage}
    (run : Runs p (· ≤ ·) e h stage) : Inv e ∧ Tracks Good g (arrival p stage.now) h e := by
  have same := accepted.same
  have config : ∀ e, create p = .ok e → e.g = g := fun e created => watch.config e (fresh e created)
  induction run with
  | start e now created =>
      have empty : e.wq = [] ∧ e.leaving = [] := by
        simp only [create, except_bind] at created
        obtain ⟨g', configured, made⟩ := created
        cases made
        exact ⟨rfl, rfl⟩
      exact ⟨fresh e created, Tracks.start (config e created) empty.1 empty.2⟩
  | arrive e h last now addr size w reached next addressed sized ih =>
      obtain ⟨inv, tracks⟩ := ih
      refine ⟨watch.same e _ inv rfl rfl (by cases w <;> rfl), ?_⟩
      exact (tracks.later (Int.add_le_add_right next _)).same rfl rfl rfl
  | burst e after h now last a w fuel answer reached more served ih =>
      obtain ⟨inv, tracks⟩ := ih
      obtain ⟨⟨asked, _, fits⟩, _⟩ := reached.settled accepted config positive
      have depth := fits.depth
      rw [same] at depth
      have fit : slots (Engine.note e a w) ≤ g.p.wqDepth.toNat := by
        rw [same]
        show slots e ≤ _
        omega
      exact queued_tracks watch fuel (arrival p now) answer a w h _ after
        (watch.same e _ inv rfl rfl rfl) (same ▸ positive) fit (tracks.same rfl rfl rfl) served
  | finish e h now last a w reached past ih => exact ih

/-! ### How full the queue is -/

/-- The k-th new write is in its slot at `now`: it has been accepted, and it is
waiting or its data is not over. -/
def inSlot (h : History) (now : Int) (k : Nat) : Bool :=
  (h.writes[k]?).any (fun w => decide (w.accepted ≤ now)) &&
    !(h.ends[k]?).any fun dataEnd => decide (dataEnd ≤ now)

/-- How many of the first `k` new writes are in their slots at `now`. -/
def occupied (h : History) (k : Nat) (now : Int) : Nat := (List.range k).countP (inSlot h now)

/-- The k-th write's data is not over at `now`. -/
def unfinished (h : History) (now : Int) (k : Nat) : Bool :=
  !(h.ends[k]?).any fun dataEnd => decide (dataEnd ≤ now)

theorem count_handover (held : Nat → Bool) (depth k : Nat)
    (keeps : ∀ j, j + depth < k → held j = true → held (j + depth) = true) :
    (List.range k).countP (fun j => held j && !(decide (depth ≤ j) && held (j - depth))) +
      (List.range (k - depth)).countP held = (List.range k).countP held := by
  induction k with
  | zero => simp
  | succ k ih =>
      have before := ih fun j early => keeps j (by omega)
      rw [List.range_succ, List.countP_append, List.countP_append, List.countP_singleton,
        List.countP_singleton]
      by_cases deep : depth ≤ k
      · have handed := keeps (k - depth) (by omega)
        rw [Nat.sub_add_cancel deep] at handed
        rw [Nat.sub_add_comm deep, List.range_succ, List.countP_append, List.countP_singleton]
        cases old : held (k - depth) <;> cases new : held k <;> simp_all <;> omega
      · have nothing : k + 1 - depth = 0 ∧ k - depth = 0 := by omega
        rw [nothing.2] at before
        rw [nothing.1]
        simp only [deep, decide_false, Bool.false_and, Bool.not_false, Bool.and_true]
        omega

section Occupancy

variable {g : Config} {now : Int} {h : History} {e : Engine}

theorem inSlot_handover (tracks : Tracks (· ≤ ·) g now h e) (t : Int) (j : Nat)
    (inside : j < h.writes.length) (arrived : ∀ w, h.writes[j]? = some w → w.arrive ≤ t) :
    inSlot h t j = (unfinished h t j && !(decide (g.p.wqDepth.toNat ≤ j) &&
      unfinished h t (j - g.p.wqDepth.toNat))) := by
  have found := List.getElem?_eq_getElem inside
  have started := arrived _ found
  obtain ⟨atOnce, waited⟩ := tracks.law j _ found
  rw [inSlot, unfinished, Bool.and_comm, found]
  congr 1
  by_cases deep : g.p.wqDepth.toNat ≤ j
  · obtain ⟨dataEnd, ended, accepted⟩ := waited (j - g.p.wqDepth.toNat) (by omega)
    simp only [Option.any_some, deep, decide_true, Bool.true_and, unfinished, ended, Bool.not_not,
      accepted, decide_eq_decide]
    omega
  · simp only [Option.any_some, deep, decide_false, Bool.false_and, Bool.not_false,
      decide_eq_true_eq, atOnce (by omega)]
    exact started

theorem unfinished_handover (tracks : Tracks (· ≤ ·) g now h e) (t : Int) (j : Nat)
    (inside : j + g.p.wqDepth.toNat < h.writes.length) (held : unfinished h t j = true) :
    unfinished h t (j + g.p.wqDepth.toNat) = true := by
  have found := List.getElem?_eq_getElem inside
  obtain ⟨dataEnd, ended, accepted⟩ := (tracks.law _ _ found).2 j rfl
  simp only [unfinished, ended, Option.any_some, Bool.not_eq_true', decide_eq_false_iff_not] at held
  cases last : h.ends[j + g.p.wqDepth.toNat]? with
  | none => simp [unfinished, last]
  | some dataEnd' =>
      have later := tracks.good _ _ _ found last
      simp only [unfinished, last, Option.any_some, Bool.not_eq_true', decide_eq_false_iff_not]
      omega

theorem occupied_eq (tracks : Tracks (· ≤ ·) g now h e) (t : Int) (k : Nat)
    (inside : k ≤ h.writes.length) (deep : g.p.wqDepth.toNat ≤ k)
    (arrived : ∀ j w, j < k → h.writes[j]? = some w → w.arrive ≤ t) :
    occupied h k t = (List.range g.p.wqDepth.toNat).countP
      fun i => unfinished h t (k - g.p.wqDepth.toNat + i) := by
  have handed := count_handover (unfinished h t) g.p.wqDepth.toNat k fun j early =>
    unfinished_handover tracks t j (by omega)
  have same : occupied h k t = (List.range k).countP (fun j => unfinished h t j &&
      !(decide (g.p.wqDepth.toNat ≤ j) && unfinished h t (j - g.p.wqDepth.toNat))) := by
    apply List.countP_congr
    intro j member
    have early := List.mem_range.mp member
    rw [inSlot_handover tracks t j (by omega) fun w found => arrived j w early found]
  have split : List.range k = List.range (k - g.p.wqDepth.toNat) ++
      (List.range g.p.wqDepth.toNat).map (k - g.p.wqDepth.toNat + ·) := by
    rw [← List.range_add, Nat.sub_add_cancel deep]
  have whole := congrArg (List.countP (unfinished h t)) split
  rw [List.countP_append, List.countP_map] at whole
  rw [same]
  exact Nat.add_right_cancel (handed.trans (whole.trans (Nat.add_comm ..)))

end Occupancy

/-- A write held back found the queue exactly full until it was accepted, if and
only if none of the later writes in the slots ends before the one it waited for. -/
theorem held_back_full {p : Params} {e : Engine} {h : History} {stage : Stage}
    (dram : p.kind = .dram) (timed : NonNegative p) (positive : 0 < p.wqDepth)
    (bus : 0 ≤ (p.burstLength * 1000000).tdiv p.mtps) (run : Runs p (· ≤ ·) e h stage)
    (k : Nat) (w : Write) (joined : h.writes[k]? = some w) (held : w.arrive < w.accepted) :
    (∀ t, w.arrive ≤ t → t < w.accepted → (occupied h k t : Int) = p.wqDepth) ↔
      ∀ first, h.ends[k - p.wqDepth.toNat]? = some first →
        ∀ (j : Nat) dataEnd, k - p.wqDepth.toNat < j → j < k → h.ends[j]? = some dataEnd →
          first ≤ dataEnd := by
  obtain ⟨g, accepted, start⟩ := run.accepted dram
  have same := accepted.same
  have tracks := (runs_tracks (watch_timed (same ▸ timed) accepted (accepted.burstPs ▸ bus))
    start accepted positive run).2
  obtain ⟨inside, found⟩ := List.getElem?_eq_some_iff.mp joined
  have law := tracks.law k w joined
  rw [same] at law
  have deep : p.wqDepth.toNat ≤ k := by
    by_contra early
    have := law.1 (by omega)
    omega
  obtain ⟨first, ended, waited⟩ := law.2 (k - p.wqDepth.toNat) (by omega)
  have accepts : w.accepted = first := by omega
  have arrived : ∀ t, w.arrive ≤ t → ∀ (j : Nat) w', j < k → h.writes[j]? = some w' →
      w'.arrive ≤ t := by
    intro t later j w' early found'
    obtain ⟨inside', get'⟩ := List.getElem?_eq_some_iff.mp found'
    have ordered := List.pairwise_iff_getElem.mp tracks.ordered j k inside' inside early
    rw [get', found] at ordered
    omega
  have count : ∀ t, w.arrive ≤ t → ((occupied h k t : Int) = p.wqDepth ↔
      ∀ j, k - p.wqDepth.toNat ≤ j → j < k → unfinished h t j = true) := by
    intro t later
    have eq := occupied_eq tracks t k inside.le (same.symm ▸ deep) (arrived t later)
    rw [same] at eq
    have full := List.countP_eq_length (p := fun i => unfinished h t (k - p.wqDepth.toNat + i))
      (l := List.range p.wqDepth.toNat)
    rw [List.length_range, ← eq] at full
    constructor
    · intro exact j low high
      have held := full.mp (by omega) (j - (k - p.wqDepth.toNat)) (List.mem_range.mpr (by omega))
      rwa [Nat.add_sub_cancel' low] at held
    · intro all
      have whole := full.mpr fun i member =>
        all _ (Nat.le_add_right ..) (by have := List.mem_range.mp member; omega)
      omega
  constructor
  · intro always first' ended' j dataEnd low high found'
    cases ended.symm.trans ended'
    have held := (count (first - 1) (by omega)).mp (always _ (by omega) (by omega))
      j (by omega) high
    simp only [unfinished, found', Option.any_some, Bool.not_eq_true', decide_eq_false_iff_not]
      at held
    omega
  · intro ordered t later early
    refine (count t later).mpr fun j low high => ?_
    cases ended_j : h.ends[j]? with
    | none => simp [unfinished, ended_j]
    | some dataEnd =>
        have after : first ≤ dataEnd := by
          rcases Nat.eq_or_lt_of_le low with equal | above
          · rw [← equal, ended] at ended_j
            cases ended_j
            exact Int.le_refl _
          · exact ordered first ended j dataEnd above high ended_j
        simp only [unfinished, ended_j, Option.any_some, Bool.not_eq_true', decide_eq_false_iff_not]
        omega

/-- Two LPDDR4 channels behind a queue of two slots, bursts alternating. -/
def twoChannels : Params :=
  { DramPresets.lpddr4 with
    channels := 2, mapping := ['R', 'o', 'B', 'a', 'C', 'o', 'C', 'h'], granule := 32
    wqDepth := 2, wqHigh := 1, wqLow := 1 }

/-- Both channels are idle: the third write waits for the first and the second,
which end together. -/
theorem held_back_full_together : ∃ e h now, Runs twoChannels (· ≤ ·) e h (.idle now) ∧
    ∃ w, h.writes[2]? = some w ∧ w.arrive < w.accepted ∧
      ∀ t, w.arrive ≤ t → t < w.accepted → (occupied h 2 t : Int) = twoChannels.wqDepth := by
  obtain ⟨e, h, run, shown⟩ := displays_runs twoChannels 4 0
    [⟨0, 0, 64, true⟩, ⟨0, 64, 32, true⟩]
    (fun _ h => (h.writes[2]?).any (fun w : Write => decide (w.arrive < w.accepted)) &&
      decide (h.ends = [41875, 41875])) (by decide +kernel)
  simp only [Bool.and_eq_true, Option.any_eq_true, decide_eq_true_eq] at shown
  obtain ⟨⟨w, joined, held⟩, ends⟩ := shown
  refine ⟨e, h, _, run, w, joined, held, ?_⟩
  apply (held_back_full rfl (by decide) (by decide) (by decide) run 2 w joined held).mpr
  intro first front j dataEnd low high ended
  obtain rfl : j = 1 := by
    simp only [twoChannels] at low
    omega
  rw [ends] at front ended
  cases front
  cases ended
  decide

/-- The first write's channel has a row to close first, and the second write's
data ends while the first one's is still to come. A write that then arrives waits
for the first, though the queue holds one write only. -/
theorem held_back_behind_ended : NonNegative twoChannels ∧
    ∃ e h now, Runs twoChannels (· ≤ ·) e h (.idle now) ∧
      ∃ w, h.writes[2]? = some w ∧ w.arrive < w.accepted ∧
        (occupied h 2 w.arrive : Int) ≠ twoChannels.wqDepth := by
  refine ⟨by decide, ?_⟩
  obtain ⟨e, h, run, shown⟩ := displays_runs twoChannels 4 0
    [⟨0, 0, 32, false⟩, ⟨100000, 32768, 64, true⟩, ⟨135000, 64, 32, true⟩]
    (fun _ h => (h.writes[2]?).any fun w : Write =>
      decide (w.arrive < w.accepted ∧ (occupied h 2 w.arrive : Int) ≠ twoChannels.wqDepth))
    (by decide +kernel)
  simp only [Option.any_eq_true, decide_eq_true_eq] at shown
  obtain ⟨w, joined, held, fewer⟩ := shown
  exact ⟨e, h, _, run, w, joined, held, fewer⟩

end HeteroSim.AcceptanceLaw
