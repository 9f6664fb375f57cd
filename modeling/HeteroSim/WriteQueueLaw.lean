import HeteroSim.CombiningQueue
import HeteroSim.EngineRuns

/-!
The write queue over whole runs. Writes leave it from three places (idle drain,
hold-back, watermark batch), all through `issue_oldest`; what that does to the
history is said once, and the loops only add how far each of them goes.
-/

namespace HeteroSim.WriteQueueLaw

open DramParams DramEngine EngineRuns Effect CombiningQueue

def queuedAddrs (e : Engine) : List Nat := e.wq.map fun q => q.addr

/-- The engine's queue, counters and history agree, with `asked` presented and
`answered` settled so far. -/
structure Holds (g : Config) (asked answered : List (Nat × Bool)) (e : Engine) : Prop where
  config : e.g = g
  legal : Legal e.trace
  queue : waiting e.trace = queuedAddrs e
  aligned : ∀ a ∈ queuedAddrs e, g.burstBytes.toNat ∣ a
  bursts : e.st.bursts = e.trace.countP Note.isCommitted
  kinds : e.st.bursts = e.st.rowHits + e.st.rowMisses + e.st.rowConflicts
  merges : e.st.merged = e.trace.countP Note.isMerged
  forwards : e.st.forwarded = e.trace.countP Note.isForwarded
  asks : presented e.trace = asked
  answers : settled e.trace = answered

def slots (e : Engine) : Nat := e.wq.length + e.leaving.length

/-- What holds between bursts. -/
structure Fits (g : Config) (e : Engine) : Prop where
  high : (e.wq.length : Int) ≤ g.p.wqHigh
  depth : (slots e : Int) ≤ g.p.wqDepth

abbrev Ends {α : Type} (before : Engine → Prop) (m : Op α) (after : α → Engine → Prop) : Prop :=
  Triple before m after fun _ => True

theorem burst_effect (fuel : Nat) (arrive : Int) (addr : Nat) (w : Bool) (after : Engine → Prop) :
    Ends
      (fun e => ∀ chan kind refreshes, after { e with
        chan := chan
        st := e.st.serve kind refreshes e.g.burstPs
        trace := .committed addr w :: e.trace })
      (burst fuel arrive addr w) (fun _ => after) := by
  apply Triple.get
  rintro e held now rfl
  cases ended : (now.channel (decode now.g addr).ch).burst now.g fuel (decode now.g addr) arrive w
    with
  | none => simp only [ended]; trivial
  | some found =>
      obtain ⟨c, refreshes, pl⟩ := found
      simp only [ended]
      exact held _ pl.kind refreshes

theorem serve_kinds (st : Stats) (kind : DramChannel.RowKind) (refreshes : Nat) (burstPs : Int)
    (kinds : st.bursts = st.rowHits + st.rowMisses + st.rowConflicts) :
    (st.serve kind refreshes burstPs).bursts = (st.serve kind refreshes burstPs).rowHits +
      (st.serve kind refreshes burstPs).rowMisses +
      (st.serve kind refreshes burstPs).rowConflicts := by
  cases kind <;> simp only [Stats.serve, reduceCtorEq, if_true, if_false] <;> omega

section Changes

variable {g : Config} {asked answered : List (Nat × Bool)}

theorem Holds.same {e after : Engine} (holds : Holds g asked answered e) (config : after.g = e.g)
    (wq : after.wq = e.wq) (trace : after.trace = e.trace) (bursts : after.st.bursts = e.st.bursts)
    (kinds : after.st.rowHits + after.st.rowMisses + after.st.rowConflicts =
      e.st.rowHits + e.st.rowMisses + e.st.rowConflicts)
    (merges : after.st.merged = e.st.merged) (forwards : after.st.forwarded = e.st.forwarded) :
    Holds g asked answered after := by
  have addrs : queuedAddrs after = queuedAddrs e := by rw [queuedAddrs, wq, queuedAddrs]
  exact ⟨config.trans holds.config, trace ▸ holds.legal, by rw [trace, addrs]; exact holds.queue,
    addrs ▸ holds.aligned, by rw [bursts, trace]; exact holds.bursts,
    by rw [bursts, kinds]; exact holds.kinds, by rw [merges, trace]; exact holds.merges,
    by rw [forwards, trace]; exact holds.forwards, trace ▸ holds.asks, trace ▸ holds.answers⟩

theorem Fits.issued {e after : Engine} (fits : Fits g e) (q : QueuedWrite)
    (front : e.wq = q :: after.wq) (out : after.leaving.length = e.leaving.length + 1) :
    Fits g after := by
  obtain ⟨high, depth⟩ := fits
  simp only [slots, front, List.length_cons] at high depth
  constructor
  · omega
  · simp only [slots]
    omega

theorem Holds.accept {e : Engine} (holds : Holds g asked answered e) (a : Nat) (t : Int)
    (absent : a ∉ queuedAddrs e) (aligned : g.burstBytes.toNat ∣ a) :
    Holds g asked ((a, true) :: answered)
      { e with wq := e.wq ++ [⟨t, a⟩], trace := .accepted a :: e.trace } := by
  obtain ⟨config, legal, queue, known, bursts, kinds, merges, forwards, asks, answers⟩ := holds
  refine ⟨config, ⟨?_, legal⟩, ?_, ?_, ?_, kinds, ?_, ?_, asks, ?_⟩
  · show a ∉ waiting e.trace
    rwa [queue]
  · simp [waiting, queue, queuedAddrs]
  · intro b member
    simp only [queuedAddrs, List.map_append, List.mem_append] at member
    rcases member with old | new
    · exact known b old
    · simp only [List.map_cons, List.map_nil, List.mem_singleton] at new
      exact new ▸ aligned
  · simpa [Note.isCommitted] using bursts
  · simpa [Note.isMerged] using merges
  · simpa [Note.isForwarded] using forwards
  · simp [settled, Note.settles, ← answers]

theorem Holds.present {e : Engine} (holds : Holds g asked answered e) (a : Nat) (w : Bool) :
    Holds g ((a, w) :: asked) answered { e with trace := .presented a w :: e.trace } := by
  refine ⟨holds.config, ⟨trivial, holds.legal⟩, holds.queue, holds.aligned, ?_, holds.kinds,
    ?_, ?_, ?_, ?_⟩
  · simpa [Note.isCommitted] using holds.bursts
  · simpa [Note.isMerged] using holds.merges
  · simpa [Note.isForwarded] using holds.forwards
  · simp [presented, holds.asks]
  · simpa [settled, List.filterMap_cons, Note.settles] using holds.answers

end Changes

section Operations

variable (g : Config) (asked answered : List (Nat × Bool))

theorem issueOldest_ends (fuel : Nat) (t : Int) (q : QueuedWrite) (rest : List QueuedWrite)
    (leaving : Nat) :
    Ends (fun e => Holds g asked answered e ∧ e.wq = q :: rest ∧ e.leaving.length = leaving)
      (issueOldest fuel t)
      (fun _ e => Holds g asked answered e ∧ e.wq = rest ∧ e.leaving.length = leaving + 1) := by
  apply Triple.get
  rintro e ⟨holds, front, out⟩
  rw [front]
  refine Triple.bind (fun _ now => now = { e with wq := rest })
    (Triple.put _ fun _ _ => rfl) fun _ => ?_
  refine Triple.bind (fun _ now => Holds g asked answered now ∧ now.wq = rest ∧
    now.leaving.length = leaving) ?_ fun dataEnd => ?_
  · refine (burst_effect fuel _ q.addr true _).weaken ?_ fun _ _ held => held
    rintro now rfl chan kind refreshes
    obtain ⟨config, legal, queue, aligned, bursts, kinds, merges, forwards, asks, answers⟩ := holds
    simp only [queuedAddrs, front, List.map_cons] at queue aligned
    refine ⟨⟨config, ⟨?_, legal⟩, ?_, ?_, ?_, serve_kinds _ _ _ _ kinds, ?_, ?_, asks, ?_⟩, rfl,
      out⟩
    · show (waiting e.trace).head? = some q.addr
      rw [queue]
      rfl
    · simp [waiting, queue, queuedAddrs]
    · exact fun a member => aligned a (List.mem_cons_of_mem _ member)
    · simp [Stats.serve, bursts, List.countP_cons, Note.isCommitted]
    · simp [Stats.serve, merges, Note.isMerged]
    · simp [Stats.serve, forwards, Note.isForwarded]
    · simpa [settled, List.filterMap_cons, Note.settles] using answers
  · refine Triple.update _ ?_
    rintro now ⟨holds, queue, left⟩
    refine ⟨?_, queue, by simp [left]⟩
    exact ⟨holds.config, holds.legal, holds.queue, holds.aligned, holds.bursts, holds.kinds,
      holds.merges, holds.forwards, holds.asks, holds.answers⟩

theorem drainTurns_ends (fuel : Nat) (t : Int) (turns : Nat) :
    Ends (fun e => Holds g asked answered e ∧ Fits g e) (drainTurns fuel t turns)
      (fun _ e => Holds g asked answered e ∧ Fits g e) := by
  induction turns with
  | zero => exact Triple.pure _ fun _ held => held
  | succ turns ih =>
      apply Triple.get
      rintro e ⟨holds, fits⟩
      have stays : ∀ now, now = e → Holds g asked answered now ∧ Fits g now := by
        rintro now rfl
        exact ⟨holds, fits⟩
      cases front : e.wq with
      | nil => exact Triple.pure _ stays
      | cons q rest =>
          refine Triple.ite (fun _ => Triple.pure _ stays) fun _ => ?_
          refine Triple.bind (fun _ now => Holds g asked answered now ∧
            now.wq = q :: rest ∧ now.leaving = e.leaving) (Triple.put _ fun _ _ => ?_) fun _ => ?_
          · exact ⟨holds.same rfl rfl rfl rfl rfl rfl rfl, front, rfl⟩
          apply Triple.get
          rintro now ⟨still, frontNow, outNow⟩
          have same : Fits g now := by
            constructor
            · simpa [frontNow, front] using fits.high
            · simpa [slots, frontNow, outNow, front] using fits.depth
          refine Triple.ite (fun _ => Triple.pure _ (by rintro _ rfl; exact ⟨still, same⟩))
            fun _ => ?_
          refine Triple.bind _ ?_ fun _ => ih
          refine (issueOldest_ends g asked answered fuel _ q rest e.leaving.length).weaken ?_ ?_
          · rintro _ rfl
            exact ⟨still, frontNow, by rw [outNow]⟩
          · rintro _ after ⟨done, queue, out⟩
            refine ⟨done, same.issued q ?_ ?_⟩
            · rw [frontNow, queue]
            · rw [outNow, out]

theorem drainIdle_ends (fuel : Nat) (t : Int) :
    Ends (fun e => Holds g asked answered e ∧ Fits g e) (drainIdle fuel t)
      (fun _ e => Holds g asked answered e ∧ Fits g e) :=
  Triple.read fun e _ => drainTurns_ends g asked answered fuel t e.wq.length

theorem makeRoom_ends (fuel : Nat) (t : Int) (a n : Nat) (used : 0 < n) :
    Ends (fun e => Holds g asked answered e ∧ (e.wq.length : Int) ≤ g.p.wqHigh ∧ slots e = n ∧
        a ∉ queuedAddrs e)
      (makeRoom fuel t)
      (fun _ e => Holds g asked answered e ∧ (e.wq.length : Int) ≤ g.p.wqHigh ∧ slots e = n ∧
        a ∉ queuedAddrs e ∧ e.leaving ≠ []) := by
  apply Triple.get
  rintro e ⟨holds, high, count, absent⟩
  refine Triple.ite (fun empty => ?_) fun taken => Triple.pure _ ?_
  · have nothing : e.leaving = [] := by simpa using empty
    simp only [slots, nothing, List.length_nil] at count
    cases front : e.wq with
    | nil =>
        rw [front] at count
        simp at count
        omega
    | cons q rest =>
        rw [front, List.length_cons] at count high
        refine (issueOldest_ends g asked answered fuel t q rest 0).weaken ?_ ?_
        · rintro _ rfl
          exact ⟨holds, front, by rw [nothing]; rfl⟩
        · rintro _ after ⟨done, queue, out⟩
          refine ⟨done, by rw [queue]; omega, by rw [slots, queue, out]; omega, ?_, ?_⟩
          · intro member
            apply absent
            simp only [queuedAddrs, front, queue, List.map_cons] at member ⊢
            exact List.mem_cons_of_mem _ member
          · intro empty
            rw [empty] at out
            simp at out
  · rintro _ rfl
    exact ⟨holds, high, count, absent, by simpa using taken⟩

theorem holdBack_ends (fuel turns : Nat) (t : Int) (a : Nat) (positive : 0 < g.p.wqDepth) :
    Ends (fun e => Holds g asked answered e ∧ (e.wq.length : Int) ≤ g.p.wqHigh ∧
        slots e ≤ turns ∧ a ∉ queuedAddrs e)
      (holdBack fuel turns t)
      (fun _ e => Holds g asked answered e ∧ (e.wq.length : Int) ≤ g.p.wqHigh ∧
        (slots e : Int) < g.p.wqDepth ∧ a ∉ queuedAddrs e) := by
  induction turns generalizing t with
  | zero =>
      refine Triple.pure _ ?_
      rintro e ⟨holds, high, count, absent⟩
      exact ⟨holds, high, by omega, absent⟩
  | succ turns ih =>
      apply Triple.get
      rintro e ⟨holds, high, count, absent⟩
      refine Triple.ite (fun room => Triple.pure _ ?_) fun full => ?_
      · rintro _ rfl
        rw [holds.config] at room
        exact ⟨holds, high, room, absent⟩
      rw [holds.config] at full
      have used : 0 < slots e := by
        simp only [slots]
        omega
      refine Triple.bind _ ((makeRoom_ends g asked answered fuel t a (slots e) used).weaken ?_
        fun _ _ held => held)
        fun _ => ?_
      · rintro _ rfl
        exact ⟨holds, high, rfl, absent⟩
      apply Triple.get
      rintro now ⟨still, highNow, countNow, absentNow, taken⟩
      cases out : now.leaving with
      | nil => exact absurd out taken
      | cons dataEnd rest =>
          refine Triple.bind _ (Triple.put _ fun _ _ => ?_) fun _ => ih _
          refine ⟨still.same rfl rfl rfl rfl rfl rfl rfl, highNow, ?_, absentNow⟩
          simp only [slots, out, List.length_cons] at countNow count ⊢
          omega

theorem drainBatch_ends (fuel : Nat) (t : Int) (turns : Nat) (low : 0 < g.p.wqLow)
    (order : g.p.wqLow ≤ g.p.wqHigh) :
    Ends (fun e => Holds g asked answered e ∧ e.wq.length ≤ turns ∧
        (slots e : Int) ≤ g.p.wqDepth)
      (drainBatch fuel t turns)
      (fun _ e => Holds g asked answered e ∧ Fits g e) := by
  induction turns with
  | zero =>
      refine Triple.pure _ ?_
      rintro e ⟨holds, empty, depth⟩
      exact ⟨holds, by omega, depth⟩
  | succ turns ih =>
      apply Triple.get
      rintro e ⟨holds, bound, depth⟩
      refine Triple.ite (fun below => Triple.pure _ ?_) fun above => ?_
      · rintro _ rfl
        rw [holds.config] at below
        exact ⟨holds, by omega, depth⟩
      rw [holds.config] at above
      cases front : e.wq with
      | nil =>
          rw [front] at above
          simp only [List.length_nil] at above
          omega
      | cons q rest =>
          refine Triple.bind _ ((issueOldest_ends g asked answered fuel t q rest
            e.leaving.length).weaken ?_ ?_)
            fun _ => ih
          · rintro _ rfl
            exact ⟨holds, front, rfl⟩
          · rintro _ after ⟨done, queue, out⟩
            rw [front, List.length_cons] at bound
            simp only [slots, front, List.length_cons] at depth
            refine ⟨done, by rw [queue]; omega, ?_⟩
            simp only [slots, queue, out]
            omega

theorem drainHigh_ends (fuel : Nat) (t : Int) (low : 0 < g.p.wqLow)
    (order : g.p.wqLow ≤ g.p.wqHigh) :
    Ends (fun e => Holds g asked answered e ∧ (slots e : Int) ≤ g.p.wqDepth) (drainHigh fuel t)
      (fun _ e => Holds g asked answered e ∧ Fits g e) := by
  apply Triple.get
  rintro e ⟨holds, depth⟩
  refine Triple.ite (fun _ => ?_) fun below => Triple.pure _ ?_
  · refine (drainBatch_ends g asked answered fuel t e.wq.length low order).weaken ?_
      fun _ _ held => held
    rintro _ rfl
    exact ⟨holds, Nat.le_refl _, depth⟩
  · rintro _ rfl
    rw [holds.config] at below
    exact ⟨holds, by omega, depth⟩

theorem enqueue_ends (fuel : Nat) (arrive : Int) (a : Nat) (aligned : g.burstBytes.toNat ∣ a)
    (positive : 0 < g.p.wqDepth) (low : 0 < g.p.wqLow) (order : g.p.wqLow ≤ g.p.wqHigh) :
    Ends (fun e => Holds g asked answered e ∧ Fits g e ∧ a ∉ queuedAddrs e)
      (enqueue fuel arrive a)
      (fun _ e => Holds g asked ((a, true) :: answered) e ∧ Fits g e) := by
  refine Triple.bind (fun _ e => Holds g asked answered e ∧ Fits g e ∧ a ∉ queuedAddrs e)
    (Triple.update _ ?_) fun _ => ?_
  · rintro e ⟨holds, fits, absent⟩
    refine ⟨holds.same rfl rfl rfl rfl rfl rfl rfl, ⟨fits.high, ?_⟩, absent⟩
    have shorter : (e.retire arrive).leaving.length ≤ e.leaving.length :=
      (List.dropWhile_sublist _).length_le
    have depth := fits.depth
    simp only [slots, Engine.retire] at depth shorter ⊢
    omega
  apply Triple.get
  rintro e ⟨holds, fits, absent⟩
  refine Triple.bind _ ((holdBack_ends g asked answered fuel _ arrive a positive).weaken ?_
    fun _ _ held => held) fun t => ?_
  · rintro _ rfl
    exact ⟨holds, fits.high, Nat.le_refl _, absent⟩
  refine Triple.bind (fun _ e => Holds g asked ((a, true) :: answered) e ∧
    (slots e : Int) ≤ g.p.wqDepth) (Triple.update _ ?_) fun _ => ?_
  · rintro now ⟨still, high, room, absentNow⟩
    refine ⟨still.accept a t absentNow aligned, ?_⟩
    simp only [slots, List.length_append, List.length_singleton] at room ⊢
    omega
  exact Triple.bind _ (drainHigh_ends g asked ((a, true) :: answered) fuel t low order)
    fun _ => Triple.pure _ fun _ held => held

theorem queued_ends (fuel : Nat) (arrive : Int) (a : Nat) (w : Bool)
    (aligned : g.burstBytes.toNat ∣ a) (positive : 0 < g.p.wqDepth) (low : 0 < g.p.wqLow)
    (order : g.p.wqLow ≤ g.p.wqHigh) :
    Ends (fun e => Holds g asked answered e ∧ Fits g e) (queued fuel arrive a w)
      (fun _ e => Holds g asked ((a, w) :: answered) e ∧ Fits g e) := by
  refine Triple.bind _ (drainIdle_ends g asked answered fuel arrive) fun _ => ?_
  apply Triple.get
  rintro e ⟨holds, fits⟩
  have met : (e.wq.any fun q => q.addr == a) = true ↔ a ∈ waiting e.trace := by
    rw [holds.queue]
    simp [queuedAddrs]
  have counted := holds.bursts
  refine Triple.ite (fun found => Triple.ite (fun writes => ?_) fun reads => ?_) fun missing =>
    Triple.ite (fun writes => ?_) fun reads => ?_
  · refine Triple.bind (fun _ e => Holds g asked ((a, w) :: answered) e ∧ Fits g e)
      (Triple.put _ fun _ _ => ⟨⟨holds.config, ⟨met.mp found, holds.legal⟩, holds.queue,
        holds.aligned, ?_, holds.kinds, ?_, ?_, holds.asks, ?_⟩, fits.high, fits.depth⟩)
      fun _ => Triple.pure _ fun _ held => held
    · simpa [Note.isCommitted] using counted
    · simp [List.countP_cons, Note.isMerged, holds.merges]
    · simpa [Note.isForwarded] using holds.forwards
    · simp [settled, Note.settles, ← holds.answers, writes]
  · refine Triple.bind (fun _ e => Holds g asked ((a, w) :: answered) e ∧ Fits g e)
      (Triple.put _ fun _ _ => ⟨⟨holds.config, ⟨met.mp found, holds.legal⟩, holds.queue,
        holds.aligned, ?_, holds.kinds, ?_, ?_, holds.asks, ?_⟩, fits.high, fits.depth⟩)
      fun _ => Triple.pure _ fun _ held => held
    · simpa [Note.isCommitted] using counted
    · simpa [Note.isMerged] using holds.merges
    · simp [List.countP_cons, Note.isForwarded, holds.forwards]
    · simp [settled, Note.settles, ← holds.answers, reads]
  · rw [writes]
    refine (enqueue_ends g asked answered fuel arrive a aligned positive low order).weaken ?_
      fun _ _ held => held
    rintro _ rfl
    exact ⟨holds, fits, fun member => missing (met.mpr (by rwa [holds.queue]))⟩
  · refine (burst_effect fuel arrive a false _).weaken ?_ fun _ _ held => held
    rintro _ rfl chan kind refreshes
    have direction : w = false := by simpa using reads
    refine ⟨⟨holds.config, ⟨fun member => missing (met.mpr member), holds.legal⟩, holds.queue,
      holds.aligned, ?_, serve_kinds _ _ _ _ holds.kinds, ?_, ?_, holds.asks, ?_⟩, fits.high,
      fits.depth⟩
    · simp [Stats.serve, counted, List.countP_cons, Note.isCommitted]
    · simp [Stats.serve, holds.merges, Note.isMerged]
    · simp [Stats.serve, holds.forwards, Note.isForwarded]
    · simp [settled, Note.settles, ← holds.answers, direction]

end Operations

/-! ### Accesses -/

theorem and_multiple (x m k : Nat) (multiple : 2 ^ k ∣ m) : 2 ^ k ∣ x &&& m := by
  apply Nat.dvd_of_mod_eq_zero
  rw [Nat.and_mod_two_pow, Nat.mod_eq_zero_of_dvd multiple, Nat.and_zero]

theorem mod_word_multiple (a k : Nat) (multiple : 2 ^ k ∣ a) : 2 ^ k ∣ a % word := by
  rcases Nat.le_total k 64 with small | large
  · exact (Nat.dvd_mod_iff (Nat.pow_dvd_pow 2 small)).mpr multiple
  · have whole : word ∣ a := Nat.dvd_trans (Nat.pow_dvd_pow 2 large) multiple
    rw [Nat.mod_eq_zero_of_dvd whole]
    exact Nat.dvd_zero _

theorem mask_multiple (k : Nat) : 2 ^ k ∣ word - 1 - (2 ^ k - 1) := by
  rcases Nat.le_total k 64 with small | large
  · have whole : 2 ^ k ∣ word := Nat.pow_dvd_pow 2 small
    have positive : 0 < 2 ^ k := Nat.two_pow_pos k
    have shift : word - 1 - (2 ^ k - 1) = word - 2 ^ k := by omega
    rw [shift]
    exact Nat.dvd_sub whole (Nat.dvd_refl _)
  · have reaches : word ≤ 2 ^ k := Nat.pow_le_pow_right (by decide) large
    have nothing : word - 1 - (2 ^ k - 1) = 0 := by omega
    rw [nothing]
    exact Nat.dvd_zero _

section Accesses

variable {p : Params} {g : Config}

/-- Between bursts everything presented is settled. -/
def Settled (g : Config) (e : Engine) : Prop := ∃ asked, Holds g asked asked e ∧ Fits g e

theorem watermarks (admits : queueAdmits p = true) (positive : 0 < p.wqDepth) :
    0 < p.wqLow ∧ p.wqLow ≤ p.wqHigh ∧ p.wqHigh < p.wqDepth := by
  simp only [queueAdmits, positive, decide_true, Bool.true_and, Bool.not_eq_true',
    Bool.or_eq_false_iff, decide_eq_false_iff_not, Bool.not_eq_false', Bool.and_eq_true,
    decide_eq_true_eq] at admits
  exact ⟨admits.2.1.1, admits.2.1.2, admits.2.2⟩

theorem burst_power (accepted : Accepted p g) :
    ∃ k j, g.burstBytes.toNat = 2 ^ k ∧ g.align.toNat = 2 ^ j ∧ k ≤ j := by
  obtain ⟨k, burst⟩ := accepted.burstPow
  obtain ⟨j, align⟩ := accepted.alignPow
  have toNat : ∀ n : Nat, ((2 : Int) ^ n).toNat = 2 ^ n := by
    intro n
    have cast : ((2 : Int) ^ n) = ((2 ^ n : Nat) : Int) := by simp
    rw [cast, Int.toNat_natCast]
  refine ⟨k, j, by rw [burst, toNat], by rw [align, toNat], ?_⟩
  have wide := accepted.aligned
  rw [burst, align] at wide
  exact (pow_le_pow_iff_right₀ (by norm_num)).mp wide

theorem first_aligned (accepted : Accepted p g) (addr : Nat) :
    g.burstBytes.toNat ∣ firstOf g.align addr := by
  obtain ⟨k, j, burst, align, order⟩ := burst_power accepted
  rw [burst, firstOf, align]
  exact Nat.dvd_trans (Nat.pow_dvd_pow 2 order) (and_multiple _ _ j (mask_multiple j))

theorem next_aligned (accepted : Accepted p g) (a : Nat) (aligned : g.burstBytes.toNat ∣ a) :
    g.burstBytes.toNat ∣ (a + g.burstBytes.toNat) % word := by
  obtain ⟨k, _, power, _, _⟩ := burst_power accepted
  rw [power] at aligned ⊢
  exact mod_word_multiple _ k (Nat.dvd_add aligned (Nat.dvd_refl _))

theorem accessTurns_ends (accepted : Accepted p g) (positive : 0 < p.wqDepth) (fuel : Nat)
    (arrive : Int) (last : Nat) (w : Bool) (turns a : Nat) (done : Int)
    (aligned : g.burstBytes.toNat ∣ a) :
    Ends (Settled g) (accessTurns fuel arrive last w turns a done) (fun _ => Settled g) := by
  obtain ⟨low, order, high⟩ := watermarks accepted.queue positive
  rw [← accepted.same] at positive low order
  induction turns generalizing a done with
  | zero =>
      exact Triple.ite (fun _ => Triple.throw _ fun _ _ => trivial)
        (fun _ => Triple.pure _ fun _ held => held)
  | succ turns ih =>
      refine Triple.ite (fun _ => ?_) fun _ => Triple.pure _ fun _ held => held
      refine Triple.bind (fun _ e => ∃ asked, Holds g ((a, w) :: asked) asked e ∧ Fits g e)
        (Triple.update _ ?_) fun _ => ?_
      · rintro e ⟨asked, holds, fits⟩
        exact ⟨asked, holds.present a w, fits.high, fits.depth⟩
      apply Triple.get
      rintro e ⟨asked, holds, fits⟩
      refine Triple.bind (fun _ => Settled g) ?_ fun dataEnd => ih _ _ ?_
      · refine Triple.get fun now held => ?_
        subst held
        rw [holds.config, if_pos positive]
        refine (queued_ends g ((a, w) :: asked) asked fuel arrive a w aligned positive low
          order).weaken ?_ ?_
        · rintro _ rfl
          exact ⟨holds, fits⟩
        · rintro _ after ⟨still, fit⟩
          exact ⟨_, still, fit⟩
      · rw [holds.config]
        exact next_aligned accepted a aligned

theorem access_ends (accepted : Accepted p g) (positive : 0 < p.wqDepth) (fuel : Nat)
    (now : Int) (addr size : Nat) (w : Bool) :
    Ends (Settled g) (access fuel now addr size w) (fun _ => Settled g) := by
  refine Triple.bind (fun _ => Settled g) (Triple.update _ ?_) fun _ => ?_
  · rintro e ⟨asked, holds, fits⟩
    refine ⟨asked, holds.same rfl rfl rfl ?_ ?_ ?_ ?_, fits.high, fits.depth⟩ <;> cases w <;> rfl
  apply Triple.get
  rintro e ⟨asked, holds, fits⟩
  have dram : ¬ e.g.hyperram = true := by
    rw [holds.config, accepted.dram]
    simp
  rw [if_neg dram, holds.config]
  have aligned := first_aligned accepted addr
  refine Triple.bind _ ((accessTurns_ends accepted positive fuel _ _ w fuel _ _ aligned).weaken ?_
    fun _ _ held => held) fun done => Triple.pure _ fun _ held => held
  rintro _ rfl
  exact ⟨asked, holds, fits⟩

theorem reachable_settled (dram : p.kind = .dram) (positive : 0 < p.wqDepth) (e : Engine)
    (reached : Reachable p e) : ∃ g, Accepted p g ∧ Settled g e := by
  induction reached with
  | start e created =>
      simp only [create, except_bind] at created
      obtain ⟨g, configured, made⟩ := created
      have accepted := configure_accepted p g dram configured
      obtain ⟨low, order, high⟩ := watermarks accepted.queue positive
      cases made
      refine ⟨g, accepted, [], ⟨rfl, trivial, rfl, by simp [queuedAddrs], rfl, rfl, rfl, rfl, rfl,
        rfl⟩, ?_, ?_⟩
      · simp only [List.length_nil, accepted.same]
        omega
      · simp only [slots, List.length_nil, accepted.same]
        omega
  | access before after fuel now addr size w done _ _ _ ended ih =>
      obtain ⟨g, accepted, settled⟩ := ih
      exact ⟨g, accepted, (access_ends accepted positive fuel now addr size w).ok before after done
        settled ended⟩

/-- Between accesses: the queue is a set of aligned addresses within its bounds,
every burst presented has settled in one way, and no queued write is lost,
repeated or overtaken. -/
theorem write_queue_conserved (dram : p.kind = .dram) (positive : 0 < p.wqDepth) (e : Engine)
    (reached : Reachable p e) :
    (queuedAddrs e).Nodup ∧ (∀ a ∈ queuedAddrs e, e.g.burstBytes.toNat ∣ a) ∧
    (e.wq.length : Int) ≤ p.wqHigh ∧ ((e.wq.length + e.leaving.length : Nat) : Int) ≤ p.wqDepth ∧
    Legal e.trace ∧ waiting e.trace = queuedAddrs e ∧ settled e.trace = presented e.trace ∧
    CombiningQueue.accepted e.trace = issued e.trace ++ queuedAddrs e ∧
    e.st.bursts + e.wq.length + e.st.merged + e.st.forwarded = (presented e.trace).length ∧
    e.st.bursts = e.st.rowHits + e.st.rowMisses + e.st.rowConflicts := by
  obtain ⟨g, accepted, asked, holds, fits⟩ := reachable_settled dram positive e reached
  have config := holds.config
  have same := accepted.same
  have answered : settled e.trace = presented e.trace := holds.answers.trans holds.asks.symm
  have balanced := balance e.trace holds.legal
  have length : (waiting e.trace).length = e.wq.length := by
    rw [holds.queue, queuedAddrs, List.length_map]
  refine ⟨holds.queue ▸ waiting_nodup e.trace holds.legal, config ▸ holds.aligned,
    same ▸ fits.high, same ▸ fits.depth, holds.legal, holds.queue, answered,
    holds.queue ▸ fifo e.trace holds.legal, ?_, holds.kinds⟩
  rw [holds.bursts, holds.merges, holds.forwards, ← answered, ← length]
  exact balanced

/-- The three accesses of `lines` present six bursts; both writes left the queue
in the idle drain before the second access. -/
theorem write_queue_conserved_lines : ∃ e, Reachable DramPresets.lpddr5 e ∧
    e.st.bursts = 6 ∧ e.st.bursts + e.wq.length + e.st.merged + e.st.forwarded =
      (presented e.trace).length := by
  obtain ⟨e, reached, shown⟩ := lines_served
  simp only [decide_eq_true_eq] at shown
  have law := write_queue_conserved rfl (by decide) e reached
  exact ⟨e, reached, shown.1, law.2.2.2.2.2.2.2.2.1⟩

end Accesses

end HeteroSim.WriteQueueLaw
