import HeteroSim.QueueRuns
import HeteroSim.SkipAhead

/-!
The idle drain against what it promises: a write goes only if its column command
issues before the next request arrives. The drain tests the plan of a write;
`burst` commits it, but first lets a refresh due by the planned column command go
and plans again. The two agree unless such a refresh is due.
-/

namespace HeteroSim.IdleDrain

open DramParams DramChannel ChannelMachine DramEngine EngineRuns Effect QueueRuns
open SkipAhead (iterate_nextRefresh)
open WriteQueueLaw (Ends)

section Planning

variable {g : Config}

/-! ### Planning behind a refresh -/

structure Refreshed (stop : Int) (c after : Channel) : Prop where
  banks : ∀ i, i < c.banks.length → (after.bank i).openRow = -1 ∧
    (after.bank i).act = (c.bank i).act ∧ (c.bank i).actOk ≤ (after.bank i).actOk ∧
    stop ≤ (after.bank i).actOk
  size : after.banks.length = c.banks.length
  acts : ∀ rank, after.acts rank = c.acts rank
  lastAct : after.lastAct = c.lastAct ∧ after.lastActRank = c.lastActRank ∧
    after.lastActBg = c.lastActBg
  column : ∀ k w col, after.colAt g.p k w col = c.colAt g.p k w col
  bus : after.busFree = c.busFree
  order : after.order = c.order

theorem refreshOnce_refreshed (c : Channel) :
    Refreshed (g := g) (c.refreshWindow g.p).2 c (c.refreshOnce g.p) where
  banks := by
    intro i inside
    rw [refresh_bank c i inside]
    exact ⟨rfl, rfl, Int.le_max_left .., Int.le_max_right ..⟩
  size := by simp [Channel.refreshOnce]
  acts _ := rfl
  lastAct := ⟨rfl, rfl, rfl⟩
  column _ _ _ := rfl
  bus := rfl
  order := rfl

theorem iterate_refreshed (c : Channel) (n : Nat) :
    Refreshed (g := g) (c.refreshWindow g.p).2 c ((Channel.refreshOnce g.p)^[n + 1] c) := by
  induction n with
  | zero => exact refreshOnce_refreshed c
  | succ n ih =>
      rw [Function.iterate_succ_apply']
      have again := refreshOnce_refreshed (g := g) ((Channel.refreshOnce g.p)^[n + 1] c)
      constructor
      · intro i inside
        obtain ⟨_, act, grows, stop⟩ := ih.banks i inside
        obtain ⟨closed, sameAct, more, _⟩ := again.banks i (ih.size ▸ inside)
        exact ⟨closed, sameAct.trans act, Int.le_trans grows more, Int.le_trans stop more⟩
      · exact again.size.trans ih.size
      · exact fun rank => (again.acts rank).trans (ih.acts rank)
      · exact ⟨again.lastAct.1.trans ih.lastAct.1, again.lastAct.2.1.trans ih.lastAct.2.1,
          again.lastAct.2.2.trans ih.lastAct.2.2⟩
      · exact fun k w col => (again.column k w col).trans (ih.column k w col)
      · exact again.bus.trans ih.bus
      · exact again.order.trans ih.order

theorem actAt_mono (p : Params) (c after : Channel) (b b' : Bank) (k : Coord) (act act' : Int)
    (acts : after.acts k.ra = c.acts k.ra) (lastAct : after.lastAct = c.lastAct)
    (rank : after.lastActRank = c.lastActRank) (group : after.lastActBg = c.lastActBg)
    (same : b'.act = b.act) (grows : b.actOk ≤ b'.actOk) (later : act ≤ max act' b'.actOk) :
    c.actAt p b k act ≤ after.actAt p b' k act' := by
  simp only [Channel.actAt, acts, lastAct, rank, group, same]
  split <;> split <;> omega

theorem colAt_mono (p : Params) (c : Channel) (k : Coord) (w : Bool) (col col' : Int)
    (later : col ≤ col') : c.colAt p k w col ≤ c.colAt p k w col' := by
  cases w <;> cases written : c.lastWasWrite <;> simp only [Channel.colAt, written] <;>
    simp <;> omega

theorem settle_mono (c after : Channel) (k : Coord) (w : Bool) (kind kind' : RowKind)
    (act act' first first' col col' : Int) (later : col ≤ col')
    (column : after.colAt g.p k w col' = c.colAt g.p k w col') (bus : after.busFree = c.busFree) :
    (c.settle g k w kind act first col).col ≤ (after.settle g k w kind' act' first' col').col := by
  have more := colAt_mono g.p c k w col col' later
  simp only [Channel.settle, column, bus]
  omega

theorem scan_open (p : Params) (banks : List Bank) (start : Int) (anyOpen : Bool)
    (opened : anyOpen = true ∨ ∃ b ∈ banks, 0 ≤ b.openRow) :
    (refreshScan p banks start anyOpen).2 = true := by
  induction banks generalizing start anyOpen with
  | nil => simpa [refreshScan] using opened
  | cons b rest ih =>
      rw [refreshScan]
      apply ih
      rcases opened with already | ⟨bank, member, isOpen⟩
      · exact .inl (by simp [already])
      · rcases List.mem_cons.mp member with here | later
        · exact .inl (by simp [← here, isOpen])
        · exact .inr ⟨bank, later, isOpen⟩

theorem window_open (c : Channel) (b : Bank) (member : b ∈ c.banks) (opened : 0 ≤ b.openRow) :
    (c.refreshWindow g.p).2 = (c.refreshWindow g.p).1 + g.p.tRPab + g.p.tRFC := by
  have anyOpen := scan_open g.p c.banks (max c.nextRefresh c.busFree) false
    (.inr ⟨b, member, opened⟩)
  simp only [Channel.refreshWindow, anyOpen, if_true]

theorem plan_closed (c : Channel) (k : Coord) (t : Int) (w : Bool) (ranged : 0 ≤ k.row)
    (closed : (c.bank (bankIndex g.p k)).openRow = -1) :
    c.plan g k t w = c.settle g k w .miss (c.actAt g.p (c.bank (bankIndex g.p k)) k t)
      (c.actAt g.p (c.bank (bankIndex g.p k)) k t)
      (c.actAt g.p (c.bank (bankIndex g.p k)) k t + g.p.tRCD) := by
  have other : ¬ (-1 : Int) = k.row := by omega
  simp only [Channel.plan, closed, other, if_false]
  rfl

theorem replan_later (timed : NonNegative g.p) (short : g.p.tRP ≤ g.p.tRPab + g.p.tRFC)
    (c : Channel) (k : Coord) (t : Int) (w : Bool) (n : Nat)
    (inside : bankIndex g.p k < c.banks.length) (due : t ≤ c.nextRefresh) (ranged : 0 ≤ k.row) :
    (c.plan g k t w).col ≤ (((Channel.refreshOnce g.p)^[n + 1] c).plan g k t w).col := by
  have refreshed := iterate_refreshed (g := g) c n
  generalize (Channel.refreshOnce g.p)^[n + 1] c = after at refreshed
  obtain ⟨closed, act, grows, stop⟩ := refreshed.banks _ inside
  obtain ⟨lastAct, rank, group⟩ := refreshed.lastAct
  obtain ⟨start, _, cycle, _, _⟩ := actAt_bounds g.p after (after.bank (bankIndex g.p k)) k t
  obtain ⟨begins, _, waits⟩ := window_start (p := g.p) c
  have recovery := timed.tRC
  have column := timed.tRCD
  rw [plan_closed after k t w ranged closed]
  have opens : ∀ first, first ≤ max t (after.bank (bankIndex g.p k)).actOk →
      c.actAt g.p (c.bank (bankIndex g.p k)) k first ≤
        after.actAt g.p (after.bank (bankIndex g.p k)) k t := fun first early =>
    actAt_mono g.p c after _ _ k first t (refreshed.acts k.ra) lastAct rank group act grows early
  unfold Channel.plan
  simp only
  split
  next hit =>
    exact settle_mono c after _ _ _ _ _ _ _ _ _ _ (by omega) (refreshed.column ..) refreshed.bus
  split
  next other opened =>
    obtain ⟨_, held⟩ := waits _ (bank_mem c _ inside)
    obtain ⟨active, precharge⟩ := held opened
    have longer := window_open (g := g) c _ (bank_mem c _ inside) opened
    have ready := opens (max (max t ((c.bank (bankIndex g.p k)).act + g.p.tRAS))
      (c.bank (bankIndex g.p k)).preOk + g.p.tRP) (by omega)
    exact settle_mono c after _ _ _ _ _ _ _ _ _ _ (by omega) (refreshed.column ..) refreshed.bus
  next other closed' =>
    have ready := opens t (Int.le_max_left ..)
    exact settle_mono c after _ _ _ _ _ _ _ _ _ _ (by omega) (refreshed.column ..) refreshed.bus

theorem refresh_not_due (c : Channel) (t : Int) (early : 0 < g.p.tREFI → t < c.nextRefresh) :
    c.refresh g.p t = (c, 0) := by
  by_cases off : g.p.tREFI ≤ 0
  · exact refresh_off c t off
  · have nothing : (t + 1 - c.nextRefresh).toNat = 0 := by
      have := early (by omega)
      omega
    simp only [Channel.refresh, off, if_false, nothing, Channel.refreshLoop]

theorem refresh_passes (timed : NonNegative g.p) (c : Channel) (t : Int) (on : 0 < g.p.tREFI) :
    t < (c.refresh g.p t).1.nextRefresh := by
  rw [refresh_iterates timed, iterate_nextRefresh]
  exact (SkipAhead.refresh_due timed on c t).next

theorem burst_quiet (c after : Channel) (fuel n : Nat) (k : Coord) (t : Int) (w : Bool) (pl : Plan)
    (order : c.order ≤ t) (early : 0 < g.p.tREFI → t < c.nextRefresh)
    (quiet : 0 < g.p.tREFI → (c.plan g k t w).col < c.nextRefresh)
    (ended : c.burst g fuel k t w = some (after, n, pl)) :
    pl = c.plan g k t w ∧ after = c.commit g t (c.plan g k t w) w := by
  rw [Channel.burst, max_eq_left order, refresh_not_due c t early] at ended
  cases fuel with
  | zero => simp [Channel.replan] at ended
  | succ fuel =>
      have settled : ¬ (0 < g.p.tREFI ∧ c.nextRefresh ≤ (c.plan g k t w).col) := by
        rintro ⟨on, due⟩
        have := quiet on
        omega
      simp only [Channel.replan, settled, if_false, Option.bind_eq_bind, Option.bind_some,
        Option.some.injEq, Prod.mk.injEq, pure] at ended
      exact ⟨ended.2.2.symm, ended.1.symm⟩

theorem burst_later (timed : NonNegative g.p) (short : g.p.tRP ≤ g.p.tRPab + g.p.tRFC)
    (c after : Channel) (fuel n : Nat) (k : Coord) (t : Int) (w : Bool) (pl : Plan)
    (sound : Sound g c) (ranged : InRange g.p k) (order : c.order ≤ t)
    (early : 0 < g.p.tREFI → t < c.nextRefresh)
    (ended : c.burst g fuel k t w = some (after, n, pl)) : (c.plan g k t w).col ≤ pl.col := by
  obtain ⟨before, refreshed, on, planned, _, _⟩ := burst_spec g timed fuel c after k t w n pl ended
  have kept : before.order = c.order := by rw [refreshed, iterate_order]
  rw [planned, kept, max_eq_left order]
  cases n with
  | zero => rw [refreshed]; exact Int.le_refl _
  | succ n =>
      have inside : bankIndex g.p k < c.banks.length := by
        rw [sound.sized.banks]
        exact bankIndex_lt k ranged
      rw [refreshed]
      exact replan_later timed short c k t w n inside (early (on n.succ_pos)).le ranged.row

theorem burst_behind (timed : NonNegative g.p) (c after : Channel) (fuel n : Nat)
    (k : Coord) (t : Int)
    (w : Bool) (pl : Plan) (sound : Sound g c) (ranged : InRange g.p k) (order : c.order ≤ t)
    (due : c.nextRefresh ≤ (c.plan g k t w).col) (on : 0 < g.p.tREFI)
    (ended : c.burst g fuel k t w = some (after, n, pl)) : (c.refreshWindow g.p).2 ≤ pl.col := by
  obtain ⟨before, refreshed, _, planned, early, _⟩ :=
    burst_spec g timed fuel c after k t w n pl ended
  have kept : before.order = c.order := by rw [refreshed, iterate_order]
  rw [kept, max_eq_left order] at planned
  have first := early on
  cases n with
  | zero =>
      simp only [Function.iterate_zero, id] at refreshed
      subst refreshed planned
      omega
  | succ n =>
      have inside : bankIndex g.p k < c.banks.length := by
        rw [sound.sized.banks]
        exact bankIndex_lt k ranged
      obtain ⟨closed, _, _, stop⟩ := (iterate_refreshed (g := g) c n).banks _ inside
      rw [← refreshed] at closed stop
      rw [planned, plan_closed before k t w ranged.row closed]
      obtain ⟨_, ready, _⟩ := actAt_bounds g.p before (before.bank (bankIndex g.p k)) k t
      have settled := (settle_settled g before k w .miss
        (before.actAt g.p (before.bank (bankIndex g.p k)) k t)
        (before.actAt g.p (before.bank (bankIndex g.p k)) k t)
        (before.actAt g.p (before.bank (bankIndex g.p k)) k t + g.p.tRCD)).after
      have column := timed.tRCD
      omega

end Planning

/-! ### One turn of the drain -/

/-- When the drain would start the write `q`. -/
def startOf (e : Engine) (q : QueuedWrite) : Int :=
  max q.arrive (e.channel (decode e.g q.addr).ch).order

/-- The channel of `q` once the refreshes due by then are done. -/
def readied (e : Engine) (q : QueuedWrite) : Channel :=
  ((e.channel (decode e.g q.addr).ch).refresh e.g.p (startOf e q)).1

/-- The engine once the refreshes due before `q` are done. -/
def ready (e : Engine) (q : QueuedWrite) : Engine :=
  e.refresh (decode e.g q.addr).ch (startOf e q)

def tested (e : Engine) (q : QueuedWrite) : Plan :=
  (readied e q).plan e.g (decode e.g q.addr) (startOf e q) true

/-- The engine at a later turn of the drain. -/
inductive Turns (fuel : Nat) (t : Int) : Engine → Engine → Prop where
  | here (e : Engine) : Turns fuel t e e
  | next (e middle after : Engine) (q : QueuedWrite) (rest : List QueuedWrite)
      (front : e.wq = q :: rest) (idle : startOf e q < t) (early : (tested e q).col < t)
      (sent : issueOldest fuel (startOf e q) (ready e q) = .ok () middle)
      (later : Turns fuel t middle after) : Turns fuel t e after

/-- The write about to be sent meets no refresh before its column command. -/
def Quiet (t : Int) (e : Engine) : Prop :=
  ∀ q, e.wq.head? = some q → startOf e q < t → (tested e q).col < t → 0 < e.g.p.tREFI →
    (tested e q).col < (readied e q).nextRefresh

/-- The first `n` queued writes were sent, and no burst but theirs committed, each
with its column command before `t`. -/
structure SentBefore (t : Int) (e after : Engine) (n : Nat) : Prop where
  config : after.g = e.g
  count : n ≤ e.wq.length
  queue : after.wq = e.wq.drop n
  served : after.st.bursts = e.st.bursts + n
  commits : ∀ ch, ∃ new, (after.channel ch).log = new ++ (e.channel ch).log ∧
    ∀ x ∈ bursts new, x.w = true ∧ x.pl.col < t

/-- The oldest write still queued could not be sent before `t`. -/
def Stopped (t : Int) (e : Engine) : Prop :=
  ∀ q, e.wq.head? = some q → ∀ fuel c n pl,
    (e.channel (decode e.g q.addr).ch).burst e.g fuel (decode e.g q.addr) (startOf e q) true =
      some (c, n, pl) → t ≤ pl.col

section Engines

variable {t : Int}

theorem SentBefore.none (e : Engine) : SentBefore t e e 0 :=
  ⟨rfl, Nat.zero_le _, rfl, rfl, fun _ => ⟨[], rfl, by simp⟩⟩

theorem SentBefore.trans {e middle after : Engine} {m n : Nat} (first : SentBefore t e middle m)
    (second : SentBefore t middle after n) : SentBefore t e after (m + n) where
  config := second.config.trans first.config
  count := by
    have fits := second.count
    rw [first.queue, List.length_drop] at fits
    have known := first.count
    omega
  queue := by rw [second.queue, first.queue, List.drop_drop]
  served := by rw [second.served, first.served, Nat.add_assoc]
  commits := by
    intro ch
    obtain ⟨old, one, before⟩ := first.commits ch
    obtain ⟨new, two, later⟩ := second.commits ch
    refine ⟨new ++ old, by rw [two, one, List.append_assoc], ?_⟩
    intro x member
    simp only [ChannelMachine.bursts, List.filterMap_append, List.mem_append] at member
    exact member.elim (later x) (before x)

theorem channel_set (e after : Engine) (ch : Int) (c : Channel) (config : after.g = e.g)
    (chan : after.chan = e.chan.set ch.toNat c) (inside : ch.toNat < e.chan.length) (i : Int) :
    after.channel i = if i.toNat = ch.toNat then c else e.channel i := by
  by_cases own : i.toNat = ch.toNat
  · simp [Engine.channel, chan, own, List.getD_eq_getElem?_getD, inside]
  · simp [Engine.channel, chan, config, own, List.getD_eq_getElem?_getD,
      List.getElem?_set_ne (Ne.symm own)]

theorem iterate_log (p : Params) (n : Nat) (c : Channel) :
    ∃ new, ((Channel.refreshOnce p)^[n] c).log = new ++ c.log ∧ bursts new = [] := by
  induction n with
  | zero => exact ⟨[], rfl, rfl⟩
  | succ n ih =>
      obtain ⟨new, log, none⟩ := ih
      rw [Function.iterate_succ_apply', refresh_log, log]
      exact ⟨_ :: new, rfl, by rw [bursts_refresh, none]⟩

theorem issueOldest_cases (fuel : Nat) (start : Int) (e after : Engine) (q : QueuedWrite)
    (rest : List QueuedWrite) (front : e.wq = q :: rest)
    (ended : issueOldest fuel start e = .ok () after) :
    ∃ c n pl, (e.channel (decode e.g q.addr).ch).burst e.g fuel (decode e.g q.addr)
        (max start q.arrive) true = some (c, n, pl) ∧ after.g = e.g ∧ after.wq = rest ∧
      after.st.bursts = e.st.bursts + 1 ∧
      after.chan = e.chan.set (decode e.g q.addr).ch.toNat c := by
  obtain ⟨_, _, read, rest'⟩ := bind_ok.mp ended
  cases read
  simp only [front] at rest'
  obtain ⟨_, _, popped, rest'⟩ := bind_ok.mp rest'
  cases popped
  obtain ⟨dataEnd, middle, sent, rest'⟩ := bind_ok.mp rest'
  cases rest'
  obtain ⟨_, _, read, sent⟩ := bind_ok.mp sent
  cases read
  generalize committed : Channel.burst _ _ _ _ _ _ = found at sent
  cases found with
  | none => cases sent
  | some found =>
    obtain ⟨c, n, pl⟩ := found
    obtain ⟨_, _, put, sent⟩ := bind_ok.mp sent
    cases put
    cases sent
    exact ⟨c, n, pl, committed, rfl, rfl, rfl, rfl⟩

variable {p : Params} {g : Config} {e : Engine} {q : QueuedWrite}

theorem readied_ready (timed : NonNegative g.p) (accepted : Accepted p g)
    (connected : Connected g e) :
    Sound g (readied e q) ∧ InRange g.p (decode g q.addr) ∧ (readied e q).order ≤ startOf e q ∧
      (0 < g.p.tREFI → startOf e q < (readied e q).nextRefresh) ∧
      (decode g q.addr).ch.toNat < e.chan.length := by
  have ranged := accepted.decode_in_range q.addr
  rw [← accepted.same] at ranged
  have config := connected.config
  have run := connected.channel (decode g q.addr).ch
  simp only [readied, startOf, config]
  refine ⟨?_, ranged, ?_, fun on => refresh_passes timed _ _ on, ?_⟩
  · exact (BankLaw.channel_law g timed _ (run.trans (refresh_run g timed _ _))).1
  · rw [refresh_iterates timed, iterate_order]
    exact Int.le_max_right ..
  · have inside := ranged.ch
    rw [connected.sized]
    omega

theorem readied_log (timed : NonNegative g.p) (connected : Connected g e) :
    ∃ new, (readied e q).log = new ++ (e.channel (decode g q.addr).ch).log ∧ bursts new = [] := by
  simp only [readied, connected.config]
  rw [refresh_iterates timed]
  exact iterate_log g.p _ _

theorem ready_channel (timed : NonNegative g.p) (accepted : Accepted p g)
    (connected : Connected g e) (ch : Int) :
    (ready e q).channel ch =
      if ch.toNat = (decode g q.addr).ch.toNat then readied e q else e.channel ch := by
  have inside := (readied_ready (q := q) timed accepted connected).2.2.2.2
  apply channel_set e (ready e q) _ _ rfl _ inside
  simp only [ready, readied, Engine.refresh, connected.config]

theorem ready_sentBefore (timed : NonNegative g.p) (accepted : Accepted p g)
    (connected : Connected g e) : SentBefore t e (ready e q) 0 := by
  refine ⟨rfl, Nat.zero_le _, rfl, rfl, fun ch => ?_⟩
  rw [ready_channel timed accepted connected]
  by_cases own : ch.toNat = (decode g q.addr).ch.toNat
  · obtain ⟨new, log, none⟩ := readied_log (q := q) timed connected
    have same : e.channel ch = e.channel (decode g q.addr).ch := by simp [Engine.channel, own]
    rw [if_pos own, log, same]
    exact ⟨new, rfl, by simp [none]⟩
  · rw [if_neg own]
    exact ⟨[], rfl, by simp⟩

theorem turn_sends (timed : NonNegative g.p) (accepted : Accepted p g) (connected : Connected g e)
    (fuel : Nat) (middle : Engine) (rest : List QueuedWrite) (front : e.wq = q :: rest)
    (idle : startOf e q < t) (early : (tested e q).col < t) (quiet : Quiet t e)
    (sent : issueOldest fuel (startOf e q) (ready e q) = .ok () middle) :
    SentBefore t e middle 1 := by
  obtain ⟨sound, ranged, order, passes, inside⟩ := readied_ready (q := q) timed accepted connected
  have still := quiet q (by simp [front]) idle early
  have arrives : max (startOf e q) q.arrive = startOf e q := max_eq_left (Int.le_max_left ..)
  obtain ⟨c, n, pl, committed, same, queue, counted, chan⟩ :=
    issueOldest_cases fuel _ _ middle q rest
    (show (ready e q).wq = q :: rest from front) sent
  have config : (ready e q).g = g := connected.config
  rw [config] at committed chan
  rw [ready_channel timed accepted connected, if_pos rfl, arrives] at committed
  simp only [tested, connected.config] at still early
  obtain ⟨_, after⟩ := burst_quiet _ c fuel n _ _ true pl order passes still committed
  refine (ready_sentBefore timed accepted connected).trans ⟨same, ?_, ?_, counted, fun ch => ?_⟩
  · show 1 ≤ e.wq.length
    simp [front]
  · show middle.wq = e.wq.drop 1
    simp [queue, front]
  · have within : (decode g q.addr).ch.toNat < (ready e q).chan.length := by
      simpa [ready, Engine.refresh] using inside
    rw [channel_set (ready e q) middle _ c same chan within, ready_channel timed accepted connected]
    by_cases here : ch.toNat = (decode g q.addr).ch.toNat
    · rw [if_pos here, if_pos here, after, commit_log]
      refine ⟨[_], rfl, ?_⟩
      intro x member
      simp only [bursts_burst, bursts_nil, List.mem_singleton] at member
      subst member
      exact ⟨rfl, early⟩
    · rw [if_neg here, if_neg here]
      exact ⟨[], rfl, by simp⟩

theorem late_start (timed : NonNegative g.p) (connected : Connected g e)
    (rest : List QueuedWrite) (front : e.wq = q :: rest) (late : t ≤ startOf e q) :
    Stopped t e := by
  intro q' front' fuel c n pl ended
  obtain rfl : q = q' := by simpa [front] using front'
  rw [connected.config] at ended
  obtain ⟨before, refreshed, _, planned, _, _⟩ := burst_spec g timed fuel _ c _ _ true n pl ended
  have started := (BankLaw.channel_law g timed _ (connected.channel (decode g q.addr).ch)).1.ordered
  have kept : before.order = (e.channel (decode g q.addr).ch).order := by
    rw [refreshed, iterate_order]
  have plan := plan_planned g before (decode g q.addr) (max (startOf e q) before.order) true (by
    omega)
  rw [← planned] at plan
  have first := plan.start timed.tRP timed.tRCD
  simp only [Plan.order] at first
  omega

theorem late_column (timed : NonNegative g.p) (short : g.p.tRP ≤ g.p.tRPab + g.p.tRFC)
    (accepted : Accepted p g) (connected : Connected g e) (rest : List QueuedWrite)
    (front : e.wq = q :: rest) (late : t ≤ (tested e q).col) : Stopped t (ready e q) := by
  obtain ⟨sound, ranged, order, passes, inside⟩ := readied_ready (q := q) timed accepted connected
  intro q' front' fuel c n pl ended
  obtain rfl : q = q' := by simpa [ready, Engine.refresh, front] using front'
  have own : (ready e q).channel (decode g q.addr).ch = readied e q := by
    rw [ready_channel timed accepted connected, if_pos rfl]
  have config : (ready e q).g = g := connected.config
  have start : startOf (ready e q) q = startOf e q := by
    have same : (readied e q).order = (e.channel (decode g q.addr).ch).order := by
      simp only [readied, connected.config]
      rw [refresh_iterates timed, iterate_order]
    simp only [startOf, config, own, same, connected.config]
  rw [start, config, own] at ended
  have later := burst_later timed short _ c fuel n _ _ true pl sound ranged order passes ended
  simp only [tested, connected.config] at late
  omega

theorem drainTurns_right (timed : NonNegative g.p) (short : g.p.tRP ≤ g.p.tRPab + g.p.tRFC)
    (accepted : Accepted p g) (fuel turns : Nat) (e after : Engine) (connected : Connected g e)
    (enough : e.wq.length ≤ turns) (quiet : ∀ later, Turns fuel t e later → Quiet t later)
    (ended : drainTurns fuel t turns e = .ok () after) :
    (∃ n, SentBefore t e after n) ∧ Stopped t after := by
  induction turns generalizing e with
  | zero =>
      cases ended
      have empty : after.wq = [] := List.length_eq_zero_iff.mp (by omega)
      exact ⟨⟨0, SentBefore.none _⟩, fun q front => by simp [empty] at front⟩
  | succ turns ih =>
      obtain ⟨_, _, read, rest'⟩ := bind_ok.mp ended
      cases read
      cases front : e.wq with
      | nil =>
          simp only [front] at rest'
          cases rest'
          exact ⟨⟨0, SentBefore.none _⟩, fun q head => by simp [front] at head⟩
      | cons q rest =>
          simp only [front] at rest'
          rcases ite_ok.mp rest' with ⟨late, stopped⟩ | ⟨idle, goes⟩
          · cases stopped
            exact ⟨⟨0, SentBefore.none _⟩, late_start timed connected rest front late⟩
          obtain ⟨_, _, refreshed, goes⟩ := bind_ok.mp goes
          cases refreshed
          obtain ⟨_, _, read, goes⟩ := bind_ok.mp goes
          cases read
          have own := ready_channel (q := q) timed accepted connected (decode g q.addr).ch
          rw [if_pos rfl] at own
          have plan : (((ready e q).channel (decode e.g q.addr).ch).plan (ready e q).g
              (decode e.g q.addr) (startOf e q) true) = tested e q := by
            have config : (ready e q).g = g := connected.config
            rw [connected.config, own, config, tested, connected.config]
          rcases ite_ok.mp goes with ⟨late, stopped⟩ | ⟨early, goes⟩
          · cases stopped
            exact ⟨⟨0, ready_sentBefore timed accepted connected⟩,
              late_column timed short accepted connected rest front (plan ▸ late)⟩
          obtain ⟨_, middle, sent, goes⟩ := bind_ok.mp goes
          have before : (tested e q).col < t := Int.not_le.mp (plan ▸ early)
          have once := turn_sends timed accepted connected fuel middle rest front
            (Int.not_le.mp idle) before (quiet e (.here e)) sent
          have kept : Connected g middle := by
            have refreshed := connected.refreshed timed accepted q.addr (startOf e q)
            rw [← connected.config] at refreshed
            exact ((connected_stable timed accepted).issueOldest fuel (startOf e q)).ok
              (ready e q) middle ()
              (connected.config ▸ refreshed) sent
          have fewer : middle.wq.length ≤ turns := by
            rw [once.queue, List.length_drop]
            omega
          obtain ⟨⟨n, more⟩, stops⟩ := ih middle kept fewer (fun later reached =>
            quiet later (.next e middle later q rest front (Int.not_le.mp idle) before
              sent reached)) goes
          exact ⟨⟨1 + n, once.trans more⟩, stops⟩

/-- Where a write is sent although a refresh is due by its column command, and `t`
comes before that refresh is over, the write is committed at `t` or later. -/
theorem refresh_goes_first (timed : NonNegative g.p) (accepted : Accepted p g)
    (connected : Connected g e) (on : 0 < g.p.tREFI)
    (due : (readied e q).nextRefresh ≤ (tested e q).col)
    (soon : t ≤ ((readied e q).refreshWindow g.p).2) (fuel n : Nat) (c : Channel) (pl : Plan)
    (ended : (readied e q).burst g fuel (decode g q.addr) (startOf e q) true = some (c, n, pl)) :
    t ≤ pl.col := by
  obtain ⟨sound, ranged, order, _, _⟩ := readied_ready (q := q) timed accepted connected
  simp only [tested, connected.config] at due
  exact Int.le_trans soon
    (burst_behind timed _ c fuel n _ _ true pl sound ranged order due on ended)

end Engines

/-- Every write the idle drain sends is committed with its column command before
`t`, and the drain stops at the first for which that is impossible, if no write
it sends meets a refresh on the way to its column command. -/
theorem idle_drain_right {p : Params} {Next : Int → Int → Prop} {e : Engine} {h : History}
    {stage : Stage} (dram : p.kind = .dram) (timed : NonNegative p)
    (short : p.tRP ≤ p.tRPab + p.tRFC) (run : Runs p Next e h stage) (fuel : Nat) (t : Int)
    (after : Engine) (quiet : ∀ later, Turns fuel t e later → Quiet t later)
    (ended : drainIdle fuel t e = .ok () after) :
    (∃ n, SentBefore t e after n) ∧ Stopped t after := by
  obtain ⟨g, accepted, start⟩ := run.accepted dram
  have connected := run.connected accepted timed start
  obtain ⟨_, _, read, rest⟩ := bind_ok.mp ended
  cases read
  have same := accepted.same
  exact drainTurns_right (same.symm ▸ timed) (same.symm ▸ short) accepted fuel _ _ after connected
    (Nat.le_refl _) quiet rest

instance (t : Int) (e : Engine) : Decidable (Quiet t e) :=
  match front : e.wq with
  | [] => .isTrue fun q head => by simp [front] at head
  | q :: _ =>
      decidable_of_iff (startOf e q < t → (tested e q).col < t → 0 < e.g.p.tREFI →
        (tested e q).col < (readied e q).nextRefresh) (by simp [Quiet, front])

def calm (fuel : Nat) (t : Int) : Nat → Engine → Bool
  | 0, e => e.wq.isEmpty
  | turns + 1, e =>
      decide (Quiet t e) &&
        match e.wq with
        | [] => true
        | q :: _ =>
            match issueOldest fuel (startOf e q) (ready e q) with
            | .ok _ middle => calm fuel t turns middle
            | .error _ _ => true

theorem calm_quiet {fuel turns : Nat} {t : Int} {e later : Engine}
    (checked : calm fuel t turns e = true) (reached : Turns fuel t e later) : Quiet t later := by
  induction reached generalizing turns with
  | here e =>
      cases turns with
      | zero =>
          have empty := List.isEmpty_iff.mp checked
          exact fun q head => by simp [empty] at head
      | succ turns =>
          simp only [calm, Bool.and_eq_true, decide_eq_true_eq] at checked
          exact checked.1
  | next e middle after q rest front idle early sent _ ih =>
      cases turns with
      | zero =>
          have empty := List.isEmpty_iff.mp checked
          simp [front] at empty
      | succ turns =>
          simp only [calm, front, sent, Bool.and_eq_true] at checked
          exact ih checked.2

/-- A line is written 106 ns before a refresh is due, and both bursts of it are sent before
the next request, which comes before the refresh. -/
theorem idle_drain_right_line : ∃ e h now after,
    Runs DramPresets.lpddr5 (· ≤ ·) e h (.idle now) ∧ drainIdle 4 3900000 e = .ok () after ∧
      0 < e.g.p.tREFI ∧ e.wq.length = 2 ∧ after.wq.length = 0 ∧
      (∃ n, SentBefore 3900000 e after n) ∧ Stopped 3900000 after := by
  obtain ⟨e, h, run, shown⟩ := displays_runs DramPresets.lpddr5 4 0 [⟨3800000, 0, 64, true⟩]
    (fun e _ => match drainIdle 4 3900000 e with
      | .ok _ after => decide (0 < e.g.p.tREFI) && decide (e.wq.length = 2) &&
          decide (after.wq.length = 0) && calm 4 3900000 2 e
      | .error _ _ => false) (by decide +kernel)
  cases ended : drainIdle 4 3900000 e with
  | error reason stuck => simp [ended] at shown
  | ok done after =>
      simp only [ended, Bool.and_eq_true, decide_eq_true_eq] at shown
      obtain ⟨⟨⟨on, queued⟩, drained⟩, checked⟩ := shown
      exact ⟨e, h, _, after, run, ended, on, queued, drained,
        idle_drain_right rfl (by decide) (by decide) run 4 3900000 after
          (fun later reached => calm_quiet checked reached) ended⟩

/-- A line is written 15 ns before a refresh is due, and the queue is drained for a
request 40 ns after the write reached it: the first burst is sent, and its column
command comes after the refresh, long after the request. -/
theorem drained_behind_refresh : ∃ e h now after,
    Runs DramPresets.lpddr5 (· ≤ ·) e h (.idle now) ∧ drainIdle 4 3930000 e = .ok () after ∧
      ¬ ∃ n, SentBefore 3930000 e after n := by
  obtain ⟨e, h, run, shown⟩ := displays_runs DramPresets.lpddr5 4 0 [⟨3880000, 0, 64, true⟩]
    (fun e _ => match drainIdle 4 3930000 e with
      | .ok _ after => (e.channel 0).log.isEmpty &&
          (bursts (after.channel 0).log).any fun x : Burst => decide (3930000 ≤ x.pl.col)
      | .error _ _ => false) (by decide +kernel)
  cases ended : drainIdle 4 3930000 e with
  | error reason stuck => simp [ended] at shown
  | ok done after =>
      simp only [ended, Bool.and_eq_true, List.isEmpty_iff, List.any_eq_true, decide_eq_true_eq]
        at shown
      obtain ⟨empty, x, member, late⟩ := shown
      refine ⟨e, h, _, after, run, ended, ?_⟩
      rintro ⟨n, right⟩
      obtain ⟨new, log, early⟩ := right.commits 0
      rw [empty, List.append_nil] at log
      have before := (early x (log ▸ member)).2
      omega

end HeteroSim.IdleDrain
