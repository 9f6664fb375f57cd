import HeteroSim.BurstStream

/-!
The first read of an access that does not keep to the gap, and those behind it. If no read
can come sooner than a gap after the one before, none of them is on its turn again, whatever
refreshes go in between.
-/

namespace HeteroSim.BurstStream

open DramParams DramChannel ChannelMachine BurstTimetable

def Rows (s : Stream) (i : Nat) (c : Channel) : Prop :=
  ∀ bank, bank < bankCount s.g.p → (c.bank bank).openRow = -1 ∨
    ∃ j, s.lastIn i bank = some j ∧ (c.bank bank).openRow = (s.place j).row

/-- The channel after the `i`-th read, when it was late. -/
structure Late (s : Stream) (count i : Nat) (c : Channel) : Prop where
  sized : Sized s.g.p c
  rows : Rows s (i + 1) c
  column : s.column i < c.lastCol
  bus : c.busFree = c.lastCol + s.g.p.tRL + s.g.burstPs
  group : c.lastColRank = (s.place i).ra ∧ c.lastColBg = (s.place i).bg
  act : RowPaced s count → s.start + i * s.gap < c.lastAct ∧ c.lastActRank = (s.place i).ra ∧
    c.lastActBg = (s.place i).bg

section Delays

variable {s : Stream} {count i : Nat} {c : Channel}

/-! ### Refreshes in between -/

structure Rested (s : Stream) (c after : Channel) : Prop where
  order : after.order = c.order
  bus : after.busFree = c.busFree
  column : after.lastCol = c.lastCol ∧ after.lastColRank = c.lastColRank ∧
    after.lastColBg = c.lastColBg
  act : after.lastAct = c.lastAct ∧ after.lastActRank = c.lastActRank ∧
    after.lastActBg = c.lastActBg
  size : after.banks.length = c.banks.length ∧ after.faw.length = c.faw.length
  due : c.nextRefresh ≤ after.nextRefresh
  rows : after = c ∨ 0 < s.g.p.tREFI ∧ ∀ b ∈ after.banks, b.openRow = -1 ∧ c.nextRefresh ≤ b.actOk

theorem Rested.refl (c : Channel) : Rested s c c :=
  ⟨rfl, rfl, ⟨rfl, rfl, rfl⟩, ⟨rfl, rfl, rfl⟩, ⟨rfl, rfl⟩, Int.le_refl _, Or.inl rfl⟩

theorem Rested.trans {middle after : Channel} (first : Rested s c middle)
    (second : Rested s middle after) : Rested s c after where
  order := second.order.trans first.order
  bus := second.bus.trans first.bus
  column := ⟨second.column.1.trans first.column.1, second.column.2.1.trans first.column.2.1,
    second.column.2.2.trans first.column.2.2⟩
  act := ⟨second.act.1.trans first.act.1, second.act.2.1.trans first.act.2.1,
    second.act.2.2.trans first.act.2.2⟩
  size := ⟨second.size.1.trans first.size.1, second.size.2.trans first.size.2⟩
  due := Int.le_trans first.due second.due
  rows := by
    rcases second.rows with rfl | ⟨on, closed⟩
    · exact first.rows
    · exact Or.inr ⟨on, fun b member => ⟨(closed b member).1,
        Int.le_trans first.due (closed b member).2⟩⟩

theorem refreshOnce_closed (c : Channel) (timed : 0 ≤ s.g.p.tRFC ∧ 0 ≤ s.g.p.tRPab) :
    ∀ b ∈ (c.refreshOnce s.g.p).banks, b.openRow = -1 ∧ c.nextRefresh ≤ b.actOk := by
  intro b member
  obtain ⟨old, _, rfl⟩ := List.mem_map.mp member
  have begins := (window_start (p := s.g.p) c).1
  have stops : (c.refreshWindow s.g.p).1 ≤ (c.refreshWindow s.g.p).2 := by
    simp only [Channel.refreshWindow]
    split <;> omega
  exact ⟨rfl, by simp only; omega⟩

theorem refreshOnce_rested (c : Channel) (on : 0 < s.g.p.tREFI)
    (timed : 0 ≤ s.g.p.tRFC ∧ 0 ≤ s.g.p.tRPab) (n : Nat) :
    Rested s c ((c.refreshOnce s.g.p).skipAhead s.g.p n) := by
  have closed := refreshOnce_closed c timed
  have due : c.nextRefresh ≤ (c.refreshOnce s.g.p).nextRefresh := by
    simp only [Channel.refreshOnce]
    omega
  have size : (c.refreshOnce s.g.p).banks.length = c.banks.length := by
    simp [Channel.refreshOnce]
  simp only [Channel.skipAhead]
  split
  · exact ⟨rfl, rfl, ⟨rfl, rfl, rfl⟩, ⟨rfl, rfl, rfl⟩, ⟨size, rfl⟩, due, Or.inr ⟨on, closed⟩⟩
  · refine ⟨rfl, rfl, ⟨rfl, rfl, rfl⟩, ⟨rfl, rfl, rfl⟩, ⟨by simpa using size, rfl⟩, ?_, ?_⟩
    · have more := Int.mul_nonneg (Int.natCast_nonneg n) on.le
      simp only
      omega
    · refine Or.inr ⟨on, fun b member => ?_⟩
      obtain ⟨old, before, rfl⟩ := List.mem_map.mp member
      obtain ⟨row, late⟩ := closed old before
      exact ⟨row, Int.le_trans late (Int.le_max_left _ _)⟩

theorem refresh_rested (c : Channel) (t : Int)
    (timed : 0 < s.g.p.tREFI → 0 ≤ s.g.p.tRFC ∧ 0 ≤ s.g.p.tRPab) :
    Rested s c (c.refresh s.g.p t).1 := by
  have loop : ∀ turns c, 0 < s.g.p.tREFI → Rested s c (c.refreshLoop s.g.p t turns).1 := by
    intro turns
    induction turns with
    | zero => exact fun c _ => .refl c
    | succ turns ih =>
        intro c on
        rw [Channel.refreshLoop]
        split
        · exact (refreshOnce_rested c on (timed on) _).trans (ih _ on)
        · exact .refl c
  rw [Channel.refresh]
  split
  · exact .refl c
  · exact loop _ c (by omega)

theorem replan_rested (k : Coord) (t : Int) (fuel n : Nat) (c after : Channel) (pl : Plan)
    (timed : 0 < s.g.p.tREFI → 0 ≤ s.g.p.tRFC ∧ 0 ≤ s.g.p.tRPab)
    (ended : c.replan s.g k t false fuel = some (after, n, pl)) :
    Rested s c after ∧ pl = after.plan s.g k t false := by
  induction fuel generalizing c n with
  | zero => cases ended
  | succ fuel ih =>
      rw [Channel.replan] at ended
      simp only at ended
      split at ended
      · simp only [Option.bind_eq_bind, Option.bind_eq_some_iff, Prod.exists] at ended
        obtain ⟨found, m, plan, rest, same⟩ := ended
        cases same
        obtain ⟨rested, planned⟩ := ih _ _ rest
        exact ⟨(refresh_rested _ _ timed).trans rested, planned⟩
      · cases ended
        exact ⟨.refl _, rfl⟩

theorem burst_rested (k : Coord) (arrive : Int) (fuel n : Nat) (c after : Channel) (pl : Plan)
    (timed : 0 < s.g.p.tREFI → 0 ≤ s.g.p.tRFC ∧ 0 ≤ s.g.p.tRPab)
    (ended : c.burst s.g fuel k arrive false = some (after, n, pl)) :
    ∃ before, Rested s c before ∧ pl = before.plan s.g k (max arrive c.order) false ∧
      after = before.commit s.g arrive pl false := by
  simp only [Channel.burst, Option.bind_eq_bind, Option.bind_eq_some_iff, Prod.exists] at ended
  obtain ⟨before, m, plan, replanned, same⟩ := ended
  cases same
  obtain ⟨rested, planned⟩ := replan_rested k _ fuel m _ before _ timed replanned
  exact ⟨before, (refresh_rested _ _ timed).trans rested, planned, rfl⟩

/-! ### A read that is late -/

theorem Follows.rows (follows : Follows s i c) : Rows s i c := by
  intro bank _
  rw [follows.banks, bankAt]
  cases found : s.lastIn i bank with
  | none => exact Or.inl rfl
  | some j => exact Or.inr ⟨j, rfl, rfl⟩

theorem Rows.rested {after : Channel} (rows : Rows s i c) (sized : Sized s.g.p c)
    (rested : Rested s c after) : Rows s i after := by
  intro bank inside
  rcases rested.rows with rfl | ⟨_, closed⟩
  · exact rows bank inside
  · have here : bank < after.banks.length := by
      rw [rested.size.1, sized.banks]
      exact inside
    exact Or.inl (closed _ (bank_mem after bank here)).1

theorem Rows.opens (rows : Rows s i c) (sane : Sane s count) (pl : Plan) {t : Int}
    (planned : Planned s.g c (s.place i) t false pl) (kind : s.kind i ≠ .hit) :
    pl.kind ≠ .hit := by
  intro hit
  have row := place_row sane i
  obtain ⟨same, _⟩ := planned.hit hit
  rw [planned.bank] at same
  rcases rows (s.bank i) (bank_inside sane i) with closed | ⟨j, last, isOpen⟩
  · have other := same.symm.trans closed
    omega
  · apply kind
    simp only [Stream.kind, last]
    rw [if_pos (isOpen.symm.trans same)]

theorem Rows.commit (rows : Rows s i c) (sane : Sane s count) (sized : Sized s.g.p c) (pl : Plan)
    {t : Int} (planned : Planned s.g c (s.place i) t false pl) (arrive : Int) :
    Rows s (i + 1) (c.commit s.g arrive pl false) := by
  intro bank inside
  have bounded : pl.bank < c.banks.length := by
    rw [planned.bank, sized.banks]
    exact bank_inside sane i
  rw [commit_bank s.g c arrive pl false bounded bank, lastIn_succ, planned.bank]
  by_cases here : bank = bankIndex s.g.p (s.place i)
  · rw [if_pos here]
    refine Or.inr ⟨i, if_pos here.symm, ?_⟩
    simp only [Bank.served]
    split
    next hit =>
      have same := (planned.hit hit).1
      rwa [planned.bank, ← here] at same
    next => rw [planned.coord]
  · rw [if_neg here, if_neg fun same => here same.symm]
    exact rows bank inside

theorem late_commit (sane : Sane s count) (rows : Rows s i c) (sized : Sized s.g.p c) (pl : Plan)
    {t : Int} (planned : Planned s.g c (s.place i) t false pl) (col : s.column i < pl.col)
    (act : RowPaced s count → s.start + i * s.gap < pl.act) (inside : i < count) :
    Late s count i (c.commit s.g s.start pl false) := by
  refine ⟨commit_sized s.g c s.start pl false sized, rows.commit sane sized pl planned s.start,
    col, ?_, ⟨congrArg Coord.ra planned.coord, congrArg Coord.bg planned.coord⟩, fun paced => ?_⟩
  · show pl.dataEnd = pl.col + _ + _
    rw [planned.data]
    rfl
  · have opens := rows.opens sane pl planned (paced.opens i inside)
    have acts := commit_lastAct (s := s) c s.start pl
    rw [if_neg opens, planned.coord] at acts
    obtain ⟨time, rank, group⟩ := by simpa only [Prod.mk.injEq] using acts
    exact ⟨by rw [time]; exact act paced, rank, group⟩

theorem refreshed_late (sane : Sane s count) (follows : Follows s i c) {before : Channel}
    (closed : ∀ b ∈ before.banks, b.openRow = -1 ∧ c.nextRefresh ≤ b.actOk)
    (size : before.banks.length = c.banks.length) (on : 0 < s.g.p.tREFI) (inside : i < count)
    (pl : Plan) {t : Int} (planned : Planned s.g before (s.place i) t false pl) :
    s.column i < pl.act ∧ s.column i < pl.col := by
  have here : s.bank i < before.banks.length := by
    rw [size, follows.sized.banks]
    exact bank_inside sane i
  obtain ⟨shut, held⟩ := closed _ (bank_mem before (s.bank i) here)
  have row := place_row sane i
  have bank : pl.bank = s.bank i := planned.bank
  have opens : pl.kind ≠ .hit := by
    intro hit
    have same := (planned.hit hit).1
    rw [bank, shut] at same
    omega
  have act := planned.actOk opens
  rw [bank] at act
  have due := (sane.refresh on).2.2 i inside
  have settles := sane.settles.1
  have column := planned.after
  rw [follows.refresh] at held
  omega

theorem Follows.late (follows : Follows s i c) (sane : Sane s count) (inside : i < count)
    (missed : ¬ s.OnTime i) (fuel n : Nat) (after : Channel) (pl : Plan)
    (ended : c.burst s.g fuel (s.place i) s.start false = some (after, n, pl)) :
    Late s count i after ∧ s.column i + s.g.p.tRL + s.g.burstPs < pl.dataEnd := by
  obtain ⟨before, rested, planning, rfl⟩ := burst_rested (s.place i) s.start fuel n c after pl
    (fun on => ⟨(sane.refresh on).1, (sane.refresh on).2.1⟩) ended
  have started : 0 ≤ max s.start c.order := Int.le_trans sane.start (Int.le_max_left _ _)
  have planned := plan_planned s.g before (s.place i) (max s.start c.order) false started
  rw [← planning] at planned
  have settles := sane.settles.1
  have later : s.column i < pl.col ∧ (RowPaced s count → s.start + i * s.gap < pl.act) := by
    rcases rested.rows with same | ⟨on, closed⟩
    · rw [follows.order] at planning
      subst same
      have drawn := follows.drawn sane
      rw [← planning] at drawn
      by_cases row : s.Prompt i (s.greedy i)
      · -- Its row was ready, so it is its column command that came too close.
        obtain ⟨j, rfl, wide⟩ : ∃ j, i = j + 1 ∧ s.gap < s.columnGap j := by
          by_contra none
          refine missed ⟨fun j next => ?_, row⟩
          by_contra wide
          exact none ⟨j, next.symm, Int.not_le.mp wide⟩
        have spacing := follows.spacing
        have column := drawn.column
        rw [max_assoc, spacing] at column
        have next := column_next s j
        refine ⟨by omega, fun paced => ?_⟩
        have narrow := (paced.apart j inside).2.2
        omega
      · simp only [Stream.Prompt, Classical.not_imp, Int.not_le] at row
        have act := drawn.act row.1
        have column := planned.after
        simp only [Stream.column]
        exact ⟨by omega, fun _ => by omega⟩
    · obtain ⟨act, column⟩ := refreshed_late sane follows closed rested.size.1 on inside pl planned
      simp only [Stream.column] at act column ⊢
      exact ⟨column, fun _ => by omega⟩
  have sized : Sized s.g.p before := ⟨rested.size.1.trans follows.sized.banks,
    rested.size.2.trans follows.sized.faw⟩
  refine ⟨late_commit sane (follows.rows.rested follows.sized rested) sized pl planned later.1
    later.2 inside, ?_⟩
  have data := planned.data
  simp only [latency, Bool.false_eq_true, if_false] at data
  omega

theorem Late.next (late : Late s count i c) (sane : Sane s count) (paced : Paced s count)
    (inside : i + 1 < count) (fuel n : Nat) (after : Channel) (pl : Plan)
    (ended : c.burst s.g fuel (s.place (i + 1)) s.start false = some (after, n, pl)) :
    Late s count (i + 1) after ∧
      s.column (i + 1) + s.g.p.tRL + s.g.burstPs < pl.dataEnd := by
  obtain ⟨before, rested, planning, rfl⟩ := burst_rested (s.place (i + 1)) s.start fuel n c after
    pl (fun on => ⟨(sane.refresh on).1, (sane.refresh on).2.1⟩) ended
  have started : 0 ≤ max s.start c.order := Int.le_trans sane.start (Int.le_max_left _ _)
  have planned := plan_planned s.g before (s.place (i + 1)) (max s.start c.order) false started
  rw [← planning] at planned
  have sized : Sized s.g.p before := ⟨rested.size.1.trans late.sized.banks,
    rested.size.2.trans late.sized.faw⟩
  have rows := late.rows.rested late.sized rested
  have settles := sane.settles.1
  have next := column_next s i
  have column := late.column
  have act : RowPaced s count → s.start + (i + 1 : Nat) * s.gap < pl.act := by
    intro pace
    obtain ⟨rank, apart, _⟩ := pace.apart i inside
    obtain ⟨time, lastRank, lastGroup⟩ := late.act pace
    have opens := rows.opens sane pl planned (pace.opens (i + 1) inside)
    have rrd := planned.rrd opens (by rw [rested.act.2.1, lastRank]; exact rank)
    rw [rested.act.1, rested.act.2.2, lastGroup] at rrd
    simp only [Stream.rowGap] at apart
    push_cast [Int.add_mul]
    omega
  have later : s.column (i + 1) < pl.col := by
    rcases paced with columns | pace
    · have floor := columns i inside
      have ccd := planned.ccd
      have bus := planned.bus
      rw [rested.column.1] at ccd
      rw [rested.bus, late.bus] at bus
      simp only [Channel.sameGroup, rested.column.2.1, rested.column.2.2, late.group.1,
        late.group.2, Bool.and_eq_true, beq_iff_eq] at ccd
      simp only [latency, Bool.false_eq_true, if_false] at bus
      simp only [Stream.columnGap] at floor
      omega
    · have turn := act pace
      have after := planned.after
      simp only [Stream.column]
      omega
  refine ⟨late_commit sane rows sized pl planned later act inside, ?_⟩
  have data := planned.data
  simp only [latency, Bool.false_eq_true, if_false] at data
  omega

end Delays

end HeteroSim.BurstStream
