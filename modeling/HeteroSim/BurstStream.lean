import HeteroSim.IdleDrain
import HeteroSim.BurstTimetable

/-!
The reads of one access on an unused channel. As long as they keep to their gap the channel
goes by the earliest timetable.
-/

namespace HeteroSim.BurstStream

open DramParams DramChannel ChannelMachine IdleDrain BurstTimetable

structure Sane (s : Stream) (count : Nat) : Prop where
  start : 0 ≤ s.start
  settles : 0 ≤ s.g.p.tRCD ∧ 0 ≤ s.g.p.tRL
  burst : 0 ≤ s.g.burstPs ∧ s.g.burstPs ≤ s.gap
  past : never + s.g.p.tCCD_S ≤ s.start + s.g.p.tRCD
  ranged : ∀ i, InRange s.g.p (s.place i)
  refresh : 0 < s.g.p.tREFI → 0 ≤ s.g.p.tRFC ∧ 0 ≤ s.g.p.tRPab ∧
    ∀ i, i < count → s.column i < s.g.p.tREFI

structure RowPaced (s : Stream) (count : Nat) : Prop where
  opens : ∀ i, i < count → s.kind i ≠ .hit
  apart : ∀ i, i + 1 < count → (s.place i).ra = (s.place (i + 1)).ra ∧
    s.gap ≤ s.rowGap i (i + 1) ∧ s.columnGap i ≤ s.gap

def Paced (s : Stream) (count : Nat) : Prop :=
  (∀ i, i + 1 < count → s.gap ≤ s.columnGap i) ∨ RowPaced s count

/-- A bank after the reads before the `i`-th, when they were on time. -/
def bankAt (s : Stream) (i bank : Nat) : Bank :=
  match s.lastIn i bank with
  | none => {}
  | some j =>
      { openRow := (s.place j).row
        act := s.opened s.greedy i bank
        preOk := max 0 (s.column j + s.g.p.tRTP) }

/-- The channel after the reads before the `i`-th, when they were on time. -/
structure Follows (s : Stream) (i : Nat) (c : Channel) : Prop where
  sized : Sized s.g.p c
  banks : ∀ bank, c.bank bank = bankAt s i bank
  lastAct : ∀ j, (s.openings i).head? = some j → c.lastAct = (s.greedy j).2 ∧
    c.lastActRank = (s.place j).ra ∧ c.lastActBg = (s.place j).bg
  unopened : (s.openings i).head? = none → c.lastActRank = -1
  acts : ∀ rank, 0 ≤ rank → rank < s.g.p.ranks →
    c.acts rank = (((s.ranked i rank).take 4).map fun j => (s.greedy j).2).reverse
  order : max s.start c.order = s.ready s.greedy i
  fresh : i = 0 → c.lastCol = never ∧ c.busFree = 0 ∧ c.lastColRank = -1
  column : ∀ j, i = j + 1 → c.lastCol = s.column j ∧
    c.busFree = s.column j + s.g.p.tRL + s.g.burstPs ∧ c.lastColRank = (s.place j).ra ∧
    c.lastColBg = (s.place j).bg
  read : c.lastWasWrite = false
  refresh : c.nextRefresh = s.g.p.tREFI

section Streaming

variable {s : Stream} {count i : Nat} {c : Channel}

theorem Sane.gap_nonneg (sane : Sane s count) : 0 ≤ s.gap :=
  Int.le_trans sane.burst.1 sane.burst.2

theorem Sane.step_nonneg (sane : Sane s count) (i : Nat) : 0 ≤ i * s.gap :=
  Int.mul_nonneg (Int.natCast_nonneg i) sane.gap_nonneg

theorem column_next (s : Stream) (i : Nat) : s.column (i + 1) = s.column i + s.gap := by
  simp only [Stream.column]
  push_cast
  ring

theorem Sane.column_mono (sane : Sane s count) {j : Nat} (order : j ≤ i) :
    s.column j ≤ s.column i := by
  have more := Int.mul_le_mul_of_nonneg_right (Int.ofNat_le.mpr order) sane.gap_nonneg
  simp only [Stream.column]
  omega

/-! ### What a read finds -/

@[simp] theorem past_succ (i : Nat) : Stream.past (i + 1) = i :: Stream.past i := rfl

theorem lastIn_succ (s : Stream) (i bank : Nat) :
    s.lastIn (i + 1) bank = if s.bank i = bank then some i else s.lastIn i bank := by
  simp only [Stream.lastIn, past_succ, List.find?_cons]
  by_cases here : s.bank i = bank <;> simp [here]

theorem lastIn_before {bank j : Nat} (found : s.lastIn i bank = some j) : j < i :=
  mem_past.mp (List.mem_of_find?_eq_some found)

theorem openings_succ (s : Stream) (i : Nat) :
    s.openings (i + 1) = if s.kind i = .hit then s.openings i else i :: s.openings i := by
  simp only [Stream.openings, past_succ, List.filter_cons]
  by_cases hit : s.kind i = .hit <;> simp [hit]

theorem opener_succ (s : Stream) (i bank : Nat) :
    s.opener (i + 1) bank =
      if s.kind i ≠ .hit ∧ s.bank i = bank then some i else s.opener i bank := by
  simp only [Stream.opener, openings_succ]
  by_cases hit : s.kind i = .hit <;> by_cases here : s.bank i = bank <;>
    simp [hit, here]

theorem ranked_succ (s : Stream) (i : Nat) (rank : Int) :
    s.ranked (i + 1) rank =
      if s.kind i ≠ .hit ∧ (s.place i).ra = rank then i :: s.ranked i rank
      else s.ranked i rank := by
  simp only [Stream.ranked, openings_succ]
  by_cases hit : s.kind i = .hit <;> by_cases here : (s.place i).ra = rank <;> simp [hit, here]

/-! ### The row commands a read gets -/

theorem place_row (sane : Sane s count) (i : Nat) : 0 ≤ (s.place i).row := (sane.ranged i).row

theorem bank_inside (sane : Sane s count) (i : Nat) : s.bank i < bankCount s.g.p :=
  bankIndex_lt (s.place i) (sane.ranged i)

theorem ready_start (s : Stream) (i : Nat) : s.start ≤ s.ready s.greedy i := by
  cases i with
  | zero => exact Int.le_refl _
  | succ i => exact Int.le_max_left _ _

theorem Follows.found (follows : Follows s i c) (sane : Sane s count) :
    (s.kind i = .hit ↔ (c.bank (s.bank i)).openRow = (s.place i).row) ∧
      (s.kind i = .conflict ↔ (c.bank (s.bank i)).openRow ≠ (s.place i).row ∧
        0 ≤ (c.bank (s.bank i)).openRow) := by
  have row := place_row sane i
  rw [follows.banks, bankAt]
  simp only [Stream.kind]
  cases found : s.lastIn i (s.bank i) with
  | none =>
      simp only [reduceCtorEq, false_iff]
      constructor <;> omega
  | some j =>
      have other := place_row sane j
      by_cases same : (s.place j).row = (s.place i).row <;> simp [same, row, other]

theorem opener_none {bank : Nat} (unread : s.lastIn i bank = none) : s.opener i bank = none := by
  simp only [Stream.lastIn, Stream.opener, List.find?_eq_none] at unread ⊢
  exact fun j member => unread j (List.mem_filter.mp member).1

theorem window_entry (ranked : List Nat) (time : Nat → Int) (act faw : Int) :
    (if ((ranked.take 4).map time).reverse.length = 4 then
      max act (((ranked.take 4).map time).reverse.headD 0 + faw) else act) =
      ranked[3]?.elim act fun j => max act (time j + faw) := by
  match ranked with
  | [] | [_] | [_, _] | [_, _, _] => simp
  | _ :: _ :: _ :: _ :: _ => simp

theorem Follows.bank_times (follows : Follows s i c) (bank : Nat) :
    (c.bank bank).actOk = 0 ∧ (c.bank bank).act = s.opened s.greedy i bank := by
  rw [follows.banks, bankAt]
  cases found : s.lastIn i bank with
  | some j => exact ⟨rfl, rfl⟩
  | none => exact ⟨rfl, by rw [Stream.opened, opener_none found]; rfl⟩

theorem Follows.act_at (follows : Follows s i c) (sane : Sane s count) (act : Int) :
    c.actAt s.g.p (c.bank (s.bank i)) (s.place i) act = s.activate s.greedy i act := by
  obtain ⟨low, high⟩ := (sane.ranged i).ra
  have bank := follows.bank_times (s.bank i)
  have window := follows.acts _ low high
  simp only [Channel.actAt, Stream.activate, bank.1, bank.2, window, window_entry]
  cases last : (s.openings i).head? with
  | none =>
      have other : ¬ c.lastActRank = (s.place i).ra := by
        rw [follows.unopened last]
        omega
      simp only [other, if_false, Option.elim]
  | some j =>
      obtain ⟨time, rank, group⟩ := follows.lastAct j last
      simp only [time, rank, group, Stream.rowGap, Option.elim]

theorem settle_read (c : Channel) (k : Coord) (kind : RowKind) (act first col : Int)
    (read : c.lastWasWrite = false) :
    (c.settle s.g k false kind act first col).col =
      max (max col (c.lastCol + if c.sameGroup k then s.g.p.tCCD_L else s.g.p.tCCD_S))
        (c.busFree - s.g.p.tRL) := by
  simp only [Channel.settle, Channel.colAt, read, latency]
  simp
  omega

/-- When the row of the `i`-th read is ready for its column command. -/
def rowReady (s : Stream) (i : Nat) : Int :=
  if s.kind i = .hit then
    max (s.ready s.greedy i) (s.opened s.greedy i (s.bank i) + s.g.p.tRCD)
  else (s.greedy i).2 + s.g.p.tRCD

/-- The plan the `i`-th read gets when those before it were on time. -/
structure Drawn (s : Stream) (i : Nat) (c : Channel) (pl : Plan) : Prop where
  place : pl.k = s.place i
  bank : pl.bank = s.bank i
  kind : pl.kind = s.kind i
  act : s.kind i ≠ .hit → pl.act = (s.greedy i).2
  first : pl.firstCmd = s.first s.greedy (s.ready s.greedy i) i
  column : pl.col = max (max (rowReady s i)
    (c.lastCol + if c.sameGroup (s.place i) then s.g.p.tCCD_L else s.g.p.tCCD_S))
      (c.busFree - s.g.p.tRL)
  data : pl.dataEnd = pl.col + s.g.p.tRL + s.g.burstPs

theorem settle_data (c : Channel) (k : Coord) (kind : RowKind) (act first col : Int) :
    (c.settle s.g k false kind act first col).dataEnd =
      (c.settle s.g k false kind act first col).col + s.g.p.tRL + s.g.burstPs := by
  simp only [Channel.settle, latency, Bool.false_eq_true, if_false]
  omega

theorem Follows.drawn (follows : Follows s i c) (sane : Sane s count) :
    Drawn s i c (c.plan s.g (s.place i) (s.ready s.greedy i) false) := by
  obtain ⟨hit, conflict⟩ := follows.found sane
  have start := Int.le_trans sane.start (ready_start s i)
  have opened := (follows.bank_times (s.bank i)).2
  have activate := greedy_activate s i
  unfold Channel.plan
  simp only [show bankIndex s.g.p (s.place i) = s.bank i from rfl]
  split
  next same =>
    have kind := hit.mpr same
    refine ⟨rfl, rfl, kind.symm, fun opens => absurd kind opens, ?_, ?_, settle_data ..⟩
    · simp only [Channel.settle, Stream.first, kind]
      rw [← opened]
    · rw [settle_read _ _ _ _ _ _ follows.read, rowReady, if_pos kind, ← opened]
  split
  next other found =>
    have kind := conflict.mpr ⟨other, found⟩
    have row : ¬ s.kind i = .hit := by simp [kind]
    have last : (c.bank (s.bank i)).preOk = max 0 (s.lastRead i) := by
      rw [follows.banks, bankAt, Stream.lastRead]
      cases read : s.lastIn i (s.bank i) <;> rfl
    have pre : max (max (s.ready s.greedy i) ((c.bank (s.bank i)).act + s.g.p.tRAS))
        (c.bank (s.bank i)).preOk = (s.greedy i).1 := by
      rw [greedy_precharge, Stream.precharge, opened, last]
    have act : c.actAt s.g.p (c.bank (s.bank i)) (s.place i) ((s.greedy i).1 + s.g.p.tRP) =
        (s.greedy i).2 := by
      rw [follows.act_at sane, activate, if_pos kind]
    rw [pre, act]
    refine ⟨rfl, rfl, kind.symm, fun _ => rfl, ?_, ?_, settle_data ..⟩
    · simp only [Channel.settle, Stream.first, kind]
      exact if_neg (by omega)
    · rw [settle_read _ _ _ _ _ _ follows.read, rowReady, if_neg row]
  next other closed =>
    have kind : s.kind i = .miss := by
      cases found : s.kind i with
      | hit => exact absurd (hit.mp found) other
      | conflict => exact absurd (conflict.mp found).2 closed
      | miss => rfl
    have act : c.actAt s.g.p (c.bank (s.bank i)) (s.place i) (s.ready s.greedy i) =
        (s.greedy i).2 := by
      rw [follows.act_at sane, activate, if_neg (by simp [kind])]
    have row : ¬ s.kind i = .hit := by simp [kind]
    rw [act]
    refine ⟨rfl, rfl, kind.symm, fun _ => rfl, ?_, ?_, settle_data ..⟩
    · simp only [Channel.settle, Stream.first, kind]
    · rw [settle_read _ _ _ _ _ _ follows.read, rowReady, if_neg row]

/-! ### A read on time -/

theorem activate_le (s : Stream) (times : Stream.Times) (i : Nat) (act : Int) :
    act ≤ s.activate times i act ∧ ∀ j, (s.openings i).head? = some j →
      (s.place j).ra = (s.place i).ra → (times j).2 + s.rowGap j i ≤ s.activate times i act := by
  simp only [Stream.activate]
  cases (s.openings i).head? <;> cases (s.ranked i (s.place i).ra)[3]? <;>
    simp only [Option.elim] <;> constructor
  · omega
  · rintro j ⟨⟩
  · omega
  · rintro j ⟨⟩
  · split <;> omega
  · rintro _ ⟨rfl⟩ rank
    rw [if_pos rank]
    omega
  · split <;> omega
  · rintro _ ⟨rfl⟩ rank
    rw [if_pos rank]
    omega

theorem first_opens (s : Stream) : s.kind 0 ≠ .hit := by
  rw [show s.kind 0 = .miss from rfl]
  decide

theorem first_turn (s : Stream) : s.start ≤ (s.greedy 0).2 := by
  rw [greedy_activate, if_neg (by rw [show s.kind 0 = .miss from rfl]; decide)]
  exact (activate_le s s.greedy 0 s.start).1

theorem RowPaced.floor (paced : RowPaced s count) (inside : i < count) :
    s.start + i * s.gap ≤ (s.greedy i).2 := by
  induction i with
  | zero =>
      rw [Nat.cast_zero, Int.zero_mul, Int.add_zero]
      exact first_turn s
  | succ i ih =>
      obtain ⟨rank, rows, _⟩ := paced.apart i inside
      have before := ih (by omega)
      have opened : (s.openings (i + 1)).head? = some i := by
        rw [openings_succ, if_neg (paced.opens i (by omega))]
        rfl
      rw [greedy_activate]
      refine Int.le_trans ?_ ((activate_le s s.greedy (i + 1) _).2 i opened rank)
      push_cast [Int.add_mul]
      omega

theorem opened_turn (sane : Sane s count) (onTime : ∀ j, j < i → s.OnTime j) (bank : Nat) :
    s.opened s.greedy i bank ≤ s.start + i * s.gap := by
  have start := sane.start
  have later := sane.step_nonneg i
  rw [Stream.opened]
  cases found : s.opener i bank with
  | none =>
      simp only [Option.map_none, Option.getD_none, never]
      omega
  | some j =>
      have member := List.mem_of_find?_eq_some found
      have before := openings_before s member
      have opens : s.kind j ≠ .hit := by
        have filtered := (List.mem_filter.mp member).2
        simpa using filtered
      have turn := (onTime j before).row opens
      have steps := Int.mul_le_mul_of_nonneg_right (Int.ofNat_le.mpr before.le) sane.gap_nonneg
      simp only [Option.map_some, Option.getD_some]
      omega

theorem ready_column (sane : Sane s count) : s.ready s.greedy i ≤ s.column i := by
  have start := sane.start
  have settles := sane.settles.1
  have later := sane.step_nonneg i
  cases i with
  | zero =>
      simp only [Stream.ready, Stream.column]
      omega
  | succ i =>
      have next := column_next s i
      have gap := sane.gap_nonneg
      have here : s.start ≤ s.column (i + 1) := by
        simp only [Stream.column]
        omega
      simp only [Stream.ready]
      omega

theorem rowReady_column (sane : Sane s count) (onTime : ∀ j, j ≤ i → s.OnTime j) :
    rowReady s i ≤ s.column i := by
  rw [rowReady]
  split
  next hit =>
    have started := ready_column (i := i) sane
    have opened := opened_turn sane (fun j before => onTime j before.le) (s.bank i)
    simp only [Stream.column] at started ⊢
    omega
  next opens =>
    have turn := (onTime i (Nat.le_refl i)).row opens
    simp only [Stream.column]
    omega

theorem Follows.spacing (follows : Follows s (i + 1) c) :
    max (c.lastCol + if c.sameGroup (s.place (i + 1)) then s.g.p.tCCD_L else s.g.p.tCCD_S)
      (c.busFree - s.g.p.tRL) = s.column i + s.columnGap i := by
  obtain ⟨column, bus, rank, group⟩ := follows.column i rfl
  simp only [Stream.columnGap, Channel.sameGroup, column, bus, rank, group, Bool.and_eq_true,
    beq_iff_eq]
  omega

theorem Follows.column_turn (follows : Follows s i c) (sane : Sane s count)
    (paced : Paced s count) (inside : i < count) (onTime : ∀ j, j ≤ i → s.OnTime j) (pl : Plan)
    (drawn : Drawn s i c pl) : pl.col = s.column i := by
  have ready := rowReady_column sane onTime
  have column := drawn.column
  cases i with
  | zero =>
      obtain ⟨lastCol, busFree, lastRank⟩ := follows.fresh rfl
      have rank := (sane.ranged 0).ra.1
      have apart : c.sameGroup (s.place 0) = false := by
        have other : ¬ (-1 : Int) = (s.place 0).ra := by omega
        simp [Channel.sameGroup, lastRank, other]
      have first := first_turn s
      rw [rowReady, if_neg (first_opens s)] at ready column
      rw [apart, lastCol, busFree] at column
      have start := sane.start
      have settles := sane.settles
      have past := sane.past
      simp only [Stream.column] at ready ⊢
      simp only [Bool.false_eq_true, if_false] at column
      omega
  | succ i =>
      have spacing := follows.spacing
      have steps := (onTime (i + 1) (Nat.le_refl _)).column i rfl
      rw [max_assoc, spacing] at column
      rw [column_next] at ready ⊢
      rcases paced with columns | rows
      · have floor := columns i inside
        omega
      · have floor := rows.floor inside
        have same := rowReady s (i + 1)
        rw [rowReady, if_neg (rows.opens _ inside)] at ready column
        have next := column_next s i
        simp only [Stream.column] at *
        omega

theorem pushAct_window (ranked : List Nat) (time : Nat → Int) (i : Nat) :
    pushAct ((ranked.take 4).map time).reverse (time i) =
      (((i :: ranked).take 4).map time).reverse := by
  match ranked with
  | [] | [_] | [_, _] | [_, _, _] => simp [pushAct]
  | _ :: _ :: _ :: _ :: _ => simp [pushAct]

theorem commit_lastAct (c : Channel) (arrive : Int) (pl : Plan) :
    ((c.commit s.g arrive pl false).lastAct, (c.commit s.g arrive pl false).lastActRank,
      (c.commit s.g arrive pl false).lastActBg) =
      if pl.kind = .hit then (c.lastAct, c.lastActRank, c.lastActBg)
      else (pl.act, pl.k.ra, pl.k.bg) := by
  by_cases hit : pl.kind = .hit <;> simp [Channel.commit, Channel.activate, hit]

theorem Follows.commit_banks (follows : Follows s i c) (sane : Sane s count) (pl : Plan)
    (drawn : Drawn s i c pl) (col : pl.col = s.column i) (bank : Nat) :
    (c.commit s.g s.start pl false).bank bank = bankAt s (i + 1) bank := by
  have inside : pl.bank < c.banks.length := by
    rw [drawn.bank, follows.sized.banks]
    exact bank_inside sane i
  rw [commit_bank s.g c s.start pl false inside bank, drawn.bank]
  by_cases here : bank = s.bank i
  · subst here
    have row : (s.kind i = .hit → (bankAt s i (s.bank i)).openRow = (s.place i).row) := by
      rw [← follows.banks]
      exact (follows.found sane).1.mp
    have act := (follows.bank_times (s.bank i)).2
    have last : (bankAt s i (s.bank i)).preOk ≤ max 0 (s.column i + s.g.p.tRTP) := by
      rw [bankAt]
      cases found : s.lastIn i (s.bank i) with
      | none => exact Int.le_max_left _ _
      | some j =>
          have before := sane.column_mono (lastIn_before found).le
          simp only
          omega
    have grows : 0 ≤ (bankAt s i (s.bank i)).preOk := by
      rw [bankAt]
      split
      · exact Int.le_refl _
      · exact Int.le_max_left _ _
    have pre : max (bankAt s i (s.bank i)).preOk (s.column i + s.g.p.tRTP) =
        max 0 (s.column i + s.g.p.tRTP) := by omega
    have actOk := (follows.bank_times (s.bank i)).1
    rw [follows.banks] at act actOk
    rw [if_pos rfl, follows.banks]
    simp only [Bank.served, drawn.kind, drawn.place, col, Bool.false_eq_true, if_false, pre, actOk,
      act]
    by_cases hit : s.kind i = .hit
    · simp only [bankAt, lastIn_succ, if_true, Stream.opened, opener_succ, hit, ne_eq,
        not_true_eq_false, false_and, if_false]
      have same := row hit
      simp only [bankAt, Stream.opened] at same
      rw [same]
    · simp only [bankAt, lastIn_succ, if_true, Stream.opened, opener_succ, hit, ne_eq,
        not_false_eq_true, true_and, if_false, drawn.act hit]
      rfl
  · rw [if_neg here, follows.banks]
    have other : ¬ s.bank i = bank := fun same => here same.symm
    have unopened : ¬ (s.kind i ≠ .hit ∧ s.bank i = bank) := fun both => other both.2
    simp only [bankAt, lastIn_succ, Stream.opened, opener_succ, if_neg other, if_neg unopened]

theorem Follows.commit (follows : Follows s i c) (sane : Sane s count) (pl : Plan)
    (drawn : Drawn s i c pl) (col : pl.col = s.column i) :
    Follows s (i + 1) (c.commit s.g s.start pl false) := by
  have acts := commit_lastAct (s := s) c s.start pl
  rw [drawn.kind, drawn.place] at acts
  refine ⟨commit_sized s.g c s.start pl false follows.sized,
    follows.commit_banks sane pl drawn col, ?_, ?_, ?_, ?_, nofun, ?_, rfl,
    (commit_nextRefresh ..).trans follows.refresh⟩
  · intro j last
    rw [openings_succ] at last
    by_cases hit : s.kind i = .hit
    · rw [if_pos hit] at acts last
      obtain ⟨time, rank, group⟩ := by simpa only [Prod.mk.injEq] using acts
      rw [time, rank, group]
      exact follows.lastAct j last
    · rw [if_neg hit] at acts last
      cases last
      obtain ⟨time, rank, group⟩ := by simpa only [Prod.mk.injEq] using acts
      exact ⟨time.trans (drawn.act hit), rank, group⟩
  · intro none
    rw [openings_succ] at none
    by_cases hit : s.kind i = .hit
    · rw [if_pos hit] at acts none
      obtain ⟨_, rank, _⟩ := by simpa only [Prod.mk.injEq] using acts
      exact rank.trans (follows.unopened none)
    · rw [if_neg hit] at none
      cases none
  · intro rank low high
    have inside : 0 ≤ pl.k.ra ∧ pl.k.ra.toNat < c.faw.length := by
      have ranged := (sane.ranged i).ra
      rw [drawn.place, follows.sized.faw]
      omega
    rw [commit_acts s.g c s.start pl false rank low inside, drawn.kind, drawn.place, ranked_succ,
      follows.acts rank low high]
    by_cases opens : s.kind i ≠ .hit ∧ rank = (s.place i).ra
    · rw [if_pos opens, if_pos ⟨opens.1, opens.2.symm⟩, drawn.act opens.1]
      exact pushAct_window (s.ranked i rank) (fun j => (s.greedy j).2) i
    · rw [if_neg opens, if_neg fun both => opens ⟨both.1, both.2.symm⟩]
  · show max s.start (min pl.firstCmd pl.col) = _
    rw [drawn.first, col]
    rfl
  · intro j next
    cases next
    refine ⟨col, ?_, congrArg Coord.ra drawn.place, congrArg Coord.bg drawn.place⟩
    show pl.dataEnd = _
    rw [drawn.data, col]

/-! ### A read on time is committed as planned -/

theorem burst_undisturbed {g : Config} (c : Channel) (fuel : Nat) (k : Coord) (arrive : Int)
    (w : Bool) (early : 0 < g.p.tREFI → max arrive c.order < c.nextRefresh)
    (quiet : 0 < g.p.tREFI → (c.plan g k (max arrive c.order) w).col < c.nextRefresh) :
    c.burst g (fuel + 1) k arrive w =
      some (c.commit g arrive (c.plan g k (max arrive c.order) w) w, 0,
        c.plan g k (max arrive c.order) w) := by
  have settled : ¬ (0 < g.p.tREFI ∧ c.nextRefresh ≤ (c.plan g k (max arrive c.order) w).col) := by
    rintro ⟨on, due⟩
    have := quiet on
    omega
  simp only [Channel.burst, refresh_not_due c _ early, Channel.replan, settled, if_false,
    Option.bind_eq_bind, Option.bind_some, pure]

theorem Follows.next (follows : Follows s i c) (sane : Sane s count) (paced : Paced s count)
    (inside : i < count) (onTime : ∀ j, j ≤ i → s.OnTime j) (fuel : Nat) :
    ∃ after pl, c.burst s.g (fuel + 1) (s.place i) s.start false = some (after, 0, pl) ∧
      pl.dataEnd = s.column i + s.g.p.tRL + s.g.burstPs ∧ Follows s (i + 1) after := by
  have drawn := follows.drawn sane
  rw [← follows.order] at drawn
  have col := follows.column_turn sane paced inside onTime _ drawn
  have ready := ready_column (i := i) sane
  have run := burst_undisturbed (g := s.g) c fuel (s.place i) s.start false
    (fun on => by
      rw [follows.order, follows.refresh]
      exact Int.lt_of_le_of_lt ready ((sane.refresh on).2.2 i inside))
    (fun on => by
      rw [follows.refresh, col]
      exact (sane.refresh on).2.2 i inside)
  exact ⟨_, _, run, by rw [drawn.data, col], follows.commit sane _ drawn col⟩

end Streaming

end HeteroSim.BurstStream
