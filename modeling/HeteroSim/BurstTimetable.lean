import HeteroSim.EarliestTimes
import HeteroSim.DramChannel
import Mathlib.Data.Int.ConditionallyCompleteOrder

/-!
A timetable for the reads of one access: their column commands one gap apart, and the
PRECHARGE and ACTIVATE of those that open a row in time for that. The row a read finds in
its bank follows from where the reads before it went.
-/

namespace HeteroSim.BurstTimetable

open DramParams DramChannel EarliestTimes

/-- Reads that are to stream `gap` apart from `start` on, the `i`-th at `place i`. -/
structure Stream where
  g : Config
  start : Int
  gap : Int
  place : Nat → Coord

namespace Stream

variable (s : Stream)

def bank (i : Nat) : Nat := bankIndex s.g.p (s.place i)

/-- When the column command of the `i`-th read is due. -/
def column (i : Nat) : Int := s.start + s.g.p.tRCD + i * s.gap

/-! ### The rows -/

/-- The reads before the `i`-th, the last one first. -/
def past : Nat → List Nat
  | 0 => []
  | i + 1 => i :: past i

/-- The last read of a bank before the `i`-th. -/
def lastIn (i bank : Nat) : Option Nat := (past i).find? fun j => decide (s.bank j = bank)

/-- What the `i`-th read finds in its bank. -/
def kind (i : Nat) : RowKind :=
  match s.lastIn i (s.bank i) with
  | none => .miss
  | some j => if (s.place j).row = (s.place i).row then .hit else .conflict

/-- The reads before the `i`-th that open a row, the last one first. -/
def openings (i : Nat) : List Nat := (past i).filter fun j => decide (s.kind j ≠ .hit)

/-- The read that opened the row a bank has open at the `i`-th read. -/
def opener (i bank : Nat) : Option Nat :=
  (s.openings i).find? fun j => decide (s.bank j = bank)

def ranked (i : Nat) (rank : Int) : List Nat :=
  (s.openings i).filter fun j => decide ((s.place j).ra = rank)

/-! ### The spacings -/

/-- Between the column commands of the `i`-th read and the next. -/
def columnGap (i : Nat) : Int :=
  max s.g.burstPs
    (if (s.place i).ra = (s.place (i + 1)).ra ∧ (s.place i).bg = (s.place (i + 1)).bg then
      s.g.p.tCCD_L else s.g.p.tCCD_S)

def rowGap (j i : Nat) : Int :=
  if (s.place j).bg = (s.place i).bg then s.g.p.tRRD_L else s.g.p.tRRD_S

/-! ### The row commands -/

/-- The PRECHARGE and the ACTIVATE of each read that needs them. -/
abbrev Times : Type := Nat → Int × Int

variable (times : Times)

def opened (i bank : Nat) : Int := ((s.opener i bank).map fun j => (times j).2).getD never

/-- The first command of the `i`-th read, which may start at `ready`. -/
def first (ready : Int) (i : Nat) : Int :=
  match s.kind i with
  | .hit => max ready (s.opened times i (s.bank i) + s.g.p.tRCD)
  | .miss => (times i).2
  | .conflict => (times i).1

/-- When the `i`-th read may start: not before the first command of the one before. -/
def ready : Nat → Int
  | 0 => s.start
  | i + 1 => max s.start (min (s.first times (ready i) i) (s.column i))

def lastRead (i : Nat) : Int :=
  ((s.lastIn i (s.bank i)).map fun j => s.column j + s.g.p.tRTP).getD 0

def precharge (i : Nat) : Int :=
  max (max (s.ready times i) (s.opened times i (s.bank i) + s.g.p.tRAS)) (max 0 (s.lastRead i))

/-- The ACTIVATE of the `i`-th read, at or after `act`: behind the last one of its bank, the
last one of all if that was in its rank, and the fourth last of its rank. -/
def activate (i : Nat) (act : Int) : Int :=
  let act := max (max act 0) (s.opened times i (s.bank i) + s.g.p.tRC)
  let act := (s.openings i).head?.elim act fun j =>
    if (s.place j).ra = (s.place i).ra then max act ((times j).2 + s.rowGap j i) else act
  (s.ranked i (s.place i).ra)[3]?.elim act fun j => max act ((times j).2 + s.g.p.tFAW)

/-- The earliest row commands of the `i`-th read when those before it are at `times`. -/
def soonest (i : Nat) (times : Times) : Int × Int :=
  let pre := s.precharge times i
  (pre, s.activate times i (if s.kind i = .conflict then pre + s.g.p.tRP else s.ready times i))

def Prompt (i : Nat) (time : Int × Int) : Prop :=
  s.kind i ≠ .hit → time.2 ≤ s.start + i * s.gap

instance (i : Nat) (time : Int × Int) : Decidable (s.Prompt i time) :=
  inferInstanceAs (Decidable (_ → _))

/-- The first `count` reads keep to the gap: it is enough for their column commands, and
their row commands have a timetable. -/
structure Kept (count : Nat) : Prop where
  columns : ∀ i, i + 1 < count → s.columnGap i ≤ s.gap
  rows : ∃ times : Times, ∀ i, i < count → s.soonest i times ≤ times i ∧ s.Prompt i (times i)

end Stream

/-! ### Earlier is better -/

section Causal

variable (s : Stream)

theorem mem_past {i j : Nat} : j ∈ Stream.past i ↔ j < i := by
  induction i with
  | zero => simp [Stream.past]
  | succ i ih =>
      simp only [Stream.past, List.mem_cons, ih]
      omega

theorem openings_before {i j : Nat} (member : j ∈ s.openings i) : j < i :=
  mem_past.mp (List.mem_filter.mp member).1

variable {s} {times later : Stream.Times} {i : Nat}

theorem opened_mono (earlier : ∀ j, j < i → times j ≤ later j) (bank : Nat) :
    s.opened times i bank ≤ s.opened later i bank := by
  simp only [Stream.opened]
  cases found : s.opener i bank with
  | none => exact Int.le_refl _
  | some j => exact (earlier j (openings_before s (List.mem_of_find?_eq_some found))).2

theorem ready_mono (earlier : ∀ j, j < i → times j ≤ later j) :
    s.ready times i ≤ s.ready later i := by
  induction i with
  | zero => exact Int.le_refl _
  | succ i ih =>
      have before := ih fun j below => earlier j (by omega)
      have rows := opened_mono (s := s) (fun j (below : j < i) => earlier j (by omega)) (s.bank i)
      have own := earlier i (Nat.lt_succ_self i)
      have precharge : (times i).1 ≤ (later i).1 := own.1
      have activate : (times i).2 ≤ (later i).2 := own.2
      simp only [Stream.ready, Stream.first]
      cases s.kind i <;> simp only <;> omega

theorem precharge_mono (earlier : ∀ j, j < i → times j ≤ later j) :
    s.precharge times i ≤ s.precharge later i := by
  have started := ready_mono (s := s) earlier
  have rows := opened_mono (s := s) earlier (s.bank i)
  simp only [Stream.precharge]
  omega

theorem activate_mono (earlier : ∀ j, j < i → times j ≤ later j) {act act' : Int}
    (less : act ≤ act') : s.activate times i act ≤ s.activate later i act' := by
  have rows := opened_mono (s := s) earlier (s.bank i)
  simp only [Stream.activate]
  -- The read that is behind another reads its time.
  have before : ∀ j ∈ s.openings i, (times j).2 ≤ (later j).2 := fun j member =>
    (earlier j (openings_before s member)).2
  cases last : (s.openings i).head? with
  | none =>
      cases fourth : (s.ranked i (s.place i).ra)[3]? with
      | none => simp only [Option.elim]; omega
      | some j =>
          have window := before j (List.mem_filter.mp (List.mem_of_getElem? fourth)).1
          simp only [Option.elim]
          omega
  | some m =>
      have rank := before m (List.mem_of_head? last)
      cases fourth : (s.ranked i (s.place i).ra)[3]? with
      | none => simp only [Option.elim]; split <;> omega
      | some j =>
          have window := before j (List.mem_filter.mp (List.mem_of_getElem? fourth)).1
          simp only [Option.elim]
          split <;> omega

theorem soonest_causal (s : Stream) : Causal s.soonest := by
  intro i times later earlier
  have started := ready_mono (s := s) earlier
  have closed := precharge_mono (s := s) earlier
  refine ⟨closed, activate_mono earlier ?_⟩
  split <;> omega

end Causal

def Stream.greedy (s : Stream) : Stream.Times := earliest s.soonest

theorem greedy_soonest (s : Stream) (i : Nat) : s.greedy i = s.soonest i s.greedy :=
  earliest_bound (soonest_causal s) i

theorem greedy_precharge (s : Stream) (i : Nat) : (s.greedy i).1 = s.precharge s.greedy i :=
  congrArg Prod.fst (greedy_soonest s i)

theorem greedy_activate (s : Stream) (i : Nat) :
    (s.greedy i).2 = s.activate s.greedy i
      (if s.kind i = .conflict then (s.greedy i).1 + s.g.p.tRP else s.ready s.greedy i) := by
  rw [greedy_precharge]
  exact congrArg Prod.snd (greedy_soonest s i)

structure Stream.OnTime (s : Stream) (i : Nat) : Prop where
  column : ∀ j, j + 1 = i → s.columnGap j ≤ s.gap
  row : s.Prompt i (s.greedy i)

end HeteroSim.BurstTimetable
