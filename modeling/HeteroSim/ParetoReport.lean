import HeteroSim.Domination
import Mathlib.Algebra.Ring.Int.Defs
import Mathlib.Data.List.Sort

/-!
The Pareto pass of a sweep report. Numbers are any linearly ordered type with a
zero: the pass only compares them and asks whether they are there.
-/

namespace HeteroSim.ParetoReport

open Domination

structure Row (T : Type) where
  designSlug : String
  model : String
  status : String
  cyclesPerImage : Option T := none
  cyclesPerClip : Option T := none
  cycles : Option T := none
  areaAu : Option T := none
  cacheDynamicPj : Option T := none

inductive Objective where
  | cycles | area | energy
  deriving DecidableEq

section Rows

variable {T : Type}

def key (r : Row T) : String := r.designSlug ++ "|" ++ r.model

def okRows (rows : List (Row T)) : List (Row T) := rows.filter fun r => r.status == "ok"

end Rows

variable {T : Type} [LinearOrder T] [Zero T]

/-- `row.get(k)` as a condition: neither missing nor zero. -/
def figure (got : Option T) : Option T := got.filter fun x => x != 0

def cyclesOf (r : Row T) : Option T :=
  figure r.cyclesPerImage <|> figure r.cyclesPerClip <|> figure r.cycles

/-- The test inside `pareto`; `zip` ends with the shorter list. -/
def beats (other obj : List T) : Bool :=
  (obj.zip other).all (fun pair => decide (pair.2 ≤ pair.1)) &&
    (obj.zip other).any fun pair => decide (pair.2 < pair.1)

def pareto (points : List (String × List T)) : List (String × List T) :=
  points.filter fun point =>
    !points.any fun other => other.1 != point.1 && beats other.2 point.2

def haveArea (rows : List (Row T)) : List (Row T) :=
  (okRows rows).filter fun r => (figure r.areaAu).isSome

def haveEnergy (rows : List (Row T)) : List (Row T) :=
  (haveArea rows).filter fun r => (figure r.cacheDynamicPj).isSome

/-- The objectives of a row; `none` where it has no cycle count, which the source
fails to compare. -/
def point (energy : Bool) (r : Row T) : Option (String × List T) := do
  let cycles ← cyclesOf r
  let area ← r.areaAu
  return (key r, [cycles, area] ++ if energy then (figure r.cacheDynamicPj).toList else [])

structure Report (T : Type) where
  objectives : List Objective
  points : Nat
  front : List (String × List T)

/-- The Pareto part of `analyse`: `none` where no row has an area. -/
def analyse (rows : List (Row T)) : Except String (Option (Report T)) :=
  if (haveArea rows).isEmpty then .ok none
  else
    match (haveArea rows).mapM (point (!(haveEnergy rows).isEmpty)) with
    | none => .error "TypeError"
    | some pts =>
        let objectives : List Objective :=
          if !(haveEnergy rows).isEmpty && (haveEnergy rows).length == (haveArea rows).length then
            [.cycles, .area, .energy]
          else [.cycles, .area]
        .ok (some
          { objectives := objectives
            points := pts.length
            front := (pareto pts).mergeSort fun a b => decide (a.2.headD 0 ≤ b.2.headD 0) })

/-! ### What the front should be -/

def scored {T : Type} (rows : List (Row T)) : List (Row T) :=
  (okRows rows).filter fun r => r.areaAu.isSome

def value : Objective → Row T → Option T
  | .cycles, r => cyclesOf r
  | .area, r => r.areaAu
  | .energy, r => r.cacheDynamicPj

/-- `s` outdoes `r`, in the objectives that are named and on the same workload. -/
def Outdoes (names : List Objective) (s r : Row T) : Prop :=
  s.model = r.model ∧ Dominates value names s r

instance (names : List Objective) (s r : Row T) : Decidable (Outdoes names s r) :=
  inferInstanceAs (Decidable (_ ∧ _))

def best (names : List Objective) (rows : List (Row T)) : List (Row T) :=
  (scored rows).filter fun r => decide (∀ s ∈ scored rows, ¬ Outdoes names s r)

/-- The front is the undominated rows, each with the objectives that are named. -/
def Correct (rows : List (Row T)) : Prop :=
  match analyse rows with
  | .error _ => False
  | .ok none => scored rows = []
  | .ok (some report) =>
      (report.front.map fun entry => (entry.1, entry.2.map some)).Perm
        ((best report.objectives rows).map fun r =>
          (key r, report.objectives.map fun name => value name r))

/-! ### What the pass computes -/

/-- The objectives of a row that has a cycle count and an area. -/
def columns (r : Row T) : List T :=
  [(cyclesOf r).getD 0, r.areaAu.getD 0] ++ (figure r.cacheDynamicPj).toList

def allEnergy (rows : List (Row T)) : Bool :=
  (haveArea rows).all fun r => (figure r.cacheDynamicPj).isSome

/-- The objectives the report names. -/
def named (rows : List (Row T)) : List Objective :=
  if allEnergy rows then [.cycles, .area, .energy] else [.cycles, .area]

/-- Some row of another key beats `r`, of whatever model, on what both carry. -/
def Beaten (rows : List (Row T)) (r : Row T) : Prop :=
  ∃ s ∈ haveArea rows, key s ≠ key r ∧ beats (columns s) (columns r) = true

instance (rows : List (Row T)) (r : Row T) : Decidable (Beaten rows r) :=
  inferInstanceAs (Decidable (∃ s ∈ haveArea rows, _ ∧ _))

/-- Where the front is what it should be. Another model's row decides nothing that
the row's own model does not; figures of energy are on all rows or on rows that are
beaten anyway; and no area of zero hides a row that should be on the front. -/
structure Fair (rows : List (Row T)) : Prop where
  models : ∀ r ∈ haveArea rows, ∀ s ∈ haveArea rows, s.model ≠ r.model → key s ≠ key r →
    beats (columns s) (columns r) = true → ∃ t ∈ scored rows, Outdoes (named rows) t r
  energy : allEnergy rows = false → ∀ r ∈ haveArea rows, (figure r.cacheDynamicPj).isSome →
    Beaten rows r ∧ ∃ t ∈ scored rows, Outdoes (named rows) t r
  zero : ∀ r ∈ scored rows, r.areaAu = some 0 → ∃ t ∈ scored rows, Outdoes (named rows) t r

section Pass

variable {rows : List (Row T)} {r s : Row T}

theorem figure_some (got : Option T) (x : T) : figure got = some x ↔ got = some x ∧ x ≠ 0 := by
  rw [figure, Option.filter_eq_some_iff]
  simp

theorem mem_haveArea : r ∈ haveArea rows ↔ r ∈ okRows rows ∧ ∃ area, r.areaAu =
    some area ∧ area ≠ 0 := by
  rw [haveArea, List.mem_filter, Option.isSome_iff_exists]
  simp only [figure_some]

omit [LinearOrder T] [Zero T] in
theorem mem_scored : r ∈ scored rows ↔ r ∈ okRows rows ∧ ∃ area, r.areaAu = some area := by
  rw [scored, List.mem_filter, Option.isSome_iff_exists]

theorem haveArea_scored (member : r ∈ haveArea rows) : r ∈ scored rows := by
  obtain ⟨ok, area, known, _⟩ := mem_haveArea.mp member
  exact mem_scored.mpr ⟨ok, area, known⟩

theorem scored_zero (member : r ∈ scored rows) (other : r ∉ haveArea rows) : r.areaAu = some 0 := by
  obtain ⟨ok, area, known⟩ := mem_scored.mp member
  by_contra figure
  exact other (mem_haveArea.mpr ⟨ok, area, known, fun zero => figure (zero ▸ known)⟩)

theorem mapM_some {α β : Type} (f : α → Option β) (g : α → β) (l : List α)
    (each : ∀ a ∈ l, f a = some (g a)) : l.mapM f = some (l.map g) := by
  induction l with
  | nil => rfl
  | cons a rest ih =>
      have tail := ih fun b member => each b (List.mem_cons_of_mem _ member)
      simp [List.mapM_cons, each a List.mem_cons_self, tail]

theorem point_columns (energy : Bool) (cycles : (cyclesOf r).isSome) (area : r.areaAu.isSome)
    (known : energy = false → figure r.cacheDynamicPj = none) :
    point energy r = some (key r, columns r) := by
  obtain ⟨x, counted⟩ := Option.isSome_iff_exists.mp cycles
  obtain ⟨y, sized⟩ := Option.isSome_iff_exists.mp area
  cases energy with
  | true => simp [point, columns, counted, sized]
  | false => simp [point, columns, counted, sized, known rfl]

theorem analyse_eq (counted : ∀ r ∈ okRows rows, (cyclesOf r).isSome)
    (occupied : haveArea rows ≠ []) : analyse rows = .ok (some
      { objectives := named rows
        points := (haveArea rows).length
        front := (((haveArea rows).filter fun r => decide (¬ Beaten rows r)).map
          fun r => (key r, columns r)).mergeSort fun a b =>
            decide (a.2.headD 0 ≤ b.2.headD 0) }) := by
  have points : (haveArea rows).mapM (point (!(haveEnergy rows).isEmpty)) =
      some ((haveArea rows).map fun r => (key r, columns r)) := by
    apply mapM_some
    intro r member
    obtain ⟨ok, area, known, _⟩ := mem_haveArea.mp member
    refine point_columns _ (counted r ok) (by rw [known]; rfl) ?_
    intro none
    have bare : haveEnergy rows = [] := by simpa using none
    exact Option.not_isSome_iff_eq_none.mp (List.filter_eq_nil_iff.mp bare r member)
  have objectives : (if !(haveEnergy rows).isEmpty &&
      (haveEnergy rows).length == (haveArea rows).length then
        [Objective.cycles, .area, .energy] else [.cycles, .area]) = named rows := by
    have whole : (haveEnergy rows).length = (haveArea rows).length ↔ allEnergy rows = true := by
      rw [haveEnergy, List.length_filter_eq_length_iff, allEnergy, List.all_eq_true]
    have nonempty : (haveEnergy rows).length = (haveArea rows).length → haveEnergy rows ≠ [] := by
      intro same none
      rw [none] at same
      exact occupied (List.length_eq_zero_iff.mp same.symm)
    rw [named]
    by_cases every : (haveEnergy rows).length = (haveArea rows).length
    · simp [every, whole.mp every, nonempty every]
    · simp [every, Bool.eq_false_iff.mpr (mt whole.mpr every)]
  have front : pareto ((haveArea rows).map fun r => (key r, columns r)) =
      ((haveArea rows).filter fun r => decide (¬ Beaten rows r)).map fun r =>
        (key r, columns r) := by
    rw [pareto, List.filter_map]
    congr 1
    apply List.filter_congr
    intro r _
    rw [Function.comp_apply, List.any_map, decide_not]
    congr 1
    rw [Bool.eq_iff_iff, List.any_eq_true, decide_eq_true_eq]
    simp only [Function.comp_apply, Bool.and_eq_true, bne_iff_ne, Beaten]
  have some_rows : (haveArea rows).isEmpty = false := by simpa using occupied
  rw [analyse, some_rows, points, ← objectives, ← front, if_neg Bool.false_ne_true]
  simp only [List.length_map]

/-! ### The pass against its front -/

def Plain (rows : List (Row T)) (r : Row T) : Prop :=
  allEnergy rows = true ∨ figure r.cacheDynamicPj = none

theorem figures (counted : ∀ r ∈ okRows rows, (cyclesOf r).isSome) (member : r ∈ haveArea rows) :
    ∃ cycles area, cyclesOf r = some cycles ∧ r.areaAu = some area ∧ area ≠ 0 := by
  obtain ⟨ok, area, known, occupied⟩ := mem_haveArea.mp member
  obtain ⟨cycles, count⟩ := Option.isSome_iff_exists.mp (counted r ok)
  exact ⟨cycles, area, count, known, occupied⟩

theorem energy_known (every : allEnergy rows = true) (member : r ∈ haveArea rows) :
    ∃ energy, figure (some energy) = some energy ∧ r.cacheDynamicPj = some energy := by
  obtain ⟨energy, known⟩ := Option.isSome_iff_exists.mp (List.all_eq_true.mp every r member)
  have given := ((figure_some _ _).mp known).1
  exact ⟨energy, given ▸ known, given⟩

theorem columns_named (counted : ∀ r ∈ okRows rows, (cyclesOf r).isSome)
    (member : r ∈ haveArea rows) (plain : Plain rows r) :
    (columns r).map some = (named rows).map fun name => value name r := by
  obtain ⟨cycles, area, count, known, _⟩ := figures counted member
  cases every : allEnergy rows with
  | true =>
      obtain ⟨energy, present, given⟩ := energy_known every member
      simp [columns, named, every, value, count, known, present, given]
  | false =>
      have bare : figure r.cacheDynamicPj = none := plain.resolve_left (by simp [every])
      simp [columns, named, every, value, count, known, bare]

theorem columns_longer (mixed : ¬ Plain rows r) :
    (columns r).length = 3 ∧ (named rows).length = 2 := by
  rw [Plain, not_or] at mixed
  obtain ⟨energy, known⟩ := Option.ne_none_iff_exists'.mp mixed.2
  simp [columns, named, mixed.1, known]

theorem plain_of_columns (same : (columns s).map some = (named rows).map fun name => value name r) :
    Plain rows s := by
  by_contra mixed
  obtain ⟨three, two⟩ := columns_longer mixed
  have lengths := congrArg List.length same
  rw [List.length_map, List.length_map] at lengths
  omega

theorem beats_dominates (counted : ∀ r ∈ okRows rows, (cyclesOf r).isSome)
    (member : r ∈ haveArea rows) (other : s ∈ haveArea rows) (plain : Plain rows r) :
    beats (columns s) (columns r) = true ↔ Dominates value (named rows) s r := by
  obtain ⟨cycles, area, count, known, _⟩ := figures counted member
  obtain ⟨cycles', area', count', known', _⟩ := figures counted other
  cases every : allEnergy rows with
  | true =>
      obtain ⟨energy, present, given⟩ := energy_known every member
      obtain ⟨energy', present', given'⟩ := energy_known every other
      simp [beats, columns, Dominates, NoWorse, Better, value, named, *]
  | false =>
      have bare : figure r.cacheDynamicPj = none := plain.resolve_left (by simp [every])
      simp [beats, columns, Dominates, NoWorse, Better, value, named, *]

omit [LinearOrder T] [Zero T] in
theorem key_inj (distinct : (rows.map fun r => (r.designSlug, r.model)).Nodup)
    (member : r ∈ okRows rows) (other : s ∈ okRows rows) (model : s.model = r.model)
    (same : key s = key r) : s = r := by
  apply List.inj_on_of_nodup_map distinct (List.mem_filter.mp other).1 (List.mem_filter.mp member).1
  rw [key, key, model, String.append_left_inj, String.append_left_inj] at same
  rw [same, model]

theorem outdoes_best (a b : Row T) (member : b ∈ scored rows) (outdone : Outdoes (named rows) b a) :
    ∃ best ∈ scored rows, Outdoes (named rows) best a ∧
      ∀ c ∈ scored rows, ¬ Outdoes (named rows) c best := by
  apply @outdone_by_best_one (Row T) (Outdoes (named rows)) _ _ _ a b member outdone
  · exact fun a above => Dominates.irrefl a above.2
  · exact fun a b c above below => ⟨above.1.trans below.1, above.2.trans below.2⟩

theorem outdone_scored (zero : ∀ r ∈ scored rows, r.areaAu = some 0 →
      ∃ t ∈ scored rows, Outdoes (named rows) t r)
    (outdone : ∃ t ∈ scored rows, Outdoes (named rows) t r) :
    ∃ t ∈ haveArea rows, Outdoes (named rows) t r := by
  obtain ⟨t, member, above⟩ := outdone
  obtain ⟨best, found, above, none⟩ := outdoes_best r t member above
  refine ⟨best, ?_, above⟩
  by_contra hidden
  obtain ⟨c, inside, beats⟩ := zero best found (scored_zero found hidden)
  exact none c inside beats

theorem outdone_beaten (counted : ∀ r ∈ okRows rows, (cyclesOf r).isSome)
    (distinct : (rows.map fun r => (r.designSlug, r.model)).Nodup)
    (zero : ∀ r ∈ scored rows, r.areaAu = some 0 → ∃ t ∈ scored rows, Outdoes (named rows) t r)
    (member : r ∈ haveArea rows) (plain : Plain rows r)
    (outdone : ∃ t ∈ scored rows, Outdoes (named rows) t r) : Beaten rows r := by
  obtain ⟨t, found, model, dominates⟩ := outdone_scored zero outdone
  refine ⟨t, found, ?_, (beats_dominates counted member found plain).mpr dominates⟩
  intro same
  have one := key_inj distinct (mem_haveArea.mp member).1 (mem_haveArea.mp found).1 model same
  exact Dominates.irrefl r (one ▸ dominates)

theorem fair_beaten (counted : ∀ r ∈ okRows rows, (cyclesOf r).isSome)
    (distinct : (rows.map fun r => (r.designSlug, r.model)).Nodup) (fair : Fair rows)
    (member : r ∈ haveArea rows) :
    Beaten rows r ↔ ∃ t ∈ scored rows, Outdoes (named rows) t r := by
  by_cases plain : Plain rows r
  · refine ⟨?_, outdone_beaten counted distinct fair.zero member plain⟩
    rintro ⟨s, other, apart, beaten⟩
    by_cases own : s.model = r.model
    · exact ⟨s, haveArea_scored other, own, (beats_dominates counted member other plain).mp beaten⟩
    · exact fair.models r member s other own apart beaten
  · have mixed := plain
    rw [Plain, not_or] at mixed
    obtain ⟨beaten, outdone⟩ := fair.energy (Bool.eq_false_iff.mpr mixed.1) r member
      (Option.isSome_iff_ne_none.mpr mixed.2)
    exact ⟨fun _ => outdone, fun _ => beaten⟩

theorem fair_rows (counted : ∀ r ∈ okRows rows, (cyclesOf r).isSome)
    (distinct : (rows.map fun r => (r.designSlug, r.model)).Nodup) (fair : Fair rows) :
    (haveArea rows).filter (fun r => decide (¬ Beaten rows r)) = best (named rows) rows := by
  have apart (r : Row T) : (∀ s ∈ scored rows, ¬ Outdoes (named rows) s r) ↔
      ¬ ∃ t ∈ scored rows, Outdoes (named rows) t r := by simp
  rw [best, haveArea, scored, List.filter_filter, List.filter_filter]
  apply List.filter_congr
  intro r ok
  rw [Bool.eq_iff_iff, Bool.and_eq_true, Bool.and_eq_true, decide_eq_true_eq, decide_eq_true_eq]
  change _ ↔ (∀ s ∈ scored rows, ¬ Outdoes (named rows) s r) ∧ _
  rw [apart]
  constructor
  · rintro ⟨kept, sized⟩
    have member : r ∈ haveArea rows := List.mem_filter.mpr ⟨ok, sized⟩
    exact ⟨fun outdone => kept ((fair_beaten counted distinct fair member).mpr outdone),
      (List.mem_filter.mp (haveArea_scored member)).2⟩
  · rintro ⟨undone, sized⟩
    have known : r ∈ scored rows := List.mem_filter.mpr ⟨ok, sized⟩
    have member : r ∈ haveArea rows := by
      by_contra hidden
      exact undone (fair.zero r known (scored_zero known hidden))
    exact ⟨fun beaten => undone ((fair_beaten counted distinct fair member).mp beaten),
      (List.mem_filter.mp member).2⟩

theorem fair_correct (counted : ∀ r ∈ okRows rows, (cyclesOf r).isSome)
    (distinct : (rows.map fun r => (r.designSlug, r.model)).Nodup) (fair : Fair rows) :
    Correct rows := by
  by_cases empty : haveArea rows = []
  · have nothing : analyse rows = .ok none := by rw [analyse, empty]; rfl
    rw [Correct, nothing]
    apply List.eq_nil_iff_forall_not_mem.mpr
    intro r member
    have hidden (s : Row T) : s ∉ haveArea rows := by simp [empty]
    obtain ⟨t, found, _⟩ :=
      outdone_scored fair.zero (fair.zero r member (scored_zero member (hidden r)))
    exact hidden t found
  · rw [Correct, analyse_eq counted empty]
    have entries : ((haveArea rows).filter fun r => decide (¬ Beaten rows r)).map
        (fun r => (key r, (columns r).map some)) =
          (best (named rows) rows).map fun r =>
            (key r, (named rows).map fun name => value name r) := by
      rw [← fair_rows counted distinct fair]
      apply List.map_congr_left
      intro r kept
      obtain ⟨member, unbeaten⟩ := List.mem_filter.mp kept
      have plain : Plain rows r := by
        by_contra mixed
        rw [Plain, not_or] at mixed
        exact of_decide_eq_true unbeaten (fair.energy (Bool.eq_false_iff.mpr mixed.1) r member
          (Option.isSome_iff_ne_none.mpr mixed.2)).1
      rw [columns_named counted member plain]
    simp only
    rw [← entries]
    have sorted :=
      (List.mergeSort_perm (((haveArea rows).filter fun r => decide (¬ Beaten rows r)).map
      fun r => (key r, columns r)) fun a b => decide (a.2.headD 0 ≤ b.2.headD 0)).map
        fun entry => (entry.1, entry.2.map some)
    rw [List.map_map] at sorted
    exact sorted

/-! ### Why nothing less will do -/

theorem correct_entries (counted : ∀ r ∈ okRows rows, (cyclesOf r).isSome)
    (occupied : haveArea rows ≠ []) (correct : Correct rows) :
    (((haveArea rows).filter fun r => decide (¬ Beaten rows r)).map
        fun r => (key r, (columns r).map some)).Perm
      ((best (named rows) rows).map
        fun r => (key r, (named rows).map fun name => value name r)) := by
  rw [Correct, analyse_eq counted occupied] at correct
  have sorted :=
    (List.mergeSort_perm (((haveArea rows).filter fun r => decide (¬ Beaten rows r)).map
    fun r => (key r, columns r)) fun a b => decide (a.2.headD 0 ≤ b.2.headD 0)).map
      fun entry => (entry.1, entry.2.map some)
  rw [List.map_map] at sorted
  exact sorted.symm.trans correct

theorem mem_best : r ∈ best (named rows) rows ↔
    r ∈ scored rows ∧ ¬ ∃ t ∈ scored rows, Outdoes (named rows) t r := by
  rw [best, List.mem_filter, decide_eq_true_eq]
  simp

theorem named_area (same : ((named rows).map fun name => value name s) =
    (named rows).map fun name => value name r) : s.areaAu = r.areaAu := by
  cases every : allEnergy rows <;> simp [named, every, value] at same
  · exact same.2
  · exact same.2.1

theorem correct_zero (counted : ∀ r ∈ okRows rows, (cyclesOf r).isSome)
    (occupied : haveArea rows ≠ []) (correct : Correct rows) (member : r ∈ scored rows)
    (zero : r.areaAu = some 0) : ∃ t ∈ scored rows, Outdoes (named rows) t r := by
  by_contra undone
  have entry := (correct_entries counted occupied correct).mem_iff.mpr
    (List.mem_map_of_mem (f := fun r => (key r, (named rows).map fun name => value name r))
      (mem_best.mpr ⟨member, undone⟩))
  obtain ⟨s, kept, same⟩ := List.mem_map.mp entry
  obtain ⟨cycles, area, count, known, nonzero⟩ := figures counted (List.mem_filter.mp kept).1
  have plain := plain_of_columns (Prod.mk.inj same).2
  rw [columns_named counted (List.mem_filter.mp kept).1 plain] at same
  have sizes := named_area (Prod.mk.inj same).2
  rw [known, zero] at sizes
  exact nonzero (Option.some.inj sizes)

theorem correct_mixed (counted : ∀ r ∈ okRows rows, (cyclesOf r).isSome) (correct : Correct rows)
    (member : r ∈ haveArea rows) (mixed : ¬ Plain rows r) : Beaten rows r := by
  by_contra unbeaten
  have entry := (correct_entries counted (List.ne_nil_of_mem member) correct).mem_iff.mp
    (List.mem_map_of_mem (f := fun r => (key r, (columns r).map some))
      (List.mem_filter.mpr ⟨member, decide_eq_true unbeaten⟩))
  obtain ⟨s, _, same⟩ := List.mem_map.mp entry
  exact mixed (plain_of_columns (Prod.mk.inj same).2.symm)

/-- A beaten row is outdone on its own workload: otherwise its entry would be missing
from the front, where rows of its key and figures are let through no more often. -/
theorem correct_outdone (counted : ∀ r ∈ okRows rows, (cyclesOf r).isSome)
    (distinct : (rows.map fun r => (r.designSlug, r.model)).Nodup) (correct : Correct rows)
    (member : r ∈ haveArea rows) (beaten : Beaten rows r) :
    ∃ t ∈ scored rows, Outdoes (named rows) t r := by
  have occupied := List.ne_nil_of_mem member
  have zero : ∀ r ∈ scored rows, r.areaAu = some 0 →
      ∃ t ∈ scored rows, Outdoes (named rows) t r :=
    fun r known none => correct_zero counted occupied correct known none
  by_contra undone
  have counts := (correct_entries counted occupied correct).count_eq
    (key r, (named rows).map fun name => value name r)
  rw [List.count_eq_countP, List.count_eq_countP, List.countP_map, List.countP_map,
    List.countP_eq_length_filter, List.countP_eq_length_filter, best, haveArea, scored,
    List.filter_filter, List.filter_filter, List.filter_filter, List.filter_filter] at counts
  have kept := filter_exact _ _ (okRows rows) ?_ counts.ge r (mem_haveArea.mp member).1 ?_
  · simp only [Bool.and_eq_true, decide_eq_true_eq] at kept
    exact kept.1.2 beaten
  · intro a ok kept
    simp only [Function.comp_apply, Bool.and_eq_true, decide_eq_true_eq, beq_iff_eq] at kept
    obtain ⟨⟨same, unbeaten⟩, sized⟩ := kept
    have found : a ∈ haveArea rows := List.mem_filter.mpr ⟨ok, sized⟩
    have plain := plain_of_columns (Prod.mk.inj same).2
    rw [columns_named counted found plain] at same
    have undone : ¬ ∃ t ∈ scored rows, Outdoes (named rows) t a :=
      fun outdone => unbeaten (outdone_beaten counted distinct zero found plain outdone)
    obtain ⟨known, none⟩ := List.mem_filter.mp (mem_best.mpr ⟨haveArea_scored found, undone⟩)
    simp only [Function.comp_apply, Bool.and_eq_true, beq_iff_eq]
    exact ⟨⟨same, none⟩, (List.mem_filter.mp known).2⟩
  · obtain ⟨known, none⟩ := List.mem_filter.mp (mem_best.mpr ⟨haveArea_scored member, undone⟩)
    simp only [Function.comp_apply, Bool.and_eq_true, beq_iff_eq]
    exact ⟨⟨trivial, none⟩, (List.mem_filter.mp known).2⟩

theorem correct_fair (counted : ∀ r ∈ okRows rows, (cyclesOf r).isSome)
    (distinct : (rows.map fun r => (r.designSlug, r.model)).Nodup) (correct : Correct rows) :
    Fair rows where
  models r member s other _ apart beats :=
    correct_outdone counted distinct correct member ⟨s, other, apart, beats⟩
  energy mixed r member carried := by
    have beaten : Beaten rows r := by
      apply correct_mixed counted correct member
      rw [Plain, not_or, mixed]
      exact ⟨Bool.false_ne_true, Option.isSome_iff_ne_none.mp carried⟩
    exact ⟨beaten, correct_outdone counted distinct correct member beaten⟩
  zero r member absent := by
    by_cases empty : haveArea rows = []
    · have unanalysed : analyse rows = .ok none := by rw [analyse, empty]; rfl
      rw [Correct, unanalysed] at correct
      exact absurd (correct ▸ member) List.not_mem_nil
    · exact correct_zero counted empty correct member absent

end Pass

/-- The reported front is the undominated rows exactly where the rows are fair. -/
theorem pareto_front (rows : List (Row T))
    (counted : ∀ r ∈ okRows rows, (cyclesOf r).isSome)
    (distinct : (rows.map fun r => (r.designSlug, r.model)).Nodup) :
    Correct rows ↔ Fair rows :=
  ⟨correct_fair counted distinct, fair_correct counted distinct⟩

/-- Two designs on one workload, the second better in all three objectives. -/
def twoDesigns : List (Row Int) :=
  [{ designSlug := "baseline", model := "kws", status := "ok", cyclesPerClip := some 900
     areaAu := some 50, cacheDynamicPj := some 7 },
   { designSlug := "l2_size65536-8a1f03c2", model := "kws", status := "ok"
     cyclesPerClip := some 800, areaAu := some 40, cacheDynamicPj := some 5 }]

theorem pareto_front_designs : Correct twoDesigns :=
  (pareto_front twoDesigns (by decide) (by decide +kernel)).mpr
    ⟨by decide +kernel, by decide +kernel, by decide +kernel⟩

/-- One design on two workloads. -/
def twoModels : List (Row Int) :=
  [{ designSlug := "baseline", model := "kws", status := "ok", cyclesPerClip := some 800
     areaAu := some 40 },
   { designSlug := "baseline", model := "resnet", status := "ok", cyclesPerImage := some 90000
     areaAu := some 40 }]

theorem models_compared : ¬ Correct twoModels ∧ ∃ report, analyse twoModels = .ok (some report) ∧
    report.front = [("baseline|kws", [800, 40])] := by
  constructor
  · intro correct
    have fair : Fair twoModels := correct_fair (by decide) (by decide +kernel) correct
    exact absurd fair.models (by decide +kernel)
  · refine ⟨_, analyse_eq (by decide) (by decide +kernel), ?_⟩
    have through : ((haveArea twoModels).filter fun r => decide (¬ Beaten twoModels r)).map
        (fun r => (key r, columns r)) = [("baseline|kws", [800, 40])] := by decide +kernel
    rw [through]
    exact List.mergeSort_singleton _

end HeteroSim.ParetoReport
