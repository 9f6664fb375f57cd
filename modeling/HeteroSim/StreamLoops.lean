import Mathlib.Algebra.BigOperators.Group.Finset.Basic
import Mathlib.Data.List.Perm.Basic
import Mathlib.Tactic.Ring

/-!
Address generators of loop nests: a counter for each loop, and for each loop the
step its turn adds to the address, less what the inner loops have travelled. The
element after `n` others is named by the digits of `n`. Then sums and lists over
counts of two digits, and loops that are counted and may fail.
-/

namespace HeteroSim.StreamLoops

/-! ### Nests -/

section Nests

variable {α : Type}

/-- One loop of a generator: its last index, its step, and its index. -/
structure Level (α : Type) where
  bound : Nat
  step : α
  index : Nat

/-- The next element: the innermost loop that is not at its end takes a turn, and the
loops inside it start again. -/
def advance [Add α] : List (Level α) → α → Option (List (Level α) × α)
  | [], _ => none
  | l :: rest, address =>
      if l.index < l.bound then some ({ l with index := l.index + 1 } :: rest, address + l.step)
      else (advance rest address).map fun next => ({ l with index := 0 } :: next.1, next.2)

/-- The addresses a generator goes through in `turns` elements at most, and whether it
has ended then. -/
def visits [Add α] : Nat → List (Level α) → α → List α × Bool
  | 0, _, _ => ([], false)
  | turns + 1, loops, address =>
      match advance loops address with
      | some (loops, next) =>
          let later := visits turns loops next
          (address :: later.1, later.2)
      | none => ([address], true)

/-- A generator that gives each element `repeats` times more than once. -/
structure Stream (α : Type) where
  levels : List (Level α)
  address : α
  repeats : Nat
  given : Nat := 0
  ended : Bool := false

def Stream.pop [Add α] (s : Stream α) : Option (α × Stream α) :=
  if s.ended then none
  else if s.given < s.repeats then some (s.address, { s with given := s.given + 1 })
  else
    match advance s.levels s.address with
    | some (levels, address) =>
        some (s.address, { s with levels := levels, address := address, given := 0 })
    | none => some (s.address, { s with ended := true })

variable [CommRing α]

/-- A nest, the innermost loop first: the last index of each loop, and its stride. -/
abbrev Nest (α : Type) := List (Nat × α)

/-- How many elements there are. -/
def size : Nest α → Nat
  | [] => 1
  | (last, _) :: rest => (last + 1) * size rest

/-- Where the element after `n` others lies. -/
def offset : Nest α → Nat → α
  | [], _ => 0
  | (last, stride) :: rest, n =>
      stride * ((n % (last + 1) : Nat) : α) + offset rest (n / (last + 1))

/-- The generator of a nest before element `n`, when the loops inside have `travelled`. -/
def levels : α → Nest α → Nat → List (Level α)
  | _, [], _ => []
  | travelled, (last, stride) :: rest, n =>
      { bound := last, step := stride - travelled, index := n % (last + 1) } ::
        levels (travelled + stride * (last : α)) rest (n / (last + 1))

omit [CommRing α] in
theorem size_positive (nest : Nest α) : 0 < size nest := by
  induction nest with
  | nil => exact Nat.one_pos
  | cons loop rest ih => exact Nat.mul_pos (Nat.succ_pos _) ih

theorem split_digit {n d : Nat} (q : Nat) (inside : d < n) :
    (q * n + d) % n = d ∧ (q * n + d) / n = q := by
  rw [Nat.mul_comm]
  constructor
  · rw [Nat.mul_add_mod, Nat.mod_eq_of_lt inside]
  · rw [Nat.mul_add_div (Nat.zero_lt_of_lt inside), Nat.div_eq_of_lt inside, Nat.add_zero]

theorem split_last {last d : Nat} (q : Nat) (inside : d ≤ last) :
    (q * (last + 1) + d) % (last + 1) = d ∧ (q * (last + 1) + d) / (last + 1) = q :=
  split_digit q (Nat.lt_succ_of_le inside)

theorem offset_cons (last : Nat) (stride : α) (rest : Nest α) (q : Nat) {d : Nat}
    (inside : d ≤ last) : offset ((last, stride) :: rest) (q * (last + 1) + d) =
      stride * (d : α) + offset rest q := by
  rw [offset, (split_last q inside).1, (split_last q inside).2]

theorem offset_zero (nest : Nest α) : offset nest 0 = 0 := by
  induction nest with
  | nil => rfl
  | cons loop rest ih => simp [offset, ih]

theorem levels_cons (travelled : α) (last : Nat) (stride : α) (rest : Nest α) (q : Nat)
    {d : Nat} (inside : d ≤ last) :
    levels travelled ((last, stride) :: rest) (q * (last + 1) + d) =
      { bound := last, step := stride - travelled, index := d } ::
        levels (travelled + stride * (last : α)) rest q := by
  rw [levels, (split_last q inside).1, (split_last q inside).2]

omit [CommRing α] in
theorem inside_cons (last : Nat) (stride : α) (rest : Nest α) (q : Nat) {d : Nat}
    (inside : d ≤ last) :
    q * (last + 1) + d < size ((last, stride) :: rest) ↔ q < size rest := by
  rw [size, Nat.mul_comm (last + 1) (size rest), ← Nat.div_lt_iff_lt_mul (Nat.succ_pos last),
    (split_last q inside).2]

def position : Nest α → List Nat → Nat
  | (last, _) :: rest, d :: ds => position rest ds * (last + 1) + d
  | _, _ => 0

def reach : Nest α → List Nat → α
  | (_, stride) :: rest, d :: ds => stride * (d : α) + reach rest ds
  | _, _ => 0

def Indices : Nest α → List Nat → Prop
  | [], [] => True
  | (last, _) :: rest, d :: ds => d ≤ last ∧ Indices rest ds
  | _, _ => False

theorem offset_position (nest : Nest α) (ds : List Nat) (inside : Indices nest ds) :
    offset nest (position nest ds) = reach nest ds := by
  induction nest generalizing ds with
  | nil => rfl
  | cons loop rest ih =>
      cases ds with
      | nil => exact inside.elim
      | cons d ds =>
          obtain ⟨digit, inner⟩ := inside
          rw [position, offset_cons _ _ _ _ digit, ih ds inner, reach]

theorem advance_levels (nest : Nest α) (travelled base : α) (n : Nat) (inside : n < size nest) :
    advance (levels travelled nest n) (base + travelled + offset nest n) =
      if n + 1 < size nest then
        some (levels travelled nest (n + 1), base + offset nest (n + 1))
      else none := by
  induction nest generalizing travelled n with
  | nil =>
      have first : n = 0 := Nat.lt_one_iff.mp inside
      rw [first]
      rfl
  | cons loop rest ih =>
      obtain ⟨last, stride⟩ := loop
      obtain ⟨d, q, digit, rfl⟩ : ∃ d q, d ≤ last ∧ n = q * (last + 1) + d :=
        ⟨n % (last + 1), n / (last + 1), Nat.le_of_lt_succ (Nat.mod_lt _ (Nat.succ_pos last)),
          (Nat.div_add_mod' n (last + 1)).symm⟩
      have outside := (inside_cons last stride rest q digit).mp inside
      rw [levels_cons _ _ _ _ _ digit, offset_cons _ _ _ _ digit, advance]
      by_cases more : d < last
      · -- the innermost loop takes a turn
        have next : q * (last + 1) + d + 1 < size ((last, stride) :: rest) :=
          (inside_cons last stride rest q more).mpr outside
        rw [if_pos more, if_pos next, Nat.add_assoc, levels_cons _ _ _ _ _ more,
          offset_cons _ _ _ _ more]
        congr 2
        push_cast
        ring
      · -- it is at its end, and has travelled its stride `last` times
        have ended : d = last := Nat.le_antisymm digit (Nat.le_of_not_lt more)
        subst ended
        have carried : base + travelled + (stride * (d : α) + offset rest q) =
            base + (travelled + stride * (d : α)) + offset rest q := by ring
        have wraps : q * (d + 1) + d + 1 = (q + 1) * (d + 1) + 0 := by ring
        rw [if_neg more, carried, ih _ _ outside, wraps, levels_cons _ _ _ _ _ (Nat.zero_le d),
          offset_cons _ _ _ _ (Nat.zero_le d)]
        simp only [inside_cons d stride rest (q + 1) (Nat.zero_le d)]
        split <;> simp

theorem visits_levels (nest : Nest α) (base : α) (turns n : Nat) (inside : n < size nest) :
    visits turns (levels 0 nest n) (base + offset nest n) =
      ((List.range' n (min turns (size nest - n))).map fun i => base + offset nest i,
        decide (size nest ≤ n + turns)) := by
  induction turns generalizing n with
  | zero => simp [visits, inside]
  | succ turns ih =>
      have next := advance_levels nest 0 base n inside
      rw [add_zero] at next
      rw [visits, next]
      by_cases more : n + 1 < size nest
      · have counted : min (turns + 1) (size nest - n) = min turns (size nest - (n + 1)) + 1 := by
          omega
        simp only [if_pos more, ih (n + 1) more, counted, List.range'_succ, List.map_cons]
        rw [Nat.add_right_comm, Nat.add_assoc n turns 1]
      · have counted : min (turns + 1) (size nest - n) = 1 := by omega
        have ended : size nest ≤ n + (turns + 1) := by omega
        simp [if_neg more, counted, ended]

/-! ### Streams -/

/-- The elements as they are given: repeating is a loop of its own, of stride 0. -/
def given (repeats : Nat) (nest : Nest α) : Nest α := (repeats, 0) :: nest

/-- `t` elements of a nest at `base` were taken. -/
structure Taken (s : Stream α) (repeats : Nat) (nest : Nest α) (base : α) (t : Nat) : Prop where
  same : s.repeats = repeats
  going : t < size (given repeats nest) → s.ended = false ∧ s.given = t % (repeats + 1) ∧
    s.levels = levels 0 nest (t / (repeats + 1)) ∧
    s.address = base + offset nest (t / (repeats + 1))
  done : size (given repeats nest) ≤ t → s.ended = true

theorem taken_none (repeats : Nat) (nest : Nest α) (base : α) :
    Taken { levels := levels 0 nest 0, address := base, repeats := repeats } repeats
      nest base 0 where
  same := rfl
  going _ := by
    simp [offset_zero]
  done none := absurd (size_positive (given repeats nest)) (Nat.not_lt.mpr none)

theorem pop_taken {s : Stream α} {repeats : Nat} {nest : Nest α} {base : α} {t : Nat}
    (taken : Taken s repeats nest base t) (more : t < size (given repeats nest)) :
    ∃ s', s.pop = some (base + offset (given repeats nest) t, s') ∧
      Taken s' repeats nest base (t + 1) := by
  obtain ⟨going, count, loops, address⟩ := taken.going more
  obtain ⟨d, q, digit, rfl⟩ : ∃ d q, d ≤ repeats ∧ t = q * (repeats + 1) + d :=
    ⟨t % (repeats + 1), t / (repeats + 1),
      Nat.le_of_lt_succ (Nat.mod_lt _ (Nat.succ_pos repeats)),
      (Nat.div_add_mod' t (repeats + 1)).symm⟩
  have outside := (inside_cons repeats 0 nest q digit).mp more
  rw [(split_last q digit).1] at count
  rw [(split_last q digit).2] at loops address
  have element : base + offset (given repeats nest) (q * (repeats + 1) + d) = s.address := by
    rw [given, offset_cons _ _ _ _ digit, address, zero_mul, zero_add]
  rw [element, Stream.pop, going, if_neg Bool.false_ne_true, count, taken.same]
  by_cases again : d < repeats
  · -- the same element once more
    rw [if_pos again]
    refine ⟨_, rfl, rfl, fun _ => ?_, fun none => ?_⟩
    · rw [Nat.add_assoc, (split_last q again).1, (split_last q again).2]
      exact ⟨rfl, rfl, loops, address⟩
    · exact absurd ((inside_cons repeats 0 nest q again).mpr outside) (Nat.not_lt.mpr none)
  · have last : d = repeats := Nat.le_antisymm digit (Nat.le_of_not_lt again)
    subst last
    have wraps : q * (d + 1) + d + 1 = (q + 1) * (d + 1) + 0 := by ring
    have next := advance_levels nest 0 base q outside
    rw [add_zero] at next
    rw [if_neg again, loops, address, next, wraps]
    by_cases rest : q + 1 < size nest
    · rw [if_pos rest]
      refine ⟨_, rfl, rfl, fun _ => ?_, fun none => ?_⟩
      · rw [(split_last (q + 1) (Nat.zero_le d)).1, (split_last (q + 1) (Nat.zero_le d)).2]
        exact ⟨rfl, rfl, rfl, rfl⟩
      · exact absurd ((inside_cons d 0 nest (q + 1) (Nat.zero_le d)).mpr rest)
          (Nat.not_lt.mpr none)
    · rw [if_neg rest]
      refine ⟨_, rfl, rfl, fun inside => ?_, fun _ => rfl⟩
      exact absurd ((inside_cons d 0 nest (q + 1) (Nat.zero_le d)).mp inside) rest

end Nests

/-! ### Counts in two digits -/

theorem sum_digits {R : Type} [AddCommMonoid R] (rows cols : Nat) (f : Nat → R) :
    ∑ k ∈ Finset.range (rows * cols), f k =
      ∑ i ∈ Finset.range rows, ∑ j ∈ Finset.range cols, f (i * cols + j) := by
  induction rows with
  | zero => simp
  | succ rows ih => rw [Nat.succ_mul, Finset.sum_range_add, ih, Finset.sum_range_succ]

theorem flatMap_digits {β : Type} (rows cols : Nat) (f : Nat → List β) :
    (List.range (rows * cols)).flatMap f =
      (List.range rows).flatMap fun i => (List.range cols).flatMap fun j => f (i * cols + j) := by
  induction rows with
  | zero => simp
  | succ rows ih =>
      rw [Nat.succ_mul, List.range_add, List.flatMap_append, List.flatMap_map, ih, List.range_succ,
        List.flatMap_append, List.flatMap_singleton]

theorem perm_digits {β : Type} (rows cols : Nat) (f : Nat → Nat → β) :
    ((List.range cols).flatMap fun j => (List.range rows).map fun i => f i j).Perm
      ((List.range rows).flatMap fun i => (List.range cols).map fun j => f i j) := by
  induction cols with
  | zero => simp
  | succ cols ih =>
      have last : (List.range rows).map (fun i => f i cols) =
          (List.range rows).flatMap fun i => [f i cols] :=
        List.map_eq_flatMap
      simp only [List.range_succ, List.flatMap_append, List.flatMap_singleton, List.map_append,
        List.map_singleton]
      rw [last]
      exact (ih.append_right _).trans (List.flatMap_append_perm _ _ _)

theorem filter_part {β : Type} {p : β → Bool} {n k : Nat} (f : Nat → List β) (inside : k < n)
    (others : ∀ j < n, j ≠ k → (f j).filter p = []) :
    ((List.range n).flatMap f).filter p = (f k).filter p := by
  induction n with
  | zero => exact absurd inside (Nat.not_lt_zero k)
  | succ n ih =>
      rw [List.range_succ, List.flatMap_append, List.flatMap_singleton, List.filter_append]
      by_cases last : k = n
      · have nothing : ((List.range n).flatMap f).filter p = [] := by
          rw [List.filter_flatMap]
          exact List.flatMap_eq_nil_iff.mpr fun j member =>
            others j (by simp at member; omega) (by simp at member; omega)
        rw [nothing, last, List.nil_append]
      · rw [ih (by omega) fun j below apart => others j (by omega) apart,
          others n (Nat.lt_succ_self n) (Ne.symm last), List.append_nil]

/-- The indices of a nest's loops, the innermost first, in the order its loops take them. -/
def loopTurns {α : Type} : Nest α → List (List Nat)
  | [] => [[]]
  | (last, _) :: rest =>
      (loopTurns rest).flatMap fun ds => (List.range (last + 1)).map fun d => d :: ds

theorem offsets_turns {α : Type} [CommRing α] (nest : Nest α) :
    (List.range (size nest)).map (offset nest) = (loopTurns nest).map (reach nest) := by
  induction nest with
  | nil => rfl
  | cons loop rest ih =>
      obtain ⟨last, stride⟩ := loop
      have digits := flatMap_digits (size rest) (last + 1)
        fun n => [offset ((last, stride) :: rest) n]
      rw [size, Nat.mul_comm, List.map_eq_flatMap, digits, loopTurns, List.map_flatMap]
      have outer : ∀ ds, (List.map (reach ((last, stride) :: rest))
          ((List.range (last + 1)).map fun d => d :: ds)) =
          (List.range (last + 1)).map fun d : Nat => stride * (d : α) + reach rest ds := by
        intro ds
        rw [List.map_map]
        rfl
      simp only [outer]
      rw [← List.flatMap_map (reach rest)
        (fun far => (List.range (last + 1)).map fun d : Nat => stride * (d : α) + far), ← ih,
        List.flatMap_map]
      refine List.flatMap_congr fun q _ => ?_
      rw [← List.map_eq_flatMap]
      refine List.map_congr_left fun d inside => ?_
      exact offset_cons last stride rest q (Nat.le_of_lt_succ (List.mem_range.mp inside))

/-! ### Counted loops -/

section Loops

theorem bind_some {α β : Type} {x : Option α} {f : α → Option β} {a : α} {b : β}
    (first : x = some a) (second : f a = some b) : (x >>= f) = some b := by
  rw [first]
  exact second

variable {σ : Type}

theorem loop_runs (inv : Nat → σ → Prop) (turn : σ → Nat → Option σ) (count : Nat) (s : σ)
    (start : inv 0 s)
    (step : ∀ k < count, ∀ s, inv k s → ∃ s', turn s k = some s' ∧ inv (k + 1) s') :
    ∃ s', (List.range count).foldlM turn s = some s' ∧ inv count s' := by
  induction count with
  | zero => exact ⟨s, rfl, start⟩
  | succ count ih =>
      obtain ⟨s', runs, held⟩ := ih fun k below => step k (Nat.lt_succ_of_lt below)
      obtain ⟨s'', last, done⟩ := step count (Nat.lt_succ_self count) s' held
      refine ⟨s'', ?_, done⟩
      rw [List.range_succ, List.foldlM_append]
      exact bind_some runs (bind_some last rfl)

theorem two_loops_run (inv : Nat → σ → Prop) (turn : Nat → σ → Nat → Option σ) (rows cols : Nat)
    (s : σ) (start : inv 0 s)
    (step : ∀ i < rows, ∀ j < cols, ∀ s, inv (i * cols + j) s →
      ∃ s', turn i s j = some s' ∧ inv (i * cols + j + 1) s') :
    ∃ s', (List.range rows).foldlM (fun s i => (List.range cols).foldlM (turn i) s) s = some s' ∧
      inv (rows * cols) s' := by
  refine loop_runs (fun i => inv (i * cols)) _ rows s (by simpa using start) fun i row s held => ?_
  rw [Nat.succ_mul]
  exact loop_runs (fun j => inv (i * cols + j)) (turn i) cols s held fun j col s held =>
    step i row j col s held

theorem three_loops_run (inv : Nat → σ → Prop) (turn : Nat → Nat → σ → Nat → Option σ)
    (planes rows cols : Nat) (s : σ) (start : inv 0 s)
    (step : ∀ h < planes, ∀ i < rows, ∀ j < cols, ∀ s, inv ((h * rows + i) * cols + j) s →
      ∃ s', turn h i s j = some s' ∧ inv ((h * rows + i) * cols + j + 1) s') :
    ∃ s', (List.range planes).foldlM (fun s h =>
        (List.range rows).foldlM (fun s i => (List.range cols).foldlM (turn h i) s) s) s = some s' ∧
      inv (planes * rows * cols) s' := by
  have spot : ∀ h i j, (h * rows + i) * cols + j = h * (rows * cols) + (i * cols + j) := by
    intro h i j
    ring
  rw [Nat.mul_assoc]
  refine loop_runs (fun h => inv (h * (rows * cols))) _ planes s (by simpa using start)
    fun h plane s held => ?_
  rw [Nat.succ_mul]
  refine two_loops_run (fun n => inv (h * (rows * cols) + n)) (turn h) rows cols s held
    fun i row j col s held => ?_
  have turned := step h plane i row j col s
  rw [spot] at turned
  exact turned held

end Loops

end HeteroSim.StreamLoops
