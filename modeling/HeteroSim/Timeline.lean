import Mathlib.Algebra.Order.Monoid.Defs
import Mathlib.Data.List.Basic

/-!
Histories of times, newest first: minimum spacing, sliding windows, and the
bounded queue that remembers the last `k` entries. The queue's oldest entry is
what a new time is compared with; `Spans.cons` turns that one comparison into a
statement about every `k + 1` consecutive entries of the history.
-/

namespace HeteroSim.Timeline

section Spacing

variable {T : Type*} [AddCommMonoid T] [PartialOrder T] [IsOrderedAddMonoid T]

/-- Every entry is at least `gap` after every older one. -/
def Spaced (gap : T) (history : List T) : Prop :=
  history.Pairwise fun newer older => older + gap ≤ newer

instance [DecidableRel (fun a b : T => a ≤ b)] (gap : T) (history : List T) :
    Decidable (Spaced gap history) :=
  inferInstanceAs (Decidable (List.Pairwise _ _))

/-- Entries `k` places apart are at least `gap` apart. -/
def Spans (k : Nat) (gap : T) (history : List T) : Prop :=
  ∀ i newer older, history[i]? = some newer → history[i + k]? = some older →
    older + gap ≤ newer

omit [IsOrderedAddMonoid T] in
theorem spaced_nil (gap : T) : Spaced gap [] := List.Pairwise.nil

omit [IsOrderedAddMonoid T] in
theorem spans_nil (k : Nat) (gap : T) : Spans k gap [] := by
  intro i newer older found
  simp at found

theorem Spaced.cons {gap x : T} {history : List T} (spaced : Spaced gap history)
    (nonneg : 0 ≤ gap) (next : ∀ last, history.head? = some last → last + gap ≤ x) :
    Spaced gap (x :: history) := by
  refine List.pairwise_cons.mpr ⟨?_, spaced⟩
  cases history with
  | nil => simp
  | cons last rest =>
      have near := next last rfl
      intro older member
      rcases List.mem_cons.mp member with same | earlier
      · rw [same]
        exact near
      · calc older + gap ≤ last := (List.pairwise_cons.mp spaced).1 older earlier
          _ ≤ last + gap := le_add_of_nonneg_right nonneg
          _ ≤ x := near

theorem Spaced.older_le {gap : T} {history : List T} (spaced : Spaced gap history)
    (nonneg : 0 ≤ gap) {i j : Nat} {newer older : T} (order : i ≤ j)
    (atNewer : history[i]? = some newer) (atOlder : history[j]? = some older) :
    older ≤ newer := by
  rcases Nat.eq_or_lt_of_le order with same | before
  · subst same
    rw [atNewer] at atOlder
    exact (Option.some.inj atOlder).ge
  · obtain ⟨inside, value⟩ := List.getElem?_eq_some_iff.mp atNewer
    obtain ⟨deeper, old⟩ := List.getElem?_eq_some_iff.mp atOlder
    have apart := List.pairwise_iff_getElem.mp spaced i j inside deeper before
    rw [value, old] at apart
    exact le_trans (le_add_of_nonneg_right nonneg) apart

omit [IsOrderedAddMonoid T] in
theorem Spans.cons {k : Nat} {gap x : T} {history : List T} (spans : Spans k gap history)
    (next : ∀ older, (x :: history)[k]? = some older → older + gap ≤ x) :
    Spans k gap (x :: history) := by
  intro i newer older atNewer atOlder
  cases i with
  | zero =>
      simp only [List.getElem?_cons_zero, Option.some.injEq] at atNewer
      subst atNewer
      rw [Nat.zero_add] at atOlder
      exact next older atOlder
  | succ i =>
      rw [List.getElem?_cons_succ] at atNewer
      rw [Nat.succ_add, List.getElem?_cons_succ] at atOlder
      exact spans i newer older atNewer atOlder

theorem Spans.far {k : Nat} {gap step : T} {history : List T} (spans : Spans k gap history)
    (spaced : Spaced step history) (nonneg : 0 ≤ step) {i j : Nat} {newer older : T}
    (apart : i + k ≤ j) (atNewer : history[i]? = some newer)
    (atOlder : history[j]? = some older) : older + gap ≤ newer := by
  obtain ⟨deep, _⟩ := List.getElem?_eq_some_iff.mp atOlder
  have between : history[i + k]? = some history[i + k] := by
    simp [show i + k < history.length by omega]
  have sorted := spaced.older_le nonneg apart between atOlder
  exact le_trans (by gcongr) (spans i newer _ atNewer between)

end Spacing

section Window

variable {α : Type*}

/-- A queue of at most `k` entries, oldest first. -/
def push (k : Nat) (queue : List α) (x : α) : List α :=
  (if queue.length = k then queue.tail else queue) ++ [x]

/-- The queue after a history holds its last `k` entries. -/
def window (k : Nat) (history : List α) : List α := (history.take k).reverse

@[simp] theorem window_nil (k : Nat) : window k ([] : List α) = [] := by
  simp [window]

theorem push_window (k : Nat) (positive : 0 < k) (history : List α) (x : α) :
    push k (window k history) x = window k (x :: history) := by
  obtain ⟨m, rfl⟩ := Nat.exists_eq_succ_of_ne_zero (Nat.ne_of_gt positive)
  simp only [window, push, List.length_reverse, List.length_take, List.take_succ_cons,
    List.reverse_cons]
  congr 1
  by_cases full : m + 1 ≤ history.length
  · have shorter : min (min (m + 1) history.length - 1) (m + 1) = m := by omega
    rw [if_pos (by omega), List.tail_reverse, List.dropLast_eq_take, List.length_take,
      List.take_take, shorter]
  · have short : history.length ≤ m := by omega
    have all : history.take m = history := List.take_of_length_le short
    have more : history.take (m + 1) = history := List.take_of_length_le (by omega)
    rw [if_neg (by omega), more, all]

theorem window_head (k : Nat) (history : List α) (x : α) (atDepth : history[k]? = some x)
    (other : α) : (window (k + 1) history).length = k + 1 ∧
      (window (k + 1) history).headD other = x := by
  obtain ⟨inside, value⟩ := List.getElem?_eq_some_iff.mp atDepth
  constructor
  · simp only [window, List.length_reverse, List.length_take]
    omega
  · rw [List.headD_eq_head?_getD]
    simp [window, List.head?_reverse, List.getLast?_take, atDepth]

end Window

end HeteroSim.Timeline
