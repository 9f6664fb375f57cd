import Mathlib.Algebra.BigOperators.Group.Finset.Basic
import Mathlib.Algebra.BigOperators.Group.List.Basic
import Mathlib.Algebra.GroupWithZero.Nat

/-!
Runs of different lengths, stored one after another without their offsets. A reader
that adds up the lengths finds each run where the writer put it and leaves none out.
Then what a run has to cover: a sum over a range is the sum over any run of it that
holds all that is not zero.
-/

namespace HeteroSim.RaggedRuns

/-! ### Running offsets -/

section Offsets

/-- What comes before run `m`. -/
def offset (lengths : List Nat) (m : Nat) : Nat := (lengths.take m).sum

theorem offset_succ {lengths : List Nat} {m n : Nat} (run : lengths[m]? = some n) :
    offset lengths (m + 1) = offset lengths m + n := by
  simp [offset, List.take_add_one, run]

theorem offset_all (lengths : List Nat) : offset lengths lengths.length = lengths.sum := by
  simp [offset]

variable {α : Type}

theorem flatten_offset (runs : List (List α)) {m i : Nat} {run : List α}
    (found : runs[m]? = some run) (inside : i < run.length) :
    runs.flatten[offset (runs.map List.length) m + i]? = run[i]? := by
  obtain ⟨short, here⟩ := List.getElem?_eq_some_iff.mp found
  have tail : runs.drop m = run :: runs.drop (m + 1) := by
    rw [List.drop_eq_getElem_cons short, here]
  -- without what is before the run it is at the front
  rw [← List.getElem?_drop, offset, List.drop_sum_flatten, tail, List.flatten_cons,
    List.getElem?_append_left inside]

theorem flatten_length (runs : List (List α)) :
    runs.flatten.length = (runs.map List.length).sum := List.length_flatten

end Offsets

/-! ### Support -/

section Support

/-- The positions where `p` holds, in order. -/
def positions (p : Nat → Bool) (n : Nat) : List Nat := (List.range n).filter p

theorem positions_succ (p : Nat → Bool) (n : Nat) :
    positions p (n + 1) = positions p n ++ if p n then [n] else [] := by
  rw [positions, List.range_succ, List.filter_append, List.filter_singleton, Bool.cond_eq_ite]
  rfl

theorem positions_first {p : Nat → Bool} {n first : Nat}
    (head : (positions p n).head? = some first) :
    p first = true ∧ first < n ∧ ∀ b, p b = true → first ≤ b := by
  rw [positions, List.head?_filter, List.find?_range_eq_some] at head
  obtain ⟨here, member, others⟩ := head
  refine ⟨here, List.mem_range.mp member, fun b holds => Nat.le_of_not_lt fun before => ?_⟩
  have fails := others b before
  rw [holds] at fails
  exact absurd fails Bool.false_ne_true

theorem positions_last {p : Nat → Bool} {n last : Nat}
    (tail : (positions p n).getLast? = some last) :
    last < n ∧ ∀ b < n, p b = true → b ≤ last := by
  induction n with
  | zero => cases tail
  | succ n ih =>
      rw [positions_succ] at tail
      cases here : p n with
      | true =>
          have same : n = last := by simpa [here] using tail
          rw [← same]
          exact ⟨Nat.lt_succ_self n, fun b below _ => Nat.le_of_lt_succ below⟩
      | false =>
          obtain ⟨below, most⟩ := ih (by simpa [here] using tail)
          refine ⟨Nat.lt_succ_of_lt below, fun b within holds => ?_⟩
          rcases Nat.lt_succ_iff_lt_or_eq.mp within with earlier | rfl
          · exact most b earlier holds
          · exact absurd (holds.symm.trans here) Bool.false_ne_true.symm

theorem positions_none {p : Nat → Bool} {n : Nat} (nothing : (positions p n).head? = none) :
    ∀ b < n, p b = false := by
  intro b below
  have empty := List.filter_eq_nil_iff.mp (List.head?_eq_none_iff.mp nothing) b
    (List.mem_range.mpr below)
  exact Bool.eq_false_of_not_eq_true empty

variable {R : Type} [AddCommMonoid R]

theorem sum_run (f : Nat → R) {n start len : Nat} (inside : start + len ≤ n)
    (zeros : ∀ b < n, b < start ∨ start + len ≤ b → f b = 0) :
    ∑ b ∈ Finset.range n, f b = ∑ i ∈ Finset.range len, f (start + i) := by
  obtain ⟨rest, rfl⟩ := Nat.exists_eq_add_of_le inside
  -- the range is what is before the run, the run, and what is after it
  have before : ∑ b ∈ Finset.range start, f b = 0 :=
    Finset.sum_eq_zero fun b member => by
      have below := Finset.mem_range.mp member
      exact zeros b (by omega) (Or.inl below)
  have after : ∑ i ∈ Finset.range rest, f (start + len + i) = 0 :=
    Finset.sum_eq_zero fun i member => by
      have below := Finset.mem_range.mp member
      exact zeros _ (by omega) (Or.inr (Nat.le_add_right _ _))
  rw [Finset.sum_range_add, Finset.sum_range_add, before, after, zero_add, add_zero]

end Support

end HeteroSim.RaggedRuns
