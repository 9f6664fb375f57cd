import Mathlib.Computability.StateTransition
import Mathlib.Data.List.TakeWhile

/-!
Scanners that keep a position in a text, and runs of a machine with one successor.
The text that a position leaves is the text with that many elements dropped.
-/

namespace HeteroSim.Scanners

section Runs

open StateTransition

variable {σ : Type} {next : σ → Option σ}

def Ends (next : σ → Option σ) (a : σ) : Prop := (eval next a).Dom

theorem ends_last {a last : σ} (reached : Reaches next a last) (stops : next last = none) :
    Ends next a := Part.dom_iff_mem.mpr ⟨last, mem_eval.mpr ⟨reached, stops⟩⟩

theorem ends_reaches {a b : σ} (reached : Reaches next a b) : Ends next a ↔ Ends next b := by
  rw [Ends, Ends, reaches_eval reached]

theorem eval_last {a last : σ} (reached : Reaches next a last) (stops : next last = none) :
    eval next a = Part.some last := Part.eq_some_iff.mpr (mem_eval.mpr ⟨reached, stops⟩)

theorem endless {C : σ → Prop} (back : ∀ a, C a → ∃ b, Reaches₁ next a b ∧ C b) {a : σ}
    (kind : C a) : ¬ Ends next a := by
  intro ends
  obtain ⟨last, member⟩ := Part.dom_iff_mem.mp ends
  -- by induction on the run: no state of the kind lies ahead of any of its states
  have never : ∀ c, Reaches next a c → ¬ C c := by
    refine evalInduction member fun a _ ahead c reached kind => ?_
    rcases Relation.ReflTransGen.cases_head reached with rfl | ⟨a', first, later⟩
    · obtain ⟨b, again, kind'⟩ := back a kind
      obtain ⟨a', first, later⟩ := Relation.TransGen.head'_iff.mp again
      exact ahead a' first b later kind'
    · exact ahead a' first c later kind
  exact never a Relation.ReflTransGen.refl kind

end Runs

section Positions

variable {α : Type} {s rest more : List α} {p : α → Bool} {i : Nat}

/-- The first position from `i` on whose element is not one to skip, or the end. -/
def skip (p : α → Bool) (s : List α) (i : Nat) : Nat := i + ((s.drop i).takeWhile p).length

def substr (s : List α) (i n : Nat) : List α := (s.drop i).take n

theorem drop_length_takeWhile (p : α → Bool) (s : List α) :
    s.drop (s.takeWhile p).length = s.dropWhile p := by
  calc s.drop (s.takeWhile p).length
      = (s.takeWhile p ++ s.dropWhile p).drop (s.takeWhile p).length := by
        rw [List.takeWhile_append_dropWhile]
    _ = s.dropWhile p := List.drop_left

theorem drop_skip (p : α → Bool) (s : List α) (i : Nat) :
    s.drop (skip p s i) = (s.drop i).dropWhile p := by
  rw [skip, ← List.drop_drop, drop_length_takeWhile]

theorem substr_skip (p : α → Bool) (s : List α) (i : Nat) :
    substr s i (skip p s i - i) = (s.drop i).takeWhile p := by
  rw [substr, skip, Nat.add_sub_cancel_left]
  exact List.prefix_iff_eq_take.mp (List.takeWhile_prefix p) |>.symm

theorem lt_length_drop : i < s.length ↔ s.drop i ≠ [] := by
  rw [ne_eq, List.drop_eq_nil_iff, Nat.not_le]

theorem head_drop : s[i]? = (s.drop i).head? := by
  rw [List.head?_drop]

theorem dropWhile_delimited {mark : α} (stops : p mark = false) (lead : List α) :
    (lead ++ mark :: more).dropWhile p = lead.dropWhile p ++ mark :: more := by
  induction lead with
  | nil => exact List.dropWhile_cons_of_neg (by simp [stops])
  | cons c rest ih =>
      rw [List.cons_append, List.dropWhile_cons, List.dropWhile_cons]
      split
      · exact ih
      · rfl

theorem takeWhile_delimited {mark : α} (stops : p mark = false) (all : ∀ c ∈ rest, p c = true) :
    (rest ++ mark :: more).takeWhile p = rest := by
  rw [List.takeWhile_append_of_pos all, List.takeWhile_cons_of_neg (by simp [stops]),
    List.append_nil]

theorem marked_induction (mark : α) {motive : List α → Prop}
    (free : ∀ gap, mark ∉ gap → motive gap)
    (once : ∀ gap body, mark ∉ gap → mark ∉ body → motive (gap ++ mark :: body))
    (pair : ∀ gap body more, mark ∉ gap → mark ∉ body → motive more →
      motive (gap ++ mark :: (body ++ mark :: more))) (s : List α) : motive s := by
  induction size : s.length using Nat.strong_induction_on generalizing s with
  | _ n ih =>
      by_cases first : mark ∈ s
      · obtain ⟨gap, after, rfl, outside⟩ := List.eq_append_cons_of_mem first
        by_cases second : mark ∈ after
        · obtain ⟨body, more, rfl, inside⟩ := List.eq_append_cons_of_mem second
          refine pair gap body more outside inside (ih more.length ?_ more rfl)
          rw [← size]
          simp only [List.length_append, List.length_cons]
          omega
        · exact once gap after outside second
      · exact free s first

end Positions

end HeteroSim.Scanners
