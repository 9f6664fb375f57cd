import Mathlib.Tactic.Basic

/-!
Two programs run side by side, from states and to results that a relation holds
between. A program may fail; here both are shown to end. The rules follow the
programs' shape: in sequence, under a condition, and turn by turn of a loop.
-/

namespace HeteroSim.TwoRuns

variable {α β γ δ ι : Type}

def Both (rel : α → β → Prop) (x : Option α) (y : Option β) : Prop :=
  ∃ a b, x = some a ∧ y = some b ∧ rel a b

variable {rel : α → β → Prop} {x : Option α} {y : Option β}

theorem Both.done {a : α} {b : β} (held : rel a b) : Both rel (some a) (some b) :=
  ⟨a, b, rfl, rfl, held⟩

theorem Both.weaken {more : α → β → Prop} (both : Both rel x y)
    (passes : ∀ a b, rel a b → more a b) : Both more x y := by
  obtain ⟨a, b, first, second, held⟩ := both
  exact ⟨a, b, first, second, passes a b held⟩

theorem Both.bind {after : γ → δ → Prop} {f : α → Option γ} {g : β → Option δ}
    (first : Both rel x y) (second : ∀ a b, rel a b → Both after (f a) (g b)) :
    Both after (x >>= f) (y >>= g) := by
  obtain ⟨a, b, rfl, rfl, held⟩ := first
  exact second a b held

theorem Both.ite {condition : Prop} [Decidable condition] {x' : Option α} {y' : Option β}
    (yes : condition → Both rel x y) (no : ¬ condition → Both rel x' y') :
    Both rel (if condition then x else x') (if condition then y else y') := by
  by_cases holds : condition
  · rw [if_pos holds, if_pos holds]
    exact yes holds
  · rw [if_neg holds, if_neg holds]
    exact no holds

theorem Both.fold (f : α → ι → Option α) (g : β → ι → Option β) (xs : List ι) (a : α) (b : β)
    (start : rel a b) (turn : ∀ i ∈ xs, ∀ a b, rel a b → Both rel (f a i) (g b i)) :
    Both rel (xs.foldlM f a) (xs.foldlM g b) := by
  induction xs generalizing a b with
  | nil => exact Both.done start
  | cons i rest ih =>
      simp only [List.foldlM_cons]
      apply Both.bind (turn i List.mem_cons_self a b start)
      intro a b held
      exact ih a b held fun j later => turn j (List.mem_cons_of_mem i later)

theorem Both.turns (inv : Nat → α → β → Prop) (f : α → Nat → Option α) (g : β → Nat → Option β)
    (count : Nat) (a : α) (b : β) (start : inv 0 a b)
    (turn : ∀ k < count, ∀ a b, inv k a b → Both (inv (k + 1)) (f a k) (g b k)) :
    Both (inv count) ((List.range count).foldlM f a) ((List.range count).foldlM g b) := by
  induction count with
  | zero => exact Both.done start
  | succ count ih =>
      simp only [List.range_succ, List.foldlM_append]
      apply Both.bind (ih fun k before => turn k (Nat.lt_succ_of_lt before))
      intro a b held
      simp only [List.foldlM_cons, List.foldlM_nil, bind_pure]
      exact turn count (Nat.lt_succ_self count) a b held

end HeteroSim.TwoRuns
