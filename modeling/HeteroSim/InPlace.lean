import Mathlib.Logic.Function.Basic
import Mathlib.Data.List.Basic

/-!
Arrays changed in place by a loop: a pass that swaps by an involution, and a pass of
steps that share no cell. An array is a function of the index.
-/

namespace HeteroSim.InPlace

open Function (update)

variable {α β : Type}

def swapAt (x : Nat → α) (i j : Nat) : Nat → α := update (update x i (x j)) j (x i)

theorem swapAt_left (x : Nat → α) {i j : Nat} (apart : i ≠ j) : swapAt x i j i = x j := by
  rw [swapAt, Function.update_of_ne apart, Function.update_self]

theorem swapAt_right (x : Nat → α) (i j : Nat) : swapAt x i j j = x i := Function.update_self ..

theorem swapAt_other (x : Nat → α) {i j k : Nat} (left : k ≠ i) (right : k ≠ j) :
    swapAt x i j k = x k := by
  rw [swapAt, Function.update_of_ne right, Function.update_of_ne left]

section Swaps

variable {σ : Nat → Nat} {n : Nat}

/-- Swapping each index with its image, from the smaller of the two, permutes the
array once: after `m` turns the cells whose swap is due hold their image's value. -/
theorem swap_pass (inside : ∀ i, i < n → σ i < n) (involutive : ∀ i, i < n → σ (σ i) = i)
    (x : Nat → α) (m : Nat) (turns : m ≤ n) (k : Nat) (cell : k < n) :
    (List.range m).foldl (fun x i => if i < σ i then swapAt x i (σ i) else x) x k =
      if k < m ∨ σ k < m then x (σ k) else x k := by
  induction m generalizing k with
  | zero => simp
  | succ m ih =>
      rw [List.range_succ, List.foldl_append, List.foldl_cons, List.foldl_nil]
      have before := ih (by omega)
      have image := inside m (by omega)
      have back := involutive m (by omega)
      by_cases first : m < σ m
      · rw [if_pos first]
        by_cases left : k = m
        · rw [left, swapAt_left _ (by omega), before (σ m) image, if_neg (by omega),
            if_pos (by omega)]
        by_cases right : k = σ m
        · rw [right, swapAt_right, before m (by omega), if_neg (by omega), back, if_pos (by omega)]
        have other : σ k ≠ m := by
          intro same
          rw [← same, involutive k cell] at right
          exact right rfl
        rw [swapAt_other _ left right, before k cell]
        by_cases due : k < m ∨ σ k < m
        · rw [if_pos due, if_pos (by omega)]
        · rw [if_neg due, if_neg (by omega)]
      · rw [if_neg first, before k cell]
        by_cases due : k < m ∨ σ k < m
        · rw [if_pos due, if_pos (by omega)]
        · rw [if_neg due]
          by_cases now : k = m
          · have fixed : σ m = m := by rw [← now] at first ⊢; omega
            rw [if_pos (by omega), now, fixed]
          by_cases soon : σ k = m
          · have fixed : k = σ m := by rw [← soon, involutive k cell]
            omega
          · rw [if_neg (by omega)]

end Swaps

section Apart

variable {step : β → (Nat → α) → Nat → α} {touches : β → Nat → Prop}

theorem foldl_apart (l : List β) (frame : ∀ b ∈ l, ∀ x i, ¬ touches b i → step b x i = x i)
    (within : ∀ b ∈ l, ∀ x y, (∀ i, touches b i → x i = y i) →
      ∀ i, touches b i → step b x i = step b y i)
    (apart : l.Pairwise fun b c => ∀ i, touches b i → ¬ touches c i) (x : Nat → α) :
    (∀ b ∈ l, ∀ i, touches b i → l.foldl (fun x b => step b x) x i = step b x i) ∧
      ∀ i, (∀ b ∈ l, ¬ touches b i) → l.foldl (fun x b => step b x) x i = x i := by
  induction l generalizing x with
  | nil => simp
  | cons head rest ih =>
      obtain ⟨headApart, restApart⟩ := List.pairwise_cons.mp apart
      obtain ⟨alone, untouched⟩ := ih (fun b later => frame b (List.mem_cons_of_mem _ later))
        (fun b later => within b (List.mem_cons_of_mem _ later)) restApart (step head x)
      constructor
      · intro b member i touched
        rw [List.foldl_cons]
        rcases List.mem_cons.mp member with rfl | later
        · exact untouched i fun c later => headApart c later i touched
        · rw [alone b later i touched]
          apply within b member _ _ _ i touched
          intro j cell
          exact frame head List.mem_cons_self x j fun both => headApart b later j both cell
      · intro i none
        rw [List.foldl_cons, untouched i fun c later => none c (List.mem_cons_of_mem _ later)]
        exact frame head List.mem_cons_self x i (none head List.mem_cons_self)

end Apart

end HeteroSim.InPlace
