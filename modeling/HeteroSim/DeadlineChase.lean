import Mathlib.Algebra.Order.Group.Int

/-!
Chasing deadlines. What is planned in round `n` ends at `reach n`. While that is not
before the deadline of the round, the rounds whose deadlines it passes are taken first and
the plan is made again. With plans that never get earlier the chase ends in the first
round that is ahead of its own deadline.
-/

namespace HeteroSim.DeadlineChase

/-- A jump leads to the first round, from `n` on, with a deadline after the plan of `n`. -/
def Chases (reach due : Nat → Int) (jump : Nat → Nat) : Prop :=
  ∀ n m, jump n ≤ m ↔ n ≤ m ∧ reach n < due m

def chase (jump : Nat → Nat) : Nat → Nat → Option Nat
  | 0, _ => none
  | fuel + 1, n => if jump n = n then some n else chase jump fuel (jump n)

theorem chase_more (jump : Nat → Nat) (fuel fuel' n last : Nat) (more : fuel ≤ fuel')
    (ended : chase jump fuel n = some last) : chase jump fuel' n = some last := by
  induction fuel generalizing fuel' n with
  | zero => cases ended
  | succ fuel ih =>
      obtain ⟨less, rfl⟩ : ∃ less, fuel' = less + 1 := ⟨fuel' - 1, by omega⟩
      rw [chase] at ended ⊢
      split at ended
      next stays => rwa [if_pos stays]
      next moves =>
        rw [if_neg moves]
        exact ih less _ (by omega) ended

section Chase

variable {reach due : Nat → Int} {jump : Nat → Nat} (chases : Chases reach due jump)

include chases

theorem jump_forward (n : Nat) : n ≤ jump n :=
  ((chases n (jump n)).mp (Nat.le_refl _)).1

theorem jump_stays (n : Nat) : jump n = n ↔ reach n < due n := by
  have least := chases n n
  have forward := jump_forward chases n
  constructor
  · intro stays
    exact (least.mp stays.le).2
  · intro ahead
    exact Nat.le_antisymm (least.mpr ⟨Nat.le_refl n, ahead⟩) forward

theorem chase_ahead (fuel n last : Nat) (ended : chase jump fuel n = some last) :
    n ≤ last ∧ reach last < due last := by
  induction fuel generalizing n with
  | zero => cases ended
  | succ fuel ih =>
      rw [chase] at ended
      split at ended
      next stays =>
        obtain rfl : n = last := Option.some.inj ended
        exact ⟨Nat.le_refl n, (jump_stays chases n).mp stays⟩
      next =>
        obtain ⟨later, ahead⟩ := ih _ ended
        exact ⟨Nat.le_trans (jump_forward chases n) later, ahead⟩

theorem chase_least (start : Nat)
    (grows : ∀ m n, start ≤ m → m ≤ n → reach m ≤ reach n) (fuel n last m : Nat)
    (begun : start ≤ n) (before : n ≤ m) (ahead : reach m < due m)
    (ended : chase jump fuel n = some last) : last ≤ m := by
  induction fuel generalizing n with
  | zero => cases ended
  | succ fuel ih =>
      rw [chase] at ended
      split at ended
      next =>
        cases ended
        exact before
      next =>
        have reached := grows n m begun before
        have within : jump n ≤ m := (chases n m).mpr ⟨before, by omega⟩
        exact ih (jump n) (Nat.le_trans begun (jump_forward chases n)) within ended

theorem chase_ends (settled : Nat) (ahead : ∀ n, settled ≤ n → reach n < due n) (fuel n : Nat)
    (enough : settled ≤ n + fuel) : ∃ last, chase jump (fuel + 1) n = some last := by
  induction fuel generalizing n with
  | zero =>
      have stays := (jump_stays chases n).mpr (ahead n enough)
      exact ⟨n, by rw [chase, if_pos stays]⟩
  | succ fuel ih =>
      by_cases stays : jump n = n
      · exact ⟨n, by rw [chase, if_pos stays]⟩
      · have forward := jump_forward chases n
        rw [chase, if_neg stays]
        exact ih (jump n) (by omega)

theorem chase_never (n : Nat) (behind : ∀ m, n ≤ m → due m ≤ reach m) (fuel : Nat) :
    chase jump fuel n = none := by
  induction fuel generalizing n with
  | zero => rfl
  | succ fuel ih =>
      have moves : ¬ jump n = n := by
        rw [jump_stays chases]
        have late := behind n (Nat.le_refl n)
        omega
      rw [chase, if_neg moves]
      exact ih (jump n) fun m later => behind m (Nat.le_trans (jump_forward chases n) later)

theorem chase_rises {reach' : Nat → Int} {jump' : Nat → Nat} (chases' : Chases reach' due jump')
    (start start' : Nat) (ordered : start ≤ start')
    (grows : ∀ m n, start ≤ m → m ≤ n → reach m ≤ reach n)
    (earlier : ∀ n, start' ≤ n → reach n ≤ reach' n) (fuel fuel' last last' : Nat)
    (ended : chase jump fuel start = some last) (ended' : chase jump' fuel' start' = some last') :
    last ≤ last' ∧ reach last ≤ reach' last' := by
  obtain ⟨later, ahead⟩ := chase_ahead chases' fuel' start' last' ended'
  have planned := earlier last' later
  have sooner : last ≤ last' := chase_least chases start grows fuel start last last'
    (Nat.le_refl start) (Nat.le_trans ordered later) (by omega) ended
  have begun := (chase_ahead chases fuel start last ended).1
  exact ⟨sooner, Int.le_trans (grows last last' begun sooner) planned⟩

end Chase

end HeteroSim.DeadlineChase
