import Mathlib.Algebra.BigOperators.Group.Finset.Basic
import Mathlib.Algebra.Order.BigOperators.Group.Finset
import Mathlib.Data.Fintype.Basic
import Mathlib.Data.Finset.Basic
import Mathlib.Logic.Function.Basic
import Mathlib.Logic.Relation

/-!
Parties that meet at a barrier. A party at the barrier takes no step of its own
until every party is there; then all of them go on at once. Between two barriers
they step in any order, and so does what is around them.
-/

namespace HeteroSim.Barriers

open Relation (ReflTransGen)

/-- Parties `P`, each at a place `L` of its program, over what they share. -/
structure Team (P L S : Type) where
  act : P → L → S → L → S → Prop
  around : S → S → Prop
  waits : L → Prop
  resume : L → L

structure Config (P L S : Type) where
  place : P → L
  shared : S

section Runs

variable {P L S : Type} [DecidableEq P]

/-- The party goes on to place `l` and leaves `s`. -/
def Config.move (c : Config P L S) (p : P) (l : L) (s : S) : Config P L S :=
  ⟨Function.update c.place p l, s⟩

theorem move_mine (c : Config P L S) (p : P) (l : L) (s : S) : (c.move p l s).place p = l :=
  Function.update_self ..

theorem move_other (c : Config P L S) {p q : P} (l : L) (s : S) (other : q ≠ p) :
    (c.move p l s).place q = c.place q :=
  Function.update_of_ne other ..

inductive Step (team : Team P L S) : Config P L S → Config P L S → Prop
  | act (c : Config P L S) (p : P) (l : L) (s : S) (working : ¬ team.waits (c.place p))
      (taken : team.act p (c.place p) c.shared l s) :
      Step team c (c.move p l s)
  | around (c : Config P L S) (s : S) (taken : team.around c.shared s) :
      Step team c ⟨c.place, s⟩
  | release (c : Config P L S) (gathered : ∀ p, team.waits (c.place p)) :
      Step team c ⟨fun p => team.resume (c.place p), c.shared⟩

abbrev Run (team : Team P L S) : Config P L S → Config P L S → Prop :=
  ReflTransGen (Step team)

variable {team : Team P L S}

/-! ### In step

No party is a barrier ahead of another. -/

section Laps

variable {C : Type}

/-- `lap` tells by its place which barriers a party is past. -/
structure Laps (team : Team P L S) (lap : L → C) (next : C → C) : Prop where
  act : ∀ p l s l' s', ¬ team.waits l → team.act p l s l' s' → lap l' = lap l
  resume : ∀ l, team.waits l → lap (team.resume l) = next (lap l)

def Level (lap : L → C) (c : Config P L S) : Prop :=
  ∃ turn, ∀ p, lap (c.place p) = turn

variable {lap : L → C} {next : C → C}

theorem step_level (laps : Laps team lap next) {c c' : Config P L S} (level : Level lap c)
    (taken : Step team c c') : Level lap c' := by
  obtain ⟨turn, same⟩ := level
  cases taken with
  | act p l s working taken =>
      refine ⟨turn, fun q => ?_⟩
      by_cases mine : q = p
      · subst mine
        rw [move_mine, laps.act q _ _ _ _ working taken, same]
      · rw [move_other c l s mine, same]
  | around s taken => exact ⟨turn, same⟩
  | release gathered => exact ⟨next turn, fun p => by rw [laps.resume _ (gathered p), same]⟩

theorem run_level (laps : Laps team lap next) {c c' : Config P L S} (level : Level lap c)
    (ran : Run team c c') : Level lap c' := by
  induction ran with
  | refl => exact level
  | tail _ taken ih => exact step_level laps ih taken

/-- What is said of a party at its place. The steps of the others, who are in the
same lap, leave it true, and at the barrier what all of them say is enough for
what each says past it. -/
structure Assertions (team : Team P L S) (lap : L → C) (holds : P → L → S → Prop) : Prop where
  own : ∀ p l s l' s', ¬ team.waits l → team.act p l s l' s' → holds p l s → holds p l' s'
  stable : ∀ p l s l' s', ¬ team.waits l → team.act p l s l' s' → holds p l s →
    ∀ q m, q ≠ p → lap m = lap l → holds q m s → holds q m s'
  around : ∀ s s', team.around s s' → ∀ p l, holds p l s → holds p l s'
  release : ∀ place s, (∀ p, team.waits (place p)) → Level lap ⟨place, s⟩ →
    (∀ p, holds p (place p) s) → ∀ p, holds p (team.resume (place p)) s

theorem step_holds {holds : P → L → S → Prop} (sound : Assertions team lap holds)
    {c c' : Config P L S} (level : Level lap c) (all : ∀ p, holds p (c.place p) c.shared)
    (taken : Step team c c') : ∀ p, holds p (c'.place p) c'.shared := by
  cases taken with
  | act p l s working taken =>
      intro q
      by_cases mine : q = p
      · subst mine
        rw [move_mine]
        exact sound.own q _ _ _ _ working taken (all q)
      · obtain ⟨turn, same⟩ := level
        rw [move_other c l s mine]
        exact sound.stable p _ _ _ _ working taken (all p) q _ mine
          ((same q).trans (same p).symm) (all q)
  | around s taken => exact fun p => sound.around _ _ taken p _ (all p)
  | release gathered => exact sound.release _ _ gathered level all

theorem run_holds {holds : P → L → S → Prop} (laps : Laps team lap next)
    (sound : Assertions team lap holds) {c c' : Config P L S} (level : Level lap c)
    (all : ∀ p, holds p (c.place p) c.shared) (ran : Run team c c') :
    ∀ p, holds p (c'.place p) c'.shared := by
  induction ran with
  | refl => exact all
  | tail before taken ih => exact step_holds sound (run_level laps level before) ih taken

end Laps

/-! ### Getting on -/

theorem step_exists (c : Config P L S)
    (able : ∀ p, ¬ team.waits (c.place p) → ∃ l s, team.act p (c.place p) c.shared l s) :
    ∃ c', Step team c c' := by
  by_cases gathered : ∀ p, team.waits (c.place p)
  · exact ⟨_, .release c gathered⟩
  · obtain ⟨p, working⟩ := not_forall.mp gathered
    obtain ⟨l, s, taken⟩ := able p working
    exact ⟨_, .act c p l s working taken⟩

section Rank

variable [Fintype P]

theorem runs_end [Nonempty P] (rank : L → Nat)
    (alone : ∀ s s', ¬ team.around s s')
    (act : ∀ p l s l' s', team.act p l s l' s' → rank l' < rank l)
    (resume : ∀ l, team.waits l → rank (team.resume l) < rank l) :
    WellFounded fun c' c : Config P L S => Step team c c' := by
  refine Subrelation.wf ?_ (measure fun c : Config P L S => ∑ p, rank (c.place p)).wf
  intro c' c taken
  show ∑ p, rank (c'.place p) < ∑ p, rank (c.place p)
  cases taken with
  | act p l s working taken =>
      refine Finset.sum_lt_sum (fun q _ => ?_) ⟨p, Finset.mem_univ p, ?_⟩
      · by_cases mine : q = p
        · subst mine
          rw [move_mine]
          exact (act _ _ _ _ _ taken).le
        · rw [move_other c l s mine]
      · rw [move_mine]
        exact act _ _ _ _ _ taken
  | around s taken => exact absurd taken (alone _ _)
  | release gathered =>
      exact Finset.sum_lt_sum_of_nonempty Finset.univ_nonempty fun p _ => resume _ (gathered p)

end Rank

theorem run_stops (finite : WellFounded fun c' c : Config P L S => Step team c c')
    (c : Config P L S) : ∃ c', Run team c c' ∧ ∀ c'', ¬ Step team c' c'' := by
  induction c using finite.induction with
  | _ c ih =>
      by_cases more : ∃ mid, Step team c mid
      · obtain ⟨mid, taken⟩ := more
        obtain ⟨c', ran, stuck⟩ := ih mid taken
        exact ⟨c', .head taken ran, stuck⟩
      · exact ⟨c, .refl, not_exists.mp more⟩

inductive Solo (team : Team P L S) (p : P) : L × S → L × S → Prop
  | act (l : L) (s : S) (l' : L) (s' : S) (working : ¬ team.waits l)
      (taken : team.act p l s l' s') : Solo team p (l, s) (l', s')
  | around (l : L) (s s' : S) (taken : team.around s s') : Solo team p (l, s) (l, s')

theorem solo_run {p : P} {c : Config P L S} {l : L} {s : S}
    (ran : ReflTransGen (Solo team p) (c.place p, c.shared) (l, s)) :
    Run team c (c.move p l s) := by
  suffices general : ∀ e, ReflTransGen (Solo team p) (c.place p, c.shared) e →
      Run team c (c.move p e.1 e.2) from general _ ran
  intro e ran
  induction ran with
  | refl =>
      show Run team c ⟨Function.update c.place p (c.place p), c.shared⟩
      rw [Function.update_eq_self]
  | tail before taken ih =>
      refine ih.tail ?_
      cases taken with
      | act l s l' s' working taken =>
          have place := move_mine c p l s
          have again : (c.move p l s).move p l' s' = c.move p l' s' := by
            simp only [Config.move, Function.update_idem]
          have step := Step.act (c.move p l s) p l' s' (by rwa [place]) (by rwa [place])
          rwa [again] at step
      | around l s s' taken => exact .around (c.move p l s) s' taken

theorem gather [Fintype P] (able : P → L → Prop)
    (arrives : ∀ p l s, able p l → ∃ l' s', ReflTransGen (Solo team p) (l, s) (l', s') ∧
      team.waits l' ∧ able p l')
    (c : Config P L S) (all : ∀ p, able p (c.place p)) :
    ∃ c', Run team c c' ∧ ∀ p, team.waits (c'.place p) ∧ able p (c'.place p) := by
  suffices nonempty : ∀ at_barrier : Finset P, ∃ c', Run team c c' ∧ (∀ p, able p (c'.place p)) ∧
      ∀ p ∈ at_barrier, team.waits (c'.place p) by
    obtain ⟨c', ran, fine, waiting⟩ := nonempty Finset.univ
    exact ⟨c', ran, fun p => ⟨waiting p (Finset.mem_univ p), fine p⟩⟩
  intro at_barrier
  induction at_barrier using Finset.induction_on with
  | empty => exact ⟨c, .refl, all, by simp⟩
  | insert p others fresh ih =>
      obtain ⟨mid, ran, still, waiting⟩ := ih
      obtain ⟨l, s, alone, arrived, fine⟩ := arrives p (mid.place p) mid.shared (still p)
      refine ⟨_, ran.trans (solo_run alone), fun q => ?_, fun q member => ?_⟩
      · by_cases mine : q = p
        · subst mine
          rwa [move_mine]
        · rw [move_other mid l s mine]
          exact still q
      · by_cases mine : q = p
        · subst mine
          rwa [move_mine]
        · rcases Finset.mem_insert.mp member with same | old
          · exact absurd same mine
          · rw [move_other mid l s mine]
            exact waiting q old

end Runs

end HeteroSim.Barriers
