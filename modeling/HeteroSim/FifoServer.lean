import Mathlib.Algebra.BigOperators.Group.List.Basic
import Mathlib.Algebra.Order.Ring.Int
import Mathlib.Tactic.Linarith
import Mathlib.Tactic.Ring

/-!
One server that takes jobs in the order they arrive. A job starts when it has
arrived and the one before it is done. What is still to be done at a time when
all jobs have arrived is the sum of what is left of each, whatever its kind.
-/

namespace HeteroSim.FifoServer

structure Job (κ : Type) where
  kind : κ
  arrival : Int
  cycles : Int

variable {κ : Type}

def done (free : Int) (job : Job κ) : Int := max job.arrival free + job.cycles

def finish : Int → List (Job κ) → Int
  | free, [] => free
  | free, job :: rest => finish (done free job) rest

/-- Each job with the time at which it is done. -/
def ends : Int → List (Job κ) → List (Job κ × Int)
  | _, [] => []
  | free, job :: rest => (job, done free job) :: ends (done free job) rest

/-- What is left of a job at a time. -/
def left (t : Int) (one : Job κ × Int) : Int := max 0 (min one.1.cycles (one.2 - t))

def remaining (kinds : κ → Bool) (t free : Int) (jobs : List (Job κ)) : Int :=
  (((ends free jobs).filter fun one => kinds one.1.kind).map (left t)).sum

theorem finish_append (free : Int) (first second : List (Job κ)) :
    finish free (first ++ second) = finish (finish free first) second := by
  induction first generalizing free with
  | nil => rfl
  | cons job rest ih => exact ih (done free job)

theorem ends_append (free : Int) (first second : List (Job κ)) :
    ends free (first ++ second) = ends free first ++ ends (finish free first) second := by
  induction first generalizing free with
  | nil => rfl
  | cons job rest ih => exact congrArg (List.cons _) (ih (done free job))

theorem ends_jobs (free : Int) (jobs : List (Job κ)) : (ends free jobs).map Prod.fst = jobs := by
  induction jobs generalizing free with
  | nil => rfl
  | cons job rest ih => exact congrArg (List.cons job) (ih (done free job))

theorem left_most (t : Int) (one : Job κ × Int) (takes : 0 ≤ one.1.cycles) :
    left t one ≤ if t < one.2 then one.1.cycles else 0 := by
  unfold left
  split <;> omega

theorem remaining_cons (kinds : κ → Bool) (t free : Int) (job : Job κ) (rest : List (Job κ)) :
    remaining kinds t free (job :: rest) =
      (if kinds job.kind then left t (job, done free job) else 0) +
        remaining kinds t (done free job) rest := by
  rw [remaining, ends, List.filter_cons]
  by_cases mine : kinds job.kind
  · rw [if_pos mine, if_pos mine]
    rfl
  · rw [if_neg mine, if_neg mine, zero_add]
    rfl

theorem done_behind {t : Int} (free : Int) {job : Job κ} (arrived : job.arrival ≤ t)
    (takes : 0 ≤ job.cycles) :
    max 0 (done free job - t) = max 0 (free - t) + left t (job, done free job) := by
  simp only [left, done]
  omega

theorem backlog (kinds : κ → Bool) (t free : Int) (jobs : List (Job κ))
    (arrived : ∀ job ∈ jobs, job.arrival ≤ t) (takes : ∀ job ∈ jobs, 0 ≤ job.cycles) :
    max 0 (finish free jobs - t) = max 0 (free - t) + remaining kinds t free jobs +
      remaining (fun kind => !kinds kind) t free jobs := by
  induction jobs generalizing free with
  | nil => simp [finish, remaining, ends]
  | cons job rest ih =>
      have first := done_behind free (arrived job List.mem_cons_self)
        (takes job List.mem_cons_self)
      rw [finish, ih _ (fun other member => arrived other (List.mem_cons_of_mem _ member))
        (fun other member => takes other (List.mem_cons_of_mem _ member)), first,
        remaining_cons, remaining_cons]
      cases kinds job.kind <;> simp <;> ring

theorem remaining_most (kinds : κ → Bool) (t free length : Int) (jobs : List (Job κ))
    (positive : 0 ≤ length) (same : ∀ job ∈ jobs, kinds job.kind = true → job.cycles = length) :
    remaining kinds t free jobs ≤
      (((ends free jobs).filter fun one => kinds one.1.kind).countP
        fun one => decide (t < one.2) : Nat) * length := by
  induction jobs generalizing free with
  | nil => simp [remaining, ends]
  | cons job rest ih =>
      have later := ih (done free job) fun other member =>
        same other (List.mem_cons_of_mem _ member)
      rw [remaining_cons, ends, List.filter_cons]
      by_cases mine : kinds job.kind = true
      · have takes := same job List.mem_cons_self mine
        have most := left_most t (job, done free job) (takes ▸ positive)
        rw [if_pos mine, if_pos mine, List.countP_cons]
        push_cast
        by_cases unfinished : t < done free job
        · rw [if_pos unfinished, takes] at most
          simp only [unfinished, decide_true, if_true]
          linarith
        · rw [if_neg unfinished] at most
          simp only [unfinished, decide_false, Bool.false_eq_true, if_false]
          linarith
      · rw [if_neg mine, if_neg mine, zero_add]
        exact later

end HeteroSim.FifoServer
