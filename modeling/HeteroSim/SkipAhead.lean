import HeteroSim.ChannelMachine
import HeteroSim.DramPresets

/-!
The refresh loop with its skip-ahead against the loop that performs the due
refreshes one by one. Both are iterations of `refreshOnce`, so they agree once
their counts do, and the count is fixed by the deadlines: a refresh is due every
`tREFI`, whatever the bus and the banks do to its start.
-/

namespace HeteroSim.SkipAhead

open DramParams DramChannel ChannelMachine

/-- `while (c.next_refresh <= t)` without the skip-ahead: one refresh a turn. -/
def plainLoop (p : Params) (t : Int) : Nat → Channel → Channel × Nat
  | 0, c => (c, 0)
  | turns + 1, c =>
      if c.nextRefresh ≤ t then
        let rest := plainLoop p t turns (c.refreshOnce p)
        (rest.1, rest.2 + 1)
      else (c, 0)

/-- Every refresh due by `t`, one by one, and how many they were. -/
def plainRefresh (p : Params) (c : Channel) (t : Int) : Channel × Nat :=
  if p.tREFI ≤ 0 then (c, 0)
  else plainLoop p t (t + 1 - c.nextRefresh).toNat c

/-- `n` refreshes, one every `every` from `first` on, are due by `t`. -/
structure Due (first every t : Int) (n : Nat) : Prop where
  last : 0 < n → first + n * every ≤ t + every
  next : t < first + n * every

section Deadlines

variable {first every s t : Int}

theorem Due.none (early : t < first) : Due first every t 0 where
  last := fun nonempty => absurd nonempty (Nat.lt_irrefl 0)
  next := by
    push_cast
    omega

theorem Due.unique (positive : 0 < every) {m n : Nat} (one : Due first every t m)
    (other : Due first every t n) : m = n := by
  have least : ∀ {a b : Nat}, Due first every t a → Due first every t b → b ≤ a := by
    intro a b fewer more
    by_contra less
    have step : (a : Int) + 1 ≤ b := by omega
    have reached := more.last (by omega)
    have passed := fewer.next
    have scaled := Int.mul_le_mul_of_nonneg_right step positive.le
    rw [Int.add_mul, Int.one_mul] at scaled
    omega
  exact Nat.le_antisymm (least other one) (least one other)

theorem Due.append {m n : Nat} (ordered : s ≤ t) (one : Due first every s m)
    (more : Due (first + m * every) every t n) : Due first every t (m + n) where
  last := by
    intro nonempty
    push_cast
    rw [Int.add_mul, ← Int.add_assoc]
    rcases Nat.eq_zero_or_pos n with stopped | goes
    · subst stopped
      have reached := one.last (by omega)
      push_cast
      omega
    · exact more.last goes
  next := by
    push_cast
    rw [Int.add_mul, ← Int.add_assoc]
    exact more.next

end Deadlines

section Loops

variable {p : Params}

theorem iterate_nextRefresh (n : Nat) (c : Channel) :
    ((Channel.refreshOnce p)^[n] c).nextRefresh = c.nextRefresh + n * p.tREFI := by
  induction n generalizing c with
  | zero => simp
  | succ n ih =>
      rw [Function.iterate_succ_apply, ih]
      simp only [Channel.refreshOnce]
      push_cast
      ring

theorem skipped_due (timed : NonNegative p) (on : 0 < p.tREFI) (c : Channel) (stop t : Int)
    (nonempty : 0 < c.skipped p stop t) :
    c.nextRefresh + c.skipped p stop t * p.tREFI ≤ t := by
  unfold Channel.skipped at nonempty ⊢
  split at nonempty
  next fires =>
    rw [if_pos fires]
    have room : 0 ≤ t - p.tRFC - c.nextRefresh := by omega
    rw [Int.toNat_of_nonneg (Int.tdiv_nonneg room on.le), Int.tdiv_eq_ediv_of_nonneg room]
    have scaled := Int.ediv_mul_le (t - p.tRFC - c.nextRefresh) (by omega : p.tREFI ≠ 0)
    have recovery := timed.tRFC
    omega
  next => exact absurd nonempty (Nat.lt_irrefl 0)

theorem refreshLoop_due (timed : NonNegative p) (on : 0 < p.tREFI) (t : Int) (turns : Nat)
    (c : Channel) (enough : (t + 1 - c.nextRefresh).toNat ≤ turns) :
    Due c.nextRefresh p.tREFI t (c.refreshLoop p t turns).2 := by
  induction turns generalizing c with
  | zero => exact Due.none (by omega)
  | succ turns ih =>
      by_cases due : c.nextRefresh ≤ t
      · rw [Channel.refreshLoop, if_pos due]
        simp only
        generalize skip_eq : (c.refreshOnce p).skipped p (c.refreshWindow p).2 t = n
        have turn := turn_iterates c timed t
        rw [skip_eq] at turn
        simp only at turn
        have moved := congrArg Channel.nextRefresh turn
        rw [iterate_nextRefresh] at moved
        have forward : 0 ≤ (n : Int) * p.tREFI := Int.mul_nonneg (by omega) on.le
        push_cast [Int.add_mul] at moved
        have rest := ih ((c.refreshOnce p).skipAhead p n) (by omega)
        have here : c.nextRefresh + ((n + 1 : Nat) : Int) * p.tREFI ≤ t + p.tREFI := by
          push_cast [Int.add_mul]
          rcases Nat.eq_zero_or_pos n with single | skips
          · subst single
            push_cast
            omega
          · have reached := skipped_due timed on (c.refreshOnce p) (c.refreshWindow p).2 t
              (skip_eq ▸ skips)
            rw [skip_eq] at reached
            simp only [Channel.refreshOnce] at reached
            omega
        rw [moved] at rest
        constructor
        · intro _
          rcases Nat.eq_zero_or_pos (((c.refreshOnce p).skipAhead p n).refreshLoop p t turns).2
            with stopped | goes
          · rw [stopped]
            rwa [Nat.zero_add, Nat.add_comm]
          · have reached := rest.last goes
            push_cast [Int.add_mul] at reached ⊢
            omega
        · have passed := rest.next
          push_cast [Int.add_mul] at passed ⊢
          omega
      · simp only [Channel.refreshLoop, due, if_false]
        exact Due.none (by omega)

theorem plainLoop_due (on : 0 < p.tREFI) (t : Int) (turns : Nat) (c : Channel)
    (enough : (t + 1 - c.nextRefresh).toNat ≤ turns) :
    Due c.nextRefresh p.tREFI t (plainLoop p t turns c).2 := by
  induction turns generalizing c with
  | zero => exact Due.none (by omega)
  | succ turns ih =>
      by_cases due : c.nextRefresh ≤ t
      · have moved : (c.refreshOnce p).nextRefresh = c.nextRefresh + p.tREFI := rfl
        have rest := ih (c.refreshOnce p) (by omega)
        have single : Due c.nextRefresh p.tREFI c.nextRefresh 1 :=
          ⟨fun _ => by push_cast; omega, by push_cast; omega⟩
        rw [plainLoop, if_pos due]
        simp only
        rw [Nat.add_comm]
        exact single.append due (by simpa only [moved, Nat.cast_one, Int.one_mul] using rest)
      · simp only [plainLoop, due, if_false]
        exact Due.none (by omega)

theorem plainLoop_iterates (t : Int) (turns : Nat) (c : Channel) :
    (plainLoop p t turns c).1 = (Channel.refreshOnce p)^[(plainLoop p t turns c).2] c := by
  induction turns generalizing c with
  | zero => rfl
  | succ turns ih =>
      by_cases due : c.nextRefresh ≤ t
      · rw [plainLoop, if_pos due]
        simp only
        rw [ih, Function.iterate_succ_apply]
      · simp [plainLoop, due]

end Loops

section Exact

variable {p : Params} (timed : NonNegative p) (on : 0 < p.tREFI)

include timed on in
theorem refresh_due (c : Channel) (t : Int) :
    Due c.nextRefresh p.tREFI t (c.refresh p t).2 := by
  simp only [Channel.refresh, Int.not_le.mpr on, if_false]
  exact refreshLoop_due timed on t _ c (Nat.le_refl _)

include on in
theorem plainRefresh_due (c : Channel) (t : Int) :
    Due c.nextRefresh p.tREFI t (plainRefresh p c t).2 := by
  simp only [plainRefresh, Int.not_le.mpr on, if_false]
  exact plainLoop_due on t _ c (Nat.le_refl _)

theorem plainRefresh_iterates (c : Channel) (t : Int) :
    (plainRefresh p c t).1 = (Channel.refreshOnce p)^[(plainRefresh p c t).2] c := by
  unfold plainRefresh
  split
  · rfl
  · exact plainLoop_iterates t _ c

include timed on in
theorem refresh_plain (c : Channel) (t : Int) : c.refresh p t = plainRefresh p c t := by
  have count := (refresh_due timed on c t).unique on (plainRefresh_due on c t)
  have state := refresh_iterates timed c t
  rw [count, ← plainRefresh_iterates] at state
  exact Prod.ext state count

include timed on in
theorem refresh_twice (c : Channel) (s t : Int) (ordered : s ≤ t) :
    c.refresh p t = (((c.refresh p s).1.refresh p t).1,
      (c.refresh p s).2 + ((c.refresh p s).1.refresh p t).2) := by
  have one := refresh_due timed on c s
  have moved := congrArg Channel.nextRefresh (refresh_iterates timed c s)
  rw [iterate_nextRefresh] at moved
  have more := refresh_due timed on (c.refresh p s).1 t
  rw [moved] at more
  have count := (refresh_due timed on c t).unique on (one.append ordered more)
  refine Prod.ext ?_ count
  rw [refresh_iterates timed c t, count, refresh_iterates timed (c.refresh p s).1 t,
    refresh_iterates timed c s, ← Function.iterate_add_apply, Nat.add_comm]

/-- With the skip-ahead every channel, refreshed up to any time, ends in the
state and with the count of the plain loop, which has then come to its end; and
refreshing up to an earlier time first changes nothing. -/
theorem skip_ahead_exact (p : Params) (timed : NonNegative p) (on : 0 < p.tREFI) (c : Channel)
    (t : Int) :
    c.refresh p t = plainRefresh p c t ∧ t < (plainRefresh p c t).1.nextRefresh ∧
      ∀ s ≤ t, c.refresh p t = (((c.refresh p s).1.refresh p t).1,
        (c.refresh p s).2 + ((c.refresh p s).1.refresh p t).2) := by
  refine ⟨refresh_plain timed on c t, ?_, fun s => refresh_twice timed on c s t⟩
  rw [plainRefresh_iterates, iterate_nextRefresh]
  exact (plainRefresh_due on c t).next

/-- An idle LPDDR5 channel looked at ten refreshes later: nine are skipped. -/
theorem skip_ahead_exact_idle :
    ((Channel.fresh DramPresets.lpddr5).refresh DramPresets.lpddr5 40000000).2 = 10 ∧
      (Channel.fresh DramPresets.lpddr5).refresh DramPresets.lpddr5 40000000 =
        plainRefresh DramPresets.lpddr5 (Channel.fresh DramPresets.lpddr5) 40000000 :=
  ⟨by decide +kernel, (skip_ahead_exact DramPresets.lpddr5
    (DramPresets.presets_timed _ (by simp [DramPresets.presets])).1 (by decide) _ 40000000).1⟩

end Exact

end HeteroSim.SkipAhead
