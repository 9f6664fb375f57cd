import HeteroSim.DeadlineChase
import HeteroSim.IdleDrain

/-!
The replanning loop of `burst` as a chase of refresh deadlines. The state after `n`
refreshes does not depend on how the loop came to them, so a turn is a jump to the first
number of refreshes whose next deadline the plan of this turn does not reach. Once
refreshed, a bank is closed, and all that later refreshes move is the time it is ready.
-/

namespace HeteroSim.ReplanLoop

open DramParams DramChannel ChannelMachine DeadlineChase
open SkipAhead (iterate_nextRefresh Due)
open IdleDrain (Refreshed refreshOnce_refreshed iterate_refreshed plan_closed)

section Turns

variable (g : Config) (c : Channel) (k : Coord) (t : Int) (w : Bool)

/-- The channel after `n` refreshes. -/
def refreshed (n : Nat) : Channel := (Channel.refreshOnce g.p)^[n] c

/-- When the refresh after the first `n` is due. -/
def due (n : Nat) : Int := c.nextRefresh + n * g.p.tREFI

/-- The column command planned after `n` refreshes. -/
def reach (n : Nat) : Int := ((refreshed g c n).plan g k t w).col

def jump (n : Nat) : Nat := n + ((refreshed g c n).refresh g.p (reach g c k t w n)).2

theorem refreshed_succ (n : Nat) : refreshed g c (n + 1) = (refreshed g c n).refreshOnce g.p :=
  Function.iterate_succ_apply' _ n c

theorem refreshed_size (n : Nat) : (refreshed g c n).banks.length = c.banks.length := by
  induction n with
  | zero => rfl
  | succ n ih => simpa [refreshed_succ, Channel.refreshOnce] using ih

theorem refreshed_due (n : Nat) : (refreshed g c n).nextRefresh = due g c n :=
  iterate_nextRefresh n c

variable {g}

theorem refreshed_refresh (timed : NonNegative g.p) (n : Nat) (s : Int) :
    ((refreshed g c n).refresh g.p s).1 =
      refreshed g c (n + ((refreshed g c n).refresh g.p s).2) := by
  rw [refresh_iterates timed, refreshed, refreshed, ← Function.iterate_add_apply, Nat.add_comm]

theorem due_succ (n : Nat) : due g c (n + 1) = due g c n + g.p.tREFI := by
  simp only [due]
  push_cast
  ring

theorem due_mono (on : 0 < g.p.tREFI) (m n : Nat) (less : m ≤ n) : due g c m ≤ due g c n := by
  have scaled : (m : Int) * g.p.tREFI ≤ n * g.p.tREFI :=
    Int.mul_le_mul_of_nonneg_right (by omega) on.le
  simp only [due]
  omega

theorem jump_chases (timed : NonNegative g.p) (on : 0 < g.p.tREFI) :
    Chases (reach g c k t w) (due g c) (jump g c k t w) := by
  intro n m
  have counted := SkipAhead.refresh_due timed on (refreshed g c n) (reach g c k t w n)
  rw [refreshed_due] at counted
  unfold jump
  generalize ((refreshed g c n).refresh g.p (reach g c k t w n)).2 = count at counted ⊢
  have deadline : due g c (n + count) = due g c n + count * g.p.tREFI := by
    simp only [due]
    push_cast
    ring
  have passed := counted.next
  rw [← deadline] at passed
  constructor
  · intro within
    have later := due_mono c on (n + count) m within
    exact ⟨by omega, by omega⟩
  · rintro ⟨before, ahead⟩
    by_contra beyond
    have reached := counted.last (by omega)
    rw [← deadline] at reached
    have missed := due_mono c on (m + 1) (n + count) (by omega)
    have next := due_succ (g := g) c m
    omega

theorem replan_chase (timed : NonNegative g.p) (on : 0 < g.p.tREFI) (fuel n : Nat) :
    (refreshed g c n).replan g k t w fuel = (chase (jump g c k t w) fuel n).map fun last =>
      (refreshed g c last, last - n, (refreshed g c last).plan g k t w) := by
  have chases := jump_chases c k t w timed on
  induction fuel generalizing n with
  | zero => rfl
  | succ fuel ih =>
      have stays := jump_stays chases n
      rw [Channel.replan, chase]
      simp only
      rw [refreshed_due]
      by_cases ahead : reach g c k t w n < due g c n
      · have quiet : ¬ (0 < g.p.tREFI ∧ due g c n ≤ ((refreshed g c n).plan g k t w).col) := by
          rintro ⟨_, late⟩
          exact absurd ahead (Int.not_lt.mpr late)
        rw [if_neg quiet, if_pos (stays.mpr ahead)]
        simp
      · have late : 0 < g.p.tREFI ∧ due g c n ≤ ((refreshed g c n).plan g k t w).col :=
          ⟨on, Int.not_lt.mp ahead⟩
        rw [if_pos late, if_neg (fun same => ahead (stays.mp same))]
        have moved := refreshed_refresh c timed n (reach g c k t w n)
        simp only [reach] at moved
        rw [moved, show n + ((refreshed g c n).refresh g.p ((refreshed g c n).plan g k t w).col).2 =
          jump g c k t w n from rfl, ih]
        cases ended : chase (jump g c k t w) fuel (jump g c k t w n) with
        | none => rfl
        | some last =>
            have forward := (chase_ahead chases fuel _ last ended).1
            simp only [jump, reach] at forward
            simp only [Option.map_some, Option.bind_eq_bind, Option.bind_some, pure,
              Option.some.injEq, Prod.mk.injEq, true_and, and_true]
            simp only [jump, reach]
            omega

end Turns

/-! ### What a plan behind refreshes reaches -/

def columnFloor (g : Config) (c : Channel) (k : Coord) (w : Bool) : Int :=
  max (c.colAt g.p k w (c.lastCol + if c.sameGroup k then g.p.tCCD_L else g.p.tCCD_S))
    (c.busFree - latency g.p w)

def unheld (g : Config) (c : Channel) (k : Coord) (t : Int) : Int :=
  c.actAt g.p { c.bank (bankIndex g.p k) with actOk := t } k t

section Plans

variable {g : Config}

theorem colAt_floor (p : Params) (c : Channel) (k : Coord) (w : Bool) (col : Int) :
    c.colAt p k w col =
      max col (c.colAt p k w (c.lastCol + if c.sameGroup k then p.tCCD_L else p.tCCD_S)) := by
  cases w <;> cases wrote : c.lastWasWrite <;> simp [Channel.colAt, wrote]

theorem settle_col (c : Channel) (k : Coord) (w : Bool) (kind : RowKind) (act firstCmd col : Int) :
    (c.settle g k w kind act firstCmd col).col = max col (columnFloor g c k w) := by
  simp only [Channel.settle, columnFloor]
  rw [colAt_floor g.p c k w col]
  omega

theorem actAt_ready (p : Params) (c : Channel) (b : Bank) (k : Coord) (t : Int) :
    c.actAt p b k t = max (c.actAt p { b with actOk := t } k t) b.actOk := by
  simp only [Channel.actAt, max_self]
  split <;> split <;> ac_rfl

theorem refreshed_frame (c : Channel) (n : Nat) : ∃ banks nextRefresh log,
    refreshed g c n = { c with banks := banks, nextRefresh := nextRefresh, log := log } := by
  induction n with
  | zero => exact ⟨c.banks, c.nextRefresh, c.log, rfl⟩
  | succ n ih =>
      obtain ⟨banks, nextRefresh, log, same⟩ := ih
      rw [refreshed_succ, same]
      exact ⟨_, _, _, rfl⟩

theorem reach_behind (c : Channel) (k : Coord) (t : Int) (w : Bool) (n : Nat) (ranged : 0 ≤ k.row)
    (inside : bankIndex g.p k < c.banks.length) :
    reach g c k t w (n + 1) =
      max (max (unheld g c k t) ((refreshed g c (n + 1)).bank (bankIndex g.p k)).actOk + g.p.tRCD)
        (columnFloor g c k w) := by
  obtain ⟨closed, act, _, _⟩ := (iterate_refreshed (g := g) c n).banks _ inside
  rw [← refreshed] at closed act
  obtain ⟨banks, nextRefresh, log, same⟩ := refreshed_frame (g := g) c (n + 1)
  have floor : columnFloor g (refreshed g c (n + 1)) k w = columnFloor g c k w := by
    rw [same]
    rfl
  have opens : unheld g (refreshed g c (n + 1)) k t = unheld g c k t := by
    simp only [unheld, Channel.actAt, act]
    rw [same]
    rfl
  rw [reach, plan_closed _ k t w ranged closed, settle_col, actAt_ready, floor, ← opens, unheld]

/-! ### How late a refresh ends -/

theorem scan_closed (p : Params) (banks : List Bank) (start stop : Int) (anyOpen : Bool)
    (closed : ∀ b ∈ banks, b.openRow < 0 ∧ b.actOk ≤ stop) :
    (refreshScan p banks start anyOpen).1 ≤ max start stop ∧
      (refreshScan p banks start anyOpen).2 = anyOpen := by
  induction banks generalizing start with
  | nil => exact ⟨Int.le_max_left start stop, rfl⟩
  | cons b rest ih =>
      obtain ⟨shut, ready⟩ := closed b List.mem_cons_self
      have notOpen : decide (0 ≤ b.openRow) = false := decide_eq_false (by omega)
      have later := ih (max start b.actOk) fun bank member =>
        closed bank (List.mem_cons_of_mem b member)
      rw [refreshScan]
      simp only [notOpen, Bool.or_false, Bool.false_eq_true, if_false]
      exact ⟨by omega, later.2⟩

theorem idle_window_stop (c : Channel) (stop : Int) (idle : Idle c stop) :
    (c.refreshWindow g.p).2 ≤ max c.nextRefresh stop + g.p.tRFC := by
  have bus := idle.bus
  obtain ⟨start, shut⟩ := scan_closed g.p c.banks (max c.nextRefresh c.busFree) stop false
    fun b member => by obtain ⟨closed, ready⟩ := idle.banks b member; omega
  simp only [Channel.refreshWindow, shut, Bool.false_eq_true, if_false]
  omega

variable (timed : NonNegative g.p)

include timed

theorem refreshed_idle (c : Channel) (n : Nat) :
    Idle (refreshed g c (n + 1)) ((refreshed g c n).refreshWindow g.p).2 := by
  rw [refreshed_succ]
  exact refresh_idle (refreshed g c n) timed

theorem window_late (fits : g.p.tRFC ≤ g.p.tREFI) (c : Channel) (n : Nat) :
    ((refreshed g c n).refreshWindow g.p).2 ≤
      max ((c.refreshWindow g.p).2 + n * g.p.tRFC) (due g c n + g.p.tRFC) := by
  induction n with
  | zero => simp [refreshed]
  | succ n ih =>
      have stop := idle_window_stop (g := g) _ _ (refreshed_idle timed c n)
      rw [refreshed_due] at stop
      have next := due_succ (g := g) c n
      push_cast [Int.add_mul]
      omega

theorem reach_late (c : Channel) (k : Coord) (t : Int) (w : Bool) (n : Nat) (ranged : 0 ≤ k.row)
    (inside : bankIndex g.p k < c.banks.length) :
    due g c n + g.p.tRFC + g.p.tRCD ≤ reach g c k t w (n + 1) := by
  have within : bankIndex g.p k < (refreshed g c n).banks.length := by rwa [refreshed_size]
  have recovers := ((refreshOnce_refreshed (g := g) (refreshed g c n)).banks _ within).2.2.2
  have begins := (window_start (p := g.p) (refreshed g c n)).1
  have lasts := window_stop (refreshed g c n) timed
  rw [refreshed_due] at begins
  rw [← refreshed_succ] at recovers
  rw [reach_behind c k t w n ranged inside]
  omega

theorem reach_ahead (fits : g.p.tRFC + g.p.tRCD < g.p.tREFI) (c : Channel) (k : Coord) (t : Int)
    (w : Bool) (ranged : 0 ≤ k.row) (inside : bankIndex g.p k < c.banks.length) :
    ∃ settled, ∀ n, settled ≤ n → reach g c k t w n < due g c n := by
  obtain ⟨span, first, floor, stop⟩ : ∃ span : Nat, unheld g c k t + g.p.tRCD ≤
    c.nextRefresh + span ∧
      columnFloor g c k w ≤ c.nextRefresh + span ∧
      (c.refreshWindow g.p).2 + g.p.tRCD ≤ c.nextRefresh + span :=
    ⟨(max (max (unheld g c k t + g.p.tRCD) (columnFloor g c k w))
      ((c.refreshWindow g.p).2 + g.p.tRCD) - c.nextRefresh).toNat, by omega, by omega, by omega⟩
  refine ⟨span + 1, fun n later => ?_⟩
  obtain ⟨m, rfl⟩ : ∃ m, n = m + 1 := ⟨n - 1, by omega⟩
  have member : (refreshed g c (m + 1)).bank (bankIndex g.p k) ∈ (refreshed g c (m + 1)).banks := by
    apply bank_mem
    rwa [refreshed_size]
  have ready := ((refreshed_idle timed c m).banks _ member).2
  have deadline : due g c (m + 1) = due g c m + g.p.tREFI := due_succ c m
  have activates := timed.tRCD
  -- Every round gains at least one picosecond on the refreshes that queue.
  have gain : (m : Int) * (g.p.tRFC + 1) ≤ m * g.p.tREFI :=
    Int.mul_le_mul_of_nonneg_left (by omega) (by omega)
  have queue : 0 ≤ (m : Int) * g.p.tRFC := Int.mul_nonneg (by omega) timed.tRFC
  have covered : c.nextRefresh + span + m * g.p.tRFC < due g c (m + 1) := by
    rw [deadline, due]
    rw [Int.mul_add, Int.mul_one] at gain
    have recovery := timed.tRFC
    omega
  rw [reach_behind c k t w m ranged inside, ready]
  apply max_lt
  · have opens : unheld g c k t < due g c (m + 1) - g.p.tRCD := by omega
    have closes : ((refreshed g c m).refreshWindow g.p).2 < due g c (m + 1) - g.p.tRCD := by
      apply lt_of_le_of_lt (window_late timed (by omega) c m)
      exact max_lt (by omega) (by omega)
    have both := max_lt opens closes
    omega
  · omega

theorem replan_returns (fits : RefreshFits g.p) (c : Channel) (k : Coord) (t : Int) (w : Bool)
    (ranged : 0 ≤ k.row) (inside : bankIndex g.p k < c.banks.length) :
    ∃ out enough, ∀ fuel, enough ≤ fuel → c.replan g k t w fuel = some out := by
  by_cases on : 0 < g.p.tREFI
  · have room : g.p.tRFC + g.p.tRCD < g.p.tREFI := by
      rcases fits with off | room
      · omega
      · exact room
    have chases := jump_chases c k t w timed on
    obtain ⟨settled, ahead⟩ := reach_ahead timed room c k t w ranged inside
    obtain ⟨last, ended⟩ := chase_ends chases settled ahead settled 0 (by omega)
    refine ⟨(refreshed g c last, last, (refreshed g c last).plan g k t w), settled + 1,
      fun fuel enough => ?_⟩
    rw [show c = refreshed g c 0 from rfl, replan_chase c k t w timed on,
      chase_more _ _ fuel 0 last enough ended]
    rfl
  · refine ⟨(c, 0, c.plan g k t w), 1, fun fuel enough => ?_⟩
    obtain ⟨less, rfl⟩ : ∃ less, fuel = less + 1 := ⟨fuel - 1, by omega⟩
    simp only [Channel.replan, on, false_and, if_false]

theorem burst_returns (fits : RefreshFits g.p) (c : Channel) (k : Coord) (arrive : Int) (w : Bool)
    (ranged : 0 ≤ k.row) (inside : bankIndex g.p k < c.banks.length) :
    ∃ out enough, ∀ fuel, enough ≤ fuel → c.burst g fuel k arrive w = some out := by
  have within : bankIndex g.p k < (c.refresh g.p (max arrive c.order)).1.banks.length := by
    rw [refresh_iterates timed, ← refreshed, refreshed_size]
    exact inside
  obtain ⟨⟨after, n, pl⟩, enough, ends⟩ :=
    replan_returns timed fits _ k (max arrive c.order) w ranged within
  refine ⟨(after.commit g arrive pl w, (c.refresh g.p (max arrive c.order)).2 + n, pl), enough,
    fun fuel more => ?_⟩
  simp only [Channel.burst, ends fuel more, Option.bind_eq_bind, Option.bind_some, pure]

end Plans

/-- The loop that lets refreshes go before a burst, from any state of a channel: it ends
if a refresh and an activation take less than tREFI; if they do not, then once its body
is entered it never ends. -/
theorem replanning_ends (p : Params) (g : Config) (dram : p.kind = .dram)
    (configured : configure p = .ok g) (timed : NonNegative p) (on : 0 < p.tREFI) (c : Channel)
    (sized : Sized p c) (addr : Nat) (t : Int) (w : Bool) :
    (p.tRFC + p.tRCD < p.tREFI → ∃ fuel, (c.replan g (decode g addr) t w fuel).isSome) ∧
      (p.tREFI ≤ p.tRFC + p.tRCD → c.nextRefresh ≤ (c.plan g (decode g addr) t w).col →
        ∀ fuel, c.replan g (decode g addr) t w fuel = none) := by
  have accepted := configure_accepted p g dram configured
  have ranged := accepted.decode_in_range addr
  have inside : bankIndex p (decode g addr) < c.banks.length := by
    rw [sized.banks]
    exact bankIndex_lt _ ranged
  obtain rfl := accepted.same
  have chases := jump_chases c (decode g addr) t w timed on
  have looped := fun fuel => replan_chase c (decode g addr) t w timed on fuel 0
  constructor
  · intro fits
    obtain ⟨out, enough, ends⟩ := replan_returns timed (.inr fits) c (decode g addr) t w
      ranged.row inside
    exact ⟨enough, by rw [ends enough (Nat.le_refl _)]; rfl⟩
  · intro crowded entered fuel
    have behind : ∀ n, 0 ≤ n → due g c n ≤ reach g c (decode g addr) t w n := by
      intro n _
      cases n with
      | zero => simpa only [due, reach, refreshed, Function.iterate_zero, id, Nat.cast_zero,
          Int.zero_mul, Int.add_zero] using entered
      | succ n =>
          have late := reach_late timed c (decode g addr) t w n ranged.row inside
          have next := due_succ (g := g) c n
          omega
    rw [show c = refreshed g c 0 from rfl, looped, chase_never chases 0 behind]
    rfl

/-- `lpddr5` with refreshes as long as the time between them. -/
def crowded : Params := { DramPresets.lpddr5 with tRFC := DramPresets.lpddr5.tREFI }

/-- A burst right after the first refresh of a preset ends; where refreshes are too long it
does not. -/
theorem replanning_ends_presets :
    (∃ g, configure DramPresets.lpddr5 = .ok g ∧ ∃ fuel,
      (((Channel.fresh DramPresets.lpddr5).refresh DramPresets.lpddr5 3905000).1.replan g
        (decode g 0) 3905000 false fuel).isSome) ∧
    ∃ g, configure crowded = .ok g ∧ ∀ fuel,
      ((Channel.fresh crowded).refresh crowded 3905000).1.replan g
        (decode g 0) 3905000 false fuel = none := by
  refine ⟨⟨_, rfl, ?_⟩, ⟨_, rfl, ?_⟩⟩
  · exact (replanning_ends DramPresets.lpddr5 _ rfl rfl (by decide) (by decide) _
      ⟨by decide +kernel, by decide +kernel⟩ 0 _ false).1 (by decide)
  · exact (replanning_ends crowded _ rfl rfl (by decide) (by decide) _
      ⟨by decide +kernel, by decide +kernel⟩ 0 _ false).2 (by decide) (by decide +kernel)

end HeteroSim.ReplanLoop
