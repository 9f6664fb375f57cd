import HeteroSim.DramChannel

/-!
The channel as a machine with two steps: one refresh, or one committed burst.
`plan_planned` says once what a plan guarantees, `commit_bank`, `commit_acts`
and `refresh_bank` what a step does to a bank; the laws of the channel use
these and never unfold the engine. With non-negative timings the skip-ahead of
`refresh` is exact, so every call of the engine is a run of this machine.
-/

namespace HeteroSim.ChannelMachine

open DramParams DramChannel
open Relation (ReflTransGen)

/-- The part of a plan every burst shares once its row is settled. -/
structure Settled (g : Config) (c : Channel) (k : Coord) (w : Bool) (col : Int) (pl : Plan) :
    Prop where
  after : col ≤ pl.col
  ccd : c.lastCol + (if c.sameGroup k then g.p.tCCD_L else g.p.tCCD_S) ≤ pl.col
  wtr : w = false → c.lastWasWrite = true →
    c.lastWriteEnd + (if c.sameGroup k then g.p.tWTR_L else g.p.tWTR_S) ≤ pl.col
  rtw : w = true → c.lastWasWrite = false →
    c.lastCol + (if c.sameGroup k && g.p.tRTW_L != 0 then g.p.tRTW_L else g.p.tRTW) ≤ pl.col
  bus : c.busFree ≤ pl.col + latency g.p w
  data : pl.dataEnd = pl.col + latency g.p w + g.burstPs

/-- What every plan of a burst starting at `t` guarantees. -/
structure Planned (g : Config) (c : Channel) (k : Coord) (t : Int) (w : Bool) (pl : Plan) :
    Prop extends Settled g c k w (pl.act + g.p.tRCD) pl where
  coord : pl.k = k
  bank : pl.bank = bankIndex g.p k
  hit : pl.kind = .hit → (c.bank pl.bank).openRow = k.row ∧ pl.act = (c.bank pl.bank).act
  miss : pl.kind = .miss → (c.bank pl.bank).openRow < 0 ∧ t ≤ pl.act ∧ pl.firstCmd = pl.act
  conflict : pl.kind = .conflict → 0 ≤ (c.bank pl.bank).openRow ∧ t ≤ pl.firstCmd ∧
    (c.bank pl.bank).act + g.p.tRAS ≤ pl.firstCmd ∧ (c.bank pl.bank).preOk ≤ pl.firstCmd ∧
    pl.firstCmd + g.p.tRP ≤ pl.act
  other : pl.kind ≠ .hit → (c.bank pl.bank).openRow ≠ k.row
  actOk : pl.kind ≠ .hit → (c.bank pl.bank).actOk ≤ pl.act
  rowCycle : pl.kind ≠ .hit → (c.bank pl.bank).act + g.p.tRC ≤ pl.act
  rrd : pl.kind ≠ .hit → c.lastActRank = k.ra →
    c.lastAct + (if c.lastActBg = k.bg then g.p.tRRD_L else g.p.tRRD_S) ≤ pl.act
  faw : pl.kind ≠ .hit → (c.acts k.ra).length = 4 →
    (c.acts k.ra).headD 0 + g.p.tFAW ≤ pl.act
  start : 0 ≤ g.p.tRP → 0 ≤ g.p.tRCD → t ≤ pl.order

theorem actAt_bounds (p : Params) (c : Channel) (b : Bank) (k : Coord) (act : Int) :
    act ≤ c.actAt p b k act ∧ b.actOk ≤ c.actAt p b k act ∧
      b.act + p.tRC ≤ c.actAt p b k act ∧
      (c.lastActRank = k.ra →
        c.lastAct + (if c.lastActBg = k.bg then p.tRRD_L else p.tRRD_S) ≤ c.actAt p b k act) ∧
      ((c.acts k.ra).length = 4 → (c.acts k.ra).headD 0 + p.tFAW ≤ c.actAt p b k act) := by
  simp only [Channel.actAt]
  refine ⟨?_, ?_, ?_, fun _ => ?_, fun _ => ?_⟩ <;> split <;> split <;> omega

theorem colAt_bounds (p : Params) (c : Channel) (k : Coord) (w : Bool) (col : Int) :
    col ≤ c.colAt p k w col ∧
      c.lastCol + (if c.sameGroup k then p.tCCD_L else p.tCCD_S) ≤ c.colAt p k w col ∧
      (w = false → c.lastWasWrite = true →
        c.lastWriteEnd + (if c.sameGroup k then p.tWTR_L else p.tWTR_S) ≤ c.colAt p k w col) ∧
      (w = true → c.lastWasWrite = false →
        c.lastCol + (if c.sameGroup k && p.tRTW_L != 0 then p.tRTW_L else p.tRTW) ≤
          c.colAt p k w col) := by
  cases w <;> cases written : c.lastWasWrite <;> simp [Channel.colAt, written]

theorem settle_settled (g : Config) (c : Channel) (k : Coord) (w : Bool) (kind : RowKind)
    (act firstCmd col : Int) :
    Settled g c k w col (c.settle g k w kind act firstCmd col) := by
  obtain ⟨after, ccd, wtr, rtw⟩ := colAt_bounds g.p c k w col
  have settled : c.colAt g.p k w col ≤ (c.settle g k w kind act firstCmd col).col := by
    simp only [Channel.settle]
    omega
  exact {
    after := Int.le_trans after settled
    ccd := Int.le_trans ccd settled
    wtr := fun read written => Int.le_trans (wtr read written) settled
    rtw := fun written read => Int.le_trans (rtw written read) settled
    bus := by simp only [Channel.settle]; omega
    data := by simp only [Channel.settle]; omega }

theorem plan_planned (g : Config) (c : Channel) (k : Coord) (t : Int) (w : Bool)
    (started : 0 ≤ t) : Planned g c k t w (c.plan g k t w) := by
  unfold Channel.plan
  simp only
  generalize bank_eq : c.bank (bankIndex g.p k) = b
  split
  next sameRow =>
    have settled := settle_settled g c k w .hit b.act (max t (b.act + g.p.tRCD))
      (max t (b.act + g.p.tRCD))
    exact { settled with
      after := Int.le_trans (Int.le_max_right t _) settled.after
      coord := rfl
      bank := rfl
      hit := fun _ => ⟨bank_eq ▸ sameRow, bank_eq ▸ rfl⟩
      miss := nofun
      conflict := nofun
      other := fun opens => absurd rfl opens
      actOk := fun opens => absurd rfl opens
      rowCycle := fun opens => absurd rfl opens
      rrd := fun opens => absurd rfl opens
      faw := fun opens => absurd rfl opens
      start := fun _ _ => Int.le_min.mpr
        ⟨Int.le_max_left .., Int.le_trans (Int.le_max_left ..) settled.after⟩ }
  split
  next otherRow opened =>
    obtain ⟨act, actOk, rowCycle, rrd, faw⟩ :=
      actAt_bounds g.p c b k (max (max t (b.act + g.p.tRAS)) b.preOk + g.p.tRP)
    generalize pre_eq : max (max t (b.act + g.p.tRAS)) b.preOk = pre at *
    rw [if_neg (by omega : ¬ pre < 0)]
    generalize c.actAt g.p b k (pre + g.p.tRP) = activate at *
    have settled := settle_settled g c k w .conflict activate pre (activate + g.p.tRCD)
    exact { settled with
      coord := rfl
      bank := rfl
      hit := nofun
      miss := nofun
      conflict := fun _ => by
        show 0 ≤ (c.bank (bankIndex g.p k)).openRow ∧ t ≤ pre ∧
          (c.bank (bankIndex g.p k)).act + g.p.tRAS ≤ pre ∧
          (c.bank (bankIndex g.p k)).preOk ≤ pre ∧ pre + g.p.tRP ≤ activate
        rw [bank_eq]
        omega
      other := fun _ => bank_eq ▸ otherRow
      actOk := fun _ => bank_eq ▸ actOk
      rowCycle := fun _ => bank_eq ▸ rowCycle
      rrd := fun _ => rrd
      faw := fun _ => faw
      start := fun tRP tRCD => Int.le_min.mpr
        ⟨by show t ≤ pre; omega, Int.le_trans (by omega) settled.after⟩ }
  next otherRow closed =>
    obtain ⟨act, actOk, rowCycle, rrd, faw⟩ := actAt_bounds g.p c b k t
    generalize c.actAt g.p b k t = activate at *
    have settled := settle_settled g c k w .miss activate activate (activate + g.p.tRCD)
    exact { settled with
      coord := rfl
      bank := rfl
      hit := nofun
      miss := fun _ => ⟨bank_eq ▸ Int.not_le.mp closed, act, rfl⟩
      conflict := nofun
      other := fun _ => bank_eq ▸ otherRow
      actOk := fun _ => bank_eq ▸ actOk
      rowCycle := fun _ => bank_eq ▸ rowCycle
      rrd := fun _ => rrd
      faw := fun _ => faw
      start := fun _ tRCD => Int.le_min.mpr
        ⟨act, Int.le_trans (by omega) settled.after⟩ }

/-! ### What a step does to the banks and the ACTIVATE queues -/

structure Sized (p : Params) (c : Channel) : Prop where
  banks : c.banks.length = bankCount p
  faw : c.faw.length = p.ranks.toNat

theorem fresh_sized (p : Params) : Sized p (Channel.fresh p) := by
  constructor <;> simp [Channel.fresh]

theorem fresh_bank (p : Params) (i : Nat) : (Channel.fresh p).bank i = {} := by
  simp [Channel.bank, Channel.fresh, List.getD_eq_getElem?_getD, List.getElem?_replicate]
  split <;> rfl

/-- The bank a committed burst leaves behind. -/
def Bank.served (g : Config) (b : Bank) (pl : Plan) (w : Bool) : Bank :=
  { openRow := if pl.kind = .hit then b.openRow else pl.k.row
    act := if pl.kind = .hit then b.act else pl.act
    actOk := b.actOk
    preOk := max b.preOk (if w then pl.dataEnd + g.p.tCK + g.p.tWR else pl.col + g.p.tRTP) }

theorem commit_bank (g : Config) (c : Channel) (arrive : Int) (pl : Plan) (w : Bool)
    (inside : pl.bank < c.banks.length) (i : Nat) :
    (c.commit g arrive pl w).bank i =
      if i = pl.bank then Bank.served g (c.bank i) pl w else c.bank i := by
  by_cases target : i = pl.bank
  · subst target
    by_cases hit : pl.kind = .hit <;>
      simp [Channel.commit, Channel.activate, Channel.bank, Bank.served, hit,
        List.getD_eq_getElem?_getD, inside]
  · by_cases hit : pl.kind = .hit <;>
      simp [Channel.commit, Channel.activate, Channel.bank, hit, target,
        List.getD_eq_getElem?_getD, List.getElem?_modify_ne, Ne.symm target]

theorem commit_acts (g : Config) (c : Channel) (arrive : Int) (pl : Plan) (w : Bool)
    (rank : Int) (known : 0 ≤ rank) (inside : 0 ≤ pl.k.ra ∧ pl.k.ra.toNat < c.faw.length) :
    (c.commit g arrive pl w).acts rank =
      if pl.kind ≠ .hit ∧ rank = pl.k.ra then pushAct (c.acts rank) pl.act else c.acts rank := by
  by_cases hit : pl.kind = .hit
  · simp [Channel.commit, Channel.activate, Channel.acts, hit]
  · by_cases target : rank = pl.k.ra
    · subst target
      simp [Channel.commit, Channel.activate, Channel.acts, hit,
        List.getD_eq_getElem?_getD, inside.2]
    · have other : pl.k.ra.toNat ≠ rank.toNat := by omega
      simp [Channel.commit, Channel.activate, Channel.acts, hit, target,
        List.getD_eq_getElem?_getD, List.getElem?_modify_ne, other]

theorem commit_sized (g : Config) (c : Channel) (arrive : Int) (pl : Plan) (w : Bool)
    (sized : Sized g.p c) : Sized g.p (c.commit g arrive pl w) := by
  obtain ⟨banks, faw⟩ := sized
  by_cases hit : pl.kind = .hit <;>
    constructor <;> simp [Channel.commit, Channel.activate, hit, banks, faw]

/-! ### What a refresh waits for -/

theorem scan_bounds (p : Params) (banks : List Bank) (start : Int) (anyOpen : Bool) :
    start ≤ (refreshScan p banks start anyOpen).1 ∧
      ∀ b ∈ banks, b.actOk ≤ (refreshScan p banks start anyOpen).1 ∧
        (0 ≤ b.openRow → b.act + p.tRAS ≤ (refreshScan p banks start anyOpen).1 ∧
          b.preOk ≤ (refreshScan p banks start anyOpen).1) := by
  induction banks generalizing start anyOpen with
  | nil => simp [refreshScan]
  | cons b rest ih =>
      simp only [refreshScan]
      generalize next_eq : max (if decide (0 ≤ b.openRow) = true then
        max (max start (b.act + p.tRAS)) b.preOk else start) b.actOk = next
      obtain ⟨reached, others⟩ := ih next (anyOpen || decide (0 ≤ b.openRow))
      have here : start ≤ next ∧ b.actOk ≤ next ∧
          (0 ≤ b.openRow → b.act + p.tRAS ≤ next ∧ b.preOk ≤ next) := by
        by_cases opened : 0 ≤ b.openRow <;> simp only [opened, decide_true, decide_false,
          if_true, if_false, Bool.false_eq_true] at next_eq <;> omega
      refine ⟨by omega, ?_⟩
      intro bank member
      rcases List.mem_cons.mp member with same | later
      · subst same
        exact ⟨by omega, fun opened => by have := here.2.2 opened; omega⟩
      · exact others bank later

theorem scan_idle (p : Params) (banks : List Bank) (start : Int) (anyOpen : Bool)
    (idle : ∀ b ∈ banks, b.openRow < 0 ∧ b.actOk ≤ start) :
    refreshScan p banks start anyOpen = (start, anyOpen) := by
  induction banks with
  | nil => rfl
  | cons b rest ih =>
      obtain ⟨closed, ready⟩ := idle b List.mem_cons_self
      have notOpen : decide (0 ≤ b.openRow) = false := by simp; omega
      rw [refreshScan]
      simp only [notOpen, Bool.or_false, Bool.false_eq_true, if_false]
      rw [max_eq_left ready]
      exact ih fun bank member => idle bank (List.mem_cons_of_mem b member)

theorem bank_mem (c : Channel) (i : Nat) (inside : i < c.banks.length) :
    c.bank i ∈ c.banks := by
  simp [Channel.bank, List.getD_eq_getElem?_getD, inside]

section Refresh

variable {p : Params}

theorem window_start (c : Channel) :
    c.nextRefresh ≤ (c.refreshWindow p).1 ∧ c.busFree ≤ (c.refreshWindow p).1 ∧
      ∀ b ∈ c.banks, b.actOk ≤ (c.refreshWindow p).1 ∧
        (0 ≤ b.openRow → b.act + p.tRAS ≤ (c.refreshWindow p).1 ∧
          b.preOk ≤ (c.refreshWindow p).1) := by
  obtain ⟨reached, banks⟩ := scan_bounds p c.banks (max c.nextRefresh c.busFree) false
  simp only [Channel.refreshWindow]
  exact ⟨by omega, by omega, banks⟩

theorem window_stop (c : Channel) (timed : NonNegative p) :
    (c.refreshWindow p).1 + p.tRFC ≤ (c.refreshWindow p).2 := by
  have precharge := timed.tRPab
  simp only [Channel.refreshWindow]
  split <;> omega

theorem refresh_bank (c : Channel) (i : Nat) (inside : i < c.banks.length) :
    (c.refreshOnce p).bank i =
      { c.bank i with openRow := -1, actOk := max (c.bank i).actOk (c.refreshWindow p).2 } := by
  simp [Channel.refreshOnce, Channel.bank, List.getD_eq_getElem?_getD, inside]

theorem refresh_sized (c : Channel) (sized : Sized p c) : Sized p (c.refreshOnce p) := by
  obtain ⟨banks, faw⟩ := sized
  constructor <;> simp [Channel.refreshOnce, banks, faw]

/-! ### The skip-ahead is exact -/

/-- Every bank is closed and may be activated from `stop` on. -/
structure Idle (c : Channel) (stop : Int) : Prop where
  banks : ∀ b ∈ c.banks, b.openRow = -1 ∧ b.actOk = stop
  bus : c.busFree ≤ stop

theorem refresh_idle (c : Channel) (timed : NonNegative p) :
    Idle (c.refreshOnce p) (c.refreshWindow p).2 := by
  obtain ⟨_, bus, banks⟩ := window_start (p := p) c
  have stop := window_stop c timed
  have tRFC := timed.tRFC
  constructor
  · intro b member
    obtain ⟨old, was, rfl⟩ := List.mem_map.mp member
    have ready := (banks old was).1
    exact ⟨rfl, by simp only; omega⟩
  · show c.busFree ≤ (c.refreshWindow p).2
    omega

theorem idle_window (c : Channel) (stop : Int) (idle : Idle c stop) (due : stop ≤ c.nextRefresh) :
    c.refreshWindow p = (c.nextRefresh, c.nextRefresh + p.tRFC) := by
  have first : max c.nextRefresh c.busFree = c.nextRefresh := by
    have := idle.bus
    omega
  have scanned : refreshScan p c.banks c.nextRefresh false = (c.nextRefresh, false) := by
    apply scan_idle
    intro b member
    obtain ⟨closed, ready⟩ := idle.banks b member
    omega
  simp [Channel.refreshWindow, first, scanned]

theorem skip_exact (c : Channel) (stop : Int) (idle : Idle c stop) (due : stop ≤ c.nextRefresh)
    (tRFC : 0 ≤ p.tRFC) (apart : p.tRFC ≤ p.tREFI) (n : Nat) :
    (Channel.refreshOnce p)^[n] c = c.skipAhead p n := by
  induction n with
  | zero => simp [Channel.skipAhead]
  | succ n ih =>
      rw [Function.iterate_succ_apply', ih]
      cases n with
      | zero =>
          simp only [Channel.skipAhead, if_true, Channel.refreshOnce,
            idle_window c stop idle due, Nat.zero_add, one_ne_zero, if_false, skippedEvents]
          congr 1
          · apply List.map_congr_left
            intro b member
            obtain ⟨closed, _⟩ := idle.banks b member
            simp only [Bank.mk.injEq, true_and, and_true, closed]
            push_cast
            ring_nf
          · push_cast
            ring
          · simp
      | succ n =>
          have later : Idle (c.skipAhead p (n + 1))
              (max stop (c.nextRefresh + n * p.tREFI + p.tRFC)) := by
            have shift : c.nextRefresh + ((n + 1 : Nat) : Int) * p.tREFI - p.tREFI + p.tRFC =
                c.nextRefresh + n * p.tREFI + p.tRFC := by push_cast; ring
            constructor
            · intro b member
              simp only [Channel.skipAhead, Nat.add_eq_zero_iff, one_ne_zero, and_false,
                if_false, shift] at member
              obtain ⟨old, was, rfl⟩ := List.mem_map.mp member
              obtain ⟨closed, ready⟩ := idle.banks old was
              exact ⟨closed, by simp only [ready]⟩
            · have := idle.bus
              simp only [Channel.skipAhead, Nat.add_eq_zero_iff, one_ne_zero, and_false,
                if_false]
              omega
          have nonneg : 0 ≤ (n : Int) * p.tREFI :=
            Int.mul_nonneg (Int.natCast_nonneg n) (by omega)
          have window := idle_window (p := p) _ _ later (by
            simp only [Channel.skipAhead, Nat.add_eq_zero_iff, one_ne_zero, and_false, if_false]
            push_cast
            rw [Int.add_mul]
            omega)
          simp only [Channel.refreshOnce, window]
          simp only [Channel.skipAhead, Nat.add_eq_zero_iff, one_ne_zero, and_false, if_false,
            skippedEvents, List.map_map, List.cons_append]
          congr 1
          · apply List.map_congr_left
            intro b member
            obtain ⟨closed, _⟩ := idle.banks b member
            simp only [Function.comp_apply, Bank.mk.injEq, true_and, and_true, closed]
            push_cast
            simp only [Int.add_mul]
            omega
          · push_cast
            ring

theorem turn_iterates (c : Channel) (timed : NonNegative p) (t : Int) :
    let n := (c.refreshOnce p).skipped p (c.refreshWindow p).2 t
    (c.refreshOnce p).skipAhead p n = (Channel.refreshOnce p)^[n + 1] c := by
  intro n
  rw [Function.iterate_succ_apply]
  by_cases skips : n = 0
  · simp [skips, Channel.skipAhead]
  · have due : (c.refreshWindow p).2 ≤ (c.refreshOnce p).nextRefresh := by
      by_contra late
      apply skips
      simp only [n, Channel.skipped]
      rw [if_neg (fun both => late both.2)]
    have fits : p.tRFC ≤ p.tREFI := by
      have stop := window_stop c timed
      have started := (window_start (p := p) c).1
      simp only [Channel.refreshOnce] at due
      omega
    exact (skip_exact _ _ (refresh_idle c timed) due timed.tRFC fits n).symm

theorem loop_iterates (timed : NonNegative p) (t : Int) (turns : Nat) (c : Channel) :
    (c.refreshLoop p t turns).1 =
      (Channel.refreshOnce p)^[(c.refreshLoop p t turns).2] c := by
  induction turns generalizing c with
  | zero => rfl
  | succ turns ih =>
      by_cases due : c.nextRefresh ≤ t
      · rw [Channel.refreshLoop, if_pos due]
        simp only
        rw [ih, turn_iterates c timed t, ← Function.iterate_add_apply]
        congr 1
        omega
      · simp [Channel.refreshLoop, due]

theorem refresh_iterates (timed : NonNegative p) (c : Channel) (t : Int) :
    (c.refresh p t).1 = (Channel.refreshOnce p)^[(c.refresh p t).2] c := by
  by_cases off : p.tREFI ≤ 0
  · simp [Channel.refresh, off]
  · simp only [Channel.refresh, off, if_false]
    exact loop_iterates timed t _ c

theorem refresh_off (c : Channel) (t : Int) (off : p.tREFI ≤ 0) : c.refresh p t = (c, 0) := by
  simp [Channel.refresh, off]

end Refresh

/-! ### The machine -/

/-- One refresh, or one burst committed before the next refresh is due. -/
inductive Step (g : Config) : Channel → Channel → Prop where
  | refresh (c : Channel) (on : 0 < g.p.tREFI) : Step g c (c.refreshOnce g.p)
  | burst (c : Channel) (k : Coord) (arrive : Int) (w : Bool) (ranged : InRange g.p k)
      (early : 0 < g.p.tREFI → (c.plan g k (max arrive c.order) w).col < c.nextRefresh) :
      Step g c (c.commit g arrive (c.plan g k (max arrive c.order) w) w)

abbrev Run (g : Config) : Channel → Channel → Prop := ReflTransGen (Step g)

theorem iterate_run (g : Config) (n : Nat) (on : 0 < n → 0 < g.p.tREFI) (c : Channel) :
    Run g c ((Channel.refreshOnce g.p)^[n] c) := by
  induction n with
  | zero => exact .refl
  | succ n ih =>
      rw [Function.iterate_succ_apply']
      exact (ih fun _ => on n.succ_pos).tail (.refresh _ (on n.succ_pos))

theorem refresh_on {p : Params} (c : Channel) (t : Int) (nonempty : 0 < (c.refresh p t).2) :
    0 < p.tREFI := by
  by_contra off
  rw [refresh_off c t (by omega)] at nonempty
  exact absurd nonempty (by simp)

theorem refresh_run (g : Config) (timed : NonNegative g.p) (c : Channel) (t : Int) :
    Run g c (c.refresh g.p t).1 := by
  rw [refresh_iterates timed]
  exact iterate_run g _ (refresh_on c t) c

theorem iterate_order (p : Params) (n : Nat) (c : Channel) :
    ((Channel.refreshOnce p)^[n] c).order = c.order := by
  induction n generalizing c with
  | zero => rfl
  | succ n ih => rw [Function.iterate_succ_apply, ih]; rfl

theorem replan_spec (g : Config) (timed : NonNegative g.p) (k : Coord) (t : Int) (w : Bool)
    (fuel : Nat) (c after : Channel) (n : Nat) (pl : Plan)
    (ended : c.replan g k t w fuel = some (after, n, pl)) :
    after = (Channel.refreshOnce g.p)^[n] c ∧ (0 < n → 0 < g.p.tREFI) ∧
      pl = after.plan g k t w ∧ (0 < g.p.tREFI → pl.col < after.nextRefresh) := by
  induction fuel generalizing c n with
  | zero => cases ended
  | succ fuel ih =>
      rw [Channel.replan] at ended
      simp only at ended
      split at ended
      · rename_i due
        simp only [Option.bind_eq_bind, Option.bind_eq_some_iff, Prod.exists] at ended
        obtain ⟨found, m, plan, rest, same⟩ := ended
        cases same
        obtain ⟨iterates, _, planned, early⟩ := ih _ _ rest
        refine ⟨?_, fun _ => due.1, planned, early⟩
        rw [iterates, refresh_iterates timed, ← Function.iterate_add_apply, Nat.add_comm]
      · rename_i early
        cases ended
        refine ⟨rfl, fun none => absurd none (Nat.lt_irrefl 0), rfl, ?_⟩
        intro on
        exact Int.not_le.mp fun late => early ⟨on, late⟩

theorem burst_spec (g : Config) (timed : NonNegative g.p) (fuel : Nat) (c after : Channel)
    (k : Coord) (arrive : Int) (w : Bool) (n : Nat) (pl : Plan)
    (ended : c.burst g fuel k arrive w = some (after, n, pl)) :
    ∃ before, before = (Channel.refreshOnce g.p)^[n] c ∧ (0 < n → 0 < g.p.tREFI) ∧
      pl = before.plan g k (max arrive before.order) w ∧
      (0 < g.p.tREFI → pl.col < before.nextRefresh) ∧ after = before.commit g arrive pl w := by
  simp only [Channel.burst, Option.bind_eq_bind, Option.bind_eq_some_iff, Prod.exists] at ended
  obtain ⟨found, m, plan, looped, same⟩ := ended
  cases same
  obtain ⟨iterates, on, planned, early⟩ := replan_spec g timed k _ w fuel _ _ _ _ looped
  have refreshed : found =
    (Channel.refreshOnce g.p)^[(c.refresh g.p (max arrive c.order)).2 + m] c := by
    rw [iterates, refresh_iterates timed, ← Function.iterate_add_apply, Nat.add_comm]
  have kept : found.order = c.order := by rw [refreshed, iterate_order]
  refine ⟨found, refreshed, ?_, kept ▸ planned, early, rfl⟩
  intro nonempty
  by_cases nothing : m = 0
  · exact refresh_on c (max arrive c.order) (by omega)
  · exact on (by omega)

theorem burst_run (g : Config) (timed : NonNegative g.p) (fuel : Nat) (c after : Channel)
    (k : Coord) (arrive : Int) (w : Bool) (n : Nat) (pl : Plan) (ranged : InRange g.p k)
    (ended : c.burst g fuel k arrive w = some (after, n, pl)) : Run g c after := by
  obtain ⟨before, refreshed, on, planned, early, rfl⟩ :=
    burst_spec g timed fuel c after k arrive w n pl ended
  subst planned
  exact (refreshed ▸ iterate_run g n on c).tail (.burst before k arrive w ranged early)

theorem run_keeps (g : Config) (Law : Channel → Prop)
    (step : ∀ before after, Step g before after → Law before → Law after)
    (before after : Channel) (run : Run g before after) (law : Law before) : Law after := by
  induction run with
  | refl => exact law
  | tail _ last ih => exact step _ _ last ih

/-! ### Histories -/

def Event.burst? : Event → Option Burst
  | .burst x => some x
  | .refresh _ _ => none

/-- The committed bursts of a history, newest first. -/
def bursts (log : List Event) : List Burst := log.filterMap Event.burst?

@[simp] theorem bursts_nil : bursts [] = [] := rfl

@[simp] theorem bursts_burst (x : Burst) (log : List Event) :
    bursts (.burst x :: log) = x :: bursts log := rfl

@[simp] theorem bursts_refresh (start stop : Int) (log : List Event) :
    bursts (.refresh start stop :: log) = bursts log := rfl

@[simp] theorem commit_log (g : Config) (c : Channel) (arrive : Int) (pl : Plan) (w : Bool) :
    (c.commit g arrive pl w).log = .burst ⟨arrive, pl, w⟩ :: c.log := by
  by_cases hit : pl.kind = .hit <;> simp [Channel.commit, Channel.activate, hit]

@[simp] theorem refresh_log (p : Params) (c : Channel) :
    (c.refreshOnce p).log = .refresh (c.refreshWindow p).1 (c.refreshWindow p).2 :: c.log := rfl

@[simp] theorem commit_nextRefresh (g : Config) (c : Channel) (arrive : Int) (pl : Plan)
    (w : Bool) : (c.commit g arrive pl w).nextRefresh = c.nextRefresh := by
  by_cases hit : pl.kind = .hit <;> simp [Channel.commit, Channel.activate, hit]

structure Mirrors (c : Channel) (last : Burst) : Prop where
  order : c.order = last.pl.order
  busFree : c.busFree = last.pl.dataEnd
  lastCol : c.lastCol = last.pl.col
  rank : c.lastColRank = last.pl.k.ra
  group : c.lastColBg = last.pl.k.bg
  wrote : c.lastWasWrite = last.w
  writeEnd : last.w = true → c.lastWriteEnd = last.pl.dataEnd

theorem commit_mirrors (g : Config) (c : Channel) (arrive : Int) (pl : Plan) (w : Bool) :
    Mirrors (c.commit g arrive pl w) ⟨arrive, pl, w⟩ := by
  constructor <;> simp +contextual [Channel.commit]

theorem iterate_bursts (p : Params) (n : Nat) (c : Channel) :
    bursts ((Channel.refreshOnce p)^[n] c).log = bursts c.log := by
  induction n generalizing c with
  | zero => rfl
  | succ n ih => rw [Function.iterate_succ_apply, ih, refresh_log, bursts_refresh]

def lastOrder (log : List Event) : Int :=
  ((bursts log).head?.map fun last => last.pl.order).getD 0

def openRow (bank : Nat) : List Event → Int
  | [] => -1
  | .burst x :: older => if bank = x.pl.bank then x.pl.k.row else openRow bank older
  | .refresh _ _ :: _ => -1

def Opens (older : List Event) (x : Burst) : Prop := openRow x.pl.bank older ≠ x.pl.k.row

instance (older : List Event) (x : Burst) : Decidable (Opens older x) :=
  inferInstanceAs (Decidable (_ ≠ _))

/-- What every reachable channel satisfies, whatever the law under proof. -/
structure Sound (g : Config) (c : Channel) : Prop where
  sized : Sized g.p c
  rows : ∀ i, i < c.banks.length → (c.bank i).openRow = openRow i c.log
  ordered : 0 ≤ c.order
  order : c.order = lastOrder c.log
  mirrors : ∀ last, (bursts c.log).head? = some last → Mirrors c last
  coords : ∀ x ∈ bursts c.log, InRange g.p x.pl.k

theorem fresh_sound (g : Config) : Sound g (Channel.fresh g.p) where
  sized := fresh_sized g.p
  rows := by
    intro i _
    rw [fresh_bank]
    rfl
  ordered := Int.le_refl 0
  order := rfl
  mirrors := by simp [Channel.fresh]
  coords := by simp [Channel.fresh]

theorem refresh_sound (g : Config) (c : Channel) (sound : Sound g c) :
    Sound g (c.refreshOnce g.p) where
  sized := refresh_sized c sound.sized
  rows := by
    intro i inside
    rw [refresh_bank c i (by simpa [Channel.refreshOnce] using inside)]
    rfl
  ordered := sound.ordered
  order := sound.order
  mirrors := by
    intro last newest
    obtain ⟨order, busFree, lastCol, rank, group, wrote, writeEnd⟩ := sound.mirrors last newest
    exact ⟨order, busFree, lastCol, rank, group, wrote, writeEnd⟩
  coords := sound.coords

theorem planned_inside {g : Config} {c : Channel} {k : Coord} {t : Int} {w : Bool} {pl : Plan}
    (sound : Sound g c) (ranged : InRange g.p k) (planned : Planned g c k t w pl) :
    pl.bank < c.banks.length := by
  rw [planned.bank, sound.sized.banks]
  exact bankIndex_lt k ranged

theorem commit_sound (g : Config) (timed : NonNegative g.p) (c : Channel) (k : Coord)
    (arrive : Int) (w : Bool) (pl : Plan) (sound : Sound g c) (ranged : InRange g.p k)
    (planned : Planned g c k (max arrive c.order) w pl) : Sound g (c.commit g arrive pl w) where
  sized := commit_sized g c arrive pl w sound.sized
  rows := by
    intro i inside
    rw [(commit_sized g c arrive pl w sound.sized).banks, ← sound.sized.banks] at inside
    rw [commit_bank g c arrive pl w (planned_inside sound ranged planned), commit_log, openRow]
    by_cases own : i = pl.bank
    · subst own
      simp only [if_true, Bank.served]
      by_cases hit : pl.kind = .hit
      · rw [if_pos hit, (planned.hit hit).1, planned.coord]
      · rw [if_neg hit]
    · rw [if_neg own, if_neg own]
      exact sound.rows i inside
  ordered := by
    have started := planned.start timed.tRP timed.tRCD
    have nonneg := sound.ordered
    rw [(commit_mirrors g c arrive pl w).order]
    show 0 ≤ pl.order
    omega
  order := by
    rw [(commit_mirrors g c arrive pl w).order, commit_log]
    rfl
  mirrors := by
    intro last newest
    simp only [commit_log, bursts_burst, List.head?_cons, Option.some.injEq] at newest
    subst newest
    exact commit_mirrors g c arrive pl w
  coords := by
    intro x member
    simp only [commit_log, bursts_burst, List.mem_cons] at member
    rcases member with same | old
    · subst same
      exact planned.coord ▸ ranged
    · exact sound.coords x old

/-- The rule every law of the channel is proved by: it survives a refresh and
it survives a commit of a planned burst that no due refresh precedes. -/
theorem run_law (g : Config) (timed : NonNegative g.p) (Law : Channel → Prop)
    (refresh : ∀ c, Sound g c → 0 < g.p.tREFI → Law c → Law (c.refreshOnce g.p))
    (burst : ∀ c k arrive w pl, Sound g c → InRange g.p k →
      Planned g c k (max arrive c.order) w pl →
      (0 < g.p.tREFI → pl.col < c.nextRefresh) → Law c → Law (c.commit g arrive pl w))
    (c : Channel) (fresh : Law (Channel.fresh g.p)) (run : Run g (Channel.fresh g.p) c) :
    Sound g c ∧ Law c := by
  apply run_keeps g (fun c => Sound g c ∧ Law c) _ _ _ run ⟨fresh_sound g, fresh⟩
  intro before after step both
  obtain ⟨sound, law⟩ := both
  cases step with
  | refresh on => exact ⟨refresh_sound g before sound, refresh before sound on law⟩
  | burst k arrive w ranged early =>
      have planned := plan_planned g before k (max arrive before.order) w
        (by have := sound.ordered; omega)
      exact ⟨commit_sound g timed before k arrive w _ sound ranged planned,
        burst before k arrive w _ sound ranged planned early law⟩

/-- A condition on every burst of a history, given the events before it. -/
def Throughout (Holds : List Event → Burst → Prop) : List Event → Prop
  | [] => True
  | .burst x :: older => Holds older x ∧ Throughout Holds older
  | .refresh _ _ :: older => Throughout Holds older

instance decidableThroughout (Holds : List Event → Burst → Prop)
    [∀ older x, Decidable (Holds older x)] : ∀ log, Decidable (Throughout Holds log)
  | [] => .isTrue trivial
  | .burst x :: older =>
      have := decidableThroughout Holds older
      inferInstanceAs (Decidable (Holds older x ∧ Throughout Holds older))
  | .refresh _ _ :: older => decidableThroughout Holds older

theorem planned_opens {g : Config} {c : Channel} {k : Coord} {t arrive : Int} {w : Bool}
    {pl : Plan} (sound : Sound g c) (ranged : InRange g.p k) (planned : Planned g c k t w pl)
    (opened : pl.kind ≠ .hit) : Opens c.log ⟨arrive, pl, w⟩ := by
  have found := planned.other opened
  rw [sound.rows _ (planned_inside sound ranged planned)] at found
  simpa only [Opens, planned.coord] using found

end HeteroSim.ChannelMachine
