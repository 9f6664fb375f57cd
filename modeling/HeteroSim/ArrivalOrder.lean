import HeteroSim.AccessLoop

/-!
No timing anomaly: the same single burst, presented to the same engine later, is not done
earlier. The two runs may do different numbers of refreshes. As chases of the refresh
deadlines they differ in their plans only, and a plan made later, or behind more
refreshes, is never earlier. A refresh that is no shorter than a precharge is needed for
that where a burst that waits for the refresh finds a conflict gone.
-/

namespace HeteroSim.ArrivalOrder

open DramParams DramChannel ChannelMachine DramEngine EngineRuns Effect DeadlineChase ReplanLoop
open AccessLoop
open IdleDrain (actAt_mono settle_mono replan_later refreshOnce_refreshed iterate_refreshed)

section Plans

variable {g : Config}

theorem actAt_rises (p : Params) (c : Channel) (b : Bank) (k : Coord) (act act' : Int)
    (later : act ≤ act') : c.actAt p b k act ≤ c.actAt p b k act' :=
  actAt_mono p c c b b k act act' rfl rfl rfl rfl rfl (Int.le_refl _)
    (Int.le_trans later (Int.le_max_left _ _))

theorem plan_rises (c : Channel) (k : Coord) (t t' : Int) (w : Bool) (later : t ≤ t') :
    (c.plan g k t w).col ≤ (c.plan g k t' w).col := by
  unfold Channel.plan
  simp only
  generalize c.bank (bankIndex g.p k) = b
  split
  next hit => exact settle_mono c c k w _ _ _ _ _ _ _ _ (by omega) rfl rfl
  split
  next other opened =>
    have opens := actAt_rises g.p c b k (max (max t (b.act + g.p.tRAS)) b.preOk + g.p.tRP)
      (max (max t' (b.act + g.p.tRAS)) b.preOk + g.p.tRP) (by omega)
    exact settle_mono c c k w _ _ _ _ _ _ _ _ (by omega) rfl rfl
  next other closed =>
    have opens := actAt_rises g.p c b k t t' later
    exact settle_mono c c k w _ _ _ _ _ _ _ _ (by omega) rfl rfl

theorem plan_data (c : Channel) (k : Coord) (t : Int) (w : Bool) :
    (c.plan g k t w).dataEnd = (c.plan g k t w).col + latency g.p w + g.burstPs := by
  simp only [Channel.plan, Channel.settle]
  split
  · simp only
    omega
  · split
    · simp only
      omega
    · simp only
      omega

theorem ready_grows (c : Channel) (i m n : Nat) (inside : i < c.banks.length) (less : m ≤ n) :
    ((refreshed g c m).bank i).actOk ≤ ((refreshed g c n).bank i).actOk := by
  induction n with
  | zero => rw [Nat.le_zero.mp less]
  | succ n ih =>
      rcases Nat.eq_or_lt_of_le less with rfl | before
      · exact Int.le_refl _
      · have within : i < (refreshed g c n).banks.length := by rwa [refreshed_size]
        have grows := ((refreshOnce_refreshed (g := g) (refreshed g c n)).banks i within).2.2.1
        rw [← refreshed_succ] at grows
        exact Int.le_trans (ih (by omega)) grows

variable (timed : NonNegative g.p)

include timed

theorem reach_grows (short : g.p.tRP ≤ g.p.tRPab + g.p.tRFC) (c : Channel) (k : Coord) (t : Int)
    (w : Bool) (ranged : 0 ≤ k.row) (inside : bankIndex g.p k < c.banks.length) (m n : Nat)
    (first : m = 0 → t ≤ c.nextRefresh) (less : m ≤ n) :
    reach g c k t w m ≤ reach g c k t w n := by
  cases m with
  | zero =>
      -- The one place where a refresh may help: it closes a row the burst conflicts with.
      cases n with
      | zero => exact Int.le_refl _
      | succ n => exact replan_later timed short c k t w n inside (first rfl) ranged
  | succ m =>
      obtain ⟨n, rfl⟩ : ∃ last, n = last + 1 := ⟨n - 1, by omega⟩
      have grows := ready_grows (g := g) c _ (m + 1) (n + 1) inside less
      rw [reach_behind c k t w m ranged inside, reach_behind c k t w n ranged inside]
      omega

theorem refreshes_grow (on : 0 < g.p.tREFI) (c : Channel) (t t' : Int) (later : t ≤ t') :
    (c.refresh g.p t).2 ≤ (c.refresh g.p t').2 := by
  rw [SkipAhead.refresh_twice timed on c t t' later]
  exact Nat.le_add_right _ _

theorem burst_chase (on : 0 < g.p.tREFI) (c after : Channel) (fuel n : Nat) (k : Coord)
    (arrive : Int) (w : Bool) (pl : Plan)
    (ended : c.burst g fuel k arrive w = some (after, n, pl)) :
    ∃ last, chase (jump g c k (max arrive c.order) w) fuel (c.refresh g.p (max arrive c.order)).2 =
      some last ∧ pl.dataEnd =
        reach g c k (max arrive c.order) w last + latency g.p w + g.burstPs := by
  simp only [Channel.burst, Option.bind_eq_bind, Option.bind_eq_some_iff, Prod.exists] at ended
  obtain ⟨found, m, plan, looped, same⟩ := ended
  cases same
  rw [refresh_iterates timed, ← refreshed, replan_chase c k _ w timed on] at looped
  obtain ⟨last, chased, outcome⟩ := Option.map_eq_some_iff.mp looped
  cases outcome
  exact ⟨last, chased, plan_data _ _ _ _⟩

theorem burst_rises (short : g.p.tRP ≤ g.p.tRPab + g.p.tRFC) (c after after' : Channel)
    (fuel fuel' n n' : Nat) (k : Coord) (arrive arrive' : Int) (w : Bool) (pl pl' : Plan)
    (ranged : 0 ≤ k.row) (inside : bankIndex g.p k < c.banks.length) (later : arrive ≤ arrive')
    (ended : c.burst g fuel k arrive w = some (after, n, pl))
    (ended' : c.burst g fuel' k arrive' w = some (after', n', pl')) : pl.dataEnd ≤ pl'.dataEnd := by
  have starts : max arrive c.order ≤ max arrive' c.order := by omega
  by_cases on : 0 < g.p.tREFI
  · obtain ⟨last, chased, data⟩ := burst_chase timed on c after fuel n k arrive w pl ended
    obtain ⟨last', chased', data'⟩ := burst_chase timed on c after' fuel' n' k arrive' w pl' ended'
    have passed := (SkipAhead.refresh_due timed on c (max arrive c.order)).next
    have rises := (chase_rises (jump_chases c k (max arrive c.order) w timed on)
      (jump_chases c k (max arrive' c.order) w timed on) _ _
      (refreshes_grow timed on c _ _ starts) ?_ ?_ fuel fuel' last last' chased chased').2
    · omega
    · intro m n begun less
      apply reach_grows timed short c k (max arrive c.order) w ranged inside m n _ less
      rintro rfl
      rw [Nat.le_zero.mp begun] at passed
      push_cast at passed
      omega
    · intro n _
      exact plan_rises _ k _ _ w starts
  · have plain : ∀ found refreshes plan arrival fuel,
        c.burst g fuel k arrival w = some (found, refreshes, plan) →
          plan = c.plan g k (max arrival c.order) w := by
      intro found refreshes plan arrival fuel run
      obtain ⟨before, iterates, nonempty, planned, _, _⟩ :=
        burst_spec g timed fuel c found k arrival w
        refreshes plan run
      have nothing : refreshes = 0 := by
        by_contra several
        exact on (nonempty (by omega))
      subst nothing
      rwa [iterates] at planned
    rw [plain _ _ _ _ _ ended, plain _ _ _ _ _ ended', plan_data, plan_data]
    have rises := plan_rises (g := g) c k _ _ w starts
    omega

end Plans

/-! ### Accesses of a single burst -/

section Accesses

variable {p : Params} {g : Config} {e after : Engine} {now done : Int} {addr size : Nat} {w : Bool}

theorem burst_ok (fuel : Nat) (arrive dataEnd : Int) (a : Nat)
    (ended : burst fuel arrive a w e = .ok dataEnd after) :
    ∃ c n pl, (e.channel (decode e.g a).ch).burst e.g fuel (decode e.g a) arrive w =
      some (c, n, pl) ∧
      dataEnd = pl.dataEnd := by
  obtain ⟨_, _, read, sent⟩ := bind_ok.mp ended
  cases read
  generalize committed : Channel.burst _ _ _ _ _ _ = found at sent
  cases found with
  | none => cases sent
  | some found =>
      obtain ⟨c, n, pl⟩ := found
      obtain ⟨_, _, put, sent⟩ := bind_ok.mp sent
      cases put
      cases sent
      exact ⟨c, n, pl, rfl, rfl⟩

variable (accepted : Accepted p g) (narrow : g.align < 2 ^ 63) (config : e.g = g)
  (nonempty : 1 ≤ size) (inside : addr + size ≤ word) (single : burstCount g addr size = 1)

include accepted narrow config nonempty inside single

theorem byte_access (byte : ¬ 1 < g.burstBytes.toNat) (fuel : Nat) :
    access fuel now addr size w e =
      .ok (now + g.p.ctrlPs.tdiv 2 + (g.p.ctrlPs - g.p.ctrlPs.tdiv 2))
        { e with st := e.st.request w } := by
  obtain ⟨span, _, _, _⟩ := covered_span accepted narrow addr size nonempty inside
  have past : ¬ firstByte g addr < lastByte g addr size := by
    rw [single] at span
    omega
  rw [access_turns fuel now addr size w config accepted.dram nonempty,
    firstOf_firstByte accepted narrow addr (by omega),
    lastOf_lastByte accepted narrow addr size (by omega)]
  cases fuel <;> simp only [accessTurns, past, if_false] <;> rfl

theorem single_access (unqueued : g.p.wqDepth = 0) (wide : 1 < g.burstBytes.toNat) (fuel : Nat)
    (ended : access fuel now addr size w e = .ok done after) :
    ∃ c n pl, (e.channel (decode g (firstByte g addr)).ch).burst g fuel
      (decode g (firstByte g addr))
        (now + g.p.ctrlPs.tdiv 2) w = some (c, n, pl) ∧
      done = max (now + g.p.ctrlPs.tdiv 2) pl.dataEnd + (g.p.ctrlPs - g.p.ctrlPs.tdiv 2) := by
  have fits := times_inside accepted narrow config nonempty inside wide done after fuel ended
  obtain ⟨span, _, _, _⟩ := covered_span accepted narrow addr size nonempty inside
  rw [single] at span
  -- Without fuel the loop over the burst would not have returned.
  have enough : burstCount g addr size ≤ fuel := by
    by_contra none
    have first : firstByte g addr < lastByte g addr size := by omega
    have empty : fuel = 0 := by omega
    rw [access_turns fuel now addr size w config accepted.dram nonempty,
      firstOf_firstByte accepted narrow addr (by omega),
      lastOf_lastByte accepted narrow addr size (by omega), empty] at ended
    obtain ⟨_, _, looped, _⟩ := bind_ok.mp ended
    simp only [accessTurns, first, if_true] at looped
    cases looped
  rw [access_serves accepted narrow config nonempty inside wide fits fuel enough, covered,
    single] at ended
  obtain ⟨found, _, served, finish⟩ := bind_ok.mp ended
  cases finish
  obtain ⟨_, _, noted, served⟩ := bind_ok.mp served
  cases noted
  obtain ⟨dataEnd, _, presented, finish⟩ := bind_ok.mp served
  cases finish
  obtain ⟨_, _, read, presented⟩ := bind_ok.mp presented
  cases read
  subst config
  rcases ite_ok.mp presented with ⟨queue, _⟩ | ⟨_, sent⟩
  · have depth : 0 < e.g.p.wqDepth := queue
    omega
  · obtain ⟨c, n, pl, burst, rfl⟩ := burst_ok fuel _ dataEnd _ sent
    exact ⟨c, n, pl, burst, rfl⟩

end Accesses

/-- The same single burst, presented to the same engine later, is not done earlier; and
both times it is done, if it is not at the top of the address space. -/
theorem arrival_order (p : Params) (dram : p.kind = .dram) (unqueued : p.wqDepth = 0)
    (timed : NonNegative p) (short : p.tRP ≤ p.tRPab + p.tRFC) (fits : RefreshFits p) (e : Engine)
    (reached : Reachable p e) (narrow : e.g.align < 2 ^ 63) (addr size : Nat) (w : Bool)
    (nonempty : 1 ≤ size) (inside : addr + size ≤ word) (single : burstCount e.g addr size = 1)
    (now now' : Int) (later : now ≤ now') :
    (lastByte e.g addr size + 1 < word →
      (∃ done after, Returns (fun fuel => access fuel now addr size w) e done after) ∧
      ∃ done after, Returns (fun fuel => access fuel now' addr size w) e done after) ∧
    ∀ fuel fuel' done done' after after', access fuel now addr size w e = .ok done after →
      access fuel' now' addr size w e = .ok done' after' → done ≤ done' := by
  obtain ⟨g, accepted, connected⟩ := visited_connected p e dram timed (.between e reached)
  obtain rfl := connected.config
  obtain rfl := accepted.same
  by_cases wide : 1 < e.g.burstBytes.toNat
  · refine ⟨fun below => ?_, ?_⟩
    · have returns : ∀ now, ∃ done after,
          Returns (fun fuel => access fuel now addr size w) e done after := by
        intro now
        have answers : Answers e now addr size w := answers_reachable dram timed fits reached
        obtain ⟨done, after, answered⟩ := answers
        exact ⟨_, after, access_returns accepted narrow rfl nonempty inside wide below
          done after answered⟩
      exact ⟨returns now, returns now'⟩
    · intro fuel fuel' done done' after after' ended ended'
      obtain ⟨c, n, pl, burst, rfl⟩ :=
        single_access accepted narrow rfl nonempty inside single unqueued wide fuel ended
      obtain ⟨c', n', pl', burst', rfl⟩ :=
        single_access accepted narrow rfl nonempty inside single unqueued wide fuel' ended'
      have ranged := accepted.decode_in_range (firstByte e.g addr)
      have within : bankIndex e.g.p (decode e.g (firstByte e.g addr)) <
          (e.channel (decode e.g (firstByte e.g addr)).ch).banks.length := by
        rw [(channel_sized connected timed _).banks]
        exact bankIndex_lt _ ranged
      have rises := burst_rises timed short _ c c' fuel fuel' n n' _ _ _ w pl pl' ranged.row within
        (Int.add_le_add_right later _) burst burst'
      omega
  · have byte : ∀ now fuel, access fuel now addr size w e =
        .ok (now + e.g.p.ctrlPs.tdiv 2 + (e.g.p.ctrlPs - e.g.p.ctrlPs.tdiv 2))
          { e with st := e.st.request w } :=
      fun now fuel => byte_access accepted narrow rfl nonempty inside single wide fuel
    refine ⟨fun _ => ⟨⟨_, _, 0, fun fuel _ => byte now fuel⟩,
      ⟨_, _, 0, fun fuel _ => byte now' fuel⟩⟩, ?_⟩
    intro fuel fuel' done done' after after' ended ended'
    rw [byte] at ended ended'
    cases ended
    cases ended'
    omega

/-- `lpddr5` without its write queue, asked for single bursts. -/
def unqueuedBursts : Params := { DramPresets.lpddr5 with wqDepth := 0, granule := 32 }

/-- A read at once, and one that arrives when the first refresh is due. -/
theorem arrival_order_refresh : ∃ e done done', Reachable unqueuedBursts e ∧
    (∃ after, Returns (fun fuel => access fuel 0 4096 32 false) e done after) ∧
    (∃ after, Returns (fun fuel => access fuel 3900000 4096 32 false) e done' after) ∧
    done ≤ done' := by
  obtain ⟨e, created, narrow, single, below⟩ : ∃ e, create unqueuedBursts = .ok e ∧
      e.g.align < 2 ^ 63 ∧ burstCount e.g 4096 32 = 1 ∧ lastByte e.g 4096 32 + 1 < word :=
    ⟨_, rfl, by decide +kernel, by decide +kernel, by decide +kernel⟩
  have reached := Reachable.start (p := unqueuedBursts) e created
  have order := arrival_order unqueuedBursts rfl rfl (by decide) (by decide) (by decide) e reached
    narrow 4096 32 false (by decide) (by decide) single 0 3900000 (by decide)
  obtain ⟨⟨done, after, enough, ends⟩, done', after', enough', ends'⟩ := order.1 below
  exact ⟨e, done, done', reached, ⟨after, enough, ends⟩, ⟨after', enough', ends'⟩,
    order.2 enough enough' done done' after after' (ends enough (Nat.le_refl _))
      (ends' enough' (Nat.le_refl _))⟩

end HeteroSim.ArrivalOrder
