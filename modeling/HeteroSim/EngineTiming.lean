import HeteroSim.BankLaw
import HeteroSim.EngineRuns
import HeteroSim.GroupLaw
import HeteroSim.RefreshLaw

/-!
The timing laws of the engine, over every sequence of accesses: what the laws
of the channel machine say of each channel. Two of them need a condition on
the order of bank groups or of ranks; a run that breaks it stands beside each.
-/

namespace HeteroSim.EngineTiming

open DramParams DramChannel ChannelMachine DramEngine EngineRuns DramPresets
open BusLaw (OnBus Serves Follows)
open RefreshLaw (windows NoneDue Exclusive)
open ActivationLaw (opens acts actsOf Returns)
open Timeline (Spaced Spans)

section Laws

variable {p : Params} {e : Engine}

/-! ### The data bus and the order of commands -/

theorem bus_and_order (dram : p.kind = .dram) (timed : NonNegative p) (widen : GroupsWiden p)
    (turnaround : p.tRTW_L = 0 ∨ p.tRTW ≤ p.tRTW_L) (visited : Visited p e) :
    (∀ c ∈ e.chan,
      (∀ x ∈ bursts c.log, Serves e.g x) ∧
      (bursts c.log).Pairwise (fun newer older => Follows e.g newer older ∧
        ∀ s t, OnBus e.g older s → OnBus e.g newer t → s < t) ∧
      (bursts c.log).length * e.g.burstPs ≤ c.busFree ∧
      ∀ last, (bursts c.log).head? = some last → c.busFree = last.pl.dataEnd) ∧
    e.st.busyPs = (e.chan.map fun c => (bursts c.log).length * e.g.burstPs).sum := by
  obtain ⟨g, accepted, connected⟩ := visited_connected p e dram timed visited
  have same := accepted.same
  rw [connected.config]
  refine ⟨?_, connected.busy⟩
  intro c member
  have law := BusLaw.channel_law g (same ▸ timed) (same ▸ widen) (same ▸ turnaround) c
    (connected.runs c member)
  have sound := (BankLaw.channel_law g (same ▸ timed) c (connected.runs c member)).1
  refine ⟨law.serves, law.follows.imp ?_, law.busy, ?_⟩
  · intro newer older follows
    exact ⟨follows, follows.on_bus⟩
  · intro last newest
    exact (sound.mirrors last newest).busFree

theorem bus_and_order_lines : ∃ e, Visited lpddr5 e ∧ e.st.bursts = 6 ∧
    ∀ c ∈ e.chan, (bursts c.log).Pairwise (Follows e.g) := by
  obtain ⟨e, reached, shown⟩ := lines_served
  simp only [decide_eq_true_eq] at shown
  have law := bus_and_order rfl (by decide) (by decide) (by decide) (.between e reached)
  exact ⟨e, .between e reached, shown.1, fun c member => (law.1 c member).2.1.imp And.left⟩

/-! ### Banks and rows -/

theorem bank_commands_lawful (dram : p.kind = .dram) (timed : NonNegative p)
    (visited : Visited p e) :
    ∀ c ∈ e.chan, ∀ i, i < c.banks.length →
      BankLaw.Lawful p (BankLaw.commandsOf i c.log) := by
  obtain ⟨g, accepted, connected⟩ := visited_connected p e dram timed visited
  intro c member i inside
  have law := BankLaw.channel_law g (accepted.same ▸ timed) c (connected.runs c member)
  exact accepted.same ▸ (law.2 i inside).2

theorem bank_commands_lawful_lines : ∃ e, Visited lpddr5 e ∧ e.st.bursts = 6 ∧
    ∀ c ∈ e.chan, ∀ i, i < c.banks.length →
      BankLaw.Lawful lpddr5 (BankLaw.commandsOf i c.log) := by
  obtain ⟨e, reached, shown⟩ := lines_served
  simp only [decide_eq_true_eq] at shown
  exact ⟨e, .between e reached, shown.1,
    bank_commands_lawful rfl (by decide) (.between e reached)⟩

/-! ### Refresh -/

theorem refreshes_kept (dram : p.kind = .dram) (timed : NonNegative p) (on : 0 < p.tREFI)
    (visited : Visited p e) :
    ∀ c ∈ e.chan,
      c.nextRefresh = p.tREFI * (1 + (windows c.log).length) ∧
      Throughout (NoneDue p) c.log ∧
      c.log.Pairwise (Exclusive e.g) := by
  obtain ⟨g, accepted, connected⟩ := visited_connected p e dram timed visited
  have same := accepted.same
  rw [connected.config]
  intro c member
  have banked : 0 < bankCount g.p := by
    have coord := accepted.decode_in_range 0
    rw [← same] at coord
    exact Nat.zero_lt_of_lt (bankIndex_lt _ coord)
  have law := RefreshLaw.channel_law g (same ▸ timed) (same ▸ on) banked c
    (connected.runs c member)
  exact ⟨same ▸ law.due, same ▸ law.noneDue, law.exclusive⟩

theorem refreshes_kept_lines : ∃ e, Visited lpddr5 e ∧ e.st.refreshes = 1 ∧
    ∀ c ∈ e.chan, c.log.Pairwise (Exclusive e.g) := by
  obtain ⟨e, reached, shown⟩ := lines_served
  simp only [decide_eq_true_eq] at shown
  have law := refreshes_kept rfl (by decide) (by decide) (.between e reached)
  exact ⟨e, .between e reached, shown.2.1, fun c member => (law c member).2.2⟩

/-! ### Activation rate -/

theorem one_rank_rate (dram : p.kind = .dram) (timed : NonNegative p)
    (widen : p.tRRD_S ≤ p.tRRD_L) (single : p.ranks = 1) (visited : Visited p e) :
    ∀ c ∈ e.chan,
      (acts c.log).Pairwise (fun newer older => older ≤ newer) ∧
      Spaced p.tRRD_S (acts c.log) ∧ Spans 4 p.tFAW (acts c.log) := by
  obtain ⟨g, accepted, connected⟩ := visited_connected p e dram timed visited
  have same := accepted.same
  intro c member
  have paced := ActivationLaw.one_rank_law g (same ▸ timed) (same ▸ widen) (same ▸ single) c
    (connected.runs c member)
  rw [same] at paced
  have nonneg := timed.tRRD_S
  refine ⟨paced.rrd.imp ?_, paced.rrd, paced.faw⟩
  intro newer older apart
  omega

theorem one_rank_rate_lines : ∃ e, Visited lpddr5 e ∧ e.st.bursts = 6 ∧
    ∀ c ∈ e.chan, Spans 4 lpddr5.tFAW (acts c.log) := by
  obtain ⟨e, reached, shown⟩ := lines_served
  simp only [decide_eq_true_eq] at shown
  have law := one_rank_rate rfl (by decide) (by decide) rfl (.between e reached)
  exact ⟨e, .between e reached, shown.1, fun c member => (law c member).2.2⟩

theorem rank_rate (dram : p.kind = .dram) (timed : NonNegative p)
    (widen : p.tRRD_S ≤ p.tRRD_L) (visited : Visited p e) :
    ∀ c ∈ e.chan, Throughout (Returns p) c.log →
      ∀ rank, 0 ≤ rank → rank < p.ranks →
        Spaced p.tRRD_S (actsOf rank c.log) ∧
        ∀ i j newer older, i + 4 ≤ j → (actsOf rank c.log)[i]? = some newer →
          (actsOf rank c.log)[j]? = some older → older + p.tFAW ≤ newer := by
  obtain ⟨g, accepted, connected⟩ := visited_connected p e dram timed visited
  have same := accepted.same
  intro c member returns rank low high
  have law := (ActivationLaw.channel_law g (same ▸ timed) (same ▸ widen) c
    (connected.runs c member)).2
  rw [same] at law
  have paced := law returns rank low high
  exact ⟨paced.rrd, fun i j newer older apart atNewer atOlder =>
    paced.five timed.tRRD_S i j newer older apart atNewer atOlder⟩

/-- `lpddr4` overridden to two ranks and 32-byte granules. -/
def dualRank : Params :=
  { lpddr4 with
    ranks := 2
    granule := 32
    mapping := ['R', 'a', 'R', 'o', 'B', 'a', 'C', 'o'] }

def alternating : List Request :=
  [⟨0, 0, 32, false⟩, ⟨0, 2 ^ 30, 32, false⟩, ⟨0, 2 ^ 11, 32, false⟩]

/-- Rank 0 again after rank 1, when its window allows it. -/
theorem rank_rate_dual : ∃ e, Visited dualRank e ∧
    e.chan.map (fun c => (bursts c.log).map fun x => x.pl.k.ra) = [[0, 1, 0]] ∧
    ∀ c ∈ e.chan, ∀ rank, 0 ≤ rank → rank < 2 → Spaced dualRank.tRRD_S (actsOf rank c.log) := by
  obtain ⟨e, reached, shown⟩ := shows_reachable dualRank 4
    [⟨0, 0, 32, false⟩, ⟨100000, 2 ^ 30, 32, false⟩, ⟨200000, 2 ^ 11, 32, false⟩]
    (fun e => decide (e.chan.map (fun c => (bursts c.log).map fun x => x.pl.k.ra) = [[0, 1, 0]] ∧
      ∀ c ∈ e.chan, Throughout (Returns dualRank) c.log)) (by decide +kernel)
  simp only [decide_eq_true_eq] at shown
  have law := rank_rate rfl (by decide) (by decide) (.between e reached)
  exact ⟨e, .between e reached, shown.1, fun c member rank low high =>
    (law c member (shown.2 c member) rank low high).1⟩

/-- The last ACTIVATE of the channel was on the other rank, so nothing keeps the
second one on rank 0 from issuing at the time of the first. -/
theorem alternating_ranks_collide : 0 < dualRank.tRRD_S ∧ ∃ e, Reachable dualRank e ∧
    ∃ c ∈ e.chan, ∃ act, actsOf 0 c.log = [act, act] := by
  refine ⟨by decide, ?_⟩
  obtain ⟨e, reached, shown⟩ := shows_reachable dualRank 4 alternating
    (fun e => decide (e.chan.map (fun c => actsOf 0 c.log) = [[10000, 10000]])) (by decide +kernel)
  simp only [decide_eq_true_eq] at shown
  have member : [10000, 10000] ∈ e.chan.map fun c => actsOf 0 c.log := by simp [shown]
  obtain ⟨c, inside, found⟩ := List.mem_map.mp member
  exact ⟨e, reached, c, inside, 10000, found⟩

/-! ### Bank groups -/

theorem group_timing (dram : p.kind = .dram) (timed : NonNegative p) (visited : Visited p e) :
    ∀ c ∈ e.chan, Throughout (GroupLaw.Covered e.g) c.log →
      (bursts c.log).Pairwise fun newer older =>
        GroupLaw.SameGroup newer older → GroupLaw.Grouped p newer older := by
  obtain ⟨g, accepted, connected⟩ := visited_connected p e dram timed visited
  have same := accepted.same
  rw [connected.config]
  intro c member covered
  have law := GroupLaw.channel_law g (same ▸ timed) c (connected.runs c member)
  exact same ▸ law.grouped covered

theorem group_timing_lines : ∃ e, Visited lpddr5 e ∧ e.st.bursts = 4 ∧
    ∀ c ∈ e.chan, (bursts c.log).Pairwise fun newer older =>
      GroupLaw.SameGroup newer older → GroupLaw.Grouped lpddr5 newer older := by
  obtain ⟨e, reached, shown⟩ := shows_reachable lpddr5 4
    [⟨0, 0, 64, true⟩, ⟨100000, 128, 64, false⟩]
    (fun e => decide (e.st.bursts = 4 ∧ ∀ c ∈ e.chan, Throughout (GroupLaw.Covered e.g) c.log))
    (by decide +kernel)
  simp only [decide_eq_true_eq] at shown
  have law := group_timing rfl (by decide) (.between e reached)
  exact ⟨e, .between e reached, shown.1, fun c member => law c member (shown.2 c member)⟩

/-- The two bursts of the written line go to groups 0 and 1. The read of group 0
that follows waits tWTR_S after group 1, which is not tWTR_L after group 0. -/
theorem line_read_too_soon : lpddr5.kind = .dram ∧ NonNegative lpddr5 ∧ GroupsWiden lpddr5 ∧
    ∃ e, Reachable lpddr5 e ∧ ∃ c ∈ e.chan,
      ¬ (bursts c.log).Pairwise fun read write => GroupLaw.SameGroup read write →
        read.w = false → write.w = true → write.pl.dataEnd + lpddr5.tWTR_L ≤ read.pl.col := by
  refine ⟨rfl, by decide, by decide, ?_⟩
  obtain ⟨e, reached, shown⟩ := shows_reachable lpddr5 4
    [⟨0, 0, 64, true⟩, ⟨25000, 128, 64, false⟩]
    (fun e => decide (∃ c ∈ e.chan, ¬ (bursts c.log).Pairwise fun read write =>
      GroupLaw.SameGroup read write → read.w = false → write.w = true →
        write.pl.dataEnd + lpddr5.tWTR_L ≤ read.pl.col)) (by decide +kernel)
  simp only [decide_eq_true_eq] at shown
  exact ⟨e, reached, shown⟩

end Laws

end HeteroSim.EngineTiming
