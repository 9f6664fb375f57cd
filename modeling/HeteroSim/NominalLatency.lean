import HeteroSim.ChannelLanes
import HeteroSim.NominalFormula

/-!
The two figures of the dram family. The bursts of the granule stream a gap apart in the
generator's formula; the engine decodes each of them and plans it on its channel.
-/

namespace HeteroSim.NominalLatency

open DramParams DramChannel ChannelMachine DramEngine EngineRuns Effect BurstTimetable BurstStream
open GranuleTurns ChannelLanes

def lastColumnPs (p : Params) : Int :=
  p.ctrlPs.tdiv 2 + p.tRCD + (pyBursts p - 1) * pyGap p

/-- The parameters the figures are compared on: 64-bit sizes, a positive rate and
granule, and refresh off or first due after the access. -/
structure Compared (p : Params) : Prop where
  rate : 0 < p.mtps
  granule : 0 < p.granule ∧ p.granule < 2 ^ 63
  burst : pyBurstBytes p < 2 ^ 63
  refresh : 0 < p.tREFI → lastColumnPs p < p.tREFI

/-- The bursts of the granule as the formula streams them. -/
def granuleReads (p : Params) (g : Config) : Stream :=
  { g := g
    start := p.ctrlPs.tdiv 2
    gap := pyGap p
    place := fun i => decode g (i * (pyBurstBytes p).toNat) }

/-- The parameters for which the engine's clamps and its `never` play no part. -/
structure Ordinary (p : Params) : Prop where
  times : -1 ≤ p.ctrlPs ∧ 0 ≤ p.tRCD ∧ 0 ≤ p.tRL
  past : never + p.tCCD_S ≤ p.ctrlPs.tdiv 2 + p.tRCD
  width : 0 ≤ p.widthBits ∧ 2 ≤ pyBurstBytes p
  refresh : 0 < p.tREFI → 0 ≤ p.tRFC ∧ 0 ≤ p.tRPab

section Dram

variable {p : Params} {g : Config} {s : Stream} {count i : Nat}

theorem lastOf_granule {k size : Nat} (positive : 0 < size) (fits : size ≤ 2 ^ k)
    (small : size < 2 ^ 63) : lastOf (2 ^ k : Nat) 0 size = 2 ^ k - 1 := by
  have inside : size - 1 < 2 ^ k := by omega
  rw [lastOf, Nat.zero_add, Nat.mod_eq_of_lt (by simp only [word]; omega), Int.toNat_natCast]
  apply Nat.le_antisymm
  · have below := Nat.or_lt_two_pow inside (by omega : 2 ^ k - 1 < 2 ^ k)
    omega
  · exact Nat.right_le_or

theorem gap_burst (p : Params) : pyBurstPs p ≤ pyGap p := by
  rw [pyGap]
  split <;> omega

structure Made (p : Params) (g : Config) : Prop where
  accepted : Accepted p g
  bytes : g.burstBytes = pyBurstBytes p
  align : g.align = max p.granule (pyBurstBytes p)
  burstPs : g.burstPs = pyBurstPs p
  length : 0 < p.burstLength
  nonempty : 1 ≤ pyBursts p
  fill : pyBursts p * pyBurstBytes p = g.align

theorem Made.burst_nonneg (made : Made p g) (compared : Compared p) : 0 ≤ pyBurstPs p := by
  have length := made.length
  have rate := compared.rate
  rw [pyBurstPs, Int.fdiv_eq_ediv_of_nonneg _ rate.le]
  exact Int.ediv_nonneg (by omega) rate.le

theorem Made.sane (made : Made p g) (compared : Compared p) (ordinary : Ordinary p) :
    Sane (granuleReads p g) (pyBursts p).toNat := by
  have same := made.accepted.same
  have burst := made.burst_nonneg compared
  have gap := gap_burst p
  have nonempty := made.nonempty
  refine ⟨?_, ?_, ?_, ?_, fun i => ?_, fun on => ?_⟩
  · have least := ordinary.times.1
    rcases Int.lt_or_le p.ctrlPs 0 with negative | positive
    · have single : p.ctrlPs = -1 := by omega
      simp only [granuleReads, single]
      decide
    · exact Int.tdiv_nonneg positive (by decide)
  · simp only [granuleReads, same]
    exact ordinary.times.2
  · simp only [granuleReads, made.burstPs]
    exact ⟨burst, gap⟩
  · simp only [granuleReads, same]
    exact ordinary.past
  · have ranged := made.accepted.decode_in_range (i * (pyBurstBytes p).toNat)
    simp only [granuleReads]
    rw [same]
    exact ranged
  · simp only [granuleReads, same] at on ⊢
    obtain ⟨tRFC, tRPab⟩ := ordinary.refresh on
    refine ⟨tRFC, tRPab, fun i inside => ?_⟩
    have last := compared.refresh on
    have within : (i : Int) * pyGap p ≤ (pyBursts p - 1) * pyGap p :=
      Int.mul_le_mul_of_nonneg_right (by omega) (by omega)
    simp only [Stream.column, lastColumnPs, same] at last ⊢
    omega

theorem Made.placed (made : Made p g) (compared : Compared p) (ordinary : Ordinary p) :
    Placed (granuleReads p g) (pyBursts p).toNat := by
  have nonempty := made.nonempty
  have wide := ordinary.width.2
  have sane := made.sane compared ordinary
  refine ⟨⟨?_, ?_⟩, fun i => ?_, sane.ranged⟩
  · simp only [granuleReads, made.bytes]
    omega
  · -- The aligned block is a power of two that starts below 2^63.
    have granule := compared.granule
    have burst := compared.burst
    have block : ((pyBursts p).toNat * (pyBurstBytes p).toNat : Nat) = g.align := by
      rw [← made.fill]
      push_cast
      rw [Int.toNat_of_nonneg (by omega), Int.toNat_of_nonneg (by omega)]
    have align := made.align
    simp only [granuleReads, made.bytes]
    omega
  · simp only [granuleReads, made.bytes]

theorem Made.last (made : Made p g) (compared : Compared p) (ordinary : Ordinary p) :
    lastOf g.align 0 p.granule.toNat = (pyBursts p).toNat * g.burstBytes.toNat - 1 := by
  obtain ⟨k, aligned⟩ := made.accepted.alignPow
  have granule := compared.granule
  have nonempty := made.nonempty
  have wide := ordinary.width.2
  have power : (2 : Int) ^ k = ((2 ^ k : Nat) : Int) := by
    push_cast
    rfl
  have whole : (pyBursts p).toNat * g.burstBytes.toNat = 2 ^ k := by
    have block : (((pyBursts p).toNat * (pyBurstBytes p).toNat : Nat) : Int) = (2 ^ k : Nat) := by
      rw [← power, ← aligned, ← made.fill]
      push_cast
      rw [Int.toNat_of_nonneg (by omega), Int.toNat_of_nonneg (by omega)]
    rw [made.bytes]
    exact_mod_cast block
  have fits : p.granule ≤ (2 ^ k : Nat) := by
    rw [← power, ← aligned, made.align]
    exact Int.le_max_left _ _
  rw [whole, aligned, power]
  exact lastOf_granule (by omega) (by omega) (by omega)

theorem Made.engine (made : Made p g) (configured : configure p = .ok g) (compared : Compared p)
    (ordinary : Ordinary p) (fuel : Nat) : ∃ e,
      (∀ Holds : Int → Channel → Prop, (∀ ch, Holds ch (Channel.fresh p)) → Reading g Holds e) ∧
      engineReadPs fuel p =
        match accessTurns fuel (p.ctrlPs.tdiv 2) ((pyBursts p).toNat * g.burstBytes.toNat - 1)
          false fuel (0 * g.burstBytes.toNat) (p.ctrlPs.tdiv 2) e with
        | .error _ _ => none
        | .ok done _ => some (done + (p.ctrlPs - p.ctrlPs.tdiv 2)) := by
  have same := made.accepted.same
  have created : create p =
      .ok { g := g, chan := List.replicate p.channels.toNat (Channel.fresh p) } := by
    simp only [create, configured, bind, Except.bind, made.accepted.dram, Bool.false_eq_true,
      if_false]
    rfl
  refine ⟨{ g := g, chan := List.replicate p.channels.toNat (Channel.fresh p),
            st := ({} : Stats).request false }, fun Holds fresh => ⟨rfl, rfl, ?_, ?_⟩, ?_⟩
  · rw [List.length_replicate, same]
  · rintro ch ⟨least, most⟩
    rw [same] at most
    simp only [Engine.channel, same, List.getD_eq_getElem?_getD, List.getElem?_replicate]
    rw [if_pos (by omega), Option.getD_some]
    exact fresh ch
  · have some_bytes : ¬ p.granule.toNat = 0 := by
      have granule := compared.granule
      omega
    have first : firstOf g.align 0 = 0 := Nat.zero_and _
    simp only [engineReadPs, created, access, some_bytes, if_false, bind_run, modify_run, get_run,
      made.accepted.dram, Bool.false_eq_true, same, Int.zero_add, made.last compared ordinary,
      first, Nat.zero_mul]
    cases accessTurns fuel (p.ctrlPs.tdiv 2) ((pyBursts p).toNat * g.burstBytes.toNat - 1) false
      fuel 0 (p.ctrlPs.tdiv 2) _ <;> rfl

end Dram

/-- The HyperRAM preset: nothing but the defaults of its fields. -/
def hyperram : Params := { kind := .hyperram }

/-- The override `memsys.py` gives as its example: the two bursts of a granule go to
two channels at once. -/
def twoChannels : Params :=
  { DramPresets.lpddr4 with channels := 2, mapping := ['R', 'o', 'B', 'a', 'C', 'o', 'C', 'h'] }

end HeteroSim.NominalLatency
