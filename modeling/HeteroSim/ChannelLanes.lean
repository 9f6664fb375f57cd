import HeteroSim.GranuleTurns
import Mathlib.Data.List.Infix

/-!
The reads of a granule that the mapping sends to several channels. Each channel serves its
own reads one gap apart, so the last data are there before a single channel would have them.
-/

namespace HeteroSim.ChannelLanes

open DramParams DramChannel DramEngine EngineRuns Effect BurstTimetable BurstStream
open GranuleTurns

/-- Which of the first `count` reads go to the channel `ch`. -/
def onChannel (s : Stream) (count : Nat) (ch : Int) : List Nat :=
  (List.range count).filter fun i => decide ((s.place i).ch = ch)

/-- The reads of one channel, one gap apart as if there were no others. -/
def lane (s : Stream) (count : Nat) (ch : Int) : Stream :=
  { s with place := fun j => s.place ((onChannel s count ch).getD j 0) }

variable {s : Stream} {count i : Nat}

/-- A channel that does not get all the reads gets fewer. -/
theorem onChannel_fewer {ch : Int} (inside : i < count) (elsewhere : (s.place i).ch ≠ ch) :
    (onChannel s count ch).length < count := by
  have fewer := List.length_filter_lt_length_iff_exists.mpr
    (⟨i, List.mem_range.mpr inside, by simpa using elsewhere⟩ :
      ∃ x ∈ List.range count, ¬ decide ((s.place x).ch = ch) = true)
  rwa [List.length_range] at fewer

/-- The reads go to more than one channel, and each of these keeps to the gap. -/
structure Spread (s : Stream) (count : Nat) : Prop where
  apart : ∃ i, i < count ∧ (s.place i).ch ≠ (s.place 0).ch
  paced : ∀ ch, 0 ≤ ch ∧ ch < s.g.p.channels →
    Paced (lane s count ch) (onChannel s count ch).length
  kept : ∀ ch, 0 ≤ ch ∧ ch < s.g.p.channels →
    (lane s count ch).Kept (onChannel s count ch).length

theorem Spread.two (spread : Spread s count) : 2 ≤ count := by
  obtain ⟨i, inside, apart⟩ := spread.apart
  have later : i ≠ 0 := fun first => apart (by rw [first])
  omega

theorem Spread.fewer (spread : Spread s count) (ch : Int) :
    (onChannel s count ch).length < count := by
  obtain ⟨i, inside, apart⟩ := spread.apart
  by_cases first : (s.place 0).ch = ch
  · exact onChannel_fewer inside (by rwa [← first])
  · exact onChannel_fewer (i := 0) (by omega) first

end HeteroSim.ChannelLanes
