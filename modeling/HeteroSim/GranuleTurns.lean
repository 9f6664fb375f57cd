import HeteroSim.BurstDelays

/-!
The turns of the loop of `Engine::access` over the reads of a granule: each takes its burst
to the channel it is decoded to and leaves the other channels alone.
-/

namespace HeteroSim.GranuleTurns

open DramParams DramChannel DramEngine EngineRuns Effect BurstTimetable

variable {s : Stream} {count i : Nat}

theorem present_read (fuel : Nat) (arrive : Int) (addr : Nat) (e : Engine) (empty : e.wq = []) :
    present fuel arrive addr false e = burst fuel arrive addr false e := by
  simp only [present, bind_run, get_run]
  split
  · simp only [queued, drainIdle, bind_run, get_run, empty, List.length_nil, drainTurns, pure,
      EStateM.pure, List.any_nil, Bool.false_eq_true,
      if_false]
  · rfl

theorem presented_turn (fuel turns : Nat) (arrive done : Int) (a last : Nat) (e : Engine)
    (before : a < last) (after : Engine) (dataEnd : Int) (empty : e.wq = [])
    (ran : burst fuel arrive a false { e with trace := .presented a false :: e.trace } =
      .ok dataEnd after) :
    accessTurns fuel arrive last false (turns + 1) a done e =
      accessTurns fuel arrive last false turns ((a + e.g.burstBytes.toNat) % word)
        (max done dataEnd) after := by
  have read := present_read fuel arrive a { e with trace := .presented a false :: e.trace } empty
  rw [ran] at read
  simp only [accessTurns, before, if_true, bind_run, modify_run, get_run]
  rw [read]

theorem burst_stuck {e : Engine} (fuel : Nat) (arrive : Int) (addr : Nat) (w : Bool)
    (ended : (e.channel (decode e.g addr).ch).burst e.g fuel (decode e.g addr) arrive w = none) :
    burst fuel arrive addr w e = .error () e := by
  simp only [burst, bind_run, get_run, ended]
  rfl

/-- How the granule's addresses lie: `count` bursts of at least two bytes. -/
structure Laid (bytes count : Nat) : Prop where
  wide : 2 ≤ bytes
  fits : count * bytes ≤ 2 ^ 63

theorem Laid.before {bytes : Nat} (laid : Laid bytes count) (i : Nat) :
    i * bytes < count * bytes - 1 ↔ i < count := by
  have wide := laid.wide
  constructor
  · intro before
    by_contra after
    have := Nat.mul_le_mul_right bytes (Nat.le_of_not_lt after)
    omega
  · intro before
    have := Nat.mul_le_mul_right bytes (Nat.succ_le_of_lt before)
    rw [Nat.succ_mul] at this
    omega

theorem Laid.next {bytes : Nat} (laid : Laid bytes count) (inside : i < count) :
    (i * bytes + bytes) % word = (i + 1) * bytes := by
  have within := Nat.mul_le_mul_right bytes (Nat.succ_le_of_lt inside)
  have fits := laid.fits
  rw [Nat.succ_mul] at within
  rw [Nat.succ_mul, Nat.mod_eq_of_lt]
  simp only [word]
  omega

/-- The engine between two reads of the granule, its channels being as `Holds` says. -/
structure Reading (g : Config) (Holds : Int → Channel → Prop) (e : Engine) : Prop where
  config : e.g = g
  empty : e.wq = []
  sized : e.chan.length = g.p.channels.toNat
  channel : ∀ ch, 0 ≤ ch ∧ ch < g.p.channels → Holds ch (e.channel ch)

structure Placed (s : Stream) (count : Nat) : Prop where
  laid : Laid s.g.burstBytes.toNat count
  place : ∀ i, s.place i = decode s.g (i * s.g.burstBytes.toNat)
  ranged : ∀ i, InRange s.g.p (s.place i)

theorem Placed.turn (placed : Placed s count) {Holds : Int → Channel → Prop} {e : Engine}
    (reading : Reading s.g Holds e) (inside : i < count) (fuel turns last : Nat)
    (before : i * s.g.burstBytes.toNat < last) (done : Int) :
    (∀ c n pl, (e.channel (s.place i).ch).burst s.g fuel (s.place i) s.start false =
        some (c, n, pl) →
      ∃ after, (∀ Next : Int → Channel → Prop, Next (s.place i).ch c →
          (∀ ch d, ch ≠ (s.place i).ch → Holds ch d → Next ch d) → Reading s.g Next after) ∧
        accessTurns fuel s.start last false (turns + 1) (i * s.g.burstBytes.toNat) done e =
          accessTurns fuel s.start last false turns ((i + 1) * s.g.burstBytes.toNat)
            (max done pl.dataEnd) after) ∧
    ((e.channel (s.place i).ch).burst s.g fuel (s.place i) s.start false = none →
      ∀ finish after, accessTurns fuel s.start last false (turns + 1)
        (i * s.g.burstBytes.toNat) done e ≠ .ok finish after) := by
  obtain ⟨config, empty, sized, held⟩ := reading
  obtain ⟨low, high⟩ := (placed.ranged i).ch
  have place : decode e.g (i * s.g.burstBytes.toNat) = s.place i := by
    rw [config, placed.place i]
  constructor
  · intro c n pl ended
    have planned : (e.channel (decode e.g (i * s.g.burstBytes.toNat)).ch).burst e.g fuel
        (decode e.g (i * s.g.burstBytes.toNat)) s.start false = some (c, n, pl) := by
      rw [place, config]
      exact ended
    have ran := burst_runs (e := { e with
      trace := .presented (i * s.g.burstBytes.toNat) false :: e.trace }) fuel
        s.start _ false planned
    simp only [place] at ran
    have run := presented_turn fuel turns s.start done _ last e before _ _ empty ran
    rw [config, placed.laid.next inside] at run
    refine ⟨_, ?_, run⟩
    refine fun Next next others => ⟨rfl, empty, by simpa using sized, ?_⟩
    rintro ch ⟨least, most⟩
    simp only [Engine.channel, List.getD_eq_getElem?_getD]
    by_cases here : ch = (s.place i).ch
    · rw [here, List.getElem?_set_self (by omega)]
      exact next
    · rw [List.getElem?_set_ne (by omega)]
      have kept := held ch ⟨least, most⟩
      rw [Engine.channel, List.getD_eq_getElem?_getD, config] at kept
      exact others ch _ here kept
  · intro unplanned finish after ended
    have planned : (e.channel (decode e.g (i * s.g.burstBytes.toNat)).ch).burst e.g fuel
        (decode e.g (i * s.g.burstBytes.toNat)) s.start false = none := by
      rw [place, config]
      exact unplanned
    have read := present_read fuel s.start (i * s.g.burstBytes.toNat)
      { e with trace := .presented (i * s.g.burstBytes.toNat) false :: e.trace } empty
    rw [burst_stuck (e := { e with
      trace := .presented (i * s.g.burstBytes.toNat) false :: e.trace }) _ _ _ _ planned] at read
    simp only [accessTurns, before, if_true, bind_run, modify_run, get_run] at ended
    rw [read] at ended
    cases ended

/-- What the first channel is like, when it gets all the reads. -/
def Only (Holds : Channel → Prop) (ch : Int) (c : Channel) : Prop := ch = 0 → Holds c

theorem Reading.only {Holds : Channel → Prop} {e : Engine} (reading : Reading s.g (Only Holds) e)
    (placed : Placed s count) : Holds (e.channel 0) := by
  obtain ⟨low, high⟩ := (placed.ranged 0).ch
  exact reading.channel 0 ⟨Int.le_refl 0, Int.lt_of_le_of_lt low high⟩ rfl

end HeteroSim.GranuleTurns
