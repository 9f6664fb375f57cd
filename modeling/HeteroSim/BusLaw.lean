import HeteroSim.ChannelMachine

/-!
The data bus and the order of commands on one channel. The engine compares a
burst with the last one only; `Follows` is what that comparison establishes, it
is transitive, and so it holds between a burst and every earlier one.
-/

namespace HeteroSim.BusLaw

open DramParams DramChannel ChannelMachine

/-- The instants at which a burst's data is on the bus. -/
def OnBus (g : Config) (x : Burst) (time : Int) : Prop :=
  x.pl.dataEnd - g.burstPs ≤ time ∧ time < x.pl.dataEnd

/-- What a burst owes to an earlier one of its channel. -/
structure Follows (g : Config) (newer older : Burst) : Prop where
  window : 0 ≤ g.burstPs → older.pl.dataEnd ≤ newer.pl.dataEnd - g.burstPs
  order : older.pl.order ≤ newer.pl.order
  ccd : older.pl.col + g.p.tCCD_S ≤ newer.pl.col
  wtr : newer.w = false → older.w = true →
    older.pl.dataEnd + g.p.tWTR_S ≤ newer.pl.col
  rtw : newer.w = true → older.w = false → older.pl.col + g.p.tRTW ≤ newer.pl.col

/-- What a burst owes to its own request. -/
structure Serves (g : Config) (x : Burst) : Prop where
  arrival : x.arrive ≤ x.pl.order
  data : x.pl.dataEnd - g.burstPs = x.pl.col + latency g.p x.w

theorem Follows.on_bus {g : Config} {newer older : Burst} (follows : Follows g newer older)
    (s t : Int) (first : OnBus g older s) (second : OnBus g newer t) : s < t := by
  obtain ⟨_, before⟩ := first
  obtain ⟨started, ended⟩ := second
  have window := follows.window (by omega)
  omega

theorem follows_trans (g : Config) (timed : NonNegative g.p) (newer middle older : Burst)
    (middleServes : Serves g middle) (olderServes : Serves g older)
    (first : Follows g newer middle) (second : Follows g middle older) :
    Follows g newer older := by
  have ccd := timed.tCCD_S
  have near := first.ccd
  have far := second.ccd
  refine ⟨?_, Int.le_trans second.order first.order, by omega, ?_, ?_⟩
  · intro nonneg
    have := first.window nonneg
    have := second.window nonneg
    omega
  · intro reads writes
    cases direction : middle.w
    · have := second.wtr direction writes
      omega
    · have turn := first.wtr reads direction
      have later := middleServes.data
      have earlier := olderServes.data
      rw [direction] at later
      rw [writes] at earlier
      omega
  · intro writes reads
    cases direction : middle.w
    · have := first.rtw writes direction
      omega
    · have := second.rtw direction reads
      omega

structure Law (g : Config) (c : Channel) : Prop where
  serves : ∀ x ∈ bursts c.log, Serves g x
  follows : (bursts c.log).Pairwise (Follows g)
  busy : (bursts c.log).length * g.burstPs ≤ c.busFree

theorem fresh_law (g : Config) : Law g (Channel.fresh g.p) := by
  constructor <;> simp [Channel.fresh]

theorem refresh_law (g : Config) (c : Channel) (law : Law g c) :
    Law g (c.refreshOnce g.p) := by
  obtain ⟨serves, follows, busy⟩ := law
  constructor
  · simpa using serves
  · simpa using follows
  · exact busy

section Commit

variable {g : Config} {c : Channel} {k : Coord} {arrive : Int} {w : Bool} {pl : Plan}

theorem commit_serves (timed : NonNegative g.p)
    (planned : Planned g c k (max arrive c.order) w pl) : Serves g ⟨arrive, pl, w⟩ := by
  have started := planned.start timed.tRP timed.tRCD
  have data := planned.data
  constructor <;> simp only <;> omega

theorem commit_follows (timed : NonNegative g.p) (widen : GroupsWiden g.p)
    (turnaround : g.p.tRTW_L = 0 ∨ g.p.tRTW ≤ g.p.tRTW_L)
    (planned : Planned g c k (max arrive c.order) w pl) (last : Burst)
    (mirrors : Mirrors c last) : Follows g ⟨arrive, pl, w⟩ last := by
  have started := planned.start timed.tRP timed.tRCD
  have data := planned.data
  have bus := planned.bus
  have ccd := planned.ccd
  have wideCcd := widen.tCCD
  have wideWtr := widen.tWTR
  rw [mirrors.busFree] at bus
  rw [mirrors.lastCol] at ccd
  rw [mirrors.order] at started
  constructor
  · intro _
    simp only
    omega
  · simp only
    omega
  · simp only
    split at ccd <;> omega
  · intro reads writes
    have wtr := planned.wtr reads (mirrors.wrote.trans writes)
    rw [mirrors.writeEnd writes] at wtr
    simp only
    split at wtr <;> omega
  · intro writes reads
    have rtw := planned.rtw writes (mirrors.wrote.trans reads)
    rw [mirrors.lastCol] at rtw
    simp only
    split at rtw
    · rename_i grouped
      simp only [Bool.and_eq_true, bne_iff_ne] at grouped
      omega
    · omega

theorem commit_law (timed : NonNegative g.p) (widen : GroupsWiden g.p)
    (turnaround : g.p.tRTW_L = 0 ∨ g.p.tRTW ≤ g.p.tRTW_L) (sound : Sound g c)
    (planned : Planned g c k (max arrive c.order) w pl) (law : Law g c) :
    Law g (c.commit g arrive pl w) := by
  obtain ⟨serves, follows, busy⟩ := law
  have own := commit_serves timed planned
  refine ⟨?_, ?_, ?_⟩
  · intro x member
    simp only [commit_log, bursts_burst, List.mem_cons] at member
    rcases member with same | old
    · exact same ▸ own
    · exact serves x old
  · rw [commit_log, bursts_burst]
    refine List.pairwise_cons.mpr ⟨?_, follows⟩
    cases history : bursts c.log with
    | nil => simp
    | cons last rest =>
        have next := commit_follows timed widen turnaround planned last
          (sound.mirrors last (by rw [history]; rfl))
        rw [history] at follows serves
        intro older member
        rcases List.mem_cons.mp member with same | earlier
        · exact same ▸ next
        · exact follows_trans g timed _ last older (serves last List.mem_cons_self)
            (serves older member) next ((List.pairwise_cons.mp follows).1 older earlier)
  · rw [(commit_mirrors g c arrive pl w).busFree, commit_log, bursts_burst, List.length_cons]
    have bus := planned.bus
    have data := planned.data
    push_cast
    rw [Int.add_mul]
    omega

end Commit

theorem channel_law (g : Config) (timed : NonNegative g.p) (widen : GroupsWiden g.p)
    (turnaround : g.p.tRTW_L = 0 ∨ g.p.tRTW ≤ g.p.tRTW_L) (c : Channel)
    (run : Run g (Channel.fresh g.p) c) : Law g c :=
  (run_law g timed (Law g) (fun c _ _ law => refresh_law g c law)
    (fun _ _ _ _ _ sound _ planned _ law => commit_law timed widen turnaround sound planned law)
    c (fresh_law g) run).2

end HeteroSim.BusLaw
