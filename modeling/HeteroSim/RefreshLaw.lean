import HeteroSim.BusLaw

/-!
Refresh. A channel's refreshes are due every tREFI and none due at or before a
column command is outstanding when it is committed. A refresh occupies its
window alone: everything committed earlier is over before it starts, everything
committed later begins after it ends.
-/

namespace HeteroSim.RefreshLaw

open DramParams DramChannel ChannelMachine BusLaw

/-- The refresh windows of a history, newest first. -/
def windows : List Event → List (Int × Int)
  | [] => []
  | .burst _ :: older => windows older
  | .refresh start stop :: older => (start, stop) :: windows older

/-- No command and no data beat of `x` falls inside the window. -/
structure Outside (g : Config) (x : Burst) (start stop : Int) : Prop where
  act : x.pl.kind ≠ .hit → ¬ (start ≤ x.pl.act ∧ x.pl.act < stop)
  col : ¬ (start ≤ x.pl.col ∧ x.pl.col < stop)
  data : ∀ beat, OnBus g x beat → ¬ (start ≤ beat ∧ beat < stop)

/-- Two events of a channel: a refresh window excludes everything else. -/
def Exclusive (g : Config) (newer older : Event) : Prop :=
  match newer, older with
  | .burst x, .refresh start stop => Outside g x start stop
  | .refresh start stop, .burst x => Outside g x start stop
  | .refresh start _, .refresh _ stop => stop ≤ start
  | .burst _, .burst _ => True

/-- No refresh due at or before the column command is outstanding. -/
def NoneDue (p : Params) (older : List Event) (x : Burst) : Prop :=
  x.pl.col < p.tREFI * (1 + (windows older).length)

structure Law (g : Config) (c : Channel) : Prop where
  due : c.nextRefresh = g.p.tREFI * (1 + (windows c.log).length)
  noneDue : Throughout (NoneDue g.p) c.log
  exclusive : c.log.Pairwise (Exclusive g)
  early : ∀ x ∈ bursts c.log, x.pl.act ≤ x.pl.col ∧ x.pl.col < c.nextRefresh ∧
    (0 ≤ g.burstPs → x.pl.dataEnd ≤ c.busFree)
  rested : ∀ i, i < c.banks.length → ∀ start stop, Event.refresh start stop ∈ c.log →
    stop ≤ (c.bank i).actOk ∧ (0 ≤ (c.bank i).openRow → stop ≤ (c.bank i).act)

theorem fresh_law (g : Config) : Law g (Channel.fresh g.p) := by
  constructor <;> simp [Channel.fresh, windows, Throughout]

theorem mem_bursts (x : Burst) (log : List Event) : x ∈ bursts log ↔ .burst x ∈ log := by
  induction log with
  | nil => simp
  | cons event older ih =>
      cases event <;> simp [ih]

section Step

variable {g : Config} {c : Channel}

theorem refresh_exclusive (law : Law g c) (banked : 0 < c.banks.length) (event : Event)
    (member : event ∈ c.log) :
    Exclusive g (.refresh (c.refreshWindow g.p).1 (c.refreshWindow g.p).2) event := by
  obtain ⟨started, bus, banks⟩ := window_start (p := g.p) c
  cases event with
  | burst x =>
      obtain ⟨act, col, data⟩ := law.early x ((mem_bursts x c.log).mpr member)
      refine ⟨fun _ => by omega, by omega, ?_⟩
      intro beat onBus
      obtain ⟨first, last⟩ := onBus
      have ended := data (by omega)
      omega
  | refresh start stop =>
      have rested := (law.rested 0 banked start stop member).1
      have ready := (banks _ (bank_mem c 0 banked)).1
      exact Int.le_trans rested ready

theorem refresh_law (on : 0 < g.p.tREFI)
    (banked : 0 < c.banks.length) (law : Law g c) : Law g (c.refreshOnce g.p) := by
  have apart := refresh_exclusive law banked
  obtain ⟨due, noneDue, exclusive, early, rested⟩ := law
  refine ⟨?_, noneDue, List.pairwise_cons.mpr ⟨apart, exclusive⟩, ?_, ?_⟩
  · show c.nextRefresh + g.p.tREFI = _
    rw [due, refresh_log, windows, List.length_cons]
    push_cast
    ring
  · intro x member
    obtain ⟨act, col, data⟩ := early x member
    refine ⟨act, ?_, data⟩
    show x.pl.col < c.nextRefresh + g.p.tREFI
    omega
  · intro i inside start stop member
    have within : i < c.banks.length := by simpa [Channel.refreshOnce] using inside
    rw [refresh_bank c i within]
    refine ⟨?_, fun isOpen => absurd isOpen (by simp)⟩
    rw [refresh_log] at member
    rcases List.mem_cons.mp member with same | old
    · cases same
      exact Int.le_max_right _ _
    · exact Int.le_trans (rested i within start stop old).1 (Int.le_max_left _ _)

variable {k : Coord} {arrive : Int} {w : Bool} {pl : Plan}

theorem burst_after (ranged : InRange g.p k)
    (planned : Planned g c k (max arrive c.order) w pl) (inside : pl.bank < c.banks.length)
    (law : Law g c) (start stop : Int) (member : Event.refresh start stop ∈ c.log) :
    stop ≤ pl.act := by
  obtain ⟨ready, opened⟩ := law.rested pl.bank inside start stop member
  by_cases hit : pl.kind = .hit
  · obtain ⟨sameRow, sameAct⟩ := planned.hit hit
    rw [sameAct]
    exact opened (sameRow ▸ ranged.row)
  · exact Int.le_trans ready (planned.actOk hit)

theorem latency_nonneg (p : Params) (timed : NonNegative p) (w : Bool) : 0 ≤ latency p w := by
  cases w
  · exact timed.tRL
  · exact timed.tWL

theorem commit_law (timed : NonNegative g.p) (on : 0 < g.p.tREFI) (sound : Sound g c)
    (ranged : InRange g.p k) (planned : Planned g c k (max arrive c.order) w pl)
    (before : 0 < g.p.tREFI → pl.col < c.nextRefresh) (law : Law g c) :
    Law g (c.commit g arrive pl w) := by
  have inside := planned_inside sound ranged planned
  have after := burst_after ranged planned inside law
  obtain ⟨due, noneDue, exclusive, early, rested⟩ := law
  have tRCD := timed.tRCD
  have rcd := planned.after
  have col := before on
  have data := planned.data
  have bus := planned.bus
  have lat := latency_nonneg g.p timed w
  refine ⟨?_, ?_, ?_, ?_, ?_⟩
  · rw [commit_nextRefresh, commit_log, windows, due]
  · rw [commit_log]
    refine ⟨?_, noneDue⟩
    show pl.col < _
    rw [← due]
    exact col
  · rw [commit_log]
    refine List.pairwise_cons.mpr ⟨?_, exclusive⟩
    intro event member
    cases event with
    | burst x => trivial
    | refresh start stop =>
        have rest := after start stop member
        refine ⟨fun _ => by simp only; omega, by simp only; omega, ?_⟩
        intro beat onBus
        obtain ⟨first, _⟩ := onBus
        simp only at first
        omega
  · intro x member
    rw [commit_nextRefresh, (commit_mirrors g c arrive pl w).busFree]
    rw [commit_log, bursts_burst] at member
    rcases List.mem_cons.mp member with same | old
    · subst same
      exact ⟨by simp only; omega, col, fun _ => Int.le_refl _⟩
    · obtain ⟨act, earlyCol, ended⟩ := early x old
      refine ⟨act, earlyCol, ?_⟩
      intro nonneg
      have := ended nonneg
      simp only
      omega
  · intro i within start stop member
    have old : Event.refresh start stop ∈ c.log := by simpa using member
    have known : i < c.banks.length := by
      rw [sound.sized.banks]
      rwa [(commit_sized g c arrive pl w sound.sized).banks] at within
    obtain ⟨ready, opened⟩ := rested i known start stop old
    rw [commit_bank g c arrive pl w inside]
    by_cases own : i = pl.bank
    · subst own
      rw [if_pos rfl]
      refine ⟨ready, ?_⟩
      intro isOpen
      by_cases hit : pl.kind = .hit
      · simp only [Bank.served, hit, if_true] at isOpen ⊢
        exact opened isOpen
      · simp only [Bank.served, hit, if_false]
        exact after start stop old
    · rw [if_neg own]
      exact ⟨ready, opened⟩

end Step

theorem channel_law (g : Config) (timed : NonNegative g.p) (on : 0 < g.p.tREFI)
    (banked : 0 < bankCount g.p) (c : Channel) (run : Run g (Channel.fresh g.p) c) : Law g c :=
  (run_law g timed (Law g)
    (fun _ sound _ law => refresh_law on (sound.sized.banks ▸ banked) law)
    (fun _ _ _ _ _ sound ranged planned before law =>
      commit_law timed on sound ranged planned before law)
    c (fresh_law g) run).2

end HeteroSim.RefreshLaw
