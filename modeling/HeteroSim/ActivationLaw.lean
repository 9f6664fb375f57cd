import HeteroSim.ChannelMachine
import HeteroSim.Timeline
import Mathlib.Data.Int.ConditionallyCompleteOrder

/-!
The activation rate of one rank: tRRD between ACTIVATEs and tFAW over any five.
`faw` is the window of the rank's last four ACTIVATEs. `lastAct` is one slot
per channel: with one rank it is always the rank's own last ACTIVATE, with
several it is not, and the rate is kept as long as `Returns` holds.
-/

namespace HeteroSim.ActivationLaw

open DramParams DramChannel ChannelMachine Timeline

def opens (log : List Event) : List Burst :=
  (bursts log).filter fun x => decide (x.pl.kind ≠ .hit)

/-- The ACTIVATE times of a rank, newest first. -/
def actsOf (rank : Int) (log : List Event) : List Int :=
  ((opens log).filter fun x => decide (x.pl.k.ra = rank)).map fun x => x.pl.act

theorem opens_burst (x : Burst) (log : List Event) :
    opens (.burst x :: log) = if x.pl.kind = .hit then opens log else x :: opens log := by
  by_cases hit : x.pl.kind = .hit <;> simp [opens, hit]

theorem actsOf_burst (rank : Int) (x : Burst) (log : List Event) :
    actsOf rank (.burst x :: log) =
      if x.pl.kind ≠ .hit ∧ rank = x.pl.k.ra then x.pl.act :: actsOf rank log
      else actsOf rank log := by
  by_cases hit : x.pl.kind = .hit
  · simp [actsOf, opens_burst, hit]
  · by_cases target : x.pl.k.ra = rank
    · simp [actsOf, opens_burst, hit, target]
    · simp [actsOf, opens_burst, hit, target, Ne.symm target]

@[simp] theorem opens_refresh (start stop : Int) (log : List Event) :
    opens (.refresh start stop :: log) = opens log := rfl

@[simp] theorem actsOf_refresh (rank start stop : Int) (log : List Event) :
    actsOf rank (.refresh start stop :: log) = actsOf rank log := rfl

/-! ### The channel's memory of its ACTIVATEs -/

structure Remembers (g : Config) (c : Channel) : Prop where
  unopened : opens c.log = [] → c.lastActRank < 0
  last : ∀ x, (opens c.log).head? = some x →
    c.lastAct = x.pl.act ∧ c.lastActRank = x.pl.k.ra ∧ c.lastActBg = x.pl.k.bg
  window : ∀ rank, 0 ≤ rank → rank < g.p.ranks → c.acts rank = window 4 (actsOf rank c.log)

theorem fresh_remembers (g : Config) : Remembers g (Channel.fresh g.p) := by
  constructor
  · intro _
    simp [Channel.fresh]
  · simp [Channel.fresh, opens]
  · intro rank _ _
    simp only [Channel.acts, Channel.fresh, List.getD_eq_getElem?_getD,
      List.getElem?_replicate, actsOf, opens, bursts_nil, List.filter_nil, List.map_nil,
      window_nil]
    split <;> rfl

theorem refresh_remembers (g : Config) (c : Channel) (remembers : Remembers g c) :
    Remembers g (c.refreshOnce g.p) :=
  ⟨remembers.unopened, remembers.last, remembers.window⟩

section Commit

variable {g : Config} {c : Channel} {k : Coord} {arrive : Int} {w : Bool} {pl : Plan}

theorem commit_remembers (sound : Sound g c) (ranged : InRange g.p k)
    (planned : Planned g c k (max arrive c.order) w pl) (remembers : Remembers g c) :
    Remembers g (c.commit g arrive pl w) := by
  have inside : 0 ≤ pl.k.ra ∧ pl.k.ra.toNat < c.faw.length := by
    have rank := ranged.ra
    rw [planned.coord, sound.sized.faw]
    omega
  obtain ⟨none, last, window⟩ := remembers
  refine ⟨?_, ?_, ?_⟩
  · intro empty
    rw [commit_log, opens_burst] at empty
    by_cases hit : pl.kind = .hit
    · simpa [Channel.commit, Channel.activate, hit] using none (by simpa [hit] using empty)
    · simp [hit] at empty
  · intro x newest
    rw [commit_log, opens_burst] at newest
    by_cases hit : pl.kind = .hit
    · simpa [Channel.commit, Channel.activate, hit] using last x (by simpa [hit] using newest)
    · simp only [hit, if_false, List.head?_cons, Option.some.injEq] at newest
      subst newest
      simp [Channel.commit, Channel.activate, hit]
  · intro rank low high
    rw [commit_acts g c arrive pl w rank low inside, commit_log, actsOf_burst, window rank low high]
    by_cases own : pl.kind ≠ .hit ∧ rank = pl.k.ra
    · rw [if_pos own, if_pos own]
      exact push_window 4 (by omega) _ _
    · rw [if_neg own, if_neg own]

end Commit

/-! ### The rate -/

structure Paced (p : Params) (acts : List Int) : Prop where
  rrd : Spaced p.tRRD_S acts
  faw : Spans 4 p.tFAW acts

theorem paced_nil (p : Params) : Paced p [] := ⟨spaced_nil _, spans_nil _ _⟩

theorem Paced.cons {p : Params} {acts : List Int} {act : Int} (paced : Paced p acts)
    (nonneg : 0 ≤ p.tRRD_S) (next : ∀ last, acts.head? = some last → last + p.tRRD_S ≤ act)
    (oldest : (window 4 acts).length = 4 → (window 4 acts).headD 0 + p.tFAW ≤ act) :
    Paced p (act :: acts) := by
  refine ⟨paced.rrd.cons nonneg next, paced.faw.cons ?_⟩
  intro older atDepth
  obtain ⟨full, head⟩ := window_head 3 acts older (by simpa using atDepth) 0
  have bound := oldest full
  rwa [head] at bound

theorem Paced.five {p : Params} {acts : List Int} (paced : Paced p acts)
    (nonneg : 0 ≤ p.tRRD_S) (i j : Nat) (newer older : Int) (apart : i + 4 ≤ j)
    (atNewer : acts[i]? = some newer) (atOlder : acts[j]? = some older) :
    older + p.tFAW ≤ newer :=
  paced.faw.far paced.rrd nonneg apart atNewer atOlder

/-- When a burst opens a row, the channel's last ACTIVATE was on the same rank,
or the rank's ACTIVATEs so far are at least tRRD_S before the burst starts. -/
def Returns (p : Params) (older : List Event) (x : Burst) : Prop :=
  Opens older x →
    (∃ last ∈ (opens older).head?, last.pl.k.ra = x.pl.k.ra) ∨
    ∀ act ∈ actsOf x.pl.k.ra older, act + p.tRRD_S ≤ max x.arrive (lastOrder older)

instance (p : Params) (older : List Event) (x : Burst) : Decidable (Returns p older x) :=
  inferInstanceAs (Decidable (_ → _ ∨ _))

theorem planned_act {g : Config} {c : Channel} {k : Coord} {t : Int} {w : Bool} {pl : Plan}
    (timed : NonNegative g.p) (planned : Planned g c k t w pl) (opened : pl.kind ≠ .hit) :
    t ≤ pl.act := by
  have tRP := timed.tRP
  cases kind : pl.kind with
  | hit => exact absurd kind opened
  | miss => exact (planned.miss kind).2.1
  | conflict =>
      obtain ⟨_, start, _, _, precharged⟩ := planned.conflict kind
      omega

theorem actsOf_head (rank : Int) (log : List Event) (last : Burst)
    (newest : (opens log).head? = some last) (own : last.pl.k.ra = rank) :
    (actsOf rank log).head? = some last.pl.act := by
  obtain ⟨rest, split⟩ := List.head?_eq_some_iff.mp newest
  simp [actsOf, split, own]

def Law (g : Config) (c : Channel) : Prop :=
  Remembers g c ∧ (Throughout (Returns g.p) c.log →
    ∀ rank, 0 ≤ rank → rank < g.p.ranks → Paced g.p (actsOf rank c.log))

section Step

variable {g : Config} {c : Channel} {k : Coord} {arrive : Int} {w : Bool} {pl : Plan}

theorem commit_next (timed : NonNegative g.p) (widen : g.p.tRRD_S ≤ g.p.tRRD_L)
    (sound : Sound g c) (planned : Planned g c k (max arrive c.order) w pl)
    (ranged : InRange g.p k) (remembers : Remembers g c) (opened : pl.kind ≠ .hit)
    (returns : Returns g.p c.log ⟨arrive, pl, w⟩) :
    ∀ last, (actsOf k.ra c.log).head? = some last → last + g.p.tRRD_S ≤ pl.act := by
  intro act newest
  rcases returns (planned_opens sound ranged planned opened) with ⟨last, latest, own⟩ | rested
  · obtain ⟨lastAct, lastRank, _⟩ := remembers.last last latest
    have sameRank : last.pl.k.ra = k.ra := own.trans (congrArg Coord.ra planned.coord)
    have rrd := planned.rrd opened (lastRank.trans sameRank)
    rw [actsOf_head k.ra c.log last latest sameRank] at newest
    cases newest
    rw [lastAct] at rrd
    split at rrd <;> omega
  · have early := rested act (by
      rw [show (⟨arrive, pl, w⟩ : Burst).pl.k.ra = k.ra from congrArg Coord.ra planned.coord]
      exact List.mem_of_mem_head? (by rw [newest]; rfl))
    rw [← sound.order] at early
    have started := planned_act timed planned opened
    exact Int.le_trans early started

theorem commit_law (timed : NonNegative g.p) (widen : g.p.tRRD_S ≤ g.p.tRRD_L)
    (sound : Sound g c) (ranged : InRange g.p k)
    (planned : Planned g c k (max arrive c.order) w pl) (law : Law g c) :
    Law g (c.commit g arrive pl w) := by
  obtain ⟨remembers, paced⟩ := law
  refine ⟨commit_remembers sound ranged planned remembers, ?_⟩
  intro throughout rank low high
  rw [commit_log] at throughout
  obtain ⟨returns, before⟩ := throughout
  rw [commit_log, actsOf_burst]
  by_cases own : pl.kind ≠ .hit ∧ rank = pl.k.ra
  · rw [if_pos own]
    obtain ⟨opened, target⟩ := own
    have sameRank : rank = k.ra := target.trans (congrArg Coord.ra planned.coord)
    subst sameRank
    have old := paced before k.ra low high
    refine old.cons timed.tRRD_S
      (commit_next timed widen sound planned ranged remembers opened returns) ?_
    intro full
    have faw := planned.faw opened
    rw [remembers.window k.ra low high] at faw
    exact faw full
  · rw [if_neg own]
    exact paced before rank low high

end Step

theorem channel_law (g : Config) (timed : NonNegative g.p) (widen : g.p.tRRD_S ≤ g.p.tRRD_L)
    (c : Channel) (run : Run g (Channel.fresh g.p) c) : Law g c :=
  (run_law g timed (Law g)
    (fun c _ _ law => ⟨refresh_remembers g c law.1, law.2⟩)
    (fun _ _ _ _ _ sound ranged planned _ law =>
      commit_law timed widen sound ranged planned law)
    c ⟨fresh_remembers g, fun _ _ _ _ => paced_nil g.p⟩ run).2

/-! ### One rank -/

/-- The ACTIVATE times of a channel, newest first. -/
def acts (log : List Event) : List Int := (opens log).map fun x => x.pl.act

theorem opens_mem (log : List Event) (x : Burst) (member : x ∈ opens log) : x ∈ bursts log :=
  (List.mem_filter.mp member).1

theorem one_rank_returns (g : Config) (single : g.p.ranks = 1) (log : List Event)
    (coords : ∀ x ∈ bursts log, InRange g.p x.pl.k) : Throughout (Returns g.p) log := by
  induction log with
  | nil => trivial
  | cons event older ih =>
      cases event with
      | refresh start stop => exact ih coords
      | burst x =>
          have earlier : ∀ y ∈ bursts older, InRange g.p y.pl.k :=
            fun y member => coords y (List.mem_cons_of_mem x member)
          refine ⟨?_, ih earlier⟩
          intro opened
          cases newest : (opens older).head? with
          | none =>
              right
              simp [actsOf, List.head?_eq_none_iff.mp newest]
          | some last =>
              left
              refine ⟨last, rfl, ?_⟩
              have mine := (coords x List.mem_cons_self).ra
              have its := (earlier last (opens_mem older last
                (List.mem_of_mem_head? (by rw [newest]; rfl)))).ra
              omega

theorem one_rank_acts (g : Config) (single : g.p.ranks = 1) (log : List Event)
    (coords : ∀ x ∈ bursts log, InRange g.p x.pl.k) : acts log = actsOf 0 log := by
  have all : (opens log).filter (fun x => decide (x.pl.k.ra = 0)) = opens log := by
    apply List.filter_eq_self.mpr
    intro x member
    have rank := (coords x (opens_mem log x member)).ra
    simp only [decide_eq_true_eq]
    omega
  rw [acts, actsOf, all]

theorem one_rank_law (g : Config) (timed : NonNegative g.p) (widen : g.p.tRRD_S ≤ g.p.tRRD_L)
    (single : g.p.ranks = 1) (c : Channel) (run : Run g (Channel.fresh g.p) c) :
    Paced g.p (acts c.log) := by
  have sound := (run_law g timed (fun _ => True) (fun _ _ _ _ => trivial)
    (fun _ _ _ _ _ _ _ _ _ _ => trivial) c trivial run).1
  rw [one_rank_acts g single c.log sound.coords]
  exact (channel_law g timed widen c run).2
    (one_rank_returns g single c.log sound.coords) 0 (Int.le_refl 0) (by omega)

end HeteroSim.ActivationLaw
