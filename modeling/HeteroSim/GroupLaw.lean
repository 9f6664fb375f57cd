import HeteroSim.BusLaw
import HeteroSim.ActivationLaw

/-!
Bank-group timing. The engine compares a burst with the channel's last column
command and last ACTIVATE only. When these are of the same bank group the
comparison reaches every earlier command of the group; when they are not, an
older command of the group is out of sight, and `Covered` is what has to be
known about it.
-/

namespace HeteroSim.GroupLaw

open DramParams DramChannel ChannelMachine ActivationLaw

def SameGroup (x y : Burst) : Prop := x.pl.k.ra = y.pl.k.ra ∧ x.pl.k.bg = y.pl.k.bg

/-- A column command of direction `w` may follow `older` in its bank group at `time`. -/
structure Rested (p : Params) (w : Bool) (older : Burst) (time : Int) : Prop where
  ccd : older.pl.col + p.tCCD_L ≤ time
  wtr : w = false → older.w = true → older.pl.dataEnd + p.tWTR_L ≤ time
  rtw : p.tRTW_L ≠ 0 → w = true → older.w = false → older.pl.col + p.tRTW_L ≤ time

/-- What a burst owes to an earlier one of its bank group. -/
structure Grouped (p : Params) (newer older : Burst) : Prop where
  col : Rested p newer.w older newer.pl.col
  rrd : newer.pl.kind ≠ .hit → older.pl.kind ≠ .hit → older.pl.act + p.tRRD_L ≤ newer.pl.act

def heldCol (g : Config) (older : List Event) (x : Burst) : Int :=
  let start := max x.arrive (lastOrder older)
  match (bursts older).head? with
  | none => start
  | some last =>
      let bus := max (last.pl.col + g.p.tCCD_S) (last.pl.dataEnd - latency g.p x.w)
      let turn := match x.w, last.w with
        | false, true => last.pl.dataEnd + g.p.tWTR_S
        | true, false => last.pl.col + g.p.tRTW
        | _, _ => start
      max start (max bus turn)

def heldAct (g : Config) (older : List Event) (x : Burst) : Int :=
  let start := max x.arrive (lastOrder older)
  match (opens older).head? with
  | none => start
  | some last =>
      if last.pl.k.ra = x.pl.k.ra then max start (last.pl.act + g.p.tRRD_S) else start

/-- A burst that follows one of another bank group finds the `_L` times of every
earlier command of its own group over by then. -/
structure Covered (g : Config) (older : List Event) (x : Burst) : Prop where
  col : (∀ last ∈ (bursts older).head?, ¬ SameGroup x last) →
    ∀ y ∈ bursts older, SameGroup x y → Rested g.p x.w y (heldCol g older x)
  act : Opens older x → (∀ last ∈ (opens older).head?, ¬ SameGroup x last) →
    ∀ y ∈ opens older, SameGroup x y → y.pl.act + g.p.tRRD_L ≤ heldAct g older x

instance (x y : Burst) : Decidable (SameGroup x y) :=
  inferInstanceAs (Decidable (_ ∧ _))

instance (p : Params) (w : Bool) (older : Burst) (time : Int) :
    Decidable (Rested p w older time) :=
  decidable_of_iff
    (older.pl.col + p.tCCD_L ≤ time ∧
      (w = false → older.w = true → older.pl.dataEnd + p.tWTR_L ≤ time) ∧
      (p.tRTW_L ≠ 0 → w = true → older.w = false → older.pl.col + p.tRTW_L ≤ time))
    ⟨fun ⟨ccd, wtr, rtw⟩ => ⟨ccd, wtr, rtw⟩, fun ⟨ccd, wtr, rtw⟩ => ⟨ccd, wtr, rtw⟩⟩

instance (g : Config) (older : List Event) (x : Burst) : Decidable (Covered g older x) :=
  decidable_of_iff
    (((∀ last ∈ (bursts older).head?, ¬ SameGroup x last) →
        ∀ y ∈ bursts older, SameGroup x y → Rested g.p x.w y (heldCol g older x)) ∧
      (Opens older x → (∀ last ∈ (opens older).head?, ¬ SameGroup x last) →
        ∀ y ∈ opens older, SameGroup x y → y.pl.act + g.p.tRRD_L ≤ heldAct g older x))
    ⟨fun ⟨col, act⟩ => ⟨col, act⟩, fun ⟨col, act⟩ => ⟨col, act⟩⟩

theorem Rested.later {p : Params} {w : Bool} {older : Burst} {time later : Int}
    (rested : Rested p w older time) (delay : time ≤ later) : Rested p w older later :=
  ⟨Int.le_trans rested.ccd delay,
    fun reads writes => Int.le_trans (rested.wtr reads writes) delay,
    fun on writes reads => Int.le_trans (rested.rtw on writes reads) delay⟩

theorem rested_trans (g : Config) (timed : NonNegative g.p) (w : Bool) (middle older : Burst)
    (time : Int) (middleData : BusLaw.Serves g middle) (olderData : BusLaw.Serves g older)
    (near : Rested g.p w middle time) (far : Rested g.p middle.w older middle.pl.col) :
    Rested g.p w older time := by
  have ccd := timed.tCCD_L
  have rtw := timed.tRTW_L
  have nearCcd := near.ccd
  have farCcd := far.ccd
  refine ⟨by omega, ?_, ?_⟩
  · intro reads writes
    cases direction : middle.w
    · have turned := far.wtr direction writes
      omega
    · have turned := near.wtr reads direction
      have later := middleData.data
      have earlier := olderData.data
      rw [direction] at later
      rw [writes] at earlier
      omega
  · intro on writes reads
    cases direction : middle.w
    · have turned := near.rtw on writes direction
      omega
    · have turned := far.rtw on direction reads
      omega

structure Law (g : Config) (c : Channel) : Prop where
  serves : ∀ x ∈ bursts c.log, BusLaw.Serves g x
  remembers : Remembers g c
  grouped : Throughout (Covered g) c.log →
    (bursts c.log).Pairwise fun newer older => SameGroup newer older → Grouped g.p newer older

section Commit

variable {g : Config} {c : Channel} {k : Coord} {arrive : Int} {w : Bool} {pl : Plan}

theorem last_rested (planned : Planned g c k (max arrive c.order) w pl) (last : Burst)
    (mirrors : Mirrors c last) (same : SameGroup ⟨arrive, pl, w⟩ last) :
    Rested g.p w last pl.col := by
  have near : c.sameGroup k = true := by
    simp only [SameGroup, planned.coord] at same
    simp [Channel.sameGroup, mirrors.rank, mirrors.group, same.1, same.2]
  have ccd := planned.ccd
  rw [near, mirrors.lastCol] at ccd
  refine ⟨ccd, ?_, ?_⟩
  · intro reads writes
    have wtr := planned.wtr reads (mirrors.wrote.trans writes)
    rwa [near, mirrors.writeEnd writes] at wtr
  · intro on writes reads
    have rtw := planned.rtw writes (mirrors.wrote.trans reads)
    have both : (c.sameGroup k && g.p.tRTW_L != 0) = true := by simp [near, on]
    rwa [both, mirrors.lastCol] at rtw

theorem heldCol_le (timed : NonNegative g.p) (sound : Sound g c)
    (planned : Planned g c k (max arrive c.order) w pl)
    (apart : ∀ last ∈ (bursts c.log).head?, ¬ SameGroup ⟨arrive, pl, w⟩ last) :
    heldCol g c.log ⟨arrive, pl, w⟩ ≤ pl.col := by
  have started := planned.start timed.tRP timed.tRCD
  have first : max arrive c.order ≤ pl.col := Int.le_trans started (Int.min_le_right _ _)
  rw [sound.order] at first
  simp only [heldCol]
  cases newest : (bursts c.log).head? with
  | none => exact first
  | some last =>
      have mirrors := sound.mirrors last newest
      have far : c.sameGroup k = false := by
        have different := apart last newest
        simp only [SameGroup, planned.coord] at different
        simp only [Channel.sameGroup, mirrors.rank, mirrors.group]
        rw [Bool.eq_false_iff]
        intro both
        simp only [Bool.and_eq_true, beq_iff_eq] at both
        exact different ⟨both.1.symm, both.2.symm⟩
      have ccd := planned.ccd
      have bus := planned.bus
      have wtr := planned.wtr
      have rtw := planned.rtw
      simp only [far, Bool.false_and, Bool.false_eq_true, if_false, mirrors.lastCol,
        mirrors.busFree, mirrors.wrote] at ccd bus wtr rtw
      have columns : max (last.pl.col + g.p.tCCD_S) (last.pl.dataEnd - latency g.p w) ≤ pl.col :=
        by omega
      refine Int.max_le.mpr ⟨first, Int.max_le.mpr ⟨columns, ?_⟩⟩
      cases w <;> cases direction : last.w
      · exact first
      · have turned := wtr rfl direction
        rwa [mirrors.writeEnd direction] at turned
      · exact rtw rfl direction
      · exact first

theorem commit_rested (timed : NonNegative g.p) (sound : Sound g c)
    (planned : Planned g c k (max arrive c.order) w pl) (law : Law g c)
    (before : Throughout (Covered g) c.log) (covered : Covered g c.log ⟨arrive, pl, w⟩)
    (older : Burst) (member : older ∈ bursts c.log) (same : SameGroup ⟨arrive, pl, w⟩ older) :
    Rested g.p w older pl.col := by
  by_cases hidden : ∀ last ∈ (bursts c.log).head?, ¬ SameGroup ⟨arrive, pl, w⟩ last
  · exact (covered.col hidden older member same).later (heldCol_le timed sound planned hidden)
  · simp only [Option.mem_def, not_forall, not_not] at hidden
    obtain ⟨last, newest, grouped⟩ := hidden
    have near := last_rested planned last (sound.mirrors last newest) grouped
    obtain ⟨rest, split⟩ := List.head?_eq_some_iff.mp newest
    have pairs := law.grouped before
    have serves := law.serves
    rw [split] at member pairs serves
    rcases List.mem_cons.mp member with itself | earlier
    · exact itself ▸ near
    · have together : SameGroup last older :=
        ⟨grouped.1.symm.trans same.1, grouped.2.symm.trans same.2⟩
      exact rested_trans g timed w last older pl.col (serves last List.mem_cons_self)
        (serves older member) near
        ((List.pairwise_cons.mp pairs).1 older earlier together).col

theorem heldAct_le (timed : NonNegative g.p) (sound : Sound g c)
    (planned : Planned g c k (max arrive c.order) w pl) (remembers : Remembers g c)
    (opened : pl.kind ≠ .hit)
    (apart : ∀ last ∈ (opens c.log).head?, ¬ SameGroup ⟨arrive, pl, w⟩ last) :
    heldAct g c.log ⟨arrive, pl, w⟩ ≤ pl.act := by
  have first := planned_act timed planned opened
  rw [sound.order] at first
  simp only [heldAct]
  cases newest : (opens c.log).head? with
  | none => exact first
  | some last =>
      obtain ⟨lastAct, lastRank, lastBg⟩ := remembers.last last newest
      have different := apart last newest
      simp only [SameGroup, planned.coord] at different
      simp only [planned.coord]
      split
      next sameRank =>
        have rrd := planned.rrd opened (lastRank.trans sameRank)
        rw [lastBg, lastAct, if_neg (fun group => different ⟨sameRank.symm, group.symm⟩)] at rrd
        exact Int.max_le.mpr ⟨first, rrd⟩
      next => exact first

theorem commit_rrd (timed : NonNegative g.p) (sound : Sound g c) (ranged : InRange g.p k)
    (planned : Planned g c k (max arrive c.order) w pl) (law : Law g c)
    (before : Throughout (Covered g) c.log) (covered : Covered g c.log ⟨arrive, pl, w⟩)
    (opened : pl.kind ≠ .hit) (older : Burst) (member : older ∈ opens c.log)
    (same : SameGroup ⟨arrive, pl, w⟩ older) : older.pl.act + g.p.tRRD_L ≤ pl.act := by
  have nonneg := timed.tRRD_L
  by_cases hidden : ∀ last ∈ (opens c.log).head?, ¬ SameGroup ⟨arrive, pl, w⟩ last
  · have rested := covered.act (planned_opens sound ranged planned opened) hidden older member same
    exact Int.le_trans rested (heldAct_le timed sound planned law.remembers opened hidden)
  · simp only [Option.mem_def, not_forall, not_not] at hidden
    obtain ⟨last, newest, grouped⟩ := hidden
    obtain ⟨lastAct, lastRank, lastBg⟩ := law.remembers.last last newest
    have sameRank : last.pl.k.ra = k.ra := by rw [← planned.coord]; exact grouped.1.symm
    have sameBg : last.pl.k.bg = k.bg := by rw [← planned.coord]; exact grouped.2.symm
    have near := planned.rrd opened (lastRank.trans sameRank)
    rw [if_pos (lastBg.trans sameBg), lastAct] at near
    obtain ⟨rest, split⟩ := List.head?_eq_some_iff.mp newest
    have pairs : (opens c.log).Pairwise fun newer older =>
        SameGroup newer older → Grouped g.p newer older :=
      (law.grouped before).sublist List.filter_sublist
    have isOpen : ∀ x ∈ opens c.log, x.pl.kind ≠ .hit := by
      intro x inside
      simpa using (List.mem_filter.mp inside).2
    rw [split] at member pairs isOpen
    rcases List.mem_cons.mp member with itself | earlier
    · exact itself ▸ near
    · have together : SameGroup last older :=
        ⟨grouped.1.symm.trans same.1, grouped.2.symm.trans same.2⟩
      have far := ((List.pairwise_cons.mp pairs).1 older earlier together).rrd
        (isOpen last List.mem_cons_self) (isOpen older member)
      omega

theorem commit_law (timed : NonNegative g.p) (sound : Sound g c) (ranged : InRange g.p k)
    (planned : Planned g c k (max arrive c.order) w pl) (law : Law g c) :
    Law g (c.commit g arrive pl w) := by
  refine ⟨?_, commit_remembers sound ranged planned law.remembers, ?_⟩
  · intro x member
    simp only [commit_log, bursts_burst, List.mem_cons] at member
    rcases member with same | old
    · exact same ▸ BusLaw.commit_serves timed planned
    · exact law.serves x old
  · rw [commit_log, bursts_burst]
    rintro ⟨covered, before⟩
    refine List.pairwise_cons.mpr ⟨?_, law.grouped before⟩
    intro older member same
    refine ⟨commit_rested timed sound planned law before covered older member same, ?_⟩
    intro opened wasOpened
    exact commit_rrd timed sound ranged planned law before covered opened older
      (List.mem_filter.mpr ⟨member, by simpa using wasOpened⟩) same

end Commit

/-- On every reachable channel whose bursts are all covered, commands of one bank
group keep its `_L` timings, however far apart they were issued. -/
theorem channel_law (g : Config) (timed : NonNegative g.p) (c : Channel)
    (run : Run g (Channel.fresh g.p) c) : Law g c :=
  (run_law g timed (Law g)
    (fun c _ _ law => ⟨law.serves, refresh_remembers g c law.remembers, law.grouped⟩)
    (fun _ _ _ _ _ sound ranged planned _ law => commit_law timed sound ranged planned law)
    c ⟨by simp [Channel.fresh], fresh_remembers g, by simp [Channel.fresh]⟩ run).2

end HeteroSim.GroupLaw
