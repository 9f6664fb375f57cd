import HeteroSim.ChannelMachine

/-!
The commands of one bank. `Lawful` is the bank's protocol on its own command
history: which row is open, and how long each command waits after the earlier
ones. The engine keeps four numbers per bank; `Tracks` says what they remember
of that history, through conflicts, refreshes and skipped refreshes alike.
-/

namespace HeteroSim.BankLaw

open DramParams DramChannel ChannelMachine

inductive Cmd where
  | act (row time : Int)
  | pre (time : Int)
  | rd (row time : Int)
  | wr (row time dataEnd : Int)
  | refresh (start stop : Int)

def opened : List Cmd → Option (Int × Int)
  | [] => none
  | .act row time :: _ => some (row, time)
  | .pre _ :: _ => none
  | .refresh _ _ :: _ => none
  | .rd _ _ :: older => opened older
  | .wr _ _ _ :: older => opened older

/-- The open bank may be precharged at `time`. -/
structure Recovered (p : Params) (older : List Cmd) (time : Int) : Prop where
  tRAS : ∀ row act, opened older = some (row, act) → act + p.tRAS ≤ time
  tRTP : ∀ row read, Cmd.rd row read ∈ older → read + p.tRTP ≤ time
  tWR : ∀ row write dataEnd, Cmd.wr row write dataEnd ∈ older →
    dataEnd + (p.tCK + p.tWR) ≤ time

/-- A closed bank may be activated at `time`. -/
structure Rested (p : Params) (older : List Cmd) (time : Int) : Prop where
  closed : opened older = none
  tRC : ∀ row act, Cmd.act row act ∈ older → act + p.tRC ≤ time
  tRP : ∀ pre, Cmd.pre pre ∈ older → pre + p.tRP ≤ time
  tRFC : ∀ start stop, Cmd.refresh start stop ∈ older → stop ≤ time

/-- What the bank's protocol asks of a command, given the earlier ones. A
refresh precharges the bank at its start if it is open. -/
def Allowed (p : Params) (older : List Cmd) : Cmd → Prop
  | .rd row time => ∃ act, opened older = some (row, act) ∧ act + p.tRCD ≤ time
  | .wr row time _ => ∃ act, opened older = some (row, act) ∧ act + p.tRCD ≤ time
  | .act _ time => Rested p older time
  | .pre time => opened older ≠ none ∧ Recovered p older time
  | .refresh start _ => opened older ≠ none → Recovered p older start

def Lawful (p : Params) : List Cmd → Prop
  | [] => True
  | cmd :: older => Allowed p older cmd ∧ Lawful p older

def burstCmds (x : Burst) : List Cmd :=
  (if x.w then .wr x.pl.k.row x.pl.col x.pl.dataEnd else .rd x.pl.k.row x.pl.col) ::
    match x.pl.kind with
    | .hit => []
    | .miss => [.act x.pl.k.row x.pl.act]
    | .conflict => [.act x.pl.k.row x.pl.act, .pre x.pl.firstCmd]

/-- The commands a bank has seen. -/
def commandsOf (bank : Nat) : List Event → List Cmd
  | [] => []
  | .burst x :: older =>
      if bank = x.pl.bank then burstCmds x ++ commandsOf bank older else commandsOf bank older
  | .refresh start stop :: older => .refresh start stop :: commandsOf bank older

structure Tracks (p : Params) (b : Bank) (cmds : List Cmd) : Prop where
  opened : opened cmds = if 0 ≤ b.openRow then some (b.openRow, b.act) else none
  acts : ∀ row act, Cmd.act row act ∈ cmds → act ≤ b.act
  pres : ∀ pre, Cmd.pre pre ∈ cmds → pre + p.tRP ≤ b.act
  reads : ∀ row read, Cmd.rd row read ∈ cmds → read + p.tRTP ≤ b.preOk
  writes : ∀ row write dataEnd, Cmd.wr row write dataEnd ∈ cmds →
    dataEnd + (p.tCK + p.tWR) ≤ b.preOk
  refreshes : ∀ start stop, Cmd.refresh start stop ∈ cmds → stop ≤ b.actOk

theorem tracks_nil (p : Params) : Tracks p {} [] := by
  constructor <;> simp [BankLaw.opened]

section Commands

variable {p : Params} {b : Bank} {cmds : List Cmd}

theorem Tracks.recovered (tracks : Tracks p b cmds) (time : Int) (row : b.act + p.tRAS ≤ time)
    (pre : b.preOk ≤ time) : Recovered p cmds time := by
  constructor
  · intro line act found
    rw [tracks.opened] at found
    split at found
    · cases found
      exact row
    · cases found
  · intro line read member
    exact Int.le_trans (tracks.reads line read member) pre
  · intro line write dataEnd member
    exact Int.le_trans (tracks.writes line write dataEnd member) pre

/-- `older` is the bank's history, possibly with the precharge of the conflict
that an ACTIVATE at `time` resolves. -/
def Precharged (p : Params) (cmds older : List Cmd) (time : Int) : Prop :=
  ∀ cmd ∈ older, cmd ∈ cmds ∨ ∃ pre, cmd = .pre pre ∧ pre + p.tRP ≤ time

theorem Tracks.rested (tracks : Tracks p b cmds) (tRC : 0 ≤ p.tRC) (older : List Cmd)
    (time : Int) (past : Precharged p cmds older time) (closed : BankLaw.opened older = none)
    (row : b.act + p.tRC ≤ time) (ready : b.actOk ≤ time) : Rested p older time := by
  refine ⟨closed, ?_, ?_, ?_⟩
  · intro line act member
    rcases past _ member with old | ⟨pre, same, _⟩
    · have := tracks.acts line act old
      omega
    · cases same
  · intro pre member
    rcases past _ member with old | ⟨last, same, precharged⟩
    · have := tracks.pres pre old
      omega
    · cases same
      exact precharged
  · intro start stop member
    rcases past _ member with old | ⟨pre, same, _⟩
    · exact Int.le_trans (tracks.refreshes start stop old) ready
    · cases same

theorem Tracks.activated (tracks : Tracks p b cmds) (older : List Cmd) (row time : Int)
    (past : Precharged p cmds older time) (known : 0 ≤ row) (later : b.act ≤ time) :
    Tracks p { b with openRow := row, act := time } (.act row time :: older) := by
  have carried : ∀ cmd, (∀ pre, cmd ≠ Cmd.pre pre) → cmd ∈ older → cmd ∈ cmds := by
    intro cmd notPre member
    rcases past cmd member with old | ⟨pre, same, _⟩
    · exact old
    · exact absurd same (notPre pre)
  refine ⟨?_, ?_, ?_, ?_, ?_, ?_⟩
  · simp [BankLaw.opened, known]
  · intro line act member
    rcases List.mem_cons.mp member with same | old
    · cases same
      exact Int.le_refl _
    · exact Int.le_trans (tracks.acts line act (carried _ (by simp) old)) later
  · intro pre member
    have old : Cmd.pre pre ∈ older := by simpa using member
    rcases past _ old with earlier | ⟨last, same, precharged⟩
    · exact Int.le_trans (tracks.pres pre earlier) later
    · cases same
      exact precharged
  · intro line read member
    exact tracks.reads line read (carried _ (by simp) (by simpa using member))
  · intro line write dataEnd member
    exact tracks.writes line write dataEnd (carried _ (by simp) (by simpa using member))
  · intro start stop member
    exact tracks.refreshes start stop (carried _ (by simp) (by simpa using member))

theorem Tracks.accessed (tracks : Tracks p b cmds) (w : Bool) (row time dataEnd : Int) :
    Tracks p
      { b with preOk := max b.preOk (if w then dataEnd + p.tCK + p.tWR else time + p.tRTP) }
      ((if w then .wr row time dataEnd else .rd row time) :: cmds) := by
  cases w <;> refine ⟨?_, ?_, ?_, ?_, ?_, ?_⟩
  · simpa [BankLaw.opened] using tracks.opened
  · simpa using tracks.acts
  · simpa using tracks.pres
  · intro line read member
    simp only [Bool.false_eq_true, if_false, List.mem_cons, Cmd.rd.injEq] at member ⊢
    rcases member with same | old
    · omega
    · have := tracks.reads line read old
      omega
  · intro line write stop member
    have := tracks.writes line write stop (by simpa using member)
    simp only
    omega
  · simpa using tracks.refreshes
  · simpa [BankLaw.opened] using tracks.opened
  · simpa using tracks.acts
  · simpa using tracks.pres
  · intro line read member
    have := tracks.reads line read (by simpa using member)
    simp only
    omega
  · intro line write stop member
    simp only [if_true, List.mem_cons, Cmd.wr.injEq] at member ⊢
    rcases member with same | old
    · omega
    · have := tracks.writes line write stop old
      omega
  · simpa using tracks.refreshes

theorem Tracks.refreshed (tracks : Tracks p b cmds) (start stop : Int) :
    Tracks p { b with openRow := -1, actOk := max b.actOk stop }
      (.refresh start stop :: cmds) := by
  refine ⟨by simp [BankLaw.opened], ?_, ?_, ?_, ?_, ?_⟩
  · simpa using tracks.acts
  · simpa using tracks.pres
  · simpa using tracks.reads
  · simpa using tracks.writes
  · intro first last member
    rcases List.mem_cons.mp member with same | old
    · cases same
      exact Int.le_max_right _ _
    · exact Int.le_trans (tracks.refreshes first last old) (Int.le_max_left _ _)

end Commands

/-! ### One step of the channel -/

section Commit

variable {g : Config} {c : Channel} {k : Coord} {arrive : Int} {w : Bool} {pl : Plan}

theorem burst_opens (timed : NonNegative g.p) (ranged : InRange g.p k) (cmds : List Cmd)
    (planned : Planned g c k (max arrive c.order) w pl)
    (tracks : Tracks g.p (c.bank pl.bank) cmds) (lawful : Lawful g.p cmds) :
    ∃ rows, burstCmds ⟨arrive, pl, w⟩ ++ cmds =
        (if w then .wr pl.k.row pl.col pl.dataEnd else .rd pl.k.row pl.col) :: rows ∧
      BankLaw.opened rows = some (pl.k.row, pl.act) ∧ Lawful g.p rows ∧
      Tracks g.p { c.bank pl.bank with
        openRow := if pl.kind = .hit then (c.bank pl.bank).openRow else pl.k.row
        act := if pl.kind = .hit then (c.bank pl.bank).act else pl.act } rows := by
  have tRC := timed.tRC
  have row : pl.k.row = k.row := congrArg Coord.row planned.coord
  have known : 0 ≤ pl.k.row := row ▸ ranged.row
  cases kind : pl.kind with
  | hit =>
      obtain ⟨sameRow, sameAct⟩ := planned.hit kind
      refine ⟨cmds, by simp [burstCmds, kind], ?_, lawful, by simpa using tracks⟩
      rw [tracks.opened, sameRow, if_pos ranged.row, row, sameAct]
  | miss =>
      obtain ⟨closed, _⟩ := planned.miss kind
      have opens : pl.kind ≠ .hit := by simp [kind]
      have cycle := planned.rowCycle opens
      have past : Precharged g.p cmds cmds pl.act := fun _ member => Or.inl member
      have nothing : BankLaw.opened cmds = none := by
        rw [tracks.opened, if_neg (by omega)]
      exact ⟨.act pl.k.row pl.act :: cmds, by simp [burstCmds, kind], rfl,
        ⟨tracks.rested tRC cmds _ past nothing cycle (planned.actOk opens), lawful⟩,
        tracks.activated cmds pl.k.row pl.act past known (by omega)⟩
  | conflict =>
      obtain ⟨isOpen, _, tRAS, recovery, precharged⟩ := planned.conflict kind
      have opens : pl.kind ≠ .hit := by simp [kind]
      have cycle := planned.rowCycle opens
      have past : Precharged g.p cmds (.pre pl.firstCmd :: cmds) pl.act := by
        intro cmd member
        rcases List.mem_cons.mp member with same | old
        · exact Or.inr ⟨pl.firstCmd, same, precharged⟩
        · exact Or.inl old
      have wasOpen : BankLaw.opened cmds ≠ none := by
        rw [tracks.opened, if_pos isOpen]
        simp
      exact ⟨.act pl.k.row pl.act :: .pre pl.firstCmd :: cmds, by simp [burstCmds, kind], rfl,
        ⟨tracks.rested tRC _ _ past rfl cycle (planned.actOk opens),
          ⟨wasOpen, tracks.recovered _ tRAS recovery⟩, lawful⟩,
        tracks.activated _ pl.k.row pl.act past known (by omega)⟩

def Law (g : Config) (c : Channel) : Prop :=
  ∀ i, i < c.banks.length →
    Tracks g.p (c.bank i) (commandsOf i c.log) ∧ Lawful g.p (commandsOf i c.log)

theorem fresh_law (g : Config) : Law g (Channel.fresh g.p) := by
  intro i _
  rw [fresh_bank]
  exact ⟨tracks_nil g.p, trivial⟩

theorem refresh_law (g : Config) (c : Channel) (law : Law g c) :
    Law g (c.refreshOnce g.p) := by
  intro i inside
  have within : i < c.banks.length := by simpa [Channel.refreshOnce] using inside
  obtain ⟨tracks, lawful⟩ := law i within
  rw [refresh_bank c i within, refresh_log]
  refine ⟨tracks.refreshed _ _, ?_, lawful⟩
  intro wasOpen
  have isOpen : 0 ≤ (c.bank i).openRow := by
    by_contra closed
    exact wasOpen (by rw [tracks.opened, if_neg closed])
  obtain ⟨_, _, banks⟩ := window_start (p := g.p) c
  obtain ⟨_, recovery⟩ := banks _ (bank_mem c i within)
  exact tracks.recovered _ (recovery isOpen).1 (recovery isOpen).2

theorem commit_law (timed : NonNegative g.p) (sound : Sound g c) (ranged : InRange g.p k)
    (planned : Planned g c k (max arrive c.order) w pl) (law : Law g c) :
    Law g (c.commit g arrive pl w) := by
  have target := planned_inside sound ranged planned
  intro i inside
  have within : i < c.banks.length := by
    rw [sound.sized.banks]
    rwa [(commit_sized g c arrive pl w sound.sized).banks] at inside
  obtain ⟨tracks, lawful⟩ := law i within
  rw [commit_bank g c arrive pl w target, commit_log, commandsOf]
  by_cases own : i = pl.bank
  · rw [if_pos own, if_pos own]
    subst own
    obtain ⟨rows, split, isOpen, before, activated⟩ :=
      burst_opens timed ranged _ planned tracks lawful
    rw [split]
    refine ⟨activated.accessed w pl.k.row pl.col pl.dataEnd, ?_, before⟩
    cases w <;> exact ⟨pl.act, isOpen, planned.after⟩
  · rw [if_neg own, if_neg own]
    exact ⟨tracks, lawful⟩

end Commit

theorem channel_law (g : Config) (timed : NonNegative g.p) (c : Channel)
    (run : Run g (Channel.fresh g.p) c) : Sound g c ∧ Law g c :=
  run_law g timed (Law g) (fun c _ _ law => refresh_law g c law)
    (fun _ _ _ _ _ sound ranged planned _ law => commit_law timed sound ranged planned law)
    c (fresh_law g) run

end HeteroSim.BankLaw
