import HeteroSim.ReplanLoop

/-!
Which bursts an access presents. `for (a = first; a < last; a += burst_bytes)` runs up to
the last byte of the last granule, and its counter wraps: it presents the bursts of the
access unless a burst is a single byte or the access touches the last granule there is.
What a burst then does is the controller's affair, which answers it if its loops end.
-/

namespace HeteroSim.AccessLoop

open DramParams DramChannel ChannelMachine DramEngine EngineRuns Effect
open CombiningQueue (presented)

/-! ### The bursts of an access -/

/-- The first byte of the granule of `addr`. -/
def firstByte (g : Config) (addr : Nat) : Nat := addr / g.align.toNat * g.align.toNat

/-- The last byte of the granule of the last byte asked for. -/
def lastByte (g : Config) (addr size : Nat) : Nat :=
  (addr + size - 1) / g.align.toNat * g.align.toNat + (g.align.toNat - 1)

def Covers (g : Config) (addr size a : Nat) : Prop :=
  firstByte g addr ≤ a ∧ a ≤ lastByte g addr size ∧ g.burstBytes.toNat ∣ a

/-- The access ends, having presented the bursts it covers in increasing order and no
others. -/
def Times (e : Engine) (now : Int) (addr size : Nat) (w : Bool) : Prop :=
  ∃ done after, ∃ addrs : List Nat, Returns (fun fuel => access fuel now addr size w) e done after ∧
    presented after.trace = (addrs.map fun a => (a, w)).reverse ++ presented e.trace ∧
    addrs.Pairwise (· < ·) ∧ ∀ a, a ∈ addrs ↔ Covers e.g addr size a

def serveBursts (fuel : Nat) (arrive : Int) (w : Bool) : List Nat → Int → Op Int
  | [], done => return done
  | a :: rest, done => do
      modify fun e => { e with trace := .presented a w :: e.trace }
      let dataEnd ← present fuel arrive a w
      serveBursts fuel arrive w rest (max done dataEnd)

/-- How many bursts the access covers, and which. -/
def burstCount (g : Config) (addr size : Nat) : Nat :=
  (lastByte g addr size + 1 - firstByte g addr) / g.burstBytes.toNat

def covered (g : Config) (addr size : Nat) : List Nat :=
  List.range' (firstByte g addr) (burstCount g addr size) g.burstBytes.toNat

/-- The controller answers every burst of the access, one after the other. -/
def Answers (e : Engine) (now : Int) (addr size : Nat) (w : Bool) : Prop :=
  ∃ done after, Returns (fun fuel => serveBursts fuel (now + e.g.p.ctrlPs.tdiv 2) w
    (covered e.g addr size) (now + e.g.p.ctrlPs.tdiv 2)) { e with st := e.st.request w } done after

section Rounding

theorem firstOf_round (j addr : Nat) (small : j ≤ 64) (inside : addr < word) :
    firstOf (2 ^ j) addr = addr / 2 ^ j * 2 ^ j := by
  have power : ((2 : Int) ^ j).toNat = 2 ^ j := by
    have cast : ((2 : Int) ^ j) = ((2 ^ j : Nat) : Int) := by simp
    rw [cast, Int.toNat_natCast]
  have below : 2 ^ j - 1 < 2 ^ 64 := by
    have := Nat.pow_le_pow_right (show 0 < 2 by decide) small
    have := Nat.two_pow_pos j
    omega
  rw [firstOf, power, ← Nat.shiftRight_eq_div_pow, ← Nat.shiftLeft_eq]
  apply Nat.eq_of_testBit_eq
  intro i
  rw [word, Nat.sub_sub, Nat.add_comm 1, Nat.testBit_and, Nat.testBit_two_pow_sub_succ below,
    Nat.testBit_two_pow_sub_one, Nat.testBit_shiftLeft, Nat.testBit_shiftRight]
  by_cases low : i < j
  · simp [low]
  · by_cases high : i < 64
    · simp [low, high, Nat.le_of_not_lt low, Nat.add_sub_cancel' (Nat.le_of_not_lt low)]
    · have clear : addr.testBit i = false := by
        apply Nat.testBit_lt_two_pow
        exact Nat.lt_of_lt_of_le inside (Nat.pow_le_pow_right (by decide) (Nat.le_of_not_lt high))
      simp [low, clear, Nat.add_sub_cancel' (Nat.le_of_not_lt low)]

theorem or_round (j x : Nat) : x ||| (2 ^ j - 1) = x / 2 ^ j * 2 ^ j + (2 ^ j - 1) := by
  have positive := Nat.two_pow_pos j
  rw [← Nat.shiftRight_eq_div_pow, ← Nat.shiftLeft_eq,
    Nat.shiftLeft_add_eq_or_of_lt (by omega : 2 ^ j - 1 < 2 ^ j)]
  apply Nat.eq_of_testBit_eq
  intro i
  rw [Nat.testBit_or, Nat.testBit_or, Nat.testBit_two_pow_sub_one, Nat.testBit_shiftLeft,
    Nat.testBit_shiftRight]
  by_cases low : i < j
  · simp [low]
  · simp [low, Nat.le_of_not_lt low, Nat.add_sub_cancel' (Nat.le_of_not_lt low)]

end Rounding

/-! ### The controller answers -/

section Answering

variable {p : Params} {g : Config}

theorem channel_sized {e : Engine} (connected : Connected g e)
    (timed : NonNegative g.p) (ch : Int) :
    Sized g.p (e.channel ch) :=
  (run_law g timed (fun _ => True) (fun _ _ _ _ => trivial)
    (fun _ _ _ _ _ _ _ _ _ _ => trivial) _ trivial (connected.channel ch)).1.sized

theorem burst_finishes (timed : NonNegative g.p) (fits : RefreshFits g.p) (accepted : Accepted p g)
    (arrive : Int) (addr : Nat) (w : Bool) :
    Finishes (Connected g) fun fuel => burst fuel arrive addr w := by
  intro e connected
  have ranged := accepted.decode_in_range addr
  rw [← accepted.same] at ranged
  have inside : bankIndex g.p (decode g addr) < (e.channel (decode g addr).ch).banks.length := by
    rw [(channel_sized connected timed _).banks]
    exact bankIndex_lt _ ranged
  obtain ⟨⟨c, n, pl⟩, enough, ends⟩ := ReplanLoop.burst_returns timed fits _ _ arrive w
    ranged.row inside
  have runs : ∀ fuel, enough ≤ fuel → burst fuel arrive addr w e = .ok pl.dataEnd { e with
      chan := e.chan.set (decode g addr).ch.toNat c
      st := e.st.serve pl.kind n g.burstPs
      trace := .committed addr w :: e.trace } := by
    intro fuel more
    have ended := ends fuel more
    rw [← connected.config] at ended ⊢
    exact burst_runs fuel arrive addr w ended
  exact ⟨_, _, ⟨enough, runs⟩,
    (burst_keeps timed accepted enough arrive addr w).ok e _ _ connected
      (runs enough (Nat.le_refl _))⟩

structure Responsive (Inv : Engine → Prop) : Prop extends Stable Inv where
  ends : ∀ arrive addr w, Finishes Inv fun fuel => DramEngine.burst fuel arrive addr w

variable {Inv : Engine → Prop} (live : Responsive Inv)

include live

theorem Responsive.issueOldest (t : Int) : Finishes Inv fun fuel => issueOldest fuel t := by
  apply Finishes.read
  intro e held
  cases e.wq with
  | nil => exact Finishes.pure _
  | cons q rest =>
      refine Finishes.bind (Finishes.put _ (live.edit e _ held rfl rfl rfl rfl)) fun _ => ?_
      refine Finishes.bind (live.ends _ q.addr true) fun dataEnd => ?_
      exact Finishes.update _ fun now kept => live.edit now _ kept rfl rfl rfl rfl

theorem Responsive.drainTurns (t : Int) (turns : Nat) :
    Finishes Inv fun fuel => drainTurns fuel t turns := by
  induction turns with
  | zero => exact Finishes.pure _
  | succ turns ih =>
      apply Finishes.read
      intro e held
      cases e.wq with
      | nil => exact Finishes.pure _
      | cons q rest =>
          refine Finishes.ite (fun _ => Finishes.pure _) fun _ => ?_
          refine Finishes.bind (Finishes.put _ (live.refreshed e q.addr _ held)) fun _ => ?_
          apply Finishes.read
          intro now _
          refine Finishes.ite (fun _ => Finishes.pure _) fun _ => ?_
          exact Finishes.bind (live.issueOldest _) fun _ => ih

theorem Responsive.makeRoom (t : Int) : Finishes Inv fun fuel => makeRoom fuel t :=
  Finishes.read fun _ _ => Finishes.ite (fun _ => live.issueOldest t) fun _ => Finishes.pure _

theorem Responsive.holdBack (turns : Nat) (t : Int) :
    Finishes Inv fun fuel => holdBack fuel turns t := by
  induction turns generalizing t with
  | zero => exact Finishes.pure _
  | succ turns ih =>
      apply Finishes.read
      intro e _
      refine Finishes.ite (fun _ => Finishes.pure _) fun _ => ?_
      refine Finishes.bind (live.makeRoom t) fun _ => ?_
      apply Finishes.read
      intro now held
      cases now.leaving with
      | nil => exact Finishes.pure _
      | cons dataEnd rest =>
          exact Finishes.bind (Finishes.put _ (live.edit now _ held rfl rfl rfl rfl)) fun _ => ih _

theorem Responsive.drainBatch (t : Int) (turns : Nat) :
    Finishes Inv fun fuel => drainBatch fuel t turns := by
  induction turns with
  | zero => exact Finishes.pure _
  | succ turns ih =>
      apply Finishes.read
      intro e _
      refine Finishes.ite (fun _ => Finishes.pure _) fun _ => ?_
      exact Finishes.bind (live.issueOldest t) fun _ => ih

theorem Responsive.drainHigh (t : Int) : Finishes Inv fun fuel => drainHigh fuel t :=
  Finishes.read fun e _ => Finishes.ite (fun _ => live.drainBatch t e.wq.length)
    fun _ => Finishes.pure _

theorem Responsive.enqueue (arrive : Int) (addr : Nat) :
    Finishes Inv fun fuel => enqueue fuel arrive addr := by
  refine Finishes.bind (Finishes.update _ fun now held => live.edit now _ held rfl rfl rfl rfl)
    fun _ => ?_
  apply Finishes.read
  intro e _
  refine Finishes.bind (live.holdBack _ arrive) fun t => ?_
  refine Finishes.bind (Finishes.update _ fun now held => live.edit now _ held rfl rfl rfl rfl)
    fun _ => ?_
  exact Finishes.bind (live.drainHigh t) fun _ => Finishes.pure _

theorem Responsive.queued (arrive : Int) (addr : Nat) (w : Bool) :
    Finishes Inv fun fuel => queued fuel arrive addr w := by
  refine Finishes.bind (Finishes.read fun e _ => live.drainTurns arrive e.wq.length) fun _ => ?_
  apply Finishes.read
  intro e held
  refine Finishes.ite (fun _ => Finishes.ite (fun _ => ?_) fun _ => ?_) fun _ =>
    Finishes.ite (fun _ => ?_) fun _ => ?_
  · exact Finishes.bind (Finishes.put _ (live.edit e _ held rfl rfl rfl rfl))
      fun _ => Finishes.pure _
  · exact Finishes.bind (Finishes.put _ (live.edit e _ held rfl rfl rfl rfl))
      fun _ => Finishes.pure _
  · exact live.enqueue arrive addr
  · exact live.ends arrive addr false

theorem Responsive.present (arrive : Int) (addr : Nat) (w : Bool) :
    Finishes Inv fun fuel => present fuel arrive addr w :=
  Finishes.read fun _ _ => Finishes.ite (fun _ => live.queued arrive addr w)
    fun _ => live.ends arrive addr w

theorem Responsive.serveBursts (arrive : Int) (w : Bool) (addrs : List Nat) (done : Int)
    (noted : ∀ e a, Inv e → Inv { e with trace := .presented a w :: e.trace }) :
    Finishes Inv fun fuel => serveBursts fuel arrive w addrs done := by
  induction addrs generalizing done with
  | nil => exact Finishes.pure _
  | cons a rest ih =>
      refine Finishes.bind (Finishes.update _ fun e held => noted e a held) fun _ => ?_
      exact Finishes.bind (live.present arrive a w) fun dataEnd => ih _

end Answering

/-! ### The loop -/

section Loop

variable {p : Params} {g : Config}

theorem presenting_stable (Holds : List (Nat × Bool) → Prop) :
    Stable fun e => e.g = g ∧ Holds (presented e.trace) where
  edit _ _ held config _ _ trace := ⟨config.trans held.1, trace ▸ held.2⟩
  refreshed _ _ _ held := held
  burst fuel arrive addr w := by
    apply Triple.get
    rintro e held now rfl
    cases ended : (now.channel (decode now.g addr).ch).burst now.g fuel (decode now.g addr) arrive w
      with
    | none =>
        simp only [ended]
        exact held
    | some found =>
        obtain ⟨c, n, pl⟩ := found
        simp only [ended]
        exact held

theorem serveBursts_presents (fuel : Nat) (arrive : Int) (w : Bool) (addrs : List Nat) (done : Int)
    (P : List (Nat × Bool)) :
    Triple (fun e => e.g = g ∧ presented e.trace = P) (serveBursts fuel arrive w addrs done)
      (fun _ e => e.g = g ∧ presented e.trace = (addrs.map fun a => (a, w)).reverse ++ P)
      fun _ => True := by
  -- the trace is newest first, so each burst puts its own in front of `P`
  induction addrs generalizing P done with
  | nil => exact Triple.pure _ fun _ held => held
  | cons a rest ih =>
      refine Triple.bind (fun _ e => e.g = g ∧ presented e.trace = (a, w) :: P)
        (Triple.update _ fun e held => ⟨held.1, congrArg _ held.2⟩) fun _ => ?_
      refine Triple.bind _ ((presenting_stable (· = (a, w) :: P)).present fuel arrive a w).forget
        fun dataEnd => (ih (max done dataEnd) ((a, w) :: P)).weaken (fun _ held => held) ?_
      rintro _ e ⟨config, trace⟩
      exact ⟨config, by simpa using trace⟩

theorem accessTurns_serves (fuel : Nat) (arrive : Int) (last : Nat) (w : Bool) (n turns a : Nat)
    (done : Int) (e : Engine) (config : e.g = g) (wide : 1 < g.burstBytes.toNat)
    (reaches : a + n * g.burstBytes.toNat = last + 1) (fits : last + 1 < word)
    (enough : n ≤ turns) :
    accessTurns fuel arrive last w turns a done e =
      serveBursts fuel arrive w (List.range' a n g.burstBytes.toNat) done e := by
  induction n generalizing turns a done e with
  | zero =>
      -- `a` is the byte after `last`
      have past : ¬ a < last := by omega
      cases turns <;> simp only [accessTurns, past, if_false] <;> rfl
  | succ n ih =>
      obtain ⟨less, rfl⟩ : ∃ less, turns = less + 1 := ⟨turns - 1, by omega⟩
      rw [Nat.add_mul, Nat.one_mul] at reaches
      have more : a < last := by omega
      have next : (a + g.burstBytes.toNat) % word = a + g.burstBytes.toNat :=
        Nat.mod_eq_of_lt (by omega)
      rw [List.range'_succ, serveBursts]
      simp only [accessTurns, more, if_true]
      refine bind_agrees fun _ noted said => ?_
      cases said
      show (present fuel arrive a w >>= fun dataEnd => accessTurns fuel arrive last w less
        ((a + e.g.burstBytes.toNat) % word) (max done dataEnd)) _ = _
      rw [config, next]
      refine bind_agrees fun dataEnd after served => ?_
      -- the configuration that the next turn reads is still the same
      have kept := ((presenting_stable (g := g) fun _ => True).present fuel arrive a w).ok
        (QueueRuns.Engine.note e a w) after dataEnd ⟨config, trivial⟩ served
      exact ih less _ _ after kept.1 (by omega) (by omega)

theorem below_top (step a : Nat) (wide : 1 < step) (narrow : step ∣ word) (aligned : step ∣ a)
    (inside : a < word) : a < word - 1 := by
  obtain ⟨i, rfl⟩ := aligned
  obtain ⟨j, whole⟩ := narrow
  rw [whole] at inside ⊢
  have fewer : i + 1 ≤ j := Nat.lt_of_mul_lt_mul_left inside
  have scaled := Nat.mul_le_mul_left step fewer
  rw [Nat.mul_add] at scaled
  omega

theorem accessTurns_endless (accepted : Accepted p g) (fuel : Nat) (arrive : Int) (w : Bool)
    (turns a : Nat) (done : Int) (wide : 1 < g.burstBytes.toNat)
    (narrow : g.burstBytes.toNat ∣ word)
    (aligned : g.burstBytes.toNat ∣ a) (inside : a < word) :
    Triple (fun e => e.g = g) (accessTurns fuel arrive (word - 1) w turns a done)
      (fun _ _ => False) (fun _ => True) := by
  -- an aligned address is never the last of the space, so no turn is the last either
  induction turns generalizing a done with
  | zero =>
      have below := below_top _ a wide narrow aligned inside
      exact Triple.ite (fun _ => Triple.throw _ fun _ _ => trivial) fun past => absurd below past
  | succ turns ih =>
      have below := below_top _ a wide narrow aligned inside
      refine Triple.ite (fun _ => ?_) fun past => absurd below past
      refine Triple.bind (fun _ e => e.g = g) (Triple.update _ fun _ held => held) fun _ => ?_
      apply Triple.read
      intro e config
      rw [config]
      have kept := ((presenting_stable (g := g) fun _ => True).present fuel arrive a w).forget
      refine Triple.bind (fun _ e => e.g = g) ?_ fun dataEnd => ?_
      · exact kept.weaken (fun _ held => ⟨held, trivial⟩) fun _ _ held => held.1
      · exact ih _ _ (WriteQueueLaw.next_aligned accepted a aligned) (Nat.mod_lt _ (by decide))

theorem accessTurns_below (fuel : Nat) (arrive : Int) (last : Nat) (w : Bool) (turns a : Nat)
    (done : Int) (P : List (Nat × Bool)) :
    Triple (fun e => ∃ new, presented e.trace = new ++ P ∧ ∀ x ∈ new, x.1 < last)
      (accessTurns fuel arrive last w turns a done)
      (fun _ e => ∃ new, presented e.trace = new ++ P ∧ ∀ x ∈ new, x.1 < last) (fun _ => True) := by
  induction turns generalizing a done with
  | zero =>
      exact Triple.ite (fun _ => Triple.throw _ fun _ _ => trivial) fun _ =>
        Triple.pure _ fun _ held => held
  | succ turns ih =>
      refine Triple.ite (fun more => ?_) fun _ => Triple.pure _ fun _ held => held
      refine Triple.bind (fun _ e => ∃ new, presented e.trace = new ++ P ∧ ∀ x ∈ new, x.1 < last)
        (Triple.update _ ?_) fun _ => ?_
      · rintro e ⟨new, trace, before⟩
        refine ⟨(a, w) :: new, congrArg _ trace, ?_⟩
        intro x member
        rcases List.mem_cons.mp member with rfl | old
        · exact more
        · exact before x old
      apply Triple.get
      rintro e ⟨new, trace, before⟩
      have kept := ((presenting_stable (g := e.g) (· = new ++ P)).present fuel arrive a w).forget
      refine Triple.bind _ (kept.weaken ?_ ?_) fun dataEnd => ih _ _
      · rintro _ rfl
        exact ⟨rfl, trace⟩
      · exact fun _ after held => ⟨new, held.2, before⟩

theorem access_turns {e : Engine} (fuel : Nat) (now : Int) (addr size : Nat) (w : Bool)
    (config : e.g = g) (dram : g.hyperram = false) (nonempty : 1 ≤ size) :
    access fuel now addr size w e =
      (accessTurns fuel (now + g.p.ctrlPs.tdiv 2) (lastOf g.align addr size) w fuel
        (firstOf g.align addr) (now + g.p.ctrlPs.tdiv 2) >>= fun done =>
          pure (done + (g.p.ctrlPs - g.p.ctrlPs.tdiv 2))) { e with st := e.st.request w } := by
  have asked : ¬ size = 0 := by omega
  have other : ¬ e.g.hyperram = true := by simp [config, dram]
  rw [access, if_neg asked]
  show (if e.g.hyperram = true then _ else _ : Op Int) { e with st := e.st.request w } = _
  rw [if_neg other, config]

end Loop

/-! ### What an access covers -/

section Covering

variable {p : Params} {g : Config} (accepted : Accepted p g) (narrow : g.align < 2 ^ 63)

include accepted narrow

theorem powers : ∃ k j, g.burstBytes.toNat = 2 ^ k ∧ g.align = 2 ^ j ∧ g.align.toNat = 2 ^ j ∧
    k ≤ j ∧ j < 63 := by
  obtain ⟨k, j, burst, align, order⟩ := WriteQueueLaw.burst_power accepted
  obtain ⟨i, power⟩ := accepted.alignPow
  have small : g.align.toNat < 2 ^ 63 := by omega
  rw [align] at small
  have positive : 0 < g.align := by rw [power]; positivity
  have cast : g.align = ((2 ^ j : Nat) : Int) := by omega
  exact ⟨k, j, burst, by simpa using cast, align, order,
    (Nat.pow_lt_pow_iff_right (by decide)).mp small⟩

theorem firstOf_firstByte (addr : Nat) (inside : addr < word) :
    firstOf g.align addr = firstByte g addr := by
  obtain ⟨k, j, _, power, align, _, small⟩ := powers accepted narrow
  rw [firstByte, align, power, firstOf_round j addr (by omega) inside]

theorem lastOf_lastByte (addr size : Nat) (inside : addr + size - 1 < word) :
    lastOf g.align addr size = lastByte g addr size := by
  obtain ⟨k, j, _, power, align, _, small⟩ := powers accepted narrow
  rw [lastOf, lastByte, align, Nat.mod_eq_of_lt inside, or_round]

theorem covered_span (addr size : Nat) (nonempty : 1 ≤ size) (inside : addr + size ≤ word) :
    firstByte g addr + burstCount g addr size * g.burstBytes.toNat = lastByte g addr size + 1 ∧
      lastByte g addr size < word ∧ firstByte g addr ≤ lastByte g addr size ∧
      g.burstBytes.toNat ∣ firstByte g addr := by
  obtain ⟨k, j, burst, _, align, order, small⟩ := powers accepted narrow
  have positive := Nat.two_pow_pos j
  have unit : 2 ^ k ∣ 2 ^ j := Nat.pow_dvd_pow 2 order
  have whole : 2 ^ j ∣ word := Nat.pow_dvd_pow 2 (by omega)
  have ordered : addr / 2 ^ j * 2 ^ j ≤ (addr + size - 1) / 2 ^ j * 2 ^ j :=
    Nat.mul_le_mul_right _ (Nat.div_le_div_right (by omega))
  have ends : (addr + size - 1) / 2 ^ j * 2 ^ j + (2 ^ j - 1) < word := by
    obtain ⟨m, top⟩ := whole
    have turn : (addr + size - 1) / 2 ^ j < m := by
      apply Nat.div_lt_of_lt_mul
      omega
    have scaled := Nat.mul_le_mul_right (2 ^ j) turn
    rw [Nat.succ_mul, Nat.mul_comm m] at scaled
    omega
  simp only [firstByte, lastByte, burstCount, burst, align]
  refine ⟨?_, ends, by omega, Nat.dvd_trans unit (Nat.dvd_mul_left _ _)⟩
  have divides : 2 ^ k ∣ (addr + size - 1) / 2 ^ j * 2 ^ j + (2 ^ j - 1) + 1 -
      addr / 2 ^ j * 2 ^ j := by
    apply Nat.dvd_sub
    · rw [Nat.add_assoc, Nat.sub_add_cancel positive]
      exact Nat.dvd_trans unit (Nat.dvd_add (Nat.dvd_mul_left _ _) (Nat.dvd_refl _))
    · exact Nat.dvd_trans unit (Nat.dvd_mul_left _ _)
  rw [Nat.div_mul_cancel divides]
  omega

theorem covered_exact (addr size : Nat) (nonempty : 1 ≤ size) (inside : addr + size ≤ word) :
    (covered g addr size).Pairwise (· < ·) ∧
      ∀ a, a ∈ covered g addr size ↔ Covers g addr size a := by
  obtain ⟨span, _, _, aligned⟩ := covered_span accepted narrow addr size nonempty inside
  obtain ⟨k, _, burst, _, _, _, _⟩ := powers accepted narrow
  have positive : 0 < g.burstBytes.toNat := burst ▸ Nat.two_pow_pos k
  refine ⟨List.pairwise_lt_range' _ positive, fun a => ?_⟩
  rw [covered, List.mem_range', Covers]
  constructor
  · rintro ⟨i, below, rfl⟩
    have scaled := Nat.mul_le_mul_right g.burstBytes.toNat (show i + 1 ≤
      burstCount g addr size from below)
    rw [Nat.add_mul, Nat.one_mul, Nat.mul_comm i] at scaled
    exact ⟨by omega, by omega, Nat.dvd_add aligned (Nat.dvd_mul_right _ _)⟩
  · rintro ⟨low, high, whole⟩
    obtain ⟨i, offset⟩ := Nat.dvd_sub whole aligned
    refine ⟨i, ?_, by omega⟩
    apply Nat.lt_of_mul_lt_mul_left (a := g.burstBytes.toNat)
    rw [← offset, Nat.mul_comm g.burstBytes.toNat]
    omega

end Covering

section Timing

variable {p : Params} {g : Config} {e : Engine} {now : Int} {addr size : Nat} {w : Bool}

theorem answers_reachable (dram : p.kind = .dram) (timed : NonNegative p) (fits : RefreshFits p)
    (reached : Reachable p e) : Answers e now addr size w := by
  obtain ⟨g, accepted, connected⟩ := visited_connected p e dram timed (.between e reached)
  have same := accepted.same
  have live : Responsive (Connected g) :=
    { connected_stable (same ▸ timed) accepted with
      ends := burst_finishes (same ▸ timed) (same ▸ fits) accepted }
  obtain ⟨done, after, returns, _⟩ := live.serveBursts (now + e.g.p.ctrlPs.tdiv 2) w
    (covered e.g addr size) (now + e.g.p.ctrlPs.tdiv 2) (fun _ _ held => held.same rfl rfl rfl)
    { e with st := e.st.request w } (connected.same rfl rfl (by cases w <;> rfl))
  exact ⟨done, after, returns⟩

variable (accepted : Accepted p g) (narrow : g.align < 2 ^ 63) (config : e.g = g)
  (nonempty : 1 ≤ size) (inside : addr + size ≤ word)

include accepted narrow config nonempty inside

theorem access_serves (wide : 1 < g.burstBytes.toNat) (fits : lastByte g addr size + 1 < word)
    (fuel : Nat) (enough : burstCount g addr size ≤ fuel) :
    access fuel now addr size w e =
      (serveBursts fuel (now + g.p.ctrlPs.tdiv 2) w (covered g addr size)
        (now + g.p.ctrlPs.tdiv 2) >>= fun done => pure (done + (g.p.ctrlPs - g.p.ctrlPs.tdiv 2)))
        { e with st := e.st.request w } := by
  obtain ⟨span, _, _, _⟩ := covered_span accepted narrow addr size nonempty inside
  rw [access_turns fuel now addr size w config accepted.dram nonempty,
    firstOf_firstByte accepted narrow addr (by omega), lastOf_lastByte accepted narrow addr
      size (by omega)]
  have served := accessTurns_serves fuel (now + g.p.ctrlPs.tdiv 2) (lastByte g addr size) w
    (burstCount g addr size) fuel (firstByte g addr) (now + g.p.ctrlPs.tdiv 2)
    { e with st := e.st.request w } config wide span fits enough
  simp only [bind, EStateM.bind, covered, served]

theorem access_returns (wide : 1 < g.burstBytes.toNat) (fits : lastByte g addr size + 1 < word)
    (done : Int) (after : Engine)
    (answered : Returns
    (fun fuel => serveBursts fuel (now + g.p.ctrlPs.tdiv 2) w (covered g addr size)
      (now + g.p.ctrlPs.tdiv 2)) { e with st := e.st.request w } done after) :
    Returns (fun fuel => access fuel now addr size w) e
      (done + (g.p.ctrlPs - g.p.ctrlPs.tdiv 2)) after := by
  obtain ⟨enough, ends⟩ := answered
  refine ⟨max enough (burstCount g addr size), fun fuel more => ?_⟩
  show access fuel now addr size w e = _
  rw [access_serves accepted narrow config nonempty inside wide fits fuel (by omega)]
  exact bind_ok.mpr ⟨done, after, ends fuel (by omega), rfl⟩

theorem times_inside (wide : 1 < g.burstBytes.toNat) (done : Int) (after : Engine) (fuel : Nat)
    (ended : access fuel now addr size w e = .ok done after) : lastByte g addr size + 1 < word := by
  obtain ⟨_, ends, _, aligned⟩ := covered_span accepted narrow addr size nonempty inside
  by_contra beyond
  have top : lastByte g addr size = word - 1 := by omega
  obtain ⟨k, j, burst, _, _, order, small⟩ := powers accepted narrow
  have whole : g.burstBytes.toNat ∣ word := burst ▸ Nat.pow_dvd_pow 2 (by omega)
  have starts : firstByte g addr < word := Nat.lt_of_le_of_lt (Nat.div_mul_le_self _ _) (by omega)
  rw [access_turns fuel now addr size w config accepted.dram nonempty,
    firstOf_firstByte accepted narrow addr (by omega),
    lastOf_lastByte accepted narrow addr size (by omega), top] at ended
  obtain ⟨found, last, looped, _⟩ := bind_ok.mp ended
  exact (accessTurns_endless accepted fuel (now + g.p.ctrlPs.tdiv 2) w fuel
    (firstByte g addr) _ wide
    whole aligned starts).ok { e with st := e.st.request w } last found config looped

theorem times_wide (times : Times e now addr size w) : 1 < g.burstBytes.toNat := by
  obtain ⟨done, after, addrs, ⟨enough, ends⟩, trace, _, equally⟩ := times
  obtain ⟨k, j, burst, _, _, _, _⟩ := powers accepted narrow
  have positive := Nat.two_pow_pos k
  obtain ⟨_, _, ordered, _⟩ := covered_span accepted narrow addr size nonempty inside
  by_contra single
  have unit : g.burstBytes.toNat = 1 := by omega
  have lastIn : lastByte g addr size ∈ addrs :=
    (equally _).mpr (config.symm ▸ ⟨ordered, Nat.le_refl _, unit ▸ Nat.one_dvd _⟩)
  have ended : access enough now addr size w e = .ok done after := ends enough (Nat.le_refl _)
  rw [access_turns enough now addr size w config accepted.dram nonempty,
    lastOf_lastByte accepted narrow addr size (by omega)] at ended
  obtain ⟨found, last, looped, finish⟩ := bind_ok.mp ended
  cases finish
  obtain ⟨new, shown, before⟩ := (accessTurns_below enough (now + g.p.ctrlPs.tdiv 2) _ w enough _ _
    (presented e.trace)).ok { e with st := e.st.request w } _ found ⟨[], rfl, by simp⟩ looped
  have same := List.append_cancel_right (trace.symm.trans shown)
  have member : (lastByte g addr size, w) ∈ new := by
    rw [← same]
    exact List.mem_reverse.mpr (List.mem_map.mpr ⟨_, lastIn, rfl⟩)
  exact absurd (before _ member) (Nat.lt_irrefl _)

end Timing

/-- An access ends and presents exactly the bursts it covers, in order, if and only if a
burst is more than a byte, the last granule of the access is not the last of the address
space, and the controller answers the bursts. It answers them from every reachable state
if no timing is negative and a refresh with the activation after it fits in tREFI. -/
theorem access_times (p : Params) (g : Config) (dram : p.kind = .dram)
    (configured : configure p = .ok g) (narrow : g.align < 2 ^ 63) (e : Engine) (config : e.g = g)
    (now : Int) (addr size : Nat) (w : Bool) (nonempty : 1 ≤ size) (inside : addr + size ≤ word) :
    (Times e now addr size w ↔
      1 < g.burstBytes ∧ lastByte g addr size + 1 < word ∧ Answers e now addr size w) ∧
    (NonNegative p → RefreshFits p → Reachable p e → Answers e now addr size w) := by
  have accepted := configure_accepted p g dram configured
  subst config
  refine ⟨⟨fun times => ?_, ?_⟩, fun timed fits reached =>
    answers_reachable dram timed fits reached⟩
  · have wide := times_wide accepted narrow rfl nonempty inside times
    obtain ⟨done, after, addrs, ⟨enough, ends⟩, _, _, _⟩ := times
    have fits := times_inside accepted narrow rfl nonempty inside wide done after enough
      (ends enough (Nat.le_refl _))
    refine ⟨by omega, fits, done - (e.g.p.ctrlPs - e.g.p.ctrlPs.tdiv 2), after,
      max enough (burstCount e.g addr size), fun fuel more => ?_⟩
    have ended : access fuel now addr size w e = .ok done after := ends fuel (by omega)
    rw [access_serves accepted narrow rfl nonempty inside wide fits fuel (by omega)] at ended
    obtain ⟨found, last, served, finish⟩ := bind_ok.mp ended
    cases finish
    rw [Int.add_sub_cancel]
    exact served
  · rintro ⟨wide, fits, done, after, answered⟩
    obtain ⟨increasing, equally⟩ := covered_exact accepted narrow addr size nonempty inside
    refine ⟨_, after, covered e.g addr size,
      access_returns accepted narrow rfl nonempty inside (by omega) fits done after answered, ?_,
      increasing, equally⟩
    obtain ⟨enough, ends⟩ := answered
    exact ((serveBursts_presents (g := e.g) enough _ w (covered e.g addr size) _
      (presented e.trace)).ok
      { e with st := e.st.request w } after done ⟨rfl, rfl⟩ (ends enough (Nat.le_refl _))).2

/-- A line in the middle of the memory, read from a fresh engine. -/
theorem access_times_line : ∃ e, create DramPresets.lpddr5 = .ok e ∧ Times e 0 4096 64 false := by
  obtain ⟨e, created, configured, narrow, wide, fits⟩ : ∃ e, create DramPresets.lpddr5 = .ok e ∧
      configure DramPresets.lpddr5 = .ok e.g ∧ e.g.align < 2 ^ 63 ∧ 1 < e.g.burstBytes ∧
      lastByte e.g 4096 64 + 1 < word :=
    ⟨_, rfl, rfl, by decide +kernel, by decide +kernel, by decide +kernel⟩
  have times := access_times DramPresets.lpddr5 e.g rfl configured narrow e rfl 0 4096 64 false
    (by decide) (by decide)
  exact ⟨e, created, times.1.mpr ⟨wide, fits, times.2 (by decide) (by decide) (.start e created)⟩⟩

/-- `lpddr5` with bursts of a single byte. -/
def byteBursts : Params :=
  { DramPresets.lpddr5 with widthBits := 8, burstLength := 1, granule := 1 }

/-- The last line of the address space is never done, and of single-byte bursts the last is
left out. -/
theorem edges_untimed :
    (∃ e, create DramPresets.lpddr5 = .ok e ∧ ¬ Times e 0 (2 ^ 64 - 64) 64 false ∧
      ∀ fuel done after, access fuel 0 (2 ^ 64 - 64) 64 false e ≠ .ok done after) ∧
    ∃ e, create byteBursts = .ok e ∧ ¬ Times e 0 0 1 false := by
  constructor
  · obtain ⟨e, created, configured, narrow, wide, top⟩ : ∃ e, create DramPresets.lpddr5 = .ok e ∧
        configure DramPresets.lpddr5 = .ok e.g ∧ e.g.align < 2 ^ 63 ∧ 1 < e.g.burstBytes.toNat ∧
        ¬ lastByte e.g (2 ^ 64 - 64) 64 + 1 < word :=
      ⟨_, rfl, rfl, by decide +kernel, by decide +kernel, by decide +kernel⟩
    have accepted := configure_accepted DramPresets.lpddr5 e.g rfl configured
    have never : ∀ fuel done after, access fuel 0 (2 ^ 64 - 64) 64 false e ≠ .ok done after :=
      fun fuel done after ended =>
        top (times_inside accepted narrow rfl (by decide) (by decide) wide done after fuel ended)
    refine ⟨e, created, ?_, never⟩
    rintro ⟨done, after, _, ⟨enough, ends⟩, _⟩
    exact never enough done after (ends enough (Nat.le_refl _))
  · obtain ⟨e, created, configured, narrow, single⟩ : ∃ e, create byteBursts = .ok e ∧
        configure byteBursts = .ok e.g ∧ e.g.align < 2 ^ 63 ∧ ¬ 1 < e.g.burstBytes.toNat :=
      ⟨_, rfl, rfl, by decide +kernel, by decide +kernel⟩
    have accepted := configure_accepted byteBursts e.g rfl configured
    exact ⟨e, created, fun times =>
      single (times_wide accepted narrow rfl (by decide) (by decide) times)⟩

end HeteroSim.AccessLoop
