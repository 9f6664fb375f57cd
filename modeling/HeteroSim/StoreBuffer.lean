import HeteroSim.FifoServer
import HeteroSim.TimingCache
import Mathlib.Data.List.Induction

/-!
The store buffer of a write-through cache. The cache keeps no buffer: it keeps
the time at which its port to the next level is free, and a store stalls for what
that time is ahead by beyond `store_buffer_size * write_cycles`. The port serves
refills and stores in the order of the accesses, so the time it is ahead by is
what is left of both, and a refill in front of a store counts like stores would.
-/

namespace HeteroSim.StoreBuffer

open TimingCache FifoServer

inductive Use where
  | refill
  | store

def Use.isStore : Use → Bool
  | .refill => false
  | .store => true

def fills (g : Config) (a : Access) (c : Cache) (line : Nat) : Bool :=
  g.allocates a.isWrite && (c.findWay g line).isNone

def lineJobs (g : Config) (a : Access) : List Nat → Int × Cache → List (Job Use)
  | [], _ => []
  | line :: rest, st =>
      (if fills g a st.2 line then [⟨.refill, a.now, g.refillCycles⟩] else []) ++
        lineJobs g a rest (turn g a st line)

def accessJobs (g : Config) (c : Cache) (a : Access) : List (Job Use) :=
  lineJobs g a (g.lines a.addr a.size) (a.now + g.hitLatency, c.counted a.isWrite) ++
    if a.isWrite then [⟨.store, a.now, g.writeCycles⟩] else []

/-- The accesses so far: the cache, the port's jobs, and the port time each store set. -/
structure Past where
  cache : Cache := reset
  jobs : List (Job Use) := []
  drains : List Int := []

def serve (g : Config) (p : Past) (a : Access) : Past :=
  let c := (p.cache.access g a).2
  { cache := c
    jobs := p.jobs ++ accessJobs g p.cache a
    drains := if a.isWrite then p.drains ++ [c.nextLevelFree] else p.drains }

def play (g : Config) (accesses : List Access) : Past := accesses.foldl (serve g) {}

/-- Cycles do not decrease, and no latency of the next level is negative. -/
structure Timed (accesses : List Access) : Prop where
  ordered : accesses.Pairwise fun a b => a.now ≤ b.now
  started : ∀ a ∈ accesses, 0 ≤ a.now
  answered : ∀ a ∈ accesses, 0 ≤ a.nextLevelLatency

/-! ### What a store waits for -/

/-- Earlier stores that have not finished draining. -/
def Past.undrained (p : Past) (now : Int) : Nat := p.drains.countP fun drain => decide (now < drain)

def pending (g : Config) (c : Cache) (line : Nat) : Option Int :=
  (c.findWay g line).map fun way => c.lineReady (g.index (g.set line) way)

def dues (g : Config) (a : Access) : List Nat → Int × Cache → List Int
  | [], _ => []
  | line :: rest, st =>
      (match pending g st.2 line with
        | some landed => [landed]
        | none =>
            if g.allocates a.isWrite then
              [max a.now st.2.nextLevelFree + a.nextLevelLatency + g.missLatency + g.refillCycles]
            else []) ++ dues g a rest (turn g a st line)

/-- The hit, or the last of some refills if that is later. -/
def latest (g : Config) (a : Access) (refills : List Int) : Int :=
  refills.foldl max (a.now + g.hitLatency)

/-- With a free entry in the buffer a store takes no longer than its hit or the
refills of the lines it touches. -/
def Unstalled (g : Config) (p : Past) (a : Access) : Prop :=
  p.undrained a.now < g.storeBufferSize →
    (p.cache.access g a).1 ≤ latest g a (dues g a (g.lines a.addr a.size)
      (a.now + g.hitLatency, p.cache.counted a.isWrite)) - a.now

def Past.refilling (p : Past) (now : Int) : Int := remaining (fun use => !use.isStore) now 0 p.jobs

def Past.draining (p : Past) (now : Int) : Int := remaining Use.isStore now 0 p.jobs

/-- The store starts a refill itself, or the refills and stores in front of it and
its own drain fit the buffer's time, counted from when it is ready otherwise. -/
def Room (g : Config) (p : Past) (a : Access) : Prop :=
  p.undrained a.now < g.storeBufferSize →
    (g.writeAllocate = true ∧ p.cache.probe g a.addr a.size = false) ∨
    p.refilling a.now + p.draining a.now + g.writeCycles ≤ g.storeBufferCycles +
      (latest g a ((g.lines a.addr a.size).filterMap (pending g p.cache)) - a.now)

/-! ### One line -/

section Lines

variable {g : Config} {a : Access} {c : Cache}

/-- No refill has landed, or will, before the clock's zero. -/
structure Settled (c : Cache) : Prop where
  free : 0 ≤ c.nextLevelFree
  landed : ∀ i, 0 ≤ c.lineReady i

theorem findWay_congr {c' : Cache} (same : c'.tags = c.tags) (line : Nat) :
    c'.findWay g line = c.findWay g line := by
  simp only [Cache.findWay, Cache.tag, same]

theorem pending_congr {c' : Cache} (tags : c'.tags = c.tags) (landed : c'.lineReady = c.lineReady)
    (line : Nat) : pending g c' line = pending g c line := by
  rw [pending, pending, findWay_congr tags, landed]

structure Still (c c' : Cache) : Prop where
  tags : c'.tags = c.tags
  landed : c'.lineReady = c.lineReady
  free : c'.nextLevelFree = c.nextLevelFree

theorem fills_iff (line : Nat) :
    fills g a c line = true ↔ g.allocates a.isWrite = true ∧ pending g c line = none := by
  simp [fills, pending]

theorem turn_still (settled : Settled c) (ready : Int) {line : Nat}
    (kept : fills g a c line = false) :
    (turn g a (ready, c) line).1 = (pending g c line).toList.foldl max ready ∧
      Still c (turn g a (ready, c) line).2 := by
  cases found : c.findWay g line with
  | some way =>
      have nonneg := settled.landed (g.index (g.set line) way)
      simp only [turn, Cache.lookup, found, if_pos nonneg, pending]
      exact ⟨rfl, ⟨rfl, rfl, rfl⟩⟩
  | none =>
      -- a store that misses without allocating goes around the cache
      have around : g.allocates a.isWrite = false := by
        simpa [fills, found] using kept
      simp only [turn, Cache.lookup, found, around, pending]
      exact ⟨rfl, ⟨rfl, rfl, rfl⟩⟩

theorem turn_fill (ready : Int) {line : Nat} (pulled : fills g a c line = true) :
    (turn g a (ready, c) line).1 = max ready
        (max a.now c.nextLevelFree + a.nextLevelLatency + g.missLatency + g.refillCycles) ∧
      (turn g a (ready, c) line).2.nextLevelFree = max a.now c.nextLevelFree + g.refillCycles ∧
      ∃ i, (turn g a (ready, c) line).2.lineReady = setAt c.lineReady i
        (max a.now c.nextLevelFree + a.nextLevelLatency + g.missLatency + g.refillCycles) := by
  obtain ⟨allocates, absent⟩ := (fills_iff line).mp pulled
  have missing := Option.map_eq_none_iff.mp absent
  simp only [turn, Cache.lookup, missing, allocates]
  exact ⟨rfl, rfl, _, rfl⟩

theorem dues_still {line : Nat} (kept : fills g a c line = false) (rest : List Nat) (ready : Int) :
    dues g a (line :: rest) (ready, c) =
      (pending g c line).toList ++ dues g a rest (turn g a (ready, c) line) := by
  rw [dues]
  cases there : pending g c line with
  | some landed => rfl
  | none =>
      have around : ¬ g.allocates a.isWrite = true := fun allocates => by
        rw [(fills_iff line).mpr ⟨allocates, there⟩] at kept
        cases kept
      rw [if_neg around]
      rfl

theorem dues_fill {line : Nat} (pulled : fills g a c line = true) (rest : List Nat) (ready : Int) :
    dues g a (line :: rest) (ready, c) =
      (max a.now c.nextLevelFree + a.nextLevelLatency + g.missLatency + g.refillCycles) ::
        dues g a rest (turn g a (ready, c) line) := by
  obtain ⟨allocates, absent⟩ := (fills_iff line).mp pulled
  simp only [dues, absent, if_pos allocates]
  rfl

theorem Still.settled {c' : Cache} (still : Still c c') (settled : Settled c) : Settled c' :=
  ⟨still.free ▸ settled.free, still.landed ▸ settled.landed⟩

theorem Still.fills {c' : Cache} (still : Still c c') (line : Nat) :
    fills g a c' line = fills g a c line := by
  rw [StoreBuffer.fills, StoreBuffer.fills, findWay_congr still.tags]

theorem turn_settled (settled : Settled c) (answered : 0 ≤ a.nextLevelLatency) (ready : Int)
    (line : Nat) : Settled (turn g a (ready, c) line).2 := by
  cases pulled : fills g a c line with
  | false => exact (turn_still settled ready pulled).2.settled settled
  | true =>
      obtain ⟨_, free, i, landed⟩ := turn_fill ready pulled
      have start := settled.free
      constructor
      · rw [free]
        omega
      · intro j
        rw [landed, setAt]
        split
        · omega
        · exact settled.landed j

theorem loop_port (settled : Settled c) (answered : 0 ≤ a.nextLevelLatency) (lines : List Nat)
    (ready : Int) :
    (lines.foldl (turn g a) (ready, c)).2.nextLevelFree =
        finish c.nextLevelFree (lineJobs g a lines (ready, c)) ∧
      (lines.foldl (turn g a) (ready, c)).1 = (dues g a lines (ready, c)).foldl max ready ∧
      Settled (lines.foldl (turn g a) (ready, c)).2 := by
  induction lines generalizing ready c with
  | nil => exact ⟨rfl, rfl, settled⟩
  | cons line rest ih =>
      obtain ⟨port, last, after⟩ := ih (turn_settled settled answered ready line)
        (turn g a (ready, c) line).1
      rw [List.foldl_cons, lineJobs, finish_append]
      -- the port moves on only with a line that is pulled in
      cases pulled : fills g a c line with
      | false =>
          obtain ⟨waits, still⟩ := turn_still settled ready pulled
          rw [dues_still pulled, List.foldl_append, ← waits, if_neg Bool.false_ne_true]
          exact ⟨port.trans (congrArg (finish · _) still.free), last, after⟩
      | true =>
          obtain ⟨waits, free, _⟩ := turn_fill ready pulled
          rw [dues_fill pulled, List.foldl_cons, ← waits, if_pos rfl]
          exact ⟨port.trans (congrArg (finish · _) free), last, after⟩

theorem loop_still (settled : Settled c) (lines : List Nat) (ready : Int)
    (kept : ∀ line ∈ lines, fills g a c line = false) :
    dues g a lines (ready, c) = lines.filterMap (pending g c) ∧
      lineJobs g a lines (ready, c) = [] := by
  induction lines generalizing ready c with
  | nil => exact ⟨rfl, rfl⟩
  | cons line rest ih =>
      have first := kept line List.mem_cons_self
      obtain ⟨_, still⟩ := turn_still settled ready first
      have same : pending g (turn g a (ready, c) line).2 = pending g c :=
        funext fun other => pending_congr still.tags still.landed other
      obtain ⟨later, none⟩ := ih (c := (turn g a (ready, c) line).2) (still.settled settled)
        (turn g a (ready, c) line).1 fun other member => by
          rw [still.fills]
          exact kept other (List.mem_cons_of_mem _ member)
      rw [same] at later
      constructor
      · rw [dues_still first, later]
        cases there : pending g c line <;> simp [there]
      · rw [lineJobs, first, none]
        rfl

theorem loop_behind (settled : Settled c) (answered : 0 ≤ a.nextLevelLatency) (lines : List Nat)
    (ready : Int)
    (pulls : c.nextLevelFree ≤ ready ∨ ∃ line ∈ lines, fills g a c line = true) :
    (lines.foldl (turn g a) (ready, c)).2.nextLevelFree ≤
      (lines.foldl (turn g a) (ready, c)).1 := by
  induction lines generalizing ready c with
  | nil =>
      rcases pulls with behind | ⟨line, member, _⟩
      · exact behind
      · cases member
  | cons line rest ih =>
      rw [List.foldl_cons]
      refine ih (turn_settled settled answered ready line) (turn g a (ready, c) line).1 ?_
      cases pulled : fills g a c line with
      | true =>
          obtain ⟨waits, free, _⟩ := turn_fill ready pulled
          left
          rw [waits, free]
          omega
      | false =>
          obtain ⟨waits, still⟩ := turn_still settled ready pulled
          have later : ready ≤ (turn g a (ready, c) line).1 := by
            rw [waits]
            cases pending g c line with
            | none => exact le_rfl
            | some landed => exact le_max_left ready landed
          rcases pulls with behind | ⟨other, member, pulls⟩
          · left
            rw [still.free]
            exact behind.trans later
          · right
            rcases List.mem_cons.mp member with here | member
            · rw [here, pulled] at pulls
              cases pulls
            · exact ⟨other, member, (still.fills other).trans pulls⟩

end Lines

/-! ### One access -/

section Accesses

variable {g : Config} {a : Access} {c : Cache}

theorem counted_still (c : Cache) (isWrite : Bool) : Still c (c.counted isWrite) := by
  cases isWrite <;> exact ⟨rfl, rfl, rfl⟩

def loopEnd (g : Config) (c : Cache) (a : Access) : Int × Cache :=
  (g.lines a.addr a.size).foldl (turn g a) (a.now + g.hitLatency, c.counted a.isWrite)

variable (through : g.writeback = false)

include through

theorem access_store (store : a.isWrite = true) :
    (c.access g a).1 = max 0 (max (loopEnd g c a).1 (max a.now (loopEnd g c a).2.nextLevelFree +
        g.writeCycles - g.storeBufferCycles) - a.now) ∧
      (c.access g a).2.nextLevelFree =
        max a.now (loopEnd g c a).2.nextLevelFree + g.writeCycles ∧
      (c.access g a).2.lineReady = (loopEnd g c a).2.lineReady := by
  simp [Cache.access, stored, store, through, loopEnd]

omit through in
theorem access_load (load : a.isWrite = false) :
    (c.access g a).2.nextLevelFree = (loopEnd g c a).2.nextLevelFree ∧
      (c.access g a).2.lineReady = (loopEnd g c a).2.lineReady := by
  simp [Cache.access, stored, load, loopEnd]

theorem access_port (settled : Settled c) (answered : 0 ≤ a.nextLevelLatency) :
    (c.access g a).2.nextLevelFree = finish c.nextLevelFree (accessJobs g c a) ∧
      Settled (c.access g a).2 := by
  have counted := counted_still c a.isWrite
  obtain ⟨port, _, after⟩ := loop_port (counted.settled settled) answered
    (g.lines a.addr a.size) (a.now + g.hitLatency)
  rw [counted.free] at port
  rw [accessJobs, finish_append, ← port]
  cases kind : a.isWrite with
  | true =>
      obtain ⟨_, free, landed⟩ := access_store (c := c) through kind
      rw [loopEnd, kind] at free landed
      rw [kind] at after
      have start := after.free
      exact ⟨free, by rw [free]; omega, landed ▸ after.landed⟩
  | false =>
      obtain ⟨free, landed⟩ := access_load (g := g) (c := c) kind
      rw [loopEnd, kind] at free landed
      rw [kind] at after
      exact ⟨free, free ▸ after.free, landed ▸ after.landed⟩

end Accesses

/-! ### Runs -/

section Runs

variable {g : Config}

structure Consistent (g : Config) (p : Past) (t : Int) : Prop where
  settled : Settled p.cache
  port : p.cache.nextLevelFree = finish 0 p.jobs
  drains : p.drains = ((ends 0 p.jobs).filter fun one => one.1.kind.isStore).map Prod.snd
  arrived : ∀ job ∈ p.jobs, job.arrival ≤ t
  takes : ∀ job ∈ p.jobs,
    job.cycles = if job.kind.isStore then (g.writeCycles : Int) else g.refillCycles

theorem lineJobs_refills (a : Access) (lines : List Nat) (st : Int × Cache) :
    ∀ job ∈ lineJobs g a lines st, job = ⟨.refill, a.now, g.refillCycles⟩ := by
  induction lines generalizing st with
  | nil => intro job member; cases member
  | cons line rest ih =>
      intro job member
      rcases List.mem_append.mp member with here | later
      · split at here
        · exact List.mem_singleton.mp here
        · cases here
      · exact ih _ job later

theorem refill_ends (free : Int) (jobs : List (Job Use))
    (refills : ∀ job ∈ jobs, job.kind = .refill) :
    (ends free jobs).filter (fun one => one.1.kind.isStore) = [] := by
  rw [List.filter_eq_nil_iff]
  intro one member
  have known : one.1 ∈ jobs := by
    rw [← ends_jobs free jobs]
    exact List.mem_map_of_mem member
  rw [refills one.1 known]
  decide

theorem serve_consistent (through : g.writeback = false) {p : Past} {a : Access}
    (consistent : Consistent g p a.now) (answered : 0 ≤ a.nextLevelLatency) :
    Consistent g (serve g p a) a.now := by
  obtain ⟨port, settled⟩ := access_port through consistent.settled answered
  have refills := lineJobs_refills (g := g) a (g.lines a.addr a.size)
    (a.now + g.hitLatency, p.cache.counted a.isWrite)
  have silent (free : Int) := refill_ends free (lineJobs g a (g.lines a.addr a.size)
    (a.now + g.hitLatency, p.cache.counted a.isWrite)) fun job member => by rw [refills job member]
  have known : ∀ job ∈ accessJobs g p.cache a, job.arrival = a.now ∧
      job.cycles = if job.kind.isStore then (g.writeCycles : Int) else g.refillCycles := by
    intro job member
    rcases List.mem_append.mp member with refill | store
    · rw [refills job refill]
      exact ⟨rfl, rfl⟩
    · split at store
      · rw [List.mem_singleton.mp store]
        exact ⟨rfl, rfl⟩
      · cases store
  refine ⟨settled, ?_, ?_, ?_, ?_⟩
  · show (p.cache.access g a).2.nextLevelFree = finish 0 (p.jobs ++ accessJobs g p.cache a)
    rw [finish_append, ← consistent.port, port]
  · show (if a.isWrite then p.drains ++ [(p.cache.access g a).2.nextLevelFree] else p.drains) =
      ((ends 0 (p.jobs ++ accessJobs g p.cache a)).filter fun one =>
        one.1.kind.isStore).map Prod.snd
    rw [ends_append, List.filter_append, List.map_append, ← consistent.drains,
      ← consistent.port, port, accessJobs, ends_append, List.filter_append, silent,
      List.nil_append, finish_append]
    cases a.isWrite with
    | true => rfl
    | false => exact (List.append_nil _).symm
  · intro job member
    rcases List.mem_append.mp member with before | new
    · exact consistent.arrived job before
    · exact (known job new).1.le
  · intro job member
    rcases List.mem_append.mp member with before | new
    · exact consistent.takes job before
    · exact (known job new).2

theorem Consistent.later {p : Past} {t t' : Int} (consistent : Consistent g p t) (order : t ≤ t') :
    Consistent g p t' :=
  { consistent with arrived := fun job member => (consistent.arrived job member).trans order }

theorem play_consistent (through : g.writeback = false) (accesses : List Access)
    (timed : Timed accesses) (t : Int) (past : ∀ a ∈ accesses, a.now ≤ t) :
    Consistent g (play g accesses) t := by
  induction accesses using List.reverseRecOn generalizing t with
  | nil =>
      refine ⟨⟨Int.le_refl 0, fun _ => Int.le_refl 0⟩, rfl, rfl, ?_, ?_⟩
      · intro job member; cases member
      · intro job member; cases member
  | append_singleton before a ih =>
      obtain ⟨ordered, _, apart⟩ := List.pairwise_append.mp timed.ordered
      have earlier : Timed before :=
        ⟨ordered, fun b member => timed.started b (List.mem_append_left _ member),
          fun b member => timed.answered b (List.mem_append_left _ member)⟩
      have last : a ∈ before ++ [a] := List.mem_append_right _ List.mem_cons_self
      have consistent := ih earlier a.now fun b member => apart b member a List.mem_cons_self
      have step : play g (before ++ [a]) = serve g (play g before) a := List.foldl_concat ..
      rw [step]
      exact (serve_consistent through consistent (timed.answered a last)).later (past a last)

/-! ### A store of a run -/

theorem absent_probe (c : Cache) (a : Access) : c.probe g a.addr a.size = false ↔
    ∃ line ∈ g.lines a.addr a.size, pending g c line = none := by
  simp only [Cache.probe, ← Bool.not_eq_true, List.all_eq_true, not_forall, Cache.resident,
    pending, Option.map_eq_none_iff, Cache.findWay, List.find?_eq_none, List.any_eq_true,
    not_exists, not_and, exists_prop]

theorem pulls_iff {a : Access} (store : a.isWrite = true) (c : Cache) :
    (∃ line ∈ g.lines a.addr a.size, fills g a (c.counted a.isWrite) line = true) ↔
      g.writeAllocate = true ∧ c.probe g a.addr a.size = false := by
  simp only [absent_probe, fills_iff, Config.allocates, store, Bool.not_true, Bool.false_or]
  constructor
  · rintro ⟨line, member, allocates, absent⟩
    exact ⟨allocates, line, member, absent⟩
  · rintro ⟨allocates, line, member, absent⟩
    exact ⟨line, member, allocates, absent⟩

theorem port_backlog {p : Past} {now : Int} (consistent : Consistent g p now) (started : 0 ≤ now) :
    max now p.cache.nextLevelFree = now + (p.refilling now + p.draining now) := by
  have behind := backlog Use.isStore now 0 p.jobs consistent.arrived fun job member => by
    rw [consistent.takes job member]
    split <;> exact Int.natCast_nonneg _
  rw [← consistent.port] at behind
  rw [Past.refilling, Past.draining]
  omega

theorem draining_most {p : Past} {now : Int} (consistent : Consistent g p now) :
    p.draining now ≤ (p.undrained now : Nat) * (g.writeCycles : Int) := by
  have most := remaining_most Use.isStore now 0 g.writeCycles p.jobs (Int.natCast_nonneg _)
    fun job member store => by rw [consistent.takes job member, if_pos store]
  rw [Past.undrained, consistent.drains, List.countP_map]
  exact most

theorem latest_hit (g : Config) (a : Access) (refills : List Int) :
    a.now + g.hitLatency ≤ latest g a refills := by
  rw [latest]
  generalize a.now + (g.hitLatency : Int) = hit
  induction refills generalizing hit with
  | nil => exact Int.le_refl _
  | cons landed rest ih => exact (le_max_left _ _).trans (ih _)

theorem stores_alone {p : Past} {a : Access} (consistent : Consistent g p a.now)
    (clear : p.refilling a.now = 0) : Room g p a := by
  intro entry
  right
  have most := draining_most consistent
  have waits := latest_hit g a ((g.lines a.addr a.size).filterMap (pending g p.cache))
  have whole : ((p.undrained a.now + 1 : Nat) : Int) * g.writeCycles ≤ g.storeBufferCycles := by
    rw [Config.storeBufferCycles]
    exact_mod_cast Nat.mul_le_mul_right _ entry
  push_cast at whole
  rw [clear]
  linarith

/-- In every run a store with a free entry in the buffer keeps to its hit and its
refills exactly where what is left of refills on the port leaves it the room. -/
theorem store_stalls (g : Config) (through : g.writeback = false) (accesses : List Access)
    (timed : Timed accesses) (earlier later : List Access) (a : Access)
    (split : accesses = earlier ++ a :: later) (store : a.isWrite = true) :
    Unstalled g (play g earlier) a ↔ Room g (play g earlier) a := by
  subst split
  obtain ⟨ordered, _, apart⟩ := List.pairwise_append.mp timed.ordered
  have here : a ∈ earlier ++ a :: later := List.mem_append_right _ List.mem_cons_self
  have answered := timed.answered a here
  have consistent : Consistent g (play g earlier) a.now :=
    play_consistent through earlier
      ⟨ordered, fun b member => timed.started b (List.mem_append_left _ member),
        fun b member => timed.answered b (List.mem_append_left _ member)⟩ a.now
      fun b member => apart b member a List.mem_cons_self
  have backlog := port_backlog consistent (timed.started a here)
  generalize play g earlier = p at *
  have counted := counted_still p.cache a.isWrite
  have settled := counted.settled consistent.settled
  obtain ⟨latency, _, _⟩ := access_store (c := p.cache) through store
  have waits : (loopEnd g p.cache a).1 = latest g a (dues g a (g.lines a.addr a.size)
      (a.now + g.hitLatency, p.cache.counted a.isWrite)) :=
    (loop_port settled answered (g.lines a.addr a.size) (a.now + g.hitLatency)).2.1
  refine forall_congr' fun entry => ?_
  have room : (g.writeCycles : Int) ≤ g.storeBufferCycles := by
    rw [Config.storeBufferCycles]
    exact_mod_cast Nat.le_mul_of_pos_left _ (Nat.zero_lt_of_lt entry)
  rw [latency, ← waits, ← pulls_iff store p.cache]
  by_cases pulls : ∃ line ∈ g.lines a.addr a.size, fills g a (p.cache.counted a.isWrite) line = true
  · -- its own refill keeps the store waiting at least as long as the port is busy
    have behind := loop_behind settled answered (g.lines a.addr a.size) (a.now + g.hitLatency)
      (.inr pulls)
    have busy : (loopEnd g p.cache a).2.nextLevelFree ≤ (loopEnd g p.cache a).1 := behind
    have hit : a.now + g.hitLatency ≤ (loopEnd g p.cache a).1 := waits ▸ latest_hit g a _
    refine iff_of_true ?_ (.inl pulls)
    omega
  · have kept : ∀ line ∈ g.lines a.addr a.size,
      fills g a (p.cache.counted a.isWrite) line = false :=
      fun line member => Bool.eq_false_iff.mpr fun pulled => pulls ⟨line, member, pulled⟩
    obtain ⟨still, none⟩ := loop_still settled (g.lines a.addr a.size) (a.now + g.hitLatency) kept
    have port : (loopEnd g p.cache a).2.nextLevelFree = p.cache.nextLevelFree := by
      have whole := (loop_port (g := g) settled answered (g.lines a.addr a.size)
        (a.now + g.hitLatency)).1
      rw [none] at whole
      exact whole.trans counted.free
    have same : pending g (p.cache.counted a.isWrite) = pending g p.cache :=
      funext fun line => pending_congr counted.tags counted.landed line
    rw [same] at still
    rw [still] at waits
    have hit := latest_hit g a ((g.lines a.addr a.size).filterMap (pending g p.cache))
    rw [waits, port, backlog, or_iff_right pulls]
    omega

end Runs

/-! ### The L2 in front of the fixed-latency memory -/

def fixedL2 : Config :=
  { size := 512 * 1024, lineSize := 64, ways := 8, hitLatency := 10, refillCycles := 8,
    writeCycles := 1, storeBufferSize := 8, writeAllocate := true, writeback := false }

def load (now : Int) (addr : Nat) : Access :=
  { now := now, addr := addr, size := 64, isWrite := false, nextLevelLatency := 100 }

def storeAt (now : Int) (addr : Nat) : Access :=
  { now := now, addr := addr, size := 8, isWrite := true, nextLevelLatency := 100 }

/-- A refill and a store that are still on the port at cycle 1000. -/
def queued : List Access := [load 0 0, load 1000 64, storeAt 1000 0]

/-- Nine cycles of the port are taken, one of them by a store, and the next store has room. -/
theorem store_stalls_queued : (play fixedL2 queued).undrained 1000 = 1 ∧
    (play fixedL2 queued).cache.nextLevelFree = 1009 ∧
    Unstalled fixedL2 (play fixedL2 queued) (storeAt 1000 0) := by
  refine ⟨by decide +kernel, by decide +kernel,
    (store_stalls fixedL2 rfl (queued ++ [storeAt 1000 0]) ⟨?_, ?_, ?_⟩ queued [] (storeAt 1000 0)
      rfl rfl).mpr fun _ => .inr ?_⟩
  · simp [queued, load, storeAt]
  · simp [queued, load, storeAt]
  · simp [queued, load, storeAt]
  · decide +kernel

/-- Three masters miss in the cycle of a store that hits: no store is waiting, and
the store takes 17 cycles in place of 10. -/
def crowded : List Access := [load 0 0, load 1000 64, load 1000 128, load 1000 192]

theorem refills_stall : Timed (crowded ++ [storeAt 1000 0]) ∧
    (play fixedL2 crowded).undrained 1000 = 0 ∧
    ((play fixedL2 crowded).cache.access fixedL2 (storeAt 1000 0)).1 = 17 ∧
    ¬ Unstalled fixedL2 (play fixedL2 crowded) (storeAt 1000 0) := by
  have entry : (play fixedL2 crowded).undrained 1000 < fixedL2.storeBufferSize := by decide +kernel
  refine ⟨⟨?_, ?_, ?_⟩, by decide +kernel, by decide +kernel, fun unstalled => ?_⟩
  · simp [crowded, load, storeAt]
  · simp [crowded, load, storeAt]
  · simp [crowded, load, storeAt]
  · exact absurd (unstalled entry) (by decide +kernel)

end HeteroSim.StoreBuffer
