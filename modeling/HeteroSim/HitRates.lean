import HeteroSim.MoreWays
import Mathlib.Algebra.Order.Field.Rat
import Mathlib.Tactic.FieldSimp

/-!
The hit rate of a cache in two reports. A cache counts an access once and a hit or a miss
for each of its lines; the pipeline divides hits by lookups, the GUI misses by accesses.
Rates are exact, as before rounding.
-/

namespace HeteroSim.HitRates

open TimingCache MoreWays

/-- The counters as `stop` prints them. -/
structure Printed where
  accesses : Nat
  reads : Nat
  writes : Nat
  hits : Nat
  misses : Nat
  latencyCycles : Nat

def stop (c : Cache) : Printed where
  accesses := (c.nbRead + c.nbWrite) % word
  reads := c.nbRead
  writes := c.nbWrite
  hits := c.nbHit
  misses := c.nbMiss
  latencyCycles := c.nbLatencyCycles

/-- The `hit_rate` of `parse_caches`: per line looked up. -/
def parseCaches (line : Printed) : Option ℚ :=
  let lookups := line.hits + line.misses
  if lookups = 0 then none else some (line.hits / lookups)

/-- The GUI's `Cache`. -/
structure GuiCache where
  accesses : Nat := 0
  misses : Nat := 0
  hitRate : Option ℚ := none
  latencyCycles : Nat := 0

/-- What `run_hetero.py` writes of a cache. -/
def heteroCache (line : Printed) : GuiCache :=
  { accesses := line.accesses, misses := line.misses, latencyCycles := line.latencyCycles }

/-- `Cache::hit_rate`. -/
def GuiCache.rate (c : GuiCache) : Option ℚ :=
  c.hitRate.orElse fun _ => if 0 < c.accesses then some (1 - c.misses / c.accesses) else none

/-- Both reports have the same rate, which is one, or both have none. -/
def Agree (c : Cache) : Prop :=
  parseCaches (stop c) = (heteroCache (stop c)).rate ∧
    ∀ rate ∈ parseCaches (stop c), 0 ≤ rate ∧ rate ≤ 1

/-! ### Runs -/

def play (g : Config) (accesses : List Access) : Cache :=
  accesses.foldl (fun c a => (c.access g a).2) reset

/-- How many lines a run looks up. -/
def lookups (g : Config) (accesses : List Access) : Nat :=
  (accesses.map fun a => (g.lines a.addr a.size).length).sum

/-- The counters after a number of lookups. Nothing is cached before the first miss. -/
structure Tallied (c : Cache) (looked hits misses : Nat) : Prop where
  all : hits + misses = looked
  hit : c.nbHit = hits % word
  miss : c.nbMiss = misses % word
  cold : misses = 0 → looked = 0 ∧ ∀ i, c.tags i = lineInvalid

section Counters

variable {g : Config} {c : Cache} {looked hits misses : Nat}

theorem lookup_counters (g : Config) (c : Cache) (line : Nat) (allocate : Bool)
    (readyTime : Int) : (c.lookup g line allocate readyTime).2.nbHit = c.nbHit ∧
      (c.lookup g line allocate readyTime).2.nbMiss = c.nbMiss := by
  rw [Cache.lookup]
  split
  · exact ⟨rfl, rfl⟩
  · cases allocate <;> exact ⟨rfl, rfl⟩

theorem cold_misses (cold : ∀ i, c.tags i = lineInvalid) {line : Nat} (valid : line < lineInvalid)
    (allocate : Bool) (readyTime : Int) : (c.lookup g line allocate readyTime).1 < 0 := by
  have absent : c.findWay g line = none := by
    rw [Cache.findWay, List.find?_eq_none]
    intro way _
    simp only [Cache.tag, cold, beq_iff_eq]
    omega
  rw [Cache.lookup, absent]
  cases allocate <;> simp

theorem turn_tallied (a : Access) (ready : Int) (line : Nat) (valid : line < lineInvalid)
    (tallied : Tallied c looked hits misses) :
    ∃ hits' misses', Tallied (turn g a (ready, c) line).2 (looked + 1) hits' misses' := by
  obtain ⟨all, hit, miss, cold⟩ := tallied
  have kept := lookup_counters g c line (g.allocates a.isWrite)
    (max a.now c.nextLevelFree + a.nextLevelLatency + g.missLatency + g.refillCycles)
  have absent (nothing : ∀ i, c.tags i = lineInvalid) :=
    cold_misses (g := g) nothing valid (g.allocates a.isWrite)
      (max a.now c.nextLevelFree + a.nextLevelLatency + g.missLatency + g.refillCycles)
  simp only [turn]
  generalize c.lookup g line (g.allocates a.isWrite)
    (max a.now c.nextLevelFree + a.nextLevelLatency + g.missLatency + g.refillCycles) = found at *
  by_cases there : 0 ≤ found.1
  · rw [if_pos there]
    refine ⟨hits + 1, misses, by omega, ?_, kept.2.trans miss, fun nothing => ?_⟩
    · simp only [kept.1, hit, Nat.mod_add_mod]
    · have before := absent (cold nothing).2
      omega
  · rw [if_neg there]
    have missed : (found.2.nbMiss + 1) % word = (misses + 1) % word := by
      rw [kept.2, miss, Nat.mod_add_mod]
    refine ⟨hits, misses + 1, by omega, ?_, ?_, fun nothing => absurd nothing (Nat.succ_ne_zero _)⟩
    · split <;> exact kept.1.trans hit
    · split <;> exact missed

theorem lines_tallied (a : Access) (lines : List Nat) (valid : ∀ line ∈ lines, line < lineInvalid)
    (ready : Int) (tallied : Tallied c looked hits misses) :
    ∃ hits' misses', Tallied (lines.foldl (turn g a) (ready, c)).2 (looked + lines.length)
      hits' misses' := by
  induction lines generalizing ready c looked hits misses with
  | nil => exact ⟨hits, misses, tallied⟩
  | cons line rest ih =>
      obtain ⟨first, others⟩ := List.forall_mem_cons.mp valid
      obtain ⟨hits', misses', one⟩ := turn_tallied (g := g) a ready line first tallied
      obtain ⟨hits'', misses'', run⟩ := ih others (turn g a (ready, c) line).1 one
      refine ⟨hits'', misses'', ?_⟩
      rw [List.length_cons, Nat.add_comm rest.length, ← Nat.add_assoc]
      exact run

theorem alike_tallied {d : Cache} (alike : Alike c d) (tallied : Tallied c looked hits misses) :
    Tallied d looked hits misses where
  all := tallied.all
  hit := alike.nbHit.trans tallied.hit
  miss := alike.nbMiss.trans tallied.miss
  cold none := by
    rw [alike.same.tags]
    exact tallied.cold none

/-! ### How often it was accessed -/

structure SameRequests (c d : Cache) : Prop where
  reads : d.nbRead = c.nbRead
  writes : d.nbWrite = c.nbWrite

theorem SameRequests.trans {c d e : Cache} (first : SameRequests c d) (second : SameRequests d e) :
    SameRequests c e :=
  ⟨second.reads.trans first.reads, second.writes.trans first.writes⟩

theorem turn_requests (a : Access) (st : Int × Cache) (line : Nat) :
    SameRequests st.2 (turn g a st line).2 := by
  have kept (allocate : Bool) (readyTime : Int) :
      SameRequests st.2 (st.2.lookup g line allocate readyTime).2 := by
    rw [Cache.lookup]
    split
    · exact ⟨rfl, rfl⟩
    · cases allocate <;> exact ⟨rfl, rfl⟩
  simp only [turn]
  split
  · exact ⟨(kept _ _).reads, (kept _ _).writes⟩
  · split <;> exact ⟨(kept _ _).reads, (kept _ _).writes⟩

theorem turns_requests (a : Access) (lines : List Nat) (st : Int × Cache) :
    SameRequests st.2 (lines.foldl (turn g a) st).2 := by
  induction lines generalizing st with
  | nil => exact ⟨rfl, rfl⟩
  | cons line rest ih => exact (turn_requests a st line).trans (ih _)

theorem markDirty_requests (lines : List Nat) (c : Cache) :
    SameRequests c (lines.foldl (Cache.markDirty g) c) := by
  induction lines generalizing c with
  | nil => exact ⟨rfl, rfl⟩
  | cons line rest ih =>
      have one : SameRequests c (c.markDirty g line) := by
        rw [Cache.markDirty]
        split <;> exact ⟨rfl, rfl⟩
      exact one.trans (ih _)

theorem stored_requests (a : Access) (st : Int × Cache) : SameRequests st.2 (stored g a st).2 := by
  simp only [stored]
  split
  · exact markDirty_requests _ _
  · split <;> exact ⟨rfl, rfl⟩

theorem access_requests (a : Access) (c : Cache) :
    ((c.access g a).2.nbRead + (c.access g a).2.nbWrite) % word =
      (c.nbRead + c.nbWrite + 1) % word := by
  have kept := (turns_requests (g := g) a (g.lines a.addr a.size)
    (a.now + g.hitLatency, c.counted a.isWrite)).trans (stored_requests (g := g) a _)
  have reads : (c.access g a).2.nbRead = (c.counted a.isWrite).nbRead := kept.reads
  have writes : (c.access g a).2.nbWrite = (c.counted a.isWrite).nbWrite := kept.writes
  rw [reads, writes, Cache.counted]
  split
  · rw [Nat.add_mod_mod, Nat.add_assoc]
  · rw [Nat.mod_add_mod, Nat.add_right_comm]

end Counters

theorem play_tallied (g : Config) (accesses : List Access)
    (ends : ∀ a ∈ accesses, ∀ line ∈ g.lines a.addr a.size, line < lineInvalid) :
    (∃ hits misses, Tallied (play g accesses) (lookups g accesses) hits misses) ∧
      (stop (play g accesses)).accesses = accesses.length % word := by
  induction accesses using List.reverseRecOn with
  | nil => exact ⟨⟨0, 0, rfl, rfl, rfl, fun _ => ⟨rfl, fun _ => rfl⟩⟩, rfl⟩
  | append_singleton before a ih =>
      obtain ⟨⟨hits, misses, tallied⟩, made⟩ := ih fun b member =>
        ends b (List.mem_append_left _ member)
      have step : play g (before ++ [a]) = ((play g before).access g a).2 := List.foldl_concat ..
      have total : lookups g (before ++ [a]) =
          lookups g before + (g.lines a.addr a.size).length := by
        simp [lookups]
      rw [step, total]
      constructor
      · obtain ⟨hits', misses', counted⟩ := lines_tallied (g := g) a (g.lines a.addr a.size)
          (ends a List.mem_concat_self) (a.now + g.hitLatency)
          (alike_tallied (counted_alike (play g before) a.isWrite) tallied)
        exact ⟨hits', misses', alike_tallied (access_alike g _ a) counted⟩
      · simp only [stop] at made ⊢
        rw [access_requests, ← Nat.mod_add_mod, made, Nat.mod_add_mod, List.length_append,
          List.length_singleton]

theorem rates_equal (hits : Nat) {misses accesses : Nat} (missed : 0 < misses)
    (nonempty : 0 < accesses) :
    (hits : ℚ) / (hits + misses) = 1 - misses / accesses ↔ hits + misses = accesses := by
  have lines : (hits : ℚ) + misses ≠ 0 := by positivity
  have made : (accesses : ℚ) ≠ 0 := by positivity
  have lost : (misses : ℚ) ≠ 0 := by positivity
  have rest : (hits : ℚ) / (hits + misses) = 1 - misses / (hits + misses) := by
    field_simp
    ring
  rw [rest, sub_right_inj, div_eq_div_iff lines made, mul_right_inj' lost]
  constructor
  · intro same
    exact_mod_cast same.symm
  · intro same
    exact_mod_cast same.symm

/-- The two reports agree on a run exactly if it looked up as many lines as it made
accesses. Fewer than 2^64 of both were counted, and every access ended: the last line
number there is, which the loop over the lines does not get past, is left alone. -/
theorem hit_rates_agree (g : Config) (accesses : List Access)
    (ends : ∀ a ∈ accesses, ∀ line ∈ g.lines a.addr a.size, line < lineInvalid)
    (made : accesses.length < word) (looked : lookups g accesses < word) :
    Agree (play g accesses) ↔ lookups g accesses = accesses.length := by
  obtain ⟨⟨hits, misses, all, hit, miss, cold⟩, requests⟩ := play_tallied g accesses ends
  rw [Nat.mod_eq_of_lt (by omega)] at hit miss requests
  simp only [Agree, parseCaches, heteroCache, GuiCache.rate, Option.orElse_none, requests]
  simp only [stop, hit, miss, all]
  by_cases nothing : lookups g accesses = 0
  · rw [nothing]
    by_cases idle : accesses.length = 0
    · simp [idle]
    · have nonempty : 0 < accesses.length := Nat.pos_of_ne_zero idle
      simp [nonempty, Ne.symm idle]
  · have missed : 0 < misses := Nat.pos_of_ne_zero fun zero => nothing (cold zero).1
    rw [if_neg nothing]
    by_cases idle : accesses.length = 0
    · simp [idle, nothing]
    · have nonempty : 0 < accesses.length := Nat.pos_of_ne_zero idle
      have equal := rates_equal hits missed nonempty
      have cast : ((lookups g accesses : Nat) : ℚ) = hits + misses := by
        rw [← all]
        push_cast
        rfl
      rw [if_pos nonempty, cast, Option.some.injEq, equal, all]
      refine and_iff_left_of_imp fun _ => ?_
      intro rate same
      cases same
      have whole : (0 : ℚ) < hits + misses := by positivity
      exact ⟨by positivity,
        (div_le_one whole).mpr (le_add_of_nonneg_right (Nat.cast_nonneg misses))⟩

/-- The data cache of the host. -/
def dcache : Config := { size := 32 * 1024, lineSize := 64, ways := 8 }

/-- A line is read twice: one miss in two accesses. -/
theorem hit_rates_agree_line : ∃ accesses : List Access, accesses.length = 2 ∧
    Agree (play dcache accesses) := by
  refine ⟨[⟨0, 0, 8, false, 20⟩, ⟨40, 8, 8, false, 0⟩], rfl, ?_⟩
  exact (hit_rates_agree dcache _ (by decide) (by decide) (by decide)).mpr (by decide)

/-- Eight bytes over the end of a line: the GUI has a rate of minus one. -/
theorem straddle_disagrees : parseCaches (stop (play dcache [⟨0, 60, 8, false, 20⟩])) = some 0 ∧
    (heteroCache (stop (play dcache [⟨0, 60, 8, false, 20⟩]))).rate = some (-1) ∧
    ¬ Agree (play dcache [⟨0, 60, 8, false, 20⟩]) := by
  have counters : (stop (play dcache [⟨0, 60, 8, false, 20⟩])).hits = 0 ∧
      (stop (play dcache [⟨0, 60, 8, false, 20⟩])).misses = 2 ∧
      (stop (play dcache [⟨0, 60, 8, false, 20⟩])).accesses = 1 := by decide
  obtain ⟨hits, misses, accesses⟩ := counters
  have run : parseCaches (stop (play dcache [⟨0, 60, 8, false, 20⟩])) = some 0 := by
    simp [parseCaches, hits, misses]
  have gui : (heteroCache (stop (play dcache [⟨0, 60, 8, false, 20⟩]))).rate = some (-1) := by
    simp only [heteroCache, GuiCache.rate, misses, accesses]
    norm_num
  refine ⟨run, gui, fun agree => ?_⟩
  have same := agree.1
  rw [run, gui] at same
  norm_num at same

end HeteroSim.HitRates
