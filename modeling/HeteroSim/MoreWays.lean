import HeteroSim.LruLaw

/-!
Two caches of the same sets, lines and allocation policy see the same accesses. The
one with more ways holds what the other holds, hits where it hits and misses no
more often, until the counters come round. A store that does not allocate may
refresh a line in the larger cache alone.
-/

namespace HeteroSim.MoreWays

open RecencyList TimingCache LruLaw

/-- The same accesses on both caches, each at its own times; `count` line lookups. -/
inductive Driven (g g' : Config) : Cache → Cache → Nat → Prop
  | reset : Driven g g' reset reset 0
  | access (c c' : Cache) (count now now' latency latency' : Nat) (r : Req)
      (before : Driven g g' c c' count) :
      Driven g g' (c.access g (r.access now latency)).2 (c'.access g' (r.access now' latency')).2
        (count + (g.lines r.addr r.size).length)

/-- Two caches that differ in their ways and times only. -/
structure Twins (g g' : Config) : Prop where
  accepted : Accepted g
  accepted' : Accepted g'
  line : g.lineSize = g'.lineSize
  sets : g.nbSets = g'.nbSets
  policy : g.writeAllocate = g'.writeAllocate
  ways : g.ways ≤ g'.ways

section Twins

variable {g g' : Config}

theorem Twins.set (twins : Twins g g') (line : Nat) : g'.set line = g.set line := by
  rw [Config.set, Config.set, Config.setMask, Config.setMask, twins.sets]

theorem Twins.lines (twins : Twins g g') (addr size : Nat) :
    g'.lines addr size = g.lines addr size := by
  have bits : g'.lineBits = g.lineBits := by
    rw [Config.lineBits, Config.lineBits, twins.line]
  simp only [Config.lines, Config.firstLine, Config.lastLine, bits]

theorem Twins.allocates (twins : Twins g g') (isWrite : Bool) :
    g'.allocates isWrite = g.allocates isWrite := by
  rw [Config.allocates, Config.allocates, twins.policy]

/-! ### Counting -/

/-- Every line was or will be ready at a cycle. -/
def Timed (c : Cache) : Prop := ∀ i, 0 ≤ c.lineReady i

/-- The counters after one more lookup. -/
def counts (hit : Bool) (c c' : Cache) : Prop :=
  c'.nbHit = (if hit then (c.nbHit + 1) % word else c.nbHit) ∧
    c'.nbMiss = (if hit then c.nbMiss else (c.nbMiss + 1) % word)

theorem lookup_ready (g : Config) (c : Cache) (line : Nat) (allocate : Bool) (readyTime : Int)
    (timed : Timed c) (later : 0 ≤ readyTime) :
    Timed (c.lookup g line allocate readyTime).2 ∧
      decide (0 ≤ (c.lookup g line allocate readyTime).1) = c.resident g line ∧
      (c.lookup g line allocate readyTime).2.nbHit = c.nbHit ∧
      (c.lookup g line allocate readyTime).2.nbMiss = c.nbMiss := by
  rw [Cache.lookup]
  cases found : c.findWay g line with
  | some way =>
      rw [findWay_resident found]
      exact ⟨timed, decide_eq_true (timed _), rfl, rfl⟩
  | none =>
      rw [findWay_none found]
      cases allocate with
      | false => exact ⟨timed, rfl, rfl, rfl⟩
      | true =>
          refine ⟨fun i => ?_, rfl, rfl, rfl⟩
          show 0 ≤ setAt c.lineReady _ readyTime i
          rw [setAt]
          split
          · exact later
          · exact timed i

theorem turn_counts (g : Config) (a : Access) (ready : Int) (c : Cache) (line : Nat)
    (timed : Timed c) (now : 0 ≤ a.now) (latency : 0 ≤ a.nextLevelLatency) :
    Timed (turn g a (ready, c) line).2 ∧
      counts (c.resident g line) c (turn g a (ready, c) line).2 := by
  have later : 0 ≤ max a.now c.nextLevelFree + a.nextLevelLatency + g.missLatency +
      g.refillCycles := by omega
  obtain ⟨kept, hit, hits, misses⟩ := lookup_ready g c line (g.allocates a.isWrite) _ timed later
  simp only [turn, counts]
  by_cases there : 0 ≤ (c.lookup g line (g.allocates a.isWrite)
      (max a.now c.nextLevelFree + a.nextLevelLatency + g.missLatency + g.refillCycles)).1
  · rw [decide_eq_true there] at hit
    simp only [if_pos there, ← hit, if_true]
    exact ⟨kept, by rw [hits], misses⟩
  · rw [decide_eq_false there] at hit
    simp only [if_neg there, ← hit, Bool.false_eq_true, if_false]
    split
    · exact ⟨kept, hits, by rw [misses]⟩
    · exact ⟨kept, hits, by rw [misses]⟩

/-! ### The relation -/

/-- The two caches after `count` lookups: each is exact for its own uses, the smaller
is inside the larger, and it has hit no more and missed no less. -/
structure Nested (g g' : Config) (c c' : Cache) (uses uses' : List Nat) (count : Nat) :
    Prop where
  law : Law g c uses
  law' : Law g' c' uses'
  few : uses.length ≤ count
  few' : uses'.length ≤ count
  inside : ∀ set < g.nbSets, Inside g.ways g'.ways (latest g uses set) (latest g' uses' set)
  timed : Timed c
  timed' : Timed c'
  all : c.nbHit + c.nbMiss = count
  all' : c'.nbHit + c'.nbMiss = count
  hits : c.nbHit ≤ c'.nbHit

theorem nested_resident (twins : Twins g g') {c c' : Cache} {uses uses' : List Nat} {count : Nat}
    (nested : Nested g g' c c' uses uses' count) {line : Nat} (valid : line < lineInvalid)
    (there : c.resident g line = true) : c'.resident g' line = true := by
  have here := nested.inside _ (set_lt twins.accepted line)
  have resident := holding_resident twins.accepted nested.law.holding valid
  have resident' := holding_resident twins.accepted' nested.law'.holding valid
  rw [twins.set] at resident'
  exact resident'.mpr (here.sublist.subset (resident.mp there))

theorem nested_inside (twins : Twins g g') {c c' : Cache} {uses uses' : List Nat} {count : Nat}
    (nested : Nested g g' c c' uses uses' count) {line : Nat} (valid : line < lineInvalid)
    (allocate : Bool) {set : Nat} (inside : set < g.nbSets) :
    Inside g.ways g'.ways
      (latest g (if c.resident g line || allocate then line :: uses else uses) set)
      (latest g' (if c'.resident g' line || allocate then line :: uses' else uses') set) := by
  by_cases mine : set = g.set line
  · subst mine
    have here := nested.inside _ inside
    have ours : ∀ us, latest g (line :: us) (g.set line) = use g.ways line
        (latest g us (g.set line)) := latest_use line
    have ours' : ∀ us, latest g' (line :: us) (g.set line) = use g'.ways line
        (latest g' us (g.set line)) := by
      intro us
      have used := latest_use (g := g') line us
      rwa [twins.set] at used
    cases allocate
    · -- nothing is allocated, so only what is there is used
      cases there : c.resident g line
      · cases there' : c'.resident g' line
        · exact here
        · simp only [Bool.or_false, Bool.false_eq_true, if_false, if_true]
          have resident := holding_resident twins.accepted nested.law.holding valid
          have resident' := holding_resident twins.accepted' nested.law'.holding valid
          rw [twins.set] at resident'
          have absent : line ∉ latest g uses (g.set line) := by
            rw [← resident, there]
            simp
          rw [ours', use_held (resident'.mp there') here.large]
          exact inside_touch_large here absent (resident'.mp there')
      · rw [nested_resident twins nested valid there]
        simp only [Bool.or_false, if_true]
        rw [ours, ours']
        exact inside_use twins.accepted.ways twins.ways here
    · simp only [Bool.or_true, if_true]
      rw [ours, ours']
      exact inside_use twins.accepted.ways twins.ways here
  · have keeps : ∀ us, latest g (line :: us) set = latest g us set := latest_elsewhere mine
    have keeps' : ∀ us, latest g' (line :: us) set = latest g' us set :=
      latest_elsewhere (by rwa [twins.set])
    have old := nested.inside set inside
    split <;> split <;> simpa only [keeps, keeps'] using old

theorem nested_turn (twins : Twins g g') {c c' : Cache} {uses uses' : List Nat} {count : Nat}
    (nested : Nested g g' c c' uses uses' count) (few : count + 1 < word) (a a' : Access)
    (same : a'.isWrite = a.isWrite) (times : 0 ≤ a.now ∧ 0 ≤ a.nextLevelLatency)
    (times' : 0 ≤ a'.now ∧ 0 ≤ a'.nextLevelLatency) (ready ready' : Int) {line : Nat}
    (valid : line < lineInvalid) :
    ∃ more more', Nested g g' (turn g a (ready, c) line).2 (turn g' a' (ready', c') line).2
      more more' (count + 1) := by
  have policy : g'.allocates a'.isWrite = g.allocates a.isWrite := by
    rw [same, twins.allocates]
  have length := nested.few
  have length' := nested.few'
  have next := lookup_law twins.accepted nested.law valid (g.allocates a.isWrite) 0
    fun _ => by omega
  have next' := lookup_law twins.accepted' nested.law' valid (g'.allocates a'.isWrite) 0
    fun _ => by omega
  obtain ⟨timed, hit, miss⟩ := turn_counts g a ready c line nested.timed times.1 times.2
  obtain ⟨timed', hit', miss'⟩ := turn_counts g' a' ready' c' line nested.timed' times'.1 times'.2
  have all := nested.all
  have all' := nested.all'
  have hits := nested.hits
  -- no counter comes round in so few lookups
  have step : ∀ n, n ≤ count → (n + 1) % word = n + 1 := fun n le => Nat.mod_eq_of_lt (by omega)
  rw [step c.nbHit (by omega)] at hit
  rw [step c.nbMiss (by omega)] at miss
  rw [step c'.nbHit (by omega)] at hit'
  rw [step c'.nbMiss (by omega)] at miss'
  refine ⟨_, _, (turn_same g a ready c line).law next, (turn_same g' a' ready' c' line).law next',
    ?_, ?_, ?_, timed, timed', ?_, ?_, ?_⟩
  · split
    · exact Nat.succ_le_succ length
    · exact Nat.le_succ_of_le length
  · split
    · exact Nat.succ_le_succ length'
    · exact Nat.le_succ_of_le length'
  · intro set inside
    rw [policy]
    exact nested_inside twins nested valid _ inside
  · rw [hit, miss]
    split <;> omega
  · rw [hit', miss']
    split <;> omega
  · rw [hit, hit']
    cases there : c.resident g line
    · simp only [Bool.false_eq_true, if_false]
      split <;> omega
    · rw [nested_resident twins nested valid there]
      simp only [if_true]
      omega

theorem nested_turns (twins : Twins g g') (a a' : Access) (same : a'.isWrite = a.isWrite)
    (times : 0 ≤ a.now ∧ 0 ≤ a.nextLevelLatency) (times' : 0 ≤ a'.now ∧ 0 ≤ a'.nextLevelLatency)
    (lines : List Nat) (valid : ∀ line ∈ lines, line < lineInvalid) {c c' : Cache}
    {uses uses' : List Nat} {count : Nat} (nested : Nested g g' c c' uses uses' count)
    (few : count + lines.length < word) (ready ready' : Int) :
    ∃ more more', Nested g g' (lines.foldl (turn g a) (ready, c)).2
      (lines.foldl (turn g' a') (ready', c')).2 more more' (count + lines.length) := by
  -- Each lookup keeps the relation; the times of the two caches are their own.
  induction lines generalizing c c' uses uses' count ready ready' with
  | nil => exact ⟨_, _, nested⟩
  | cons line rest ih =>
      rw [List.length_cons] at few ⊢
      obtain ⟨_, _, next⟩ := nested_turn twins nested (by omega) a a' same times times' ready
        ready' (valid line List.mem_cons_self)
      rw [← Nat.succ_add_eq_add_succ]
      exact ih (fun other member => valid other (List.mem_cons_of_mem _ member)) next (by omega)
        _ _

/-- What the relation says of a cache: its tag array, its times and its counters. -/
structure Alike (c d : Cache) : Prop where
  same : Same c d
  lineReady : d.lineReady = c.lineReady
  nbHit : d.nbHit = c.nbHit
  nbMiss : d.nbMiss = c.nbMiss

theorem Alike.trans {c d e : Cache} (first : Alike c d) (second : Alike d e) : Alike c e :=
  ⟨first.same.trans second.same, second.lineReady.trans first.lineReady,
    second.nbHit.trans first.nbHit, second.nbMiss.trans first.nbMiss⟩

theorem markDirty_alike (g : Config) (lines : List Nat) (c : Cache) :
    Alike c (lines.foldl (Cache.markDirty g) c) := by
  induction lines generalizing c with
  | nil => exact ⟨Same.rfl' c, rfl, rfl, rfl⟩
  | cons line rest ih =>
      have one : Alike c (c.markDirty g line) := by
        refine ⟨markDirty_same c line, ?_, ?_, ?_⟩ <;> rw [Cache.markDirty] <;> split <;> rfl
      exact one.trans (ih _)

theorem counted_alike (c : Cache) (isWrite : Bool) : Alike c (c.counted isWrite) := by
  refine ⟨counted_same c isWrite, ?_, ?_, ?_⟩ <;> rw [Cache.counted] <;> split <;> rfl

theorem stored_alike (g : Config) (a : Access) (st : Int × Cache) :
    Alike st.2 (stored g a st).2 := by
  simp only [stored]
  split
  · exact markDirty_alike g _ _
  · split <;> exact ⟨⟨rfl, rfl, rfl⟩, rfl, rfl, rfl⟩

theorem access_alike (g : Config) (c : Cache) (a : Access) :
    Alike ((g.lines a.addr a.size).foldl (turn g a) (a.now + g.hitLatency, c.counted a.isWrite)).2
      (c.access g a).2 :=
  (stored_alike g a _).trans ⟨⟨rfl, rfl, rfl⟩, rfl, rfl, rfl⟩

theorem nested_alike {c c' d d' : Cache} {uses uses' : List Nat} {count : Nat}
    (alike : Alike c d) (alike' : Alike c' d') (nested : Nested g g' c c' uses uses' count) :
    Nested g g' d d' uses uses' count where
  law := alike.same.law nested.law
  law' := alike'.same.law nested.law'
  few := nested.few
  few' := nested.few'
  inside := nested.inside
  timed i := by
    rw [alike.lineReady]
    exact nested.timed i
  timed' i := by
    rw [alike'.lineReady]
    exact nested.timed' i
  all := by
    rw [alike.nbHit, alike.nbMiss]
    exact nested.all
  all' := by
    rw [alike'.nbHit, alike'.nbMiss]
    exact nested.all'
  hits := by
    rw [alike.nbHit, alike'.nbHit]
    exact nested.hits

theorem driven_nested (twins : Twins g g') {c c' : Cache} {count : Nat}
    (driven : Driven g g' c c' count) (few : count < word) :
    ∃ uses uses', Nested g g' c c' uses uses' count := by
  induction driven with
  | reset =>
      have empty : ∀ g : Config, ∀ set, latest g [] set = [] := by
        intro g set
        simp [latest, recent]
      refine ⟨[], [], reset_law g, reset_law g', Nat.le_refl 0, Nat.le_refl 0, fun set _ => ?_,
        fun _ => Int.le_refl 0, fun _ => Int.le_refl 0, rfl, rfl, Nat.le_refl 0⟩
      rw [empty, empty]
      exact ⟨List.Sublist.refl [], List.nodup_nil, Nat.zero_le _, Nat.zero_le _, fun _ => rfl⟩
  | access c c' count now now' latency latency' r before ih =>
      obtain ⟨uses, uses', nested⟩ := ih (by omega)
      have lines : g'.lines (r.access now' latency').addr (r.access now' latency').size =
          g.lines r.addr r.size := twins.lines _ _
      obtain ⟨more, more', next⟩ := nested_turns twins (r.access now latency)
        (r.access now' latency') rfl ⟨Int.natCast_nonneg _, Int.natCast_nonneg _⟩
        ⟨Int.natCast_nonneg _, Int.natCast_nonneg _⟩ (g.lines r.addr r.size)
        (fun line member => line_valid twins.accepted member)
        (nested_alike (counted_alike c r.isWrite) (counted_alike c' r.isWrite) nested) few
        ((r.access now latency).now + g.hitLatency) ((r.access now' latency').now + g'.hitLatency)
      refine ⟨more, more', nested_alike (access_alike g c _) (access_alike g' c' _) ?_⟩
      rw [lines]
      exact next

end Twins

/-- More ways never hurt: after any accesses with fewer than `2 ^ 64` line lookups the
cache with more ways holds every line the other holds, has missed no more often and
hit no less often. -/
theorem more_ways (g g' : Config) (twins : Twins g g') (c c' : Cache) (count : Nat)
    (driven : Driven g g' c c' count) (few : count < word) :
    (∀ set < g.nbSets, ∀ line ≠ lineInvalid, (∃ way < g.ways, c.tag g set way = line) →
      ∃ way < g'.ways, c'.tag g' set way = line) ∧
    c'.nbMiss ≤ c.nbMiss ∧ c.nbHit ≤ c'.nbHit := by
  obtain ⟨uses, uses', nested⟩ := driven_nested twins driven few
  refine ⟨fun set below line valid held => ?_, ?_, nested.hits⟩
  · obtain ⟨ws, lines⟩ := nested.law.holding set below
    obtain ⟨ws', lines'⟩ := nested.law'.holding set (twins.sets ▸ below)
    have member := (lines.mem_held line).mpr ⟨valid, held⟩
    exact ((lines'.mem_held line).mp ((nested.inside set below).sublist.subset member)).2
  · have all := nested.all
    have all' := nested.all'
    have hits := nested.hits
    omega

/-! ### When a counter comes round -/

/-- One way of two bytes. -/
def single : Config := { size := 2, lineSize := 2, ways := 1 }

theorem single_accepted : Accepted single :=
  ⟨by decide, by decide, by decide, by decide, by decide⟩

theorem single_narrow : Twins single narrow :=
  ⟨single_accepted, narrow_accepted, by decide, by decide, by decide, by decide⟩

theorem access_line (g : Config) (c : Cache) (r : Req) (line : Nat)
    (lines : g.lines r.addr r.size = [line]) (timed : Timed c) :
    Timed (c.access g (r.access 0 (0 : Nat))).2 ∧
      counts (c.resident g line) c (c.access g (r.access 0 (0 : Nat))).2 ∧
      Same (c.lookup g line (g.allocates r.isWrite) 0).2
        (c.access g (r.access 0 (0 : Nat))).2 := by
  have alike := access_alike g c (r.access 0 (0 : Nat))
  have counted := counted_alike c r.isWrite
  have here : g.lines (r.access 0 (0 : Nat)).addr (r.access 0 (0 : Nat)).size = [line] := lines
  rw [here] at alike
  have ready : Timed (c.counted r.isWrite) := fun i => by
    rw [counted.lineReady]
    exact timed i
  obtain ⟨kept, hit, miss⟩ := turn_counts g (r.access 0 (0 : Nat))
    ((r.access 0 (0 : Nat)).now + g.hitLatency) (c.counted r.isWrite) line ready (Int.le_refl 0)
    (Int.le_refl 0)
  have turned := turn_same g (r.access 0 (0 : Nat))
    ((r.access 0 (0 : Nat)).now + g.hitLatency) (c.counted r.isWrite) line
  rw [counted.same.resident, counted.nbHit] at hit
  rw [counted.same.resident, counted.nbMiss] at miss
  refine ⟨fun i => ?_, ⟨alike.nbHit.trans hit, alike.nbMiss.trans miss⟩,
    ((counted.same.lookup line _ 0 0).trans turned).trans alike.same⟩
  rw [alike.lineReady]
  exact kept i

theorem one_set (g : Config) (sets : g.nbSets = 1) (line : Nat) : g.set line = 0 := by
  rw [Config.set, Config.setMask, sets, Nat.sub_self, Nat.and_zero]

theorem single_resident (c : Cache) (line : Nat) :
    c.resident single line = (c.tags 0 == line) := by
  have range : List.range single.ways = [0] := by decide
  have here : c.tag single 0 0 = c.tags 0 := rfl
  simp [Cache.resident, range, one_set single (by decide), here]

theorem single_lookup (c : Cache) (line : Nat) (absent : c.tags 0 ≠ line) :
    (c.lookup single line true 0).2.tags 0 = line := by
  have set : single.set line = 0 := one_set single (by decide) line
  have range : List.range single.ways = [0] := by decide
  have here : c.tag single 0 0 = c.tags 0 := rfl
  have missing : c.findWay single line = none := by
    simp [Cache.findWay, range, set, here, absent]
  have place : single.index 0 (c.victim single 0) = 0 := rfl
  rw [Cache.lookup, missing]
  simp only [if_true, Cache.allocated, Cache.stamped, set, place, setAt]

/-- What the two ways hold once lines 0 and 1 were read. -/
structure Filled (c : Cache) : Prop where
  first : c.tags 0 = 0
  second : c.tags 1 = 1

theorem narrow_hit (c : Cache) (filled : Filled c) {line : Nat} (one : line = 0 ∨ line = 1) :
    c.resident narrow line = true ∧ (c.lookup narrow line true 0).2.tags = c.tags := by
  have set : narrow.set line = 0 := one_set narrow (by decide) line
  have range : List.range narrow.ways = [0, 1] := by decide
  have tag0 : c.tag narrow 0 0 = 0 := filled.first
  have tag1 : c.tag narrow 0 1 = 1 := filled.second
  have found : ∃ way, c.findWay narrow line = some way := by
    rcases one with rfl | rfl <;> simp [Cache.findWay, range, set, tag0, tag1]
  obtain ⟨way, found⟩ := found
  refine ⟨findWay_resident found, ?_⟩
  rw [Cache.lookup, found]
  rfl

theorem single_line (line : Nat) (below : 2 * line < word) :
    single.lines (2 * line) 1 = [line] := by
  rw [← single_narrow.lines]
  exact narrow_line line below

/-- After `reads` reads of lines 0 and 1 in turn, the last of `line`. -/
structure Rounds (c c' : Cache) (reads line : Nat) : Prop where
  driven : Driven single narrow c c' reads
  timed : Timed c
  timed' : Timed c'
  missed : c.nbMiss = reads % word
  missed' : c'.nbMiss = 2
  held : c.tags 0 = line
  filled : Filled c'

theorem rounds_read {c c' : Cache} {reads last : Nat} (rounds : Rounds c c' reads last)
    (line : Nat) (one : line = 0 ∨ line = 1) (other : last ≠ line) :
    ∃ d d', Rounds d d' (reads + 1) line := by
  have below : 2 * line < word := by
    rcases one with rfl | rfl <;> decide
  have absent : c.tags 0 ≠ line := rounds.held ▸ other
  obtain ⟨timed, ⟨_, miss⟩, same⟩ :=
    access_line single c (Req.read line) line (single_line line below) rounds.timed
  obtain ⟨timed', ⟨_, miss'⟩, same'⟩ :=
    access_line narrow c' (Req.read line) line (narrow_line line below) rounds.timed'
  obtain ⟨hit, tags⟩ := narrow_hit c' rounds.filled one
  have driven := rounds.driven.access c c' reads 0 0 0 0 (Req.read line)
  have lines : single.lines (Req.read line).addr (Req.read line).size = [line] :=
    single_line line below
  rw [lines] at driven
  have kept : (c'.access narrow ((Req.read line).access 0 (0 : Nat))).2.tags = c'.tags :=
    same'.tags.trans tags
  refine ⟨_, _, driven, timed, timed', ?_, ?_, ?_, ?_, ?_⟩
  · rw [miss, single_resident, beq_false_of_ne absent, if_neg Bool.false_ne_true, rounds.missed,
      Nat.mod_add_mod]
  · rw [miss', hit, if_pos rfl, rounds.missed']
  · rw [same.tags]
    exact single_lookup c line absent
  · rw [kept]
    exact rounds.filled.first
  · rw [kept]
    exact rounds.filled.second

theorem rounds_first : ∃ c c', Rounds c c' 2 1 := by
  have first := (Driven.reset : Driven single narrow reset reset 0).access _ _ 0 0 0
    0 0 (Req.read 0)
  have second := first.access _ _ _ 0 0 0 0 (Req.read 1)
  have fresh : Timed reset := fun _ => Int.le_refl 0
  have timed : ∀ g, (∀ line < 2, g.lines (2 * line) 1 = [line]) →
      Timed ((reset.access g ((Req.read 0).access 0 (0 : Nat))).2.access g
        ((Req.read 1).access 0 (0 : Nat))).2 := fun g lines =>
    (access_line g _ (Req.read 1) 1 (lines 1 (by decide))
      (access_line g reset (Req.read 0) 0 (lines 0 (by decide)) fresh).1).1
  exact ⟨_, _, second, timed single (by decide), timed narrow (by decide), by decide, by decide,
    by decide, by decide, by decide⟩

theorem rounds_run (rounds : Nat) : ∃ c c', Rounds c c' (2 * (rounds + 1)) 1 := by
  induction rounds with
  | zero => exact rounds_first
  | succ rounds ih =>
      obtain ⟨c, c', before⟩ := ih
      obtain ⟨d, d', half⟩ := rounds_read before 0 (Or.inl rfl) (by decide)
      exact rounds_read half 1 (Or.inr rfl) (by decide)

/-- After `2 ^ 64` reads of two lines in turn the misses of the single way, one each,
are counted as none, and those of the two ways as two. -/
theorem misses_come_round : ∃ c c', Driven single narrow c c' word ∧
    c.nbMiss = 0 ∧ c'.nbMiss = 2 := by
  obtain ⟨c, c', rounds⟩ := rounds_run (2 ^ 63 - 1)
  have whole : 2 * (2 ^ 63 - 1 + 1) = word := by decide
  rw [whole] at rounds
  refine ⟨c, c', rounds.driven, ?_, rounds.missed'⟩
  rw [rounds.missed, Nat.mod_self]

/-- Eight reads of two lines in turn: the single way misses them all and holds the last,
which the two ways hold too. -/
theorem more_ways_rounds : ∃ c c', Driven single narrow c c' 8 ∧ c.nbMiss = 8 ∧
    (∃ way < narrow.ways, c'.tag narrow 0 way = 1) ∧ c'.nbMiss ≤ c.nbMiss ∧ c.nbHit ≤ c'.nbHit := by
  obtain ⟨c, c', rounds⟩ := rounds_run 3
  obtain ⟨held, misses, hits⟩ := more_ways single narrow single_narrow c c' 8
    rounds.driven (by decide)
  refine ⟨c, c', rounds.driven, rounds.missed, ?_, misses, hits⟩
  exact held 0 (by decide) 1 (by decide) ⟨0, by decide, rounds.held⟩

end HeteroSim.MoreWays
