import HeteroSim.RecencyList
import HeteroSim.TimingCache

/-!
The tag array is a least-recently-used cache. Each set holds the latest `ways` of
the lines used in it, whatever the accesses are, as long as the 64-bit stamp
counter has not come round.
-/

namespace HeteroSim.LruLaw

open RecencyList TimingCache

/-! ### One set -/

/-- `ws` lists the ways of a set that hold a line, and `held` their lines. -/
structure Lines (g : Config) (c : Cache) (set : Nat) (ws held : List Nat) : Prop where
  ways : ∀ way, way ∈ ws ↔ way < g.ways ∧ c.tag g set way ≠ lineInvalid
  nodup : ws.Nodup
  tags : ws.map (c.tag g set) = held
  apart : held.Nodup

/-- The stamps order `ws`, latest first; a way that holds nothing has stamp 0. -/
structure Stamped (g : Config) (c : Cache) (set : Nat) (ws : List Nat) : Prop where
  order : ws.Pairwise fun way way' => c.stamp g set way' < c.stamp g set way
  empty : ∀ way < g.ways, c.tag g set way = lineInvalid → c.stamp g set way = 0
  positive : ∀ way ∈ ws, 0 < c.stamp g set way
  below : ∀ way < g.ways, c.stamp g set way ≤ c.lruCounter

section Sets

variable {g : Config} {c c' : Cache} {set : Nat} {ws held : List Nat} {way line : Nat}

theorem Lines.mem_held (lines : Lines g c set ws held) (x : Nat) :
    x ∈ held ↔ x ≠ lineInvalid ∧ ∃ way < g.ways, c.tag g set way = x := by
  rw [← lines.tags, List.mem_map]
  constructor
  · rintro ⟨way, member, rfl⟩
    obtain ⟨inside, valid⟩ := (lines.ways way).mp member
    exact ⟨valid, way, inside, rfl⟩
  · rintro ⟨valid, way, inside, rfl⟩
    exact ⟨way, (lines.ways way).mpr ⟨inside, valid⟩, rfl⟩

theorem Lines.once (lines : Lines g c set ws held) {way way' : Nat} (inside : way < g.ways)
    (inside' : way' < g.ways) (same : c.tag g set way = c.tag g set way')
    (valid : c.tag g set way ≠ lineInvalid) : way = way' := by
  have apart := lines.apart
  rw [← lines.tags] at apart
  have valid' : c.tag g set way' ≠ lineInvalid := same ▸ valid
  exact List.inj_on_of_nodup_map apart ((lines.ways way).mpr ⟨inside, valid⟩)
    ((lines.ways way').mpr ⟨inside', valid'⟩) same

theorem Lines.length_le (lines : Lines g c set ws held) : held.length ≤ g.ways := by
  rw [← lines.tags, List.length_map, ← List.length_range (n := g.ways)]
  refine (List.subperm_of_subset lines.nodup fun way member => ?_).length_le
  exact List.mem_range.mpr ((lines.ways way).mp member).1

theorem Lines.full (lines : Lines g c set ws held)
    (valid : ∀ way < g.ways, c.tag g set way ≠ lineInvalid) : held.length = g.ways := by
  refine Nat.le_antisymm lines.length_le ?_
  rw [← lines.tags, List.length_map, ← List.length_range (n := g.ways)]
  refine (List.subperm_of_subset List.nodup_range fun way member => ?_).length_le
  have inside := List.mem_range.mp member
  exact (lines.ways way).mpr ⟨inside, valid way inside⟩

theorem Lines.room (lines : Lines g c set ws held) (inside : way < g.ways)
    (empty : c.tag g set way = lineInvalid) : held.length < g.ways := by
  have outside : way ∉ ws := fun member => ((lines.ways way).mp member).2 empty
  have more : (way :: ws).length ≤ (List.range g.ways).length := by
    refine (List.subperm_of_subset (List.nodup_cons.mpr ⟨outside, lines.nodup⟩)
      fun one member => ?_).length_le
    rcases List.mem_cons.mp member with rfl | member
    · exact List.mem_range.mpr inside
    · exact List.mem_range.mpr ((lines.ways one).mp member).1
  rw [← lines.tags, List.length_map]
  exact Nat.lt_of_succ_le (by simpa using more)

/-! ### A use -/

structure Used (g : Config) (c c' : Cache) (set way line : Nat) : Prop where
  tag : c'.tag g set way = line
  tags : ∀ set' way', way' < g.ways → (set', way') ≠ (set, way) →
    c'.tag g set' way' = c.tag g set' way'
  stamp : c'.stamp g set way = (c.lruCounter + 1) % word
  stamps : ∀ set' way', way' < g.ways → (set', way') ≠ (set, way) →
    c'.stamp g set' way' = c.stamp g set' way'
  counter : c'.lruCounter = (c.lruCounter + 1) % word

theorem setAt_here {α : Type} (f : Nat → α) (i : Nat) (v : α) : setAt f i v i = v := by
  simp [setAt]

theorem setAt_apart {α : Type} (f : Nat → α) {i j : Nat} (v : α) (apart : j ≠ i) :
    setAt f i v j = f j := by
  simp [setAt, apart]

theorem index_apart {set' way' : Nat} (inside : way < g.ways) (inside' : way' < g.ways)
    (apart : (set', way') ≠ (set, way)) : g.index set' way' ≠ g.index set way := by
  intro same
  obtain ⟨rfl, rfl⟩ := index_inj inside' inside same
  exact apart rfl

theorem stamped_used (inside : way < g.ways) (tag : c.tag g set way = line) :
    Used g c (c.stamped g set way) set way line where
  tag := tag
  tags _ _ _ _ := rfl
  stamp := setAt_here _ _ _
  stamps _ _ inside' apart := setAt_apart _ _ (index_apart inside inside' apart)
  counter := rfl

theorem allocated_used (readyTime : Int) (inside : c.victim g (g.set line) < g.ways) :
    Used g c (c.allocated g line readyTime) (g.set line) (c.victim g (g.set line)) line where
  tag := setAt_here _ _ _
  tags _ _ inside' apart := setAt_apart _ _ (index_apart inside inside' apart)
  stamp := setAt_here _ _ _
  stamps _ _ inside' apart := setAt_apart _ _ (index_apart inside inside' apart)
  counter := rfl

theorem used_lines (used : Used g c c' set way line) (inside : way < g.ways)
    (valid : line ≠ lineInvalid) (lines : Lines g c set ws held)
    (fresh : ∀ other ∈ ws, other ≠ way → c.tag g set other ≠ line) :
    Lines g c' set (way :: ws.erase way)
      (line :: (ws.erase way).map (c.tag g set)) := by
  have elsewhere : ∀ other ∈ ws.erase way, c'.tag g set other = c.tag g set other := by
    intro other member
    obtain ⟨apart, member⟩ := (lines.nodup.mem_erase_iff).mp member
    exact used.tags set other ((lines.ways other).mp member).1 (by simpa using apart)
  refine ⟨fun other => ?_, ?_, ?_, ?_⟩
  -- The way that was used holds a line now; every other way holds what it held.
  · by_cases same : other = way
    · subst same
      simp [inside, used.tag, valid]
    · rw [List.mem_cons, lines.nodup.mem_erase_iff, lines.ways]
      constructor
      · rintro (eq | ⟨_, within, holds⟩)
        · exact absurd eq same
        · exact ⟨within, by rwa [used.tags set other within (by simpa using same)]⟩
      · rintro ⟨within, holds⟩
        rw [used.tags set other within (by simpa using same)] at holds
        exact Or.inr ⟨same, within, holds⟩
  · exact List.nodup_cons.mpr ⟨lines.nodup.not_mem_erase, lines.nodup.erase way⟩
  · rw [List.map_cons, used.tag, List.map_congr_left elsewhere]
  · refine List.nodup_cons.mpr ⟨fun member => ?_, ?_⟩
    · obtain ⟨other, member, same⟩ := List.mem_map.mp member
      obtain ⟨apart, member⟩ := (lines.nodup.mem_erase_iff).mp member
      exact fresh other member apart same
    · have apart := lines.apart
      rw [← lines.tags] at apart
      exact apart.sublist (List.erase_sublist.map _)

theorem used_stamped (used : Used g c c' set way line) (valid : line ≠ lineInvalid)
    (lines : Lines g c set ws held) (inside : way < g.ways) (stamped : Stamped g c set ws)
    (small : c.lruCounter + 1 < word) : Stamped g c' set (way :: ws.erase way) := by
  have counter : c'.lruCounter = c.lruCounter + 1 := used.counter.trans (Nat.mod_eq_of_lt small)
  have stamp : c'.stamp g set way = c.lruCounter + 1 := used.stamp.trans (Nat.mod_eq_of_lt small)
  have elsewhere : ∀ other, other < g.ways → other ≠ way →
      c'.stamp g set other = c.stamp g set other :=
    fun other within apart => used.stamps set other within (by simpa using apart)
  have others : ∀ other ∈ ws.erase way, other < g.ways ∧ other ≠ way ∧ other ∈ ws := by
    intro other member
    obtain ⟨apart, member⟩ := (lines.nodup.mem_erase_iff).mp member
    exact ⟨((lines.ways other).mp member).1, apart, member⟩
  refine ⟨List.pairwise_cons.mpr ⟨fun other member => ?_, ?_⟩, fun other within empty => ?_,
    fun other member => ?_, fun other within => ?_⟩
  · obtain ⟨within, apart, _⟩ := others other member
    rw [elsewhere other within apart, stamp]
    -- No stamp exceeds the counter, so the new one is the highest.
    exact Nat.lt_succ_of_le (stamped.below other within)
  · refine (stamped.order.sublist List.erase_sublist).imp_of_mem fun {a b} memA memB less => ?_
    obtain ⟨withinA, apartA, _⟩ := others a memA
    obtain ⟨withinB, apartB, _⟩ := others b memB
    rwa [elsewhere a withinA apartA, elsewhere b withinB apartB]
  · by_cases same : other = way
    · subst same
      rw [used.tag] at empty
      exact absurd empty valid
    · rw [used.tags set other within (by simpa using same)] at empty
      rw [elsewhere other within same]
      exact stamped.empty other within empty
  · rcases List.mem_cons.mp member with rfl | member
    · rw [stamp]
      exact Nat.succ_pos _
    · obtain ⟨within, apart, member⟩ := others other member
      rw [elsewhere other within apart]
      exact stamped.positive other member
  · by_cases same : other = way
    · subst same
      rw [stamp, counter]
    · rw [elsewhere other within same, counter]
      exact Nat.le_succ_of_le (stamped.below other within)

theorem used_elsewhere (used : Used g c c' set way line) {set' : Nat} (apart : set' ≠ set)
    (lines : Lines g c set' ws held) : Lines g c' set' ws held := by
  have same : ∀ way' < g.ways, c'.tag g set' way' = c.tag g set' way' :=
    fun way' within => used.tags set' way' within (by simp [apart])
  refine ⟨fun way' => ?_, lines.nodup, ?_, lines.apart⟩
  · rw [lines.ways]
    constructor
    · rintro ⟨within, valid⟩
      exact ⟨within, by rwa [same way' within]⟩
    · rintro ⟨within, valid⟩
      exact ⟨within, by rwa [same way' within] at valid⟩
  · rw [← lines.tags]
    exact List.map_congr_left fun way' member => same way' ((lines.ways way').mp member).1

theorem used_stamped_elsewhere (used : Used g c c' set way line) {set' : Nat}
    (apart : set' ≠ set) (lines : Lines g c set' ws held) (stamped : Stamped g c set' ws)
    (small : c.lruCounter + 1 < word) : Stamped g c' set' ws := by
  have tags : ∀ way' < g.ways, c'.tag g set' way' = c.tag g set' way' :=
    fun way' within => used.tags set' way' within (by simp [apart])
  have stamps : ∀ way' < g.ways, c'.stamp g set' way' = c.stamp g set' way' :=
    fun way' within => used.stamps set' way' within (by simp [apart])
  have within : ∀ way' ∈ ws, way' < g.ways := fun way' member => ((lines.ways way').mp member).1
  have counter : c'.lruCounter = c.lruCounter + 1 := used.counter.trans (Nat.mod_eq_of_lt small)
  refine ⟨stamped.order.imp_of_mem fun {a b} memA memB less => ?_, fun way' inside empty => ?_,
    fun way' member => ?_, fun way' inside => ?_⟩
  · rwa [stamps a (within a memA), stamps b (within b memB)]
  · rw [tags way' inside] at empty
    rw [stamps way' inside]
    exact stamped.empty way' inside empty
  · rw [stamps way' (within way' member)]
    exact stamped.positive way' member
  · rw [stamps way' inside, counter]
    exact Nat.le_succ_of_le (stamped.below way' inside)

/-! ### The victim -/

theorem victim_fold (stamp : Nat → Nat) (ways : List Nat) (best : Nat × Nat)
    (named : best.2 = stamp best.1) :
    let found := ways.foldl
      (fun (best : Nat × Nat) way => if stamp way < best.2 then (way, stamp way) else best) best
    (found.1 = best.1 ∨ found.1 ∈ ways) ∧ found.2 = stamp found.1 ∧ stamp found.1 ≤ best.2 ∧
      ∀ way ∈ ways, stamp found.1 ≤ stamp way := by
  induction ways generalizing best with
  | nil => exact ⟨Or.inl rfl, named, Nat.le_of_eq named.symm, nofun⟩
  | cons way rest ih =>
      by_cases less : stamp way < best.2
      · obtain ⟨found, stamped, le, all⟩ := ih (way, stamp way) rfl
        simp only [List.foldl_cons, if_pos less]
        refine ⟨Or.inr ?_, stamped, Nat.le_trans le (Nat.le_of_lt less), fun other member => ?_⟩
        · rcases found with same | member
          · rw [same]
            exact List.mem_cons_self
          · exact List.mem_cons_of_mem _ member
        · rcases List.mem_cons.mp member with rfl | member
          · exact le
          · exact all other member
      · obtain ⟨found, stamped, le, all⟩ := ih best named
        simp only [List.foldl_cons, if_neg less]
        refine ⟨found.imp id (List.mem_cons_of_mem _), stamped, le, fun other member => ?_⟩
        rcases List.mem_cons.mp member with rfl | member
        · exact Nat.le_trans le (Nat.le_of_not_lt less)
        · exact all other member

theorem victim_least (ways : 1 ≤ g.ways) (c : Cache) (set : Nat) :
    c.victim g set < g.ways ∧
      ∀ way < g.ways, c.stamp g set (c.victim g set) ≤ c.stamp g set way := by
  obtain ⟨found, _, le, all⟩ := victim_fold (c.stamp g set) (List.range' 1 (g.ways - 1))
    (0, c.stamp g set 0) rfl
  constructor
  · rcases found with same | member
    · exact Nat.lt_of_le_of_lt (Nat.le_of_eq same) ways
    · have inside := (List.mem_range'_1.mp member).2
      exact Nat.lt_of_lt_of_le inside (by omega)
  · intro way inside
    by_cases first : way = 0
    · rw [first]
      exact le
    · exact all way (List.mem_range'_1.mpr (by omega))

/-! ### A lookup -/

theorem findWay_some (found : c.findWay g line = some way) :
    way < g.ways ∧ c.tag g (g.set line) way = line := by
  have member := List.mem_of_find?_eq_some found
  have holds := List.find?_some found
  exact ⟨List.mem_range.mp member, by simpa using holds⟩

theorem resident_iff (c : Cache) (line : Nat) :
    c.resident g line = true ↔ ∃ way < g.ways, c.tag g (g.set line) way = line := by
  simp [Cache.resident]

theorem findWay_none (missing : c.findWay g line = none) : c.resident g line = false := by
  rw [Cache.findWay, List.find?_eq_none] at missing
  rw [Bool.eq_false_iff]
  intro resident
  obtain ⟨way, inside, same⟩ := (resident_iff c line).mp resident
  exact missing way (List.mem_range.mpr inside) (by simpa using same)

theorem findWay_resident (found : c.findWay g line = some way) : c.resident g line = true :=
  (resident_iff c line).mpr ⟨way, findWay_some found⟩

theorem least_last (stamped : Stamped g c set ws) (member : way ∈ ws)
    (least : ∀ other ∈ ws, c.stamp g set way ≤ c.stamp g set other) :
    ws.erase way = ws.dropLast := by
  obtain ⟨front, last, same⟩ : ∃ front last, ws = front ++ [last] :=
    ⟨ws.dropLast, ws.getLast (List.ne_nil_of_mem member),
      (List.dropLast_append_getLast _).symm⟩
  have order := stamped.order
  rw [same, List.pairwise_append] at order
  have here : way = last := by
    rw [same, List.mem_append, List.mem_singleton] at member
    rcases member with earlier | eq
    · have less := order.2.2 way earlier last (by simp)
      have le := least last (by simp [same])
      omega
    · exact eq
  have absent : last ∉ front := by
    intro earlier
    exact Nat.lt_irrefl _ (order.2.2 last earlier last (by simp))
  rw [same, here, List.erase_append_right _ absent]
  simp

theorem map_erase {tags : Nat → Nat} (apart : (ws.map tags).Nodup) (member : way ∈ ws) :
    (ws.erase way).map tags = (ws.map tags).erase (tags way) := by
  rw [(apart.of_map tags).erase_eq_filter, apart.erase_eq_filter, List.filter_map]
  congr 1
  refine List.filter_congr fun other inside => ?_
  have same : tags other = tags way ↔ other = way :=
    ⟨fun eq => List.inj_on_of_nodup_map apart inside member eq, fun eq => by rw [eq]⟩
  rw [Bool.eq_iff_iff]
  simp [same]

theorem hit_lines (found : c.findWay g line = some way) (valid : line < lineInvalid)
    (lines : Lines g c (g.set line) ws held) :
    Lines g (c.stamped g (g.set line) way) (g.set line) (way :: ws.erase way)
      (use g.ways line held) := by
  obtain ⟨inside, tag⟩ := findWay_some found
  have notInvalid : line ≠ lineInvalid := Nat.ne_of_lt valid
  have member : way ∈ ws := (lines.ways way).mpr ⟨inside, by rwa [tag]⟩
  have holds : line ∈ held := (lines.mem_held line).mpr ⟨notInvalid, way, inside, tag⟩
  have next := used_lines (stamped_used inside tag) inside notInvalid lines
    fun other member apart same => apart (lines.once ((lines.ways other).mp member).1 inside
      (same.trans tag.symm) (by rwa [same]))
  have apart := lines.apart
  rw [← lines.tags] at apart
  rw [map_erase apart member, tag, lines.tags] at next
  rwa [use_held holds lines.length_le]

theorem miss_lines (readyTime : Int) (ways : 1 ≤ g.ways) (missing : c.findWay g line = none)
    (valid : line < lineInvalid) (lines : Lines g c (g.set line) ws held)
    (stamped : Stamped g c (g.set line) ws) :
    Lines g (c.allocated g line readyTime) (g.set line)
      (c.victim g (g.set line) :: ws.erase (c.victim g (g.set line))) (use g.ways line held) := by
  obtain ⟨inside, least⟩ := victim_least ways c (g.set line)
  have notInvalid : line ≠ lineInvalid := Nat.ne_of_lt valid
  have absent : ∀ way < g.ways, c.tag g (g.set line) way ≠ line := by
    intro way within same
    have nothing := findWay_none missing
    rw [(resident_iff c line).mpr ⟨way, within, same⟩] at nothing
    cases nothing
  have notHeld : line ∉ held := by
    intro member
    obtain ⟨_, way, within, same⟩ := (lines.mem_held line).mp member
    exact absent way within same
  have next := used_lines (allocated_used readyTime inside) inside notInvalid lines
    fun other member _ => absent other ((lines.ways other).mp member).1
  by_cases empty : c.tag g (g.set line) (c.victim g (g.set line)) = lineInvalid
  · have outside : c.victim g (g.set line) ∉ ws := fun member => ((lines.ways _).mp member).2 empty
    rw [List.erase_of_not_mem outside] at next ⊢
    rw [lines.tags] at next
    rwa [use_room notHeld (lines.room inside empty)]
  · -- no way is empty, because an empty one would have the lowest stamp
    have member : c.victim g (g.set line) ∈ ws := (lines.ways _).mpr ⟨inside, empty⟩
    have full : held.length = g.ways := by
      refine lines.full fun way within nothing => ?_
      have low := least way within
      rw [stamped.empty way within nothing] at low
      exact Nat.lt_irrefl 0 (Nat.lt_of_lt_of_le (stamped.positive _ member) low)
    have last := least_last stamped member fun other within =>
      least other ((lines.ways other).mp within).1
    rw [last] at next ⊢
    have nonempty : held ≠ [] := by
      rw [← lines.tags]
      simpa using List.ne_nil_of_mem member
    rw [List.map_dropLast, lines.tags, ← use_full notHeld nonempty, full] at next
    exact next

end Sets

/-! ### The whole array -/

/-- The lines a set holds after these uses, the latest use first. -/
def latest (g : Config) (uses : List Nat) (set : Nat) : List Nat :=
  (recent (uses.filter fun line => g.set line == set)).take g.ways

def Holding (g : Config) (c : Cache) (uses : List Nat) : Prop :=
  ∀ set < g.nbSets, ∃ ws, Lines g c set ws (latest g uses set)

structure Exact (g : Config) (c : Cache) (uses : List Nat) : Prop where
  counter : c.lruCounter = uses.length
  sets : ∀ set < g.nbSets, ∃ ws, Lines g c set ws (latest g uses set) ∧ Stamped g c set ws

/-- The stamps are right until the counter comes round, the lines one use longer. -/
structure Law (g : Config) (c : Cache) (uses : List Nat) : Prop where
  holding : Holding g c uses
  exact : uses.length < word → Exact g c uses

section Arrays

variable {g : Config} {c : Cache} {uses : List Nat} {line : Nat}

theorem mem_latest_home {set x : Nat} (member : x ∈ latest g uses set) : g.set x = set := by
  have inside := (mem_recent _).mp (List.mem_of_mem_take member)
  simpa using (List.mem_filter.mp inside).2

theorem latest_use (line : Nat) (uses : List Nat) :
    latest g (line :: uses) (g.set line) = use g.ways line (latest g uses (g.set line)) := by
  rw [latest, List.filter_cons_of_pos (by simp), ← use_recent]
  rfl

theorem latest_elsewhere {set : Nat} (apart : set ≠ g.set line) (uses : List Nat) :
    latest g (line :: uses) set = latest g uses set := by
  rw [latest, List.filter_cons_of_neg (by simpa using apart.symm)]
  rfl

theorem use_law {c' : Cache} {way : Nat} {ws : List Nat}
    (exact : Exact g c uses) (used : Used g c c' (g.set line) way line) (inside : way < g.ways)
    (valid : line < lineInvalid)
    (known : Lines g c (g.set line) ws (latest g uses (g.set line)))
    (stamped : Stamped g c (g.set line) ws)
    (here : Lines g c' (g.set line) (way :: ws.erase way)
      (use g.ways line (latest g uses (g.set line)))) : Law g c' (line :: uses) := by
  -- The stamps only stay right if the counter does not come round with this use.
  have small : (line :: uses).length < word → c.lruCounter + 1 < word := by
    intro small
    rwa [exact.counter]
  constructor
  · intro set below
    by_cases same : set = g.set line
    · subst same
      rw [latest_use]
      exact ⟨_, here⟩
    · obtain ⟨others, lines, _⟩ := exact.sets set below
      rw [latest_elsewhere same]
      exact ⟨others, used_elsewhere used same lines⟩
  · intro more
    constructor
    · rw [used.counter, Nat.mod_eq_of_lt (small more), exact.counter]
      rfl
    · intro set below
      by_cases same : set = g.set line
      · subst same
        rw [latest_use]
        exact ⟨_, here, used_stamped used (Nat.ne_of_lt valid) known inside stamped (small more)⟩
      · obtain ⟨others, lines, order⟩ := exact.sets set below
        rw [latest_elsewhere same]
        exact ⟨others, used_elsewhere used same lines,
          used_stamped_elsewhere used same lines order (small more)⟩

theorem lookup_law (accepted : Accepted g) (law : Law g c uses) (valid : line < lineInvalid)
    (allocate : Bool) (readyTime : Int)
    (few : (c.resident g line || allocate) = true → uses.length < word) :
    Law g (c.lookup g line allocate readyTime).2
      (if c.resident g line || allocate then line :: uses else uses) := by
  have below := set_lt accepted line
  rw [Cache.lookup]
  cases found : c.findWay g line with
  | some way =>
      have resident := findWay_resident found
      rw [resident, Bool.true_or] at few
      simp only [resident, Bool.true_or, if_true]
      have exact := law.exact (few rfl)
      obtain ⟨ws, lines, stamped⟩ := exact.sets _ below
      obtain ⟨inside, tag⟩ := findWay_some found
      exact use_law exact (stamped_used inside tag) inside valid lines stamped
        (hit_lines found valid lines)
  | none =>
      have absent := findWay_none found
      rw [absent, Bool.false_or] at few
      simp only [absent, Bool.false_or]
      cases allocate with
      | false => simpa using law
      | true =>
          simp only [if_true]
          have exact := law.exact (few rfl)
          obtain ⟨ws, lines, stamped⟩ := exact.sets _ below
          exact use_law exact
            (allocated_used readyTime (victim_least accepted.ways c _).1)
            (victim_least accepted.ways c _).1 valid lines stamped
            (miss_lines readyTime accepted.ways found valid lines stamped)

/-! ### An access -/

structure Same (c c' : Cache) : Prop where
  tags : c'.tags = c.tags
  lru : c'.lru = c.lru
  counter : c'.lruCounter = c.lruCounter

theorem Same.trans {c c' c'' : Cache} (first : Same c c') (second : Same c' c'') : Same c c'' :=
  ⟨second.tags.trans first.tags, second.lru.trans first.lru, second.counter.trans first.counter⟩

theorem Same.rfl' (c : Cache) : Same c c := ⟨rfl, rfl, rfl⟩

theorem Same.tag {c c' : Cache} (same : Same c c') (set way : Nat) :
    c'.tag g set way = c.tag g set way := by
  rw [Cache.tag, Cache.tag, same.tags]

theorem Same.stamp {c c' : Cache} (same : Same c c') (set way : Nat) :
    c'.stamp g set way = c.stamp g set way := by
  rw [Cache.stamp, Cache.stamp, same.lru]

theorem Same.resident {c c' : Cache} (same : Same c c') (line : Nat) :
    c'.resident g line = c.resident g line := by
  simp only [Cache.resident, same.tag]

theorem Same.findWay {c c' : Cache} (same : Same c c') (line : Nat) :
    c'.findWay g line = c.findWay g line := by
  simp only [Cache.findWay, same.tag]

theorem Same.victim {c c' : Cache} (same : Same c c') (set : Nat) :
    c'.victim g set = c.victim g set := by
  simp only [Cache.victim, same.stamp]

theorem Same.law {c c' : Cache} (same : Same c c') (law : Law g c uses) : Law g c' uses := by
  have lines : ∀ set ws held, Lines g c set ws held → Lines g c' set ws held := by
    intro set ws held lines
    refine ⟨fun way => by rw [same.tag]; exact lines.ways way, lines.nodup, ?_, lines.apart⟩
    rw [← lines.tags]
    exact List.map_congr_left fun way _ => same.tag set way
  have stamped : ∀ set ws, Stamped g c set ws → Stamped g c' set ws := by
    intro set ws stamped
    refine ⟨?_, fun way => ?_, fun way => ?_, fun way => ?_⟩
    · simpa only [same.stamp] using stamped.order
    · rw [same.tag, same.stamp]
      exact stamped.empty way
    · rw [same.stamp]
      exact stamped.positive way
    · rw [same.stamp, same.counter]
      exact stamped.below way
  constructor
  · intro set below
    obtain ⟨ws, known⟩ := law.holding set below
    exact ⟨ws, lines set ws _ known⟩
  · intro few
    have exact := law.exact few
    refine ⟨same.counter.trans exact.counter, fun set below => ?_⟩
    obtain ⟨ws, known, order⟩ := exact.sets set below
    exact ⟨ws, lines set ws _ known, stamped set ws order⟩

theorem Same.lookup {c c' : Cache} (same : Same c c') (line : Nat) (allocate : Bool)
    (readyTime readyTime' : Int) : Same (c.lookup g line allocate readyTime).2
      (c'.lookup g line allocate readyTime').2 := by
  rw [Cache.lookup, Cache.lookup, same.findWay]
  cases c.findWay g line with
  | some way =>
      refine ⟨same.tags, ?_, ?_⟩ <;> simp only [Cache.stamped, same.lru, same.counter]
  | none =>
      cases allocate with
      | false => exact same
      | true =>
          refine ⟨?_, ?_, ?_⟩ <;>
            simp only [Cache.allocated, Cache.stamped, same.victim, same.tags, same.lru,
              same.counter, if_true]

/-- The uses that the lookups of these lines add to `uses`. -/
def usedBy (g : Config) (allocate : Bool) : Cache → List Nat → List Nat → List Nat
  | _, [], uses => uses
  | c, line :: rest, uses =>
      usedBy g allocate (c.lookup g line allocate 0).2 rest
        (if c.resident g line || allocate then line :: uses else uses)

theorem Same.usedBy {c c' : Cache} (same : Same c c') (allocate : Bool) (lines uses : List Nat) :
    usedBy g allocate c' lines uses = usedBy g allocate c lines uses := by
  induction lines generalizing c c' uses with
  | nil => rfl
  | cons line rest ih =>
      rw [LruLaw.usedBy, LruLaw.usedBy, same.resident]
      exact ih (same.lookup line allocate 0 0) _

theorem usedBy_more (allocate : Bool) (lines : List Nat) (c : Cache) (uses : List Nat) :
    uses.length ≤ (usedBy g allocate c lines uses).length := by
  induction lines generalizing c uses with
  | nil => exact Nat.le_refl _
  | cons line rest ih =>
      refine Nat.le_trans ?_ (ih _ _)
      split
      · exact Nat.le_succ _
      · exact Nat.le_refl _

theorem turn_same (g : Config) (a : Access) (ready : Int) (c : Cache) (line : Nat) :
    Same (c.lookup g line (g.allocates a.isWrite) 0).2 (turn g a (ready, c) line).2 := by
  have looked := (Same.rfl' c).lookup (g := g) line (g.allocates a.isWrite) 0
    (max a.now c.nextLevelFree + a.nextLevelLatency + g.missLatency + g.refillCycles)
  refine looked.trans ?_
  simp only [turn]
  split
  · exact ⟨rfl, rfl, rfl⟩
  · split <;> exact ⟨rfl, rfl, rfl⟩

theorem turns_law (accepted : Accepted g) (a : Access) (lines : List Nat) (ready : Int)
    (c : Cache) (uses : List Nat) (law : Law g c uses)
    (valid : ∀ line ∈ lines, line < lineInvalid)
    (few : (usedBy g (g.allocates a.isWrite) c lines uses).length ≤ word) :
    Law g (lines.foldl (turn g a) (ready, c)).2
      (usedBy g (g.allocates a.isWrite) c lines uses) := by
  induction lines generalizing ready c uses with
  | nil => exact law
  | cons line rest ih =>
      have same := turn_same g a ready c line
      have next := lookup_law accepted law (valid line List.mem_cons_self)
        (g.allocates a.isWrite) 0 fun used => by
          rw [usedBy, if_pos used] at few
          exact Nat.lt_of_succ_le (Nat.le_trans (usedBy_more _ rest _ (line :: uses)) few)
      rw [usedBy] at few ⊢
      rw [← same.usedBy] at few ⊢
      exact ih _ _ _ (same.law next)
        (fun other member => valid other (List.mem_cons_of_mem _ member)) few

theorem markDirty_same (c : Cache) (line : Nat) : Same c (c.markDirty g line) := by
  rw [Cache.markDirty]
  split <;> exact ⟨rfl, rfl, rfl⟩

theorem markDirty_all (lines : List Nat) (c : Cache) :
    Same c (lines.foldl (Cache.markDirty g) c) := by
  induction lines generalizing c with
  | nil => exact Same.rfl' c
  | cons line rest ih => exact (markDirty_same c line).trans (ih _)

theorem counted_same (c : Cache) (isWrite : Bool) : Same c (c.counted isWrite) := by
  rw [Cache.counted]
  split <;> exact ⟨rfl, rfl, rfl⟩

theorem stored_same (a : Access) (st : Int × Cache) : Same st.2 (stored g a st).2 := by
  simp only [stored]
  split
  · exact markDirty_all _ _
  · split <;> exact ⟨rfl, rfl, rfl⟩

theorem access_same (c : Cache) (a : Access) :
    Same ((g.lines a.addr a.size).foldl (turn g a) (a.now + g.hitLatency, c.counted a.isWrite)).2
      (c.access g a).2 := by
  refine (stored_same (g := g) a _).trans ?_
  exact ⟨rfl, rfl, rfl⟩

theorem access_law (accepted : Accepted g) (a : Access) (law : Law g c uses)
    (few : (usedBy g (g.allocates a.isWrite) c (g.lines a.addr a.size) uses).length ≤ word) :
    Law g (c.access g a).2
      (usedBy g (g.allocates a.isWrite) c (g.lines a.addr a.size) uses) := by
  have counted := counted_same c a.isWrite
  rw [← counted.usedBy] at few ⊢
  exact (access_same c a).law (turns_law accepted a _ _ _ uses (counted.law law)
    (fun line member => line_valid accepted member) few)

/-! ### A request -/

section Requests

variable {σ : Type} {next : Port σ} {now : Nat} {s s' : σ} {c' : Cache}

theorem side_same {r answer : Req} (answered : side next now r c s = .ok (answer, c', s')) :
    Same c c' := by
  simp only [side, bind_ok, Prod.exists] at answered
  obtain ⟨_, _, _, _, _, _, rest⟩ := answered
  cases rest
  exact ⟨rfl, rfl, rfl⟩

theorem timedFill_same {addr size : Nat} {latency : Int}
    (filled : timedFill g next now addr size c s = .ok (latency, c', s')) : Same c c' := by
  simp only [timedFill, bind_ok, Prod.exists] at filled
  obtain ⟨_, _, _, sent, rest⟩ := filled
  cases rest
  exact side_same sent

theorem refill_same {r answer : Req} {latency : Int}
    (filled : refill g next now r answer c s = .ok (latency, c', s')) : Same c c' := by
  rw [refill] at filled
  split at filled
  · cases filled
    exact Same.rfl' c
  · split at filled
    · exact timedFill_same filled
    · cases filled
      exact Same.rfl' c

theorem flushVictim_same {line : Nat}
    (flushed : flushVictim g next now line c s = .ok (c', s')) : Same c c' := by
  simp only [flushVictim, bind_ok, Prod.exists] at flushed
  obtain ⟨_, c₁, s₁, read, _, c₂, s₂, written, rest⟩ := flushed
  cases rest
  exact (side_same read).trans ((side_same written).trans ⟨rfl, rfl, rfl⟩)

theorem flushTurns_same (lines : List Nat) {c : Cache} {s : σ}
    (flushed : flushTurns g next now lines c s = .ok (c', s')) : Same c c' := by
  induction lines generalizing c s with
  | nil =>
      cases flushed
      exact Same.rfl' _
  | cons line rest ih =>
      simp only [flushTurns, bind_ok, Prod.exists] at flushed
      obtain ⟨c₁, s₁, one, others⟩ := flushed
      exact (flushVictim_same one).trans (ih others)

theorem flushVictims_same (flushed : flushVictims g next now c s = .ok (c', s')) :
    Same c c' := by
  simp only [flushVictims, bind_ok, Prod.exists] at flushed
  obtain ⟨c₁, s₁, turns, rest⟩ := flushed
  cases rest
  have same := flushTurns_same _ turns
  exact ⟨same.tags, same.lru, same.counter⟩

theorem req_array {r answer : Req} {status : Status}
    (answered : req g next now r (c, s) = .ok (status, answer, (c', s'))) :
    ((r.debug || decide (status = .invalid)) = true ∧ Same c c') ∨
    ((r.debug || decide (status = .invalid)) = false ∧ ∃ c₀ latency, Same c c₀ ∧
      Same (c₀.access g (r.access now latency)).2 c') := by
  cases mode : g.writeback with
  | false =>
      simp only [req, mode, Bool.false_eq_true, if_false, reqThrough, bind_ok,
        Prod.exists] at answered
      obtain ⟨status', answer', s₁, _, rest⟩ := answered
      split at rest
      case isTrue aside =>
        cases rest
        exact Or.inl ⟨aside, Same.rfl' c⟩
      case isFalse real =>
        cases rest
        exact Or.inr ⟨Bool.eq_false_iff.mpr real, c, answer'.latency, Same.rfl' c, Same.rfl' _⟩
  | true =>
      simp only [req, mode, if_true, reqWriteback] at answered
      split at answered
      case isTrue aside =>
        simp only [forward, bind_ok, Prod.exists] at answered
        obtain ⟨_, _, _, _, rest⟩ := answered
        cases rest
        exact Or.inl ⟨by simp [aside], Same.rfl' c⟩
      case isFalse real =>
        simp only [bind_ok, Prod.exists] at answered
        obtain ⟨status', answer', s₁, _, rest⟩ := answered
        split at rest
        case isTrue refused =>
          cases rest
          exact Or.inl ⟨by simp [refused], Same.rfl' c⟩
        case isFalse accepted =>
          simp only [bind_ok, Prod.exists] at rest
          obtain ⟨_, _, latency, c₀, s₂, filled, c₂, s₃, flushed, rest⟩ := rest
          cases rest
          exact Or.inr ⟨by simp [real], c₀, latency, refill_same filled,
            flushVictims_same flushed⟩

/-- The caches of the runs of requests from reset, with the lines used, the latest
first. -/
inductive Run (g : Config) (next : Port σ) : Cache → List Nat → Prop
  | reset : Run g next reset []
  | req (now : Nat) (c c' : Cache) (s s' : σ) (r answer : Req) (status : Status)
      (uses : List Nat) (before : Run g next c uses)
      (answered : req g next now r (c, s) = .ok (status, answer, (c', s'))) :
      Run g next c' (if r.debug || decide (status = .invalid) then uses
        else usedBy g (g.allocates r.isWrite) c (g.lines r.addr r.size) uses)

theorem reset_law (g : Config) : Law g reset [] := by
  have lines : ∀ set, Lines g reset set [] (latest g [] set) := by
    intro set
    have nothing : latest g [] set = [] := by simp [latest, recent]
    rw [nothing]
    refine ⟨fun way => ?_, List.nodup_nil, rfl, List.nodup_nil⟩
    simp [Cache.tag, TimingCache.reset]
  refine ⟨fun set _ => ⟨[], lines set⟩, fun _ => ⟨rfl, fun set _ => ⟨[], lines set, ?_⟩⟩⟩
  exact ⟨List.Pairwise.nil, fun _ _ _ => rfl, fun _ member => absurd member List.not_mem_nil,
    fun _ _ => Nat.le_refl 0⟩

theorem run_law (accepted : Accepted g) (run : Run g next c uses) (few : uses.length ≤ word) :
    Law g c uses := by
  induction run with
  | reset => exact reset_law g
  | req now c c' s s' r answer status uses before answered ih =>
      -- A debug or refused request is no use of any line.
      rcases req_array answered with ⟨aside, same⟩ | ⟨real, c₀, latency, same, after⟩
      · rw [if_pos aside] at few ⊢
        exact same.law (ih few)
      · rw [real] at few ⊢
        simp only [Bool.false_eq_true, if_false] at few ⊢
        have earlier := ih (Nat.le_trans (usedBy_more _ _ _ _) few)
        rw [← same.usedBy] at few ⊢
        exact after.law (access_law accepted (r.access now latency) (same.law earlier) few)

theorem holding_resident (accepted : Accepted g) (holding : Holding g c uses) {line : Nat}
    (valid : line < lineInvalid) :
    c.resident g line = true ↔ line ∈ latest g uses (g.set line) := by
  obtain ⟨ws, lines⟩ := holding _ (set_lt accepted line)
  rw [resident_iff, lines.mem_held]
  exact ⟨fun found => ⟨Nat.ne_of_lt valid, found⟩, fun held => held.2⟩

theorem mem_latest {x : Nat} (line : Nat) (now older : List Nat)
    (few : (now.filter fun line => g.set line == x).length ≤ g.ways) (member : line ∈ now)
    (home : g.set line = x) : line ∈ latest g (now ++ older) x := by
  have used : line ∈ now.filter fun line => g.set line == x :=
    List.mem_filter.mpr ⟨member, by simpa using home⟩
  rw [latest, List.filter_append]
  exact List.take_subset_take_left _ few (mem_recent_take used)

theorem mem_use_room {w x y : Nat} {items : List Nat} (room : items.length < w)
    (member : y ∈ items) : y ∈ use w x items := by
  by_cases held : x ∈ items
  · rw [use_held held (Nat.le_of_lt room)]
    exact mem_touch.mpr (Or.inr member)
  · rw [use_room held room]
    exact List.mem_cons_of_mem _ member

theorem turn_keeps (accepted : Accepted g) (a : Access) (ready : Int) {line x way : Nat}
    (law : Law g c uses) (few : uses.length < word) (valid : line < lineInvalid)
    (inside : way < g.ways) (empty : c.tag g (g.set line) way = lineInvalid)
    (known : x < lineInvalid) (resident : c.resident g x = true) :
    (turn g a (ready, c) line).2.resident g x = true := by
  have next := lookup_law accepted law valid (g.allocates a.isWrite) 0 fun _ => few
  rw [(turn_same g a ready c line).resident]
  rw [holding_resident accepted law.holding known] at resident
  rw [holding_resident accepted next.holding known]
  split
  · by_cases same : g.set x = g.set line
    -- The empty way leaves room in this set, so the use pushes nothing out.
    · obtain ⟨ws, lines⟩ := law.holding _ (set_lt accepted line)
      rw [same] at resident ⊢
      rw [latest_use]
      exact mem_use_room (lines.room inside empty) resident
    · rwa [latest_elsewhere same]
  · exact resident

end Requests

end Arrays

/-- The tag array is an exact LRU cache: after any run of requests with at most
`2 ^ 64` line uses no line is in two ways, every line is in its own set, a set
holds the latest `ways` lines used in it, a probe says so, and no line goes while
a way of its set is empty. -/
theorem exact_lru (g : Config) (accepted : Accepted g) {σ : Type} (next : Port σ) (c : Cache)
    (uses : List Nat) (run : Run g next c uses) (few : uses.length ≤ word) :
    (∀ set < g.nbSets, ∀ way < g.ways, ∀ way' < g.ways, c.tag g set way ≠ lineInvalid →
      c.tag g set way = c.tag g set way' → way = way') ∧
    (∀ set < g.nbSets, ∀ way < g.ways, c.tag g set way ≠ lineInvalid →
      g.set (c.tag g set way) = set) ∧
    (∀ set < g.nbSets, ∀ line, (line ≠ lineInvalid ∧ ∃ way < g.ways, c.tag g set way = line) ↔
      line ∈ latest g uses set) ∧
    (∀ addr size, c.probe g addr size = true ↔
      ∀ line ∈ g.lines addr size, line ∈ latest g uses (g.set line)) ∧
    (∀ (a : Access) (ready ready' : Int) (done rest : List Nat) (line : Nat),
      g.lines a.addr a.size = done ++ line :: rest →
      (usedBy g (g.allocates a.isWrite) c done uses).length < word →
      let c₁ := (done.foldl (turn g a) (ready, c.counted a.isWrite)).2
      (∃ way < g.ways, c₁.tag g (g.set line) way = lineInvalid) →
      ∀ x < lineInvalid, c₁.resident g x = true →
        (turn g a (ready', c₁) line).2.resident g x = true) := by
  have law := run_law accepted run few
  refine ⟨fun set below way inside way' inside' valid same => ?_,
    fun set below way inside valid => ?_, fun set below line => ?_, fun addr size => ?_, ?_⟩
  · obtain ⟨ws, lines⟩ := law.holding set below
    exact lines.once inside inside' same valid
  · obtain ⟨ws, lines⟩ := law.holding set below
    exact mem_latest_home ((lines.mem_held _).mpr ⟨valid, way, inside, rfl⟩)
  · obtain ⟨ws, lines⟩ := law.holding set below
    exact (lines.mem_held line).symm
  · rw [Cache.probe, List.all_eq_true]
    exact forall₂_congr fun line member =>
      holding_resident accepted law.holding (line_valid accepted member)
  · rintro a ready ready' done rest line lines few c₁ ⟨way, inside, empty⟩ x known resident
    have valid : ∀ one ∈ done ++ line :: rest, one < lineInvalid := by
      intro one member
      rw [← lines] at member
      exact line_valid accepted member
    have counted := counted_same c a.isWrite
    have partway : Law g (done.foldl (turn g a) (ready, c.counted a.isWrite)).2
        (usedBy g (g.allocates a.isWrite) c done uses) := by
      rw [← counted.usedBy] at few ⊢
      exact turns_law accepted a done ready _ uses (counted.law law)
        (fun one member => valid one (List.mem_append_left _ member)) (Nat.le_of_lt few)
    exact turn_keeps accepted a ready' partway few (valid line (by simp)) inside empty known
      resident

/-! ### When the counter comes round -/

/-- One set of two ways of two bytes. -/
def narrow : Config := { size := 4, lineSize := 2, ways := 2 }

/-- A next level that answers every request. -/
def answers : Port Unit := fun _ r s => .ok (.ok, r, s)

theorem narrow_accepted : Accepted narrow :=
  ⟨by decide, by decide, by decide, by decide, by decide⟩

def Req.read (line : Nat) : Req := { addr := 2 * line, size := 1, isWrite := false }

theorem narrow_line (line : Nat) (below : 2 * line < word) :
    narrow.lines (2 * line) 1 = [line] := by
  have bits : narrow.lineBits = 1 := by decide
  have first : narrow.firstLine (2 * line) = line := by
    rw [Config.firstLine, bits, Nat.shiftRight_eq_div_pow]
    omega
  have last : narrow.lastLine (2 * line) 1 = line := by
    rw [Config.lastLine, bits, Nat.shiftRight_eq_div_pow]
    simp [Nat.mod_eq_of_lt below]
  simp [Config.lines, first, last]

theorem narrow_read {c : Cache} {uses : List Nat} (run : Run narrow answers c uses) (line : Nat)
    (below : 2 * line < word) : ∃ c', Run narrow answers c' (line :: uses) ∧
      Same (c.lookup narrow line true 0).2 c' := by
  let a : Access := (Req.read line).access 0 0
  have next := run.req 0 c (c.access narrow a).2 () () (Req.read line) _ .ok uses rfl
  have lines : narrow.lines (Req.read line).addr (Req.read line).size = [line] :=
    narrow_line line below
  refine ⟨(c.access narrow a).2, ?_, ?_⟩
  · have used : usedBy narrow (narrow.allocates (Req.read line).isWrite) c [line] uses =
        line :: uses := by
      simp [usedBy, narrow, Config.allocates, Req.read]
    rw [lines, used] at next
    exact next
  · have turned := turn_same narrow a (a.now + narrow.hitLatency) (c.counted false) line
    have after := access_same (g := narrow) c a
    have same : (narrow.lines a.addr a.size) = [line] := lines
    rw [same] at after
    exact (((counted_same c false).lookup line true 0 0).trans turned).trans after

structure Hits (c : Cache) (count : Nat) : Prop where
  first : c.tags 0 = 0
  second : c.tags 1 = 1
  counter : c.lruCounter = (count + 2) % word
  stamp : 0 < count → c.lru 0 = (count + 2) % word
  other : c.lru 1 = 2

theorem hits_run (count : Nat) : ∃ c, Run narrow answers c (List.replicate count 0 ++ [1, 0]) ∧
    Hits c count := by
  induction count with
  | zero =>
      obtain ⟨c₁, run, same⟩ := narrow_read .reset 0 (by decide)
      obtain ⟨c₂, run, same'⟩ := narrow_read run 1 (by decide)
      have both := (same.lookup (g := narrow) 1 true 0 0).trans same'
      refine ⟨c₂, run, ?_, ?_, ?_, nofun, ?_⟩
      · rw [both.tags]
        decide
      · rw [both.tags]
        decide
      · rw [both.counter]
        decide
      · rw [both.lru]
        decide
  | succ count ih =>
      obtain ⟨c, run, hits⟩ := ih
      obtain ⟨c', run', same⟩ := narrow_read run 0 (by decide)
      have found : c.findWay narrow 0 = some 0 := by
        have range : List.range narrow.ways = [0, 1] := by decide
        have here : c.tag narrow (narrow.set 0) 0 = 0 := hits.first
        simp [Cache.findWay, range, here]
      rw [Cache.lookup, found] at same
      refine ⟨c', run', ?_, ?_, ?_, fun _ => ?_, ?_⟩
      · rw [same.tags]
        exact hits.first
      · rw [same.tags]
        exact hits.second
      · rw [same.counter]
        show (c.lruCounter + 1) % word = _
        rw [hits.counter, Nat.mod_add_mod, Nat.add_right_comm]
      · rw [same.lru]
        show (c.lruCounter + 1) % word = _
        rw [hits.counter, Nat.mod_add_mod, Nat.add_right_comm]
      · rw [same.lru]
        exact hits.other

theorem recent_hits (count : Nat) : recent (List.replicate (count + 1) 0 ++ [1, 0]) = [0, 1] := by
  induction count with
  | zero => decide
  | succ count ih =>
      rw [List.replicate_succ, List.cons_append, recent, ih]
      decide

/-- After line 0, line 1 and then `2 ^ 64 - 2` hits on line 0 the counter is back at
0, and line 2 takes the place of line 0, the line used last before it. -/
theorem counter_comes_round : ∃ c uses, Run narrow answers c uses ∧
    0 ∈ latest narrow uses 0 ∧ c.resident narrow 0 = false := by
  obtain ⟨c, run, hits⟩ := hits_run (word - 3 + 1)
  obtain ⟨c', run', same⟩ := narrow_read run 2 (by decide)
  refine ⟨c', _, run', ?_, ?_⟩
  · have all : (2 :: (List.replicate (word - 3 + 1) 0 ++ [1, 0])).filter
        (fun line => narrow.set line == 0) =
        2 :: (List.replicate (word - 3 + 1) 0 ++ [1, 0]) := by
      refine List.filter_eq_self.mpr fun line member => ?_
      have masked : narrow.set line = line &&& 0 := rfl
      simp [masked]
    rw [latest, all, recent, recent_hits]
    decide
  · have stamp : c.lru 0 = 0 := by
      rw [hits.stamp (Nat.succ_pos _)]
      decide
    have missing : c.findWay narrow 2 = none := by
      have range : List.range narrow.ways = [0, 1] := by decide
      have first : c.tag narrow (narrow.set 2) 0 = 0 := hits.first
      have second : c.tag narrow (narrow.set 2) 1 = 1 := hits.second
      simp [Cache.findWay, range, first, second]
    have victim : c.victim narrow (narrow.set 2) = 0 := by
      have ways : List.range' 1 (narrow.ways - 1) = [1] := by decide
      have first : c.stamp narrow (narrow.set 2) 0 = 0 := stamp
      simp [Cache.victim, ways, first]
    rw [same.resident, Cache.lookup, missing]
    have range : List.range narrow.ways = [0, 1] := by decide
    have used : Used narrow c (c.allocated narrow 2 0) (narrow.set 2)
      (c.victim narrow (narrow.set 2))
        2 := allocated_used 0 (by rw [victim]; decide)
    rw [victim] at used
    have first : (c.allocated narrow 2 0).tag narrow (narrow.set 0) 0 = 2 := by
      exact used.tag
    have second : (c.allocated narrow 2 0).tag narrow (narrow.set 0) 1 = 1 := by
      exact (used.tags _ 1 (by decide) (by simp)).trans hits.second
    simp [Cache.resident, range, first, second]

/-- Lines 0 and 1, hits on line 0, then line 2: line 1 is the one that had to go. -/
theorem exact_lru_hits : ∃ c, Run narrow answers c (2 :: (List.replicate 5 0 ++ [1, 0])) ∧
    c.probe narrow 0 1 = true ∧ c.probe narrow 2 1 = false ∧ c.probe narrow 4 1 = true := by
  obtain ⟨c, run, _⟩ := hits_run 5
  obtain ⟨c', run', _⟩ := narrow_read run 2 (by decide)
  obtain ⟨_, _, _, probes, _⟩ := exact_lru narrow narrow_accepted answers c' _ run' (by decide)
  refine ⟨c', run', (probes 0 1).mpr (by decide), ?_, (probes 4 1).mpr (by decide)⟩
  exact Bool.eq_false_iff.mpr (mt (probes 2 1).mp (by decide))

end HeteroSim.LruLaw
