import HeteroSim.LruLaw
import Mathlib.Data.Nat.ModEq

/-!
The bookkeeping of a write-back cache. The history of a run tells which lines were
filled, evicted, stored to and written back; the requests the cache sends down are
logged. Dirty bits, victims and the log are compared with the history.
-/

namespace HeteroSim.WriteBack

open RecencyList TimingCache LruLaw

/-! ### The log and the history -/

/-- The next level, with the requests it was sent. -/
def logged {σ : Type} (next : Port σ) : Port (List Req × σ) := fun now r (log, s) => do
  let (status, answer, s) ← next now r s
  return (status, answer, (log ++ [r], s))

def timedWrites (log : List Req) : List Req := log.filter fun r => r.isWrite && !r.debug

/-- Address and size. -/
def spans (log : List Req) : List (Nat × Nat) := (timedWrites log).map fun r => (r.addr, r.size)

def lineSpan (g : Config) (line : Nat) : Nat × Nat := (line <<< g.lineBits, 2 ^ g.lineBits)

inductive Event where
  | fill (line : Nat)
  | evict (line : Nat) (dirty : Bool)
  | store (line : Nat)
  | writeBack (line : Nat)
  deriving DecidableEq

/-- `mark` happened after the last `clear`. A history is latest first. -/
def since (mark clear : Event) : List Event → Bool
  | [] => false
  | e :: older => if e = mark then true else if e = clear then false else since mark clear older

/-- The dirty lines evicted, in order. -/
def evictions (history : List Event) : List Nat :=
  history.reverse.filterMap fun e =>
    match e with
    | .evict line true => some line
    | _ => none

/-- The place that a line which is not there takes. -/
def place (g : Config) (c : Cache) (line : Nat) : Nat :=
  g.index (g.set line) (c.victim g (g.set line))

def leaves (g : Config) (c : Cache) (line : Nat) : List Event :=
  if c.tags (place g c line) = lineInvalid then []
  else [.evict (c.tags (place g c line)) (c.dirty (place g c line))]

def lookedUp (g : Config) (c : Cache) (line : Nat) : List Event :=
  if c.resident g line then [] else .fill line :: leaves g c line

def lookups (g : Config) : Cache → List Nat → List Event → List Event
  | _, [], history => history
  | c, line :: rest, history =>
      lookups g (c.lookup g line true 0).2 rest (lookedUp g c line ++ history)

def stores (lines : List Nat) : List Event := (lines.map Event.store).reverse

def writeBacks (lines : List Nat) : List Event := (lines.map Event.writeBack).reverse

def accessed (g : Config) (c : Cache) (r : Req) (history : List Event) : List Event :=
  (if r.isWrite then stores (g.lines r.addr r.size) else []) ++
    lookups g c (g.lines r.addr r.size) history

/-- The runs of timed requests from reset that a synchronous next level answers, with
the requests sent to it, the history, and how many line lookups there were. -/
inductive Served (g : Config) {σ : Type} (next : Port σ) :
    Cache → σ → List Req → List Event → Nat → Prop
  | reset (s : σ) : Served g next reset s [] [] 0
  | req (now : Nat) (c c' : Cache) (s s' : σ) (log sent : List Req) (history : List Event)
      (count : Nat) (r answer : Req) (status : Status)
      (before : Served g next c s log history count) (real : r.debug = false)
      (fits : (g.lines r.addr r.size).length ≤ g.nbSets * g.ways)
      (answered : TimingCache.req g (logged next) now r (c, ([], s)) =
        .ok (status, answer, (c', (sent, s')))) :
      Served g next c' s' (log ++ sent)
        (writeBacks ((timedWrites sent).map fun w => w.addr >>> g.lineBits) ++
          if status = .ok then accessed g c r history else history)
        (if status = .ok then count + (g.lines r.addr r.size).length else count)

/-! ### The lines of an access in one set -/

section Geometry

variable {g : Config}

theorem range_share (first count m w rest : Nat) (few : count ≤ m * w) :
    ((List.range' first count).filter fun line => line % m == rest).length ≤ w := by
  let place := fun line => (line - first) / m
  have mem : ∀ line, line ∈ (List.range' first count).filter (fun line => line % m == rest) →
      first ≤ line ∧ line < first + count ∧ line % m = rest := by
    intro line member
    obtain ⟨inside, same⟩ := List.mem_filter.mp member
    obtain ⟨low, high⟩ := List.mem_range'_1.mp inside
    exact ⟨low, high, by simpa using same⟩
  have apart : (((List.range' first count).filter fun line => line % m == rest).map
      place).Nodup := by
    refine List.Nodup.map_on ?_ (List.Nodup.filter _ List.nodup_range')
    intro x inX y inY same
    obtain ⟨lowX, _, restX⟩ := mem x inX
    obtain ⟨lowY, _, restY⟩ := mem y inY
    have gap : (x - first) % m = (y - first) % m := by
      have both : (x - first + first) % m = (y - first + first) % m := by
        rw [Nat.sub_add_cancel lowX, Nat.sub_add_cancel lowY, restX, restY]
      exact Nat.ModEq.add_right_cancel' first both
    have whole := Nat.div_add_mod (x - first) m
    rw [show (x - first) / m = (y - first) / m from same, gap, Nat.div_add_mod] at whole
    omega
  have within : ∀ i ∈ ((List.range' first count).filter fun line => line % m == rest).map place,
      i ∈ List.range w := by
    intro i member
    obtain ⟨line, inside, rfl⟩ := List.mem_map.mp member
    obtain ⟨low, high, _⟩ := mem line inside
    exact List.mem_range.mpr (Nat.div_lt_of_lt_mul (by omega))
  have length := (List.subperm_of_subset apart within).length_le
  rwa [List.length_map, List.length_range] at length

theorem set_share (accepted : Accepted g) {addr size : Nat}
    (fits : (g.lines addr size).length ≤ g.nbSets * g.ways) (x : Nat) :
    ((g.lines addr size).reverse.filter fun line => g.set line == x).length ≤ g.ways := by
  rw [List.filter_reverse, List.length_reverse]
  simp only [set_mod accepted]
  rw [Config.lines, List.length_range'] at fits
  exact range_share _ _ _ _ _ fits

end Geometry

/-! ### The books -/

/-- The line is held, and marked dirty. -/
def Dirty (g : Config) (c : Cache) (line : Nat) : Prop :=
  ∃ way < g.ways, c.tag g (g.set line) way = line ∧ c.dirty (g.index (g.set line) way) = true

/-- Tag array, dirty bits and victims against the history. The victims of the lines
`flushed` were written back. -/
structure Books (g : Config) (c : Cache) (uses flushed : List Nat) (history : List Event) :
    Prop where
  law : Law g c uses
  marked : ∀ set < g.nbSets, ∀ way < g.ways, c.tag g set way ≠ lineInvalid →
    c.dirty (g.index set way) =
      since (.store (c.tag g set way)) (.fill (c.tag g set way)) history
  pending : ∀ line, since (.store line) (.writeBack line) history = true →
    line ≠ lineInvalid ∧ (Dirty g c line ∨ line ∈ c.victims)
  evicted : evictions history = flushed ++ c.victims

/-- The tag array, the dirty bits and the victims are the same. -/
structure Kept (c c' : Cache) : Prop where
  same : Same c c'
  dirty : c'.dirty = c.dirty
  victims : c'.victims = c.victims

theorem Kept.rfl' (c : Cache) : Kept c c := ⟨Same.rfl' c, rfl, rfl⟩

theorem Kept.trans {c c' c'' : Cache} (first : Kept c c') (second : Kept c' c'') : Kept c c'' :=
  ⟨first.same.trans second.same, second.dirty.trans first.dirty,
    second.victims.trans first.victims⟩

section Books

variable {g : Config} {c c' : Cache} {uses flushed : List Nat} {history : List Event}

theorem Kept.held (kept : Kept c c') (line : Nat) : Dirty g c' line ↔ Dirty g c line := by
  simp only [Dirty, kept.same.tag, kept.dirty]

theorem Kept.books (kept : Kept c c') (books : Books g c uses flushed history) :
    Books g c' uses flushed history where
  law := kept.same.law books.law
  marked set below way inside := by
    rw [kept.same.tag, kept.dirty]
    exact books.marked set below way inside
  pending line stored := by
    rw [kept.held, kept.victims]
    exact books.pending line stored
  evicted := by
    rw [kept.victims]
    exact books.evicted

theorem Kept.leaves (kept : Kept c c') (line : Nat) : leaves g c' line = leaves g c line := by
  have place : place g c' line = place g c line := by
    rw [WriteBack.place, WriteBack.place, kept.same.victim]
  rw [WriteBack.leaves, WriteBack.leaves, place, kept.same.tags, kept.dirty]

theorem Kept.lookedUp (kept : Kept c c') (line : Nat) :
    lookedUp g c' line = lookedUp g c line := by
  rw [WriteBack.lookedUp, WriteBack.lookedUp, kept.same.resident, kept.leaves]

theorem Kept.lookup (kept : Kept c c') (line : Nat) (allocate : Bool) (readyTime readyTime' : Int) :
    Kept (c.lookup g line allocate readyTime).2 (c'.lookup g line allocate readyTime').2 := by
  refine ⟨kept.same.lookup line allocate readyTime readyTime', ?_, ?_⟩ <;>
    rw [Cache.lookup, Cache.lookup, kept.same.findWay]
  · cases c.findWay g line with
    | some way => exact kept.dirty
    | none =>
        cases allocate with
        | false => exact kept.dirty
        | true =>
            simp only [Cache.allocated, Cache.stamped, kept.same.victim, kept.dirty, if_true]
  · cases c.findWay g line with
    | some way => exact kept.victims
    | none =>
        cases allocate with
        | false => exact kept.victims
        | true =>
            simp only [Cache.allocated, Cache.stamped, kept.same.victim, kept.same.tags,
              kept.dirty, kept.victims, if_true]

theorem Kept.lookups (kept : Kept c c') (lines : List Nat) (history : List Event) :
    lookups g c' lines history = lookups g c lines history := by
  induction lines generalizing c c' history with
  | nil => rfl
  | cons line rest ih =>
      rw [WriteBack.lookups, WriteBack.lookups, kept.lookedUp]
      exact ih (kept.lookup line true 0 0) _

theorem Kept.accessed (kept : Kept c c') (r : Req) (history : List Event) :
    accessed g c' r history = accessed g c r history := by
  rw [WriteBack.accessed, WriteBack.accessed, kept.lookups]

/-! ### What the history says -/

theorem since_cons {mark clear e : Event} (notMark : e ≠ mark) (notClear : e ≠ clear)
    (history : List Event) : since mark clear (e :: history) = since mark clear history := by
  rw [since, if_neg notMark, if_neg notClear]

theorem since_append {mark clear : Event} {now : List Event}
    (apart : ∀ e ∈ now, e ≠ mark ∧ e ≠ clear) (history : List Event) :
    since mark clear (now ++ history) = since mark clear history := by
  induction now with
  | nil => rfl
  | cons e rest ih =>
      obtain ⟨notMark, notClear⟩ := apart e List.mem_cons_self
      rw [List.cons_append, since_cons notMark notClear]
      exact ih fun other member => apart other (List.mem_cons_of_mem _ member)

theorem evictions_append (now history : List Event) :
    evictions (now ++ history) = evictions history ++ evictions now := by
  rw [evictions, List.reverse_append, List.filterMap_append, evictions, evictions]

theorem evictions_none {now : List Event} (others : ∀ e ∈ now, ∀ line, e ≠ .evict line true) :
    evictions now = [] := by
  rw [evictions, List.filterMap_eq_nil_iff]
  intro e member
  have other := others e (List.mem_reverse.mp member)
  split
  · exact absurd rfl (other _)
  · rfl

theorem mem_writeBacks {e : Event} {lines : List Nat} :
    e ∈ writeBacks lines ↔ ∃ line ∈ lines, .writeBack line = e := by
  rw [writeBacks, List.mem_reverse, List.mem_map]

/-! ### The steps of a request -/

theorem absent_tag (law : Law g c uses) {line set way : Nat} (absent : c.resident g line = false)
    (valid : line ≠ lineInvalid) (below : set < g.nbSets) (inside : way < g.ways) :
    c.tag g set way ≠ line := by
  intro same
  obtain ⟨ws, lines⟩ := law.holding set below
  have home := mem_latest_home ((lines.mem_held line).mpr ⟨valid, way, inside, same⟩)
  subst home
  rw [(resident_iff c line).mpr ⟨way, inside, same⟩] at absent
  cases absent

theorem allocated_dirty (mode : g.writeback = true) (c : Cache) (line : Nat) (readyTime : Int) :
    (c.allocated g line readyTime).dirty = setAt c.dirty (place g c line) false := by
  simp only [Cache.allocated, Cache.stamped, mode, if_true, place]

theorem allocated_victims (mode : g.writeback = true) (c : Cache) (line : Nat)
    (readyTime : Int) :
    (c.allocated g line readyTime).victims = c.victims ++ evictions (leaves g c line) := by
  have pushed : (c.allocated g line readyTime).victims =
      if c.tags (place g c line) != lineInvalid && c.dirty (place g c line) then
        c.victims ++ [c.tags (place g c line)]
      else c.victims := by
    simp only [Cache.allocated, Cache.stamped, mode, Bool.true_and]
    rfl
  rw [pushed, leaves]
  by_cases empty : c.tags (place g c line) = lineInvalid
  · simp [empty, evictions]
  · cases dirty : c.dirty (place g c line) <;> simp [empty, evictions]

theorem since_leaves {mark clear : Event} (line : Nat)
    (apart : ∀ line dirty, Event.evict line dirty ≠ mark ∧ Event.evict line dirty ≠ clear)
    (history : List Event) :
    since mark clear (leaves g c line ++ history) = since mark clear history := by
  refine since_append (fun e member => ?_) history
  rw [leaves] at member
  split at member
  · cases member
  · rw [List.mem_singleton.mp member]
    exact apart _ _

theorem miss_books (ways : 1 ≤ g.ways) (mode : g.writeback = true)
    (books : Books g c uses flushed history) {line : Nat} (valid : line ≠ lineInvalid)
    (absent : c.resident g line = false) (readyTime : Int)
    (law : Law g (c.allocated g line readyTime) (line :: uses)) :
    Books g (c.allocated g line readyTime) (line :: uses) flushed
      (lookedUp g c line ++ history) := by
  obtain ⟨inside, _⟩ := victim_least ways c (g.set line)
  have happened : lookedUp g c line = .fill line :: leaves g c line := by
    rw [lookedUp, absent, if_neg Bool.false_ne_true]
  have tags : (c.allocated g line readyTime).tags = setAt c.tags (place g c line) line := rfl
  have dirty := allocated_dirty mode c line readyTime
  have here : ∀ f : Nat → Nat, setAt f (place g c line) line (place g c line) = line :=
    fun f => setAt_here f _ _
  rw [happened]
  refine ⟨law, fun set below way within filled => ?_, fun other stored => ?_, ?_⟩
  · rw [Cache.tag, tags] at filled ⊢
    rw [dirty]
    -- The place taken now holds the new line, filled and not stored to since.
    by_cases same : g.index set way = place g c line
    · rw [same, setAt_here, setAt_here, List.cons_append, since, if_neg (by simp), if_pos rfl]
    · rw [setAt_apart _ _ same] at filled ⊢
      rw [setAt_apart _ _ same]
      have other : c.tags (g.index set way) ≠ line :=
        absent_tag books.law absent valid below within
      rw [List.cons_append, since_cons (by simp) (by simpa using other.symm),
        since_leaves line (by simp)]
      exact books.marked set below way within filled
  · rw [List.cons_append, since_cons (by simp) (by simp), since_leaves line (by simp)] at stored
    obtain ⟨known, there⟩ := books.pending other stored
    refine ⟨known, ?_⟩
    rw [allocated_victims mode, List.mem_append]
    -- A dirty line that has to leave is among the victims.
    rcases there with ⟨way, within, tag, marked⟩ | member
    · by_cases same : g.index (g.set other) way = place g c line
      · refine Or.inr (Or.inr ?_)
        rw [Cache.tag, same] at tag
        rw [same] at marked
        rw [leaves, tag, if_neg known, marked]
        exact List.mem_singleton.mpr rfl
      · refine Or.inl ⟨way, within, ?_, ?_⟩
        · rw [Cache.tag, tags, setAt_apart _ _ same]
          exact tag
        · rw [dirty, setAt_apart _ _ same]
          exact marked
    · exact Or.inr (Or.inl member)
  · have filled : evictions [Event.fill line] = [] := rfl
    rw [← List.singleton_append, List.append_assoc, evictions_append, evictions_append, filled,
      List.append_nil, books.evicted, allocated_victims mode, List.append_assoc]

theorem lookup_books (accepted : Accepted g) (mode : g.writeback = true)
    (books : Books g c uses flushed history) {line : Nat} (valid : line < lineInvalid)
    (room : uses.length < word) (readyTime : Int) :
    Books g (c.lookup g line true readyTime).2 (line :: uses) flushed
      (lookedUp g c line ++ history) := by
  have law := lookup_law accepted books.law valid true readyTime fun _ => room
  rw [Bool.or_true, if_pos rfl] at law
  cases found : c.findWay g line with
  | some way =>
      -- a hit only stamps its way
      have nothing : lookedUp g c line = [] := by
        rw [lookedUp, findWay_resident found, if_pos rfl]
      rw [nothing, List.nil_append]
      rw [Cache.lookup, found] at law ⊢
      exact ⟨law, books.marked, books.pending, books.evicted⟩
  | none =>
      have absent := findWay_none found
      rw [Cache.lookup, found] at law ⊢
      exact miss_books accepted.ways mode books (Nat.ne_of_lt valid) absent readyTime law

theorem turn_kept (g : Config) (a : Access) (ready : Int) (c : Cache) (line : Nat) :
    Kept (c.lookup g line (g.allocates a.isWrite) 0).2 (turn g a (ready, c) line).2 := by
  have looked := (Kept.rfl' c).lookup (g := g) line (g.allocates a.isWrite) 0
    (max a.now c.nextLevelFree + a.nextLevelLatency + g.missLatency + g.refillCycles)
  refine looked.trans ?_
  simp only [turn]
  split
  · exact ⟨⟨rfl, rfl, rfl⟩, rfl, rfl⟩
  · split <;> exact ⟨⟨rfl, rfl, rfl⟩, rfl, rfl⟩

theorem turns_books (accepted : Accepted g) (mode : g.writeback = true) (a : Access)
    (lines : List Nat) (valid : ∀ line ∈ lines, line < lineInvalid)
    (books : Books g c uses flushed history) (few : uses.length + lines.length ≤ word)
    (ready : Int) : Books g (lines.foldl (turn g a) (ready, c)).2 (lines.reverse ++ uses) flushed
      (lookups g c lines history) := by
  -- A line looked up in one turn may be the victim of a later one, so the history goes along.
  induction lines generalizing c uses history ready with
  | nil => exact books
  | cons line rest ih =>
      rw [List.length_cons] at few
      have next := lookup_books accepted mode books (valid line List.mem_cons_self) (by omega) 0
      have kept := turn_kept g a ready c line
      rw [accepted.allocates mode] at kept
      have rest := ih (fun other member => valid other (List.mem_cons_of_mem _ member))
        (kept.books next) (by rw [List.length_cons]; omega) (turn g a (ready, c) line).1
      rw [kept.lookups] at rest
      rw [List.reverse_cons, List.append_assoc]
      exact rest

theorem markDirty_dirty {line way : Nat} (found : c.findWay g line = some way) :
    (c.markDirty g line).dirty = setAt c.dirty (g.index (g.set line) way) true := by
  rw [Cache.markDirty, found]

theorem markDirty_victims (g : Config) (c : Cache) (line : Nat) :
    (c.markDirty g line).victims = c.victims := by
  rw [Cache.markDirty]
  split <;> rfl

theorem mark_books (books : Books g c uses flushed history) {line : Nat}
    (valid : line < lineInvalid) (resident : c.resident g line = true) :
    Books g (c.markDirty g line) uses flushed (.store line :: history) := by
  have same := markDirty_same (g := g) c line
  obtain ⟨way, found⟩ : ∃ way, c.findWay g line = some way := by
    cases found : c.findWay g line with
    | none =>
        rw [findWay_none found] at resident
        cases resident
    | some way => exact ⟨way, rfl⟩
  have dirty := markDirty_dirty found
  obtain ⟨inside, tag⟩ := findWay_some found
  have notInvalid : line ≠ lineInvalid := Nat.ne_of_lt valid
  refine ⟨same.law books.law, fun set below way' inside' filled => ?_, fun other stored => ?_, ?_⟩
  · rw [same.tag] at filled ⊢
    rw [dirty]
    -- The line is in one place only, and no other bit is set.
    by_cases here : g.index set way' = g.index (g.set line) way
    · have tag' : c.tag g set way' = line := by rw [Cache.tag, here]; exact tag
      rw [here, setAt_here, tag', since, if_pos rfl]
    · have apart : c.tag g set way' ≠ line := by
        intro tag'
        obtain ⟨ws, lines⟩ := books.law.holding set below
        have home := mem_latest_home ((lines.mem_held line).mpr ⟨notInvalid, way', inside', tag'⟩)
        subst home
        exact here (congrArg _ (lines.once inside' inside (tag'.trans tag.symm) filled))
      rw [setAt_apart _ _ here, since_cons (by simpa using apart.symm) (by simp)]
      exact books.marked set below way' inside' filled
  · rw [markDirty_victims]
    by_cases mine : other = line
    · subst mine
      refine ⟨notInvalid, Or.inl ⟨way, inside, ?_, ?_⟩⟩
      · rw [same.tag]
        exact tag
      · rw [dirty, setAt_here]
    · rw [since_cons (by simpa using fun eq : line = other => mine eq.symm) (by simp)] at stored
      obtain ⟨known, there⟩ := books.pending other stored
      refine ⟨known, there.imp_left ?_⟩
      rintro ⟨way', within, tag', marked⟩
      refine ⟨way', within, ?_, ?_⟩
      · rw [same.tag]
        exact tag'
      · rw [dirty, setAt]
        split
        · rfl
        · exact marked
  · have nothing : evictions [Event.store line] = [] := rfl
    rw [← List.singleton_append, evictions_append, nothing, List.append_nil, markDirty_victims]
    exact books.evicted

theorem marks_books (lines : List Nat)
    (valid : ∀ line ∈ lines, line < lineInvalid)
    (resident : ∀ line ∈ lines, c.resident g line = true)
    (books : Books g c uses flushed history) :
    Books g (lines.foldl (Cache.markDirty g) c) uses flushed (stores lines ++ history) := by
  induction lines generalizing c history with
  | nil => exact books
  | cons line rest ih =>
      have first := mark_books books (valid line List.mem_cons_self)
        (resident line List.mem_cons_self)
      have others := ih (fun other member => valid other (List.mem_cons_of_mem _ member))
        (fun other member => by
          rw [(markDirty_same (g := g) c line).resident]
          exact resident other (List.mem_cons_of_mem _ member)) first
      have order : stores (line :: rest) ++ history = stores rest ++ .store line :: history := by
        simp [stores]
      rw [order]
      exact others

theorem looked_resident (accepted : Accepted g) {addr size : Nat}
    (fits : (g.lines addr size).length ≤ g.nbSets * g.ways)
    (law : Law g c ((g.lines addr size).reverse ++ uses)) :
    ∀ line ∈ g.lines addr size, c.resident g line = true := by
  intro line member
  rw [holding_resident accepted law.holding (line_valid accepted member)]
  exact mem_latest line _ _ (set_share accepted fits _) (List.mem_reverse.mpr member) rfl

theorem counted_kept (c : Cache) (isWrite : Bool) : Kept c (c.counted isWrite) := by
  rw [Cache.counted]
  split <;> exact ⟨⟨rfl, rfl, rfl⟩, rfl, rfl⟩

theorem access_kept (g : Config) (c : Cache) (a : Access) :
    Kept (stored g a ((g.lines a.addr a.size).foldl (turn g a)
      (a.now + g.hitLatency, c.counted a.isWrite))).2 (c.access g a).2 := by
  simp only [Cache.access]
  exact ⟨⟨rfl, rfl, rfl⟩, rfl, rfl⟩

theorem stored_books (accepted : Accepted g) (mode : g.writeback = true) (a : Access)
    (st : Int × Cache)
    (resident : ∀ line ∈ g.lines a.addr a.size, st.2.resident g line = true)
    (books : Books g st.2 uses flushed history) :
    Books g (stored g a st).2 uses flushed
      ((if a.isWrite then stores (g.lines a.addr a.size) else []) ++ history) := by
  simp only [stored, mode, Bool.and_true]
  cases a.isWrite with
  | false => exact books
  | true =>
      exact marks_books _ (fun line member => line_valid accepted member) resident books

theorem access_books (accepted : Accepted g) (mode : g.writeback = true)
    (books : Books g c uses flushed history) (r : Req) (now : Nat) (latency : Int)
    (fits : (g.lines r.addr r.size).length ≤ g.nbSets * g.ways)
    (few : uses.length + (g.lines r.addr r.size).length ≤ word) :
    Books g (c.access g (r.access now latency)).2 ((g.lines r.addr r.size).reverse ++ uses)
      flushed (accessed g c r history) := by
  have counted := counted_kept c r.isWrite
  have looked := turns_books accepted mode (r.access now latency) (g.lines r.addr r.size)
    (fun line member => line_valid accepted member) (counted.books books) few
    ((r.access now latency).now + g.hitLatency)
  rw [counted.lookups] at looked
  have resident := looked_resident accepted fits looked.law
  exact (access_kept g c _).books
    (stored_books accepted mode (r.access now latency) _ resident looked)

theorem since_writeBacks (mark : Event) (line : Nat) (lines : List Nat)
    (apart : ∀ line, Event.writeBack line ≠ mark)
    (stored : since mark (.writeBack line) (writeBacks lines ++ history) = true) :
    line ∉ lines ∧ since mark (.writeBack line) history = true := by
  induction lines generalizing history with
  | nil => exact ⟨List.not_mem_nil, stored⟩
  | cons first rest ih =>
      have order : writeBacks (first :: rest) ++ history =
          writeBacks rest ++ .writeBack first :: history := by
        simp [writeBacks]
      rw [order] at stored
      obtain ⟨others, before⟩ := ih stored
      rw [since, if_neg (apart first)] at before
      by_cases same : Event.writeBack first = .writeBack line
      · rw [if_pos same] at before
        cases before
      · rw [if_neg same] at before
        refine ⟨?_, before⟩
        rw [List.mem_cons, not_or]
        exact ⟨fun eq => same (by rw [eq]), others⟩

theorem flush_books (books : Books g c uses flushed history) (same : Same c c')
    (dirty : c'.dirty = c.dirty) (nothing : c'.victims = []) :
    Books g c' uses (flushed ++ c.victims) (writeBacks c.victims ++ history) := by
  refine ⟨same.law books.law, fun set below way inside filled => ?_, fun line stored => ?_, ?_⟩
  · rw [same.tag] at filled ⊢
    rw [dirty, since_append fun e member => ?_]
    · exact books.marked set below way inside filled
    · obtain ⟨line, _, rfl⟩ := mem_writeBacks.mp member
      exact ⟨by simp, by simp⟩
  · obtain ⟨left, before⟩ := since_writeBacks _ line c.victims (by simp) stored
    obtain ⟨known, there⟩ := books.pending line before
    -- A line still to be written back was no victim, so it is held and dirty.
    obtain ⟨way, inside, tag, marked⟩ := there.resolve_right left
    refine ⟨known, Or.inl ⟨way, inside, ?_, ?_⟩⟩
    · rw [same.tag]
      exact tag
    · rw [dirty]
      exact marked
  · have others : evictions (writeBacks c.victims) = [] := by
      refine evictions_none fun e member line same => ?_
      obtain ⟨_, _, rfl⟩ := mem_writeBacks.mp member
      cases same
    rw [evictions_append, others, nothing, List.append_nil, List.append_nil]
    exact books.evicted

end Books

/-! ### What is sent -/

/-- A request without its data and its latency. -/
def bare (r : Req) : Req := { r with data := [], latency := 0 }

/-- The refill of a store that misses. -/
def fill (g : Config) (r : Req) : Req :=
  { addr := (g.fillRange r.addr r.size).1, size := (g.fillRange r.addr r.size).2,
    isWrite := false }

def fills (g : Config) (c : Cache) (r : Req) : List Req :=
  if c.probe g r.addr r.size || !r.isWrite then [] else [fill g r]

def writeOut (g : Config) (line : Nat) : List Req :=
  [{ addr := line <<< g.lineBits, size := 2 ^ g.lineBits, isWrite := false, debug := true },
    { addr := line <<< g.lineBits, size := 2 ^ g.lineBits, isWrite := true }]

section Sent

variable {g : Config} {σ : Type} {next : Port σ} {now : Nat} {c c' : Cache} {s s' : σ}
  {log log' : List Req}

theorem spans_append (log more : List Req) : spans (log ++ more) = spans log ++ spans more := by
  rw [spans, timedWrites, List.filter_append, List.map_append]
  rfl

theorem spans_bare (log : List Req) : spans (log.map bare) = spans log := by
  induction log with
  | nil => rfl
  | cons r rest ih =>
      rw [List.map_cons, ← List.singleton_append, ← List.singleton_append (l := rest),
        spans_append, spans_append, ih]
      cases write : r.isWrite <;> cases debug : r.debug <;>
        simp [spans, timedWrites, bare, write, debug]

theorem spans_writeOut (g : Config) (lines : List Nat) :
    spans (lines.flatMap (writeOut g)) = lines.map (lineSpan g) := by
  induction lines with
  | nil => rfl
  | cons line rest ih =>
      rw [List.flatMap_cons, spans_append, ih]
      rfl

theorem logged_sends {r answer : Req} {status : Status}
    (answered : logged next now r (log, s) = .ok (status, answer, (log', s'))) :
    log' = log ++ [r] := by
  simp only [logged, bind_ok, Prod.exists] at answered
  obtain ⟨_, _, _, _, rest⟩ := answered
  cases rest
  rfl

theorem side_sends {r answer : Req}
    (answered : side (logged next) now r c (log, s) = .ok (answer, c', (log', s'))) :
    Kept c c' ∧ log'.map bare = log.map bare ++ [bare r] := by
  simp only [side, bind_ok, Prod.exists] at answered
  obtain ⟨_, _, _, _, sent, _, _, rest⟩ := answered
  cases rest
  refine ⟨⟨⟨rfl, rfl, rfl⟩, rfl, rfl⟩, ?_⟩
  rw [logged_sends sent, List.map_append]
  rfl

theorem refill_sends {r answer : Req} {latency : Int}
    (filled : refill g (logged next) now r answer c (log, s) = .ok (latency, c', (log', s'))) :
    Kept c c' ∧ log'.map bare = log.map bare ++ fills g c r := by
  rw [refill] at filled
  rw [fills]
  split at filled
  case isTrue resident =>
    cases filled
    exact ⟨Kept.rfl' c, by simp [resident]⟩
  case isFalse missing =>
    split at filled
    case isTrue write =>
      simp only [timedFill, bind_ok, Prod.exists] at filled
      obtain ⟨_, _, _, _, sent, rest⟩ := filled
      cases rest
      obtain ⟨kept, logged⟩ := side_sends sent
      exact ⟨kept, by rw [logged]; simp [missing, write, bare, fill]⟩
    case isFalse read =>
      cases filled
      exact ⟨Kept.rfl' c, by simp [read]⟩

theorem flushVictim_sends {line : Nat}
    (flushed : flushVictim g (logged next) now line c (log, s) = .ok (c', (log', s'))) :
    Kept c c' ∧ log'.map bare = log.map bare ++ writeOut g line := by
  simp only [flushVictim, bind_ok, Prod.exists] at flushed
  obtain ⟨_, c₁, log₁, s₁, read, _, c₂, log₂, s₂, written, rest⟩ := flushed
  cases rest
  obtain ⟨kept, first⟩ := side_sends read
  obtain ⟨kept', second⟩ := side_sends written
  refine ⟨kept.trans (kept'.trans ⟨⟨rfl, rfl, rfl⟩, rfl, rfl⟩), ?_⟩
  rw [second, first, List.append_assoc]
  rfl

theorem flushTurns_sends (lines : List Nat)
    (flushed : flushTurns g (logged next) now lines c (log, s) = .ok (c', (log', s'))) :
    Kept c c' ∧ log'.map bare = log.map bare ++ lines.flatMap (writeOut g) := by
  induction lines generalizing c log s with
  | nil =>
      cases flushed
      exact ⟨Kept.rfl' _, (List.append_nil _).symm⟩
  | cons line rest ih =>
      simp only [flushTurns, bind_ok, Prod.exists] at flushed
      obtain ⟨c₁, log₁, s₁, one, others⟩ := flushed
      obtain ⟨kept, sent⟩ := flushVictim_sends one
      obtain ⟨kept', more⟩ := ih others
      refine ⟨kept.trans kept', ?_⟩
      rw [more, sent, List.append_assoc, List.flatMap_cons]

/-- The request as it goes down: a read that misses as it is, the rest as debug accesses. -/
def forwarded (g : Config) (c : Cache) (r : Req) : Req :=
  { r with debug := !(!c.probe g r.addr r.size && !r.isWrite) }

/-- What a timed request sends and does: nothing more if it is refused, and otherwise
an access whose victims are written back, in order. -/
theorem req_sends (mode : g.writeback = true) {r answer : Req} {status : Status}
    (real : r.debug = false)
    (answered : req g (logged next) now r (c, (log, s)) =
      .ok (status, answer, (c', (log', s')))) :
    (status ≠ .ok ∧ Kept c c' ∧ log'.map bare = log.map bare ++ [bare (forwarded g c r)]) ∨
    (status = .ok ∧ ∃ c₀ latency, Kept c c₀ ∧ Same (c₀.access g (r.access now latency)).2 c' ∧
      c'.dirty = (c₀.access g (r.access now latency)).2.dirty ∧ c'.victims = [] ∧
      log'.map bare = log.map bare ++ [bare (forwarded g c r)] ++ fills g c r ++
        (c₀.access g (r.access now latency)).2.victims.flatMap (writeOut g)) := by
  simp only [req, mode, if_true, reqWriteback, real, Bool.false_eq_true, if_false, bind_ok,
    Prod.exists] at answered
  obtain ⟨status', answer', log₁, s₁, sent, rest⟩ := answered
  have first : log₁.map bare = log.map bare ++ [bare (forwarded g c r)] := by
    rw [logged_sends sent, List.map_append]
    rfl
  split at rest
  case isTrue refused =>
    cases rest
    exact Or.inl ⟨by simp [refused], Kept.rfl' c, first⟩
  case isFalse accepted =>
    simp only [bind_ok, Prod.exists] at rest
    obtain ⟨_, ok, latency, c₀, log₂, s₂, filled, c₂, log₃, s₃, flushed, rest⟩ := rest
    cases rest
    obtain ⟨kept, second⟩ := refill_sends filled
    simp only [flushVictims, bind_ok, Prod.exists] at flushed
    obtain ⟨c₃, log₄, s₄, turns, rest⟩ := flushed
    cases rest
    obtain ⟨kept', third⟩ := flushTurns_sends _ turns
    refine Or.inr ⟨rfl, c₀, latency, kept, ⟨kept'.same.tags, kept'.same.lru, kept'.same.counter⟩,
      kept'.dirty, rfl, ?_⟩
    rw [third, second, first]

theorem spans_forwarded (g : Config) (c : Cache) (r : Req) :
    spans [bare (forwarded g c r)] = [] := by
  cases write : r.isWrite <;> simp [spans, timedWrites, bare, forwarded, write]

theorem sent_spans {r : Req} {sent : List Req} {victims : List Nat}
    (sends : sent.map bare = [].map bare ++ [bare (forwarded g c r)] ++ fills g c r ++
      victims.flatMap (writeOut g)) : spans sent = victims.map (lineSpan g) := by
  have refills : spans (fills g c r) = [] := by
    rw [fills]
    split <;> rfl
  rw [← spans_bare, sends, spans_append, spans_append, spans_append, spans_forwarded, refills,
    spans_writeOut]
  rfl

end Sent

/-! ### Runs -/

section Runs

variable {g : Config} {σ : Type} {next : Port σ} {c : Cache} {s : σ} {log : List Req}
  {history : List Event} {count : Nat}

theorem reset_books (g : Config) : Books g reset [] [] [] where
  law := reset_law g
  marked set _ way _ filled := absurd rfl filled
  pending line stored := by cases stored
  evicted := rfl

theorem written_lines (g : Config) (sent : List Req) (lines : List Nat)
    (same : spans sent = lines.map (lineSpan g)) :
    (timedWrites sent).map (fun w => w.addr >>> g.lineBits) = lines := by
  have shifted := congrArg (List.map fun span : Nat × Nat => span.1 >>> g.lineBits) same
  rw [spans, List.map_map, List.map_map] at shifted
  simpa [Function.comp_def, lineSpan, Nat.shiftLeft_shiftRight] using shifted

theorem served_books (accepted : Accepted g) (mode : g.writeback = true)
    (served : Served g next c s log history count) (few : count ≤ word) :
    ∃ uses flushed, uses.length = count ∧ Books g c uses flushed history ∧ c.victims = [] ∧
      spans log = flushed.map (lineSpan g) := by
  induction served with
  | reset s => exact ⟨[], [], rfl, reset_books g, rfl, rfl⟩
  | req now c c' s s' log sent history count r answer status before real fits answered ih =>
      -- A refused request changes neither the tag array nor the history.
      rcases req_sends mode real answered with
        ⟨refused, kept, sends⟩ | ⟨rfl, c₀, latency, kept, same, dirty, none, sends⟩
      · rw [if_neg refused] at few ⊢
        obtain ⟨uses, flushed, length, books, none, known⟩ := ih few
        have silent : spans sent = [] := by
          rw [← spans_bare, sends]
          exact spans_forwarded g c r
        refine ⟨uses, flushed, length, ?_, kept.victims.trans none, ?_⟩
        · rw [written_lines g sent [] silent, if_neg refused]
          exact kept.books books
        · rw [spans_append, known, silent]
          exact List.append_nil _
      · rw [if_pos rfl] at few ⊢
        obtain ⟨uses, flushed, length, books, _, known⟩ := ih (by omega)
        have accessed := access_books accepted mode (kept.books books) r now latency fits
          (by rw [length]; exact few)
        have lines := written_lines g sent _ (sent_spans sends)
        refine ⟨(g.lines r.addr r.size).reverse ++ uses,
          flushed ++ (c₀.access g (r.access now latency)).2.victims, ?_, ?_, none, ?_⟩
        · rw [List.length_append, List.length_reverse, length, Nat.add_comm]
        · rw [lines, if_pos rfl, ← kept.accessed]
          exact flush_books accessed same dirty none
        · rw [spans_append, known, List.map_append]
          exact congrArg _ (sent_spans sends)

end Runs

/-- Write-back loses no dirty line: after any timed requests with at most `2 ^ 64` line
lookups, each of no more lines than the cache has, a line stored to since it was last
written back is held and dirty, a held line is dirty exactly if it was stored to since
it was filled, and the timed writes sent are the dirty lines evicted, in order. -/
theorem no_dirty_line_lost (g : Config) (accepted : Accepted g) (mode : g.writeback = true)
    {σ : Type} (next : Port σ) (c : Cache) (s : σ) (log : List Req) (history : List Event)
    (count : Nat) (served : Served g next c s log history count) (few : count ≤ word) :
    (∀ line, since (.store line) (.writeBack line) history = true → Dirty g c line) ∧
    (∀ set < g.nbSets, ∀ way < g.ways, c.tag g set way ≠ lineInvalid →
      c.dirty (g.index set way) =
        since (.store (c.tag g set way)) (.fill (c.tag g set way)) history) ∧
    spans log = (evictions history).map (lineSpan g) := by
  obtain ⟨uses, flushed, _, books, none, sent⟩ := served_books accepted mode served few
  refine ⟨fun line stored => ?_, books.marked, ?_⟩
  · obtain ⟨_, there⟩ := books.pending line stored
    rw [none] at there
    exact there.resolve_right List.not_mem_nil
  · rw [books.evicted, none, List.append_nil]
    exact sent

/-! ### When the counter comes round -/

/-- `narrow`, written back. -/
def back : Config := { narrow with writeback := true }

theorem back_accepted : Accepted back :=
  ⟨by decide, by decide, by decide, by decide, by decide⟩

/-- A store of one byte to line 0. -/
def first : Req := { addr := 0, size := 1, isWrite := true }

def pair : Req := { addr := 4, size := 4, isWrite := true }

theorem back_set (line : Nat) : back.set line = 0 := by
  have mask : back.setMask = 0 := by decide
  rw [Config.set, mask, Nat.and_zero]

theorem answers_flush (g : Config) (now : Nat) (lines : List Nat) (c : Cache) (log : List Req) :
    ∃ c' log', flushTurns g (logged answers) now lines c (log, ()) = .ok (c', (log', ())) := by
  induction lines generalizing c log with
  | nil => exact ⟨c, log, rfl⟩
  | cons line rest ih => exact ih _ _

theorem answers_flushes (g : Config) (now : Nat) (c : Cache) (log : List Req) :
    ∃ c' log', flushVictims g (logged answers) now c (log, ()) = .ok (c', (log', ())) := by
  obtain ⟨c₁, log₁, flushed⟩ := answers_flush g now c.victims
    { c with sideData := resize c.sideData (2 ^ g.lineBits) } log
  exact ⟨{ c₁ with victims := [] }, log₁, (bind_ok _ _ _).mpr ⟨_, flushed, rfl⟩⟩

theorem answers_refill (g : Config) (now : Nat) (r answer : Req) (c : Cache) (log : List Req) :
    ∃ latency c' log', refill g (logged answers) now r answer c (log, ()) =
      .ok (latency, c', (log', ())) := by
  rw [refill]
  split
  · exact ⟨_, _, _, rfl⟩
  · split <;> exact ⟨_, _, _, rfl⟩

theorem answers_req (g : Config) (mode : g.writeback = true) (c : Cache) (r : Req)
    (real : r.debug = false) : ∃ answer c' sent,
      TimingCache.req g (logged answers) 0 r (c, ([], ())) =
        .ok (.ok, answer, (c', (sent, ()))) := by
  let forwarded : Req := { r with debug := !(!c.probe g r.addr r.size && !r.isWrite) }
  let answer : Req := { forwarded with
    debug := if !c.probe g r.addr r.size && !r.isWrite then forwarded.debug else false }
  obtain ⟨latency, c₁, log₁, filled⟩ := answers_refill g 0 r answer c [forwarded]
  obtain ⟨c₂, log₂, flushed⟩ := answers_flushes g 0 (c₁.access g (r.access 0 latency)).2 log₁
  refine ⟨{ answer with latency := (c₁.access g (r.access 0 latency)).1 }, c₂, log₂, ?_⟩
  simp only [TimingCache.req, mode, if_true, reqWriteback, real, Bool.false_eq_true, if_false]
  refine (bind_ok _ _ _).mpr ⟨(.ok, forwarded, ([forwarded], ())), rfl, ?_⟩
  refine (bind_ok _ _ _).mpr ⟨(), rfl, ?_⟩
  exact (bind_ok _ _ _).mpr ⟨_, filled, (bind_ok _ _ _).mpr ⟨_, flushed, rfl⟩⟩

structure Clean (c : Cache) : Prop where
  bits : ∀ i, c.dirty i = false
  victims : c.victims = []

theorem Clean.kept {c c' : Cache} (clean : Clean c) (kept : Kept c c') : Clean c' where
  bits i := by
    rw [kept.dirty]
    exact clean.bits i
  victims := kept.victims.trans clean.victims

theorem Clean.lookup {c : Cache} (clean : Clean c) (line : Nat) :
    Clean (c.lookup back line true 0).2 := by
  rw [Cache.lookup]
  cases c.findWay back line with
  | some way => exact ⟨clean.bits, clean.victims⟩
  | none =>
      simp only [if_true]
      constructor
      · intro i
        rw [allocated_dirty rfl, setAt]
        split
        · rfl
        · exact clean.bits i
      · rw [allocated_victims rfl, clean.victims, leaves, clean.bits]
        split <;> rfl

structure Reads (c : Cache) (count : Nat) : Prop where
  held : c.tags 0 = 0
  empty : c.tags 1 = lineInvalid
  counter : c.lruCounter = count
  stamp : c.lru 0 = count
  other : c.lru 1 = 0
  clean : Clean c

theorem stored_array (g : Config) (a : Access) (st : Int × Cache) :
    Same st.2 (stored g a st).2 ∧ (stored g a st).2.victims = st.2.victims ∧
      (a.isWrite = false → (stored g a st).2.dirty = st.2.dirty) := by
  have marks : ∀ (lines : List Nat) (d : Cache),
      (lines.foldl (Cache.markDirty g) d).victims = d.victims := by
    intro lines d
    induction lines generalizing d with
    | nil => rfl
    | cons line rest ih => exact (ih _).trans (markDirty_victims g d line)
  refine ⟨stored_same a st, ?_, fun read => ?_⟩
  · simp only [stored]
    split
    · exact marks _ _
    · split <;> rfl
  · simp only [stored, read, Bool.false_and, Bool.false_eq_true, if_false]

/-- The lookups of an access, whatever its times are. -/
def looked (g : Config) (c : Cache) (lines : List Nat) : Cache :=
  lines.foldl (fun c line => (c.lookup g line true 0).2) c

theorem turns_kept (g : Config) (a : Access) (allocates : g.allocates a.isWrite = true)
    (lines : List Nat) {c d : Cache} (kept : Kept c d) (ready : Int) :
    Kept (looked g c lines) (lines.foldl (turn g a) (ready, d)).2 := by
  induction lines generalizing c d ready with
  | nil => exact kept
  | cons line rest ih =>
      have turned := turn_kept g a ready d line
      rw [allocates] at turned
      exact ih ((kept.lookup line true 0 0).trans turned) _

theorem back_served {c c' : Cache} {r answer : Req} {sent : List Req} (real : r.debug = false)
    (answered : TimingCache.req back (logged answers) 0 r (c, ([], ())) =
      .ok (.ok, answer, (c', (sent, ())))) :
    Same (looked back c (back.lines r.addr r.size)) c' ∧ c'.victims = [] ∧
      (r.isWrite = false → c'.dirty = (looked back c (back.lines r.addr r.size)).dirty) ∧
      spans sent = (looked back c (back.lines r.addr r.size)).victims.map (lineSpan back) := by
  rcases req_sends rfl real answered with
    ⟨refused, _⟩ | ⟨_, c₀, latency, kept, same, dirty, none, sends⟩
  · exact absurd rfl refused
  · have turned := turns_kept back (r.access 0 latency) (back_accepted.allocates rfl _)
      (back.lines r.addr r.size) (kept.trans (counted_kept c₀ r.isWrite))
      ((r.access 0 latency).now + back.hitLatency)
    obtain ⟨array, victims, read⟩ := stored_array back (r.access 0 latency)
      ((back.lines r.addr r.size).foldl (turn back (r.access 0 latency))
        ((r.access 0 latency).now + back.hitLatency, c₀.counted r.isWrite))
    have ended := access_kept back c₀ (r.access 0 latency)
    refine ⟨((turned.same.trans array).trans ended.same).trans same, none, fun load => ?_, ?_⟩
    · rw [dirty, ended.dirty]
      exact (read load).trans turned.dirty
    · rw [sent_spans sends, ended.victims]
      exact congrArg _ (victims.trans turned.victims)

theorem back_read {c : Cache} {log : List Req} {history : List Event} {count : Nat}
    (served : Served back answers c () log history count) (clean : Clean c) :
    ∃ c' log' history', Served back answers c' () log' history' (count + 1) ∧
      Same (c.lookup back 0 true 0).2 c' ∧ Clean c' := by
  obtain ⟨answer, c', sent, answered⟩ := answers_req back rfl c (Req.read 0) rfl
  have next := served.req 0 c c' () () log sent history count (Req.read 0) answer .ok rfl
    (by decide) answered
  have lines : back.lines (Req.read 0).addr (Req.read 0).size = [0] := by decide
  obtain ⟨same, none, dirty, _⟩ := back_served rfl answered
  rw [lines] at same dirty
  refine ⟨c', _, _, next, same, fun i => ?_, none⟩
  rw [dirty rfl]
  exact (clean.lookup 0).bits i

theorem reads_run (count : Nat) (few : count + 1 < word) : ∃ c log history,
    Served back answers c () log history (count + 1) ∧ Reads c (count + 1) := by
  induction count with
  | zero =>
      obtain ⟨c, log, history, served, same, clean⟩ := back_read (Served.reset ())
        ⟨fun _ => rfl, rfl⟩
      refine ⟨c, log, history, served, ?_, ?_, ?_, ?_, ?_, clean⟩
      · rw [same.tags]
        decide
      · rw [same.tags]
        decide
      · rw [same.counter]
        decide
      · rw [same.lru]
        decide
      · rw [same.lru]
        decide
  | succ count ih =>
      obtain ⟨c, log, history, served, reads⟩ := ih (by omega)
      obtain ⟨c', log', history', served', same, clean⟩ := back_read served reads.clean
      have found : c.findWay back 0 = some 0 := by
        have range : List.range back.ways = [0, 1] := by decide
        have here : c.tag back (back.set 0) 0 = 0 := reads.held
        simp [Cache.findWay, range, here]
      rw [Cache.lookup, found] at same
      have place : back.index (back.set 0) 0 = 0 := by decide
      have stamp : (c.lruCounter + 1) % word = count + 1 + 1 := by
        rw [reads.counter]
        exact Nat.mod_eq_of_lt few
      refine ⟨c', log', history', served', ?_, ?_, ?_, ?_, ?_, clean⟩
      · rw [same.tags]
        exact reads.held
      · rw [same.tags]
        exact reads.empty
      · rw [same.counter]
        exact stamp
      · rw [same.lru]
        simp only [Cache.stamped, place, setAt_here]
        exact stamp
      · rw [same.lru]
        simp only [Cache.stamped, place, setAt_apart _ _ Nat.one_ne_zero]
        exact reads.other

theorem pair_lookups {c : Cache} (reads : Reads c (word - 1)) :
    ((c.lookup back 2 true 0).2.lookup back 3 true 0).2.tags 0 = 0 ∧
      ((c.lookup back 2 true 0).2.lookup back 3 true 0).2.tags 1 = 3 := by
  have range : List.range back.ways = [0, 1] := by decide
  have place : ∀ way, back.index 0 way = way := by
    intro way
    rw [Config.index, Nat.zero_mul, Nat.zero_add]
  have miss : ∀ d : Cache, d.tags 0 = 0 → d.lru 0 = word - 1 → d.lru 1 = 0 → ∀ line,
      line ≠ 0 → d.tags 1 ≠ line → d.lookup back line true 0 = (-1, d.allocated back line 0) ∧
        d.victim back 0 = 1 := by
    intro d held stamp other line apart apart'
    have absent : d.findWay back line = none := by
      simp [Cache.findWay, range, Cache.tag, back_set, place, held, apart.symm, apart']
    refine ⟨by rw [Cache.lookup, absent]; rfl, ?_⟩
    have ways : List.range' 1 (back.ways - 1) = [1] := by decide
    simp [Cache.victim, ways, Cache.stamp, place, stamp, other, word]
  have filled : ∀ d : Cache, ∀ line, d.victim back 0 = 1 →
      (d.allocated back line 0).tags = setAt d.tags 1 line ∧
        (d.allocated back line 0).lru = setAt d.lru 1 ((d.lruCounter + 1) % word) := by
    intro d line victim
    simp [Cache.allocated, Cache.stamped, back_set, victim, place]
  obtain ⟨first, victim⟩ := miss c reads.held reads.stamp reads.other 2 (by decide)
    (by rw [reads.empty]; decide)
  obtain ⟨tags, lru⟩ := filled c 2 victim
  rw [first]
  -- the counter is 0 again, so line 2 looks like the oldest
  have round : (c.lruCounter + 1) % word = 0 := by
    rw [reads.counter]
    decide
  have held : (c.allocated back 2 0).tags 0 = 0 := by
    rw [tags, setAt_apart _ _ Nat.zero_ne_one, reads.held]
  have held' : (c.allocated back 2 0).tags 1 = 2 := by
    rw [tags, setAt_here]
  obtain ⟨second, victim'⟩ := miss (c.allocated back 2 0) held
    (by rw [lru, setAt_apart _ _ Nat.zero_ne_one, reads.stamp])
    (by rw [lru, setAt_here, round]) 3 (by decide) (by rw [held']; decide)
  obtain ⟨tags', _⟩ := filled (c.allocated back 2 0) 3 victim'
  rw [second, tags', setAt_here, setAt_apart _ _ Nat.zero_ne_one]
  exact ⟨held, rfl⟩

/-- After `2 ^ 64 - 1` reads of line 0, a store to lines 2 and 3 loses line 2, which is
neither held nor written back. -/
theorem pair_loses_line : ∃ c log history count, Served back answers c () log history count ∧
    since (.store 2) (.writeBack 2) history = true ∧ ¬ Dirty back c 2 := by
  obtain ⟨c, log, history, served, reads⟩ := reads_run (word - 2) (by decide)
  obtain ⟨answer, c', sent, answered⟩ := answers_req back rfl c pair rfl
  have next := served.req 0 c c' () () log sent history _ pair answer .ok rfl (by decide) answered
  have lines : back.lines pair.addr pair.size = [2, 3] := by decide
  obtain ⟨same, none, _, sends⟩ := back_served rfl answered
  rw [lines] at same sends
  obtain ⟨held, held'⟩ := pair_lookups reads
  have clean := (reads.clean.lookup 2).lookup 3
  have unwritten : (looked back c [2, 3]).victims = [] := clean.victims
  rw [unwritten] at sends
  refine ⟨c', _, _, _, next, ?_, ?_⟩
  · rw [written_lines back sent [] sends, if_pos rfl, accessed, lines]
    rfl
  · rintro ⟨way, inside, tag, _⟩
    have ways : way = 0 ∨ way = 1 := by
      have two : back.ways = 2 := rfl
      omega
    rw [same.tag, back_set] at tag
    rcases ways with rfl | rfl
    · exact absurd (held.symm.trans tag) (by decide)
    · exact absurd (held'.symm.trans tag) (by decide)

/-- A store to line 0, then one to lines 2 and 3 that evicts it: its one write is sent, and
the lines of the second store are dirty. -/
theorem no_dirty_line_lost_pair : ∃ c log history, Served back answers c () log history 3 ∧
    evictions history = [0] ∧ spans log = [lineSpan back 0] ∧ Dirty back c 2 ∧ Dirty back c 3 := by
  have one := (Served.reset () : Served back answers reset () [] [] 0).req 0 _ _ () () [] _ [] 0
    first _ _ rfl (by decide) rfl
  have two := one.req 0 _ _ () () _ _ _ _ pair _ _ rfl (by decide) rfl
  obtain ⟨stored, _, sent⟩ := no_dirty_line_lost back back_accepted rfl answers _ _ _ _ _ two
    (by decide)
  exact ⟨_, _, _, two, by decide, sent.trans (by decide), stored 2 (by decide),
    stored 3 (by decide)⟩

end HeteroSim.WriteBack
