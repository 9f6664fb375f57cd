import HeteroSim.WriteBack
import Mathlib.Tactic.Ring

/-!
What a write-back cache fetches. It decides once for the whole request whether it
misses, and then fetches every line of the request, also those it holds. A fill of
all the lines there are has a size that is 0 in 64 bits.
-/

namespace HeteroSim.RefillTraffic

open TimingCache LruLaw WriteBack

/-- Covered by a timed read. -/
def Fetched (g : Config) (sent : List Req) (line : Nat) : Prop :=
  ∃ r ∈ sent, r.isWrite = false ∧ r.debug = false ∧ line ∈ g.lines r.addr r.size

/-- The lines are all the lines of the 64-bit address space. -/
def Whole (g : Config) (r : Req) : Prop :=
  g.firstLine r.addr = 0 ∧ (g.lastLine r.addr r.size + 1) <<< g.lineBits = word

section Traffic

variable {g : Config}

theorem fetched_bare (sent : List Req) (line : Nat) :
    Fetched g (sent.map bare) line ↔ Fetched g sent line := by
  simp only [Fetched, List.mem_map]
  constructor
  · rintro ⟨_, ⟨r, member, rfl⟩, read, real, inside⟩
    exact ⟨r, member, read, real, inside⟩
  · rintro ⟨r, member, read, real, inside⟩
    exact ⟨bare r, ⟨r, member, rfl⟩, read, real, inside⟩

theorem fetched_append (sent more : List Req) (line : Nat) :
    Fetched g (sent ++ more) line ↔ Fetched g sent line ∨ Fetched g more line := by
  simp only [Fetched, List.mem_append, or_and_right, exists_or]

theorem writeOut_fetches (victims : List Nat) (line : Nat) :
    ¬ Fetched g (victims.flatMap (writeOut g)) line := by
  rintro ⟨r, member, read, real, _⟩
  obtain ⟨victim, _, inside⟩ := List.mem_flatMap.mp member
  rcases List.mem_cons.mp inside with rfl | inside
  · cases real
  · rw [List.mem_singleton.mp inside] at read
    cases read

theorem last_line (accepted : Accepted g) (addr size : Nat) :
    (g.lastLine addr size + 1) * 2 ^ g.lineBits ≤ word := by
  have small : g.lineBits ≤ 64 := by
    refine (Nat.pow_le_pow_iff_right (a := 2) (by decide)).mp ?_
    rw [accepted.line_bits]
    exact Nat.le_trans (Nat.le_of_lt accepted.line_small) (by decide)
  have split : word = 2 ^ (64 - g.lineBits) * 2 ^ g.lineBits := by
    rw [← Nat.pow_add, Nat.sub_add_cancel small, word]
  rw [split]
  refine Nat.mul_le_mul_right _ (Nat.succ_le_of_lt ?_)
  rw [Config.lastLine, Nat.shiftRight_eq_div_pow]
  refine Nat.div_lt_of_lt_mul ?_
  rw [Nat.mul_comm, ← split]
  exact Nat.mod_lt _ (by decide)

theorem fill_span (accepted : Accepted g) {r : Req}
    (nonempty : g.firstLine r.addr ≤ g.lastLine r.addr r.size) :
    (fill g r).addr = g.firstLine r.addr * 2 ^ g.lineBits ∧
      ((Whole g r ∧ (fill g r).size = 0) ∨ (¬ Whole g r ∧
        (fill g r).addr + (fill g r).size = (g.lastLine r.addr r.size + 1) * 2 ^ g.lineBits)) := by
  have inside := last_line accepted r.addr r.size
  have positive : 0 < 2 ^ g.lineBits := Nat.two_pow_pos _
  have order : g.firstLine r.addr * 2 ^ g.lineBits ≤ g.lastLine r.addr r.size * 2 ^ g.lineBits :=
    Nat.mul_le_mul_right _ nonempty
  have zero : g.firstLine r.addr = 0 ↔ g.firstLine r.addr * 2 ^ g.lineBits = 0 := by
    simp
  simp only [fill, Config.fillRange, Whole, Nat.shiftLeft_eq, Nat.succ_mul, zero] at inside ⊢
  -- With the products as unknowns the rest is linear.
  generalize g.firstLine r.addr * 2 ^ g.lineBits = first at *
  generalize g.lastLine r.addr r.size * 2 ^ g.lineBits = last at *
  generalize 2 ^ g.lineBits = line at *
  refine ⟨trivial, ?_⟩
  rw [word] at *
  omega

theorem fill_lines (accepted : Accepted g) {r : Req}
    (nonempty : g.firstLine r.addr ≤ g.lastLine r.addr r.size) (part : ¬ Whole g r) :
    g.lines (fill g r).addr (fill g r).size = g.lines r.addr r.size := by
  obtain ⟨start, span⟩ := fill_span accepted nonempty
  obtain ⟨_, stop⟩ := span.resolve_left fun whole => part whole.1
  have inside := last_line accepted r.addr r.size
  have positive : 0 < 2 ^ g.lineBits := Nat.two_pow_pos _
  have first : g.firstLine (fill g r).addr = g.firstLine r.addr := by
    rw [Config.firstLine, start, Nat.shiftRight_eq_div_pow, Nat.mul_div_cancel _ positive]
  have last : g.lastLine (fill g r).addr (fill g r).size = g.lastLine r.addr r.size := by
    have order : g.firstLine r.addr * 2 ^ g.lineBits ≤ g.lastLine r.addr r.size * 2 ^ g.lineBits :=
      Nat.mul_le_mul_right _ nonempty
    rw [Nat.succ_mul] at inside stop
    have bytes : (fill g r).size ≠ 0 := by omega
    have below : (fill g r).addr + (fill g r).size - 1 =
        2 ^ g.lineBits * g.lastLine r.addr r.size + (2 ^ g.lineBits - 1) := by
      rw [stop, Nat.mul_comm]
      omega
    rw [Config.lastLine, if_neg bytes, Nat.mod_eq_of_lt (by omega), below,
      Nat.shiftRight_eq_div_pow, Nat.mul_add_div positive, Nat.div_eq_of_lt (by omega),
      Nat.add_zero]
  simp only [Config.lines, first, last]

theorem fill_whole (accepted : Accepted g) {r : Req} (whole : Whole g r) :
    g.lines (fill g r).addr (fill g r).size = [0] := by
  have nonempty : g.firstLine r.addr ≤ g.lastLine r.addr r.size := by
    rw [whole.1]
    exact Nat.zero_le _
  obtain ⟨start, span⟩ := fill_span accepted nonempty
  obtain ⟨_, empty⟩ := span.resolve_right fun part => part.1 whole
  rw [start, empty, whole.1]
  simp [Config.lines, Config.firstLine, Config.lastLine]

theorem line_missing (accepted : Accepted g) (c : Cache) {r : Req} (whole : Whole g r) :
    ∃ line ∈ g.lines r.addr r.size, line ≠ 0 ∧ c.resident g line = false := by
  by_contra none
  push Not at none
  -- one line more of set 0 than it has ways
  let lines := (List.range (g.ways + 1)).map fun k => g.nbSets * (k + 1)
  have apart : lines.Nodup := by
    refine List.Nodup.map_on (fun x _ y _ same => ?_) List.nodup_range
    have := Nat.eq_of_mul_eq_mul_left accepted.sets same
    omega
  have held : ∀ line ∈ lines, line ∈ (List.range g.ways).map (c.tag g 0) := by
    intro line member
    obtain ⟨k, inside, rfl⟩ := List.mem_map.mp member
    have few : k + 1 ≤ 2 * g.ways := by
      have := List.mem_range.mp inside
      have := accepted.ways
      omega
    -- A cache is smaller than the address space, so these lines exist.
    have small : g.nbSets * (k + 1) * 2 ^ g.lineBits < word := by
      rw [accepted.line_bits]
      calc g.nbSets * (k + 1) * g.lineSize ≤ g.nbSets * (2 * g.ways) * g.lineSize :=
            Nat.mul_le_mul_right _ (Nat.mul_le_mul_left _ few)
        _ = 2 * (g.nbSets * g.ways * g.lineSize) := by ring
        _ < word := by
          rw [accepted.size_product]
          have := accepted.small
          have : 2 ^ 32 < word := by decide
          omega
    have below : g.nbSets * (k + 1) ≤ g.lastLine r.addr r.size := by
      have all := whole.2
      rw [Nat.shiftLeft_eq] at all
      rw [← all] at small
      exact Nat.le_of_lt_succ (Nat.lt_of_mul_lt_mul_right small)
    have positive : g.nbSets * (k + 1) ≠ 0 :=
      Nat.mul_ne_zero accepted.sets.ne' (Nat.succ_ne_zero k)
    have resident := none _ (mem_lines.mpr ⟨whole.1 ▸ Nat.zero_le _, below⟩) positive
    rw [ne_eq, Bool.not_eq_false, resident_iff, set_mod accepted, Nat.mul_mod_right] at resident
    obtain ⟨way, within, tag⟩ := resident
    exact List.mem_map.mpr ⟨way, List.mem_range.mpr within, tag⟩
  have length := (List.subperm_of_subset apart held).length_le
  simp [lines] at length

theorem served_fetches (mode : g.writeback = true) {σ : Type}
    {next : Port σ} {now : Nat} {c c' : Cache} {s s' : σ} {r answer : Req} {sent : List Req}
    (real : r.debug = false)
    (answered : req g (logged next) now r (c, ([], s)) =
      .ok (.ok, answer, (c', (sent, s')))) (line : Nat) :
    Fetched g sent line ↔ c.probe g r.addr r.size = false ∧
      line ∈ if r.isWrite then g.lines (fill g r).addr (fill g r).size
        else g.lines r.addr r.size := by
  rcases req_sends mode real answered with ⟨refused, _⟩ | ⟨_, c₀, latency, _, _, _, _, sends⟩
  · exact absurd rfl refused
  · rw [← fetched_bare, sends, fetched_append, or_iff_left (writeOut_fetches _ _),
      fetched_append, List.map_nil, List.nil_append]
    cases resident : c.probe g r.addr r.size <;> cases write : r.isWrite <;>
      simp [Fetched, bare, forwarded, fills, fill, resident, write]

end Traffic

/-- A served request fetches exactly the lines it misses, if and only if it finds all
its lines, or none of them and is not a store to all the lines there are. -/
theorem refill_is_misses (g : Config) (accepted : Accepted g) (mode : g.writeback = true)
    {σ : Type} (next : Port σ) (now : Nat) (c c' : Cache) (s s' : σ) (r answer : Req)
    (sent : List Req) (real : r.debug = false)
    (answered : req g (logged next) now r (c, ([], s)) =
      .ok (.ok, answer, (c', (sent, s')))) :
    (∀ line, Fetched g sent line ↔ line ∈ g.lines r.addr r.size ∧ c.resident g line = false) ↔
      (∀ line ∈ g.lines r.addr r.size, c.resident g line = true) ∨
      ((∀ line ∈ g.lines r.addr r.size, c.resident g line = false) ∧
        ¬ (r.isWrite = true ∧ Whole g r)) := by
  have fetches := served_fetches mode real answered
  have probe : c.probe g r.addr r.size = true ↔
      ∀ line ∈ g.lines r.addr r.size, c.resident g line = true := by
    rw [Cache.probe, List.all_eq_true]
  by_cases all : c.probe g r.addr r.size = true
  · have held := probe.mp all
    refine iff_of_true (fun line => ?_) (Or.inl held)
    rw [fetches]
    simp only [all, Bool.true_eq_false, false_and, false_iff, not_and, Bool.not_eq_false]
    exact held line
  · rw [or_iff_right fun held => all (probe.mpr held)]
    have missing : c.probe g r.addr r.size = false := Bool.not_eq_true _ ▸ all
    simp only [fetches, missing, true_and]
    by_cases whole : r.isWrite = true ∧ Whole g r
    · -- the fill covers line 0 only, and some other line is missing
      rw [if_pos whole.1, fill_whole accepted whole.2]
      obtain ⟨line, inside, notFirst, absent⟩ := line_missing accepted c whole.2
      refine iff_of_false (fun exact => ?_) fun condition => condition.2 whole
      exact notFirst (List.mem_singleton.mp ((exact line).mpr ⟨inside, absent⟩))
    · rw [and_iff_left whole]
      have covers : (if r.isWrite then g.lines (fill g r).addr (fill g r).size
          else g.lines r.addr r.size) = g.lines r.addr r.size := by
        split
        case isTrue write =>
          obtain ⟨line, inside, _⟩ : ∃ line ∈ g.lines r.addr r.size, c.resident g line ≠ true := by
            by_contra none
            exact all (probe.mpr fun line inside => by_contra fun absent =>
              none ⟨line, inside, absent⟩)
          obtain ⟨low, high⟩ := mem_lines.mp inside
          exact fill_lines accepted (Nat.le_trans low high) fun space => whole ⟨write, space⟩
        case isFalse => rfl
      rw [covers]
      exact forall_congr' fun line => by rw [iff_self_and]

/-! ### A read of two lines -/

/-- Lines 0 and 1. -/
def both : Req := { addr := 0, size := 4, isWrite := false }

/-- Neither is there after reset, and both are fetched. -/
theorem refill_is_misses_both : ∃ answer c' sent,
    req back (logged answers) 0 both (reset, ([], ())) = .ok (.ok, answer, (c', (sent, ()))) ∧
    ∀ line, Fetched back sent line ↔ line ∈ back.lines 0 4 ∧ reset.resident back line = false := by
  have answered : ∃ answer c' sent, req back (logged answers) 0 both (reset, ([], ())) =
      .ok (.ok, answer, (c', (sent, ()))) := answers_req back rfl reset both rfl
  obtain ⟨answer, c', sent, answered⟩ := answered
  exact ⟨answer, c', sent, answered, (refill_is_misses back back_accepted rfl answers 0 reset c'
    () () both answer sent rfl answered).mpr
      (Or.inr ⟨by decide, fun space => Bool.false_ne_true space.1⟩)⟩

/-- With line 0 there and line 1 missing, line 0 is fetched again. -/
theorem both_fetches_again : ∃ c log history answer c' sent,
    Served back answers c () log history 1 ∧
    req back (logged answers) 0 both (c, ([], ())) = .ok (.ok, answer, (c', (sent, ()))) ∧
    c.resident back 0 = true ∧ Fetched back sent 0 := by
  have served := (Served.reset () : Served back answers reset () [] [] 0).req 0 _ _ () () [] _ [] 0
    (Req.read 0) _ _ rfl (by decide) rfl
  exact ⟨_, _, _, _, _, _, served, rfl, by decide, both, List.mem_cons_self, rfl, rfl, by decide⟩

end HeteroSim.RefillTraffic
