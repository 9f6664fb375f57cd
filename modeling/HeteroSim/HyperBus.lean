import HeteroSim.AccessLoop
import HeteroSim.NominalFormula

/-!
The HyperRAM bus. An access holds the bus for a command, a latency and its data; tCSM
bounds how long, so a long one is split. `split` lists the transactions of the splitting
loop, and a run keeps them with the access they belong to.
-/

namespace HeteroSim.HyperBus

open DramParams DramEngine Effect NominalLatency

/-- One CS# low phase: command, latency and the data of `bytes`. -/
structure Transaction where
  start : Int
  stop : Int
  bytes : Int

def dataClks (p : Params) (bytes : Int) : Int :=
  (bytes + 2 * p.hbBusBytes - 1).tdiv (2 * p.hbBusBytes)

/-- How long CS# is low for a transaction of `bytes`. -/
def lowPs (p : Params) (bytes : Int) : Int := (overheadClks p + dataClks p bytes) * p.hbCkPs

/-- The transactions of `chunks`, in order. -/
def split (p : Params) : Nat → Int → Int → List Transaction
  | 0, _, _ => []
  | turns + 1, bytes, t =>
      if 0 < bytes then
        let chunk := min bytes (maxChunk p)
        let stop := t + lowPs p chunk
        ⟨t, stop, chunk⟩ :: split p turns (bytes - chunk) (stop + p.hbRwrPs)
      else []

/-- An access and its transactions. -/
structure Served where
  now : Int
  addr : Nat
  size : Nat
  transactions : List Transaction

def serveAccess (e : Engine) (fuel : Nat) (now : Int) (addr size : Nat) : Served :=
  { now := now
    addr := addr
    size := max size 1
    transactions := split e.g.p fuel (movedBytes e.g.p addr (max size 1))
      (max (now + e.g.p.ctrlPs.tdiv 2) e.hbFree) }

/-- A run of accesses, the latest first. -/
inductive Runs (p : Params) : Engine → List Served → Prop where
  | start (e : Engine) (created : create p = .ok e) : Runs p e []
  | access (e after : Engine) (history : List Served) (fuel : Nat) (now : Int) (addr size : Nat)
      (w : Bool) (done : Int) (run : Runs p e history) (addressed : addr < word)
      (sized : size < word) (ended : access fuel now addr size w e = .ok done after) :
      Runs p after (serveAccess e fuel now addr size :: history)

/-- Every transaction of a run, in order. -/
def timeline (history : List Served) : List Transaction :=
  history.reverse.flatMap fun served => served.transactions

/-- The bytes of the granules an access touches. -/
def widened (p : Params) (addr size : Nat) : Nat :=
  (addr + size - 1) / p.granule.toNat * p.granule.toNat + p.granule.toNat -
    addr / p.granule.toNat * p.granule.toNat

/-- A device as it is meant to be set up: the constructor's checks, a power of two, no
negative time, and room for one clock of data within tCSM. -/
structure Bus (p : Params) : Prop where
  clock : 0 < p.hbCkPs
  width : 0 < p.hbBusBytes
  granule : ∃ j : Nat, p.granule = 2 ^ j
  command : 0 ≤ p.hbCaClks
  latency : 0 ≤ p.hbLatClks
  controller : 0 ≤ p.ctrlPs
  recovery : 0 ≤ p.hbRwrPs
  room : (overheadClks p + 1) * p.hbCkPs ≤ p.hbCsmPs

section Splitting

variable {p : Params} (bus : Bus p)

include bus

theorem overhead_nonneg : 0 ≤ overheadClks p := by
  have command := bus.command
  have latency := bus.latency
  simp only [overheadClks]
  split <;> omega

theorem chunk_units : 0 < p.hbCsmPs.tdiv p.hbCkPs - overheadClks p ∧
    maxChunk p = (p.hbCsmPs.tdiv p.hbCkPs - overheadClks p) * (2 * p.hbBusBytes) := by
  have clock := bus.clock
  have width := bus.width
  have overhead := overhead_nonneg bus
  have low : 0 ≤ p.hbCsmPs := Int.le_trans (Int.mul_nonneg (by omega) clock.le) bus.room
  have clocks : overheadClks p + 1 ≤ p.hbCsmPs.tdiv p.hbCkPs := by
    rw [Int.tdiv_eq_ediv_of_nonneg low]
    exact Int.le_ediv_of_mul_le clock bus.room
  refine ⟨by omega, max_eq_right ?_⟩
  have scaled := Int.mul_le_mul_of_nonneg_right
    (by omega : 1 ≤ p.hbCsmPs.tdiv p.hbCkPs - overheadClks p) (by omega : 0 ≤ 2 * p.hbBusBytes)
  omega

theorem allowed_iff (bytes : Int) (nonempty : 0 ≤ bytes) :
    lowPs p bytes ≤ p.hbCsmPs ↔ bytes ≤ maxChunk p := by
  have clock := bus.clock
  have width := bus.width
  have overhead := overhead_nonneg bus
  have low : 0 ≤ p.hbCsmPs := Int.le_trans (Int.mul_nonneg (by omega) clock.le) bus.room
  obtain ⟨_, chunk⟩ := chunk_units bus
  rw [chunk, lowPs, dataClks, ← Int.le_ediv_iff_mul_le clock, ← Int.tdiv_eq_ediv_of_nonneg low,
    Int.tdiv_eq_ediv_of_nonneg (by omega)]
  generalize p.hbCsmPs.tdiv p.hbCkPs = most
  have turns : (bytes + 2 * p.hbBusBytes - 1) / (2 * p.hbBusBytes) ≤ most - overheadClks p ↔
      bytes ≤ (most - overheadClks p) * (2 * p.hbBusBytes) := by
    rw [← Int.lt_add_one_iff, Int.ediv_lt_iff_lt_mul (by omega), Int.add_mul, Int.one_mul]
    omega
  rw [← turns]
  omega

theorem chunk_pos : 0 < maxChunk p := by
  obtain ⟨units, chunk⟩ := chunk_units bus
  have width := bus.width
  rw [chunk]
  exact Int.mul_pos units (by omega)

theorem lowPs_pos (bytes : Int) (nonempty : 0 < bytes) : 0 < lowPs p bytes := by
  have width := bus.width
  have overhead := overhead_nonneg bus
  have data : 1 ≤ dataClks p bytes := by
    rw [dataClks, Int.tdiv_eq_ediv_of_nonneg (by omega)]
    exact Int.le_ediv_of_mul_le (by omega) (by omega)
  exact Int.mul_pos (by omega) bus.clock

theorem split_mem (turns : Nat) (bytes t : Int) :
    ∀ x ∈ split p turns bytes t, t ≤ x.start ∧ x.stop = x.start + lowPs p x.bytes ∧
      0 < x.bytes ∧ x.bytes ≤ maxChunk p := by
  induction turns generalizing bytes t with
  | zero => simp [split]
  | succ turns ih =>
      have chunk := chunk_pos bus
      have recovery := bus.recovery
      intro x member
      rw [split] at member
      split at member
      next nonempty =>
        rcases List.mem_cons.mp member with rfl | later
        · exact ⟨Int.le_refl _, rfl, by simp only; omega, Int.min_le_right _ _⟩
        · have low := lowPs_pos bus (min bytes (maxChunk p)) (by omega)
          obtain ⟨start, stop, positive, most⟩ := ih _ _ x later
          exact ⟨by omega, stop, positive, most⟩
      next => cases member

theorem split_apart (turns : Nat) (bytes t : Int) :
    (split p turns bytes t).Pairwise fun x y => x.stop + p.hbRwrPs ≤ y.start := by
  induction turns generalizing bytes t with
  | zero => exact List.Pairwise.nil
  | succ turns ih =>
      rw [split]
      split
      next nonempty =>
        exact List.Pairwise.cons (fun y later => (split_mem bus turns _ _ y later).1) (ih _ _)
      next => exact List.Pairwise.nil

theorem chunks_split (turns : Nat) (bytes t ended : Int) (st : Stats)
    (before : ended ≤ t) (finish : Int) (after : Stats)
    (ran : chunks p (overheadClks p) (2 * p.hbBusBytes) (maxChunk p) turns bytes t ended st =
      some (finish, after)) :
    ((split p turns bytes t).map fun x => x.bytes).sum = max bytes 0 ∧ ended ≤ finish ∧
      (∀ x ∈ split p turns bytes t, x.stop ≤ finish) ∧
      after.bursts = st.bursts + (split p turns bytes t).length := by
  induction turns generalizing bytes t ended st with
  | zero =>
      simp only [chunks] at ran
      split at ran
      next => cases ran
      next none =>
        cases ran
        have empty : max bytes 0 = 0 := by omega
        simp [split, empty]
  | succ turns ih =>
      simp only [chunks] at ran
      rw [split]
      split at ran
      next more =>
        rw [if_pos more]
        have chunk := chunk_pos bus
        have low := lowPs_pos bus (min bytes (maxChunk p)) (by omega)
        have recovery := bus.recovery
        change chunks p _ _ _ turns _ (t + lowPs p (min bytes (maxChunk p)) + p.hbRwrPs)
          (t + lowPs p (min bytes (maxChunk p))) _ = _ at ran
        obtain ⟨moved, reached, ends, counted⟩ := ih _ _ _ _ (by omega) ran
        refine ⟨?_, by omega, ?_, ?_⟩
        · simp only [List.map_cons, List.sum_cons, moved]
          omega
        · intro x member
          rcases List.mem_cons.mp member with rfl | later
          · exact reached
          · exact ends x later
        · simp only [counted, List.length_cons]
          omega
      next none =>
        rw [if_neg none]
        cases ran
        have empty : max bytes 0 = 0 := by omega
        simp [empty]

omit bus in
theorem chunks_enough (width : 0 < p.hbBusBytes) (turns : Nat) (bytes t ended : Int) (st : Stats)
    (enough : bytes ≤ turns) :
    ∃ out, ∀ more, turns ≤ more →
      chunks p (overheadClks p) (2 * p.hbBusBytes) (maxChunk p) more bytes t ended st
        = some out := by
  induction turns generalizing bytes t ended st with
  | zero =>
      have nothing : ¬ 0 < bytes := by omega
      refine ⟨(ended, st), fun more _ => ?_⟩
      cases more <;> simp only [chunks, nothing, if_false]
  | succ turns ih =>
      by_cases nonempty : 0 < bytes
      · have chunk : 0 < maxChunk p := by
          obtain ⟨units, positive, same⟩ := maxChunk_units p width
          rw [same]
          exact Int.mul_pos positive (by omega)
        obtain ⟨out, ends⟩ := ih (bytes - min bytes (maxChunk p))
          (t + lowPs p (min bytes (maxChunk p)) + p.hbRwrPs) (t + lowPs p (min bytes (maxChunk p)))
          { st with
            bursts := st.bursts + 1
            busyPs := st.busyPs + dataClks p (min bytes (maxChunk p)) * p.hbCkPs } (by omega)
        refine ⟨out, fun more after => ?_⟩
        obtain ⟨less, rfl⟩ : ∃ less, more = less + 1 := ⟨more - 1, by omega⟩
        rw [chunks, if_pos nonempty]
        exact ends less (by omega)
      · refine ⟨(ended, st), fun more _ => ?_⟩
        cases more <;> simp only [chunks, nonempty, if_false]

theorem split_few (turns : Nat) (bytes t : Int) (n : Nat) (fits : bytes ≤ n * maxChunk p) :
    (split p turns bytes t).length ≤ n := by
  induction turns generalizing bytes t n with
  | zero => exact Nat.zero_le n
  | succ turns ih =>
      have chunk := chunk_pos bus
      rw [split]
      split
      next nonempty =>
        -- Bytes are left, so at least one of the n chunks is.
        obtain ⟨m, rfl⟩ : ∃ m, n = m + 1 := by
          refine ⟨n - 1, ?_⟩
          rcases Nat.eq_zero_or_pos n with rfl | positive
          · simp only [Nat.cast_zero, Int.zero_mul] at fits
            omega
          · omega
        push_cast [Int.add_mul] at fits
        have less : 0 ≤ (m : Int) * maxChunk p := Int.mul_nonneg (by omega) chunk.le
        exact Nat.succ_le_succ (ih _ _ m (by omega))
      next => exact Nat.zero_le n

end Splitting

/-! ### What an access moves -/

section Widening

theorem moved_widened (p : Params) (j addr size : Nat) (granule : p.granule = 2 ^ j)
    (inside : addr < word) (nonempty : 1 ≤ size) (fits : widened p addr size < 2 ^ 63) :
    movedBytes p addr size = widened p addr size := by
  have power : p.granule.toNat = 2 ^ j := by
    have cast : ((2 : Int) ^ j) = ((2 ^ j : Nat) : Int) := by simp
    rw [granule, cast, Int.toNat_natCast]
  have positive := Nat.two_pow_pos j
  have ordered : addr / 2 ^ j * 2 ^ j ≤ (addr + size - 1) / 2 ^ j * 2 ^ j :=
    Nat.mul_le_mul_right _ (Nat.div_le_div_right (by omega))
  have first : addr / 2 ^ j * 2 ^ j ≤ addr := Nat.div_mul_le_self addr _
  rw [widened, power] at fits ⊢
  have small : j < 63 := (Nat.pow_lt_pow_iff_right (by decide : 1 < 2)).mp (by omega)
  -- Rounding down commutes with the wrap of the last byte, since 2^j divides 2^64.
  have wraps : (addr + size - 1) % word / 2 ^ j * 2 ^ j + (addr + size - 1) / word * word =
      (addr + size - 1) / 2 ^ j * 2 ^ j := by
    obtain ⟨m, whole⟩ : 2 ^ j ∣ word := Nat.pow_dvd_pow 2 (by omega)
    generalize addr + size - 1 = x
    have parts : x / 2 ^ j = x % word / 2 ^ j + m * (x / word) := by
      conv_lhs => rw [← Nat.mod_add_div x word, whole, Nat.mul_assoc]
      rw [Nat.add_mul_div_left _ _ positive, whole]
    rw [parts, Nat.add_mul]
    congr 1
    rw [whole]
    ring
  have total : (lastOf p.granule addr size + word - firstOf p.granule addr + 1) % word =
      (addr + size - 1) / 2 ^ j * 2 ^ j + 2 ^ j - addr / 2 ^ j * 2 ^ j := by
    rw [lastOf, power, AccessLoop.or_round, granule,
      AccessLoop.firstOf_round j addr (by omega) inside]
    generalize (addr + size - 1) % word / 2 ^ j * 2 ^ j = low at wraps ⊢
    generalize (addr + size - 1) / 2 ^ j * 2 ^ j = high at *
    generalize addr / 2 ^ j * 2 ^ j = base at *
    have turns : low + (2 ^ j - 1) + word - base + 1 + (addr + size - 1) / word * word =
        high + 2 ^ j - base + word := by omega
    have reduced := congrArg (· % word) turns
    simp only [Nat.add_mul_mod_self_right, Nat.add_mod_right] at reduced
    rw [reduced]
    exact Nat.mod_eq_of_lt (by simp only [word]; omega)
  rw [movedBytes, toInt64, total, if_pos fits]

end Widening

/-! ### Runs -/

/-- What the transactions of one access satisfy. -/
structure Lawful (p : Params) (served : Served) : Prop where
  arrives : ∀ x ∈ served.transactions, served.now + p.ctrlPs.tdiv 2 ≤ x.start
  low : ∀ x ∈ served.transactions, x.stop = x.start + lowPs p x.bytes ∧ x.start < x.stop ∧
    lowPs p x.bytes ≤ p.hbCsmPs
  moves : widened p served.addr served.size < 2 ^ 63 →
    (served.transactions.map fun x => x.bytes).sum = widened p served.addr served.size
  fewest : widened p served.addr served.size < 2 ^ 63 → ∀ sizes : List Int,
    (∀ bytes ∈ sizes, 0 ≤ bytes ∧ lowPs p bytes ≤ p.hbCsmPs) →
    sizes.sum = widened p served.addr served.size → served.transactions.length ≤ sizes.length

structure Law (p : Params) (e : Engine) (history : List Served) : Prop where
  config : e.g = { p := p, hyperram := true }
  free : ∀ x ∈ timeline history, x.stop + p.hbRwrPs ≤ e.hbFree
  apart : (timeline history).Pairwise fun x y => x.stop + p.hbRwrPs ≤ y.start
  counted : e.st.bursts = (timeline history).length
  served : ∀ s ∈ history, Lawful p s

section Histories

variable {p : Params}

theorem timeline_cons (s : Served) (history : List Served) :
    timeline (s :: history) = timeline history ++ s.transactions := by
  simp [timeline]

theorem sum_most (most : Int) (sizes : List Int) (bounded : ∀ bytes ∈ sizes, bytes ≤ most) :
    sizes.sum ≤ sizes.length * most := by
  induction sizes with
  | nil => simp
  | cons bytes rest ih =>
      have first := bounded bytes List.mem_cons_self
      have others := ih fun c member => bounded c (List.mem_cons_of_mem bytes member)
      rw [List.sum_cons, List.length_cons]
      push_cast [Int.add_mul]
      omega

variable (bus : Bus p)

include bus

theorem split_lawful (fuel : Nat) (now free : Int) (addr size : Nat) (inside : addr < word)
    (sum : ((split p fuel (movedBytes p addr (max size 1)) (max (now + p.ctrlPs.tdiv 2) free)).map
      fun x => x.bytes).sum = max (movedBytes p addr (max size 1)) 0) :
    Lawful p ⟨now, addr, max size 1, split p fuel (movedBytes p addr (max size 1))
      (max (now + p.ctrlPs.tdiv 2) free)⟩ := by
  have members := split_mem bus fuel (movedBytes p addr (max size 1))
    (max (now + p.ctrlPs.tdiv 2) free)
  obtain ⟨j, granule⟩ := bus.granule
  constructor
  · intro x member
    have start := (members x member).1
    simp only
    omega
  · intro x member
    obtain ⟨_, stop, nonempty, most⟩ := members x member
    have low := lowPs_pos bus x.bytes nonempty
    exact ⟨stop, by omega, (allowed_iff bus x.bytes nonempty.le).mpr most⟩
  · intro fits
    have moved := moved_widened p j addr (max size 1) granule inside (by omega) fits
    rw [sum, moved]
    exact max_eq_left (Int.natCast_nonneg _)
  · intro fits sizes allowed total
    have moved := moved_widened p j addr (max size 1) granule inside (by omega) fits
    have most := sum_most (maxChunk p) sizes fun bytes member =>
      (allowed_iff bus bytes (allowed bytes member).1).mp (allowed bytes member).2
    exact split_few bus fuel _ _ sizes.length (by simp only at total; omega)

theorem access_law {e after : Engine} {history : List Served} (law : Law p e history) (fuel : Nat)
    (now done : Int) (addr size : Nat) (w : Bool) (inside : addr < word)
    (ended : access fuel now addr size w e = .ok done after) :
    Law p after (serveAccess e fuel now addr size :: history) := by
  obtain ⟨config, free, apart, counted, served⟩ := law
  rw [access_chunks p e config] at ended
  have params : e.g.p = p := by rw [config]
  have recovery := bus.recovery
  cases ran : chunks p (overheadClks p) (2 * p.hbBusBytes) (maxChunk p) fuel
      (movedBytes p addr (max size 1)) (max (now + p.ctrlPs.tdiv 2) e.hbFree)
      (max (now + p.ctrlPs.tdiv 2) e.hbFree) (e.st.request w) with
  | none => rw [ran] at ended; cases ended
  | some out =>
      obtain ⟨finish, st⟩ := out
      rw [ran] at ended
      cases ended
      obtain ⟨sum, later, ends, bursts⟩ :=
        chunks_split bus fuel _ _ _ _ (Int.le_refl _) finish st ran
      have members := split_mem bus fuel (movedBytes p addr (max size 1))
        (max (now + p.ctrlPs.tdiv 2) e.hbFree)
      have listed : (serveAccess e fuel now addr size).transactions =
          split p fuel (movedBytes p addr (max size 1)) (max (now + p.ctrlPs.tdiv 2) e.hbFree) := by
        simp only [serveAccess, params]
      constructor
      · exact config
      · intro x member
        rw [timeline_cons, listed] at member
        show x.stop + p.hbRwrPs ≤ finish + p.hbRwrPs
        rcases List.mem_append.mp member with old | new
        · have before := free x old
          omega
        · have before := ends x new
          omega
      · rw [timeline_cons, listed]
        -- Across accesses it is hb_free that keeps them apart.
        refine List.pairwise_append.mpr ⟨apart, split_apart bus fuel _ _, fun x old y new => ?_⟩
        have before := free x old
        have start := (members y new).1
        omega
      · have requests : (e.st.request w).bursts = e.st.bursts := by cases w <;> rfl
        rw [timeline_cons, listed, List.length_append, ← counted, ← requests]
        exact bursts
      · intro s member
        rcases List.mem_cons.mp member with rfl | old
        · have lawful := split_lawful bus fuel now e.hbFree addr size inside sum
          simp only [serveAccess, params]
          exact lawful
        · exact served s old

theorem run_law (kind : p.kind = .hyperram) (e : Engine) (history : List Served)
    (run : Runs p e history) : Law p e history := by
  induction run with
  | start e created =>
      simp only [create, configure, kind, except_bind, check_ok, exists_and_left, exists_const]
        at created
      obtain ⟨g, ⟨_, same⟩, made⟩ := created
      cases same
      cases made
      exact ⟨rfl, by simp [timeline], by simp [timeline], rfl, by simp⟩
  | access e after history fuel now addr size w done _ addressed _ ended ih =>
      exact access_law bus ih fuel now done addr size w addressed ended

end Histories

theorem run_accepted (p : Params) (kind : p.kind = .hyperram) (e : Engine) (history : List Served)
    (run : Runs p e history) : 0 < p.hbCkPs ∧ 0 < p.hbBusBytes := by
  induction run with
  | start e created =>
      simp only [create, configure, kind, except_bind, check_ok, exists_and_left, exists_const,
        Bool.not_eq_true', Bool.or_eq_false_iff, decide_eq_false_iff_not, Int.not_le] at created
      obtain ⟨_, ⟨⟨⟨clock, width⟩, _⟩, _⟩, _⟩ := created
      exact ⟨clock, width⟩
  | access _ _ _ _ _ _ _ _ _ _ _ _ _ ih => exact ih

/-- Over every run the transactions of the bus keep tRWR apart, start after their access
has arrived and keep CS# low for no longer than tCSM. Those of an access move exactly the
granules it touches, if these are fewer than 2^63 bytes, and are as few as tCSM allows.
The next access always ends. -/
theorem bus_rules (p : Params) (kind : p.kind = .hyperram) (e : Engine) (history : List Served)
    (run : Runs p e history) (granule : ∃ j : Nat, p.granule = 2 ^ j) (command : 0 ≤ p.hbCaClks)
    (latency : 0 ≤ p.hbLatClks) (controller : 0 ≤ p.ctrlPs) (recovery : 0 ≤ p.hbRwrPs)
    (room : (overheadClks p + 1) * p.hbCkPs ≤ p.hbCsmPs) :
    (timeline history).Pairwise (fun x y => x.stop + p.hbRwrPs ≤ y.start) ∧
    (∀ s ∈ history, Lawful p s ∧ ∀ x ∈ s.transactions, s.now ≤ x.start) ∧
    e.st.bursts = (timeline history).length ∧
    ∀ now addr size w, ∃ done after, Returns (fun fuel => access fuel now addr size w) e
      done after := by
  obtain ⟨clock, width⟩ := run_accepted p kind e history run
  have bus : Bus p := ⟨clock, width, granule, command, latency, controller, recovery, room⟩
  have law := run_law bus kind e history run
  refine ⟨law.apart, fun s member => ⟨law.served s member, fun x listed => ?_⟩, law.counted, ?_⟩
  · have arrives := (law.served s member).arrives x listed
    have half : 0 ≤ p.ctrlPs.tdiv 2 := Int.tdiv_nonneg controller (by decide)
    omega
  · intro now addr size w
    obtain ⟨⟨finish, st⟩, ends⟩ := chunks_enough width (movedBytes p addr (max size 1)).toNat
      (movedBytes p addr (max size 1)) (max (now + p.ctrlPs.tdiv 2) e.hbFree)
      (max (now + p.ctrlPs.tdiv 2) e.hbFree) (e.st.request w) (Int.self_le_toNat _)
    refine ⟨finish + (p.ctrlPs - p.ctrlPs.tdiv 2),
      { e with st := st, hbFree := finish + p.hbRwrPs },
      (movedBytes p addr (max size 1)).toNat, fun fuel enough => ?_⟩
    show access fuel now addr size w e = _
    rw [access_chunks p e law.config, ends fuel enough]

/-- A HyperRAM as the presets have it. -/
def hyperRam : Params := { kind := .hyperram }

/-- Two pages, the second asked for while the first is on the bus. -/
theorem bus_rules_pages : ∃ e history, Runs hyperRam e history ∧ history.length = 2 ∧
    (timeline history).Pairwise fun x y => x.stop + hyperRam.hbRwrPs ≤ y.start := by
  have rules := fun e history run => bus_rules hyperRam rfl e history run ⟨6, rfl⟩ (by decide)
    (by decide) (by decide) (by decide) (by decide)
  obtain ⟨fresh, created⟩ : ∃ e, create hyperRam = .ok e := ⟨_, rfl⟩
  have start := Runs.start (p := hyperRam) fresh created
  obtain ⟨done, middle, enough, ends⟩ := (rules fresh [] start).2.2.2 0 0 4096 false
  have first := start.access fresh middle [] enough 0 0 4096 false done (by decide) (by decide)
    (ends enough (Nat.le_refl _))
  obtain ⟨done', last, enough', ends'⟩ := (rules middle _ first).2.2.2 1000 4096 4096 true
  have second := first.access middle last _ enough' 1000 4096 4096 true done'
    (by decide) (by decide)
    (ends' enough' (Nat.le_refl _))
  exact ⟨last, _, second, rfl, (rules last _ second).1⟩

/-- A HyperRAM with granules as large as a signed word allows. -/
def hugeGranule : Params := { kind := .hyperram, granule := 2 ^ 62 }

/-- Two bytes that touch two such granules: 2^63 bytes are none. -/
theorem huge_granules_unmoved : (∃ j : Nat, hugeGranule.granule = 2 ^ j) ∧
    (overheadClks hugeGranule + 1) * hugeGranule.hbCkPs ≤ hugeGranule.hbCsmPs ∧
    ∃ e history, Runs hugeGranule e history ∧ ∃ s ∈ history, s.size = 2 ∧
      (s.transactions.map fun x => x.bytes).sum ≠ widened hugeGranule s.addr s.size := by
  refine ⟨⟨62, rfl⟩, by decide, ?_⟩
  obtain ⟨e, created, config⟩ : ∃ e, create hugeGranule = .ok e ∧
      e.g = { p := hugeGranule, hyperram := true } := ⟨_, rfl, rfl⟩
  have moved : movedBytes hugeGranule (2 ^ 62 - 1) (max 2 1) = -2 ^ 63 := by decide +kernel
  have wide : widened hugeGranule (2 ^ 62 - 1) 2 = 2 ^ 63 := by decide +kernel
  obtain ⟨done, after, ended⟩ : ∃ done after, access 0 0 (2 ^ 62 - 1) 2 false e =
    .ok done after := by
    rw [access_chunks hugeGranule e config, moved]
    exact ⟨_, _, rfl⟩
  refine ⟨after, _, (Runs.start e created).access e after [] 0 0 (2 ^ 62 - 1) 2 false
    done (by decide)
    (by decide) ended, _, List.mem_cons_self, rfl, ?_⟩
  show ¬ ((0 : Int) = widened hugeGranule (2 ^ 62 - 1) 2)
  rw [wide]
  decide

end HeteroSim.HyperBus
