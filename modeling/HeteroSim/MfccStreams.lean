import HeteroSim.MfccSpectrum
import Mathlib.Algebra.BigOperators.Ring.Finset

/-!
What the streamed stages of the MFCC kernel compute and log, as functions of memory: a
filter's energy from two lines of numbers, and four cepstra from a line of which each
number is repeated and four rows of the DCT matrix.
-/

namespace HeteroSim.MfccStreams

open SliceRun ParallelSlices StreamLoops SnitchSsr CoupledCores MfccKernels
open scoped UInt32.CommRing

/-! ### Feeds -/

/-- `n` numbers one after the other, each given `repeats` times more. -/
def line (repeats : Nat) (n p : UInt32) : Feed := ⟨repeats, [(n, 4)], p⟩

section Line

variable {repeats : Nat} {n : UInt32} (p : UInt32)

theorem line_count (nonempty : 0 < n.toNat) : (line repeats n p).count =
    n.toNat * (repeats + 1) := by
  simp only [Feed.count, line, given, nest, List.map_cons, List.map_nil, size, count_exact nonempty]
  ring

theorem line_element {k d : Nat} (inside : k < n.toNat) (again : d ≤ repeats) :
    (line repeats n p).element (k * (repeats + 1) + d) = cell p (UInt32.ofNat k) := by
  have spot : position (given repeats (nest [(n, 4)])) [d, k] = k * (repeats + 1) + d := by
    simp [position, given, nest]
  have found := element_position (line repeats n p) [d, k] ⟨again, last_le inside, trivial⟩
  rw [← spot]
  refine found.trans ?_
  simp [line, reach, given, nest, cell, ofNat_cast]

end Line

/-- `unroll` rows of `n` numbers, column by column. -/
def rows (n p : UInt32) : Feed := ⟨0, [(unroll, n * 4), (n, 4)], p⟩

section Rows

variable {n : UInt32} (p : UInt32)

theorem rows_count (nonempty : 0 < n.toNat) : (rows n p).count = n.toNat * 4 := by
  have four : (unroll - 1).toNat + 1 = 4 := rfl
  simp only [Feed.count, rows, given, nest, List.map_cons, List.map_nil, size,
    count_exact nonempty, four]
  ring

theorem rows_element {k u : Nat} (inside : k < n.toNat) (row : u < 4) :
    (rows n p).element (k * 4 + u) = cell p (UInt32.ofNat u * n + UInt32.ofNat k) := by
  have four : (unroll - 1).toNat + 1 = 4 := rfl
  have first : u < unroll.toNat := row
  have spot : position (given 0 (nest [(unroll, n * 4), (n, 4)])) [0, u, k] = k * 4 + u := by
    simp [position, given, nest, four]
  have found := element_position (rows n p) [0, u, k] ⟨le_rfl, last_le first,
    last_le inside, trivial⟩
  rw [← spot]
  refine found.trans ?_
  simp only [rows, reach, given, nest, List.map_cons, List.map_nil, cell, ofNat_cast]
  ring

end Rows

/-! ### Energies -/

section Energies

variable {R : Type} [CommRing R] (fmt : Format R)

def dot (mem : Mem) (left right : UInt32) (n : Nat) : R :=
  ∑ i ∈ Finset.range n,
    load fmt mem (cell left (UInt32.ofNat i)) * load fmt mem (cell right (UInt32.ofNat i))

theorem blocks_exact (len : UInt32) :
    (len / unroll).toNat = len.toNat / 4 ∧ (len / unroll * unroll).toNat = len.toNat / 4 * 4 := by
  have blocks : (len / unroll).toNat = len.toNat / 4 := UInt32.toNat_div _ _
  refine ⟨blocks, ?_⟩
  have below := len.toNat_lt
  have four : unroll.toNat = 4 := rfl
  rw [UInt32.toNat_mul, blocks, four]
  exact Nat.mod_eq_of_lt (by omega)

theorem quarters (f : Nat → R) (n : Nat) :
    (∑ k ∈ Finset.range n, f (k * 4 + 0) + ∑ k ∈ Finset.range n, f (k * 4 + 1)) +
      (∑ k ∈ Finset.range n, f (k * 4 + 2) + ∑ k ∈ Finset.range n, f (k * 4 + 3)) =
      ∑ i ∈ Finset.range (n * 4), f i := by
  rw [sum_digits, ← Finset.sum_add_distrib, ← Finset.sum_add_distrib, ← Finset.sum_add_distrib]
  refine Finset.sum_congr rfl fun k _ => ?_
  simp only [Finset.sum_range_succ, Finset.range_zero, Finset.sum_empty]
  ring

/-- The streamed products of filter `m`: partial sum by partial sum in each turn. -/
def energyTerms (m : Nat) (power coeff : UInt32) (blocks : Nat) : List Term :=
  (List.range blocks).flatMap fun k => (List.range 4).map fun u =>
    ⟨m, k, cell power (UInt32.ofNat (k * 4 + u)), cell coeff (UInt32.ofNat (k * 4 + u))⟩

/-- What `mel_energy` logs. -/
def energyLog (m : Nat) (power coeff : UInt32) (len : Nat) : Log R where
  fmas := energyTerms m power coeff (len / 4)
  products := (List.range (len - len / 4 * 4)).map fun d =>
    ⟨m, len / 4 * 4 + d, cell power (UInt32.ofNat (len / 4 * 4 + d)),
      cell coeff (UInt32.ofNat (len / 4 * 4 + d))⟩
  ends := if len / 4 = 0 then [] else [(true, true)]

section Strip

variable {blocks : UInt32} (exact : (blocks * unroll).toNat = blocks.toNat * 4)

include exact

theorem strip_count (several : 0 < blocks.toNat) (p : UInt32) :
    (line 0 (blocks * unroll) p).count = ((blocks - 1).toNat + 1) * 4 := by
  rw [line_count p (by omega), exact, count_exact several, Nat.zero_add, Nat.mul_one]

theorem strip_element (p : UInt32) {k u : Nat} (turn : k < blocks.toNat) (part : u < 4) :
    (line 0 (blocks * unroll) p).element (k * 4 + u) = cell p (UInt32.ofNat (k * 4 + u)) := by
  have inside : k * 4 + u < (blocks * unroll).toNat := by
    rw [exact]
    exact Kernels.entry_lt turn part
  have found := @line_element 0 _ p _ 0 inside (Nat.le_refl 0)
  rwa [Nat.zero_add, Nat.mul_one, Nat.add_zero] at found

theorem strip_terms (several : 0 < blocks.toNat) (m : Nat) (power coeff : UInt32) :
    terms (line 0 (blocks * unroll) power) (line 0 (blocks * unroll) coeff) (fun _ => m) 4 0
      ((blocks - 1).toNat + 1) = energyTerms m power coeff blocks.toNat := by
  rw [terms, energyTerms, count_exact several]
  refine List.flatMap_congr fun k turn => List.map_congr_left fun u part => ?_
  have turn := List.mem_range.mp turn
  have part := List.mem_range.mp part
  rw [Nat.zero_add, strip_element exact power turn part, strip_element exact coeff turn part]

end Strip

theorem melBlocks_runs (m : Nat) (power coeff blocks : UInt32) {c : Core R}
    (off : c.enabled = false) (several : 0 < blocks.toNat)
    (exact : (blocks * unroll).toNat = blocks.toNat * 4) :
    ∃ c', melBlocks fmt m power coeff blocks c =
        some (c', dot fmt c.mem power coeff (blocks.toNat * 4)) ∧
      Did fmt c c' { fmas := energyTerms m power coeff blocks.toNat, ends := [(true, true)] } ∧
      Spent c'.dm0 c'.dm1 := by
  have armed (mover : Mover) (p : UInt32) :
      Feeds (((mover.repeats 1).loops 0 0 [(blocks * unroll, 4)]).read 0 p)
        (line 0 (blocks * unroll) p) 0 :=
    read_feeds (loops_programmed (mover.repeats 1) [(blocks * unroll, 4)]) rfl p
  obtain ⟨c', acc, runs, did, _, _, spent, sums⟩ := streamed_through fmt _ _ (fun _ => m)
    (c := { c with
      dm0 := ((c.dm0.repeats 1).loops 0 0 [(blocks * unroll, 4)]).read 0 power
      dm1 := ((c.dm1.repeats 1).loops 0 0 [(blocks * unroll, 4)]).read 0 coeff })
    (fun _ => 0) 4 (blocks - 1) (armed c.dm0 power) (armed c.dm1 coeff)
    (strip_count exact several power) (strip_count exact several coeff) rfl
  have part (u : Nat) (inside : u < 4) : acc u = ∑ k ∈ Finset.range blocks.toNat,
      load fmt c.mem (cell power (UInt32.ofNat (k * 4 + u))) *
        load fmt c.mem (cell coeff (UInt32.ofNat (k * 4 + u))) := by
    rw [sums u inside, count_exact several, zero_add]
    refine Finset.sum_congr rfl fun k member => ?_
    have turn := Finset.mem_range.mp member
    rw [product, strip_element exact power turn inside, strip_element exact coeff turn inside]
  have sum : (acc 0 + acc 1) + (acc 2 + acc 3) = dot fmt c.mem power coeff (blocks.toNat * 4) := by
    rw [part 0 (by decide), part 1 (by decide), part 2 (by decide), part 3 (by decide), dot]
    exact quarters (fun i => load fmt c.mem (cell power (UInt32.ofNat i)) *
      load fmt c.mem (cell coeff (UInt32.ofNat i))) blocks.toNat
  rw [strip_terms exact several] at did
  refine ⟨c', ?_, ⟨did.off, did.logged, did.mem⟩, spent⟩
  rw [melBlocks, scalar_off off, ← sum]
  exact bind_some rfl (bind_some runs (bind_some (scalar_off did.off _) rfl))

theorem more_products {c : Core R} (off : c.enabled = false) (output first n : Nat)
    (left right : Nat → UInt32) (sum : R) :
    ∃ c', (List.range n).foldlM (fun st d =>
        addProduct fmt output (first + d) (left d) (right d) st) (c, sum) =
        some (c', sum + ∑ d ∈ Finset.range n, load fmt c.mem (left d) * load fmt c.mem (right d)) ∧
      Did fmt c c' { products := (List.range n).map fun d =>
        ⟨output, first + d, left d, right d⟩ } ∧
      Kept c c' := by
  induction n with
  | zero =>
      rw [Finset.sum_range_zero, add_zero]
      exact ⟨c, rfl, did_nothing fmt off, rfl, rfl⟩
  | succ n ih =>
      obtain ⟨d, runs, did, kept⟩ := ih
      obtain ⟨c', last, once, same⟩ := @product_did R _ fmt _ did.off output (first + n) (left n)
        (right n) (sum + ∑ d ∈ Finset.range n, load fmt c.mem (left d) * load fmt c.mem (right d))
      have seen : d.mem = c.mem := did.mem
      rw [seen, add_assoc, ← Finset.sum_range_succ] at last
      refine ⟨c', ?_, ?_, kept.trans same⟩
      · rw [List.range_succ, List.foldlM_append]
        exact bind_some runs (bind_some last rfl)
      · rw [List.range_succ, List.map_append]
        exact did.trans once

theorem melEnergy_runs (m : Nat) (power coeff len : UInt32) {c : Core R}
    (off : c.enabled = false) :
    ∃ c', melEnergy fmt m power coeff len c = some (c', dot fmt c.mem power coeff len.toNat) ∧
      Did fmt c c' (energyLog m power coeff len.toNat) ∧ (Kept c c' ∨ Spent c'.dm0 c'.dm1) := by
  obtain ⟨blocks, exact⟩ := blocks_exact len
  have place (p : UInt32) (d : Nat) : cell p (len / unroll * unroll + UInt32.ofNat d) =
      cell p (UInt32.ofNat (len.toNat / 4 * 4 + d)) := by
    rw [UInt32.ofNat_add, ← exact, UInt32.ofNat_toNat]
  have split (mem : Mem) : dot fmt mem power coeff len.toNat =
      dot fmt mem power coeff (len.toNat / 4 * 4) +
        ∑ d ∈ Finset.range (len.toNat - len.toNat / 4 * 4),
          load fmt mem (cell power (UInt32.ofNat (len.toNat / 4 * 4 + d))) *
            load fmt mem (cell coeff (UInt32.ofNat (len.toNat / 4 * 4 + d))) := by
    have whole : len.toNat = len.toNat / 4 * 4 + (len.toNat - len.toNat / 4 * 4) := by omega
    rw [dot, dot, ← Finset.sum_range_add, ← whole]
  -- Full blocks first, if there are any.
  have streams : ∃ d, (if len / unroll = 0 then c.scalar (c, 0)
        else melBlocks fmt m power coeff (len / unroll) c) =
        some (d, dot fmt c.mem power coeff (len.toNat / 4 * 4)) ∧
      Did fmt c d { fmas := energyTerms m power coeff (len.toNat / 4)
                    ends := if len.toNat / 4 = 0 then [] else [(true, true)] } ∧
      (Kept c d ∨ Spent d.dm0 d.dm1) := by
    by_cases nothing : len / unroll = 0
    · have zero : len.toNat / 4 = 0 := by
        rw [← blocks, nothing]
        rfl
      rw [if_pos nothing, zero, if_pos rfl, scalar_off off]
      exact ⟨c, rfl, did_nothing fmt off, Or.inl ⟨rfl, rfl⟩⟩
    · have several : len.toNat / 4 ≠ 0 := by
        rw [← blocks]
        exact fun zero => nothing (UInt32.toNat_inj.mp zero)
      obtain ⟨d, runs, did, spent⟩ := melBlocks_runs fmt m power coeff (len / unroll) off
        (by omega) (by rw [exact, blocks])
      rw [blocks] at runs did
      rw [if_neg nothing, if_neg several]
      exact ⟨d, runs, did, Or.inr spent⟩
  obtain ⟨d, runs, did, rested⟩ := streams
  obtain ⟨c', tail, more, kept⟩ := more_products fmt did.off m (len.toNat / 4 * 4)
    (len.toNat - len.toNat / 4 * 4)
    (fun d => cell power (UInt32.ofNat (len.toNat / 4 * 4 + d)))
    (fun d => cell coeff (UInt32.ofNat (len.toNat / 4 * 4 + d)))
    (dot fmt c.mem power coeff (len.toNat / 4 * 4))
  have seen : d.mem = c.mem := did.mem
  rw [seen, ← split] at tail
  refine ⟨c', ?_, ?_, ?_⟩
  · rw [melEnergy]
    simp only [exact, place]
    exact bind_some runs tail
  · have logged := did.trans more
    simp only [log_mk, List.nil_append, List.append_nil] at logged
    exact logged
  · rcases rested with same | spent
    · exact Or.inl (same.trans kept)
    · rw [kept.dm0, kept.dm1]
      exact Or.inr spent

theorem energy_runs (a : Args) (m : Nat) (start off len : UInt32) {c : Core R}
    (still : c.enabled = false) :
    ∃ c', energy fmt a m start off len c =
        some (c', dot fmt c.mem (cell a.re start) (cell a.melCoeff off) len.toNat) ∧
      Did fmt c c' { products := (List.range len.toNat).map fun i =>
        ⟨m, i, cell a.re (start + UInt32.ofNat i), cell a.melCoeff (off + UInt32.ofNat i)⟩ } ∧
      Kept c c' := by
  obtain ⟨c', runs, did, kept⟩ := more_products fmt still m 0 len.toNat
    (fun i => cell a.re (start + UInt32.ofNat i)) (fun i =>
      cell a.melCoeff (off + UInt32.ofNat i)) 0
  simp only [zero_add] at runs did
  refine ⟨c', ?_, did, kept⟩
  simp only [dot, cell_cell]
  exact runs

end Energies

/-! ### Cepstra -/

section Cepstra

variable {R : Type} [CommRing R] (fmt : Format R) (a : Args)

/-- Row `n` of the DCT against the energies. -/
def cepValue (mem : Mem) (n : UInt32) : R := dot fmt mem (cell a.dct (n * a.nbMel))
    a.mel a.nbMel.toNat

/-- The products of four cepstra from `n` on: of each energy, with all four rows. -/
def cepTerms (t n : UInt32) : List Term :=
  (List.range a.nbMel.toNat).flatMap fun k => (List.range 4).map fun u =>
    ⟨(t * a.nbCep + n).toNat + u, k, cell a.mel (UInt32.ofNat k),
      cell (cell a.dct ((n + UInt32.ofNat u) * a.nbMel)) (UInt32.ofNat k)⟩

def blockLog (mem : Mem) (t n : UInt32) : Log R where
  fmas := cepTerms a t n
  stores := (List.range 4).map fun u =>
    ((a.dst t (n + UInt32.ofNat u)).toNat, cepValue fmt a mem (n + UInt32.ofNat u))
  ends := [(true, true)]

def cepLog (mem : Mem) (t n : UInt32) : Log R where
  products := (List.range a.nbMel.toNat).map fun m =>
    ⟨(t * a.nbCep + n).toNat, m, cell (cell a.dct (n * a.nbMel)) (UInt32.ofNat m),
      cell a.mel (UInt32.ofNat m)⟩
  stores := [((a.dst t n).toNat, cepValue fmt a mem n)]

structure Repeats (m0 m1 : Mover) : Prop where
  energies : m0.reps = 3
  rows : m1.reps = 0

omit [CommRing R] in
theorem repeated_did {c : Core R} (off : c.enabled = false) : Did fmt c (repeated c) {} :=
  set_did off _ _

omit [CommRing R] in
theorem repeated_repeats (c : Core R) : Repeats (repeated c).dm0 (repeated c).dm1 where
  energies := (by decide : unroll - 1 = 3)
  rows := (by decide : (1 : UInt32) - 1 = 0)

theorem repeats_stream (m : Mover) (count : UInt32) : (m.repeats count).stream = m.stream := rfl

omit [CommRing R] in
theorem repeated_streams (c : Core R) : (repeated c).dm0.stream = c.dm0.stream ∧
    (repeated c).dm1.stream = c.dm1.stream :=
  ⟨repeats_stream c.dm0 unroll, repeats_stream c.dm1 1⟩

theorem row_place (n : UInt32) (u k : Nat) :
    cell (cell a.dct (n * a.nbMel)) (UInt32.ofNat u * a.nbMel + UInt32.ofNat k) =
      cell (cell a.dct ((n + UInt32.ofNat u) * a.nbMel)) (UInt32.ofNat k) := by
  rw [cell_cell, cell_cell]
  congr 1
  ring

theorem cepBlock_runs (t n : UInt32) (b : Nat) {c : Core R} (off : c.enabled = false)
    (bands : 0 < a.nbMel.toNat) (repeats : Repeats c.dm0 c.dm1) :
    ∃ c', cepBlock fmt a t (c, n) b = some (c', n + unroll) ∧
      Did fmt c c' (blockLog fmt a c.mem t n) ∧ Repeats c'.dm0 c'.dm1 ∧ Spent c'.dm0 c'.dm1 := by
  have energies : Feeds ((c.dm0.loops 0 0 [(a.nbMel, 4)]).read 0 a.mel)
    (line 3 a.nbMel a.mel) 0 := by
    have programmed := loops_programmed c.dm0 [(a.nbMel, 4)]
    rw [repeats.energies] at programmed
    exact read_feeds programmed rfl a.mel
  have matrix : Feeds ((c.dm1.loop2d unroll a.nbMel (a.nbMel * 4) 4).read 1
      (cell a.dct (n * a.nbMel))) (rows a.nbMel (cell a.dct (n * a.nbMel))) 0 := by
    have programmed := loops_programmed c.dm1 [(unroll, a.nbMel * 4), (a.nbMel, 4)]
    rw [repeats.rows] at programmed
    exact read_feeds programmed rfl _
  have left {k u : Nat} (band : k < a.nbMel.toNat) (row : u < 4) :
      (line 3 a.nbMel a.mel).element (k * 4 + u) = cell a.mel (UInt32.ofNat k) :=
    @line_element 3 _ a.mel k u band (Nat.le_of_lt_succ row)
  have right {k u : Nat} (band : k < a.nbMel.toNat) (row : u < 4) :
      (rows a.nbMel (cell a.dct (n * a.nbMel))).element (k * 4 + u) =
        cell (cell a.dct ((n + UInt32.ofNat u) * a.nbMel)) (UInt32.ofNat k) := by
    rw [rows_element _ band row, row_place]
  obtain ⟨mid, acc, runs, did, next0, next1, spent, sums⟩ := streamed_through fmt _ _
    (fun u => (t * a.nbCep + n).toNat + u)
    (c := { c with
      dm0 := (c.dm0.loops 0 0 [(a.nbMel, 4)]).read 0 a.mel
      dm1 := (c.dm1.loop2d unroll a.nbMel (a.nbMel * 4) 4).read 1 (cell a.dct (n * a.nbMel)) })
    (fun _ => 0) 4 (a.nbMel - 1) energies matrix
    (by rw [line_count _ bands, count_exact bands])
      (by rw [rows_count _ bands, count_exact bands]) rfl
  have value (u : Nat) (row : u < 4) : acc u = cepValue fmt a c.mem (n + UInt32.ofNat u) := by
    rw [sums u row, count_exact bands, zero_add, cepValue, dot]
    refine Finset.sum_congr rfl fun k member => ?_
    have band := Finset.mem_range.mp member
    rw [product, left band row, right band row, mul_comm]
  have logged : terms (line 3 a.nbMel a.mel) (rows a.nbMel (cell a.dct (n * a.nbMel)))
      (fun u => (t * a.nbCep + n).toNat + u) 4 0 ((a.nbMel - 1).toNat + 1) = cepTerms a t n := by
    rw [terms, cepTerms, count_exact bands]
    refine List.flatMap_congr fun k band => List.map_congr_left fun u row => ?_
    have band := List.mem_range.mp band
    have row := List.mem_range.mp row
    rw [Nat.zero_add, left band row, right band row]
  rw [logged] at did
  obtain ⟨c', ends, stored, kept⟩ := stores_did fmt did.off
    (fun u => a.dst t (n + UInt32.ofNat u)) acc 4
  have values : (List.range 4).map (fun u => ((a.dst t (n + UInt32.ofNat u)).toNat, acc u)) =
      (List.range 4).map fun u =>
        ((a.dst t (n + UInt32.ofNat u)).toNat, cepValue fmt a c.mem (n + UInt32.ofNat u)) := by
    refine List.map_congr_left fun u row => ?_
    rw [value u (List.mem_range.mp row)]
  rw [values] at stored
  have whole := did.trans stored
  simp only [log_mk, List.nil_append, List.append_nil] at whole
  refine ⟨c', ?_, ⟨whole.off, whole.logged, whole.mem⟩, ?_, ?_⟩
  · rw [cepBlock, scalar_off off]
    exact bind_some rfl (bind_some runs (bind_some ends rfl))
  · rw [kept.dm0, kept.dm1]
    exact ⟨@feeds_reps _ _ _ next0 4 rfl, @feeds_reps _ _ _ next1 1 rfl⟩
  · rw [kept.dm0, kept.dm1]
    exact spent

theorem cepstrum_runs (t n : UInt32) {c : Core R} (off : c.enabled = false) :
    ∃ c', cepstrum fmt a t n c = some c' ∧ Did fmt c c' (cepLog fmt a c.mem t n) ∧ Kept c c' := by
  obtain ⟨d, runs, did, kept⟩ := more_products fmt off (t * a.nbCep + n).toNat 0 a.nbMel.toNat
    (fun m => cell (cell a.dct (n * a.nbMel)) (UInt32.ofNat m)) (fun m =>
      cell a.mel (UInt32.ofNat m)) 0
  simp only [zero_add] at runs did
  obtain ⟨c', ends, stored, same⟩ := store_did fmt did.off (a.dst t n) (cepValue fmt a c.mem n)
  have whole := did.trans stored
  simp only [log_mk, List.nil_append, List.append_nil] at whole
  exact ⟨c', bind_some runs ends, whole, kept.trans same⟩

end Cepstra

end HeteroSim.MfccStreams
