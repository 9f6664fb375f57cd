import HeteroSim.Kernels
import HeteroSim.RaggedRuns
import HeteroSim.StreamLoops

/-!
The banded filterbank: what the pipeline stores of a dense bank, and that the kernel's
loop over the filters takes it for the dense one. Nothing but the lengths says where the
coefficients of a filter are.
-/

namespace HeteroSim.MelBands

open RaggedRuns
open StreamLoops (loop_runs bind_some)

/-! ### `band_filterbank` -/

section Bands

variable {R : Type} [CommRing R] [DecidableEq R]

/-- `np.nonzero(row)[0]`. -/
def nonzero (row : List R) : List Nat := positions (fun b => row.getD b 0 ≠ 0) row.length

structure Banded (R : Type) where
  coeff : List R
  start : List UInt16
  length : List UInt16

structure Lists (R : Type) where
  coeff : List R := []
  start : List Nat := []
  length : List Nat := []

/-- One turn of `for row in fb`. -/
def addRow (b : Lists R) (row : List R) : Lists R :=
  match (nonzero row).head?, (nonzero row).getLast? with
  | some s, some last =>
      let e := last + 1
      { coeff := b.coeff ++ row.extract s e
        start := b.start ++ [s]
        length := b.length ++ [e - s] }
  -- a filter of zeros stores no coefficient
  | _, _ => { b with start := b.start ++ [0], length := b.length ++ [0] }

/-- `np.array(xs, dtype = np.uint16)`, which refuses what the type cannot hold. -/
def uint16Array (xs : List Nat) : Option (List UInt16) :=
  xs.mapM fun x => if x < 2 ^ 16 then some (UInt16.ofNat x) else none

def bandFilterbank (fb : List (List R)) : Option (Banded R) := do
  let lists := fb.foldl addRow {}
  let start ← uint16Array lists.start
  let length ← uint16Array lists.length
  return ⟨lists.coeff, start, length⟩

end Bands

/-! ### The loop over the filters -/

section Walks

variable {R : Type} [CommRing R] (logFloored : R → R) (power : List R) (band : Banded R)

/-- The running offset, the filters so far, and the coefficients that were taken. -/
structure Walk (R : Type) where
  off : UInt32 := 0
  mel : List R := []
  taken : List Nat := []

/-- One turn of the loop over `i`; nothing is read outside the arrays. -/
def tap (start off : UInt32) (st : R × List Nat) (i : Nat) : Option (R × List Nat) := do
  let bin ← power[(start + UInt32.ofNat i).toNat]?
  let coeff ← band.coeff[(off + UInt32.ofNat i).toNat]?
  return (st.1 + bin * coeff, st.2 ++ [(off + UInt32.ofNat i).toNat])

/-- One turn of the loop over `m`. -/
def filter (st : Walk R) (m : Nat) : Option (Walk R) := do
  let start ← band.start[m]?
  let len ← band.length[m]?
  let (acc, taken) ← (List.range len.toUInt32.toNat).foldlM
    (tap power band start.toUInt32 st.off) (0, st.taken)
  return { off := st.off + len.toUInt32, mel := st.mel ++ [logFloored acc], taken := taken }

def melLoop (nbMel : UInt32) : Option (Walk R) :=
  (List.range nbMel.toNat).foldlM (filter logFloored power band) {}

/-- Filter `row` of the dense bank: an entry of `power @ fb.T`. -/
def dense (row : List R) : R :=
  ∑ b ∈ Finset.range power.length, power.getD b 0 * row.getD b 0

end Walks

/-! ### What is stored -/

section Stored

variable {R : Type} [CommRing R] [DecidableEq R]

def extent (row : List R) : Nat × Nat :=
  match (nonzero row).head?, (nonzero row).getLast? with
  | some s, some last => (s, last + 1 - s)
  | _, _ => (0, 0)

/-- The coefficients of a row. -/
def run (row : List R) : List R := (row.drop (extent row).1).take (extent row).2

structure Encloses (row : List R) (start len : Nat) : Prop where
  inside : start + len ≤ row.length
  zeros : ∀ b < row.length, b < start ∨ start + len ≤ b → row.getD b 0 = 0

theorem extent_encloses (row : List R) : Encloses row (extent row).1 (extent row).2 := by
  rw [extent]
  split
  case h_1 s last first final =>
    obtain ⟨here, short, least⟩ := positions_first first
    obtain ⟨below, most⟩ := positions_last final
    have order := most s short here
    refine ⟨by dsimp only; omega, fun b within outside => ?_⟩
    -- a coefficient that is not zero is one of those that were found
    by_contra other
    have holds : decide (row.getD b 0 ≠ 0) = true := decide_eq_true other
    have low := least b holds
    have high := most b within holds
    dsimp only at outside
    omega
  case h_2 missing =>
    have empty : (nonzero row).head? = none := by
      cases found : nonzero row with
      | nil => rfl
      | cons s rest =>
          rw [found] at missing
          exact (missing s _ rfl List.getLast?_cons).elim
    refine ⟨Nat.zero_le _, fun b within _ => ?_⟩
    exact of_not_not (of_decide_eq_false (positions_none empty b within))

theorem addRow_appends (b : Lists R) (row : List R) :
    addRow b row =
      { coeff := b.coeff ++ run row
        start := b.start ++ [(extent row).1]
        length := b.length ++ [(extent row).2] } := by
  rw [addRow, run, extent]
  split
  case h_1 => rfl
  case h_2 => simp

theorem rows_appended (fb : List (List R)) (b : Lists R) :
    fb.foldl addRow b =
      { coeff := b.coeff ++ (fb.map run).flatten
        start := b.start ++ fb.map fun row => (extent row).1
        length := b.length ++ fb.map fun row => (extent row).2 } := by
  induction fb generalizing b with
  | nil => simp
  | cons row rest ih =>
      rw [List.foldl_cons, ih, addRow_appends]
      simp

theorem uint16Array_fits (xs : List Nat) (small : ∀ x ∈ xs, x < 2 ^ 16) :
    uint16Array xs = some (xs.map UInt16.ofNat) := by
  induction xs with
  | nil => rfl
  | cons x rest ih =>
      have first := small x List.mem_cons_self
      have others := ih fun y member => small y (List.mem_cons_of_mem x member)
      rw [uint16Array] at others
      rw [uint16Array, List.mapM_cons, if_pos first, others]
      rfl

theorem bank_stored (fb : List (List R)) (narrow : ∀ row ∈ fb, row.length < 2 ^ 16) :
    bandFilterbank fb = some
      { coeff := (fb.map run).flatten
        start := fb.map fun row => UInt16.ofNat (extent row).1
        length := fb.map fun row => UInt16.ofNat (extent row).2 } := by
  have starts := uint16Array_fits (fb.map fun row => (extent row).1) (by
    intro x member
    obtain ⟨row, inBank, rfl⟩ := List.mem_map.mp member
    have short := narrow row inBank
    have encloses := (extent_encloses row).inside
    omega)
  have lengths := uint16Array_fits (fb.map fun row => (extent row).2) (by
    intro x member
    obtain ⟨row, inBank, rfl⟩ := List.mem_map.mp member
    have short := narrow row inBank
    have encloses := (extent_encloses row).inside
    omega)
  rw [bandFilterbank, rows_appended]
  simp only [List.nil_append]
  refine bind_some starts (bind_some lengths ?_)
  simp

theorem run_length (row : List R) : (run row).length = (extent row).2 := by
  have encloses := (extent_encloses row).inside
  rw [run, List.length_take, List.length_drop]
  omega

theorem run_lengths (fb : List (List R)) :
    (fb.map run).map List.length = fb.map fun row => (extent row).2 := by
  rw [List.map_map]
  exact List.map_congr_left fun row _ => run_length row

theorem run_bin (row : List R) {i : Nat} (inside : i < (extent row).2) :
    (run row)[i]? = some (row.getD ((extent row).1 + i) 0) := by
  have encloses := (extent_encloses row).inside
  rw [run, List.getElem?_take_of_lt inside, List.getElem?_drop, List.getD_eq_getElem?_getD,
    List.getElem?_eq_getElem (by omega)]
  rfl

/-- The coefficients before filter `m`. -/
def before (fb : List (List R)) (m : Nat) : Nat := offset (fb.map fun row => (extent row).2) m

theorem coeff_found (fb : List (List R)) {m i : Nat} {row : List R} (found : fb[m]? = some row)
    (inside : i < (extent row).2) :
    (fb.map run).flatten[before fb m + i]? = some (row.getD ((extent row).1 + i) 0) := by
  have stored : (fb.map run)[m]? = some (run row) := by
    rw [List.getElem?_map, found]
    rfl
  have placed := flatten_offset (fb.map run) stored (by rwa [run_length])
  rw [run_lengths] at placed
  rw [before, placed, run_bin row inside]

theorem before_succ (fb : List (List R)) {m : Nat} {row : List R} (found : fb[m]? = some row) :
    before fb (m + 1) = before fb m + (extent row).2 :=
  offset_succ (by rw [List.getElem?_map, found]; rfl)

theorem before_all (fb : List (List R)) : before fb fb.length = (fb.map run).flatten.length := by
  have all := offset_all (fb.map fun row => (extent row).2)
  rw [List.length_map] at all
  rw [before, all, flatten_length, run_lengths]

end Stored

/-! ### The dense bank -/

section Dense

variable {R : Type} [CommRing R] [DecidableEq R] (logFloored : R → R) (power : List R)

theorem dense_run {row : List R} (wide : row.length = power.length) :
    dense power row = ∑ i ∈ Finset.range (extent row).2,
      power.getD ((extent row).1 + i) 0 * row.getD ((extent row).1 + i) 0 := by
  have encloses := extent_encloses row
  refine sum_run _ (encloses.inside.trans_eq wide) fun b below outside => ?_
  rw [encloses.zeros b (wide ▸ below) outside, mul_zero]

variable {fb : List (List R)} {band : Banded R} (stored : bandFilterbank fb = some band)
  (rect : ∀ row ∈ fb, row.length = power.length) (narrow : power.length < 2 ^ 16)
  (room : band.coeff.length < 2 ^ 32)

/-- The loop over the filters, before filter `m`. -/
structure Reached (fb : List (List R)) (m : Nat) (st : Walk R) : Prop where
  off : st.off = UInt32.ofNat (before fb m)
  mel : st.mel = (fb.take m).map fun row => logFloored (dense power row)
  taken : st.taken = List.range (before fb m)

omit [CommRing R] [DecidableEq R] in
theorem half_exact {n : Nat} (small : n < 2 ^ 16) : (UInt16.ofNat n).toUInt32.toNat = n := by
  rw [UInt16.toNat_toUInt32, UInt16.toNat_ofNat_of_lt' small]

omit [CommRing R] [DecidableEq R] in
theorem index_exact {x : UInt32} {n i : Nat} (base : x.toNat = n) (small : n + i < 2 ^ 32) :
    (x + UInt32.ofNat i).toNat = n + i := by
  have part : i < 2 ^ 32 := Nat.lt_of_le_of_lt (Nat.le_add_left i n) small
  rw [UInt32.toNat_add, base, UInt32.toNat_ofNat_of_lt' part]
  exact Nat.mod_eq_of_lt small

include stored rect narrow

theorem stored_bank :
    band = { coeff := (fb.map run).flatten
             start := fb.map fun row => UInt16.ofNat (extent row).1
             length := fb.map fun row => UInt16.ofNat (extent row).2 } :=
  Option.some.inj (stored.symm.trans
    (bank_stored fb fun row member => (rect row member).trans_lt narrow))

include room

theorem tap_next {m i : Nat} {row : List R} (found : fb[m]? = some row)
    (inside : i < (extent row).2) (st : R × List Nat) :
    tap power band (UInt16.ofNat (extent row).1).toUInt32 (UInt32.ofNat (before fb m)) st i =
      some (st.1 + power.getD ((extent row).1 + i) 0 * row.getD ((extent row).1 + i) 0,
        st.2 ++ [before fb m + i]) := by
  have wide := rect row (List.mem_of_getElem? found)
  have encloses := (extent_encloses row).inside
  have coeff := coeff_found fb found inside
  have same : band.coeff = (fb.map run).flatten :=
    congrArg Banded.coeff (stored_bank power stored rect narrow)
  rw [← same] at coeff
  have below := (List.getElem?_eq_some_iff.mp coeff).choose
  have bin : power[(extent row).1 + i]? = some (power.getD ((extent row).1 + i) 0) := by
    rw [List.getD_eq_getElem?_getD, List.getElem?_eq_getElem (by omega)]
    rfl
  have small : before fb m < 2 ^ 32 := by omega
  have offset : (UInt32.ofNat (before fb m)).toNat = before fb m :=
    UInt32.toNat_ofNat_of_lt' small
  -- the bins are fewer than half a word counts, and the coefficients than a word does
  rw [tap, index_exact (half_exact (by omega)) (by omega), index_exact offset (by omega)]
  exact bind_some bin (bind_some coeff rfl)

theorem filter_reached {m : Nat} (below : m < fb.length) {st : Walk R}
    (reached : Reached logFloored power fb m st) :
    ∃ st', filter logFloored power band st m = some st' ∧
      Reached logFloored power fb (m + 1) st' := by
  obtain ⟨row, found⟩ : ∃ row, fb[m]? = some row := ⟨_, List.getElem?_eq_getElem below⟩
  have wide := rect row (List.mem_of_getElem? found)
  have encloses := (extent_encloses row).inside
  have count : (UInt16.ofNat (extent row).2).toUInt32.toNat = (extent row).2 :=
    half_exact (by omega)
  obtain ⟨⟨acc, taken⟩, ran, sum, took⟩ := loop_runs
    (fun i (st : R × List Nat) => st.1 = ∑ k ∈ Finset.range i,
        power.getD ((extent row).1 + k) 0 * row.getD ((extent row).1 + k) 0 ∧
      st.2 = List.range (before fb m + i))
    (tap power band (UInt16.ofNat (extent row).1).toUInt32 (UInt32.ofNat (before fb m)))
    (extent row).2 (0, st.taken) ⟨rfl, reached.taken⟩ (by
      rintro i inside ⟨acc, taken⟩ ⟨sum, took⟩
      refine ⟨_, tap_next power stored rect narrow room found inside (acc, taken), ?_, ?_⟩
      · rw [Finset.sum_range_succ, ← sum]
      · rw [← Nat.add_assoc, List.range_succ, ← took])
  dsimp only at sum took
  rw [← dense_run power wide] at sum
  have same := stored_bank power stored rect narrow
  have start : band.start[m]? = some (UInt16.ofNat (extent row).1) := by
    rw [same, List.getElem?_map, found]
    rfl
  have length : band.length[m]? = some (UInt16.ofNat (extent row).2) := by
    rw [same, List.getElem?_map, found]
    rfl
  have inner : (List.range (UInt16.ofNat (extent row).2).toUInt32.toNat).foldlM
      (tap power band (UInt16.ofNat (extent row).1).toUInt32 st.off) (0, st.taken) =
      some (acc, taken) := by
    rw [count, reached.off]
    exact ran
  -- the offset, the filters and the coefficients move on by one filter
  refine ⟨_, bind_some start (bind_some length (bind_some inner rfl)), ?_, ?_, ?_⟩
  · rw [before_succ fb found, UInt32.ofNat_add, reached.off, ← count, UInt32.ofNat_toNat, count]
  · rw [List.take_add_one, found, reached.mel]
    simp [sum]
  · rw [before_succ fb found]
    exact took

end Dense

/-- The banded bank is the dense one: every bin of a filter is in the row, and the loop
gives each filter's sum over the row and takes the coefficients in order, each once. Its
counters are words, so there are fewer filters and coefficients than a word counts. -/
theorem banded_dense {R : Type} [CommRing R] [DecidableEq R] (fb : List (List R))
    (power : List R) (rect : ∀ row ∈ fb, row.length = power.length)
    (narrow : power.length < 2 ^ 16) :
    ∃ band, bandFilterbank fb = some band ∧
      (∀ (m : Nat) (start len : UInt16), band.start[m]? = some start →
        band.length[m]? = some len → ∀ i < len.toNat, start.toNat + i < power.length) ∧
      (fb.length < 2 ^ 32 → band.coeff.length < 2 ^ 32 → ∀ logFloored, ∃ walk,
        melLoop logFloored power band (UInt32.ofNat fb.length) = some walk ∧
        walk.mel = fb.map (fun row => logFloored (dense power row)) ∧
        walk.taken = List.range band.coeff.length) := by
  have stored := bank_stored fb fun row member => (rect row member).trans_lt narrow
  refine ⟨_, stored, ?_, ?_⟩
  · intro m start len starts lengths i inside
    rw [List.getElem?_map, Option.map_eq_some_iff] at starts lengths
    obtain ⟨row, found, rfl⟩ := starts
    obtain ⟨_, again, rfl⟩ := lengths
    obtain rfl := Option.some.inj (found.symm.trans again)
    have wide := rect row (List.mem_of_getElem? found)
    have encloses := (extent_encloses row).inside
    have short : (extent row).1 < 2 ^ 16 ∧ (extent row).2 < 2 ^ 16 := by omega
    rw [UInt16.toNat_ofNat_of_lt' short.2] at inside
    rw [UInt16.toNat_ofNat_of_lt' short.1]
    omega
  · intro filters room logFloored
    have count : (UInt32.ofNat fb.length).toNat = fb.length := UInt32.toNat_ofNat_of_lt' filters
    obtain ⟨walk, ran, reached⟩ := loop_runs (Reached logFloored power fb) _ fb.length {}
      ⟨rfl, rfl, rfl⟩ fun m below st reached =>
        filter_reached logFloored power stored rect narrow room below reached
    refine ⟨walk, ?_, ?_, ?_⟩
    · rw [melLoop, count]
      exact ran
    · rw [reached.mel, List.take_length]
    · rw [reached.taken, before_all]

/-- A filter of zeros, then one with a zero inside it and zeros around it. -/
theorem banded_dense_sparse :
    ∃ band, bandFilterbank ([[0, 0, 0, 0, 0], [0, 2, 0, 3, 0]] : List (List Int)) = some band ∧
      ∃ walk, melLoop id [1, 10, 100, 1000, 10000] band 2 = some walk ∧
        walk.mel = [0, 3020] ∧ walk.taken = [0, 1, 2] := by
  obtain ⟨band, stored, _, walks⟩ := banded_dense
    ([[0, 0, 0, 0, 0], [0, 2, 0, 3, 0]] : List (List Int)) [1, 10, 100, 1000, 10000]
    (by decide) (by decide)
  have three : bandFilterbank ([[0, 0, 0, 0, 0], [0, 2, 0, 3, 0]] : List (List Int)) =
      some ⟨[2, 0, 3], [0, 1], [0, 3]⟩ := rfl
  obtain rfl := Option.some.inj (stored.symm.trans three)
  obtain ⟨walk, ran, mel, taken⟩ := walks (by decide) (by decide) id
  exact ⟨_, stored, walk, ran, mel, taken⟩

end HeteroSim.MelBands
