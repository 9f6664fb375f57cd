import HeteroSim.StreamedGemm
import HeteroSim.StripMine

/-!
The vector MatMul and Gemm, and that they compute the product whatever vector lengths
the unit grants. A block is up to four rows by the columns that were granted; the
blocks of a band of rows are strips, and the bands lie below each other.
-/

namespace HeteroSim.RvvGemm

open SliceRun ParallelSlices SnitchSsr StripMine
open StreamLoops (split_digit)
open StreamedGemm (Args product initial outputs)
open scoped UInt32.CommRing

/-! ### The vector unit -/

/-- What `vsetvl` grants each time it is asked for so many columns. -/
structure VectorUnit where
  vsetvl : Nat → UInt32 → UInt32
  grants : ∀ turn avl, avl ≠ 0 → vsetvl turn avl ≠ 0
  within : ∀ turn avl, vsetvl turn avl ≤ avl

/-- As many as are asked for, and at most `vlmax`. -/
def VectorUnit.upTo (vlmax : UInt32) (wide : vlmax ≠ 0) : VectorUnit where
  vsetvl _ avl := if avl < vlmax then avl else vlmax
  grants _ avl asked := by
    split
    · exact asked
    · exact wide
  within _ avl := by
    split
    · exact UInt32.le_refl avl
    · exact UInt32.not_lt.mp ‹_›

inductive Operand where
  | A
  | B
  | C
  deriving DecidableEq

/-- Memory, how often `vsetvl` was executed, what was read through which pointer, and
the stores. -/
structure Machine (R : Type) where
  mem : Mem
  turns : Nat := 0
  reads : List (Operand × UInt32) := []
  stores : List (Nat × R) := []

section Kernels

variable {R : Type} [CommRing R] (fmt : Format R) (a : Args)

def flw (x : Operand) (p : UInt32) (m : Machine R) : R × Machine R :=
  (load fmt m.mem p, { m with reads := m.reads ++ [(x, p)] })

/-- `vle32.v`: `vl` elements from `p` on. -/
def vle (x : Operand) (p : UInt32) (vl : Nat) (m : Machine R) : List R × Machine R :=
  let places := (List.range vl).map fun u => cell p (UInt32.ofNat u)
  (places.map (load fmt m.mem), { m with reads := m.reads ++ places.map fun q => (x, q) })

/-- `vfmacc.vf`. -/
def vfmacc (acc : List R) (s : R) (v : List R) : List R :=
  List.zipWith (fun c b => c + s * b) acc v

/-- `vse32.v`. -/
def vse (p : UInt32) (v : List R) (m : Machine R) : Machine R :=
  let stores := List.zipWith (fun u x => ((cell p (UInt32.ofNat u)).toNat, x))
    (List.range v.length) v
  { m with mem := written fmt m.mem stores, stores := m.stores ++ stores }

/-- `ROWS`. -/
def blockRows : UInt32 := 4

/-- Row `r` of a block is there: the first one always, the others `if (rows > r)`. -/
def present (rows : UInt32) (r : Nat) : Prop := r = 0 ∨ UInt32.ofNat r < rows

instance (rows : UInt32) (r : Nat) : Decidable (present rows r) := instDecidableOr

def eachRow {σ : Type} (rows : UInt32) (turn : σ → Nat → σ) (s : σ) : σ :=
  (List.range blockRows.toNat).foldl (fun s r => if present rows r then turn s r else s) s

/-- The accumulators at first; `acc1` to `acc3` are copies of `acc0` without a row. -/
def fill (i j rows vl : UInt32) (m : Machine R) : (Nat → List R) × Machine R :=
  if a.C ≠ 0 then
    let filled := eachRow rows (fun st r =>
      let loaded := vle fmt .C (cell a.C ((i + UInt32.ofNat r) * a.O + j)) vl.toNat st.2
      (setAt st.1 r loaded.1, loaded.2)) (fun _ => [], m)
    -- what is copied is never stored
    (fun r => if present rows r then filled.1 r else filled.1 0, filled.2)
  else (fun _ => List.replicate vl.toNat 0, m)

structure Running (R : Type) where
  acc : Nat → List R
  a : UInt32
  b : UInt32
  m : Machine R

/-- One turn of the loop over `k`. -/
def term (rows vl : UInt32) (st : Running R) (_k : Nat) : Running R :=
  let loaded := vle fmt .B st.b vl.toNat st.m
  let summed := eachRow rows (fun now r =>
    let factor := flw fmt .A (cell st.a (UInt32.ofNat r * a.N)) now.2
    (setAt now.1 r (vfmacc (now.1 r) factor.1 loaded.1), factor.2)) (st.acc, loaded.2)
  -- one element along a row of `A`, one row down `B`
  { acc := summed.1, a := cell st.a 1, b := cell st.b a.O, m := summed.2 }

/-- Rows `i` to `i + rows` of `Y`, columns `j` to `j + vl`. -/
def gemmBlock (i j rows vl : UInt32) (m : Machine R) : Machine R :=
  let filled := fill fmt a i j rows vl m
  let last := (List.range a.N.toNat).foldl (term fmt a rows vl)
    { acc := filled.1, a := cell a.A (i * a.N), b := cell a.B j, m := filled.2 }
  eachRow rows (fun m r => vse fmt (cell a.Y ((i + UInt32.ofNat r) * a.O + j)) (last.acc r) m)
    last.m

/-- As many columns of rows `i` to `i + rows` as are granted. -/
def strip (unit : VectorUnit) (i rows : UInt32) (st : UInt32 × Machine R) :
    Option (UInt32 × Machine R) :=
  let (j, m) := st
  let vl := unit.vsetvl m.turns (a.O - j)
  some (j + vl, gemmBlock fmt a i j rows vl { m with turns := m.turns + 1 })

/-- `for (j = 0; j < O;)`. -/
def columns (unit : VectorUnit) (i rows : UInt32) (fuel : Nat) (m : Machine R) :
    Option (UInt32 × Machine R) :=
  whileLoop (fun st => decide (st.1 < a.O)) (strip fmt a unit i rows) fuel (0, m)

/-- The rows of the block at row `i`: four, or those that are left. -/
def rowsAt (i : UInt32) : UInt32 := if a.M - i < blockRows then a.M - i else blockRows

def band (unit : VectorUnit) (fuel : Nat) (st : UInt32 × Machine R) :
    Option (UInt32 × Machine R) := do
  let (i, m) := st
  let (_, m) ← columns fmt a unit i (rowsAt a i) fuel m
  return (i + blockRows, m)

/-- `for (i = 0; i < M; i += ROWS)`. -/
def bands (unit : VectorUnit) (fuel : Nat) (m : Machine R) : Option (UInt32 × Machine R) :=
  whileLoop (fun st => decide (st.1 < a.M)) (band fmt a unit fuel) fuel (0, m)

def gemmRvv (unit : VectorUnit) (fuel : Nat) (m : Machine R) : Option (Machine R) :=
  (bands fmt a unit fuel m).map Prod.snd

/-- `generic` is the kernel that the vector one replaces. -/
def gemmFp32 (unit : VectorUnit) (generic : Args → Machine R → Option (Machine R)) (fuel : Nat)
    (m : Machine R) : Option (Machine R) :=
  -- a transposed `B` is not contiguous along `j`
  if a.M = 0 ∨ a.N = 0 ∨ a.O = 0 ∨ a.transA ≠ 0 ∨ a.transB ≠ 0 then generic a m
  else gemmRvv fmt a unit fuel m

def matMulFp32 (unit : VectorUnit) (generic : Args → Machine R → Option (Machine R))
    (A B Y M N O : UInt32) (fuel : Nat) (m : Machine R) : Option (Machine R) :=
  if M = 0 ∨ N = 0 ∨ O = 0 then generic ⟨A, B, 0, Y, M, N, O, 0, 0⟩ m
  else gemmRvv fmt ⟨A, B, 0, Y, M, N, O, 0, 0⟩ unit fuel m

end Kernels

/-- A place of an operand, in one of its rows. -/
def Holds (a : Args) : Operand × UInt32 → Prop
  | (.A, p) => ∃ i < a.M.toNat, ∃ k < a.N.toNat, p.toNat = a.A.toNat + 4 * (i * a.N.toNat + k)
  | (.B, p) => ∃ k < a.N.toNat, ∃ j < a.O.toNat, p.toNat = a.B.toNat + 4 * (k * a.O.toNat + j)
  | (.C, p) => a.C ≠ 0 ∧
      ∃ i < a.M.toNat, ∃ j < a.O.toNat, p.toNat = a.C.toNat + 4 * (i * a.O.toNat + j)

/-- The vector path covers the shape, the arrays fit, and nothing is read through
another pointer than `Y` that `Y` is stored to. -/
structure Fits (a : Args) : Prop where
  rows : 0 < a.M.toNat
  terms : 0 < a.N.toNat
  columns : 0 < a.O.toNat
  plainA : a.transA = 0
  plainB : a.transB = 0
  roomA : a.A.toNat + 4 * (a.M.toNat * a.N.toNat) ≤ 2 ^ 32
  roomB : a.B.toNat + 4 * (a.N.toNat * a.O.toNat) ≤ 2 ^ 32
  roomC : a.C ≠ 0 → a.C.toNat + 4 * (a.M.toNat * a.O.toNat) ≤ 2 ^ 32
  roomY : a.Y.toNat + 4 * (a.M.toNat * a.O.toNat) ≤ 2 ^ 32
  apartA : disjoint a.Y (a.M.toNat * a.O.toNat) a.A (a.M.toNat * a.N.toNat)
  apartB : disjoint a.Y (a.M.toNat * a.O.toNat) a.B (a.N.toNat * a.O.toNat)
  apartC : a.C ≠ 0 → disjoint a.Y (a.M.toNat * a.O.toNat) a.C (a.M.toNat * a.O.toNat)

theorem eachRow_range {σ : Type} {rows : UInt32} (nonempty : 0 < rows.toNat) (few : rows.toNat ≤ 4)
    (turn : σ → Nat → σ) (s : σ) :
    eachRow rows turn s = (List.range rows.toNat).foldl turn s := by
  have cases : rows = 1 ∨ rows = 2 ∨ rows = 3 ∨ rows = 4 := by
    simp only [← UInt32.toNat_inj]
    exact (by omega : rows.toNat = 1 ∨ rows.toNat = 2 ∨ rows.toNat = 3 ∨ rows.toNat = 4)
  rcases cases with rfl | rfl | rfl | rfl <;> rfl

theorem row_present {rows : UInt32} {r : Nat} (inside : r < rows.toNat) : present rows r := by
  right
  rw [UInt32.lt_iff_toNat_lt, UInt32.toNat_ofNat_of_lt' (inside.trans rows.toNat_lt)]
  exact inside

/-! ### What was done -/

section Runs

variable {R : Type} [CommRing R] (fmt : Format R) (a : Args)

/-- What was done from `m` to `m'`: the stores, and reads of the operands only. -/
structure Did (m m' : Machine R) (stores : List (Nat × R)) : Prop where
  mem : m'.mem = written fmt m.mem stores
  stored : m'.stores = m.stores ++ stores
  reads : ∃ reads, m'.reads = m.reads ++ reads ∧ ∀ x ∈ reads, Holds a x

omit [CommRing R] in
theorem did_nothing (m : Machine R) : Did fmt a m m [] where
  mem := rfl
  stored := (List.append_nil _).symm
  reads := ⟨[], (List.append_nil _).symm, fun _ member => absurd member List.not_mem_nil⟩

variable {fmt a}

omit [CommRing R] in
theorem Did.trans {m m' m'' : Machine R} {stores more : List (Nat × R)}
    (first : Did fmt a m m' stores) (second : Did fmt a m' m'' more) :
    Did fmt a m m'' (stores ++ more) where
  mem := by
    rw [second.mem, first.mem]
    exact (List.foldl_append ..).symm
  stored := by rw [second.stored, first.stored, List.append_assoc]
  reads := by
    obtain ⟨reads, logged, held⟩ := first.reads
    obtain ⟨others, after, kept⟩ := second.reads
    refine ⟨reads ++ others, by rw [after, logged, List.append_assoc], fun x member => ?_⟩
    exact (List.mem_append.mp member).elim (held x) (kept x)

variable (fmt)

omit [CommRing R] in
theorem flw_did {x : Operand} {p : UInt32} (held : Holds a (x, p)) (m : Machine R) :
    Did fmt a m (flw fmt x p m).2 [] where
  mem := rfl
  stored := (List.append_nil _).symm
  reads := ⟨[(x, p)], rfl, fun _ member => List.mem_singleton.mp member ▸ held⟩

omit [CommRing R] in
theorem vle_did {x : Operand} {p : UInt32} {vl : Nat}
    (held : ∀ u < vl, Holds a (x, cell p (UInt32.ofNat u))) (m : Machine R) :
    Did fmt a m (vle fmt x p vl m).2 [] where
  mem := rfl
  stored := (List.append_nil _).symm
  reads := by
    refine ⟨_, rfl, fun y member => ?_⟩
    obtain ⟨u, below, rfl⟩ : ∃ u < vl, (x, cell p (UInt32.ofNat u)) = y := by
      simpa using member
    exact held u below

omit [CommRing R] in
theorem vse_did (p : UInt32) (n : Nat) (g : Nat → R) (m : Machine R) :
    Did fmt a m (vse fmt p ((List.range n).map g) m)
      ((List.range n).map fun u => ((cell p (UInt32.ofNat u)).toNat, g u)) := by
  have places : List.zipWith (fun u x => ((cell p (UInt32.ofNat u)).toNat, x))
      (List.range ((List.range n).map g).length) ((List.range n).map g) =
      (List.range n).map fun u => ((cell p (UInt32.ofNat u)).toNat, g u) := by
    rw [List.length_map, List.length_range, List.zipWith_map_right, List.zipWith_self]
  rw [← places]
  exact ⟨rfl, rfl, [], (List.append_nil _).symm, fun _ member => absurd member List.not_mem_nil⟩

theorem vfmacc_map (n : Nat) (f g : Nat → R) (s : R) :
    vfmacc ((List.range n).map f) s ((List.range n).map g) =
      (List.range n).map fun u => f u + s * g u := by
  rw [vfmacc, List.zipWith_map, List.zipWith_self]

/-! ### Places -/

theorem spot_row (a : Args) (i j : UInt32) (r u : Nat) :
    (i + UInt32.ofNat r) * a.O + j + UInt32.ofNat u =
      UInt32.ofNat ((i.toNat + r) * a.O.toNat + (j.toNat + u)) := by
  simp only [ofNat_cast]
  push_cast [cast_toNat]
  ring

theorem spot_factor (a : Args) (i : UInt32) (k r : Nat) :
    i * a.N + UInt32.ofNat k + UInt32.ofNat r * a.N =
      UInt32.ofNat ((i.toNat + r) * a.N.toNat + k) := by
  simp only [ofNat_cast]
  push_cast [cast_toNat]
  ring

theorem spot_term (a : Args) (j : UInt32) (k u : Nat) :
    j + UInt32.ofNat k * a.O + UInt32.ofNat u = UInt32.ofNat (k * a.O.toNat + (j.toNat + u)) := by
  simp only [ofNat_cast]
  push_cast [cast_toNat]
  ring

end Runs

/-! ### A block -/

section Block

variable {R : Type} [CommRing R] (fmt : Format R) {a : Args} (fits : Fits a)

/-- An accumulator after `k` terms. -/
def partialSum (a : Args) (mem : Mem) (k row col : Nat) : R :=
  initial fmt a mem (row * a.O.toNat + col) +
    ∑ t ∈ Finset.range k,
      floats fmt mem a.A (row * a.N.toNat + t) * floats fmt mem a.B (t * a.O.toNat + col)

theorem partialSum_product (fits : Fits a) (mem : Mem) (row : Nat) {col : Nat}
    (inside : col < a.O.toNat) :
    partialSum fmt a mem a.N.toNat row col = product fmt a mem (row * a.O.toNat + col) := by
  rw [StreamedGemm.product_eq fmt a mem row inside, partialSum, add_comm]
  simp only [Args.indexA, Args.indexB, fits.plainA, fits.plainB, ne_eq, not_true_eq_false,
    if_false]

variable {fmt} in
omit [CommRing R] in
theorem eachRow_did {rows : UInt32} (nonempty : 0 < rows.toNat) (few : rows.toNat ≤ 4)
    {m : Machine R} (before after : Nat → List R)
    (turn : (Nat → List R) × Machine R → Nat → (Nat → List R) × Machine R)
    (st : (Nat → List R) × Machine R) (start : Did fmt a m st.2 [])
    (first : ∀ r < rows.toNat, st.1 r = before r)
    (step : ∀ r < rows.toNat, ∀ now, Did fmt a m now.2 [] → now.1 r = before r →
      Did fmt a m (turn now r).2 [] ∧ (turn now r).1 = setAt now.1 r (after r)) :
    Did fmt a m (eachRow rows turn st).2 [] ∧
      ∀ r < rows.toNat, (eachRow rows turn st).1 r = after r := by
  -- the rows below `n` have had their turn
  have all := fold_keeps (fun n now => Did fmt a m now.2 [] ∧
      ∀ r < rows.toNat, now.1 r = if r < n then after r else before r)
    turn rows.toNat st ⟨start, fun r inside => by simpa using first r inside⟩ (by
      rintro n below now ⟨did, accs⟩
      have mine : now.1 n = before n := by simpa using accs n below
      obtain ⟨next, set⟩ := step n below now did mine
      refine ⟨next, fun r inside => ?_⟩
      rw [set, setAt]
      by_cases here : r = n
      · rw [if_pos here, here, if_pos (Nat.lt_succ_self n)]
      · have same : r < n + 1 ↔ r < n := by omega
        rw [if_neg here, accs r inside]
        simp only [same])
  rw [eachRow_range nonempty few]
  refine ⟨all.1, fun r inside => ?_⟩
  rw [all.2 r inside, if_pos inside]

variable {i j rows vl : UInt32} {r k : Nat}

section Loads

variable (row : i.toNat + r < a.M.toNat) (strip : j.toNat + vl.toNat ≤ a.O.toNat)
  (below : k < a.N.toNat)

include fits

include row strip in
theorem load_c (given : a.C ≠ 0) (m : Machine R) :
    Did fmt a m (vle fmt .C (cell a.C ((i + UInt32.ofNat r) * a.O + j)) vl.toNat m).2 [] ∧
      (vle fmt .C (cell a.C ((i + UInt32.ofNat r) * a.O + j)) vl.toNat m).1 =
        (List.range vl.toNat).map fun u =>
          partialSum fmt a m.mem 0 (i.toNat + r) (j.toNat + u) := by
  have inside : ∀ u < vl.toNat,
      (i.toNat + r) * a.O.toNat + (j.toNat + u) < a.M.toNat * a.O.toNat :=
    fun u col => Kernels.entry_lt row (by omega)
  constructor
  · refine vle_did fmt (fun u col => ?_) m
    refine ⟨given, i.toNat + r, row, j.toNat + u, by omega, ?_⟩
    rw [cell_cell]
    exact cell_exact (spot_row a i j r u) (fits.roomC given) (inside u col)
  · rw [vle, List.map_map]
    refine List.map_congr_left fun u member => ?_
    rw [Function.comp_apply, cell_cell, load_cell fmt m.mem (spot_row a i j r u)
      (fits.roomC given) (inside u (List.mem_range.mp member))]
    simp [partialSum, initial, given]

omit [CommRing R] in
include strip below in
theorem load_b (m : Machine R) :
    Did fmt a m (vle fmt .B (cell a.B (j + UInt32.ofNat k * a.O)) vl.toNat m).2 [] ∧
      (vle fmt .B (cell a.B (j + UInt32.ofNat k * a.O)) vl.toNat m).1 =
        (List.range vl.toNat).map fun u =>
          floats fmt m.mem a.B (k * a.O.toNat + (j.toNat + u)) := by
  have inside : ∀ u < vl.toNat, k * a.O.toNat + (j.toNat + u) < a.N.toNat * a.O.toNat :=
    fun u col => Kernels.entry_lt below (by omega)
  constructor
  · refine vle_did fmt (fun u col => ?_) m
    refine ⟨k, below, j.toNat + u, by omega, ?_⟩
    rw [cell_cell]
    exact cell_exact (spot_term a j k u) fits.roomB (inside u col)
  · rw [vle, List.map_map]
    refine List.map_congr_left fun u member => ?_
    rw [Function.comp_apply, cell_cell]
    exact load_cell fmt m.mem (spot_term a j k u) fits.roomB (inside u (List.mem_range.mp member))

omit [CommRing R] in
include row below in
theorem load_a (m : Machine R) :
    Did fmt a m (flw fmt .A (cell (cell a.A (i * a.N + UInt32.ofNat k))
        (UInt32.ofNat r * a.N)) m).2 [] ∧
      (flw fmt .A (cell (cell a.A (i * a.N + UInt32.ofNat k)) (UInt32.ofNat r * a.N)) m).1 =
        floats fmt m.mem a.A ((i.toNat + r) * a.N.toNat + k) := by
  have inside := Kernels.entry_lt row below
  rw [cell_cell]
  constructor
  · refine flw_did fmt ?_ m
    exact ⟨i.toNat + r, row, k, below, cell_exact (spot_factor a i k r) fits.roomA inside⟩
  · exact load_cell fmt m.mem (spot_factor a i k r) fits.roomA inside

end Loads

variable (nonempty : 0 < rows.toNat) (few : rows.toNat ≤ 4)
  (band : i.toNat + rows.toNat ≤ a.M.toNat) (strip : j.toNat + vl.toNat ≤ a.O.toNat)

include fits nonempty few band strip

theorem fill_did (m : Machine R) :
    Did fmt a m (fill fmt a i j rows vl m).2 [] ∧
      ∀ r < rows.toNat, (fill fmt a i j rows vl m).1 r =
        (List.range vl.toNat).map fun u =>
          partialSum fmt a m.mem 0 (i.toNat + r) (j.toNat + u) := by
  rw [fill]
  split
  case isTrue given =>
    refine And.imp id (fun accs r inside => ?_) (eachRow_did nonempty few (fun _ => []) (fun r =>
      (List.range vl.toNat).map fun u => partialSum fmt a m.mem 0 (i.toNat + r) (j.toNat + u))
      _ _ (did_nothing fmt a m) (fun _ _ => rfl) fun r inside now did _ => ?_)
    · exact (if_pos (row_present inside)).trans (accs r inside)
    · have same : now.2.mem = m.mem := did.mem
      have row : i.toNat + r < a.M.toNat := by omega
      obtain ⟨next, loaded⟩ := load_c fmt fits row strip given now.2
      rw [same] at loaded
      exact ⟨did.trans next, congrArg (setAt now.1 r) loaded⟩
  case isFalse absent =>
    refine ⟨did_nothing fmt a m, fun r _ => ?_⟩
    simp [partialSum, initial, absent, List.map_const']

omit fits nonempty few band strip in
/-- The loop over `k` after `k` turns. -/
structure Summed (a : Args) (i j rows vl : UInt32) (m : Machine R) (k : Nat) (st : Running R) :
    Prop where
  did : Did fmt a m st.m []
  left : st.a = cell a.A (i * a.N + UInt32.ofNat k)
  right : st.b = cell a.B (j + UInt32.ofNat k * a.O)
  accs : ∀ r < rows.toNat, st.acc r =
    (List.range vl.toNat).map fun u => partialSum fmt a m.mem k (i.toNat + r) (j.toNat + u)

theorem term_summed {m : Machine R} {st : Running R} (below : k < a.N.toNat)
    (summed : Summed fmt a i j rows vl m k st) :
    Summed fmt a i j rows vl m (k + 1) (term fmt a rows vl st k) := by
  have same : st.m.mem = m.mem := summed.did.mem
  have vector := load_b fmt fits strip below st.m
  rw [← summed.right, same] at vector
  obtain ⟨loaded, elements⟩ := vector
  obtain ⟨did, accs⟩ := eachRow_did nonempty few _ (fun r => (List.range vl.toNat).map fun u =>
      partialSum fmt a m.mem (k + 1) (i.toNat + r) (j.toNat + u))
    (fun now r =>
      let factor := flw fmt .A (cell st.a (UInt32.ofNat r * a.N)) now.2
      (setAt now.1 r (vfmacc (now.1 r) factor.1 (vle fmt .B st.b vl.toNat st.m).1), factor.2))
    (st.acc, (vle fmt .B st.b vl.toNat st.m).2)
    (summed.did.trans loaded) summed.accs fun r inside now did acc => by
      have row : i.toNat + r < a.M.toNat := by omega
      have kept : now.2.mem = m.mem := did.mem
      have scalar := load_a fmt fits row below now.2
      rw [← summed.left, kept] at scalar
      refine ⟨did.trans scalar.1, congrArg (setAt now.1 r) ?_⟩
      rw [acc, scalar.2, elements, vfmacc_map]
      simp only [partialSum, Finset.sum_range_succ, add_assoc]
  refine ⟨did, ?_, ?_, accs⟩
  · rw [term, summed.left, cell_cell, UInt32.ofNat_add, add_assoc]
    rfl
  · have turned : UInt32.ofNat (k + 1) * a.O = UInt32.ofNat k * a.O + a.O := by
      rw [UInt32.ofNat_add, add_mul]
      exact congrArg (UInt32.ofNat k * a.O + ·) (one_mul a.O)
    rw [turned, term, summed.right, cell_cell, add_assoc]

/-- What is stored for a place of the product. -/
def place (a : Args) (mem : Mem) (row col : Nat) : Nat × R :=
  (a.Y.toNat + 4 * (row * a.O.toNat + col), product fmt a mem (row * a.O.toNat + col))

theorem block_did (m : Machine R) :
    Did fmt a m (gemmBlock fmt a i j rows vl m)
      (tile (place fmt a m.mem) i.toNat rows.toNat j.toNat vl.toNat) := by
  obtain ⟨filled, accs⟩ := fill_did fmt fits nonempty few band strip m
  have first : Summed fmt a i j rows vl m 0
      { acc := (fill fmt a i j rows vl m).1, a := cell a.A (i * a.N), b := cell a.B j,
        m := (fill fmt a i j rows vl m).2 } := by
    refine ⟨filled, ?_, ?_, accs⟩ <;> simp
  have last := fold_keeps (Summed fmt a i j rows vl m) (term fmt a rows vl) a.N.toNat _ first
    fun k below st => term_summed fmt fits nonempty few band strip below
  rw [gemmBlock, eachRow_range nonempty few]
  -- the rows are stored one below the other
  refine fold_keeps (fun n m' =>
      Did fmt a m m' (tile (place fmt a m.mem) i.toNat n j.toNat vl.toNat))
    _ rows.toNat _ last.did fun r inside now did => ?_
  have row : i.toNat + r < a.M.toNat := by omega
  rw [← tile_below, last.accs r inside]
  refine did.trans ?_
  have stored := vse_did (a := a) fmt (cell a.Y ((i + UInt32.ofNat r) * a.O + j)) vl.toNat (fun u =>
    partialSum fmt a m.mem a.N.toNat (i.toNat + r) (j.toNat + u)) now
  have places : ((List.range vl.toNat).map fun u =>
      ((cell (cell a.Y ((i + UInt32.ofNat r) * a.O + j)) (UInt32.ofNat u)).toNat,
        partialSum fmt a m.mem a.N.toNat (i.toNat + r) (j.toNat + u))) =
      tile (place fmt a m.mem) (i.toNat + r) 1 j.toNat vl.toNat := by
    simp only [tile, List.range_one, List.flatMap_singleton, Nat.add_zero]
    refine List.map_congr_left fun u member => ?_
    have col : j.toNat + u < a.O.toNat := by
      have within := List.mem_range.mp member
      omega
    rw [cell_cell, cell_exact (spot_row a i j r u) fits.roomY (Kernels.entry_lt row col),
      partialSum_product fmt fits m.mem _ col, place]
  rw [← places]
  exact stored

end Block

/-! ### Strips and bands -/

section Loops

variable {R : Type} [CommRing R] (fmt : Format R) {a : Args}

omit [CommRing R] in
theorem storeFloat_comm {p q : Nat} (v w : R) (apart : p + 4 ≤ q ∨ q + 4 ≤ p) (mem : Mem) :
    storeFloat fmt q w (storeFloat fmt p v mem) = storeFloat fmt p v (storeFloat fmt q w mem) := by
  funext cell
  simp only [storeFloat]
  by_cases first : p ≤ cell ∧ cell < p + 4
  · have second : ¬(q ≤ cell ∧ cell < q + 4) := by omega
    rw [if_pos first, if_neg second, if_pos first]
  · rw [if_neg first, if_neg first]

theorem written_outputs {stores : List (Nat × R)} {n : Nat} (mem mem' : Mem)
    (all : stores.Perm (outputs fmt a mem n)) :
    written fmt mem' stores = written fmt mem' (outputs fmt a mem n) := by
  refine all.foldl_eq' (fun x inX y inY mem => ?_) mem'
  obtain ⟨e, _, rfl⟩ := List.mem_map.mp (all.mem_iff.mp inX)
  obtain ⟨e', _, rfl⟩ := List.mem_map.mp (all.mem_iff.mp inY)
  -- two elements are one, or four bytes apart
  by_cases same : e = e'
  · rw [same]
  · exact storeFloat_comm fmt _ _ (by omega) mem

structure Reached (a : Args) (m m' : Machine R) (places : List (Nat × R)) : Prop where
  did : ∃ stores, Did fmt a m m' stores ∧ stores.Perm places
  inside : ∀ s ∈ places, ∃ e < a.M.toNat * a.O.toNat, s.1 = a.Y.toNat + 4 * e

theorem tile_inside (mem : Mem) {i rows j cols : Nat} (band : i + rows ≤ a.M.toNat)
    (strip : j + cols ≤ a.O.toNat) :
    ∀ s ∈ tile (place fmt a mem) i rows j cols,
      ∃ e < a.M.toNat * a.O.toNat, s.1 = a.Y.toNat + 4 * e := by
  intro s member
  obtain ⟨r, row, c, col, rfl⟩ := (mem_tile _).mp member
  exact ⟨(i + r) * a.O.toNat + (j + c), Kernels.entry_lt (by omega) (by omega), rfl⟩

variable {fmt}

omit [CommRing R] in
theorem Reached.perm {m m' : Machine R} {places places' : List (Nat × R)}
    (reached : Reached fmt a m m' places) (same : places.Perm places') :
    Reached fmt a m m' places' := by
  obtain ⟨⟨stores, did, order⟩, inside⟩ := reached
  exact ⟨⟨stores, did, order.trans same⟩, fun s member => inside s (same.mem_iff.mpr member)⟩

variable (fits : Fits a)

include fits

theorem product_kept {m m' : Machine R} {places : List (Nat × R)}
    (reached : Reached fmt a m m' places) {e : Nat} (below : e < a.M.toNat * a.O.toNat) :
    product fmt a m'.mem e = product fmt a m.mem e := by
  obtain ⟨stores, did, perm⟩ := reached.did
  have inY : ∀ s ∈ stores, ∃ e < a.M.toNat * a.O.toNat, s.1 = a.Y.toNat + 4 * e :=
    fun s member => reached.inside s (perm.mem_iff.mp member)
  refine Kernels.gemm_reach ?_ ?_ ?_ below
  · intro i within
    rw [did.mem, floats_apart fmt m.mem fits.apartA inY within]
  · intro i within
    rw [did.mem, floats_apart fmt m.mem fits.apartB inY within]
  · intro i within
    rw [initial, initial]
    split
    case isTrue given => rw [did.mem, floats_apart fmt m.mem (fits.apartC given) inY within]
    case isFalse => rfl

section Steps

variable {m m' : Machine R} {done : List (Nat × R)} {i j rows vl : UInt32}

theorem block_reached (nonempty : 0 < rows.toNat) (few : rows.toNat ≤ 4)
    (band : i.toNat + rows.toNat ≤ a.M.toNat) (strip : j.toNat + vl.toNat ≤ a.O.toNat)
    (reached : Reached fmt a m m' done) :
    Reached fmt a m (gemmBlock fmt a i j rows vl m')
      (done ++ tile (place fmt a m.mem) i.toNat rows.toNat j.toNat vl.toNat) := by
  obtain ⟨stores, did, perm⟩ := reached.did
  have block := block_did fmt fits nonempty few band strip m'
  -- the block works on memory that holds earlier tiles, none of them an operand
  have same : tile (place fmt a m'.mem) i.toNat rows.toNat j.toNat vl.toNat =
      tile (place fmt a m.mem) i.toNat rows.toNat j.toNat vl.toNat := by
    refine tile_congr fun r row c col => ?_
    rw [place, place, product_kept fits reached (Kernels.entry_lt (by omega) (by omega))]
  rw [same] at block
  refine ⟨⟨_, did.trans block, perm.append_right _⟩, fun s member => ?_⟩
  exact (List.mem_append.mp member).elim (reached.inside s) (tile_inside fmt m.mem band strip s)

theorem strip_reached (unit : VectorUnit) (nonempty : 0 < rows.toNat) (few : rows.toNat ≤ 4)
    (band : i.toNat + rows.toNat ≤ a.M.toNat) (going : j.toNat < a.O.toNat)
    (reached : Reached fmt a m m' (done ++ tile (place fmt a m.mem) i.toNat rows.toNat 0 j.toNat)) :
    ∃ j' next, strip fmt a unit i rows (j, m') = some (j', next) ∧
      j.toNat < j'.toNat ∧ j'.toNat ≤ a.O.toNat ∧
      Reached fmt a m next
        (done ++ tile (place fmt a m.mem) i.toNat rows.toNat 0 j'.toNat) := by
  -- what is asked for does not wrap, so neither does `j` by what is granted of it
  have left : (a.O - j).toNat = a.O.toNat - j.toNat :=
    UInt32.toNat_sub_of_le _ _ (UInt32.le_iff_toNat_le.mpr going.le)
  have granted : (unit.vsetvl m'.turns (a.O - j)).toNat ≤ a.O.toNat - j.toNat :=
    (UInt32.le_iff_toNat_le.mp (unit.within m'.turns (a.O - j))).trans_eq left
  have progress : 0 < (unit.vsetvl m'.turns (a.O - j)).toNat := by
    refine Nat.pos_of_ne_zero fun none =>
      unit.grants m'.turns (a.O - j) ?_ (UInt32.toNat_inj.mp none)
    intro zero
    rw [zero, UInt32.toNat_zero] at left
    omega
  have next : (j + unit.vsetvl m'.turns (a.O - j)).toNat =
      j.toNat + (unit.vsetvl m'.turns (a.O - j)).toNat := by
    rw [UInt32.toNat_add]
    exact Nat.mod_eq_of_lt (by have bound := a.O.toNat_lt; omega)
  have counted : Reached fmt a m { m' with turns := m'.turns + 1 }
      (done ++ tile (place fmt a m.mem) i.toNat rows.toNat 0 j.toNat) := by
    obtain ⟨⟨stores, did, perm⟩, inside⟩ := reached
    exact ⟨⟨stores, ⟨did.mem, did.stored, did.reads⟩, perm⟩, inside⟩
  have room : j.toNat + (unit.vsetvl m'.turns (a.O - j)).toNat ≤ a.O.toNat := by omega
  have block := block_reached fits nonempty few band room counted
  refine ⟨_, _, rfl, by omega, by omega, ?_⟩
  have beside := tile_beside (place fmt a m.mem) i.toNat rows.toNat 0 j.toNat
    (unit.vsetvl m'.turns (a.O - j)).toNat
  rw [Nat.zero_add] at beside
  rw [next]
  refine block.perm ?_
  rw [List.append_assoc]
  exact beside.append_left done

theorem columns_reached (unit : VectorUnit) {fuel : Nat} (enough : a.O.toNat ≤ fuel)
    (nonempty : 0 < rows.toNat) (few : rows.toNat ≤ 4)
    (band : i.toNat + rows.toNat ≤ a.M.toNat) (reached : Reached fmt a m m' done) :
    ∃ j next, columns fmt a unit i rows fuel m' = some (j, next) ∧
      Reached fmt a m next
        (done ++ tile (place fmt a m.mem) i.toNat rows.toNat 0 a.O.toNat) := by
  have start : Reached fmt a m m' (done ++ tile (place fmt a m.mem) i.toNat rows.toNat 0 0) := by
    rwa [tile_narrow, List.append_nil]
  obtain ⟨⟨j, next⟩, ended, ⟨within, covered⟩, last⟩ := while_ends
    (fun st => decide (st.1 < a.O)) (strip fmt a unit i rows)
    (fun st => st.1.toNat ≤ a.O.toNat ∧ Reached fmt a m st.2
      (done ++ tile (place fmt a m.mem) i.toNat rows.toNat 0 st.1.toNat))
    (fun st => a.O.toNat - st.1.toNat) (by
      rintro ⟨j, now⟩ ⟨_, covered⟩ going
      have below : j.toNat < a.O.toNat := UInt32.lt_iff_toNat_lt.mp (of_decide_eq_true going)
      obtain ⟨j', next, turned, more, within, added⟩ :=
        strip_reached fits unit nonempty few band below covered
      exact ⟨(j', next), turned, ⟨within, added⟩, by dsimp only; omega⟩)
    (s := (0, m')) ⟨Nat.zero_le _, start⟩ ((Nat.sub_le _ _).trans enough)
  have all : j.toNat = a.O.toNat := by
    have past := of_decide_eq_false last
    rw [UInt32.lt_iff_toNat_lt] at past
    dsimp only at within past
    omega
  rw [all] at covered
  exact ⟨j, next, ended, covered⟩

end Steps

omit fits in
theorem rowsAt_exact {i : UInt32} (going : i.toNat < a.M.toNat) :
    (rowsAt a i).toNat = min (a.M.toNat - i.toNat) 4 := by
  have left : (a.M - i).toNat = a.M.toNat - i.toNat :=
    UInt32.toNat_sub_of_le _ _ (UInt32.le_iff_toNat_le.mpr going.le)
  have four : blockRows.toNat = 4 := rfl
  rw [rowsAt]
  split
  case isTrue few =>
    rw [UInt32.lt_iff_toNat_lt, left, four] at few
    rw [left, Nat.min_eq_left (Nat.le_of_lt few)]
  case isFalse many =>
    rw [UInt32.lt_iff_toNat_lt, left, four] at many
    rw [four, Nat.min_eq_right (Nat.le_of_not_lt many)]

theorem next_band {i : UInt32} (going : i.toNat < a.M.toNat) :
    (i + blockRows).toNat = i.toNat + 4 := by
  have high : a.M.toNat ≤ a.M.toNat * a.O.toNat := Nat.le_mul_of_pos_right _ fits.columns
  have room := fits.roomY
  have four : blockRows.toNat = 4 := rfl
  rw [UInt32.toNat_add, four]
  exact Nat.mod_eq_of_lt (by omega)

theorem band_reached (unit : VectorUnit) {fuel : Nat} (enough : a.O.toNat ≤ fuel)
    {m m' : Machine R} {i : UInt32} (going : i.toNat < a.M.toNat)
    (reached : Reached fmt a m m'
      (tile (place fmt a m.mem) 0 (min i.toNat a.M.toNat) 0 a.O.toNat)) :
    ∃ i' next, band fmt a unit fuel (i, m') = some (i', next) ∧ i.toNat < i'.toNat ∧
      Reached fmt a m next
        (tile (place fmt a m.mem) 0 (min i'.toNat a.M.toNat) 0 a.O.toNat) := by
  have rows := rowsAt_exact going
  have next := next_band fits going
  rw [Nat.min_eq_left going.le] at reached
  have positive : 0 < (rowsAt a i).toNat := by omega
  have few : (rowsAt a i).toNat ≤ 4 := by omega
  have within : i.toNat + (rowsAt a i).toNat ≤ a.M.toNat := by omega
  obtain ⟨j, after, covered, added⟩ :=
    columns_reached fits unit enough positive few within reached
  have below := tile_below (place fmt a m.mem) 0 i.toNat (rowsAt a i).toNat 0 a.O.toNat
  have reach : i.toNat + (rowsAt a i).toNat = min (i.toNat + 4) a.M.toNat := by omega
  rw [Nat.zero_add, reach] at below
  refine ⟨i + blockRows, after, StreamLoops.bind_some covered rfl, by omega, ?_⟩
  rw [next, ← below]
  exact added

variable (fmt) in
theorem bands_reached (unit : VectorUnit) {fuel : Nat} (rows : a.M.toNat ≤ fuel)
    (columns : a.O.toNat ≤ fuel) (m : Machine R) :
    ∃ i next, bands fmt a unit fuel m = some (i, next) ∧
      Reached fmt a m next (outputs fmt a m.mem (a.M.toNat * a.O.toNat)) := by
  have start : Reached fmt a m m (tile (place fmt a m.mem) 0 (min (0 : UInt32).toNat a.M.toNat) 0
      a.O.toNat) := by
    have nothing : tile (place fmt a m.mem) 0 (min (0 : UInt32).toNat a.M.toNat) 0
      a.O.toNat = [] := by
      simp [tile]
    rw [nothing]
    exact ⟨⟨[], did_nothing fmt a m, .nil⟩, fun _ member => absurd member List.not_mem_nil⟩
  -- after the last band `i` may be past `M`, which is why the rows are its minimum with `M`
  obtain ⟨⟨i, next⟩, ended, all, last⟩ := while_ends
    (fun st => decide (st.1 < a.M)) (band fmt a unit fuel)
    (fun st => Reached fmt a m st.2
      (tile (place fmt a m.mem) 0 (min st.1.toNat a.M.toNat) 0 a.O.toNat))
    (fun st => a.M.toNat - st.1.toNat) (by
      rintro ⟨i, now⟩ covered going
      have below : i.toNat < a.M.toNat := UInt32.lt_iff_toNat_lt.mp (of_decide_eq_true going)
      obtain ⟨i', next, turned, more, added⟩ := band_reached fits unit columns below covered
      exact ⟨(i', next), turned, added, by dsimp only; omega⟩)
    (s := (0, m)) start ((Nat.sub_le _ _).trans rows)
  have past := of_decide_eq_false last
  rw [UInt32.lt_iff_toNat_lt] at past
  dsimp only at all past
  rw [Nat.min_eq_right (Nat.le_of_not_lt past)] at all
  refine ⟨i, next, ended, ?_⟩
  have whole := tile_whole (fun e => (a.Y.toNat + 4 * e, product fmt a m.mem e)) a.M.toNat a.O.toNat
  rw [outputs, ← whole]
  exact all

variable (fmt) in
/-- The vector kernel is the product, whatever vector lengths are granted: its loops end,
every element of `Y` is stored once, and nothing is read but elements of the operands.
Neither entry point hands such a shape to the generic kernel. -/
theorem vector_product (unit : VectorUnit) {fuel : Nat} (rows : a.M.toNat ≤ fuel)
    (columns : a.O.toNat ≤ fuel) (m : Machine R) :
    ∃ m' stores reads, gemmRvv fmt a unit fuel m = some m' ∧
      (∀ generic, gemmFp32 fmt a unit generic fuel m = some m') ∧
      (a.C = 0 → ∀ generic,
        matMulFp32 fmt unit generic a.A a.B a.Y a.M a.N a.O fuel m = some m') ∧
      m'.stores = m.stores ++ stores ∧
      stores.Perm (outputs fmt a m.mem (a.M.toNat * a.O.toNat)) ∧
      m'.mem = written fmt m.mem (outputs fmt a m.mem (a.M.toNat * a.O.toNat)) ∧
      m'.reads = m.reads ++ reads ∧ ∀ x ∈ reads, Holds a x := by
  obtain ⟨i, m', ended, ⟨⟨stores, did, all⟩, _⟩⟩ :=
    bands_reached fmt fits unit rows columns m
  obtain ⟨reads, logged, held⟩ := did.reads
  have ran : gemmRvv fmt a unit fuel m = some m' := by
    rw [gemmRvv, ended, Option.map_some]
  have someRows : a.M ≠ 0 := fun none => by simpa [none] using fits.rows
  have someTerms : a.N ≠ 0 := fun none => by simpa [none] using fits.terms
  have someColumns : a.O ≠ 0 := fun none => by simpa [none] using fits.columns
  refine ⟨m', stores, reads, ran, fun _ => ?_, fun noC _ => ?_, did.stored, all, ?_, logged, held⟩
  · rw [gemmFp32,
      if_neg (by simp [someRows, someTerms, someColumns, fits.plainA, fits.plainB])]
    exact ran
  · have same : a = ⟨a.A, a.B, 0, a.Y, a.M, a.N, a.O, 0, 0⟩ := by
      have plainA := fits.plainA
      have plainB := fits.plainB
      cases a
      simp_all
    rw [matMulFp32, if_neg (by simp [someRows, someTerms, someColumns]), ← same]
    exact ran
  · rw [did.mem, written_outputs fmt m.mem m.mem all]

end Loops

theorem fifth_fits : Fits ⟨0, 20, 32, 92, 5, 1, 3, 0, 0⟩ where
  rows := by decide
  terms := by decide
  columns := by decide
  plainA := rfl
  plainB := rfl
  roomA := by decide
  roomB := by decide
  roomC _ := by decide
  roomY := by decide
  apartA := by
    rw [disjoint]
    decide
  apartB := by
    rw [disjoint]
    decide
  apartC _ := by
    rw [disjoint]
    decide

theorem vector_product_fifth :
    ∃ m' : Machine Int, gemmRvv bytes ⟨0, 20, 32, 92, 5, 1, 3, 0, 0⟩ (.upTo 2 (by decide)) 5
        { mem := fun _ => 3 } = some m' ∧
      m'.stores.Perm ((List.range 15).map fun e => (92 + 4 * e, 12)) := by
  obtain ⟨m', stores, _, ran, _, _, stored, all, _⟩ := vector_product bytes fifth_fits
    (.upTo 2 (by decide)) (show 5 ≤ 5 by decide) (show 3 ≤ 5 by decide)
    ({ mem := fun _ => 3 } : Machine Int)
  refine ⟨m', ran, ?_⟩
  rw [stored]
  exact all

end HeteroSim.RvvGemm
