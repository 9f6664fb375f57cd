import HeteroSim.SnitchSsr

/-!
The streamed MatMul and Gemm, and that they compute the product. Two generators are
programmed once and taken from block by block: element `t` of either stream is told
apart by its column in the block, its term, its block and its row.
-/

namespace HeteroSim.StreamedGemm

open SliceRun ParallelSlices StreamLoops SnitchSsr
open scoped UInt32.CommRing

/-! ### The kernels -/

/-- The arguments of `gemm_ssr`; `C` may be NULL. -/
structure Args where
  A : UInt32
  B : UInt32
  C : UInt32
  Y : UInt32
  M : UInt32
  N : UInt32
  O : UInt32
  transA : UInt32
  transB : UInt32

/-- `UNROLL`. -/
def unroll : UInt32 := 8

def Args.blocks (a : Args) : UInt32 := a.O / unroll

/-- The stream of `A`: terms, blocks, rows. -/
def Args.loopA (a : Args) (m : Mover) : Mover :=
  if a.transA ≠ 0 then m.loop3d a.N a.blocks a.M (a.M * 4) 0 4
  else m.loop3d a.N a.blocks a.M 4 0 (a.N * 4)

/-- The stream of `B`: columns, terms, blocks, rows. -/
def Args.loopB (a : Args) (m : Mover) : Mover :=
  if a.transB ≠ 0 then m.loop4d unroll a.N a.blocks a.M (a.N * 4) 4 (unroll * a.N * 4) 0
  else m.loop4d unroll a.N a.blocks a.M 4 (a.O * 4) (unroll * 4) 0

def Args.aIdx (a : Args) (i k : UInt32) : UInt32 :=
  if a.transA ≠ 0 then k * a.M + i else i * a.N + k

def Args.bIdx (a : Args) (k j : UInt32) : UInt32 :=
  if a.transB ≠ 0 then j * a.N + k else k * a.O + j

section Kernels

variable {R : Type} [CommRing R] (fmt : Format R) (a : Args)

def arm (c : Core R) : Core R :=
  { c with
    dm0 := ((a.loopA c.dm0).repeats unroll).read 2 a.A
    dm1 := (a.loopB c.dm1).read 3 a.B }

/-- A block of `UNROLL` columns of row `i`, from column `j` on. -/
def block (i : UInt32) (st : Core R × UInt32) (_b : Nat) : Option (Core R × UInt32) := do
  let (c, j) := st
  let acc ← c.scalar fun u : Nat =>
    if a.C ≠ 0 then load fmt c.mem (cell (cell a.C (i * a.O + j)) (UInt32.ofNat u)) else 0
  let (c, acc) ← streamed fmt (fun u => (i * a.O + j).toNat + u) unroll.toNat (a.N - 1) (c, acc)
  let c ← (List.range unroll.toNat).foldlM (fun c u =>
    c.store fmt (cell (cell a.Y (i * a.O + j)) (UInt32.ofNat u)) (acc u)) c
  return (c, j + unroll)

def column (i start : UInt32) (c : Core R) (d : Nat) : Option (Core R) := do
  let j := start + UInt32.ofNat d
  let (c, sum) ← (List.range a.N.toNat).foldlM (fun st k =>
    addProduct fmt (i * a.O + j).toNat k (cell a.A (a.aIdx i (UInt32.ofNat k)))
      (cell a.B (a.bIdx (UInt32.ofNat k) j)) st) (c, 0)
  let v ← c.scalar (if a.C ≠ 0 then sum + load fmt c.mem (cell a.C (i * a.O + j)) else sum)
  c.store fmt (cell a.Y (i * a.O + j)) v

/-- `for (; j < O; ++j)`. -/
def columns (i j : UInt32) (c : Core R) : Option (Core R) :=
  (List.range (a.O.toNat - j.toNat)).foldlM (column fmt a i j) c

def row (c : Core R) (i : Nat) : Option (Core R) := do
  let (c, j) ← (List.range a.blocks.toNat).foldlM (block fmt a (UInt32.ofNat i)) (c, 0)
  columns fmt a (UInt32.ofNat i) j c

def gemmSsr (c : Core R) : Option (Core R) :=
  (List.range a.M.toNat).foldlM (row fmt a) (arm a c)

/-- `generic` is the kernel that the streamed one replaces. -/
def gemmFp32 (generic : Args → Core R → Option (Core R)) (c : Core R) :
    Option (Core R) :=
  if a.M = 0 ∨ a.N = 0 ∨ a.O < unroll then generic a c else gemmSsr fmt a c

def matMulFp32 (generic : Args → Core R → Option (Core R)) (A B Y M N O : UInt32)
    (c : Core R) : Option (Core R) :=
  if M = 0 ∨ N = 0 ∨ O < unroll then generic ⟨A, B, 0, Y, M, N, O, 0, 0⟩ c
  else gemmSsr fmt ⟨A, B, 0, Y, M, N, O, 0, 0⟩ c

/-- The array of `C`, zeros where there is none. -/
def initial (mem : Mem) : Nat → R := if a.C ≠ 0 then floats fmt mem a.C else fun _ => 0

/-- Element `e` of the product. -/
def product (mem : Mem) (e : Nat) : R :=
  Kernels.gemm a.M.toNat a.N.toNat a.O.toNat (a.transA ≠ 0) (a.transB ≠ 0) (floats fmt mem a.A)
    (floats fmt mem a.B) (initial fmt a mem) e

/-- The first `n` elements of `Y`, stored. -/
def outputs (mem : Mem) (n : Nat) : List (Nat × R) :=
  (List.range n).map fun e => (a.Y.toNat + 4 * e, product fmt a mem e)

end Kernels

/-! ### What the streams give -/

def Args.indexA (a : Args) (i k : Nat) : Nat :=
  if a.transA ≠ 0 then k * a.M.toNat + i else i * a.N.toNat + k

def Args.indexB (a : Args) (k j : Nat) : Nat :=
  if a.transB ≠ 0 then j * a.N.toNat + k else k * a.O.toNat + j

/-- Term `k` of the element in row `i` and column `j`. -/
def Args.term (a : Args) (i j k : Nat) : Term :=
  { output := i * a.O.toNat + j
    tap := k
    left := cell a.A (UInt32.ofNat (a.indexA i k))
    right := cell a.B (UInt32.ofNat (a.indexB k j)) }

def Args.blockTerms (a : Args) (i b : Nat) : List Term :=
  (List.range a.N.toNat).flatMap fun k => (List.range 8).map fun u => a.term i (8 * b + u) k

/-- The terms of the blocks of a row, as they are accumulated. -/
def Args.rowTerms (a : Args) (i : Nat) : List Term :=
  (List.range a.blocks.toNat).flatMap (a.blockTerms i)

/-- The terms of the columns past the last block. -/
def Args.columnTerms (a : Args) (i : Nat) : List Term :=
  (List.range (a.O.toNat - 8 * a.blocks.toNat)).flatMap fun d =>
    (List.range a.N.toNat).map (a.term i (8 * a.blocks.toNat + d))

/-- The shape is one the streamed path covers, the arrays fit, and nothing is read
through another pointer than `Y` that `Y` is stored to. -/
structure Fits (a : Args) : Prop where
  rows : 0 < a.M.toNat
  terms : 0 < a.N.toNat
  columns : 8 ≤ a.O.toNat
  roomA : a.A.toNat + 4 * (a.M.toNat * a.N.toNat) ≤ 2 ^ 32
  roomB : a.B.toNat + 4 * (a.N.toNat * a.O.toNat) ≤ 2 ^ 32
  roomC : a.C ≠ 0 → a.C.toNat + 4 * (a.M.toNat * a.O.toNat) ≤ 2 ^ 32
  roomY : a.Y.toNat + 4 * (a.M.toNat * a.O.toNat) ≤ 2 ^ 32
  apartA : disjoint a.Y (a.M.toNat * a.O.toNat) a.A (a.M.toNat * a.N.toNat)
  apartB : disjoint a.Y (a.M.toNat * a.O.toNat) a.B (a.N.toNat * a.O.toNat)
  apartC : a.C ≠ 0 → disjoint a.Y (a.M.toNat * a.O.toNat) a.C (a.M.toNat * a.O.toNat)

theorem blocks_exact (a : Args) : a.blocks.toNat = a.O.toNat / 8 := UInt32.toNat_div _ _

theorem blocks_inside (a : Args) : 8 * a.blocks.toNat ≤ a.O.toNat := by
  rw [blocks_exact]
  exact Nat.mul_div_le _ _

theorem indexA_inside {a : Args} {i k : Nat} (row : i < a.M.toNat) (term : k < a.N.toNat) :
    a.indexA i k < a.M.toNat * a.N.toNat := by
  rw [Args.indexA]
  split
  · exact (Kernels.entry_lt term row).trans_eq (Nat.mul_comm _ _)
  · exact Kernels.entry_lt row term

theorem indexB_inside {a : Args} {k j : Nat} (term : k < a.N.toNat) (column : j < a.O.toNat) :
    a.indexB k j < a.N.toNat * a.O.toNat := by
  rw [Args.indexB]
  split
  · exact (Kernels.entry_lt column term).trans_eq (Nat.mul_comm _ _)
  · exact Kernels.entry_lt term column

def Args.programA (a : Args) : List (UInt32 × UInt32) :=
  [(a.N, if a.transA ≠ 0 then a.M * 4 else 4), (a.blocks, 0),
    (a.M, if a.transA ≠ 0 then 4 else a.N * 4)]

def Args.programB (a : Args) : List (UInt32 × UInt32) :=
  [(unroll, if a.transB ≠ 0 then a.N * 4 else 4), (a.N, if a.transB ≠ 0 then 4 else a.O * 4),
    (a.blocks, if a.transB ≠ 0 then unroll * a.N * 4 else unroll * 4), (a.M, 0)]

/-- Every element of `A` is given `UNROLL` times. -/
def Args.feedA (a : Args) : Feed := ⟨7, a.programA, a.A⟩

def Args.feedB (a : Args) : Feed := ⟨0, a.programB, a.B⟩

/-- How many elements come before column `u` of term `k` in block `b` of row `i`. -/
def Args.nth (a : Args) (i b k u : Nat) : Nat :=
  ((i * a.blocks.toNat + b) * a.N.toNat + k) * 8 + u

theorem nth_turn (a : Args) (i b k u : Nat) :
    a.nth i b 0 0 + (k * 8 + u) = a.nth i b k u := by
  simp only [Args.nth]
  ring

theorem nth_block (a : Args) (i b : Nat) :
    a.nth i b 0 0 + a.N.toNat * 8 = a.nth i (b + 1) 0 0 := by
  simp only [Args.nth]
  ring

theorem nth_row (a : Args) (i : Nat) : a.nth i a.blocks.toNat 0 0 = a.nth (i + 1) 0 0 0 := by
  simp only [Args.nth]
  ring

theorem nth_inside {a : Args} {i b : Nat} (row : i < a.M.toNat) (inner : b < a.blocks.toNat) :
    a.nth i (b + 1) 0 0 ≤ a.nth a.M.toNat 0 0 0 := by
  have below := Kernels.entry_lt row inner
  simp only [Args.nth, Nat.add_zero]
  exact Nat.mul_le_mul_right 8 (Nat.mul_le_mul_right a.N.toNat below)

section Counts

variable {a : Args} (rows : 0 < a.M.toNat) (terms : 0 < a.N.toNat) (nonempty : 0 < a.blocks.toNat)

include rows terms nonempty

theorem count_a : a.feedA.count = a.nth a.M.toNat 0 0 0 := by
  simp only [Feed.count, Args.feedA, given, nest, Args.programA, size, List.map_cons, List.map_nil,
    count_exact terms, count_exact nonempty, count_exact rows, Args.nth]
  ring

theorem count_b : a.feedB.count = a.nth a.M.toNat 0 0 0 := by
  have eight : (unroll - 1).toNat + 1 = 8 := rfl
  simp only [Feed.count, Args.feedB, given, nest, Args.programB, size, List.map_cons, List.map_nil,
    count_exact terms, count_exact nonempty, count_exact rows, Args.nth, eight]
  ring

end Counts

section Streams

variable {a : Args} (fits : Fits a)

include fits

theorem blocks_some : 0 < a.blocks.toNat := by
  rw [blocks_exact]
  exact Nat.div_pos fits.columns (by decide)

theorem position_a (i b k u : Nat) :
    position (given 7 (nest a.programA)) [u, k, b, i] = a.nth i b k u := by
  simp [position, given, nest, Args.programA, Args.nth, count_exact fits.terms,
    count_exact (blocks_some fits)]

theorem position_b (i b k u : Nat) :
    position (given 0 (nest a.programB)) [0, u, k, b, i] = a.nth i b k u := by
  have eight : (unroll - 1).toNat + 1 = 8 := rfl
  simp [position, given, nest, Args.programB, Args.nth, count_exact fits.terms,
    count_exact (blocks_some fits), eight]

variable {i b k u : Nat} (row : i < a.M.toNat) (inner : b < a.blocks.toNat)
  (term : k < a.N.toNat) (col : u < 8)

include row inner term col

theorem element_a : a.feedA.element (a.nth i b k u) = cell a.A (UInt32.ofNat (a.indexA i k)) := by
  have found : a.feedA.element (a.nth i b k u) =
      a.A + reach (given 7 (nest a.programA)) [u, k, b, i] := by
    rw [← position_a fits]
    exact element_position a.feedA [u, k, b, i]
      ⟨Nat.le_of_lt_succ col, last_le term, last_le inner, last_le row, trivial⟩
  rw [found]
  simp only [reach, given, nest, Args.programA, List.map_cons, List.map_nil, cell, Args.indexA,
    ofNat_cast]
  -- Both sides are words, so no bound is needed: addresses wrap the same way.
  split <;>
  · push_cast [cast_toNat]
    ring

theorem element_b : a.feedB.element (a.nth i b k u) =
    cell a.B (UInt32.ofNat (a.indexB k (8 * b + u))) := by
  have found : a.feedB.element (a.nth i b k u) =
      a.B + reach (given 0 (nest a.programB)) [0, u, k, b, i] := by
    have first : u < unroll.toNat := col
    rw [← position_b fits]
    exact element_position a.feedB [0, u, k, b, i]
      ⟨le_rfl, last_le first, last_le term, last_le inner, last_le row, trivial⟩
  rw [found]
  simp only [reach, given, nest, Args.programB, List.map_cons, List.map_nil, cell, Args.indexB,
    ofNat_cast, unroll]
  split <;>
  · push_cast [cast_toNat]
    ring

end Streams

theorem loopA_loops (a : Args) (m : Mover) : a.loopA m = m.loops 0 0 a.programA := by
  rw [Args.loopA, Args.programA]
  split <;> rfl

theorem loopB_loops (a : Args) (m : Mover) : a.loopB m = m.loops 0 0 a.programB := by
  rw [Args.loopB, Args.programB]
  split <;> rfl

theorem armed_a {R : Type} (a : Args) (c : Core R) : Feeds (arm a c).dm0 a.feedA 0 := by
  have programmed := repeats_programmed (loops_programmed c.dm0 a.programA) unroll
  have seven : (unroll - 1).toNat = 7 := by decide
  rw [← loopA_loops, seven] at programmed
  exact read_feeds programmed rfl a.A

theorem armed_b {R : Type} (a : Args) (c : Core R) (once : c.dm1.reps = 0) :
    Feeds (arm a c).dm1 a.feedB 0 := by
  have programmed := loops_programmed c.dm1 a.programB
  rw [← loopB_loops, once, UInt32.toNat_zero] at programmed
  exact read_feeds programmed rfl a.B

/-! ### Rows, blocks and columns -/

section Runs

variable {R : Type} [CommRing R] (fmt : Format R) {a : Args} (fits : Fits a)

theorem spot_cast (a : Args) (i j : Nat) :
    UInt32.ofNat i * a.O + UInt32.ofNat j = UInt32.ofNat (i * a.O.toNat + j) := by
  rw [UInt32.ofNat_add, UInt32.ofNat_mul, UInt32.ofNat_toNat]

include fits in
theorem spot_exact {i j : Nat} (row : i < a.M.toNat) (column : j < a.O.toNat) :
    (UInt32.ofNat i * a.O + UInt32.ofNat j).toNat = i * a.O.toNat + j := by
  have inside := Kernels.entry_lt row column
  have room := fits.roomY
  exact exact_of_cast (spot_cast a i j) (by omega)

include fits in
theorem place_exact {i j : Nat} (row : i < a.M.toNat) (column : j < a.O.toNat) {x : UInt32}
    (same : x = UInt32.ofNat (i * a.O.toNat + j)) :
    (cell a.Y x).toNat = a.Y.toNat + 4 * (i * a.O.toNat + j) :=
  cell_exact same fits.roomY (Kernels.entry_lt row column)

theorem product_eq (a : Args) (mem : Mem) (i : Nat) {j : Nat} (column : j < a.O.toNat) :
    product fmt a mem (i * a.O.toNat + j) =
      ∑ k ∈ Finset.range a.N.toNat,
        floats fmt mem a.A (a.indexA i k) * floats fmt mem a.B (a.indexB k j) +
      initial fmt a mem (i * a.O.toNat + j) := by
  obtain ⟨col, row⟩ := split_digit i column
  simp only [product, Kernels.gemm, row, col, Args.indexA, Args.indexB, decide_eq_true_eq]

theorem outputs_inside (a : Args) (mem : Mem) {n : Nat} (within : n ≤ a.M.toNat * a.O.toNat) :
    ∀ s ∈ outputs fmt a mem n, ∃ e < a.M.toNat * a.O.toNat, s.1 = a.Y.toNat + 4 * e := by
  intro s member
  obtain ⟨e, below, rfl⟩ := List.mem_map.mp member
  exact ⟨e, (List.mem_range.mp below).trans_le within, rfl⟩

structure Reached (a : Args) (c c' : Core R) (t : Nat) (fmas products : List Term) (n : Nat) :
    Prop where
  did : ∃ ends, Did fmt c c' ⟨fmas, products, outputs fmt a c.mem n, ends⟩
  feedsA : Feeds c'.dm0 a.feedA t
  feedsB : Feeds c'.dm1 a.feedB t

variable {fmt}

theorem Reached.off {c c' : Core R} {t n : Nat} {fmas products : List Term}
    (reached : Reached fmt a c c' t fmas products n) : c'.enabled = false := by
  obtain ⟨_, did⟩ := reached.did
  exact did.off

include fits

section Reads

variable {c c' : Core R} {t n : Nat} {fmas products : List Term}
  (reached : Reached fmt a c c' t fmas products n) (within : n ≤ a.M.toNat * a.O.toNat)

include reached within

theorem term_kept {i j k : Nat} (row : i < a.M.toNat) (column : j < a.O.toNat)
    (term : k < a.N.toNat) :
    load fmt c'.mem (a.term i j k).left * load fmt c'.mem (a.term i j k).right =
      floats fmt c.mem a.A (a.indexA i k) * floats fmt c.mem a.B (a.indexB k j) := by
  obtain ⟨_, did⟩ := reached.did
  have stores := outputs_inside fmt a c.mem within
  have left := load_kept fmt did fits.apartA stores fits.roomA rfl (indexA_inside row term)
  have right := load_kept fmt did fits.apartB stores fits.roomB rfl (indexB_inside term column)
  simp only [Args.term, left, right]

theorem initial_kept {e : Nat} (inside : e < a.M.toNat * a.O.toNat) {x : UInt32}
    (same : x = UInt32.ofNat e) :
    (if a.C ≠ 0 then load fmt c'.mem (cell a.C x) else 0) = initial fmt a c.mem e := by
  obtain ⟨_, did⟩ := reached.did
  by_cases given : a.C ≠ 0
  · rw [if_pos given, initial, if_pos given, load_kept fmt did (fits.apartC given)
      (outputs_inside fmt a c.mem within) (fits.roomC given) same inside]
  · rw [if_neg given, initial, if_neg given]

end Reads

theorem terms_block {i b : Nat} (row : i < a.M.toNat) (inner : b < a.blocks.toNat) :
    terms a.feedA a.feedB (fun u => i * a.O.toNat + 8 * b + u) 8 (a.nth i b 0 0) a.N.toNat =
      a.blockTerms i b := by
  refine List.flatMap_congr fun k below => List.map_congr_left fun u col => ?_
  have term := List.mem_range.mp below
  have inside := List.mem_range.mp col
  rw [nth_turn, element_a fits row inner term inside, element_b fits row inner term inside]
  simp only [Args.term, Nat.add_assoc]

variable {c c' : Core R} {fmas products : List Term} {i b : Nat} (row : i < a.M.toNat)

include row

theorem block_streams (inner : b < a.blocks.toNat)
    (reached : Reached fmt a c c' (a.nth i b 0 0) fmas products (i * a.O.toNat + 8 * b))
    (first : Nat → R)
    (starts : ∀ u < 8, first u = initial fmt a c.mem (i * a.O.toNat + (8 * b + u))) :
    ∃ next acc, streamed fmt (fun u => i * a.O.toNat + 8 * b + u) 8 (a.N - 1) (c', first) =
        some (next, acc) ∧
      (∃ ends, Did fmt c' next { fmas := a.blockTerms i b, ends := ends }) ∧
      Feeds next.dm0 a.feedA (a.nth i (b + 1) 0 0) ∧
      Feeds next.dm1 a.feedB (a.nth i (b + 1) 0 0) ∧
      ∀ u < 8, acc u = product fmt a c.mem (i * a.O.toNat + (8 * b + u)) := by
  have inBlocks := blocks_inside a
  have column : ∀ u < 8, 8 * b + u < a.O.toNat := by omega
  have within : i * a.O.toNat + 8 * b ≤ a.M.toNat * a.O.toNat :=
    (Kernels.entry_lt row (column 0 (by decide))).le
  have last := count_exact fits.terms
  have room := nth_inside row inner
  -- The streams still have a block's elements, as this is not the last row's end.
  have runs := streamed_runs fmt a.feedA a.feedB (fun u => i * a.O.toNat + 8 * b + u) first 8
    (a.N - 1) reached.feedsA reached.feedsB
    (by rwa [last, nth_block, count_a fits.rows fits.terms (blocks_some fits)])
    (by rwa [last, nth_block, count_b fits.rows fits.terms (blocks_some fits)])
  rw [last, nth_block, terms_block fits row inner] at runs
  obtain ⟨next, acc, ended, did, feedsA, feedsB, sums⟩ := runs
  refine ⟨next, acc, ended, ⟨_, did⟩, feedsA, feedsB, fun u col => ?_⟩
  have factors : ∀ k ∈ Finset.range a.N.toNat,
      SnitchSsr.product fmt c'.mem a.feedA a.feedB (a.nth i b 0 0 + (k * 8 + u)) =
        floats fmt c.mem a.A (a.indexA i k) * floats fmt c.mem a.B (a.indexB k (8 * b + u)) := by
    intro k member
    have term := Finset.mem_range.mp member
    rw [nth_turn, SnitchSsr.product, element_a fits row inner term col,
      element_b fits row inner term col]
    exact term_kept fits reached within row (column u col) term
  rw [sums u col, starts u col, product_eq fmt a c.mem i (column u col),
    Finset.sum_congr rfl factors, add_comm]

theorem block_reached (inner : b < a.blocks.toNat)
    (reached : Reached fmt a c c' (a.nth i b 0 0) fmas products (i * a.O.toNat + 8 * b)) :
    ∃ next, block fmt a (UInt32.ofNat i) (c', UInt32.ofNat (8 * b)) b =
        some (next, UInt32.ofNat (8 * (b + 1))) ∧
      Reached fmt a c next (a.nth i (b + 1) 0 0) (fmas ++ a.blockTerms i b) products
        (i * a.O.toNat + 8 * (b + 1)) := by
  have inBlocks := blocks_inside a
  have column : ∀ u < 8, 8 * b + u < a.O.toNat := by omega
  have within : i * a.O.toNat + 8 * b ≤ a.M.toNat * a.O.toNat :=
    (Kernels.entry_lt row (column 0 (by decide))).le
  have start : 8 * b < a.O.toNat := column 0 (by decide)
  have spot := spot_exact fits row start
  have spots : ∀ u, UInt32.ofNat i * a.O + UInt32.ofNat (8 * b) + UInt32.ofNat u =
      UInt32.ofNat (i * a.O.toNat + (8 * b + u)) := by
    intro u
    rw [spot_cast, ← UInt32.ofNat_add, Nat.add_assoc]
  obtain ⟨mid, acc, ended, ⟨ends, region⟩, feedsA, feedsB, sums⟩ :=
    block_streams fits row inner reached
      (fun u => if a.C ≠ 0 then load fmt c'.mem (cell (cell a.C (UInt32.ofNat i * a.O +
        UInt32.ofNat (8 * b))) (UInt32.ofNat u)) else 0)
      fun u col => by
        rw [cell_cell]
        exact initial_kept fits reached within (Kernels.entry_lt row (column u col)) (spots u)
  -- The region has ended, so the stores take nothing from the streams.
  obtain ⟨next, stored, stores, kept⟩ := stores_did fmt region.off (fun u => cell (cell a.Y
    (UInt32.ofNat i * a.O + UInt32.ofNat (8 * b))) (UInt32.ofNat u)) acc 8
  obtain ⟨before, did⟩ := reached.did
  refine ⟨next, ?_, ⟨before ++ ends, ?_⟩, kept.dm0 ▸ feedsA, kept.dm1 ▸ feedsB⟩
  · have eight : unroll.toNat = 8 := rfl
    have turn : UInt32.ofNat (8 * b) + unroll = UInt32.ofNat (8 * (b + 1)) := by
      rw [Nat.mul_succ, UInt32.ofNat_add]
      rfl
    rw [← turn, block, spot, eight]
    exact bind_some (scalar_off reached.off _) (bind_some ended (bind_some stored rfl))
  -- The eight stores are the next eight elements of the output.
  · have places : (List.range 8).map (fun u => ((cell (cell a.Y
        (UInt32.ofNat i * a.O + UInt32.ofNat (8 * b))) (UInt32.ofNat u)).toNat, acc u)) =
        (List.range 8).map fun u => (a.Y.toNat + 4 * (i * a.O.toNat + (8 * b + u)),
          product fmt a c.mem (i * a.O.toNat + (8 * b + u))) := by
      refine List.map_congr_left fun u member => ?_
      have col := List.mem_range.mp member
      rw [sums u col, cell_cell, place_exact fits row (column u col) (spots u)]
    have all := (did.trans region).trans stores
    rw [places] at all
    have logged : outputs fmt a c.mem (i * a.O.toNat + 8 * (b + 1)) =
        outputs fmt a c.mem (i * a.O.toNat + 8 * b) ++ (List.range 8).map fun u =>
          (a.Y.toNat + 4 * (i * a.O.toNat + (8 * b + u)),
            product fmt a c.mem (i * a.O.toNat + (8 * b + u))) := by
      simp only [outputs, Nat.mul_succ, ← Nat.add_assoc]
      rw [List.range_add, List.map_append, List.map_map]
      rfl
    rw [logged]
    simpa only [log_mk, List.append_nil] using all

end Runs

/-! ### Columns past the last block -/

section Columns

variable {R : Type} [CommRing R] (fmt : Format R) (a : Args)

theorem column_did {c : Core R} (off : c.enabled = false) (i start : UInt32) (d : Nat) {j : UInt32}
    (here : start + UInt32.ofNat d = j) :
    ∃ next, column fmt a i start c d = some next ∧
      Did fmt c next
        { products := (List.range a.N.toNat).map fun k =>
            ⟨(i * a.O + j).toNat, k, cell a.A (a.aIdx i (UInt32.ofNat k)),
              cell a.B (a.bIdx (UInt32.ofNat k) j)⟩
          stores := [((cell a.Y (i * a.O + j)).toNat,
            ∑ k ∈ Finset.range a.N.toNat, load fmt c.mem (cell a.A (a.aIdx i (UInt32.ofNat k))) *
              load fmt c.mem (cell a.B (a.bIdx (UInt32.ofNat k) j)) +
            if a.C ≠ 0 then load fmt c.mem (cell a.C (i * a.O + j)) else 0)] } ∧
      Kept c next := by
  subst here
  obtain ⟨⟨mid, sum⟩, summed, rfl, products, kept⟩ := loop_runs _ _ a.N.toNat _
    (summed_none fmt off (i * a.O + (start + UInt32.ofNat d)).toNat
      (fun k => cell a.A (a.aIdx i (UInt32.ofNat k)))
      (fun k => cell a.B (a.bIdx (UInt32.ofNat k) (start + UInt32.ofNat d))))
    fun k _ st so => summed_next fmt so
  have same : mid.mem = c.mem := products.mem
  obtain ⟨next, stored, stores, left⟩ := store_did fmt products.off
    (cell a.Y (i * a.O + (start + UInt32.ofNat d))) _
  refine ⟨next, bind_some summed (bind_some (scalar_off products.off _) stored), ?_,
    kept.trans left⟩
  have both := products.trans stores
  simp only [log_mk, List.append_nil, List.nil_append, same] at both
  rw [add_ite, add_zero]
  exact both

theorem columns_kept {c : Core R} (off : c.enabled = false) (i j : UInt32) :
    ∃ next, columns fmt a i j c = some next ∧ Kept c next := by
  obtain ⟨next, ended, _, kept⟩ := loop_runs
    (fun _ next => next.enabled = false ∧ Kept c next) (column fmt a i j)
    (a.O.toNat - j.toNat) c ⟨off, rfl, rfl⟩ fun d _ now ⟨off, kept⟩ => by
      obtain ⟨next, ended, did, same⟩ := column_did fmt a off i j d rfl
      exact ⟨next, ended, did.off, kept.trans same⟩
  exact ⟨next, ended, kept⟩

end Columns

section Runs

variable {R : Type} [CommRing R] {fmt : Format R} {a : Args} (fits : Fits a)

theorem aIdx_cast (a : Args) (i k : Nat) :
    a.aIdx (UInt32.ofNat i) (UInt32.ofNat k) = UInt32.ofNat (a.indexA i k) := by
  rw [Args.aIdx, Args.indexA]
  split <;> rw [UInt32.ofNat_add, UInt32.ofNat_mul, UInt32.ofNat_toNat]

theorem bIdx_cast (a : Args) (k j : Nat) :
    a.bIdx (UInt32.ofNat k) (UInt32.ofNat j) = UInt32.ofNat (a.indexB k j) := by
  rw [Args.bIdx, Args.indexB]
  split <;> rw [UInt32.ofNat_add, UInt32.ofNat_mul, UInt32.ofNat_toNat]

variable {c c' : Core R} {t : Nat} {fmas products : List Term} {i : Nat} (row : i < a.M.toNat)

include fits row

theorem column_reached {start : UInt32} {d j : Nat} (here : start + UInt32.ofNat d = UInt32.ofNat j)
    (col : j < a.O.toNat) (reached : Reached fmt a c c' t fmas products (i * a.O.toNat + j)) :
    ∃ next, column fmt a (UInt32.ofNat i) start c' d = some next ∧
      Reached fmt a c next t fmas (products ++ (List.range a.N.toNat).map (a.term i j))
        (i * a.O.toNat + (j + 1)) := by
  have inside := Kernels.entry_lt row col
  have spot := spot_cast a i j
  obtain ⟨next, ended, did, kept⟩ := column_did fmt a reached.off (UInt32.ofNat i) start d here
  obtain ⟨ends, before⟩ := reached.did
  refine ⟨next, ended, ⟨ends, ?_⟩, kept.dm0 ▸ reached.feedsA, kept.dm1 ▸ reached.feedsB⟩
  have factors : ∀ k ∈ Finset.range a.N.toNat,
      load fmt c'.mem (cell a.A (UInt32.ofNat (a.indexA i k))) *
        load fmt c'.mem (cell a.B (UInt32.ofNat (a.indexB k j))) =
      floats fmt c.mem a.A (a.indexA i k) * floats fmt c.mem a.B (a.indexB k j) :=
    fun k member => term_kept fits reached inside.le row col (Finset.mem_range.mp member)
  have both := before.trans did
  simp only [aIdx_cast, bIdx_cast, spot_exact fits row col, place_exact fits row col spot,
    initial_kept fits reached inside.le inside spot, Finset.sum_congr rfl factors,
    ← product_eq fmt a c.mem i col, log_mk, List.append_nil] at both
  rw [← Nat.add_assoc, outputs, List.range_succ, List.map_append]
  exact both

theorem columns_reached
    (reached : Reached fmt a c c' t fmas products (i * a.O.toNat + 8 * a.blocks.toNat)) :
    ∃ next, columns fmt a (UInt32.ofNat i) (UInt32.ofNat (8 * a.blocks.toNat)) c' = some next ∧
      Reached fmt a c next t fmas (products ++ a.columnTerms i) ((i + 1) * a.O.toNat) := by
  have inBlocks := blocks_inside a
  have start : (UInt32.ofNat (8 * a.blocks.toNat)).toNat = 8 * a.blocks.toNat :=
    exact_of_cast rfl (inBlocks.trans_lt a.O.toNat_lt)
  obtain ⟨next, ended, done⟩ := loop_runs (fun d next => Reached fmt a c next t fmas
      (products ++ (List.range d).flatMap fun d =>
        (List.range a.N.toNat).map (a.term i (8 * a.blocks.toNat + d)))
      (i * a.O.toNat + (8 * a.blocks.toNat + d)))
    (column fmt a (UInt32.ofNat i) (UInt32.ofNat (8 * a.blocks.toNat)))
    (a.O.toNat - 8 * a.blocks.toNat) c' (by simpa using reached) fun d below now reached => by
      obtain ⟨next, ended, done⟩ := column_reached fits row (UInt32.ofNat_add ..).symm
        (by omega) reached
      refine ⟨next, ended, ?_⟩
      rw [List.range_succ, List.flatMap_append, List.flatMap_singleton, ← List.append_assoc]
      exact done
  rw [Nat.add_sub_cancel' inBlocks, ← Nat.succ_mul] at done
  exact ⟨next, by rwa [columns, start], done⟩

theorem row_reached
    (reached : Reached fmt a c c' (a.nth i 0 0 0) fmas products (i * a.O.toNat)) :
    ∃ next, StreamedGemm.row fmt a c' i = some next ∧
      Reached fmt a c next (a.nth (i + 1) 0 0 0) (fmas ++ a.rowTerms i)
        (products ++ a.columnTerms i) ((i + 1) * a.O.toNat) := by
  -- `j` follows the block counter, and the columns go on from where it stops.
  obtain ⟨⟨mid, j⟩, ended, here, blocks⟩ := loop_runs (fun b (st : Core R × UInt32) =>
      st.2 = UInt32.ofNat (8 * b) ∧
      Reached fmt a c st.1 (a.nth i b 0 0)
        (fmas ++ (List.range b).flatMap (a.blockTerms i)) products
        (i * a.O.toNat + 8 * b))
    (block fmt a (UInt32.ofNat i)) a.blocks.toNat (c', 0) ⟨rfl, by simpa using reached⟩ (by
      rintro b inner ⟨now, _⟩ ⟨rfl, reached⟩
      obtain ⟨next, ended, done⟩ := block_reached fits row inner reached
      refine ⟨_, ended, rfl, ?_⟩
      rw [List.range_succ, List.flatMap_append, List.flatMap_singleton, ← List.append_assoc]
      exact done)
  dsimp only at here blocks
  subst here
  rw [nth_row] at blocks
  obtain ⟨next, rest, done⟩ := columns_reached fits row blocks
  exact ⟨next, bind_some ended rest, done⟩

omit row in
variable (fmt) in
/-- The streamed kernel is the product: every element of `Y` is stored once, in order;
every multiply-add is given the factors of its term; both streams end with the last
block; and the columns past the last block leave them alone. Nothing sets the repeat
register of `ft1` to anything but once. -/
theorem streamed_product (core : Core R) (off : core.enabled = false)
    (once : core.dm1.reps = 0) :
    ∃ core', gemmSsr fmt a core = some core' ∧
      (∀ generic, gemmFp32 fmt a generic core = some core') ∧
      (a.C = 0 → a.transA = 0 → a.transB = 0 → ∀ generic,
        matMulFp32 fmt generic a.A a.B a.Y a.M a.N a.O core = some core') ∧
      core'.log.stores = core.log.stores ++ outputs fmt a core.mem (a.M.toNat * a.O.toNat) ∧
      core'.mem = written fmt core.mem (outputs fmt a core.mem (a.M.toNat * a.O.toNat)) ∧
      core'.log.fmas = core.log.fmas ++ (List.range a.M.toNat).flatMap a.rowTerms ∧
      core'.log.products = core.log.products ++ (List.range a.M.toNat).flatMap a.columnTerms ∧
      core'.dm0.stream.ended = true ∧ core'.dm1.stream.ended = true ∧
      core'.enabled = false ∧ core'.dm1.reps = 0 ∧
      ∀ c : Core R, c.enabled = false → ∀ i j, ∃ next,
        columns fmt a i j c = some next ∧ Kept c next := by
  have armed : Reached fmt a core (arm a core) (a.nth 0 0 0 0) [] [] 0 := by
    have origin : a.nth 0 0 0 0 = 0 := by simp [Args.nth]
    rw [origin]
    exact ⟨⟨[], off, (log_empty _).symm, rfl⟩, armed_a a core, armed_b a core once⟩
  obtain ⟨core', ended, done⟩ := loop_runs (fun i next =>
      Reached fmt a core next (a.nth i 0 0 0) ((List.range i).flatMap a.rowTerms)
        ((List.range i).flatMap a.columnTerms) (i * a.O.toNat))
    (StreamedGemm.row fmt a) a.M.toNat (arm a core) (by simpa using armed)
    fun i row now reached => by
      obtain ⟨next, ended, done⟩ := row_reached fits row reached
      refine ⟨next, ended, ?_⟩
      simp only [List.range_succ, List.flatMap_append, List.flatMap_singleton]
      exact done
  obtain ⟨ends, did⟩ := done.did
  -- Neither entry point hands such a shape to the generic kernel.
  have shape : ¬(a.M = 0 ∨ a.N = 0 ∨ a.O < unroll) := by
    have rows := fits.rows
    have terms := fits.terms
    rintro (none | none | few)
    · rw [none] at rows
      exact absurd rows (by decide)
    · rw [none] at terms
      exact absurd terms (by decide)
    · exact absurd (UInt32.lt_iff_toNat_lt.mp few) (Nat.not_lt.mpr fits.columns)
  have streamed : gemmSsr fmt a core = some core' := ended
  have countA := count_a fits.rows fits.terms (blocks_some fits)
  have countB := count_b fits.rows fits.terms (blocks_some fits)
  refine ⟨core', streamed, fun _ => by rwa [gemmFp32, if_neg shape], ?_,
    congrArg Log.stores did.logged, did.mem, congrArg Log.fmas did.logged,
    congrArg Log.products did.logged, done.feedsA.taken.done countA.le,
    done.feedsB.taken.done countB.le, did.off,
    UInt32.toNat_inj.mp done.feedsB.programmed.reps,
    fun c off i j => columns_kept fmt a off i j⟩
  intro noC plainA plainB _
  have same : a = ⟨a.A, a.B, 0, a.Y, a.M, a.N, a.O, 0, 0⟩ := by
    cases a
    simp_all
  rw [matMulFp32, if_neg shape, ← same]
  exact streamed

end Runs

theorem ninth_fits : Fits ⟨0, 8, 0, 64, 2, 1, 9, 0, 0⟩ where
  rows := by decide
  terms := by decide
  columns := by decide
  roomA := by decide
  roomB := by decide
  roomC given := absurd rfl given
  roomY := by decide
  apartA := by
    rw [disjoint]
    decide
  apartB := by
    rw [disjoint]
    decide
  apartC given := absurd rfl given

theorem streamed_product_ninth :
    ∃ core', gemmSsr bytes ⟨0, 8, 0, 64, 2, 1, 9, 0, 0⟩ (Core.fresh fun _ => 3) = some core' ∧
      core'.log.stores = (List.range 18).map fun e => (64 + 4 * e, 9) := by
  obtain ⟨core', ended, _, _, stores, _⟩ :=
    streamed_product bytes ninth_fits (Core.fresh fun _ => 3) rfl rfl
  refine ⟨core', ended, stores.trans ?_⟩
  decide

end HeteroSim.StreamedGemm
