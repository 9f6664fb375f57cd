import HeteroSim.SnitchSsr

/-!
The streamed convolution, and that it is the direct one. Four filters are computed
together: the window of an output pixel and the weights of the filters are streams
that are armed anew for each pixel. Filters past the last group of four are scalar.
-/

namespace HeteroSim.StreamedConv

open ClusterJob (divu)
open SliceRun ParallelSlices StreamLoops SnitchSsr
open scoped UInt32.CommRing

/-! ### The kernel -/

structure Args where
  A : UInt32
  C : UInt32
  H : UInt32
  W : UInt32
  B : UInt32
  F : UInt32
  P : UInt32
  Q : UInt32
  SP : UInt32
  SQ : UInt32
  bias : UInt32
  hasBias : Bool
  Y : UInt32

/-- `F_UNROLL`. -/
def fUnroll : UInt32 := 4

def Args.hOut (a : Args) : UInt32 := divu (a.H - a.P) a.SP + 1

def Args.wOut (a : Args) : UInt32 := divu (a.W - a.Q) a.SQ + 1

def Args.taps (a : Args) : UInt32 := a.C * a.P * a.Q

def Args.groups (a : Args) : UInt32 := a.F / fUnroll

def Args.plane (a : Args) : UInt32 := a.hOut * a.wOut

section Kernel

variable {R : Type} [CommRing R] (fmt : Format R) (a : Args)

def arm (c : Core R) : Core R :=
  { c with
    dm0 := (c.dm0.loop3d a.Q a.P a.C 4 (a.W * 4) (a.H * a.W * 4)).repeats fUnroll
    dm1 := c.dm1.loop2d fUnroll a.taps (a.taps * 4) 4 }

/-- `y[..] = has_bias ? v + pSrcBias[f] : v`. -/
def deliver (p f : UInt32) (v : R) (c : Core R) : Option (Core R) := do
  let v ← c.scalar (if a.hasBias then v + load fmt c.mem (cell a.bias f) else v)
  c.store fmt p v

/-- Output pixel `h`, `w` of filters `f` to `f + 3`. -/
def pixel (f h : UInt32) (c : Core R) (w : Nat) : Option (Core R) := do
  let w := UInt32.ofNat w
  let acc ← c.scalar fun _ : Nat => 0
  let c := { c with
    dm0 := c.dm0.read 2 (cell a.A (h * a.SP * a.W + w * a.SQ))
    dm1 := c.dm1.read 1 (cell a.B (f * a.taps)) }
  let y := f * a.hOut * a.wOut + h * a.wOut + w
  let (c, acc) ← streamed fmt (fun u => (y + UInt32.ofNat u * a.plane).toNat) fUnroll.toNat
    (a.taps - 1) (c, acc)
  (List.range fUnroll.toNat).foldlM (fun c u =>
    deliver fmt a (cell (cell a.Y y) (UInt32.ofNat u * a.plane)) (f + UInt32.ofNat u) (acc u) c) c

/-- `f` goes in steps of `F_UNROLL`. -/
def group (c : Core R) (g : Nat) : Option (Core R) :=
  (List.range a.hOut.toNat).foldlM (fun c h => (List.range a.wOut.toNat).foldlM
    (pixel fmt a (UInt32.ofNat g * fUnroll) (UInt32.ofNat h)) c) c

/-- Output pixel `h`, `w` of filter `f`. -/
def scalarPixel (f h : UInt32) (c : Core R) (w : Nat) : Option (Core R) := do
  let w := UInt32.ofNat w
  let y := f * a.hOut * a.wOut + h * a.wOut + w
  let (c, sum) ← (List.range a.C.toNat).foldlM (fun st ch =>
    (List.range a.P.toNat).foldlM (fun st p =>
      (List.range a.Q.toNat).foldlM (fun st q =>
        addProduct fmt y.toNat ((ch * a.P.toNat + p) * a.Q.toNat + q)
          (cell a.A (UInt32.ofNat ch * a.H * a.W + (h * a.SP + UInt32.ofNat p) * a.W +
            (w * a.SQ + UInt32.ofNat q)))
          (cell a.B (f * a.taps + UInt32.ofNat ch * a.P * a.Q + UInt32.ofNat p * a.Q +
            UInt32.ofNat q)) st) st) st) (c, 0)
  deliver fmt a (cell a.Y y) f sum c

/-- A filter past the last full group. -/
def filter (c : Core R) (d : Nat) : Option (Core R) :=
  (List.range a.hOut.toNat).foldlM (fun c h => (List.range a.wOut.toNat).foldlM
    (scalarPixel fmt a (a.groups * fUnroll + UInt32.ofNat d) (UInt32.ofNat h)) c) c

/-- `generic` is the kernel that the streamed one replaces. -/
def conv2dFp32 (generic : Args → Core R → Option (Core R)) (c : Core R) : Option (Core R) :=
  if a.groups = 0 ∨ a.taps = 0 ∨ a.hOut = 0 ∨ a.wOut = 0 then generic a c
  else do
    let c ← (List.range a.groups.toNat).foldlM (group fmt a) (arm a c)
    (List.range (a.F.toNat - (a.groups * fUnroll).toNat)).foldlM (filter fmt a) c

end Kernel

/-! ### The convolution -/

/-- The shape, in whole numbers. -/
def Args.shape (a : Args) : Kernels.Convolution where
  C := a.C.toNat
  H := a.H.toNat
  W := a.W.toNat
  P := a.P.toNat
  Q := a.Q.toNat
  SP := a.SP.toNat
  SQ := a.SQ.toNat
  hOut := outExtent a.H a.P a.SP
  wOut := outExtent a.W a.Q a.SQ
  hasBias := a.hasBias

/-- The pixels of an output plane. -/
def Args.pixels (a : Args) : Nat := a.shape.hOut * a.shape.wOut

/-- The taps of a filter. -/
def Args.window (a : Args) : Nat := a.C.toNat * a.P.toNat * a.Q.toNat

/-- The element of `A` in the window of pixel `x` at tap `k`: by channel, row and column. -/
def Args.input (a : Args) (x k : Nat) : Nat :=
  (k / a.Q.toNat / a.P.toNat * a.H.toNat +
      (x / a.shape.wOut * a.SP.toNat + k / a.Q.toNat % a.P.toNat)) * a.W.toNat +
    (x % a.shape.wOut * a.SQ.toNat + k % a.Q.toNat)

/-- Tap `k` of the output of filter `f` at pixel `x`. -/
def Args.term (a : Args) (f x k : Nat) : Term :=
  { output := f * a.pixels + x
    tap := k
    left := cell a.A (UInt32.ofNat (a.input x k))
    right := cell a.B (UInt32.ofNat (f * a.window + k)) }

/-- The term of tap `c`, `p`, `q` of the output `f`, `h`, `w`. -/
def Args.tap (a : Args) (f h w c p q : Nat) : Term :=
  { output := f * a.pixels + (h * a.shape.wOut + w)
    tap := (c * a.P.toNat + p) * a.Q.toNat + q
    left := cell a.A (UInt32.ofNat
      ((c * a.H.toNat + (h * a.SP.toNat + p)) * a.W.toNat + (w * a.SQ.toNat + q)))
    right := cell a.B (UInt32.ofNat (f * a.window + ((c * a.P.toNat + p) * a.Q.toNat + q))) }

/-- Element `e` of the convolution. -/
def convolution {R : Type} [CommRing R] (fmt : Format R) (a : Args) (mem : Mem) (e : Nat) : R :=
  Kernels.conv2d a.shape (floats fmt mem a.A) (floats fmt mem a.B) (floats fmt mem a.bias) e

/-- The input covers a window, there is a full group, the arrays fit, and nothing is read
through another pointer than `Y` that `Y` is stored to. -/
structure Fits (a : Args) : Prop where
  channels : 0 < a.C.toNat
  filters : 4 ≤ a.F.toNat
  rows : 0 < a.P.toNat
  columns : 0 < a.Q.toNat
  down : 0 < a.SP.toNat
  across : 0 < a.SQ.toNat
  high : a.P ≤ a.H
  wide : a.Q ≤ a.W
  roomA : a.A.toNat + 4 * (a.C.toNat * a.H.toNat * a.W.toNat) ≤ 2 ^ 32
  roomB : a.B.toNat + 4 * (a.F.toNat * a.window) ≤ 2 ^ 32
  roomBias : a.hasBias = true → a.bias.toNat + 4 * a.F.toNat ≤ 2 ^ 32
  roomY : a.Y.toNat + 4 * (a.F.toNat * a.pixels) ≤ 2 ^ 32
  apartA : disjoint a.Y (a.F.toNat * a.pixels) a.A (a.C.toNat * a.H.toNat * a.W.toNat)
  apartB : disjoint a.Y (a.F.toNat * a.pixels) a.B (a.F.toNat * a.window)
  apartBias : a.hasBias = true → disjoint a.Y (a.F.toNat * a.pixels) a.bias a.F.toNat

/-! ### Sizes that do not wrap -/

theorem window_cast (a : Args) : a.taps = UInt32.ofNat a.window := by
  rw [Args.window, UInt32.ofNat_mul, UInt32.ofNat_mul, UInt32.ofNat_toNat, UInt32.ofNat_toNat,
    UInt32.ofNat_toNat, Args.taps]

theorem groups_exact (a : Args) : a.groups.toNat = a.F.toNat / 4 := UInt32.toNat_div _ _

theorem groups_inside (a : Args) : 4 * a.groups.toNat ≤ a.F.toNat := by
  rw [groups_exact]
  exact Nat.mul_div_le _ _

theorem out_small {H P : UInt32} (SP : UInt32) (fits : P ≤ H) (nonempty : 0 < P.toNat) :
    outExtent H P SP < 2 ^ 32 := by
  have within : P.toNat ≤ H.toNat := UInt32.le_iff_toNat_le.mp fits
  have shrunk := Nat.div_le_self (H.toNat - P.toNat) SP.toNat
  have bound := H.toNat_lt
  rw [outExtent]
  omega

theorem input_at {a : Args} (h : Nat) {w : Nat} (col : w < a.shape.wOut) (c : Nat) {p q : Nat}
    (row : p < a.P.toNat) (column : q < a.Q.toNat) :
    a.input (h * a.shape.wOut + w) ((c * a.P.toNat + p) * a.Q.toNat + q) =
      (c * a.H.toNat + (h * a.SP.toNat + p)) * a.W.toNat + (w * a.SQ.toNat + q) := by
  obtain ⟨across, down⟩ := split_digit h col
  obtain ⟨last, line⟩ := split_digit (c * a.P.toNat + p) column
  obtain ⟨mid, channel⟩ := split_digit c row
  simp only [Args.input, across, down, last, line, mid, channel]

theorem input_cast {a : Args} (h : Nat) {w : Nat} (col : w < a.shape.wOut) (c : Nat) {p q : Nat}
    (row : p < a.P.toNat) (column : q < a.Q.toNat) :
    UInt32.ofNat c * a.H * a.W + (UInt32.ofNat h * a.SP + UInt32.ofNat p) * a.W +
      (UInt32.ofNat w * a.SQ + UInt32.ofNat q) =
      UInt32.ofNat (a.input (h * a.shape.wOut + w) ((c * a.P.toNat + p) * a.Q.toNat + q)) := by
  simp only [input_at h col c row column, ofNat_cast]
  push_cast [cast_toNat]
  ring

theorem weight_cast (a : Args) (f c p q : Nat) :
    UInt32.ofNat f * a.taps + UInt32.ofNat c * a.P * a.Q + UInt32.ofNat p * a.Q + UInt32.ofNat q =
      UInt32.ofNat (f * a.window + ((c * a.P.toNat + p) * a.Q.toNat + q)) := by
  simp only [window_cast, ofNat_cast]
  push_cast [cast_toNat]
  ring

theorem plane_count (a : Args) (f h w : Nat) :
    (f * a.shape.hOut + h) * a.shape.wOut + w = f * a.pixels + (h * a.shape.wOut + w) := by
  rw [Args.pixels]
  ring

section Sizes

variable {a : Args} (fits : Fits a)

include fits

theorem window_some : 0 < a.window :=
  Nat.mul_pos (Nat.mul_pos fits.channels fits.rows) fits.columns

theorem window_exact : a.taps.toNat = a.window := by
  refine exact_of_cast (window_cast a) ?_
  have room := fits.roomB
  have several := Nat.mul_le_mul_right a.window fits.filters
  have nonempty := window_some fits
  omega

theorem hOut_exact : a.hOut.toNat = a.shape.hOut :=
  out_exact fits.high (UInt32.le_iff_toNat_le.mpr fits.down) (out_small a.SP fits.high fits.rows)

theorem wOut_exact : a.wOut.toNat = a.shape.wOut :=
  out_exact fits.wide (UInt32.le_iff_toNat_le.mpr fits.across)
    (out_small a.SQ fits.wide fits.columns)

theorem hOut_cast : a.hOut = UInt32.ofNat a.shape.hOut := by
  rw [← hOut_exact fits, UInt32.ofNat_toNat]

theorem wOut_cast : a.wOut = UInt32.ofNat a.shape.wOut := by
  rw [← wOut_exact fits, UInt32.ofNat_toNat]

theorem spot_cast (f u h w : Nat) :
    UInt32.ofNat f * a.hOut * a.wOut + UInt32.ofNat h * a.wOut + UInt32.ofNat w +
      UInt32.ofNat u * a.plane =
      UInt32.ofNat ((f + u) * a.pixels + (h * a.shape.wOut + w)) := by
  simp only [Args.plane, hOut_cast fits, wOut_cast fits, Args.pixels, ofNat_cast]
  push_cast
  ring

theorem planes_count (n : Nat) : n * a.hOut.toNat * a.wOut.toNat = n * a.pixels := by
  rw [hOut_exact fits, wOut_exact fits, Nat.mul_assoc]
  rfl

theorem pixel_cast (f h w : Nat) :
    UInt32.ofNat f * a.hOut * a.wOut + UInt32.ofNat h * a.wOut + UInt32.ofNat w =
      UInt32.ofNat (f * a.pixels + (h * a.shape.wOut + w)) := by
  simpa [ofNat_cast] using spot_cast fits f 0 h w

theorem spot_inside {f x : Nat} (filter : f < a.F.toNat) (pixel : x < a.pixels) :
    f * a.pixels + x < a.F.toNat * a.pixels ∧ f * a.pixels + x < 2 ^ 32 := by
  have inside := Kernels.entry_lt filter pixel
  have room := fits.roomY
  exact ⟨inside, by omega⟩

end Sizes

/-! ### What the streams give -/

def Args.programA (a : Args) : List (UInt32 × UInt32) :=
  [(a.Q, 4), (a.P, a.W * 4), (a.C, a.H * a.W * 4)]

def Args.programB (a : Args) : List (UInt32 × UInt32) := [(fUnroll, a.taps * 4), (a.taps, 4)]

/-- The window of pixel `x`; every element is given `F_UNROLL` times. -/
def Args.feedA (a : Args) (x : Nat) : Feed :=
  ⟨3, a.programA, cell a.A (UInt32.ofNat
    (x / a.shape.wOut * a.SP.toNat * a.W.toNat + x % a.shape.wOut * a.SQ.toNat))⟩

/-- The weights of filter `f` and the three next. -/
def Args.feedB (a : Args) (f : Nat) : Feed :=
  ⟨0, a.programB, cell a.B (UInt32.ofNat (f * a.window))⟩

theorem tap_digits {C P Q k : Nat} (inside : k < C * P * Q) :
    k / Q / P < C ∧ k / Q % P < P ∧ k % Q < Q ∧ (k / Q / P * P + k / Q % P) * Q + k % Q = k := by
  obtain ⟨line, column⟩ := Kernels.row_col inside
  obtain ⟨channel, row⟩ := Kernels.row_col line
  refine ⟨channel, row, column, ?_⟩
  rw [Nat.div_add_mod', Nat.div_add_mod']

theorem count_a {a : Args} (channels : 0 < a.C.toNat) (rows : 0 < a.P.toNat)
    (columns : 0 < a.Q.toNat) (x : Nat) : (a.feedA x).count = a.window * 4 := by
  simp only [Feed.count, Args.feedA, given, nest, Args.programA, size, List.map_cons, List.map_nil,
    count_exact columns, count_exact rows, count_exact channels, Args.window]
  ring

theorem count_b {a : Args} (nonempty : 0 < a.window) (exact : a.taps.toNat = a.window) (f : Nat) :
    (a.feedB f).count = a.window * 4 := by
  have four : (fUnroll - 1).toNat + 1 = 4 := rfl
  have several : 0 < a.taps.toNat := nonempty.trans_eq exact.symm
  simp only [Feed.count, Args.feedB, given, nest, Args.programB, size, List.map_cons, List.map_nil,
    count_exact several, four, exact]
  ring

section Streams

variable {a : Args} (fits : Fits a)

include fits

variable {k u : Nat} (tap : k < a.window) (filter : u < 4)

include tap filter

theorem element_a (x : Nat) :
    (a.feedA x).element (k * 4 + u) = cell a.A (UInt32.ofNat (a.input x k)) := by
  obtain ⟨channel, row, column, together⟩ := tap_digits tap
  have spot : position (given 3 (nest a.programA))
      [u, k % a.Q.toNat, k / a.Q.toNat % a.P.toNat, k / a.Q.toNat / a.P.toNat] = k * 4 + u := by
    simp [position, given, nest, Args.programA, count_exact fits.columns, count_exact fits.rows,
      together]
  have found := element_position (a.feedA x)
    [u, k % a.Q.toNat, k / a.Q.toNat % a.P.toNat, k / a.Q.toNat / a.P.toNat]
    ⟨Nat.le_of_lt_succ filter, last_le column, last_le row, last_le channel, trivial⟩
  rw [← spot]
  refine found.trans ?_
  simp only [Args.feedA, reach, given, nest, Args.programA, List.map_cons, List.map_nil, cell,
    Args.input, ofNat_cast]
  push_cast [cast_toNat]
  ring

theorem element_b (f : Nat) :
    (a.feedB f).element (k * 4 + u) = cell a.B (UInt32.ofNat ((f + u) * a.window + k)) := by
  have inside : k < a.taps.toNat := tap.trans_eq (window_exact fits).symm
  have first : u < fUnroll.toNat := filter
  have four : (fUnroll - 1).toNat + 1 = 4 := rfl
  have spot : position (given 0 (nest a.programB)) [0, u, k] = k * 4 + u := by
    simp [position, given, nest, Args.programB, four]
  have found := element_position (a.feedB f) [0, u, k]
    ⟨le_rfl, last_le first, last_le inside, trivial⟩
  rw [← spot]
  refine found.trans ?_
  simp only [Args.feedB, reach, given, nest, Args.programB, List.map_cons, List.map_nil, cell,
    ofNat_cast, window_cast]
  push_cast
  ring

end Streams

/-! ### A pixel -/

/-- The terms of pixel `x` of filters `f` to `f + 3`, as they are accumulated. -/
def Args.pixelTerms (a : Args) (f x : Nat) : List Term :=
  (List.range a.window).flatMap fun k => (List.range 4).map fun u => a.term (f + u) x k

section Pixels

variable {R : Type} [CommRing R] (fmt : Format R)

theorem convolution_eq (a : Args) (mem : Mem) (f : Nat) {x : Nat} (pixel : x < a.pixels) :
    convolution fmt a mem (f * a.pixels + x) =
      ∑ k ∈ Finset.range a.window,
        floats fmt mem a.A (a.input x k) * floats fmt mem a.B (f * a.window + k) +
      if a.hasBias then floats fmt mem a.bias f else 0 := by
  have split := split_digit f pixel
  have plane : a.shape.hOut * a.shape.wOut = a.pixels := rfl
  -- One sum over the taps is the three sums by channel, row and column.
  have sums : ∑ k ∈ Finset.range a.window,
        floats fmt mem a.A (a.input x k) * floats fmt mem a.B (f * a.window + k) =
      ∑ c ∈ Finset.range a.C.toNat, ∑ p ∈ Finset.range a.P.toNat, ∑ q ∈ Finset.range a.Q.toNat,
        floats fmt mem a.A (c * a.H.toNat * a.W.toNat +
            (x / a.shape.wOut * a.SP.toNat + p) * a.W.toNat +
            (x % a.shape.wOut * a.SQ.toNat + q)) *
          floats fmt mem a.B (f * (a.C.toNat * a.P.toNat * a.Q.toNat) + c * a.P.toNat * a.Q.toNat +
            p * a.Q.toNat + q) := by
    rw [Args.window, sum_digits, sum_digits]
    refine Finset.sum_congr rfl fun c _ => Finset.sum_congr rfl fun p row =>
      Finset.sum_congr rfl fun q column => ?_
    obtain ⟨last, line⟩ := split_digit (c * a.P.toNat + p) (Finset.mem_range.mp column)
    obtain ⟨mid, channel⟩ := split_digit c (Finset.mem_range.mp row)
    simp only [Args.input, last, line, mid, channel]
    congr 2 <;> ring
  rw [sums]
  simp only [convolution, Kernels.conv2d, plane, split.1, split.2]
  rw [add_ite, add_zero]
  rfl

variable {fmt} {a : Args} (fits : Fits a)

include fits

theorem terms_pixel {f h w : Nat} (filters : f + 4 ≤ a.F.toNat) (row : h < a.shape.hOut)
    (col : w < a.shape.wOut) :
    terms (a.feedA (h * a.shape.wOut + w)) (a.feedB f) (fun u => (UInt32.ofNat f * a.hOut * a.wOut +
      UInt32.ofNat h * a.wOut + UInt32.ofNat w + UInt32.ofNat u * a.plane).toNat) 4 0 a.window =
      a.pixelTerms f (h * a.shape.wOut + w) := by
  refine List.flatMap_congr fun k below => List.map_congr_left fun u member => ?_
  have tap := List.mem_range.mp below
  have filter := List.mem_range.mp member
  have spot := exact_of_cast (spot_cast fits f u h w)
    (spot_inside fits (by omega) (Kernels.entry_lt row col)).2
  dsimp only
  rw [spot, Nat.zero_add, element_a fits tap filter, element_b fits tap filter]
  rfl

variable (fmt) in
theorem pixel_streams {c : Core R} {f h w : Nat} (filters : f + 4 ≤ a.F.toNat)
    (row : h < a.shape.hOut) (col : w < a.shape.wOut) (programA : Programmed c.dm0 a.programA 3)
    (programB : Programmed c.dm1 a.programB 0) :
    ∃ next acc, streamed fmt (fun u => (UInt32.ofNat f * a.hOut * a.wOut +
        UInt32.ofNat h * a.wOut + UInt32.ofNat w + UInt32.ofNat u * a.plane).toNat) 4 (a.taps - 1)
        ({ c with
          dm0 := c.dm0.read 2 (cell a.A (UInt32.ofNat h * a.SP * a.W + UInt32.ofNat w * a.SQ))
          dm1 := c.dm1.read 1 (cell a.B (UInt32.ofNat f * a.taps)) }, fun _ => 0) =
        some (next, acc) ∧
      Did fmt c next
        { fmas := a.pixelTerms f (h * a.shape.wOut + w), ends := [(true, true)] } ∧
      Programmed next.dm0 a.programA 3 ∧ Programmed next.dm1 a.programB 0 ∧
      ∀ u < 4, acc u = ∑ k ∈ Finset.range a.window,
        load fmt c.mem (a.term (f + u) (h * a.shape.wOut + w) k).left *
          load fmt c.mem (a.term (f + u) (h * a.shape.wOut + w) k).right := by
  obtain ⟨across, down⟩ := split_digit h col
  have last : (a.taps - 1).toNat + 1 = a.window := by
    rw [count_exact ((window_some fits).trans_eq (window_exact fits).symm), window_exact fits]
  -- Both streams are armed again, so they stand at their first element.
  have feedA : Feeds (c.dm0.read 2 (cell a.A (UInt32.ofNat h * a.SP * a.W + UInt32.ofNat w * a.SQ)))
      (a.feedA (h * a.shape.wOut + w)) 0 := by
    have depth : a.programA.length = 2 + 1 := rfl
    have feeds := read_feeds programA depth
      (cell a.A (UInt32.ofNat h * a.SP * a.W + UInt32.ofNat w * a.SQ))
    simpa only [Args.feedA, across, down, UInt32.ofNat_add, UInt32.ofNat_mul, UInt32.ofNat_toNat]
      using feeds
  have feedB : Feeds (c.dm1.read 1 (cell a.B (UInt32.ofNat f * a.taps))) (a.feedB f) 0 := by
    have depth : a.programB.length = 1 + 1 := rfl
    have feeds := read_feeds programB depth (cell a.B (UInt32.ofNat f * a.taps))
    simpa only [Args.feedB, window_cast, UInt32.ofNat_mul] using feeds
  have countA := count_a fits.channels fits.rows fits.columns (h * a.shape.wOut + w)
  have countB := count_b (window_some fits) (window_exact fits) f
  have runs := streamed_runs fmt _ _ (fun u => (UInt32.ofNat f * a.hOut * a.wOut +
      UInt32.ofNat h * a.wOut + UInt32.ofNat w + UInt32.ofNat u * a.plane).toNat)
    (c := { c with
      dm0 := c.dm0.read 2 (cell a.A (UInt32.ofNat h * a.SP * a.W + UInt32.ofNat w * a.SQ))
      dm1 := c.dm1.read 1 (cell a.B (UInt32.ofNat f * a.taps)) })
    (fun _ => 0) 4 (a.taps - 1) feedA feedB
    (by rw [last, countA, Nat.zero_add]) (by rw [last, countB, Nat.zero_add])
  rw [last, terms_pixel fits filters row col, Nat.zero_add] at runs
  obtain ⟨next, acc, ended, did, doneA, doneB, sums⟩ := runs
  -- The repetition takes as many elements as either stream has.
  have endedA := doneA.taken.done countA.le
  have endedB := doneB.taken.done countB.le
  rw [endedA, endedB] at did
  refine ⟨next, acc, ended, ⟨did.off, did.logged, did.mem⟩, doneA.programmed, doneB.programmed,
    fun u filter => ?_⟩
  rw [sums u filter, zero_add]
  refine Finset.sum_congr rfl fun k member => ?_
  have tap := Finset.mem_range.mp member
  rw [Nat.zero_add, SnitchSsr.product, element_a fits tap filter, element_b fits tap filter]
  rfl

/-- The element at pixel `x` of filter `f`, stored. -/
def put (fmt : Format R) (a : Args) (mem : Mem) (f x : Nat) : Nat × R :=
  (a.Y.toNat + 4 * (f * a.pixels + x), convolution fmt a mem (f * a.pixels + x))

/-- The stores are to the output. -/
def Inside (a : Args) (stores : List (Nat × R)) : Prop :=
  ∀ s ∈ stores, ∃ e < a.F.toNat * a.pixels, s.1 = a.Y.toNat + 4 * e

omit [CommRing R] fits in
theorem Inside.append {stores more : List (Nat × R)} (first : Inside a stores)
    (second : Inside a more) : Inside a (stores ++ more) :=
  fun s member => (List.mem_append.mp member).elim (first s) (second s)

omit fits in
theorem puts_inside (fmt : Format R) (mem : Mem) {n : Nat} {f x : Nat → Nat}
    (places : ∀ i < n, f i < a.F.toNat ∧ x i < a.pixels) :
    Inside a ((List.range n).map fun i => put fmt a mem (f i) (x i)) := by
  intro s member
  obtain ⟨i, below, rfl⟩ := List.mem_map.mp member
  obtain ⟨filter, pixel⟩ := places i (List.mem_range.mp below)
  exact ⟨_, Kernels.entry_lt filter pixel, rfl⟩

theorem input_inside {x k : Nat} (pixel : x < a.pixels) (tap : k < a.window) :
    a.input x k < a.C.toNat * a.H.toNat * a.W.toNat := by
  obtain ⟨row, col⟩ := Kernels.row_col pixel
  obtain ⟨channel, line, column, _⟩ := tap_digits tap
  have y := Kernels.window_lt (UInt32.le_iff_toNat_le.mp fits.high) row line
  have x := Kernels.window_lt (UInt32.le_iff_toNat_le.mp fits.wide) col column
  exact Kernels.entry_lt (Kernels.entry_lt channel y) x

section Steps

variable {core c : Core R} {log : Log R} (did : Did fmt core c log)
  (inside : Inside a log.stores)

include did inside

theorem tap_kept {f x k : Nat} (filter : f < a.F.toNat) (pixel : x < a.pixels)
    (tap : k < a.window) :
    load fmt c.mem (a.term f x k).left * load fmt c.mem (a.term f x k).right =
      floats fmt core.mem a.A (a.input x k) * floats fmt core.mem a.B (f * a.window + k) :=
  congrArg₂ _
    (load_kept fmt did fits.apartA inside fits.roomA rfl (input_inside fits pixel tap))
    (load_kept fmt did fits.apartB inside fits.roomB rfl (Kernels.entry_lt filter tap))

theorem deliver_did {f x : Nat} (filter : f < a.F.toNat) (pixel : x < a.pixels) {p fv : UInt32}
    (place : p = cell a.Y (UInt32.ofNat (f * a.pixels + x))) (same : fv = UInt32.ofNat f) {v : R}
    (sum : v = ∑ k ∈ Finset.range a.window,
      floats fmt core.mem a.A (a.input x k) * floats fmt core.mem a.B (f * a.window + k)) :
    ∃ next, deliver fmt a p fv v c = some next ∧
      Did fmt core next (log ++ { stores := [put fmt a core.mem f x] }) ∧ Kept c next := by
  have value : (if a.hasBias then v + load fmt c.mem (cell a.bias fv) else v) =
      convolution fmt a core.mem (f * a.pixels + x) := by
    rw [convolution_eq fmt a core.mem f pixel, ← sum, add_ite, add_zero]
    by_cases bias : a.hasBias = true
    · rw [if_pos bias, if_pos bias, load_kept fmt did (fits.apartBias bias) inside
        (fits.roomBias bias) same filter]
    · rw [if_neg bias, if_neg bias]
  obtain ⟨next, stored, stores, kept⟩ := store_did fmt did.off p
    (if a.hasBias then v + load fmt c.mem (cell a.bias fv) else v)
  refine ⟨next, bind_some (scalar_off did.off _) stored, ?_, kept⟩
  rw [value, place, cell_exact rfl fits.roomY (spot_inside fits filter pixel).1] at stores
  exact did.trans stores

theorem pixel_did {f h w : Nat} (filters : f + 4 ≤ a.F.toNat) (row : h < a.shape.hOut)
    (col : w < a.shape.wOut) (programA : Programmed c.dm0 a.programA 3)
    (programB : Programmed c.dm1 a.programB 0) :
    ∃ next, pixel fmt a (UInt32.ofNat f) (UInt32.ofNat h) c w = some next ∧
      Did fmt core next (log ++
        { fmas := a.pixelTerms f (h * a.shape.wOut + w)
          stores := (List.range 4).map fun u => put fmt a core.mem (f + u) (h * a.shape.wOut + w)
          ends := [(true, true)] }) ∧
      Programmed next.dm0 a.programA 3 ∧ Programmed next.dm1 a.programB 0 := by
  have here : h * a.shape.wOut + w < a.pixels := Kernels.entry_lt row col
  obtain ⟨mid, acc, ended, region, midA, midB, sums⟩ :=
    pixel_streams fmt fits filters row col programA programB
  have before := did.trans region
  have runs := loop_runs (fun n now =>
      Did fmt core now
        (log ++ { fmas := a.pixelTerms f (h * a.shape.wOut + w), ends := [(true, true)] } ++
        { stores := (List.range n).map fun u =>
            put fmt a core.mem (f + u) (h * a.shape.wOut + w) }) ∧ Kept mid now)
    (fun c u => deliver fmt a (cell (cell a.Y (UInt32.ofNat f * a.hOut * a.wOut +
        UInt32.ofNat h * a.wOut + UInt32.ofNat w)) (UInt32.ofNat u * a.plane))
      (UInt32.ofNat f + UInt32.ofNat u) (acc u) c) 4 mid ⟨?_, rfl, rfl⟩ ?_
  · obtain ⟨next, stored, stores, kept⟩ := runs
    have four : fUnroll.toNat = 4 := rfl
    refine ⟨next, ?_, ?_, kept.dm0 ▸ midA, kept.dm1 ▸ midB⟩
    · rw [pixel, four]
      exact bind_some (scalar_off did.off _) (bind_some ended stored)
    · rw [log_append] at stores
      simpa only [log_mk, List.append_nil, List.nil_append] using stores
  · rwa [List.range_zero, List.map_nil, log_empty]
  · rintro u filter now ⟨stores, kept⟩
    -- The stores before this one are to the output, so `A`, `B` and the bias still stand.
    have places : Inside a (log ++ { fmas := a.pixelTerms f (h * a.shape.wOut + w)
                                     ends := [(true, true)] } ++
        { stores := (List.range u).map fun u =>
            put fmt a core.mem (f + u) (h * a.shape.wOut + w) } : Log R).stores := by
      refine ((inside.append fun s none => ?_)).append
        (puts_inside fmt core.mem fun i below => ⟨by omega, here⟩)
      exact absurd none List.not_mem_nil
    have sum : acc u = ∑ k ∈ Finset.range a.window,
        floats fmt core.mem a.A (a.input (h * a.shape.wOut + w) k) *
          floats fmt core.mem a.B ((f + u) * a.window + k) :=
      (sums u filter).trans (Finset.sum_congr rfl fun k member =>
        tap_kept fits did inside (by omega) here (Finset.mem_range.mp member))
    have place : cell (cell a.Y (UInt32.ofNat f * a.hOut * a.wOut + UInt32.ofNat h * a.wOut +
        UInt32.ofNat w)) (UInt32.ofNat u * a.plane) =
        cell a.Y (UInt32.ofNat ((f + u) * a.pixels + (h * a.shape.wOut + w))) := by
      rw [cell_cell, spot_cast fits]
    obtain ⟨next, ended, did, same⟩ := deliver_did fits stores places (by omega) here place
      (UInt32.ofNat_add f u).symm sum
    refine ⟨next, ended, ?_, kept.trans same⟩
    rw [log_append] at did
    rw [List.range_succ, List.map_append]
    exact did

omit inside in
theorem taps_did {f h w : Nat} (filter : f < a.F.toNat) (row : h < a.shape.hOut)
    (col : w < a.shape.wOut) :
    ∃ next, (List.range a.C.toNat).foldlM (fun st ch =>
      (List.range a.P.toNat).foldlM (fun st p =>
        (List.range a.Q.toNat).foldlM (fun st q =>
          addProduct fmt (UInt32.ofNat f * a.hOut * a.wOut + UInt32.ofNat h * a.wOut +
              UInt32.ofNat w).toNat ((ch * a.P.toNat + p) * a.Q.toNat + q)
            (cell a.A
              (UInt32.ofNat ch * a.H * a.W + (UInt32.ofNat h * a.SP + UInt32.ofNat p) * a.W +
              (UInt32.ofNat w * a.SQ + UInt32.ofNat q)))
            (cell a.B (UInt32.ofNat f * a.taps + UInt32.ofNat ch * a.P * a.Q +
              UInt32.ofNat p * a.Q +
              UInt32.ofNat q)) st) st) st) (c, 0) = some next ∧
      Summed fmt c (f * a.pixels + (h * a.shape.wOut + w))
        (fun k => (a.term f (h * a.shape.wOut + w) k).left)
        (fun k => (a.term f (h * a.shape.wOut + w) k).right) a.window next := by
  have spot := exact_of_cast (pixel_cast fits f h w)
    (spot_inside fits filter (Kernels.entry_lt row col)).2
  rw [spot]
  refine three_loops_run (Summed fmt c (f * a.pixels + (h * a.shape.wOut + w))
      (fun k => (a.term f (h * a.shape.wOut + w) k).left)
      (fun k => (a.term f (h * a.shape.wOut + w) k).right)) _ a.C.toNat a.P.toNat a.Q.toNat (c, 0)
    (summed_none fmt did.off ..) fun ch channel p line q column st so => ?_
  obtain ⟨next, added, more⟩ := summed_next fmt so
  refine ⟨next, ?_, more⟩
  rw [input_cast h col ch line column, weight_cast]
  exact added

theorem scalarPixel_did {f h w : Nat} (filter : f < a.F.toNat) (row : h < a.shape.hOut)
    (col : w < a.shape.wOut) :
    ∃ next, scalarPixel fmt a (UInt32.ofNat f) (UInt32.ofNat h) c w = some next ∧
      Did fmt core next (log ++
        { products := (List.range a.window).map (a.term f (h * a.shape.wOut + w))
          stores := [put fmt a core.mem f (h * a.shape.wOut + w)] }) ∧
      Kept c next := by
  have here : h * a.shape.wOut + w < a.pixels := Kernels.entry_lt row col
  obtain ⟨⟨mid, sum⟩, ended, total, products, kept⟩ := taps_did fits did filter row col
  have place : cell a.Y (UInt32.ofNat f * a.hOut * a.wOut + UInt32.ofNat h * a.wOut +
      UInt32.ofNat w) = cell a.Y (UInt32.ofNat (f * a.pixels + (h * a.shape.wOut + w))) := by
    rw [pixel_cast fits]
  have before := did.trans products
  obtain ⟨next, stored, after, same⟩ := deliver_did fits before
    (inside.append fun s none => absurd none List.not_mem_nil) filter here place rfl
    (total.trans (Finset.sum_congr rfl fun k member =>
      tap_kept fits did inside filter here (Finset.mem_range.mp member)))
  rw [log_append] at after
  simp only [log_mk, List.append_nil, List.nil_append] at after
  exact ⟨next, bind_some ended stored, after, kept.trans same⟩

end Steps

end Pixels

/-! ### The run -/

section Runs

variable {R : Type} [CommRing R]

/-- The terms of the first `n` pixels of the groups. -/
def Args.groupTerms (a : Args) (n : Nat) : List Term :=
  (List.range n).flatMap fun i => a.pixelTerms (4 * (i / a.pixels)) (i % a.pixels)

/-- The terms of the first `n` pixels of the filters past the last group. -/
def Args.restTerms (a : Args) (n : Nat) : List Term :=
  (List.range n).flatMap fun i =>
    (List.range a.window).map (a.term (4 * a.groups.toNat + i / a.pixels) (i % a.pixels))

def groupStores (fmt : Format R) (a : Args) (mem : Mem) (n : Nat) : List (Nat × R) :=
  (List.range n).flatMap fun i =>
    (List.range 4).map fun u => put fmt a mem (4 * (i / a.pixels) + u) (i % a.pixels)

def restStores (fmt : Format R) (a : Args) (mem : Mem) (n : Nat) : List (Nat × R) :=
  (List.range n).map fun i =>
    put fmt a mem (4 * a.groups.toNat + i / a.pixels) (i % a.pixels)

/-- What was done after `n` pixels of the groups and `m` of the filters past them. -/
def done (fmt : Format R) (a : Args) (mem : Mem) (n m : Nat) : Log R where
  fmas := a.groupTerms n
  products := a.restTerms m
  stores := groupStores fmt a mem n ++ restStores fmt a mem m
  ends := List.replicate n (true, true)

variable {fmt : Format R} {a : Args}

theorem group_inside {n i : Nat} (within : n ≤ a.groups.toNat * a.pixels) (below : i < n) :
    4 * (i / a.pixels) + 4 ≤ a.F.toNat ∧ i % a.pixels < a.pixels := by
  obtain ⟨group, pixel⟩ := Kernels.row_col (below.trans_le within)
  have all := groups_inside a
  exact ⟨by omega, pixel⟩

theorem rest_inside {n i : Nat} (within : n ≤ (a.F.toNat - 4 * a.groups.toNat) * a.pixels)
    (below : i < n) :
    4 * a.groups.toNat + i / a.pixels < a.F.toNat ∧ i % a.pixels < a.pixels := by
  obtain ⟨filter, pixel⟩ := Kernels.row_col (below.trans_le within)
  exact ⟨Nat.add_lt_of_lt_sub' filter, pixel⟩

theorem groupStores_inside (fmt : Format R) (mem : Mem) {n : Nat}
    (within : n ≤ a.groups.toNat * a.pixels) :
    Inside a (groupStores fmt a mem n) := by
  intro s member
  obtain ⟨i, below, found⟩ := List.mem_flatMap.mp member
  obtain ⟨filters, pixel⟩ := group_inside within (List.mem_range.mp below)
  exact puts_inside fmt mem (fun u filter => ⟨by omega, pixel⟩) s found

theorem restStores_inside (fmt : Format R) (mem : Mem) {n : Nat}
    (within : n ≤ (a.F.toNat - 4 * a.groups.toNat) * a.pixels) :
    Inside a (restStores fmt a mem n) :=
  puts_inside fmt mem fun _ below => rest_inside within below

theorem done_group (mem : Mem) (n : Nat) :
    done fmt a mem (n + 1) 0 = done fmt a mem n 0 ++
      { fmas := a.pixelTerms (4 * (n / a.pixels)) (n % a.pixels)
        stores := (List.range 4).map fun u =>
          put fmt a mem (4 * (n / a.pixels) + u) (n % a.pixels)
        ends := [(true, true)] } := by
  simp only [done, Args.groupTerms, Args.restTerms, groupStores, restStores, List.range_succ,
    List.flatMap_append, List.flatMap_singleton, List.replicate_succ', List.range_zero,
    List.map_nil, List.flatMap_nil, List.append_nil, log_mk]

theorem done_rest (mem : Mem) (n m : Nat) :
    done fmt a mem n (m + 1) = done fmt a mem n m ++
      { products := (List.range a.window).map
          (a.term (4 * a.groups.toNat + m / a.pixels) (m % a.pixels))
        stores := [put fmt a mem (4 * a.groups.toNat + m / a.pixels) (m % a.pixels)] } := by
  simp only [done, Args.restTerms, restStores, List.range_succ, List.flatMap_append,
    List.flatMap_singleton, List.map_append, List.map_singleton, List.append_nil, log_mk,
    List.append_assoc]

variable (fits : Fits a) {core : Core R}

include fits

theorem groups_run {c : Core R} (start : Did fmt core c {})
    (programA : Programmed c.dm0 a.programA 3) (programB : Programmed c.dm1 a.programB 0) :
    ∃ next, (List.range a.groups.toNat).foldlM (group fmt a) c = some next ∧
      Did fmt core next (done fmt a core.mem (a.groups.toNat * a.pixels) 0) ∧
      Programmed next.dm0 a.programA 3 ∧ Programmed next.dm1 a.programB 0 := by
  have runs := three_loops_run (fun n next => Did fmt core next (done fmt a core.mem n 0) ∧
      Programmed next.dm0 a.programA 3 ∧ Programmed next.dm1 a.programB 0)
    (fun g h => pixel fmt a (UInt32.ofNat g * fUnroll) (UInt32.ofNat h))
    a.groups.toNat a.hOut.toNat a.wOut.toNat c ⟨start, programA, programB⟩ ?_
  · rw [planes_count fits] at runs
    exact runs
  · rw [hOut_exact fits, wOut_exact fits]
    rintro g inside h row w col now ⟨did, programA, programB⟩
    have here : h * a.shape.wOut + w < a.pixels := Kernels.entry_lt row col
    have below : g * a.pixels + (h * a.shape.wOut + w) < a.groups.toNat * a.pixels :=
      Kernels.entry_lt inside here
    obtain ⟨filters, _⟩ := group_inside le_rfl below
    obtain ⟨pixel, which⟩ := split_digit g here
    have filter : UInt32.ofNat g * fUnroll = UInt32.ofNat (4 * g) := by
      rw [Nat.mul_comm, UInt32.ofNat_mul]
      rfl
    have spot : (g * a.shape.hOut + h) * a.shape.wOut + w =
        g * a.pixels + (h * a.shape.wOut + w) := plane_count a g h w
    rw [which] at filters
    rw [spot] at did ⊢
    have places := groupStores_inside fmt core.mem below.le
    obtain ⟨next, ended, more, nextA, nextB⟩ := pixel_did fits did
      (by simpa [done, restStores] using places) filters row col programA programB
    rw [filter, done_group, which, pixel]
    exact ⟨next, ended, more, nextA, nextB⟩

theorem rest_run {c : Core R} (start : Did fmt core c
      (done fmt a core.mem (a.groups.toNat * a.pixels) 0)) :
    ∃ next, (List.range (a.F.toNat - (a.groups * fUnroll).toNat)).foldlM (filter fmt a) c =
        some next ∧
      Did fmt core next (done fmt a core.mem (a.groups.toNat * a.pixels)
        ((a.F.toNat - 4 * a.groups.toNat) * a.pixels)) ∧ Kept c next := by
  have all := groups_inside a
  have first : a.groups * fUnroll = UInt32.ofNat (4 * a.groups.toNat) := by
    rw [Nat.mul_comm, UInt32.ofNat_mul, UInt32.ofNat_toNat]
    rfl
  have exact : (a.groups * fUnroll).toNat = 4 * a.groups.toNat :=
    exact_of_cast first (all.trans_lt a.F.toNat_lt)
  have runs := three_loops_run (fun m next => Did fmt core next
      (done fmt a core.mem (a.groups.toNat * a.pixels) m) ∧ Kept c next)
    (fun d h => scalarPixel fmt a (a.groups * fUnroll + UInt32.ofNat d) (UInt32.ofNat h))
    (a.F.toNat - (a.groups * fUnroll).toNat) a.hOut.toNat a.wOut.toNat c ⟨start, rfl, rfl⟩ ?_
  · rw [planes_count fits, exact] at runs
    rw [exact]
    exact runs
  · rw [hOut_exact fits, wOut_exact fits, exact]
    rintro d inside h row w col now ⟨did, kept⟩
    have here : h * a.shape.wOut + w < a.pixels := Kernels.entry_lt row col
    have below : d * a.pixels + (h * a.shape.wOut + w) <
        (a.F.toNat - 4 * a.groups.toNat) * a.pixels := Kernels.entry_lt inside here
    obtain ⟨filter, _⟩ := rest_inside le_rfl below
    obtain ⟨pixel, which⟩ := split_digit d here
    have number : a.groups * fUnroll + UInt32.ofNat d = UInt32.ofNat (4 * a.groups.toNat + d) := by
      rw [first, UInt32.ofNat_add]
    have spot : (d * a.shape.hOut + h) * a.shape.wOut + w =
        d * a.pixels + (h * a.shape.wOut + w) := plane_count a d h w
    rw [which] at filter
    rw [spot] at did ⊢
    have places := (groupStores_inside fmt core.mem le_rfl).append
      (restStores_inside fmt core.mem below.le)
    obtain ⟨next, ended, more, same⟩ := scalarPixel_did fits did places filter row col
    rw [number, done_rest, which, pixel]
    exact ⟨next, ended, more, kept.trans same⟩

end Runs

/-! ### Every output once, its taps in order -/

section Orders

variable {R : Type} [CommRing R] (fmt : Format R) (a : Args)

/-- The elements of filter `f`, stored. -/
def filterStores (mem : Mem) (f : Nat) : List (Nat × R) :=
  (List.range a.pixels).map (put fmt a mem f)

theorem group_perm (mem : Mem) (g : Nat) :
    ((List.range a.pixels).flatMap fun x =>
      (List.range 4).map fun u => put fmt a mem (4 * ((g * a.pixels + x) / a.pixels) + u)
        ((g * a.pixels + x) % a.pixels)).Perm
      ((List.range 4).flatMap fun u => filterStores fmt a mem (g * 4 + u)) := by
  have same : ((List.range a.pixels).flatMap fun x =>
      (List.range 4).map fun u => put fmt a mem (4 * ((g * a.pixels + x) / a.pixels) + u)
        ((g * a.pixels + x) % a.pixels)) =
      (List.range a.pixels).flatMap fun x =>
        (List.range 4).map fun u => put fmt a mem (g * 4 + u) x := by
    refine List.flatMap_congr fun x member => ?_
    obtain ⟨pixel, which⟩ := split_digit g (List.mem_range.mp member)
    rw [pixel, which, Nat.mul_comm 4]
  rw [same]
  exact perm_digits 4 a.pixels fun u x => put fmt a mem (g * 4 + u) x

theorem stores_perm (mem : Mem) :
    (groupStores fmt a mem (a.groups.toNat * a.pixels) ++
      restStores fmt a mem ((a.F.toNat - 4 * a.groups.toNat) * a.pixels)).Perm
      ((List.range (a.F.toNat * a.pixels)).map fun e =>
        (a.Y.toNat + 4 * e, convolution fmt a mem e)) := by
  have groups : (groupStores fmt a mem (a.groups.toNat * a.pixels)).Perm
      ((List.range (a.groups.toNat * 4)).flatMap (filterStores fmt a mem)) := by
    rw [groupStores, flatMap_digits, flatMap_digits]
    exact List.Perm.flatMap_left _ fun g _ => group_perm fmt a mem g
  have rest : restStores fmt a mem ((a.F.toNat - 4 * a.groups.toNat) * a.pixels) =
      (List.range (a.F.toNat - 4 * a.groups.toNat)).flatMap fun d =>
        filterStores fmt a mem (a.groups.toNat * 4 + d) := by
    rw [restStores, List.map_eq_flatMap, flatMap_digits]
    refine List.flatMap_congr fun d _ => ?_
    rw [filterStores, List.map_eq_flatMap]
    refine List.flatMap_congr fun x member => ?_
    obtain ⟨pixel, which⟩ := split_digit d (List.mem_range.mp member)
    rw [pixel, which, Nat.mul_comm 4]
  have all : ((List.range (a.F.toNat * a.pixels)).map fun e =>
      (a.Y.toNat + 4 * e, convolution fmt a mem e)) =
      (List.range a.F.toNat).flatMap (filterStores fmt a mem) := by
    rw [List.map_eq_flatMap, flatMap_digits]
    refine List.flatMap_congr fun f _ => ?_
    rw [filterStores, List.map_eq_flatMap]
    rfl
  have parts : a.F.toNat = a.groups.toNat * 4 + (a.F.toNat - 4 * a.groups.toNat) := by
    have inside := groups_inside a
    omega
  -- The groups cover the filters below the last full group, the rest those from there on.
  rw [all, rest, parts, List.range_add, List.flatMap_append, List.flatMap_map, Nat.mul_comm 4,
    Nat.add_sub_cancel_left]
  exact groups.append_right _

end Orders

section Taps

variable {a : Args}

theorem same_output {f f' x x' : Nat} (pixel : x < a.pixels) (pixel' : x' < a.pixels)
    (same : f' * a.pixels + x' = f * a.pixels + x) : f' = f ∧ x' = x := by
  obtain ⟨rest, whole⟩ := split_digit f pixel
  obtain ⟨rest', whole'⟩ := split_digit f' pixel'
  rw [same] at rest' whole'
  exact ⟨whole'.symm.trans whole, rest'.symm.trans rest⟩

/-- The terms that are for output `e`. -/
def outputTerms (e : Nat) (terms : List Term) : List Term :=
  terms.filter fun t => t.output = e

theorem pixelTerms_own {f g x : Nat} (pixel : x < a.pixels) (low : g ≤ f) (high : f < g + 4) :
    outputTerms (f * a.pixels + x) (a.pixelTerms g x) =
      (List.range a.window).map (a.term f x) := by
  rw [outputTerms, Args.pixelTerms, List.filter_flatMap, List.map_eq_flatMap]
  refine List.flatMap_congr fun k _ => ?_
  obtain ⟨u, rfl⟩ := Nat.exists_eq_add_of_le low
  rw [List.map_eq_flatMap, filter_part _ (Nat.add_lt_add_iff_left.mp high)]
  · simp [Args.term]
  · intro v _ other
    have nonempty := Nat.zero_lt_of_lt pixel
    simp [Args.term, other, Nat.ne_of_gt nonempty]

theorem pixelTerms_other {f g x x' : Nat} (pixel : x < a.pixels) (pixel' : x' < a.pixels)
    (other : x' ≠ x ∨ f < g ∨ g + 4 ≤ f) :
    outputTerms (f * a.pixels + x) (a.pixelTerms g x') = [] := by
  refine List.filter_eq_nil_iff.mpr fun t member => ?_
  obtain ⟨k, _, found⟩ := List.mem_flatMap.mp member
  obtain ⟨u, below, rfl⟩ := List.mem_map.mp found
  have filter := List.mem_range.mp below
  intro same
  obtain ⟨which, place⟩ := same_output pixel pixel' (of_decide_eq_true same)
  omega

theorem restTerms_other {f f' x x' : Nat} (pixel : x < a.pixels) (pixel' : x' < a.pixels)
    (other : f' ≠ f ∨ x' ≠ x) :
    outputTerms (f * a.pixels + x) ((List.range a.window).map (a.term f' x')) = [] := by
  refine List.filter_eq_nil_iff.mpr fun t member => ?_
  obtain ⟨k, _, rfl⟩ := List.mem_map.mp member
  intro same
  obtain ⟨which, place⟩ := same_output pixel pixel' (of_decide_eq_true same)
  omega

theorem digits_apart {n i q d : Nat} (other : i ≠ q * n + d) : i / n ≠ q ∨ i % n ≠ d := by
  by_contra same
  push Not at same
  exact other (by rw [← same.1, ← same.2, Nat.div_add_mod'])

theorem taps_in_order {f x : Nat} (filter : f < a.F.toNat) (pixel : x < a.pixels) :
    outputTerms (f * a.pixels + x) (a.groupTerms (a.groups.toNat * a.pixels) ++
        a.restTerms ((a.F.toNat - 4 * a.groups.toNat) * a.pixels)) =
      (List.range a.window).map (a.term f x) := by
  have inPlane := fun i : Nat => Nat.mod_lt i (Nat.zero_lt_of_lt pixel)
  rw [outputTerms, List.filter_append]
  -- A filter is in one group, whose pixel then has its taps, or past the last group.
  by_cases grouped : f < 4 * a.groups.toNat
  · have nothing : (a.restTerms ((a.F.toNat - 4 * a.groups.toNat) * a.pixels)).filter
        (fun t => t.output = f * a.pixels + x) = [] := by
      rw [Args.restTerms, List.filter_flatMap]
      exact List.flatMap_eq_nil_iff.mpr fun i _ =>
        restTerms_other pixel (inPlane i)
          (Or.inl (Nat.ne_of_gt (grouped.trans_le (Nat.le_add_right _ _))))
    have here : f / 4 * a.pixels + x < a.groups.toNat * a.pixels :=
      Kernels.entry_lt (by omega) pixel
    obtain ⟨place, which⟩ := split_digit (f / 4) pixel
    rw [nothing, List.append_nil, Args.groupTerms, filter_part _ here, place, which]
    · exact pixelTerms_own pixel (by omega) (by omega)
    · intro i _ other
      refine pixelTerms_other pixel (inPlane i) ?_
      rcases digits_apart other with apart | apart
      · exact Or.inr (by omega)
      · exact Or.inl apart
  · have nothing : (a.groupTerms (a.groups.toNat * a.pixels)).filter
        (fun t => t.output = f * a.pixels + x) = [] := by
      rw [Args.groupTerms, List.filter_flatMap]
      refine List.flatMap_eq_nil_iff.mpr fun i member =>
        pixelTerms_other pixel (inPlane i) (Or.inr (Or.inr ?_))
      have group := (Kernels.row_col (List.mem_range.mp member)).1
      omega
    have here : (f - 4 * a.groups.toNat) * a.pixels + x <
        (a.F.toNat - 4 * a.groups.toNat) * a.pixels :=
      Kernels.entry_lt (by omega) pixel
    obtain ⟨place, which⟩ := split_digit (f - 4 * a.groups.toNat) pixel
    rw [nothing, List.nil_append, Args.restTerms, filter_part _ here, place, which,
      Nat.add_sub_cancel' (Nat.le_of_not_lt grouped)]
    · refine List.filter_eq_self.mpr fun t member => ?_
      obtain ⟨k, _, rfl⟩ := List.mem_map.mp member
      exact decide_eq_true rfl
    · intro i _ other
      refine restTerms_other pixel (inPlane i) ?_
      rcases digits_apart other with apart | apart
      · exact Or.inl (by omega)
      · exact Or.inr apart

theorem taps_nested (f h : Nat) {w : Nat} (col : w < a.shape.wOut) :
    (List.range a.window).map (a.term f (h * a.shape.wOut + w)) =
      (List.range a.C.toNat).flatMap fun c => (List.range a.P.toNat).flatMap fun p =>
        (List.range a.Q.toNat).map (a.tap f h w c p) := by
  rw [Args.window, List.map_eq_flatMap, flatMap_digits, flatMap_digits]
  refine List.flatMap_congr fun c _ => List.flatMap_congr fun p line => ?_
  rw [List.map_eq_flatMap]
  refine List.flatMap_congr fun q column => ?_
  have same := input_at h col c (List.mem_range.mp line) (List.mem_range.mp column)
  rw [Args.term, same, Args.tap]

/-- The elements of a term are in the arrays. -/
def Reaches (a : Args) (t : Term) : Prop :=
  (∃ i < a.C.toNat * a.H.toNat * a.W.toNat, t.left.toNat = a.A.toNat + 4 * i) ∧
    ∃ j < a.F.toNat * a.window, t.right.toNat = a.B.toNat + 4 * j

theorem term_reaches (fits : Fits a) {f x k : Nat} (filter : f < a.F.toNat)
    (pixel : x < a.pixels) (tap : k < a.window) : Reaches a (a.term f x k) := by
  have input := input_inside fits pixel tap
  have weight := Kernels.entry_lt filter tap
  exact ⟨⟨_, input, cell_exact rfl fits.roomA input⟩, ⟨_, weight, cell_exact rfl fits.roomB weight⟩⟩

theorem terms_reach (fits : Fits a) :
    ∀ t ∈ a.groupTerms (a.groups.toNat * a.pixels) ++
      a.restTerms ((a.F.toNat - 4 * a.groups.toNat) * a.pixels), Reaches a t := by
  intro t member
  rcases List.mem_append.mp member with grouped | rest
  · obtain ⟨i, below, found⟩ := List.mem_flatMap.mp grouped
    obtain ⟨k, tap, which⟩ := List.mem_flatMap.mp found
    obtain ⟨u, four, rfl⟩ := List.mem_map.mp which
    have filter := List.mem_range.mp four
    obtain ⟨filters, pixel⟩ := group_inside le_rfl (List.mem_range.mp below)
    exact term_reaches fits (by omega) pixel (List.mem_range.mp tap)
  · obtain ⟨i, below, found⟩ := List.mem_flatMap.mp rest
    obtain ⟨k, tap, rfl⟩ := List.mem_map.mp found
    obtain ⟨filter, pixel⟩ := rest_inside le_rfl (List.mem_range.mp below)
    exact term_reaches fits filter pixel (List.mem_range.mp tap)

end Taps

section Whole

variable {R : Type} [CommRing R] {a : Args}

omit [CommRing R] in
theorem armed (c : Core R) (once : c.dm1.reps = 0) :
    Programmed (arm a c).dm0 a.programA 3 ∧ Programmed (arm a c).dm1 a.programB 0 := by
  have window := repeats_programmed (loops_programmed c.dm0 a.programA) fUnroll
  have weights := loops_programmed c.dm1 a.programB
  have three : (fUnroll - 1).toNat = 3 := by decide
  rw [three] at window
  rw [once, UInt32.toNat_zero] at weights
  exact ⟨window, weights⟩

theorem streams (fits : Fits a) : ¬(a.groups = 0 ∨ a.taps = 0 ∨ a.hOut = 0 ∨ a.wOut = 0) := by
  have positive : ∀ x : UInt32, 0 < x.toNat → x ≠ 0 := by
    rintro _ some rfl
    exact absurd some (by decide)
  rintro (none | none | none | none)
  · refine positive _ ?_ none
    rw [groups_exact]
    exact Nat.div_pos fits.filters (by decide)
  · refine positive _ ?_ none
    rw [window_exact fits]
    exact window_some fits
  · refine positive _ ?_ none
    rw [hOut_exact fits]
    exact Nat.succ_pos _
  · refine positive _ ?_ none
    rw [wOut_exact fits]
    exact Nat.succ_pos _

/-- The streamed kernel is the direct convolution: every output is stored once; its taps
are taken by channel, row and column; every access is to the input and the weights; and
every pixel takes both streams to their ends. -/
theorem streamed_convolution (fmt : Format R) (fits : Fits a)
    (generic : Args → Core R → Option (Core R)) (core : Core R)
    (off : core.enabled = false) (once : core.dm1.reps = 0) :
    ∃ core' fmas products stores, conv2dFp32 fmt a generic core = some core' ∧
      core'.log = core.log ++
        ⟨fmas, products, stores, List.replicate (a.groups.toNat * a.pixels) (true, true)⟩ ∧
      core'.mem = written fmt core.mem stores ∧
      stores.Perm ((List.range (a.F.toNat * a.pixels)).map fun e =>
        (a.Y.toNat + 4 * e, convolution fmt a core.mem e)) ∧
      (∀ f < a.F.toNat, ∀ h < a.shape.hOut, ∀ w < a.shape.wOut,
        outputTerms (f * a.pixels + (h * a.shape.wOut + w)) (fmas ++ products) =
          (List.range a.C.toNat).flatMap fun c => (List.range a.P.toNat).flatMap fun p =>
            (List.range a.Q.toNat).map (a.tap f h w c p)) ∧
      (∀ t ∈ fmas ++ products, Reaches a t) ∧
      core'.enabled = false ∧ core'.dm1.reps = 0 := by
  obtain ⟨programA, programB⟩ := armed (a := a) core once
  have start : Did fmt core (arm a core) {} := ⟨off, (log_empty _).symm, rfl⟩
  obtain ⟨mid, grouped, before, _, weights⟩ := groups_run fits start programA programB
  obtain ⟨core', rest, did, kept⟩ := rest_run fits before
  refine ⟨core', _, _, _, ?_, did.logged, did.mem, stores_perm fmt a core.mem, ?_,
    terms_reach fits, did.off, ?_⟩
  · rw [conv2dFp32, if_neg (streams fits)]
    exact bind_some grouped rest
  · intro f filter h row w col
    rw [← taps_nested f h col]
    exact taps_in_order filter (Kernels.entry_lt row col)
  · rw [kept.dm1]
    exact UInt32.toNat_inj.mp weights.reps

end Whole

theorem fifth_fits : Fits ⟨0, 1, 2, 1, 8, 5, 1, 1, 1, 1, 28, true, 64⟩ where
  channels := by decide
  filters := by decide
  rows := by decide
  columns := by decide
  down := by decide
  across := by decide
  high := by decide
  wide := by decide
  roomA := by decide
  roomB := by decide
  roomBias _ := by decide
  roomY := by decide
  apartA := by
    rw [disjoint]
    decide
  apartB := by
    rw [disjoint]
    decide
  apartBias _ := by
    rw [disjoint]
    decide

theorem streamed_convolution_fifth :
    ∃ core', conv2dFp32 bytes ⟨0, 1, 2, 1, 8, 5, 1, 1, 1, 1, 28, true, 64⟩ (fun _ c => some c)
        (Core.fresh fun _ => 3) = some core' ∧
      core'.log.stores.Perm ((List.range 10).map fun e => (64 + 4 * e, 12)) := by
  obtain ⟨core', _, _, stores, ended, logged, _, once, _⟩ := streamed_convolution bytes fifth_fits
    (fun _ c => some c) (Core.fresh fun _ => 3) rfl rfl
  refine ⟨core', ended, ?_⟩
  have same : core'.log.stores = stores := congrArg Log.stores logged
  rw [same]
  refine once.trans (List.Perm.of_eq ?_)
  decide

end HeteroSim.StreamedConv
