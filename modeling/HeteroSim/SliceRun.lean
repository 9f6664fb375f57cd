import HeteroSim.ClusterJob
import HeteroSim.Kernels

/-!
The slices of a job over byte memory: what a kernel call reads and computes,
which rows of the whole problem a core's call is, and that the cores' rows are
a partition of it. A number is four bytes, coded in any way. An operand does
not run past the top of the address space, so addresses are not reduced.
-/

namespace HeteroSim.SliceRun

open ClusterJob Kernels

abbrev Mem := Nat → UInt8

/-- How numbers of `R` are kept in memory, and the kernels' `logf`. -/
structure Format (R : Type) where
  f32 : UInt8 → UInt8 → UInt8 → UInt8 → R
  byte : R → Nat → UInt8
  logFloored : R → R

section Values

variable {R : Type} [CommRing R] (fmt : Format R)

/-- The array of `float32_t` at `p`. -/
def floats (mem : Mem) (p : UInt32) (i : Nat) : R :=
  fmt.f32 (mem (p.toNat + 4 * i)) (mem (p.toNat + 4 * i + 1)) (mem (p.toNat + 4 * i + 2))
    (mem (p.toNat + 4 * i + 3))

/-- The array of `uint16_t` at `p`. -/
def halves (mem : Mem) (p : UInt32) (i : Nat) : Nat :=
  (mem (p.toNat + 2 * i)).toNat + 256 * (mem (p.toNat + 2 * i + 1)).toNat

def convShape (C H W P Q SP SQ hasBias : UInt32) : Convolution where
  C := C.toNat
  H := H.toNat
  W := W.toNat
  P := P.toNat
  Q := Q.toNat
  SP := SP.toNat
  SQ := SQ.toNat
  hOut := (divu (H - P) SP + 1).toNat
  wOut := (divu (W - Q) SQ + 1).toNat
  hasBias := hasBias ≠ 0

def mfccFront (frameLen hop fftLen nbMel nbCep : UInt32) : Front where
  frameLen := frameLen.toNat
  hop := hop.toNat
  fftLen := fftLen.toNat
  nbMel := nbMel.toNat
  nbCep := nbCep.toNat

def mfccTables (mem : Mem) (window twiddles melCoeff melStart melLen dct : UInt32) : Tables R where
  window := floats fmt mem window
  twiddles := floats fmt mem twiddles
  melCoeff := floats fmt mem melCoeff
  melStart := halves mem melStart
  melLen := halves mem melLen
  dct := floats fmt mem dct

/-- Element `e` of the output of a kernel call. -/
def value (mem : Mem) : Call → Nat → R
  | .matmul A B _ _ N O => matmul N.toNat O.toNat (floats fmt mem A) (floats fmt mem B)
  | .gemm A B C _ M N O transA transB =>
      gemm M.toNat N.toNat O.toNat (transA ≠ 0) (transB ≠ 0) (floats fmt mem A)
        (floats fmt mem B) (floats fmt mem C)
  | .conv2d A C H W B _ P Q SP SQ bias hasBias _ =>
      conv2d (convShape C H W P Q SP SQ hasBias) (floats fmt mem A) (floats fmt mem B)
        (floats fmt mem bias)
  | .mfcc audio _ _ frameLen hop fftLen window twiddles melCoeff melStart melLen nbMel dct nbCep
      _ =>
      mfcc fmt.logFloored (mfccFront frameLen hop fftLen nbMel nbCep)
        (mfccTables fmt mem window twiddles melCoeff melStart melLen dct) (floats fmt mem audio)

/-- The kernel run once on the whole problem. -/
def whole (a : Nat → UInt32) : Kernel → Call
  | .matmul => .matmul (a Mm.A) (a Mm.B) (a Mm.Y) (a Mm.M) (a Mm.N) (a Mm.O)
  | .gemm => .gemm (a Gemm.A) (a Gemm.B) (a Gemm.C) (a Gemm.Y) (a Gemm.M) (a Gemm.N) (a Gemm.O)
      (a Gemm.transA) (a Gemm.transB)
  | .conv2d => .conv2d (a Conv.A) (a Conv.C) (a Conv.H) (a Conv.W) (a Conv.B) (a Conv.F)
      (a Conv.P) (a Conv.Q) (a Conv.SP) (a Conv.SQ) (a Conv.bias) (a Conv.hasBias) (a Conv.Y)
  | .mfcc => .mfcc (a Mfcc.audio) (a Mfcc.out) (a Mfcc.nbFrames) (a Mfcc.frameLen) (a Mfcc.hop)
      (a Mfcc.fftLen) (a Mfcc.window) (a Mfcc.twiddles) (a Mfcc.melCoeff) (a Mfcc.melStart)
      (a Mfcc.melLen) (a Mfcc.nbMel) (a Mfcc.dct) (a Mfcc.nbCep) 0

end Values

/-! ### Addresses that do not wrap -/

section Exact

theorem exact_of_cast {x : UInt32} {n : Nat} (same : x = UInt32.ofNat n) (small : n < 2 ^ 32) :
    x.toNat = n := by
  rw [same, UInt32.toNat_ofNat']
  exact Nat.mod_eq_of_lt small

theorem moved_exact {p x : UInt32} {n size : Nat} (same : x = UInt32.ofNat n)
    (room : p.toNat + size ≤ 2 ^ 32) (inside : n < size ∨ n = 0) :
    (p + x).toNat = p.toNat + n := by
  have small : p.toNat + n < 2 ^ 32 := by
    have bound := p.toNat_lt
    omega
  refine exact_of_cast ?_ small
  rw [same, UInt32.ofNat_add, UInt32.ofNat_toNat]

variable {R : Type} (fmt : Format R)

theorem floats_moved (mem : Mem) {p q : UInt32} {n : Nat} (same : q.toNat = p.toNat + n * 4) :
    floats fmt mem q = fun i => floats fmt mem p (n + i) := by
  funext i
  rw [Nat.mul_comm] at same
  simp only [floats, same, Nat.mul_add, Nat.add_assoc]

theorem floats_same {mem mem' : Mem} {p p' : UInt32} {n : Nat}
    (same : ∀ k < n * 4, mem (p.toNat + k) = mem' (p'.toNat + k)) :
    ∀ i < n, floats fmt mem p i = floats fmt mem' p' i := by
  intro i below
  simp only [floats, Nat.add_assoc]
  rw [same _ (by omega), same _ (by omega), same _ (by omega), same _ (by omega)]

theorem halves_same {mem mem' : Mem} {p p' : UInt32} {n : Nat}
    (same : ∀ k < n * 2, mem (p.toNat + k) = mem' (p'.toNat + k)) :
    ∀ i < n, halves mem p i = halves mem' p' i := by
  intro i below
  simp only [halves, Nat.add_assoc]
  rw [same _ (by omega), same _ (by omega)]

end Exact

/-! ### The cores' shares -/

section Cuts

/-- Where share `k` of `n` items among `parts` begins. -/
def cut (n parts k : Nat) : Nat := k * (n / parts) + min k (n % parts)

theorem cut_succ (n parts k : Nat) :
    cut n parts (k + 1) = cut n parts k + n / parts + (if k < n % parts then 1 else 0) := by
  rw [cut, cut, Nat.succ_mul]
  by_cases extra : k < n % parts
  · rw [if_pos extra, Nat.min_eq_left (Nat.le_of_lt extra), Nat.min_eq_left extra]
    omega
  · have past : n % parts ≤ k := Nat.le_of_not_lt extra
    rw [if_neg extra, Nat.min_eq_right past, Nat.min_eq_right (Nat.le_succ_of_le past)]
    omega

theorem cut_mono (n parts : Nat) : Monotone (cut n parts) := by
  refine monotone_nat_of_le_succ fun k => ?_
  rw [cut_succ, Nat.add_assoc]
  exact Nat.le_add_right _ _

theorem cut_last (n parts : Nat) (nonempty : 0 < parts) : cut n parts parts = n := by
  rw [cut, Nat.min_eq_right (Nat.le_of_lt (Nat.mod_lt n nonempty))]
  exact Nat.div_add_mod n parts

theorem cut_le (n parts k : Nat) (inside : k ≤ parts) (nonempty : 0 < parts) : cut n
    parts k ≤ n := by
  exact (cut_mono n parts inside).trans_eq (cut_last n parts nonempty)

theorem cut_cover (n parts e : Nat) (nonempty : 0 < parts) (inside : e < n) :
    ∃ k < parts, cut n parts k ≤ e ∧ e < cut n parts (k + 1) := by
  have reached : ∀ m, e < cut n parts m → ∃ k < m, cut n parts k ≤ e ∧ e < cut n parts (k + 1) := by
    intro m
    induction m with
    | zero => exact fun below => by simp [cut] at below
    | succ m ih =>
        intro below
        by_cases earlier : e < cut n parts m
        · obtain ⟨k, inside, here⟩ := ih earlier
          exact ⟨k, Nat.lt_succ_of_lt inside, here⟩
        · exact ⟨m, Nat.lt_succ_self m, Nat.le_of_not_lt earlier, below⟩
  exact reached parts (by rwa [cut_last n parts nonempty])

theorem cut_own (n parts e k k' : Nat) (low : cut n parts k ≤ e) (high : e < cut n parts (k + 1))
    (low' : cut n parts k' ≤ e) (high' : e < cut n parts (k' + 1)) : k = k' := by
  rcases Nat.lt_trichotomy k k' with before | same | after
  · have ends : cut n parts (k + 1) ≤ cut n parts k' := cut_mono n parts before
    omega
  · exact same
  · have ends : cut n parts (k' + 1) ≤ cut n parts k := cut_mono n parts after
    omega

theorem cut_grows (n parts k : Nat) (inside : k < parts) :
    cut n parts k < cut n parts (k + 1) ↔ k < min parts n := by
  have nonempty : 0 < parts := Nat.zero_lt_of_lt inside
  rw [cut_succ, Nat.add_assoc, Nat.lt_min]
  by_cases few : n < parts
  · rw [Nat.div_eq_of_lt few, Nat.mod_eq_of_lt few]
    by_cases item : k < n
    · simp [item, inside]
    · simp [item]
  · have one : 0 < n / parts := Nat.div_pos (Nat.le_of_not_lt few) nonempty
    constructor
    · exact fun _ => ⟨inside, inside.trans_le (Nat.le_of_not_lt few)⟩
    · exact fun _ => Nat.lt_add_of_pos_right (Nat.add_pos_left one _)

theorem slice_cuts (n idx nb : UInt32) (inside : idx < nb) :
    (slice n idx nb).1.toNat = cut n.toNat nb.toNat idx.toNat ∧
      (slice n idx nb).2.toNat = cut n.toNat nb.toNat (idx.toNat + 1) := by
  have below : idx.toNat < nb.toNat := UInt32.lt_iff_toNat_lt.mp inside
  have nonempty : 0 < nb.toNat := Nat.zero_lt_of_lt below
  have small := n.toNat_lt
  have first := cut_le n.toNat nb.toNat idx.toNat (Nat.le_of_lt below) nonempty
  have last := cut_le n.toNat nb.toNat (idx.toNat + 1) below nonempty
  have extra : idx < n % nb ↔ idx.toNat < n.toNat % nb.toNat := by
    rw [UInt32.lt_iff_toNat_lt, UInt32.toNat_mod]
  have least : (if idx < n % nb then idx else n % nb) =
      UInt32.ofNat (min idx.toNat (n.toNat % nb.toNat)) := by
    by_cases more : idx.toNat < n.toNat % nb.toNat
    · rw [if_pos (extra.mpr more), Nat.min_eq_left (Nat.le_of_lt more), UInt32.ofNat_toNat]
    · rw [if_neg (mt extra.mp more), Nat.min_eq_right (Nat.le_of_not_lt more),
        ← UInt32.toNat_mod, UInt32.ofNat_toNat]
  have base : n / nb = UInt32.ofNat (n.toNat / nb.toNat) := by
    rw [← UInt32.toNat_div, UInt32.ofNat_toNat]
  have one : (if idx < n % nb then (1 : UInt32) else 0) =
      UInt32.ofNat (if idx.toNat < n.toNat % nb.toNat then 1 else 0) := by
    by_cases more : idx.toNat < n.toNat % nb.toNat
    · rw [if_pos (extra.mpr more), if_pos more]
      rfl
    · rw [if_neg (mt extra.mp more), if_neg more]
      rfl
  have start : (slice n idx nb).1 = UInt32.ofNat (cut n.toNat nb.toNat idx.toNat) := by
    simp only [slice, least, base, cut, UInt32.ofNat_add, UInt32.ofNat_mul, UInt32.ofNat_toNat]
  have stop : (slice n idx nb).2 = UInt32.ofNat (cut n.toNat nb.toNat (idx.toNat + 1)) := by
    rw [cut_succ, UInt32.ofNat_add, UInt32.ofNat_add, ← start, ← base, ← one]
    rfl
  exact ⟨exact_of_cast start (by omega), exact_of_cast stop (by omega)⟩

end Cuts

/-! ### The operands of a job, sized in integers -/

structure Extent where
  arg : Nat
  isOutput : Bool
  bytes : Nat

def outExtent (H P SP : UInt32) : Nat := (H.toNat - P.toNat) / SP.toNat + 1

def extents (a : Nat → UInt32) : Kernel → List Extent
  | .matmul =>
      [⟨Mm.A, false, (a Mm.M).toNat * (a Mm.N).toNat * 4⟩,
        ⟨Mm.B, false, (a Mm.N).toNat * (a Mm.O).toNat * 4⟩,
        ⟨Mm.Y, true, (a Mm.M).toNat * (a Mm.O).toNat * 4⟩]
  | .gemm =>
      [⟨Gemm.A, false, (a Gemm.M).toNat * (a Gemm.N).toNat * 4⟩,
        ⟨Gemm.B, false, (a Gemm.N).toNat * (a Gemm.O).toNat * 4⟩,
        ⟨Gemm.C, false, (a Gemm.M).toNat * (a Gemm.O).toNat * 4⟩,
        ⟨Gemm.Y, true, (a Gemm.M).toNat * (a Gemm.O).toNat * 4⟩]
  | .conv2d =>
      [⟨Conv.A, false, (a Conv.C).toNat * (a Conv.H).toNat * (a Conv.W).toNat * 4⟩,
        ⟨Conv.B, false,
          (a Conv.F).toNat * (a Conv.C).toNat * (a Conv.P).toNat * (a Conv.Q).toNat * 4⟩,
        ⟨Conv.Y, true, (a Conv.F).toNat * outExtent (a Conv.H) (a Conv.P) (a Conv.SP) *
          outExtent (a Conv.W) (a Conv.Q) (a Conv.SQ) * 4⟩] ++
        (if a Conv.hasBias ≠ 0 then [⟨Conv.bias, false, (a Conv.F).toNat * 4⟩] else [])
  | .mfcc =>
      [⟨Mfcc.audio, false, (((a Mfcc.nbFrames).toNat - 1) * (a Mfcc.hop).toNat +
          (a Mfcc.frameLen).toNat) * 4⟩,
        ⟨Mfcc.out, true, (a Mfcc.nbFrames).toNat * (a Mfcc.nbCep).toNat * 4⟩,
        ⟨Mfcc.window, false, (a Mfcc.frameLen).toNat * 4⟩,
        ⟨Mfcc.twiddles, false, (a Mfcc.fftLen).toNat * 4⟩,
        ⟨Mfcc.melCoeff, false, (a Mfcc.melCoeffs).toNat * 4⟩,
        ⟨Mfcc.melStart, false, (a Mfcc.nbMel).toNat * 2⟩,
        ⟨Mfcc.melLen, false, (a Mfcc.nbMel).toNat * 2⟩,
        ⟨Mfcc.dct, false, (a Mfcc.nbCep).toNat * (a Mfcc.nbMel).toNat * 4⟩]

def Shaped (mem : Mem) (a : Nat → UInt32) : Kernel → Prop
  | .matmul => True
  | .gemm => True
  | .conv2d => a Conv.P ≤ a Conv.H ∧ a Conv.Q ≤ a Conv.W ∧ 1 ≤ a Conv.SP ∧ 1 ≤ a Conv.SQ
  | .mfcc => 1 ≤ a Mfcc.nbFrames ∧ 1 ≤ a Mfcc.nbMel ∧ a Mfcc.frameLen ≤ a Mfcc.fftLen ∧
      (∃ bits, (a Mfcc.fftLen).toNat = 2 ^ bits) ∧
      (∀ m < (a Mfcc.nbMel).toNat, halves mem (a Mfcc.melStart) m + halves mem (a Mfcc.melLen) m ≤
        (a Mfcc.fftLen).toNat / 2 + 1) ∧
      offset (halves mem (a Mfcc.melLen)) (a Mfcc.nbMel).toNat ≤ (a Mfcc.melCoeffs).toNat

structure Sized (mem : Mem) (a : Nat → UInt32) (kernel : Kernel) : Prop where
  shaped : Shaped mem a kernel
  small : ∀ x ∈ extents a kernel, x.bytes < 2 ^ 32
  room : ∀ x ∈ extents a kernel, (a x.arg).toNat + x.bytes ≤ 2 ^ 32

theorem out_cast {H P SP : UInt32} (fits : P ≤ H) (step : 1 ≤ SP) :
    divu (H - P) SP + 1 = UInt32.ofNat (outExtent H P SP) := by
  have nonzero : SP ≠ 0 := by
    rintro rfl
    exact absurd step (by decide)
  rw [divu, if_neg nonzero, outExtent, UInt32.ofNat_add, ← UInt32.toNat_sub_of_le _ _ fits,
    ← UInt32.toNat_div, UInt32.ofNat_toNat]
  rfl

theorem out_exact {H P SP : UInt32} (fits : P ≤ H) (step : 1 ≤ SP)
    (small : outExtent H P SP < 2 ^ 32) : (divu (H - P) SP + 1).toNat = outExtent H P SP :=
  exact_of_cast (out_cast fits step) small

theorem planned_extents (mem : Mem) (env : Word → UInt32) (kernel : Kernel)
    (shaped : Shaped mem (fun i => env (.args i)) kernel) :
    (planOperands (some kernel)).eval env =
      (extents (fun i => env (.args i)) kernel).map fun x =>
        ⟨x.arg, x.isOutput, UInt32.ofNat x.bytes⟩ := by
  cases kernel with
  | matmul => simp [planOperands, extents, UInt32.ofNat_mul, UInt32.ofNat_toNat]
  | gemm => simp [planOperands, extents, UInt32.ofNat_mul, UInt32.ofNat_toNat]
  | conv2d =>
      obtain ⟨high, wide, down, along⟩ := shaped
      by_cases bias : env (.args Conv.hasBias) = 0 <;>
        simp [planOperands, extents, bias, UInt32.ofNat_mul, UInt32.ofNat_toNat,
          out_cast high down, out_cast wide along]
  | mfcc =>
      have frames : env (.args Mfcc.nbFrames) - 1 =
          UInt32.ofNat ((env (.args Mfcc.nbFrames)).toNat - 1) := by
        rw [← UInt32.toNat_one, ← UInt32.toNat_sub_of_le _ _ shaped.1, UInt32.ofNat_toNat]
      simp [planOperands, extents, frames, UInt32.ofNat_mul, UInt32.ofNat_add,
        UInt32.ofNat_toNat]

/-! ### Which rows a core takes -/

section Rows

variable (a : Nat → UInt32)

/-- The items a kernel is split by, and the output elements of each. -/
def rows : Kernel → UInt32
  | .matmul => a Mm.M
  | .gemm => a Gemm.M
  | .conv2d => a Conv.F
  | .mfcc => a Mfcc.nbFrames

def width : Kernel → Nat
  | .matmul => (a Mm.O).toNat
  | .gemm => (a Gemm.O).toNat
  | .conv2d => (divu (a Conv.H - a Conv.P) (a Conv.SP) + 1).toNat *
      (divu (a Conv.W - a Conv.Q) (a Conv.SQ) + 1).toNat
  | .mfcc => (a Mfcc.nbCep).toNat

def transposed : Kernel → Prop
  | .gemm => a Gemm.transA ≠ 0
  | _ => False

instance (kernel : Kernel) : Decidable (transposed a kernel) :=
  match kernel with
  | .gemm => inferInstanceAs (Decidable (a Gemm.transA ≠ 0))
  | .matmul | .conv2d | .mfcc => inferInstanceAs (Decidable False)

/-- The rows of core `idx`. -/
def bounds (kernel : Kernel) (idx nb : UInt32) : UInt32 × UInt32 :=
  if transposed a kernel then (0, if idx = 0 then rows a kernel else 0)
  else slice (rows a kernel) idx nb

/-- The call for rows `[first, last)`. -/
def portion (first last scratch : UInt32) : Kernel → Call
  | .matmul => .matmul (a Mm.A + first * a Mm.N * 4) (a Mm.B) (a Mm.Y + first * a Mm.O * 4)
      (last - first) (a Mm.N) (a Mm.O)
  | .gemm => .gemm (a Gemm.A + first * a Gemm.N * 4) (a Gemm.B) (a Gemm.C + first * a Gemm.O * 4)
      (a Gemm.Y + first * a Gemm.O * 4) (last - first) (a Gemm.N) (a Gemm.O) (a Gemm.transA)
      (a Gemm.transB)
  | .conv2d => .conv2d (a Conv.A) (a Conv.C) (a Conv.H) (a Conv.W)
      (a Conv.B + first * a Conv.C * a Conv.P * a Conv.Q * 4) (last - first) (a Conv.P)
      (a Conv.Q) (a Conv.SP) (a Conv.SQ) (a Conv.bias + first * 4) (a Conv.hasBias)
      (a Conv.Y + first * (divu (a Conv.H - a Conv.P) (a Conv.SP) + 1) *
        (divu (a Conv.W - a Conv.Q) (a Conv.SQ) + 1) * 4)
  | .mfcc => .mfcc (a Mfcc.audio + first * a Mfcc.hop * 4) (a Mfcc.out + first * a Mfcc.nbCep * 4)
      (last - first) (a Mfcc.frameLen) (a Mfcc.hop) (a Mfcc.fftLen) (a Mfcc.window)
      (a Mfcc.twiddles) (a Mfcc.melCoeff) (a Mfcc.melStart) (a Mfcc.melLen) (a Mfcc.nbMel)
      (a Mfcc.dct) (a Mfcc.nbCep) scratch

theorem runSlice_portion (job : Active) (kernel : Kernel) (known : job.kernel = some kernel)
    (idx nb : UInt32) :
    runSlice job idx nb =
      if (bounds job.args kernel idx nb).2 ≤ (bounds job.args kernel idx nb).1 then none
      else some (portion job.args (bounds job.args kernel idx nb).1
        (bounds job.args kernel idx nb).2 (job.scratchBase + idx * job.scratchStride) kernel) := by
  cases kernel with
  | gemm =>
      rw [runSlice, known]
      by_cases trans : job.args Gemm.transA ≠ 0
      · simp only [bounds, transposed, rows, trans, if_true, portion, ne_eq, not_false_eq_true]
      · simp only [bounds, transposed, rows, trans, if_false, portion]
  | matmul => rw [runSlice, known]; rfl
  | conv2d => rw [runSlice, known]; rfl
  | mfcc => rw [runSlice, known]; rfl

variable {a} {kernel : Kernel} {nb : UInt32}

theorem bounds_cover (nonempty : nb ≠ 0) {r : Nat} (inside : r < (rows a kernel).toNat) :
    ∃ idx < nb, (bounds a kernel idx nb).1.toNat ≤ r ∧ r < (bounds a kernel idx nb).2.toNat := by
  have positive : 0 < nb.toNat := Nat.pos_of_ne_zero fun zero =>
    nonempty (UInt32.toNat_inj.mp (show nb.toNat = (0 : UInt32).toNat from zero))
  by_cases trans : transposed a kernel
  · refine ⟨0, UInt32.lt_iff_toNat_lt.mpr positive, ?_⟩
    rw [bounds, if_pos trans, if_pos rfl]
    exact ⟨Nat.zero_le r, inside⟩
  · obtain ⟨k, below, low, high⟩ := cut_cover _ _ r positive inside
    have small : k < 2 ^ 32 := below.trans nb.toNat_lt
    have exact : (UInt32.ofNat k).toNat = k := exact_of_cast rfl small
    have core : UInt32.ofNat k < nb := by rwa [UInt32.lt_iff_toNat_lt, exact]
    obtain ⟨first, last⟩ := slice_cuts (rows a kernel) (UInt32.ofNat k) nb core
    refine ⟨UInt32.ofNat k, core, ?_⟩
    rw [bounds, if_neg trans, first, last, exact]
    exact ⟨low, high⟩

theorem bounds_own {idx idx' : UInt32} {r : Nat} (core : idx < nb) (core' : idx' < nb)
    (low : (bounds a kernel idx nb).1.toNat ≤ r) (high : r < (bounds a kernel idx nb).2.toNat)
    (low' : (bounds a kernel idx' nb).1.toNat ≤ r)
    (high' : r < (bounds a kernel idx' nb).2.toNat) : idx = idx' := by
  by_cases trans : transposed a kernel
  · have only : ∀ {i : UInt32}, r < (bounds a kernel i nb).2.toNat → i = 0 := by
      intro i below
      rw [bounds, if_pos trans] at below
      by_cases zero : i = 0
      · exact zero
      · rw [if_neg zero] at below
        exact absurd below (Nat.not_lt_zero r)
    exact (only high).trans (only high').symm
  · obtain ⟨first, last⟩ := slice_cuts (rows a kernel) idx nb core
    obtain ⟨first', last'⟩ := slice_cuts (rows a kernel) idx' nb core'
    rw [bounds, if_neg trans] at low high low' high'
    rw [first] at low
    rw [last] at high
    rw [first'] at low'
    rw [last'] at high'
    exact UInt32.toNat_inj.mp (cut_own _ _ r _ _ low high low' high')

theorem bounds_top {idx : UInt32} (core : idx < nb) :
    (bounds a kernel idx nb).2.toNat ≤ (rows a kernel).toNat := by
  by_cases trans : transposed a kernel
  · rw [bounds, if_pos trans]
    by_cases zero : idx = 0
    · rw [if_pos zero]
    · rw [if_neg zero]
      exact Nat.zero_le _
  · have below : idx.toNat < nb.toNat := UInt32.lt_iff_toNat_lt.mp core
    rw [bounds, if_neg trans, (slice_cuts (rows a kernel) idx nb core).2]
    exact cut_le _ _ _ below (Nat.zero_lt_of_lt below)

end Rows

/-! ### A core's call computes its rows -/

section Shares

variable {R : Type} [CommRing R] {fmt : Format R} {a : Nat → UInt32}

theorem rows_inside {first rows : Nat} (w : Nat) (below : first < rows) :
    first * w * 4 < rows * w * 4 ∨ first * w * 4 = 0 := by
  rcases Nat.eq_zero_or_pos w with none | some
  · exact Or.inr (by rw [none, Nat.mul_zero, Nat.zero_mul])
  · exact Or.inl (by
      have := Nat.mul_lt_mul_of_pos_right below some
      omega)

/-- `call` computes the output elements of `all` from `start` on. -/
structure ShareOf (fmt : Format R) (all call : Call) (start : Nat) : Prop where
  place : call.output.1.toNat = all.output.1.toNat + 4 * start
  top : start + call.output.2 ≤ all.output.2
  same : ∀ mem e, e < call.output.2 → value fmt mem call e = value fmt mem all (start + e)

theorem whole_count (a : Nat → UInt32) (kernel : Kernel) :
    (whole a kernel).output.2 = (rows a kernel).toNat * width a kernel := by
  cases kernel with
  | conv2d => exact Nat.mul_assoc _ _ _
  | matmul => rfl
  | gemm => rfl
  | mfcc => rfl

theorem portion_count (a : Nat → UInt32) (kernel : Kernel) (first last scratch : UInt32)
    (order : first < last) : (portion a first last scratch kernel).output.2 =
      (last.toNat - first.toNat) * width a kernel := by
  rw [← UInt32.toNat_sub_of_le _ _ (UInt32.le_of_lt order)]
  cases kernel with
  | conv2d => exact Nat.mul_assoc _ _ _
  | matmul => rfl
  | gemm => rfl
  | mfcc => rfl

theorem portion_top (a : Nat → UInt32) (kernel : Kernel) (first last scratch : UInt32)
    (order : first < last) (top : last.toNat ≤ (rows a kernel).toNat) :
    first.toNat * width a kernel + (portion a first last scratch kernel).output.2 ≤
      (whole a kernel).output.2 := by
  have ordered : first.toNat ≤ last.toNat := Nat.le_of_lt (UInt32.lt_iff_toNat_lt.mp order)
  rw [whole_count, portion_count a kernel first last scratch order, ← Nat.add_mul,
    Nat.add_sub_cancel' ordered]
  exact Nat.mul_le_mul_right _ top

theorem width_positive {kernel : Kernel} {first last scratch : UInt32} (order : first < last)
    {e : Nat} (inside : e < (portion a first last scratch kernel).output.2) :
    0 < width a kernel := by
  rw [portion_count a kernel first last scratch order] at inside
  exact Nat.pos_of_mul_pos_left (Nat.zero_lt_of_lt inside)

variable {mem : Mem}

theorem matmul_portion (sized : Sized mem a .matmul) (first last scratch : UInt32)
    (order : first < last) (top : last.toNat ≤ (rows a .matmul).toNat) :
    ShareOf fmt (whole a .matmul) (portion a first last scratch .matmul)
      (first.toNat * width a .matmul) := by
  have below : first.toNat < (a Mm.M).toNat := (UInt32.lt_iff_toNat_lt.mp order).trans_le top
  have input : (a Mm.A + first * a Mm.N * 4).toNat =
      (a Mm.A).toNat + first.toNat * (a Mm.N).toNat * 4 :=
    moved_exact (by simp [UInt32.ofNat_mul, UInt32.ofNat_toNat])
      (sized.room _ (List.mem_cons_self)) (rows_inside _ below)
  have output : (a Mm.Y + first * a Mm.O * 4).toNat =
      (a Mm.Y).toNat + first.toNat * (a Mm.O).toNat * 4 :=
    moved_exact (by simp [UInt32.ofNat_mul, UInt32.ofNat_toNat])
      (sized.room ⟨Mm.Y, true, _⟩ (by simp [extents])) (rows_inside _ below)
  refine ⟨?_, portion_top a .matmul first last scratch order top, ?_⟩
  · show (a Mm.Y + first * a Mm.O * 4).toNat = (a Mm.Y).toNat + 4 * (first.toNat * (a Mm.O).toNat)
    rw [output, Nat.mul_comm 4]
  · intro mem e inside
    have nonempty := width_positive order inside
    show matmul _ _ (floats fmt mem (a Mm.A + first * a Mm.N * 4)) _ e = matmul _ _ _ _ _
    rw [floats_moved fmt mem input]
    exact matmul_share _ _ _ _ _ e nonempty

theorem gemm_portion (sized : Sized mem a .gemm) (first last scratch : UInt32)
    (order : first < last) (top : last.toNat ≤ (rows a .gemm).toNat)
    (all : transposed a .gemm → first = 0 ∧ last = rows a .gemm) :
    ShareOf fmt (whole a .gemm) (portion a first last scratch .gemm)
      (first.toNat * width a .gemm) := by
  have below : first.toNat < (a Gemm.M).toNat := (UInt32.lt_iff_toNat_lt.mp order).trans_le top
  have inputA : (a Gemm.A + first * a Gemm.N * 4).toNat =
      (a Gemm.A).toNat + first.toNat * (a Gemm.N).toNat * 4 :=
    moved_exact (by simp [UInt32.ofNat_mul, UInt32.ofNat_toNat])
      (sized.room _ (List.mem_cons_self)) (rows_inside _ below)
  have inputC : (a Gemm.C + first * a Gemm.O * 4).toNat =
      (a Gemm.C).toNat + first.toNat * (a Gemm.O).toNat * 4 :=
    moved_exact (by simp [UInt32.ofNat_mul, UInt32.ofNat_toNat])
      (sized.room ⟨Gemm.C, false, _⟩ (by simp [extents])) (rows_inside _ below)
  have output : (a Gemm.Y + first * a Gemm.O * 4).toNat =
      (a Gemm.Y).toNat + first.toNat * (a Gemm.O).toNat * 4 :=
    moved_exact (by simp [UInt32.ofNat_mul, UInt32.ofNat_toNat])
      (sized.room ⟨Gemm.Y, true, _⟩ (by simp [extents])) (rows_inside _ below)
  refine ⟨?_, portion_top a .gemm first last scratch order top, ?_⟩
  · show (a Gemm.Y + first * a Gemm.O * 4).toNat =
      (a Gemm.Y).toNat + 4 * (first.toNat * (a Gemm.O).toNat)
    rw [output, Nat.mul_comm 4]
  · intro mem e inside
    have nonempty := width_positive order inside
    by_cases trans : a Gemm.transA = 0
    · show gemm _ _ _ _ _ (floats fmt mem (a Gemm.A + first * a Gemm.N * 4)) _
        (floats fmt mem (a Gemm.C + first * a Gemm.O * 4)) e = gemm _ _ _ _ _ _ _ _ _
      rw [floats_moved fmt mem inputA,
        floats_moved fmt mem inputC]
      simp only [trans, ne_eq, not_true_eq_false, decide_false]
      exact gemm_share _ _ _ _ _ _ _ _ _ e nonempty
    · -- the one core that takes all rows starts at row 0
      obtain ⟨rfl, rfl⟩ := all trans
      simp [portion, whole, value, rows]

theorem out_sizes (sized : Sized mem a .conv2d) (nonempty : 0 < (a Conv.F).toNat) :
    (divu (a Conv.H - a Conv.P) (a Conv.SP) + 1).toNat =
        outExtent (a Conv.H) (a Conv.P) (a Conv.SP) ∧
      (divu (a Conv.W - a Conv.Q) (a Conv.SQ) + 1).toNat =
        outExtent (a Conv.W) (a Conv.Q) (a Conv.SQ) := by
  obtain ⟨high, wide, down, along⟩ := sized.shaped
  have small : (a Conv.F).toNat * outExtent (a Conv.H) (a Conv.P) (a Conv.SP) *
      outExtent (a Conv.W) (a Conv.Q) (a Conv.SQ) * 4 < 2 ^ 32 :=
    sized.small _ (List.mem_append_left _
      (List.mem_cons_of_mem _ (List.mem_cons_of_mem _ List.mem_cons_self)))
  have tall : outExtent (a Conv.H) (a Conv.P) (a Conv.SP) ≤
      (a Conv.F).toNat * outExtent (a Conv.H) (a Conv.P) (a Conv.SP) :=
    Nat.le_mul_of_pos_left _ nonempty
  have area : (a Conv.F).toNat * outExtent (a Conv.H) (a Conv.P) (a Conv.SP) ≤
      (a Conv.F).toNat * outExtent (a Conv.H) (a Conv.P) (a Conv.SP) *
        outExtent (a Conv.W) (a Conv.Q) (a Conv.SQ) :=
    Nat.le_mul_of_pos_right _ (Nat.succ_pos _)
  have broad : outExtent (a Conv.W) (a Conv.Q) (a Conv.SQ) ≤
      (a Conv.F).toNat * outExtent (a Conv.H) (a Conv.P) (a Conv.SP) *
        outExtent (a Conv.W) (a Conv.Q) (a Conv.SQ) :=
    Nat.le_mul_of_pos_left _ (Nat.mul_pos nonempty (Nat.succ_pos _))
  exact ⟨out_exact high down (by omega), out_exact wide along (by omega)⟩

theorem conv2d_portion (sized : Sized mem a .conv2d) (first last scratch : UInt32)
    (order : first < last) (top : last.toNat ≤ (rows a .conv2d).toNat) :
    ShareOf fmt (whole a .conv2d) (portion a first last scratch .conv2d)
      (first.toNat * width a .conv2d) := by
  obtain ⟨high, wide, down, along⟩ := sized.shaped
  have below : first.toNat < (a Conv.F).toNat := (UInt32.lt_iff_toNat_lt.mp order).trans_le top
  have weights : (a Conv.B + first * a Conv.C * a Conv.P * a Conv.Q * 4).toNat =
      (a Conv.B).toNat +
        first.toNat * ((a Conv.C).toNat * (a Conv.P).toNat * (a Conv.Q).toNat) * 4 := by
    refine moved_exact (by simp [UInt32.ofNat_mul, UInt32.ofNat_toNat, UInt32.mul_assoc])
      (sized.room _ (List.mem_append_left _ (List.mem_cons_of_mem _ List.mem_cons_self))) ?_
    simpa only [Nat.mul_assoc] using
      rows_inside ((a Conv.C).toNat * (a Conv.P).toNat * (a Conv.Q).toNat) below
  have output : (a Conv.Y + first * (divu (a Conv.H - a Conv.P) (a Conv.SP) + 1) *
      (divu (a Conv.W - a Conv.Q) (a Conv.SQ) + 1) * 4).toNat =
      (a Conv.Y).toNat + first.toNat * (outExtent (a Conv.H) (a Conv.P) (a Conv.SP) *
        outExtent (a Conv.W) (a Conv.Q) (a Conv.SQ)) * 4 := by
    refine moved_exact (by
      simp [UInt32.ofNat_mul, UInt32.ofNat_toNat, UInt32.mul_assoc, out_cast high down,
        out_cast wide along]) (sized.room _ (List.mem_append_left _
          (List.mem_cons_of_mem _ (List.mem_cons_of_mem _ List.mem_cons_self)))) ?_
    simpa only [Nat.mul_assoc] using
      rows_inside (outExtent (a Conv.H) (a Conv.P) (a Conv.SP) *
        outExtent (a Conv.W) (a Conv.Q) (a Conv.SQ)) below
  obtain ⟨tall, broad⟩ := out_sizes sized (Nat.zero_lt_of_lt below)
  refine ⟨?_, portion_top a .conv2d first last scratch order top, ?_⟩
  · show (a Conv.Y + _ * _ * _ * 4).toNat = (a Conv.Y).toNat + 4 * (first.toNat * (_ * _))
    rw [output, tall, broad, Nat.mul_comm 4]
  · intro mem e inside
    have nonempty := width_positive order inside
    show conv2d _ _ (floats fmt mem (a Conv.B + first * a Conv.C * a Conv.P * a Conv.Q * 4))
      (floats fmt mem (a Conv.bias + first * 4)) e = conv2d _ _ _ _ _
    rw [floats_moved fmt mem weights]
    by_cases bias : a Conv.hasBias = 0
    · have nothing : (convShape (a Conv.C) (a Conv.H) (a Conv.W) (a Conv.P) (a Conv.Q) (a Conv.SP)
          (a Conv.SQ) (a Conv.hasBias)).hasBias = false := by
        simp [convShape, bias]
      rw [conv2d_unbiased nothing _ _ _ fun i => floats fmt mem (a Conv.bias) (first.toNat + i)]
      exact conv2d_share _ _ _ _ _ e nonempty
    · have biased : (a Conv.bias + first * 4).toNat = (a Conv.bias).toNat + first.toNat * 4 := by
        refine moved_exact (by simp [UInt32.ofNat_mul, UInt32.ofNat_toNat])
          (sized.room ⟨Conv.bias, false, (a Conv.F).toNat * 4⟩ ?_) (Or.inl ?_)
        · exact List.mem_append_right _ (by rw [if_pos bias]; exact List.mem_cons_self)
        · show first.toNat * 4 < (a Conv.F).toNat * 4
          omega
      rw [floats_moved fmt mem biased]
      exact conv2d_share _ _ _ _ _ e nonempty

theorem mfcc_portion (sized : Sized mem a .mfcc) (first last scratch : UInt32)
    (order : first < last) (top : last.toNat ≤ (rows a .mfcc).toNat) :
    ShareOf fmt (whole a .mfcc) (portion a first last scratch .mfcc)
      (first.toNat * width a .mfcc) := by
  have below : first.toNat < (a Mfcc.nbFrames).toNat :=
    (UInt32.lt_iff_toNat_lt.mp order).trans_le top
  have output : (a Mfcc.out + first * a Mfcc.nbCep * 4).toNat =
      (a Mfcc.out).toNat + first.toNat * (a Mfcc.nbCep).toNat * 4 :=
    moved_exact (by simp [UInt32.ofNat_mul, UInt32.ofNat_toNat])
      (sized.room _ (List.mem_cons_of_mem _ List.mem_cons_self)) (rows_inside _ below)
  refine ⟨?_, portion_top a .mfcc first last scratch order top, ?_⟩
  · show (a Mfcc.out + first * a Mfcc.nbCep * 4).toNat =
      (a Mfcc.out).toNat + 4 * (first.toNat * (a Mfcc.nbCep).toNat)
    rw [output, Nat.mul_comm 4]
  · intro mem e inside
    have nonempty := width_positive order inside
    show mfcc _ _ _ (floats fmt mem (a Mfcc.audio + first * a Mfcc.hop * 4)) e = mfcc _ _ _ _ _
    refine mfcc_share _ _ _ first.toNat _ _ e nonempty ?_
    intro frame i sample
    -- an empty frame reads no sample, so only then may its pointer be past the audio
    have audio : (a Mfcc.audio + first * a Mfcc.hop * 4).toNat =
        (a Mfcc.audio).toNat + first.toNat * (a Mfcc.hop).toNat * 4 := by
      refine moved_exact (by simp [UInt32.ofNat_mul, UInt32.ofNat_toNat])
        (sized.room _ List.mem_cons_self) (Or.inl ?_)
      have length : 0 < (a Mfcc.frameLen).toNat := Nat.zero_lt_of_lt sample
      have start : first.toNat * (a Mfcc.hop).toNat ≤
          ((a Mfcc.nbFrames).toNat - 1) * (a Mfcc.hop).toNat :=
        Nat.mul_le_mul_right _ (Nat.le_sub_one_of_lt below)
      show first.toNat * (a Mfcc.hop).toNat * 4 <
        (((a Mfcc.nbFrames).toNat - 1) * (a Mfcc.hop).toNat + (a Mfcc.frameLen).toNat) * 4
      omega
    exact congrFun (floats_moved fmt mem audio) _

theorem portion_share (kernel : Kernel) (sized : Sized mem a kernel)
    (first last scratch : UInt32) (order : first < last)
    (top : last.toNat ≤ (rows a kernel).toNat)
    (all : transposed a kernel → first = 0 ∧ last = rows a kernel) :
    ShareOf fmt (whole a kernel) (portion a first last scratch kernel)
      (first.toNat * width a kernel) := by
  cases kernel with
  | matmul => exact matmul_portion sized first last scratch order top
  | gemm => exact gemm_portion sized first last scratch order top all
  | conv2d => exact conv2d_portion sized first last scratch order top
  | mfcc => exact mfcc_portion sized first last scratch order top

end Shares

/-! ### A job reads its operands and nothing else -/

section Moved

variable {R : Type} [CommRing R] {fmt : Format R} {a a' : Nat → UInt32} {mem mem' : Mem}

def pointers : Kernel → List Nat
  | .matmul => [Mm.A, Mm.B, Mm.Y]
  | .gemm => [Gemm.A, Gemm.B, Gemm.C, Gemm.Y]
  | .conv2d => [Conv.A, Conv.B, Conv.Y, Conv.bias]
  | .mfcc => [Mfcc.audio, Mfcc.out, Mfcc.window, Mfcc.twiddles, Mfcc.melCoeff, Mfcc.melStart,
      Mfcc.melLen, Mfcc.dct]

def SameShape (a a' : Nat → UInt32) (kernel : Kernel) : Prop :=
  ∀ i, i < maxArgs ∧ i ∉ pointers kernel → a' i = a i

/-- The inputs at `a` in `mem` and at `a'` in `mem'` are the same bytes. -/
def SameInputs (a a' : Nat → UInt32) (mem mem' : Mem) (kernel : Kernel) : Prop :=
  ∀ x ∈ extents a kernel, x.isOutput = false →
    ∀ k < x.bytes, mem ((a x.arg).toNat + k) = mem' ((a' x.arg).toNat + k)

theorem matmul_moved (shape : SameShape a a' .matmul)
    (inputs : SameInputs a a' mem mem' .matmul) (e : Nat)
    (inside : e < (whole a .matmul).output.2) :
    value fmt mem (whole a .matmul) e = value fmt mem' (whole a' .matmul) e := by
  simp only [whole, value, shape Mm.N (by decide), shape Mm.O (by decide)]
  refine matmul_reach (floats_same fmt ?_) (floats_same fmt ?_) inside
  · exact inputs _ List.mem_cons_self rfl
  · exact inputs _ (List.mem_cons_of_mem _ List.mem_cons_self) rfl

theorem gemm_moved (shape : SameShape a a' .gemm)
    (inputs : SameInputs a a' mem mem' .gemm) (e : Nat)
    (inside : e < (whole a .gemm).output.2) :
    value fmt mem (whole a .gemm) e = value fmt mem' (whole a' .gemm) e := by
  simp only [whole, value, shape Gemm.M (by decide), shape Gemm.N (by decide),
    shape Gemm.O (by decide), shape Gemm.transA (by decide), shape Gemm.transB (by decide)]
  refine gemm_reach (floats_same fmt ?_) (floats_same fmt ?_) (floats_same fmt ?_) inside
  · exact inputs _ List.mem_cons_self rfl
  · exact inputs _ (List.mem_cons_of_mem _ List.mem_cons_self) rfl
  · exact inputs _ (List.mem_cons_of_mem _ (List.mem_cons_of_mem _ List.mem_cons_self)) rfl

theorem conv2d_moved (sized : Sized mem a .conv2d) (shape : SameShape a a' .conv2d)
    (inputs : SameInputs a a' mem mem' .conv2d) (e : Nat)
    (inside : e < (whole a .conv2d).output.2) :
    value fmt mem (whole a .conv2d) e = value fmt mem' (whole a' .conv2d) e := by
  have filters : 0 < (a Conv.F).toNat := by
    rw [whole_count] at inside
    exact Nat.pos_of_mul_pos_right (Nat.zero_lt_of_lt inside)
  obtain ⟨tall, broad⟩ := out_sizes sized filters
  obtain ⟨high, wide, down, along⟩ := sized.shaped
  simp only [whole, value, shape Conv.C (by decide), shape Conv.H (by decide),
    shape Conv.W (by decide), shape Conv.P (by decide), shape Conv.Q (by decide),
    shape Conv.SP (by decide), shape Conv.SQ (by decide), shape Conv.hasBias (by decide)]
  refine conv2d_reach tall broad (UInt32.le_iff_toNat_le.mp high)
    (UInt32.le_iff_toNat_le.mp wide) (floats_same fmt ?_) (floats_same fmt ?_) ?_
    (inside.trans_eq (whole_count a .conv2d))
  · exact inputs _ (List.mem_append_left _ List.mem_cons_self) rfl
  · have weights : ∀ k < (a Conv.F).toNat *
        ((a Conv.C).toNat * (a Conv.P).toNat * (a Conv.Q).toNat) * 4,
        mem ((a Conv.B).toNat + k) = mem' ((a' Conv.B).toNat + k) := by
      simpa only [Nat.mul_assoc] using inputs _ (List.mem_append_left _
        (List.mem_cons_of_mem _ List.mem_cons_self)) rfl
    exact weights
  · intro biased
    have bias : a Conv.hasBias ≠ 0 := by simpa [convShape] using biased
    refine floats_same fmt (inputs ⟨Conv.bias, false, (a Conv.F).toNat * 4⟩ ?_ rfl)
    exact List.mem_append_right _ (by rw [if_pos bias]; exact List.mem_cons_self)

theorem mfcc_moved (sized : Sized mem a .mfcc) (shape : SameShape a a' .mfcc)
    (inputs : SameInputs a a' mem mem' .mfcc) (e : Nat)
    (inside : e < (whole a .mfcc).output.2) :
    value fmt mem (whole a .mfcc) e = value fmt mem' (whole a' .mfcc) e := by
  obtain ⟨_, _, _, _, _, enough⟩ := sized.shaped
  simp only [SameInputs, extents, List.forall_mem_cons] at inputs
  obtain ⟨audio, _, window, twiddles, melCoeff, melStart, melLen, dct, _⟩ := inputs
  simp only [whole, value, shape Mfcc.frameLen (by decide), shape Mfcc.hop (by decide),
    shape Mfcc.fftLen (by decide), shape Mfcc.nbMel (by decide), shape Mfcc.nbCep (by decide)]
  refine mfcc_reach ⟨floats_same fmt (window trivial), floats_same fmt (twiddles trivial),
    floats_same fmt (melCoeff trivial), halves_same (melStart trivial),
      halves_same (melLen trivial),
    floats_same fmt (dct trivial)⟩ enough (floats_same fmt (audio trivial)) inside

theorem whole_moved (kernel : Kernel) (sized : Sized mem a kernel)
    (shape : SameShape a a' kernel)
    (inputs : SameInputs a a' mem mem' kernel) (e : Nat)
    (inside : e < (whole a kernel).output.2) :
    value fmt mem (whole a kernel) e = value fmt mem' (whole a' kernel) e := by
  cases kernel with
  | matmul => exact matmul_moved shape inputs e inside
  | gemm => exact gemm_moved shape inputs e inside
  | conv2d => exact conv2d_moved sized shape inputs e inside
  | mfcc => exact mfcc_moved sized shape inputs e inside

end Moved

end HeteroSim.SliceRun
