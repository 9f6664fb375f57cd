import Mathlib.Algebra.BigOperators.Group.Finset.Basic
import Mathlib.Algebra.Order.BigOperators.Group.Finset
import Mathlib.Algebra.Ring.Defs
import Mathlib.Tactic.Ring

/-!
The kernels as functions of whole arrays, in exact arithmetic: MatMul, Gemm,
Conv2d and the MFCC front-end, element by element of the output. An array is a
function of the index, so that each kernel says for itself how far it reads.
The shapes are bounded by the 32-bit sizes of the arrays, so no index wraps.
-/

namespace HeteroSim.Kernels

open Finset

section Kernels

variable {R : Type} [CommRing R]

/-- `Y[M][O] = A[M][N] * B[N][O]`. -/
def matmul (N O : Nat) (A B : Nat → R) (e : Nat) : R :=
  ∑ k ∈ range N, A (e / O * N + k) * B (k * O + e % O)

/-- `Y[M][O] = op(A) * op(B) + C[M][O]`. -/
def gemm (M N O : Nat) (transA transB : Bool) (A B C : Nat → R) (e : Nat) : R :=
  ∑ k ∈ range N,
    A (if transA then k * M + e / O else e / O * N + k) *
      B (if transB then e % O * N + k else k * O + e % O) + C e

structure Convolution where
  C : Nat
  H : Nat
  W : Nat
  P : Nat
  Q : Nat
  SP : Nat
  SQ : Nat
  hOut : Nat
  wOut : Nat
  hasBias : Bool

/-- `Y[F][H_out][W_out]` over `A[C][H][W]` with filters `B[F][C][P][Q]`. -/
def conv2d (s : Convolution) (A B bias : Nat → R) (e : Nat) : R :=
  let f := e / (s.hOut * s.wOut)
  let h := e % (s.hOut * s.wOut) / s.wOut
  let w := e % (s.hOut * s.wOut) % s.wOut
  let sum := ∑ c ∈ range s.C, ∑ p ∈ range s.P, ∑ q ∈ range s.Q,
    A (c * s.H * s.W + (h * s.SP + p) * s.W + (w * s.SQ + q)) *
      B (f * (s.C * s.P * s.Q) + c * s.P * s.Q + p * s.Q + q)
  if s.hasBias then sum + bias f else sum

/-! ### `fft_radix2` -/

structure Spectrum (R : Type) where
  re : Nat → R
  im : Nat → R

def set (xs : Nat → R) (i : Nat) (v : R) : Nat → R := fun j => if j = i then v else xs j

/-- `bit_reverse`: the low `bits` bits of `i`, reversed. -/
def bitReverse (i bits : Nat) : Nat :=
  (List.range bits).foldl (fun r b => 2 * r + i / 2 ^ b % 2) 0

/-- `while ((1u << bits) < n) bits++`. -/
def bitsFrom (n : Nat) : Nat → Nat → Nat
  | 0, bits => bits
  | fuel + 1, bits => if 2 ^ bits < n then bitsFrom n fuel (bits + 1) else bits

def swap (x : Spectrum R) (i j : Nat) : Spectrum R :=
  { re := set (set x.re i (x.re j)) j (x.re i)
    im := set (set x.im i (x.im j)) j (x.im i) }

def reorder (n : Nat) (x : Spectrum R) : Spectrum R :=
  (List.range n).foldl (fun x i =>
    let j := bitReverse i (bitsFrom n 32 0)
    if i < j then swap x i j else x) x

def butterfly (wr wi : R) (a b : Nat) (x : Spectrum R) : Spectrum R :=
  let vr := x.re b * wr - x.im b * wi
  let vi := x.re b * wi + x.im b * wr
  let ur := x.re a
  let ui := x.im a
  { re := set (set x.re a (ur + vr)) b (ur - vr)
    im := set (set x.im a (ui + vi)) b (ui - vi) }

/-- One stage: the twiddle of `j`, then a pass over the blocks of `len`. -/
def stage (n : Nat) (twiddles : Nat → R) (len : Nat) (x : Spectrum R) : Spectrum R :=
  (List.range (len / 2)).foldl (fun x j =>
    let wr := twiddles (2 * j * (n / len))
    let wi := twiddles (2 * j * (n / len) + 1)
    (List.range ((n + len - 1) / len)).foldl (fun x block =>
      butterfly wr wi (block * len + j) (block * len + j + len / 2) x) x) x

/-- `for (len = 2; len <= n; len <<= 1)`. -/
def stages (n : Nat) (twiddles : Nat → R) : Nat → Nat → Spectrum R → Spectrum R
  | 0, _, x => x
  | fuel + 1, len, x =>
      if len ≤ n then stages n twiddles fuel (2 * len) (stage n twiddles len x) else x

def fftRadix2 (n : Nat) (twiddles : Nat → R) (x : Spectrum R) : Spectrum R :=
  stages n twiddles 32 2 (reorder n x)

/-! ### `Mfcc_fp32_fp32` -/

structure Front where
  frameLen : Nat
  hop : Nat
  fftLen : Nat
  nbMel : Nat
  nbCep : Nat

structure Tables (R : Type) where
  window : Nat → R
  twiddles : Nat → R
  melCoeff : Nat → R
  melStart : Nat → Nat
  melLen : Nat → Nat
  dct : Nat → R

/-- The spectrum of a windowed, padded frame, its lower half turned to power. -/
def power (s : Front) (t : Tables R) (frame : Nat → R) (b : Nat) : R :=
  let x := fftRadix2 s.fftLen t.twiddles
    { re := fun i => if i < s.frameLen then frame i * t.window i else 0, im := fun _ => 0 }
  if b < s.fftLen / 2 + 1 then x.re b * x.re b + x.im b * x.im b else x.re b

/-- Where the coefficients of filter `m` begin. -/
def offset (melLen : Nat → Nat) (m : Nat) : Nat := ∑ i ∈ range m, melLen i

/-- Filter `m`; `logFloored` is `logf` of its argument or of the floor. -/
def mel (logFloored : R → R) (s : Front) (t : Tables R) (frame : Nat → R) (m : Nat) : R :=
  logFloored (∑ i ∈ range (t.melLen m),
    power s t frame (t.melStart m + i) * t.melCoeff (offset t.melLen m + i))

/-- `out[t][c]`, frame-major. -/
def mfcc (logFloored : R → R) (s : Front) (t : Tables R) (audio : Nat → R) (e : Nat) : R :=
  ∑ m ∈ range s.nbMel, t.dct (e % s.nbCep * s.nbMel + m) *
    mel logFloored s t (fun i => audio (e / s.nbCep * s.hop + i)) m

/-! ### How far each kernel reads -/

theorem row_col {e rows cols : Nat} (inside : e < rows * cols) :
    e / cols < rows ∧ e % cols < cols := by
  have nonempty : 0 < cols := by
    rcases Nat.eq_zero_or_pos cols with nothing | nonempty
    · rw [nothing, Nat.mul_zero] at inside
      exact absurd inside (Nat.not_lt_zero e)
    · exact nonempty
  exact ⟨Nat.div_lt_of_lt_mul (by rwa [Nat.mul_comm] at inside), Nat.mod_lt e nonempty⟩

theorem entry_lt {i k rows cols : Nat} (row : i < rows) (col : k < cols) :
    i * cols + k < rows * cols := by
  calc i * cols + k < i * cols + cols := Nat.add_lt_add_left col _
    _ = (i + 1) * cols := (Nat.succ_mul i cols).symm
    _ ≤ rows * cols := Nat.mul_le_mul_right cols row

theorem matmul_reach {M N O : Nat} {A A' B B' : Nat → R}
    (sameA : ∀ i < M * N, A i = A' i) (sameB : ∀ i < N * O, B i = B' i) {e : Nat}
    (inside : e < M * O) : matmul N O A B e = matmul N O A' B' e := by
  obtain ⟨row, col⟩ := row_col inside
  refine sum_congr rfl fun k member => ?_
  have below := mem_range.mp member
  rw [sameA _ (entry_lt row below), sameB _ (entry_lt below col)]

theorem gemm_reach {M N O : Nat} {transA transB : Bool} {A A' B B' C C' : Nat → R}
    (sameA : ∀ i < M * N, A i = A' i) (sameB : ∀ i < N * O, B i = B' i)
    (sameC : ∀ i < M * O, C i = C' i) {e : Nat} (inside : e < M * O) :
    gemm M N O transA transB A B C e = gemm M N O transA transB A' B' C' e := by
  obtain ⟨row, col⟩ := row_col inside
  have sums : ∀ k ∈ range N,
      A (if transA then k * M + e / O else e / O * N + k) *
        B (if transB then e % O * N + k else k * O + e % O) =
      A' (if transA then k * M + e / O else e / O * N + k) *
        B' (if transB then e % O * N + k else k * O + e % O) := by
    intro k member
    have below := mem_range.mp member
    rw [sameA, sameB]
    · cases transB
      · exact entry_lt below col
      · exact (entry_lt col below).trans_eq (Nat.mul_comm O N)
    · cases transA
      · exact entry_lt row below
      · exact (entry_lt below row).trans_eq (Nat.mul_comm N M)
  rw [gemm, gemm, sum_congr rfl sums, sameC e inside]

theorem window_lt {h p P SP H : Nat} (fits : P ≤ H) (row : h < (H - P) / SP + 1) (tap : p < P) :
    h * SP + p < H := by
  have below : h * SP ≤ H - P :=
    (Nat.mul_le_mul_right SP (Nat.lt_succ_iff.mp row)).trans (Nat.div_mul_le_self (H - P) SP)
  omega

theorem conv2d_reach {s : Convolution} {F : Nat} {A A' B B' bias bias' : Nat → R}
    (rows : s.hOut = (s.H - s.P) / s.SP + 1) (cols : s.wOut = (s.W - s.Q) / s.SQ + 1)
    (high : s.P ≤ s.H) (wide : s.Q ≤ s.W)
    (sameA : ∀ i < s.C * s.H * s.W, A i = A' i)
    (sameB : ∀ i < F * (s.C * s.P * s.Q), B i = B' i)
    (sameBias : s.hasBias = true → ∀ i < F, bias i = bias' i) {e : Nat}
    (inside : e < F * (s.hOut * s.wOut)) : conv2d s A B bias e = conv2d s A' B' bias' e := by
  obtain ⟨filter, pixel⟩ := row_col inside
  obtain ⟨row, col⟩ := row_col pixel
  have sums : ∀ c ∈ range s.C, ∀ p ∈ range s.P, ∀ q ∈ range s.Q,
      A (c * s.H * s.W + (e % (s.hOut * s.wOut) / s.wOut * s.SP + p) * s.W +
          (e % (s.hOut * s.wOut) % s.wOut * s.SQ + q)) *
        B (e / (s.hOut * s.wOut) * (s.C * s.P * s.Q) + c * s.P * s.Q + p * s.Q + q) =
      A' (c * s.H * s.W + (e % (s.hOut * s.wOut) / s.wOut * s.SP + p) * s.W +
          (e % (s.hOut * s.wOut) % s.wOut * s.SQ + q)) *
        B' (e / (s.hOut * s.wOut) * (s.C * s.P * s.Q) + c * s.P * s.Q + p * s.Q + q) := by
    intro c channel p tapRow q tapCol
    have cBelow := mem_range.mp channel
    have pBelow := mem_range.mp tapRow
    have qBelow := mem_range.mp tapCol
    have y := window_lt high (row.trans_eq rows) pBelow
    have x := window_lt wide (col.trans_eq cols) qBelow
    have input := entry_lt (entry_lt cBelow y) x
    have weight := entry_lt filter (entry_lt (entry_lt cBelow pBelow) qBelow)
    rw [sameA _ ?_, sameB _ ?_]
    · convert weight using 1
      ring
    · convert input using 1
      ring
  have same := sum_congr rfl fun c channel => sum_congr rfl fun p tapRow =>
    sum_congr rfl fun q tapCol => sums c channel p tapRow q tapCol
  simp only [conv2d]
  rw [same]
  cases bias? : s.hasBias
  · rfl
  · rw [if_pos rfl, if_pos rfl, sameBias bias? _ filter]

theorem stage_reach {n len : Nat} {w w' : Nat → R} (even : 2 ∣ len) (short : len ≤ n)
    (same : ∀ i < n, w i = w' i) (x : Spectrum R) : stage n w len x = stage n w' len x := by
  obtain ⟨half, rfl⟩ := even
  refine List.foldl_ext _ _ _ fun x j member => ?_
  have below : j < half := by simpa using member
  have step : 0 < n / (2 * half) := Nat.div_pos short (by omega)
  have last : 2 * j * (n / (2 * half)) + 2 * (n / (2 * half)) ≤ n := by
    calc 2 * j * (n / (2 * half)) + 2 * (n / (2 * half))
        = 2 * (j + 1) * (n / (2 * half)) := by ring
      _ ≤ 2 * half * (n / (2 * half)) := by
          exact Nat.mul_le_mul_right _ (Nat.mul_le_mul_left 2 below)
      _ ≤ n := Nat.mul_div_le n (2 * half)
  simp only
  rw [same _ (by omega), same _ (by omega)]

theorem stages_reach {n : Nat} {w w' : Nat → R} (same : ∀ i < n, w i = w' i) (fuel len : Nat)
    (even : 2 ∣ len) (x : Spectrum R) : stages n w fuel len x = stages n w' fuel len x := by
  induction fuel generalizing len x with
  | zero => rfl
  | succ fuel ih =>
      rw [stages, stages]
      by_cases short : len ≤ n
      · rw [if_pos short, if_pos short, stage_reach even short same]
        exact ih (2 * len) (Nat.dvd_mul_right 2 len) _
      · rw [if_neg short, if_neg short]

/-- The tables as far as `nb` filters and `coeffs` coefficients go. -/
structure SameTables (s : Front) (coeffs : Nat) (t t' : Tables R) : Prop where
  window : ∀ i < s.frameLen, t.window i = t'.window i
  twiddles : ∀ i < s.fftLen, t.twiddles i = t'.twiddles i
  melCoeff : ∀ i < coeffs, t.melCoeff i = t'.melCoeff i
  melStart : ∀ i < s.nbMel, t.melStart i = t'.melStart i
  melLen : ∀ i < s.nbMel, t.melLen i = t'.melLen i
  dct : ∀ i < s.nbCep * s.nbMel, t.dct i = t'.dct i

section Front

variable {logFloored : R → R} {s : Front} {coeffs : Nat} {t t' : Tables R}

theorem power_reach (same : SameTables s coeffs t t') {frame frame' : Nat → R}
    (sameFrame : ∀ i < s.frameLen, frame i = frame' i) :
    power s t frame = power s t' frame' := by
  have padded : (fun i => if i < s.frameLen then frame i * t.window i else 0) =
      fun i => if i < s.frameLen then frame' i * t'.window i else 0 := by
    funext i
    by_cases inside : i < s.frameLen
    · rw [if_pos inside, if_pos inside, sameFrame i inside, same.window i inside]
    · rw [if_neg inside, if_neg inside]
  funext b
  simp only [power, fftRadix2, padded, stages_reach same.twiddles 32 2 (Nat.dvd_refl 2)]

omit [CommRing R] in
theorem offset_reach (same : SameTables s coeffs t t') {m : Nat} (filter : m ≤ s.nbMel) :
    offset t.melLen m = offset t'.melLen m :=
  sum_congr rfl fun i member => same.melLen i ((mem_range.mp member).trans_le filter)

theorem mel_reach (same : SameTables s coeffs t t') (enough : offset t.melLen s.nbMel ≤ coeffs)
    {frame frame' : Nat → R} (sameFrame : ∀ i < s.frameLen, frame i = frame' i) {m : Nat}
    (filter : m < s.nbMel) : mel logFloored s t frame m = mel logFloored s t' frame' m := by
  have taps : ∀ i ∈ range (t.melLen m),
      power s t frame (t.melStart m + i) * t.melCoeff (offset t.melLen m + i) =
        power s t' frame' (t'.melStart m + i) * t'.melCoeff (offset t'.melLen m + i) := by
    intro i member
    have inside : offset t.melLen m + i < coeffs := by
      calc offset t.melLen m + i < offset t.melLen m + t.melLen m :=
            Nat.add_lt_add_left (mem_range.mp member) _
        _ = offset t.melLen (m + 1) := (sum_range_succ t.melLen m).symm
        _ ≤ offset t.melLen s.nbMel := by
            exact sum_le_sum_of_subset (range_subset_range.mpr filter)
        _ ≤ coeffs := enough
    rw [power_reach same sameFrame, same.melStart m filter, same.melCoeff _ inside,
      offset_reach same (Nat.le_of_lt filter)]
  rw [mel, mel, sum_congr rfl taps, same.melLen m filter]

theorem mfcc_reach {frames : Nat} {audio audio' : Nat → R} (same : SameTables s coeffs t t')
    (enough : offset t.melLen s.nbMel ≤ coeffs)
    (sameAudio : ∀ i < (frames - 1) * s.hop + s.frameLen, audio i = audio' i) {e : Nat}
    (inside : e < frames * s.nbCep) :
    mfcc logFloored s t audio e = mfcc logFloored s t' audio' e := by
  obtain ⟨frame, cepstrum⟩ := row_col inside
  refine sum_congr rfl fun m member => ?_
  have filter := mem_range.mp member
  have sameFrame : ∀ i < s.frameLen,
      audio (e / s.nbCep * s.hop + i) = audio' (e / s.nbCep * s.hop + i) := by
    intro i below
    have start : e / s.nbCep * s.hop ≤ (frames - 1) * s.hop :=
      Nat.mul_le_mul_right s.hop (Nat.le_sub_one_of_lt frame)
    exact sameAudio _ (by omega)
  rw [same.dct _ (entry_lt cepstrum filter), mel_reach same enough sameFrame filter]

end Front

/-! ### A share of the output is a kernel call on shifted arrays -/

theorem shifted_div (first row e : Nat) (nonempty : 0 < row) :
    (first * row + e) / row = first + e / row ∧ (first * row + e) % row = e % row := by
  rw [Nat.add_comm]
  exact ⟨by rw [Nat.add_mul_div_right _ _ nonempty, Nat.add_comm], Nat.add_mul_mod_self_right _ _ _⟩

theorem matmul_share (N O first : Nat) (A B : Nat → R) (e : Nat) (nonempty : 0 < O) :
    matmul N O (fun i => A (first * N + i)) B e = matmul N O A B (first * O + e) := by
  obtain ⟨row, col⟩ := shifted_div first O e nonempty
  refine sum_congr rfl fun k _ => ?_
  rw [row, col, Nat.add_mul, Nat.add_assoc]

theorem gemm_share (M M' N O first : Nat) (transB : Bool) (A B C : Nat → R) (e : Nat)
    (nonempty : 0 < O) :
    gemm M' N O false transB (fun i => A (first * N + i)) B (fun i => C (first * O + i)) e =
      gemm M N O false transB A B C (first * O + e) := by
  obtain ⟨row, col⟩ := shifted_div first O e nonempty
  have sums : ∀ k ∈ range N,
      A (first * N + (e / O * N + k)) * B (if transB then e % O * N + k else k * O + e % O) =
        A ((first * O + e) / O * N + k) *
          B (if transB then (first * O + e) % O * N + k else k * O + (first * O + e) % O) := by
    intro k _
    rw [row, col, Nat.add_mul, Nat.add_assoc]
  simp only [gemm, Bool.false_eq_true, if_false]
  rw [sum_congr rfl sums]

theorem conv2d_unbiased {s : Convolution} (nothing : s.hasBias = false) (A B bias bias' : Nat → R)
    (e : Nat) : conv2d s A B bias e = conv2d s A B bias' e := by
  simp [conv2d, nothing]

theorem conv2d_share (s : Convolution) (first : Nat) (A B bias : Nat → R) (e : Nat)
    (nonempty : 0 < s.hOut * s.wOut) :
    conv2d s A (fun i => B (first * (s.C * s.P * s.Q) + i)) (fun i => bias (first + i)) e =
      conv2d s A B bias (first * (s.hOut * s.wOut) + e) := by
  obtain ⟨filter, pixel⟩ := shifted_div first (s.hOut * s.wOut) e nonempty
  simp only [conv2d, filter, pixel, Nat.add_mul, Nat.add_assoc]

theorem mfcc_share (logFloored : R → R) (s : Front) (t : Tables R) (first : Nat)
    (audio audio' : Nat → R) (e : Nat) (nonempty : 0 < s.nbCep)
    (moved : ∀ frame i, i < s.frameLen →
      audio' (frame * s.hop + i) = audio (first * s.hop + (frame * s.hop + i))) :
    mfcc logFloored s t audio' e = mfcc logFloored s t audio (first * s.nbCep + e) := by
  obtain ⟨frame, cepstrum⟩ := shifted_div first s.nbCep e nonempty
  have same : SameTables s (offset t.melLen s.nbMel) t t :=
    ⟨fun _ _ => rfl, fun _ _ => rfl, fun _ _ => rfl, fun _ _ => rfl, fun _ _ => rfl,
      fun _ _ => rfl⟩
  refine sum_congr rfl fun m member => ?_
  rw [cepstrum, frame, mel_reach same (Nat.le_refl _) ?_ (mem_range.mp member)]
  intro i inside
  rw [moved _ i inside, Nat.add_mul, Nat.add_assoc]

end Kernels

end HeteroSim.Kernels
