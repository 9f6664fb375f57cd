import HeteroSim.FftRadix2
import HeteroSim.MelBands

/-!
The MFCC kernel against the pipeline's own reference: the transform instead of the
butterflies, and the dense bank instead of the stored one.
-/

namespace HeteroSim.GoldenMfcc

open Kernels FftRadix2 MelBands RaggedRuns
open HeteroSim.Fourier (transform)

section Golden

variable {R : Type} [CommRing R] (logFloored : R → R) (s : Front) (w : Plane R)
  (window dct : Nat → R) (fb : List (List R))

/-- `spec.real ** 2 + spec.imag ** 2` of `np.fft.rfft(frame * window, n = FFT_LEN)`. -/
def goldenPower (frame : Nat → R) (b : Nat) : R :=
  let spec := transform s.fftLen w
    (fun i => ⟨if i < s.frameLen then frame i * window i else 0, 0⟩) b
  spec.re * spec.re + spec.im * spec.im

/-- Entry `m` of `np.log(np.maximum(power @ fb.T, MEL_FLOOR))`. -/
def goldenMel (frame : Nat → R) (m : Nat) : R :=
  logFloored (∑ b ∈ Finset.range (s.fftLen / 2 + 1),
    goldenPower s w window frame b * (fb.getD m []).getD b 0)

/-- `mfcc`: entry `e` of `logmel @ dct.T`, frame-major. -/
def golden (audio : Nat → R) (e : Nat) : R :=
  ∑ m ∈ Finset.range s.nbMel,
    goldenMel logFloored s w window fb (fun i => audio (e / s.nbCep * s.hop + i)) m *
      dct (e % s.nbCep * s.nbMel + m)

end Golden

section Kernel

variable {R : Type} [CommRing R] [DecidableEq R] {s : Front} {t : Tables R}

structure HoldsBank (t : Tables R) (band : Banded R) : Prop where
  coeff : ∀ (i : Nat) (c : R), band.coeff[i]? = some c → t.melCoeff i = c
  start : ∀ (m : Nat) (start : UInt16), band.start[m]? = some start → t.melStart m = start.toNat
  length : ∀ (m : Nat) (len : UInt16), band.length[m]? = some len → t.melLen m = len.toNat

omit [DecidableEq R] in
theorem power_golden {k : Nat} (size : s.fftLen = 2 ^ k) (short : k < 31) (w : Plane R)
    (root : 0 < k → w ^ (2 ^ k / 2) = -1) (holds : Holds (2 ^ k) w t.twiddles)
    (frame : Nat → R) {b : Nat} (bin : b < s.fftLen / 2 + 1) :
    power s t frame b = goldenPower s w t.window frame b := by
  -- the lower half and its middle are bins of the transform
  have below : b < 2 ^ k := by
    have positive := Nat.two_pow_pos k
    omega
  have transformed := kernel_transform short w root t.twiddles holds
    { re := fun i => if i < s.frameLen then frame i * t.window i else 0, im := fun _ => 0 } below
  have re := congrArg QuadraticAlgebra.re transformed
  have im := congrArg QuadraticAlgebra.im transformed
  rw [power, goldenPower]
  dsimp only [value] at re im ⊢
  rw [if_pos bin, size, re, im]
  rfl

variable {fb : List (List R)} {band : Banded R} (stored : bandFilterbank fb = some band)
  (narrow : ∀ row ∈ fb, row.length < 2 ^ 16) (held : HoldsBank t band)

include stored narrow held

theorem bank_tables {m : Nat} {row : List R} (found : fb[m]? = some row) :
    t.melStart m = (extent row).1 ∧ t.melLen m = (extent row).2 := by
  obtain rfl := Option.some.inj (stored.symm.trans (bank_stored fb narrow))
  have short := narrow row (List.mem_of_getElem? found)
  have encloses := (extent_encloses row).inside
  have words : (extent row).1 < 2 ^ 16 ∧ (extent row).2 < 2 ^ 16 := by omega
  constructor
  · rw [held.start m (UInt16.ofNat (extent row).1) (by simp [found])]
    exact UInt16.toNat_ofNat_of_lt' words.1
  · rw [held.length m (UInt16.ofNat (extent row).2) (by simp [found])]
    exact UInt16.toNat_ofNat_of_lt' words.2

theorem offset_before {m : Nat} (within : m ≤ fb.length) :
    Kernels.offset t.melLen m = before fb m := by
  -- the kernel adds up the lengths that the bank stored
  induction m with
  | zero => rfl
  | succ m ih =>
      have found : fb[m]? = some fb[m] := List.getElem?_eq_getElem within
      rw [before_succ fb found, ← ih (Nat.le_of_succ_le within),
        ← (bank_tables stored narrow held found).2]
      exact Finset.sum_range_succ t.melLen m

theorem mel_dense (logFloored : R → R) (frame : Nat → R) {m : Nat} {row : List R}
    (found : fb[m]? = some row) :
    mel logFloored s t frame m =
      logFloored (∑ b ∈ Finset.range row.length, power s t frame b * row.getD b 0) := by
  obtain ⟨starts, lengths⟩ := bank_tables stored narrow held found
  have short : m < fb.length := (List.getElem?_eq_some_iff.mp found).choose
  have encloses := extent_encloses row
  have run := sum_run (fun b => power s t frame b * row.getD b 0) encloses.inside
    fun b below outside => by rw [encloses.zeros b below outside, mul_zero]
  rw [mel, offset_before stored narrow held short.le, starts, lengths, run]
  refine congrArg logFloored (Finset.sum_congr rfl fun i member => ?_)
  have coeff := coeff_found fb found (Finset.mem_range.mp member)
  rw [held.coeff _ _ ?_]
  rw [Option.some.inj (stored.symm.trans (bank_stored fb narrow))]
  exact coeff

/-- The kernel computes what the pipeline's reference computes, frame by frame. -/
theorem mfcc_golden (logFloored : R → R) {k : Nat} (size : s.fftLen = 2 ^ k) (short : k < 31)
    (w : Plane R) (root : 0 < k → w ^ (2 ^ k / 2) = -1) (holds : Holds (2 ^ k) w t.twiddles)
    (rect : ∀ row ∈ fb, row.length = s.fftLen / 2 + 1) (filters : fb.length = s.nbMel)
    (audio : Nat → R) (e : Nat) :
    mfcc logFloored s t audio e = golden logFloored s w t.window t.dct fb audio e := by
  refine Finset.sum_congr rfl fun m member => ?_
  have below : m < fb.length := (Finset.mem_range.mp member).trans_eq filters.symm
  have found : fb[m]? = some fb[m] := List.getElem?_eq_getElem below
  have wide := rect fb[m] (List.getElem_mem below)
  rw [mel_dense stored narrow held logFloored _ found, goldenMel, List.getD_eq_getElem?_getD,
    found, Option.getD_some, wide, mul_comm]
  refine congrArg (logFloored · * _) (Finset.sum_congr rfl fun b bin => ?_)
  rw [power_golden size short w root holds _ (Finset.mem_range.mp bin)]

end Kernel

def fourTables : Tables ℤ where
  window := fun i => [1, 2, 1].getD i 0
  twiddles := fun i => [1, 0, 0, -1].getD i 0
  melCoeff := fun i => [2, 3, 5].getD i 0
  melStart := fun m => [1, 1].getD m 0
  melLen := fun m => [1, 2].getD m 0
  dct := fun m => [1, -1].getD m 0

/-- Two filters over three bins and `w = -i`: one stores a bin, the other two. -/
theorem mfcc_golden_four :
    (∀ audio e, mfcc (max 1) ⟨3, 1, 4, 2, 1⟩ fourTables audio e =
      golden (max 1) ⟨3, 1, 4, 2, 1⟩ (⟨0, -1⟩ : Plane ℤ) fourTables.window fourTables.dct
        [[0, 2, 0], [0, 3, 5]] audio e) ∧
      mfcc (max 1) ⟨3, 1, 4, 2, 1⟩ fourTables (fun i => i) 1 = -20 := by
  refine ⟨fun audio e => ?_, by decide +kernel⟩
  have stored : bandFilterbank [[0, 2, 0], [0, 3, 5]] =
      some (⟨[2, 3, 5], [1, 1], [1, 2]⟩ : Banded ℤ) := rfl
  have held : HoldsBank fourTables ⟨[2, 3, 5], [1, 1], [1, 2]⟩ :=
    { coeff := fun i c found => by simp [fourTables, List.getD_eq_getElem?_getD, found]
      start
        | 0, _, rfl => rfl
        | 1, _, rfl => rfl
        | m + 2, _, found => by cases found
      length
        | 0, _, rfl => rfl
        | 1, _, rfl => rfl
        | m + 2, _, found => by cases found }
  refine mfcc_golden stored (by decide) held (max 1) (k := 2) rfl (by decide) ⟨0, -1⟩
    (fun _ => by decide) ?_ (by decide) rfl audio e
  intro k below
  have few : k = 0 ∨ k = 1 := by
    have : (2 ^ 2 / 2 : Nat) = 2 := rfl
    omega
  rcases few with rfl | rfl <;> decide

end HeteroSim.GoldenMfcc
