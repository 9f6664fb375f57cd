import HeteroSim.MfccKernels

/-!
The scalar part of the MFCC kernels on two cores at once: the window, `fft_radix2` and
the power spectrum, which both kernels share, and the cepstra that are not streamed.
-/

namespace HeteroSim.MfccSpectrum

open SliceRun SnitchSsr TwoRuns CoupledCores MfccKernels
open FftRadix2 (lens visits cells)

theorem lens_ends {n : Nat} (small : n < 2 ^ 31) (fuel e : Nat) (word : e ≤ 31)
    (enough : fuel + e = 33) : ∃ passes, lens n fuel (2 ^ e) = some passes := by
  induction fuel generalizing e with
  | zero => omega
  | succ fuel ih =>
      rw [lens]
      by_cases runs : 2 ^ e ≤ n
      · have below : e < 31 :=
          (Nat.pow_lt_pow_iff_right (by omega)).mp (Nat.lt_of_le_of_lt runs small)
        have fits : 2 ^ (e + 1) < 2 ^ 32 := Nat.pow_lt_pow_right (by omega) (by omega)
        obtain ⟨rest, ended⟩ := ih (e + 1) below (by omega)
        rw [if_pos runs, Nat.mul_comm, ← Nat.pow_succ, Nat.mod_eq_of_lt fits, ended]
        exact ⟨2 ^ e :: rest, rfl⟩
      · rw [if_neg runs]
        exact ⟨[], rfl⟩

section Spectrum

variable {R : Type} [CommRing R] {fmt : Format R} {place : Nat → Prop}
  {rel : Core R → Core R → Prop} (lock : Lockstep fmt place rel)

/-- Element `i` of both arrays may be stored to. -/
def Spot (place : Nat → Prop) (re im : UInt32) (i : Nat) : Prop :=
  place (cell re (UInt32.ofNat i)).toNat ∧ place (cell im (UInt32.ofNat i)).toNat

section Fft

variable {re im : UInt32}

include lock

theorem put_both {c c' : Core R} (held : rel c c') {i : Nat} (spot : Spot place re im i) (r s : R) :
    Both rel (put fmt re im i r s c) (put fmt re im i r s c') := by
  apply Both.bind (lock.store held _ r spot.1)
  intro d d' held
  exact lock.store held _ s spot.2

theorem swap_both {c c' : Core R} (held : rel c c') {i j : Nat} (first : Spot place re im i)
    (second : Spot place re im j) :
    Both rel (swap fmt re im i j c) (swap fmt re im i j c') := by
  apply Both.bind (lock.scalar held fun mem =>
    (load fmt mem (cell re (UInt32.ofNat i)), load fmt mem (cell re (UInt32.ofNat j))))
  rintro ⟨tr, r⟩ _ ⟨rfl, _⟩
  apply Both.bind (lock.store held _ r first.1)
  intro d d' held
  apply Both.bind (lock.store held _ tr second.1)
  intro d d' held
  apply Both.bind (lock.scalar held fun mem =>
    (load fmt mem (cell im (UInt32.ofNat i)), load fmt mem (cell im (UInt32.ofNat j))))
  rintro ⟨ti, s⟩ _ ⟨rfl, _⟩
  apply Both.bind (lock.store held _ s first.2)
  intro d d' held
  exact lock.store held _ ti second.2

theorem butterfly_both {c c' : Core R} (held : rel c c') (wr wi : R) {a b : Nat}
    (first : Spot place re im a) (second : Spot place re im b) :
    Both rel (butterfly fmt re im wr wi a b c) (butterfly fmt re im wr wi a b c') := by
  apply Both.bind (lock.scalar held fun mem =>
    (load fmt mem (cell re (UInt32.ofNat b)), load fmt mem (cell im (UInt32.ofNat b))))
  rintro ⟨xr, xi⟩ _ ⟨rfl, _⟩
  apply Both.bind (lock.scalar held fun mem =>
    (load fmt mem (cell re (UInt32.ofNat a)), load fmt mem (cell im (UInt32.ofNat a))))
  rintro ⟨ur, ui⟩ _ ⟨rfl, _⟩
  apply Both.bind (put_both lock held first _ _)
  intro d d' held
  exact put_both lock held second _ _

theorem stage_both {c c' : Core R} (held : rel c c') (n : Nat) (twiddles : UInt32) (len : Nat)
    (spots : ∀ v ∈ visits n len, Spot place re im (cells len v).1 ∧
    Spot place re im (cells len v).2) :
    Both rel (stage fmt re im n twiddles c len) (stage fmt re im n twiddles c' len) := by
  apply Both.fold
  · exact held
  intro j place c c' held
  apply Both.bind (lock.scalar held fun mem =>
    (load fmt mem (cell twiddles (UInt32.ofNat (2 * j * (n / len)))),
      load fmt mem (cell twiddles (UInt32.ofNat (2 * j * (n / len) + 1)))))
  rintro ⟨wr, wi⟩ _ ⟨rfl, _⟩
  apply Both.fold
  · exact held
  intro block inside c c' held
  have turn : (j, block) ∈ visits n len := by
    rw [FftRadix2.mem_visits]
    exact ⟨List.mem_range.mp place, List.mem_range.mp inside⟩
  obtain ⟨first, second⟩ := spots (j, block) turn
  exact butterfly_both lock held wr wi first second

end Fft

/-- The elements `fft_radix2` stores to may be stored to, and its loop ends. -/
structure FftSpots (place : Nat → Prop) (re im : UInt32) (n : Nat) : Prop where
  reversed : ∀ i < n, Spot place re im i ∧
    Spot place re im (Kernels.bitReverse i (Kernels.bitsFrom n 32 0))
  stages : ∃ passes, lens n 32 2 = some passes ∧ ∀ len ∈ passes, ∀ v ∈ visits n len,
    Spot place re im (cells len v).1 ∧ Spot place re im (cells len v).2

include lock

theorem fft_both {c c' : Core R} (held : rel c c') {re im : UInt32} {n : Nat} (twiddles : UInt32)
    (spots : FftSpots place re im n) :
    Both rel (fftRadix2 fmt re im n twiddles c) (fftRadix2 fmt re im n twiddles c') := by
  have swaps : Both rel ((List.range n).foldlM (reorder fmt re im n) c)
      ((List.range n).foldlM (reorder fmt re im n) c') := by
    apply Both.fold
    · exact held
    intro i member c c' held
    obtain ⟨first, second⟩ := spots.reversed i (List.mem_range.mp member)
    apply Both.ite
    · exact fun _ => swap_both lock held first second
    · exact fun _ => Both.done held
  obtain ⟨passes, ends, inside⟩ := spots.stages
  apply Both.bind swaps
  intro d d' held
  simp only [ends]
  apply Both.fold
  · exact held
  intro len member c c' held
  exact stage_both lock held n twiddles len (inside len member)

/-! ### Up to the power spectrum -/

variable {a : Args}

structure SpectrumSpots (place : Nat → Prop) (a : Args) : Prop where
  frame : ∀ i < a.frameLen.toNat, Spot place a.re a.im i
  fft : FftSpots place a.re a.im a.fftLen.toNat
  bins : ∀ i < a.bins.toNat, place (cell a.re (UInt32.ofNat i)).toNat

theorem spectrum_both {c c' : Core R} (held : rel c c') (spots : SpectrumSpots place a)
    (t : UInt32) : Both rel (spectrum fmt a t c) (spectrum fmt a t c') := by
  have windowed : Both rel
      ((List.range a.frameLen.toNat).foldlM (windowed fmt a (cell a.audio (t * a.hop))) c)
      ((List.range a.frameLen.toNat).foldlM (windowed fmt a (cell a.audio (t * a.hop))) c') := by
    apply Both.fold
    · exact held
    intro i member c c' held
    apply Both.bind (lock.scalar held fun mem =>
      load fmt mem (cell (cell a.audio (t * a.hop)) (UInt32.ofNat i)) *
        load fmt mem (cell a.window (UInt32.ofNat i)))
    rintro v _ ⟨rfl, _⟩
    exact put_both lock held (spots.frame i (List.mem_range.mp member)) v 0
  apply Both.bind windowed
  intro c c' held
  have padded : Both rel
      ((List.range (a.fftLen.toNat - a.frameLen.toNat)).foldlM (padded fmt a) c)
      ((List.range (a.fftLen.toNat - a.frameLen.toNat)).foldlM (padded fmt a) c') := by
    apply Both.fold
    · exact held
    intro d member c c' held
    have inside : a.frameLen.toNat + d < a.fftLen.toNat := by
      have below := List.mem_range.mp member
      omega
    exact put_both lock held (spots.fft.reversed _ inside).1 0 0
  apply Both.bind padded
  intro c c' held
  apply Both.bind (fft_both lock held a.twiddles spots.fft)
  intro c c' held
  apply Both.fold
  · exact held
  intro b member c c' held
  apply Both.bind (lock.scalar held fun mem =>
    (load fmt mem (cell a.re (UInt32.ofNat b)), load fmt mem (cell a.im (UInt32.ofNat b))))
  rintro ⟨r, s⟩ _ ⟨rfl, _⟩
  exact lock.store held _ _ (spots.bins b (List.mem_range.mp member))

theorem cepstrum_both {c c' : Core R} (held : rel c c') (t n : UInt32)
    (spot : place (a.dst t n).toNat) :
    Both rel (cepstrum fmt a t n c) (cepstrum fmt a t n c') := by
  apply Both.bind (lock.sum held (t * a.nbCep + n).toNat a.nbMel.toNat (fun m => m)
    (fun m => cell (cell a.dct (n * a.nbMel)) (UInt32.ofNat m)) (fun m =>
      cell a.mel (UInt32.ofNat m)) 0)
  rintro ⟨d, sum⟩ ⟨d', _⟩ ⟨held, rfl⟩
  exact lock.store held _ sum spot

end Spectrum

end HeteroSim.MfccSpectrum
