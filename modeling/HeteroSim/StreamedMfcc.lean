import HeteroSim.MfccStreams

/-!
Snitch's MFCC stores what the portable one stores. Both kernels run side by side: the
spectra and the scalar cepstra are the same code, an energy and a block of cepstra are
the same numbers computed otherwise, so their stores are the same from first to last.
-/

namespace HeteroSim.StreamedMfcc

open SliceRun ParallelSlices StreamLoops SnitchSsr TwoRuns CoupledCores MfccKernels MfccSpectrum
  MfccStreams
open FftRadix2 (lens cells)
open scoped UInt32.CommRing

/-! ### Arrays -/

def coeffs (a : Args) (mem : Mem) : Nat := Kernels.offset (halves mem a.melLen) a.nbMel.toNat

/-- A number of `out`, or of `scratch` as far as the kernel may use it. -/
def Inside (a : Args) (p : Nat) : Prop :=
  (∃ e < a.nbFrames.toNat * a.nbCep.toNat, p = a.out.toNat + 4 * e) ∨
    ∃ e < 2 * a.fftLen.toNat + a.nbMel.toNat, p = a.scratch.toNat + 4 * e

/-- A streamed product is of the power spectrum and the coefficients, or of the energies
and the DCT matrix. -/
def Reaches (a : Args) (mem : Mem) (t : Term) : Prop :=
  (∃ i < a.fftLen.toNat / 2 + 1, t.left.toNat = a.scratch.toNat + 4 * i) ∧
      (∃ j < coeffs a mem, t.right.toNat = a.melCoeff.toNat + 4 * j) ∨
    (∃ i < a.nbMel.toNat, t.left.toNat = a.scratch.toNat + 4 * (2 * a.fftLen.toNat + i)) ∧
      ∃ j < a.nbCep.toNat * a.nbMel.toNat, t.right.toNat = a.dct.toNat + 4 * j

/-- The filter table is ragged, the arrays fit, and neither the tables nor the matrix are
stored to. -/
structure Fits (a : Args) (mem : Mem) : Prop where
  frames : 0 < a.nbFrames.toNat
  bands : 0 < a.nbMel.toNat
  cepstra : 0 < a.nbCep.toNat
  size : ∃ k, a.fftLen.toNat = 2 ^ k
  short : a.frameLen.toNat ≤ a.fftLen.toNat
  ragged : ∀ m < a.nbMel.toNat,
    halves mem a.melStart m + halves mem a.melLen m ≤ a.fftLen.toNat / 2 + 1
  roomOut : a.out.toNat + 4 * (a.nbFrames.toNat * a.nbCep.toNat) ≤ 2 ^ 32
  roomScratch : a.scratch.toNat + 4 * (2 * a.fftLen.toNat + a.nbMel.toNat) ≤ 2 ^ 32
  roomCoeff : a.melCoeff.toNat + 4 * coeffs a mem ≤ 2 ^ 32
  roomDct : a.dct.toNat + 4 * (a.nbCep.toNat * a.nbMel.toNat) ≤ 2 ^ 32
  apartScratch : disjoint a.out (a.nbFrames.toNat * a.nbCep.toNat) a.scratch
    (2 * a.fftLen.toNat + a.nbMel.toNat)
  apartDct : disjoint a.out (a.nbFrames.toNat * a.nbCep.toNat) a.dct (a.nbCep.toNat * a.nbMel.toNat)
  starts : ∀ p, Inside a p →
    p + 4 ≤ a.melStart.toNat ∨ a.melStart.toNat + 2 * a.nbMel.toNat ≤ p
  lengths : ∀ p, Inside a p → p + 4 ≤ a.melLen.toNat ∨ a.melLen.toNat + 2 * a.nbMel.toNat ≤ p

section Places

variable {a : Args} {mem : Mem} (fits : Fits a mem)

include fits

theorem scratch_exact {x : UInt32} {n : Nat} (same : x = UInt32.ofNat n)
    (inside : n < 2 * a.fftLen.toNat + a.nbMel.toNat) :
    (cell a.scratch x).toNat = a.scratch.toNat + 4 * n :=
  cell_exact same fits.roomScratch inside

theorem re_exact {i : Nat} (inside : i < a.fftLen.toNat) :
    (cell a.re (UInt32.ofNat i)).toNat = a.scratch.toNat + 4 * i :=
  scratch_exact fits rfl (by omega)

theorem im_exact {i : Nat} (inside : i < a.fftLen.toNat) :
    (cell a.im (UInt32.ofNat i)).toNat = a.scratch.toNat + 4 * (a.fftLen.toNat + i) := by
  rw [Args.im, cell_cell]
  apply scratch_exact fits
  · rw [UInt32.ofNat_add, UInt32.ofNat_toNat]
  · omega

omit fits in
theorem mel_cast (m : Nat) : cell a.mel (UInt32.ofNat m) =
    cell a.scratch (UInt32.ofNat (2 * a.fftLen.toNat + m)) := by
  rw [Args.mel, cell_cell, UInt32.ofNat_add, UInt32.ofNat_mul, UInt32.ofNat_toNat]
  rfl

theorem mel_exact {m : Nat} (inside : m < a.nbMel.toNat) :
    (cell a.mel (UInt32.ofNat m)).toNat = a.scratch.toNat + 4 * (2 * a.fftLen.toNat + m) := by
  rw [mel_cast]
  exact scratch_exact fits rfl (by omega)

theorem dst_exact {t i : Nat} (frame : t < a.nbFrames.toNat) (inside : i < a.nbCep.toNat) :
    (a.dst (UInt32.ofNat t) (UInt32.ofNat i)).toNat =
      a.out.toNat + 4 * (t * a.nbCep.toNat + i) := by
  rw [Args.dst, cell_cell]
  apply cell_exact _ fits.roomOut (Kernels.entry_lt frame inside)
  rw [UInt32.ofNat_add, UInt32.ofNat_mul, UInt32.ofNat_toNat]

theorem spot_inside {i : Nat} (inside : i < a.fftLen.toNat) : Spot (Inside a) a.re a.im i := by
  constructor
  · exact Or.inr ⟨i, by omega, re_exact fits inside⟩
  · exact Or.inr ⟨a.fftLen.toNat + i, by omega, im_exact fits inside⟩

theorem bins_exact : a.bins.toNat = a.fftLen.toNat / 2 + 1 := by
  have half : (a.fftLen / 2).toNat = a.fftLen.toNat / 2 := UInt32.toNat_div _ _
  have room := fits.roomScratch
  rw [Args.bins, UInt32.toNat_add, half]
  exact Nat.mod_eq_of_lt (by
    have one : (1 : UInt32).toNat = 1 := rfl
    omega)

theorem bins_inside : a.fftLen.toNat / 2 + 1 ≤ a.fftLen.toNat := by
  obtain ⟨k, size⟩ := fits.size
  have nonempty := Nat.two_pow_pos k
  omega

theorem spectrum_inside : SpectrumSpots (Inside a) a where
  frame i below := spot_inside fits (below.trans_le fits.short)
  fft := by
    obtain ⟨k, size⟩ := fits.size
    have room := fits.roomScratch
    have short : k < 31 := by
      apply (Nat.pow_lt_pow_iff_right (by omega : 1 < 2)).mp
      rw [← size]
      omega
    constructor
    · intro i below
      refine ⟨spot_inside fits below, spot_inside fits ?_⟩
      rw [size, FftRadix2.bitsFrom_pow k 32 0 (Nat.zero_le k) (by omega),
        FftRadix2.bitReverse_reversed]
      exact Fourier.reversed_lt k i
    · have passes := FftRadix2.lens_rest k 0 32 (by omega) (by omega)
      rw [Nat.zero_add, Nat.pow_zero, Nat.mul_one, ← size] at passes
      refine ⟨_, passes, fun len member v turn => ?_⟩
      obtain ⟨i, small, rfl⟩ := List.mem_map.mp member
      have before := List.mem_range.mp small
      obtain ⟨t, rfl⟩ : ∃ t, k = t + i + 1 := ⟨k - i - 1, by omega⟩
      rw [Nat.zero_add, size] at turn
      rw [Nat.zero_add]
      obtain ⟨first, second, _⟩ := (FftRadix2.sweeps t i).inside v turn
      rw [← size] at first second
      exact ⟨spot_inside fits first, spot_inside fits second⟩
  bins i below := by
    rw [bins_exact fits] at below
    exact (spot_inside fits (below.trans_le (bins_inside fits))).1

end Places

/-! ### Side by side -/

/-- The kernels did the same stores, all where they may, and streamed what they may. -/
structure Agrees {R : Type} (a : Args) (mem : Mem) (l l' : Log R) : Prop where
  stores : l.stores = l'.stores
  inside : ∀ s ∈ l.stores, Inside a s.1
  reach : ∀ t ∈ l.fmas, Reaches a mem t

theorem Agrees.append {R : Type} {a : Args} {mem : Mem} {l l' m m' : Log R}
    (agrees : Agrees a mem l l') (more : Agrees a mem m m') : Agrees a mem (l ++ m) (l' ++ m') where
  stores := by
    show l.stores ++ m.stores = l'.stores ++ m'.stores
    rw [agrees.stores, more.stores]
  inside s member := by
    rcases List.mem_append.mp member with first | second
    · exact agrees.inside s first
    · exact more.inside s second
  reach t member := by
    rcases List.mem_append.mp member with first | second
    · exact agrees.reach t first
    · exact more.reach t second

section Runs

variable {R : Type} [CommRing R] (fmt : Format R) {a : Args} {core : Core R}

omit [CommRing R] in
theorem admits : Admits (Inside a) (@Agrees R a core.mem) where
  stores := Agrees.stores
  store agrees p v inside := by
    apply agrees.append
    exact ⟨rfl, by simpa using inside, by simp⟩
  product agrees t := agrees.append ⟨rfl, by simp, by simp⟩

abbrev Pair (a : Args) (core : Core R) : Core R → Core R → Prop :=
  Coupled fmt core core (Agrees a core.mem) (fun _ _ => True) (fun _ _ => True)

theorem pair_lockstep : Lockstep fmt (Inside a) (Pair fmt a core) :=
  coupled_lockstep admits rfl

omit [CommRing R] in
theorem halves_written (mem : Mem) (stores : List (Nat × R)) {p : UInt32}
    {i n : Nat} (below : i < n)
    (elsewhere : ∀ s ∈ stores, s.1 + 4 ≤ p.toNat ∨ p.toNat + 2 * n ≤ s.1) :
    halves (written fmt mem stores) p i = halves mem p i := by
  induction stores generalizing mem with
  | nil => rfl
  | cons s rest ih =>
      obtain ⟨here, others⟩ := List.forall_mem_cons.mp elsewhere
      have kept : ∀ k < 2, storeFloat fmt s.1 s.2 mem (p.toNat + 2 * i + k) =
          mem (p.toNat + 2 * i + k) := by
        intro k small
        exact if_neg (by omega)
      refine (ih _ others).trans ?_
      simp only [halves]
      rw [kept 1 (by decide)]
      exact congrArg (fun b => b.toNat + 256 * _) (kept 0 (by decide))

theorem halves_small (mem : Mem) (p : UInt32) (i : Nat) : halves mem p i < 2 ^ 16 := by
  have low := (mem (p.toNat + 2 * i)).toNat_lt
  have high := (mem (p.toNat + 2 * i + 1)).toNat_lt
  rw [halves]
  omega

/-! ### The filterbank -/

section Filters

variable (fits : Fits a core.mem)

include fits

omit [CommRing R] in
theorem tables_kept {c c' : Core R} (pair : Pair fmt a core c c') {m : Nat}
    (band : m < a.nbMel.toNat) :
    halves c.mem a.melStart m = halves core.mem a.melStart m ∧
      halves c.mem a.melLen m = halves core.mem a.melLen m := by
  obtain ⟨l, _, did, _, agrees⟩ := pair.did
  rw [did.mem]
  constructor
  · exact halves_written fmt core.mem l.stores band fun s member =>
      fits.starts s.1 (agrees.inside s member)
  · exact halves_written fmt core.mem l.stores band fun s member =>
      fits.lengths s.1 (agrees.inside s member)

omit [CommRing R] in
theorem energy_reaches {m : Nat} (band : m < a.nbMel.toNat) :
    ∀ t ∈ energyTerms m (cell a.re (UInt32.ofNat (halves core.mem a.melStart m)))
        (cell a.melCoeff (UInt32.ofNat (Kernels.offset (halves core.mem a.melLen) m)))
        (halves core.mem a.melLen m / 4),
      Reaches a core.mem t := by
  intro t member
  obtain ⟨k, blocks, turn⟩ := List.mem_flatMap.mp member
  obtain ⟨u, parts, rfl⟩ := List.mem_map.mp turn
  have block := List.mem_range.mp blocks
  have part := List.mem_range.mp parts
  have ragged := fits.ragged m band
  have bins := bins_inside fits
  have next : Kernels.offset (halves core.mem a.melLen) m + halves core.mem a.melLen m ≤
      coeffs a core.mem := by
    rw [Kernels.offset, ← Finset.sum_range_succ]
    exact Finset.sum_le_sum_of_subset (Finset.range_subset_range.mpr band)
  have bin : halves core.mem a.melStart m + (k * 4 + u) < a.fftLen.toNat / 2 + 1 := by omega
  have tap : Kernels.offset (halves core.mem a.melLen) m + (k * 4 + u) < coeffs a core.mem := by
    omega
  refine Or.inl ⟨⟨_, bin, ?_⟩, ⟨_, tap, ?_⟩⟩
  · dsimp only
    rw [cell_cell, ← UInt32.ofNat_add]
    exact re_exact fits (bin.trans_le bins)
  · dsimp only
    rw [cell_cell, ← UInt32.ofNat_add]
    exact cell_exact rfl fits.roomCoeff tap

theorem filter_both {m : Nat} (band : m < a.nbMel.toNat) {c c' : Core R}
    (pair : Pair fmt a core c c')
    {off : UInt32} (first : off = UInt32.ofNat (Kernels.offset (halves core.mem a.melLen) m)) :
    Both (fun st st' => Pair fmt a core st.1 st'.1 ∧ st.2 = st'.2 ∧
        st.2 = UInt32.ofNat (Kernels.offset (halves core.mem a.melLen) (m + 1)))
      (filter fmt a (energySsr fmt a) (c, off) m) (filter fmt a (energy fmt a) (c', off) m) := by
  have lock := @pair_lockstep R _ fmt a core
  obtain ⟨start, length⟩ := tables_kept fmt fits pair band
  obtain ⟨still, still'⟩ := pair.off
  have same : c'.mem = c.mem := (lock.mem pair).symm
  have exact : (UInt32.ofNat (halves core.mem a.melLen m)).toNat = halves core.mem a.melLen m :=
    exact_of_cast rfl ((halves_small _ _ _).trans (by decide))
  have energies : Both (fun st st' => Pair fmt a core st.1 st'.1 ∧ st.2 = st'.2)
      (energySsr fmt a m (UInt32.ofNat (halves c.mem a.melStart m)) off
        (UInt32.ofNat (halves c.mem a.melLen m)) c)
      (energy fmt a m (UInt32.ofNat (halves c'.mem a.melStart m)) off
        (UInt32.ofNat (halves c'.mem a.melLen m)) c') := by
    rw [same, start, length, first]
    obtain ⟨d, runs, did, _⟩ := melEnergy_runs fmt m
      (cell a.re (UInt32.ofNat (halves core.mem a.melStart m)))
      (cell a.melCoeff (UInt32.ofNat (Kernels.offset (halves core.mem a.melLen) m)))
      (UInt32.ofNat (halves core.mem a.melLen m)) still
    obtain ⟨d', runs', did', _⟩ := energy_runs fmt a m
      (UInt32.ofNat (halves core.mem a.melStart m))
      (UInt32.ofNat (Kernels.offset (halves core.mem a.melLen) m))
      (UInt32.ofNat (halves core.mem a.melLen m)) still'
    rw [same] at runs'
    refine ⟨_, _, runs, runs', pair.next did did' ?_ trivial trivial, rfl⟩
    intro l l' agrees
    apply agrees.append
    refine ⟨rfl, by simp [energyLog], ?_⟩
    rw [exact]
    exact energy_reaches fits band
  apply Both.bind energies
  rintro ⟨d, sum⟩ ⟨d', _⟩ ⟨pair, rfl⟩
  apply Both.bind (lock.scalar pair fun _ => fmt.logFloored sum)
  rintro v _ ⟨rfl, _⟩
  apply Both.bind (lock.store pair (cell a.mel (UInt32.ofNat m)) v
    (Or.inr ⟨2 * a.fftLen.toNat + m, by omega, mel_exact fits band⟩))
  intro e e' pair
  refine Both.done ⟨pair, ?_, ?_⟩
  · rw [same]
  · show off + UInt32.ofNat (halves c.mem a.melLen m) = _
    rw [length, first, Kernels.offset, Kernels.offset, Finset.sum_range_succ, UInt32.ofNat_add]

theorem filterbank_both {c c' : Core R} (pair : Pair fmt a core c c') :
    Both (Pair fmt a core) (filterbank fmt a (energySsr fmt a) c)
      (filterbank fmt a (energy fmt a) c') := by
  have filters := @Both.turns (Core R × UInt32) (Core R × UInt32)
    (fun m st st' => Pair fmt a core st.1 st'.1 ∧ st.2 = st'.2 ∧
      st.2 = UInt32.ofNat (Kernels.offset (halves core.mem a.melLen) m))
    (filter fmt a (energySsr fmt a)) (filter fmt a (energy fmt a)) a.nbMel.toNat (c, 0) (c', 0)
    ⟨pair, rfl, rfl⟩
    (by
      rintro m band ⟨c, off⟩ ⟨c', _⟩ ⟨pair, rfl, first⟩
      exact filter_both fmt fits band pair first)
  apply Both.bind filters
  rintro ⟨d, off⟩ ⟨d', off'⟩ ⟨pair, _⟩
  exact Both.done pair

end Filters

/-! ### The DCT -/

/-- The first `n` cepstra of frame `t`, stored. -/
def cepStores (a : Args) (mem : Mem) (t n : Nat) : List (Nat × R) :=
  (List.range n).map fun i =>
    ((a.dst (UInt32.ofNat t) (UInt32.ofNat i)).toNat, cepValue fmt a mem (UInt32.ofNat i))

omit [CommRing R] in
theorem load_apart (mem : Mem) {p q : UInt32} {n m : Nat} (apart : disjoint p n q m)
    {stores : List (Nat × R)} (inside : ∀ s ∈ stores, ∃ e < n, s.1 = p.toNat + 4 * e)
    (room : q.toNat + 4 * m ≤ 2 ^ 32) {x : UInt32} {i : Nat} (same : x = UInt32.ofNat i)
    (below : i < m) : load fmt (written fmt mem stores) (cell q x) = load fmt mem (cell q x) := by
  rw [load_cell fmt _ same room below, load_cell fmt _ same room below,
    floats_apart fmt mem apart inside below]

section Cepstra

variable (fits : Fits a core.mem) {t : Nat} (frame : t < a.nbFrames.toNat)

include fits frame

theorem cepStores_out (mem : Mem) {n : Nat} (within : n ≤ a.nbCep.toNat) :
    ∀ s ∈ cepStores fmt a mem t n, ∃ e < a.nbFrames.toNat * a.nbCep.toNat,
      s.1 = a.out.toNat + 4 * e := by
  intro s member
  obtain ⟨i, below, rfl⟩ := List.mem_map.mp member
  have inside := (List.mem_range.mp below).trans_le within
  exact ⟨_, Kernels.entry_lt frame inside, dst_exact fits frame inside⟩

theorem cepValue_kept (mem : Mem) {n i : Nat} (within : n ≤ a.nbCep.toNat)
    (row : i < a.nbCep.toNat) :
    cepValue fmt a (written fmt mem (cepStores fmt a mem t n)) (UInt32.ofNat i) =
      cepValue fmt a mem (UInt32.ofNat i) := by
  have out := cepStores_out fmt fits frame mem within
  rw [cepValue, cepValue, dot, dot]
  refine Finset.sum_congr rfl fun m member => ?_
  have band := Finset.mem_range.mp member
  have spot : UInt32.ofNat i * a.nbMel + UInt32.ofNat m = UInt32.ofNat (i * a.nbMel.toNat + m) := by
    rw [UInt32.ofNat_add, UInt32.ofNat_mul, UInt32.ofNat_toNat]
  rw [cell_cell, mel_cast,
    load_apart fmt mem fits.apartDct out fits.roomDct spot (Kernels.entry_lt row band),
    load_apart fmt mem fits.apartScratch out fits.roomScratch rfl (by omega)]

omit [CommRing R] frame in
theorem block_reaches {n : Nat} (inside : n + 4 ≤ a.nbCep.toNat) :
    ∀ x ∈ cepTerms a (UInt32.ofNat t) (UInt32.ofNat n), Reaches a core.mem x := by
  intro x member
  obtain ⟨k, bands, turn⟩ := List.mem_flatMap.mp member
  obtain ⟨u, parts, rfl⟩ := List.mem_map.mp turn
  have band := List.mem_range.mp bands
  have part := List.mem_range.mp parts
  have entry : (n + u) * a.nbMel.toNat + k < a.nbCep.toNat * a.nbMel.toNat :=
    Kernels.entry_lt (by omega) band
  refine Or.inr ⟨⟨k, band, mel_exact fits band⟩, ⟨_, entry, ?_⟩⟩
  dsimp only
  rw [cell_cell]
  apply cell_exact _ fits.roomDct entry
  rw [UInt32.ofNat_add, UInt32.ofNat_mul, UInt32.ofNat_toNat, UInt32.ofNat_add]

theorem tail_runs {c d : Core R} {log : Log R} (did : Did fmt c d log) (first count : Nat)
    (stored : log.stores = cepStores fmt a c.mem t first) (rest : first + count ≤ a.nbCep.toNat) :
    ∃ d', (List.range count).foldlM (fun core i =>
        cepstrum fmt a (UInt32.ofNat t) (UInt32.ofNat first + UInt32.ofNat i) core) d = some d' ∧
      ∃ products, Did fmt c d' ⟨log.fmas, products, cepStores fmt a c.mem t (first + count),
        log.ends⟩ := by
  refine loop_runs (fun i d' => ∃ products, Did fmt c d'
    ⟨log.fmas, products, cepStores fmt a c.mem t (first + i), log.ends⟩) _ count d ?_ ?_
  · rw [Nat.add_zero, ← stored]
    exact ⟨log.products, did⟩
  · rintro i below now ⟨products, did⟩
    obtain ⟨next, runs, more, _⟩ := cepstrum_runs fmt a (UInt32.ofNat t)
      (UInt32.ofNat first + UInt32.ofNat i) did.off
    refine ⟨next, runs, products ++ (cepLog fmt a now.mem (UInt32.ofNat t)
      (UInt32.ofNat (first + i))).products, ?_⟩
    have whole := did.trans more
    have value := cepValue_kept fmt fits frame c.mem (n := first + i) (i := first + i)
      (by omega) (by omega)
    rw [cepLog, did.mem, ← UInt32.ofNat_add, value] at whole
    simp only [log_mk, List.append_nil] at whole
    rw [← Nat.add_assoc, cepStores, List.range_succ, List.map_append]
    exact whole

theorem cepstra_runs {c : Core R} (off : c.enabled = false) :
    ∃ c', cepstra fmt a (UInt32.ofNat t) c = some c' ∧
      ∃ products, Did fmt c c' ⟨[], products, cepStores fmt a c.mem t a.nbCep.toNat, []⟩ := by
  obtain ⟨c', runs, products, did⟩ := tail_runs fmt fits frame (did_nothing fmt off) 0
    a.nbCep.toNat rfl (by omega)
  rw [Nat.zero_add] at did
  refine ⟨c', ?_, products, did⟩
  have zero : UInt32.ofNat 0 = 0 := rfl
  simp only [zero, zero_add] at runs
  exact runs

theorem cepBlocks_run {c d : Core R} (start : Did fmt c d {}) (repeats : Repeats d.dm0 d.dm1)
    (b : Nat) (within : 4 * b ≤ a.nbCep.toNat) :
    ∃ c', (List.range b).foldlM (cepBlock fmt a (UInt32.ofNat t)) (d, 0) =
        some (c', UInt32.ofNat (4 * b)) ∧ Repeats c'.dm0 c'.dm1 ∧
      ∃ fmas ends, Did fmt c c' ⟨fmas, [], cepStores fmt a c.mem t (4 * b), ends⟩ ∧
        ∀ x ∈ fmas, Reaches a core.mem x := by
  induction b with
  | zero => exact ⟨d, rfl, repeats, [], [], start, by simp⟩
  | succ b ih =>
      obtain ⟨d, runs, repeats, fmas, ends, did, reach⟩ := ih (by omega)
      obtain ⟨c', last, more, repeats', _⟩ := cepBlock_runs fmt a (UInt32.ofNat t)
        (UInt32.ofNat (4 * b)) b did.off fits.bands repeats
      have counts : UInt32.ofNat (4 * b) + unroll = UInt32.ofNat (4 * (b + 1)) := by
        rw [Nat.mul_succ, UInt32.ofNat_add]
        rfl
      refine ⟨c', ?_, repeats', fmas ++ cepTerms a (UInt32.ofNat t) (UInt32.ofNat (4 * b)),
        ends ++ [(true, true)], ?_, ?_⟩
      · rw [List.range_succ, List.foldlM_append, ← counts]
        exact bind_some runs (bind_some last rfl)
      · have whole := did.trans more
        have next : (List.range 4).map (fun u =>
            ((a.dst (UInt32.ofNat t) (UInt32.ofNat (4 * b) + UInt32.ofNat u)).toNat,
              cepValue fmt a d.mem (UInt32.ofNat (4 * b) + UInt32.ofNat u))) =
            (List.range 4).map fun u =>
              ((a.dst (UInt32.ofNat t) (UInt32.ofNat (4 * b + u))).toNat,
                cepValue fmt a c.mem (UInt32.ofNat (4 * b + u))) := by
          refine List.map_congr_left fun u row => ?_
          have below := List.mem_range.mp row
          rw [← UInt32.ofNat_add, did.mem, cepValue_kept fmt fits frame c.mem (by omega) (by omega)]
        rw [blockLog, next] at whole
        simp only [log_mk, List.nil_append] at whole
        rw [Nat.mul_succ, cepStores, List.range_add, List.map_append, List.map_map]
        exact whole
      · intro x member
        rcases List.mem_append.mp member with before | now
        · exact reach x before
        · exact block_reaches fits (by omega) x now

theorem cepstraSsr_runs {c : Core R} (off : c.enabled = false) :
    ∃ c', cepstraSsr fmt a (UInt32.ofNat t) c = some c' ∧
      ∃ log, Did fmt c c' log ∧ log.stores = cepStores fmt a c.mem t a.nbCep.toNat ∧
        ∀ x ∈ log.fmas, Reaches a core.mem x := by
  have blocks : a.cepBlocks.toNat = a.nbCep.toNat / 4 := UInt32.toNat_div _ _
  have within : 4 * a.cepBlocks.toNat ≤ a.nbCep.toNat := by omega
  have exact : (UInt32.ofNat (4 * a.cepBlocks.toNat)).toNat = 4 * a.cepBlocks.toNat :=
    exact_of_cast rfl (Nat.lt_of_le_of_lt within a.nbCep.toNat_lt)
  have streams : ∃ d, (if a.cepBlocks = 0 then c.scalar (c, 0)
        else (List.range a.cepBlocks.toNat).foldlM (cepBlock fmt a (UInt32.ofNat t))
          (repeated c, 0)) = some (d, UInt32.ofNat (4 * a.cepBlocks.toNat)) ∧
      ∃ fmas ends, Did fmt c d
          ⟨fmas, [], cepStores fmt a c.mem t (4 * a.cepBlocks.toNat), ends⟩ ∧
        ∀ x ∈ fmas, Reaches a core.mem x := by
    by_cases nothing : a.cepBlocks = 0
    · have zero : a.cepBlocks.toNat = 0 := congrArg UInt32.toNat nothing
      rw [if_pos nothing, zero, scalar_off off]
      exact ⟨c, rfl, [], [], did_nothing fmt off, by simp⟩
    · rw [if_neg nothing]
      obtain ⟨d, runs, _, fmas, ends, did, reach⟩ := cepBlocks_run fmt fits frame
        (repeated_did fmt off) (repeated_repeats c) a.cepBlocks.toNat within
      exact ⟨d, runs, fmas, ends, did, reach⟩
  obtain ⟨d, runs, fmas, ends, did, reach⟩ := streams
  obtain ⟨c', tail, products, whole⟩ := tail_runs fmt fits frame did
    (4 * a.cepBlocks.toNat) (a.nbCep.toNat - 4 * a.cepBlocks.toNat) rfl (by omega)
  rw [Nat.add_sub_cancel' within] at whole
  refine ⟨c', ?_, _, whole, rfl, reach⟩
  rw [cepstraSsr]
  refine bind_some runs ?_
  simp only [exact]
  exact tail

theorem cepstra_both {c c' : Core R} (pair : Pair fmt a core c c') :
    Both (Pair fmt a core) (cepstraSsr fmt a (UInt32.ofNat t) c)
      (cepstra fmt a (UInt32.ofNat t) c') := by
  obtain ⟨still, still'⟩ := pair.off
  have same : c.mem = c'.mem := (@pair_lockstep R _ fmt a core).mem pair
  obtain ⟨d, runs, log, did, stored, reach⟩ := cepstraSsr_runs fmt fits frame still
  obtain ⟨d', runs', products, did'⟩ := cepstra_runs fmt fits frame still'
  refine ⟨d, d', runs, runs', pair.next did did' ?_ trivial trivial⟩
  intro l l' agrees
  apply agrees.append
  refine ⟨by rw [stored, same], fun s member => ?_, reach⟩
  rw [stored] at member
  exact Or.inl (cepStores_out fmt fits frame c.mem (Nat.le_refl _) s member)

end Cepstra

/-! ### All frames -/

theorem frames_both (fits : Fits a core.mem) (off : core.enabled = false) :
    Both (Pair fmt a core) (mfccFp32 fmt a core) (mfccGeneric fmt a core) := by
  have positive (x : UInt32) (nonempty : 0 < x.toNat) : x ≠ 0 := by
    rintro rfl
    exact absurd nonempty (by decide)
  have nonempty : ¬ (a.nbFrames = 0 ∨ a.nbMel = 0 ∨ a.nbCep = 0) := by
    rintro (none | none | none)
    · exact positive _ fits.frames none
    · exact positive _ fits.bands none
    · exact positive _ fits.cepstra none
  rw [mfccFp32, if_neg nonempty]
  apply Both.fold
  · exact ⟨⟨{}, {}, did_nothing fmt off, did_nothing fmt off, rfl, by simp, by simp⟩,
      trivial, trivial⟩
  intro t member c c' pair
  have frame := List.mem_range.mp member
  apply Both.bind (spectrum_both (pair_lockstep fmt) pair (spectrum_inside fits) (UInt32.ofNat t))
  intro c c' pair
  apply Both.bind (filterbank_both fmt fits pair)
  intro c c' pair
  exact cepstra_both fmt fits frame pair

omit [CommRing R] in
theorem written_outside (mem : Mem) (stores : List (Nat × R)) (cell : Nat)
    (outside : ∀ s ∈ stores, ¬ (s.1 ≤ cell ∧ cell < s.1 + 4)) :
    written fmt mem stores cell = mem cell := by
  induction stores generalizing mem with
  | nil => rfl
  | cons s rest ih =>
      obtain ⟨here, others⟩ := List.forall_mem_cons.mp outside
      exact (ih _ others).trans (if_neg here)

/-- Snitch's MFCC leaves memory as the portable one does, by the same stores; all are to
the output and the scratch arrays, and every streamed product is of numbers of the
arrays its streams walk. -/
theorem streamed_mfcc (fits : Fits a core.mem) (off : core.enabled = false) :
    ∃ c c' log log', mfccFp32 fmt a core = some c ∧ mfccGeneric fmt a core = some c' ∧
      c.mem = c'.mem ∧
      (∀ cell, (∀ p, Inside a p → ¬ (p ≤ cell ∧ cell < p + 4)) → c.mem cell = core.mem cell) ∧
      c.log = core.log ++ log ∧ c'.log = core.log ++ log' ∧ log.stores = log'.stores ∧
      (∀ s ∈ log.stores, Inside a s.1) ∧ ∀ t ∈ log.fmas, Reaches a core.mem t := by
  obtain ⟨c, c', runs, runs', pair⟩ := frames_both fmt fits off
  have same : c.mem = c'.mem := (@pair_lockstep R _ fmt a core).mem pair
  obtain ⟨log, log', did, did', agrees⟩ := pair.did
  refine ⟨c, c', log, log', runs, runs', same, ?_, did.logged, did'.logged, agrees.stores,
    agrees.inside, agrees.reach⟩
  intro cell outside
  rw [did.mem]
  apply written_outside
  intro s member
  exact outside s.1 (agrees.inside s member)

end Runs

/-- Two frames, filters of five bins and of none, five cepstra. -/
def fiveArgs : Args where
  audio := 0
  out := 1000
  nbFrames := 2
  frameLen := 7
  hop := 4
  fftLen := 8
  window := 100
  twiddles := 200
  melCoeff := 300
  melStart := 400
  melLen := 500
  nbMel := 2
  dct := 600
  nbCep := 5
  scratch := 2000

def fiveMem : Mem := fun p => if p < 400 ∨ 600 ≤ p then 1 else if p = 500 then 5 else 0

theorem five_above (p : Nat) (inside : Inside fiveArgs p) : 1000 ≤ p := by
  have out : fiveArgs.out.toNat = 1000 := by decide
  have scratch : fiveArgs.scratch.toNat = 2000 := by decide
  rcases inside with ⟨e, _, rfl⟩ | ⟨e, _, rfl⟩
  · omega
  · omega

theorem five_fits : Fits fiveArgs fiveMem where
  frames := by decide
  bands := by decide
  cepstra := by decide
  size := ⟨3, by decide⟩
  short := by decide
  ragged := by decide
  roomOut := by decide
  roomScratch := by decide
  roomCoeff := by decide
  roomDct := by decide
  apartScratch := Or.inl (by decide)
  apartDct := Or.inr (by decide)
  starts p inside := Or.inr (Nat.le_trans (by decide) (five_above p inside))
  lengths p inside := Or.inr (Nat.le_trans (by decide) (five_above p inside))

theorem streamed_mfcc_five :
    ∃ c c', mfccFp32 bytes fiveArgs (Core.fresh fiveMem) = some c ∧
      mfccGeneric bytes fiveArgs (Core.fresh fiveMem) = some c' ∧ c.mem = c'.mem := by
  obtain ⟨c, c', _, _, runs, runs', same, _⟩ :=
    @streamed_mfcc Int _ bytes fiveArgs (Core.fresh fiveMem) five_fits rfl
  exact ⟨c, c', runs, runs', same⟩

end HeteroSim.StreamedMfcc
