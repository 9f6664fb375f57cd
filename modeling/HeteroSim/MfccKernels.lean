import HeteroSim.CoupledCores
import HeteroSim.FftRadix2

/-!
The two `Mfcc_fp32_fp32` over byte memory: the portable one, and Snitch's, which
streams the filterbank and the DCT. What the two sources have in common, up to the
power spectrum, is one program here.
-/

namespace HeteroSim.MfccKernels

open SliceRun ParallelSlices StreamLoops SnitchSsr
open scoped UInt32.CommRing

/-! ### The kernels -/

structure Args where
  audio : UInt32
  out : UInt32
  nbFrames : UInt32
  frameLen : UInt32
  hop : UInt32
  fftLen : UInt32
  window : UInt32
  twiddles : UInt32
  melCoeff : UInt32
  melStart : UInt32
  melLen : UInt32
  nbMel : UInt32
  dct : UInt32
  nbCep : UInt32
  scratch : UInt32

def Args.re (a : Args) : UInt32 := a.scratch

def Args.im (a : Args) : UInt32 := cell a.scratch a.fftLen

def Args.mel (a : Args) : UInt32 := cell a.scratch (2 * a.fftLen)

/-- `nb_bins`. -/
def Args.bins (a : Args) : UInt32 := a.fftLen / 2 + 1

/-- `&dst[c]` of frame `t`. -/
def Args.dst (a : Args) (t c : UInt32) : UInt32 := cell (cell a.out (t * a.nbCep)) c

/-- `UNROLL`. -/
def unroll : UInt32 := 4

section Kernels

variable {R : Type} [CommRing R] (fmt : Format R)

/-! #### `fft_radix2` -/

section Fft

variable (re im : UInt32)

/-- `re[i] = r; im[i] = s`. -/
def put (i : Nat) (r s : R) (c : Core R) : Option (Core R) := do
  let c ← c.store fmt (cell re (UInt32.ofNat i)) r
  c.store fmt (cell im (UInt32.ofNat i)) s

/-- Elements `i` and `j` change places, first in `re`, then in `im`. -/
def swap (i j : Nat) (c : Core R) : Option (Core R) := do
  let (tr, r) ← c.scalar
    (load fmt c.mem (cell re (UInt32.ofNat i)), load fmt c.mem (cell re (UInt32.ofNat j)))
  let c ← c.store fmt (cell re (UInt32.ofNat i)) r
  let c ← c.store fmt (cell re (UInt32.ofNat j)) tr
  let (ti, s) ← c.scalar
    (load fmt c.mem (cell im (UInt32.ofNat i)), load fmt c.mem (cell im (UInt32.ofNat j)))
  let c ← c.store fmt (cell im (UInt32.ofNat i)) s
  c.store fmt (cell im (UInt32.ofNat j)) ti

def butterfly (wr wi : R) (a b : Nat) (c : Core R) : Option (Core R) := do
  let (xr, xi) ← c.scalar
    (load fmt c.mem (cell re (UInt32.ofNat b)), load fmt c.mem (cell im (UInt32.ofNat b)))
  let (ur, ui) ← c.scalar
    (load fmt c.mem (cell re (UInt32.ofNat a)), load fmt c.mem (cell im (UInt32.ofNat a)))
  let vr := xr * wr - xi * wi
  let vi := xr * wi + xi * wr
  let c ← put fmt re im a (ur + vr) (ui + vi) c
  put fmt re im b (ur - vr) (ui - vi) c

variable (n : Nat) (twiddles : UInt32)

/-- The twiddle of `j`, then a pass over the blocks of `len`. -/
def column (len : Nat) (c : Core R) (j : Nat) : Option (Core R) := do
  let (wr, wi) ← c.scalar
    (load fmt c.mem (cell twiddles (UInt32.ofNat (2 * j * (n / len)))),
      load fmt c.mem (cell twiddles (UInt32.ofNat (2 * j * (n / len) + 1))))
  (List.range ((n + len - 1) / len)).foldlM (fun c block =>
    butterfly fmt re im wr wi (block * len + j) (block * len + j + len / 2) c) c

def stage (c : Core R) (len : Nat) : Option (Core R) :=
  (List.range (len / 2)).foldlM (column fmt re im n twiddles len) c

def reorder (c : Core R) (i : Nat) : Option (Core R) :=
  let j := Kernels.bitReverse i (Kernels.bitsFrom n 32 0)
  if i < j then swap fmt re im i j c else some c

/-- `len` has 32 bits, so a loop of more than 31 stages has come round and does not end. -/
def fftRadix2 (c : Core R) : Option (Core R) := do
  let c ← (List.range n).foldlM (reorder fmt re im n) c
  let passes ← FftRadix2.lens n 32 2
  passes.foldlM (stage fmt re im n twiddles) c

end Fft

variable (a : Args)

/-! #### Up to the power spectrum -/

def windowed (frame : UInt32) (c : Core R) (i : Nat) : Option (Core R) := do
  let v ← c.scalar (load fmt c.mem (cell frame (UInt32.ofNat i)) *
    load fmt c.mem (cell a.window (UInt32.ofNat i)))
  put fmt a.re a.im i v 0 c

/-- From `frame_len` on. -/
def padded (c : Core R) (d : Nat) : Option (Core R) :=
  put fmt a.re a.im (a.frameLen.toNat + d) 0 0 c

def power (c : Core R) (b : Nat) : Option (Core R) := do
  let (r, s) ← c.scalar
    (load fmt c.mem (cell a.re (UInt32.ofNat b)), load fmt c.mem (cell a.im (UInt32.ofNat b)))
  c.store fmt (cell a.re (UInt32.ofNat b)) (r * r + s * s)

def spectrum (t : UInt32) (c : Core R) : Option (Core R) := do
  let c ← (List.range a.frameLen.toNat).foldlM (windowed fmt a (cell a.audio (t * a.hop))) c
  let c ← (List.range (a.fftLen.toNat - a.frameLen.toNat)).foldlM (padded fmt a) c
  let c ← fftRadix2 fmt a.re a.im a.fftLen.toNat a.twiddles c
  (List.range a.bins.toNat).foldlM (power fmt a) c

/-! #### The filterbank -/

/-- How the energy of filter `m` is computed, from its first bin, its first coefficient
and its length. -/
abbrev Energy (R : Type) := Nat → UInt32 → UInt32 → UInt32 → Core R → Option (Core R × R)

def energy : Energy R := fun m start off len c =>
  (List.range len.toNat).foldlM (fun st i =>
    addProduct fmt m i (cell a.re (start + UInt32.ofNat i)) (cell a.melCoeff (off + UInt32.ofNat i))
      st) (c, 0)

/-- The streamed part of `mel_energy`: partial sum `u` takes every fourth element from
element `u` on. -/
def melBlocks (m : Nat) (power coeff blocks : UInt32) (c : Core R) : Option (Core R × R) := do
  let acc ← c.scalar fun _ : Nat => 0
  let c := { c with
    dm0 := ((c.dm0.repeats 1).loops 0 0 [(blocks * unroll, 4)]).read 0 power
    dm1 := ((c.dm1.repeats 1).loops 0 0 [(blocks * unroll, 4)]).read 0 coeff }
  let (c, acc) ← streamed fmt (fun _ => m) unroll.toNat (blocks - 1) (c, acc)
  let sum ← c.scalar ((acc 0 + acc 1) + (acc 2 + acc 3))
  return (c, sum)

/-- `mel_energy`. -/
def melEnergy (m : Nat) (power coeff len : UInt32) (c : Core R) : Option (Core R × R) := do
  let blocks := len / unroll
  let st ← (if blocks = 0 then c.scalar (c, 0) else melBlocks fmt m power coeff blocks c)
  (List.range (len.toNat - (blocks * unroll).toNat)).foldlM (fun st d =>
    addProduct fmt m ((blocks * unroll).toNat + d)
      (cell power (blocks * unroll + UInt32.ofNat d))
        (cell coeff (blocks * unroll + UInt32.ofNat d))
      st) st

def energySsr : Energy R := fun m start off len c =>
  melEnergy fmt m (cell a.re start) (cell a.melCoeff off) len c

def filter (energy : Energy R) (st : Core R × UInt32) (m : Nat) : Option (Core R × UInt32) := do
  let (c, off) := st
  let start := UInt32.ofNat (halves c.mem a.melStart m)
  let len := UInt32.ofNat (halves c.mem a.melLen m)
  let (c, acc) ← energy m start off len c
  let v ← c.scalar (fmt.logFloored acc)
  let c ← c.store fmt (cell a.mel (UInt32.ofNat m)) v
  return (c, off + len)

def filterbank (energy : Energy R) (c : Core R) : Option (Core R) := do
  let (c, _) ← (List.range a.nbMel.toNat).foldlM (filter fmt a energy) (c, 0)
  return c

/-! #### The DCT -/

/-- Cepstrum `c` of frame `t`, scalar. -/
def cepstrum (t c : UInt32) (core : Core R) : Option (Core R) := do
  let (core, acc) ← (List.range a.nbMel.toNat).foldlM (fun st m =>
    addProduct fmt (t * a.nbCep + c).toNat m (cell (cell a.dct (c * a.nbMel)) (UInt32.ofNat m))
      (cell a.mel (UInt32.ofNat m)) st) (core, 0)
  core.store fmt (a.dst t c) acc

def cepstra (t : UInt32) (core : Core R) : Option (Core R) :=
  (List.range a.nbCep.toNat).foldlM (fun core c => cepstrum fmt a t (UInt32.ofNat c) core) core

/-- `UNROLL` cepstra, from `c` on. -/
def cepBlock (t : UInt32) (st : Core R × UInt32) (_b : Nat) : Option (Core R × UInt32) := do
  let (core, c) := st
  let acc ← core.scalar fun _ : Nat => 0
  let core := { core with
    dm0 := (core.dm0.loops 0 0 [(a.nbMel, 4)]).read 0 a.mel
    dm1 := (core.dm1.loop2d unroll a.nbMel (a.nbMel * 4) 4).read 1 (cell a.dct (c * a.nbMel)) }
  let (core, acc) ← streamed fmt (fun u => (t * a.nbCep + c).toNat + u) unroll.toNat (a.nbMel - 1)
    (core, acc)
  let core ← (List.range unroll.toNat).foldlM (fun core u =>
    core.store fmt (a.dst t (c + UInt32.ofNat u)) (acc u)) core
  return (core, c + unroll)

def Args.cepBlocks (a : Args) : UInt32 := a.nbCep / unroll

def repeated (core : Core R) : Core R :=
  { core with dm0 := core.dm0.repeats unroll, dm1 := core.dm1.repeats 1 }

def cepstraSsr (t : UInt32) (core : Core R) : Option (Core R) := do
  let (core, c) ← (if a.cepBlocks = 0 then core.scalar (core, 0)
    else (List.range a.cepBlocks.toNat).foldlM (cepBlock fmt a t) (repeated core, 0))
  -- Cepstra past the last full block.
  (List.range (a.nbCep.toNat - c.toNat)).foldlM (fun core d =>
    cepstrum fmt a t (c + UInt32.ofNat d) core) core

/-! #### `Mfcc_fp32_fp32` -/

/-- The portable kernel. -/
def mfccGeneric (c : Core R) : Option (Core R) :=
  (List.range a.nbFrames.toNat).foldlM (fun c t => do
    let c ← spectrum fmt a (UInt32.ofNat t) c
    let c ← filterbank fmt a (energy fmt a) c
    cepstra fmt a (UInt32.ofNat t) c) c

/-- Snitch's. -/
def mfccFp32 (c : Core R) : Option (Core R) :=
  if a.nbFrames = 0 ∨ a.nbMel = 0 ∨ a.nbCep = 0 then some c
  else (List.range a.nbFrames.toNat).foldlM (fun c t => do
    let c ← spectrum fmt a (UInt32.ofNat t) c
    let c ← filterbank fmt a (energySsr fmt a) c
    cepstraSsr fmt a (UInt32.ofNat t) c) c

end Kernels

end HeteroSim.MfccKernels
