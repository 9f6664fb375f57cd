import HeteroSim.ParallelSlices
import HeteroSim.StagingLayout
import Mathlib.Algebra.Ring.Int.Defs

/-!
An offloaded job against the kernel run once on the host's buffers: staged or
in place, with any number of cores and in any order of their stores, main
memory ends the same, as long as the scratch of all cores together, counted in
integers, does not wrap 32 bits. Where it wraps, the slabs reach main memory.
-/

namespace HeteroSim.OffloadedJob

open SharedWords ClusterJob SliceRun StagingLayout ArrayWriters ParallelSlices

def arguments (env : Word → UInt32) : Nat → UInt32 := fun i => env (.args i)

def operand (x : Extent) : Operand := ⟨x.arg, x.isOutput, UInt32.ofNat x.bytes⟩

/-- A job of one of the kernels, its operands in main memory and its output
apart from its inputs, on a cluster with compute cores. -/
structure Accepted (c : Cluster) (env : Word → UInt32) (kernel : Kernel) (mem : Mem) : Prop where
  mapped : Mapped c
  cores : c.nbCompute ≠ 0
  known : jobKernel env = some kernel
  shaped : Shaped mem (arguments env) kernel
  small : ∀ x ∈ extents (arguments env) kernel, x.bytes < 2 ^ 32
  main : ∀ x ∈ extents (arguments env) kernel, ∀ a,
    spans (arguments env x.arg) x.bytes a → mainMemory a
  apart : ∀ x ∈ extents (arguments env) kernel, ∀ y ∈ extents (arguments env) kernel,
    x.isOutput = true → y.isOutput = false → ∀ a, spans (arguments env x.arg) x.bytes a →
      ¬ spans (arguments env y.arg) y.bytes a

/-- The slabs of the working cores, counted in integers, end below the sum that
the code takes for the end of the scratch, or below main memory where nothing is
staged. -/
def Clear (c : Cluster) (env : Word → UInt32) (kernel : Kernel) : Prop :=
  slabsEnd c (arguments env) kernel ≤ scratchEnd c (arguments env) kernel % 2 ^ 32 ∨
    (placement c env = none ∧ slabsEnd c (arguments env) kernel ≤ 2 ^ 31)

/-! ### Operands -/

section Operands

variable {a a' : Nat → UInt32} {kernel : Kernel} {mem mem' : Mem}

theorem extents_distinct (a : Nat → UInt32) (kernel : Kernel) :
    ((extents a kernel).map Extent.arg).Nodup := by
  cases kernel with
  | conv2d => by_cases bias : a Conv.hasBias = 0 <;> simp [extents, bias] <;> decide
  | matmul => simp [extents]; decide
  | gemm => simp [extents]; decide
  | mfcc => simp [extents]; decide

theorem extents_pointers (a : Nat → UInt32) (kernel : Kernel) :
    ∀ x ∈ extents a kernel, x.arg ∈ pointers kernel ∧ x.arg < maxArgs := by
  cases kernel with
  | conv2d =>
      by_cases bias : a Conv.hasBias = 0 <;> simp [extents, bias, pointers] <;> decide
  | matmul => simp [extents, pointers]; decide
  | gemm => simp [extents, pointers]; decide
  | mfcc => simp [extents, pointers]; decide

theorem extents_same (shape : SameShape a a' kernel) : extents a' kernel = extents a kernel := by
  cases kernel with
  | matmul => simp only [extents, shape Mm.M (by decide), shape Mm.N (by decide),
      shape Mm.O (by decide)]
  | gemm => simp only [extents, shape Gemm.M (by decide), shape Gemm.N (by decide),
      shape Gemm.O (by decide)]
  | conv2d => simp only [extents, shape Conv.C (by decide), shape Conv.H (by decide),
      shape Conv.W (by decide), shape Conv.F (by decide), shape Conv.P (by decide),
      shape Conv.Q (by decide), shape Conv.SP (by decide), shape Conv.SQ (by decide),
      shape Conv.hasBias (by decide)]
  | mfcc => simp only [extents, shape Mfcc.nbFrames (by decide), shape Mfcc.hop (by decide),
      shape Mfcc.frameLen (by decide), shape Mfcc.fftLen (by decide),
      shape Mfcc.melCoeffs (by decide), shape Mfcc.nbMel (by decide),
      shape Mfcc.nbCep (by decide)]

theorem shaped_moved (shaped : Shaped mem a kernel) (shape : SameShape a a' kernel)
    (inputs : SameInputs a a' mem mem' kernel) : Shaped mem' a' kernel := by
  cases kernel with
  | matmul => trivial
  | gemm => trivial
  | conv2d =>
      simpa only [Shaped, shape Conv.P (by decide), shape Conv.H (by decide),
        shape Conv.Q (by decide), shape Conv.W (by decide), shape Conv.SP (by decide),
        shape Conv.SQ (by decide)] using shaped
  | mfcc =>
      simp only [SameInputs, extents, List.forall_mem_cons] at inputs
      obtain ⟨_, _, _, _, _, melStart, melLen, _⟩ := inputs
      have starts := halves_same (melStart trivial)
      have lens := halves_same (melLen trivial)
      obtain ⟨frames, filters, short, power, inside, enough⟩ := shaped
      simp only [Shaped, shape Mfcc.nbFrames (by decide), shape Mfcc.nbMel (by decide),
        shape Mfcc.frameLen (by decide), shape Mfcc.fftLen (by decide),
        shape Mfcc.melCoeffs (by decide)]
      refine ⟨frames, filters, short, power, ?_, ?_⟩
      · intro m below
        rw [← starts m below, ← lens m below]
        exact inside m below
      · refine le_of_eq_of_le (Finset.sum_congr rfl fun m member => ?_) enough
        exact (lens m (Finset.mem_range.mp member)).symm

end Operands

/-! ### An accepted job -/

section Job

variable {c : Cluster} {env : Word → UInt32} {kernel : Kernel} {mem : Mem}

theorem Accepted.room (accepted : Accepted c env kernel mem) {x : Extent}
    (member : x ∈ extents (arguments env) kernel) :
    (arguments env x.arg).toNat + x.bytes ≤ 2 ^ 32 ∧ x.bytes ≤ 2 ^ 31 := by
  have small := (arguments env x.arg).toNat_lt
  rcases Nat.eq_zero_or_pos x.bytes with none | some
  · omega
  · have first := accepted.main x member _ ⟨Nat.le_refl _, Nat.lt_add_of_pos_right some⟩
    have last := accepted.main x member ((arguments env x.arg).toNat + (x.bytes - 1))
      ⟨Nat.le_add_right _ _, by omega⟩
    obtain ⟨low, _⟩ := first
    obtain ⟨_, high⟩ := last
    omega

theorem Accepted.sized (accepted : Accepted c env kernel mem) :
    Sized mem (arguments env) kernel :=
  ⟨accepted.shaped, accepted.small, fun _ member => (accepted.room member).1⟩

theorem Accepted.operands (accepted : Accepted c env kernel mem) :
    jobOperands env = (extents (arguments env) kernel).map operand := by
  rw [jobOperands, accepted.known]
  exact planned_extents mem env kernel accepted.shaped

theorem Accepted.bytes (accepted : Accepted c env kernel mem) {x : Extent}
    (member : x ∈ extents (arguments env) kernel) : (operand x).bytes.toNat = x.bytes :=
  exact_of_cast rfl (accepted.small x member)

theorem published_granted {active : Nat → UInt32} {cycles : UInt32}
    (published : (Word.error, errNone) ∈ (serve c active cycles).stores env) :
    jobError c env = errNone ∧ ¬ (wanted env ≠ 0 ∧ (jobScratch c env).base = 0) := by
  rw [serve_stores] at published
  have same : errNone = jobError c env := by simpa using published
  refine ⟨same.symm, fun short => ?_⟩
  rw [jobError, refusal, if_pos short] at same
  split at same
  · exact absurd same (by decide)
  · exact absurd same (by decide)

theorem localArgs_other (placed : List Placed) (args : Nat → UInt32) (i : Nat)
    (other : ∀ one ∈ placed, one.op.arg ≠ i) : localArgs placed args i = args i := by
  induction placed generalizing args with
  | nil => rfl
  | cons one rest ih =>
      have away := other one List.mem_cons_self
      refine (ih (setArg args one.op.arg one.localCopy)
        fun two member => other two (List.mem_cons_of_mem _ member)).trans ?_
      exact if_neg away.symm

theorem localArgs_placed (placed : List Placed) (args : Nat → UInt32)
    (distinct : (placed.map fun one => one.op.arg).Nodup) (one : Placed) (member : one ∈ placed) :
    localArgs placed args one.op.arg = one.localCopy := by
  induction placed generalizing args with
  | nil => simp at member
  | cons first rest ih =>
      obtain ⟨fresh, later⟩ := List.nodup_cons.mp distinct
      rcases List.mem_cons.mp member with head | tail
      · subst head
        refine (localArgs_other rest _ _ fun two inside same => fresh ?_).trans (if_pos rfl)
        exact List.mem_map.mpr ⟨two, inside, same⟩
      · exact ih (setArg args first.op.arg first.localCopy) later tail

section Released

variable (active : Nat → UInt32)

theorem copied_args {i : Nat} (below : i < maxArgs) :
    (copyArgs maxArgs active).eval env i = arguments env i := by
  rw [copyArgs_eval env maxArgs active (Nat.le_refl _), Nat.sub_self,
    if_pos ⟨Nat.zero_le i, below⟩]
  rfl

theorem in_place (nothing : placement c env = none) {i : Nat} (below : i < maxArgs) :
    (released c env active).args i = arguments env i := by
  rw [released, nothing]
  exact copied_args active below

variable {placed : List Placed} (accepted : Accepted c env kernel mem)
  (staged : placement c env = some placed)

include accepted staged

theorem placed_operands : placed.map Placed.op = (extents (arguments env) kernel).map operand := by
  rw [place_operands _ _ _ _ (placement_place c env placed staged), accepted.operands]

theorem placed_extent {one : Placed} (member : one ∈ placed) :
    ∃ x ∈ extents (arguments env) kernel, one.op = operand x := by
  have inside : one.op ∈ placed.map Placed.op := List.mem_map_of_mem member
  rw [placed_operands accepted staged] at inside
  obtain ⟨x, known, same⟩ := List.mem_map.mp inside
  exact ⟨x, known, same.symm⟩

theorem extent_placed {x : Extent} (member : x ∈ extents (arguments env) kernel) :
    ∃ one ∈ placed, one.op = operand x := by
  have inside : operand x ∈ placed.map Placed.op := by
    rw [placed_operands accepted staged]
    exact List.mem_map_of_mem member
  obtain ⟨one, known, same⟩ := List.mem_map.mp inside
  exact ⟨one, known, same⟩

theorem staged_args {one : Placed} (member : one ∈ placed) :
    (released c env active).args one.op.arg = one.localCopy := by
  have slots : placed.map (fun one => one.op.arg) =
      (extents (arguments env) kernel).map Extent.arg := by
    have ops := congrArg (List.map Operand.arg) (placed_operands accepted staged)
    simpa [List.map_map, Function.comp_def, operand] using ops
  rw [released, staged]
  refine localArgs_placed placed _ ?_ one member
  rw [slots]
  exact extents_distinct _ kernel

theorem staged_shape : SameShape (arguments env) (released c env active).args kernel := by
  rintro i ⟨below, data⟩
  rw [released, staged]
  refine (localArgs_other placed _ i ?_).trans (copied_args active below)
  rintro one member rfl
  obtain ⟨x, known, same⟩ := placed_extent accepted staged member
  rw [same] at data
  exact data (extents_pointers _ kernel x known).1

end Released

/-! ### Staging -/

section Staged

variable {active : Nat → UInt32} {placed : List Placed}

def inputs (env : Word → UInt32) (placed : List Placed) : List Transfer :=
  (placed.filter fun one => !one.op.isOutput).map fun one =>
    ⟨one.localCopy, env (.args one.op.arg), one.op.bytes⟩

/-- The output copies. -/
def outputs (env : Word → UInt32) (placed : List Placed) : List Transfer :=
  (placed.filter fun one => one.op.isOutput).map fun one =>
    ⟨env (.args one.op.arg), one.localCopy, one.op.bytes⟩

theorem copiesIn_inputs (env : Word → UInt32) (placed : List Placed) :
    copiesIn env placed = (inputs env placed).map Transfer.inward := by
  simp [copiesIn, inputs, List.map_map, Function.comp_def, Transfer.inward]

theorem copiesOut_outputs (env : Word → UInt32) (placed : List Placed) :
    copiesOut env placed = (outputs env placed).map Transfer.outward := by
  simp [copiesOut, outputs, List.map_map, Function.comp_def, Transfer.outward]

variable (accepted : Accepted c env kernel mem)
  (granted : ¬ (wanted env ≠ 0 ∧ (jobScratch c env).base = 0))
  (staged : placement c env = some placed)

include accepted granted staged

theorem staged_layout :
    (∀ one ∈ placed, (jobScratch c env).cursor.toNat ≤ one.localCopy.toNat ∧
      one.localCopy.toNat + one.op.bytes.toNat ≤ c.heapEnd.toNat) ∧ placed.Pairwise after := by
  have cursor := cursor_low accepted.mapped accepted.known granted
  refine place_layout accepted.mapped.below (jobOperands env) ?_ _ cursor placed
    (placement_place c env placed staged)
  intro op member
  rw [accepted.operands] at member
  obtain ⟨x, known, rfl⟩ := List.mem_map.mp member
  rw [accepted.bytes known]
  exact (accepted.room known).2

theorem staged_own {one two : Placed} (first : one ∈ placed) (second : two ∈ placed) {a : Nat}
    (inside : spans one.localCopy one.op.bytes.toNat a)
    (again : spans two.localCopy two.op.bytes.toNat a) : one = two := by
  obtain ⟨_, ordered⟩ := staged_layout accepted granted staged
  exact after_own ordered first second inside again

theorem staged_below {one : Placed} (member : one ∈ placed) {a : Nat}
    (inside : spans one.localCopy one.op.bytes.toNat a) : a < 2 ^ 31 := by
  have high := ((staged_layout accepted granted staged).1 one member).2
  have below := accepted.mapped.below
  obtain ⟨_, last⟩ := inside
  omega

omit granted in
theorem main_operand {one : Placed} (member : one ∈ placed) {a : Nat}
    (inside : spans (env (.args one.op.arg)) one.op.bytes.toNat a) : mainMemory a := by
  obtain ⟨x, known, same⟩ := placed_extent accepted staged member
  rw [same, accepted.bytes known] at inside
  exact accepted.main x known a inside

theorem inputs_apart : CopiesApart (inputs env placed) where
  sources := by
    intro s member t other a target source
    obtain ⟨one, inside, rfl⟩ := List.mem_map.mp member
    obtain ⟨two, also, rfl⟩ := List.mem_map.mp other
    have low := staged_below accepted granted staged (List.mem_filter.mp inside).1 target
    have high := (main_operand accepted staged (List.mem_filter.mp also).1 source).1
    omega
  targets := by
    intro s member t other a target again
    obtain ⟨one, inside, rfl⟩ := List.mem_map.mp member
    obtain ⟨two, also, rfl⟩ := List.mem_map.mp other
    rw [staged_own accepted granted staged (List.mem_filter.mp inside).1
      (List.mem_filter.mp also).1 target again]

theorem outputs_apart : CopiesApart (outputs env placed) where
  sources := by
    intro s member t other a target source
    obtain ⟨one, inside, rfl⟩ := List.mem_map.mp member
    obtain ⟨two, also, rfl⟩ := List.mem_map.mp other
    have low := staged_below accepted granted staged (List.mem_filter.mp also).1 source
    have high := (main_operand accepted staged (List.mem_filter.mp inside).1 target).1
    omega
  targets := by
    intro s member t other a _ _
    obtain ⟨one, inside, rfl⟩ := List.mem_map.mp member
    obtain ⟨two, also, rfl⟩ := List.mem_map.mp other
    obtain ⟨first, output⟩ := List.mem_filter.mp inside
    obtain ⟨second, output'⟩ := List.mem_filter.mp also
    obtain ⟨x, known, same⟩ := placed_extent accepted staged first
    obtain ⟨y, known', same'⟩ := placed_extent accepted staged second
    rw [same] at output
    rw [same'] at output'
    obtain ⟨_, only⟩ := one_output accepted.sized
    have op : one.op = two.op := by
      rw [same, same', only x known output, only y known' output']
    have buffer : one.localCopy = two.localCopy := by
      rw [← staged_args (fun _ => 0) accepted staged first, op]
      exact staged_args (fun _ => 0) accepted staged second
    rw [op, buffer]

variable (active) in
theorem staged_inputs {mem₁ : Mem}
    (copied : mem₁ = (transfers (inputs env placed)).run ((inputs env placed).map .store) mem) :
    (∀ a, 2 ^ 31 ≤ a → mem₁ a = mem a) ∧
      SameInputs (arguments env) (released c env active).args mem mem₁ kernel := by
  have apart := inputs_apart accepted granted staged
  constructor
  · intro a high
    rw [copied]
    rcases copies_settled apart mem a with ⟨t, member, inside, _⟩ | ⟨_, kept⟩
    · obtain ⟨one, known, rfl⟩ := List.mem_map.mp member
      have low := staged_below accepted granted staged (List.mem_filter.mp known).1 inside
      omega
    · exact kept
  · intro x member input k below
    obtain ⟨one, known, same⟩ := extent_placed accepted staged member
    have pointer : (released c env active).args x.arg = one.localCopy := by
      rw [← staged_args active accepted staged known, same]
      rfl
    have bytes : one.op.bytes.toNat = x.bytes := by rw [same, accepted.bytes member]
    have here : spans one.localCopy one.op.bytes.toNat (one.localCopy.toNat + k) :=
      ⟨Nat.le_add_right _ _, by omega⟩
    rw [pointer, copied]
    have source : env (.args one.op.arg) = arguments env x.arg := by rw [same]; rfl
    rcases copies_settled apart mem (one.localCopy.toNat + k) with
      ⟨t, mine, inside, moved⟩ | ⟨outside, _⟩
    · obtain ⟨two, also, rfl⟩ := List.mem_map.mp mine
      have one_two := staged_own accepted granted staged known (List.mem_filter.mp also).1
        here inside
      subst one_two
      rw [moved, source]
      show mem ((arguments env x.arg).toNat + k) =
        mem ((arguments env x.arg).toNat + (one.localCopy.toNat + k - one.localCopy.toNat))
      rw [Nat.add_sub_cancel_left]
    · refine absurd here (outside ⟨one.localCopy, env (.args one.op.arg), one.op.bytes⟩ ?_)
      refine List.mem_map.mpr ⟨one, List.mem_filter.mpr ⟨known, ?_⟩, rfl⟩
      rw [same]
      simpa [operand] using input

end Staged

/-! ### Slices -/

section Slices

variable (active : Nat → UInt32)

theorem released_kernel (accepted : Accepted c env kernel mem)
    (clean : jobError c env = errNone) : (released c env active).kernel = some kernel := by
  rw [released, if_pos clean, accepted.known]

theorem released_shape (accepted : Accepted c env kernel mem) :
    SameShape (arguments env) (released c env active).args kernel := by
  cases staged : placement c env with
  | none => exact fun i data => in_place active staged data.1
  | some placed => exact staged_shape active accepted staged

theorem mfcc_slab (accepted : Accepted c env .mfcc mem) (clean : jobError c env = errNone)
    {idx : UInt32} (core : idx < c.nbCompute) :
    (runSlice (released c env active) idx c.nbCompute).map Call.scratch =
      if idx.toNat < min c.nbCompute.toNat (rows (arguments env) .mfcc).toNat then
        some ((jobScratch c env).base + idx * (jobScratch c env).stride,
          scratchBytes (arguments env) .mfcc)
      else none := by
  have shape := released_shape active accepted
  have items : rows (released c env active).args .mfcc = rows (arguments env) .mfcc :=
    shape Mfcc.nbFrames (by decide)
  have split : bounds (released c env active).args .mfcc idx c.nbCompute =
      slice (rows (arguments env) .mfcc) idx c.nbCompute := by
    have contiguous : ¬ transposed (released c env active).args .mfcc := id
    rw [bounds, if_neg contiguous, items]
  obtain ⟨first, last⟩ := slice_cuts (rows (arguments env) .mfcc) idx c.nbCompute core
  have working := cut_grows (rows (arguments env) .mfcc).toNat c.nbCompute.toNat idx.toNat
    (UInt32.lt_iff_toNat_lt.mp core)
  rw [← first, ← last, ← UInt32.lt_iff_toNat_lt, ← UInt32.not_le] at working
  rw [runSlice_portion _ .mfcc (released_kernel active accepted clean), split]
  by_cases empty : (slice (rows (arguments env) .mfcc) idx c.nbCompute).2 ≤
      (slice (rows (arguments env) .mfcc) idx c.nbCompute).1
  · rw [if_pos empty, if_neg (mt working.mpr (not_not_intro empty))]
    rfl
  · rw [if_neg empty, if_pos (working.mp empty)]
    simp only [Option.map_some, portion, Call.scratch, scratchBytes, shape Mfcc.fftLen (by decide),
      shape Mfcc.nbMel (by decide)]
    rfl

theorem no_scratch (accepted : Accepted c env kernel mem) (clean : jobError c env = errNone)
    (other : kernel ≠ .mfcc) {idx : UInt32} {call : Call}
    (ran : runSlice (released c env active) idx c.nbCompute = some call) : call.scratch.2 = 0 := by
  rw [runSlice_portion _ kernel (released_kernel active accepted clean)] at ran
  split at ran
  · cases ran
  · cases ran
    cases kernel with
    | mfcc => exact absurd rfl other
    | matmul => rfl
    | gemm => rfl
    | conv2d => rfl

theorem mfcc_scratch (accepted : Accepted c env .mfcc mem) :
    scratchBytes (arguments env) .mfcc ≠ 0 := by
  have filters := UInt32.le_iff_toNat_le.mp accepted.shaped.2.1
  have one : (1 : UInt32).toNat = 1 := rfl
  simp only [scratchBytes]
  omega

section Slabs

variable (granted : ¬ (wanted env ≠ 0 ∧ (jobScratch c env).base = 0))

include granted

theorem slab_end (accepted : Accepted c env kernel mem) (clean : jobError c env = errNone)
    (small : slabsEnd c (arguments env) kernel < 2 ^ 32) {idx : UInt32} (core : idx < c.nbCompute)
    {call : Call} (ran : runSlice (released c env active) idx c.nbCompute = some call) {a : Nat}
    (inside : spans call.scratch.1 call.scratch.2 a) :
    a < slabsEnd c (arguments env) kernel ∧
      (jobScratch c env).cursor.toNat = scratchEnd c (arguments env) kernel % 2 ^ 32 := by
  obtain ⟨_, last⟩ := inside
  by_cases other : kernel = .mfcc
  · subst other
    have slab := mfcc_slab active accepted clean core
    rw [ran, Option.map_some] at slab
    by_cases working : idx.toNat < min c.nbCompute.toNat (rows (arguments env) .mfcc).toNat
    · rw [if_pos working] at slab
      rw [Option.some.inj slab] at last
      have up := (alignUp_bounds (scratchBytes (arguments env) .mfcc)).1
      have all : alignUp (scratchBytes (arguments env) .mfcc) * (idx.toNat + 1) ≤
          alignUp (scratchBytes (arguments env) .mfcc) *
            min c.nbCompute.toNat (rows (arguments env) .mfcc).toNat :=
        Nat.mul_le_mul_left _ working
      have one : alignUp (scratchBytes (arguments env) .mfcc) ≤
          alignUp (scratchBytes (arguments env) .mfcc) * (idx.toNat + 1) :=
        Nat.le_mul_of_pos_right _ (Nat.succ_pos _)
      rw [slabsEnd] at small ⊢
      have short : alignUp (scratchBytes (arguments env) .mfcc) < 2 ^ 32 := by omega
      obtain ⟨base, stride, cursor⟩ := slab_layout accepted.mapped accepted.known granted
        (mfcc_scratch accepted) short
      have start : ((jobScratch c env).base + idx * (jobScratch c env).stride).toNat ≤
          (jobScratch c env).base.toNat + idx.toNat * (jobScratch c env).stride.toNat := by
        rw [UInt32.toNat_add, UInt32.toNat_mul, Nat.add_mod_mod]
        exact Nat.mod_le _ _
      rw [base, stride, Nat.mul_comm idx.toNat] at start
      rw [Nat.mul_succ] at all
      have last : a < ((jobScratch c env).base + idx * (jobScratch c env).stride).toNat +
          scratchBytes (arguments env) .mfcc := last
      have start : ((jobScratch c env).base + idx * (jobScratch c env).stride).toNat ≤
          alignUp c.heapStart.toNat +
            alignUp (scratchBytes (arguments env) .mfcc) * idx.toNat := start
      exact ⟨by omega, cursor⟩
    · rw [if_neg working] at slab
      cases slab
  · rw [no_scratch active accepted clean other ran] at last
    omega

theorem slab_reaches (accepted : Accepted c env .mfcc mem) (clean : jobError c env = errNone)
    (past : 2 ^ 31 < slabsEnd c (arguments env) .mfcc) :
    ∃ idx < c.nbCompute, ∃ call, runSlice (released c env active) idx c.nbCompute = some call ∧
      spans call.scratch.1 call.scratch.2 (2 ^ 31) := by
  have cores : 0 < c.nbCompute.toNat := Nat.pos_of_ne_zero fun none =>
    accepted.cores (UInt32.toNat_inj.mp none)
  have frames : 0 < (rows (arguments env) .mfcc).toNat :=
    UInt32.le_iff_toNat_le.mp accepted.shaped.1
  obtain ⟨k, working, inside⟩ := slab_past accepted.mapped accepted.known granted
    (mfcc_scratch accepted) (Nat.lt_min.mpr ⟨cores, frames⟩) past
  have below : k < c.nbCompute.toNat := (Nat.lt_min.mp working).1
  have exact : (UInt32.ofNat k).toNat = k := exact_of_cast rfl (below.trans c.nbCompute.toNat_lt)
  have core : UInt32.ofNat k < c.nbCompute := by rwa [UInt32.lt_iff_toNat_lt, exact]
  have slab := mfcc_slab active accepted clean core
  rw [exact, if_pos working] at slab
  obtain ⟨call, ran, scratch⟩ := Option.map_eq_some_iff.mp slab
  refine ⟨UInt32.ofNat k, core, call, ran, ?_⟩
  rw [scratch]
  exact inside

variable (clear : Clear c env kernel)

include clear

theorem slab_staged (accepted : Accepted c env kernel mem) (clean : jobError c env = errNone)
    {placed : List Placed} (staged : placement c env = some placed) {idx : UInt32}
    (core : idx < c.nbCompute) {call : Call}
    (ran : runSlice (released c env active) idx c.nbCompute = some call) {a : Nat}
    (inside : spans call.scratch.1 call.scratch.2 a) : a < (jobScratch c env).cursor.toNat := by
  rcases clear with ends | ⟨none, _⟩
  · have small := ends.trans_lt (Nat.mod_lt _ (by decide))
    obtain ⟨low, cursor⟩ := slab_end active granted accepted clean small core ran inside
    rw [cursor]
    exact low.trans_le ends
  · rw [none] at staged
    cases staged

theorem slab_main (accepted : Accepted c env kernel mem) (clean : jobError c env = errNone)
    {idx : UInt32} (core : idx < c.nbCompute) {call : Call}
    (ran : runSlice (released c env active) idx c.nbCompute = some call) {a : Nat}
    (inside : spans call.scratch.1 call.scratch.2 a) : a < 2 ^ 31 := by
  rcases clear with ends | ⟨_, low⟩
  · have small := ends.trans_lt (Nat.mod_lt _ (by decide))
    obtain ⟨low, cursor⟩ := slab_end active granted accepted clean small core ran inside
    have top := cursor_low accepted.mapped accepted.known granted
    have below := accepted.mapped.below
    omega
  · exact (slab_end active granted accepted clean (low.trans_lt (by decide)) core ran
      inside).1.trans_le low

end Slabs

/-- Where the operands are when the cores are released, and that they are apart. -/
structure Buffers (c : Cluster) (env : Word → UInt32) (active : Nat → UInt32) (kernel : Kernel)
    (mem : Mem) : Prop where
  sized : Sized mem (released c env active).args kernel
  apart : OperandsApart (released c env active) c.nbCompute kernel

section Buffers

variable {active} (accepted : Accepted c env kernel mem) (clear : Clear c env kernel)
  (granted : ¬ (wanted env ≠ 0 ∧ (jobScratch c env).base = 0)) (clean : jobError c env = errNone)

include accepted clear granted clean

theorem in_place_buffers (staged : placement c env = none) :
    Buffers c env active kernel mem := by
  have same : ∀ x ∈ extents (arguments env) kernel,
      (released c env active).args x.arg = arguments env x.arg := fun x member =>
    in_place active staged (extents_pointers _ kernel x member).2
  have shape := released_shape active accepted
  have sizes := extents_same shape
  have below := accepted.mapped.below
  refine ⟨⟨shaped_moved accepted.shaped shape ?_, ?_, ?_⟩, ⟨?_, ?_⟩⟩
  · intro x member _ k _
    rw [same x member]
  · rw [sizes]
    exact accepted.small
  · rw [sizes]
    intro x member
    rw [same x member]
    exact (accepted.room member).1
  · rw [sizes]
    intro x first y second output input a inside
    rw [same x first] at inside
    rw [same y second]
    exact accepted.apart x first y second output input a inside
  · rw [sizes]
    intro idx core call ran a noisy x member inside
    rw [same x member] at inside
    have low := slab_main active granted clear accepted clean core ran noisy
    have high := (accepted.main x member a inside).1
    omega

theorem staged_buffers {placed : List Placed}
    (staged : placement c env = some placed) {mem₁ : Mem}
    (inputs : SameInputs (arguments env) (released c env active).args mem mem₁ kernel) :
    Buffers c env active kernel mem₁ := by
  have shape := released_shape active accepted
  have sizes := extents_same shape
  obtain ⟨layout, _⟩ := staged_layout accepted granted staged
  have below := accepted.mapped.below
  have buffer : ∀ x ∈ extents (arguments env) kernel, ∃ one ∈ placed, one.op = operand x ∧
      (released c env active).args x.arg = one.localCopy ∧ one.op.bytes.toNat = x.bytes := by
    intro x member
    obtain ⟨one, known, same⟩ := extent_placed accepted staged member
    refine ⟨one, known, same, ?_, by rw [same, accepted.bytes member]⟩
    rw [← staged_args active accepted staged known, same]
    rfl
  refine ⟨⟨shaped_moved accepted.shaped shape inputs, ?_, ?_⟩, ⟨?_, ?_⟩⟩
  · rw [sizes]
    exact accepted.small
  · rw [sizes]
    intro x member
    obtain ⟨one, known, _, pointer, bytes⟩ := buffer x member
    have high := (layout one known).2
    rw [pointer, ← bytes]
    omega
  · rw [sizes]
    intro x first y second output input a inside again
    obtain ⟨one, known, op, pointer, bytes⟩ := buffer x first
    obtain ⟨two, known', op', pointer', bytes'⟩ := buffer y second
    rw [pointer, ← bytes] at inside
    rw [pointer', ← bytes'] at again
    have same := staged_own accepted granted staged known known' inside again
    have kinds : x.isOutput = y.isOutput :=
      congrArg Operand.isOutput (op.symm.trans ((congrArg Placed.op same).trans op'))
    rw [output, input] at kinds
    cases kinds
  · rw [sizes]
    intro idx core call ran a noisy x member inside
    obtain ⟨one, known, _, pointer, bytes⟩ := buffer x member
    rw [pointer] at inside
    have low := slab_staged active granted clear accepted clean staged core ran noisy
    have high := (layout one known).1
    obtain ⟨start, _⟩ := inside
    omega

end Buffers

end Slices

end Job

/-! ### The job against the kernel run once -/

section Reference

variable {R : Type} [CommRing R] {fmt : Format R} {c : Cluster} {env : Word → UInt32}
  {active : Nat → UInt32} {kernel : Kernel} {mem mem₁ mem₂ mem' : Mem}

theorem whole_same {a a' : Nat → UInt32} (same : ∀ i < maxArgs, a' i = a i) :
    whole a' kernel = whole a kernel := by
  cases kernel <;> simp (disch := decide) only [whole, same]

theorem released_reference (accepted : Accepted c env kernel mem) (clean : jobError c env = errNone)
    (buffers : Buffers c env active kernel mem₁)
    (happens : Happens fmt c.nbCompute (.release (released c env active)) mem₁ mem₂) (a : Nat)
    (quiet : ¬ (crew fmt (released c env active) c.nbCompute).scratch a) :
    mem₂ a = reference fmt mem₁ (whole (released c env active).args kernel) a := by
  obtain ⟨trace, legal, complete, rfl⟩ := happens
  exact slices_reference (released_kernel active accepted clean) buffers.sized
    accepted.cores buffers.apart
    trace legal complete a quiet

theorem count_same {a a' : Nat → UInt32} (shape : SameShape a a' kernel) :
    (whole a' kernel).output.2 = (whole a kernel).output.2 := by
  cases kernel with
  | matmul => simp only [whole, Call.output, shape Mm.M (by decide), shape Mm.O (by decide)]
  | gemm => simp only [whole, Call.output, shape Gemm.M (by decide), shape Gemm.O (by decide)]
  | conv2d =>
      simp only [whole, Call.output, shape Conv.F (by decide), shape Conv.H (by decide),
        shape Conv.P (by decide), shape Conv.SP (by decide), shape Conv.W (by decide),
        shape Conv.Q (by decide), shape Conv.SQ (by decide)]
  | mfcc =>
      simp only [whole, Call.output, shape Mfcc.nbFrames (by decide),
        shape Mfcc.nbCep (by decide)]

theorem output_moved (sized : Sized mem (arguments env) kernel) {a' : Nat → UInt32}
    (shape : SameShape (arguments env) a' kernel)
    (inputs : SameInputs (arguments env) a' mem mem₁ kernel) {k : Nat}
    (inside : k < (whole (arguments env) kernel).output.2 * 4) :
    reference fmt mem₁ (whole a' kernel) ((whole a' kernel).output.1.toNat + k) =
      reference fmt mem (whole (arguments env) kernel)
        ((whole (arguments env) kernel).output.1.toNat + k) := by
  have count := count_same shape
  rw [reference, if_pos ⟨Nat.le_add_right _ _, by omega⟩, reference,
    if_pos ⟨Nat.le_add_right _ _, by omega⟩, Nat.add_sub_cancel_left, Nat.add_sub_cancel_left,
    whole_moved kernel sized shape inputs (k / 4) (by omega)]

theorem in_place_reference (accepted : Accepted c env kernel mem)
    (clear : Clear c env kernel) (clean : jobError c env = errNone)
    (granted : ¬ (wanted env ≠ 0 ∧ (jobScratch c env).base = 0))
    (staged : placement c env = none)
    (happens : Happens fmt c.nbCompute (.release (released c env active)) mem mem₂) (a : Nat)
    (main : mainMemory a) : mem₂ a = reference fmt mem (whole (arguments env) kernel) a := by
  have below := accepted.mapped.below
  have start := main.1
  rw [released_reference accepted clean (in_place_buffers accepted clear granted clean staged)
    happens a ?_, whole_same fun i inside => in_place active staged inside]
  rintro ⟨idx, core, call, ran, noisy⟩
  exact absurd start (Nat.not_le_of_lt
    (slab_main active granted clear accepted clean core ran noisy))

theorem staged_reference (accepted : Accepted c env kernel mem)
    (clear : Clear c env kernel) (clean : jobError c env = errNone)
    (granted : ¬ (wanted env ≠ 0 ∧ (jobScratch c env).base = 0)) {placed : List Placed}
    (staged : placement c env = some placed)
    (inward : Exec fmt c.nbCompute (copiesIn env placed) mem mem₁)
    (happens : Happens fmt c.nbCompute (.release (released c env active)) mem₁ mem₂)
    (outward : Exec fmt c.nbCompute (copiesOut env placed) mem₂ mem') (a : Nat)
    (main : mainMemory a) : mem' a = reference fmt mem (whole (arguments env) kernel) a := by
  rw [copiesIn_inputs] at inward
  rw [copiesOut_outputs] at outward
  have copied := exec_copies fmt c.nbCompute Transfer.inward (fun _ _ _ moved => moved)
    (inputs env placed) _ mem mem₁ inward
  have returned := exec_copies fmt c.nbCompute Transfer.outward (fun _ _ _ moved => moved)
    (outputs env placed) _ mem₂ mem' outward
  obtain ⟨kept, inputs⟩ := staged_inputs active accepted granted staged copied
  have buffers := staged_buffers accepted clear granted clean staged inputs
  have ran := released_reference accepted clean buffers happens
  have shape := released_shape active accepted
  obtain ⟨output, only⟩ := one_output accepted.sized
  obtain ⟨one, known, op⟩ := extent_placed accepted staged output
  have pointer : (whole (released c env active).args kernel).output.1 = one.localCopy := by
    rw [whole_place, ← staged_args active accepted staged known, op]
    rfl
  have target : env (.args one.op.arg) = (whole (arguments env) kernel).output.1 := by
    rw [whole_place, op]
    rfl
  have bytes : one.op.bytes.toNat = (whole (arguments env) kernel).output.2 * 4 := by
    rw [op, accepted.bytes output]
    rfl
  -- whatever lies at or past the cursor is no scratch
  have quiet : ∀ cell, (jobScratch c env).cursor.toNat ≤ cell →
      ¬ (crew fmt (released c env active) c.nbCompute).scratch cell := by
    rintro cell high ⟨idx, core, call, slice, noisy⟩
    exact absurd high (Nat.not_le_of_lt
      (slab_staged active granted clear accepted clean staged core slice noisy))
  have cursor := cursor_low accepted.mapped accepted.known granted
  have below := accepted.mapped.below
  have start := main.1
  rw [returned]
  rcases copies_settled (outputs_apart accepted granted staged) mem₂ a with
    ⟨t, member, inside, moved⟩ | ⟨outside, still⟩
  · obtain ⟨two, also, rfl⟩ := List.mem_map.mp member
    obtain ⟨placed_two, isOutput⟩ := List.mem_filter.mp also
    obtain ⟨y, extent, same⟩ := placed_extent accepted staged placed_two
    rw [same] at isOutput
    have ops : two.op = one.op := by rw [same, op, only y extent isOutput]
    have buffer : two.localCopy = one.localCopy := by
      rw [← staged_args active accepted staged placed_two, ops]
      exact staged_args active accepted staged known
    obtain ⟨low, high⟩ := inside
    rw [moved]
    simp only [ops, buffer, target, bytes] at low high ⊢
    have layout := ((staged_layout accepted granted staged).1 one known).1
    rw [ran _ (quiet _ (Nat.le_add_right_of_le layout)), ← pointer,
      output_moved accepted.sized shape inputs (by omega), Nat.add_sub_cancel' low]
  · have away : ¬ spans (whole (arguments env) kernel).output.1
        ((whole (arguments env) kernel).output.2 * 4) a := by
      rw [← target, ← bytes]
      refine outside ⟨env (.args one.op.arg), one.localCopy, one.op.bytes⟩ ?_
      refine List.mem_map.mpr ⟨one, List.mem_filter.mpr ⟨known, ?_⟩, rfl⟩
      rw [op]
      rfl
    rw [still, ran a (quiet a (by omega)), reference, if_neg, kept a start, reference,
      if_neg away]
    intro inside
    rw [pointer, count_same shape, ← bytes] at inside
    have low := staged_below accepted granted staged known inside
    omega

/-- However the job's actions are carried out, main memory ends as if the kernel
had run once on the host's buffers. -/
def AsReference (fmt : Format R) (c : Cluster) (env : Word → UInt32) (kernel : Kernel)
    (active : Nat → UInt32) (cycles : UInt32) (mem : Mem) : Prop :=
  ∀ mem', Exec fmt c.nbCompute ((serve c active cycles).acts env) mem mem' →
    ∀ a, mainMemory a → mem' a = reference fmt mem (whole (arguments env) kernel) a

variable {cycles : UInt32}

theorem clear_reference (accepted : Accepted c env kernel mem) (clear : Clear c env kernel)
    (published : (Word.error, errNone) ∈ (serve c active cycles).stores env) :
    AsReference fmt c env kernel active cycles mem := by
  intro mem' ran a main
  obtain ⟨clean, granted⟩ := published_granted published
  rw [serve_acts] at ran
  obtain ⟨mem₁, inward, mem₂, happens, mem₃, joined, outward⟩ :=
    (exec_append fmt c.nbCompute _ _ mem mem').mp ran
  have joined : mem₃ = mem₂ := joined
  subst joined
  cases staged : placement c env with
  | none =>
      rw [staged] at inward outward
      have before : mem₁ = mem := inward
      have after : mem' = mem₃ := outward
      subst before after
      exact in_place_reference accepted clear clean granted staged happens a main
  | some placed =>
      rw [staged] at inward outward
      exact staged_reference accepted clear clean granted staged inward happens outward a main

theorem overrun_reference (accepted : Accepted c env kernel mem) (reaches : ¬ Clear c env kernel)
    (staged : placement c env = none)
    (published : (Word.error, errNone) ∈ (serve c active cycles).stores env) :
    ¬ AsReference fmt c env kernel active cycles mem := by
  intro always
  obtain ⟨clean, granted⟩ := published_granted published
  obtain ⟨wraps, past⟩ := not_or.mp reaches
  have past : 2 ^ 31 < slabsEnd c (arguments env) kernel :=
    Nat.lt_of_not_le fun low => past ⟨staged, low⟩
  have sized : scratchBytes (arguments env) kernel ≠ 0 := by
    intro none
    have low := (heap_aligned accepted.mapped).2
    have below := accepted.mapped.below
    simp only [slabsEnd, none, alignUp] at past low
    omega
  cases kernel with
  | matmul => exact sized rfl
  | gemm => exact sized rfl
  | conv2d => exact sized rfl
  | mfcc =>
      obtain ⟨idx, core, call, ran, inside⟩ := slab_reaches active granted accepted clean past
      obtain ⟨b, other⟩ : ∃ b, b ≠ reference fmt mem (whole (arguments env) .mfcc) (2 ^ 31) := by
        by_cases zero : reference fmt mem (whole (arguments env) .mfcc) (2 ^ 31) = 0
        · exact ⟨1, by rw [zero]; decide⟩
        · exact ⟨0, Ne.symm zero⟩
      -- the cores take turns, then one uses its scratch
      have last : (crew fmt (released c env active) c.nbCompute).run
          (inTurn (released c env active) c.nbCompute ++ [.noise (2 ^ 31) b]) mem (2 ^ 31) = b := by
        rw [run_append]
        simp [Crew.run, Crew.apply]
      refine other (last.symm.trans (always _ ?_ (2 ^ 31) ⟨Nat.le_refl _, by decide⟩))
      rw [serve_acts, staged]
      refine ⟨_, ⟨_, ?_, ?_, rfl⟩, _, rfl, rfl⟩
      · intro e member
        rcases List.mem_append.mp member with turn | noise
        · exact inTurn_legal fmt _ _ e turn
        · rw [List.mem_singleton.mp noise]
          exact ⟨idx, core, call, ran, inside⟩
      · exact fun s mine => List.mem_append_left _ (inTurn_complete fmt _ _ s mine)

/-- An accepted job published without an error leaves main memory as the kernel
run once on the host's buffers does, if the slabs are clear; in place, only if. -/
theorem offloaded_job (fmt : Format R) (c : Cluster) (env : Word → UInt32) (kernel : Kernel)
    (active : Nat → UInt32) (cycles : UInt32) (mem : Mem) (accepted : Accepted c env kernel mem)
    (published : (Word.error, errNone) ∈ (serve c active cycles).stores env) :
    (Clear c env kernel → AsReference fmt c env kernel active cycles mem) ∧
      (placement c env = none → AsReference fmt c env kernel active cycles mem →
        Clear c env kernel) := by
  refine ⟨fun clear => clear_reference accepted clear published, fun staged always => ?_⟩
  by_contra reaches
  exact overrun_reference accepted reaches staged published always

end Reference

/-! ### Two jobs -/

theorem Accepted.of_layout {c : Cluster} {env : Word → UInt32} {kernel : Kernel} {mem : Mem}
    (mapped : Mapped c) (cores : c.nbCompute ≠ 0) (known : jobKernel env = some kernel)
    (shaped : Shaped mem (arguments env) kernel)
    (inside : ∀ x ∈ extents (arguments env) kernel, x.bytes < 2 ^ 32 ∧
      2 ^ 31 ≤ (arguments env x.arg).toNat ∧ (arguments env x.arg).toNat + x.bytes ≤ 2 ^ 32)
    (ordered : ∀ x ∈ extents (arguments env) kernel, ∀ y ∈ extents (arguments env) kernel,
      x.isOutput = true → y.isOutput = false →
        (arguments env x.arg).toNat + x.bytes ≤ (arguments env y.arg).toNat ∨
          (arguments env y.arg).toNat + y.bytes ≤ (arguments env x.arg).toNat) :
    Accepted c env kernel mem where
  mapped := mapped
  cores := cores
  known := known
  shaped := shaped
  small x member := (inside x member).1
  main := by
    rintro x member a ⟨low, high⟩
    obtain ⟨_, start, stop⟩ := inside x member
    exact ⟨start.trans low, high.trans_le stop⟩
  apart := by
    rintro x first y second output input a ⟨low, high⟩ ⟨low', high'⟩
    have sides := ordered x first y second output input
    omega

/-- Whole numbers in two's complement, least byte first. -/
def fixed : Format Int where
  f32 b0 b1 b2 b3 :=
    (Int.ofNat (b0.toNat + 256 * b1.toNat + 65536 * b2.toNat + 16777216 * b3.toNat)).bmod (2 ^ 32)
  byte v i := UInt8.ofNat (v / 256 ^ i % 256).toNat
  logFloored v := v

def octet : Cluster :=
  { heapStart := 0x10008000, heapEnd := 0x10017000, nbCompute := 8, requiresStaging := false }

/-- Ones everywhere. -/
def ones : Mem := fun a => if a % 4 = 0 then 1 else 0

/-- A staged product of 3 by 2 and 2 by 2. -/
def product : Word → UInt32 :=
  jobWords 2 jobStage [0x82000000, 0x82001000, 0x82002000, 3, 2, 2]

theorem product_accepted : Accepted octet product .matmul ones := by
  refine Accepted.of_layout ⟨by decide, by decide⟩ (by decide) (by decide) trivial ?_ ?_
  · decide +kernel
  · decide +kernel

/-- Three working cores of eight, copied in and out. -/
theorem offloaded_product : (placement octet product).isSome = true ∧
    ∃ mem', Exec fixed octet.nbCompute ((serve octet (fun _ => 0) 0).acts product) ones mem' ∧
      mem' 0x82002014 = 2 := by
  have published : (Word.error, errNone) ∈ (serve octet (fun _ => 0) 0).stores product := by
    have clean : jobError octet product = errNone := by decide +kernel
    rw [serve_stores, clean]
    exact List.mem_cons_self
  have clear : Clear octet product .matmul := Or.inl (by decide +kernel)
  obtain ⟨mem', ran⟩ := exec_exists fixed octet.nbCompute
    ((serve octet (fun _ => 0) 0).acts product) ones
  refine ⟨by decide +kernel, mem', ran, ?_⟩
  have same := (offloaded_job fixed octet product .matmul (fun _ => 0) 0 ones product_accepted
    published).1 clear mem' ran 0x82002014 ⟨by decide, by decide⟩
  rw [same]
  decide +kernel

/-- Eight frames whose transform has 2^26 points: 512 MiB and 4 bytes of scratch a
core, 512 bytes for all eight modulo 2^32. -/
def wideFrames : Word → UInt32 :=
  jobWords 5 0 [0x82000000, 0x88000000, 8, 16, 16, 0x4000000, 0x83000000, 0xC0000000, 0x84000000,
    0x85000000, 0x86000000, 1, 0x87000000, 1, 1]

theorem wideFrames_accepted : Accepted octet wideFrames .mfcc fun _ => 0 := by
  refine Accepted.of_layout ⟨by decide, by decide⟩ (by decide) (by decide)
    ⟨by decide, by decide, by decide, ⟨26, by decide⟩, by decide +kernel, by decide +kernel⟩ ?_ ?_
  · decide +kernel
  · decide +kernel

/-- The job is published without an error, and the slab of core 3 is over the start
of main memory. -/
theorem wide_frames_overrun : Accepted octet wideFrames .mfcc (fun _ => 0) ∧
    (Word.error, errNone) ∈ (serve octet (fun _ => 0) 0).stores wideFrames ∧
      ∃ mem', Exec fixed octet.nbCompute ((serve octet (fun _ => 0) 0).acts wideFrames)
        (fun _ => 0) mem' ∧ ∃ a, mainMemory a ∧
          mem' a ≠ reference fixed (fun _ => 0) (whole (arguments wideFrames) .mfcc) a := by
  have published : (Word.error, errNone) ∈ (serve octet (fun _ => 0) 0).stores wideFrames := by
    have clean : jobError octet wideFrames = errNone := by decide +kernel
    rw [serve_stores, clean]
    exact List.mem_cons_self
  have staged : placement octet wideFrames = none := by decide +kernel
  have reaches : ¬ Clear octet wideFrames .mfcc := by
    unfold Clear
    decide +kernel
  refine ⟨wideFrames_accepted, published, ?_⟩
  have differs : ¬ AsReference fixed octet wideFrames .mfcc (fun _ => 0) 0 fun _ => 0 :=
    overrun_reference wideFrames_accepted reaches staged published
  simpa only [AsReference, not_forall, exists_prop] using differs


end HeteroSim.OffloadedJob
