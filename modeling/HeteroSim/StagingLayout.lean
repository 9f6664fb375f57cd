import HeteroSim.SliceRun

/-!
Where a job's scratch and its staged operands lie in the heap: aligned, apart
from each other and inside it, as long as the scratch of all cores together,
counted in integers, does not wrap 32 bits.
-/

namespace HeteroSim.StagingLayout

open SharedWords ClusterJob SliceRun

/-- The heap lies below main memory, the cores' stacks between them. -/
structure Mapped (c : Cluster) : Prop where
  ordered : c.heapStart ≤ c.heapEnd
  below : c.heapEnd.toNat + 128 ≤ 2 ^ 31

def alignUp (n : Nat) : Nat := (n + 63) / 64 * 64

theorem alignUp_bounds (n : Nat) : n ≤ alignUp n ∧ alignUp n ≤ n + 63 := by
  unfold alignUp
  omega

theorem mask_low (x : Nat) (small : x < 2 ^ 32) : x &&& 4294967232 = x / 64 * 64 := by
  have shifted : x / 64 * 64 = (x >>> 6) <<< 6 := by
    rw [Nat.shiftRight_eq_div_pow, Nat.shiftLeft_eq]
  have mask : 4294967232 = (2 ^ 26 - 1) <<< 6 := by decide
  rw [shifted, mask]
  refine Nat.eq_of_testBit_eq fun i => ?_
  rw [Nat.testBit_and, Nat.testBit_shiftLeft, Nat.testBit_shiftLeft, Nat.testBit_two_pow_sub_one,
    Nat.testBit_shiftRight]
  by_cases low : 6 ≤ i
  · by_cases high : i < 32
    · have kept : i - 6 < 26 := by omega
      have same : 6 + (i - 6) = i := by omega
      simp [low, kept, same]
    · have gone : x.testBit i = false :=
        Nat.testBit_lt_two_pow (small.trans_le (Nat.pow_le_pow_right (by decide) (by omega)))
      have same : 6 + (i - 6) = i := by omega
      simp [low, gone, same]
  · simp [low]

theorem align64_exact {v : UInt32} (small : v.toNat + 63 < 2 ^ 32) :
    (align64 v).toNat = alignUp v.toNat := by
  have sum : (v + 63).toNat = v.toNat + 63 := by
    rw [UInt32.toNat_add]
    exact Nat.mod_eq_of_lt small
  have mask : (~~~63 : UInt32).toNat = 4294967232 := by decide
  rw [align64, UInt32.toNat_and, sum, mask, mask_low _ small, alignUp]

/-! ### Placement -/

def after (x y : Placed) : Prop := x.localCopy.toNat + x.op.bytes.toNat ≤ y.localCopy.toNat

theorem after_own {placed : List Placed} (ordered : placed.Pairwise after) {one two : Placed}
    (first : one ∈ placed) (second : two ∈ placed) {a : Nat}
    (inside : spans one.localCopy one.op.bytes.toNat a)
    (again : spans two.localCopy two.op.bytes.toNat a) : one = two := by
  by_contra other
  have symmetric : Std.Symm fun x y => after x y ∨ after y x := ⟨fun _ _ => Or.symm⟩
  have either : placed.Pairwise fun x y => after x y ∨ after y x := ordered.imp Or.inl
  have apart := either.forall first second other
  obtain ⟨low, high⟩ := inside
  obtain ⟨low', high'⟩ := again
  rcases apart with before | behind
  · have ends : one.localCopy.toNat + one.op.bytes.toNat ≤ two.localCopy.toNat := before
    omega
  · have ends : two.localCopy.toNat + two.op.bytes.toNat ≤ one.localCopy.toNat := behind
    omega

theorem place_layout {limit : UInt32} (below : limit.toNat + 128 ≤ 2 ^ 31) (ops : List Operand)
    (small : ∀ op ∈ ops, op.bytes.toNat ≤ 2 ^ 31) (cursor : UInt32)
    (start : cursor.toNat ≤ limit.toNat + 63) (placed : List Placed)
    (fits : place limit cursor ops = some placed) :
    (∀ one ∈ placed, cursor.toNat ≤ one.localCopy.toNat ∧
      one.localCopy.toNat + one.op.bytes.toNat ≤ limit.toNat) ∧ placed.Pairwise after := by
  induction ops generalizing cursor placed with
  | nil =>
      cases fits
      exact ⟨fun one member => by simp at member, List.Pairwise.nil⟩
  | cons op rest ih =>
      have short := small op List.mem_cons_self
      have aligned : (align64 cursor).toNat = alignUp cursor.toNat := align64_exact (by omega)
      obtain ⟨up, near⟩ := alignUp_bounds cursor.toNat
      have exact : (align64 cursor + op.bytes).toNat = alignUp cursor.toNat + op.bytes.toNat := by
        rw [UInt32.toNat_add, aligned]
        exact Nat.mod_eq_of_lt (by omega)
      rw [place] at fits
      by_cases past : limit < align64 cursor + op.bytes
      · rw [if_pos past] at fits
        cases fits
      · rw [if_neg past] at fits
        obtain ⟨later, known, same⟩ := Option.map_eq_some_iff.mp fits
        subst same
        have inside : alignUp cursor.toNat + op.bytes.toNat ≤ limit.toNat := by
          rw [← exact]
          exact Nat.le_of_not_lt (mt UInt32.lt_iff_toNat_lt.mpr past)
        obtain ⟨bounds, apart⟩ := ih (fun op member => small op (List.mem_cons_of_mem _ member))
          (align64 cursor + op.bytes) (by omega) later known
        refine ⟨?_, List.pairwise_cons.mpr ⟨?_, apart⟩⟩
        · intro one member
          rcases List.mem_cons.mp member with head | tail
          · subst head
            show cursor.toNat ≤ (align64 cursor).toNat ∧
              (align64 cursor).toNat + op.bytes.toNat ≤ limit.toNat
            rw [aligned]
            exact ⟨up, inside⟩
          · obtain ⟨low, high⟩ := bounds one tail
            rw [exact] at low
            exact ⟨by omega, high⟩
        · intro one member
          have low := (bounds one member).1
          show (align64 cursor).toNat + op.bytes.toNat ≤ one.localCopy.toNat
          rw [aligned]
          rwa [exact] at low

/-! ### Scratch -/

def scratchBytes (a : Nat → UInt32) : Kernel → Nat
  | .mfcc => (2 * (a Mfcc.fftLen).toNat + (a Mfcc.nbMel).toNat) * 4
  | _ => 0

def scratchEnd (c : Cluster) (a : Nat → UInt32) (kernel : Kernel) : Nat :=
  alignUp c.heapStart.toNat + alignUp (scratchBytes a kernel) * c.nbCompute.toNat

def slabsEnd (c : Cluster) (a : Nat → UInt32) (kernel : Kernel) : Nat :=
  alignUp c.heapStart.toNat +
    alignUp (scratchBytes a kernel) * min c.nbCompute.toNat (rows a kernel).toNat

theorem planScratch_eval (env : Word → UInt32) (kernel : Kernel) :
    (planScratch (some kernel)).eval env =
      UInt32.ofNat (scratchBytes (fun i => env (.args i)) kernel) := by
  cases kernel with
  | mfcc => simp [planScratch, scratchBytes, UInt32.ofNat_mul, UInt32.ofNat_add,
      UInt32.ofNat_toNat]
  | matmul => rfl
  | gemm => rfl
  | conv2d => rfl

section Scratch

variable {c : Cluster} {env : Word → UInt32} {kernel : Kernel}

theorem heap_aligned (mapped : Mapped c) :
    (align64 c.heapStart).toNat = alignUp c.heapStart.toNat ∧
      alignUp c.heapStart.toNat ≤ c.heapEnd.toNat + 63 := by
  have ordered := UInt32.le_iff_toNat_le.mp mapped.ordered
  have below := mapped.below
  obtain ⟨_, near⟩ := alignUp_bounds c.heapStart.toNat
  exact ⟨align64_exact (by omega), by omega⟩

theorem scratch_granted (known : jobKernel env = some kernel)
    (granted : ¬ (wanted env ≠ 0 ∧ (jobScratch c env).base = 0)) :
    (UInt32.ofNat (scratchBytes (fun i => env (.args i)) kernel) = 0 ∧
      jobScratch c env = { cursor := align64 c.heapStart }) ∨
    (UInt32.ofNat (scratchBytes (fun i => env (.args i)) kernel) ≠ 0 ∧
      align64 c.heapStart ≠ 0 ∧ (jobScratch c env).cursor ≤ c.heapEnd ∧
      jobScratch c env =
        { cursor := align64 c.heapStart +
            align64 (UInt32.ofNat (scratchBytes (fun i => env (.args i)) kernel)) * c.nbCompute
          base := align64 c.heapStart
          stride := align64 (UInt32.ofNat (scratchBytes (fun i => env (.args i)) kernel)) }) := by
  have scratch : jobScratch c env = (reserveScratch c (some kernel)).eval env := by
    rw [jobScratch, known]
  have want : wanted env = (planScratch (some kernel)).eval env := by
    rw [wanted, known]
  simp only [reserveScratch, Thread.eval_bind] at scratch
  rw [planScratch_eval] at scratch want
  generalize UInt32.ofNat (scratchBytes (fun i => env (.args i)) kernel) = perCore at *
  by_cases nothing : perCore = 0
  · rw [if_pos nothing] at scratch
    exact Or.inl ⟨nothing, scratch⟩
  · rw [if_neg nothing] at scratch
    by_cases past : c.heapEnd < align64 c.heapStart + align64 perCore * c.nbCompute
    · rw [if_pos past] at scratch
      rw [scratch, want] at granted
      exact absurd ⟨nothing, rfl⟩ granted
    · rw [if_neg past] at scratch
      rw [scratch, want] at granted
      refine Or.inr ⟨nothing, fun base => granted ⟨nothing, base⟩, ?_, scratch⟩
      rw [scratch]
      exact UInt32.not_lt.mp past

theorem cursor_low (mapped : Mapped c) (known : jobKernel env = some kernel)
    (granted : ¬ (wanted env ≠ 0 ∧ (jobScratch c env).base = 0)) :
    (jobScratch c env).cursor.toNat ≤ c.heapEnd.toNat + 63 := by
  obtain ⟨start, low⟩ := heap_aligned mapped
  rcases scratch_granted known granted with ⟨_, scratch⟩ | ⟨_, _, inside, _⟩
  · rw [scratch]
    exact start.trans_le low
  · exact Nat.le_add_right_of_le (UInt32.le_iff_toNat_le.mp inside)

theorem slab_layout (mapped : Mapped c) (known : jobKernel env = some kernel)
    (granted : ¬ (wanted env ≠ 0 ∧ (jobScratch c env).base = 0))
    (nonempty : scratchBytes (fun i => env (.args i)) kernel ≠ 0)
    (small : alignUp (scratchBytes (fun i => env (.args i)) kernel) < 2 ^ 32) :
    (jobScratch c env).base.toNat = alignUp c.heapStart.toNat ∧
      (jobScratch c env).stride.toNat = alignUp (scratchBytes (fun i => env (.args i)) kernel) ∧
      (jobScratch c env).cursor.toNat = scratchEnd c (fun i => env (.args i)) kernel % 2 ^ 32 := by
  obtain ⟨start, _⟩ := heap_aligned mapped
  rw [scratchEnd]
  rcases scratch_granted known granted with ⟨none, _⟩ | ⟨_, _, _, scratch⟩
  · generalize scratchBytes (fun i => env (.args i)) kernel = bytes at *
    obtain ⟨up, _⟩ := alignUp_bounds bytes
    have size : (UInt32.ofNat bytes).toNat = bytes := exact_of_cast rfl (by omega)
    rw [none] at size
    exact absurd size.symm nonempty
  · rw [scratch]
    generalize scratchBytes (fun i => env (.args i)) kernel = bytes at *
    obtain ⟨up, _⟩ := alignUp_bounds bytes
    have multiple : alignUp bytes % 64 = 0 := by
      unfold alignUp
      omega
    have size : (UInt32.ofNat bytes).toNat = bytes := exact_of_cast rfl (by omega)
    have stride : (align64 (UInt32.ofNat bytes)).toNat = alignUp bytes := by
      rw [align64_exact (by omega), size]
    refine ⟨start, stride, ?_⟩
    show (align64 c.heapStart + align64 (UInt32.ofNat bytes) * c.nbCompute).toNat = _
    rw [UInt32.toNat_add, UInt32.toNat_mul, start, stride, Nat.add_mod_mod]

theorem slab_past (mapped : Mapped c) (known : jobKernel env = some kernel)
    (granted : ¬ (wanted env ≠ 0 ∧ (jobScratch c env).base = 0))
    (nonempty : scratchBytes (fun i => env (.args i)) kernel ≠ 0) {w : Nat} (working : 0 < w)
    (past : 2 ^ 31 < alignUp c.heapStart.toNat +
      alignUp (scratchBytes (fun i => env (.args i)) kernel) * w) :
    ∃ k < w, spans ((jobScratch c env).base + UInt32.ofNat k * (jobScratch c env).stride)
      (scratchBytes (fun i => env (.args i)) kernel) (2 ^ 31) := by
  obtain ⟨start, low⟩ := heap_aligned mapped
  have below := mapped.below
  by_cases wide : 2 ^ 31 ≤ alignUp (scratchBytes (fun i => env (.args i)) kernel)
  · -- the first slab alone is that long
    refine ⟨0, working, ?_⟩
    have zero : (jobScratch c env).base + UInt32.ofNat 0 * (jobScratch c env).stride =
        (jobScratch c env).base := by simp
    rw [zero]
    have near := (alignUp_bounds (scratchBytes (fun i => env (.args i)) kernel)).2
    rcases scratch_granted known granted with ⟨wraps, scratch⟩ | ⟨_, nonzero, _, scratch⟩
    · have wraps : scratchBytes (fun i => env (.args i)) kernel % 2 ^ 32 = 0 :=
        (UInt32.toNat_ofNat' ..).symm.trans (congrArg UInt32.toNat wraps)
      rw [scratch]
      show 0 ≤ 2 ^ 31 ∧ 2 ^ 31 < 0 + _
      omega
    · have first : alignUp c.heapStart.toNat ≠ 0 := fun none =>
        nonzero (UInt32.toNat_inj.mp (start.trans none))
      rw [scratch]
      show (align64 c.heapStart).toNat ≤ 2 ^ 31 ∧ 2 ^ 31 < (align64 c.heapStart).toNat + _
      rw [start]
      unfold alignUp at first low wide ⊢
      omega
  · obtain ⟨base, stride, _⟩ := slab_layout mapped known granted nonempty (by omega)
    generalize scratchBytes (fun i => env (.args i)) kernel = bytes at *
    have wide : alignUp bytes < 2 ^ 31 := Nat.lt_of_not_le wide
    have positive : 0 < alignUp bytes := by
      have up := (alignUp_bounds bytes).1
      omega
    have floor := Nat.div_mul_le_self (2 ^ 31 - alignUp c.heapStart.toNat) (alignUp bytes)
    have next := Nat.lt_div_mul_add (a := 2 ^ 31 - alignUp c.heapStart.toNat) positive
    have inside : (2 ^ 31 - alignUp c.heapStart.toNat) / alignUp bytes < w := by
      rw [Nat.div_lt_iff_lt_mul positive, Nat.mul_comm]
      omega
    have few : (2 ^ 31 - alignUp c.heapStart.toNat) / alignUp bytes < 2 ^ 32 :=
      (Nat.div_le_self _ _).trans_lt (by omega)
    generalize (2 ^ 31 - alignUp c.heapStart.toNat) / alignUp bytes = k at *
    have exact : ((jobScratch c env).base + UInt32.ofNat k * (jobScratch c env).stride).toNat =
        alignUp c.heapStart.toNat + k * alignUp bytes := by
      rw [UInt32.toNat_add, UInt32.toNat_mul, base, stride, exact_of_cast rfl few, Nat.add_mod_mod]
      exact Nat.mod_eq_of_lt (by omega)
    refine ⟨k, inside, ?_⟩
    rw [spans, exact]
    unfold alignUp at *
    rw [← Nat.mul_assoc] at floor next ⊢
    omega

end Scratch

end HeteroSim.StagingLayout
