import HeteroSim.BumpAllocator
import HeteroSim.OffloadedJob

/-!
The heap of a cluster while a job runs. `reserve_scratch` and `stage_in` move one
cursor, so slabs and operands together are the regions of one bump allocator:
first a slab for every core, if all of them fit, then the operands, if they do.
-/

namespace HeteroSim.StagedHeap

open SharedWords ClusterJob SliceRun StagingLayout ParallelSlices OffloadedJob BumpAllocator

/-- The heap lies below main memory. -/
structure Heap (c : Cluster) : Prop where
  ordered : c.heapStart ≤ c.heapEnd
  below : c.heapEnd.toNat ≤ 2 ^ 31

def region (one : Placed) : Region := ⟨one.localCopy.toNat, one.op.bytes.toNat⟩

def sizes (ops : List Operand) : List Nat := ops.map fun op => op.bytes.toNat

theorem align64_roundUp {v : UInt32} (low : v.toNat ≤ 2 ^ 31) :
    (align64 v).toNat = roundUp 64 v.toNat ∧ roundUp 64 v.toNat ≤ 2 ^ 31 :=
  ⟨align64_exact (by omega), roundUp_le (by decide) (by decide) low⟩

/-! ### The operands -/

section Operands

variable {limit : UInt32}

theorem place_step {cursor : UInt32} (low : cursor.toNat ≤ 2 ^ 31) {op : Operand}
    (short : op.bytes.toNat < 2 ^ 31) :
    (align64 cursor + op.bytes).toNat = roundUp 64 cursor.toNat + op.bytes.toNat ∧
      (limit < align64 cursor + op.bytes ↔
        limit.toNat < roundUp 64 cursor.toNat + op.bytes.toNat) := by
  obtain ⟨aligned, up⟩ := align64_roundUp low
  have exact : (align64 cursor + op.bytes).toNat = roundUp 64 cursor.toNat + op.bytes.toNat := by
    rw [UInt32.toNat_add, aligned]
    exact Nat.mod_eq_of_lt (by omega)
  exact ⟨exact, by rw [UInt32.lt_iff_toNat_lt, exact]⟩

variable (below : limit.toNat ≤ 2 ^ 31)

include below

theorem place_regions (ops : List Operand) (small : ∀ op ∈ ops, op.bytes.toNat < 2 ^ 31)
    (cursor : UInt32) (low : cursor.toNat ≤ 2 ^ 31) (placed : List Placed)
    (fits : place limit cursor ops = some placed) :
    placed.map region = regions 64 cursor.toNat (sizes ops) ∧
      (ops ≠ [] → top 64 cursor.toNat (sizes ops) ≤ limit.toNat) := by
  induction ops generalizing cursor placed with
  | nil =>
      cases fits
      exact ⟨rfl, fun nonempty => absurd rfl nonempty⟩
  | cons op rest ih =>
      obtain ⟨exact, past⟩ := place_step low (small op List.mem_cons_self)
      obtain ⟨aligned, _⟩ := align64_roundUp low
      rw [place] at fits
      split at fits
      · cases fits
      · next inside =>
          rw [past] at inside
          obtain ⟨later, known, same⟩ := Option.map_eq_some_iff.mp fits
          subst same
          obtain ⟨layout, last⟩ := ih (fun op member => small op (List.mem_cons_of_mem _ member))
            (align64 cursor + op.bytes) (by omega) later known
          rw [exact] at layout last
          refine ⟨?_, fun _ => ?_⟩
          · rw [List.map_cons, layout, region, aligned]
            rfl
          · cases rest with
            | nil => exact Nat.le_of_not_lt inside
            | cons next rest => exact last (List.cons_ne_nil next rest)

theorem place_fails (ops : List Operand) (small : ∀ op ∈ ops, op.bytes.toNat < 2 ^ 31)
    (cursor : UInt32) (low : cursor.toNat ≤ 2 ^ 31) (nothing : place limit cursor ops = none) :
    limit.toNat < top 64 cursor.toNat (sizes ops) := by
  induction ops generalizing cursor with
  | nil => cases nothing
  | cons op rest ih =>
      obtain ⟨exact, past⟩ := place_step low (small op List.mem_cons_self)
      rw [place] at nothing
      split at nothing
      · next outside =>
          calc limit.toNat < roundUp 64 cursor.toNat + op.bytes.toNat := past.mp outside
            _ ≤ top 64 cursor.toNat (sizes (op :: rest)) := le_top (by decide) _ _
      · next inside =>
          rw [past] at inside
          have later := ih (fun op member => small op (List.mem_cons_of_mem _ member))
            (align64 cursor + op.bytes) (by omega) (Option.map_eq_none_iff.mp nothing)
          rwa [exact] at later

end Operands

/-! ### The scratch -/

section Scratch

variable (c : Cluster) (env : Word → UInt32)

def heapBase : Nat := roundUp 64 c.heapStart.toNat

/-- What a core's slab takes of the heap. -/
def slabBytes : Nat := roundUp 64 (wanted env).toNat

/-- Scratch is needed and fits. -/
def Reserved : Prop :=
  wanted env ≠ 0 ∧ heapBase c + c.nbCompute.toNat * slabBytes env ≤ c.heapEnd.toNat

instance : Decidable (Reserved c env) := inferInstanceAs (Decidable (_ ∧ _))

def slabSizes : List Nat :=
  if Reserved c env then List.replicate c.nbCompute.toNat (slabBytes env) else []

/-- Core `k`'s scratch pointer and what it may use behind it. -/
def slab (k : Nat) : Region :=
  ⟨((jobScratch c env).base + UInt32.ofNat k * (jobScratch c env).stride).toNat,
    (jobScratch c env).stride.toNat⟩

def slabs : List Region :=
  if (jobScratch c env).base = 0 then [] else (List.range c.nbCompute.toNat).map (slab c env)

variable {c env}

theorem jobScratch_cases :
    jobScratch c env =
      if wanted env = 0 then { cursor := align64 c.heapStart }
      else if c.heapEnd < align64 c.heapStart + align64 (wanted env) * c.nbCompute then
        { cursor := align64 c.heapStart }
      else
        { cursor := align64 c.heapStart + align64 (wanted env) * c.nbCompute
          base := align64 c.heapStart
          stride := align64 (wanted env) } := by
  rw [jobScratch, reserveScratch, Thread.eval_bind]
  simp only [apply_ite (Thread.eval env)]
  rfl

theorem Heap.start (heap : Heap c) :
    (align64 c.heapStart).toNat = heapBase c ∧ heapBase c ≤ 2 ^ 31 := by
  have ordered := UInt32.le_iff_toNat_le.mp heap.ordered
  exact align64_roundUp (ordered.trans heap.below)

theorem heapBase_zero : heapBase c = 0 ↔ c.heapStart = 0 := by
  have up := le_roundUp (a := 64) (by decide) c.heapStart.toNat
  constructor
  · intro zero
    apply UInt32.toNat_inj.mp
    rw [heapBase] at zero
    show c.heapStart.toNat = 0
    omega
  · intro zero
    rw [heapBase, zero]
    rfl

theorem slabs_layout : regions 64 (heapBase c) (List.replicate c.nbCompute.toNat (slabBytes env)) =
      (List.range c.nbCompute.toNat).map (fun k =>
        ⟨heapBase c + k * slabBytes env, slabBytes env⟩) ∧
    top 64 (heapBase c) (List.replicate c.nbCompute.toNat (slabBytes env)) =
      heapBase c + c.nbCompute.toNat * slabBytes env :=
  regions_replicate (by decide) _ _ (dvd_roundUp 64 _) (dvd_roundUp 64 _) _

variable (heap : Heap c) (few : c.nbCompute.toNat * slabBytes env < 2 ^ 31)

include heap few

theorem reserve_sum :
    (align64 c.heapStart + align64 (wanted env) * c.nbCompute).toNat =
        heapBase c + c.nbCompute.toNat * slabBytes env ∧
      (0 < c.nbCompute.toNat → (align64 (wanted env)).toNat = slabBytes env) := by
  obtain ⟨start, low⟩ := heap.start
  have stride (cores : 0 < c.nbCompute.toNat) : (align64 (wanted env)).toNat = slabBytes env := by
    have one : 1 * slabBytes env ≤ c.nbCompute.toNat * slabBytes env :=
      Nat.mul_le_mul_right _ cores
    have up := le_roundUp (a := 64) (by decide) (wanted env).toNat
    unfold slabBytes at one few ⊢
    exact (align64_roundUp (by omega)).1
  -- Without cores the rounding of the slab may wrap, but nothing is made of it.
  have product : (align64 (wanted env)).toNat * c.nbCompute.toNat =
      c.nbCompute.toNat * slabBytes env := by
    rcases Nat.eq_zero_or_pos c.nbCompute.toNat with zero | cores
    · rw [zero, Nat.mul_zero, Nat.zero_mul]
    · rw [stride cores, Nat.mul_comm]
  refine ⟨?_, stride⟩
  rw [UInt32.toNat_add, UInt32.toNat_mul, product, start, Nat.add_mod_mod]
  exact Nat.mod_eq_of_lt (by omega)

theorem scratch_reserved (reserved : Reserved c env) :
    jobScratch c env =
      { cursor := align64 c.heapStart + align64 (wanted env) * c.nbCompute
        base := align64 c.heapStart
        stride := align64 (wanted env) } := by
  obtain ⟨need, room⟩ := reserved
  obtain ⟨sum, _⟩ := reserve_sum heap few
  have inside : ¬ c.heapEnd < align64 c.heapStart + align64 (wanted env) * c.nbCompute := by
    rw [UInt32.lt_iff_toNat_lt, sum]
    exact Nat.not_lt.mpr room
  rw [jobScratch_cases, if_neg need, if_neg inside]

theorem scratch_refused (refused : ¬ Reserved c env) :
    jobScratch c env = { cursor := align64 c.heapStart } := by
  obtain ⟨sum, _⟩ := reserve_sum heap few
  rw [jobScratch_cases]
  by_cases need : wanted env = 0
  · rw [if_pos need]
  · have past : c.heapEnd < align64 c.heapStart + align64 (wanted env) * c.nbCompute := by
      rw [UInt32.lt_iff_toNat_lt, sum]
      exact Nat.lt_of_not_le fun room => refused ⟨need, room⟩
    rw [if_neg need, if_pos past]

theorem cursor_top : (jobScratch c env).cursor.toNat = top 64 (heapBase c) (slabSizes c env) ∧
    top 64 (heapBase c) (slabSizes c env) ≤ 2 ^ 31 := by
  by_cases reserved : Reserved c env
  · rw [scratch_reserved heap few reserved, slabSizes, if_pos reserved, slabs_layout.2]
    exact ⟨(reserve_sum heap few).1, reserved.2.trans heap.below⟩
  · rw [scratch_refused heap few reserved, slabSizes, if_neg reserved]
    exact heap.start

theorem base_zero : (jobScratch c env).base = 0 ↔ ¬ Reserved c env ∨ c.heapStart = 0 := by
  by_cases reserved : Reserved c env
  · rw [scratch_reserved heap few reserved, ← heapBase_zero, ← heap.start.1]
    simp only [reserved, not_true, false_or]
    exact UInt32.toNat_inj.symm
  · rw [scratch_refused heap few reserved]
    simp [reserved]

theorem slab_region (reserved : Reserved c env) {k : Nat} (core : k < c.nbCompute.toNat) :
    slab c env k = ⟨heapBase c + k * slabBytes env, slabBytes env⟩ := by
  have room := reserved.2.trans heap.below
  have stride := (reserve_sum heap few).2 (Nat.zero_lt_of_lt core)
  have last : k * slabBytes env ≤ c.nbCompute.toNat * slabBytes env :=
    Nat.mul_le_mul_right _ core.le
  have cast : (UInt32.ofNat k).toNat = k := exact_of_cast rfl (core.trans c.nbCompute.toNat_lt)
  rw [slab, scratch_reserved heap few reserved, UInt32.toNat_add, UInt32.toNat_mul, cast, stride,
    heap.start.1, Nat.add_mod_mod, Nat.mod_eq_of_lt (by omega)]

theorem slabs_regions :
    slabs c env = [] ∨ slabs c env = regions 64 (heapBase c) (slabSizes c env) := by
  rw [slabs]
  by_cases zero : (jobScratch c env).base = 0
  · exact .inl (if_pos zero)
  · have reserved : Reserved c env := by
      by_contra refused
      exact zero ((base_zero heap few).mpr (.inl refused))
    right
    rw [if_neg zero, slabSizes, if_pos reserved, slabs_layout.1]
    exact List.map_congr_left fun k member =>
      slab_region heap few reserved (List.mem_range.mp member)

end Scratch

/-! ### A pass -/

section Pass

variable (c : Cluster) (env : Word → UInt32) (active : Nat → UInt32)

/-- What staging leaves: the placed operands, if any, and the active arguments. -/
def staging : Option (List Placed) × (Nat → UInt32) :=
  (stage c (jobKernel env) (jobScratch c env).cursor ((copyArgs maxArgs active).eval env)).eval env

def stagingActs : List Act :=
  (stage c (jobKernel env) (jobScratch c env).cursor ((copyArgs maxArgs active).eval env)).acts env

/-- The heap that is in use once staging is through. -/
def held : List Region := slabs c env ++ ((staging c env active).1.getD []).map region

/-- Everything a job asks of the heap, in the order it asks. -/
def requests : List Nat := slabSizes c env ++ sizes (jobOperands env)

/-- The inputs lie in main memory. -/
def InputsInMain : Prop :=
  ∀ op ∈ jobOperands env, op.isOutput = false → ∀ a,
    spans (arguments env op.arg) op.bytes.toNat a → 2 ^ 31 ≤ a

variable {c env active}

theorem staging_eq : staging c env active =
    (placement c env, localArgs ((placement c env).getD []) ((copyArgs maxArgs active).eval env)) :=
  (stage_alone c env active).1

theorem stagingActs_eq : stagingActs c env active = copiesIn env ((placement c env).getD []) :=
  (stage_alone c env active).2.1

variable (env) in
theorem operands_distinct : ((jobOperands env).map Operand.arg).Nodup := by
  rw [jobOperands]
  rcases jobKernel env with _ | kernel
  · exact List.nodup_nil
  · cases kernel with
    | matmul => simp [planOperands, Mm.A, Mm.B, Mm.Y]
    | gemm => simp [planOperands, Gemm.A, Gemm.B, Gemm.C, Gemm.Y]
    | conv2d =>
        by_cases bias : env (.args Conv.hasBias) = 0 <;>
          simp [planOperands, bias, Conv.A, Conv.B, Conv.Y, Conv.bias]
    | mfcc =>
        simp [planOperands, Mfcc.audio, Mfcc.out, Mfcc.window, Mfcc.twiddles, Mfcc.melCoeff,
          Mfcc.melStart, Mfcc.melLen, Mfcc.dct]

theorem operand_pointers {kernel : Kernel} (known : jobKernel env = some kernel) (i : Nat) :
    i ∈ (jobOperands env).map Operand.arg ↔
      i ∈ pointers kernel ∧
        (kernel = .conv2d → i = Conv.bias → env (.args Conv.hasBias) ≠ 0) := by
  rw [jobOperands, known]
  cases kernel with
  | matmul => simp [planOperands, pointers]
  | gemm => simp [planOperands, pointers]
  | mfcc => simp [planOperands, pointers]
  | conv2d =>
      by_cases bias : env (.args Conv.hasBias) = 0 <;> simp [planOperands, bias, pointers]
      simp only [Conv.A, Conv.B, Conv.Y, Conv.bias]
      omega

variable (heap : Heap c) (small : ∀ op ∈ jobOperands env, op.bytes.toNat < 2 ^ 31)
  (few : c.nbCompute.toNat * slabBytes env < 2 ^ 31)

include heap small few

theorem placement_fits (asked : env .flags &&& jobStage ≠ 0) : (placement c env).isSome = true ↔
    jobOperands env ≠ [] ∧ top 64 (heapBase c) (requests c env) ≤ c.heapEnd.toNat := by
  obtain ⟨start, low⟩ := cursor_top heap few
  rw [requests, top_append, ← start, placement, if_pos asked]
  rw [← start] at low
  cases ops : jobOperands env with
  | nil => simp
  | cons op rest =>
      rw [ops] at small
      simp only [List.isEmpty_cons, Bool.false_eq_true, if_false, ne_eq, reduceCtorEq,
        not_false_eq_true, true_and]
      cases tried : place c.heapEnd (jobScratch c env).cursor (op :: rest) with
      | none =>
          have past := place_fails heap.below (op :: rest) small _ low tried
          simpa using past
      | some placed =>
          have layout := place_regions heap.below (op :: rest) small _ low placed tried
          simpa using layout.2 (List.cons_ne_nil op rest)

theorem placement_regions {placed : List Placed} (staged : placement c env = some placed) :
    placed.map region = regions 64 (top 64 (heapBase c) (slabSizes c env))
      (sizes (jobOperands env)) ∧
      top 64 (heapBase c) (requests c env) ≤ c.heapEnd.toNat := by
  obtain ⟨start, low⟩ := cursor_top heap few
  have nonempty : jobOperands env ≠ [] := by
    intro none
    rw [placement, none] at staged
    split at staged <;> cases staged
  rw [requests, top_append, ← start]
  rw [← start] at low
  have layout := place_regions heap.below (jobOperands env) small _ low placed
    (placement_place c env placed staged)
  exact ⟨layout.1, layout.2 nonempty⟩

variable (active) in
theorem held_regions : (held c env active).Sublist (regions 64 (heapBase c) (requests c env)) ∧
    ∀ r ∈ held c env active, r.stop ≤ c.heapEnd.toNat := by
  rw [held, requests, regions_append, staging_eq]
  have front : (slabs c env).Sublist (regions 64 (heapBase c) (slabSizes c env)) ∧
      ∀ r ∈ slabs c env, r.stop ≤ c.heapEnd.toNat := by
    rcases slabs_regions heap few with none | all
    · rw [none]
      exact ⟨List.nil_sublist _, fun r member => by cases member⟩
    · rw [all]
      refine ⟨List.Sublist.refl _, fun r member => ?_⟩
      have high := (regions_within (by decide) _ _ r member).2
      by_cases reserved : Reserved c env
      · rw [slabSizes, if_pos reserved, slabs_layout.2] at high
        exact high.trans reserved.2
      · rw [slabSizes, if_neg reserved] at member
        cases member
  have back : (((placement c env).getD []).map region).Sublist
      (regions 64 (top 64 (heapBase c) (slabSizes c env)) (sizes (jobOperands env))) ∧
      ∀ r ∈ ((placement c env).getD []).map region, r.stop ≤ c.heapEnd.toNat := by
    cases staged : placement c env with
    | none => exact ⟨List.nil_sublist _, fun r member => by cases member⟩
    | some placed =>
        obtain ⟨layout, last⟩ := placement_regions heap small few staged
        rw [requests, top_append] at last
        rw [Option.getD_some, layout]
        exact ⟨List.Sublist.refl _, fun r member =>
          ((regions_within (by decide) _ _ r member).2).trans last⟩
  refine ⟨front.1.append back.1, fun r member => ?_⟩
  rcases List.mem_append.mp member with slab | operand
  · exact front.2 r slab
  · exact back.2 r operand

theorem placed_after {placed : List Placed} (staged : placement c env = some placed) :
    placed.Pairwise after := by
  have ordered : (placed.map region).Pairwise Before := by
    rw [(placement_regions heap small few staged).1]
    exact regions_ordered (by decide) _ _
  have pairs : placed.Pairwise fun x y => Before (region x) (region y) :=
    List.pairwise_map.mp ordered
  exact pairs

theorem input_copied {R : Type} [CommRing R] (fmt : Format R) {placed : List Placed}
    (staged : placement c env = some placed) (main : InputsInMain env) (mem mem' : Mem)
    (ran : Exec fmt c.nbCompute (copiesIn env placed) mem mem') {one : Placed}
    (member : one ∈ placed) (input : one.op.isOutput = false) {k : Nat}
    (inside : k < one.op.bytes.toNat) :
    mem' (one.localCopy.toNat + k) = mem ((arguments env one.op.arg).toNat + k) := by
  have ordered := placed_after heap small few staged
  have ops := place_operands _ _ _ _ (placement_place c env placed staged)
  have low (x : Placed) (known : x ∈ placed) (a : Nat)
      (span : spans x.localCopy x.op.bytes.toNat a) : a < 2 ^ 31 := by
    have stop : (region x).stop ≤ c.heapEnd.toNat := by
      apply (held_regions (fun _ => 0) heap small few).2
      rw [held, staging_eq, staged]
      exact List.mem_append_right _ (List.mem_map_of_mem known)
    exact (span.2.trans_le stop).trans_le heap.below
  have high (x : Placed) (known : x ∈ placed) (read : x.op.isOutput = false) (a : Nat)
      (span : spans (env (.args x.op.arg)) x.op.bytes.toNat a) : 2 ^ 31 ≤ a :=
    main x.op (ops ▸ List.mem_map_of_mem known) read a span
  -- Copies go from main memory into the heap, so none reads what another has written.
  have apart : CopiesApart (inputs env placed) := by
    constructor
    · intro s first t second a target source
      obtain ⟨x, known, rfl⟩ := List.mem_map.mp first
      obtain ⟨y, also, rfl⟩ := List.mem_map.mp second
      obtain ⟨known, _⟩ := List.mem_filter.mp known
      obtain ⟨also, read⟩ := List.mem_filter.mp also
      exact absurd (low x known a target)
        (Nat.not_lt.mpr (high y also (by simpa using read) a source))
    · intro s first t second a target again
      obtain ⟨x, known, rfl⟩ := List.mem_map.mp first
      obtain ⟨y, also, rfl⟩ := List.mem_map.mp second
      rw [after_own ordered (List.mem_filter.mp known).1 (List.mem_filter.mp also).1 target again]
  rw [copiesIn_inputs] at ran
  have copied := exec_copies fmt c.nbCompute Transfer.inward
    (fun _ _ _ happens => happens) (inputs env placed) _ mem mem' ran
  have here : spans one.localCopy one.op.bytes.toNat (one.localCopy.toNat + k) :=
    ⟨Nat.le_add_right _ _, Nat.add_lt_add_left inside _⟩
  rw [copied]
  rcases copies_settled apart mem (one.localCopy.toNat + k) with ⟨t, mine, span,
    moved⟩ | ⟨outside, _⟩
  · obtain ⟨two, also, rfl⟩ := List.mem_map.mp mine
    have same := after_own ordered member (List.mem_filter.mp also).1 here span
    subst same
    rw [moved]
    show mem ((env (.args one.op.arg)).toNat + (one.localCopy.toNat + k - one.localCopy.toNat)) = _
    rw [Nat.add_sub_cancel_left]
    rfl
  · have copy : (⟨one.localCopy, env (.args one.op.arg), one.op.bytes⟩ : Transfer) ∈
        inputs env placed :=
      List.mem_map.mpr ⟨one, List.mem_filter.mpr ⟨member, by simpa using input⟩, rfl⟩
    exact absurd here (outside _ copy)

end Pass

/-- The heap of a job, staged or not: who gets what, when it is enough, and what
the kernel is told. A heap at address 0 makes granted scratch look refused. -/
theorem staging_layout {R : Type} [CommRing R] (fmt : Format R) (c : Cluster) (env : Word → UInt32)
    (active : Nat → UInt32) (heap : Heap c)
    (small : ∀ op ∈ jobOperands env, op.bytes.toNat < 2 ^ 31)
    (few : c.nbCompute.toNat * slabBytes env < 2 ^ 31) :
    (∀ r ∈ held c env active,
      64 ∣ r.start ∧ c.heapStart.toNat ≤ r.start ∧ r.stop ≤ c.heapEnd.toNat) ∧
    (held c env active).Pairwise Before ∧
    (env .flags &&& jobStage ≠ 0 → ((staging c env active).1.isSome = true ↔
      jobOperands env ≠ [] ∧ top 64 (heapBase c) (requests c env) ≤ c.heapEnd.toNat)) ∧
    (∀ placed, (staging c env active).1 = some placed →
      placed.map Placed.op = jobOperands env ∧
      (∀ one ∈ placed, (staging c env active).2 one.op.arg = one.localCopy) ∧
      (∀ i < maxArgs, (∀ one ∈ placed, one.op.arg ≠ i) →
        (staging c env active).2 i = arguments env i) ∧
      (InputsInMain env → ∀ mem mem', Exec fmt c.nbCompute (stagingActs c env active) mem mem' →
        ∀ one ∈ placed, one.op.isOutput = false → ∀ k < one.op.bytes.toNat,
          mem' (one.localCopy.toNat + k) = mem ((arguments env one.op.arg).toNat + k))) ∧
    ((staging c env active).1 = none → stagingActs c env active = [] ∧
      ∀ i < maxArgs, (staging c env active).2 i = arguments env i) ∧
    ((jobScratch c env).base = 0 ↔ ¬ Reserved c env ∨ c.heapStart = 0) := by
  obtain ⟨part, inside⟩ := held_regions active heap small few
  refine ⟨?_, ?_, ?_, ?_, ?_, base_zero heap few⟩
  · intro r member
    have known := part.subset member
    have start : c.heapStart.toNat ≤ heapBase c := le_roundUp (by decide) _
    exact ⟨regions_aligned _ _ r known,
      start.trans (regions_within (by decide) _ _ r known).1, inside r member⟩
  · exact (regions_ordered (by decide) _ _).sublist part
  · intro asked
    rw [staging_eq]
    exact placement_fits heap small few asked
  · intro placed staged
    rw [staging_eq] at staged
    have ops := place_operands _ _ _ _ (placement_place c env placed staged)
    rw [staging_eq, stagingActs_eq, show placement c env = some placed from staged,
      Option.getD_some]
    refine ⟨ops, ?_, ?_, fun main mem mem' ran one member input k below =>
      input_copied heap small few fmt staged main mem mem' ran member input below⟩
    · intro one member
      refine localArgs_placed placed _ ?_ one member
      have slots := operands_distinct env
      rwa [← ops, List.map_map] at slots
    · intro i bound other
      exact (localArgs_other placed _ i other).trans (copied_args active bound)
  · intro none
    rw [staging_eq] at none ⊢
    rw [stagingActs_eq, show placement c env = Option.none from none, Option.getD_none]
    exact ⟨rfl, fun i bound => copied_args active bound⟩

/-- A frame's scratch for a transform of 16 points and 4 filters: 144 bytes a core. -/
def smallFrames : Word → UInt32 :=
  jobWords 5 jobStage [0x82000000, 0x82001000, 1, 16, 16, 16, 0x82002000, 0x82003000, 0x82004000,
    0x82005000, 0x82006000, 4, 0x82007000, 2, 4]

theorem staging_layout_frames :
    (held octet smallFrames (fun _ => 0)).Pairwise Before ∧
      (held octet smallFrames (fun _ => 0)).length = 16 ∧
      (jobScratch octet smallFrames).base ≠ 0 := by
  have layout := staging_layout fixed octet smallFrames (fun _ => 0) ⟨by decide, by decide⟩
    (by decide +kernel) (by decide +kernel)
  refine ⟨layout.2.1, by decide +kernel, ?_⟩
  rw [ne_eq, layout.2.2.2.2.2]
  decide +kernel

/-- On a heap at address 0 scratch is granted and its base is 0; a job without
operands, all of which fit, is not staged. -/
theorem heap_at_zero :
    (Heap { octet with heapStart := 0 } ∧ Reserved { octet with heapStart := 0 } smallFrames ∧
      (jobScratch { octet with heapStart := 0 } smallFrames).base = 0) ∧
    (Heap octet ∧ jobWords 1 jobStage [] .flags &&& jobStage ≠ 0 ∧
      top 64 (heapBase octet) (requests octet (jobWords 1 jobStage [])) ≤ octet.heapEnd.toNat ∧
      (staging octet (jobWords 1 jobStage []) (fun _ => 0)).1 = none) := by
  refine ⟨⟨⟨by decide, by decide⟩, by decide +kernel, by decide +kernel⟩,
    ⟨⟨by decide, by decide⟩, by decide, by decide +kernel, by decide +kernel⟩⟩

end HeteroSim.StagedHeap
