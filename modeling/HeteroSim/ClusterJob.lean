import HeteroSim.SharedWords
import Mathlib.Algebra.Group.Nat.Defs

/-!
A cluster serving one job: the control core's pass through the job loop, from
the first read of the descriptor to the last word before `done_seq`, and the
slice of the work each compute core runs. Words and pointers are 32-bit and
wrap. The other mailbox words the core touches at boot are not modelled.
-/

namespace HeteroSim.ClusterJob

open SharedWords

/-- The mailbox words the job protocol uses. -/
inductive Word where
  | seq
  | kernelId
  | nargs
  | doneSeq
  | cycles
  | trapCause
  | nbCores
  | flags
  | staged
  | error
  | args (i : Nat)
  deriving DecidableEq

def maxArgs : Nat := 16

/-- `HES_JOB_STAGE`. -/
def jobStage : UInt32 := 1

/-- `HES_ERR_*`. -/
def errNone : UInt32 := 0
def errNeedsStaging : UInt32 := 1
def errNoScratch : UInt32 := 2

/-- The kernels the job loop dispatches to. -/
inductive Kernel where
  | matmul | gemm | conv2d | mfcc
  deriving DecidableEq

/-- `HES_K_*`; every other id falls through the dispatch. -/
def Kernel.ofId (id : UInt32) : Option Kernel :=
  if id = 2 then some .matmul
  else if id = 3 then some .gemm
  else if id = 4 then some .conv2d
  else if id = 5 then some .mfcc
  else none

/-! Argument slots, in the order of the kernels' signatures. -/

namespace Mm
def A := 0
def B := 1
def Y := 2
def M := 3
def N := 4
def O := 5
end Mm

namespace Gemm
def A := 0
def B := 1
def C := 2
def Y := 3
def M := 4
def N := 5
def O := 6
def transA := 7
def transB := 8
end Gemm

namespace Conv
def A := 0
def C := 1
def H := 2
def W := 3
def B := 4
def F := 5
def P := 6
def Q := 7
def SP := 8
def SQ := 9
def bias := 10
def hasBias := 11
def Y := 12
end Conv

namespace Mfcc
def audio := 0
def out := 1
def nbFrames := 2
def frameLen := 3
def hop := 4
def fftLen := 5
def window := 6
def twiddles := 7
def melCoeff := 8
def melStart := 9
def melLen := 10
def nbMel := 11
def dct := 12
def nbCep := 13
def melCoeffs := 14
end Mfcc

/-- The cluster a job runs on: its heap, its compute cores, and whether its
kernels only reach cluster-local memory. -/
structure Cluster where
  heapStart : UInt32
  heapEnd : UInt32
  nbCompute : UInt32
  requiresStaging : Bool

structure Active where
  kernel : Option Kernel
  args : Nat → UInt32
  scratchBase : UInt32
  scratchStride : UInt32

inductive Act where
  | copyIn (dst src bytes : UInt32)
  | copyOut (dst src bytes : UInt32)
  | release (job : Active)
  | join

abbrev Core := Thread Word UInt32 Act

def read (w : Word) : Core UInt32 := .load w .ret

def arg (i : Nat) : Core UInt32 := read (.args i)

def write (w : Word) (v : UInt32) : Core Unit := .store w v (.ret ())

def perform (a : Act) : Core Unit := .act a (.ret ())

/-- `divu`: a zero divisor gives all ones. -/
def divu (a b : UInt32) : UInt32 := if b = 0 then 0xFFFFFFFF else a / b

def align64 (v : UInt32) : UInt32 := (v + 63) &&& ~~~63

structure Operand where
  arg : Nat
  isOutput : Bool
  bytes : UInt32
  deriving DecidableEq

/-- `plan_operands`: which buffers a job reads and writes. -/
def planOperands : Option Kernel → Core (List Operand)
  | none => return []
  | some .matmul => do
      let M ← arg Mm.M
      let N ← arg Mm.N
      let O ← arg Mm.O
      return [⟨Mm.A, false, M * N * 4⟩, ⟨Mm.B, false, N * O * 4⟩, ⟨Mm.Y, true, M * O * 4⟩]
  | some .gemm => do
      let M ← arg Gemm.M
      let N ← arg Gemm.N
      let O ← arg Gemm.O
      return [⟨Gemm.A, false, M * N * 4⟩, ⟨Gemm.B, false, N * O * 4⟩,
        ⟨Gemm.C, false, M * O * 4⟩, ⟨Gemm.Y, true, M * O * 4⟩]
  | some .conv2d => do
      let C ← arg Conv.C
      let H ← arg Conv.H
      let W ← arg Conv.W
      let F ← arg Conv.F
      let P ← arg Conv.P
      let Q ← arg Conv.Q
      let SP ← arg Conv.SP
      let hOut := divu (H - P) SP + 1
      let SQ ← arg Conv.SQ
      let wOut := divu (W - Q) SQ + 1
      let hasBias ← arg Conv.hasBias
      return [⟨Conv.A, false, C * H * W * 4⟩, ⟨Conv.B, false, F * C * P * Q * 4⟩,
        ⟨Conv.Y, true, F * hOut * wOut * 4⟩] ++
        (if hasBias ≠ 0 then [⟨Conv.bias, false, F * 4⟩] else [])
  | some .mfcc => do
      let frames ← arg Mfcc.nbFrames
      let hop ← arg Mfcc.hop
      let frameLen ← arg Mfcc.frameLen
      let fftLen ← arg Mfcc.fftLen
      let nbMel ← arg Mfcc.nbMel
      let nbCep ← arg Mfcc.nbCep
      let samples := (frames - 1) * hop + frameLen
      let melCoeffs ← arg Mfcc.melCoeffs
      return [⟨Mfcc.audio, false, samples * 4⟩, ⟨Mfcc.out, true, frames * nbCep * 4⟩,
        ⟨Mfcc.window, false, frameLen * 4⟩, ⟨Mfcc.twiddles, false, fftLen * 4⟩,
        ⟨Mfcc.melCoeff, false, melCoeffs * 4⟩, ⟨Mfcc.melStart, false, nbMel * 2⟩,
        ⟨Mfcc.melLen, false, nbMel * 2⟩, ⟨Mfcc.dct, false, nbCep * nbMel * 4⟩]

/-- `plan_scratch`: bytes of working storage per compute core. -/
def planScratch : Option Kernel → Core UInt32
  | some .mfcc => do
      let fftLen ← arg Mfcc.fftLen
      let nbMel ← arg Mfcc.nbMel
      return (2 * fftLen + nbMel) * 4
  | _ => return 0

structure Scratch where
  cursor : UInt32
  base : UInt32 := 0
  stride : UInt32 := 0

/-- `reserve_scratch`: per-core slabs from the bottom of the heap. -/
def reserveScratch (c : Cluster) (kernel : Option Kernel) : Core Scratch := do
  let cursor := align64 c.heapStart
  let perCore ← planScratch kernel
  if perCore = 0 then return { cursor := cursor }
  else
    let perCore := align64 perCore
    if c.heapEnd < cursor + perCore * c.nbCompute then return { cursor := cursor }
    else return { cursor := cursor + perCore * c.nbCompute, base := cursor, stride := perCore }

structure Placed where
  op : Operand
  localCopy : UInt32
  deriving DecidableEq

/-- The placement loop of `stage_in`; `none` when the operands do not all fit. -/
def place (limit : UInt32) : UInt32 → List Operand → Option (List Placed)
  | _, [] => some []
  | cursor, op :: rest =>
      let cursor := align64 cursor
      if limit < cursor + op.bytes then none
      else (place limit (cursor + op.bytes) rest).map fun placed => ⟨op, cursor⟩ :: placed

def setArg (args : Nat → UInt32) (i : Nat) (v : UInt32) : Nat → UInt32 :=
  fun j => if j = i then v else args j

/-- The copy loop of `stage_in`: inputs go to their local buffers and the active
arguments point there. -/
def copyOperands : List Placed → (Nat → UInt32) → Core (Nat → UInt32)
  | [], active => return active
  | placed :: rest, active => do
      if placed.op.isOutput then
        copyOperands rest (setArg active placed.op.arg placed.localCopy)
      else do
        let src ← arg placed.op.arg
        perform (.copyIn placed.localCopy src placed.op.bytes)
        copyOperands rest (setArg active placed.op.arg placed.localCopy)

/-- `stage_in`; `none` leaves the job to run against main memory. -/
def stageIn (c : Cluster) (kernel : Option Kernel) (cursor : UInt32) (active : Nat → UInt32) :
    Core (Option (List Placed × (Nat → UInt32))) := do
  let ops ← planOperands kernel
  match if ops.isEmpty then none else place c.heapEnd cursor ops with
  | none => return none
  | some placed => do
      let active ← copyOperands placed active
      return some (placed, active)

def stageOut : List Placed → Core Unit
  | [] => return
  | placed :: rest => do
      if placed.op.isOutput then do
        let dst ← arg placed.op.arg
        perform (.copyOut dst placed.localCopy placed.op.bytes)
        stageOut rest
      else stageOut rest

/-- `for (i = 0; i < HES_MAILBOX_MAX_ARGS; i++) active_args[i] = mbox->args[i]`. -/
def copyArgs : Nat → (Nat → UInt32) → Core (Nat → UInt32)
  | 0, active => return active
  | n + 1, active => do
      let v ← arg (maxArgs - (n + 1))
      copyArgs n (setArg active (maxArgs - (n + 1)) v)

/-- Staging, if the job asks for it. A failed attempt puts the main-memory
pointers back. -/
def stage (c : Cluster) (kernel : Option Kernel) (cursor : UInt32) (active : Nat → UInt32) :
    Core (Option (List Placed) × (Nat → UInt32)) := do
  let flags ← read .flags
  if flags &&& jobStage ≠ 0 then do
    let staged ← stageIn c kernel cursor active
    match staged with
    | some (placed, active) => return (some placed, active)
    | none => do
        let active ← copyArgs maxArgs active
        return (none, active)
  else return (none, active)

/-- Why the job is refused, or `HES_ERR_NONE`. -/
def refusal (c : Cluster) (staged : Bool) (want base : UInt32) : UInt32 :=
  if c.requiresStaging && !staged then errNeedsStaging
  else if want ≠ 0 ∧ base = 0 then errNoScratch
  else errNone

/-- One pass of the control core through the job loop. `active` is what the
active arguments held before; `cycles` is what the cycle counter will say. -/
def serve (c : Cluster) (active : Nat → UInt32) (cycles : UInt32) : Core Unit := do
  let id ← read .kernelId
  let kernel := Kernel.ofId id
  let active ← copyArgs maxArgs active
  let scratch ← reserveScratch c kernel
  let want ← planScratch kernel
  let (staged, active) ← stage c kernel scratch.cursor active
  let error := refusal c staged.isSome want scratch.base
  write .error error
  perform (.release
    { kernel := if error = errNone then kernel else none
      args := active
      scratchBase := scratch.base
      scratchStride := scratch.stride })
  perform .join
  stageOut (staged.getD [])
  write .cycles cycles
  write .staged (if staged.isSome then 1 else 0)
  write .nbCores c.nbCompute

/-! ### The compute cores -/

/-- `slice`: core `idx` of `nb` takes `[first, last)` of `n` items. -/
def slice (n idx nb : UInt32) : UInt32 × UInt32 :=
  let base := n / nb
  let rem := n % nb
  let first := idx * base + (if idx < rem then idx else rem)
  (first, first + base + (if idx < rem then 1 else 0))

/-- A kernel call with its arguments. -/
inductive Call where
  | matmul (A B Y M N O : UInt32)
  | gemm (A B C Y M N O transA transB : UInt32)
  | conv2d (A C H W B F P Q SP SQ bias hasBias Y : UInt32)
  | mfcc (audio out nbFrames frameLen hop fftLen window twiddles melCoeff melStart melLen
      nbMel dct nbCep scratch : UInt32)

/-- `run_slice`: the call core `idx` makes, if its share is not empty. -/
def runSlice (job : Active) (idx nb : UInt32) : Option Call :=
  let a := job.args
  match job.kernel with
  | none => none
  | some .matmul =>
      let (first, last) := slice (a Mm.M) idx nb
      if last ≤ first then none
      else some (.matmul (a Mm.A + first * a Mm.N * 4) (a Mm.B) (a Mm.Y + first * a Mm.O * 4)
        (last - first) (a Mm.N) (a Mm.O))
  | some .gemm =>
      -- with transA the rows of A are not contiguous: one core takes them all
      let (first, last) := if a Gemm.transA ≠ 0 then (0, if idx = 0 then a Gemm.M else 0)
        else slice (a Gemm.M) idx nb
      if last ≤ first then none
      else some (.gemm (a Gemm.A + first * a Gemm.N * 4) (a Gemm.B)
        (a Gemm.C + first * a Gemm.O * 4) (a Gemm.Y + first * a Gemm.O * 4) (last - first)
        (a Gemm.N) (a Gemm.O) (a Gemm.transA) (a Gemm.transB))
  | some .conv2d =>
      let hOut := divu (a Conv.H - a Conv.P) (a Conv.SP) + 1
      let wOut := divu (a Conv.W - a Conv.Q) (a Conv.SQ) + 1
      let (first, last) := slice (a Conv.F) idx nb
      if last ≤ first then none
      else some (.conv2d (a Conv.A) (a Conv.C) (a Conv.H) (a Conv.W)
        (a Conv.B + first * a Conv.C * a Conv.P * a Conv.Q * 4) (last - first) (a Conv.P)
        (a Conv.Q) (a Conv.SP) (a Conv.SQ) (a Conv.bias + first * 4) (a Conv.hasBias)
        (a Conv.Y + first * hOut * wOut * 4))
  | some .mfcc =>
      let (first, last) := slice (a Mfcc.nbFrames) idx nb
      if last ≤ first then none
      else some (.mfcc (a Mfcc.audio + first * a Mfcc.hop * 4)
        (a Mfcc.out + first * a Mfcc.nbCep * 4) (last - first) (a Mfcc.frameLen) (a Mfcc.hop)
        (a Mfcc.fftLen) (a Mfcc.window) (a Mfcc.twiddles) (a Mfcc.melCoeff) (a Mfcc.melStart)
        (a Mfcc.melLen) (a Mfcc.nbMel) (a Mfcc.dct) (a Mfcc.nbCep)
        (job.scratchBase + idx * job.scratchStride))

def Call.output : Call → UInt32 × Nat
  | .matmul _ _ Y M _ O => (Y, M.toNat * O.toNat)
  | .gemm _ _ _ Y M _ O _ _ => (Y, M.toNat * O.toNat)
  | .conv2d _ _ H W _ F P Q SP SQ _ _ Y =>
      (Y, F.toNat * (divu (H - P) SP + 1).toNat * (divu (W - Q) SQ + 1).toNat)
  | .mfcc _ out nbFrames _ _ _ _ _ _ _ _ _ _ nbCep _ => (out, nbFrames.toNat * nbCep.toNat)

def Call.scratch : Call → UInt32 × Nat
  | .mfcc _ _ _ _ _ fftLen _ _ _ _ _ nbMel _ _ scratch =>
      (scratch, (2 * fftLen.toNat + nbMel.toNat) * 4)
  | _ => (0, 0)

/-! ### What is written -/

/-- `HES_HBM_BASE`, `HES_HBM_SIZE`. -/
def mainMemory (a : Nat) : Prop := 2 ^ 31 ≤ a ∧ a < 2 ^ 32

def spans (base : UInt32) (bytes : Nat) (a : Nat) : Prop :=
  base.toNat ≤ a ∧ a < base.toNat + bytes

def Call.writes (call : Call) (a : Nat) : Prop :=
  spans call.output.1 (call.output.2 * 4) a ∨ spans call.scratch.1 call.scratch.2 a

/-- The bytes an action of the control core may change, the slices of `nb`
compute cores between the barriers included. -/
def Act.writes (nb : UInt32) : Act → Nat → Prop
  | .copyIn dst _ bytes, a => spans dst bytes.toNat a
  | .copyOut dst _ bytes, a => spans dst bytes.toNat a
  | .release job, a => ∃ idx, idx < nb ∧ ∃ call, runSlice job idx nb = some call ∧ call.writes a
  | .join, _ => False

/-! ### A pass alone

What a pass does when nobody changes the descriptor under it. -/

def jobWords (id flags : UInt32) (args : List UInt32) : Word → UInt32
  | .kernelId => id
  | .flags => flags
  | .args i => args.getD i 0
  | _ => 0

section Alone

variable (c : Cluster) (env : Word → UInt32)

def jobKernel : Option Kernel := Kernel.ofId (env .kernelId)

def jobOperands : List Operand := (planOperands (jobKernel env)).eval env

def jobScratch : Scratch := (reserveScratch c (jobKernel env)).eval env

def wanted : UInt32 := (planScratch (jobKernel env)).eval env

/-- Where the operands are staged, if they are. -/
def placement : Option (List Placed) :=
  if env .flags &&& jobStage ≠ 0 then
    if (jobOperands env).isEmpty then none
    else place c.heapEnd (jobScratch c env).cursor (jobOperands env)
  else none

def localArgs (placed : List Placed) (active : Nat → UInt32) : Nat → UInt32 :=
  placed.foldl (fun args one => setArg args one.op.arg one.localCopy) active

def jobError : UInt32 := refusal c (placement c env).isSome (wanted env) (jobScratch c env).base

def released (active : Nat → UInt32) : Active :=
  { kernel := if jobError c env = errNone then jobKernel env else none
    args := localArgs ((placement c env).getD []) ((copyArgs maxArgs active).eval env)
    scratchBase := (jobScratch c env).base
    scratchStride := (jobScratch c env).stride }

def copiesIn (placed : List Placed) : List Act :=
  (placed.filter fun one => !one.op.isOutput).map fun one =>
    .copyIn one.localCopy (env (.args one.op.arg)) one.op.bytes

def copiesOut (placed : List Placed) : List Act :=
  (placed.filter fun one => one.op.isOutput).map fun one =>
    .copyOut (env (.args one.op.arg)) one.localCopy one.op.bytes

variable {c env}

@[simp] theorem eval_read (w : Word) : (read w).eval env = env w := rfl
@[simp] theorem acts_read (w : Word) : (read w).acts env = [] := rfl
@[simp] theorem stores_read (w : Word) : (read w).stores env = [] := rfl
@[simp] theorem eval_arg (i : Nat) : (arg i).eval env = env (.args i) := rfl
@[simp] theorem acts_arg (i : Nat) : (arg i).acts env = [] := rfl
@[simp] theorem stores_arg (i : Nat) : (arg i).stores env = [] := rfl
@[simp] theorem acts_write (w : Word) (v : UInt32) : (write w v).acts env = [] := rfl
@[simp] theorem stores_write (w : Word) (v : UInt32) : (write w v).stores env = [(w, v)] := rfl
@[simp] theorem acts_perform (a : Act) : (perform a).acts env = [a] := rfl
@[simp] theorem stores_perform (a : Act) : (perform a).stores env = [] := rfl

variable (c) (env)

theorem planOperands_silent (kernel : Option Kernel) :
    (planOperands kernel).acts env = [] ∧ (planOperands kernel).stores env = [] := by
  rcases kernel with _ | kernel
  · exact ⟨rfl, rfl⟩
  · cases kernel <;> exact ⟨rfl, rfl⟩

theorem planScratch_silent (kernel : Option Kernel) :
    (planScratch kernel).acts env = [] ∧ (planScratch kernel).stores env = [] := by
  rcases kernel with _ | kernel
  · exact ⟨rfl, rfl⟩
  · cases kernel <;> exact ⟨rfl, rfl⟩

theorem reserveScratch_silent (kernel : Option Kernel) :
    (reserveScratch c kernel).acts env = [] ∧ (reserveScratch c kernel).stores env = [] := by
  obtain ⟨acts, stores⟩ := planScratch_silent env kernel
  simp only [reserveScratch, Thread.acts_bind, Thread.stores_bind, acts, stores]
  split
  · exact ⟨rfl, rfl⟩
  · split <;> exact ⟨rfl, rfl⟩

theorem copyArgs_silent (n : Nat) (active : Nat → UInt32) :
    (copyArgs n active).acts env = [] ∧ (copyArgs n active).stores env = [] := by
  induction n generalizing active with
  | zero => exact ⟨rfl, rfl⟩
  | succ n ih => simpa [copyArgs] using ih _

theorem copyArgs_eval (n : Nat) (active : Nat → UInt32) (bound : n ≤ maxArgs) (i : Nat) :
    (copyArgs n active).eval env i =
      if maxArgs - n ≤ i ∧ i < maxArgs then env (.args i) else active i := by
  induction n generalizing active with
  | zero =>
      rw [if_neg (by omega)]
      rfl
  | succ n ih =>
      simp only [copyArgs, Thread.eval_bind, eval_arg]
      rw [ih _ (by omega)]
      by_cases here : i = maxArgs - (n + 1)
      · subst here
        rw [if_neg (by omega), if_pos (by omega)]
        simp [setArg]
      · simp only [setArg, if_neg here]
        by_cases later : maxArgs - n ≤ i ∧ i < maxArgs
        · rw [if_pos later, if_pos (by omega)]
        · rw [if_neg later, if_neg (by omega)]

theorem copyOperands_alone (placed : List Placed) (active : Nat → UInt32) :
    (copyOperands placed active).eval env = localArgs placed active ∧
      (copyOperands placed active).acts env = copiesIn env placed ∧
      (copyOperands placed active).stores env = [] := by
  induction placed generalizing active with
  | nil => exact ⟨rfl, rfl, rfl⟩
  | cons one rest ih =>
      obtain ⟨eval, acts, stores⟩ := ih (setArg active one.op.arg one.localCopy)
      cases output : one.op.isOutput <;>
        simp [copyOperands, copiesIn, localArgs, output] at eval acts stores ⊢ <;>
        exact ⟨eval, acts, stores⟩

theorem stageOut_alone (placed : List Placed) :
    (stageOut placed).acts env = copiesOut env placed ∧ (stageOut placed).stores env = [] := by
  induction placed with
  | nil => exact ⟨rfl, rfl⟩
  | cons one rest ih =>
      obtain ⟨acts, stores⟩ := ih
      cases output : one.op.isOutput <;>
        simp [stageOut, copiesOut, output] at acts stores ⊢ <;> exact ⟨acts, stores⟩

theorem place_operands (limit cursor : UInt32) (ops : List Operand) (placed : List Placed)
    (fits : place limit cursor ops = some placed) : placed.map Placed.op = ops := by
  induction ops generalizing cursor placed with
  | nil =>
      cases fits
      rfl
  | cons op rest ih =>
      rw [place] at fits
      split at fits
      · cases fits
      · obtain ⟨later, known, same⟩ := Option.map_eq_some_iff.mp fits
        subst same
        rw [List.map_cons, ih _ later known]

theorem placement_place (placed : List Placed) (staged : placement c env = some placed) :
    place c.heapEnd (jobScratch c env).cursor (jobOperands env) = some placed := by
  rw [placement] at staged
  split at staged
  · split at staged
    · cases staged
    · exact staged
  · cases staged

theorem copyArgs_again (active : Nat → UInt32) :
    (copyArgs maxArgs ((copyArgs maxArgs active).eval env)).eval env =
      (copyArgs maxArgs active).eval env := by
  funext i
  simp only [copyArgs_eval env maxArgs _ (Nat.le_refl _)]
  split <;> rfl

theorem stageIn_alone (active : Nat → UInt32) (asked : env .flags &&& jobStage ≠ 0) :
    (stageIn c (jobKernel env) (jobScratch c env).cursor active).eval env =
        (placement c env).map (fun placed => (placed, localArgs placed active)) ∧
      (stageIn c (jobKernel env) (jobScratch c env).cursor active).acts env =
        copiesIn env ((placement c env).getD []) ∧
      (stageIn c (jobKernel env) (jobScratch c env).cursor active).stores env = [] := by
  obtain ⟨acts, stores⟩ := planOperands_silent env (jobKernel env)
  have known : (if (jobOperands env).isEmpty then none
      else place c.heapEnd (jobScratch c env).cursor (jobOperands env)) = placement c env := by
    rw [placement, if_pos asked]
  simp only [stageIn, Thread.eval_bind, Thread.acts_bind, Thread.stores_bind, acts, stores]
  rw [← jobOperands, known]
  cases placement c env with
  | none => exact ⟨rfl, rfl, rfl⟩
  | some placed =>
      obtain ⟨eval, acts, stores⟩ := copyOperands_alone env placed active
      simp [eval, acts, stores]

theorem stage_alone (active : Nat → UInt32) :
    (stage c (jobKernel env) (jobScratch c env).cursor ((copyArgs maxArgs active).eval env)).eval
        env = (placement c env, localArgs ((placement c env).getD [])
          ((copyArgs maxArgs active).eval env)) ∧
      (stage c (jobKernel env) (jobScratch c env).cursor
        ((copyArgs maxArgs active).eval env)).acts env =
          copiesIn env ((placement c env).getD []) ∧
      (stage c (jobKernel env) (jobScratch c env).cursor
        ((copyArgs maxArgs active).eval env)).stores env = [] := by
  by_cases asked : env .flags &&& jobStage ≠ 0
  · obtain ⟨eval, acts, stores⟩ := stageIn_alone c env
      ((copyArgs maxArgs active).eval env) asked
    simp only [stage, Thread.eval_bind, Thread.acts_bind, Thread.stores_bind, eval_read,
      acts_read, stores_read, ne_eq, asked, not_false_eq_true, if_true, eval, acts, stores]
    cases placement c env with
    | none =>
        obtain ⟨silent, still⟩ := copyArgs_silent env maxArgs
          ((copyArgs maxArgs active).eval env)
        simp [silent, still, copyArgs_again, localArgs, copiesIn]
    | some placed => simp
  · have nothing : placement c env = none := by rw [placement, if_neg asked]
    simp only [not_not] at asked
    simp [stage, asked, nothing, localArgs, copiesIn]

theorem jobKernel_eq : Kernel.ofId (env .kernelId) = jobKernel env := rfl

theorem jobScratch_eq :
    (reserveScratch c (jobKernel env)).eval env = jobScratch c env := rfl

theorem wanted_eq : (planScratch (jobKernel env)).eval env = wanted env := rfl

theorem serve_acts (active : Nat → UInt32) (cycles : UInt32) :
    (serve c active cycles).acts env =
      copiesIn env ((placement c env).getD []) ++
        .release (released c env active) :: .join ::
          copiesOut env ((placement c env).getD []) := by
  obtain ⟨eval, acts, _⟩ := stage_alone c env active
  have scratch := (reserveScratch_silent c env (jobKernel env)).1
  have plan := (planScratch_silent env (jobKernel env)).1
  have copied := (copyArgs_silent env maxArgs active).1
  have out := (stageOut_alone env ((placement c env).getD [])).1
  simp only [serve, Thread.acts_bind, eval_read, acts_read, copied, List.nil_append]
  simp only [jobKernel_eq, scratch, plan, List.nil_append]
  simp only [jobScratch_eq, acts, eval, wanted_eq, acts_write, acts_perform, out,
    List.nil_append, List.append_nil]
  rfl

theorem serve_stores (active : Nat → UInt32) (cycles : UInt32) :
    (serve c active cycles).stores env =
      [(.error, jobError c env), (.cycles, cycles),
        (.staged, if (placement c env).isSome then 1 else 0), (.nbCores, c.nbCompute)] := by
  obtain ⟨eval, _, stores⟩ := stage_alone c env active
  have scratch := (reserveScratch_silent c env (jobKernel env)).2
  have plan := (planScratch_silent env (jobKernel env)).2
  have copied := (copyArgs_silent env maxArgs active).2
  have out := (stageOut_alone env ((placement c env).getD [])).2
  simp only [serve, Thread.stores_bind, eval_read, stores_read, copied, List.nil_append]
  simp only [jobKernel_eq, scratch, plan, List.nil_append]
  simp only [jobScratch_eq, stores, eval, wanted_eq, stores_write, stores_perform, out,
    List.nil_append]
  rfl

end Alone

end HeteroSim.ClusterJob
