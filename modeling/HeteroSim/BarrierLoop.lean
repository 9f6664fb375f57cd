import HeteroSim.Barriers
import HeteroSim.CopyEngine
import HeteroSim.OffloadedJob
import Mathlib.Data.Fintype.Option

/-!
The job loop of every core of a cluster. The control core stages operands with
copies its DMA engine carries out in its own time, meets the compute cores at
the barrier, and meets them again when their slices are done; each compute core
looks at the active arguments as it goes. However the cores and the engine
interleave, jobs happen as the control core's actions one after the other. Which
actions these are is settled elsewhere; a core's other instructions are left out.
-/

namespace HeteroSim.BarrierLoop

open SharedWords ClusterJob SliceRun ArrayWriters ParallelSlices OffloadedJob
open Barriers CopyEngine
open Relation (ReflTransGen)

/-- What the control core does for one job. -/
structure Pass where
  ins : List Transfer
  job : Active
  outs : List Transfer

def Pass.acts (pass : Pass) : List Act :=
  pass.ins.map Transfer.inward ++
    .release pass.job :: .join :: pass.outs.map Transfer.outward

/-- Where the control core is, with the jobs that will come. -/
inductive Stage where
  | asleep (later : List Pass)
  | staging (left : List Transfer) (pass : Pass) (later : List Pass)
  | gate (pass : Pass) (later : List Pass)
  | between (pass : Pass) (later : List Pass)
  | joining (pass : Pass) (later : List Pass)
  | unstaging (left : List Transfer) (pass : Pass) (later : List Pass)

inductive Spot where
  | returning
  | parked
  | running (stored : List Nat)
  | leaving
  | trapped

inductive Place where
  | control (stage : Stage)
  | compute (spot : Spot)

/-- What the cores share: the active arguments, the engine's work and memory. -/
structure Shared where
  active : Active
  beats : List (Beat UInt8)
  mem : Mem

def Shared.enqueue (s : Shared) (t : Transfer) : Shared :=
  { s with beats := s.beats ++ (Copy.mk t.dst.toNat t.src.toNat t.bytes.toNat).beats }

section Cores

variable {R : Type} [CommRing R] (fmt : Format R) (nb : UInt32)

/-- The control core, or a compute core by its index. -/
abbrev Party (nb : UInt32) : Type := Option (Fin nb.toNat)

def index {nb : UInt32} (k : Fin nb.toNat) : UInt32 := UInt32.ofNat k

inductive ControlAct : Stage → Shared → Stage → Shared → Prop
  | notice (pass : Pass) (later : List Pass) (s : Shared) :
      ControlAct (.asleep (pass :: later)) s (.staging pass.ins pass later) s
  | scribble (left : List Transfer) (pass : Pass) (later : List Pass) (s : Shared)
      (active : Active) :
      ControlAct (.staging left pass later) s (.staging left pass later)
        { s with active := active }
  | copyIn (t : Transfer) (left : List Transfer) (pass : Pass) (later : List Pass) (s : Shared) :
      ControlAct (.staging (t :: left) pass later) s (.staging left pass later) (s.enqueue t)
  -- `hes_dma_wait` has returned and the arguments are complete
  | arrive (pass : Pass) (later : List Pass) (s : Shared) (idle : s.beats = [])
      (complete : s.active = pass.job) :
      ControlAct (.staging [] pass later) s (.gate pass later) s
  | join (pass : Pass) (later : List Pass) (s : Shared) :
      ControlAct (.between pass later) s (.joining pass later) s
  | copyOut (t : Transfer) (left : List Transfer) (pass : Pass) (later : List Pass)
      (s : Shared) :
      ControlAct (.unstaging (t :: left) pass later) s (.unstaging left pass later) (s.enqueue t)
  | finish (pass : Pass) (later : List Pass) (s : Shared) (idle : s.beats = []) :
      ControlAct (.unstaging [] pass later) s (.asleep later) s

inductive ComputeAct (k : UInt32) : Spot → Shared → Spot → Shared → Prop
  | arrive (s : Shared) : ComputeAct k .returning s .parked s
  | store (s : Shared) (stored : List Nat) (call : Call) (e : Nat)
      (mine : runSlice s.active k nb = some call) (inside : e < call.output.2) :
      ComputeAct k (.running stored) s (.running (e :: stored))
        { s with
          mem := storeFloat fmt (call.output.1.toNat + 4 * e) (value fmt s.mem call e) s.mem }
  | scratch (s : Shared) (stored : List Nat) (call : Call) (a : Nat) (b : UInt8)
      (mine : runSlice s.active k nb = some call)
      (inside : spans call.scratch.1 call.scratch.2 a) :
      ComputeAct k (.running stored) s (.running stored)
        { s with mem := fun other => if other = a then b else s.mem other }
  | finish (s : Shared) (stored : List Nat)
      (complete : ∀ call, runSlice s.active k nb = some call →
        ∀ e < call.output.2, e ∈ stored) :
      ComputeAct k (.running stored) s .leaving s
  | trap (s : Shared) (stored : List Nat) : ComputeAct k (.running stored) s .trapped s

inductive CoreAct : Party nb → Place → Shared → Place → Shared → Prop
  | control (stage stage' : Stage) (s s' : Shared) (taken : ControlAct stage s stage' s') :
      CoreAct none (.control stage) s (.control stage') s'
  | compute (k : Fin nb.toNat) (spot spot' : Spot) (s s' : Shared)
      (taken : ComputeAct fmt nb (index k) spot s spot' s') :
      CoreAct (some k) (.compute spot) s (.compute spot') s'

def waits : Place → Prop
  | .control (.gate _ _) | .control (.joining _ _) => True
  | .compute .parked | .compute .leaving => True
  | _ => False

def resume : Place → Place
  | .control (.gate pass later) => .control (.between pass later)
  | .control (.joining pass later) => .control (.unstaging pass.outs pass later)
  | .compute .parked => .compute (.running [])
  | .compute .leaving => .compute .returning
  | place => place

def cores : Team (Party nb) Place Shared where
  act := CoreAct fmt nb
  around s s' := Move (s.beats, s.mem) (s'.beats, s'.mem) ∧ s'.active = s.active
  waits := waits
  resume := resume

/-- The control core has yet to see `passes`; every compute core is on its way to
the barrier or waits there. -/
structure Home (passes : List Pass) (c : Config (Party nb) Place Shared) : Prop where
  control : c.place none = .control (.asleep passes)
  compute : ∀ k, c.place (some k) = .compute .returning ∨ c.place (some k) = .compute .parked
  idle : c.shared.beats = []

/-! ### Between the barriers, and outside -/

/-- Whether a core is past the first of a job's two barriers. -/
def inside : Place → Bool
  | .control (.between _ _) | .control (.joining _ _) => true
  | .compute (.running _) | .compute .leaving | .compute .trapped => true
  | _ => false

theorem cores_laps : Laps (cores fmt nb) inside Bool.not where
  act := by
    intro p l s l' s' _ taken
    cases taken with
    | control stage stage' s s' taken => cases taken <;> rfl
    | compute k spot spot' s s' taken => cases taken <;> rfl
  resume := by
    intro l waiting
    rcases l with stage | spot
    · cases stage <;> first | rfl | exact waiting.elim
    · cases spot <;> first | rfl | exact waiting.elim

theorem home_level {passes : List Pass} {c : Config (Party nb) Place Shared}
    (home : Home nb passes c) : Level inside c := by
  refine ⟨false, fun p => ?_⟩
  rcases p with _ | k
  · rw [home.control]
    rfl
  · rcases home.compute k with here | here <;> rw [here] <;> rfl

/-! ### Copies -/

def asCopy (t : Transfer) : Copy := ⟨t.dst.toNat, t.src.toNat, t.bytes.toNat⟩

variable {nb}

theorem copies_apart_engine {ts : List Transfer} (apart : CopiesApart ts) :
    CopyEngine.Apart (ts.map asCopy) where
  sources := by
    intro one first two second a target source
    obtain ⟨t, member, rfl⟩ := List.mem_map.mp first
    obtain ⟨u, other, rfl⟩ := List.mem_map.mp second
    exact apart.sources t member u other a target source
  targets := by
    intro one first two second a target again
    obtain ⟨t, member, rfl⟩ := List.mem_map.mp first
    obtain ⟨u, other, rfl⟩ := List.mem_map.mp second
    rw [apart.targets t member u other a target again]

theorem begun_apart {begun left : List Transfer} (apart : CopiesApart (begun ++ left)) :
    CopiesApart begun where
  sources s member t other :=
    apart.sources s (List.mem_append_left _ member) t (List.mem_append_left _ other)
  targets s member t other :=
    apart.targets s (List.mem_append_left _ member) t (List.mem_append_left _ other)

theorem exec_transfers (move : Transfer → Act)
    (copies : ∀ t mem, Happens fmt nb (move t) mem (copy t.dst t.src t.bytes mem))
    (all ts : List Transfer) (mem : Mem) :
    Exec fmt nb (ts.map move) mem ((transfers all).run (ts.map .store) mem) := by
  induction ts generalizing mem with
  | nil => exact rfl
  | cons t rest ih => exact ⟨_, copies t mem, ih _⟩

theorem engine_exec {ts : List Transfer} (apart : CopiesApart ts) {mem mem' : Mem}
    (under : UnderWay (ts.map asCopy) mem [] mem') (move : Transfer → Act)
    (copies : ∀ t mem, Happens fmt nb (move t) mem (copy t.dst t.src t.bytes mem)) :
    Exec fmt nb (ts.map move) mem mem' := by
  have same : mem' = (transfers ts).run (ts.map .store) mem := by
    funext a
    rcases under.settled a with ⟨one, first, target, moved⟩ | ⟨outside, kept⟩
    · obtain ⟨t, member, rfl⟩ := List.mem_map.mp first
      rcases copies_settled apart mem a with ⟨u, other, again, done⟩ | ⟨none, _⟩
      · rw [moved, done, apart.targets t member u other a target again]
        rfl
      · exact absurd target (none t member)
    · rcases copies_settled apart mem a with ⟨u, other, again, _⟩ | ⟨_, done⟩
      · exact absurd again (outside _ (List.mem_map_of_mem other))
      · rw [kept, done]
  rw [same]
  exact exec_transfers fmt move copies ts ts mem

/-! ### What holds while jobs are served -/

section Served

variable (nb) (all : List Pass) (start : Mem)

/-- The stores of core `k` that are in the trace. -/
def Shows (job : Active) (trace : List (Event (UInt32 × Nat) Nat UInt8)) (k : UInt32) :
    Spot → Prop
  | .running stored => ∀ e ∈ stored, Event.store (k, e) ∈ trace
  | .leaving => ∀ e, (crew fmt job nb).todo (k, e) → Event.store (k, e) ∈ trace
  | _ => True

/-- The slices of a job as far as they have come, from memory `before`. -/
def Slicing (job : Active) (place : Party nb → Place) (before after : Mem) : Prop :=
  ∃ trace, (∀ e ∈ trace, (crew fmt job nb).Legal e) ∧ after = (crew fmt job nb).run trace before ∧
    ∀ (k : Fin nb.toNat) (spot : Spot), place (some k) = .compute spot →
      Shows fmt nb job trace (index k) spot

/-- What memory holds at each stage, the jobs before having left `mem`. -/
def At (place : Party nb → Place) (s : Shared) (done : List Pass) (mem : Mem) : Stage → Prop
  | .asleep later => all = done ++ later ∧ s.beats = [] ∧ s.mem = mem
  | .staging left pass later => all = done ++ pass :: later ∧
      ∃ begun, pass.ins = begun ++ left ∧ UnderWay (begun.map asCopy) mem s.beats s.mem
  | .gate pass later => all = done ++ pass :: later ∧ s.beats = [] ∧ s.active = pass.job ∧
      Exec fmt nb (pass.ins.map Transfer.inward) mem s.mem
  | .between pass later | .joining pass later => all = done ++ pass :: later ∧ s.beats = [] ∧
      s.active = pass.job ∧ ∃ staged, Exec fmt nb (pass.ins.map Transfer.inward) mem staged ∧
        Slicing fmt nb pass.job place staged s.mem
  | .unstaging left pass later => all = done ++ pass :: later ∧
      ∃ sliced,
        Exec fmt nb (pass.ins.map Transfer.inward ++ [.release pass.job, .join]) mem sliced ∧
        ∃ begun, pass.outs = begun ++ left ∧ UnderWay (begun.map asCopy) sliced s.beats s.mem

structure Serving (c : Config (Party nb) Place Shared) : Prop where
  computes : ∀ k, ∃ spot, c.place (some k) = .compute spot
  stands : ∃ stage, c.place none = .control stage ∧ ∃ done mem,
    Exec fmt nb (done.flatMap Pass.acts) start mem ∧ At fmt nb all c.place c.shared done mem stage

variable {nb all start}

theorem Slicing.place {job : Active} {place place' : Party nb → Place} {before after : Mem}
    (same : ∀ k, place' (some k) = place (some k))
    (slicing : Slicing fmt nb job place before after) :
    Slicing fmt nb job place' before after := by
  obtain ⟨trace, legal, memory, shown⟩ := slicing
  refine ⟨trace, legal, memory, fun k spot here => shown k spot ?_⟩
  rw [← same k, here]

variable {fmt}

theorem At.place {place place' : Party nb → Place} {s : Shared} {done : List Pass} {mem : Mem}
    {stage : Stage} (same : ∀ k, place' (some k) = place (some k))
    (stands : At fmt nb all place s done mem stage) : At fmt nb all place' s done mem stage := by
  cases stage with
  | between pass later | joining pass later =>
      obtain ⟨split, idle, active, staged, ran, slicing⟩ := stands
      exact ⟨split, idle, active, staged, ran, slicing.place fmt same⟩
  | asleep later | staging left pass later | gate pass later | unstaging left pass later =>
      exact stands

theorem At.outside {place place' : Party nb → Place} {s : Shared} {done : List Pass} {mem : Mem}
    {stage : Stage} (out : inside (.control stage) = false)
    (stands : At fmt nb all place s done mem stage) : At fmt nb all place' s done mem stage := by
  cases stage with
  | between pass later | joining pass later => cases out
  | asleep later | staging left pass later | gate pass later | unstaging left pass later =>
      exact stands

/-! ### The control core -/

section Control

variable (apart : ∀ pass ∈ all, CopiesApart pass.ins ∧ CopiesApart pass.outs)

include apart

theorem control_step {place : Party nb → Place} {s s' : Shared} {done : List Pass} {mem : Mem}
    {stage stage' : Stage} (taken : ControlAct stage s stage' s')
    (ran : Exec fmt nb (done.flatMap Pass.acts) start mem)
    (stands : At fmt nb all place s done mem stage) :
    ∃ done mem, Exec fmt nb (done.flatMap Pass.acts) start mem ∧
      At fmt nb all place s' done mem stage' := by
  cases taken with
  | notice pass later =>
      obtain ⟨split, idle, rfl⟩ := stands
      refine ⟨done, _, ran, split, [], rfl, ?_⟩
      rw [idle]
      exact none_underWay _
  | scribble => exact ⟨done, mem, ran, stands⟩
  | copyIn t left pass later =>
      obtain ⟨split, begun, parts, under⟩ := stands
      refine ⟨done, mem, ran, split, begun ++ [t], by simp [parts], ?_⟩
      rw [List.map_append]
      exact under.begin (asCopy t)
  | arrive pass later _ idle complete =>
      obtain ⟨split, begun, parts, under⟩ := stands
      rw [List.append_nil] at parts
      rw [idle, ← parts] at under
      have member : pass ∈ all := by rw [split]; simp
      exact ⟨done, mem, ran, split, idle, complete,
        engine_exec fmt (apart pass member).1 under Transfer.inward fun _ _ => rfl⟩
  | join pass later => exact ⟨done, mem, ran, stands⟩
  | copyOut t left pass later =>
      obtain ⟨split, sliced, before, begun, parts, under⟩ := stands
      refine ⟨done, mem, ran, split, sliced, before, begun ++ [t], by simp [parts], ?_⟩
      rw [List.map_append]
      exact under.begin (asCopy t)
  | finish pass later _ idle =>
      obtain ⟨split, sliced, before, begun, parts, under⟩ := stands
      rw [List.append_nil] at parts
      rw [idle, ← parts] at under
      have member : pass ∈ all := by rw [split]; simp
      have returned : Exec fmt nb (pass.outs.map Transfer.outward) sliced s.mem :=
        engine_exec fmt (apart pass member).2 under Transfer.outward fun _ _ => rfl
      refine ⟨done ++ [pass], s.mem, ?_, by simp [split], idle, rfl⟩
      rw [List.flatMap_append, exec_append]
      refine ⟨mem, ran, ?_⟩
      have whole : [pass].flatMap Pass.acts = (pass.ins.map Transfer.inward ++
          [.release pass.job, .join]) ++ pass.outs.map Transfer.outward := by
        simp [Pass.acts]
      rw [whole, exec_append]
      exact ⟨sliced, before, returned⟩

theorem engine_step {place : Party nb → Place} {s s' : Shared} {done : List Pass} {mem : Mem}
    {stage : Stage} (taken : Move (s.beats, s.mem) (s'.beats, s'.mem))
    (stands : At fmt nb all place s done mem stage) : At fmt nb all place s' done mem stage := by
  have busy := taken.busy
  cases stage with
  | staging left pass later =>
      obtain ⟨split, begun, parts, under⟩ := stands
      have member : pass ∈ all := by rw [split]; simp
      have apart := (apart pass member).1
      rw [parts] at apart
      exact ⟨split, begun, parts, under.move (copies_apart_engine (begun_apart apart)) taken⟩
  | unstaging left pass later =>
      obtain ⟨split, sliced, before, begun, parts, under⟩ := stands
      have member : pass ∈ all := by rw [split]; simp
      have apart := (apart pass member).2
      rw [parts] at apart
      exact ⟨split, sliced, before, begun, parts,
        under.move (copies_apart_engine (begun_apart apart)) taken⟩
  | asleep later | gate pass later | between pass later | joining pass later =>
      exact absurd stands.2.1 busy

end Control

/-! ### The compute cores -/

theorem index_lt {nb : UInt32} (k : Fin nb.toNat) : index k < nb := by
  rw [UInt32.lt_iff_toNat_lt, index, UInt32.toNat_ofNat_of_lt' (k.isLt.trans nb.toNat_lt)]
  exact k.isLt

theorem Slicing.add {job : Active} {place place' : Party nb → Place} {before after : Mem}
    (slicing : Slicing fmt nb job place before after) {k : Fin nb.toNat} {spot : Spot}
    (here : place' (some k) = .compute spot)
    (others : ∀ j, j ≠ k → place' (some j) = place (some j))
    (more : List (Event (UInt32 × Nat) Nat UInt8))
    (legal : ∀ e ∈ more, (crew fmt job nb).Legal e)
    (shown : ∀ trace, (∀ spot, place (some k) = .compute spot →
      Shows fmt nb job trace (index k) spot) → Shows fmt nb job (trace ++ more) (index k) spot) :
    Slicing fmt nb job place' before ((crew fmt job nb).run more after) := by
  obtain ⟨trace, allowed, rfl, known⟩ := slicing
  refine ⟨trace ++ more, ?_, (run_append ..).symm, ?_⟩
  · intro e member
    exact (List.mem_append.mp member).elim (allowed e) (legal e)
  · intro j other at_j
    by_cases mine : j = k
    · subst mine
      rw [here] at at_j
      cases at_j
      exact shown trace fun old was => known j old was
    · rw [others j mine] at at_j
      have old := known j other at_j
      cases other with
      | running stored => exact fun e member => List.mem_append_left _ (old e member)
      | leaving => exact fun e todo => List.mem_append_left _ (old e todo)
      | returning | parked | trapped => trivial

theorem compute_step {place place' : Party nb → Place} {s s' : Shared} {done : List Pass}
    {mem : Mem} {stage : Stage} {k : Fin nb.toNat} {spot spot' : Spot}
    (taken : ComputeAct fmt nb (index k) spot s spot' s') (was : place (some k) = .compute spot)
    (now : place' (some k) = .compute spot')
    (others : ∀ j, j ≠ k → place' (some j) = place (some j))
    (level : inside (.control stage) = inside (.compute spot))
    (stands : At fmt nb all place s done mem stage) : At fmt nb all place' s' done mem stage := by
  cases taken with
  | arrive => exact stands.outside level
  | store _ stored call e mine low =>
      cases stage with
      | between pass later | joining pass later =>
          obtain ⟨split, idle, active, staged, ran, slicing⟩ := stands
          rw [active] at mine
          refine ⟨split, idle, active, staged, ran, ?_⟩
          have more := slicing.add now others [.store (index k, e)]
            (by simpa using ⟨index_lt k, call, mine, low⟩) fun trace known => by
              intro i member
              rcases List.mem_cons.mp member with rfl | old
              · simp
              · exact List.mem_append_left _ (known _ was i old)
          simpa [Crew.run, Crew.apply, crew, mine] using more
      | _ => cases level
  | scratch _ stored call a b mine low =>
      cases stage with
      | between pass later | joining pass later =>
          obtain ⟨split, idle, active, staged, ran, slicing⟩ := stands
          rw [active] at mine
          refine ⟨split, idle, active, staged, ran, ?_⟩
          exact slicing.add now others [.noise a b]
            (by simpa using ⟨index k, index_lt k, call, mine, low⟩) fun trace known i member =>
              List.mem_append_left _ (known _ was i member)
      | _ => cases level
  | finish _ stored complete =>
      cases stage with
      | between pass later | joining pass later =>
          obtain ⟨split, idle, active, staged, ran, slicing⟩ := stands
          rw [active] at complete
          refine ⟨split, idle, active, staged, ran, ?_⟩
          refine slicing.add now others [] (by simp) fun trace known e todo => ?_
          obtain ⟨_, call, mine, low⟩ := todo
          exact List.mem_append_left _ (known _ was e (complete call mine e low))
      | _ => cases level
  | trap _ stored =>
      cases stage with
      | between pass later | joining pass later =>
          obtain ⟨split, idle, active, staged, ran, slicing⟩ := stands
          exact ⟨split, idle, active, staged, ran,
            slicing.add now others [] (by simp) fun _ _ => trivial⟩
      | _ => cases level

/-! ### The barrier -/

theorem gathered_step {place : Party nb → Place} {s : Shared} {done : List Pass} {mem : Mem}
    {stage : Stage} (here : place none = .control stage)
    (computes : ∀ k, ∃ spot, place (some k) = .compute spot)
    (gathered : ∀ p, waits (place p)) (level : Level inside ⟨place, s⟩)
    (stands : At fmt nb all place s done mem stage) :
    ∃ stage', resume (place none) = .control stage' ∧
      At fmt nb all (fun p => resume (place p)) s done mem stage' := by
  obtain ⟨turn, same⟩ := level
  have same : ∀ p, inside (place p) = turn := same
  have control := gathered none
  have lap := same none
  rw [here] at control lap ⊢
  cases stage with
  | gate pass later =>
      obtain ⟨split, idle, active, ran⟩ := stands
      refine ⟨.between pass later, rfl, split, idle, active, s.mem, ran, [], by simp, rfl, ?_⟩
      intro k spot now
      obtain ⟨old, was⟩ := computes k
      have waiting := gathered (some k)
      have out := same (some k)
      have now : resume (place (some k)) = .compute spot := now
      rw [was] at waiting out now
      rw [← lap] at out
      cases old with
      | parked =>
          cases now
          exact fun e member => absurd member List.not_mem_nil
      | leaving | running | trapped => cases out
      | returning => exact waiting.elim
  | joining pass later =>
      obtain ⟨split, idle, active, staged, ran, trace, legal, memory, shown⟩ := stands
      refine ⟨.unstaging pass.outs pass later, rfl, split, s.mem, ?_, [], rfl, ?_⟩
      · rw [exec_append]
        refine ⟨staged, ran, s.mem, ⟨trace, legal, ?_, memory⟩, s.mem, rfl, rfl⟩
        rintro ⟨i, e⟩ todo
        have below : i.toNat < nb.toNat := UInt32.lt_iff_toNat_lt.mp todo.1
        obtain ⟨old, was⟩ := computes ⟨i.toNat, below⟩
        have waiting := gathered (some ⟨i.toNat, below⟩)
        have past := same (some ⟨i.toNat, below⟩)
        have known := shown ⟨i.toNat, below⟩ old was
        have number : @index nb ⟨i.toNat, below⟩ = i := UInt32.ofNat_toNat
        rw [was] at waiting past
        rw [← lap] at past
        cases old with
        | leaving =>
            rw [number] at known
            exact known e todo
        | parked | returning => cases past
        | running | trapped => exact waiting.elim
      · rw [idle]
        exact none_underWay _
  | asleep | staging | between | unstaging => exact control.elim

/-! ### Every run -/

section Run

variable (apart : ∀ pass ∈ all, CopiesApart pass.ins ∧ CopiesApart pass.outs)

include apart

theorem serving_step {c c' : Config (Party nb) Place Shared} (level : Level inside c)
    (serving : Serving fmt nb all start c) (taken : Step (cores fmt nb) c c') :
    Serving fmt nb all start c' := by
  obtain ⟨computes, stage, control, done, mem, ran, stands⟩ := serving
  cases taken with
  | act p l s working taken =>
      cases shape : c.place p with
      | control old =>
          rw [shape] at taken
          cases taken with
          | control _ stage' _ _ taken =>
              rw [control] at shape
              cases shape
              have others : ∀ k, (c.move none (.control stage') s).place (some k) =
                  c.place (some k) := fun k => move_other c _ _ (by simp)
              obtain ⟨done', mem', ran', now⟩ := control_step apart taken ran stands
              refine ⟨fun k => ?_, stage', move_mine c none _ s, done', mem', ran',
                now.place others⟩
              rw [others k]
              exact computes k
      | compute spot =>
          rw [shape] at taken
          cases taken with
          | compute k _ spot' _ _ taken =>
              have mine := move_mine c (some k) (.compute spot') s
              have others : ∀ j, j ≠ k → (c.move (some k) (.compute spot') s).place (some j) =
                  c.place (some j) := fun j other => move_other c _ _ (by simpa using other)
              have same : inside (.control stage) = inside (.compute spot) := by
                obtain ⟨turn, all_same⟩ := level
                rw [← control, ← shape, all_same, all_same]
              refine ⟨fun j => ?_, stage, ?_, done, mem, ran,
                compute_step taken shape mine others same stands⟩
              · by_cases other : j = k
                · subst other
                  exact ⟨spot', mine⟩
                · rw [others j other]
                  exact computes j
              · exact (move_other c _ _ (by simp)).trans control
  | around s taken =>
      exact ⟨computes, stage, control, done, mem, ran, engine_step apart taken.1 stands⟩
  | release gathered =>
      obtain ⟨stage', now, stands⟩ := gathered_step control computes gathered level stands
      refine ⟨fun k => ?_, stage', now, done, mem, ran, stands⟩
      obtain ⟨spot, here⟩ := computes k
      show ∃ spot, resume (c.place (some k)) = .compute spot
      rw [here]
      cases spot <;> exact ⟨_, rfl⟩

theorem serving_run {c₀ c : Config (Party nb) Place Shared} (home : Home nb all c₀)
    (ran : Run (cores fmt nb) c₀ c) : Serving fmt nb all c₀.shared.mem c := by
  induction ran with
  | refl =>
      refine ⟨fun k => ?_, .asleep all, home.control, [], c₀.shared.mem, rfl, rfl, home.idle, rfl⟩
      rcases home.compute k with here | here <;> exact ⟨_, here⟩
  | tail before taken ih =>
      exact serving_step apart (run_level (cores_laps fmt nb) (home_level nb home) before) ih taken

theorem loop_refines {c₀ c : Config (Party nb) Place Shared} (home : Home nb all c₀)
    (ran : Run (cores fmt nb) c₀ c) {later : List Pass}
    (asleep : c.place none = .control (.asleep later)) :
    ∃ done, all = done ++ later ∧
      Exec fmt nb (done.flatMap Pass.acts) c₀.shared.mem c.shared.mem := by
  obtain ⟨_, stage, control, done, mem, happened, stands⟩ := serving_run apart home ran
  rw [asleep] at control
  cases control
  obtain ⟨split, _, memory⟩ := stands
  rw [memory]
  exact ⟨done, split, happened⟩

end Run

end Served

/-! ### Getting on

The control core has `owed` barriers left. No core is held up for good, unless one
has trapped. -/

section Progress

variable {fmt}

def owed : Stage → Nat
  | .asleep later => 2 * later.length
  | .staging _ _ later | .gate _ later => 2 * later.length + 2
  | .between _ later | .joining _ later => 2 * later.length + 1
  | .unstaging _ _ later => 2 * later.length

def Able (m : Nat) : Party nb → Place → Prop
  | none, .control stage => owed stage = m
  | some _, .compute spot => spot ≠ .trapped
  | _, _ => False

theorem control_solo {stage stage' : Stage} {s s' : Shared} (working : ¬ waits (.control stage))
    (taken : ControlAct stage s stage' s') :
    Solo (cores fmt nb) none (.control stage, s) (.control stage', s') :=
  .act _ _ _ _ working (.control _ _ _ _ taken)

theorem compute_solo {k : Fin nb.toNat} {spot spot' : Spot} {s s' : Shared}
    (working : ¬ waits (.compute spot)) (taken : ComputeAct fmt nb (index k) spot s spot' s') :
    Solo (cores fmt nb) (some k) (.compute spot, s) (.compute spot', s') :=
  .act _ _ _ _ working (.compute _ _ _ _ _ taken)

variable (fmt)

theorem engine_drains (p : Party nb) (l : Place) (s : Shared) :
    ∃ mem, ReflTransGen (Solo (cores fmt nb) p) (l, s) (l, { s with beats := [], mem := mem }) := by
  obtain ⟨mem, drained⟩ := drains s.beats s.mem
  have step : ∀ e e', Move e e' → Solo (cores fmt nb) p
      (l, { s with beats := e.1, mem := e.2 }) (l, { s with beats := e'.1, mem := e'.2 }) :=
    fun e e' taken => .around l _ _ ⟨taken, rfl⟩
  exact ⟨mem, drained.lift (fun e => (l, { s with beats := e.1, mem := e.2 })) step⟩

section Control

variable (nb)

theorem staging_arrives (left : List Transfer) (pass : Pass) (later : List Pass) (s : Shared) :
    ∃ s', ReflTransGen (Solo (cores fmt nb) none) (.control (.staging left pass later), s)
      (.control (.gate pass later), s') := by
  induction left generalizing s with
  | nil =>
      obtain ⟨mem, drained⟩ := engine_drains fmt (none : Party nb)
        (.control (.staging [] pass later)) { s with active := pass.job }
      exact ⟨_, .head (control_solo id (.scribble [] pass later s pass.job))
        (drained.tail (control_solo id (.arrive pass later _ rfl rfl)))⟩
  | cons t rest ih =>
      obtain ⟨s', ran⟩ := ih (s.enqueue t)
      exact ⟨s', .head (control_solo id (.copyIn t rest pass later s)) ran⟩

theorem unstaging_finishes (left : List Transfer) (pass : Pass) (later : List Pass) (s : Shared) :
    ∃ s', ReflTransGen (Solo (cores fmt nb) none) (.control (.unstaging left pass later), s)
      (.control (.asleep later), s') := by
  induction left generalizing s with
  | nil =>
      obtain ⟨mem, drained⟩ := engine_drains fmt (none : Party nb)
        (.control (.unstaging [] pass later)) s
      exact ⟨_, drained.tail (control_solo id (.finish pass later _ rfl))⟩
  | cons t rest ih =>
      obtain ⟨s', ran⟩ := ih (s.enqueue t)
      exact ⟨s', .head (control_solo id (.copyOut t rest pass later s)) ran⟩

theorem asleep_arrives {later : List Pass} (more : 0 < later.length) (s : Shared) :
    ∃ stage s', ReflTransGen (Solo (cores fmt nb) none) (.control (.asleep later), s)
      (.control stage, s') ∧ waits (.control stage) ∧ owed stage = 2 * later.length := by
  cases later with
  | nil => simp at more
  | cons pass rest =>
      obtain ⟨s', ran⟩ := staging_arrives fmt nb pass.ins pass rest s
      refine ⟨.gate pass rest, s', .head (control_solo id (.notice pass rest s)) ran, trivial, ?_⟩
      simp only [owed, List.length_cons]
      omega

theorem control_arrives {m : Nat} {stage : Stage} (left : owed stage = m + 1) (s : Shared) :
    ∃ stage' s', ReflTransGen (Solo (cores fmt nb) none) (.control stage, s)
      (.control stage', s') ∧ waits (.control stage') ∧ owed stage' = m + 1 := by
  cases stage with
  | asleep later =>
      simp only [owed] at left
      rw [← left]
      exact asleep_arrives fmt nb (by omega) s
  | staging copies pass later =>
      obtain ⟨s', ran⟩ := staging_arrives fmt nb copies pass later s
      exact ⟨.gate pass later, s', ran, trivial, left⟩
  | gate pass later => exact ⟨_, s, .refl, trivial, left⟩
  | between pass later =>
      exact ⟨.joining pass later, s, .single (control_solo id (.join pass later s)), trivial, left⟩
  | joining pass later => exact ⟨_, s, .refl, trivial, left⟩
  | unstaging copies pass later =>
      simp only [owed] at left
      obtain ⟨mid, ran⟩ := unstaging_finishes fmt nb copies pass later s
      have more : 0 < later.length := by omega
      obtain ⟨stage, s', on, waiting, same⟩ := asleep_arrives fmt nb more mid
      exact ⟨stage, s', ran.trans on, waiting, same.trans left⟩

end Control

theorem elements_stored (k : Fin nb.toNat) {call : Call} {active : Active}
    (mine : runSlice active (index k) nb = some call) (stored : List Nat) (s : Shared)
    (same : s.active = active) (count : Nat) (bound : count ≤ call.output.2) :
    ∃ stored' s', ReflTransGen (Solo (cores fmt nb) (some k)) (.compute (.running stored), s)
      (.compute (.running stored'), s') ∧ s'.active = active ∧ ∀ e < count, e ∈ stored' := by
  induction count with
  | zero => exact ⟨stored, s, .refl, same, fun e low => absurd low e.not_lt_zero⟩
  | succ count ih =>
      obtain ⟨stored', s', ran, kept, known⟩ := ih (by omega)
      have step : ComputeAct fmt nb (index k) (.running stored') s' _ _ :=
        .store s' stored' call count (by rwa [kept]) bound
      refine ⟨_, _, ran.tail (compute_solo id step), kept, fun e low => ?_⟩
      rcases Nat.lt_succ_iff_lt_or_eq.mp low with before | rfl
      · exact List.mem_cons_of_mem _ (known e before)
      · exact List.mem_cons_self

theorem compute_arrives (k : Fin nb.toNat) {spot : Spot} (sound : spot ≠ .trapped) (s : Shared) :
    ∃ spot' s', ReflTransGen (Solo (cores fmt nb) (some k)) (.compute spot, s)
      (.compute spot', s') ∧ waits (.compute spot') ∧ spot' ≠ .trapped := by
  cases spot with
  | returning =>
      exact ⟨.parked, s, .single (compute_solo id (.arrive s)), trivial, by simp⟩
  | parked => exact ⟨_, s, .refl, trivial, sound⟩
  | running stored =>
      cases mine : runSlice s.active (index k) nb with
      | none =>
          refine ⟨.leaving, s, .single (compute_solo id (.finish s stored ?_)), trivial, by simp⟩
          intro call other
          rw [mine] at other
          cases other
      | some call =>
          obtain ⟨stored', s', ran, kept, known⟩ :=
            elements_stored fmt k mine stored s rfl call.output.2 (Nat.le_refl _)
          refine ⟨.leaving, s', ran.tail (compute_solo id (.finish s' stored' ?_)), trivial,
            by simp⟩
          intro other its
          rw [kept, mine] at its
          cases its
          exact known
  | leaving => exact ⟨_, s, .refl, trivial, sound⟩
  | trapped => exact absurd rfl sound

theorem able_arrives (m : Nat) (p : Party nb) (l : Place) (s : Shared) (able : Able (m + 1) p l) :
    ∃ l' s', ReflTransGen (Solo (cores fmt nb) p) (l, s) (l', s') ∧ waits l' ∧
      Able (m + 1) p l' := by
  rcases p with _ | k
  · rcases l with stage | spot
    · obtain ⟨stage', s', ran, waiting, left⟩ := control_arrives fmt nb able s
      exact ⟨_, s', ran, waiting, left⟩
    · exact able.elim
  · rcases l with stage | spot
    · exact able.elim
    · obtain ⟨spot', s', ran, waiting, sound⟩ := compute_arrives fmt k able s
      exact ⟨_, s', ran, waiting, sound⟩

theorem able_resumes {m : Nat} {p : Party nb} {l : Place} (waiting : waits l)
    (able : Able (m + 1) p l) : Able m p (resume l) := by
  rcases p with _ | k
  · rcases l with stage | spot
    · cases stage with
      | gate pass later =>
          have left : 2 * later.length + 2 = m + 1 := able
          show 2 * later.length + 1 = m
          omega
      | joining pass later =>
          have left : 2 * later.length + 1 = m + 1 := able
          show 2 * later.length = m
          omega
      | _ => exact waiting.elim
    · exact able.elim
  · rcases l with stage | spot
    · exact able.elim
    · cases spot with
      | parked | leaving => exact fun same => by cases same
      | _ => exact waiting.elim

theorem able_finishes (m : Nat) (c : Config (Party nb) Place Shared)
    (able : ∀ p, Able m p (c.place p)) :
    ∃ c', Run (cores fmt nb) c c' ∧ c'.place none = .control (.asleep []) := by
  induction m generalizing c with
  | zero =>
      have mine := able none
      cases here : c.place none with
      | compute spot =>
          rw [here] at mine
          exact mine.elim
      | control stage =>
          rw [here] at mine
          have left : owed stage = 0 := mine
          cases stage with
          | asleep later =>
              have nothing : later = [] :=
                List.eq_nil_of_length_eq_zero (by simpa [owed] using left)
              subst nothing
              exact ⟨c, .refl, here⟩
          | unstaging copies pass later =>
              have nothing : later = [] :=
                List.eq_nil_of_length_eq_zero (by simpa [owed] using left)
              subst nothing
              obtain ⟨s', ran⟩ :=
                unstaging_finishes fmt nb copies pass [] c.shared
              rw [← here] at ran
              exact ⟨_, solo_run ran, move_mine ..⟩
          | staging | gate | between | joining => simp [owed] at left
  | succ m ih =>
      obtain ⟨mid, ran, gathered⟩ := gather (Able (m + 1))
        (able_arrives fmt m) c able
      obtain ⟨c', later, asleep⟩ := ih ⟨fun p => resume (mid.place p), mid.shared⟩
        fun p => able_resumes (gathered p).1 (gathered p).2
      exact ⟨c', (ran.tail (.release mid fun p => (gathered p).1)).trans later, asleep⟩

/-! ### A trapped core -/

def ahead : Stage → List Pass
  | .asleep later => later
  | .staging _ pass later | .gate pass later | .between pass later | .joining pass later
  | .unstaging _ pass later => pass :: later

def Listed (passes : List Pass) (p : Party nb) (l : Place) (_ : Shared) : Prop :=
  match p, l with
  | none, .control stage => ∃ done, passes = done ++ ahead stage
  | some _, .compute _ => True
  | _, _ => False

theorem cores_listed (passes : List Pass) :
    Assertions (cores fmt nb) inside (Listed passes) where
  own p l s l' s' _ taken known := by
    cases taken with
    | compute k spot spot' s s' taken => trivial
    | control stage stage' s s' taken =>
        cases taken with
        | finish pass later =>
            obtain ⟨done, split⟩ := known
            exact ⟨done ++ [pass], by simp [split, ahead]⟩
        | _ => exact known
  stable p l s l' s' _ _ _ q m _ _ known := known
  around s s' _ p l known := known
  release place s _ _ all p := by
    have known := all p
    rcases p with _ | k
    · cases here : place none with
      | compute spot =>
          rw [here] at known
          exact known.elim
      | control stage =>
          rw [here] at known
          cases stage <;> exact known
    · cases here : place (some k) with
      | control stage =>
          rw [here] at known
          exact known.elim
      | compute spot => cases spot <;> trivial

theorem home_listed {passes : List Pass} {c : Config (Party nb) Place Shared}
    (home : Home nb passes c) (p : Party nb) : Listed passes p (c.place p) c.shared := by
  rcases p with _ | k
  · rw [home.control]
    exact ⟨[], rfl⟩
  · rcases home.compute k with here | here <;> rw [here] <;> trivial

variable {fmt}

theorem trapped_stays {c c' : Config (Party nb) Place Shared} {k : Fin nb.toNat}
    (ran : Run (cores fmt nb) c c') (trapped : c.place (some k) = .compute .trapped) :
    c'.place (some k) = .compute .trapped := by
  induction ran with
  | refl => exact trapped
  | tail _ taken ih =>
      cases taken with
      | act p l s working taken =>
          by_cases mine : some k = p
          · subst mine
            rw [ih] at taken
            cases taken with
            | compute _ _ _ _ _ taken => cases taken
          · exact (move_other _ _ _ mine).trans ih
      | around s taken => exact ih
      | release gathered =>
          have waiting := gathered (some k)
          rw [ih] at waiting
          exact waiting.elim

/-- The control core is between the barriers of `pass`. -/
def Held (pass : Pass) (later : List Pass) (place : Place) : Prop :=
  place = .control (.between pass later) ∨ place = .control (.joining pass later)

theorem trapped_holds {c c' : Config (Party nb) Place Shared} {k : Fin nb.toNat} {pass : Pass}
    {later : List Pass} (ran : Run (cores fmt nb) c c')
    (trapped : c.place (some k) = .compute .trapped) (held : Held pass later (c.place none)) :
    Held pass later (c'.place none) := by
  induction ran with
  | refl => exact held
  | tail before taken ih =>
      cases taken with
      | around s taken => exact ih
      | release gathered =>
          have waiting := gathered (some k)
          rw [trapped_stays before trapped] at waiting
          exact waiting.elim
      | act p l s working taken =>
          rcases p with _ | other
          · rcases ih with here | here
            · rw [here] at taken
              cases taken with
              | control _ _ _ _ taken =>
                  cases taken with
                  | join => exact .inr (move_mine ..)
            · rw [here] at working
              exact absurd trivial working
          · rw [move_other _ _ _ (Option.some_ne_none other).symm]
            exact ih

/-- Whatever state a cluster has come to, it can still finish all its jobs if no
compute core has trapped; once one has, the job that the control core waits for is
the one it trapped in, and is never finished. -/
theorem jobs_finish (fmt : Format R) (nb : UInt32) (passes : List Pass)
    (c₀ c : Config (Party nb) Place Shared) (home : Home nb passes c₀)
    (ran : Run (cores fmt nb) c₀ c) :
    ((∀ k, c.place (some k) ≠ .compute .trapped) →
      ∃ c', Run (cores fmt nb) c c' ∧ c'.place none = .control (.asleep [])) ∧
    ((∃ k, c.place (some k) = .compute .trapped) →
      ∃ done pass later, passes = done ++ pass :: later ∧
        ∀ c', Run (cores fmt nb) c c' → Held pass later (c'.place none)) := by
  have listed : ∀ p, Listed passes p (c.place p) c.shared :=
    run_holds (cores_laps fmt nb) (cores_listed fmt passes) (home_level nb home)
      (home_listed home) ran
  have control := listed none
  cases here : c.place none with
  | compute spot =>
      rw [here] at control
      exact control.elim
  | control stage =>
      rw [here] at control
      obtain ⟨done, split⟩ := control
      refine ⟨fun sound => able_finishes fmt (owed stage) c fun p => ?_, fun ⟨k, trapped⟩ => ?_⟩
      · rcases p with _ | k
        · rw [here]
          exact rfl
        · have compute := listed (some k)
          have fine := sound k
          cases shape : c.place (some k) with
          | control stage' =>
              rw [shape] at compute
              exact compute.elim
          | compute spot =>
              rw [shape] at fine
              exact fun same => fine (congrArg Place.compute same)
      · -- the control core is past the same barriers as the core that trapped
        obtain ⟨turn, same⟩ := run_level (cores_laps fmt nb) (home_level nb home) ran
        have lap := (same none).trans (same (some k)).symm
        rw [here, trapped] at lap
        cases stage with
        | between pass later =>
            exact ⟨done, pass, later, split, fun c' on => trapped_holds on trapped (.inl here)⟩
        | joining pass later =>
            exact ⟨done, pass, later, split, fun c' on => trapped_holds on trapped (.inr here)⟩
        | _ => cases lap

/-- A cluster at rest before `passes`. -/
def rest (nb : UInt32) (passes : List Pass) (mem : Mem) : Config (Party nb) Place Shared where
  place p := p.elim (.control (.asleep passes)) fun _ => .compute .returning
  shared := { active := ⟨none, fun _ => 0, 0, 0⟩, beats := [], mem := mem }

theorem rest_home (nb : UInt32) (passes : List Pass) (mem : Mem) :
    Home nb passes (rest nb passes mem) :=
  ⟨rfl, fun _ => Or.inl rfl, rfl⟩

theorem rest_able (nb : UInt32) (passes : List Pass) (mem : Mem) (p : Party nb) :
    Able (2 * passes.length) p ((rest nb passes mem).place p) := by
  rcases p with _ | k
  · exact rfl
  · exact fun same => by cases same

def Outset (pass : Pass) (later : List Pass) : Party nb → Place → Prop
  | none, place => place = .control (.asleep (pass :: later)) ∨ place = .control (.gate pass later)
  | some _, place => place = .compute .returning ∨ place = .compute .parked

theorem rest_traps (pass : Pass) (later : List Pass) (mem : Mem) (k : Fin nb.toNat) :
    ∃ c, Run (cores fmt nb) (rest nb (pass :: later) mem) c ∧
      c.place (some k) = .compute .trapped ∧ c.place none = .control (.between pass later) := by
  have arrives : ∀ (p : Party nb) l s, Outset pass later p l → ∃ l' s',
      ReflTransGen (Solo (cores fmt nb) p) (l, s) (l', s') ∧ waits l' ∧
        Outset pass later p l' := by
    intro p l s outset
    rcases p with _ | k
    · rcases outset with rfl | rfl
      · obtain ⟨s', on⟩ := staging_arrives fmt nb pass.ins pass later s
        exact ⟨_, s', .head (control_solo id (.notice pass later s)) on, trivial, .inr rfl⟩
      · exact ⟨_, s, .refl, trivial, .inr rfl⟩
    · rcases outset with rfl | rfl
      · exact ⟨_, s, .single (compute_solo id (.arrive s)), trivial, .inr rfl⟩
      · exact ⟨_, s, .refl, trivial, .inr rfl⟩
  have outset : ∀ p, Outset pass later p ((rest nb (pass :: later) mem).place p) := by
    intro p
    rcases p with _ | k
    · exact .inl rfl
    · exact .inl rfl
  obtain ⟨mid, ran, gathered⟩ := gather (Outset pass later) arrives _ outset
  have gate : mid.place none = .control (.gate pass later) := by
    obtain ⟨waiting, here | here⟩ := gathered none
    · rw [here] at waiting
      exact waiting.elim
    · exact here
  have running : resume (mid.place (some k)) = .compute (.running []) := by
    obtain ⟨waiting, here | here⟩ := gathered (some k)
    · rw [here] at waiting
      exact waiting.elim
    · rw [here]
      rfl
  have released := ran.tail (.release mid fun p => (gathered p).1)
  refine ⟨_, released.tail (.act _ (some k) (.compute .trapped) mid.shared ?_ ?_), move_mine .., ?_⟩
  · show ¬ waits (resume (mid.place (some k)))
    rw [running]
    exact id
  · show CoreAct fmt nb (some k) (resume (mid.place (some k))) _ _ _
    rw [running]
    exact .compute _ _ _ _ _ (.trap _ _)
  · rw [move_other _ _ _ (Option.some_ne_none k).symm]
    show resume (mid.place none) = _
    rw [gate]
    rfl

/-- Eight cores at rest get through a job for a kernel nobody knows; if one of them
traps in it, the control core waits for it for good. -/
theorem idle_jobs_finish :
    (∃ c', Run (cores fixed 8) (rest 8 [⟨[], ⟨none, fun _ => 0, 0, 0⟩, []⟩] ones) c' ∧
      c'.place none = .control (.asleep [])) ∧
    ∃ c, Run (cores fixed 8) (rest 8 [⟨[], ⟨none, fun _ => 0, 0, 0⟩, []⟩] ones) c ∧
      c.place (some ⟨3, by decide⟩) = .compute .trapped ∧
      ∀ c', Run (cores fixed 8) c c' →
        Held ⟨[], ⟨none, fun _ => 0, 0, 0⟩, []⟩ [] (c'.place none) := by
  refine ⟨(jobs_finish fixed 8 _ _ _ (rest_home 8 _ ones) .refl).1 fun _ => by simp [rest], ?_⟩
  obtain ⟨c, ran, trapped, between⟩ := @rest_traps Int _ fixed 8
    ⟨[], ⟨none, fun _ => 0, 0, 0⟩, []⟩ [] ones ⟨3, by decide⟩
  obtain ⟨done, pass, later, split, held⟩ :=
    (jobs_finish fixed 8 _ _ _ (rest_home 8 _ ones) ran).2 ⟨_, trapped⟩
  refine ⟨c, ran, trapped, ?_⟩
  rcases held c .refl with here | here
  · rw [between] at here
    cases here
    exact held
  · rw [between] at here
    cases here

end Progress

/-! ### Jobs against the kernels run once -/

/-- A job as the control core takes it: the descriptor, and what its arguments and
cycle counter held. -/
structure Offload where
  env : Word → UInt32
  kernel : Kernel
  active : Nat → UInt32
  cycles : UInt32

def Offload.pass (c : Cluster) (job : Offload) : Pass where
  ins := inputs job.env ((placement c job.env).getD [])
  job := released c job.env job.active
  outs := outputs job.env ((placement c job.env).getD [])

theorem pass_acts (c : Cluster) (job : Offload) :
    (job.pass c).acts = (serve c job.active job.cycles).acts job.env := by
  rw [serve_acts, copiesIn_inputs, copiesOut_outputs]
  rfl

/-- The job is clear of its scratch and published without an error. -/
structure Granted (c : Cluster) (job : Offload) : Prop where
  accepted : ∃ mem, Accepted c job.env job.kernel mem
  clear : Clear c job.env job.kernel
  published : (Word.error, errNone) ∈ (serve c job.active job.cycles).stores job.env

/-- Memory after jobs that each leave main memory as their kernel run once does, if
they find their operands there. -/
def InTurn (fmt : Format R) (c : Cluster) : List Offload → Mem → Mem → Prop
  | [], mem, mem' => mem' = mem
  | job :: rest, mem, mem' => ∃ mid,
      (Accepted c job.env job.kernel mem → ∀ a, mainMemory a →
        mid a = reference fmt mem (whole (arguments job.env) job.kernel) a) ∧
      InTurn fmt c rest mid mem'

theorem granted_apart {c : Cluster} {job : Offload} (granted : Granted c job) :
    CopiesApart (job.pass c).ins ∧ CopiesApart (job.pass c).outs := by
  obtain ⟨mem, accepted⟩ := granted.accepted
  obtain ⟨_, room⟩ := published_granted granted.published
  show CopiesApart (inputs job.env ((placement c job.env).getD [])) ∧
    CopiesApart (outputs job.env ((placement c job.env).getD []))
  cases staged : placement c job.env with
  | none => exact ⟨⟨by simp [inputs], by simp [inputs]⟩, ⟨by simp [outputs], by simp [outputs]⟩⟩
  | some placed =>
      exact ⟨inputs_apart accepted room staged, outputs_apart accepted room staged⟩

theorem exec_inTurn {c : Cluster} (jobs : List Offload) (granted : ∀ job ∈ jobs, Granted c job)
    {mem mem' : Mem}
    (ran : Exec fmt c.nbCompute ((jobs.map (Offload.pass c)).flatMap Pass.acts) mem mem') :
    InTurn fmt c jobs mem mem' := by
  induction jobs generalizing mem with
  | nil => exact ran
  | cons job rest ih =>
      rw [List.map_cons, List.flatMap_cons, pass_acts, exec_append] at ran
      obtain ⟨mid, first, later⟩ := ran
      have mine := granted job List.mem_cons_self
      refine ⟨mid, fun accepted => ?_,
        ih (fun other member => granted other (List.mem_cons_of_mem _ member)) later⟩
      exact clear_reference accepted mine.clear mine.published mid first

/-- In every run of a cluster's cores and its DMA engine over any list of granted
jobs, whenever the control core is back asleep the jobs taken so far have each left
main memory as their kernel run once would. -/
theorem offloads_in_turn (fmt : Format R) (c : Cluster) (jobs : List Offload)
    (granted : ∀ job ∈ jobs, Granted c job)
    (c₀ c' : Config (Party c.nbCompute) Place Shared)
    (home : Home c.nbCompute (jobs.map (Offload.pass c)) c₀)
    (ran : Run (cores fmt c.nbCompute) c₀ c') (later : List Pass)
    (asleep : c'.place none = .control (.asleep later)) :
    ∃ taken left, jobs = taken ++ left ∧ later = left.map (Offload.pass c) ∧
      InTurn fmt c taken c₀.shared.mem c'.shared.mem := by
  have apart : ∀ pass ∈ jobs.map (Offload.pass c), CopiesApart pass.ins ∧
    CopiesApart pass.outs := by
    intro pass member
    obtain ⟨job, inside, rfl⟩ := List.mem_map.mp member
    exact granted_apart (granted job inside)
  obtain ⟨done, split, happened⟩ := loop_refines apart home ran asleep
  obtain ⟨taken, left, rfl, rfl, rest⟩ := List.map_eq_append_iff.mp split
  refine ⟨taken, left, rfl, rest.symm, exec_inTurn fmt taken (fun job member => ?_) happened⟩
  exact granted job (List.mem_append_left _ member)

end Cores

/-- The staged product as the control core takes it. -/
def productJob : Offload := ⟨product, .matmul, fun _ => 0, 0⟩

theorem product_granted : Granted octet productJob where
  accepted := ⟨ones, product_accepted⟩
  clear := Or.inl (by decide +kernel)
  published := by
    have clean : jobError octet product = errNone := by decide +kernel
    rw [serve_stores]
    exact clean ▸ List.mem_cons_self

/-- The eight cores get through the product, and it is right. -/
theorem product_in_turn : ∃ c', Run (cores fixed octet.nbCompute)
    (rest octet.nbCompute ([productJob].map (Offload.pass octet)) ones) c' ∧
      c'.shared.mem 0x82002014 = 2 := by
  obtain ⟨c', ran, asleep⟩ := able_finishes fixed _
    (rest octet.nbCompute ([productJob].map (Offload.pass octet)) ones) (rest_able _ _ _)
  obtain ⟨taken, left, split, none_left, turns⟩ := offloads_in_turn fixed octet [productJob]
    (by simpa using product_granted) _ c' (rest_home _ _ _) ran [] asleep
  have empty : left = [] := List.map_eq_nil_iff.mp none_left.symm
  rw [empty, List.append_nil] at split
  subst split
  obtain ⟨mid, right, same⟩ := turns
  have same : c'.shared.mem = mid := same
  refine ⟨c', ran, ?_⟩
  rw [same, right product_accepted 0x82002014 ⟨by decide, by decide⟩]
  show reference fixed ones (whole (arguments product) .matmul) 0x82002014 = 2
  decide +kernel

end HeteroSim.BarrierLoop
