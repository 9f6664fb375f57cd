import HeteroSim.ClusterJob

/-!
A job the cluster refuses. Lack of staging refuses it before anything moved.
Lack of scratch does not: the operands may have been staged by then, and the
flag that says so still sends the untouched local output buffer out at the end.
-/

namespace HeteroSim.RefusedJob

open SharedWords ClusterJob

/-- Where a placed operand is written: its home for an output, its local buffer
for an input. -/
def target (env : Word → UInt32) (one : Placed) : UInt32 :=
  if one.op.isOutput then env (.args one.op.arg) else one.localCopy

/-- The job wants scratch and gets none, but its operands are staged, and one of
the copies reaches main memory. -/
def StagedWithoutScratch (c : Cluster) (env : Word → UInt32) : Prop :=
  wanted env ≠ 0 ∧ (jobScratch c env).base = 0 ∧
    ∃ placed, placement c env = some placed ∧
      ∃ one ∈ placed, ∃ a, mainMemory a ∧ spans (target env one) one.op.bytes.toNat a

section Refused

variable {c : Cluster} {env : Word → UInt32}

theorem jobError_staged (placed : List Placed) (staged : placement c env = some placed) :
    jobError c env ≠ errNone ↔ wanted env ≠ 0 ∧ (jobScratch c env).base = 0 := by
  simp only [jobError, refusal, staged, Option.isSome_some, Bool.not_true, Bool.and_false,
    Bool.false_eq_true, if_false]
  by_cases short : wanted env ≠ 0 ∧ (jobScratch c env).base = 0
  · rw [if_pos short]
    exact ⟨fun _ => short, fun _ => by decide⟩
  · rw [if_neg short]
    exact ⟨fun same => absurd rfl same, fun both => absurd both short⟩

theorem released_idle (active : Nat → UInt32) (refused : jobError c env ≠ errNone) (a : Nat) :
    ¬ (Act.release (released c env active)).writes c.nbCompute a := by
  rintro ⟨idx, _, call, ran, _⟩
  have nothing : (released c env active).kernel = none := by rw [released, if_neg refused]
  simp [runSlice, nothing] at ran

theorem mem_copies (placed : List Placed) (act : Act)
    (member : act ∈ copiesIn env placed ∨ act ∈ copiesOut env placed) :
    ∃ one ∈ placed, ∀ nb a, act.writes nb a ↔ spans (target env one) one.op.bytes.toNat a := by
  rcases member with inward | outward
  · obtain ⟨one, inside, rfl⟩ := List.mem_map.mp inward
    obtain ⟨known, input⟩ := List.mem_filter.mp inside
    have reads : one.op.isOutput = false := by simpa using input
    exact ⟨one, known, fun nb a => by simp [Act.writes, target, reads]⟩
  · obtain ⟨one, inside, rfl⟩ := List.mem_map.mp outward
    obtain ⟨known, output⟩ := List.mem_filter.mp inside
    exact ⟨one, known, fun nb a => by simp [Act.writes, target, output]⟩

theorem copied (placed : List Placed) (one : Placed) (known : one ∈ placed) :
    ∃ act, (act ∈ copiesIn env placed ∨ act ∈ copiesOut env placed) ∧
      ∀ nb a, act.writes nb a ↔ spans (target env one) one.op.bytes.toNat a := by
  cases output : one.op.isOutput
  · refine ⟨.copyIn one.localCopy (env (.args one.op.arg)) one.op.bytes, Or.inl ?_, ?_⟩
    · exact List.mem_map.mpr ⟨one, List.mem_filter.mpr ⟨known, by simp [output]⟩, rfl⟩
    · exact fun nb a => by simp [Act.writes, target, output]
  · refine ⟨.copyOut (env (.args one.op.arg)) one.localCopy one.op.bytes, Or.inr ?_, ?_⟩
    · exact List.mem_map.mpr ⟨one, List.mem_filter.mpr ⟨known, output⟩, rfl⟩
    · exact fun nb a => by simp [Act.writes, target, output]

end Refused

/-- A refused job writes no byte of main memory, except for this one kind. -/
theorem refused_writes_nothing (c : Cluster) (active : Nat → UInt32) (cycles : UInt32)
    (env : Word → UInt32) :
    (∀ error, (Word.error, error) ∈ (serve c active cycles).stores env → error ≠ errNone →
      ∀ act ∈ (serve c active cycles).acts env, ∀ a, mainMemory a →
        ¬ act.writes c.nbCompute a) ↔ ¬ StagedWithoutScratch c env := by
  rw [serve_acts, serve_stores]
  constructor
  · rintro quiet ⟨want, base, placed, staged, one, known, a, main, hits⟩
    have refused := (jobError_staged placed staged).mpr ⟨want, base⟩
    obtain ⟨act, member, writes⟩ := @copied env placed one known
    refine quiet (jobError c env) (by simp) refused act ?_ a main ((writes c.nbCompute a).mpr hits)
    rw [staged, Option.getD_some]
    rcases member with inward | outward
    · exact List.mem_append_left _ inward
    · exact List.mem_append_right _ (List.mem_cons_of_mem _ (List.mem_cons_of_mem _ outward))
  · intro apart error stored refused act member a main writes
    have same : error = jobError c env := by simpa using stored
    subst same
    have copies : act ∈ copiesIn env ((placement c env).getD []) ∨
        act ∈ copiesOut env ((placement c env).getD []) := by
      rcases List.mem_append.mp member with inward | later
      · exact Or.inl inward
      · rcases List.mem_cons.mp later with released | later
        · exact absurd writes (released ▸ released_idle active refused a)
        · rcases List.mem_cons.mp later with joined | outward
          · exact absurd writes (by rw [joined]; exact id)
          · exact Or.inr outward
    -- only a staged job copies at all, and only for lack of scratch is it refused
    cases staged : placement c env with
    | none => simp [staged, copiesIn, copiesOut] at copies
    | some placed =>
        rw [staged, Option.getD_some] at copies
        obtain ⟨one, known, spanned⟩ := mem_copies placed act copies
        obtain ⟨want, base⟩ := (jobError_staged placed staged).mp refused
        exact apart ⟨want, base, placed, staged, one, known, a, main,
          (spanned c.nbCompute a).mp writes⟩

/-- Eight compute cores over a heap of 61440 bytes. -/
def smallHeap : Cluster :=
  { heapStart := 0x10008000, heapEnd := 0x10017000, nbCompute := 8, requiresStaging := false }

/-- Four frames of 1024 samples: the operands take 22 KiB, the scratch 65.5. -/
def longFrames : Word → UInt32 :=
  jobWords 5 jobStage [0x82000000, 0x82010000, 4, 1024, 512, 1024, 0x82020000, 0x82030000,
    0x82040000, 0x82050000, 0x82060000, 40, 0x82070000, 10, 500]

/-- The job is refused for lack of scratch and the output buffer at 0x82010000 is
overwritten all the same. -/
theorem refused_job_overwrites_output :
    (Word.error, errNoScratch) ∈ (serve smallHeap (fun _ => 0) 0).stores longFrames ∧
      ∃ act ∈ (serve smallHeap (fun _ => 0) 0).acts longFrames,
        mainMemory 0x82010000 ∧ act.writes smallHeap.nbCompute 0x82010000 := by
  have error : jobError smallHeap longFrames = errNoScratch := by decide +kernel
  have placed : ((placement smallHeap longFrames).getD []).any (fun one =>
      decide (one.op = ⟨Mfcc.out, true, 160⟩)) = true := by decide +kernel
  obtain ⟨one, known, same⟩ := List.any_eq_true.mp placed
  have op : one.op = ⟨Mfcc.out, true, 160⟩ := by simpa using same
  rw [serve_stores, serve_acts]
  refine ⟨by simp [error], .copyOut (longFrames (.args Mfcc.out)) one.localCopy 160, ?_, ?_, ?_⟩
  · apply List.mem_append_right
    refine List.mem_cons_of_mem _ (List.mem_cons_of_mem _ ?_)
    exact List.mem_map.mpr ⟨one, List.mem_filter.mpr ⟨known, by rw [op]⟩, by rw [op]⟩
  · unfold mainMemory
    decide
  · show spans (longFrames (.args Mfcc.out)) (160 : UInt32).toNat 0x82010000
    unfold spans
    decide

end HeteroSim.RefusedJob
