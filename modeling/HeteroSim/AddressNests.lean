import HeteroSim.SnitchSsr

/-!
The loop macros against the nested loops they stand for. A stride register holds what a
loop's turn adds when the inner loops start again, accumulated in 32-bit words that wrap;
whatever the counts and strides, the addresses are those of the loops, in their order.
-/

namespace HeteroSim.AddressNests

open SnitchSsr StreamLoops
open scoped UInt32.CommRing

/-- `ssr_loop_1d` to `ssr_loop_4d`, by how many loops there are: counts and strides, the
innermost first. -/
def Mover.loopNest (m : Mover) : List (UInt32 × UInt32) → Mover
  | [(b0, s0)] => m.loop1d b0 s0
  | [(b0, s0), (b1, s1)] => m.loop2d b0 b1 s0 s1
  | [(b0, s0), (b1, s1), (b2, s2)] => m.loop3d b0 b1 b2 s0 s1 s2
  | [(b0, s0), (b1, s1), (b2, s2), (b3, s3)] => m.loop4d b0 b1 b2 b3 s0 s1 s2 s3
  | _ => m

/-! ### The nested loops -/

def loopIndices : List (UInt32 × UInt32) → List (List Nat)
  | [] => [[]]
  | (b, _) :: rest =>
      (loopIndices rest).flatMap fun ks => (List.range b.toNat).map fun k => k :: ks

def travelled : List (UInt32 × UInt32) → List Nat → UInt32
  | (_, s) :: rest, k :: ks => UInt32.ofNat k * s + travelled rest ks
  | _, _ => 0

def loopAddress (ptr : UInt32) (program : List (UInt32 × UInt32)) (ks : List Nat) : UInt32 :=
  ptr + travelled program ks

def elements (program : List (UInt32 × UInt32)) : Nat :=
  (program.map fun loop => loop.1.toNat).prod

def Within (program : List (UInt32 × UInt32)) (ks : List Nat) : Prop :=
  List.Forall₂ (fun loop k => k < loop.1.toNat) program ks

def Precedes : List Nat → List Nat → Prop
  | k :: ks, l :: ls => Precedes ks ls ∨ (ks = ls ∧ k < l)
  | _, _ => False

theorem mem_loopIndices (program : List (UInt32 × UInt32)) (ks : List Nat) :
    ks ∈ loopIndices program ↔ Within program ks := by
  induction program generalizing ks with
  | nil => simp [loopIndices, Within]
  | cons loop rest ih =>
      simp only [loopIndices, List.mem_flatMap, List.mem_map, List.mem_range, ih, Within,
        List.forall₂_cons_left_iff]
      constructor
      · rintro ⟨ls, outer, k, inside, rfl⟩
        exact ⟨k, ls, inside, outer, rfl⟩
      · rintro ⟨k, ls, inside, outer, rfl⟩
        exact ⟨ls, outer, k, inside, rfl⟩

theorem loopIndices_ordered (program : List (UInt32 × UInt32)) :
    (loopIndices program).Pairwise Precedes := by
  induction program with
  | nil => exact List.pairwise_singleton _ _
  | cons loop rest ih =>
      rw [loopIndices, List.pairwise_flatMap]
      constructor
      · intro ks _
        rw [List.pairwise_map]
        exact List.pairwise_lt_range.imp fun less => Or.inr ⟨rfl, less⟩
      · refine ih.imp fun {ks ls} before x inner y later => ?_
        obtain ⟨k, _, rfl⟩ := List.mem_map.mp inner
        obtain ⟨l, _, rfl⟩ := List.mem_map.mp later
        exact Or.inl before

/-! ### What the registers hold -/

theorem loop1d_loops (m : Mover) (b0 s0 : UInt32) :
    m.loop1d b0 s0 = m.loops 0 0 [(b0, s0)] := by
  simp [Mover.loop1d, Mover.loops]

theorem loopNest_loops (m : Mover) (program : List (UInt32 × UInt32)) (nonempty : program ≠ [])
    (few : program.length ≤ 4) : Mover.loopNest m program = m.loops 0 0 program := by
  match program, nonempty, few with
  | [(b0, s0)], _, _ => exact loop1d_loops m b0 s0
  | [_, _], _, _ => rfl
  | [_, _, _], _, _ => rfl
  | [_, _, _, _], _, _ => rfl

section Counts

variable {program : List (UInt32 × UInt32)} (counts : ∀ loop ∈ program, 1 ≤ loop.1)

include counts

theorem size_elements : size (nest program) = elements program := by
  induction program with
  | nil => rfl
  | cons loop rest ih =>
      obtain ⟨first, others⟩ := List.forall_mem_cons.mp counts
      have count := count_exact (UInt32.le_iff_toNat_le.mp first)
      have inner := ih others
      simp only [nest, elements, List.map_cons, size, List.prod_cons] at inner ⊢
      rw [count, inner]

theorem loopTurns_indices : loopTurns (nest program) = loopIndices program := by
  induction program with
  | nil => rfl
  | cons loop rest ih =>
      obtain ⟨first, others⟩ := List.forall_mem_cons.mp counts
      have count := count_exact (UInt32.le_iff_toNat_le.mp first)
      have inner := ih others
      simp only [nest, List.map_cons, loopTurns, loopIndices] at inner ⊢
      rw [count, inner]

end Counts

theorem reach_travelled (program : List (UInt32 × UInt32)) (ks : List Nat) :
    reach (nest program) ks = travelled program ks := by
  induction program generalizing ks with
  | nil => rfl
  | cons loop rest ih =>
      cases ks with
      | nil => rfl
      | cons k ks =>
          have inner := ih ks
          simp only [nest, List.map_cons, reach, travelled] at inner ⊢
          rw [inner, ofNat_cast, mul_comm]

/-- A generator that a loop macro has programmed goes through the addresses of the nested
loops, each index tuple once and in lexicographic order, and ends with the last. -/
theorem nest_visited (m : Mover) (program : List (UInt32 × UInt32)) (nonempty : program ≠ [])
    (few : program.length ≤ 4) (counts : ∀ loop ∈ program, 1 ≤ loop.1) (ptr : UInt32)
    (turns : Nat) :
    let stream := ((Mover.loopNest m program).read (program.length - 1) ptr).stream
    visits turns stream.levels stream.address =
        (((loopIndices program).map (loopAddress ptr program)).take turns,
          decide (elements program ≤ turns)) ∧
      (loopIndices program).length = elements program ∧
      (loopIndices program).Pairwise Precedes ∧
      ∀ ks, ks ∈ loopIndices program ↔ Within program ks := by
  intro stream
  have depth : program.length - 1 + 1 = program.length :=
    Nat.sub_add_cancel (List.length_pos_iff.mpr nonempty)
  have loops : stream.levels = levels 0 (nest program) 0 := by
    have programmed := (loops_programmed m program).levels
    rw [← loopNest_loops m program nonempty few] at programmed
    rw [← programmed, ← depth]
    rfl
  have total := size_elements counts
  have order := offsets_turns (nest program)
  rw [loopTurns_indices counts] at order
  have run := visits_levels (nest program) ptr turns 0 (size_positive _)
  rw [offset_zero, add_zero, Nat.sub_zero, Nat.zero_add, ← List.range_eq_range', ← List.take_range,
    List.map_take, ← Function.comp_def (ptr + ·), ← List.map_map, order, List.map_map,
    total] at run
  refine ⟨?_, ?_, loopIndices_ordered program, mem_loopIndices program⟩
  · rw [loops]
    refine run.trans ?_
    congr 2
    exact List.map_congr_left fun ks _ => congrArg (ptr + ·) (reach_travelled program ks)
  · have length := congrArg List.length order
    rw [List.length_map, List.length_map, List.length_range] at length
    rw [← length, total]

/-- A backward walk over two rows that overlap. -/
theorem nest_visited_rows :
    (∀ loop ∈ [((3 : UInt32), (0 : UInt32) - 4), (2, 8)], (1 : UInt32) ≤ loop.1) ∧
      (let stream := ((Mover.loopNest .fresh [(3, 0 - 4), (2, 8)]).read 1 16).stream
      visits 7 stream.levels stream.address).1 = [16, 12, 8, 24, 20, 16] := by
  have turned : ∀ loop ∈ [((3 : UInt32), (0 : UInt32) - 4), (2, 8)], (1 : UInt32) ≤ loop.1 :=
    List.forall_mem_cons.mpr ⟨by decide, List.forall_mem_singleton.mpr (by decide)⟩
  refine ⟨turned, ?_⟩
  have visited := (nest_visited .fresh [(3, 0 - 4), (2, 8)] (by decide) (by decide) turned 16 7).1
  rw [show [((3 : UInt32), (0 : UInt32) - 4), (2, 8)].length - 1 = 1 from rfl] at visited
  rw [visited]
  decide

end HeteroSim.AddressNests
