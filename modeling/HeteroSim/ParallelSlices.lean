import HeteroSim.ArrayWriters
import HeteroSim.SliceRun

/-!
What the control core's actions do to memory. Between the two barriers every
core with a share stores each element of it, in any order and interleaved in
any way with the others, and uses its scratch as it likes. Whatever the order,
the output is that of the kernel run once.
-/

namespace HeteroSim.ParallelSlices

open ClusterJob SliceRun ArrayWriters

instance (base : UInt32) (bytes a : Nat) : Decidable (spans base bytes a) :=
  inferInstanceAs (Decidable (_ ∧ _))

section Memory

variable {R : Type} [CommRing R] (fmt : Format R)

/-- A DMA copy. -/
def copy (dst src bytes : UInt32) (mem : Mem) : Mem :=
  fun a => if spans dst bytes.toNat a then mem (src.toNat + (a - dst.toNat)) else mem a

def storeFloat (p : Nat) (v : R) (mem : Mem) : Mem :=
  fun a => if p ≤ a ∧ a < p + 4 then fmt.byte v (a - p) else mem a

/-- Memory once the kernel has run on the whole problem. -/
def reference (mem : Mem) (call : Call) : Mem :=
  fun a =>
    if spans call.output.1 (call.output.2 * 4) a then
      fmt.byte (value fmt mem call ((a - call.output.1.toNat) / 4)) ((a - call.output.1.toNat) % 4)
    else mem a

def crew (job : Active) (nb : UInt32) : Crew (UInt32 × Nat) Nat UInt8 where
  todo s := s.1 < nb ∧ ∃ call, runSlice job s.1 nb = some call ∧ s.2 < call.output.2
  perform s mem :=
    match runSlice job s.1 nb with
    | none => mem
    | some call => storeFloat fmt (call.output.1.toNat + 4 * s.2) (value fmt mem call s.2) mem
  extent s a := ∃ call, runSlice job s.1 nb = some call ∧
    call.output.1.toNat + 4 * s.2 ≤ a ∧ a < call.output.1.toNat + 4 * s.2 + 4
  scratch a := ∃ idx, idx < nb ∧ ∃ call, runSlice job idx nb = some call ∧
    spans call.scratch.1 call.scratch.2 a

def Happens (nb : UInt32) : Act → Mem → Mem → Prop
  | .copyIn dst src bytes, mem, mem' => mem' = copy dst src bytes mem
  | .copyOut dst src bytes, mem, mem' => mem' = copy dst src bytes mem
  | .release job, mem, mem' => ∃ trace,
      (∀ e ∈ trace, (crew fmt job nb).Legal e) ∧
      (∀ s, (crew fmt job nb).todo s → Event.store s ∈ trace) ∧
      mem' = (crew fmt job nb).run trace mem
  | .join, mem, mem' => mem' = mem

def Exec (nb : UInt32) : List Act → Mem → Mem → Prop
  | [], mem, mem' => mem' = mem
  | a :: rest, mem, mem' => ∃ mid, Happens fmt nb a mem mid ∧ Exec nb rest mid mem'

theorem exec_append (nb : UInt32) (first second : List Act) (mem mem' : Mem) :
    Exec fmt nb (first ++ second) mem mem' ↔
      ∃ mid, Exec fmt nb first mem mid ∧ Exec fmt nb second mid mem' := by
  induction first generalizing mem with
  | nil => simp [Exec]
  | cons a rest ih =>
      simp only [List.cons_append, Exec, ih]
      constructor
      · rintro ⟨next, happens, mid, before, later⟩
        exact ⟨mid, ⟨next, happens, before⟩, later⟩
      · rintro ⟨mid, ⟨next, happens, before⟩, later⟩
        exact ⟨next, happens, mid, before, later⟩

def inTurn (job : Active) (nb : UInt32) : List (Event (UInt32 × Nat) Nat UInt8) :=
  (List.range nb.toNat).flatMap fun k =>
    match runSlice job (UInt32.ofNat k) nb with
    | none => []
    | some call => (List.range call.output.2).map fun e => .store (UInt32.ofNat k, e)

theorem inTurn_legal (job : Active) (nb : UInt32) :
    ∀ e ∈ inTurn job nb, (crew fmt job nb).Legal e := by
  intro event member
  obtain ⟨k, core, inside⟩ := List.mem_flatMap.mp member
  have below := List.mem_range.mp core
  have exact : (UInt32.ofNat k).toNat = k := exact_of_cast rfl (below.trans nb.toNat_lt)
  cases ran : runSlice job (UInt32.ofNat k) nb with
  | none => simp [ran] at inside
  | some call =>
      rw [ran] at inside
      obtain ⟨e, element, rfl⟩ := List.mem_map.mp inside
      refine ⟨?_, call, ran, List.mem_range.mp element⟩
      rw [UInt32.lt_iff_toNat_lt]
      exact exact.trans_lt below

theorem inTurn_complete (job : Active) (nb : UInt32) (s : UInt32 × Nat)
    (mine : (crew fmt job nb).todo s) : Event.store s ∈ inTurn job nb := by
  obtain ⟨core, call, ran, element⟩ := mine
  refine List.mem_flatMap.mpr ⟨s.1.toNat, List.mem_range.mpr (UInt32.lt_iff_toNat_lt.mp core), ?_⟩
  rw [UInt32.ofNat_toNat, ran]
  exact List.mem_map.mpr ⟨s.2, List.mem_range.mpr element, rfl⟩

theorem exec_exists (nb : UInt32) (acts : List Act) (mem : Mem) :
    ∃ mem', Exec fmt nb acts mem mem' := by
  induction acts generalizing mem with
  | nil => exact ⟨mem, rfl⟩
  | cons a rest ih =>
      have happens : ∃ mid, Happens fmt nb a mem mid := by
        cases a with
        | copyIn dst src bytes => exact ⟨_, rfl⟩
        | copyOut dst src bytes => exact ⟨_, rfl⟩
        | release job =>
            exact ⟨_, inTurn job nb, inTurn_legal fmt job nb, inTurn_complete fmt job nb, rfl⟩
        | join => exact ⟨_, rfl⟩
      obtain ⟨mid, happens⟩ := happens
      obtain ⟨mem', later⟩ := ih mid
      exact ⟨mem', mid, happens, later⟩

end Memory

/-! ### The slices together -/

section Slices

variable {R : Type} [CommRing R] {fmt : Format R} {a : Nat → UInt32} {kernel : Kernel} {mem : Mem}

def outSlot : Kernel → Nat
  | .matmul => Mm.Y
  | .gemm => Gemm.Y
  | .conv2d => Conv.Y
  | .mfcc => Mfcc.out

def outputOperand (a : Nat → UInt32) (kernel : Kernel) : Extent :=
  ⟨outSlot kernel, true, (whole a kernel).output.2 * 4⟩

theorem whole_place (a : Nat → UInt32) (kernel : Kernel) :
    (whole a kernel).output.1 = a (outSlot kernel) := by
  cases kernel <;> rfl

theorem one_output (sized : Sized mem a kernel) :
    outputOperand a kernel ∈ extents a kernel ∧
      ∀ x ∈ extents a kernel, x.isOutput = true → x = outputOperand a kernel := by
  cases kernel with
  | matmul => simp [extents, outputOperand, outSlot, whole, Call.output]
  | gemm => simp [extents, outputOperand, outSlot, whole, Call.output]
  | mfcc => simp [extents, outputOperand, outSlot, whole, Call.output]
  | conv2d =>
      have exact : (whole a .conv2d).output.2 * 4 =
          (a Conv.F).toNat * outExtent (a Conv.H) (a Conv.P) (a Conv.SP) *
            outExtent (a Conv.W) (a Conv.Q) (a Conv.SQ) * 4 := by
        rcases Nat.eq_zero_or_pos (a Conv.F).toNat with none | some
        · simp [whole, Call.output, none]
        · obtain ⟨tall, broad⟩ := out_sizes sized some
          simp only [whole, Call.output, tall, broad]
      rw [outputOperand, exact]
      by_cases bias : a Conv.hasBias = 0 <;> simp [extents, outSlot, bias]

variable {job : Active} {nb : UInt32}

theorem slice_share (fmt : Format R) (known : job.kernel = some kernel)
    (sized : Sized mem job.args kernel)
    {idx : UInt32} (core : idx < nb) {call : Call} (ran : runSlice job idx nb = some call) :
    (bounds job.args kernel idx nb).1 < (bounds job.args kernel idx nb).2 ∧
      call = portion job.args (bounds job.args kernel idx nb).1
        (bounds job.args kernel idx nb).2 (job.scratchBase + idx * job.scratchStride) kernel ∧
      ShareOf fmt (whole job.args kernel) call
        ((bounds job.args kernel idx nb).1.toNat * width job.args kernel) := by
  rw [runSlice_portion job kernel known] at ran
  by_cases empty : (bounds job.args kernel idx nb).2 ≤ (bounds job.args kernel idx nb).1
  · rw [if_pos empty] at ran
    cases ran
  · rw [if_neg empty] at ran
    cases ran
    have order := UInt32.not_le.mp empty
    refine ⟨order, rfl, portion_share kernel sized _ _ _ order (bounds_top core) ?_⟩
    intro trans
    have one : idx = 0 := by
      by_contra other
      rw [bounds, if_pos trans, if_neg other] at order
      exact absurd order (UInt32.lt_irrefl 0)
    rw [bounds, if_pos trans, if_pos one]
    exact ⟨rfl, rfl⟩

theorem element_row {first last : UInt32} (order : first < last) {scratch : UInt32} {e : Nat}
    (inside : e < (portion a first last scratch kernel).output.2) :
    first.toNat ≤ (first.toNat * width a kernel + e) / width a kernel ∧
      (first.toNat * width a kernel + e) / width a kernel < last.toNat := by
  have nonempty := width_positive order inside
  rw [portion_count a kernel first last scratch order] at inside
  obtain ⟨row, _⟩ := Kernels.row_col inside
  rw [(Kernels.shifted_div first.toNat (width a kernel) e nonempty).1]
  exact ⟨Nat.le_add_right _ _, Nat.add_lt_of_lt_sub' row⟩

/-- The operands of a job are apart: its output from its inputs, and its scratch
from both. -/
structure OperandsApart (job : Active) (nb : UInt32) (kernel : Kernel) : Prop where
  inputs : ∀ x ∈ extents job.args kernel, ∀ y ∈ extents job.args kernel, x.isOutput = true →
    y.isOutput = false → ∀ a, spans (job.args x.arg) x.bytes a →
      ¬ spans (job.args y.arg) y.bytes a
  scratch : ∀ idx, idx < nb → ∀ call, runSlice job idx nb = some call →
    ∀ a, spans call.scratch.1 call.scratch.2 a →
      ∀ x ∈ extents job.args kernel, ¬ spans (job.args x.arg) x.bytes a

def inputBytes (a : Nat → UInt32) (kernel : Kernel) (cell : Nat) : Prop :=
  ∃ x ∈ extents a kernel, x.isOutput = false ∧ spans (a x.arg) x.bytes cell

theorem element_output (share : ShareOf fmt (whole a kernel) call start) {e : Nat}
    (inside : e < call.output.2) {cell : Nat} (low : call.output.1.toNat + 4 * e ≤ cell)
    (high : cell < call.output.1.toNat + 4 * e + 4) :
    spans (a (outputOperand a kernel).arg) (outputOperand a kernel).bytes cell ∧
      (cell - (whole a kernel).output.1.toNat) / 4 = start + e ∧
      (cell - (whole a kernel).output.1.toNat) % 4 = cell - (call.output.1.toNat + 4 * e) := by
  have place := share.place
  have top := share.top
  have slot : a (outputOperand a kernel).arg = (whole a kernel).output.1 :=
    (whole_place a kernel).symm
  rw [slot]
  show (_ ≤ cell ∧ cell < _ + (whole a kernel).output.2 * 4) ∧ _
  omega

theorem crew_apart (known : job.kernel = some kernel) (sized : Sized mem job.args kernel)
    (apart : OperandsApart job nb kernel) :
    Apart (crew fmt job nb) (inputBytes job.args kernel) mem where
  frame := by
    rintro ⟨idx, e⟩ ⟨core, call, ran, inside⟩ m cell outside
    have away : ¬ (call.output.1.toNat + 4 * e ≤ cell ∧ cell < call.output.1.toNat + 4 * e + 4) :=
      fun here => outside ⟨call, ran, here⟩
    simp only [crew, ran, storeFloat, if_neg away]
  depends := by
    rintro ⟨idx, e⟩ ⟨core, call, ran, inside⟩ m agrees cell ⟨again, found, here⟩
    cases ran.symm.trans found
    obtain ⟨_, _, share⟩ := slice_share fmt known sized core ran
    have same : value fmt m call e = value fmt mem call e := by
      rw [share.same m e inside, share.same mem e inside]
      refine (whole_moved kernel sized (fun _ _ => rfl) ?_ _
        ((Nat.add_lt_add_left inside _).trans_le share.top)).symm
      intro x member input k below
      exact (agrees _ ⟨x, member, input, Nat.le_add_right _ _, Nat.add_lt_add_left below _⟩).symm
    simp only [crew, ran, storeFloat, if_pos here, same]
  unread := by
    rintro ⟨idx, e⟩ ⟨core, call, ran, inside⟩ cell ⟨call', ran', low, high⟩ ⟨y, member, input, here⟩
    cases ran.symm.trans ran'
    obtain ⟨_, _, share⟩ := slice_share fmt known sized core ran
    obtain ⟨output, only⟩ := one_output sized
    exact apart.inputs _ output y member rfl input cell
      (element_output share inside low high).1 here
  own := by
    rintro ⟨idx, e⟩ ⟨idx', e'⟩ ⟨core, call, ran, inside⟩ ⟨core', call', ran', inside'⟩ cell
      ⟨again, same, low, high⟩ ⟨again', same', low', high'⟩
    cases ran.symm.trans same
    cases ran'.symm.trans same'
    obtain ⟨order, rfl, share⟩ := slice_share fmt known sized core ran
    obtain ⟨order', rfl, share'⟩ := slice_share fmt known sized core' ran'
    have index := (element_output share inside low high).2.1
    have index' := (element_output share' inside' low' high').2.1
    obtain ⟨first, last⟩ := element_row order inside
    obtain ⟨first', last'⟩ := element_row order' inside'
    rw [← index] at first last
    rw [← index'] at first' last'
    have one : idx = idx' := bounds_own core core' first last first' last'
    subst one
    have second : e = e' := Nat.add_left_cancel (index.symm.trans index')
    rw [second]
  scratchUnread := by
    rintro cell ⟨idx, core, call, ran, noisy⟩ ⟨x, member, _, here⟩
    exact apart.scratch idx core call ran cell noisy x member here
  scratchApart := by
    rintro cell ⟨idx, core, call, ran, noisy⟩ ⟨idx', e⟩ ⟨core', call', ran', inside⟩
      ⟨again, same, low, high⟩
    cases ran'.symm.trans same
    obtain ⟨_, _, share⟩ := slice_share fmt known sized core' ran'
    exact apart.scratch idx core call ran cell noisy _ (one_output sized).1
      (element_output share inside low high).1

theorem slices_cover (known : job.kernel = some kernel) (cores : nb ≠ 0) {j : Nat}
    (inside : j < (whole job.args kernel).output.2) :
    ∃ idx, idx < nb ∧ ∃ call, runSlice job idx nb = some call ∧
      ∃ e < call.output.2,
        (bounds job.args kernel idx nb).1.toNat * width job.args kernel + e = j := by
  rw [whole_count] at inside
  obtain ⟨row, col⟩ := Kernels.row_col inside
  obtain ⟨idx, core, low, high⟩ := bounds_cover cores row
  have order : (bounds job.args kernel idx nb).1 < (bounds job.args kernel idx nb).2 :=
    UInt32.lt_iff_toNat_lt.mpr (Nat.lt_of_le_of_lt low high)
  refine ⟨idx, core, _, (runSlice_portion job kernel known idx nb).trans
    (if_neg (UInt32.not_le.mpr order)), (j / width job.args kernel -
      (bounds job.args kernel idx nb).1.toNat) * width job.args kernel +
        j % width job.args kernel, ?_, ?_⟩
  · rw [portion_count _ _ _ _ _ order]
    exact Kernels.entry_lt (Nat.sub_lt_sub_right low high) col
  · rw [← Nat.add_assoc, ← Nat.add_mul, Nat.add_sub_cancel' low, Nat.mul_comm]
    exact Nat.div_add_mod j _

theorem slices_reference (known : job.kernel = some kernel) (sized : Sized mem job.args kernel)
    (cores : nb ≠ 0) (apart : OperandsApart job nb kernel)
    (trace : List (Event (UInt32 × Nat) Nat UInt8))
    (legal : ∀ e ∈ trace, (crew fmt job nb).Legal e)
    (complete : ∀ s, (crew fmt job nb).todo s → Event.store s ∈ trace) (cell : Nat)
    (quiet : ¬ (crew fmt job nb).scratch cell) :
    (crew fmt job nb).run trace mem cell = reference fmt mem (whole job.args kernel) cell := by
  rcases run_settled (crew_apart known sized apart) trace legal complete cell quiet with
    ⟨⟨idx, e⟩, ⟨core, call, ran, inside⟩, ⟨again, found, low, high⟩, stored⟩ | ⟨outside, kept⟩
  · cases ran.symm.trans found
    obtain ⟨_, _, share⟩ := slice_share fmt known sized core ran
    obtain ⟨output, index, byte⟩ := element_output share inside low high
    have span : spans (whole job.args kernel).output.1 ((whole job.args kernel).output.2 * 4)
        cell := by
      rw [whole_place]
      exact output
    rw [stored, reference, if_pos span, index, byte, ← share.same mem e inside]
    simp only [crew, ran, storeFloat, if_pos (And.intro low high)]
  · rw [kept, reference, if_neg]
    intro output
    have element : (cell - (whole job.args kernel).output.1.toNat) / 4 <
        (whole job.args kernel).output.2 := by
      obtain ⟨low, high⟩ := output
      omega
    obtain ⟨idx, core, call, ran, e, inside, here⟩ := slices_cover known cores element
    obtain ⟨_, _, share⟩ := slice_share fmt known sized core ran
    have place := share.place
    refine outside (idx, e) ⟨core, call, ran, inside⟩ ⟨call, ran, ?_⟩
    rw [place]
    obtain ⟨low, high⟩ := output
    show _ + 4 * e ≤ cell ∧ cell < _ + 4 * e + 4
    omega

end Slices

/-! ### DMA copies that do not meet -/

section Transfers

structure Transfer where
  dst : UInt32
  src : UInt32
  bytes : UInt32

def Transfer.inward (t : Transfer) : Act := .copyIn t.dst t.src t.bytes

def Transfer.outward (t : Transfer) : Act := .copyOut t.dst t.src t.bytes

def transfers (ts : List Transfer) : Crew Transfer Nat UInt8 where
  todo t := t ∈ ts
  perform t mem := copy t.dst t.src t.bytes mem
  extent t a := spans t.dst t.bytes.toNat a
  scratch _ := False

structure CopiesApart (ts : List Transfer) : Prop where
  sources : ∀ s ∈ ts, ∀ t ∈ ts, ∀ a, spans s.dst s.bytes.toNat a → ¬ spans t.src t.bytes.toNat a
  targets : ∀ s ∈ ts, ∀ t ∈ ts, ∀ a, spans s.dst s.bytes.toNat a → spans t.dst t.bytes.toNat a →
    s = t

theorem copied_byte {dst src bytes : UInt32} (mem : Mem) {a : Nat}
    (inside : spans dst bytes.toNat a) :
    copy dst src bytes mem a = mem (src.toNat + (a - dst.toNat)) :=
  if_pos inside

theorem copies_apart {ts : List Transfer} (apart : CopiesApart ts) (mem : Mem) :
    Apart (transfers ts) (fun a => ∃ t ∈ ts, spans t.src t.bytes.toNat a) mem where
  frame t mine m a outside := if_neg outside
  depends := by
    intro t mine m agrees a inside
    have inside : spans t.dst t.bytes.toNat a := inside
    show copy t.dst t.src t.bytes m a = copy t.dst t.src t.bytes mem a
    rw [copied_byte m inside, copied_byte mem inside]
    obtain ⟨low, high⟩ := inside
    exact agrees _ ⟨t, mine, Nat.le_add_right _ _, by omega⟩
  unread := by
    rintro s mine a inside ⟨t, other, read⟩
    exact apart.sources s mine t other a inside read
  own s t mine other a inside again := apart.targets s mine t other a inside again
  scratchUnread _ noisy := noisy.elim
  scratchApart _ noisy := noisy.elim

theorem copies_settled {ts : List Transfer} (apart : CopiesApart ts) (mem : Mem) (a : Nat) :
    (∃ t ∈ ts, spans t.dst t.bytes.toNat a ∧
      (transfers ts).run (ts.map .store) mem a = mem (t.src.toNat + (a - t.dst.toNat))) ∨
    ((∀ t ∈ ts, ¬ spans t.dst t.bytes.toNat a) ∧
      (transfers ts).run (ts.map .store) mem a = mem a) := by
  have legal : ∀ e ∈ ts.map (.store : Transfer → Event Transfer Nat UInt8),
      (transfers ts).Legal e := by
    intro e member
    obtain ⟨t, mine, rfl⟩ := List.mem_map.mp member
    exact mine
  rcases run_settled (copies_apart apart mem) (ts.map .store) legal
    (fun t mine => List.mem_map_of_mem mine) a id with
    ⟨t, mine, inside, moved⟩ | ⟨outside, kept⟩
  · exact Or.inl ⟨t, mine, inside, moved.trans (copied_byte mem inside)⟩
  · exact Or.inr ⟨outside, kept⟩

variable {R : Type} [CommRing R] (fmt : Format R)

theorem exec_copies (nb : UInt32) (move : Transfer → Act)
    (copies : ∀ t mem mem', Happens fmt nb (move t) mem mem' → mem' = copy t.dst t.src t.bytes mem)
    (all ts : List Transfer) (mem mem' : Mem) (ran : Exec fmt nb (ts.map move) mem mem') :
    mem' = (transfers all).run (ts.map .store) mem := by
  induction ts generalizing mem with
  | nil => exact ran
  | cons t rest ih =>
      obtain ⟨mid, happens, later⟩ := ran
      rw [copies t mem mid happens] at later
      exact ih _ later

end Transfers

end HeteroSim.ParallelSlices
