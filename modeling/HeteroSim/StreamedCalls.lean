import HeteroSim.KernelPairs

/-!
Calls to the streamed kernels, one after another on one core. A call does what it would
do on a core that was just reset, whatever the calls before it left in the stream
registers, and leaves the registers so that this holds of the next one.
-/

namespace HeteroSim.StreamedCalls

open SliceRun SnitchSsr TwoRuns CoupledCores KernelPairs

inductive Call
  | matMul (A B Y M N O : UInt32)
  | gemm (a : StreamedGemm.Args)
  | conv2d (a : StreamedConv.Args)
  | mfcc (a : MfccKernels.Args)

/-- The weights of a filter and the points of an FFT are in the address space. -/
def Call.Sized : Call → Prop
  | .conv2d a => 4 * a.window ≤ 2 ^ 32
  | .mfcc a => 8 * a.fftLen.toNat ≤ 2 ^ 32
  | _ => True

/-- MatMul and Gemm take up their streams again in the next region; the others arm them
for each region, and have to have ended them after it. -/
def Call.Between : Call → Bool × Bool → Prop
  | .conv2d _ => (· = (true, true))
  | .mfcc _ => (· = (true, true))
  | _ => fun _ => True

section Calls

variable {R : Type} [CommRing R] (fmt : Format R)

structure Generics where
  matMul : Generic fmt StreamedGemm.Args
  gemm : Generic fmt StreamedGemm.Args
  conv2d : Generic fmt StreamedConv.Args

variable {fmt} (generics : Generics fmt)

def Call.run : Call → Core R → Option (Core R)
  | .matMul A B Y M N O => StreamedGemm.matMulFp32 fmt generics.matMul.run A B Y M N O
  | .gemm a => StreamedGemm.gemmFp32 fmt a generics.gemm.run
  | .conv2d a => StreamedConv.conv2dFp32 fmt a generics.conv2d.run
  | .mfcc a => MfccKernels.mfccFp32 fmt a

/-- A core between calls: streams off, and `ft1` set to give elements once. -/
structure Idle (c : Core R) : Prop where
  off : c.enabled = false
  once : c.dm1.reps = 0

/-- No stream was armed but to be taken to its end. -/
structure Consumed (c : Core R) : Prop where
  first : c.dm0.stream.levels ≠ [] → c.dm0.stream.ended = true
  second : c.dm1.stream.levels ≠ [] → c.dm1.stream.ended = true

theorem call_both (k : Call) (sized : k.Sized) {c c' : Core R} (idle : Idle c) (idle' : Idle c')
    (same : c.mem = c'.mem) :
    Both (Coupled fmt c c' (Same k.Between) (Rest c) (Rest c')) (k.run generics c)
      (k.run generics c') := by
  have before (ok : Bool × Bool → Prop) : Coupled fmt c c' (Same ok) (Rest c) (Rest c') c c' :=
    ⟨⟨{}, {}, did_nothing fmt idle.off, did_nothing fmt idle'.off, rfl, by simp⟩,
      ⟨idle.once, Or.inl ⟨rfl, rfl⟩⟩, ⟨idle'.once, Or.inl ⟨rfl, rfl⟩⟩⟩
  cases k with
  | matMul A B Y M N O =>
      apply Both.ite
      · exact fun _ => generic_both fmt generics.matMul _ same (before _)
      · exact fun shape => gemmSsr_both fmt (a := ⟨A, B, 0, Y, M, N, O, 0, 0⟩) same shape (before _)
  | gemm a =>
      apply Both.ite
      · exact fun _ => generic_both fmt generics.gemm a same (before _)
      · exact fun shape => gemmSsr_both fmt same shape (before _)
  | conv2d a =>
      have addressed : a.window < 2 ^ 32 := by
        have weights : 4 * a.window ≤ 2 ^ 32 := sized
        omega
      exact conv2d_both fmt same generics.conv2d addressed (before _)
  | mfcc a =>
      have points : a.fftLen.toNat < 2 ^ 31 := by
        have arrays : 8 * a.fftLen.toNat ≤ 2 ^ 32 := sized
        omega
      exact mfcc_both fmt same points (before _)

omit [CommRing R] in
theorem rest_consumed {c d : Core R} (rest : Rest c d.dm0 d.dm1) (consumed : Consumed c) :
    Consumed d := by
  rcases rest.streams with ⟨first, second⟩ | ⟨first, second⟩
  · constructor
    · rw [first]
      exact consumed.first
    · rw [second]
      exact consumed.second
  · exact ⟨fun _ => first, fun _ => second⟩

theorem calls_idle (calls : List Call) (sized : ∀ k ∈ calls, k.Sized) (c : Core R) (idle : Idle c) :
    ∃ d, calls.foldlM (fun c k => k.run generics c) c = some d ∧ Idle d ∧
      (Consumed c → Consumed d) := by
  induction calls generalizing c with
  | nil => exact ⟨c, rfl, idle, id⟩
  | cons k rest ih =>
      obtain ⟨e, _, runs, _, alike⟩ :=
        call_both generics k (sized k List.mem_cons_self) idle idle rfl
      have next : Idle e := ⟨alike.off.1, alike.movers.once⟩
      obtain ⟨d, later, ready, consumed⟩ :=
        ih (fun k member => sized k (List.mem_cons_of_mem _ member))
        e next
      refine ⟨d, ?_, ready, fun before => consumed (rest_consumed alike.movers before)⟩
      rw [List.foldlM_cons, runs]
      exact later

/-- After any calls, a call stores the same numbers and takes the same elements as after a
reset; each of its streams is at its end or was not touched, so that no armed stream is
left with elements; and data mover 1 gives each element once again. -/
theorem calls_do_not_leak (calls : List Call) (k : Call) (sized : ∀ call ∈ k :: calls, call.Sized)
    (start : Core R) (idle : Idle start) :
    ∃ c d e log, calls.foldlM (fun c k => k.run generics c) start = some c ∧
      k.run generics c = some d ∧ k.run generics (Core.fresh c.mem) = some e ∧
      d.mem = e.mem ∧ d.log = c.log ++ log ∧ e.log = log ∧
      (∀ ends ∈ log.ends, k.Between ends) ∧ Rest c d.dm0 d.dm1 ∧
      (Consumed start → Consumed d) ∧ d.enabled = false ∧ d.dm1.reps = 0 := by
  obtain ⟨c, before, ready, consumed⟩ := calls_idle generics calls
    (fun call member => sized call (List.mem_cons_of_mem k member)) start idle
  have reset : Idle (Core.fresh c.mem : Core R) := ⟨rfl, rfl⟩
  have same : c.mem = (Core.fresh c.mem : Core R).mem := rfl
  obtain ⟨d, e, runs, fresh, alike⟩ :=
    call_both generics k (sized k List.mem_cons_self) ready reset same
  obtain ⟨log, _, did, did', rfl, ends⟩ := alike.did
  have nothing : ({} : Log R) ++ log = log := rfl
  refine ⟨c, d, e, log, before, runs, fresh, alike.mem same_admits same, did.logged, ?_, ends,
    alike.movers, fun settled => rest_consumed alike.movers (consumed settled), did.off,
    alike.movers.once⟩
  exact did'.logged.trans nothing

def portableGemm : Generic fmt StreamedGemm.Args :=
  Generic.scalar fmt
    (fun a c => (List.range a.M.toNat).foldlM (fun c i =>
      StreamedGemm.columns fmt a (UInt32.ofNat i) 0 c) c)
    (by
      intro a rel lock c c' held
      apply Both.fold
      · exact held
      intro i _ c c' held
      apply Both.fold
      · exact held
      intro j _ c c' held
      exact column_both fmt lock held (UInt32.ofNat i) 0 j)

def portableConv2d : Generic fmt StreamedConv.Args :=
  Generic.scalar fmt
    (fun a c => (List.range a.F.toNat).foldlM (fun c f =>
      (List.range a.hOut.toNat).foldlM (fun c h => (List.range a.wOut.toNat).foldlM
        (StreamedConv.scalarPixel fmt a (UInt32.ofNat f) (UInt32.ofNat h)) c) c) c)
    (by
      intro a rel lock c c' held
      apply Both.fold
      · exact held
      intro f _ c c' held
      apply Both.fold
      · exact held
      intro h _ c c' held
      apply Both.fold
      · exact held
      intro w _ c c' held
      exact scalarPixel_both fmt lock held (UInt32.ofNat f) (UInt32.ofNat h) w)

end Calls

/-- The kernels that are not streamed, as plain loops. -/
def direct : Generics bytes := ⟨portableGemm, portableGemm, portableConv2d⟩

def three : List Call :=
  [.mfcc ⟨0, 1000, 2, 7, 4, 8, 100, 200, 300, 400, 500, 2, 600, 5, 2000⟩, .matMul 0 64 4000 2 3 4,
    .conv2d ⟨0, 1, 2, 1, 8, 5, 1, 1, 1, 1, 28, true, 64⟩]

theorem three_sized : ∀ call ∈ three, call.Sized := by
  have points : 8 * (8 : UInt32).toNat ≤ 2 ^ 32 := by decide
  have weights : 4 * ((1 : UInt32).toNat * (1 : UInt32).toNat * (1 : UInt32).toNat) ≤ 2 ^ 32 := by
    decide
  simp only [three, List.forall_mem_cons]
  exact ⟨points, trivial, weights, List.forall_mem_nil _⟩

theorem calls_do_not_leak_four :
    ∃ c d e : Core Int,
      three.foldlM (fun c k => k.run direct c) (Core.fresh fun _ => 3) = some c ∧
      Call.run direct (.gemm ⟨0, 64, 0, 4000, 2, 3, 9, 0, 1⟩) c = some d ∧
      Call.run direct (.gemm ⟨0, 64, 0, 4000, 2, 3, 9, 0, 1⟩) (Core.fresh c.mem) = some e ∧
      d.mem = e.mem ∧ d.log = c.log ++ e.log ∧ Consumed d := by
  have unarmed : Consumed (Core.fresh fun _ => 3 : Core Int) :=
    ⟨fun nonempty => absurd rfl nonempty, fun nonempty => absurd rfl nonempty⟩
  obtain ⟨c, d, e, log, before, runs, fresh, same, logged, alone, _, _, consumed, _⟩ :=
    calls_do_not_leak direct three (.gemm ⟨0, 64, 0, 4000, 2, 3, 9, 0, 1⟩)
      (List.forall_mem_cons.mpr ⟨trivial, three_sized⟩) (Core.fresh fun _ => 3) ⟨rfl, rfl⟩
  rw [← alone] at logged
  exact ⟨c, d, e, before, runs, fresh, same, logged, consumed unarmed⟩

end HeteroSim.StreamedCalls
