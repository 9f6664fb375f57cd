import HeteroSim.MfccStreams
import HeteroSim.StreamedConv
import HeteroSim.StreamedGemm

/-!
Each streamed kernel on two cores that agree on memory, but not on what their stream
registers hold. The kernel does the same on both, and takes every stream it arms to the
end: what it takes from a stream is a feed it programmed itself.
-/

namespace HeteroSim.KernelPairs

open SliceRun ParallelSlices StreamLoops SnitchSsr TwoRuns CoupledCores
open scoped UInt32.CommRing

section Pairs

variable {R : Type} [CommRing R] (fmt : Format R)

/-! ### Two cores that do the same -/

/-- The same was done, and the streams were as they should be after each region. -/
structure Same (ok : Bool × Bool → Prop) (l l' : Log R) : Prop where
  log : l = l'
  ends : ∀ e ∈ l.ends, ok e

variable {ok : Bool × Bool → Prop}

omit [CommRing R] in
theorem Same.append {l l' m : Log R} (same : Same ok l l') (more : ∀ e ∈ m.ends, ok e) :
    Same ok (l ++ m) (l' ++ m) where
  log := by rw [same.log]
  ends e member := by
    rcases List.mem_append.mp member with first | second
    · exact same.ends e first
    · exact more e second

omit [CommRing R] in
theorem same_admits : Admits (fun _ => True) (@Same R ok) where
  stores same := by rw [same.log]
  store same p v _ := same.append (by simp)
  product same t := same.append (by simp)

variable {start start' c c' d d' : Core R} {movers movers' more more' : Mover → Mover → Prop}

omit [CommRing R] in
theorem same_next (alike : Coupled fmt start start' (Same ok) movers movers' c c') {log : Log R}
    (first : Did fmt c d log) (second : Did fmt c' d' log) (ends : ∀ e ∈ log.ends, ok e)
    (held : more d.dm0 d.dm1) (held' : more' d'.dm0 d'.dm1) :
    Coupled fmt start start' (Same ok) more more' d d' :=
  alike.next first second (fun _ _ same => same.append ends) held held'

theorem same_lockstep (same : start.mem = start'.mem) :
    Lockstep fmt (fun _ => True) (Coupled fmt start start' (Same ok) movers movers') :=
  coupled_lockstep same_admits same

/-- A kernel that was called with `start` leaves `ft1` giving elements once, and each
stream as it was or at its end. -/
structure Rest (start : Core R) (m0 m1 : Mover) : Prop where
  once : m1.reps = 0
  streams : m0.stream = start.dm0.stream ∧ m1.stream = start.dm1.stream ∨
    m0.stream.ended = true ∧ m1.stream.ended = true

omit [CommRing R] in
theorem spent_rest {m0 m1 : Mover} (spent : Spent m0 m1) : Rest start m0 m1 :=
  ⟨spent.once, Or.inr ⟨spent.ended, spent.ended'⟩⟩

/-- The movers stand at element `t` of two feeds. -/
structure Standing (f0 f1 : Feed) (t : Nat) (m0 m1 : Mover) : Prop where
  first : Feeds m0 f0 t
  second : Feeds m1 f1 t

theorem ended_exact {m : Mover} {f : Feed} {t : Nat} (feeds : Feeds m f t) :
    m.stream.ended = decide (f.count ≤ t) := by
  by_cases all : f.count ≤ t
  · rw [decide_eq_true all]
    exact feeds_ended feeds all
  · rw [decide_eq_false all]
    exact (feeds.taken.going (Nat.lt_of_not_le all)).1

theorem region_both (same : start.mem = start'.mem) {f0 f1 : Feed} {t : Nat}
    (alike : Coupled fmt start start' (Same ok) (Standing f0 f1 t) (Standing f0 f1 t) c c')
    (outputs : Nat → Nat) (acc : Nat → R) (len : Nat) (rpt : UInt32)
    (more0 : t + (rpt.toNat + 1) * len ≤ f0.count) (more1 : t + (rpt.toNat + 1) * len ≤ f1.count)
    (fine : ok (decide (f0.count ≤ t + (rpt.toNat + 1) * len),
      decide (f1.count ≤ t + (rpt.toNat + 1) * len))) :
    Both (fun st st' => Coupled fmt start start' (Same ok)
        (Standing f0 f1 (t + (rpt.toNat + 1) * len)) (Standing f0 f1 (t + (rpt.toNat + 1) * len))
        st.1 st'.1 ∧ ∀ v < len, st.2 v = st'.2 v)
      (streamed fmt outputs len rpt (c, acc)) (streamed fmt outputs len rpt (c', acc)) := by
  have seen : c.mem = c'.mem := alike.mem same_admits same
  obtain ⟨d, sums, runs, did, next0, next1, values⟩ := streamed_runs fmt f0 f1 outputs acc len rpt
    alike.movers.first alike.movers.second more0 more1
  obtain ⟨d', sums', runs', did', next0', next1', values'⟩ := streamed_runs fmt f0 f1 outputs acc
    len rpt alike.movers'.first alike.movers'.second more0 more1
  rw [ended_exact next0, ended_exact next1] at did
  rw [ended_exact next0', ended_exact next1'] at did'
  refine ⟨_, _, runs, runs', same_next fmt alike did did' ?_ ⟨next0, next1⟩ ⟨next0', next1'⟩, ?_⟩
  · intro e member
    rw [List.mem_singleton.mp member]
    exact fine
  · intro v inside
    show sums v = sums' v
    rw [values v inside, values' v inside, seen]

/-- The kernel that a streamed one replaces: it uses no stream, so memory tells what it
does. -/
structure Generic (Args : Type) where
  run : Args → Core R → Option (Core R)
  log : Args → Mem → Log R
  runs : ∀ a c, c.enabled = false →
    ∃ c', run a c = some c' ∧ Did fmt c c' (log a c.mem) ∧ Kept c c'
  streamless : ∀ a mem, (log a mem).ends = []

omit [CommRing R] in
theorem generic_both {Args : Type} (generic : Generic fmt Args) (a : Args)
    (same : start.mem = start'.mem)
    (alike : Coupled fmt start start' (Same ok) movers movers' c c') :
    Both (Coupled fmt start start' (Same ok) movers movers') (generic.run a c)
      (generic.run a c') := by
  obtain ⟨off, off'⟩ := alike.off
  obtain ⟨d, runs, did, kept⟩ := generic.runs a c off
  obtain ⟨d', runs', did', kept'⟩ := generic.runs a c' off'
  rw [← alike.mem same_admits same] at did'
  refine ⟨d, d', runs, runs', same_next fmt alike did did' ?_ ?_ ?_⟩
  · simp [generic.streamless]
  · rw [kept.dm0, kept.dm1]
    exact alike.movers
  · rw [kept'.dm0, kept'.dm1]
    exact alike.movers'

def Generic.scalar {Args : Type} (run : Args → Core R → Option (Core R))
    (keeps : ∀ a rel, Lockstep fmt (fun _ => True) rel → ∀ c c', rel c c' →
      Both rel (run a c) (run a c')) : Generic fmt Args where
  run := run
  log a mem :=
    match run a (Core.fresh mem) with
    | some d => d.log
    | none => {}
  runs a c off := by
    have lock := @same_lockstep R _ fmt (fun _ => False) c (Core.fresh c.mem)
      (fun m0 m1 => m0 = c.dm0 ∧ m1 = c.dm1) (fun _ _ => True) rfl
    have both := keeps a _ lock c (Core.fresh c.mem)
      ⟨⟨{}, {}, did_nothing fmt off, did_nothing fmt rfl, rfl, by simp⟩, ⟨rfl, rfl⟩, trivial⟩
    obtain ⟨d, e, ended, fresh, alike⟩ := both
    obtain ⟨l, _, did, did', rfl, _⟩ := alike.did
    have logged : e.log = l := did'.logged
    rw [fresh]
    refine ⟨d, ended, ?_, alike.movers.1, alike.movers.2⟩
    show Did fmt c d e.log
    rw [logged]
    exact did
  streamless a mem := by
    have lock := @same_lockstep R _ fmt (fun _ => False) (Core.fresh mem) (Core.fresh mem)
      (fun _ _ => True) (fun _ _ => True) rfl
    have both := keeps a _ lock (Core.fresh mem) (Core.fresh mem)
      ⟨⟨{}, {}, did_nothing fmt rfl, did_nothing fmt rfl, rfl, by simp⟩, trivial, trivial⟩
    obtain ⟨d, _, ended, _, alike⟩ := both
    obtain ⟨l, _, did, _, rfl, none⟩ := alike.did
    have logged : d.log = l := did.logged
    rw [ended]
    show d.log.ends = []
    rw [logged]
    exact List.eq_nil_iff_forall_not_mem.mpr none

/-! ### Gemm and MatMul -/

section Gemm

open StreamedGemm

variable (same : start.mem = start'.mem) {a : StreamedGemm.Args}

omit same in
theorem column_both {rel : Core R → Core R → Prop} (lock : Lockstep fmt (fun _ => True) rel)
    (held : rel c c') (i first : UInt32) (d : Nat) :
    Both rel (StreamedGemm.column fmt a i first c d) (StreamedGemm.column fmt a i first c' d) := by
  apply Both.bind (lock.sum held _ a.N.toNat (fun k => k)
    (fun k => cell a.A (a.aIdx i (UInt32.ofNat k)))
    (fun k => cell a.B (a.bIdx (UInt32.ofNat k) (first + UInt32.ofNat d))) 0)
  rintro ⟨e, sum⟩ ⟨e', _⟩ ⟨held, rfl⟩
  apply Both.bind (lock.scalar held fun mem =>
    if a.C ≠ 0 then sum + load fmt mem (cell a.C (i * a.O + (first + UInt32.ofNat d))) else sum)
  rintro v _ ⟨rfl, _⟩
  exact lock.store held _ v trivial

/-- The streams of a Gemm before element `t`. -/
abbrev GemmPair (start start' : Core R) (a : StreamedGemm.Args) (t : Nat) : Core R →
    Core R → Prop :=
  Coupled fmt start start' (Same fun _ => True) (Standing a.feedA a.feedB t)
    (Standing a.feedA a.feedB t)

include same

theorem block_both {t : Nat} (alike : GemmPair fmt start start' a t c c') (i j : UInt32) (b : Nat)
    (terms : 0 < a.N.toNat) (more0 : t + a.N.toNat * 8 ≤ a.feedA.count)
    (more1 : t + a.N.toNat * 8 ≤ a.feedB.count) :
    Both (fun st st' => GemmPair fmt start start' a (t + a.N.toNat * 8) st.1 st'.1 ∧ st.2 = st'.2)
      (block fmt a i (c, j) b) (block fmt a i (c', j) b) := by
  have counts : (a.N - 1).toNat + 1 = a.N.toNat := count_exact terms
  have lock := @same_lockstep R _ fmt (fun _ => True) start start' (Standing a.feedA a.feedB t)
    (Standing a.feedA a.feedB t) same
  apply Both.bind (lock.scalar alike fun mem (u : Nat) =>
    if a.C ≠ 0 then load fmt mem (cell (cell a.C (i * a.O + j)) (UInt32.ofNat u)) else 0)
  rintro acc _ ⟨rfl, _⟩
  have region := region_both fmt same alike (fun u => (i * a.O + j).toNat + u) acc 8 (a.N - 1)
    (by rwa [counts]) (by rwa [counts]) trivial
  rw [counts] at region
  apply Both.bind region
  rintro ⟨d, sums⟩ ⟨d', sums'⟩ ⟨alike, agree⟩
  apply Both.bind ((same_lockstep fmt same).stores alike 8
    (fun u => cell (cell a.Y (i * a.O + j)) (UInt32.ofNat u)) sums sums' (fun _ _ => trivial) agree)
  intro e e' alike
  exact Both.done ⟨alike, rfl⟩

theorem row_both (rows : 0 < a.M.toNat) (terms : 0 < a.N.toNat) (several : 0 < a.blocks.toNat)
    {i : Nat} (below : i < a.M.toNat) (alike : GemmPair fmt start start' a (a.nth i 0 0 0) c c') :
    Both (GemmPair fmt start start' a (a.nth (i + 1) 0 0 0)) (StreamedGemm.row fmt a c i)
      (StreamedGemm.row fmt a c' i) := by
  have blocks := @Both.turns (Core R × UInt32) (Core R × UInt32)
    (fun b st st' => GemmPair fmt start start' a (a.nth i b 0 0) st.1 st'.1 ∧ st.2 = st'.2)
    (block fmt a (UInt32.ofNat i)) (block fmt a (UInt32.ofNat i)) a.blocks.toNat (c, 0) (c', 0)
    ⟨alike, rfl⟩
    (by
      rintro b inner ⟨c, j⟩ ⟨c', _⟩ ⟨alike, rfl⟩
      -- A block takes what its place in the count leaves room for.
      have inside := nth_inside below inner
      rw [← nth_block] at inside ⊢
      exact block_both fmt same alike (UInt32.ofNat i) j b terms
        (inside.trans_eq (count_a rows terms several).symm)
        (inside.trans_eq (count_b rows terms several).symm))
  apply Both.bind blocks
  rintro ⟨d, j⟩ ⟨d', _⟩ ⟨alike, rfl⟩
  rw [nth_row] at alike
  apply Both.fold
  · exact alike
  intro k _ d d' alike
  exact column_both fmt (same_lockstep fmt same) alike (UInt32.ofNat i) j k

theorem gemmSsr_both (shape : ¬ (a.M = 0 ∨ a.N = 0 ∨ a.O < unroll))
    (alike : Coupled fmt start start' (Same fun _ => True) (Rest start) (Rest start') c c') :
    Both (Coupled fmt start start' (Same fun _ => True) (Rest start) (Rest start'))
      (gemmSsr fmt a c) (gemmSsr fmt a c') := by
  have positive (x : UInt32) (nonempty : x ≠ 0) : 0 < x.toNat :=
    Nat.pos_of_ne_zero fun zero => nonempty (UInt32.toNat_inj.mp zero)
  push Not at shape
  obtain ⟨rows, terms, wide⟩ := shape
  have rows := positive a.M rows
  have terms := positive a.N terms
  have several : 0 < a.blocks.toNat := by
    rw [blocks_exact]
    exact Nat.div_pos (UInt32.le_iff_toNat_le.mp (UInt32.not_lt.mp wide)) (by decide)
  obtain ⟨off, off'⟩ := alike.off
  have armed : GemmPair fmt start start' a (a.nth 0 0 0 0) (arm a c) (arm a c') := by
    have nothing : a.nth 0 0 0 0 = 0 := by simp [Args.nth]
    rw [nothing]
    exact same_next fmt alike (set_did off _ _) (set_did off' _ _) (by simp)
      ⟨armed_a a c, armed_b a c alike.movers.once⟩ ⟨armed_a a c', armed_b a c' alike.movers'.once⟩
  have all := @Both.turns (Core R) (Core R)
    (fun i d d' => GemmPair fmt start start' a (a.nth i 0 0 0) d d')
    (StreamedGemm.row fmt a) (StreamedGemm.row fmt a) a.M.toNat (arm a c) (arm a c') armed
    (fun i below d d' alike => row_both fmt same rows terms several below alike)
  apply Both.weaken all
  intro d d' alike
  have rest (core : Core R) {m0 m1 : Mover} (standing : Standing a.feedA a.feedB
      (a.nth a.M.toNat 0 0 0) m0 m1) : Rest core m0 m1 := by
    constructor
    · exact @feeds_reps _ _ _ standing.second 1 rfl
    · exact Or.inr ⟨feeds_ended standing.first (count_a rows terms several).le,
        feeds_ended standing.second (count_b rows terms several).le⟩
  exact ⟨alike.did, rest start alike.movers, rest start' alike.movers'⟩

end Gemm

/-! ### Conv2d -/

section Conv

open StreamedConv

variable {a : StreamedConv.Args}

structure Ready (a : StreamedConv.Args) (start : Core R) (m0 m1 : Mover) : Prop where
  window : Programmed m0 a.programA 3
  weights : Programmed m1 a.programB 0
  rest : Rest start m0 m1

abbrev ConvPair (start start' : Core R) (a : StreamedConv.Args) : Core R → Core R → Prop :=
  Coupled fmt start start' (Same (· = (true, true))) (Ready a start) (Ready a start')

variable {rel : Core R → Core R → Prop}

theorem deliver_both (lock : Lockstep fmt (fun _ => True) rel) (held : rel c c') (p f : UInt32)
    (v : R) : Both rel (deliver fmt a p f v c) (deliver fmt a p f v c') := by
  apply Both.bind (lock.scalar held fun mem =>
    if a.hasBias then v + load fmt mem (cell a.bias f) else v)
  rintro w _ ⟨rfl, _⟩
  exact lock.store held p w trivial

theorem scalarPixel_both (lock : Lockstep fmt (fun _ => True) rel) (held : rel c c')
    (f h : UInt32) (w : Nat) :
    Both rel (scalarPixel fmt a f h c w) (scalarPixel fmt a f h c' w) := by
  apply @Both.bind _ _ _ _ fun (st st' : Core R × R) => rel st.1 st'.1 ∧ st.2 = st'.2
  · apply Both.fold
    · exact ⟨held, rfl⟩
    intro ch _ st st' held
    apply Both.fold
    · exact held
    intro p _ st st' held
    apply Both.fold
    · exact held
    rintro q _ ⟨c, sum⟩ ⟨c', _⟩ ⟨held, rfl⟩
    exact lock.product held _ _ _ _ sum
  · rintro ⟨d, sum⟩ ⟨d', _⟩ ⟨held, rfl⟩
    exact deliver_both fmt lock held _ f sum

section Pixels

variable (same : start.mem = start'.mem) (channels : 0 < a.C.toNat) (rows : 0 < a.P.toNat)
  (columns : 0 < a.Q.toNat) (exact : a.taps.toNat = a.window)

include same channels rows columns exact

theorem pixel_both (alike : ConvPair fmt start start' a c c') (f h : UInt32) (w : Nat) :
    Both (ConvPair fmt start start' a) (pixel fmt a f h c w) (pixel fmt a f h c' w) := by
  have nonempty : 0 < a.window := Nat.mul_pos (Nat.mul_pos channels rows) columns
  have turns : (a.taps - 1).toNat + 1 = a.window := by
    rw [count_exact (nonempty.trans_eq exact.symm), exact]
  obtain ⟨off, off'⟩ := alike.off
  apply Both.bind ((same_lockstep fmt same).scalar alike fun _ (_ : Nat) => (0 : R))
  rintro acc _ ⟨rfl, _⟩
  have count0 (p : UInt32) : Feed.count ⟨3, a.programA, p⟩ = a.window * 4 :=
    count_a channels rows columns 0
  have count1 (p : UInt32) : Feed.count ⟨0, a.programB, p⟩ = a.window * 4 :=
    StreamedConv.count_b nonempty exact 0
  have region := region_both fmt same
    (c := { c with
      dm0 := c.dm0.read 2 (cell a.A (h * a.SP * a.W + UInt32.ofNat w * a.SQ))
      dm1 := c.dm1.read 1 (cell a.B (f * a.taps)) })
    (same_next fmt alike (set_did off _ _) (set_did off' _ _) (by simp)
      ⟨read_feeds alike.movers.window rfl _, read_feeds alike.movers.weights rfl _⟩
      ⟨read_feeds alike.movers'.window rfl _, read_feeds alike.movers'.weights rfl _⟩)
    (fun u => (f * a.hOut * a.wOut + h * a.wOut + UInt32.ofNat w + UInt32.ofNat u * a.plane).toNat)
    acc 4 (a.taps - 1) (by rw [turns, count0, Nat.zero_add]) (by rw [turns, count1, Nat.zero_add])
    (by rw [turns, count0, count1, Nat.zero_add, decide_eq_true (Nat.le_refl _)])
  rw [turns, Nat.zero_add] at region
  apply Both.bind region
  rintro ⟨d, sums⟩ ⟨d', sums'⟩ ⟨alike, agree⟩
  have ready (core : Core R) {p q : UInt32} {m0 m1 : Mover} (standing : Standing ⟨3, a.programA, p⟩
      ⟨0, a.programB, q⟩ (a.window * 4) m0 m1) : Ready a core m0 m1 := by
    refine ⟨standing.first.programmed, standing.second.programmed, ?_, Or.inr ⟨?_, ?_⟩⟩
    · exact @feeds_reps _ _ _ standing.second 1 rfl
    · exact feeds_ended standing.first (count0 p).le
    · exact feeds_ended standing.second (count1 q).le
  have between : ConvPair fmt start start' a d d' :=
    ⟨alike.did, ready start alike.movers, ready start' alike.movers'⟩
  apply Both.fold
  · exact between
  intro u member e e' alike
  have sum : sums u = sums' u := agree u (List.mem_range.mp member)
  rw [← sum]
  exact deliver_both fmt (same_lockstep fmt same) alike _ _ (sums u)

end Pixels

theorem conv2d_both (same : start.mem = start'.mem) (generic : Generic fmt StreamedConv.Args)
    (addressed : a.window < 2 ^ 32)
    (alike : Coupled fmt start start' (Same (· = (true, true))) (Rest start) (Rest start') c c') :
    Both (Coupled fmt start start' (Same (· = (true, true))) (Rest start) (Rest start'))
      (conv2dFp32 fmt a generic.run c) (conv2dFp32 fmt a generic.run c') := by
  have exact : a.taps.toNat = a.window := exact_of_cast (window_cast a) addressed
  apply Both.ite
  · exact fun _ => generic_both fmt generic a same alike
  intro shape
  have nonempty : a.window ≠ 0 := by
    intro none
    exact shape (Or.inr (Or.inl (UInt32.toNat_inj.mp (exact.trans none))))
  obtain ⟨several, columns⟩ : a.C.toNat * a.P.toNat ≠ 0 ∧ a.Q.toNat ≠ 0 :=
    Nat.mul_ne_zero_iff.mp nonempty
  obtain ⟨channels, rows⟩ : a.C.toNat ≠ 0 ∧ a.P.toNat ≠ 0 := Nat.mul_ne_zero_iff.mp several
  obtain ⟨off, off'⟩ := alike.off
  have ready : ConvPair fmt start start' a (arm a c) (arm a c') := by
    obtain ⟨window, weights⟩ := armed (a := a) c alike.movers.once
    obtain ⟨window', weights'⟩ := armed (a := a) c' alike.movers'.once
    refine same_next fmt alike (set_did off _ _) (set_did off' _ _) (by simp)
      ⟨window, weights, ?_, alike.movers.streams⟩ ⟨window', weights', ?_, alike.movers'.streams⟩
    · exact UInt32.toNat_inj.mp weights.reps
    · exact UInt32.toNat_inj.mp weights'.reps
  have groups : Both (ConvPair fmt start start' a)
      ((List.range a.groups.toNat).foldlM (group fmt a) (arm a c))
      ((List.range a.groups.toNat).foldlM (group fmt a) (arm a c')) := by
    apply Both.fold
    · exact ready
    intro g _ c c' alike
    apply Both.fold
    · exact alike
    intro h _ c c' alike
    apply Both.fold
    · exact alike
    intro w _ c c' alike
    exact pixel_both fmt same (Nat.pos_of_ne_zero channels) (Nat.pos_of_ne_zero rows)
      (Nat.pos_of_ne_zero columns) exact alike _ _ w
  apply Both.bind groups
  intro d d' alike
  have rested : Coupled fmt start start' (Same (· = (true, true))) (Rest start)
    (Rest start') d d' :=
    ⟨alike.did, alike.movers.rest, alike.movers'.rest⟩
  apply Both.fold
  · exact rested
  intro g _ c c' alike
  apply Both.fold
  · exact alike
  intro h _ c c' alike
  apply Both.fold
  · exact alike
  intro w _ c c' alike
  exact scalarPixel_both fmt (same_lockstep fmt same) alike _ _ w

end Conv

/-! ### Mfcc -/

section Mfcc

open MfccKernels MfccSpectrum MfccStreams

variable (same : start.mem = start'.mem) {a : MfccKernels.Args}

abbrev MfccPair (start start' : Core R) : Core R → Core R → Prop :=
  Coupled fmt start start' (Same (· = (true, true))) (Rest start) (Rest start')

structure Dct (start : Core R) (m0 m1 : Mover) : Prop where
  repeats : Repeats m0 m1
  rest : Rest start m0 m1

omit [CommRing R] in
theorem rest_next {m0 m1 : Mover} (rest : Rest start m0 m1) {n0 n1 : Mover}
    (next : (n0 = m0 ∧ n1 = m1) ∨ Spent n0 n1) : Rest start n0 n1 := by
  rcases next with ⟨rfl, rfl⟩ | spent
  · exact rest
  · exact spent_rest spent

omit [CommRing R] in
theorem energyLog_ends (m : Nat) (power coeff : UInt32) (len : Nat) :
    ∀ e ∈ (energyLog m power coeff len : Log R).ends, e = (true, true) := by
  intro e member
  by_cases short : len / 4 = 0
  · rw [energyLog, if_pos short] at member
    cases member
  · rw [energyLog, if_neg short] at member
    exact List.mem_singleton.mp member

include same

theorem filterSsr_both (alike : MfccPair fmt start start' c c') (off : UInt32) (m : Nat) :
    Both (fun st st' => MfccPair fmt start start' st.1 st'.1 ∧ st.2 = st'.2)
      (filter fmt a (energySsr fmt a) (c, off) m) (filter fmt a (energySsr fmt a) (c', off) m) := by
  have lock := @same_lockstep R _ fmt (· = (true, true)) start start' (Rest start)
    (Rest start') same
  obtain ⟨still, still'⟩ := alike.off
  have seen : c'.mem = c.mem := (lock.mem alike).symm
  have energies : Both (fun st st' => MfccPair fmt start start' st.1 st'.1 ∧ st.2 = st'.2)
      (energySsr fmt a m (UInt32.ofNat (halves c.mem a.melStart m)) off
        (UInt32.ofNat (halves c.mem a.melLen m)) c)
      (energySsr fmt a m (UInt32.ofNat (halves c'.mem a.melStart m)) off
        (UInt32.ofNat (halves c'.mem a.melLen m)) c') := by
    rw [seen]
    obtain ⟨d, runs, did, rested⟩ := melEnergy_runs fmt m
      (cell a.re (UInt32.ofNat (halves c.mem a.melStart m))) (cell a.melCoeff off)
      (UInt32.ofNat (halves c.mem a.melLen m)) still
    obtain ⟨d', runs', did', rested'⟩ := melEnergy_runs fmt m
      (cell a.re (UInt32.ofNat (halves c.mem a.melStart m))) (cell a.melCoeff off)
      (UInt32.ofNat (halves c.mem a.melLen m)) still'
    rw [seen] at runs'
    refine ⟨_, _, runs, runs', same_next fmt alike did did' (energyLog_ends _ _ _ _) ?_ ?_, rfl⟩
    · exact rest_next alike.movers (rested.imp_left fun kept => ⟨kept.dm0, kept.dm1⟩)
    · exact rest_next alike.movers' (rested'.imp_left fun kept => ⟨kept.dm0, kept.dm1⟩)
  apply Both.bind energies
  rintro ⟨d, sum⟩ ⟨d', _⟩ ⟨alike, rfl⟩
  apply Both.bind (lock.scalar alike fun _ => fmt.logFloored sum)
  rintro v _ ⟨rfl, _⟩
  apply Both.bind (lock.store alike (cell a.mel (UInt32.ofNat m)) v trivial)
  intro e e' alike
  refine Both.done ⟨alike, ?_⟩
  rw [seen]

theorem cepBlock_both (bands : 0 < a.nbMel.toNat) (t n : UInt32) (b : Nat)
    (alike : Coupled fmt start start' (Same (· = (true, true))) (Dct start) (Dct start') c c') :
    Both (fun st st' => Coupled fmt start start' (Same (· = (true, true))) (Dct start) (Dct start')
        st.1 st'.1 ∧ st.2 = st'.2)
      (cepBlock fmt a t (c, n) b) (cepBlock fmt a t (c', n) b) := by
  obtain ⟨still, still'⟩ := alike.off
  obtain ⟨d, runs, did, repeats, spent⟩ := cepBlock_runs fmt a t n b still bands
    alike.movers.repeats
  obtain ⟨d', runs', did', repeats', spent'⟩ := cepBlock_runs fmt a t n b still' bands
    alike.movers'.repeats
  rw [← alike.mem same_admits same] at did'
  refine ⟨_, _, runs, runs', same_next fmt alike did did' ?_ ⟨repeats, spent_rest spent⟩
    ⟨repeats', spent_rest spent'⟩, rfl⟩
  intro e member
  exact List.mem_singleton.mp member

theorem cepstraSsr_both (bands : 0 < a.nbMel.toNat) (t : UInt32)
    (alike : MfccPair fmt start start' c c') :
    Both (MfccPair fmt start start') (cepstraSsr fmt a t c) (cepstraSsr fmt a t c') := by
  obtain ⟨still, still'⟩ := alike.off
  have blocks : Both (fun st st' => MfccPair fmt start start' st.1 st'.1 ∧ st.2 = st'.2)
      (if a.cepBlocks = 0 then c.scalar (c, (0 : UInt32))
        else (List.range a.cepBlocks.toNat).foldlM (cepBlock fmt a t) (repeated c, 0))
      (if a.cepBlocks = 0 then c'.scalar (c', (0 : UInt32))
        else (List.range a.cepBlocks.toNat).foldlM (cepBlock fmt a t) (repeated c', 0)) := by
    apply Both.ite
    · intro _
      rw [scalar_off still, scalar_off still']
      exact Both.done ⟨alike, rfl⟩
    · intro _
      have dct {core d : Core R} (rest : Rest core d.dm0 d.dm1) :
          Dct core (repeated d).dm0 (repeated d).dm1 := by
        obtain ⟨first, second⟩ := repeated_streams d
        refine ⟨repeated_repeats d, (repeated_repeats d).rows, ?_⟩
        rw [first, second]
        exact rest.streams
      have ready : Coupled fmt start start' (Same (· = (true, true))) (Dct start) (Dct start')
          (repeated c) (repeated c') :=
        same_next fmt alike (repeated_did fmt still) (repeated_did fmt still') (by simp)
          (dct alike.movers) (dct alike.movers')
      have all := @Both.fold (Core R × UInt32) (Core R × UInt32) Nat
        (fun st st' => Coupled fmt start start' (Same (· = (true, true))) (Dct start) (Dct start')
          st.1 st'.1 ∧ st.2 = st'.2)
        (cepBlock fmt a t) (cepBlock fmt a t) (List.range a.cepBlocks.toNat)
        (repeated c, 0) (repeated c', 0) ⟨ready, rfl⟩ (by
          rintro b _ ⟨c, n⟩ ⟨c', _⟩ ⟨alike, rfl⟩
          exact cepBlock_both fmt same bands t n b alike)
      apply Both.weaken all
      rintro ⟨d, n⟩ ⟨d', _⟩ ⟨alike, rfl⟩
      exact ⟨⟨alike.did, alike.movers.rest, alike.movers'.rest⟩, rfl⟩
  apply Both.bind blocks
  rintro ⟨d, n⟩ ⟨d', _⟩ ⟨alike, rfl⟩
  apply Both.fold
  · exact alike
  intro i _ d d' alike
  exact cepstrum_both (same_lockstep fmt same) alike t (n + UInt32.ofNat i) trivial

theorem mfcc_both (points : a.fftLen.toNat < 2 ^ 31) (alike : MfccPair fmt start start' c c') :
    Both (MfccPair fmt start start') (mfccFp32 fmt a c) (mfccFp32 fmt a c') := by
  have spots : SpectrumSpots (fun _ => True) a := by
    obtain ⟨passes, ends⟩ := lens_ends points 32 1 (by omega) rfl
    exact ⟨fun _ _ => ⟨trivial, trivial⟩, ⟨fun _ _ => ⟨⟨trivial, trivial⟩, trivial, trivial⟩,
      passes, ends, fun _ _ _ _ => ⟨⟨trivial, trivial⟩, trivial, trivial⟩⟩, fun _ _ => trivial⟩
  apply Both.ite
  · exact fun _ => Both.done alike
  intro shape
  have bands : 0 < a.nbMel.toNat := by
    apply Nat.pos_of_ne_zero
    intro none
    exact shape (Or.inr (Or.inl (UInt32.toNat_inj.mp none)))
  apply Both.fold
  · exact alike
  intro t _ c c' alike
  apply Both.bind (spectrum_both (same_lockstep fmt same) alike spots (UInt32.ofNat t))
  intro c c' alike
  have filters : Both (fun st st' => MfccPair fmt start start' st.1 st'.1 ∧ st.2 = st'.2)
      ((List.range a.nbMel.toNat).foldlM (filter fmt a (energySsr fmt a)) (c, 0))
      ((List.range a.nbMel.toNat).foldlM (filter fmt a (energySsr fmt a)) (c', 0)) := by
    apply Both.fold
    · exact ⟨alike, rfl⟩
    rintro m _ ⟨c, off⟩ ⟨c', _⟩ ⟨alike, rfl⟩
    exact filterSsr_both fmt same alike off m
  have bank : Both (MfccPair fmt start start') (filterbank fmt a (energySsr fmt a) c)
      (filterbank fmt a (energySsr fmt a) c') := by
    apply Both.bind filters
    rintro ⟨d, off⟩ ⟨d', _⟩ ⟨alike, _⟩
    exact Both.done alike
  apply Both.bind bank
  intro c c' alike
  exact cepstraSsr_both fmt same bands (UInt32.ofNat t) alike

end Mfcc

end Pairs

end HeteroSim.KernelPairs
