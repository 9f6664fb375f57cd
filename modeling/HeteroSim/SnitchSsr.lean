import HeteroSim.ParallelSlices
import HeteroSim.StreamLoops
import Mathlib.Data.UInt

/-!
Snitch's stream registers and its floating-point repetition, as the kernels use
them: the two data movers, `frep.o` over a body of multiply-adds, loads and stores
of numbers. Which elements a multiply-add was given is logged.
-/

namespace HeteroSim.SnitchSsr

open SliceRun ParallelSlices StreamLoops
open scoped UInt32.CommRing

/-! ### Data movers -/

/-- The configuration registers of a data mover, and its stream. -/
structure Mover where
  bounds : Nat → UInt32
  strides : Nat → UInt32
  reps : UInt32
  stream : Stream UInt32

def setAt {α : Type} (f : Nat → α) (i : Nat) (v : α) : Nat → α :=
  fun j => if j = i then v else f j

/-- `ssr_loop_*`: iteration counts and byte strides, outermost last. `a` is what the
loops before level `i` travel. -/
def Mover.loops (m : Mover) (i : Nat) (a : UInt32) : List (UInt32 × UInt32) → Mover
  | [] => m
  | (b, s) :: rest =>
      Mover.loops
        { m with bounds := setAt m.bounds i (b - 1), strides := setAt m.strides i (s - a) }
        (i + 1) (a + s * (b - 1)) rest

def Mover.loop1d (m : Mover) (b0 s0 : UInt32) : Mover :=
  { m with bounds := setAt m.bounds 0 (b0 - 1), strides := setAt m.strides 0 s0 }

def Mover.loop2d (m : Mover) (b0 b1 s0 s1 : UInt32) : Mover := m.loops 0 0 [(b0, s0), (b1, s1)]

def Mover.loop3d (m : Mover) (b0 b1 b2 s0 s1 s2 : UInt32) : Mover :=
  m.loops 0 0 [(b0, s0), (b1, s1), (b2, s2)]

def Mover.loop4d (m : Mover) (b0 b1 b2 b3 s0 s1 s2 s3 : UInt32) : Mover :=
  m.loops 0 0 [(b0, s0), (b1, s1), (b2, s2), (b3, s3)]

/-- `ssr_repeat`. -/
def Mover.repeats (m : Mover) (count : UInt32) : Mover := { m with reps := count - 1 }

/-- Loop level `i` as a stream starts it. -/
def Mover.level (m : Mover) (i : Nat) : Level UInt32 :=
  { bound := (m.bounds i).toNat, step := m.strides i, index := 0 }

/-- `ssr_read`: the pointer arms the stream. `dim` is the dimension less one. -/
def Mover.read (m : Mover) (dim : Nat) (ptr : UInt32) : Mover :=
  { m with
    stream :=
      { levels := (List.range (dim + 1)).map m.level
        address := ptr
        repeats := m.reps.toNat } }

def nest (program : List (UInt32 × UInt32)) : Nest UInt32 :=
  program.map fun loop => ((loop.1 - 1).toNat, loop.2)

/-- The registers hold a nest, of which each element is given `repeats` times more. -/
structure Programmed (m : Mover) (program : List (UInt32 × UInt32)) (repeats : Nat) : Prop where
  reps : m.reps.toNat = repeats
  levels : (List.range program.length).map m.level = levels 0 (nest program) 0

theorem loops_below (program : List (UInt32 × UInt32)) (m : Mover) (i : Nat) (a : UInt32) {j : Nat}
    (below : j < i) : (m.loops i a program).level j = m.level j := by
  induction program generalizing m i a with
  | nil => rfl
  | cons loop rest ih =>
      rw [Mover.loops, ih _ _ _ (Nat.lt_succ_of_lt below)]
      simp [Mover.level, setAt, Nat.ne_of_lt below]

theorem loops_levels (program : List (UInt32 × UInt32)) (m : Mover) (i : Nat) (a : UInt32) :
    (List.range' i program.length).map (m.loops i a program).level =
      levels a (nest program) 0 := by
  induction program generalizing m i a with
  | nil => rfl
  | cons loop rest ih =>
      obtain ⟨b, s⟩ := loop
      have last : (((b - 1).toNat : Nat) : UInt32) = b - 1 := UInt32.ofNat_toNat
      rw [List.length_cons, List.range'_succ, List.map_cons, Mover.loops, ih,
        loops_below _ _ _ _ (Nat.lt_succ_self i)]
      simp [nest, levels, Mover.level, setAt, last]

theorem loops_programmed (m : Mover) (program : List (UInt32 × UInt32)) :
    Programmed (m.loops 0 0 program) program m.reps.toNat where
  reps := by
    have same : ∀ (loops : List (UInt32 × UInt32)) (i : Nat) (a : UInt32) (m : Mover),
        (m.loops i a loops).reps = m.reps := by
      intro loops
      induction loops with
      | nil => exact fun _ _ _ => rfl
      | cons loop rest ih => exact fun i a m => ih _ _ _
    rw [same]
  levels := by
    rw [List.range_eq_range']
    exact loops_levels program m 0 0

theorem repeats_programmed {m : Mover} {program : List (UInt32 × UInt32)} {repeats : Nat}
    (programmed : Programmed m program repeats) (count : UInt32) :
    Programmed (m.repeats count) program (count - 1).toNat :=
  ⟨rfl, programmed.levels⟩

theorem read_taken {m : Mover} {program : List (UInt32 × UInt32)} {repeats dim : Nat}
    (programmed : Programmed m program repeats) (depth : program.length = dim + 1)
    (ptr : UInt32) : Taken (m.read dim ptr).stream repeats (nest program) ptr 0 := by
  have taken := taken_none repeats (nest program) ptr
  rw [← programmed.levels, ← programmed.reps, depth] at taken
  rw [← programmed.reps]
  exact taken

/-! ### The core -/

/-- A product that is added up: for which element of the output, as which term of
its sum, and where the factors are. -/
structure Term where
  output : Nat
  tap : Nat
  left : UInt32
  right : UInt32
  deriving DecidableEq

/-- What was done: streamed products, scalar products, stores, and after each streamed
region which streams had ended. -/
@[ext]
structure Log (R : Type) where
  fmas : List Term := []
  products : List Term := []
  stores : List (Nat × R) := []
  ends : List (Bool × Bool) := []

instance {R : Type} : Append (Log R) where
  append l more :=
    ⟨l.fmas ++ more.fmas, l.products ++ more.products, l.stores ++ more.stores,
      l.ends ++ more.ends⟩

@[simp]
theorem log_mk {R : Type} (fmas fmas' products products' : List Term)
    (stores stores' : List (Nat × R)) (ends ends' : List (Bool × Bool)) :
    (⟨fmas, products, stores, ends⟩ : Log R) ++ ⟨fmas', products', stores', ends'⟩ =
      ⟨fmas ++ fmas', products ++ products', stores ++ stores', ends ++ ends'⟩ := rfl

/-- The core: memory, the movers of `ft0` and `ft1`, whether these registers are
streams, and the log. -/
structure Core (R : Type) where
  mem : Mem
  dm0 : Mover
  dm1 : Mover
  enabled : Bool := false
  log : Log R := {}

/-- A data mover after reset, which gives each element once. -/
def Mover.fresh : Mover where
  bounds _ := 0
  strides _ := 0
  reps := 0
  stream := { levels := [], address := 0, repeats := 0 }

def Core.fresh {R : Type} (mem : Mem) : Core R := { mem := mem, dm0 := .fresh, dm1 := .fresh }

/-- `&p[i]` of an array of `float32_t`. -/
def cell (p i : UInt32) : UInt32 := p + 4 * i

theorem cell_cell (p x y : UInt32) : cell (cell p x) y = cell p (x + y) := by
  simp only [cell]
  ring

section Core

variable {R : Type} [CommRing R] (fmt : Format R)

/-- The number at an address. -/
def load (mem : Mem) (p : UInt32) : R := floats fmt mem p 0

/-- `fmadd.s` of accumulator `u`, for the output `outputs u`, in turn `k`. -/
def fmadd (outputs : Nat → Nat) (k : Nat) (st : Core R × (Nat → R)) (u : Nat) :
    Option (Core R × (Nat → R)) :=
  let (c, acc) := st
  if c.enabled then do
    -- Reading `ft0` and `ft1` takes an element of each stream.
    let (left, s0) ← c.dm0.stream.pop
    let (right, s1) ← c.dm1.stream.pop
    return ({ c with
              dm0 := { c.dm0 with stream := s0 }
              dm1 := { c.dm1 with stream := s1 }
              log := c.log ++ { fmas := [⟨outputs u, k, left, right⟩] } },
            setAt acc u (load fmt c.mem left * load fmt c.mem right + acc u))
  else none

def body (outputs : Nat → Nat) (len : Nat) (st : Core R × (Nat → R)) (k : Nat) :
    Option (Core R × (Nat → R)) :=
  (List.range len).foldlM (fmadd fmt outputs k) st

/-- `frep.o`: the body `rpt + 1` times. -/
def frep (outputs : Nat → Nat) (len : Nat) (rpt : UInt32) (st : Core R × (Nat → R)) :
    Option (Core R × (Nat → R)) :=
  (List.range (rpt.toNat + 1)).foldlM (body fmt outputs len) st

/-- `SSR_FREP_BEGIN` to `SSR_FREP_END`. -/
def streamed (outputs : Nat → Nat) (len : Nat) (rpt : UInt32) (st : Core R × (Nat → R)) :
    Option (Core R × (Nat → R)) := do
  let (c, acc) ← frep fmt outputs len rpt ({ st.1 with enabled := true }, st.2)
  return ({ c with
            enabled := false
            log := c.log ++ { ends := [(c.dm0.stream.ended, c.dm1.stream.ended)] } }, acc)

omit [CommRing R] in
/-- An instruction of the compiler's: it would eat an element of an enabled stream. -/
def Core.scalar {α : Type} (c : Core R) (v : α) : Option α := if c.enabled then none else some v

omit [CommRing R] in
theorem scalar_off {α : Type} {c : Core R} (off : c.enabled = false) (v : α) :
    c.scalar v = some v :=
  if_neg (ne_true_of_eq_false off)

def Core.store (c : Core R) (p : UInt32) (v : R) : Option (Core R) :=
  c.scalar { c with
    mem := storeFloat fmt p.toNat v c.mem
    log := c.log ++ { stores := [(p.toNat, v)] } }

/-- `sum += a * b` of the scalar path. -/
def addProduct (output tap : Nat) (left right : UInt32) (st : Core R × R) : Option (Core R × R) :=
  st.1.scalar ({ st.1 with log := st.1.log ++ { products := [⟨output, tap, left, right⟩] } },
    st.2 + load fmt st.1.mem left * load fmt st.1.mem right)

end Core

/-! ### Feeds -/

structure Feed where
  repeats : Nat
  program : List (UInt32 × UInt32)
  base : UInt32

noncomputable def Feed.count (f : Feed) : Nat := size (given f.repeats (nest f.program))

/-- Where the element after `t` others lies. -/
noncomputable def Feed.element (f : Feed) (t : Nat) : UInt32 :=
  f.base + offset (given f.repeats (nest f.program)) t

/-- The mover is programmed for the feed, of which `t` elements were taken. -/
structure Feeds (m : Mover) (f : Feed) (t : Nat) : Prop where
  programmed : Programmed m f.program f.repeats
  taken : Taken m.stream f.repeats (nest f.program) f.base t

theorem read_feeds {m : Mover} {program : List (UInt32 × UInt32)} {repeats dim : Nat}
    (programmed : Programmed m program repeats) (depth : program.length = dim + 1)
    (ptr : UInt32) : Feeds (m.read dim ptr) ⟨repeats, program, ptr⟩ 0 :=
  ⟨⟨programmed.reps, programmed.levels⟩, read_taken programmed depth ptr⟩

theorem feeds_pop {m : Mover} {f : Feed} {t : Nat} (feeds : Feeds m f t) (more : t < f.count) :
    ∃ s, m.stream.pop = some (f.element t, s) ∧ Feeds { m with stream := s } f (t + 1) := by
  obtain ⟨s, popped, taken⟩ := pop_taken feeds.taken more
  exact ⟨s, popped, ⟨feeds.programmed.reps, feeds.programmed.levels⟩, taken⟩

theorem element_position (f : Feed) (ds : List Nat)
    (inside : Indices (given f.repeats (nest f.program)) ds) :
    f.element (position (given f.repeats (nest f.program)) ds) =
      f.base + reach (given f.repeats (nest f.program)) ds :=
  congrArg (f.base + ·) (offset_position _ ds inside)

theorem count_exact {n : UInt32} (nonempty : 0 < n.toNat) : (n - 1).toNat + 1 = n.toNat := by
  have one : (1 : UInt32) ≤ n := UInt32.le_iff_toNat_le.mpr nonempty
  rw [UInt32.toNat_sub_of_le _ _ one]
  exact Nat.sub_add_cancel nonempty

theorem last_le {n : UInt32} {i : Nat} (below : i < n.toNat) : i ≤ (n - 1).toNat := by
  have last := count_exact (Nat.zero_lt_of_lt below)
  omega

theorem ofNat_cast (n : Nat) : UInt32.ofNat n = (n : UInt32) := rfl

theorem cast_toNat (n : UInt32) : ((n.toNat : Nat) : UInt32) = n := UInt32.ofNat_toNat

/-! ### A streamed region -/

section Regions

variable {R : Type} [CommRing R] (fmt : Format R)

omit [CommRing R] in
theorem log_append (l m n : Log R) : l ++ m ++ n = l ++ (m ++ n) :=
  Log.ext (List.append_assoc _ _ _) (List.append_assoc _ _ _) (List.append_assoc _ _ _)
    (List.append_assoc _ _ _)

omit [CommRing R] in
theorem log_empty (l : Log R) : l ++ ({} : Log R) = l :=
  Log.ext (List.append_nil _) (List.append_nil _) (List.append_nil _) (List.append_nil _)

structure Advanced (c c' : Core R) (terms : List Term) : Prop where
  mem : c'.mem = c.mem
  enabled : c'.enabled = c.enabled
  log : c'.log = c.log ++ { fmas := terms }

omit [CommRing R] in
theorem Advanced.trans {c c' c'' : Core R} {terms more : List Term} (first : Advanced c c' terms)
    (second : Advanced c' c'' more) : Advanced c c'' (terms ++ more) where
  mem := second.mem.trans first.mem
  enabled := second.enabled.trans first.enabled
  log := by
    rw [second.log, first.log, log_append]
    rfl

/-- Memory after stores. -/
def written (mem : Mem) (stores : List (Nat × R)) : Mem :=
  stores.foldl (fun mem s => storeFloat fmt s.1 s.2 mem) mem

/-- What was done from `c` to `c'`, where the streams are off again. -/
structure Did (c c' : Core R) (log : Log R) : Prop where
  off : c'.enabled = false
  logged : c'.log = c.log ++ log
  mem : c'.mem = written fmt c.mem log.stores

omit [CommRing R] in
theorem did_nothing {c : Core R} (off : c.enabled = false) : Did fmt c c {} :=
  ⟨off, (log_empty _).symm, rfl⟩

omit [CommRing R] in
variable {fmt} in
theorem Did.trans {c c' c'' : Core R} {log more : Log R} (first : Did fmt c c' log)
    (second : Did fmt c' c'' more) : Did fmt c c'' (log ++ more) where
  off := second.off
  logged := by rw [second.logged, first.logged, log_append]
  mem := by
    rw [second.mem, first.mem]
    exact (List.foldl_append ..).symm

/-- The movers were left alone. -/
structure Kept (c c' : Core R) : Prop where
  dm0 : c'.dm0 = c.dm0
  dm1 : c'.dm1 = c.dm1

omit [CommRing R] in
theorem Kept.trans {c c' c'' : Core R} (first : Kept c c') (second : Kept c' c'') : Kept c c'' :=
  ⟨second.dm0.trans first.dm0, second.dm1.trans first.dm1⟩

variable (f0 f1 : Feed) (outputs : Nat → Nat)

/-- The product of the elements after `t` others. -/
noncomputable def product (fmt : Format R) (mem : Mem) (f0 f1 : Feed) (t : Nat) : R :=
  load fmt mem (f0.element t) * load fmt mem (f1.element t)

theorem fmadd_runs {c : Core R} (acc : Nat → R) {t : Nat} (k u : Nat) (on : c.enabled = true)
    (feeds0 : Feeds c.dm0 f0 t) (feeds1 : Feeds c.dm1 f1 t) (more0 : t < f0.count)
    (more1 : t < f1.count) :
    ∃ c', fmadd fmt outputs k (c, acc) u =
        some (c', setAt acc u (product fmt c.mem f0 f1 t + acc u)) ∧
      Advanced c c' [⟨outputs u, k, f0.element t, f1.element t⟩] ∧
      Feeds c'.dm0 f0 (t + 1) ∧ Feeds c'.dm1 f1 (t + 1) := by
  obtain ⟨s0, pop0, next0⟩ := feeds_pop feeds0 more0
  obtain ⟨s1, pop1, next1⟩ := feeds_pop feeds1 more1
  refine ⟨{ c with
    dm0 := { c.dm0 with stream := s0 }
    dm1 := { c.dm1 with stream := s1 }
    log := c.log ++ { fmas := [⟨outputs u, k, f0.element t, f1.element t⟩] } }, ?_,
    ⟨rfl, rfl, rfl⟩, next0, next1⟩
  simp only [fmadd, on, if_true, pop0, pop1]
  rfl

theorem body_runs {c : Core R} (acc : Nat → R) {t : Nat} (k len : Nat) (on : c.enabled = true)
    (feeds0 : Feeds c.dm0 f0 t) (feeds1 : Feeds c.dm1 f1 t) (more0 : t + len ≤ f0.count)
    (more1 : t + len ≤ f1.count) :
    ∃ c' acc', body fmt outputs len (c, acc) k = some (c', acc') ∧
      Advanced c c' ((List.range len).map fun u =>
        ⟨outputs u, k, f0.element (t + u), f1.element (t + u)⟩) ∧
      Feeds c'.dm0 f0 (t + len) ∧ Feeds c'.dm1 f1 (t + len) ∧
      ∀ v, acc' v = if v < len then product fmt c.mem f0 f1 (t + v) + acc v else acc v := by
  have runs := loop_runs (fun u (st : Core R × (Nat → R)) =>
      Advanced c st.1 ((List.range u).map fun u =>
        ⟨outputs u, k, f0.element (t + u), f1.element (t + u)⟩) ∧
      Feeds st.1.dm0 f0 (t + u) ∧ Feeds st.1.dm1 f1 (t + u) ∧
      ∀ v, st.2 v = if v < u then product fmt c.mem f0 f1 (t + v) + acc v else acc v)
    (fmadd fmt outputs k) len (c, acc) ?_ ?_
  · obtain ⟨⟨c', acc'⟩, ended, advanced, next0, next1, sums⟩ := runs
    exact ⟨c', acc', ended, advanced, next0, next1, sums⟩
  · exact ⟨⟨rfl, rfl, (log_empty _).symm⟩, feeds0, feeds1, fun v => rfl⟩
  · rintro u below ⟨now, sum⟩ ⟨advanced, feeds0, feeds1, sums⟩
    dsimp only at advanced feeds0 feeds1 sums
    obtain ⟨next, ended, more, next0, next1⟩ := fmadd_runs fmt f0 f1 outputs sum k u
      (advanced.enabled.trans on) feeds0 feeds1 (by omega) (by omega)
    refine ⟨_, ended, ?_, next0, next1, fun v => ?_⟩
    · rw [List.range_succ, List.map_append]
      exact advanced.trans more
    · simp only [setAt, advanced.mem, sums]
      -- Turn `u` adds to accumulator `u`; the others stand as they were.
      by_cases same : v = u
      · subst same
        simp
      · have order : v < u + 1 ↔ v < u := by omega
        simp only [if_neg same, order]

noncomputable def terms (len t n : Nat) : List Term :=
  (List.range n).flatMap fun k => (List.range len).map fun u =>
    ⟨outputs u, k, f0.element (t + (k * len + u)), f1.element (t + (k * len + u))⟩

theorem frep_runs {c : Core R} (acc : Nat → R) {t : Nat} (len : Nat) (rpt : UInt32)
    (on : c.enabled = true) (feeds0 : Feeds c.dm0 f0 t)
    (feeds1 : Feeds c.dm1 f1 t) (more0 : t + (rpt.toNat + 1) * len ≤ f0.count)
    (more1 : t + (rpt.toNat + 1) * len ≤ f1.count) :
    ∃ c' acc', frep fmt outputs len rpt (c, acc) = some (c', acc') ∧
      Advanced c c' (terms f0 f1 outputs len t (rpt.toNat + 1)) ∧
      Feeds c'.dm0 f0 (t + (rpt.toNat + 1) * len) ∧
      Feeds c'.dm1 f1 (t + (rpt.toNat + 1) * len) ∧
      ∀ v < len, acc' v = acc v +
        ∑ k ∈ Finset.range (rpt.toNat + 1), product fmt c.mem f0 f1 (t + (k * len + v)) := by
  have runs := loop_runs (fun n (st : Core R × (Nat → R)) =>
      Advanced c st.1 (terms f0 f1 outputs len t n) ∧
      Feeds st.1.dm0 f0 (t + n * len) ∧ Feeds st.1.dm1 f1 (t + n * len) ∧
      ∀ v < len, st.2 v = acc v +
        ∑ k ∈ Finset.range n, product fmt c.mem f0 f1 (t + (k * len + v)))
    (body fmt outputs len) (rpt.toNat + 1) (c, acc) ?_ ?_
  · obtain ⟨⟨c', acc'⟩, ended, advanced, next0, next1, sums⟩ := runs
    exact ⟨c', acc', ended, advanced, next0, next1, sums⟩
  · rw [Nat.zero_mul]
    exact ⟨⟨rfl, rfl, (log_empty _).symm⟩, feeds0, feeds1, fun v _ => by simp⟩
  · rintro n below ⟨now, sum⟩ ⟨advanced, feeds0, feeds1, sums⟩
    dsimp only at advanced feeds0 feeds1 sums
    -- The elements of this repetition are among those the streams still have.
    have within : t + n * len + len ≤ t + (rpt.toNat + 1) * len := by
      rw [Nat.add_assoc, ← Nat.succ_mul]
      exact Nat.add_le_add_left (Nat.mul_le_mul_right len below) t
    obtain ⟨next, sum', ended, more, next0, next1, sums'⟩ := body_runs fmt f0 f1 outputs sum n len
      (advanced.enabled.trans on) feeds0 feeds1 (within.trans more0) (within.trans more1)
    have turns : t + (n + 1) * len = t + n * len + len := by ring
    refine ⟨(next, sum'), ended, ?_, turns ▸ next0, turns ▸ next1, fun v inside => ?_⟩
    · rw [terms, List.range_succ, List.flatMap_append, List.flatMap_singleton]
      simpa only [terms, Nat.add_assoc] using advanced.trans more
    · dsimp only
      rw [sums' v, if_pos inside, sums v inside, Finset.sum_range_succ, advanced.mem,
        Nat.add_assoc t]
      ring

theorem streamed_runs {c : Core R} (acc : Nat → R) {t : Nat} (len : Nat) (rpt : UInt32)
    (feeds0 : Feeds c.dm0 f0 t) (feeds1 : Feeds c.dm1 f1 t)
    (more0 : t + (rpt.toNat + 1) * len ≤ f0.count)
    (more1 : t + (rpt.toNat + 1) * len ≤ f1.count) :
    ∃ c' acc', streamed fmt outputs len rpt (c, acc) = some (c', acc') ∧
      Did fmt c c'
        { fmas := terms f0 f1 outputs len t (rpt.toNat + 1)
          ends := [(c'.dm0.stream.ended, c'.dm1.stream.ended)] } ∧
      Feeds c'.dm0 f0 (t + (rpt.toNat + 1) * len) ∧
      Feeds c'.dm1 f1 (t + (rpt.toNat + 1) * len) ∧
      ∀ v < len, acc' v = acc v +
        ∑ k ∈ Finset.range (rpt.toNat + 1), product fmt c.mem f0 f1 (t + (k * len + v)) := by
  obtain ⟨c', acc', ended, advanced, next0, next1, sums⟩ := frep_runs fmt f0 f1 outputs
    (c := { c with enabled := true }) acc len rpt rfl feeds0 feeds1 more0 more1
  refine ⟨{ c' with
    enabled := false
    log := c'.log ++ { ends := [(c'.dm0.stream.ended, c'.dm1.stream.ended)] } }, acc', ?_,
    ⟨rfl, ?_, advanced.mem⟩, next0, next1, sums⟩
  · rw [streamed, ended]
    rfl
  · rw [advanced.log, log_append]
    exact Log.ext (congrArg (c.log.fmas ++ ·) (List.append_nil _)) rfl rfl rfl

end Regions

/-! ### Scalar code -/

section Scalar

variable {R : Type} [CommRing R] (fmt : Format R)

omit [CommRing R] in
theorem store_did {c : Core R} (off : c.enabled = false) (p : UInt32) (v : R) :
    ∃ c', c.store fmt p v = some c' ∧ Did fmt c c' { stores := [(p.toNat, v)] } ∧ Kept c c' := by
  have runs : c.store fmt p v = some { c with
      mem := storeFloat fmt p.toNat v c.mem
      log := c.log ++ { stores := [(p.toNat, v)] } } := scalar_off off _
  exact ⟨_, runs, ⟨off, rfl, rfl⟩, rfl, rfl⟩

omit [CommRing R] in
theorem stores_did {c : Core R} (off : c.enabled = false) (p : Nat → UInt32) (v : Nat → R)
    (n : Nat) :
    ∃ c', (List.range n).foldlM (fun c u => c.store fmt (p u) (v u)) c = some c' ∧
      Did fmt c c' { stores := (List.range n).map fun u => ((p u).toNat, v u) } ∧ Kept c c' := by
  refine loop_runs (fun n c' =>
    Did fmt c c' { stores := (List.range n).map fun u => ((p u).toNat, v u) } ∧ Kept c c') _ n c
    ⟨did_nothing fmt off, rfl, rfl⟩ ?_
  rintro u _ now ⟨did, kept⟩
  obtain ⟨next, runs, more, same⟩ := store_did fmt did.off (p u) (v u)
  refine ⟨next, runs, ?_, kept.trans same⟩
  rw [List.range_succ, List.map_append]
  exact did.trans more

/-- The first `n` products of a sum were added up. -/
structure Summed (c : Core R) (output : Nat) (left right : Nat → UInt32) (n : Nat)
    (st : Core R × R) : Prop where
  sum : st.2 = ∑ k ∈ Finset.range n, load fmt c.mem (left k) * load fmt c.mem (right k)
  did : Did fmt c st.1 { products := (List.range n).map fun k => ⟨output, k, left k, right k⟩ }
  kept : Kept c st.1

theorem summed_none {c : Core R} (off : c.enabled = false) (output : Nat)
    (left right : Nat → UInt32) : Summed fmt c output left right 0 (c, 0) :=
  ⟨rfl, did_nothing fmt off, rfl, rfl⟩

theorem summed_next {c : Core R} {output n : Nat} {left right : Nat → UInt32} {st : Core R × R}
    (summed : Summed fmt c output left right n st) :
    ∃ st', addProduct fmt output n (left n) (right n) st = some st' ∧
      Summed fmt c output left right (n + 1) st' := by
  obtain ⟨sum, did, kept⟩ := summed
  have same : st.1.mem = c.mem := did.mem
  refine ⟨_, scalar_off did.off _, ?_, ⟨did.off, ?_, did.mem⟩, kept.dm0, kept.dm1⟩
  · rw [Finset.sum_range_succ, sum, same]
  · rw [List.range_succ, List.map_append, did.logged, log_append]
    rfl

omit [CommRing R] in
theorem floats_written (mem : Mem) (stores : List (Nat × R)) {p : UInt32} {i : Nat}
    (elsewhere : ∀ s ∈ stores, p.toNat + 4 * i + 4 ≤ s.1 ∨ s.1 + 4 ≤ p.toNat + 4 * i) :
    floats fmt (written fmt mem stores) p i = floats fmt mem p i := by
  induction stores generalizing mem with
  | nil => rfl
  | cons s rest ih =>
      obtain ⟨here, others⟩ := List.forall_mem_cons.mp elsewhere
      -- A store touches four bytes, none of them one of the number's.
      have kept : ∀ k < 4, storeFloat fmt s.1 s.2 mem (p.toNat + 4 * i + k) =
          mem (p.toNat + 4 * i + k) := by
        intro k below
        exact if_neg (by omega)
      refine (ih _ others).trans ?_
      simp only [floats]
      rw [kept 1 (by decide), kept 2 (by decide), kept 3 (by decide)]
      exact congrArg (fmt.f32 · _ _ _) (kept 0 (by decide))

def disjoint (p : UInt32) (n : Nat) (q : UInt32) (m : Nat) : Prop :=
  p.toNat + 4 * n ≤ q.toNat ∨ q.toNat + 4 * m ≤ p.toNat

omit [CommRing R] in
theorem floats_apart (mem : Mem) {p q : UInt32} {n m : Nat} {stores : List (Nat × R)}
    (apart : disjoint p n q m) (inside : ∀ s ∈ stores, ∃ e < n, s.1 = p.toNat + 4 * e) {i : Nat}
    (below : i < m) : floats fmt (written fmt mem stores) q i = floats fmt mem q i := by
  refine floats_written fmt mem stores fun s member => ?_
  obtain ⟨e, within, place⟩ := inside s member
  rcases apart with before | after
  · exact Or.inr (by omega)
  · exact Or.inl (by omega)

theorem cell_exact {p x : UInt32} {n size : Nat} (same : x = UInt32.ofNat n)
    (room : p.toNat + 4 * size ≤ 2 ^ 32) (inside : n < size) :
    (cell p x).toNat = p.toNat + 4 * n := by
  have scaled : 4 * x = UInt32.ofNat (4 * n) := by
    rw [same, UInt32.ofNat_mul]
    rfl
  exact moved_exact scaled room (Or.inl (by omega))

omit [CommRing R] in
theorem load_cell (mem : Mem) {p x : UInt32} {n size : Nat} (same : x = UInt32.ofNat n)
    (room : p.toNat + 4 * size ≤ 2 ^ 32) (inside : n < size) :
    load fmt mem (cell p x) = floats fmt mem p n := by
  simp [load, floats, cell_exact same room inside]

omit [CommRing R] in
theorem load_kept {c c' : Core R} {log : Log R} (did : Did fmt c c' log) {p q : UInt32}
    {n m : Nat} (apart : disjoint p n q m)
    (inside : ∀ s ∈ log.stores, ∃ e < n, s.1 = p.toNat + 4 * e)
    (room : q.toNat + 4 * m ≤ 2 ^ 32) {x : UInt32} {i : Nat} (same : x = UInt32.ofNat i)
    (below : i < m) : load fmt c'.mem (cell q x) = floats fmt c.mem q i := by
  rw [load_cell fmt c'.mem same room below, did.mem, floats_apart fmt c.mem apart inside below]

end Scalar

/-- Numbers that are one byte. -/
def bytes : Format Int where
  f32 b _ _ _ := b.toNat
  byte v k := if k = 0 then UInt8.ofNat v.toNat else 0
  logFloored v := v

end HeteroSim.SnitchSsr
