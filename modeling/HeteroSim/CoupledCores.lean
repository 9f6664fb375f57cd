import HeteroSim.SnitchSsr
import HeteroSim.TwoRuns

/-!
Two cores side by side. Scalar code does the same on cores that see the same memory,
whatever their data movers hold; what a streamed region does follows from the feeds
of its movers.
-/

namespace HeteroSim.CoupledCores

open SliceRun ParallelSlices StreamLoops SnitchSsr TwoRuns
open scoped UInt32.CommRing

section Cores

variable {R : Type} [CommRing R] (fmt : Format R)

/-! ### Scalar code -/

/-- A relation that scalar code keeps: the cores see the same memory, with their streams
off, and stay related when both store a number at a `place` or add up a product. -/
structure Lockstep (place : Nat → Prop) (rel : Core R → Core R → Prop) : Prop where
  mem : ∀ {c c'}, rel c c' → c.mem = c'.mem
  off : ∀ {c c'}, rel c c' → c.enabled = false ∧ c'.enabled = false
  store : ∀ {c c'}, rel c c' → ∀ (p : UInt32) (v : R), place p.toNat →
    Both rel (c.store fmt p v) (c'.store fmt p v)
  product : ∀ {c c'}, rel c c' → ∀ (output tap : Nat) (left right : UInt32) (sum : R),
    Both (fun st st' => rel st.1 st'.1 ∧ st.2 = st'.2)
      (addProduct fmt output tap left right (c, sum))
      (addProduct fmt output tap left right (c', sum))

variable {fmt} {place : Nat → Prop} {rel : Core R → Core R → Prop} (lock : Lockstep fmt place rel)

include lock

theorem Lockstep.scalar {α : Type} {c c' : Core R} (held : rel c c') (v : Mem → α) :
    Both (fun a b => a = b ∧ a = v c.mem) (c.scalar (v c.mem)) (c'.scalar (v c'.mem)) := by
  obtain ⟨off, off'⟩ := lock.off held
  rw [scalar_off off, scalar_off off', lock.mem held]
  exact Both.done ⟨rfl, rfl⟩

theorem Lockstep.sum {c c' : Core R} (held : rel c c') (output n : Nat) (tap : Nat → Nat)
    (left right : Nat → UInt32) (start : R) :
    Both (fun st st' => rel st.1 st'.1 ∧ st.2 = st'.2)
      ((List.range n).foldlM (fun st k => addProduct fmt output (tap k) (left k) (right k) st)
        (c, start))
      ((List.range n).foldlM (fun st k => addProduct fmt output (tap k) (left k) (right k) st)
        (c', start)) := by
  apply Both.fold
  · exact ⟨held, rfl⟩
  · rintro k _ ⟨c, sum⟩ ⟨c', _⟩ ⟨held, rfl⟩
    exact lock.product held output (tap k) (left k) (right k) sum

theorem Lockstep.stores {c c' : Core R} (held : rel c c') (n : Nat) (p : Nat → UInt32)
    (v v' : Nat → R) (inside : ∀ u < n, place (p u).toNat) (same : ∀ u < n, v u = v' u) :
    Both rel ((List.range n).foldlM (fun c u => c.store fmt (p u) (v u)) c)
      ((List.range n).foldlM (fun c u => c.store fmt (p u) (v' u)) c') := by
  apply Both.fold
  · exact held
  · intro u member c c' held
    have below := List.mem_range.mp member
    rw [← same u below]
    exact lock.store held (p u) (v u) (inside u below)

end Cores

/-! ### What two cores did -/

section Coupled

variable {R : Type} [CommRing R] (fmt : Format R)

/-- Two cores that went on from `start` and `start'`: what they did is related, and their
movers are as they should be. -/
structure Coupled (start start' : Core R) (good : Log R → Log R → Prop)
    (movers movers' : Mover → Mover → Prop) (c c' : Core R) : Prop where
  did : ∃ l l', Did fmt start c l ∧ Did fmt start' c' l' ∧ good l l'
  movers : movers c.dm0 c.dm1
  movers' : movers' c'.dm0 c'.dm1

structure Admits (place : Nat → Prop) (good : Log R → Log R → Prop) : Prop where
  stores : ∀ {l l'}, good l l' → l.stores = l'.stores
  store : ∀ {l l'}, good l l' → ∀ (p : Nat) (v : R), place p →
    good (l ++ { stores := [(p, v)] }) (l' ++ { stores := [(p, v)] })
  product : ∀ {l l'}, good l l' → ∀ t : Term,
    good (l ++ { products := [t] }) (l' ++ { products := [t] })

variable {fmt} {start start' : Core R} {good : Log R → Log R → Prop}
  {movers movers' : Mover → Mover → Prop}

omit [CommRing R] in
theorem Coupled.next {c c' d d' : Core R} {more more' : Mover → Mover → Prop} {l l' : Log R}
    (coupled : Coupled fmt start start' good movers movers' c c') (first : Did fmt c d l)
    (second : Did fmt c' d' l') (goes : ∀ m m', good m m' → good (m ++ l) (m' ++ l'))
    (held : more d.dm0 d.dm1) (held' : more' d'.dm0 d'.dm1) :
    Coupled fmt start start' good more more' d d' := by
  obtain ⟨m, m', before, before', related⟩ := coupled.did
  exact ⟨⟨m ++ l, m' ++ l', before.trans first, before'.trans second, goes m m' related⟩,
    held, held'⟩

omit [CommRing R] in
theorem Coupled.off {c c' : Core R} (coupled : Coupled fmt start start' good movers movers' c c') :
    c.enabled = false ∧ c'.enabled = false := by
  obtain ⟨_, _, did, did', _⟩ := coupled.did
  exact ⟨did.off, did'.off⟩

omit [CommRing R] in
theorem Coupled.mem {place : Nat → Prop} {c c' : Core R} (admits : Admits place good)
    (same : start.mem = start'.mem) (coupled : Coupled fmt start start' good movers movers' c c') :
    c.mem = c'.mem := by
  obtain ⟨_, _, did, did', related⟩ := coupled.did
  rw [did.mem, did'.mem, same, admits.stores related]

omit [CommRing R] in
theorem set_did {c : Core R} (off : c.enabled = false) (m0 m1 : Mover) :
    Did fmt c { c with dm0 := m0, dm1 := m1 } {} :=
  ⟨off, (log_empty c.log).symm, rfl⟩

theorem product_did {c : Core R} (off : c.enabled = false) (output tap : Nat)
    (left right : UInt32) (sum : R) :
    ∃ c', addProduct fmt output tap left right (c, sum) =
        some (c', sum + load fmt c.mem left * load fmt c.mem right) ∧
      Did fmt c c' { products := [⟨output, tap, left, right⟩] } ∧ Kept c c' :=
  ⟨_, scalar_off off _, ⟨off, rfl, rfl⟩, rfl, rfl⟩

theorem coupled_lockstep {place : Nat → Prop} (admits : Admits place good)
    (same : start.mem = start'.mem) :
    Lockstep fmt place (Coupled fmt start start' good movers movers') where
  mem := Coupled.mem admits same
  off := Coupled.off
  store := by
    intro c c' coupled p v inside
    obtain ⟨off, off'⟩ := coupled.off
    obtain ⟨d, runs, did, kept⟩ := store_did fmt off p v
    obtain ⟨d', runs', did', kept'⟩ := store_did fmt off' p v
    refine ⟨d, d', runs, runs', coupled.next did did' ?_ ?_ ?_⟩
    · intro m m' related
      exact admits.store related p.toNat v inside
    · rw [kept.dm0, kept.dm1]
      exact coupled.movers
    · rw [kept'.dm0, kept'.dm1]
      exact coupled.movers'
  product := by
    intro c c' coupled output tap left right sum
    obtain ⟨off, off'⟩ := coupled.off
    obtain ⟨d, runs, did, kept⟩ := product_did off output tap left right sum
    obtain ⟨d', runs', did', kept'⟩ := product_did off' output tap left right sum
    refine ⟨_, _, runs, runs', coupled.next did did' ?_ ?_ ?_, ?_⟩
    · intro m m' related
      exact admits.product related ⟨output, tap, left, right⟩
    · rw [kept.dm0, kept.dm1]
      exact coupled.movers
    · rw [kept'.dm0, kept'.dm1]
      exact coupled.movers'
    · rw [coupled.mem admits same]

end Coupled

/-! ### Streams that are taken to their ends -/

section Streams

variable {R : Type} [CommRing R] (fmt : Format R)

/-- Both streams are at their ends, and `ft1` is set to give elements once. -/
structure Spent (m0 m1 : Mover) : Prop where
  once : m1.reps = 0
  ended : m0.stream.ended = true
  ended' : m1.stream.ended = true

theorem feeds_ended {m : Mover} {f : Feed} {t : Nat} (feeds : Feeds m f t) (all : f.count ≤ t) :
    m.stream.ended = true :=
  feeds.taken.done all

theorem feeds_reps {m : Mover} {f : Feed} {t : Nat} (feeds : Feeds m f t) {count : UInt32}
    (same : f.repeats = (count - 1).toNat) : m.reps = count - 1 :=
  UInt32.toNat_inj.mp (feeds.programmed.reps.trans same)

theorem streamed_through (f0 f1 : Feed) (outputs : Nat → Nat) {c : Core R} (acc : Nat → R)
    (len : Nat) (rpt : UInt32) (feeds0 : Feeds c.dm0 f0 0) (feeds1 : Feeds c.dm1 f1 0)
    (count0 : f0.count = (rpt.toNat + 1) * len) (count1 : f1.count = (rpt.toNat + 1) * len)
    (once : f1.repeats = 0) :
    ∃ c' acc', streamed fmt outputs len rpt (c, acc) = some (c', acc') ∧
      Did fmt c c'
        { fmas := terms f0 f1 outputs len 0 (rpt.toNat + 1), ends := [(true, true)] } ∧
      Feeds c'.dm0 f0 f0.count ∧ Feeds c'.dm1 f1 f1.count ∧ Spent c'.dm0 c'.dm1 ∧
      ∀ v < len, acc' v = acc v +
        ∑ k ∈ Finset.range (rpt.toNat + 1), product fmt c.mem f0 f1 (k * len + v) := by
  obtain ⟨c', acc', runs, did, next0, next1, sums⟩ := streamed_runs fmt f0 f1 outputs acc len rpt
    feeds0 feeds1 (by rw [Nat.zero_add, count0]) (by rw [Nat.zero_add, count1])
  rw [Nat.zero_add, ← count0] at next0
  rw [Nat.zero_add, ← count1] at next1
  have end0 := feeds_ended next0 (Nat.le_refl _)
  have end1 := feeds_ended next1 (Nat.le_refl _)
  rw [end0, end1] at did
  refine ⟨c', acc', runs, did, next0, next1, ⟨?_, end0, end1⟩, ?_⟩
  · exact @feeds_reps _ _ _ next1 1 once
  · intro v inside
    simpa only [Nat.zero_add] using sums v inside

end Streams

end HeteroSim.CoupledCores
