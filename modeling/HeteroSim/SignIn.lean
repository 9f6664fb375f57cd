import HeteroSim.Barriers
import Mathlib.Data.Fin.Basic
import Mathlib.Data.UInt
import Mathlib.Data.List.Basic

/-!
How a cluster comes up: `_start` of every core and `main` up to the job loop,
one word access a step. The control core fills the cluster's memory and clears
the mailbox; then each core sets its bit of `alive_mask`, a load and a store
apart, while the others wait their turn at the barrier. Stacks, the host's side
and a trap in these instructions are left out.
-/

namespace HeteroSim.SignIn

open Barriers

/-- The mailbox words that boot writes. -/
inductive Word where
  | magic
  | aliveMask
  | seq
  | doneSeq
  | trapCause
  | nbCores
  deriving DecidableEq

/-- `HES_MBOX_MAGIC`. -/
def mboxMagic : UInt32 := 0x48455331

structure Memory where
  tcdm : Nat → UInt32
  words : Word → UInt32

def Memory.fill (m : Memory) (a : Nat) (v : UInt32) : Memory :=
  { m with tcdm := fun other => if other = a then v else m.tcdm other }

def Memory.set (m : Memory) (w : Word) (v : UInt32) : Memory :=
  { m with words := fun other => if other = w then v else m.words other }

/-- What `_start` stores: `.data` from main memory, then zeros over `.bss`. -/
structure Image where
  dataStart : Nat
  data : List UInt32
  bssStart : Nat
  bssWords : Nat

def Image.stores (image : Image) : List (Nat × UInt32) :=
  image.data.zipIdx.map (fun one => (image.dataStart + 4 * one.2, one.1)) ++
    (List.range image.bssWords).map fun i => (image.bssStart + 4 * i, 0)

/-- `.data` ends before `.bss`. -/
def Image.Laid (image : Image) : Prop :=
  image.dataStart + 4 * image.data.length ≤ image.bssStart

def cleared : List Word := [.aliveMask, .trapCause, .doneSeq, .seq]

/-- Where a core is. `barrier k` is its barrier after `k` others. -/
inductive Place where
  | loading (left : List (Nat × UInt32))
  | entering
  | clearing (left : List Word)
  | turn (i : Nat)
  | holding (i : Nat) (mask : UInt32)
  | counting
  | publishing
  | barrier (passed : Nat)
  | serving

section Boot

variable {n : Nat}

/-- One access of a core of `n`, of which `ctrl` is the control core. -/
inductive Act (ctrl : Fin n) : Fin n → Place → Memory → Place → Memory → Prop
  | load (a : Nat) (v : UInt32) (rest : List (Nat × UInt32)) (m : Memory) :
      Act ctrl ctrl (.loading ((a, v) :: rest)) m (.loading rest) (m.fill a v)
  | loaded (p : Fin n) (m : Memory) : Act ctrl p (.loading []) m (.barrier 0) m
  | enter (m : Memory) : Act ctrl ctrl .entering m (.clearing cleared) m
  | skip (p : Fin n) (m : Memory) (other : p ≠ ctrl) : Act ctrl p .entering m (.barrier 1) m
  | clear (w : Word) (rest : List Word) (m : Memory) :
      Act ctrl ctrl (.clearing (w :: rest)) m (.clearing rest) (m.set w 0)
  | cleared (m : Memory) : Act ctrl ctrl (.clearing []) m (.barrier 1) m
  | look (p : Fin n) (m : Memory) :
      Act ctrl p (.turn p) m (.holding p (m.words .aliveMask)) m
  | sign (p : Fin n) (mask : UInt32) (m : Memory) :
      Act ctrl p (.holding p mask) m (.barrier (p + 2))
        (m.set .aliveMask (mask ||| 1 <<< UInt32.ofNat p))
  | pass (p : Fin n) (i : Nat) (m : Memory) (below : i < n) (other : i ≠ p) :
      Act ctrl p (.turn i) m (.barrier (i + 2)) m
  | finish (p : Fin n) (m : Memory) (other : p ≠ ctrl) :
      Act ctrl p (.turn n) m (.barrier (n + 2)) m
  | last (m : Memory) : Act ctrl ctrl (.turn n) m .counting m
  | count (m : Memory) :
      Act ctrl ctrl .counting m .publishing (m.set .nbCores (UInt32.ofNat n))
  | publish (m : Memory) :
      Act ctrl ctrl .publishing m (.barrier (n + 2)) (m.set .magic mboxMagic)

def waits : Place → Prop
  | .barrier _ => True
  | _ => False

def resume (n : Nat) : Place → Place
  | .barrier 0 => .entering
  | .barrier (k + 1) => if k ≤ n then .turn k else .serving
  | place => place

def boot (ctrl : Fin n) : Team (Fin n) Place Memory where
  act := Act ctrl
  around _ _ := False
  waits := waits
  resume := resume n

/-- Every core is at its reset vector. -/
def reset (ctrl : Fin n) (image : Image) (m : Memory) : Config (Fin n) Place Memory :=
  ⟨fun p => if p = ctrl then .loading image.stores else .loading [], m⟩

/-! ### The mask -/

/-- The bits of the first `k` cores. -/
def signed : Nat → UInt32
  | 0 => 0
  | k + 1 => signed k ||| 1 <<< UInt32.ofNat k

theorem signed_toNat (k : Nat) (small : k ≤ 32) : (signed k).toNat = 2 ^ k - 1 := by
  induction k with
  | zero => rfl
  | succ k ih =>
      have below : k < 32 := small
      have shift : ((1 : UInt32) <<< UInt32.ofNat k).toNat = 2 ^ k := by
        rw [UInt32.toNat_shiftLeft, UInt32.toNat_ofNat_of_lt' (below.trans (by decide)),
          Nat.mod_eq_of_lt below, Nat.shiftLeft_eq]
        have top : 2 ^ k < 2 ^ 32 := Nat.pow_lt_pow_right (by decide) below
        rw [show (1 : UInt32).toNat = 1 from rfl, Nat.one_mul, Nat.mod_eq_of_lt top]
      rw [signed, UInt32.toNat_or, ih below.le, shift]
      refine Nat.eq_of_testBit_eq fun i => ?_
      rw [Nat.testBit_or, Nat.testBit_two_pow_sub_one, Nat.testBit_two_pow,
        Nat.testBit_two_pow_sub_one, ← Bool.decide_or, decide_eq_decide]
      omega

theorem signed_bit (k i : Nat) (small : k ≤ 32) :
    (signed k).toNat.testBit i = decide (i < k) := by
  rw [signed_toNat k small, Nat.testBit_two_pow_sub_one]

/-! ### Who is where

Cores between the same two barriers are in the same lap; `lap` counts them. -/

def lap (n : Nat) : Place → Nat
  | .loading _ => 0
  | .entering | .clearing _ => 1
  | .turn i | .holding i _ => min (i + 2) (n + 2)
  | .counting | .publishing => n + 2
  | .barrier k => min k (n + 2)
  | .serving => n + 3

theorem boot_laps (ctrl : Fin n) : Laps (boot ctrl) (lap n) Nat.succ where
  act := by
    intro p l s l' s' _ taken
    cases taken <;> simp only [lap] <;> omega
  resume := by
    intro l waiting
    cases l with
    | barrier k =>
        rcases k with _ | k
        · rfl
        · show lap n (if k ≤ n then .turn k else .serving) = _
          by_cases more : k ≤ n
          · rw [if_pos more]
            simp only [lap]
            omega
          · rw [if_neg more]
            simp only [lap]
            omega
    | _ => exact waiting.elim

/-- Words that boot leaves at zero. -/
def Zeroed (m : Memory) : Prop :=
  m.words .trapCause = 0 ∧ m.words .doneSeq = 0 ∧ m.words .seq = 0

/-- The mailbox of a cluster that is up. -/
structure SignedIn (n : Nat) (m : Memory) : Prop where
  magic : m.words .magic = mboxMagic
  alive : m.words .aliveMask = signed n
  cores : m.words .nbCores = UInt32.ofNat n
  zeroed : Zeroed m

def Filled (image : Image) (m : Memory) : Prop :=
  ∀ one ∈ image.stores, m.tcdm one.1 = one.2

def Sealed (n : Nat) : Place → Prop
  | .barrier k => k = n + 2
  | .serving => True
  | _ => False

/-- What core `p` may count on at its place: the words that only it writes in this
lap, and those nobody writes any more. -/
def Knows (ctrl : Fin n) (image : Image) (p : Fin n) : Place → Memory → Prop
  | .loading left, m => (p ≠ ctrl → left = []) ∧ (p = ctrl →
      ∃ before, image.stores = before ++ left ∧ ∀ one ∈ before, m.tcdm one.1 = one.2)
  | .entering, m => Filled image m
  | .clearing left, m => p = ctrl ∧ Filled image m ∧ ∀ w ∈ cleared, w ∈ left ∨ m.words w = 0
  | .turn i, m => Filled image m ∧ Zeroed m ∧ i ≤ n ∧
      (i = p ∨ i = n → m.words .aliveMask = signed i)
  | .holding i mask, m => Filled image m ∧ Zeroed m ∧ i = p ∧ m.words .aliveMask = signed i ∧
      mask = signed i
  | .counting, m => p = ctrl ∧ Filled image m ∧ Zeroed m ∧ m.words .aliveMask = signed n
  | .publishing, m => p = ctrl ∧ Filled image m ∧ Zeroed m ∧ m.words .aliveMask = signed n ∧
      m.words .nbCores = UInt32.ofNat n
  | .barrier 0, m => p = ctrl → Filled image m
  | .barrier 1, m => Filled image m ∧ (p = ctrl → Zeroed m ∧ m.words .aliveMask = signed 0)
  | .barrier (k + 2), m => Filled image m ∧ Zeroed m ∧ k ≤ n ∧
      (k = p → m.words .aliveMask = signed (k + 1)) ∧ (k = n → p = ctrl → SignedIn n m)
  | .serving, m => Filled image m ∧ SignedIn n m

def Holds (ctrl : Fin n) (image : Image) (p : Fin n) (l : Place) (m : Memory) : Prop :=
  Knows ctrl image p l m ∧ (p = ctrl → m.words .magic = mboxMagic → Sealed n l)

@[simp] theorem set_words (m : Memory) (w other : Word) (v : UInt32) :
    (m.set w v).words other = if other = w then v else m.words other := rfl

@[simp] theorem set_tcdm (m : Memory) (w : Word) (v : UInt32) : (m.set w v).tcdm = m.tcdm := rfl

@[simp] theorem fill_words (m : Memory) (a : Nat) (v : UInt32) : (m.fill a v).words = m.words := rfl

theorem set_filled {image : Image} {m : Memory} (filled : Filled image m) (w : Word) (v : UInt32) :
    Filled image (m.set w v) := filled

theorem set_zeroed {m : Memory} (zeroed : Zeroed m) {w : Word} (v : UInt32)
    (other : w = .aliveMask ∨ w = .nbCores ∨ w = .magic) : Zeroed (m.set w v) := by
  rcases other with rfl | rfl | rfl <;> simpa [Zeroed] using zeroed

/-! ### Every access keeps what the cores know -/

theorem stores_ascend {image : Image} (laid : image.Laid) :
    image.stores.Pairwise fun one two => one.1 < two.1 := by
  unfold Image.Laid at laid
  refine List.pairwise_append.mpr ⟨?_, ?_, ?_⟩
  · refine List.pairwise_iff_getElem.mpr fun i j low high order => ?_
    simp only [List.getElem_map, List.getElem_zipIdx]
    omega
  · refine List.pairwise_iff_getElem.mpr fun i j low high order => ?_
    simp only [List.getElem_map, List.getElem_range]
    omega
  · intro one first two second
    obtain ⟨⟨v, i⟩, member, rfl⟩ := List.mem_map.mp first
    obtain ⟨j, _, rfl⟩ := List.mem_map.mp second
    have inside := List.snd_lt_of_mem_zipIdx member
    show image.dataStart + 4 * i < image.bssStart + 4 * j
    simp only at inside
    omega

theorem fill_kept {image : Image} (laid : image.Laid) {before rest : List (Nat × UInt32)}
    {a : Nat} {v : UInt32} (split : image.stores = before ++ (a, v) :: rest) {m : Memory}
    (done : ∀ one ∈ before, m.tcdm one.1 = one.2) :
    ∀ one ∈ before ++ [(a, v)], (m.fill a v).tcdm one.1 = one.2 := by
  have ascend := stores_ascend laid
  rw [split] at ascend
  obtain ⟨_, _, apart⟩ := List.pairwise_append.mp ascend
  intro one member
  show (if one.1 = a then v else m.tcdm one.1) = one.2
  rcases List.mem_append.mp member with old | new
  · have below : one.1 < a := apart one old (a, v) List.mem_cons_self
    rw [if_neg below.ne]
    exact done one old
  · rw [List.mem_singleton.mp new]
    exact if_pos rfl

variable {ctrl : Fin n} {image : Image}

theorem own_access (laid : image.Laid) (p : Fin n) (l : Place) (m : Memory) (l' : Place)
    (m' : Memory) (taken : Act ctrl p l m l' m') (before : Holds ctrl image p l m) :
    Holds ctrl image p l' m' := by
  obtain ⟨knows, magic⟩ := before
  cases taken with
  | load a v rest =>
      obtain ⟨stored, split, done⟩ := knows.2 rfl
      exact ⟨⟨fun other => absurd rfl other, fun _ =>
        ⟨stored ++ [(a, v)], by simp [split], fill_kept laid split done⟩⟩, magic⟩
  | loaded =>
      refine ⟨fun mine => ?_, fun mine set => (magic mine set).elim⟩
      obtain ⟨stored, split, done⟩ := knows.2 mine
      intro one member
      rw [split, List.append_nil] at member
      exact done one member
  | enter => exact ⟨⟨rfl, knows, fun w member => Or.inl member⟩, magic⟩
  | skip _ _ other =>
      exact ⟨⟨knows, fun mine => absurd mine other⟩, fun mine _ => absurd mine other⟩
  | clear w rest =>
      obtain ⟨_, filled, zero⟩ := knows
      refine ⟨⟨rfl, set_filled filled w 0, fun one member => ?_⟩, fun _ set => ?_⟩
      · by_cases here : one = w
        · subst here
          exact Or.inr (if_pos rfl)
        · rcases zero one member with later | done
          · exact Or.inl ((List.mem_cons.mp later).resolve_left here)
          · exact Or.inr ((if_neg here).trans done)
      · by_cases here : Word.magic = w
        · simp only [set_words, if_pos here] at set
          exact absurd set (by decide)
        · simp only [set_words, if_neg here] at set
          exact magic rfl set
  | cleared =>
      obtain ⟨_, filled, zero⟩ := knows
      have zero : ∀ w ∈ cleared, m.words w = 0 := fun w member =>
        (zero w member).resolve_left List.not_mem_nil
      refine ⟨⟨filled, fun _ => ⟨⟨?_, ?_, ?_⟩, ?_⟩⟩, fun mine set => (magic mine set).elim⟩
      · exact zero _ (by decide)
      · exact zero _ (by decide)
      · exact zero _ (by decide)
      · exact zero _ (by decide)
  | look =>
      obtain ⟨filled, zeroed, _, alive⟩ := knows
      exact ⟨⟨filled, zeroed, rfl, alive (Or.inl rfl), alive (Or.inl rfl)⟩, magic⟩
  | sign _ mask =>
      obtain ⟨filled, zeroed, _, alive, rfl⟩ := knows
      refine ⟨⟨set_filled filled _ _, set_zeroed zeroed _ (Or.inl rfl), p.isLt.le, fun _ => ?_,
        fun last => absurd last p.isLt.ne⟩, fun mine set => ?_⟩
      · simp [signed]
      · simp only [set_words, reduceCtorEq, if_false] at set
        exact (magic mine set).elim
  | pass _ i _ below other =>
      obtain ⟨filled, zeroed, bound, _⟩ := knows
      exact ⟨⟨filled, zeroed, bound, fun mine => absurd mine other,
        fun last => absurd last below.ne⟩, fun mine set => (magic mine set).elim⟩
  | finish _ _ other =>
      obtain ⟨filled, zeroed, bound, _⟩ := knows
      exact ⟨⟨filled, zeroed, bound, fun mine => absurd mine.symm p.isLt.ne,
        fun _ mine => absurd mine other⟩, fun mine _ => absurd mine other⟩
  | last =>
      obtain ⟨filled, zeroed, _, alive⟩ := knows
      exact ⟨⟨rfl, filled, zeroed, alive (Or.inr rfl)⟩, magic⟩
  | count =>
      obtain ⟨_, filled, zeroed, alive⟩ := knows
      refine ⟨⟨rfl, set_filled filled _ _, set_zeroed zeroed _ (Or.inr (Or.inl rfl)), ?_, ?_⟩,
        fun mine set => ?_⟩
      · simpa using alive
      · simp
      · simp only [set_words, reduceCtorEq, if_false] at set
        exact (magic mine set).elim
  | publish =>
      obtain ⟨_, filled, zeroed, alive, cores⟩ := knows
      have later : Zeroed (m.set .magic mboxMagic) :=
        set_zeroed zeroed mboxMagic (Or.inr (Or.inr rfl))
      refine ⟨⟨set_filled filled _ _, later, le_refl n,
        fun mine => absurd mine.symm ctrl.isLt.ne, fun _ _ => ⟨?_, ?_, ?_, later⟩⟩,
        fun _ _ => rfl⟩
      · simp
      · simpa using alive
      · simpa using cores

theorem fill_stable {q : Fin n} (other : q ≠ ctrl) {place : Place} (same : lap n place = 0)
    {m : Memory} (a : Nat) (v : UInt32) (knows : Knows ctrl image q place m) :
    Knows ctrl image q place (m.fill a v) := by
  cases place with
  | loading left => exact ⟨knows.1, fun mine => absurd mine other⟩
  | barrier k =>
      rcases k with _ | k
      · exact fun mine => absurd mine other
      · simp only [lap] at same
        omega
  | entering | clearing left => cases same
  | turn i | holding i mask | counting | publishing | serving =>
      simp only [lap] at same
      omega

theorem clear_stable {q : Fin n} (other : q ≠ ctrl) {place : Place} (same : lap n place = 1)
    {m : Memory} (w : Word) (v : UInt32) (knows : Knows ctrl image q place m) :
    Knows ctrl image q place (m.set w v) := by
  cases place with
  | loading left => cases same
  | entering => exact knows
  | clearing left => exact absurd knows.1 other
  | barrier k =>
      rcases k with _ | _ | k
      · exact fun mine => absurd mine other
      · exact ⟨knows.1, fun mine => absurd mine other⟩
      · simp only [lap] at same
        omega
  | turn i | holding i mask | counting | publishing | serving =>
      simp only [lap] at same
      omega

theorem sign_stable {p q : Fin n} (other : q ≠ p) {place : Place}
    (same : lap n place = lap n (.turn p)) {m : Memory} (v : UInt32)
    (knows : Knows ctrl image q place m) : Knows ctrl image q place (m.set .aliveMask v) := by
  have below := p.isLt
  have apart : (p : Nat) ≠ q := fun index => other (Fin.ext index.symm)
  cases place with
  | turn i =>
      obtain ⟨filled, zeroed, bound, _⟩ := knows
      simp only [lap] at same
      refine ⟨set_filled filled _ _, set_zeroed zeroed v (Or.inl rfl), bound, fun mine => ?_⟩
      omega
  | holding i mask =>
      obtain ⟨_, _, mine, _⟩ := knows
      simp only [lap] at same
      omega
  | barrier k =>
      simp only [lap] at same
      rcases k with _ | _ | k
      · omega
      · omega
      · obtain ⟨filled, zeroed, bound, _⟩ := knows
        refine ⟨set_filled filled _ _, set_zeroed zeroed v (Or.inl rfl), bound, ?_, ?_⟩
        · intro mine
          omega
        · intro last
          omega
  | loading left | entering | clearing left | counting | publishing | serving =>
      simp only [lap] at same
      omega

theorem seal_stable {q : Fin n} (other : q ≠ ctrl) {place : Place} (same : lap n place = n + 2)
    {m : Memory} {w : Word} (v : UInt32) (which : w = .nbCores ∨ w = .magic)
    (knows : Knows ctrl image q place m) : Knows ctrl image q place (m.set w v) := by
  have alive : (m.set w v).words .aliveMask = m.words .aliveMask := by
    rcases which with rfl | rfl <;> rfl
  cases place with
  | turn i =>
      obtain ⟨filled, zeroed, bound, mask⟩ := knows
      exact ⟨filled, set_zeroed zeroed v (Or.inr which), bound, by rwa [alive]⟩
  | holding i mask =>
      obtain ⟨filled, zeroed, mine, mask⟩ := knows
      exact ⟨filled, set_zeroed zeroed v (Or.inr which), mine, by rwa [alive]⟩
  | barrier k =>
      rcases k with _ | _ | k
      · exact fun mine => absurd mine other
      · exact ⟨knows.1, fun mine => absurd mine other⟩
      · obtain ⟨filled, zeroed, bound, mask, _⟩ := knows
        exact ⟨filled, set_zeroed zeroed v (Or.inr which), bound, by rwa [alive],
          fun _ mine => absurd mine other⟩
  | counting | publishing => exact absurd knows.1 other
  | loading left | entering | clearing left | serving =>
      simp only [lap] at same
      omega

theorem other_access (p : Fin n) (l : Place) (m : Memory) (l' : Place) (m' : Memory)
    (taken : Act ctrl p l m l' m') (mine : Holds ctrl image p l m) (q : Fin n) (place : Place)
    (other : q ≠ p) (same : lap n place = lap n l) (before : Holds ctrl image q place m) :
    Holds ctrl image q place m' := by
  obtain ⟨knows, magic⟩ := before
  cases taken with
  | load a v rest => exact ⟨fill_stable other same a v knows, magic⟩
  | clear w rest =>
      exact ⟨clear_stable other same w 0 knows, fun mine => absurd mine other⟩
  | sign _ mask =>
      refine ⟨sign_stable other same _ knows, fun mine set => magic mine ?_⟩
      simpa using set
  | count => exact ⟨seal_stable other same _ (Or.inl rfl) knows, fun mine => absurd mine other⟩
  | publish => exact ⟨seal_stable other same _ (Or.inr rfl) knows, fun mine => absurd mine other⟩
  | _ => exact ⟨knows, magic⟩

theorem gathered_knows {place : Fin n → Place} {m : Memory}
    (gathered : ∀ p, waits (place p)) (level : Level (lap n) ⟨place, m⟩)
    (all : ∀ p, Holds ctrl image p (place p) m) (p : Fin n) :
    Holds ctrl image p (resume n (place p)) m := by
  obtain ⟨turn, same⟩ := level
  have same : ∀ q, lap n (place q) = turn := same
  have here : ∀ q, ∃ k, place q = .barrier k ∧ min k (n + 2) = turn := by
    intro q
    have known := same q
    have waiting := gathered q
    cases shape : place q with
    | barrier k =>
        rw [shape] at known
        exact ⟨k, rfl, known⟩
    | _ =>
        rw [shape] at waiting
        exact waiting.elim
  obtain ⟨k, mine, lap_k⟩ := here p
  obtain ⟨j, control, lap_j⟩ := here ctrl
  have own := all p
  have its := all ctrl
  rw [mine] at own
  rw [control] at its
  refine ⟨?_, ?_⟩
  · rw [mine]
    rcases k with _ | _ | k
    · have first : j = 0 := by omega
      subst first
      exact its.1 rfl
    · have first : j = 1 := by omega
      subst first
      obtain ⟨filled, known⟩ := its.1
      obtain ⟨zeroed, alive⟩ := known rfl
      show Knows ctrl image p (if 0 ≤ n then .turn 0 else .serving) m
      rw [if_pos (Nat.zero_le n)]
      refine ⟨filled, zeroed, Nat.zero_le n, fun _ => alive⟩
    · obtain ⟨filled, zeroed, bound, _⟩ := own.1
      show Knows ctrl image p (if k + 1 ≤ n then .turn (k + 1) else .serving) m
      by_cases more : k + 1 ≤ n
      · rw [if_pos more]
        obtain ⟨i, shape, lap_i⟩ := here ⟨k, more⟩
        have known := all ⟨k, more⟩
        rw [shape] at known
        have round : i = k + 2 := by omega
        subst round
        obtain ⟨_, _, _, alive, _⟩ := known.1
        exact ⟨filled, zeroed, more, fun _ => alive rfl⟩
      · rw [if_neg more]
        obtain ⟨i, rfl⟩ : ∃ i, j = i + 2 := ⟨j - 2, by omega⟩
        obtain ⟨_, _, top, _, up⟩ := its.1
        exact ⟨filled, up (by omega) rfl⟩
  · intro isControl set
    subst isControl
    have sealed := own.2 rfl set
    have last : k = n + 2 := sealed
    rw [mine, last]
    show Sealed n (if n + 1 ≤ n then .turn (n + 1) else .serving)
    rw [if_neg (by omega)]
    trivial

theorem boot_assertions (laid : image.Laid) :
    Assertions (boot ctrl) (lap n) (Holds ctrl image) where
  own p l m l' m' _ taken before := own_access laid p l m l' m' taken before
  stable p l m l' m' _ taken mine q place other same before :=
    other_access p l m l' m' taken mine q place other same before
  around _ _ taken := taken.elim
  release _ _ gathered level all := gathered_knows gathered level all

/-! ### Every run -/

theorem reset_level (ctrl : Fin n) (image : Image) (m : Memory) :
    Level (lap n) (reset ctrl image m) := by
  refine ⟨0, fun p => ?_⟩
  show lap n (if p = ctrl then .loading image.stores else .loading []) = 0
  split <;> rfl

theorem reset_holds (ctrl : Fin n) (image : Image) {m : Memory}
    (fresh : m.words .magic ≠ mboxMagic) (p : Fin n) :
    Holds ctrl image p ((reset ctrl image m).place p) m := by
  refine ⟨?_, fun _ set => absurd set fresh⟩
  by_cases mine : p = ctrl
  · have here : (reset ctrl image m).place p = .loading image.stores := if_pos mine
    rw [here]
    exact ⟨fun other => absurd mine other, fun _ => ⟨[], rfl, by simp⟩⟩
  · have here : (reset ctrl image m).place p = .loading [] := if_neg mine
    rw [here]
    exact ⟨fun _ => rfl, fun control => absurd control mine⟩

section Run

variable {m : Memory} {c : Config (Fin n) Place Memory} (laid : image.Laid)
  (fresh : m.words .magic ≠ mboxMagic) (ran : Run (boot ctrl) (reset ctrl image m) c)

include laid fresh ran

theorem run_knows (p : Fin n) : Holds ctrl image p (c.place p) c.shared :=
  run_holds (boot_laps ctrl) (boot_assertions laid) (reset_level ctrl image m)
    (reset_holds ctrl image fresh) ran p

theorem published_signed (published : c.shared.words .magic = mboxMagic) :
    SignedIn n c.shared := by
  obtain ⟨knows, magic⟩ := run_knows laid fresh ran ctrl
  have sealed := magic rfl published
  cases here : c.place ctrl with
  | barrier k =>
      rw [here] at sealed knows
      have last : k = n + 2 := sealed
      subst last
      exact knows.2.2.2.2 rfl rfl
  | serving =>
      rw [here] at knows
      exact knows.2
  | _ =>
      rw [here] at sealed
      exact sealed.elim

theorem started_filled (p : Fin n) (started : lap n (c.place p) ≠ 0) :
    Filled image c.shared := by
  obtain ⟨knows, _⟩ := run_knows laid fresh ran p
  cases here : c.place p with
  | barrier k =>
      rw [here] at knows started
      rcases k with _ | _ | k
      · exact absurd (Nat.zero_min _) started
      · exact knows.1
      · exact knows.1
  | loading left =>
      rw [here] at started
      exact absurd rfl started
  | entering =>
      rw [here] at knows
      exact knows
  | clearing left | counting | publishing =>
      rw [here] at knows
      exact knows.2.1
  | turn i | holding i mask | serving =>
      rw [here] at knows
      exact knows.1

theorem published_still {c' : Config (Fin n) Place Memory}
    (published : c.shared.words .magic = mboxMagic) (taken : Step (boot ctrl) c c') :
    c'.shared = c.shared := by
  have sealed := (run_knows laid fresh ran ctrl).2 rfl published
  have level := run_level (boot_laps ctrl) (reset_level ctrl image m) ran
  obtain ⟨turn, same⟩ := level
  have late : n + 2 ≤ turn := by
    rw [← same ctrl]
    cases here : c.place ctrl with
    | barrier k =>
        rw [here] at sealed
        have last : k = n + 2 := sealed
        simp [lap, last]
    | serving => simp [lap]
    | _ =>
        rw [here] at sealed
        exact sealed.elim
  cases taken with
  | act p l s working taken =>
      have mine := same p
      show s = c.shared
      generalize place : c.place p = at_p at taken mine
      cases taken with
      | load | clear =>
          simp only [lap] at mine
          omega
      | sign =>
          have below := p.isLt
          simp only [lap] at mine
          omega
      | count | publish =>
          rw [place] at sealed
          exact sealed.elim
      | _ => rfl
  | around s taken => exact taken.elim
  | release gathered => rfl

end Run

/-- How many accesses and barriers a core has left, at most. -/
def rank (n : Nat) : Place → Nat
  | .loading left => 8 * n + 18 + left.length
  | .entering => 8 * n + 15
  | .clearing left => 8 * n + 10 + left.length
  | .turn i => 8 * (n - i) + 4
  | .holding i _ => 8 * (n - i) + 3
  | .counting => 3
  | .publishing => 2
  | .barrier k => 8 * (n + 2 - k) + 1
  | .serving => 0

theorem access_rank (p : Fin n) (l : Place) (m : Memory) (l' : Place) (m' : Memory)
    (taken : Act ctrl p l m l' m') : rank n l' < rank n l := by
  cases taken <;> simp [rank, cleared] <;> omega

theorem resume_rank (l : Place) (waiting : waits l) : rank n (resume n l) < rank n l := by
  cases l with
  | barrier k =>
      rcases k with _ | k
      · simp only [resume, rank]
        omega
      · show rank n (if k ≤ n then .turn k else .serving) < _
        by_cases more : k ≤ n
        · rw [if_pos more]
          simp only [rank]
          omega
        · rw [if_neg more]
          simp only [rank]
          omega
  | _ => exact waiting.elim

theorem access_exists {p : Fin n} {l : Place} {m : Memory} (before : Holds ctrl image p l m)
    (working : ¬ waits l) (more : l ≠ .serving) : ∃ l' m', Act ctrl p l m l' m' := by
  obtain ⟨knows, _⟩ := before
  cases l with
  | loading left =>
      rcases left with _ | ⟨⟨a, v⟩, rest⟩
      · exact ⟨_, _, .loaded p m⟩
      · by_cases mine : p = ctrl
        · subst mine
          exact ⟨_, _, .load a v rest m⟩
        · exact absurd (knows.1 mine) (by simp)
  | entering =>
      by_cases mine : p = ctrl
      · subst mine
        exact ⟨_, _, .enter m⟩
      · exact ⟨_, _, .skip p m mine⟩
  | clearing left =>
      obtain ⟨rfl, _, _⟩ := knows
      rcases left with _ | ⟨w, rest⟩
      · exact ⟨_, _, .cleared m⟩
      · exact ⟨_, _, .clear w rest m⟩
  | turn i =>
      obtain ⟨_, _, bound, _⟩ := knows
      by_cases mine : i = p
      · subst mine
        exact ⟨_, _, .look p m⟩
      · rcases Nat.lt_or_eq_of_le bound with below | last
        · exact ⟨_, _, .pass p i m below mine⟩
        · subst last
          by_cases control : p = ctrl
          · subst control
            exact ⟨_, _, .last m⟩
          · exact ⟨_, _, .finish p m control⟩
  | holding i mask =>
      obtain ⟨_, _, rfl, _⟩ := knows
      exact ⟨_, _, .sign p mask m⟩
  | counting =>
      obtain ⟨rfl, _⟩ := knows
      exact ⟨_, _, .count m⟩
  | publishing =>
      obtain ⟨rfl, _⟩ := knows
      exact ⟨_, _, .publish m⟩
  | barrier k => exact absurd trivial working
  | serving => exact absurd rfl more

theorem boot_continues {c : Config (Fin n) Place Memory}
    (all : ∀ p, Holds ctrl image p (c.place p) c.shared) (level : Level (lap n) c)
    (more : ∃ p, c.place p ≠ .serving) : ∃ c', Step (boot ctrl) c c' := by
  obtain ⟨turn, same⟩ := level
  by_cases late : turn = n + 3
  · obtain ⟨p, away⟩ := more
    have there := same p
    subst late
    cases here : c.place p with
    | serving => exact absurd here away
    | _ =>
        rw [here] at there
        simp only [lap] at there
        omega
  · refine step_exists c fun p working => ?_
    refine access_exists (all p) working ?_
    intro home
    have there := same p
    rw [home] at there
    exact late there.symm

theorem boot_ends (ctrl : Fin n) :
    WellFounded fun c' c : Config (Fin n) Place Memory => Step (boot ctrl) c c' := by
  have nonempty : Nonempty (Fin n) := ⟨ctrl⟩
  exact runs_end (rank n) (fun _ _ taken => taken) access_rank resume_rank

theorem stopped_serving {m : Memory} {c : Config (Fin n) Place Memory} (laid : image.Laid)
    (fresh : m.words .magic ≠ mboxMagic) (ran : Run (boot ctrl) (reset ctrl image m) c)
    (stuck : ∀ c', ¬ Step (boot ctrl) c c') :
    (∀ p, c.place p = .serving) ∧ c.shared.words .magic = mboxMagic := by
  have home : ∀ p, c.place p = .serving := by
    by_contra away
    obtain ⟨c', taken⟩ := boot_continues (run_knows laid fresh ran)
      (run_level (boot_laps ctrl) (reset_level ctrl image m) ran) (not_forall.mp away)
    exact stuck c' taken
  refine ⟨home, ?_⟩
  have knows := (run_knows laid fresh ran ctrl).1
  rw [home ctrl] at knows
  exact knows.2.magic

/-- However the cores' accesses interleave, boot ends, with every core in the job
loop; no core runs `main` before `.data` and `.bss` are in place; and whoever finds
the magic word finds every core signed in and the mailbox at zero, then and later. -/
theorem sign_in (n : Nat) (small : n ≤ 32) (ctrl : Fin n) (image : Image) (laid : image.Laid)
    (m : Memory) (fresh : m.words .magic ≠ mboxMagic) :
    (WellFounded fun c' c : Config (Fin n) Place Memory => Step (boot ctrl) c c') ∧
      ∀ c, Run (boot ctrl) (reset ctrl image m) c →
        ((∀ c', ¬ Step (boot ctrl) c c') →
          (∀ p, c.place p = .serving) ∧ c.shared.words .magic = mboxMagic) ∧
        (∀ p, lap n (c.place p) ≠ 0 → Filled image c.shared) ∧
        (c.shared.words .magic = mboxMagic →
          (∀ i, (c.shared.words .aliveMask).toNat.testBit i = decide (i < n)) ∧
          c.shared.words .nbCores = UInt32.ofNat n ∧ Zeroed c.shared ∧
          ∀ c', Run (boot ctrl) c c' → c'.shared = c.shared) := by
  refine ⟨boot_ends ctrl, fun c ran => ⟨stopped_serving laid fresh ran,
    started_filled laid fresh ran, fun published => ?_⟩⟩
  have up := published_signed laid fresh ran published
  refine ⟨fun i => ?_, up.cores, up.zeroed, fun c' later => ?_⟩
  · rw [up.alive]
    exact signed_bit n i small
  · induction later with
    | refl => rfl
    | tail before taken ih =>
        have still := published_still laid fresh (ran.trans before)
          (by rw [ih]; exact published) taken
        rw [still, ih]

/-- A cluster's nine cores, the control core the last, come up and are all there. -/
theorem sign_in_nine : ∃ c, Run (boot (8 : Fin 9))
      (reset 8 ⟨0x10000000, [1, 2], 0x10000008, 4⟩ ⟨fun _ => 7, fun _ => 0⟩) c ∧
    (∀ p, c.place p = .serving) ∧ c.shared.tcdm 0x10000004 = 2 ∧
      (c.shared.words .aliveMask).toNat.testBit 8 = true ∧
        (c.shared.words .aliveMask).toNat.testBit 9 = false := by
  obtain ⟨ends, sound⟩ := sign_in 9 (by decide) 8 ⟨0x10000000, [1, 2], 0x10000008, 4⟩
    (by unfold Image.Laid; decide) ⟨fun _ => 7, fun _ => 0⟩ (by decide)
  obtain ⟨c, ran, stuck⟩ := run_stops ends
    (reset 8 ⟨0x10000000, [1, 2], 0x10000008, 4⟩ ⟨fun _ => 7, fun _ => 0⟩)
  obtain ⟨home, filled, up⟩ := sound c ran
  obtain ⟨serving, published⟩ := home stuck
  have bits := (up published).1
  refine ⟨c, ran, serving, ?_, bits 8, bits 9⟩
  exact filled 0 (by rw [serving]; decide) (0x10000004, 2) (by decide)

end Boot

end HeteroSim.SignIn
