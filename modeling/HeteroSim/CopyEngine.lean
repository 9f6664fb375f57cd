import Mathlib.Data.List.Basic
import Mathlib.Logic.Relation

/-!
Copies that an engine carries out cell by cell, all outstanding ones at once: a
cell is fetched at one time and put at a later one, in any order. Copies that
keep off each other's cells end as one after the other would.
-/

namespace HeteroSim.CopyEngine

open Relation (ReflTransGen)

/-- `count` cells from `src` on go to `dst` and on. -/
structure Copy where
  dst : Nat
  src : Nat
  count : Nat

inductive Beat (B : Type) where
  | fetch (dst src : Nat)
  | put (dst : Nat) (v : B)

section Engine

variable {B : Type}

def Beat.dst : Beat B → Nat
  | .fetch dst _ => dst
  | .put dst _ => dst

def Copy.beats (one : Copy) : List (Beat B) :=
  (List.range one.count).map fun k => .fetch (one.dst + k) (one.src + k)

def Copy.Target (one : Copy) (a : Nat) : Prop :=
  one.dst ≤ a ∧ a < one.dst + one.count

def Copy.Source (one : Copy) (a : Nat) : Prop :=
  one.src ≤ a ∧ a < one.src + one.count

def store (m : Nat → B) (a : Nat) (v : B) : Nat → B :=
  fun other => if other = a then v else m other

inductive Move : List (Beat B) × (Nat → B) → List (Beat B) × (Nat → B) → Prop
  | fetch (before after : List (Beat B)) (dst src : Nat) (m : Nat → B) :
      Move (before ++ .fetch dst src :: after, m) (before ++ .put dst (m src) :: after, m)
  | put (before after : List (Beat B)) (dst : Nat) (v : B) (m : Nat → B) :
      Move (before ++ .put dst v :: after, m) (before ++ after, store m dst v)

/-- No copy writes what one of them reads, or what another one writes. -/
structure Apart (copies : List Copy) : Prop where
  sources : ∀ one ∈ copies, ∀ two ∈ copies, ∀ a, one.Target a → ¬ two.Source a
  targets : ∀ one ∈ copies, ∀ two ∈ copies, ∀ a, one.Target a → two.Target a → one = two

/-- A beat that belongs to a copy; a fetched value is the one from before them all. -/
def Owed (copies : List Copy) (start : Nat → B) : Beat B → Prop
  | .fetch dst src => ∃ one ∈ copies, ∃ k < one.count, dst = one.dst + k ∧ src = one.src + k
  | .put dst v => ∃ one ∈ copies, ∃ k < one.count, dst = one.dst + k ∧ v = start (one.src + k)

/-- The copies begun so far are under way: each of their cells has its new value or
a beat left. -/
structure UnderWay (copies : List Copy) (start : Nat → B) (beats : List (Beat B))
    (m : Nat → B) : Prop where
  owed : ∀ beat ∈ beats, Owed copies start beat
  kept : ∀ a, (∀ one ∈ copies, ¬ one.Target a) → m a = start a
  moved : ∀ one ∈ copies, ∀ k < one.count,
    (∃ beat ∈ beats, beat.dst = one.dst + k) ∨ m (one.dst + k) = start (one.src + k)

theorem none_underWay (start : Nat → B) : UnderWay [] start [] start :=
  ⟨by simp, fun _ _ => rfl, by simp⟩

variable {copies : List Copy} {start m : Nat → B} {beats : List (Beat B)}

theorem Owed.more {beat : Beat B} (owed : Owed copies start beat) (one : Copy) :
    Owed (copies ++ [one]) start beat := by
  cases beat with
  | fetch dst src =>
      obtain ⟨old, member, rest⟩ := owed
      exact ⟨old, List.mem_append_left _ member, rest⟩
  | put dst v =>
      obtain ⟨old, member, rest⟩ := owed
      exact ⟨old, List.mem_append_left _ member, rest⟩

theorem UnderWay.begin (under : UnderWay copies start beats m) (one : Copy) :
    UnderWay (copies ++ [one]) start (beats ++ one.beats) m where
  owed := by
    intro beat member
    rcases List.mem_append.mp member with old | new
    · exact (under.owed beat old).more one
    · obtain ⟨k, below, rfl⟩ := List.mem_map.mp new
      exact ⟨one, by simp, k, List.mem_range.mp below, rfl, rfl⟩
  kept a outside := under.kept a fun old member => outside old (List.mem_append_left _ member)
  moved := by
    intro two member k below
    rcases List.mem_append.mp member with old | new
    · refine (under.moved two old k below).imp ?_ id
      rintro ⟨beat, inside, here⟩
      exact ⟨beat, List.mem_append_left _ inside, here⟩
    · rw [List.mem_singleton.mp new] at below ⊢
      refine Or.inl ⟨.fetch (one.dst + k) (one.src + k), List.mem_append_right _ ?_, rfl⟩
      exact List.mem_map.mpr ⟨k, List.mem_range.mpr below, rfl⟩

theorem UnderWay.move (apart : Apart copies) (under : UnderWay copies start beats m)
    {beats' : List (Beat B)} {m' : Nat → B} (taken : Move (beats, m) (beats', m')) :
    UnderWay copies start beats' m' := by
  cases taken with
  | fetch before after dst src =>
      have mine := under.owed (.fetch dst src) (by simp)
      obtain ⟨one, member, k, below, here, origin⟩ := mine
      have value : m src = start src := by
        refine under.kept src fun two other target =>
          apart.sources two other one member src target ?_
        exact origin ▸ ⟨Nat.le_add_right _ _, Nat.add_lt_add_left below _⟩
      refine ⟨fun beat inside => ?_, under.kept, fun two other j low => ?_⟩
      · rcases List.mem_append.mp inside with first | later
        · exact under.owed beat (List.mem_append_left _ first)
        · rcases List.mem_cons.mp later with rfl | last
          · exact ⟨one, member, k, below, here, by rw [value, origin]⟩
          · exact under.owed beat (by simp [last])
      · refine (under.moved two other j low).imp ?_ id
        rintro ⟨beat, inside, landed⟩
        rcases List.mem_append.mp inside with first | later
        · exact ⟨beat, List.mem_append_left _ first, landed⟩
        · rcases List.mem_cons.mp later with rfl | last
          · exact ⟨.put dst (m src), by simp, landed⟩
          · exact ⟨beat, by simp [last], landed⟩
  | put before after dst v =>
      have mine := under.owed (.put dst v) (by simp)
      obtain ⟨one, member, k, below, here, value⟩ := mine
      have target : one.Target dst :=
        here ▸ ⟨Nat.le_add_right _ _, Nat.add_lt_add_left below _⟩
      refine ⟨fun beat inside => under.owed beat ?_, fun a outside => ?_, fun two other j low => ?_⟩
      · rcases List.mem_append.mp inside with first | last
        · exact List.mem_append_left _ first
        · exact List.mem_append_right _ (List.mem_cons_of_mem _ last)
      · have away : a ≠ dst := by
          rintro rfl
          exact outside one member target
        exact (if_neg away).trans (under.kept a outside)
      · by_cases same : two.dst + j = dst
        · have its : two.Target dst :=
            same ▸ ⟨Nat.le_add_right _ _, Nat.add_lt_add_left low _⟩
          have equal := apart.targets two other one member dst its target
          subst equal
          have index : j = k := Nat.add_left_cancel (same.trans here)
          subst index
          exact Or.inr ((if_pos same).trans value)
        · refine (under.moved two other j low).imp ?_ fun done => (if_neg same).trans done
          rintro ⟨beat, inside, landed⟩
          rcases List.mem_append.mp inside with first | later
          · exact ⟨beat, List.mem_append_left _ first, landed⟩
          · rcases List.mem_cons.mp later with rfl | last
            · exact absurd landed.symm same
            · exact ⟨beat, List.mem_append_right _ last, landed⟩

theorem Move.busy {e : List (Beat B) × (Nat → B)} (taken : Move (beats, m) e) : beats ≠ [] := by
  cases taken <;> simp

theorem UnderWay.settled (under : UnderWay copies start [] m) (a : Nat) :
    (∃ one ∈ copies, one.Target a ∧ m a = start (one.src + (a - one.dst))) ∨
      ((∀ one ∈ copies, ¬ one.Target a) ∧ m a = start a) := by
  by_cases touched : ∃ one ∈ copies, one.Target a
  · obtain ⟨one, member, low, high⟩ := touched
    rcases under.moved one member (a - one.dst) (by omega) with ⟨_, absent, _⟩ | done
    · simp at absent
    · rw [Nat.add_sub_cancel' low] at done
      exact Or.inl ⟨one, member, ⟨low, high⟩, done⟩
  · have outside : ∀ one ∈ copies, ¬ one.Target a :=
      fun one member target => touched ⟨one, member, target⟩
    exact Or.inr ⟨outside, under.kept a outside⟩

theorem drains (beats : List (Beat B)) (m : Nat → B) :
    ∃ m', ReflTransGen Move (beats, m) ([], m') := by
  induction beats generalizing m with
  | nil => exact ⟨m, .refl⟩
  | cons beat rest ih =>
      cases beat with
      | fetch dst src =>
          obtain ⟨m', later⟩ := ih (store m dst (m src))
          exact ⟨m', .head (.fetch [] rest dst src m) (.head (.put [] rest dst (m src) m) later)⟩
      | put dst v =>
          obtain ⟨m', later⟩ := ih (store m dst v)
          exact ⟨m', .head (.put [] rest dst v m) later⟩

end Engine

end HeteroSim.CopyEngine
