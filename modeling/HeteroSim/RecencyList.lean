import Mathlib.Data.List.Basic
import Mathlib.Data.List.Nodup
import Mathlib.Data.List.Perm.Basic

/-!
Lists ordered by use, the latest first. A store of `w` places that gives up what
was used longest ago holds the first `w` of its history; a larger one holds what a
smaller one holds, in the same order.
-/

namespace HeteroSim.RecencyList

variable {α : Type} [DecidableEq α]

def touch (x : α) (items : List α) : List α := x :: items.erase x

/-- A store of `w` places after a use. -/
def use (w : Nat) (x : α) (items : List α) : List α := (touch x items).take w

/-- The elements of a history, the latest use first. The history is latest first too. -/
def recent : List α → List α
  | [] => []
  | x :: older => touch x (recent older)

@[simp] theorem mem_touch {x y : α} {items : List α} : y ∈ touch x items ↔ y = x ∨ y ∈ items := by
  by_cases same : y = x
  · simp [touch, same]
  · simp [touch, same, List.mem_erase_of_ne same]

theorem touch_nodup {x : α} {items : List α} (nodup : items.Nodup) : (touch x items).Nodup :=
  List.nodup_cons.mpr ⟨nodup.not_mem_erase, nodup.erase x⟩

theorem mem_recent {x : α} (history : List α) : x ∈ recent history ↔ x ∈ history := by
  induction history with
  | nil => rfl
  | cons y older ih => rw [recent, mem_touch, ih, List.mem_cons]

theorem take_erase {x : α} {items : List α} {w : Nat} (absent : x ∉ items.take w) :
    (items.erase x).take w = items.take w := by
  induction items generalizing w with
  | nil => rfl
  | cons y rest ih =>
      cases w with
      | zero => rfl
      | succ w =>
          rw [List.take_succ_cons, List.mem_cons, not_or] at absent
          rw [List.erase_cons_tail (by simpa using fun same : y = x => absent.1 same.symm),
            List.take_succ_cons, List.take_succ_cons, ih absent.2]

theorem take_erase_mem {x : α} {items : List α} {w : Nat} (member : x ∈ items.take w) :
    (items.erase x).take (w - 1) = (items.take w).erase x := by
  induction items generalizing w with
  | nil => simp at member
  | cons y rest ih =>
      cases w with
      | zero => simp at member
      | succ w =>
          by_cases same : y = x
          · subst same
            simp
          · rw [List.take_succ_cons, List.mem_cons] at member
            have inside := member.resolve_left fun eq => same eq.symm
            cases w with
            | zero => simp at inside
            | succ w =>
                rw [List.erase_cons_tail (by simpa using same), List.take_succ_cons,
                  List.erase_cons_tail (by simpa using same), Nat.add_sub_cancel,
                  List.take_succ_cons, ← ih inside, Nat.add_sub_cancel]

theorem use_take (w : Nat) (x : α) (items : List α) :
    use w x (items.take w) = use w x items := by
  cases w with
  | zero => rfl
  | succ w =>
      simp only [use, touch, List.take_succ_cons]
      by_cases member : x ∈ items.take (w + 1)
      · rw [← take_erase_mem member, Nat.add_sub_cancel, List.take_take, Nat.min_self]
      · have earlier : x ∉ items.take w :=
          fun inside => member (List.take_subset_take_left _ (Nat.le_succ w) inside)
        rw [List.erase_of_not_mem member, take_erase earlier, List.take_take,
          Nat.min_eq_left (Nat.le_succ w)]

theorem use_recent (w : Nat) (x : α) (history : List α) :
    use w x ((recent history).take w) = (recent (x :: history)).take w :=
  use_take w x (recent history)

theorem use_nodup {w : Nat} {x : α} {items : List α} (nodup : items.Nodup) :
    (use w x items).Nodup := (touch_nodup nodup).sublist (List.take_sublist _ _)

theorem use_length (w : Nat) (x : α) (items : List α) : (use w x items).length ≤ w :=
  List.length_take_le _ _

theorem use_held {w : Nat} {x : α} {items : List α} (member : x ∈ items)
    (room : items.length ≤ w) : use w x items = touch x items := by
  refine List.take_of_length_le ?_
  have nonempty := List.length_pos_of_mem member
  rw [touch, List.length_cons, List.length_erase_of_mem member, Nat.sub_add_cancel nonempty]
  exact room

theorem use_room {w : Nat} {x : α} {items : List α} (absent : x ∉ items)
    (room : items.length < w) : use w x items = x :: items := by
  rw [use, touch, List.erase_of_not_mem absent]
  exact List.take_of_length_le room

theorem use_full {x : α} {items : List α} (absent : x ∉ items) (nonempty : items ≠ []) :
    use items.length x items = x :: items.dropLast := by
  obtain ⟨w, same⟩ :=
    Nat.exists_eq_succ_of_ne_zero (Nat.pos_iff_ne_zero.mp (List.length_pos_iff.mpr nonempty))
  rw [use, touch, List.erase_of_not_mem absent, List.dropLast_eq_take, same,
    List.take_succ_cons, Nat.succ_sub_one]

theorem mem_take_erase {x y : α} {items : List α} {w : Nat} (member : x ∈ items.take w)
    (apart : x ≠ y) : x ∈ (items.erase y).take w := by
  by_cases inside : y ∈ items.take w
  · have kept : x ∈ (items.take w).erase y := (List.mem_erase_of_ne apart).mpr member
    rw [← take_erase_mem inside] at kept
    exact List.take_subset_take_left _ (Nat.sub_le w 1) kept
  · rwa [take_erase inside]

theorem mem_recent_take {x : α} {uses older : List α} (member : x ∈ uses) :
    x ∈ (recent (uses ++ older)).take uses.length := by
  induction uses with
  | nil => cases member
  | cons y rest ih =>
      rw [List.cons_append, recent, touch, List.length_cons, List.take_succ_cons, List.mem_cons]
      by_cases same : x = y
      · exact Or.inl same
      · have inside := ih ((List.mem_cons.mp member).resolve_left same)
        exact Or.inr (mem_take_erase inside same)

/-- Two stores with the same uses: the smaller holds a part of the larger, in the
same order, and all of it while it has room. -/
structure Inside (w w' : Nat) (items items' : List α) : Prop where
  sublist : items.Sublist items'
  nodup : items'.Nodup
  small : items.length ≤ w
  large : items'.length ≤ w'
  room : items.length < w → items = items'

omit [DecidableEq α] in
theorem sublist_dropLast {items items' : List α} (sublist : items.Sublist items') :
    items.dropLast.Sublist items'.dropLast := by
  have tails := sublist.reverse.tail
  rwa [List.tail_reverse, List.tail_reverse, List.reverse_sublist] at tails

theorem inside_touch {w w' : Nat} {x : α} {items items' : List α}
    (inside : Inside w w' items items') (member : x ∈ items) :
    Inside w w' (touch x items) (touch x items') := by
  have member' := inside.sublist.subset member
  have same : ∀ held : List α, x ∈ held → (touch x held).length = held.length := by
    intro held within
    rw [touch, List.length_cons, List.length_erase_of_mem within,
      Nat.sub_add_cancel (List.length_pos_of_mem within)]
  constructor
  · exact (inside.sublist.erase x).cons_cons x
  · exact touch_nodup inside.nodup
  · rw [same items member]
    exact inside.small
  · rw [same items' member']
    exact inside.large
  · rw [same items member]
    exact fun room => by rw [inside.room room]

theorem inside_use {w w' : Nat} {x : α} {items items' : List α} (places : 0 < w) (le : w ≤ w')
    (inside : Inside w w' items items') : Inside w w' (use w x items) (use w' x items') := by
  by_cases member : x ∈ items
  · rw [use_held member inside.small, use_held (inside.sublist.subset member) inside.large]
    exact inside_touch inside member
  · refine ⟨?_, use_nodup inside.nodup, use_length _ _ _, use_length _ _ _, ?_⟩
    · by_cases room : items.length < w
      · have same := inside.room room
        subst same
        rw [use_room member room, use_room member (Nat.lt_of_lt_of_le room le)]
      · have full : items.length = w := Nat.le_antisymm inside.small (Nat.le_of_not_lt room)
        have nonempty : items ≠ [] := List.length_pos_iff.mp (by omega)
        rw [← full, use_full member nonempty]
        have kept : items.Sublist (items'.erase x) := by
          have erased := inside.sublist.erase x
          rwa [List.erase_of_not_mem member] at erased
        by_cases member' : x ∈ items'
        · rw [use_held member' inside.large]
          exact ((List.dropLast_sublist items).trans kept).cons_cons x
        · rw [List.erase_of_not_mem member'] at kept
          by_cases room' : items'.length < w'
          · rw [use_room member' room']
            exact ((List.dropLast_sublist items).trans kept).cons_cons x
          · have full' : items'.length = w' :=
              Nat.le_antisymm inside.large (Nat.le_of_not_lt room')
            rw [← full', use_full member' (List.ne_nil_of_length_pos (by omega))]
            exact (sublist_dropLast kept).cons_cons x
    · intro room
      by_cases before : items.length < w
      · have same := inside.room before
        subst same
        rw [use_room member before, use_room member (Nat.lt_of_lt_of_le before le)]
      · have full : items.length = w := Nat.le_antisymm inside.small (Nat.le_of_not_lt before)
        rw [← full, use_full member (List.length_pos_iff.mp (by omega)), List.length_cons,
          List.length_dropLast, Nat.sub_add_cancel (by omega)] at room
        exact absurd room (Nat.lt_irrefl _)

theorem inside_touch_large {w w' : Nat} {x : α} {items items' : List α}
    (inside : Inside w w' items items') (absent : x ∉ items) (member : x ∈ items') :
    Inside w w' items (touch x items') := by
  have length : (touch x items').length = items'.length := by
    rw [touch, List.length_cons, List.length_erase_of_mem member,
      Nat.sub_add_cancel (List.length_pos_of_mem member)]
  constructor
  · have erased := inside.sublist.erase x
    rw [List.erase_of_not_mem absent] at erased
    exact erased.cons x
  · exact touch_nodup inside.nodup
  · exact inside.small
  · rw [length]
    exact inside.large
  · intro room
    rw [inside.room room] at absent
    exact absurd member absent

end HeteroSim.RecencyList
