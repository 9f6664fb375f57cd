import Mathlib.Data.Finset.Card
import Mathlib.Data.List.Nodup

/-!
A list without repeats, by a key: of the elements with one key the first stays.
-/

namespace HeteroSim.FirstOccurrences

universe u v w

variable {α : Type u} {κ : Type v} {μ : Type w} [DecidableEq κ] [DecidableEq μ]

def firsts (key : α → κ) : List α → List α
  | [] => []
  | a :: rest => a :: (firsts key rest).filter fun b => decide (key b ≠ key a)

theorem firsts_sublist (key : α → κ) (l : List α) : (firsts key l).Sublist l := by
  induction l with
  | nil => exact List.Sublist.slnil
  | cons a rest ih => exact (List.filter_sublist.trans ih).cons_cons a

theorem firsts_represented (key : α → κ) (l : List α) :
    ∀ a ∈ l, ∃ b ∈ firsts key l, key b = key a := by
  induction l with
  | nil => exact fun a member => absurd member List.not_mem_nil
  | cons c rest ih =>
      intro a member
      by_cases same : key c = key a
      · exact ⟨c, List.mem_cons_self, same⟩
      · rcases List.mem_cons.mp member with rfl | later
        · exact absurd rfl same
        · obtain ⟨b, kept, equal⟩ := ih a later
          have other : key b ≠ key c := fun known => same (known.symm.trans equal)
          exact ⟨b,
            List.mem_cons_of_mem c (List.mem_filter.mpr ⟨kept, decide_eq_true other⟩), equal⟩

theorem firsts_distinct (key : α → κ) (l : List α) : ((firsts key l).map key).Nodup := by
  induction l with
  | nil => exact List.nodup_nil
  | cons a rest ih =>
      rw [firsts, List.map_cons, List.nodup_cons]
      constructor
      · rintro member
        obtain ⟨b, kept, same⟩ := List.mem_map.mp member
        exact of_decide_eq_true (List.mem_filter.mp kept).2 same
      · exact ih.sublist (List.filter_sublist.map key)

theorem firsts_injective (key : α → κ) (l : List α) {a b : α} (left : a ∈ firsts key l)
    (right : b ∈ firsts key l) (same : key a = key b) : a = b :=
  List.inj_on_of_nodup_map (firsts_distinct key l) left right same

theorem firsts_whole (key : α → κ) (l : List α) :
    (firsts key l).length = l.length ↔ (l.map key).Nodup := by
  constructor
  · intro long
    have same := (firsts_sublist key l).eq_of_length long
    rw [← same]
    exact firsts_distinct key l
  · intro distinct
    induction l with
    | nil => rfl
    | cons a rest ih =>
        rw [List.map_cons, List.nodup_cons] at distinct
        rw [firsts, List.length_cons, List.length_cons, ← ih distinct.2]
        congr 1
        rw [List.length_filter_eq_length_iff]
        intro b kept
        refine decide_eq_true fun same => distinct.1 ?_
        rw [← same]
        exact List.mem_map_of_mem ((firsts_sublist key rest).mem kept)

theorem firsts_card (key : α → κ) (l : List α) :
    (firsts key l).length = (l.map key).toFinset.card := by
  rw [← List.length_map key, ← List.toFinset_card_of_nodup (firsts_distinct key l)]
  congr 1
  ext k
  simp only [List.mem_toFinset, List.mem_map]
  constructor
  · rintro ⟨a, kept, rfl⟩
    exact ⟨a, (firsts_sublist key l).mem kept, rfl⟩
  · rintro ⟨a, member, rfl⟩
    exact firsts_represented key l a member

theorem firsts_coarser (f : α → κ) (g : α → μ) (l : List α)
    (coarser : ∀ a ∈ l, ∀ b ∈ l, g a = g b → f a = f b) :
    firsts f l = firsts g l ↔ ∀ a ∈ l, ∀ b ∈ l, f a = f b → g a = g b := by
  constructor
  · intro same a left b right merged
    obtain ⟨a', kept, like⟩ := firsts_represented g l a left
    obtain ⟨b', kept', like'⟩ := firsts_represented g l b right
    have inside : ∀ c ∈ firsts g l, c ∈ l := fun c => (firsts_sublist g l).mem
    have equal : f a' = f b' :=
      (coarser a' (inside a' kept) a left like).trans
        (merged.trans (coarser b' (inside b' kept') b right like').symm)
    rw [← same] at kept kept'
    rw [← like, ← like', firsts_injective f l kept kept' equal]
  · intro finer
    induction l with
    | nil => rfl
    | cons a rest ih =>
        have keys : ∀ b ∈ rest, f b = f a ↔ g b = g a := fun b member =>
          ⟨finer b (List.mem_cons_of_mem a member) a List.mem_cons_self,
            coarser b (List.mem_cons_of_mem a member) a List.mem_cons_self⟩
        rw [firsts, firsts, ih
          (fun b left c right =>
            coarser b (List.mem_cons_of_mem a left) c (List.mem_cons_of_mem a right))
          (fun b left c right =>
            finer b (List.mem_cons_of_mem a left) c (List.mem_cons_of_mem a right))]
        congr 1
        refine List.filter_congr fun b kept => ?_
        rw [decide_eq_decide]
        exact not_congr (keys b ((firsts_sublist g rest).mem kept))

section Tables

variable {ι : Type u} {β : Type v} [BEq ι] [LawfulBEq ι] {entries : List (ι × β)}

theorem lookup_member (distinct : (entries.map Prod.fst).Nodup) {e : ι × β}
    (member : e ∈ entries) : entries.lookup e.1 = some e.2 := by
  induction entries with
  | nil => exact absurd member List.not_mem_nil
  | cons first rest ih =>
      obtain ⟨fresh, others⟩ := List.nodup_cons.mp distinct
      rcases List.mem_cons.mp member with rfl | later
      · exact List.lookup_cons_self
      · have other : e.1 ≠ first.1 := by
          intro same
          rw [← same] at fresh
          exact fresh (List.mem_map_of_mem later)
        rw [List.lookup_cons, beq_false_of_ne other]
        exact ih others later

theorem member_lookup {k : ι} {v : β} (found : entries.lookup k = some v) : (k, v) ∈ entries := by
  induction entries with
  | nil => cases found
  | cons first rest ih =>
      rw [List.lookup_cons] at found
      split at found
      next same =>
        cases found
        rw [eq_of_beq same]
        exact List.mem_cons_self
      next => exact List.mem_cons_of_mem first (ih found)

end Tables

end HeteroSim.FirstOccurrences
