import Mathlib.Order.Lattice
import Mathlib.Data.List.Basic
import Mathlib.Tactic.Tauto

/-!
Domination in several objectives at once, over a finite list of candidates. A value
that is missing compares with nothing.
-/

namespace HeteroSim.Domination

section Compare

variable {ι α T : Type} [LinearOrder T] (value : ι → α → Option T) (names : List ι)

/-- `a` is no worse than `b` in one objective. -/
def NoWorse (name : ι) (a b : α) : Prop := ∃ x ∈ value name a, ∃ y ∈ value name b, x ≤ y

def Better (name : ι) (a b : α) : Prop := ∃ x ∈ value name a, ∃ y ∈ value name b, x < y

def Dominates (a b : α) : Prop :=
  (∀ name ∈ names, NoWorse value name a b) ∧ ∃ name ∈ names, Better value name a b

instance (name : ι) (a b : α) : Decidable (NoWorse value name a b) :=
  inferInstanceAs (Decidable (∃ x ∈ value name a, ∃ y ∈ value name b, x ≤ y))

instance (name : ι) (a b : α) : Decidable (Better value name a b) :=
  inferInstanceAs (Decidable (∃ x ∈ value name a, ∃ y ∈ value name b, x < y))

instance (a b : α) : Decidable (Dominates value names a b) :=
  inferInstanceAs (Decidable (_ ∧ _))

variable {value names}

theorem NoWorse.trans {name : ι} {a b c : α} (first : NoWorse value name a b)
    (second : NoWorse value name b c) : NoWorse value name a c := by
  obtain ⟨x, atA, y, atB, le⟩ := first
  obtain ⟨y', atB', z, atC, le'⟩ := second
  have same : y = y' := Option.mem_unique atB atB'
  exact ⟨x, atA, z, atC, le.trans (same ▸ le')⟩

theorem Better.trans_noWorse {name : ι} {a b c : α} (first : Better value name a b)
    (second : NoWorse value name b c) : Better value name a c := by
  obtain ⟨x, atA, y, atB, lt⟩ := first
  obtain ⟨y', atB', z, atC, le⟩ := second
  have same : y = y' := Option.mem_unique atB atB'
  exact ⟨x, atA, z, atC, lt.trans_le (same ▸ le)⟩

theorem Dominates.irrefl (a : α) : ¬ Dominates value names a a := by
  rintro ⟨_, name, _, x, atA, y, atA', lt⟩
  have same : x = y := Option.mem_unique atA atA'
  exact absurd lt (same ▸ lt_irrefl x)

theorem Dominates.trans {a b c : α} (first : Dominates value names a b)
    (second : Dominates value names b c) : Dominates value names a c := by
  obtain ⟨name, member, better⟩ := first.2
  constructor
  · intro other named
    exact (first.1 other named).trans (second.1 other named)
  · exact ⟨name, member, better.trans_noWorse (second.1 name member)⟩

end Compare

section Candidates

variable {α : Type} {tops : α → α → Prop}

theorem outdone_by_best (irrefl : ∀ a, ¬ tops a a)
    (trans : ∀ a b c, tops a b → tops b c → tops a c) (l : List α) (a : α) (member : a ∈ l) :
    ∃ best ∈ l, (best = a ∨ tops best a) ∧ ∀ b ∈ l, ¬ tops b best := by
  classical
  induction l generalizing a with
  | nil => simp at member
  | cons head rest ih =>
      by_cases beaten : ∃ b ∈ rest, tops b head
      · obtain ⟨b, inside, above⟩ := beaten
        have kept : ∀ c ∈ rest, ∃ best ∈ head :: rest, (best = c ∨ tops best c) ∧
            ∀ d ∈ head :: rest, ¬ tops d best := by
          intro c within
          obtain ⟨best, found, reaches, none⟩ := ih c within
          by_cases crowned : tops head best
          · exact absurd (trans b head best above crowned) (none b inside)
          · refine ⟨best, List.mem_cons_of_mem _ found, reaches, ?_⟩
            intro d either
            rcases List.mem_cons.mp either with rfl | later
            · exact crowned
            · exact none d later
        rcases List.mem_cons.mp member with rfl | later
        · obtain ⟨best, found, reaches, none⟩ := kept b inside
          refine ⟨best, found, Or.inr ?_, none⟩
          rcases reaches with rfl | over_b
          · exact above
          · exact trans best b _ over_b above
        · exact kept a later
      · have best_head : ∀ d ∈ head :: rest, ¬ tops d head := by
          intro d either
          rcases List.mem_cons.mp either with rfl | later
          · exact irrefl _
          · exact fun above => beaten ⟨d, later, above⟩
        rcases List.mem_cons.mp member with rfl | later
        · exact ⟨_, List.mem_cons_self, Or.inl rfl, best_head⟩
        · obtain ⟨best, found, reaches, none⟩ := ih a later
          by_cases crowned : tops head best
          · refine ⟨head, List.mem_cons_self, Or.inr ?_, best_head⟩
            rcases reaches with rfl | over_a
            · exact crowned
            · exact trans head best a crowned over_a
          · refine ⟨best, List.mem_cons_of_mem _ found, reaches, ?_⟩
            intro d either
            rcases List.mem_cons.mp either with rfl | in_rest
            · exact crowned
            · exact none d in_rest

theorem outdone_by_best_one (irrefl : ∀ a, ¬ tops a a)
    (trans : ∀ a b c, tops a b → tops b c → tops a c) (l : List α) (a b : α) (member : b ∈ l)
    (outdone : tops b a) : ∃ best ∈ l, tops best a ∧ ∀ c ∈ l, ¬ tops c best := by
  obtain ⟨best, found, reaches, none⟩ := outdone_by_best irrefl trans l b member
  refine ⟨best, found, ?_, none⟩
  rcases reaches with rfl | over_b
  · exact outdone
  · exact trans best b a over_b outdone

theorem filter_exact (narrow wide : α → Bool) (l : List α)
    (weaker : ∀ a ∈ l, narrow a = true → wide a = true)
    (few : (l.filter wide).length ≤ (l.filter narrow).length) (a : α) (member : a ∈ l)
    (kept : wide a = true) : narrow a = true := by
  have both : (l.filter wide).filter narrow = l.filter narrow := by
    rw [List.filter_filter]
    apply List.filter_congr
    intro b inside
    cases first : narrow b with
    | false => rfl
    | true => simp [weaker b inside first]
  have all : (l.filter wide).filter narrow = l.filter wide :=
    List.filter_sublist.eq_of_length_le (by rw [both]; exact few)
  exact List.filter_eq_self.mp all a (List.mem_filter.mpr ⟨member, kept⟩)

end Candidates

end HeteroSim.Domination
