import Mathlib.Data.List.Basic

/-!
Writers of one array that share no cell. Each store computes what it writes
from the array it finds, in any order and as often as it likes, and cells that
belong to no result may be written at will. If no store and no such cell is
among the cells that are read, every store leaves what it would have written
alone.
-/

namespace HeteroSim.ArrayWriters

section Writers

variable {A B S : Type} [DecidableEq A]

/-- What the writers may do to an array from `A` to `B`. -/
structure Crew (S A B : Type) where
  todo : S → Prop
  perform : S → (A → B) → A → B
  extent : S → A → Prop
  scratch : A → Prop

inductive Event (S A B : Type) where
  | store (s : S)
  | noise (a : A) (b : B)

def Crew.Legal (crew : Crew S A B) : Event S A B → Prop
  | .store s => crew.todo s
  | .noise a _ => crew.scratch a

def Crew.apply (crew : Crew S A B) (m : A → B) : Event S A B → A → B
  | .store s => crew.perform s m
  | .noise a b => fun other => if other = a then b else m other

def Crew.run (crew : Crew S A B) : List (Event S A B) → (A → B) → A → B
  | [], m => m
  | e :: rest, m => crew.run rest (crew.apply m e)

/-- From `start` on the stores keep to their extents, which are apart from each
other, from the scratch and from what is read. -/
structure Apart (crew : Crew S A B) (reads : A → Prop) (start : A → B) : Prop where
  frame : ∀ s, crew.todo s → ∀ m a, ¬ crew.extent s a → crew.perform s m a = m a
  depends : ∀ s, crew.todo s → ∀ m, (∀ a, reads a → m a = start a) →
    ∀ a, crew.extent s a → crew.perform s m a = crew.perform s start a
  unread : ∀ s, crew.todo s → ∀ a, crew.extent s a → ¬ reads a
  own : ∀ s s', crew.todo s → crew.todo s' → ∀ a, crew.extent s a → crew.extent s' a → s = s'
  scratchUnread : ∀ a, crew.scratch a → ¬ reads a
  scratchApart : ∀ a, crew.scratch a → ∀ s, crew.todo s → ¬ crew.extent s a

theorem run_append (crew : Crew S A B) (first second : List (Event S A B)) (m : A → B) :
    crew.run (first ++ second) m = crew.run second (crew.run first m) := by
  induction first generalizing m with
  | nil => rfl
  | cons e rest ih => exact ih (crew.apply m e)

variable {crew : Crew S A B} {reads : A → Prop} {start : A → B}

theorem run_untouched (apart : Apart crew reads start) (trace : List (Event S A B)) (m : A → B)
    (legal : ∀ e ∈ trace, crew.Legal e) (a : A) (quiet : ¬ crew.scratch a)
    (outside : ∀ s, Event.store s ∈ trace → ¬ crew.extent s a) : crew.run trace m a = m a := by
  induction trace generalizing m with
  | nil => rfl
  | cons e rest ih =>
      have later := ih (crew.apply m e) (fun e member => legal e (List.mem_cons_of_mem _ member))
        fun s member => outside s (List.mem_cons_of_mem _ member)
      rw [Crew.run, later]
      have first := legal e List.mem_cons_self
      cases e with
      | store s => exact apart.frame s first m a (outside s List.mem_cons_self)
      | noise other b =>
          have away : a ≠ other := by
            rintro rfl
            exact quiet first
          exact if_neg away

theorem run_reads (apart : Apart crew reads start) (trace : List (Event S A B)) (m : A → B)
    (legal : ∀ e ∈ trace, crew.Legal e) (a : A) (read : reads a) : crew.run trace m a = m a := by
  refine run_untouched apart trace m legal a (fun noisy => apart.scratchUnread a noisy read) ?_
  exact fun s member inside => apart.unread s (legal _ member) a inside read

theorem run_stored (apart : Apart crew reads start) (trace : List (Event S A B)) (m : A → B)
    (agrees : ∀ a, reads a → m a = start a) (legal : ∀ e ∈ trace, crew.Legal e) (s : S)
    (member : Event.store s ∈ trace) (a : A) (inside : crew.extent s a) :
    crew.run trace m a = crew.perform s start a := by
  have mine : crew.todo s := legal _ member
  induction trace generalizing m with
  | nil => simp at member
  | cons e rest ih =>
      have first := legal e List.mem_cons_self
      have others : ∀ e ∈ rest, crew.Legal e :=
        fun e member => legal e (List.mem_cons_of_mem _ member)
      rw [Crew.run]
      by_cases again : Event.store s ∈ rest
      · refine ih (crew.apply m e) ?_ others again
        intro cell read
        exact (run_reads apart [e] m (by simpa using first) cell read).trans (agrees cell read)
      · have now : e = .store s := by
          rcases List.mem_cons.mp member with here | later
          · exact here.symm
          · exact absurd later again
        subst now
        refine (run_untouched apart rest _ others a
          (fun noisy => apart.scratchApart a noisy s mine inside) ?_).trans
          (apart.depends s mine m agrees a inside)
        intro other later touched
        rw [apart.own other s (others _ later) mine a touched inside] at later
        exact again later

theorem run_settled (apart : Apart crew reads start) (trace : List (Event S A B))
    (legal : ∀ e ∈ trace, crew.Legal e) (complete : ∀ s, crew.todo s → Event.store s ∈ trace)
    (a : A) (quiet : ¬ crew.scratch a) :
    (∃ s, crew.todo s ∧ crew.extent s a ∧ crew.run trace start a = crew.perform s start a) ∨
      ((∀ s, crew.todo s → ¬ crew.extent s a) ∧ crew.run trace start a = start a) := by
  by_cases touched : ∃ s, crew.todo s ∧ crew.extent s a
  · obtain ⟨s, mine, inside⟩ := touched
    exact Or.inl ⟨s, mine, inside, run_stored apart trace start (fun _ _ => rfl) legal s
      (complete s mine) a inside⟩
  · have outside : ∀ s, crew.todo s → ¬ crew.extent s a :=
      fun s mine inside => touched ⟨s, mine, inside⟩
    refine Or.inr ⟨outside, run_untouched apart trace start legal a quiet ?_⟩
    exact fun s member => outside s (legal _ member)

end Writers

end HeteroSim.ArrayWriters
