import Mathlib.Tactic.Basic

/-!
Pre- and postconditions of computations that carry a state and may give up in
it, as `EStateM` models them. A giving-up state is held to a condition of its
own, so the same rules serve facts about finished computations only and facts
about every point a computation stopped at. A computation whose loops are bounded by
fuel returns if enough of it makes no difference.
-/

namespace HeteroSim.Effect

section Rules

variable {σ ε α β : Type}

/-- From `before`, the computation ends in `after` or gives up in `stuck`. -/
def Triple (before : σ → Prop) (m : EStateM ε σ α) (after : α → σ → Prop)
    (stuck : σ → Prop) : Prop :=
  ∀ s, before s → match m s with
    | .ok a s' => after a s'
    | .error _ s' => stuck s'

variable {before : σ → Prop} {after : α → σ → Prop} {stuck : σ → Prop}

theorem Triple.ok {m : EStateM ε σ α} (triple : Triple before m after stuck) (s s' : σ) (a : α)
    (held : before s) (ended : m s = .ok a s') : after a s' := by
  have outcome := triple s held
  rwa [ended] at outcome

theorem Triple.error {m : EStateM ε σ α} (triple : Triple before m after stuck) (s s' : σ)
    (reason : ε) (held : before s) (ended : m s = .error reason s') : stuck s' := by
  have outcome := triple s held
  rwa [ended] at outcome

theorem Triple.weaken {m : EStateM ε σ α} {less : σ → Prop} {more : α → σ → Prop}
    (triple : Triple before m after stuck) (first : ∀ s, less s → before s)
    (last : ∀ a s, after a s → more a s) : Triple less m more stuck := by
  intro s held
  have outcome := triple s (first s held)
  cases ended : m s with
  | ok a s' => exact last a s' (triple.ok s s' a (first s held) ended)
  | error reason s' => exact triple.error s s' reason (first s held) ended

theorem Triple.both {m : EStateM ε σ α} {first : σ → Prop} {last : α → σ → Prop} {gone : σ → Prop}
    (triple : Triple before m after stuck) (other : Triple first m last gone) :
    Triple (fun s => before s ∧ first s) m (fun a s => after a s ∧ last a s)
      (fun s => stuck s ∧ gone s) := by
  rintro s ⟨held, more⟩
  cases ended : m s with
  | ok a s' => exact ⟨triple.ok s s' a held ended, other.ok s s' a more ended⟩
  | error reason s' =>
      exact ⟨triple.error s s' reason held ended, other.error s s' reason more ended⟩

theorem Triple.forget {m : EStateM ε σ α} (triple : Triple before m after stuck) :
    Triple before m after (fun _ => True) := by
  intro s held
  cases ended : m s with
  | ok a s' => exact triple.ok s s' a held ended
  | error reason s' => trivial

theorem get_run (s : σ) : (MonadState.get : EStateM ε σ σ) s = .ok s s := rfl

theorem set_run (s s' : σ) : (set s' : EStateM ε σ PUnit) s = .ok PUnit.unit s' := rfl

theorem modify_run (f : σ → σ) (s : σ) :
    (modify f : EStateM ε σ PUnit) s = .ok PUnit.unit (f s) := rfl

theorem bind_run (m : EStateM ε σ α) (next : α → EStateM ε σ β) (s : σ) :
    (m >>= next) s = match m s with
      | .ok a s' => next a s'
      | .error reason s' => .error reason s' := by
  show EStateM.bind m next s = _
  rw [EStateM.bind]
  cases m s <;> rfl

theorem Triple.pure (a : α) (held : ∀ s, before s → after a s) :
    Triple before (Pure.pure a : EStateM ε σ α) after stuck :=
  fun s first => held s first

theorem Triple.throw (reason : ε) (held : ∀ s, before s → stuck s) :
    Triple before (MonadExcept.throw reason : EStateM ε σ α) after stuck :=
  fun s first => held s first

theorem Triple.bind {m : EStateM ε σ α} {next : α → EStateM ε σ β} {finish : β → σ → Prop}
    (middle : α → σ → Prop) (first : Triple before m middle stuck)
    (second : ∀ a, Triple (middle a) (next a) finish stuck) :
    Triple before (m >>= next) finish stuck := by
  intro s held
  show match EStateM.bind m next s with
    | .ok b s' => finish b s'
    | .error _ s' => stuck s'
  cases ended : m s with
  | ok a s' =>
      have reached := first.ok s s' a held ended
      simpa only [EStateM.bind, ended] using second a s' reached
  | error reason s' =>
      have gone := first.error s s' reason held ended
      simpa only [EStateM.bind, ended] using gone

theorem bind_ok {m : EStateM ε σ α} {next : α → EStateM ε σ β} {s last : σ} {b : β} :
    (m >>= next) s = .ok b last ↔ ∃ a middle, m s = .ok a middle ∧ next a middle = .ok b last := by
  show EStateM.bind m next s = _ ↔ _
  simp only [EStateM.bind]
  cases ended : m s with
  | ok a middle =>
      constructor
      · exact fun rest => ⟨a, middle, rfl, rest⟩
      · rintro ⟨_, _, same, rest⟩
        cases same
        exact rest
  | error reason stuck => simp

theorem bind_agrees {m : EStateM ε σ α} {next other : α → EStateM ε σ β} {s : σ}
    (same : ∀ a s', m s = .ok a s' → next a s' = other a s') : (m >>= next) s =
    (m >>= other) s := by
  show EStateM.bind m next s = EStateM.bind m other s
  simp only [EStateM.bind]
  cases ended : m s with
  | ok a s' => exact same a s' ended
  | error reason stuck => rfl

theorem ite_ok {condition : Prop} [Decidable condition] {m n : EStateM ε σ α} {s last : σ} {a : α} :
    (if condition then m else n) s = .ok a last ↔
      (condition ∧ m s = .ok a last) ∨ (¬ condition ∧ n s = .ok a last) := by
  by_cases holds : condition <;> simp [holds]

theorem Triple.get {next : σ → EStateM ε σ β} {finish : β → σ → Prop}
    (rest : ∀ s, before s → Triple (fun now => now = s) (next s) finish stuck) :
    Triple before (MonadState.get >>= next) finish stuck :=
  fun s held => rest s held s rfl

theorem Triple.read {next : σ → EStateM ε σ β} {finish : β → σ → Prop}
    (rest : ∀ s, before s → Triple before (next s) finish stuck) :
    Triple before (MonadState.get >>= next) finish stuck :=
  fun s held => rest s held s held

theorem Triple.put {finish : PUnit → σ → Prop} (s' : σ)
    (held : ∀ s, before s → finish PUnit.unit s') :
    Triple before (set s' : EStateM ε σ PUnit) finish stuck :=
  fun s first => held s first

theorem Triple.update {finish : Unit → σ → Prop} (f : σ → σ)
    (held : ∀ s, before s → finish () (f s)) :
    Triple before (modify f : EStateM ε σ Unit) finish stuck :=
  fun s first => held s first

theorem Triple.ite {condition : Prop} [Decidable condition] {m n : EStateM ε σ α}
    (yes : condition → Triple before m after stuck)
    (no : ¬ condition → Triple before n after stuck) :
    Triple before (if condition then m else n) after stuck := by
  by_cases holds : condition
  · rw [if_pos holds]
    exact yes holds
  · rw [if_neg holds]
    exact no holds

/-- The computation keeps `inv`, however it ends. -/
abbrev Keeps (inv : σ → Prop) (m : EStateM ε σ α) : Prop := Triple inv m (fun _ => inv) inv

theorem Keeps.pure {inv : σ → Prop} (a : α) :
    Keeps inv (Pure.pure a : EStateM ε σ α) := Triple.pure a fun _ held => held

theorem Keeps.bind {inv : σ → Prop} {m : EStateM ε σ α} {next : α → EStateM ε σ β}
    (first : Keeps inv m) (second : ∀ a, Keeps inv (next a)) : Keeps inv (m >>= next) :=
  Triple.bind _ first second

theorem Keeps.update {inv : σ → Prop} (f : σ → σ) (held : ∀ s, inv s → inv (f s)) :
    Keeps inv (modify f : EStateM ε σ Unit) := Triple.update f held

theorem Keeps.put {inv : σ → Prop} (s : σ) (held : inv s) :
    Keeps inv (set s : EStateM ε σ PUnit) := Triple.put s fun _ _ => held

/-! ### Enough fuel -/

/-- With enough fuel the computation ends in `s'`. -/
def Returns (m : Nat → EStateM ε σ α) (s : σ) (a : α) (s' : σ) : Prop :=
  ∃ enough, ∀ fuel, enough ≤ fuel → m fuel s = .ok a s'

theorem Returns.unique {m : Nat → EStateM ε σ α} {s s' t' : σ} {a b : α} (one : Returns m s a s')
    (other : Returns m s b t') : a = b ∧ s' = t' := by
  obtain ⟨first, ends⟩ := one
  obtain ⟨second, ends'⟩ := other
  have same := (ends (max first second) (Nat.le_max_left _ _)).symm.trans
    (ends' (max first second) (Nat.le_max_right _ _))
  cases same
  exact ⟨rfl, rfl⟩

/-- From every state with `inv` the computation ends, in a state with `inv`. -/
def Finishes (inv : σ → Prop) (m : Nat → EStateM ε σ α) : Prop :=
  ∀ s, inv s → ∃ a s', Returns m s a s' ∧ inv s'

variable {inv : σ → Prop}

theorem Finishes.pure (a : α) : Finishes inv fun _ => (Pure.pure a : EStateM ε σ α) :=
  fun s held => ⟨a, s, ⟨0, fun _ _ => rfl⟩, held⟩

theorem Returns.bind {m : Nat → EStateM ε σ α} {next : Nat → α → EStateM ε σ β} {s s' last : σ}
    {a : α} {b : β} (first : Returns m s a s')
    (second : Returns (fun fuel => next fuel a) s' b last) :
    Returns (fun fuel => m fuel >>= next fuel) s b last := by
  obtain ⟨one, ends⟩ := first
  obtain ⟨two, goes⟩ := second
  refine ⟨max one two, fun fuel enough => bind_ok.mpr ⟨a, s', ends fuel ?_, goes fuel ?_⟩⟩
  · exact Nat.le_trans (Nat.le_max_left one two) enough
  · exact Nat.le_trans (Nat.le_max_right one two) enough

theorem Finishes.bind {m : Nat → EStateM ε σ α} {next : Nat → α → EStateM ε σ β}
    (first : Finishes inv m) (second : ∀ a, Finishes inv fun fuel => next fuel a) :
    Finishes inv fun fuel => m fuel >>= next fuel := by
  intro s held
  obtain ⟨a, s', ends, kept⟩ := first s held
  obtain ⟨b, last, goes, done⟩ := second a s' kept
  exact ⟨b, last, ends.bind goes, done⟩

theorem Finishes.read {next : Nat → σ → EStateM ε σ β}
    (rest : ∀ s, inv s → Finishes inv fun fuel => next fuel s) :
    Finishes inv fun fuel => (MonadState.get >>= next fuel : EStateM ε σ β) :=
  fun s held => rest s held s held

theorem Finishes.put (s' : σ) (held : inv s') :
    Finishes inv fun _ => (set s' : EStateM ε σ PUnit) :=
  fun _ _ => ⟨PUnit.unit, s', ⟨0, fun _ _ => rfl⟩, held⟩

theorem Finishes.update (f : σ → σ) (held : ∀ s, inv s → inv (f s)) :
    Finishes inv fun _ => (modify f : EStateM ε σ Unit) :=
  fun s first => ⟨(), f s, ⟨0, fun _ _ => rfl⟩, held s first⟩

theorem Finishes.ite {condition : Prop} [Decidable condition] {m n : Nat → EStateM ε σ α}
    (yes : condition → Finishes inv m) (no : ¬ condition → Finishes inv n) :
    Finishes inv fun fuel => if condition then m fuel else n fuel := by
  by_cases holds : condition
  · simpa only [if_pos holds] using yes holds
  · simpa only [if_neg holds] using no holds

end Rules

end HeteroSim.Effect
