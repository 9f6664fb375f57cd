import Mathlib.Data.List.Basic

/-!
A thread over shared words: what it computes next depends on what its loads
returned. `eval`, `acts` and `stores` run it alone, against words that nobody
changes; `Within` bounds what it may load and store on any path.
-/

namespace HeteroSim.SharedWords

/-- A thread over locations `L` holding `V`, with other actions `A`. -/
inductive Thread (L V A α : Type) where
  | ret (a : α)
  | load (l : L) (next : V → Thread L V A α)
  | store (l : L) (v : V) (next : Thread L V A α)
  | act (a : A) (next : Thread L V A α)

section Running

variable {L V A α β : Type}

namespace Thread

def bind : Thread L V A α → (α → Thread L V A β) → Thread L V A β
  | ret a, f => f a
  | load l next, f => load l fun v => (next v).bind f
  | store l v next, f => store l v (next.bind f)
  | act a next, f => act a (next.bind f)

instance : Monad (Thread L V A) where
  pure := ret
  bind := bind

/-- The result of the thread when every load finds `env`. -/
def eval (env : L → V) : Thread L V A α → α
  | ret a => a
  | load l next => (next (env l)).eval env
  | store _ _ next => next.eval env
  | act _ next => next.eval env

/-- The actions of the thread when every load finds `env`. -/
def acts (env : L → V) : Thread L V A α → List A
  | ret _ => []
  | load l next => (next (env l)).acts env
  | store _ _ next => next.acts env
  | act a next => a :: next.acts env

/-- The stores of the thread when every load finds `env`. -/
def stores (env : L → V) : Thread L V A α → List (L × V)
  | ret _ => []
  | load l next => (next (env l)).stores env
  | store l v next => (l, v) :: next.stores env
  | act _ next => next.stores env

/-- On every path the thread loads from `reads` and stores to `writes` only. -/
def Within (reads writes : L → Prop) : Thread L V A α → Prop
  | ret _ => True
  | load l next => reads l ∧ ∀ v, (next v).Within reads writes
  | store l _ next => writes l ∧ next.Within reads writes
  | act _ next => next.Within reads writes

@[simp] theorem pure_eq (a : α) : (pure a : Thread L V A α) = ret a := rfl

@[simp] theorem eval_ret (env : L → V) (a : α) : (ret a : Thread L V A α).eval env = a := rfl

@[simp] theorem acts_ret (env : L → V) (a : α) : (ret a : Thread L V A α).acts env = [] := rfl

@[simp] theorem stores_ret (env : L → V) (a : α) : (ret a : Thread L V A α).stores env = [] := rfl

@[simp] theorem eval_bind (env : L → V) (p : Thread L V A α) (f : α → Thread L V A β) :
    (p >>= f).eval env = (f (p.eval env)).eval env := by
  show (p.bind f).eval env = _
  induction p with
  | ret a => rfl
  | load l next ih => exact ih (env l)
  | store l v next ih => exact ih
  | act a next ih => exact ih

@[simp] theorem acts_bind (env : L → V) (p : Thread L V A α) (f : α → Thread L V A β) :
    (p >>= f).acts env = p.acts env ++ (f (p.eval env)).acts env := by
  show (p.bind f).acts env = _
  induction p with
  | ret a => rfl
  | load l next ih => exact ih (env l)
  | store l v next ih => exact ih
  | act a next ih => exact congrArg (List.cons a) ih

@[simp] theorem stores_bind (env : L → V) (p : Thread L V A α) (f : α → Thread L V A β) :
    (p >>= f).stores env = p.stores env ++ (f (p.eval env)).stores env := by
  show (p.bind f).stores env = _
  induction p with
  | ret a => rfl
  | load l next ih => exact ih (env l)
  | store l v next ih => exact congrArg (List.cons (l, v)) ih
  | act a next ih => exact ih

theorem Within.bind {reads writes : L → Prop} {p : Thread L V A α} {f : α → Thread L V A β}
    (first : p.Within reads writes) (rest : ∀ a, (f a).Within reads writes) :
    (p >>= f).Within reads writes := by
  show (p.bind f).Within reads writes
  induction p with
  | ret a => exact rest a
  | load l next ih =>
      obtain ⟨allowed, later⟩ := first
      exact ⟨allowed, fun v => ih v (later v)⟩
  | store l v next ih =>
      obtain ⟨allowed, later⟩ := first
      exact ⟨allowed, ih later⟩
  | act a next ih => exact ih first

theorem Within.ite {reads writes : L → Prop} {condition : Prop} [Decidable condition]
    {p q : Thread L V A α} (yes : p.Within reads writes) (no : q.Within reads writes) :
    (if condition then p else q).Within reads writes := by
  by_cases holds : condition
  · rwa [if_pos holds]
  · rwa [if_neg holds]

end Thread

end Running

end HeteroSim.SharedWords
