import Mathlib.Algebra.BigOperators.Group.Finset.Basic
import Mathlib.Algebra.BigOperators.Group.Finset.Sigma
import Mathlib.Algebra.BigOperators.Ring.Finset
import Mathlib.Data.List.Forall2
import Mathlib.Tactic.Ring

/-!
Arrays of any number of axes: a shape, and an entry for each index inside it. The flat
order of the entries has the last axis fastest; an array that is reshaped keeps it.
-/

namespace HeteroSim.NdArrays

universe u

structure NdArray (α : Type u) where
  shape : List Nat
  entry : List Nat → α

/-- An index inside a shape. -/
def Inside (shape idx : List Nat) : Prop := List.Forall₂ (fun i d => i < d) idx shape

def ravel : List Nat → List Nat → Nat
  | _ :: ds, i :: is => i * ds.prod + ravel ds is
  | _, _ => 0

def unravel : List Nat → Nat → List Nat
  | [], _ => []
  | _ :: ds, p => p / ds.prod :: unravel ds (p % ds.prod)

section Order

variable {shape idx : List Nat}

theorem ravel_lt (inside : Inside shape idx) : ravel shape idx < shape.prod := by
  induction inside with
  | nil => exact Nat.one_pos
  | @cons i d is ds first _ ih =>
      rw [ravel, List.prod_cons]
      calc i * ds.prod + ravel ds is < i * ds.prod + ds.prod := Nat.add_lt_add_left ih _
        _ = (i + 1) * ds.prod := (Nat.succ_mul i ds.prod).symm
        _ ≤ d * ds.prod := Nat.mul_le_mul_right _ first

theorem unravel_ravel (inside : Inside shape idx) : unravel shape (ravel shape idx) = idx := by
  induction inside with
  | nil => rfl
  | @cons i d is ds first others ih =>
      have below := ravel_lt others
      have positive : 0 < ds.prod := Nat.zero_lt_of_lt below
      rw [ravel, unravel, Nat.add_comm, Nat.add_mul_div_right _ _ positive,
        Nat.div_eq_of_lt below, Nat.zero_add, Nat.add_mul_mod_self_right,
          Nat.mod_eq_of_lt below, ih]

end Order

/-! ### Views -/

inductive Refusal where
  /-- `cannot reshape array`. -/
  | reshape
  /-- `window shape cannot be larger than input array shape`. -/
  | window
  /-- Not as many axes as are unpacked. -/
  | axes

section Views

variable {α : Type u}

def reshape (a : NdArray α) (shape : List Nat) : Except Refusal (NdArray α) :=
  if shape.prod = a.shape.prod then
    .ok { shape := shape, entry := fun idx => a.entry (unravel a.shape (ravel shape idx)) }
  else .error .reshape

/-- `reshape(*front, -1)`: there has to be exactly one length that fits. -/
def reshapeRest (a : NdArray α) (front : List Nat) : Except Refusal (NdArray α) :=
  if front.prod = 0 then .error .reshape
  else reshape a (front ++ [a.shape.prod / front.prod])

/-- Axis `t` of the result is axis `axes[t]`. -/
def transpose (axes : List Nat) (a : NdArray α) : NdArray α where
  shape := axes.map fun axis => a.shape.getD axis 0
  entry := fun idx => a.entry ((List.range axes.length).map fun axis =>
    idx.getD (axes.idxOf axis) 0)

def zeros [Zero α] (shape : List Nat) : NdArray α where
  shape := shape
  entry := fun _ => 0

def plus [Add α] (a b : NdArray α) : NdArray α where
  shape := a.shape
  entry := fun idx => a.entry idx + b.entry idx

theorem reshape_shape {a b : NdArray α} {shape : List Nat} (made : reshape a shape = .ok b) :
    b.shape = shape ∧ shape.prod = a.shape.prod := by
  unfold reshape at made
  split at made
  next fits =>
    cases made
    exact ⟨rfl, fits⟩
  next => cases made

theorem reshape_flat {a b : NdArray α} {shape : List Nat} (made : reshape a shape = .ok b)
    (idx : List Nat) : b.entry idx = a.entry (unravel a.shape (ravel shape idx)) := by
  unfold reshape at made
  split at made
  next =>
    cases made
    rfl
  next => cases made

theorem reshape_entry {a b : NdArray α} {shape idx idx' : List Nat} (made : reshape a shape = .ok b)
    (inside : Inside a.shape idx') (same : ravel shape idx = ravel a.shape idx') :
    b.entry idx = a.entry idx' := by
  rw [reshape_flat made, same, unravel_ravel inside]

theorem reshape_fits {a : NdArray α} {shape : List Nat} (fits : shape.prod = a.shape.prod) :
    ∃ b, reshape a shape = .ok b := ⟨_, if_pos fits⟩

theorem reshapeRest_fits {a : NdArray α} {front : List Nat} (rest : Nat) (nonempty : front.prod ≠ 0)
    (fits : front.prod * rest = a.shape.prod) :
    reshapeRest a front = reshape a (front ++ [rest]) := by
  rw [reshapeRest, if_neg nonempty, ← fits,
    Nat.mul_div_cancel_left rest (Nat.pos_of_ne_zero nonempty)]

end Views

/-! ### Sums over all entries -/

section Sums

variable {R : Type u}

def total [AddCommMonoid R] : List Nat → (List Nat → R) → R
  | [], f => f []
  | d :: ds, f => ∑ i ∈ Finset.range d, total ds fun is => f (i :: is)

def dot [CommSemiring R] (a b : NdArray R) : R := total a.shape fun idx => a.entry idx * b.entry idx

theorem sum_rows [AddCommMonoid R] (f : Nat → R) (rows width : Nat) :
    ∑ p ∈ Finset.range (rows * width), f p =
      ∑ i ∈ Finset.range rows, ∑ j ∈ Finset.range width, f (i * width + j) := by
  induction rows with
  | zero => simp
  | succ rows ih => rw [Nat.succ_mul, Finset.sum_range_add, ih, Finset.sum_range_succ]

theorem total_ravel [AddCommMonoid R] (shape : List Nat) (f : List Nat → R) :
    total shape f = ∑ p ∈ Finset.range shape.prod, f (unravel shape p) := by
  induction shape generalizing f with
  | nil =>
      rw [List.prod_nil, Finset.sum_range_one]
      rfl
  | cons d ds ih =>
      rw [List.prod_cons, sum_rows, total]
      refine Finset.sum_congr rfl fun i _ => ?_
      rw [ih]
      refine Finset.sum_congr rfl fun q member => ?_
      have below := Finset.mem_range.mp member
      have positive : 0 < ds.prod := Nat.zero_lt_of_lt below
      rw [unravel, Nat.add_comm, Nat.add_mul_div_right _ _ positive, Nat.div_eq_of_lt below,
        Nat.zero_add, Nat.add_mul_mod_self_right, Nat.mod_eq_of_lt below]

theorem total_add [AddCommMonoid R] (shape : List Nat) (f g : List Nat → R) :
    total shape (fun idx => f idx + g idx) = total shape f + total shape g := by
  induction shape generalizing f g with
  | nil => rfl
  | cons d ds ih =>
      simp only [total, ih]
      exact Finset.sum_add_distrib

theorem dot_plus [CommSemiring R] (a b c : NdArray R) :
    dot a (plus b c) = dot a b + dot a c := by
  rw [dot, dot, dot, ← total_add]
  simp only [plus, mul_add]

theorem dot_zeros [CommSemiring R] (a : NdArray R) (shape : List Nat) :
    dot a (zeros shape) = 0 := by
  simp only [dot, zeros, mul_zero, total_ravel, Finset.sum_const_zero]

theorem ravel_unravel {shape : List Nat} {p : Nat} (below : p < shape.prod) :
    ravel shape (unravel shape p) = p := by
  induction shape generalizing p with
  | nil =>
      rw [List.prod_nil, Nat.lt_one_iff] at below
      rw [below]
      rfl
  | cons d ds ih =>
      have positive : 0 < ds.prod := by
        rcases Nat.eq_zero_or_pos ds.prod with none | positive
        · rw [List.prod_cons, none, Nat.mul_zero] at below
          exact absurd below (Nat.not_lt_zero p)
        · exact positive
      rw [unravel, ravel, ih (Nat.mod_lt p positive), Nat.mul_comm, Nat.div_add_mod]

theorem dot_reshape [CommSemiring R] {a a' b b' : NdArray R}
    (left : reshape a b.shape = .ok a') (right : reshape b a.shape = .ok b') :
    dot a b' = dot a' b := by
  obtain ⟨shape, fits⟩ := reshape_shape left
  rw [dot, dot, total_ravel, total_ravel, shape, fits]
  refine Finset.sum_congr rfl fun p member => ?_
  have below := Finset.mem_range.mp member
  rw [reshape_flat left, reshape_flat right, ravel_unravel below, ravel_unravel (fits.symm ▸ below)]

end Sums

end HeteroSim.NdArrays
