import Mathlib.Data.List.Basic
import Mathlib.Data.List.Range
import Mathlib.Tactic.Ring

/-!
A bump allocator: each request is placed at the next multiple of the alignment
after the one before it, and nothing is given back. Where requests end up is a
function of the cursor and their sizes alone.
-/

namespace HeteroSim.BumpAllocator

structure Region where
  start : Nat
  size : Nat
  deriving DecidableEq

def Region.stop (r : Region) : Nat := r.start + r.size

def Before (r s : Region) : Prop := r.stop ≤ s.start

/-- The next multiple of `a`. -/
def roundUp (a n : Nat) : Nat := (n + (a - 1)) / a * a

def regions (a : Nat) : Nat → List Nat → List Region
  | _, [] => []
  | cursor, size :: rest =>
      ⟨roundUp a cursor, size⟩ :: regions a (roundUp a cursor + size) rest

/-- Where the last request ends. -/
def top (a : Nat) : Nat → List Nat → Nat
  | cursor, [] => cursor
  | cursor, size :: rest => top a (roundUp a cursor + size) rest

theorem dvd_roundUp (a n : Nat) : a ∣ roundUp a n := Nat.dvd_mul_left a _

theorem roundUp_multiple {a n : Nat} (positive : 0 < a) (multiple : a ∣ n) : roundUp a n = n := by
  obtain ⟨k, rfl⟩ := multiple
  rw [roundUp, Nat.mul_add_div positive, Nat.div_eq_of_lt (by omega), Nat.add_zero, Nat.mul_comm]

theorem le_roundUp {a : Nat} (positive : 0 < a) (n : Nat) : n ≤ roundUp a n := by
  have near : n + (a - 1) < a * ((n + (a - 1)) / a) + a := Nat.lt_mul_div_succ _ positive
  rw [Nat.mul_comm] at near
  unfold roundUp
  omega

theorem roundUp_le {a n m : Nat} (positive : 0 < a) (multiple : a ∣ m) (below : n ≤ m) :
    roundUp a n ≤ m := by
  obtain ⟨k, rfl⟩ := multiple
  have quotient : (n + (a - 1)) / a ≤ k := by
    have bound : n + (a - 1) < (k + 1) * a := by
      rw [Nat.add_mul, Nat.mul_comm k a]
      omega
    exact Nat.lt_succ_iff.mp ((Nat.div_lt_iff_lt_mul positive).mpr bound)
  rw [roundUp, Nat.mul_comm a k]
  exact Nat.mul_le_mul_right a quotient

section Layout

variable {a : Nat}

theorem regions_append (cursor : Nat) (xs ys : List Nat) :
    regions a cursor (xs ++ ys) = regions a cursor xs ++ regions a (top a cursor xs) ys := by
  induction xs generalizing cursor with
  | nil => rfl
  | cons size rest ih => rw [List.cons_append, regions, ih, regions, top, List.cons_append]

theorem top_append (cursor : Nat) (xs ys : List Nat) :
    top a cursor (xs ++ ys) = top a (top a cursor xs) ys := by
  induction xs generalizing cursor with
  | nil => rfl
  | cons size rest ih => rw [List.cons_append, top, ih, top]

theorem regions_aligned (cursor : Nat) (sizes : List Nat) :
    ∀ r ∈ regions a cursor sizes, a ∣ r.start := by
  induction sizes generalizing cursor with
  | nil => intro r member; cases member
  | cons size rest ih =>
      intro r member
      cases member with
      | head => exact dvd_roundUp a cursor
      | tail _ later => exact ih _ r later

variable (positive : 0 < a)

include positive

theorem le_top (cursor : Nat) (sizes : List Nat) : cursor ≤ top a cursor sizes := by
  induction sizes generalizing cursor with
  | nil => exact Nat.le_refl cursor
  | cons size rest ih =>
      calc cursor ≤ roundUp a cursor := le_roundUp positive cursor
        _ ≤ roundUp a cursor + size := Nat.le_add_right _ size
        _ ≤ top a cursor (size :: rest) := ih _

theorem regions_within (cursor : Nat) (sizes : List Nat) :
    ∀ r ∈ regions a cursor sizes, cursor ≤ r.start ∧ r.stop ≤ top a cursor sizes := by
  induction sizes generalizing cursor with
  | nil => intro r member; cases member
  | cons size rest ih =>
      have up := le_roundUp positive cursor
      intro r member
      cases member with
      | head => exact ⟨up, le_top positive _ rest⟩
      | tail _ later =>
          obtain ⟨low, high⟩ := ih _ r later
          exact ⟨by omega, high⟩

theorem regions_ordered (cursor : Nat) (sizes : List Nat) :
    (regions a cursor sizes).Pairwise Before := by
  induction sizes generalizing cursor with
  | nil => exact List.Pairwise.nil
  | cons size rest ih =>
      exact List.pairwise_cons.mpr ⟨fun r later => (regions_within positive _ rest r later).1, ih _⟩

theorem regions_replicate (cursor size : Nat) (start : a ∣ cursor) (whole : a ∣ size) (n : Nat) :
    regions a cursor (List.replicate n size) =
        (List.range n).map (fun k => ⟨cursor + k * size, size⟩) ∧
      top a cursor (List.replicate n size) = cursor + n * size := by
  induction n with
  | zero => exact ⟨rfl, by rw [Nat.zero_mul]; rfl⟩
  | succ n ih =>
      obtain ⟨before, last⟩ := ih
      have multiple : a ∣ cursor + n * size := (Nat.dvd_add_right start).mpr (whole.mul_left n)
      rw [List.replicate_succ', regions_append, top_append, before, last, List.range_succ,
        List.map_append]
      simp only [regions, top, roundUp_multiple positive multiple, List.map_cons, List.map_nil,
        true_and]
      ring

end Layout

end HeteroSim.BumpAllocator
