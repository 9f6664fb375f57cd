import HeteroSim.Fourier
import HeteroSim.InPlace
import HeteroSim.Kernels
import Mathlib.Algebra.Field.ZMod
import Mathlib.Algebra.QuadraticAlgebra.Basic
import Mathlib.Data.ZMod.Basic

/-!
`fft_radix2` computes the discrete Fourier transform: the bit-reversal pass, the
butterfly stages, and the loop over the stages with the 32-bit word it counts in.
-/

namespace HeteroSim.FftRadix2

open Finset Kernels HeteroSim.Fourier InPlace

/-! ### The loop over the stages -/

/-- The stages of `for (uint32_t len = 2; len <= n; len <<= 1)`; `none` is a loop that
has not ended yet. -/
def lens (n : Nat) : Nat → Nat → Option (List Nat)
  | 0, _ => none
  | fuel + 1, len =>
      if len ≤ n then do
        let rest ← lens n fuel (2 * len % 2 ^ 32)
        return len :: rest
      else some []

section Program

variable {R : Type} [CommRing R]

/-- `fft_radix2`, its stages one after another. -/
def fftWords (fuel n : Nat) (twiddles : Nat → R) (x : Spectrum R) : Option (Spectrum R) := do
  let passes ← lens n fuel 2
  return passes.foldl (fun x len => stage n twiddles len x) (reorder n x)

/-- The turns of a stage's two inner loops, `j` and the block. -/
def visits (n len : Nat) : List (Nat × Nat) :=
  (List.range (len / 2)).flatMap fun j =>
    (List.range ((n + len - 1) / len)).map fun block => (j, block)

/-- The pair of cells a turn works on. -/
def cells (len : Nat) (v : Nat × Nat) : Nat × Nat := (v.2 * len + v.1, v.2 * len + v.1 + len / 2)

theorem stage_visits (n : Nat) (twiddles : Nat → R) (len : Nat) (x : Spectrum R) :
    stage n twiddles len x = (visits n len).foldl (fun x v =>
      butterfly (twiddles (2 * v.1 * (n / len))) (twiddles (2 * v.1 * (n / len) + 1))
        (cells len v).1 (cells len v).2 x) x := by
  rw [stage, visits, List.foldl_flatMap]
  simp only [List.foldl_map, cells]

end Program

/-! ### The transform -/

section Transform

variable {R : Type} [CommRing R]

/-- `R[i]/(i² + 1)`. -/
abbrev Plane (R : Type) [CommRing R] := QuadraticAlgebra R (-1) 0

/-- `x_k = re[k] + i im[k]`. -/
def value (x : Spectrum R) (k : Nat) : Plane R := ⟨x.re k, x.im k⟩

/-- The table holds `w^k` for `k < n/2`, real and imaginary parts interleaved. -/
def Holds (n : Nat) (w : Plane R) (twiddles : Nat → R) : Prop :=
  ∀ k < n / 2, twiddles (2 * k) = (w ^ k).re ∧ twiddles (2 * k + 1) = (w ^ k).im

/-- All pairs of cells half a block apart. -/
def pairs (n len : Nat) : List (Nat × Nat) :=
  ((List.range n).filter fun a => decide (a % len < len / 2)).map fun a => (a, a + len / 2)

structure Sweeps (n len : Nat) : Prop where
  inside : ∀ v ∈ visits n len, (cells len v).1 < n ∧ (cells len v).2 < n ∧
    2 * v.1 * (n / len) + 1 < n
  once : ((visits n len).map (cells len)).Perm (pairs n len)

/-- `fft_radix2` ends with the transform, in bounds and with every pair of a stage
taken once. -/
structure Transforms (n : Nat) (w : Plane R) (twiddles : Nat → R) (x : Spectrum R) : Prop where
  swaps : ∀ i < n, bitReverse i (bitsFrom n 32 0) < n
  ends : ∃ fuel passes y, lens n fuel 2 = some passes ∧ (∀ len ∈ passes, Sweeps n len) ∧
    fftWords fuel n twiddles x = some y ∧ ∀ k < n, value y k = transform n w (value x) k

end Transform

/-! ### The bit-reversal pass -/

theorem bitReverse_reversed (i bits : Nat) : bitReverse i bits = reversed bits i := by
  induction bits with
  | zero => rfl
  | succ bits ih =>
      rw [reversed_high, ← ih, bitReverse, bitReverse, List.range_succ, List.foldl_append]
      rfl

theorem bitsFrom_pow (k turns bits : Nat) (below : bits ≤ k) (enough : k ≤ bits + turns) :
    bitsFrom (2 ^ k) turns bits = k := by
  induction turns generalizing bits with
  | zero =>
      rw [bitsFrom]
      omega
  | succ turns ih =>
      rw [bitsFrom]
      by_cases less : bits < k
      · rw [if_pos (Nat.pow_lt_pow_right (by omega) less)]
        exact ih (bits + 1) less (by omega)
      · have last : bits = k := by omega
        rw [last, if_neg (Nat.lt_irrefl _)]

section Reorder

variable {R : Type} [CommRing R]

theorem value_set (x : Spectrum R) (i : Nat) (r s : R) :
    value { re := Kernels.set x.re i r, im := Kernels.set x.im i s } =
      Function.update (value x) i ⟨r, s⟩ := by
  funext k
  by_cases here : k = i
  · rw [here, Function.update_self]
    simp [value, Kernels.set]
  · rw [Function.update_of_ne here]
    simp [value, Kernels.set, here]

theorem value_swap (x : Spectrum R) (i j : Nat) : value (swap x i j) = swapAt (value x) i j := by
  rw [swap, swapAt]
  exact (value_set
    { re := Kernels.set x.re i (x.re j), im := Kernels.set x.im i (x.im j) } j _ _).trans
    (by rw [value_set]; rfl)

theorem value_reorder (k : Nat) (word : k < 32) (x : Spectrum R) (i : Nat) (cell : i < 2 ^ k) :
    value (reorder (2 ^ k) x) i = value x (reversed k i) := by
  have passes : value (reorder (2 ^ k) x) = (List.range (2 ^ k)).foldl
      (fun x i => if i < reversed k i then swapAt x i (reversed k i) else x) (value x) := by
    rw [reorder]
    symm
    apply List.foldl_hom value
    intro x i
    simp only [bitsFrom_pow k 32 0 (Nat.zero_le k) (by omega), bitReverse_reversed]
    split
    · exact (value_swap x i _).symm
    · rfl
  rw [passes, swap_pass (n := 2 ^ k) (fun i _ => reversed_lt k i)
    (fun i small => reversed_involutive k i small) (value x) (2 ^ k) (Nat.le_refl _) i cell,
    if_pos (Or.inl cell)]

end Reorder

/-! ### One stage -/

section Stage

variable {R : Type} [CommRing R]

def twist (w : Plane R) (a b : Nat) (z : Nat → Plane R) : Nat → Plane R :=
  Function.update (Function.update z a (z a + z b * w)) b (z a - z b * w)

theorem value_butterfly (wr wi : R) (a b : Nat) (x : Spectrum R) :
    value (butterfly wr wi a b x) = twist ⟨wr, wi⟩ a b (value x) := by
  have sum : value x a + value x b * ⟨wr, wi⟩ =
      ⟨x.re a + (x.re b * wr - x.im b * wi), x.im a + (x.re b * wi + x.im b * wr)⟩ := by
    ext
    · simp [value]
      ring
    · simp [value]
  have difference : value x a - value x b * ⟨wr, wi⟩ =
      ⟨x.re a - (x.re b * wr - x.im b * wi), x.im a - (x.re b * wi + x.im b * wr)⟩ := by
    ext
    · simp [value]
      ring
    · simp [value]
  rw [twist, sum, difference, ← value_set]
  exact value_set { re := Kernels.set x.re a _, im := Kernels.set x.im a _ } b _ _

variable {half : Nat}

/-- `i` is one of the turn's two cells. -/
def Touches (half : Nat) (v : Nat × Nat) (i : Nat) : Prop :=
  i = (cells (2 * half) v).1 ∨ i = (cells (2 * half) v).2

theorem touches_turn {v : Nat × Nat} {i : Nat} (below : v.1 < half) (touched : Touches half v i) :
    v = (i % (2 * half) % half, i / (2 * half)) := by
  have split (j : Nat) (inside : j < 2 * half) :
      (v.2 * (2 * half) + j) / (2 * half) = v.2 ∧ (v.2 * (2 * half) + j) % (2 * half) = j := by
    rw [Nat.add_comm]
    exact ⟨by rw [Nat.add_mul_div_right _ _ (by omega), Nat.div_eq_of_lt inside, Nat.zero_add],
      by rw [Nat.add_mul_mod_self_right, Nat.mod_eq_of_lt inside]⟩
  have halves : 2 * half / 2 = half := by omega
  rcases touched with low | high
  · obtain ⟨block, place⟩ := split v.1 (by omega)
    rw [low, cells, block, place, Nat.mod_eq_of_lt below]
  · obtain ⟨block, place⟩ := split (v.1 + half) (by omega)
    rw [high, cells, halves, Nat.add_assoc, block, place, Nat.add_mod_right, Nat.mod_eq_of_lt below]

theorem mem_visits (n len : Nat) (v : Nat × Nat) :
    v ∈ visits n len ↔ v.1 < len / 2 ∧ v.2 < (n + len - 1) / len := by
  obtain ⟨j, block⟩ := v
  simp [visits]

theorem visit_below {n : Nat} {v : Nat × Nat} (turn : v ∈ visits n (2 * half)) : v.1 < half := by
  have below := ((mem_visits n (2 * half) v).mp turn).1
  omega

theorem visits_nodup (n len : Nat) : (visits n len).Nodup :=
  List.Nodup.product List.nodup_range List.nodup_range

theorem visits_apart (n : Nat) : (visits n (2 * half)).Pairwise fun v u =>
    ∀ i, Touches half v i → ¬ Touches half u i := by
  apply (visits_nodup n (2 * half)).imp_of_mem
  intro v u turn turn' different i first second
  exact different ((touches_turn (visit_below turn) first).trans
    (touches_turn (visit_below turn') second).symm)

theorem twist_cells (w : Plane R) {a b : Nat} (apart : a ≠ b) (z : Nat → Plane R) :
    twist w a b z a = z a + z b * w ∧ twist w a b z b = z a - z b * w := by
  rw [twist, Function.update_of_ne apart, Function.update_self, Function.update_self]
  exact ⟨rfl, rfl⟩

/-- The twiddle of `j` in a stage. -/
def factor (n : Nat) (twiddles : Nat → R) (len j : Nat) : Plane R :=
  ⟨twiddles (2 * j * (n / len)), twiddles (2 * j * (n / len) + 1)⟩

theorem value_stage (n : Nat) (twiddles : Nat → R) (x : Spectrum R) (v : Nat × Nat)
    (turn : v ∈ visits n (2 * half)) :
    value (stage n twiddles (2 * half) x) (cells (2 * half) v).1 =
        value x (cells (2 * half) v).1 +
          value x (cells (2 * half) v).2 * factor n twiddles (2 * half) v.1 ∧
      value (stage n twiddles (2 * half) x) (cells (2 * half) v).2 =
        value x (cells (2 * half) v).1 -
          value x (cells (2 * half) v).2 * factor n twiddles (2 * half) v.1 := by
  have apart {u : Nat × Nat} (turn : u ∈ visits n (2 * half)) :
      (cells (2 * half) u).1 ≠ (cells (2 * half) u).2 := by
    have below := visit_below turn
    simp only [cells]
    omega
  have passes : value (stage n twiddles (2 * half) x) = (visits n (2 * half)).foldl (fun z u =>
      twist (factor n twiddles (2 * half) u.1) (cells (2 * half) u).1 (cells (2 * half) u).2 z)
      (value x) := by
    rw [stage_visits]
    exact (List.foldl_hom value fun x u => (value_butterfly _ _ _ _ x).symm).symm
  obtain ⟨alone, _⟩ := @foldl_apart (Plane R) (Nat × Nat)
    (fun u => twist (factor n twiddles (2 * half) u.1) (cells (2 * half) u).1
      (cells (2 * half) u).2)
    (Touches half) (visits n (2 * half))
    (by
      intro u _ z i other
      rw [Touches, not_or] at other
      rw [twist, Function.update_of_ne other.2, Function.update_of_ne other.1])
    (by
      intro u turn y z same i touched
      have low := twist_cells (factor n twiddles (2 * half) u.1) (apart turn) y
      have high := twist_cells (factor n twiddles (2 * half) u.1) (apart turn) z
      have first := same _ (Or.inl rfl)
      have second := same _ (Or.inr rfl)
      rcases touched with rfl | rfl
      · rw [low.1, high.1, first, second]
      · rw [low.2, high.2, first, second])
    (visits_apart n) (value x)
  have both := twist_cells (factor n twiddles (2 * half) v.1) (apart turn) (value x)
  rw [passes]
  exact ⟨(alone v turn _ (Or.inl rfl)).trans both.1, (alone v turn _ (Or.inr rfl)).trans both.2⟩

end Stage

/-! ### All stages -/

section Stages

variable {R : Type} [CommRing R] {t s : Nat}

theorem stage_sizes (t s : Nat) : 2 ^ (t + s + 1) / (2 * 2 ^ s) = 2 ^ t ∧
    (2 ^ (t + s + 1) + 2 * 2 ^ s - 1) / (2 * 2 ^ s) = 2 ^ t ∧ 2 * 2 ^ s / 2 = 2 ^ s := by
  have size : 2 ^ (t + s + 1) = 2 ^ t * (2 * 2 ^ s) := by
    rw [Nat.pow_succ, Nat.pow_add]
    ring
  have nonempty : 0 < 2 ^ s := Nat.two_pow_pos s
  refine ⟨?_, ?_, by omega⟩
  · rw [size, Nat.mul_div_cancel _ (by omega)]
  · have rest : 2 ^ t * (2 * 2 ^ s) + 2 * 2 ^ s - 1 =
      (2 * 2 ^ s - 1) + 2 ^ t * (2 * 2 ^ s) := by omega
    rw [size, rest, Nat.add_mul_div_right _ _ (by omega), Nat.div_eq_of_lt (by omega), Nat.zero_add]

theorem visit_turn {j block : Nat} (below : j < 2 ^ s) (inside : block < 2 ^ t) :
    (j, block) ∈ visits (2 ^ (t + s + 1)) (2 * 2 ^ s) := by
  obtain ⟨_, blocks, half⟩ := stage_sizes t s
  rw [mem_visits, blocks, half]
  exact ⟨below, inside⟩

theorem visit_bounds {v : Nat × Nat} (turn : v ∈ visits (2 ^ (t + s + 1)) (2 * 2 ^ s)) :
    v.1 < 2 ^ s ∧ v.2 < 2 ^ t := by
  obtain ⟨_, blocks, half⟩ := stage_sizes t s
  rwa [mem_visits, blocks, half] at turn

theorem factor_power (w : Plane R) (twiddles : Nat → R) (holds : Holds (2 ^ (t + s + 1)) w twiddles)
    {j : Nat} (below : j < 2 ^ s) :
    factor (2 ^ (t + s + 1)) twiddles (2 * 2 ^ s) j = w ^ (j * 2 ^ t) := by
  have small : j * 2 ^ t < 2 ^ (t + s + 1) / 2 := by
    rw [Nat.pow_succ, Nat.mul_div_cancel _ (by omega), Nat.pow_add, Nat.mul_comm (2 ^ t)]
    exact Nat.mul_lt_mul_of_pos_right below (Nat.two_pow_pos t)
  obtain ⟨re, im⟩ := holds (j * 2 ^ t) small
  rw [factor, (stage_sizes t s).1, Nat.mul_assoc 2 j, re, im]

/-- After `s` stages every block of `2^s` cells holds the transform of its
subsequence. -/
def Holding (w : Plane R) (x z : Nat → Plane R) (t s : Nat) : Prop :=
  ∀ q < 2 ^ t, ∀ k < 2 ^ s, z (q * 2 ^ s + k) = part x w t s q k

theorem stage_holding (w : Plane R) (root : w ^ 2 ^ (t + s) = -1) (twiddles : Nat → R)
    (holds : Holds (2 ^ (t + s + 1)) w twiddles) (x : Nat → Plane R) (y : Spectrum R)
    (holding : Holding w x (value y) (t + 1) s) :
    Holding w x (value (stage (2 ^ (t + s + 1)) twiddles (2 * 2 ^ s) y)) t (s + 1) := by
  intro q block k place
  have blocks : q * (2 * 2 ^ s) = 2 * q * 2 ^ s := by ring
  have halves : 2 * 2 ^ s / 2 = 2 ^ s := (stage_sizes t s).2.2
  have turn (j : Nat) (below : j < 2 ^ s) := @value_stage R _ (2 ^ s) (2 ^ (t + s + 1)) twiddles y
    (j, q) (visit_turn below block)
  have first (j : Nat) (below : j < 2 ^ s) : value y (q * (2 * 2 ^ s) + j) =
      part x w (t + 1) s (2 * q) j := by
    rw [blocks]
    exact holding (2 * q) (by rw [Nat.pow_succ]; omega) j below
  have second (j : Nat) (below : j < 2 ^ s) : value y (q * (2 * 2 ^ s) + j + 2 ^ s) =
      part x w (t + 1) s (2 * q + 1) j := by
    have moved : q * (2 * 2 ^ s) + j + 2 ^ s = (2 * q + 1) * 2 ^ s + j := by ring
    rw [moved]
    exact holding (2 * q + 1) (by rw [Nat.pow_succ]; omega) j below
  have double : 2 ^ (s + 1) = 2 * 2 ^ s := by rw [Nat.pow_succ, Nat.mul_comm]
  rw [double] at place ⊢
  rcases Nat.lt_or_ge k (2 ^ s) with low | high
  · have left := (turn k low).1
    simp only [cells, halves] at left
    rw [left, first k low, second k low, factor_power w twiddles holds low, part_split]
  · obtain ⟨j, rfl⟩ := Nat.exists_eq_add_of_le high
    have below : j < 2 ^ s := by omega
    have right := (turn j below).2
    simp only [cells, halves] at right
    rw [Nat.add_comm (2 ^ s) j, ← Nat.add_assoc, right, first j below, second j below,
      factor_power w twiddles holds below, part_split_high x root]

/-- The stages from `2 · 2^s` on, while the counter does not wrap. -/
def rest (s d : Nat) : List Nat := (List.range d).map fun i => 2 * 2 ^ (s + i)

theorem rest_succ (s d : Nat) : rest s (d + 1) = 2 * 2 ^ s :: rest (s + 1) d := by
  rw [rest, rest, List.range_succ_eq_map, List.map_cons, List.map_map]
  congr 1
  apply List.map_congr_left
  intro i _
  rw [Function.comp_apply, Nat.succ_eq_add_one, ← Nat.add_assoc, Nat.add_right_comm]

theorem lens_rest (d s fuel : Nat) (word : s + d < 31) (enough : d < fuel) :
    lens (2 ^ (s + d)) fuel (2 * 2 ^ s) = some (rest s d) := by
  induction d generalizing s fuel with
  | zero =>
      obtain ⟨fuel, rfl⟩ : ∃ f, fuel = f + 1 := ⟨fuel - 1, by omega⟩
      have past : ¬ 2 * 2 ^ s ≤ 2 ^ (s + 0) := by
        have := Nat.two_pow_pos s
        rw [Nat.add_zero]
        omega
      rw [lens, if_neg past]
      rfl
  | succ d ih =>
      obtain ⟨fuel, rfl⟩ : ∃ f, fuel = f + 1 := ⟨fuel - 1, by omega⟩
      have double : 2 * 2 ^ s = 2 ^ (s + 1) := by rw [Nat.pow_succ, Nat.mul_comm]
      have runs : 2 * 2 ^ s ≤ 2 ^ (s + (d + 1)) := by
        rw [double]
        exact Nat.pow_le_pow_right (by omega) (by omega)
      have fits : 2 * 2 ^ (s + 1) < 2 ^ 32 := by
        rw [Nat.mul_comm, ← Nat.pow_succ]
        exact Nat.pow_lt_pow_right (by omega) (by omega)
      have next := ih (s + 1) fuel (by omega) (by omega)
      rw [Nat.add_right_comm, Nat.add_assoc] at next
      rw [lens, if_pos runs, double, Nat.mod_eq_of_lt fits, next, rest_succ, double]
      rfl

theorem rest_holding (w : Plane R) (twiddles : Nat → R) (x : Nat → Plane R) (d s : Nat)
    (root : 0 < s + d → w ^ (2 ^ (s + d) / 2) = -1) (holds : Holds (2 ^ (s + d)) w twiddles)
    (y : Spectrum R) (holding : Holding w x (value y) d s) :
    Holding w x (value ((rest s d).foldl (fun y len => stage (2 ^ (s + d)) twiddles len y) y)) 0
      (s + d) := by
  induction d generalizing s y with
  | zero => exact holding
  | succ d ih =>
      have size : s + (d + 1) = d + s + 1 := by omega
      have half : 2 ^ (d + s + 1) / 2 = 2 ^ (d + s) := by
        rw [Nat.pow_succ, Nat.mul_div_cancel _ (by omega)]
      have square := root (by omega)
      rw [size, half] at square
      have once := stage_holding w square twiddles (size ▸ holds) x y holding
      have same : s + 1 + d = s + (d + 1) := by omega
      have after := ih (s + 1) (by rw [same]; exact root) (by rw [same]; exact holds) _ once
      rw [rest_succ, List.foldl_cons]
      rw [same] at after
      rw [size] at after ⊢
      exact after

theorem sweeps (t s : Nat) : Sweeps (2 ^ (t + s + 1)) (2 * 2 ^ s) where
  inside v turn := by
    obtain ⟨place, block⟩ := visit_bounds turn
    obtain ⟨step, _, half⟩ := stage_sizes t s
    have size : 2 ^ (t + s + 1) = 2 ^ t * (2 * 2 ^ s) := by
      rw [Nat.pow_succ, Nat.pow_add]
      ring
    have blocks := Nat.mul_le_mul_right (2 * 2 ^ s) (Nat.succ_le_of_lt block)
    have entries := Nat.mul_le_mul_right (2 ^ t) (Nat.succ_le_of_lt place)
    have nonempty := Nat.two_pow_pos t
    have table : 2 ^ (t + s + 1) = 2 * (2 ^ s * 2 ^ t) := by
      rw [size]
      ring
    rw [Nat.succ_mul] at blocks entries
    rw [cells, half, step]
    refine ⟨by omega, by omega, ?_⟩
    rw [table, Nat.mul_assoc]
    omega
  once := by
    obtain ⟨_, _, half⟩ := stage_sizes t s
    have size : 2 ^ (t + s + 1) = 2 ^ t * (2 * 2 ^ s) := by
      rw [Nat.pow_succ, Nat.pow_add]
      ring
    have left : ((visits (2 ^ (t + s + 1)) (2 * 2 ^ s)).map (cells (2 * 2 ^ s))).Nodup := by
      apply (visits_nodup _ _).map_on
      intro v turn u turn' same
      exact (touches_turn (visit_bounds turn).1 (Or.inl rfl)).trans
        (touches_turn (visit_bounds turn').1 (Or.inl (congrArg Prod.fst same))).symm
    have right : (pairs (2 ^ (t + s + 1)) (2 * 2 ^ s)).Nodup := by
      apply (List.nodup_range.filter _).map
      exact fun a b same => congrArg Prod.fst same
    rw [List.perm_ext_iff_of_nodup left right]
    rintro ⟨a, b⟩
    simp only [pairs, List.mem_map, List.mem_filter, List.mem_range, decide_eq_true_eq, half,
      Prod.mk.injEq]
    constructor
    · rintro ⟨v, turn, same⟩
      obtain ⟨place, block⟩ := visit_bounds turn
      have blocks := Nat.mul_le_mul_right (2 * 2 ^ s) (Nat.succ_le_of_lt block)
      rw [Nat.succ_mul] at blocks
      rw [cells, half, Prod.mk.injEq] at same
      refine ⟨v.2 * (2 * 2 ^ s) + v.1, ⟨by omega, ?_⟩, same⟩
      rw [Nat.add_comm, Nat.add_mul_mod_self_right, Nat.mod_eq_of_lt (by omega)]
      exact place
    · rintro ⟨c, ⟨inside, place⟩, low, high⟩
      have block : c / (2 * 2 ^ s) < 2 ^ t :=
        Nat.div_lt_of_lt_mul (by rw [Nat.mul_comm, ← size]; exact inside)
      have parts := Nat.div_add_mod' c (2 * 2 ^ s)
      refine ⟨(c % (2 * 2 ^ s), c / (2 * 2 ^ s)), visit_turn place block, ?_⟩
      rw [cells, half, parts, low, ← high, low]

end Stages

/-! ### The whole transform -/

section Whole

variable {R : Type} [CommRing R] {k : Nat}

theorem lens_never (fuel len : Nat) (counter : len = 0 ∨ ∃ e, e ≤ 31 ∧ len = 2 ^ e) :
    lens (2 ^ 31) fuel len = none := by
  induction fuel generalizing len with
  | zero => rfl
  | succ fuel ih =>
      have runs : len ≤ 2 ^ 31 := by
        rcases counter with rfl | ⟨e, small, rfl⟩
        · exact Nat.zero_le _
        · exact Nat.pow_le_pow_right (by omega) small
      have next : 2 * len % 2 ^ 32 = 0 ∨ ∃ e, e ≤ 31 ∧ 2 * len % 2 ^ 32 = 2 ^ e := by
        rcases counter with rfl | ⟨e, small, rfl⟩
        · exact Or.inl rfl
        · rcases Nat.lt_or_ge e 31 with below | last
          · have fits : 2 ^ (e + 1) < 2 ^ 32 := Nat.pow_lt_pow_right (by omega) (by omega)
            rw [Nat.mul_comm, ← Nat.pow_succ]
            exact Or.inr ⟨e + 1, below, Nat.mod_eq_of_lt fits⟩
          · have whole : e = 31 := by omega
            rw [whole]
            exact Or.inl rfl
      rw [lens, if_pos runs, ih _ next]
      rfl

theorem passes_transform (w : Plane R) (root : 0 < k → w ^ (2 ^ k / 2) = -1)
    (short : k < 31) (twiddles : Nat → R) (holds : Holds (2 ^ k) w twiddles) (x : Spectrum R) :
    ∀ i < 2 ^ k, value ((rest 0 k).foldl (fun x len => stage (2 ^ k) twiddles len x)
      (reorder (2 ^ k) x)) i = transform (2 ^ k) w (value x) i := by
  intro i cell
  have first : Holding w (value x) (value (reorder (2 ^ k) x)) k 0 := by
    intro q block j place
    have single : j = 0 := by omega
    rw [single, part_single, Nat.pow_zero, Nat.mul_one, Nat.add_zero]
    exact value_reorder k (by omega) x q block
  have last := rest_holding w twiddles (value x) k 0 (by rw [Nat.zero_add]; exact root)
    (by rw [Nat.zero_add]; exact holds) _ first
  rw [Nat.zero_add] at last
  have whole := last 0 (by decide) i cell
  rw [Nat.zero_mul, Nat.zero_add, part_whole] at whole
  exact whole

theorem small_transforms (short : k < 31) (w : Plane R) (root : 0 < k → w ^ (2 ^ k / 2) = -1)
    (twiddles : Nat → R) (holds : Holds (2 ^ k) w twiddles) (x : Spectrum R) :
    Transforms (2 ^ k) w twiddles x where
  swaps i _ := by
    rw [bitsFrom_pow k 32 0 (Nat.zero_le k) (by omega), bitReverse_reversed]
    exact reversed_lt k i
  ends := by
    have passes := lens_rest k 0 (k + 1) (by omega) (by omega)
    rw [Nat.zero_add, Nat.pow_zero, Nat.mul_one] at passes
    refine ⟨k + 1, rest 0 k, _, passes, ?_, by rw [fftWords, passes]; rfl,
      passes_transform w root short twiddles holds x⟩
    intro len member
    obtain ⟨i, small, rfl⟩ := List.mem_map.mp member
    have before := List.mem_range.mp small
    obtain ⟨t, rfl⟩ : ∃ t, k = t + i + 1 := ⟨k - i - 1, by omega⟩
    rw [Nat.zero_add]
    exact sweeps t i

theorem stages_rest (n : Nat) (twiddles : Nat → R) (d s fuel : Nat) (size : n = 2 ^ (s + d))
    (enough : d < fuel) (x : Spectrum R) : stages n twiddles fuel (2 * 2 ^ s) x =
      (rest s d).foldl (fun x len => stage n twiddles len x) x := by
  induction d generalizing s fuel x with
  | zero =>
      obtain ⟨fuel, rfl⟩ : ∃ f, fuel = f + 1 := ⟨fuel - 1, by omega⟩
      have past : ¬ 2 * 2 ^ s ≤ n := by
        have := Nat.two_pow_pos s
        rw [size, Nat.add_zero]
        omega
      rw [stages, if_neg past]
      rfl
  | succ d ih =>
      obtain ⟨fuel, rfl⟩ : ∃ f, fuel = f + 1 := ⟨fuel - 1, by omega⟩
      have double : 2 * 2 ^ s = 2 ^ (s + 1) := by rw [Nat.pow_succ, Nat.mul_comm]
      have runs : 2 * 2 ^ s ≤ n := by
        rw [size, double]
        exact Nat.pow_le_pow_right (by omega) (by omega)
      have next := ih (s + 1) fuel (by rw [size]; congr 1; omega) (by omega)
        (stage n twiddles (2 * 2 ^ s) x)
      rw [stages, if_pos runs, rest_succ, List.foldl_cons, ← next, double]

theorem kernel_passes (short : k < 31) (twiddles : Nat → R) (x : Spectrum R) :
    fftRadix2 (2 ^ k) twiddles x =
      (rest 0 k).foldl (fun x len => stage (2 ^ k) twiddles len x) (reorder (2 ^ k) x) := by
  have kernel := stages_rest (2 ^ k) twiddles k 0 32 (by rw [Nat.zero_add]) (by omega)
    (reorder (2 ^ k) x)
  rw [Nat.pow_zero, Nat.mul_one] at kernel
  exact kernel

theorem fftWords_kernel (short : k < 31) (twiddles : Nat → R) (x : Spectrum R) :
    fftWords (k + 1) (2 ^ k) twiddles x = some (fftRadix2 (2 ^ k) twiddles x) := by
  have passes := lens_rest k 0 (k + 1) (by omega) (by omega)
  rw [Nat.zero_add, Nat.pow_zero, Nat.mul_one] at passes
  rw [fftWords, passes, kernel_passes short]
  rfl

theorem kernel_transform (short : k < 31) (w : Plane R) (root : 0 < k → w ^ (2 ^ k / 2) = -1)
    (twiddles : Nat → R) (holds : Holds (2 ^ k) w twiddles) (x : Spectrum R) {i : Nat}
    (cell : i < 2 ^ k) :
    value (fftRadix2 (2 ^ k) twiddles x) i = transform (2 ^ k) w (value x) i := by
  rw [kernel_passes short]
  exact passes_transform w root short twiddles holds x i cell

/-- `fft_radix2` computes the transform for every power of two but the last one a
word holds: there its loop does not end. -/
theorem fft_radix2_transforms (k : Nat) (word : 2 ^ k < 2 ^ 32) (w : Plane R)
    (root : 1 < 2 ^ k → w ^ (2 ^ k / 2) = -1) (twiddles : Nat → R)
    (holds : Holds (2 ^ k) w twiddles) (x : Spectrum R) :
    Transforms (2 ^ k) w twiddles x ↔ 2 ^ k < 2 ^ 31 := by
  have bits : k < 32 := (Nat.pow_lt_pow_iff_right (by omega)).mp word
  constructor
  · intro transforms
    by_contra long
    have last : k = 31 := by
      have := mt (Nat.pow_lt_pow_iff_right (by omega : 1 < 2)).mpr long
      omega
    obtain ⟨fuel, passes, _, ended, _⟩ := transforms.ends
    rw [last, lens_never fuel 2 (Or.inr ⟨1, by omega, rfl⟩)] at ended
    cases ended
  · intro short
    have below : k < 31 := (Nat.pow_lt_pow_iff_right (by omega)).mp short
    apply small_transforms below w _ twiddles holds x
    exact fun nonempty => root (Nat.one_lt_two_pow (by omega))

/-- Four values over the integers, with `w = -i`. -/
theorem fft_radix2_transforms_four :
    Transforms 4 (⟨0, -1⟩ : Plane ℤ) (fun i => [1, 0, 0, -1].getD i 0)
      ⟨fun i => i, fun _ => 0⟩ := by
  apply (fft_radix2_transforms 2 (by decide) ⟨0, -1⟩ (by decide) _ ?_ _).mpr (by decide)
  intro k below
  have few : k = 0 ∨ k = 1 := by
    have : (2 ^ 2 / 2 : Nat) = 2 := rfl
    omega
  rcases few with rfl | rfl <;> decide

/-- The last power of two of a word, over the field of two elements with `w = 1`. -/
theorem fft_radix2_never_ends : (1 : Plane (ZMod 2)) ^ (2 ^ 31 / 2) = -1 ∧
    Holds (2 ^ 31) (1 : Plane (ZMod 2)) (fun i => if i % 2 = 0 then 1 else 0) ∧
    ¬ Transforms (2 ^ 31) (1 : Plane (ZMod 2)) (fun i => if i % 2 = 0 then 1 else 0)
      ⟨fun _ => 0, fun _ => 0⟩ := by
  refine ⟨?_, ?_, ?_⟩
  · rw [one_pow]
    decide
  · intro k _
    have even : 2 * k % 2 = 0 := Nat.mul_mod_right 2 k
    have odd : ¬ (2 * k + 1) % 2 = 0 := by omega
    simp only [one_pow, even, odd, if_true, if_false]
    exact ⟨rfl, rfl⟩
  · intro transforms
    obtain ⟨fuel, passes, _, ended, _⟩ := transforms.ends
    rw [lens_never fuel 2 (Or.inr ⟨1, by omega, rfl⟩)] at ended
    cases ended

end Whole

end HeteroSim.FftRadix2
