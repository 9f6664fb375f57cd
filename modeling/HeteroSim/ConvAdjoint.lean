import HeteroSim.NdArrays
import Mathlib.Algebra.BigOperators.Intervals

/-!
The convolution and the pooling that the MNIST network is trained with, forward and
backward, in exact arithmetic. Operands of one product agree in their shapes.
-/

namespace HeteroSim.ConvAdjoint

open Finset (range)
open NdArrays

universe u v

/-! ### Convolution -/

section Convolution

variable {R : Type u} [CommRing R]

/-- The windows of `k` rows and columns, of which `oh` by `ow` fit. -/
def windowed (n c oh ow k : Nat) (x : NdArray R) : NdArray R where
  shape := [n, c, oh, ow, k, k]
  entry := fun
    | [s, d, i, j, u, v] => x.entry [s, d, i + u, j + v]
    | _ => 0

/-- `sliding_window_view(x, (k, k), axis=(2, 3))`. -/
def slidingWindowView (x : NdArray R) (k : Nat) : Except Refusal (NdArray R) :=
  match x.shape with
  | [n, c, h, w] =>
      if k ≤ h ∧ k ≤ w then .ok (windowed n c (h - k + 1) (w - k + 1) k x) else .error .window
  | _ => .error .axes

def im2col (x : NdArray R) (k : Nat) : Except Refusal (NdArray R) :=
  match x.shape with
  | [n, c, h, w] => do
      let windows ← slidingWindowView x k
      reshape (transpose [0, 1, 4, 5, 2, 3] windows) [n, c * k * k, (h - k + 1) * (w - k + 1)]
  | _ => .error .axes

/-- `einsum("fj,njp->nfp", w, cols)`. -/
def filtered (w cols : NdArray R) : NdArray R where
  shape := [cols.shape.getD 0 0, w.shape.getD 0 0, cols.shape.getD 2 0]
  entry := fun
    | [s, g, p] => ∑ j ∈ range (w.shape.getD 1 0), w.entry [g, j] * cols.entry [s, j, p]
    | _ => 0

/-- `out + b[None, :, None]`. -/
def biased (out b : NdArray R) : NdArray R where
  shape := out.shape
  entry := fun
    | [s, g, p] => out.entry [s, g, p] + b.entry [g]
    | _ => 0

def convForward (x w b : NdArray R) (k : Nat) : Except Refusal (NdArray R × NdArray R) :=
  match x.shape, w.shape with
  | [n, _, h, wIn], f :: _ => do
      let cols ← im2col x k
      let flat ← reshapeRest w [f]
      let out ← reshape (biased (filtered flat cols) b) [n, f, h - k + 1, wIn - k + 1]
      return (out, cols)
  | _, _ => .error .axes

/-- `einsum("nfp,njp->fj", do, cols)`. -/
def correlated (dout cols : NdArray R) : NdArray R where
  shape := [dout.shape.getD 1 0, cols.shape.getD 1 0]
  entry := fun
    | [g, j] => ∑ s ∈ range (dout.shape.getD 0 0), ∑ p ∈ range (dout.shape.getD 2 0),
        dout.entry [s, g, p] * cols.entry [s, j, p]
    | _ => 0

/-- `do.sum(axis=(0, 2))`. -/
def summed (dout : NdArray R) : NdArray R where
  shape := [dout.shape.getD 1 0]
  entry := fun
    | [g] => ∑ s ∈ range (dout.shape.getD 0 0), ∑ p ∈ range (dout.shape.getD 2 0),
        dout.entry [s, g, p]
    | _ => 0

/-- `einsum("fj,nfp->njp", w, do)`. -/
def spread (w dout : NdArray R) : NdArray R where
  shape := [dout.shape.getD 0 0, w.shape.getD 1 0, dout.shape.getD 2 0]
  entry := fun
    | [s, j, p] => ∑ g ∈ range (w.shape.getD 0 0), w.entry [g, j] * dout.entry [s, g, p]
    | _ => 0

/-- `dx[:, :, i:i + oh, j:j + ow] += dcols[:, :, i, j, :, :]`. -/
def addWindow (oh ow : Nat) (dcols dx : NdArray R) (i j : Nat) : NdArray R where
  shape := dx.shape
  entry := fun
    | [s, d, y, z] =>
        if (i ≤ y ∧ y < i + oh) ∧ (j ≤ z ∧ z < j + ow) then
          dx.entry [s, d, y, z] + dcols.entry [s, d, i, j, y - i, z - j]
        else dx.entry [s, d, y, z]
    | _ => 0

def scattered (oh ow k : Nat) (dcols dx : NdArray R) : NdArray R :=
  (List.range k).foldl (fun dx i =>
    (List.range k).foldl (fun dx j => addWindow oh ow dcols dx i j) dx) dx

def convBackward (dout cols : NdArray R) (xShape : List Nat) (w : NdArray R) (k : Nat) :
    Except Refusal (NdArray R × NdArray R × NdArray R) :=
  match xShape, w.shape with
  | [n, c, h, wIn], f :: _ => do
      let flatOut ← reshapeRest dout [n, f]
      let dw ← reshape (correlated flatOut cols) w.shape
      let db := summed flatOut
      let flat ← reshapeRest w [f]
      let oh := h - k + 1
      let ow := wIn - k + 1
      let dcols ← reshape (spread flat flatOut) [n, c, k, k, oh, ow]
      return (scattered oh ow k dcols (zeros xShape), dw, db)
  | _, _ => .error .axes

end Convolution

/-! ### Pooling -/

section Pooling

variable {α : Type u}

/-- The first place of the greatest of `v 0 .. v last`. -/
def argmax [LinearOrder α] (v : Nat → α) : Nat → Nat
  | 0 => 0
  | last + 1 => if v (argmax v last) < v (last + 1) then last + 1 else argmax v last

def greatest [LinearOrder α] (v : Nat → α) : Nat → α
  | 0 => v 0
  | last + 1 => max (greatest v last) (v (last + 1))

/-- `x[:, :, :rows, :columns]`. -/
def cropped (x : NdArray α) (rows columns : Nat) : NdArray α where
  shape := [x.shape.getD 0 0, x.shape.getD 1 0, rows, columns]
  entry := x.entry

/-- What `maxpool_forward` leaves for the way back: the places of the maxima and the sizes. -/
structure Cache where
  idx : NdArray Nat
  xShape : List Nat
  oh : Nat
  ow : Nat

def maxpoolForward [LinearOrder α] (x : NdArray α) : Except Refusal (NdArray α × Cache) :=
  match x.shape with
  | [n, c, h, w] => do
      let oh := h / 2
      let ow := w / 2
      let xc ← reshape (cropped x (oh * 2) (ow * 2)) [n, c, oh, 2, ow, 2]
      let flat ← reshape (transpose [0, 1, 2, 4, 3, 5] xc) [n, c, oh, ow, 4]
      let idx : NdArray Nat :=
        { shape := [n, c, oh, ow]
          entry := fun cell => argmax (fun t => flat.entry (cell ++ [t])) 3 }
      let best : NdArray α :=
        { shape := [n, c, oh, ow]
          entry := fun cell => greatest (fun t => flat.entry (cell ++ [t])) 3 }
      return (best, { idx := idx, xShape := x.shape, oh := oh, ow := ow })
  | _ => .error .axes

/-- `put_along_axis(zeros, idx[..., None], dout[..., None], axis=-1)`. -/
def putAlongAxis [Zero α] (shape : List Nat) (idx : NdArray Nat)
    (dout : NdArray α) : NdArray α where
  shape := shape
  entry := fun cell =>
    if cell.getLast? = some (idx.entry cell.dropLast) then dout.entry cell.dropLast else 0

/-- `dx[:, :, :rows, :columns] = back`, of `dx` all zero. -/
def placed [Zero α] (shape : List Nat) (rows columns : Nat) (back : NdArray α) : NdArray α where
  shape := shape
  entry := fun
    | [s, d, y, z] => if y < rows ∧ z < columns then back.entry [s, d, y, z] else 0
    | _ => 0

def maxpoolBackward [Zero α] (dout : NdArray α) (cache : Cache) : Except Refusal (NdArray α) :=
  match cache.xShape with
  | [n, c, _, _] => do
      let dflat := putAlongAxis [n, c, cache.oh, cache.ow, 4] cache.idx dout
      let back ← reshape dflat [n, c, cache.oh, cache.ow, 2, 2]
      let back ← reshape (transpose [0, 1, 2, 4, 3, 5] back) [n, c, cache.oh * 2, cache.ow * 2]
      return placed cache.xShape (cache.oh * 2) (cache.ow * 2) back
  | _ => .error .axes

end Pooling

/-! ### What the passes compute -/

section Passes

variable {R : Type u} [CommRing R]
variable {n c f h w k : Nat} {x weights b dout cols flat flatOut dcols dw : NdArray R}

/-- `<dout, conv_forward(x, w, b, k)>`. -/
def objective (dout x weights b : NdArray R) (k : Nat) : Except Refusal R :=
  (convForward x weights b k).map fun made => dot dout made.1

theorem im2col_made (shape : x.shape = [n, c, h, w]) (high : k ≤ h) (wide : k ≤ w) :
    ∃ cols, im2col x k = .ok cols ∧
      reshape (transpose [0, 1, 4, 5, 2, 3] (windowed n c (h - k + 1) (w - k + 1) k x))
        [n, c * k * k, (h - k + 1) * (w - k + 1)] = .ok cols := by
  have fits : [n, c * k * k, (h - k + 1) * (w - k + 1)].prod =
      (transpose [0, 1, 4, 5, 2, 3] (windowed n c (h - k + 1) (w - k + 1) k x)).shape.prod := by
    simp only [transpose, windowed, List.map_cons, List.map_nil, List.getD_cons_zero,
      List.getD_cons_succ, List.prod_cons, List.prod_nil]
    ring
  obtain ⟨cols, made⟩ := reshape_fits fits
  refine ⟨cols, ?_, made⟩
  simp only [im2col, slidingWindowView, shape, high, wide, and_self, if_true]
  exact made

theorem forward_made (shape : x.shape = [n, c, h, w]) (filters : weights.shape = [f, c, k, k])
    (high : k ≤ h) (wide : k ≤ w) (made : im2col x k = .ok cols)
    (flattened : reshape weights [f, c * k * k] = .ok flat) (nonempty : 0 < f) :
    ∃ out, convForward x weights b k = .ok (out, cols) ∧
      reshape (biased (filtered flat cols) b) [n, f, h - k + 1, w - k + 1] = .ok out := by
  obtain ⟨cols', made', columns⟩ := im2col_made shape high wide
  cases made.symm.trans made'
  have rest : reshapeRest weights [f] = .ok flat := by
    rw [reshapeRest_fits (c * k * k) (by simpa using nonempty.ne') (by
      rw [filters]
      simp only [List.prod_cons, List.prod_nil]
      ring)]
    exact flattened
  have fits : [n, f, h - k + 1, w - k + 1].prod = (biased (filtered flat cols) b).shape.prod := by
    simp only [biased, filtered, (reshape_shape columns).1, (reshape_shape flattened).1,
      List.getD_cons_zero, List.getD_cons_succ, List.prod_cons, List.prod_nil]
    ring
  obtain ⟨out, finished⟩ := reshape_fits fits
  refine ⟨out, ?_, finished⟩
  simp only [convForward, shape, filters, made, rest, bind, Except.bind, finished,
    pure, Except.pure]

theorem dot_filters {rows places : Nat} (out : flatOut.shape = [n, f, places])
    (columns : cols.shape = [n, rows, places]) (filters : flat.shape = [f, rows]) :
    dot flatOut (biased (filtered flat cols) b) =
      dot (correlated flatOut cols) flat + dot (summed flatOut) b := by
  have products : dot (correlated flatOut cols) flat =
      ∑ s ∈ range n, ∑ g ∈ range f, ∑ p ∈ range places, ∑ j ∈ range rows,
        flatOut.entry [s, g, p] * (flat.entry [g, j] * cols.entry [s, j, p]) := by
    simp only [dot, correlated, out, columns, List.getD_cons_zero, List.getD_cons_succ, total,
      Finset.sum_mul]
    rw [Finset.sum_comm (s := range n)]
    refine Finset.sum_congr rfl fun g _ => ?_
    rw [Finset.sum_comm]
    refine Finset.sum_congr rfl fun s _ => ?_
    rw [Finset.sum_comm]
    refine Finset.sum_congr rfl fun p _ => Finset.sum_congr rfl fun j _ => ?_
    ring
  have biases : dot (summed flatOut) b =
      ∑ s ∈ range n, ∑ g ∈ range f, ∑ p ∈ range places, flatOut.entry [s, g, p] * b.entry [g] := by
    simp only [dot, summed, out, List.getD_cons_zero, List.getD_cons_succ, total, Finset.sum_mul]
    exact Finset.sum_comm
  rw [products, biases]
  simp only [dot, out, total, biased, filtered, filters, List.getD_cons_zero, List.getD_cons_succ,
    mul_add, Finset.mul_sum, Finset.sum_add_distrib]

theorem dot_columns {rows places : Nat} (out : flatOut.shape = [n, f, places])
    (columns : cols.shape = [n, rows, places]) (filters : flat.shape = [f, rows]) :
    dot (correlated flatOut cols) flat = dot (spread flat flatOut) cols := by
  simp only [dot, correlated, spread, out, columns, filters, List.getD_cons_zero,
    List.getD_cons_succ, total, Finset.sum_mul]
  calc _ = ∑ j ∈ range rows, ∑ s ∈ range n, ∑ g ∈ range f, ∑ p ∈ range places,
        flatOut.entry [s, g, p] * cols.entry [s, j, p] * flat.entry [g, j] := by
        rw [Finset.sum_comm]
        exact Finset.sum_congr rfl fun j _ => Finset.sum_comm
    _ = _ := by
        rw [Finset.sum_comm]
        refine Finset.sum_congr rfl fun s _ => Finset.sum_congr rfl fun j _ => ?_
        rw [Finset.sum_comm]
        refine Finset.sum_congr rfl fun p _ => Finset.sum_congr rfl fun g _ => ?_
        ring

theorem addWindow_entry (oh ow i j s d y z : Nat) (dcols dx : NdArray R) :
    (addWindow oh ow dcols dx i j).entry [s, d, y, z] = dx.entry [s, d, y, z] +
      if (i ≤ y ∧ y < i + oh) ∧ (j ≤ z ∧ z < j + ow) then dcols.entry [s, d, i, j, y - i, z - j]
      else 0 := by
  simp only [addWindow]
  split
  next => rfl
  next => rw [add_zero]

theorem addRow_entry (oh ow i turns s d y z : Nat) (dcols dx : NdArray R) :
    ((List.range turns).foldl (fun dx j => addWindow oh ow dcols dx i j) dx).entry [s, d, y, z] =
      dx.entry [s, d, y, z] + ∑ j ∈ range turns,
        if (i ≤ y ∧ y < i + oh) ∧ (j ≤ z ∧ z < j + ow) then dcols.entry [s, d, i, j, y - i, z - j]
        else 0 := by
  induction turns with
  | zero => simp
  | succ turns ih =>
      rw [List.range_succ, List.foldl_append, List.foldl_cons, List.foldl_nil, addWindow_entry, ih,
        Finset.sum_range_succ, add_assoc]

theorem scattered_entry (oh ow turns s d y z : Nat) (dcols dx : NdArray R) :
    ((List.range turns).foldl (fun dx i =>
      (List.range k).foldl (fun dx j => addWindow oh ow dcols dx i j) dx) dx).entry [s, d, y, z] =
      dx.entry [s, d, y, z] + ∑ i ∈ range turns, ∑ j ∈ range k,
        if (i ≤ y ∧ y < i + oh) ∧ (j ≤ z ∧ z < j + ow) then dcols.entry [s, d, i, j, y - i, z - j]
        else 0 := by
  induction turns with
  | zero => simp
  | succ turns ih =>
      rw [List.range_succ, List.foldl_append, List.foldl_cons, List.foldl_nil, addRow_entry, ih,
        Finset.sum_range_succ, add_assoc]

theorem scattered_shape (oh ow : Nat) (dcols dx : NdArray R) :
    (scattered oh ow k dcols dx).shape = dx.shape := by
  have row : ∀ (js : List Nat) (dx : NdArray R) (i : Nat),
      (js.foldl (fun dx j => addWindow oh ow dcols dx i j) dx).shape = dx.shape := by
    intro js
    induction js with
    | nil => exact fun dx i => rfl
    | cons j rest ih => exact fun dx i => ih _ i
  have rows : ∀ (is : List Nat) (dx : NdArray R), (is.foldl (fun dx i =>
      (List.range k).foldl (fun dx j => addWindow oh ow dcols dx i j) dx) dx).shape = dx.shape := by
    intro is
    induction is with
    | nil => exact fun dx => rfl
    | cons i rest ih => exact fun dx => (ih _).trans (row _ dx i)
  exact rows _ dx

theorem sum_window {M : Type u} [AddCommMonoid M] (g : Nat → M) {u m l : Nat} (fits : u + m ≤ l) :
    (∑ y ∈ range l, if u ≤ y ∧ y < u + m then g y else 0) = ∑ i ∈ range m, g (i + u) := by
  have places : (range l).filter (fun y => u ≤ y ∧ y < u + m) = Finset.Ico u (u + m) := by
    ext y
    simp only [Finset.mem_filter, Finset.mem_range, Finset.mem_Ico]
    omega
  rw [← Finset.sum_filter, places, Finset.sum_Ico_eq_sum_range, Nat.add_sub_cancel_left]
  exact Finset.sum_congr rfl fun i _ => by rw [Nat.add_comm]

theorem dot_scattered {oh ow : Nat}
    (blocks : dcols.shape = [n, c, k, k, oh, ow]) (high : oh + k = h + 1) (wide : ow + k = w + 1) :
    dot (scattered oh ow k dcols (zeros [n, c, h, w])) x =
      dot dcols (transpose [0, 1, 4, 5, 2, 3] (windowed n c oh ow k x)) := by
  rw [dot, dot, scattered_shape, blocks]
  simp only [zeros, total]
  refine Finset.sum_congr rfl fun s _ => Finset.sum_congr rfl fun d _ => ?_
  have entry : ∀ y z, (scattered oh ow k dcols (zeros [n, c, h, w])).entry [s, d, y, z] =
      ∑ u ∈ range k, ∑ v ∈ range k,
        if (u ≤ y ∧ y < u + oh) ∧ (v ≤ z ∧ z < v + ow) then dcols.entry [s, d, u, v, y - u, z - v]
        else 0 := by
    intro y z
    rw [scattered, scattered_entry]
    simp only [zeros, zero_add]
  have window : ∀ u ∈ range k, ∀ v ∈ range k, (∑ y ∈ range h, ∑ z ∈ range w,
      (if (u ≤ y ∧ y < u + oh) ∧ (v ≤ z ∧ z < v + ow) then dcols.entry [s, d, u, v, y - u, z - v]
        else 0) * x.entry [s, d, y, z]) = ∑ i ∈ range oh, ∑ j ∈ range ow,
          dcols.entry [s, d, u, v, i, j] * x.entry [s, d, i + u, j + v] := by
    intro u above v left
    have above := Finset.mem_range.mp above
    have left := Finset.mem_range.mp left
    have parts : ∀ y z, (if (u ≤ y ∧ y < u + oh) ∧ (v ≤ z ∧ z < v + ow) then
        dcols.entry [s, d, u, v, y - u, z - v] else 0) * x.entry [s, d, y, z] =
          if u ≤ y ∧ y < u + oh then if v ≤ z ∧ z < v + ow then
            dcols.entry [s, d, u, v, y - u, z - v] * x.entry [s, d, y, z] else 0 else 0 := by
      intro y z
      by_cases row : u ≤ y ∧ y < u + oh
      · by_cases column : v ≤ z ∧ z < v + ow
        · rw [if_pos ⟨row, column⟩, if_pos row, if_pos column]
        · rw [if_neg fun both => column both.2, if_pos row, if_neg column, zero_mul]
      · rw [if_neg fun both => row both.1, if_neg row, zero_mul]
    have rows : ∀ y, (∑ z ∈ range w, if u ≤ y ∧ y < u + oh then if v ≤ z ∧ z < v + ow then
        dcols.entry [s, d, u, v, y - u, z - v] * x.entry [s, d, y, z] else 0 else 0) =
          if u ≤ y ∧ y < u + oh then ∑ j ∈ range ow,
            dcols.entry [s, d, u, v, y - u, j] * x.entry [s, d, y, j + v] else 0 := by
      intro y
      by_cases row : u ≤ y ∧ y < u + oh
      · simp only [row, and_self, if_true]
        rw [sum_window (fun z => dcols.entry [s, d, u, v, y - u, z - v] * x.entry [s, d, y, z])
          (by omega)]
        simp only [Nat.add_sub_cancel]
      · simp only [row, if_false, Finset.sum_const_zero]
    simp only [parts, rows]
    rw [sum_window (fun y => ∑ j ∈ range ow,
      dcols.entry [s, d, u, v, y - u, j] * x.entry [s, d, y, j + v]) (by omega)]
    simp only [Nat.add_sub_cancel]
  calc _ = ∑ y ∈ range h, ∑ z ∈ range w, ∑ u ∈ range k, ∑ v ∈ range k,
        (if (u ≤ y ∧ y < u + oh) ∧ (v ≤ z ∧ z < v + ow) then dcols.entry [s, d, u, v, y - u, z - v]
          else 0) * x.entry [s, d, y, z] := by
        have entry' := entry
        simp only [zeros] at entry'
        simp only [entry', Finset.sum_mul]
    _ = ∑ u ∈ range k, ∑ v ∈ range k, ∑ y ∈ range h, ∑ z ∈ range w,
        (if (u ≤ y ∧ y < u + oh) ∧ (v ≤ z ∧ z < v + ow) then dcols.entry [s, d, u, v, y - u, z - v]
          else 0) * x.entry [s, d, y, z] := by
        rw [Finset.sum_congr rfl fun y _ => Finset.sum_comm (s := range w), Finset.sum_comm]
        refine Finset.sum_congr rfl fun u _ => ?_
        rw [Finset.sum_congr rfl fun y _ => Finset.sum_comm (s := range w), Finset.sum_comm]
    _ = _ := Finset.sum_congr rfl fun u above => Finset.sum_congr rfl fun v left =>
        window u above v left

theorem objective_columns (shape : x.shape = [n, c, h, w]) (filters : weights.shape = [f, c, k, k])
    (outer : dout.shape = [n, f, h - k + 1, w - k + 1]) (high : k ≤ h) (wide : k ≤ w)
    (nonempty : 0 < f)
    (made : im2col x k = .ok cols) (flattened : reshape weights [f, c * k * k] = .ok flat)
    (flattened' : reshape dout [n, f, (h - k + 1) * (w - k + 1)] = .ok flatOut) :
    objective dout x weights b k =
      .ok (dot (correlated flatOut cols) flat + dot (summed flatOut) b) := by
  obtain ⟨out, ran, finished⟩ := forward_made (b := b) shape filters high wide made
    flattened nonempty
  obtain ⟨cols', made', columns⟩ := im2col_made shape high wide
  cases made.symm.trans made'
  have flatShape : (biased (filtered flat cols) b).shape = [n, f, (h - k + 1) * (w - k + 1)] := by
    simp only [biased, filtered, (reshape_shape columns).1, (reshape_shape flattened).1,
      List.getD_cons_zero, List.getD_cons_succ]
  rw [← flatShape] at flattened'
  rw [← outer] at finished
  have product := dot_reshape flattened' finished
  rw [dot_filters ((reshape_shape flattened').1.trans flatShape) (reshape_shape columns).1
    (reshape_shape flattened).1] at product
  rw [objective, ran, ← product]
  rfl

theorem objective_filters (shape : x.shape = [n, c, h, w]) (filters : weights.shape = [f, c, k, k])
    (outer : dout.shape = [n, f, h - k + 1, w - k + 1]) (high : k ≤ h) (wide : k ≤ w)
    (nonempty : 0 < f)
    (made : im2col x k = .ok cols)
    (flattened' : reshape dout [n, f, (h - k + 1) * (w - k + 1)] = .ok flatOut)
    (backward : reshape (correlated flatOut cols) [f, c, k, k] = .ok dw) :
    objective dout x weights b k = .ok (dot dw weights + dot (summed flatOut) b) := by
  have fits : [f, c * k * k].prod = weights.shape.prod := by
    rw [filters]
    simp only [List.prod_cons, List.prod_nil]
    ring
  obtain ⟨flat, flattened⟩ := reshape_fits fits
  obtain ⟨cols', made', columns⟩ := im2col_made shape high wide
  cases made.symm.trans made'
  have square : (correlated flatOut cols).shape = [f, c * k * k] := by
    simp only [correlated, (reshape_shape flattened').1, (reshape_shape columns).1,
      List.getD_cons_zero, List.getD_cons_succ]
  have back := backward
  rw [← filters] at back
  have front := flattened
  rw [← square] at front
  rw [objective_columns shape filters outer high wide nonempty made flattened flattened',
    dot_reshape back front]

theorem objective_input (shape : x.shape = [n, c, h, w]) (filters : weights.shape = [f, c, k, k])
    (outer : dout.shape = [n, f, h - k + 1, w - k + 1]) (high : k ≤ h) (wide : k ≤ w)
    (nonempty : 0 < f)
    (flattened : reshape weights [f, c * k * k] = .ok flat)
    (flattened' : reshape dout [n, f, (h - k + 1) * (w - k + 1)] = .ok flatOut)
    (backward : reshape (spread flat flatOut) [n, c, k, k, h - k + 1, w - k + 1] = .ok dcols) :
    objective dout x weights b k =
      .ok (dot (scattered (h - k + 1) (w - k + 1) k dcols (zeros [n, c, h, w])) x +
        dot (summed flatOut) b) := by
  obtain ⟨cols, made, columns⟩ := im2col_made shape high wide
  have out := (reshape_shape flattened').1
  have flatShape := (reshape_shape flattened).1
  have spreadShape : (spread flat flatOut).shape = [n, c * k * k, (h - k + 1) * (w - k + 1)] := by
    simp only [spread, out, flatShape, List.getD_cons_zero, List.getD_cons_succ]
  have gathered := columns
  rw [← spreadShape] at gathered
  rw [objective_columns shape filters outer high wide nonempty made flattened flattened',
    dot_columns out (reshape_shape columns).1 flatShape, dot_reshape backward gathered,
    dot_scattered (reshape_shape backward).1 (by omega) (by omega)]

theorem backward_made (columns : cols.shape = [n, c * k * k, (h - k + 1) * (w - k + 1)])
    (filters : weights.shape = [f, c, k, k]) (outer : dout.shape = [n, f, h - k + 1, w - k + 1])
    (nonempty : 0 < n) (nonempty' : 0 < f) : ∃ flat flatOut dw dcols,
      reshape weights [f, c * k * k] = .ok flat ∧
      reshape dout [n, f, (h - k + 1) * (w - k + 1)] = .ok flatOut ∧
      reshape (correlated flatOut cols) [f, c, k, k] = .ok dw ∧
      reshape (spread flat flatOut) [n, c, k, k, h - k + 1, w - k + 1] = .ok dcols ∧
      convBackward dout cols [n, c, h, w] weights k =
        .ok (scattered (h - k + 1) (w - k + 1) k dcols (zeros [n, c, h, w]), dw,
          summed flatOut) := by
  have size : [f].prod * (c * k * k) = weights.shape.prod := by
    rw [filters]
    simp only [List.prod_cons, List.prod_nil]
    ring
  have size' : [n, f].prod * ((h - k + 1) * (w - k + 1)) = dout.shape.prod := by
    rw [outer]
    simp only [List.prod_cons, List.prod_nil]
    ring
  have fits : [f, c * k * k].prod = weights.shape.prod := by
    rw [← size]
    simp only [List.prod_cons, List.prod_nil, mul_one]
  have fits' : [n, f, (h - k + 1) * (w - k + 1)].prod = dout.shape.prod := by
    rw [← size']
    simp only [List.prod_cons, List.prod_nil, mul_one, mul_assoc]
  obtain ⟨flat, flattened⟩ := reshape_fits fits
  obtain ⟨flatOut, flattened'⟩ := reshape_fits fits'
  have flatShape := (reshape_shape flattened).1
  have out := (reshape_shape flattened').1
  have square : [f, c, k, k].prod = (correlated flatOut cols).shape.prod := by
    simp only [correlated, out, columns, List.getD_cons_zero, List.getD_cons_succ, List.prod_cons,
      List.prod_nil]
    ring
  have blocks : [n, c, k, k, h - k + 1, w - k + 1].prod = (spread flat flatOut).shape.prod := by
    simp only [spread, out, flatShape, List.getD_cons_zero, List.getD_cons_succ, List.prod_cons,
      List.prod_nil]
    ring
  obtain ⟨dw, back⟩ := reshape_fits square
  obtain ⟨dcols, gathered⟩ := reshape_fits blocks
  refine ⟨flat, flatOut, dw, dcols, flattened, flattened', back, gathered, ?_⟩
  have rest : reshapeRest weights [f] = .ok flat := by
    rw [reshapeRest_fits _ (by simpa using nonempty'.ne') size]
    exact flattened
  have rest' : reshapeRest dout [n, f] = .ok flatOut := by
    rw [reshapeRest_fits _ (by simp [nonempty.ne', nonempty'.ne']) size']
    exact flattened'
  simp only [convBackward, filters, rest', back, rest, gathered, bind, Except.bind, pure,
    Except.pure]

end Passes

/-- The tensors of one layer, with the gradient of what follows. -/
structure Layer (R : Type u) where
  n : Nat
  c : Nat
  f : Nat
  h : Nat
  w : Nat
  k : Nat
  high : k ≤ h
  wide : k ≤ w
  x : NdArray R
  weights : NdArray R
  bias : NdArray R
  dout : NdArray R
  x_shape : x.shape = [n, c, h, w]
  weights_shape : weights.shape = [f, c, k, k]
  bias_shape : bias.shape = [f]
  dout_shape : dout.shape = [n, f, h - k + 1, w - k + 1]

/-- The gradients of `<dout, conv_forward(x, w, b, k)>`: in each of the three it is affine, and
a perturbation moves it by its product with the gradient; alone, without bias, it gives just
that product. -/
structure Gradients {R : Type u} [CommRing R] (l : Layer R) (dx dw db : NdArray R) : Prop where
  shapes : dx.shape = l.x.shape ∧ dw.shape = l.weights.shape ∧ db.shape = l.bias.shape
  input : ∀ p : NdArray R, p.shape = l.x.shape →
    objective l.dout (plus l.x p) l.weights l.bias l.k =
      (objective l.dout l.x l.weights l.bias l.k).map (· + dot dx p)
  filters : ∀ p : NdArray R, p.shape = l.weights.shape →
    objective l.dout l.x (plus l.weights p) l.bias l.k =
      (objective l.dout l.x l.weights l.bias l.k).map (· + dot dw p)
  offset : ∀ p : NdArray R, p.shape = l.bias.shape →
    objective l.dout l.x l.weights (plus l.bias p) l.k =
      (objective l.dout l.x l.weights l.bias l.k).map (· + dot db p)
  adjoint_input : ∀ p : NdArray R, p.shape = l.x.shape →
    objective l.dout p l.weights (zeros l.bias.shape) l.k = .ok (dot dx p)
  adjoint_filters : ∀ p : NdArray R, p.shape = l.weights.shape →
    objective l.dout l.x p (zeros l.bias.shape) l.k = .ok (dot dw p)
  adjoint_offset : ∀ p : NdArray R, p.shape = l.bias.shape →
    objective l.dout l.x (zeros l.weights.shape) p l.k = .ok (dot db p)

theorem conv_gradients {R : Type u} [CommRing R] (l : Layer R) (nonempty : 0 < l.n)
    (nonempty' : 0 < l.f) :
    ∃ out cols dx dw db, convForward l.x l.weights l.bias l.k = .ok (out, cols) ∧
      convBackward l.dout cols l.x.shape l.weights l.k = .ok (dx, dw, db) ∧
      Gradients l dx dw db := by
  obtain ⟨cols, made, columns⟩ := im2col_made l.x_shape l.high l.wide
  obtain ⟨flat, flatOut, dw, dcols, flattened, flattened', back, gathered, ran⟩ :=
    backward_made (reshape_shape columns).1 l.weights_shape l.dout_shape nonempty nonempty'
  obtain ⟨out, forward, _⟩ := forward_made (b := l.bias) l.x_shape l.weights_shape l.high l.wide
    made flattened nonempty'
  have over_input : ∀ (x b : NdArray R), x.shape = l.x.shape → objective l.dout x l.weights b l.k =
      .ok (dot (scattered (l.h - l.k + 1) (l.w - l.k + 1) l.k dcols
        (zeros [l.n, l.c, l.h, l.w])) x + dot (summed flatOut) b) := fun x b same =>
    objective_input (same.trans l.x_shape) l.weights_shape l.dout_shape l.high l.wide nonempty'
      flattened flattened' gathered
  have over_filters : ∀ (weights b : NdArray R), weights.shape = l.weights.shape →
      objective l.dout l.x weights b l.k = .ok (dot dw weights + dot (summed flatOut) b) :=
    fun weights b same => objective_filters l.x_shape (same.trans l.weights_shape) l.dout_shape
      l.high l.wide nonempty' made flattened' back
  refine ⟨out, cols, _, dw, summed flatOut, forward, by rw [l.x_shape]; exact ran, ?_⟩
  constructor
  · refine ⟨(scattered_shape _ _ _ _).trans l.x_shape.symm,
      (reshape_shape back).1.trans l.weights_shape.symm, ?_⟩
    rw [summed, (reshape_shape flattened').1, l.bias_shape]
    rfl
  · intro p shape
    rw [over_input _ _ rfl, over_input (plus l.x p) _ rfl, dot_plus, Except.map, add_right_comm]
  · intro p shape
    rw [over_filters _ _ rfl, over_filters (plus l.weights p) _ rfl, dot_plus, Except.map,
      add_right_comm]
  · intro p shape
    rw [over_filters _ l.bias rfl, over_filters _ (plus l.bias p) rfl, dot_plus, Except.map,
      add_assoc]
  · intro p shape
    rw [over_input p _ shape, dot_zeros, add_zero]
  · intro p shape
    rw [over_filters p _ shape, dot_zeros, add_zero]
  · intro p shape
    rw [over_filters (zeros l.weights.shape) p rfl, dot_zeros, zero_add]

/-! ### What pooling routes -/

section Routing

variable {α : Type u} [LinearOrder α]

theorem argmax_greatest (v : Nat → α) (last : Nat) : argmax v last ≤ last ∧
    ∀ t ≤ last, v t ≤ v (argmax v last) ∧ (t < argmax v last → v t < v (argmax v last)) := by
  induction last with
  | zero =>
      refine ⟨le_refl _, fun t within => ?_⟩
      rw [Nat.le_zero.mp within]
      exact ⟨le_refl _, fun below => absurd below (Nat.lt_irrefl _)⟩
  | succ last ih =>
      obtain ⟨within, best⟩ := ih
      rw [argmax]
      split
      next larger =>
        refine ⟨le_refl _, fun t below => ?_⟩
        rcases Nat.lt_or_eq_of_le below with before | rfl
        · have less := lt_of_le_of_lt (best t (Nat.lt_succ_iff.mp before)).1 larger
          exact ⟨less.le, fun _ => less⟩
        · exact ⟨le_refl _, fun below => absurd below (Nat.lt_irrefl _)⟩
      next smaller =>
        refine ⟨Nat.le_succ_of_le within, fun t below => ?_⟩
        rcases Nat.lt_or_eq_of_le below with before | rfl
        · exact best t (Nat.lt_succ_iff.mp before)
        · exact ⟨not_lt.mp smaller, fun before => absurd before (by omega)⟩

theorem argmax_first (v : Nat → α) {last t : Nat} (within : t ≤ last) :
    t = argmax v last ↔ ∀ t' ≤ last, v t' ≤ v t ∧ (t' < t → v t' < v t) := by
  obtain ⟨below, best⟩ := argmax_greatest v last
  constructor
  · rintro same
    rw [same]
    exact best
  · intro first
    rcases Nat.lt_trichotomy t (argmax v last) with before | same | after
    · exact absurd ((best t within).2 before) (not_lt.mpr (first _ below).1)
    · exact same
    · exact absurd ((first _ below).2 after) (not_lt.mpr (best t within).1)

def FirstMax (x : NdArray α) (s d y z : Nat) : Prop :=
  ∀ u < 2, ∀ v < 2, x.entry [s, d, y / 2 * 2 + u, z / 2 * 2 + v] ≤ x.entry [s, d, y, z] ∧
    (u * 2 + v < y % 2 * 2 + z % 2 →
      x.entry [s, d, y / 2 * 2 + u, z / 2 * 2 + v] < x.entry [s, d, y, z])

variable {n c h w : Nat} {x : NdArray α}

theorem ravel_windows (oh ow s d i u j v : Nat) :
    ravel [n, c, oh, 2, ow, 2] [s, d, i, u, j, v] =
      ravel [n, c, oh * 2, ow * 2] [s, d, i * 2 + u, j * 2 + v] := by
  simp only [ravel, List.prod_cons, List.prod_nil]
  ring

theorem ravel_places (oh ow s d i j u v : Nat) :
    ravel [n, c, oh, ow, 4] [s, d, i, j, u * 2 + v] =
      ravel [n, c, oh, ow, 2, 2] [s, d, i, j, u, v] := by
  simp only [ravel, List.prod_cons, List.prod_nil]
  ring

theorem inside_four {a b e g s d y z : Nat} (hs : s < a) (hd : d < b) (hy : y < e) (hz : z < g) :
    Inside [a, b, e, g] [s, d, y, z] :=
  .cons hs (.cons hd (.cons hy (.cons hz .nil)))

theorem inside_six {a b e g l m s d y z u v : Nat} (hs : s < a) (hd : d < b)
    (hy : y < e) (hz : z < g)
    (hu : u < l) (hv : v < m) : Inside [a, b, e, g, l, m] [s, d, y, z, u, v] :=
  .cons hs (.cons hd (inside_four hy hz hu hv))

theorem forward_pooled (shape : x.shape = [n, c, h, w]) :
    ∃ best idx, maxpoolForward x =
        .ok (best, { idx := idx, xShape := x.shape, oh := h / 2, ow := w / 2 }) ∧
      ∀ s < n, ∀ d < c, ∀ i < h / 2, ∀ j < w / 2, ∃ values : Nat → α,
        idx.entry [s, d, i, j] = argmax values 3 ∧
          ∀ u < 2, ∀ v < 2, values (u * 2 + v) = x.entry [s, d, i * 2 + u, j * 2 + v] := by
  have cut : [n, c, h / 2, 2, w / 2, 2].prod = (cropped x (h / 2 * 2) (w / 2 * 2)).shape.prod := by
    simp only [cropped, shape, List.getD_cons_zero, List.getD_cons_succ,
      List.prod_cons, List.prod_nil]
    ring
  obtain ⟨xc, windows⟩ := reshape_fits cut
  have turned : (transpose [0, 1, 2, 4, 3, 5] xc).shape = [n, c, h / 2, w / 2, 2, 2] := by
    simp only [transpose, (reshape_shape windows).1]
    rfl
  have four : [n, c, h / 2, w / 2, 4].prod = (transpose [0, 1, 2, 4, 3, 5] xc).shape.prod := by
    rw [turned]
    simp only [List.prod_cons, List.prod_nil]
    ring
  obtain ⟨flat, places⟩ := reshape_fits four
  let idx : NdArray Nat :=
    { shape := [n, c, h / 2, w / 2]
      entry := fun cell => argmax (fun t => flat.entry (cell ++ [t])) 3 }
  have ran : ∃ best, maxpoolForward x =
      .ok (best, { idx := idx, xShape := x.shape, oh := h / 2, ow := w / 2 }) := by
    refine ⟨{ shape := [n, c, h / 2, w / 2]
              entry := fun cell => greatest (fun t => flat.entry (cell ++ [t])) 3 }, ?_⟩
    simp only [maxpoolForward, shape, windows, places, bind, Except.bind, pure, Except.pure, idx]
  obtain ⟨best, ran⟩ := ran
  refine ⟨best, idx, ran, ?_⟩
  intro s hs d hd i hi j hj
  refine ⟨fun t => flat.entry [s, d, i, j, t], rfl, fun u hu v hv => ?_⟩
  have crop : (cropped x (h / 2 * 2) (w / 2 * 2)).shape = [n, c, h / 2 * 2, w / 2 * 2] := by
    simp only [cropped, shape, List.getD_cons_zero, List.getD_cons_succ]
  calc flat.entry [s, d, i, j, u * 2 + v]
      = (transpose [0, 1, 2, 4, 3, 5] xc).entry [s, d, i, j, u, v] :=
        reshape_entry places (by rw [turned]; exact inside_six hs hd hi hj hu hv)
          (by rw [turned]; exact ravel_places _ _ s d i j u v)
    _ = xc.entry [s, d, i, u, j, v] := rfl
    _ = (cropped x (h / 2 * 2) (w / 2 * 2)).entry [s, d, i * 2 + u, j * 2 + v] :=
        reshape_entry windows (by rw [crop]; exact inside_four hs hd (by omega) (by omega))
          (by rw [crop]; exact ravel_windows _ _ s d i u j v)
    _ = x.entry [s, d, i * 2 + u, j * 2 + v] := rfl

theorem backward_pooled {β : Type u} [Zero β] (dout : NdArray β) (idx : NdArray Nat) :
    ∃ dx, maxpoolBackward dout { idx := idx, xShape := [n, c, h, w], oh := h / 2, ow := w / 2 } =
        .ok dx ∧ dx.shape = [n, c, h, w] ∧
      ∀ s < n, ∀ d < c, ∀ y z, dx.entry [s, d, y, z] =
        if y < h / 2 * 2 ∧ z < w / 2 * 2 then
          if y % 2 * 2 + z % 2 = idx.entry [s, d, y / 2, z / 2] then dout.entry [s, d, y / 2, z / 2]
          else 0
        else 0 := by
  have six : [n, c, h / 2, w / 2, 2, 2].prod =
      (putAlongAxis [n, c, h / 2, w / 2, 4] idx dout).shape.prod := by
    simp only [putAlongAxis, List.prod_cons, List.prod_nil]
    rfl
  obtain ⟨back, parted⟩ := reshape_fits six
  have turned : (transpose [0, 1, 2, 4, 3, 5] back).shape = [n, c, h / 2, 2, w / 2, 2] := by
    simp only [transpose, (reshape_shape parted).1]
    rfl
  have whole : [n, c, h / 2 * 2, w / 2 * 2].prod =
    (transpose [0, 1, 2, 4, 3, 5] back).shape.prod := by
    rw [turned]
    simp only [List.prod_cons, List.prod_nil]
    ring
  obtain ⟨back', joined⟩ := reshape_fits whole
  refine ⟨placed [n, c, h, w] (h / 2 * 2) (w / 2 * 2) back', ?_, rfl, ?_⟩
  · simp only [maxpoolBackward, parted, joined, bind, Except.bind, pure, Except.pure]
  · intro s hs d hd y z
    simp only [placed]
    split
    next within =>
      have row : y / 2 * 2 + y % 2 = y := Nat.div_add_mod' y 2
      have column : z / 2 * 2 + z % 2 = z := Nat.div_add_mod' z 2
      have hu : y % 2 < 2 := Nat.mod_lt y (by decide)
      have hv : z % 2 < 2 := Nat.mod_lt z (by decide)
      calc back'.entry [s, d, y, z]
          = (transpose [0, 1, 2, 4, 3, 5] back).entry [s, d, y / 2, y % 2, z / 2, z % 2] := by
            refine reshape_entry joined ?_ ?_
            · rw [turned]
              exact inside_six hs hd (by omega) hu (by omega) hv
            · rw [turned, ravel_windows, row, column]
        _ = back.entry [s, d, y / 2, z / 2, y % 2, z % 2] := rfl
        _ = (putAlongAxis [n, c, h / 2, w / 2, 4] idx dout).entry
            [s, d, y / 2, z / 2, y % 2 * 2 + z % 2] := by
            refine reshape_entry parted ?_ (ravel_places _ _ _ _ _ _ _ _).symm
            exact .cons hs (inside_four hd (by omega) (by omega) (by omega))
        _ = _ := by simp [putAlongAxis]
    next => rfl

theorem firstMax_argmax {values : Nat → α} {s d y z : Nat} (window : ∀ u < 2, ∀ v < 2,
    values (u * 2 + v) = x.entry [s, d, y / 2 * 2 + u, z / 2 * 2 + v]) :
    FirstMax x s d y z ↔ y % 2 * 2 + z % 2 = argmax values 3 := by
  have hu : y % 2 < 2 := Nat.mod_lt y (by decide)
  have hv : z % 2 < 2 := Nat.mod_lt z (by decide)
  have here : values (y % 2 * 2 + z % 2) = x.entry [s, d, y, z] := by
    rw [window _ hu _ hv, Nat.div_add_mod', Nat.div_add_mod']
  rw [argmax_first values (by omega), here]
  constructor
  · intro first t within
    have place : t / 2 * 2 + t % 2 = t := Nat.div_add_mod' t 2
    have value := window (t / 2) (by omega) (t % 2) (Nat.mod_lt t (by decide))
    have best := first (t / 2) (by omega) (t % 2) (Nat.mod_lt t (by decide))
    rwa [← value, place] at best
  · intro first u below v below'
    have best := first (u * 2 + v) (by omega)
    rwa [window u below v below'] at best

theorem firstMax_unique (s d i j : Nat) :
    ∃! p : Nat × Nat, (p.1 / 2 = i ∧ p.2 / 2 = j) ∧ FirstMax x s d p.1 p.2 := by
  let values : Nat → α := fun t => x.entry [s, d, i * 2 + t / 2, j * 2 + t % 2]
  have window : ∀ y z, y / 2 = i → z / 2 = j → ∀ u < 2, ∀ v < 2,
      values (u * 2 + v) = x.entry [s, d, y / 2 * 2 + u, z / 2 * 2 + v] := by
    rintro y z rfl rfl u _ v _
    have high : (u * 2 + v) / 2 = u := by omega
    have low : (u * 2 + v) % 2 = v := by omega
    simp only [values, high, low]
  have below := (argmax_greatest values 3).1
  refine ⟨(i * 2 + argmax values 3 / 2, j * 2 + argmax values 3 % 2), ⟨⟨?_, ?_⟩, ?_⟩, ?_⟩
  · show (i * 2 + argmax values 3 / 2) / 2 = i
    omega
  · show (j * 2 + argmax values 3 % 2) / 2 = j
    omega
  · show FirstMax x s d (i * 2 + argmax values 3 / 2) (j * 2 + argmax values 3 % 2)
    rw [firstMax_argmax (window _ _ (by omega) (by omega))]
    omega
  · rintro ⟨y, z⟩ ⟨⟨row, column⟩, first⟩
    have place := (firstMax_argmax (window y z row column)).mp first
    simp only at row column
    refine Prod.ext ?_ ?_
    · show y = i * 2 + argmax values 3 / 2
      omega
    · show z = j * 2 + argmax values 3 % 2
      omega

end Routing

/-- Every entry of `dout` goes to the first of the greatest of its window, and nothing goes
anywhere else. -/
structure Routed {α : Type u} [LinearOrder α] [Zero α] (n c h w : Nat) (x dout dx : NdArray α) :
    Prop where
  shape : dx.shape = x.shape
  entry : ∀ s < n, ∀ d < c, ∀ y z,
    (y < h / 2 * 2 ∧ z < w / 2 * 2 ∧ FirstMax x s d y z →
      dx.entry [s, d, y, z] = dout.entry [s, d, y / 2, z / 2]) ∧
    (¬ (y < h / 2 * 2 ∧ z < w / 2 * 2 ∧ FirstMax x s d y z) → dx.entry [s, d, y, z] = 0)
  one : ∀ s d i j, ∃! p : Nat × Nat, (p.1 / 2 = i ∧ p.2 / 2 = j) ∧ FirstMax x s d p.1 p.2

theorem pool_routed {α : Type u} [LinearOrder α] [Zero α] {n c h w : Nat} (x dout : NdArray α)
    (shape : x.shape = [n, c, h, w]) : ∃ best cache dx, maxpoolForward x = .ok (best, cache) ∧
      maxpoolBackward dout cache = .ok dx ∧ Routed n c h w x dout dx := by
  obtain ⟨best, idx, forward, places⟩ := forward_pooled shape
  obtain ⟨dx, backward, shape', entries⟩ := backward_pooled (n := n) (c := c) (h := h)
    (w := w) dout idx
  refine ⟨best, _, dx, forward, by rw [shape]; exact backward, shape'.trans shape.symm, ?_,
    firstMax_unique⟩
  intro s hs d hd y z
  rw [entries s hs d hd y z]
  by_cases within : y < h / 2 * 2 ∧ z < w / 2 * 2
  · obtain ⟨values, known, window⟩ := places s hs d hd (y / 2) (by omega) (z / 2) (by omega)
    have first := firstMax_argmax (y := y) (z := z) window
    rw [if_pos within, known]
    constructor
    · rintro ⟨_, _, best⟩
      exact if_pos (first.mp best)
    · intro other
      exact if_neg fun same => other ⟨within.1, within.2, first.mpr same⟩
  · rw [if_neg within]
    exact ⟨fun inside => absurd ⟨inside.1, inside.2.1⟩ within, fun _ => rfl⟩

/-- The backward passes of a batch that is not empty, with some filter: convolution returns its
gradients, and pooling routes every entry. -/
theorem backward_adjoint {R : Type u} [CommRing R] {α : Type v} [LinearOrder α] [Zero α]
    (l : Layer R) (nonempty : 0 < l.n) (nonempty' : 0 < l.f) {n c h w : Nat} (x dout : NdArray α)
    (shape : x.shape = [n, c, h, w]) :
    (∃ out cols dx dw db, convForward l.x l.weights l.bias l.k = .ok (out, cols) ∧
      convBackward l.dout cols l.x.shape l.weights l.k = .ok (dx, dw, db) ∧
      Gradients l dx dw db) ∧
    ∃ best cache dx, maxpoolForward x = .ok (best, cache) ∧
      maxpoolBackward dout cache = .ok dx ∧ Routed n c h w x dout dx :=
  ⟨conv_gradients l nonempty nonempty', pool_routed x dout shape⟩

/-- Two rows of three, under one filter of two by two. -/
def small (n : Nat) : Layer Int where
  n := n
  c := 1
  f := 1
  h := 3
  w := 2
  k := 2
  high := by decide
  wide := by decide
  x := { shape := [n, 1, 3, 2], entry := fun idx => idx.sum }
  weights := { shape := [1, 1, 2, 2], entry := fun idx => 1 - idx.sum }
  bias := zeros [1]
  dout := { shape := [n, 1, 2, 1], entry := fun idx => 2 * idx.sum + 1 }
  x_shape := rfl
  weights_shape := rfl
  bias_shape := rfl
  dout_shape := rfl

theorem backward_adjoint_small :
    (∃ out cols dx dw db, convForward (small 1).x (small 1).weights (small 1).bias 2 =
      .ok (out, cols) ∧
      convBackward (small 1).dout cols (small 1).x.shape (small 1).weights 2 = .ok (dx, dw, db) ∧
      Gradients (small 1) dx dw db) ∧
    ∃ best cache dx, maxpoolForward (small 1).x = .ok (best, cache) ∧
      maxpoolBackward (small 1).dout cache = .ok dx ∧
      Routed 1 1 3 2 (small 1).x (small 1).dout dx :=
  backward_adjoint (small 1) (by decide) (by decide) (small 1).x (small 1).dout rfl

/-- An empty batch goes forward, but not back: nothing says what the last length is. -/
theorem empty_batch_refused :
    (∃ out cols, convForward (small 0).x (small 0).weights (small 0).bias 2 = .ok (out, cols)) ∧
      ∀ cols, convBackward (small 0).dout cols (small 0).x.shape (small 0).weights 2 =
        .error .reshape :=
  ⟨⟨_, _, rfl⟩, fun _ => rfl⟩

end HeteroSim.ConvAdjoint
