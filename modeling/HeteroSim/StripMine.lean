import Mathlib.Data.List.Perm.Basic
import Mathlib.Tactic.Ring

/-!
Strip mining: loops that go on until a condition fails, and the tiles that a
rectangle is cut into when another chooses how wide each strip is. A tile lists
its places row by row, so strips side by side list the places of their union in
another order, and tiles below each other list them in order.
-/

namespace HeteroSim.StripMine

/-! ### Loops -/

section Loops

variable {σ : Type}

/-- `while (more s) s = turn s`. -/
def whileLoop (more : σ → Bool) (turn : σ → Option σ) : Nat → σ → Option σ
  | 0, s => if more s then none else some s
  | fuel + 1, s => if more s then (turn s).bind (whileLoop more turn fuel) else some s

theorem while_ends (more : σ → Bool) (turn : σ → Option σ) (inv : σ → Prop) (left : σ → Nat)
    (step : ∀ s, inv s → more s = true → ∃ s', turn s = some s' ∧ inv s' ∧ left s' < left s)
    {fuel : Nat} {s : σ} (start : inv s) (enough : left s ≤ fuel) :
    ∃ s', whileLoop more turn fuel s = some s' ∧ inv s' ∧ more s' = false := by
  induction fuel generalizing s with
  | zero =>
      cases going : more s with
      | true =>
          -- there is nothing left that a turn could leave less of
          obtain ⟨s', _, _, less⟩ := step s start going
          exact absurd (less.trans_le enough) (Nat.not_lt_zero _)
      | false => exact ⟨s, by simp [whileLoop, going], start, going⟩
  | succ fuel ih =>
      cases going : more s with
      | true =>
          obtain ⟨s', turned, kept, less⟩ := step s start going
          obtain ⟨last, ended, held, done⟩ := ih kept (Nat.le_of_lt_succ (less.trans_le enough))
          exact ⟨last, by simp [whileLoop, going, turned, ended], held, done⟩
      | false => exact ⟨s, by simp [whileLoop, going], start, going⟩

theorem fold_keeps (inv : Nat → σ → Prop) (turn : σ → Nat → σ) (count : Nat) (s : σ)
    (start : inv 0 s) (step : ∀ k < count, ∀ s, inv k s → inv (k + 1) (turn s k)) :
    inv count ((List.range count).foldl turn s) := by
  induction count with
  | zero => exact start
  | succ count ih =>
      rw [List.range_succ, List.foldl_append]
      have held := ih fun k below => step k (Nat.lt_succ_of_lt below)
      exact step count (Nat.lt_succ_self count) _ held

end Loops

/-! ### Tiles -/

section Tiles

variable {β : Type} (f : Nat → Nat → β)

/-- The places of `rows` rows from row `i` on, and of `cols` columns from column `j` on. -/
def tile (i rows j cols : Nat) : List β :=
  (List.range rows).flatMap fun r => (List.range cols).map fun c => f (i + r) (j + c)

theorem mem_tile {i rows j cols : Nat} {x : β} :
    x ∈ tile f i rows j cols ↔ ∃ r < rows, ∃ c < cols, f (i + r) (j + c) = x := by
  simp [tile]

theorem tile_narrow (i rows j : Nat) : tile f i rows j 0 = [] := by
  simp [tile]

theorem tile_congr {f g : Nat → Nat → β} {i rows j cols : Nat}
    (same : ∀ r < rows, ∀ c < cols, f (i + r) (j + c) = g (i + r) (j + c)) :
    tile f i rows j cols = tile g i rows j cols := by
  refine List.flatMap_congr fun r row => List.map_congr_left fun c col => ?_
  exact same r (List.mem_range.mp row) c (List.mem_range.mp col)

theorem tile_beside (i rows j cols more : Nat) :
    (tile f i rows j cols ++ tile f i rows (j + cols) more).Perm
      (tile f i rows j (cols + more)) := by
  have joined : tile f i rows j (cols + more) = (List.range rows).flatMap fun r =>
      (List.range cols).map (fun c => f (i + r) (j + c)) ++
        (List.range more).map fun c => f (i + r) (j + cols + c) := by
    simp only [tile, List.range_add, List.map_append, List.map_map]
    simp only [Function.comp_def, Nat.add_assoc]
  rw [joined]
  exact List.flatMap_append_perm _ _ _

theorem tile_below (i rows more j cols : Nat) :
    tile f i rows j cols ++ tile f (i + rows) more j cols = tile f i (rows + more) j cols := by
  simp only [tile, List.range_add, List.flatMap_append, List.flatMap_map, Nat.add_assoc]

theorem tile_whole (g : Nat → β) (rows cols : Nat) :
    tile (fun i j => g (i * cols + j)) 0 rows 0 cols = (List.range (rows * cols)).map g := by
  induction rows with
  | zero => simp [tile]
  | succ rows ih =>
      rw [← tile_below, ih, Nat.succ_mul, List.range_add, List.map_append, List.map_map]
      simp [tile, Function.comp_def]

end Tiles

end HeteroSim.StripMine
