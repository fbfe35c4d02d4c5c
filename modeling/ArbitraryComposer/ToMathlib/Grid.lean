import Mathlib.Data.List.Basic
import Mathlib.Data.List.GetD

/-!
# Grids in a List

A list that is filled row by row. Reading one list column by column and writing it row by row
exchanges rows and columns; doing it twice is no change.

## Main definitions

- `List.grid`: the rows of a grid, one after the other.

## Main results

- `List.getD_grid`: the cell of a row and a column.
- `List.grid_getD`: a list is a grid of itself.
- `List.grid_transpose`: rows and columns are exchanged twice.
-/

namespace List

variable {α : Type*} {rows cols : ℕ}

/-- The rows of a grid, one after the other. -/
def grid (rows cols : ℕ) (f : ℕ → ℕ → α) : List α :=
  (range rows).flatMap fun r => (range cols).map fun c => f r c

theorem grid_succ (rows cols : ℕ) (f : ℕ → ℕ → α) :
    grid (rows + 1) cols f = grid rows cols f ++ (range cols).map fun c => f rows c := by
  rw [grid, range_succ, flatMap_append, flatMap_singleton, ← grid]

@[simp]
theorem length_grid (rows cols : ℕ) (f : ℕ → ℕ → α) : (grid rows cols f).length = rows * cols := by
  induction rows with
  | zero => rw [Nat.zero_mul]; rfl
  | succ rows ih => rw [grid_succ, length_append, ih, length_map, length_range, Nat.succ_mul]

/-- The cells of a grid decide it. -/
theorem grid_congr {f g : ℕ → ℕ → α} (h : ∀ r < rows, ∀ c < cols, f r c = g r c) :
    grid rows cols f = grid rows cols g := by
  apply flatMap_congr
  intro r hr
  apply map_congr_left
  intro c hc
  exact h r (mem_range.mp hr) c (mem_range.mp hc)

/-- The cell of a row and a column. -/
theorem getD_grid {f : ℕ → ℕ → α} {r c : ℕ} (hr : r < rows) (hc : c < cols) (d : α) :
    (grid rows cols f).getD (r * cols + c) d = f r c := by
  induction rows with
  | zero => omega
  | succ rows ih =>
    rw [grid_succ]
    by_cases hlast : r = rows
    · subst hlast
      rw [getD_append_right _ _ _ _ (by rw [length_grid]; omega), length_grid,
        Nat.add_sub_cancel_left, getD_eq_getElem _ _ (by simpa using hc)]
      simp
    · have hlt : r < rows := by omega
      have hplace : r * cols + c < rows * cols := by
        calc r * cols + c < r * cols + cols := by omega
          _ = (r + 1) * cols := by rw [Nat.succ_mul]
          _ ≤ rows * cols := Nat.mul_le_mul_right _ hlt
      rw [getD_append _ _ _ _ (by rwa [length_grid])]
      exact ih hlt

/-- A list is a grid of itself. -/
theorem grid_getD (l : List α) (d : α) (h : rows * cols ≤ l.length) :
    (grid rows cols fun r c => l.getD (r * cols + c) d) = l.take (rows * cols) := by
  apply ext_getElem
  · rw [length_grid, length_take, Nat.min_eq_left h]
  · intro i hi hi'
    rw [length_grid] at hi
    have hcols : 0 < cols := by
      rcases Nat.eq_zero_or_pos cols with rfl | hpos
      · omega
      · exact hpos
    have hrow : i / cols < rows := Nat.div_lt_of_lt_mul (by rwa [Nat.mul_comm])
    have hcell := getD_grid (f := fun r c => l.getD (r * cols + c) d) hrow
      (Nat.mod_lt i hcols) d
    rw [Nat.div_add_mod'] at hcell
    rw [← getD_eq_getElem _ d, hcell, getElem_take, getD_eq_getElem _ _ (by omega)]

/-- Rows and columns are exchanged twice, and what follows the grid stays. -/
theorem grid_transpose (l rest : List α) (d : α) (h : rows * cols ≤ l.length) :
    (grid rows cols fun r c =>
      (grid cols rows (fun c r => l.getD (r * cols + c) d) ++ rest).getD (c * rows + r) d) =
        l.take (rows * cols) := by
  rw [← grid_getD l d h]
  apply grid_congr
  intro r hr c hc
  have hplace : c * rows + r < cols * rows := by
    calc c * rows + r < c * rows + rows := by omega
      _ = (c + 1) * rows := by rw [Nat.succ_mul]
      _ ≤ cols * rows := Nat.mul_le_mul_right _ hc
  rw [getD_append _ _ _ _ (by rwa [length_grid])]
  exact getD_grid hc hr d

end List
