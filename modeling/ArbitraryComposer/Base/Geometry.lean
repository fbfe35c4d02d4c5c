import Mathlib.Order.Interval.Set.Basic
import Mathlib.Order.MinMax

/-!
# Rectangles

Half-open rectangles and the union damage is gathered by. Coordinates range over any linear
order. The extended reals of the source are one; a rectangle with a coordinate that is not a
number is empty there, and an empty rectangle takes part in no union.

## Main definitions

- `Rect`, `Rect.empty`, `rectUnion`: rectangles, when they hold no point, and the bounding box.
- `Rect.toSet`: the points of a rectangle.

## Main results

- `toSet_subset_rectUnion_left`, `toSet_subset_rectUnion_right`: a union covers both parts.
- `empty_rectUnion`: a union of empty rectangles is empty.
-/

namespace ArbitraryComposer

/-- `Rect`: half open on both axes. -/
structure Rect (α : Type*) where
  /-- The left edge. -/
  x0 : α
  /-- The top edge. -/
  y0 : α
  /-- The right edge, excluded. -/
  x1 : α
  /-- The bottom edge, excluded. -/
  y1 : α
  deriving DecidableEq, Repr

section Rect

variable {α : Type*} [LinearOrder α]

/-- `Rect::empty`. -/
def Rect.empty (r : Rect α) : Bool := !(decide (r.x0 < r.x1) && decide (r.y0 < r.y1))

/-- `rect_union`: the bounding box, where an empty rectangle adds nothing. -/
def rectUnion (a b : Rect α) : Rect α :=
  if a.empty then b
  else if b.empty then a
  else ⟨min a.x0 b.x0, min a.y0 b.y0, max a.x1 b.x1, max a.y1 b.y1⟩

/-- The points of a rectangle. -/
def Rect.toSet (r : Rect α) : Set (α × α) :=
  { p | (r.x0 ≤ p.1 ∧ p.1 < r.x1) ∧ r.y0 ≤ p.2 ∧ p.2 < r.y1 }

/-- A rectangle is empty when one of its sides is. -/
theorem Rect.empty_iff (r : Rect α) : r.empty = true ↔ ¬ (r.x0 < r.x1 ∧ r.y0 < r.y1) := by
  simp [Rect.empty, imp_iff_not_or]

/-- An empty rectangle has no point. -/
theorem Rect.empty_iff_toSet (r : Rect α) : r.empty = true ↔ r.toSet = ∅ := by
  rw [r.empty_iff]
  constructor
  · intro sides
    refine Set.eq_empty_of_forall_notMem fun p hp => sides ?_
    obtain ⟨⟨left, right⟩, top, bottom⟩ := hp
    exact ⟨left.trans_lt right, top.trans_lt bottom⟩
  · rintro points ⟨wide, high⟩
    -- a rectangle with both sides has its own corner
    have corner : (r.x0, r.y0) ∈ r.toSet := ⟨⟨le_rfl, wide⟩, le_rfl, high⟩
    rw [points] at corner
    exact corner

/-- An empty rectangle is covered by every rectangle. -/
theorem Rect.toSet_subset_of_empty {r : Rect α} (blank : r.empty = true) (s : Set (α × α)) :
    r.toSet ⊆ s := by
  rw [r.empty_iff_toSet.mp blank]
  exact Set.empty_subset s

/-- A rectangle that covers a point is not empty. -/
theorem Rect.not_empty_of_subset {r s : Rect α} (real : ¬ r.empty = true)
    (covers : r.toSet ⊆ s.toSet) : ¬ s.empty = true := by
  rw [Rect.empty_iff_toSet] at real ⊢
  intro points
  exact real (Set.subset_eq_empty covers points)

/-- A union covers its first part. -/
theorem toSet_subset_rectUnion_left (a b : Rect α) : a.toSet ⊆ (rectUnion a b).toSet := by
  unfold rectUnion
  split
  · exact Rect.toSet_subset_of_empty ‹_› _
  · split
    · exact subset_rfl
    · rintro p ⟨⟨left, right⟩, top, bottom⟩
      exact ⟨⟨min_le_of_left_le left, lt_max_of_lt_left right⟩,
        min_le_of_left_le top, lt_max_of_lt_left bottom⟩

/-- A union covers its second part. -/
theorem toSet_subset_rectUnion_right (a b : Rect α) : b.toSet ⊆ (rectUnion a b).toSet := by
  unfold rectUnion
  split
  · exact subset_rfl
  · split
    · exact Rect.toSet_subset_of_empty ‹_› _
    · rintro p ⟨⟨left, right⟩, top, bottom⟩
      exact ⟨⟨min_le_of_right_le left, lt_max_of_lt_right right⟩,
        min_le_of_right_le top, lt_max_of_lt_right bottom⟩

/-- A union of empty rectangles is empty. -/
theorem empty_rectUnion {a b : Rect α} (ha : a.empty = true) (hb : b.empty = true) :
    (rectUnion a b).empty = true := by
  simpa [rectUnion, ha] using hb

end Rect

end ArbitraryComposer
