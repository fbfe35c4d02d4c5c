import ArbitraryComposer.Base.Geometry
import ArbitraryComposer.Model.Records
import ArbitraryComposer.ToMathlib.Binary64
import Mathlib.Data.Finite.Prod

/-!
# Affine Transforms

The placement transforms with the double-precision arithmetic of the source, operation by
operation, and the rectangles they act on.

## Main definitions

- `Transform`, with `compose`, `Transform.inverse`, `Transform.maxScale`, `Transform.mapRect`.
- `DeviceRect`: rectangles with double-precision coordinates.
-/

namespace ArbitraryComposer

open Double

/-- A rectangle with double-precision coordinates. -/
abbrev DeviceRect : Type := Rect Double

namespace DeviceRect

/-- `Rect::from_size`. -/
def fromSize (width height : Double) : DeviceRect := ⟨0, 0, width, height⟩

/-- `Rect::infinite`. -/
def infinite : DeviceRect := ⟨infinity true, infinity true, infinity false, infinity false⟩

/-- `Rect::width`. -/
def width (r : DeviceRect) : Double := r.x1 - r.x0

/-- `Rect::height`. -/
def height (r : DeviceRect) : Double := r.y1 - r.y0

/-- `Rect::empty`. -/
def empty (r : DeviceRect) : Bool := !(r.x0.lt r.x1 && r.y0.lt r.y1)

/-- `Rect::intersect`. -/
def intersect (r other : DeviceRect) : DeviceRect :=
  ⟨r.x0.max other.x0, r.y0.max other.y0, r.x1.min other.x1, r.y1.min other.y1⟩

/-- `rect_is_finite`. -/
def isFinite (r : DeviceRect) : Bool :=
  r.x0.isFinite && r.y0.isFinite && r.x1.isFinite && r.y1.isFinite

end DeviceRect

/-- `Affine`, with its coefficients as numbers. -/
structure Transform where
  /-- First column. -/
  a : Double := 1
  /-- First column. -/
  b : Double := 0
  /-- Second column. -/
  c : Double := 0
  /-- Second column. -/
  d : Double := 1
  /-- Translation. -/
  tx : Double := 0
  /-- Translation. -/
  ty : Double := 0
  deriving DecidableEq, Repr

/-- The transform a record stores. -/
def Affine.toTransform (t : Affine) : Transform := ⟨⟨t.a⟩, ⟨t.b⟩, ⟨t.c⟩, ⟨t.d⟩, ⟨t.tx⟩, ⟨t.ty⟩⟩

/-- `compose`. -/
def compose (outer inner : Transform) : Transform where
  a := outer.a * inner.a + outer.c * inner.b
  b := outer.b * inner.a + outer.d * inner.b
  c := outer.a * inner.c + outer.c * inner.d
  d := outer.b * inner.c + outer.d * inner.d
  tx := outer.a * inner.tx + outer.c * inner.ty + outer.tx
  ty := outer.b * inner.tx + outer.d * inner.ty + outer.ty

namespace Transform

/-- There are finitely many transforms. -/
instance : Finite Transform :=
  Finite.of_injective (fun t : Transform => (t.a, t.b, t.c, t.d, t.tx, t.ty)) fun s t h => by
    cases s
    cases t
    simpa using h

/-- `Affine::apply`. -/
def apply (t : Transform) (x y : Double) : Double × Double :=
  (t.a * x + t.c * y + t.tx, t.b * x + t.d * y + t.ty)

/-- `Affine::det`. -/
def det (t : Transform) : Double := t.a * t.d - t.b * t.c

/-- `Affine::inverse`. -/
def inverse (t : Transform) : Option Transform :=
  if t.det.beq 0 || !t.det.isFinite then none
  else
    let invDet := 1 / t.det
    let a := t.d * invDet
    let b := -t.b * invDet
    let c := -t.c * invDet
    let d := t.a * invDet
    some ⟨a, b, c, d, -(a * t.tx + c * t.ty), -(b * t.tx + d * t.ty)⟩

/-- `Affine::max_scale`. -/
def maxScale (t : Transform) : Double :=
  let trace := t.a * t.a + t.b * t.b + t.c * t.c + t.d * t.d
  let discriminant := Double.max 0 (trace * trace - ofInt 4 * t.det * t.det)
  ((trace + discriminant.sqrt) / ofInt 2).sqrt

/-- `Affine::map_rect`: the box around the four mapped corners. -/
def mapRect (t : Transform) (r : DeviceRect) : DeviceRect :=
  let first := t.apply r.x0 r.y0
  [first, t.apply r.x1 r.y0, t.apply r.x0 r.y1, t.apply r.x1 r.y1].foldl
    (fun out p => ⟨out.x0.min p.1, out.y0.min p.2, out.x1.max p.1, out.y1.max p.2⟩)
    ⟨first.1, first.2, first.1, first.2⟩

end Transform

end ArbitraryComposer
