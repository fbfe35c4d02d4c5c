import ArbitraryComposer.Compositor.RepaintCover
import ArbitraryComposer.ToMathlib.DoubleRounding

/-!
# Tiles Are Cleared Outside Their Content

A tile is rendered over its cell and an apron, which may reach past the extent of its content. So
the four bands around the extent are cleared: above, below, and left and right between these. A
backend rounds a band out to whole pixels.

## Main definitions

- `Surface`: the pixels of a tile.
- `clipBox`, `fillKernel`, `Surface.clearRect`: how a backend clears a rectangle.
- `surfaceExtent`, `complementBands`, `clearTileOutsideBounds`: how a tile is cleared.

## Main results

- `clearTileOutsideBounds_spec`: cleared are the pixels whose cells reach out of the extent.
- `not_bands_disjoint`: bands may round out to one pixel.
-/

namespace ArbitraryComposer

open Double

variable {α : Type}

/-! ## Surfaces -/

/-- A surface. -/
structure Surface (α : Type) where
  /-- `Surface::width`. -/
  width : Int32
  /-- `Surface::height`. -/
  height : Int32
  /-- The pixels, by column and row. -/
  pixel : ℤ → ℤ → α

/-- The points of a rectangle of whole pixels. -/
def Rect.HoldsPixel (box : Rect ℤ) (x y : ℤ) : Prop :=
  (box.x0 ≤ x ∧ x < box.x1) ∧ box.y0 ≤ y ∧ y < box.y1

instance (box : Rect ℤ) (x y : ℤ) : Decidable (box.HoldsPixel x y) :=
  inferInstanceAs (Decidable (_ ∧ _))

/-- The rectangle of a surface. -/
def surfaceRect (width height : Int32) : DeviceRect :=
  DeviceRect.fromSize (ofInt width.toInt) (ofInt height.toInt)

@[simp]
theorem surfaceRect_x1 (width height : Int32) :
    (surfaceRect width height).x1 = ofInt width.toInt := rfl

@[simp]
theorem surfaceRect_y1 (width height : Int32) :
    (surfaceRect width height).y1 = ofInt height.toInt := rfl

/-- `clip_box`: a rectangle in a surface, rounded out to whole pixels. -/
def clipBox (clip : DeviceRect) (width height : Int32) : Rect ℤ :=
  let bounded := clip.intersect (surfaceRect width height)
  if bounded.empty then ⟨0, 0, 0, 0⟩
  else ⟨bounded.x0.floorInt, bounded.y0.floorInt, bounded.x1.ceilInt, bounded.y1.ceilInt⟩

namespace Surface

/-- One pixel is written. -/
def write (color : α) (y : ℤ) (pixel : ℤ → ℤ → α) (x : ℤ) : ℤ → ℤ → α :=
  fun x' y' => if x' = x ∧ y' = y then color else pixel x' y'

/-- `fill_kernel`: row by row. -/
def fillKernel (box : Rect ℤ) (color : α) (pixel : ℤ → ℤ → α) : ℤ → ℤ → α :=
  (indicesUpTo box.y0 (box.y1 - 1)).foldl
    (fun pixel y => (indicesUpTo box.x0 (box.x1 - 1)).foldl (write color y) pixel) pixel

/-- `CpuBackend::clear_rect`. -/
def clearRect (surface : Surface α) (rect : DeviceRect) (color : α) : Surface α :=
  { surface with
    pixel := fillKernel (clipBox rect surface.width surface.height) color surface.pixel }

/-- A pixel of the surface. -/
def Inside (surface : Surface α) (x y : ℤ) : Prop :=
  (0 ≤ x ∧ x < surface.width.toInt) ∧ 0 ≤ y ∧ y < surface.height.toInt

instance (surface : Surface α) (x y : ℤ) : Decidable (surface.Inside x y) :=
  inferInstanceAs (Decidable (_ ∧ _))

end Surface

/-! ## Clearing the complement -/

/-- The extent of a content in the pixel coordinates of a tile. -/
def surfaceExtent (localRect : DeviceRect) (rungPx : Double) (bounds : DeviceRect) : DeviceRect :=
  ⟨(bounds.x0 - localRect.x0) * rungPx, (bounds.y0 - localRect.y0) * rungPx,
    (bounds.x1 - localRect.x0) * rungPx, (bounds.y1 - localRect.y0) * rungPx⟩

/-- The four bands around an extent. -/
def complementBands (extent surface : DeviceRect) : List DeviceRect :=
  [⟨0, 0, surface.x1, extent.y0⟩, ⟨0, extent.y1, surface.x1, surface.y1⟩,
    ⟨0, extent.y0, extent.x0, extent.y1⟩, ⟨extent.x1, extent.y0, surface.x1, extent.y1⟩]

/-- `clear_tile_outside_bounds`. -/
def clearTileOutsideBounds [Zero α] (surface : Surface α) (localRect : DeviceRect)
    (rungPx : Double) (bounds : DeviceRect) : Surface α :=
  (complementBands (surfaceExtent localRect rungPx bounds)
    (surfaceRect surface.width surface.height)).foldl
    (fun surface band => if band.empty then surface else surface.clearRect band 0) surface

/-! ## What is filled -/

namespace Surface

variable {color : α}

private theorem foldl_write (y : ℤ) (columns : List ℤ) (pixel : ℤ → ℤ → α) (x' y' : ℤ) :
    columns.foldl (write color y) pixel x' y' =
      if x' ∈ columns ∧ y' = y then color else pixel x' y' := by
  induction columns generalizing pixel with
  | nil => simp
  | cons x columns ih =>
    rw [List.foldl_cons, ih, write]
    by_cases hy : y' = y <;> by_cases hx : x' = x <;> simp [hx, hy]

private theorem foldl_rows (columns rows : List ℤ) (pixel : ℤ → ℤ → α) (x' y' : ℤ) :
    rows.foldl (fun pixel y => columns.foldl (write color y) pixel) pixel x' y' =
      if x' ∈ columns ∧ y' ∈ rows then color else pixel x' y' := by
  induction rows generalizing pixel with
  | nil => simp
  | cons y rows ih =>
    rw [List.foldl_cons, ih, foldl_write]
    by_cases hx : x' ∈ columns <;> by_cases hy : y' = y <;> simp [hx, hy]

/-- The pixels of a box are filled, and no others. -/
theorem fillKernel_apply (box : Rect ℤ) (pixel : ℤ → ℤ → α) (x y : ℤ) :
    fillKernel box color pixel x y = if box.HoldsPixel x y then color else pixel x y := by
  have hiff : x ∈ indicesUpTo box.x0 (box.x1 - 1) ∧ y ∈ indicesUpTo box.y0 (box.y1 - 1) ↔
      box.HoldsPixel x y := by
    rw [mem_indicesUpTo, mem_indicesUpTo, Rect.HoldsPixel]
    omega
  rw [fillKernel, foldl_rows]
  simp only [hiff]

end Surface

/-! ## What a band clears -/

section Band

/-- A pixel of the surface lies in the extent, with its whole cell. -/
def CellInside (extent : DeviceRect) (x y : ℤ) : Prop :=
  (extent.x0.le (ofInt x) = true ∧ (ofInt (x + 1)).le extent.x1 = true) ∧
    extent.y0.le (ofInt y) = true ∧ (ofInt (y + 1)).le extent.y1 = true

instance (extent : DeviceRect) (x y : ℤ) : Decidable (CellInside extent x y) :=
  inferInstanceAs (Decidable (_ ∧ _))

/-- The place of an integer that fits the significand. -/
private theorem ofInt_facts {i : ℤ} (h0 : 0 ≤ i) (h : i < 2 ^ 53) :
    (ofInt i).isNaN = false ∧ 0 ≤ (ofInt i).key := by
  obtain ⟨n, rfl⟩ := Int.eq_ofNat_of_zero_le h0
  obtain ⟨hunits, hnan, -⟩ := units_ofInt (z := n) (by omega)
  refine ⟨hnan, units_nonneg_iff.mp ?_⟩
  rw [hunits]
  exact Int.mul_nonneg (Int.natCast_nonneg n) (pow_nonneg (by decide) _)

private theorem key_ofInt_lt {i j : ℤ} (h0 : 0 ≤ i) (hij : i < j) (h : j < 2 ^ 53) :
    (ofInt i).key < (ofInt j).key :=
  (lt_iff.mp (lt_ofInt h0 hij (hij.trans h))).2.2

/-- The pixels in a row that a clipped side is rounded out to. -/
private theorem side_iff {a b : Double} {i w : ℤ} (ha : a.isNaN = false) (hb : b.isNaN = false)
    (h0 : 0 ≤ i) (hi : i < w) (hw : w < 2 ^ 53) :
    (a.max 0).lt (b.min (ofInt w)) = true ∧ (a.max 0).floorInt ≤ i ∧
        i < (b.min (ofInt w)).ceilInt ↔
      a.key < b.key ∧ a.key < (ofInt (i + 1)).key ∧ (ofInt i).key < b.key := by
  obtain ⟨hnanw, -⟩ := ofInt_facts (h0.trans hi.le) hw
  obtain ⟨hnani, hkeyi⟩ := ofInt_facts h0 (hi.trans hw)
  obtain ⟨hnanj, -⟩ := ofInt_facts (i := i + 1) (by omega) (by omega)
  have hij := key_ofInt_lt h0 (show i < i + 1 by omega) (by omega)
  have hiw := key_ofInt_lt h0 hi hw
  have hjw : (ofInt (i + 1)).key ≤ (ofInt w).key := by
    rcases (show i + 1 ≤ w from hi).eq_or_lt with heq | hlt
    · rw [heq]
    · exact (key_ofInt_lt (by omega) hlt hw).le
  have hzero : (0 : Double).isNaN = false := by decide +kernel
  have hmax := key_max ha hzero
  have hmin := key_min hb hnanw
  have hnanmax := isNaN_max ha hzero
  have hnanmin := isNaN_min hb hnanw
  have hfloor : (a.max 0).floorInt ≤ i ↔ (a.max 0).key < (ofInt (i + 1)).key := by
    obtain ⟨n, hn⟩ := Int.eq_ofNat_of_zero_le (show 0 ≤ i + 1 by omega)
    have h := ofInt_le_iff (k := n) (by omega) hnanmax
    rw [le_iff, ← hn] at h
    have h' : (ofInt (i + 1)).key ≤ (a.max 0).key ↔ i + 1 ≤ (a.max 0).floorInt :=
      ⟨fun hle => h.mp ⟨hnanj, hnanmax, hle⟩, fun hle => (h.mpr hle).2.2⟩
    omega
  have hceil : i < (b.min (ofInt w)).ceilInt ↔ (ofInt i).key < (b.min (ofInt w)).key := by
    obtain ⟨n, rfl⟩ := Int.eq_ofNat_of_zero_le h0
    have h := le_ofInt_iff (k := n) (by omega) hnanmin
    rw [le_iff] at h
    have h' : (b.min (ofInt w)).key ≤ (ofInt (n : ℤ)).key ↔ (b.min (ofInt w)).ceilInt ≤ n :=
      ⟨fun hle => h.mp ⟨hnanmin, hnani, hle⟩, fun hle => (h.mpr hle).2.2⟩
    omega
  rw [hfloor, hceil, lt_iff, hmax, hmin, key_zero]
  simp only [hnanmax, hnanmin, true_and]
  omega

variable {surface : Surface α} {band : DeviceRect} {x y : ℤ}

private theorem toInt_lt (w : Int32) : w.toInt < 2 ^ 53 :=
  Int.lt_trans w.toInt_lt (by decide)

/-- The pixels that a rectangle is rounded out to. -/
theorem holdsPixel_clipBox (hx : band.x0.isNaN = false ∧ band.x1.isNaN = false)
    (hy : band.y0.isNaN = false ∧ band.y1.isNaN = false) (h : surface.Inside x y) :
    (clipBox band surface.width surface.height).HoldsPixel x y ↔
      (band.x0.key < band.x1.key ∧ band.x0.key < (ofInt (x + 1)).key ∧
        (ofInt x).key < band.x1.key) ∧
      band.y0.key < band.y1.key ∧ band.y0.key < (ofInt (y + 1)).key ∧
        (ofInt y).key < band.y1.key := by
  obtain ⟨⟨hx0, hxw⟩, hy0, hyh⟩ := h
  rw [← side_iff hx.1 hx.2 hx0 hxw (toInt_lt _), ← side_iff hy.1 hy.2 hy0 hyh (toInt_lt _)]
  show Rect.HoldsPixel (if (band.intersect (surfaceRect surface.width surface.height)).empty
    then _ else _) x y ↔ _
  split
  case isTrue hempty =>
    rw [DeviceRect.empty, Bool.not_eq_true', Bool.and_eq_false_iff] at hempty
    constructor
    · rintro ⟨⟨h1, h2⟩, -⟩
      exact absurd (h1.trans_lt h2) (Int.lt_irrefl 0)
    · rintro ⟨⟨hltx, -⟩, hlty, -⟩
      rcases hempty with hempty | hempty
      · exact Bool.false_ne_true (hempty.symm.trans hltx) |>.elim
      · exact Bool.false_ne_true (hempty.symm.trans hlty) |>.elim
  case isFalse hempty =>
    obtain ⟨hltx, hlty⟩ := DeviceRect.not_empty_iff.mp ((Bool.not_eq_true _).mp hempty)
    exact ⟨fun h => ⟨⟨hltx, h.1⟩, hlty, h.2⟩, fun h => ⟨h.1.2, h.2.2⟩⟩

/-- A rectangle is rounded out to pixels of the surface. -/
theorem inside_of_holdsPixel (h : (clipBox band surface.width surface.height).HoldsPixel x y) :
    surface.Inside x y := by
  unfold clipBox at h
  dsimp only at h
  split at h
  case isTrue =>
    obtain ⟨⟨h1, h2⟩, -⟩ := h
    exact absurd (h1.trans_lt h2) (Int.lt_irrefl 0)
  case isFalse hempty =>
    obtain ⟨hltx, hlty⟩ := DeviceRect.not_empty_iff.mp ((Bool.not_eq_true _).mp hempty)
    obtain ⟨hx0, -, hx1⟩ := clipped_side (toInt_lt surface.width) hltx
    obtain ⟨hy0, -, hy1⟩ := clipped_side (toInt_lt surface.height) hlty
    obtain ⟨⟨h1, h2⟩, h3, h4⟩ := h
    exact ⟨⟨hx0.trans h1, h2.trans_le hx1⟩, hy0.trans h3, h4.trans_le hy1⟩

/-- The bands clear, one by one, what each of them is rounded out to. -/
private theorem foldl_clearRect [Zero α] (bands : List DeviceRect) (surface : Surface α) :
    let after := bands.foldl
      (fun surface band => if band.empty then surface else surface.clearRect band 0) surface
    (after.width = surface.width ∧ after.height = surface.height) ∧
      ∀ x y, after.pixel x y = if ∃ band ∈ bands, band.empty = false ∧
        (clipBox band surface.width surface.height).HoldsPixel x y then 0
        else surface.pixel x y := by
  induction bands generalizing surface with
  | nil => exact ⟨⟨rfl, rfl⟩, fun x y => (if_neg (by simp)).symm⟩
  | cons band bands ih =>
    rw [List.foldl_cons]
    cases hempty : band.empty with
    | true =>
      obtain ⟨hsize, hpixel⟩ := ih surface
      refine ⟨hsize, fun x y => (hpixel x y).trans ?_⟩
      simp [hempty]
    | false =>
      obtain ⟨hsize, hpixel⟩ := ih (surface.clearRect band 0)
      refine ⟨hsize, fun x y => (hpixel x y).trans ?_⟩
      have hclear : (surface.clearRect band 0).pixel x y =
          if (clipBox band surface.width surface.height).HoldsPixel x y then 0
          else surface.pixel x y := Surface.fillKernel_apply _ _ _ _
      rw [hclear]
      show (if ∃ next ∈ bands, next.empty = false ∧
        (clipBox next surface.width surface.height).HoldsPixel x y then (0 : α) else _) = _
      by_cases hband : (clipBox band surface.width surface.height).HoldsPixel x y <;>
        simp [hempty, hband]

end Band

/-! ## The extent of a content -/

/-- A rectangle whose coordinates are numbers, or infinite. -/
structure DeviceRect.IsNumber (r : DeviceRect) : Prop where
  /-- Its left and its right edge. -/
  x : r.x0.isNaN = false ∧ r.x1.isNaN = false
  /-- Its top and its bottom edge. -/
  y : r.y0.isNaN = false ∧ r.y1.isNaN = false

section Extent

variable {localRect bounds extent : DeviceRect} {rungPx : Double} {surface : Surface α}

/-- A tile that can be rendered: it has an origin and a scale. -/
structure Renderable (localRect : DeviceRect) (rungPx : Double) : Prop where
  /-- Its origin is finite. -/
  origin : localRect.x0.isFinite = true ∧ localRect.y0.isFinite = true
  /-- Its scale is finite. -/
  scale_finite : rungPx.isFinite = true
  /-- Its scale is positive. -/
  scale_pos : Double.lt 0 rungPx = true

theorem Renderable.units_pos (h : Renderable localRect rungPx) : 0 < rungPx.units := by
  have hkey := (lt_iff.mp h.scale_pos).2.2
  rw [key_zero] at hkey
  exact units_pos_iff.mpr hkey

/-- The pixel coordinates of an extent are numbers. -/
theorem DeviceRect.IsNumber.surfaceExtent (h : bounds.IsNumber)
    (htile : Renderable localRect rungPx) :
    DeviceRect.IsNumber (surfaceExtent localRect rungPx bounds) := by
  have hedge : ∀ {a o : Double}, a.isNaN = false → o.isFinite = true →
      ((a - o) * rungPx).isNaN = false := by
    intro a o ha ho
    exact isNaN_mul (isNaN_sub ha ho) htile.scale_finite htile.units_pos
  exact ⟨⟨hedge h.x.1 htile.origin.1, hedge h.x.2 htile.origin.1⟩,
    hedge h.y.1 htile.origin.2, hedge h.y.2 htile.origin.2⟩

/-- A band rounds out to pixels only if it is not empty. -/
private theorem clears_iff (band : DeviceRect) {x y : ℤ} (hband : band.IsNumber)
    (h : surface.Inside x y) :
    (band.empty = false ∧ (clipBox band surface.width surface.height).HoldsPixel x y) ↔
      (band.x0.key < band.x1.key ∧ band.x0.key < (ofInt (x + 1)).key ∧
        (ofInt x).key < band.x1.key) ∧
      band.y0.key < band.y1.key ∧ band.y0.key < (ofInt (y + 1)).key ∧
        (ofInt y).key < band.y1.key := by
  rw [holdsPixel_clipBox hband.x hband.y h]
  apply and_iff_right_of_imp
  rintro ⟨⟨hx, -⟩, hy, -⟩
  exact DeviceRect.not_empty_iff.mpr ⟨lt_iff.mpr ⟨hband.x.1, hband.x.2, hx⟩,
    lt_iff.mpr ⟨hband.y.1, hband.y.2, hy⟩⟩

/-- The bands clear the pixels whose cells reach out of the extent. -/
private theorem exists_band_iff {x y : ℤ} (hextent : extent.IsNumber) (h : surface.Inside x y) :
    (∃ band ∈ complementBands extent (surfaceRect surface.width surface.height),
      band.empty = false ∧ (clipBox band surface.width surface.height).HoldsPixel x y) ↔
        ¬ CellInside extent x y := by
  have hzero : (0 : Double).isNaN = false := by decide +kernel
  obtain ⟨⟨hx0, hxw⟩, hy0, hyh⟩ := id h
  have hw := toInt_lt surface.width
  have hh := toInt_lt surface.height
  obtain ⟨hnanx, hkeyx⟩ := ofInt_facts hx0 (hxw.trans hw)
  obtain ⟨hnany, hkeyy⟩ := ofInt_facts hy0 (hyh.trans hh)
  obtain ⟨hnanx', -⟩ := ofInt_facts (i := x + 1) (by omega) (by omega)
  obtain ⟨hnany', -⟩ := ofInt_facts (i := y + 1) (by omega) (by omega)
  obtain ⟨hnanw, -⟩ := ofInt_facts (hx0.trans hxw.le) hw
  obtain ⟨hnanh, -⟩ := ofInt_facts (hy0.trans hyh.le) hh
  have hstepx := key_ofInt_lt hx0 (show x < x + 1 by omega) (by omega)
  have hstepy := key_ofInt_lt hy0 (show y < y + 1 by omega) (by omega)
  have hinx := key_ofInt_lt hx0 hxw hw
  have hiny := key_ofInt_lt hy0 hyh hh
  have hle : ∀ {i w : ℤ}, 0 ≤ i → i < w → w < 2 ^ 53 → (ofInt (i + 1)).key ≤ (ofInt w).key := by
    intro i w h0 hi hw
    rcases (show i + 1 ≤ w from hi).eq_or_lt with heq | hlt
    · rw [heq]
    · exact (key_ofInt_lt (by omega) hlt hw).le
  have hlex := hle hx0 hxw hw
  have hley := hle hy0 hyh hh
  simp only [complementBands, List.mem_cons, List.not_mem_nil, or_false, exists_eq_or_imp,
    exists_eq_left, surfaceRect_x1, surfaceRect_y1]
  rw [clears_iff ⟨0, 0, ofInt surface.width.toInt, extent.y0⟩
      ⟨⟨hzero, hnanw⟩, hzero, hextent.y.1⟩ h,
    clears_iff ⟨0, extent.y1, ofInt surface.width.toInt, ofInt surface.height.toInt⟩
      ⟨⟨hzero, hnanw⟩, hextent.y.2, hnanh⟩ h,
    clears_iff ⟨0, extent.y0, extent.x0, extent.y1⟩ ⟨⟨hzero, hextent.x.1⟩, hextent.y⟩ h,
    clears_iff ⟨extent.x1, extent.y0, ofInt surface.width.toInt, extent.y1⟩
      ⟨⟨hextent.x.2, hnanw⟩, hextent.y⟩ h]
  simp only [CellInside, le_iff, hextent.x.1, hextent.x.2, hextent.y.1, hextent.y.2, hnanx, hnany,
    hnanx', hnany', true_and, key_zero]
  omega

/-- The bands have no gap: what is not in the extent is in one of them. -/
private theorem exists_holds_iff {x y : Double} (hextent : extent.IsNumber)
    (h : (surfaceRect surface.width surface.height).Holds x y) :
    (∃ band ∈ complementBands extent (surfaceRect surface.width surface.height),
      band.Holds x y) ↔ ¬ extent.Holds x y := by
  obtain ⟨⟨hx0, hxw⟩, hy0, hyh⟩ := h
  obtain ⟨hzero, hnanx, hkeyx⟩ := le_iff.mp hx0
  obtain ⟨-, hnanw, hkeyw⟩ := lt_iff.mp hxw
  obtain ⟨-, hnany, hkeyy⟩ := le_iff.mp hy0
  obtain ⟨-, hnanh, hkeyh⟩ := lt_iff.mp hyh
  simp only [complementBands, List.mem_cons, List.not_mem_nil, or_false, exists_eq_or_imp,
    exists_eq_left, DeviceRect.Holds, le_iff, lt_iff, hextent.x.1, hextent.x.2, hextent.y.1,
    hextent.y.2, hnanx, hnany, hnanw, hnanh, true_and]
  have hz : (surfaceRect surface.width surface.height).x0 = 0 := rfl
  have hz' : (surfaceRect surface.width surface.height).y0 = 0 := rfl
  rw [hz] at hzero hkeyx
  rw [hz'] at hkeyy
  simp only [hzero, true_and]
  omega

/-- Rectangles below one another are disjoint. -/
private theorem disjoint_of_rows {a b : DeviceRect} (h : a.y1.key ≤ b.y0.key) (x y : Double)
    (ha : a.Holds x y) : ¬ b.Holds x y := by
  intro hb
  have habove := (lt_iff.mp ha.2.2).2.2
  have hbelow := (le_iff.mp hb.2.1).2.2
  omega

/-- Rectangles beside one another are disjoint. -/
private theorem disjoint_of_columns {a b : DeviceRect} (h : a.x1.key ≤ b.x0.key) (x y : Double)
    (ha : a.Holds x y) : ¬ b.Holds x y := by
  intro hb
  have hleft := (lt_iff.mp ha.1.2).2.2
  have hright := (le_iff.mp hb.1.1).2.2
  omega

/-- The bands around an extent that is not turned around are disjoint. -/
private theorem pairwise_bands (hx : extent.x0.le extent.x1 = true)
    (hy : extent.y0.le extent.y1 = true) (surface : DeviceRect) :
    (complementBands extent surface).Pairwise fun a b => ∀ x y, a.Holds x y → ¬ b.Holds x y := by
  obtain ⟨-, -, hkeyx⟩ := le_iff.mp hx
  obtain ⟨-, -, hkeyy⟩ := le_iff.mp hy
  have hside : ∀ {a b : DeviceRect}, b.y1.key ≤ a.y0.key → ∀ x y, a.Holds x y → ¬ b.Holds x y :=
    fun h x y ha hb => disjoint_of_rows h x y hb ha
  simp only [complementBands, List.pairwise_cons, List.mem_cons, List.not_mem_nil, or_false,
    forall_eq_or_imp, forall_eq]
  refine ⟨⟨?_, ?_, ?_⟩, ⟨?_, ?_⟩, ?_, nofun, List.Pairwise.nil⟩
  · exact disjoint_of_rows hkeyy
  · exact disjoint_of_rows (Int.le_refl _)
  · exact disjoint_of_rows (Int.le_refl _)
  -- the side bands end where the lower band begins
  · exact hside (Int.le_refl _)
  · exact hside (Int.le_refl _)
  · exact disjoint_of_columns hkeyx

/-- The edges of an extent stay in order. -/
private theorem surfaceExtent_le (htile : Renderable localRect rungPx)
    (hx : bounds.x0.le bounds.x1 = true) (hy : bounds.y0.le bounds.y1 = true) :
    (surfaceExtent localRect rungPx bounds).x0.le (surfaceExtent localRect rungPx bounds).x1 =
        true ∧
      (surfaceExtent localRect rungPx bounds).y0.le (surfaceExtent localRect rungPx bounds).y1 =
        true :=
  ⟨mul_le_mul (sub_le_sub hx htile.origin.1) htile.scale_finite htile.units_pos,
    mul_le_mul (sub_le_sub hy htile.origin.2) htile.scale_finite htile.units_pos⟩

/-- A tile is cleared exactly at the pixels whose cells are not wholly in the extent of its
content. The bands that are cleared leave no gap, and those around an extent that is not turned
around do not overlap. -/
theorem clearTileOutsideBounds_spec [Zero α] (surface : Surface α) (localRect bounds : DeviceRect)
    (rungPx : Double) (htile : Renderable localRect rungPx) (hbounds : bounds.IsNumber) :
    let extent := surfaceExtent localRect rungPx bounds
    let whole := surfaceRect surface.width surface.height
    let bands := complementBands extent whole
    let after := clearTileOutsideBounds surface localRect rungPx bounds
    (after.width = surface.width ∧ after.height = surface.height) ∧
      (∀ x y, after.pixel x y =
        if surface.Inside x y ∧ ¬ CellInside extent x y then 0 else surface.pixel x y) ∧
      (∀ x y, whole.Holds x y → ((∃ band ∈ bands, band.Holds x y) ↔ ¬ extent.Holds x y)) ∧
      (bounds.x0.le bounds.x1 = true → bounds.y0.le bounds.y1 = true →
        bands.Pairwise fun a b => ∀ x y, a.Holds x y → ¬ b.Holds x y) := by
  intro extent whole bands after
  have hextent : extent.IsNumber := hbounds.surfaceExtent htile
  obtain ⟨hsize, hpixel⟩ := foldl_clearRect bands surface
  refine ⟨hsize, ?_, fun x y => exists_holds_iff hextent, ?_⟩
  · intro x y
    refine (hpixel x y).trans ?_
    by_cases hin : surface.Inside x y
    · simp only [bands, whole, exists_band_iff hextent hin, hin, true_and]
    · -- no band is rounded out to a pixel off the surface
      rw [if_neg, if_neg fun h => hin h.1]
      rintro ⟨band, -, -, hband⟩
      exact hin (inside_of_holdsPixel hband)
  · intro hx hy
    obtain ⟨hx, hy⟩ := surfaceExtent_le htile hx hy
    exact pairwise_bands hx hy whole

/-- The corner of a large content in a tile of the finest whole rung. -/
private def cornerBounds : DeviceRect :=
  ⟨⟨0x401A000000000000⟩, ⟨0x401A000000000000⟩, ofInt 300, ofInt 300⟩

private theorem renderable_first : Renderable (tileRenderRect ⟨0⟩ ⟨0, 0⟩) (rungScale ⟨0⟩) :=
  ⟨by decide +kernel, by decide +kernel, by decide +kernel⟩

private theorem isNumber_corner : cornerBounds.IsNumber :=
  ⟨by decide +kernel, by decide +kernel⟩

/-- A tile of a content that begins in the middle of a pixel, all painted. -/
private def paintedTile : Surface ℕ := ⟨264, 264, fun _ _ => 7⟩

/-- A content that begins in the middle of the pixel in column 10. -/
theorem clearTileOutsideBounds_spec_corner :
    (clearTileOutsideBounds paintedTile (tileRenderRect ⟨0⟩ ⟨0, 0⟩) (rungScale ⟨0⟩)
        cornerBounds).pixel 10 100 = 0 ∧
      (clearTileOutsideBounds paintedTile (tileRenderRect ⟨0⟩ ⟨0, 0⟩) (rungScale ⟨0⟩)
        cornerBounds).pixel 11 100 = paintedTile.pixel 11 100 := by
  obtain ⟨-, hpixel, -⟩ := clearTileOutsideBounds_spec paintedTile (tileRenderRect ⟨0⟩ ⟨0, 0⟩)
    cornerBounds (rungScale ⟨0⟩) renderable_first isNumber_corner
  have hedge : paintedTile.Inside 10 100 ∧ ¬ CellInside (surfaceExtent
      (tileRenderRect ⟨0⟩ ⟨0, 0⟩) (rungScale ⟨0⟩) cornerBounds) 10 100 := by decide +kernel
  have hinner : ¬ (paintedTile.Inside 11 100 ∧ ¬ CellInside (surfaceExtent
      (tileRenderRect ⟨0⟩ ⟨0, 0⟩) (rungScale ⟨0⟩) cornerBounds) 11 100) := by decide +kernel
  rw [hpixel, hpixel, if_pos hedge, if_neg hinner]
  exact ⟨rfl, rfl⟩

end Extent

/-- Rounded out to pixels, two bands may meet in the pixel at a corner of the extent, and the bands
around an extent that is turned around overlap. -/
theorem not_bands_disjoint :
    (¬ ∀ (width height : Int32) (localRect bounds : DeviceRect) (rungPx : Double),
      Renderable localRect rungPx → bounds.IsNumber → bounds.empty = false →
        ((complementBands (surfaceExtent localRect rungPx bounds)
          (surfaceRect width height)).map fun band => clipBox band width height).Pairwise
            fun a b => ∀ x y, a.HoldsPixel x y → ¬ b.HoldsPixel x y) ∧
      ¬ ∀ (width height : Int32) (localRect bounds : DeviceRect) (rungPx : Double),
        Renderable localRect rungPx → bounds.IsNumber →
          (complementBands (surfaceExtent localRect rungPx bounds)
            (surfaceRect width height)).Pairwise fun a b =>
              ∀ x y, (surfaceRect width height).Holds x y → a.Holds x y → ¬ b.Holds x y := by
  constructor
  · -- the extent begins at 10.5, and the tenth pixel of the tenth row is in two bands
    intro h
    have hpair := h 264 264 _ _ _ renderable_first isNumber_corner (by decide +kernel)
    simp only [complementBands, List.map_cons, List.map_nil, List.pairwise_cons, List.mem_cons,
      List.not_mem_nil, or_false, forall_eq_or_imp, forall_eq] at hpair
    exact hpair.1.2.1 0 10 (by decide +kernel) (by decide +kernel)
  · -- an empty extent from 8 to 2, whose upper and lower bands overlap
    intro h
    have hpair := h 264 264 _ ⟨ofInt 8, ofInt 8, ofInt 2, ofInt 2⟩ _ renderable_first
      ⟨by decide +kernel, by decide +kernel⟩
    simp only [complementBands, List.pairwise_cons, List.mem_cons, List.not_mem_nil, or_false,
      forall_eq_or_imp, forall_eq] at hpair
    have hholds : ∀ {r : DeviceRect} {x y : Double}, ((r.x0.le x && x.lt r.x1) &&
        (r.y0.le y && y.lt r.y1)) = true → r.Holds x y := by
      intro r x y h
      simpa only [DeviceRect.Holds, Bool.and_eq_true] using h
    exact hpair.1.1 (ofInt 9) (ofInt 9) (hholds (by decide +kernel)) (hholds (by decide +kernel))
      (hholds (by decide +kernel))

end ArbitraryComposer
