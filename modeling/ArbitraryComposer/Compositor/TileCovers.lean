import ArbitraryComposer.Model.Coalescing
import ArbitraryComposer.ToMathlib.DoubleGrid

/-!
# Covers of Tiles

The cells of a rung that meet a region cover it, and so do the aproned rectangles of the cells that
meet the region shrunk by the apron. A region that shrinks to nothing is covered by the cell of its
centre alone, whose aproned rectangle does not hold a region that is narrow but long.

## Main definitions

- `tilesCovering?`, `tilesCoveringRender?`: the covers, where their indices fit 32 bits.
- `CellMeets`: a cell of the grid and a region have a point in common.
- `CoversExactly`: what covers promise.
- `AxisFits`, `Wide`, `Centred`: the regions that are covered.

## Main results

- `coversExactly_iff`: exactly these regions are covered.
- `not_coversExactly`: a small region around the origin is covered by no tile.
-/

namespace ArbitraryComposer

open Double

/-! ## Covers with 32-bit indices -/

/-- An integer that a 32-bit index holds. -/
def Fits32 (z : ℤ) : Prop := -2 ^ 31 ≤ z ∧ z < 2 ^ 31

instance (z : ℤ) : Decidable (Fits32 z) := inferInstanceAs (Decidable (_ ∧ _))

/-- A coordinate of a cell fits its type. -/
def TileCoord.Fits (c : TileCoord) : Prop := Fits32 c.col ∧ Fits32 c.row

/-- The conversions of `tiles_covering` along one axis, which are defined for what fits. -/
def axisCasts (rung : ScaleRung) (lo hi : Double) : Bool :=
  let first := lo / cellEdge rung
  let last := hi / cellEdge rung
  (first.isFinite && decide (Fits32 first.floorInt)) &&
    (last.isFinite && decide (Fits32 last.ceilInt) && decide (Fits32 (last.ceilInt - 1)))

/-- `tiles_covering`, where its conversions are defined. -/
def tilesCovering? (rung : ScaleRung) (region : DeviceRect) : Option (List TileCoord) :=
  if region.empty then some []
  else if axisCasts rung region.x0 region.x1 && axisCasts rung region.y0 region.y1 then
    some (tilesCovering rung region)
  else none

/-- The apron in local units. -/
def apronEdge (rung : ScaleRung) : Double := ofInt tileApron / rungScale rung

/-- A region, shrunk by the apron. -/
def shrunkRect (rung : ScaleRung) (region : DeviceRect) : DeviceRect :=
  ⟨region.x0 + apronEdge rung, region.y0 + apronEdge rung, region.x1 - apronEdge rung,
    region.y1 - apronEdge rung⟩

/-- The centre of an interval. -/
def centre (lo hi : Double) : Double := ⟨0x3FE0000000000000⟩ * (lo + hi)

/-- The end of the least interval from a number on. -/
def centreEnd (c : Double) : Double := nextafter c (c + 1)

/-- The least rectangle from the centre of a region on. -/
def centreRect (region : DeviceRect) : DeviceRect :=
  let cx := centre region.x0 region.x1
  let cy := centre region.y0 region.y1
  ⟨cx, cy, centreEnd cx, centreEnd cy⟩

/-- `tiles_covering_render`, where its conversions are defined. -/
def tilesCoveringRender? (rung : ScaleRung) (region : DeviceRect) : Option (List TileCoord) :=
  if region.empty then some []
  else if !(shrunkRect rung region).empty then tilesCovering? rung (shrunkRect rung region)
  else tilesCovering? rung (centreRect region)

/-! ## What covers promise -/

/-- The edge of a cell, in units of the least double. -/
def cellUnits (rung : ScaleRung) : ℤ := 2 ^ (1082 - rung.index).toNat

/-- A half-open cell of the grid and a half-open interval have a point in common. -/
def AxisMeets (rung : ScaleRung) (c : ℤ) (lo hi : Double) : Prop :=
  c * cellUnits rung < hi.units ∧ lo.units < (c + 1) * cellUnits rung

/-- A half-open cell of the grid and a region have a point in common. -/
def CellMeets (rung : ScaleRung) (c : TileCoord) (region : DeviceRect) : Prop :=
  region.empty = false ∧ AxisMeets rung c.col region.x0 region.x1 ∧
    AxisMeets rung c.row region.y0 region.y1

/-- What the covers of a region promise. -/
structure CoversExactly (rung : ScaleRung) (region : DeviceRect) : Prop where
  /-- The cells that meet the region are given, each of them once, and no others. -/
  cells : ∃ tiles, tilesCovering? rung region = some tiles ∧ tiles.Nodup ∧
    ∀ c : TileCoord, c.Fits → (c ∈ tiles ↔ CellMeets rung c region)
  /-- The aproned rectangles of a cover contain the region. -/
  fill : ∃ tiles, tilesCoveringRender? rung region = some tiles ∧
    ∀ x y, region.Holds x y → ∃ c ∈ tiles, (tileRenderRect rung c).Holds x y
  /-- The aproned rectangle of a tile is covered by that tile alone. -/
  own : ∀ c : TileCoord, c.Fits → region.empty = false → region = tileRenderRect rung c →
    tilesCoveringRender? rung region = some [c]

/-! ## Cells as a binary grid -/

section Grid

/-- The rungs whose cells have an edge that is a finite double. -/
def ScaleRung.InRange (rung : ScaleRung) : Prop := -1015 ≤ rung.index ∧ rung.index ≤ 1023

variable {rung : ScaleRung}

private theorem powerOfTwo_of_key {g : Double} {n : ℕ} (hn : n < 2098)
    (h : g.key = roundKey (2 ^ n) 1) : PowerOfTwo g n := by
  obtain ⟨w, hw, hunits⟩ := exists_units (m := 1) (e := n) (by decide) (by
    rw [one_mul, abs_of_pos (pow_pos (by decide) _)]
    exact pow_lt_pow_right₀ (by decide) hn)
  rw [one_mul] at hunits
  have hkey : g.key = w.key := by
    rw [h, ← roundKey_units hw Nat.one_pos, hunits, Nat.cast_one, mul_one]
  exact ⟨isFinite_of_key_eq hkey hw, (units_eq_units_iff.mpr hkey).trans hunits⟩

/-- The scale of a rung is a power of two. -/
theorem powerOfTwo_rungScale (h : -1074 ≤ rung.index ∧ rung.index ≤ 1023) :
    PowerOfTwo (rungScale rung) (rung.index + 1074).toNat := by
  apply powerOfTwo_of_key (by omega)
  rw [rungScale, if_neg (by omega), if_neg (by omega)]
  have hpos : (0 : ℤ) < 2 ^ (rung.index + 1074).toNat := pow_pos (by decide) _
  have hnat : (2 : ℕ) ^ (rung.index + 1074).toNat =
      Int.natAbs (2 ^ (rung.index + 1074).toNat) := by
    rw [Int.natAbs_pow]
    rfl
  rw [hnat]
  exact (key_round fun _ => (decide_eq_false (not_lt.mpr hpos.le)).symm).1

/-- A whole power of two, divided by the scale of a rung. -/
private theorem key_div_rungScale (h : -1074 ≤ rung.index ∧ rung.index ≤ 1023) {k : ℕ}
    (hk : k < 53) : (ofInt (2 ^ k) / rungScale rung).key =
      roundKey (2 ^ (k + 1074 - rung.index).toNat) 1 := by
  have hscale := powerOfTwo_rungScale h
  obtain ⟨hfinite, hunits⟩ := ofInt_spec (c := 2 ^ k) (by
    rw [abs_of_pos (pow_pos (by decide) _)]
    exact pow_lt_pow_right₀ (by decide) hk)
  rw [(hscale.key_div hfinite).1, hunits]
  have hsplit : (2 : ℤ) ^ k * 2 ^ 1074 * 2 ^ 1074 =
      2 ^ (k + 1074 - rung.index).toNat * 2 ^ (rung.index + 1074).toNat := by
    rw [← pow_add, ← pow_add, ← pow_add]
    congr 1
    omega
  have hcast : (2 : ℤ) ^ (rung.index + 1074).toNat =
      ((2 ^ (rung.index + 1074).toNat : ℕ) : ℤ) := by
    rw [Nat.cast_pow, Nat.cast_ofNat]
  have hmul := roundKey_mul (2 ^ (k + 1074 - rung.index).toNat) Nat.one_pos
    (Nat.two_pow_pos (rung.index + 1074).toNat)
  rw [hsplit, hcast]
  rwa [Nat.one_mul] at hmul

/-- The edge of the apron, as an exponent. -/
def ScaleRung.apronExponent (rung : ScaleRung) : ℕ := (1076 - rung.index).toNat

theorem powerOfTwo_apronEdge (h : rung.InRange) :
    PowerOfTwo (apronEdge rung) rung.apronExponent := by
  obtain ⟨h0, h1⟩ := h
  apply powerOfTwo_of_key (by rw [ScaleRung.apronExponent]; omega)
  rw [apronEdge, show tileApron = 2 ^ 2 from rfl, key_div_rungScale ⟨by omega, h1⟩ (by decide),
    ScaleRung.apronExponent]
  congr 3

/-- A cell has 64 aprons. -/
theorem powerOfTwo_cellEdge (h : rung.InRange) :
    PowerOfTwo (cellEdge rung) (rung.apronExponent + 6) := by
  obtain ⟨h0, h1⟩ := h
  apply powerOfTwo_of_key (by rw [ScaleRung.apronExponent]; omega)
  rw [cellEdge, show tileSize = 2 ^ 8 from rfl, key_div_rungScale ⟨by omega, h1⟩ (by decide),
    ScaleRung.apronExponent]
  congr 2
  omega

theorem cellUnits_eq (h : rung.InRange) : cellUnits rung = 2 ^ (rung.apronExponent + 6) := by
  obtain ⟨h0, h1⟩ := h
  rw [cellUnits, ScaleRung.apronExponent]
  congr 1
  omega

/-- What the infinities stand for, in units of the least double. -/
def topUnits : ℤ := 2 ^ 2098

theorem cellUnits_pos (rung : ScaleRung) : 0 < cellUnits rung := pow_pos (by decide) _

end Grid

/-! ## Regions whose cells have 32-bit indices -/

/-- An interval whose cells have indices that fit, and whose ends do not vanish when they are
divided by the edge of a cell. -/
structure AxisFits (rung : ScaleRung) (lo hi : Double) : Prop where
  /-- It is finite. -/
  finite : lo.isFinite = true ∧ hi.isFinite = true
  /-- Its first cell fits. -/
  first : -2 ^ 31 * cellUnits rung ≤ lo.units
  /-- The cell after its last fits. -/
  last : hi.units ≤ (2 ^ 31 - 1) * cellUnits rung
  /-- A beginning before zero does not vanish. -/
  negative : lo.units < 0 → cellUnits rung < -lo.units * 2 ^ 1075
  /-- An end after zero does not vanish. -/
  positive : 0 < hi.units → cellUnits rung < hi.units * 2 ^ 1075

section Axis

variable {rung : ScaleRung} {lo hi : Double} {c : ℤ}

theorem Fits32.bound (hc : Fits32 c) : |c| ≤ 2 ^ 31 := abs_le.mpr ⟨hc.1, hc.2.le⟩

theorem Fits32.significand (hc : Fits32 c) : |c| < 2 ^ 52 ∧ |c + 1| < 2 ^ 52 := by
  obtain ⟨h0, h1⟩ := hc
  exact ⟨abs_lt.mpr ⟨by omega, by omega⟩, abs_lt.mpr ⟨by omega, by omega⟩⟩

namespace AxisFits

variable (hf : AxisFits rung lo hi) (h : rung.InRange)

include hf h

/-- The cells from the first on are those that end after the beginning. -/
theorem first_le_iff (hc : Fits32 c) :
    (lo / cellEdge rung).floorInt ≤ c ↔ lo.units < (c + 1) * cellUnits rung := by
  have hg := powerOfTwo_cellEdge h
  have hneg := hf.negative
  rw [cellUnits_eq h] at hneg ⊢
  constructor
  · intro hle
    by_contra hge
    have hnext := hg.le_floorInt_div hf.finite.1 (hc.significand.2.trans (by decide))
      (not_lt.mp hge)
    omega
  · intro hlt
    refine Int.lt_add_one_iff.mp (hg.floorInt_div_lt hf.finite.1 hc.significand.2 hlt ?_)
    intro hzero
    rw [hzero, Int.zero_mul] at hlt
    exact hneg hlt

/-- The cells up to the last are those that begin before the end. -/
theorem le_last_iff (hc : Fits32 c) :
    c ≤ (hi / cellEdge rung).ceilInt - 1 ↔ c * cellUnits rung < hi.units := by
  have hg := powerOfTwo_cellEdge h
  have hpos := hf.positive
  rw [cellUnits_eq h] at hpos ⊢
  constructor
  · intro hle
    by_contra hge
    have hnext := hg.ceilInt_div_le hf.finite.2 (hc.significand.1.trans (by decide))
      (not_lt.mp hge)
    omega
  · intro hlt
    refine Int.le_sub_one_of_lt (hg.lt_ceilInt_div hf.finite.2 hc.significand.1 hlt ?_)
    intro hzero
    rw [hzero, Int.zero_mul] at hlt
    exact hpos hlt

/-- A bound of the coordinates. -/
private theorem abs_le_of_mem {z : ℤ} (h0 : lo.units ≤ z) (h1 : z ≤ hi.units) :
    |z| ≤ 2 ^ 31 * 2 ^ (rung.apronExponent + 6) := by
  have hpos := cellUnits_pos rung
  have hfirst := hf.first
  have hlast := hf.last
  rw [cellUnits_eq h] at hpos hfirst hlast
  refine abs_le.mpr ⟨?_, ?_⟩
  · rw [← Int.neg_mul]
    exact hfirst.trans h0
  · refine (h1.trans hlast).trans (Int.mul_le_mul_of_nonneg_right (by decide) hpos.le)

/-- The first and the last cell of an interval that fits have indices that fit. -/
theorem indices (hlt : lo.units < hi.units) : Fits32 (lo / cellEdge rung).floorInt ∧
    Fits32 (hi / cellEdge rung).ceilInt ∧ Fits32 ((hi / cellEdge rung).ceilInt - 1) := by
  have hg := powerOfTwo_cellEdge h
  have hfirst := hf.first
  have hlast := hf.last
  have hlow : -2 ^ 31 ≤ (lo / cellEdge rung).floorInt :=
    hg.le_floorInt_div hf.finite.1 (by decide) (cellUnits_eq h ▸ hfirst)
  have hhigh : (hi / cellEdge rung).ceilInt ≤ 2 ^ 31 - 1 :=
    hg.ceilInt_div_le hf.finite.2 (by decide) (cellUnits_eq h ▸ hlast)
  have hup : (lo / cellEdge rung).floorInt ≤ 2 ^ 31 - 2 :=
    (hf.first_le_iff h ⟨by decide, by decide⟩).mpr (hlt.trans_le hlast)
  have hdown : -2 ^ 31 ≤ (hi / cellEdge rung).ceilInt - 1 :=
    (hf.le_last_iff h ⟨by decide, by decide⟩).mpr (hfirst.trans_lt hlt)
  unfold Fits32
  clear hfirst hlast
  omega

/-- The first cell does not begin after the interval. -/
theorem first_line_le (hlt : lo.units < hi.units) :
    (lo / cellEdge rung).floorInt * cellUnits rung ≤ lo.units := by
  have hg := powerOfTwo_cellEdge h
  have hneg := hf.negative
  have hbound := (hf.indices h hlt).1.significand.1
  by_contra hgt
  rw [cellUnits_eq h] at hneg hgt
  refine absurd (hg.floorInt_div_lt hf.finite.1 hbound (not_le.mp hgt) ?_) (lt_irrefl _)
  intro hzero
  rw [hzero, Int.zero_mul] at hgt
  exact hneg (not_le.mp hgt)

/-- The conversions of an interval that fits are defined. -/
theorem casts (hlt : lo.units < hi.units) : axisCasts rung lo hi = true := by
  have hg := powerOfTwo_cellEdge h
  have hqlo := hg.isFinite_div hf.finite.1 (by decide : |(2 : ℤ) ^ 31| < 2 ^ 53)
    (hf.abs_le_of_mem h le_rfl hlt.le)
  have hqhi := hg.isFinite_div hf.finite.2 (by decide : |(2 : ℤ) ^ 31| < 2 ^ 53)
    (hf.abs_le_of_mem h hlt.le le_rfl)
  obtain ⟨hfirst, hnext, hlast⟩ := hf.indices h hlt
  rw [axisCasts, hqlo, hqhi, decide_eq_true hfirst, decide_eq_true hnext, decide_eq_true hlast]
  rfl

end AxisFits

/-- An interval whose conversions are defined is finite and has cells that fit. -/
theorem bounds_of_casts (h : rung.InRange) (hcasts : axisCasts rung lo hi = true) :
    (lo.isFinite = true ∧ hi.isFinite = true) ∧ -2 ^ 31 * cellUnits rung ≤ lo.units ∧
      hi.units ≤ (2 ^ 31 - 1) * cellUnits rung := by
  have hg := powerOfTwo_cellEdge h
  simp only [axisCasts, Bool.and_eq_true, decide_eq_true_iff] at hcasts
  obtain ⟨⟨hqlo, hlow⟩, ⟨hqhi, hhigh⟩, -⟩ := hcasts
  have hlo := hg.isFinite_of_div hqlo
  have hhi := hg.isFinite_of_div hqhi
  refine ⟨⟨hlo, hhi⟩, ?_, ?_⟩ <;> rw [cellUnits_eq h] <;> by_contra hlt
  · have hout := hg.floorInt_div_lt hlo (by decide) (not_le.mp hlt) (fun hz => absurd hz (by decide))
    have hin := hlow.1
    omega
  · have hout := hg.lt_ceilInt_div hhi (by decide) (not_le.mp hlt) (fun hz => absurd hz (by decide))
    have hin := hhigh.2
    omega

end Axis

/-! ## The rectangles that tiles are rendered over -/

/-- The beginning of what a tile is rendered over, along one axis. -/
def renderLo (rung : ScaleRung) (c : ℤ) : Double := ofInt c * cellEdge rung - apronEdge rung

/-- The end of what a tile is rendered over, along one axis. -/
def renderHi (rung : ScaleRung) (c : ℤ) : Double :=
  ofInt c * cellEdge rung + cellEdge rung + apronEdge rung

theorem tileRenderRect_eq (rung : ScaleRung) (c : TileCoord) : tileRenderRect rung c =
    ⟨renderLo rung c.col, renderLo rung c.row, renderHi rung c.col, renderHi rung c.row⟩ := rfl

/-- The apron, in units of the least double. -/
def apronUnits (rung : ScaleRung) : ℤ := 2 ^ rung.apronExponent

theorem apronUnits_pos (rung : ScaleRung) : 0 < apronUnits rung := pow_pos (by decide) _

section Render

variable {rung : ScaleRung} {c : ℤ} {z : Double}

theorem cellUnits_eq_mul (h : rung.InRange) : cellUnits rung = 64 * apronUnits rung := by
  rw [cellUnits_eq h, apronUnits, pow_add, mul_comm]
  rfl

/-- The lines of the aprons are multiples of the apron. -/
theorem key_render (h : rung.InRange) (hc : Fits32 c)
    (hlow : -topUnits < c * cellUnits rung) :
    (c * cellUnits rung < topUnits → (renderLo rung c).key =
        roundKey ((64 * c - 1) * 2 ^ rung.apronExponent) 1 ∧ (renderLo rung c).isNaN = false) ∧
      (renderHi rung c).key = roundKey ((64 * c + 65) * 2 ^ rung.apronExponent) 1 ∧
        (renderHi rung c).isNaN = false := by
  have hg := powerOfTwo_cellEdge h
  have hA := powerOfTwo_apronEdge h
  have hfar := hc.significand.1.trans (by decide : (2 : ℤ) ^ 52 < 2 ^ 53)
  have hfar' := hc.significand.2.trans (by decide : (2 : ℤ) ^ 52 < 2 ^ 53)
  have hUA : ∀ k : ℤ, k * 2 ^ (rung.apronExponent + 6) = 64 * k * 2 ^ rung.apronExponent := by
    intro k
    rw [pow_add]
    ring
  rw [cellUnits_eq h] at hlow ⊢
  constructor
  · intro hup
    obtain ⟨hline, hunits⟩ := hg.line_finite hfar (abs_lt.mpr ⟨hlow, hup⟩)
    obtain ⟨hkey, hnan⟩ := key_sub hline hA.finite
    refine ⟨hkey.trans ?_, hnan⟩
    rw [hunits, hA.units, hUA]
    congr 1
    ring
  · obtain ⟨hkey, hnan⟩ := hg.key_line hfar
    obtain ⟨hkey, hnan⟩ := hg.key_add_scaled hnan hkey hfar hlow
    have hnext : c * 2 ^ (rung.apronExponent + 6) + 2 ^ (rung.apronExponent + 6) =
        (c + 1) * 2 ^ (rung.apronExponent + 6) := by ring
    have hlow' : -2 ^ 2098 < (c + 1) * 2 ^ (rung.apronExponent + 6) := by
      rw [← hnext]
      exact hlow.trans (Int.lt_add_of_pos_right _ (pow_pos (by decide) _))
    rw [hnext] at hkey
    obtain ⟨hkey, hnan⟩ := hA.key_add_scaled hnan hkey hfar' hlow'
    refine ⟨hkey.trans ?_, hnan⟩
    rw [hUA]
    congr 1
    ring

theorem significand_render (hc : Fits32 c) :
    |64 * c - 1| < 2 ^ 53 ∧ |64 * c + 65| < 2 ^ 53 := by
  obtain ⟨h0, h1⟩ := hc
  exact ⟨abs_lt.mpr ⟨by omega, by omega⟩, abs_lt.mpr ⟨by omega, by omega⟩⟩

/-- A double is at or after the beginning of a tile with its apron. -/
theorem renderLo_le_iff (h : rung.InRange) (hc : Fits32 c) (hlow : -topUnits < c * cellUnits rung)
    (hup : c * cellUnits rung < topUnits) (hz : z.isFinite = true) :
    (renderLo rung c).le z = true ↔ c * cellUnits rung - apronUnits rung ≤ z.units := by
  obtain ⟨hkey, hnan⟩ := (key_render h hc hlow).1 hup
  have hsplit : (64 * c - 1) * 2 ^ rung.apronExponent =
      c * cellUnits rung - apronUnits rung := by
    rw [cellUnits_eq_mul h, apronUnits]
    ring
  rw [le_iff, hkey, roundKey_le_iff hz (significand_render hc).1, hsplit]
  simp only [hnan, isNaN_of_isFinite hz, true_and]

/-- A double is before the end of a tile with its apron. -/
theorem lt_renderHi_iff (h : rung.InRange) (hc : Fits32 c) (hlow : -topUnits < c * cellUnits rung)
    (hz : z.isFinite = true) : z.lt (renderHi rung c) = true ↔
      z.units < (c + 1) * cellUnits rung + apronUnits rung := by
  obtain ⟨hkey, hnan⟩ := (key_render h hc hlow).2
  have hsplit : (64 * c + 65) * 2 ^ rung.apronExponent =
      (c + 1) * cellUnits rung + apronUnits rung := by
    rw [cellUnits_eq_mul h, apronUnits]
    ring
  rw [lt_iff, hkey, ← not_le, roundKey_le_iff hz (significand_render hc).2, hsplit, not_le]
  simp only [hnan, isNaN_of_isFinite hz, true_and]

end Render

/-! ## Regions that are wider than two aprons -/

/-- An interval that two aprons do not use up, and whose first cell begins at a finite double. -/
structure AxisWide (rung : ScaleRung) (lo hi : Double) : Prop where
  /-- The shrunk interval is not empty. -/
  order : (lo + apronEdge rung).lt (hi - apronEdge rung) = true
  /-- Its first cell does not begin at an infinity. -/
  origin : cellUnits rung - topUnits ≤ (lo + apronEdge rung).units

section Wide

variable {rung : ScaleRung} {lo hi z : Double} {c : ℤ}

/-- The ends of a shrunk interval. -/
private theorem shrunk_bounds (h : rung.InRange) (hf : AxisFits rung lo hi)
    (hlt : (lo + apronEdge rung).lt (hi - apronEdge rung) = true) :
    ((lo + apronEdge rung).isFinite = true ∧ (hi - apronEdge rung).isFinite = true) ∧
      lo.units ≤ (lo + apronEdge rung).units ∧
      (lo + apronEdge rung).units < (hi - apronEdge rung).units ∧
      (hi - apronEdge rung).units ≤ hi.units := by
  have hA := powerOfTwo_apronEdge h
  have hpos := apronUnits_pos rung
  obtain ⟨-, -, hkey⟩ := lt_iff.mp hlt
  have hlow : lo.key ≤ (lo + apronEdge rung).key := by
    rw [(key_add hf.finite.1 hA.finite).1, hA.units]
    apply key_le_roundKey hf.finite.1 Nat.one_pos
    rw [Nat.cast_one, mul_one]
    exact (Int.lt_add_of_pos_right _ hpos).le
  have hhigh : (hi - apronEdge rung).key ≤ hi.key := by
    rw [(key_sub hf.finite.2 hA.finite).1, hA.units]
    apply roundKey_le_key hf.finite.2 Nat.one_pos
    rw [Nat.cast_one, mul_one]
    exact Int.sub_le_self _ hpos.le
  have hbl := isFinite_iff.mp hf.finite.1
  have hbh := isFinite_iff.mp hf.finite.2
  refine ⟨⟨isFinite_iff.mpr ⟨by omega, by omega⟩, isFinite_iff.mpr ⟨by omega, by omega⟩⟩,
    units_le_units_iff.mpr hlow, units_lt_units_iff.mpr hkey, units_le_units_iff.mpr hhigh⟩

/-- A shrunk interval fits when the interval does. -/
theorem AxisFits.shrunk (h : rung.InRange) (hf : AxisFits rung lo hi)
    (hlt : (lo + apronEdge rung).lt (hi - apronEdge rung) = true) :
    AxisFits rung (lo + apronEdge rung) (hi - apronEdge rung) := by
  have hA := powerOfTwo_apronEdge h
  obtain ⟨hfinite, hlow, -, hhigh⟩ := shrunk_bounds h hf hlt
  refine ⟨hfinite, hf.first.trans hlow, hhigh.trans hf.last, ?_, ?_⟩ <;> rw [cellUnits_eq h]
  · exact hA.far_of_add_neg hf.finite.1
  · exact hA.far_of_sub_pos hf.finite.2

/-- The cells from the first on do not begin at an infinity. -/
theorem near_of_first (h : rung.InRange) (hf : AxisFits rung lo hi) (hlt : lo.units < hi.units)
    (horigin : cellUnits rung - topUnits ≤ lo.units)
    (hc : (lo / cellEdge rung).floorInt ≤ c) : -topUnits < c * cellUnits rung := by
  have hpos := cellUnits_pos rung
  have hfirst := (hf.first_le_iff h (hf.indices h hlt).1).mp (Int.le_refl _)
  rw [Int.add_mul, one_mul] at hfirst
  have hle := Int.mul_le_mul_of_nonneg_right hc hpos.le
  omega

/-- The aproned rectangles of the cells that meet a shrunk interval contain the interval. -/
theorem AxisWide.exists_mem (h : rung.InRange) (hf : AxisFits rung lo hi)
    (hw : AxisWide rung lo hi) (hz : z.isFinite = true) (h0 : lo.units ≤ z.units)
    (h1 : z.units < hi.units) : ∃ c, (((lo + apronEdge rung) / cellEdge rung).floorInt ≤ c ∧
      c ≤ ((hi - apronEdge rung) / cellEdge rung).ceilInt - 1) ∧
        (renderLo rung c).le z = true ∧ z.lt (renderHi rung c) = true := by
  have hA := powerOfTwo_apronEdge h
  have hg := powerOfTwo_cellEdge h
  have hpos := cellUnits_pos rung
  have hapron := apronUnits_pos rung
  have hs := hf.shrunk h hw.order
  obtain ⟨hfinite, -, hlt, -⟩ := shrunk_bounds h hf hw.order
  obtain ⟨hfirst, hnext, hlast⟩ := hs.indices h hlt
  have hnear : ∀ {c}, ((lo + apronEdge rung) / cellEdge rung).floorInt ≤ c →
      -topUnits < c * cellUnits rung := near_of_first h hs hlt hw.origin
  have hroom : (hi - apronEdge rung).units < topUnits :=
    (abs_lt.mp (isFinite_iff_units.mp hfinite.2)).2
  have hbegin := hA.line_le_of_floorInt_add hg hf.finite.1 hfinite.1 hfirst.bound (Int.le_refl _)
  have hend := hA.le_line_of_ceilInt_sub hg hf.finite.2 hfinite.2 hnext.bound (Int.le_refl _)
  rw [← cellUnits_eq h] at hbegin hend
  -- a cell between the first and the last one, with what its apron reaches
  have hgive : ∀ {c}, ((lo + apronEdge rung) / cellEdge rung).floorInt ≤ c →
      c ≤ ((hi - apronEdge rung) / cellEdge rung).ceilInt - 1 →
      c * cellUnits rung - apronUnits rung ≤ z.units →
      z.units < (c + 1) * cellUnits rung + apronUnits rung → ∃ c,
        (((lo + apronEdge rung) / cellEdge rung).floorInt ≤ c ∧
          c ≤ ((hi - apronEdge rung) / cellEdge rung).ceilInt - 1) ∧
        (renderLo rung c).le z = true ∧ z.lt (renderHi rung c) = true := by
    intro c hge hle hbelow habove
    have hc : Fits32 c := ⟨hfirst.1.trans hge, hle.trans_lt hlast.2⟩
    have hup := ((hs.le_last_iff h hc).mp hle).trans hroom
    exact ⟨c, ⟨hge, hle⟩, (renderLo_le_iff h hc (hnear hge) hup hz).mpr hbelow,
      (lt_renderHi_iff h hc (hnear hge) hz).mpr habove⟩
  have hsome : ((lo + apronEdge rung) / cellEdge rung).floorInt ≤
      ((hi - apronEdge rung) / cellEdge rung).ceilInt - 1 :=
    (hs.le_last_iff h hfirst).mpr ((hs.first_line_le h hlt).trans_lt hlt)
  have hstep : ∀ k : ℤ, (k + 1) * cellUnits rung = k * cellUnits rung + cellUnits rung := by
    intro k
    ring
  rcases lt_or_ge z.units (((lo + apronEdge rung) / cellEdge rung).floorInt * cellUnits rung)
    with hbefore | hfrom
  · -- the double is in the apron before the first cell
    refine hgive (Int.le_refl _) hsome ?_ ?_
    · change _ ≤ lo.units + apronUnits rung at hbegin
      omega
    · rw [hstep]
      omega
  rcases lt_or_ge z.units (((hi - apronEdge rung) / cellEdge rung).ceilInt * cellUnits rung)
    with hupto | hafter
  · have hfloor := Int.ediv_mul_le z.units hpos.ne'
    have hceil := Int.lt_ediv_add_one_mul_self z.units hpos
    refine hgive (c := z.units / cellUnits rung) ((Int.le_ediv_iff_mul_le hpos).mpr hfrom)
      (Int.le_sub_one_of_lt ((Int.ediv_lt_iff_lt_mul hpos).mpr hupto)) ?_ ?_
    · omega
    · omega
  · -- the double is in the apron after the last cell
    refine hgive hsome (Int.le_refl _) ?_ ?_
    · rw [Int.sub_mul]
      omega
    · change _ - apronUnits rung ≤ _ at hend
      rw [Int.sub_add_cancel]
      omega

end Wide

/-! ## Regions around their centre -/

/-- The cell of the centre of an interval. -/
def centreCell (rung : ScaleRung) (lo hi : Double) : ℤ := (centre lo hi / cellEdge rung).floorInt

/-- An interval that the cell of its centre holds with its apron. -/
structure AxisCentred (rung : ScaleRung) (lo hi : Double) : Prop where
  /-- There is a least interval from the centre on. -/
  step : (centre lo hi).lt (centreEnd (centre lo hi)) = true
  /-- That interval has cells. -/
  fits : AxisFits rung (centre lo hi) (centreEnd (centre lo hi))
  /-- The interval does not begin before that cell and its apron. -/
  start : (renderLo rung (centreCell rung lo hi)).le lo = true
  /-- The interval does not end after them. -/
  stop : hi.le (renderHi rung (centreCell rung lo hi)) = true

section Centred

variable {rung : ScaleRung} {x : Double}

/-- A finite double is not moved down by a positive one. -/
private theorem key_le_add {o : Double} (hx : x.isFinite = true) (ho : o.isFinite = true)
    (hpos : 0 < o.units) : x.key ≤ (x + o).key ∧ (x + o).isNaN = false := by
  obtain ⟨hkey, hnan⟩ := key_add hx ho
  refine ⟨?_, hnan⟩
  rw [hkey]
  apply key_le_roundKey hx Nat.one_pos
  rw [Nat.cast_one, mul_one]
  exact (Int.lt_add_of_pos_right _ hpos).le

/-- The least interval from a number on has no double inside. -/
theorem key_centreEnd (hx : x.isFinite = true) (hstep : x.lt (centreEnd x) = true) :
    (centreEnd x).key = x.key + 1 := by
  obtain ⟨hle, hnan⟩ := key_le_add hx (by decide +kernel : (1 : Double).isFinite = true)
    (units_pos_iff.mpr (by decide +kernel))
  have hnanx := isNaN_of_isFinite hx
  rcases hle.lt_or_eq with hlt | heq
  · exact (key_nextafter (lt_iff.mpr ⟨hnanx, hnan, hlt⟩)).1
  · -- one more is not more, and there is no next double towards it
    have hbeq : x.beq (x + 1) = true := by
      rw [beq, hnanx, hnan, decide_eq_true heq]
      rfl
    have hend : centreEnd x = x + 1 := by
      rw [centreEnd, nextafter, hnanx, hnan, hbeq]
      simp only [Bool.or_self, Bool.false_eq_true, if_false, if_true]
    have hstep' := (lt_iff.mp hstep).2.2
    rw [hend] at hstep'
    exact absurd hstep' (not_lt.mpr heq.ge)

/-- The least interval from a number on meets one cell. -/
theorem ceilInt_centreEnd (h : rung.InRange) (hf : AxisFits rung x (centreEnd x))
    (hstep : x.lt (centreEnd x) = true) :
    (centreEnd x / cellEdge rung).ceilInt - 1 = (x / cellEdge rung).floorInt := by
  have hkey := key_centreEnd hf.finite.1 hstep
  have hlt : x.units < (centreEnd x).units := units_lt_units_iff.mpr (lt_iff.mp hstep).2.2
  obtain ⟨hfirst, hnext, hlast⟩ := hf.indices h hlt
  apply Int.le_antisymm
  · by_contra hgt
    have hfits : Fits32 ((x / cellEdge rung).floorInt + 1) :=
      ⟨by have := hfirst.1; omega, by have := hlast.2; omega⟩
    have hover := (hf.le_last_iff h hfits).mp (by omega)
    have hunder := (hf.first_le_iff h hfirst).mp (Int.le_refl _)
    have hbound := hfirst.significand.2.trans (by decide : (2 : ℤ) ^ 52 < 2 ^ 53)
    rw [cellUnits_eq h] at hover hunder
    rw [← not_le, ← roundKey_le_iff hf.finite.1 hbound] at hunder
    rw [← not_le, ← le_roundKey_iff hf.finite.2 hbound, hkey] at hover
    omega
  · exact (hf.le_last_iff h hfirst).mpr ((hf.first_line_le h hlt).trans_lt hlt)

/-- A region that meets one cell in each direction. -/
theorem tilesCovering_eq_singleton {region : DeviceRect} (hne : region.empty = false)
    {col row : ℤ} (hx : (region.x0 / cellEdge rung).floorInt = col ∧
      (region.x1 / cellEdge rung).ceilInt - 1 = col)
    (hy : (region.y0 / cellEdge rung).floorInt = row ∧
      (region.y1 / cellEdge rung).ceilInt - 1 = row) :
    tilesCovering rung region = [⟨col, row⟩] := by
  have hone : ∀ k : ℤ, indicesUpTo k k = [k] := by
    intro k
    rw [indicesUpTo, show (k + 1 - k).toNat = 1 by omega]
    simp
  rw [tilesCovering, hne, if_neg Bool.false_ne_true]
  dsimp only
  rw [hx.1, hx.2, hy.1, hy.2, hone, hone]
  rfl

end Centred

/-! ## The regions that are covered -/

/-- A region that is covered as a whole. -/
structure Wide (rung : ScaleRung) (region : DeviceRect) : Prop where
  /-- It is wide. -/
  x : AxisWide rung region.x0 region.x1
  /-- It is tall. -/
  y : AxisWide rung region.y0 region.y1

/-- A region that its centre covers. -/
structure Centred (rung : ScaleRung) (region : DeviceRect) : Prop where
  /-- It is not wide, or it is not tall. -/
  narrow : (shrunkRect rung region).empty = true
  /-- The tile at its centre is wide enough. -/
  x : AxisCentred rung region.x0 region.x1
  /-- The tile at its centre is tall enough. -/
  y : AxisCentred rung region.y0 region.y1

section Covered

variable {rung : ScaleRung} {region : DeviceRect}

theorem units_lt_of_not_empty (h : region.empty = false) :
    region.x0.units < region.x1.units ∧ region.y0.units < region.y1.units := by
  obtain ⟨hx, hy⟩ := DeviceRect.not_empty_iff.mp h
  exact ⟨units_lt_units_iff.mpr (lt_iff.mp hx).2.2, units_lt_units_iff.mpr (lt_iff.mp hy).2.2⟩

/-- The cover of a region whose cells fit. -/
theorem tilesCovering?_eq (h : rung.InRange) (hne : region.empty = false)
    (hx : AxisFits rung region.x0 region.x1) (hy : AxisFits rung region.y0 region.y1) :
    tilesCovering? rung region = some (tilesCovering rung region) := by
  obtain ⟨hltx, hlty⟩ := units_lt_of_not_empty hne
  rw [tilesCovering?, hne, hx.casts h hltx, hy.casts h hlty]
  rfl

/-- The cover of a region whose cells fit has the cells that meet the region. -/
theorem mem_tilesCovering_iff (h : rung.InRange) (hne : region.empty = false)
    (hx : AxisFits rung region.x0 region.x1) (hy : AxisFits rung region.y0 region.y1)
    {c : TileCoord} (hc : c.Fits) : c ∈ tilesCovering rung region ↔ CellMeets rung c region := by
  rw [mem_tilesCovering hne, hx.first_le_iff h hc.1, hx.le_last_iff h hc.1,
    hy.first_le_iff h hc.2, hy.le_last_iff h hc.2, CellMeets, AxisMeets, AxisMeets, hne]
  tauto

/-- A point of a finite region is finite. -/
private theorem isFinite_of_between {lo hi z : Double} (hlo : lo.isFinite = true)
    (hhi : hi.isFinite = true) (h0 : lo.le z = true) (h1 : z.lt hi = true) :
    z.isFinite = true ∧ lo.units ≤ z.units ∧ z.units < hi.units := by
  obtain ⟨-, -, hle⟩ := le_iff.mp h0
  obtain ⟨-, -, hlt⟩ := lt_iff.mp h1
  have hb0 := isFinite_iff.mp hlo
  have hb1 := isFinite_iff.mp hhi
  exact ⟨isFinite_iff.mpr ⟨by omega, by omega⟩, units_le_units_iff.mpr hle,
    units_lt_units_iff.mpr hlt⟩

/-- A wide region is filled. -/
private theorem fill_of_wide (h : rung.InRange) (hne : region.empty = false)
    (hx : AxisFits rung region.x0 region.x1) (hy : AxisFits rung region.y0 region.y1)
    (hw : Wide rung region) : ∃ tiles, tilesCoveringRender? rung region = some tiles ∧
      ∀ x y, region.Holds x y → ∃ c ∈ tiles, (tileRenderRect rung c).Holds x y := by
  have hs : (shrunkRect rung region).empty = false :=
    DeviceRect.not_empty_iff.mpr ⟨hw.x.order, hw.y.order⟩
  refine ⟨tilesCovering rung (shrunkRect rung region), ?_, ?_⟩
  · rw [tilesCoveringRender?, hne, hs, if_neg Bool.false_ne_true, if_pos (by rfl)]
    exact tilesCovering?_eq h hs (hx.shrunk h hw.x.order) (hy.shrunk h hw.y.order)
  · rintro x y ⟨⟨hx0, hx1⟩, hy0, hy1⟩
    obtain ⟨hfx, hux0, hux1⟩ := isFinite_of_between hx.finite.1 hx.finite.2 hx0 hx1
    obtain ⟨hfy, huy0, huy1⟩ := isFinite_of_between hy.finite.1 hy.finite.2 hy0 hy1
    obtain ⟨col, hcol, hcolLo, hcolHi⟩ := hw.x.exists_mem h hx hfx hux0 hux1
    obtain ⟨row, hrow, hrowLo, hrowHi⟩ := hw.y.exists_mem h hy hfy huy0 huy1
    exact ⟨⟨col, row⟩, (mem_tilesCovering hs).mpr ⟨hcol, hrow⟩,
      ⟨hcolLo, hcolHi⟩, hrowLo, hrowHi⟩

/-- The cover of a region that is not wide. -/
private theorem tilesCoveringRender?_of_centre (h : rung.InRange) (hne : region.empty = false)
    (hw : Centred rung region) : tilesCoveringRender? rung region =
      some [⟨centreCell rung region.x0 region.x1, centreCell rung region.y0 region.y1⟩] := by
  have hc : (centreRect region).empty = false :=
    DeviceRect.not_empty_iff.mpr ⟨hw.x.step, hw.y.step⟩
  rw [tilesCoveringRender?, hne, hw.narrow, if_neg Bool.false_ne_true, if_neg (by decide),
    tilesCovering?_eq h hc hw.x.fits hw.y.fits]
  exact congrArg some (tilesCovering_eq_singleton hc
    ⟨rfl, ceilInt_centreEnd h hw.x.fits hw.x.step⟩
    ⟨rfl, ceilInt_centreEnd h hw.y.fits hw.y.step⟩)

/-- A region that the tile of its centre holds is filled. -/
private theorem fill_of_centred (h : rung.InRange) (hne : region.empty = false)
    (hw : Centred rung region) : ∃ tiles, tilesCoveringRender? rung region = some tiles ∧
      ∀ x y, region.Holds x y → ∃ c ∈ tiles, (tileRenderRect rung c).Holds x y := by
  refine ⟨_, tilesCoveringRender?_of_centre h hne hw, ?_⟩
  rintro x y ⟨⟨hx0, hx1⟩, hy0, hy1⟩
  have hbefore : ∀ {a b c : Double}, a.lt b = true → b.le c = true → a.lt c = true := by
    intro a b c hab hbc
    obtain ⟨ha, -, hlt⟩ := lt_iff.mp hab
    obtain ⟨-, hc, hle⟩ := le_iff.mp hbc
    exact lt_iff.mpr ⟨ha, hc, by omega⟩
  exact ⟨_, List.mem_singleton_self _, ⟨Double.le_trans hw.x.start hx0, hbefore hx1 hw.x.stop⟩,
    Double.le_trans hw.y.start hy0, hbefore hy1 hw.y.stop⟩

/-- A tile whose aproned rectangle is finite is not far away. -/
theorem near_of_renderLo {c : ℤ} (h : rung.InRange) (hc : Fits32 c)
    (hfinite : (renderLo rung c).isFinite = true) :
    -topUnits < c * cellUnits rung ∧ c * cellUnits rung < topUnits := by
  have hg := powerOfTwo_cellEdge h
  have hA := powerOfTwo_apronEdge h
  have hbound := hc.significand.1.trans (by decide : (2 : ℤ) ^ 52 < 2 ^ 53)
  obtain ⟨hkey, hnan⟩ := hg.key_line hbound
  have hline : (ofInt c * cellEdge rung).isFinite = true := by
    by_contra hinf
    have hsame : renderLo rung c = ofInt c * cellEdge rung :=
      add_of_not_isFinite hnan hinf ((isFinite_neg _).trans hA.finite)
    exact hinf (hsame ▸ hfinite)
  have hunits := PowerOfTwo.units_of_key_scaled hline hbound hkey
  have hroom := abs_lt.mp (isFinite_iff_units.mp hline)
  rw [hunits, ← cellUnits_eq h] at hroom
  exact hroom

/-- The aproned side of a tile is shrunk to the side of its cell. -/
private theorem own_axis {c : ℤ} (h : rung.InRange) (hc : Fits32 c)
    (hf : AxisFits rung (renderLo rung c) (renderHi rung c)) :
    (renderLo rung c + apronEdge rung).lt (renderHi rung c - apronEdge rung) = true ∧
      ((renderLo rung c + apronEdge rung) / cellEdge rung).floorInt = c ∧
      ((renderHi rung c - apronEdge rung) / cellEdge rung).ceilInt - 1 = c := by
  have hg := powerOfTwo_cellEdge h
  have hA := powerOfTwo_apronEdge h
  have hpos := cellUnits_pos rung
  have hapron := apronUnits_pos rung
  obtain ⟨hlow, hup⟩ := near_of_renderLo h hc hf.finite.1
  obtain ⟨hkeyLo, hkeyHi, -⟩ := key_render h hc hlow
  have hsigs := significand_render hc
  have hunitsLo := PowerOfTwo.units_of_key_scaled hf.finite.1 hsigs.1 (hkeyLo hup).1
  have hunitsHi := PowerOfTwo.units_of_key_scaled hf.finite.2 hsigs.2 hkeyHi
  have hbound := hc.significand.1.trans (by decide : (2 : ℤ) ^ 52 < 2 ^ 53)
  have hbound' := hc.significand.2.trans (by decide : (2 : ℤ) ^ 52 < 2 ^ 53)
  have hline : ∀ k : ℤ, k * 2 ^ (rung.apronExponent + 6) = 64 * k * 2 ^ rung.apronExponent := by
    intro k
    rw [pow_add]
    ring
  -- the shrunk side begins at the line of the cell
  have hkey0 : (renderLo rung c + apronEdge rung).key =
      roundKey (c * 2 ^ (rung.apronExponent + 6)) 1 := by
    rw [(key_add hf.finite.1 hA.finite).1, hunitsLo, hA.units, hline]
    congr 1
    ring
  have hfinite0 : (renderLo rung c + apronEdge rung).isFinite = true := by
    apply PowerOfTwo.isFinite_of_key_scaled hbound hkey0
    rw [← cellUnits_eq h]
    exact abs_lt.mpr ⟨hlow, hup⟩
  have hunits0 := PowerOfTwo.units_of_key_scaled hfinite0 hbound hkey0
  -- and it ends at the next line
  have hkey1 : (renderHi rung c - apronEdge rung).key =
      roundKey ((c + 1) * 2 ^ (rung.apronExponent + 6)) 1 := by
    rw [(key_sub hf.finite.2 hA.finite).1, hunitsHi, hA.units, hline]
    congr 1
    ring
  have hroom : (renderHi rung c).units < topUnits :=
    (abs_lt.mp (isFinite_iff_units.mp hf.finite.2)).2
  have hsplit : (64 * c + 65) * 2 ^ rung.apronExponent =
      (c + 1) * cellUnits rung + apronUnits rung := by
    rw [cellUnits_eq_mul h, apronUnits]
    ring
  have hnext : (c + 1) * cellUnits rung = c * cellUnits rung + cellUnits rung := by ring
  rw [hsplit] at hunitsHi
  have hfinite1 : (renderHi rung c - apronEdge rung).isFinite = true := by
    apply PowerOfTwo.isFinite_of_key_scaled hbound' hkey1
    rw [← cellUnits_eq h]
    have hmid : -topUnits < (c + 1) * cellUnits rung ∧ (c + 1) * cellUnits rung < topUnits := by
      clear hsigs hbound hbound'
      omega
    exact abs_lt.mpr hmid
  have hunits1 := PowerOfTwo.units_of_key_scaled hfinite1 hbound' hkey1
  rw [← cellUnits_eq h] at hunits0 hunits1
  have horder : (renderLo rung c + apronEdge rung).lt (renderHi rung c - apronEdge rung) =
      true := by
    refine lt_iff.mpr ⟨isNaN_of_isFinite hfinite0, isNaN_of_isFinite hfinite1, ?_⟩
    rw [← units_lt_units_iff, hunits0, hunits1, hnext]
    exact Int.lt_add_of_pos_right _ hpos
  have hs := hf.shrunk h horder
  refine ⟨horder, Int.le_antisymm ?_ ?_, Int.le_antisymm ?_ ?_⟩
  · apply (hs.first_le_iff h hc).mpr
    rw [hunits0, hnext]
    exact Int.lt_add_of_pos_right _ hpos
  · apply hg.le_floorInt_div hfinite0 hbound
    rw [← cellUnits_eq h]
    exact hunits0.ge
  · refine Int.sub_right_le_of_le_add (hg.ceilInt_div_le hfinite1 hbound' ?_)
    rw [← cellUnits_eq h]
    exact hunits1.le
  · apply (hs.le_last_iff h hc).mpr
    rw [hunits1, hnext]
    exact Int.lt_add_of_pos_right _ hpos

/-- The aproned rectangle of a tile is covered by that tile alone. -/
private theorem own_of_fits (h : rung.InRange) (hne : region.empty = false)
    (hx : AxisFits rung region.x0 region.x1) (hy : AxisFits rung region.y0 region.y1)
    {c : TileCoord} (hc : c.Fits) (hown : region = tileRenderRect rung c) :
    tilesCoveringRender? rung region = some [c] := by
  rw [tileRenderRect_eq] at hown
  subst hown
  obtain ⟨horderx, hfirstx, hlastx⟩ := own_axis h hc.1 hx
  obtain ⟨hordery, hfirsty, hlasty⟩ := own_axis h hc.2 hy
  have hs : (shrunkRect rung ⟨renderLo rung c.col, renderLo rung c.row, renderHi rung c.col,
      renderHi rung c.row⟩).empty = false := DeviceRect.not_empty_iff.mpr ⟨horderx, hordery⟩
  rw [tilesCoveringRender?, hne, hs, if_neg Bool.false_ne_true, if_pos (by rfl),
    tilesCovering?_eq h hs (hx.shrunk h horderx) (hy.shrunk h hordery)]
  exact congrArg some (tilesCovering_eq_singleton hs ⟨hfirstx, hlastx⟩ ⟨hfirsty, hlasty⟩)

end Covered

/-! ## What covers give away -/

section Forced

variable {rung : ScaleRung} {region : DeviceRect} {lo hi : Double}

theorem cellEdge_of_large (h : 1024 ≤ rung.index) : cellEdge rung = 0 := by
  rw [cellEdge, rungScale, if_pos h]
  decide +kernel

/-- The cells of the smallest rungs have no finite edge. -/
theorem not_isFinite_cellEdge (h : rung.index ≤ -1016) : (cellEdge rung).isFinite = false := by
  rcases lt_or_ge rung.index (-1074) with hlt | hge
  · rw [cellEdge, rungScale, if_neg (by omega), if_pos hlt]
    decide +kernel
  · have hkey := @key_div_rungScale rung ⟨hge, by omega⟩ 8 (by decide)
    rw [roundKey_of_overflow Nat.one_pos (by
      rw [Nat.cast_one, mul_one]
      exact pow_le_pow_right₀ (by decide) (by omega))] at hkey
    rw [← Bool.not_eq_true, cellEdge, show tileSize = 2 ^ 8 from rfl, isFinite_iff, hkey]
    omega

/-- The cell of the beginning of an interval meets it. -/
theorem axisMeets_of_lt (hlt : lo.units < hi.units) :
    AxisMeets rung (lo.units / cellUnits rung) lo hi :=
  ⟨(Int.ediv_mul_le _ (cellUnits_pos rung).ne').trans_lt hlt,
    Int.lt_ediv_add_one_mul_self _ (cellUnits_pos rung)⟩

/-- The index of a cell fits when the cell is between those that fit. -/
theorem fits32_ediv {z : ℤ} (h0 : -2 ^ 31 * cellUnits rung ≤ z)
    (h1 : z < (2 ^ 31 - 1) * cellUnits rung) : Fits32 (z / cellUnits rung) := by
  have hpos := cellUnits_pos rung
  refine ⟨(Int.le_ediv_iff_mul_le hpos).mpr h0, ?_⟩
  have hup := (Int.ediv_lt_iff_lt_mul hpos).mpr h1
  omega

/-- The cells of a cover are the ones that its quotients give, and these have their types. -/
theorem casts_of_cover {tiles : List TileCoord} (hne : region.empty = false)
    (hsome : tilesCovering? rung region = some tiles) : tiles = tilesCovering rung region ∧
      axisCasts rung region.x0 region.x1 = true ∧ axisCasts rung region.y0 region.y1 = true := by
  rw [tilesCovering?, hne, if_neg Bool.false_ne_true] at hsome
  split at hsome
  case isTrue hcasts =>
    exact ⟨(Option.some.inj hsome).symm, (Bool.and_eq_true _ _).mp hcasts⟩
  case isFalse => cases hsome

/-- An interval, on a rung whose cells have no finite edge. -/
private theorem small_of_casts (h : rung.index ≤ -1016) (hcasts : axisCasts rung lo hi = true) :
    Fits32 (lo.units / cellUnits rung) ∧ (lo / cellEdge rung).floorInt = 0 ∧
      (hi / cellEdge rung).ceilInt = 0 := by
  simp only [axisCasts, Bool.and_eq_true] at hcasts
  have hinf := not_isFinite_cellEdge h
  obtain ⟨hfinite, hfirst, -⟩ := floorInt_div_of_not_isFinite hinf hcasts.1.1
  obtain ⟨-, -, hlast⟩ := floorInt_div_of_not_isFinite hinf hcasts.2.1.1
  have hbig : topUnits ≤ cellUnits rung := pow_le_pow_right₀ (by decide) (by omega)
  have hb := abs_lt.mp (isFinite_iff_units.mp hfinite)
  change -topUnits < lo.units ∧ lo.units < topUnits at hb
  exact ⟨fits32_ediv (by omega) (by omega), hfirst, hlast⟩

/-- The cells of a cover have indices that fit, on a rung whose cells have a finite edge. -/
theorem fits_of_mem_cover {tiles : List TileCoord} {c : TileCoord}
    (hsome : tilesCovering? rung region = some tiles) (hmem : c ∈ tiles) :
    rung.InRange ∧ c.Fits := by
  have hne : region.empty = false := by
    rw [← Bool.not_eq_true]
    intro hempty
    rw [tilesCovering?, if_pos hempty] at hsome
    rw [← Option.some.inj hsome] at hmem
    cases hmem
  obtain ⟨rfl, hx, hy⟩ := casts_of_cover hne hsome
  obtain ⟨⟨hx0, hx1⟩, hy0, hy1⟩ := (mem_tilesCovering hne).mp hmem
  refine ⟨⟨?_, ?_⟩, ?_⟩
  · by_contra hsmall
    obtain ⟨-, hfirst, hlast⟩ := small_of_casts (by omega) hx
    omega
  · by_contra hlarge
    simp only [axisCasts, cellEdge_of_large (show 1024 ≤ rung.index by omega), isFinite_div_zero,
      Bool.false_and, Bool.false_eq_true] at hx
  · simp only [axisCasts, Bool.and_eq_true, decide_eq_true_iff] at hx hy
    exact ⟨⟨hx.1.2.1.trans hx0, hx1.trans_lt hx.2.2.2⟩, hy.1.2.1.trans hy0, hy1.trans_lt hy.2.2.2⟩

/-- A region whose cells are covered is on a rung whose cells have a finite edge. -/
theorem inRange_of_cover (hne : region.empty = false)
    (hcasts : axisCasts rung region.x0 region.x1 = true ∧
      axisCasts rung region.y0 region.y1 = true)
    (hmem : ∀ c : TileCoord, c.Fits → CellMeets rung c region →
      c ∈ tilesCovering rung region) : rung.InRange := by
  obtain ⟨hltx, hlty⟩ := units_lt_of_not_empty hne
  constructor
  · -- the quotients vanish, but a cell meets the region at its origin
    by_contra hsmall
    obtain ⟨hfitx, hfirst, hlast⟩ := small_of_casts (by omega) hcasts.1
    obtain ⟨hfity, -, -⟩ := small_of_casts (by omega) hcasts.2
    have hin := hmem ⟨_, _⟩ ⟨hfitx, hfity⟩ ⟨hne, axisMeets_of_lt hltx, axisMeets_of_lt hlty⟩
    obtain ⟨⟨hge, hle⟩, -⟩ := (mem_tilesCovering hne).mp hin
    rw [hfirst] at hge
    rw [hlast] at hle
    omega
  · by_contra hlarge
    have hfinite := hcasts.1
    simp only [axisCasts, cellEdge_of_large (show 1024 ≤ rung.index by omega), isFinite_div_zero,
      Bool.false_and, Bool.false_eq_true] at hfinite

/-- An interval whose cells are covered does not vanish when it is divided. -/
theorem axisFits_of_cells (h : rung.InRange) (hcasts : axisCasts rung lo hi = true)
    (hlt : lo.units < hi.units) (hmem : ∀ c, Fits32 c → AxisMeets rung c lo hi →
      (lo / cellEdge rung).floorInt ≤ c ∧ c ≤ (hi / cellEdge rung).ceilInt - 1) :
    AxisFits rung lo hi := by
  have hg := powerOfTwo_cellEdge h
  have hpos := cellUnits_pos rung
  obtain ⟨hfinite, hfirst, hlast⟩ := bounds_of_casts h hcasts
  refine ⟨hfinite, hfirst, hlast, fun hneg => ?_, fun hgt => ?_⟩ <;> by_contra hsmall
  · -- the cell of the beginning is before zero, where the first cell is
    have hzero := (hg.floorInt_div_of_small hfinite.1 (by
      rw [abs_of_neg hneg, ← cellUnits_eq h]
      exact not_lt.mp hsmall)).1
    have hin := (hmem _ (fits32_ediv hfirst (hlt.trans_le hlast)) (axisMeets_of_lt hlt)).1
    rw [hzero] at hin
    exact absurd hneg (not_lt.mpr ((Int.le_ediv_iff_mul_le hpos).mp hin |>.trans' (by omega)))
  · -- the cell before the end is not before zero, where the last cell is
    have hzero := (hg.floorInt_div_of_small hfinite.2 (by
      rw [abs_of_pos hgt, ← cellUnits_eq h]
      exact not_lt.mp hsmall)).2
    have hmeets : AxisMeets rung ((hi.units - 1) / cellUnits rung) lo hi :=
      ⟨(Int.ediv_mul_le _ hpos.ne').trans_lt (by omega),
        (Int.le_sub_one_of_lt hlt).trans_lt (Int.lt_ediv_add_one_mul_self _ hpos)⟩
    have hin := (hmem _ (fits32_ediv (hfirst.trans (by omega)) (by omega)) hmeets).2
    rw [hzero] at hin
    have hge : 0 ≤ (hi.units - 1) / cellUnits rung := Int.ediv_nonneg (by omega) hpos.le
    omega

/-- A region whose cells are covered fits in both directions. -/
theorem fits_of_cover (hne : region.empty = false)
    (hcasts : axisCasts rung region.x0 region.x1 = true ∧
      axisCasts rung region.y0 region.y1 = true)
    (hmem : ∀ c : TileCoord, c.Fits → CellMeets rung c region →
      c ∈ tilesCovering rung region) : rung.InRange ∧
        AxisFits rung region.x0 region.x1 ∧ AxisFits rung region.y0 region.y1 := by
  have h := inRange_of_cover hne hcasts hmem
  obtain ⟨hltx, hlty⟩ := units_lt_of_not_empty hne
  obtain ⟨-, hfirstx, hlastx⟩ := bounds_of_casts h hcasts.1
  obtain ⟨-, hfirsty, hlasty⟩ := bounds_of_casts h hcasts.2
  refine ⟨h, axisFits_of_cells h hcasts.1 hltx fun c hc hmeets => ?_,
    axisFits_of_cells h hcasts.2 hlty fun c hc hmeets => ?_⟩
  · have hin := hmem ⟨c, region.y0.units / cellUnits rung⟩
      ⟨hc, fits32_ediv hfirsty (hlty.trans_le hlasty)⟩ ⟨hne, hmeets, axisMeets_of_lt hlty⟩
    exact ((mem_tilesCovering hne).mp hin).1
  · have hin := hmem ⟨region.x0.units / cellUnits rung, c⟩
      ⟨fits32_ediv hfirstx (hltx.trans_le hlastx), hc⟩ ⟨hne, axisMeets_of_lt hltx, hmeets⟩
    exact ((mem_tilesCovering hne).mp hin).2

/-- A tile that holds a double does not begin at an infinity. -/
theorem near_of_held {c : ℤ} {z : Double} (h : rung.InRange) (hc : Fits32 c)
    (hheld : z.lt (renderHi rung c) = true) (hz : z.isFinite = true) :
    cellUnits rung - topUnits ≤ c * cellUnits rung := by
  have hg := powerOfTwo_cellEdge h
  have hpos := cellUnits_pos rung
  by_contra hfar
  -- its first line is a multiple of the edge, and so it is at the infinity or before it
  have hsplit : topUnits = 2 ^ (2098 - (rung.apronExponent + 6)) * cellUnits rung := by
    have hrange := h.1
    rw [cellUnits_eq h, topUnits, ← pow_add]
    congr 1
    rw [ScaleRung.apronExponent]
    omega
  generalize (2 : ℤ) ^ (2098 - (rung.apronExponent + 6)) = q at hsplit
  have hline : topUnits ≤ -c * cellUnits rung := by
    have hlt : (c - 1 + q) * cellUnits rung < 0 := by
      rw [Int.add_mul, Int.sub_mul, one_mul, ← hsplit]
      omega
    have hneg : c - 1 + q < 0 := Int.not_le.mp fun hge =>
      absurd hlt (not_lt.mpr (Int.mul_nonneg hge hpos.le))
    rw [hsplit]
    exact Int.mul_le_mul_of_nonneg_right (by omega) hpos.le
  obtain ⟨hkey, hnan⟩ := hg.key_line (hc.significand.1.trans (by decide : (2 : ℤ) ^ 52 < 2 ^ 53))
  have hend : roundKey (c * 2 ^ (rung.apronExponent + 6)) 1 = -infinityBits := by
    rw [← Int.neg_neg c, Int.neg_mul, roundKey_neg, roundKey_of_overflow Nat.one_pos]
    rw [Nat.cast_one, mul_one, ← cellUnits_eq h]
    exact hline
  rw [hend] at hkey
  have hinf : ¬ (ofInt c * cellEdge rung).isFinite = true := by
    rw [isFinite_iff, hkey]
    exact fun hb => lt_irrefl _ hb.1
  have hsame : renderHi rung c = ofInt c * cellEdge rung := by
    rw [renderHi, add_of_not_isFinite hnan hinf hg.finite,
      add_of_not_isFinite hnan hinf (powerOfTwo_apronEdge h).finite]
  obtain ⟨-, -, hlt⟩ := lt_iff.mp hheld
  rw [hsame, hkey] at hlt
  exact lt_irrefl _ (hlt.trans (isFinite_iff.mp hz).1)

/-- An interval that a tile holds begins in the cells that do not begin at an infinity. -/
theorem origin_of_held {c : ℤ} (h : rung.InRange) (hf : AxisFits rung lo hi) (hc : Fits32 c)
    (hsum : (lo + apronEdge rung).isFinite = true) (hup : c * cellUnits rung < topUnits)
    (hstart : (renderLo rung c).le lo = true) (hstop : lo.lt (renderHi rung c) = true) :
    cellUnits rung - topUnits ≤ (lo + apronEdge rung).units := by
  have hA := powerOfTwo_apronEdge h
  have hpos := cellUnits_pos rung
  have hnear := near_of_held h hc hstop hf.finite.1
  have hlow : -topUnits < c * cellUnits rung := by omega
  have hbelow := (renderLo_le_iff h hc hlow hup hf.finite.1).mp hstart
  refine hnear.trans ?_
  have hbound := hc.significand.1.trans (by decide : (2 : ℤ) ^ 52 < 2 ^ 53)
  rw [cellUnits_eq h, ← roundKey_le_iff hsum hbound, (key_add hf.finite.1 hA.finite).1, hA.units]
  apply roundKey_mono Nat.one_pos Nat.one_pos
  rw [← cellUnits_eq h, Nat.cast_one, mul_one, mul_one]
  change _ ≤ lo.units + apronUnits rung
  omega

/-- A tile of a cover, whose cells fit. -/
theorem bounds_of_mem {tile : TileCoord} (h : rung.InRange) (hne : region.empty = false)
    (hx : AxisFits rung region.x0 region.x1) (hy : AxisFits rung region.y0 region.y1)
    (hmem : tile ∈ tilesCovering rung region) : tile.Fits ∧
      tile.col * cellUnits rung < topUnits ∧ tile.row * cellUnits rung < topUnits := by
  obtain ⟨hltx, hlty⟩ := units_lt_of_not_empty hne
  obtain ⟨⟨hx0, hx1⟩, hy0, hy1⟩ := (mem_tilesCovering hne).mp hmem
  have hroom : ∀ {v : Double}, v.isFinite = true → v.units < topUnits := fun hv =>
    (abs_lt.mp (isFinite_iff_units.mp hv)).2
  obtain ⟨hfx, -, hlx⟩ := hx.indices h hltx
  obtain ⟨hfy, -, hly⟩ := hy.indices h hlty
  have hc : tile.Fits :=
    ⟨⟨hfx.1.trans hx0, hx1.trans_lt hlx.2⟩, hfy.1.trans hy0, hy1.trans_lt hly.2⟩
  exact ⟨hc, ((hx.le_last_iff h hc.1).mp hx1).trans (hroom hx.finite.2),
    ((hy.le_last_iff h hc.2).mp hy1).trans (hroom hy.finite.2)⟩

/-- The point at the origin of a region. -/
theorem holds_origin (hne : region.empty = false) : region.Holds region.x0 region.y0 := by
  obtain ⟨hx, hy⟩ := DeviceRect.not_empty_iff.mp hne
  exact ⟨⟨Double.le_refl (lt_iff.mp hx).1, hx⟩, Double.le_refl (lt_iff.mp hy).1, hy⟩

/-- A region that is filled and that shrinks to something is wide. -/
theorem wide_of_fill {tiles : List TileCoord} (h : rung.InRange) (hne : region.empty = false)
    (hx : AxisFits rung region.x0 region.x1) (hy : AxisFits rung region.y0 region.y1)
    (hs : (shrunkRect rung region).empty = false)
    (hsome : tilesCovering? rung (shrunkRect rung region) = some tiles)
    (hfill : ∀ x y, region.Holds x y → ∃ c ∈ tiles, (tileRenderRect rung c).Holds x y) :
    Wide rung region := by
  obtain ⟨hsx, hsy⟩ := DeviceRect.not_empty_iff.mp hs
  obtain ⟨rfl, -, -⟩ := casts_of_cover hs hsome
  have hfx := hx.shrunk h hsx
  have hfy := hy.shrunk h hsy
  obtain ⟨c, hmem, ⟨hx0, hx1⟩, hy0, hy1⟩ := hfill _ _ (holds_origin hne)
  obtain ⟨hc, hupx, hupy⟩ := bounds_of_mem h hs hfx hfy hmem
  exact ⟨⟨hsx, origin_of_held h hx hc.1 hfx.finite.1 hupx hx0 hx1⟩,
    ⟨hsy, origin_of_held h hy hc.2 hfy.finite.1 hupy hy0 hy1⟩⟩

/-- A least interval that has a cell does not vanish when it is divided. -/
theorem axisFits_of_step {x : Double} (h : rung.InRange)
    (hcasts : axisCasts rung x (centreEnd x) = true) (hstep : x.lt (centreEnd x) = true)
    (hsome : (x / cellEdge rung).floorInt ≤ (centreEnd x / cellEdge rung).ceilInt - 1) :
    AxisFits rung x (centreEnd x) := by
  have hg := powerOfTwo_cellEdge h
  obtain ⟨hfinite, hfirst, hlast⟩ := bounds_of_casts h hcasts
  have hkey := key_centreEnd hfinite.1 hstep
  refine ⟨hfinite, hfirst, hlast, fun hneg => ?_, fun hgt => ?_⟩ <;> by_contra hsmall
  · -- the end is not after zero, where the first cell begins
    have hzero := (hg.floorInt_div_of_small hfinite.1 (by
      rw [abs_of_neg hneg, ← cellUnits_eq h]
      exact not_lt.mp hsmall)).1
    have hend : (centreEnd x).units ≤ 0 := by
      rw [units_nonpos_iff, hkey]
      have hbefore := (not_iff_not.mpr (units_nonneg_iff (x := x))).mp (not_le.mpr hneg)
      omega
    have hceil := hg.ceilInt_div_le (c := 0) hfinite.2 (by decide) (by rwa [Int.zero_mul])
    omega
  · -- the beginning is not before zero, where the last cell ends
    have hzero := (hg.floorInt_div_of_small hfinite.2 (by
      rw [abs_of_pos hgt, ← cellUnits_eq h]
      exact not_lt.mp hsmall)).2
    have hbegin : 0 ≤ x.units := by
      rw [units_nonneg_iff]
      rw [units_pos_iff, hkey] at hgt
      omega
    have hfloor := hg.le_floorInt_div (c := 0) hfinite.1 (by decide) (by rwa [Int.zero_mul])
    omega

/-- A number before another one, with no double between them. -/
theorem exists_before {a b : Double} (h : a.lt b = true) :
    ∃ v : Double, a.le v = true ∧ v.lt b = true ∧ b.key = v.key + 1 := by
  obtain ⟨ha, hb, hlt⟩ := lt_iff.mp h
  have hba := key_bounds ha
  have hbb := key_bounds hb
  obtain ⟨v, hv, hkey⟩ := exists_key (k := b.key - 1) (by omega) (by omega)
  exact ⟨v, le_iff.mpr ⟨ha, hv, by omega⟩, lt_iff.mpr ⟨hv, hb, by omega⟩, by omega⟩

/-- A region that is filled and that shrinks to nothing is held by the tile of its centre. -/
theorem centred_of_fill {tiles : List TileCoord} (h : rung.InRange) (hne : region.empty = false)
    (hs : (shrunkRect rung region).empty = true)
    (hsome : tilesCovering? rung (centreRect region) = some tiles)
    (hfill : ∀ x y, region.Holds x y → ∃ c ∈ tiles, (tileRenderRect rung c).Holds x y) :
    Centred rung region := by
  have horigin := holds_origin hne
  have hc : (centreRect region).empty = false := by
    rw [← Bool.not_eq_true]
    intro hempty
    rw [tilesCovering?, hempty, if_pos rfl] at hsome
    obtain ⟨c, hmem, -⟩ := hfill _ _ horigin
    rw [← Option.some.inj hsome] at hmem
    cases hmem
  obtain ⟨hstepx, hstepy⟩ := DeviceRect.not_empty_iff.mp hc
  obtain ⟨rfl, hcastsx, hcastsy⟩ := casts_of_cover hc hsome
  obtain ⟨c, hmem, -⟩ := hfill _ _ horigin
  obtain ⟨⟨hx0, hx1⟩, hy0, hy1⟩ := (mem_tilesCovering hc).mp hmem
  have hfx := axisFits_of_step h hcastsx hstepx (hx0.trans hx1)
  have hfy := axisFits_of_step h hcastsy hstepy (hy0.trans hy1)
  have hone : tilesCovering rung (centreRect region) =
      [⟨centreCell rung region.x0 region.x1, centreCell rung region.y0 region.y1⟩] :=
    tilesCovering_eq_singleton hc ⟨rfl, ceilInt_centreEnd h hfx hstepx⟩
      ⟨rfl, ceilInt_centreEnd h hfy hstepy⟩
  -- every point of the region is in that one tile, and so are the last ones
  have hheld : ∀ x y, region.Holds x y → (tileRenderRect rung
      ⟨centreCell rung region.x0 region.x1, centreCell rung region.y0 region.y1⟩).Holds x y := by
    intro x y hxy
    obtain ⟨c, hmem, hin⟩ := hfill x y hxy
    rw [hone, List.mem_singleton] at hmem
    rwa [hmem] at hin
  have hafter : ∀ {v b e : Double}, v.lt e = true → b.isNaN = false → b.key = v.key + 1 →
      b.le e = true := by
    intro v b e hlt hb hkey
    obtain ⟨-, he, hlt⟩ := lt_iff.mp hlt
    exact le_iff.mpr ⟨hb, he, by omega⟩
  obtain ⟨⟨hx, hxx⟩, hy, hyy⟩ := horigin
  obtain ⟨v, hv0, hv1, hv⟩ := exists_before hxx
  obtain ⟨w, hw0, hw1, hw⟩ := exists_before hyy
  obtain ⟨⟨hstartx, -⟩, hstarty, -⟩ := hheld _ _ ⟨⟨hx, hxx⟩, hy, hyy⟩
  obtain ⟨⟨-, hstopx⟩, -, hstopy⟩ := hheld v w ⟨⟨hv0, hv1⟩, hw0, hw1⟩
  exact ⟨hs, ⟨hstepx, hfx, hstartx, hafter hstopx (lt_iff.mp hxx).2.1 hv⟩,
    ⟨hstepy, hfy, hstarty, hafter hstopy (lt_iff.mp hyy).2.1 hw⟩⟩

end Forced

/-! ## Exactly these regions are covered -/

section Main

variable {rung : ScaleRung} {region : DeviceRect}

/-- A region without points is covered by nothing. -/
private theorem coversExactly_of_empty (h : region.empty = true) : CoversExactly rung region := by
  refine ⟨⟨[], ?_, List.nodup_nil, ?_⟩, ⟨[], ?_, ?_⟩, ?_⟩
  · rw [tilesCovering?, if_pos h]
  · intro c hc
    refine ⟨fun hmem => absurd hmem List.not_mem_nil, ?_⟩
    rintro ⟨hne, -⟩
    rw [h] at hne
    cases hne
  · rw [tilesCoveringRender?, if_pos h]
  · rintro x y ⟨⟨hx0, hx1⟩, hy0, hy1⟩
    have hbefore : ∀ {a b c : Double}, a.le b = true → b.lt c = true → a.lt c = true := by
      intro a b c hab hbc
      obtain ⟨ha, -, hle⟩ := le_iff.mp hab
      obtain ⟨-, hc, hlt⟩ := lt_iff.mp hbc
      exact lt_iff.mpr ⟨ha, hc, by omega⟩
    have hne := DeviceRect.not_empty_iff.mpr ⟨hbefore hx0 hx1, hbefore hy0 hy1⟩
    rw [h] at hne
    cases hne
  · intro c hc hne
    rw [h] at hne
    cases hne

/-- A region is covered, without a cell too many and without a point too few, exactly when it is
empty, or when its cells have indices that fit and it is either wide or held by the tile of its
centre. -/
theorem coversExactly_iff (rung : ScaleRung) (region : DeviceRect) :
    CoversExactly rung region ↔ region.empty = true ∨ rung.InRange ∧
      (AxisFits rung region.x0 region.x1 ∧ AxisFits rung region.y0 region.y1) ∧
        (Wide rung region ∨ Centred rung region) := by
  rcases Bool.eq_false_or_eq_true region.empty with hempty | hne
  · exact ⟨fun _ => Or.inl hempty, fun _ => coversExactly_of_empty hempty⟩
  constructor
  · rintro ⟨⟨tiles, hsome, -, hmem⟩, ⟨covering, hrender, hfill⟩, -⟩
    obtain ⟨rfl, hcasts⟩ := casts_of_cover hne hsome
    obtain ⟨h, hx, hy⟩ := fits_of_cover hne hcasts fun c hc hmeets => (hmem c hc).mpr hmeets
    refine Or.inr ⟨h, ⟨hx, hy⟩, ?_⟩
    rw [tilesCoveringRender?, hne, if_neg Bool.false_ne_true] at hrender
    rcases Bool.eq_false_or_eq_true (shrunkRect rung region).empty with hs | hs
    · rw [hs, if_neg (by decide)] at hrender
      exact Or.inr (centred_of_fill h hne hs hrender hfill)
    · rw [hs, if_pos (by decide)] at hrender
      exact Or.inl (wide_of_fill h hne hx hy hs hrender hfill)
  · rintro (hempty | ⟨h, ⟨hx, hy⟩, hw⟩)
    · exact coversExactly_of_empty hempty
    refine ⟨⟨_, tilesCovering?_eq h hne hx hy, nodup_tilesCovering _ _,
      fun c hc => mem_tilesCovering_iff h hne hx hy hc⟩, ?_,
      fun c hc _ hown => own_of_fits h hne hx hy hc hown⟩
    rcases hw with hw | hw
    · exact fill_of_wide h hne hx hy hw
    · exact fill_of_centred h hne hw

/-- The square of two units around the origin is covered by no tile, since the least interval from
its centre on vanishes when it is divided by the edge of a cell. A strip of four by a thousand units
is covered by the one tile of its centre. -/
theorem not_coversExactly :
    ¬ CoversExactly ⟨0⟩ ⟨ofInt (-1), ofInt (-1), ofInt 1, ofInt 1⟩ ∧
      ¬ CoversExactly ⟨0⟩ ⟨ofInt 0, ofInt 0, ofInt 4, ofInt 1000⟩ := by
  constructor
  · rintro ⟨-, ⟨tiles, hsome, hfill⟩, -⟩
    have hnone : tilesCoveringRender? ⟨0⟩ ⟨ofInt (-1), ofInt (-1), ofInt 1, ofInt 1⟩ =
        some [] := by decide +kernel
    rw [hnone] at hsome
    obtain rfl := Option.some.inj hsome
    obtain ⟨c, hmem, -⟩ := hfill (ofInt 0) (ofInt 0)
      ⟨⟨by decide +kernel, by decide +kernel⟩, by decide +kernel, by decide +kernel⟩
    cases hmem
  · rintro ⟨-, ⟨tiles, hsome, hfill⟩, -⟩
    have hone : tilesCoveringRender? ⟨0⟩ ⟨ofInt 0, ofInt 0, ofInt 4, ofInt 1000⟩ =
        some [⟨0, 1⟩] := by decide +kernel
    rw [hone] at hsome
    obtain rfl := Option.some.inj hsome
    obtain ⟨c, hmem, hin⟩ := hfill (ofInt 0) (ofInt 0)
      ⟨⟨by decide +kernel, by decide +kernel⟩, by decide +kernel, by decide +kernel⟩
    rw [List.mem_singleton.mp hmem] at hin
    exact absurd hin.2.1 (by decide +kernel)

end Main

end ArbitraryComposer
