import ArbitraryComposer.Compositor.TileCovers
import ArbitraryComposer.ToMathlib.DoubleExact

/-!
# The Degradation Ladder

A tile that is not in the cache, exact and at the scale of its rung, is owed a render. Until that
arrives a frame shows another tile for it: the same cell at the revision before, or the cell of a
coarser rung that contains it, scaled up. Both are drawn as if at the scale of their rung.

## Main definitions

- `planLayer`: the tiles of a layer, each with what is shown for it.
- `coarserToTemp`: the transform that scales a coarser tile up.
- `Substitutes`: what a tile that is shown for another one promises.
- `LadderReady`: the tiles in the cache that may be shown for others have the scale of their rung.

## Main results

- `ladderSound_iff`: exactly then what is shown for a tile is right.
-/

namespace ArbitraryComposer

open Double

/-! ## Plans -/

/-- `Affine::translation`. -/
def Transform.translation (dx dy : Double) : Transform := ⟨1, 0, 0, 1, dx, dy⟩

/-- `Affine::scaling`. -/
def Transform.scaling (sx sy : Double) : Transform := ⟨sx, 0, 0, sy, 0, 0⟩

/-- `floor_div`: division towards minus infinity, by a positive number. -/
def floorDiv (numerator divisor : ℤ) : ℤ :=
  let quotient := numerator.tdiv divisor
  if numerator.tmod divisor ≠ 0 ∧ numerator < 0 then quotient - 1 else quotient

/-- `TileSource`. -/
inductive TileSource where
  /-- The tile itself. -/
  | fresh
  /-- The tile itself, which is not exact. -/
  | transient
  /-- The tile at the revision before. -/
  | stale
  /-- The tile of a coarser rung. -/
  | coarser
  /-- Nothing. -/
  | placeholder
  deriving DecidableEq, Repr

/-- `PlannedTile`, with the value metadata of what it holds. -/
structure PlannedTile where
  /-- The cell. -/
  coord : TileCoord
  /-- What the tile is rendered over. -/
  localRect : DeviceRect
  /-- Its key. -/
  key : TileKey
  /-- Whether a render is owed. -/
  isMiss : Bool
  /-- What is shown. -/
  displaySource : TileSource
  /-- The rung of what is shown. -/
  sourceRung : ScaleRung
  /-- The pin on what is shown. -/
  hold : Option TileMeta
  /-- Its class. -/
  klass : PriorityClass
  deriving Repr

/-- `RungSelection`. -/
structure RungSelection where
  /-- The rung. -/
  rung : ScaleRung
  /-- What is left of the scale. -/
  remainder : Double

/-- `LayerTilePlan`. -/
structure LayerTilePlan (σ δ : Type) where
  /-- The content. -/
  content : ObjectId
  /-- The revision of the keys. -/
  revision : UInt64
  /-- The rung. -/
  rung : ScaleRung
  /-- What is left of the scale. -/
  remainder : Double
  /-- Content to device. -/
  localToDevice : Transform
  /-- The instant. -/
  time : Int64
  /-- The state of the content. -/
  snapshot : σ
  /-- The deadline of its renders. -/
  deadline : δ
  /-- The tiles. -/
  tiles : List PlannedTile

/-- `k_max_fallback_octaves`. -/
def maxFallbackOctaves : ℕ := 4

/-- The cell of a coarser rung that contains a cell. -/
def coarserCoord (coord : TileCoord) (octave : ℕ) : TileCoord :=
  ⟨floorDiv coord.col (2 ^ octave), floorDiv coord.row (2 ^ octave)⟩

section Plan

variable (cache : TileKey → Option TileMeta) (content : ObjectId) (revision : UInt64)
  (priorRevision : Option UInt64) (rung : ScaleRung) (achieved : Option Int64)

/-- The coarser probe of `plan_layer`. -/
def coarserProbe (coord : TileCoord) : Option (ScaleRung × TileMeta) :=
  (List.range maxFallbackOctaves).findSome? fun i =>
    let octave : ℕ := i + 1
    let coarser : ScaleRung := ⟨rung.index - octave⟩
    (cache ⟨content, revision, coarser, coarserCoord coord octave, achieved⟩).map fun hit =>
      (coarser, hit)

/-- One turn of the loop of `plan_layer`. -/
def planTile (coord : TileCoord) : PlannedTile :=
  let key : TileKey := ⟨content, revision, rung, coord, achieved⟩
  let tile : PlannedTile :=
    { coord, localRect := tileRenderRect rung coord, key, isMiss := false,
      displaySource := .placeholder, sourceRung := rung, hold := none, klass := .visible }
  let resident := cache key
  if resident.any fun found => found.exact && found.achievedScale.beq (rungScale rung) then
    { tile with displaySource := .fresh, hold := resident }
  else
    let tile := { tile with isMiss := true }
    if resident.any fun found => found.achievedScale.beq (rungScale rung) then
      { tile with displaySource := .transient, hold := resident }
    else
      let stale := priorRevision.bind fun prior => cache ⟨content, prior, rung, coord, achieved⟩
      match stale, coarserProbe cache content revision rung achieved coord with
      | some stale, _ => { tile with displaySource := .stale, hold := some stale }
      | none, some (coarser, hit) =>
        { tile with displaySource := .coarser, sourceRung := coarser, hold := some hit }
      | none, none => { tile with displaySource := .placeholder }

/-- The instant in the keys of `plan_layer`. -/
def keyTime (stability : Stability) (quantizeTime : Option (Int64 → Option Int64))
    (time : Int64) : Option Int64 :=
  if stability = .static then none
  else some ((quantizeTime.bind fun quantize => quantize time).getD time)

/-- `plan_layer`, where the conversions of its cover are defined. -/
def planLayer {σ δ : Type} (selection : RungSelection) (localRegion : DeviceRect)
    (localToDevice : Transform) (stability : Stability) (time : Int64) (snapshot : σ)
    (deadline : δ) (quantizeTime : Option (Int64 → Option Int64)) :
    Option (LayerTilePlan σ δ) :=
  (tilesCovering? selection.rung localRegion).map fun cover =>
    { content, revision, rung := selection.rung, remainder := selection.remainder, localToDevice,
      time, snapshot, deadline
      tiles := cover.map (planTile cache content revision priorRevision selection.rung
        (keyTime stability quantizeTime time)) }

end Plan

/-! ## What is shown, and where -/

/-- The cell of what is shown. -/
def PlannedTile.sourceCoord (tile : PlannedTile) : TileCoord :=
  coarserCoord tile.coord (tile.key.rung.index - tile.sourceRung.index).toNat

/-- What the tile that is shown was rendered over. -/
def PlannedTile.sourceRect (tile : PlannedTile) : DeviceRect :=
  tileRenderRect tile.sourceRung tile.sourceCoord

/-- The transform of `composite_coarser` from the pixels of a coarser tile to those of the tile it
is shown for. -/
def coarserToTemp (tile : PlannedTile) : Transform :=
  let rungPx := rungScale tile.key.rung
  let coarserRect := tile.sourceRect
  let coarserPx := rungScale tile.sourceRung
  let coarserToLocal := compose (.translation coarserRect.x0 coarserRect.y0)
    (.scaling (1 / coarserPx) (1 / coarserPx))
  let localToTemp := compose (.scaling rungPx rungPx)
    (.translation (-tile.localRect.x0) (-tile.localRect.y0))
  compose localToTemp coarserToLocal

/-- Where the pixels of what is shown go in the tile it is shown for. A stale tile is drawn as the
tile itself would be. -/
def PlannedTile.placed (tile : PlannedTile) : Transform :=
  match tile.displaySource with
  | .coarser => coarserToTemp tile
  | _ => {}

/-- `k_tile_surface_size`. -/
def tileSurfaceSize : ℚ := 264

/-- A position on the surface of a tile, in pixels. -/
def OnSurface (p : ℚ × ℚ) : Prop :=
  (0 ≤ p.1 ∧ p.1 ≤ tileSurfaceSize) ∧ 0 ≤ p.2 ∧ p.2 ≤ tileSurfaceSize

/-- The point of a content at a position on a surface that was rendered at a scale, from the corner
of a rectangle on. -/
def showsAt (rect : DeviceRect) (scale : Double) (p : ℚ × ℚ) : ℚ × ℚ :=
  (rect.x0.toRat + p.1 / scale.toRat, rect.y0.toRat + p.2 / scale.toRat)

/-- Where a transform moves a position, without rounding. -/
def Transform.moves (t : Transform) (p : ℚ × ℚ) : ℚ × ℚ :=
  (t.a.toRat * p.1 + t.c.toRat * p.2 + t.tx.toRat, t.b.toRat * p.1 + t.d.toRat * p.2 + t.ty.toRat)

/-- The coefficients of a transform are finite. -/
def Transform.IsFinite (t : Transform) : Prop :=
  (t.a.isFinite = true ∧ t.b.isFinite = true ∧ t.c.isFinite = true ∧ t.d.isFinite = true) ∧
    t.tx.isFinite = true ∧ t.ty.isFinite = true

/-- A rectangle contains another one. -/
def DeviceRect.Encloses (r s : DeviceRect) : Prop :=
  (r.x0.le s.x0 = true ∧ s.x1.le r.x1 = true) ∧ r.y0.le s.y0 = true ∧ s.y1.le r.y1 = true

/-- What a tile that is shown for another one promises. -/
structure Substitutes (tile : PlannedTile) (found : TileMeta) : Prop where
  /-- Its rectangle contains that of the tile. -/
  covers : tile.sourceRect.Encloses tile.localRect
  /-- It is drawn with a transform of finite coefficients. -/
  finite : tile.placed.IsFinite
  /-- What it shows at a position is what the tile shows where that position is moved to. -/
  exact : ∀ p, showsAt tile.localRect (rungScale tile.key.rung) (tile.placed.moves p) =
    showsAt tile.sourceRect found.achievedScale p
  /-- Every position of the tile is one of its own. -/
  onto : ∀ q, OnSurface q → ∃ p, OnSurface p ∧ tile.placed.moves p = q

/-- What a planned tile promises. -/
structure PlannedTile.Sound (cache : TileKey → Option TileMeta) (tile : PlannedTile) : Prop where
  /-- A stale or coarser tile that is shown is in the cache, and stands in for the tile. -/
  substitute : tile.displaySource = .stale ∨ tile.displaySource = .coarser →
    ∃ found, tile.hold = some found ∧ (∃ revision, cache ⟨tile.key.content, revision,
      tile.sourceRung, tile.sourceCoord, tile.key.achievedTime⟩ = some found) ∧
        Substitutes tile found
  /-- No render is owed only if the tile is in the cache, exact and at the scale of its rung. -/
  owed : tile.isMiss = false → ∃ found, cache tile.key = some found ∧
    found.fresh tile.key.rung = true

/-! ## Tiles that may be shown for others -/

/-- A tile has the scale of its rung. -/
def AtScale (rung : ScaleRung) (found : TileMeta) : Prop :=
  found.achievedScale.beq (rungScale rung) = true

/-- The corner of what a tile is rendered over is finite. -/
def FiniteCorner (rung : ScaleRung) (coord : TileCoord) : Prop :=
  (tileRenderRect rung coord).x0.isFinite = true ∧ (tileRenderRect rung coord).y0.isFinite = true

section Ready

variable (cache : TileKey → Option TileMeta) (content : ObjectId) (revision : UInt64)
  (priorRevision : Option UInt64) (rung : ScaleRung) (achieved : Option Int64)

/-- The key of the coarser tile that contains a cell. -/
def coarserKey (coord : TileCoord) (octave : ℕ) : TileKey :=
  ⟨content, revision, ⟨rung.index - octave⟩, coarserCoord coord octave, achieved⟩

/-- The tiles in the cache that are shown for a cell, if it is not there at the scale of its rung,
have the scale of theirs. -/
structure LadderReady (coord : TileCoord) : Prop where
  /-- The stale tile has it. -/
  stale : (∀ found, cache ⟨content, revision, rung, coord, achieved⟩ = some found →
    ¬ AtScale rung found) → ∀ prior found, priorRevision = some prior →
      cache ⟨content, prior, rung, coord, achieved⟩ = some found → AtScale rung found
  /-- The first coarser tile has it if there is no stale one, and neither its rectangle nor that of
  the cell begins at an infinity. -/
  coarser : (∀ found, cache ⟨content, revision, rung, coord, achieved⟩ = some found →
    ¬ AtScale rung found) → (∀ prior, priorRevision = some prior →
      cache ⟨content, prior, rung, coord, achieved⟩ = none) →
    ∀ octave found, 1 ≤ octave → octave ≤ maxFallbackOctaves →
      (∀ finer, 1 ≤ finer → finer < octave →
        cache (coarserKey content revision rung achieved coord finer) = none) →
      cache (coarserKey content revision rung achieved coord octave) = some found →
      AtScale ⟨rung.index - octave⟩ found ∧ FiniteCorner rung coord ∧
        FiniteCorner ⟨rung.index - octave⟩ (coarserCoord coord octave)

end Ready

/-! ## Transforms without rounding -/

/-- A transform that scales by a factor and then moves. -/
structure Transform.Places (t : Transform) (k u v : ℚ) : Prop where
  /-- The factor. -/
  a : t.a.Represents k
  /-- It does not shear. -/
  b : t.b.Represents 0
  /-- It does not shear. -/
  c : t.c.Represents 0
  /-- The factor. -/
  d : t.d.Represents k
  /-- The horizontal move. -/
  tx : t.tx.Represents u
  /-- The vertical move. -/
  ty : t.ty.Represents v

section Places

variable {o i : Transform} {k l u v s t : ℚ} {x y : Double}

theorem represents_one : (1 : Double).Represents 1 := by
  have h := represents_ofInt (m := 1) (by decide)
  rw [Int.cast_one] at h
  exact h.of_key_eq (by decide +kernel)

theorem places_translation (hx : x.Represents s) (hy : y.Represents t) :
    (Transform.translation x y).Places 1 s t :=
  ⟨represents_one, represents_zero, represents_zero, represents_one, hx, hy⟩

theorem places_scaling (hx : x.Represents k) : (Transform.scaling x x).Places k 0 0 :=
  ⟨hx, represents_zero, represents_zero, hx, represents_zero, represents_zero⟩

/-- Some finite double stands for a rational number. -/
def Representable (q : ℚ) : Prop := ∃ z : Double, z.Represents q

/-- Transforms are composed without rounding when what they compose to is represented. -/
theorem Transform.Places.compose {m p q : ℚ} (ho : o.Places k u v) (hi : i.Places l s t)
    (hk : Representable m ∧ k * l = m) (hx : Representable (k * s)) (hy : Representable (k * t))
    (hu : Representable p ∧ k * s + u = p) (hv : Representable q ∧ k * t + v = q) :
    (ArbitraryComposer.compose o i).Places m p q := by
  obtain ⟨⟨z, hz⟩, rfl⟩ := hk
  obtain ⟨⟨zu, hzu⟩, rfl⟩ := hu
  obtain ⟨⟨zv, hzv⟩, rfl⟩ := hv
  obtain ⟨zx, hzx⟩ := hx
  obtain ⟨zy, hzy⟩ := hy
  have hx' := (ho.a.mul hi.tx hzx).add_vanished (ho.c.vanish hi.ty.finite)
  have hy' := (ho.b.vanish hi.tx.finite).vanished_add (ho.d.mul hi.ty hzy)
  refine ⟨?_, ?_, ?_, ?_, hx'.add ho.tx hzu, hy'.add ho.ty hzv⟩
  · exact (ho.a.mul hi.a hz).add_vanished (ho.c.vanish hi.b.finite)
  · exact (ho.b.vanish hi.a.finite).vanished_add (Represents.vanish_right ho.d.finite hi.b)
  · exact (Represents.vanish_right ho.a.finite hi.c).vanished_add (ho.c.vanish hi.d.finite)
  · exact (ho.b.vanish hi.c.finite).vanished_add (ho.d.mul hi.d hz)

/-- Where such a transform moves a position. -/
theorem Transform.Places.moves_eq (ht : o.Places k u v) (p : ℚ × ℚ) :
    o.moves p = (k * p.1 + u, k * p.2 + v) := by
  rw [Transform.moves, ht.a.eq, ht.b.eq, ht.c.eq, ht.d.eq, ht.tx.eq, ht.ty.eq]
  simp only [zero_mul, zero_add, add_zero]

theorem Transform.Places.isFinite (ht : o.Places k u v) : o.IsFinite :=
  ⟨⟨ht.a.finite, ht.b.finite, ht.c.finite, ht.d.finite⟩, ht.tx.finite, ht.ty.finite⟩

theorem places_identity : ({} : Transform).Places 1 0 0 :=
  ⟨represents_one, represents_zero, represents_zero, represents_one, represents_zero,
    represents_zero⟩

end Places

/-! ## Rungs as rational numbers -/

section Geometry

variable {rung : ScaleRung} {c : ℤ}

theorem floorDiv_eq {n d : ℤ} (hd : 0 < d) : floorDiv n d = n / d := by
  have hsign : d.sign = 1 := Int.sign_eq_one_of_pos hd
  rw [floorDiv, Int.tdiv_eq_ediv, hsign]
  by_cases hdvd : d ∣ n
  · rw [Int.tmod_eq_zero_of_dvd hdvd, if_neg (fun h => h.1 rfl), if_pos (Or.inr hdvd), Int.add_zero]
  · have hmod : n.tmod d ≠ 0 := fun h => hdvd (Int.dvd_of_tmod_eq_zero h)
    rcases lt_or_ge n 0 with hneg | hpos
    · rw [if_pos ⟨hmod, hneg⟩, if_neg (by omega), Int.add_sub_cancel]
    · rw [if_neg (by omega), if_pos (Or.inl hpos), Int.add_zero]

/-- The apron, in local units. -/
def apronRat (rung : ScaleRung) : ℚ := 2 ^ rung.apronExponent * least

theorem apronRat_pos (rung : ScaleRung) : 0 < apronRat rung := mul_pos (pow_pos rfl _) least_pos

/-- The apron has four pixels. -/
theorem apronRat_mul (h : rung.InRange) :
    apronRat rung * (2 ^ (rung.index + 1074).toNat * least) = 4 := by
  obtain ⟨h0, h1⟩ := h
  have hpow : (2 : ℚ) ^ rung.apronExponent * 2 ^ (rung.index + 1074).toNat =
      4 * (2 ^ 1074 * 2 ^ 1074) := by
    rw [← pow_add, ← pow_add, show (4 : ℚ) = 2 ^ 2 by norm_num, ← pow_add, ScaleRung.apronExponent]
    congr 1
    omega
  have hone := least_mul
  rw [apronRat]
  generalize (2 : ℚ) ^ 1074 = t at hpow hone
  calc _ = 2 ^ rung.apronExponent * 2 ^ (rung.index + 1074).toNat * (least * least) := by ring
    _ = 4 * ((least * t) * (least * t)) := by rw [hpow]; ring
    _ = 4 := by rw [hone]; norm_num

theorem represents_rungScale (h : rung.InRange) :
    (rungScale rung).Represents (4 / apronRat rung) := by
  have hscale := (powerOfTwo_rungScale ⟨by have := h.1; omega, h.2⟩).represents
  rwa [← apronRat_mul h, mul_div_cancel_left₀ _ (apronRat_pos rung).ne']

/-- The inverse of a scale is exact. -/
theorem represents_one_div (h : rung.InRange) :
    (1 / rungScale rung).Represents (apronRat rung / 4) := by
  have hrange : -1074 ≤ rung.index ∧ rung.index ≤ 1023 := ⟨by have := h.1; omega, h.2⟩
  have hscale := powerOfTwo_rungScale hrange
  have he : 2 ≤ rung.apronExponent := by
    have := h.2
    rw [ScaleRung.apronExponent]
    omega
  obtain ⟨z, hz, hunits⟩ := exists_units (m := 1) (e := rung.apronExponent - 2) (by decide) (by
    rw [one_mul, abs_of_pos (pow_pos (by decide) _)]
    have := h.1
    exact pow_lt_pow_right₀ (by decide) (by rw [ScaleRung.apronExponent]; omega))
  refine represents_one.div hscale ⟨hz, ?_⟩ ?_
  · rw [toRat, hunits, one_mul, Int.cast_pow, Int.cast_ofNat, apronRat]
    obtain ⟨e, he⟩ := Nat.exists_eq_add_of_le he
    rw [he, Nat.add_sub_cancel_left, pow_add]
    ring
  · rw [div_mul_eq_mul_div, apronRat_mul h, div_self (by norm_num)]

/-- The beginning of a tile with its apron, when it is finite. -/
theorem represents_renderLo (h : rung.InRange) (hc : Fits32 c)
    (hfinite : (renderLo rung c).isFinite = true) :
    (renderLo rung c).Represents ((64 * c - 1) * apronRat rung) := by
  obtain ⟨hlow, hup⟩ := near_of_renderLo h hc hfinite
  have hkey := ((key_render h hc hlow).1 hup).1
  refine ⟨hfinite, ?_⟩
  rw [toRat, PowerOfTwo.units_of_key_scaled hfinite (significand_render hc).1 hkey, apronRat]
  push_cast
  ring

/-- The ends of a tile with its apron are numbers. -/
theorem isNaN_render (h : rung.InRange) (hc : Fits32 c) :
    (renderLo rung c).isNaN = false ∧ (renderHi rung c).isNaN = false := by
  have hg := powerOfTwo_cellEdge h
  have hA := powerOfTwo_apronEdge h
  have hline := (hg.key_line (hc.significand.1.trans (by decide : (2 : ℤ) ^ 52 < 2 ^ 53))).2
  exact ⟨isNaN_sub hline hA.finite, isNaN_add (isNaN_add hline hg.finite) hA.finite⟩

/-- A tile whose beginning is finite is on a rung whose cells have a finite edge. -/
theorem inRange_of_renderLo (h : rung.index ≤ 1023)
    (hfinite : (renderLo rung c).isFinite = true) : rung.InRange := by
  refine ⟨?_, h⟩
  by_contra hsmall
  have hedge := (isFinite_of_mul (isFinite_of_add hfinite).1).2
  rw [not_isFinite_cellEdge (by omega)] at hedge
  cases hedge

/-- The cell of a coarser rung that contains a cell. -/
theorem coarserCoord_eq (coord : TileCoord) (k : ℕ) :
    coarserCoord coord k = ⟨coord.col / 2 ^ k, coord.row / 2 ^ k⟩ := by
  rw [coarserCoord, floorDiv_eq (pow_pos (by decide) _), floorDiv_eq (pow_pos (by decide) _)]

theorem ediv_bounds (c : ℤ) (k : ℕ) :
    2 ^ k * (c / 2 ^ k) ≤ c ∧ c + 1 ≤ 2 ^ k * (c / 2 ^ k) + 2 ^ k := by
  have hpos : (0 : ℤ) < 2 ^ k := pow_pos (by decide) _
  have h0 := Int.emod_nonneg c hpos.ne'
  have h1 := Int.emod_lt_of_pos c hpos
  have h2 := Int.mul_ediv_add_emod c (2 ^ k)
  omega

theorem Fits32.ediv (hc : Fits32 c) (k : ℕ) : Fits32 (c / 2 ^ k) := by
  have hpos : (0 : ℤ) < 2 ^ k := pow_pos (by decide) _
  have hone : (1 : ℤ) ≤ 2 ^ k := hpos
  have hwide := le_mul_of_one_le_right (by decide : (0 : ℤ) ≤ 2 ^ 31) hone
  refine ⟨(Int.le_ediv_iff_mul_le hpos).mpr ?_, (Int.ediv_lt_iff_lt_mul hpos).mpr ?_⟩
  · rw [Int.neg_mul]
    exact (Int.neg_le_neg hwide).trans hc.1
  · exact hc.2.trans_le hwide

theorem apronExponent_coarser (h : rung.index ≤ 1023) (k : ℕ) :
    ScaleRung.apronExponent ⟨rung.index - k⟩ = rung.apronExponent + k := by
  rw [ScaleRung.apronExponent, ScaleRung.apronExponent]
  dsimp only
  omega

theorem apronRat_coarser (h : rung.index ≤ 1023) (k : ℕ) :
    apronRat ⟨rung.index - k⟩ = 2 ^ k * apronRat rung := by
  rw [apronRat, apronRat, apronExponent_coarser h, pow_add]
  ring

/-- Along each axis, the coarser tile contains the tile. -/
theorem covers_of_finite (h : rung.InRange) (hc : Fits32 c) {k : ℕ}
    (hfinite : (renderLo rung c).isFinite = true)
    (hcoarser : (renderLo ⟨rung.index - k⟩ (c / 2 ^ k)).isFinite = true) :
    (renderLo ⟨rung.index - k⟩ (c / 2 ^ k)).le (renderLo rung c) = true ∧
      (renderHi rung c).le (renderHi ⟨rung.index - k⟩ (c / 2 ^ k)) = true := by
  have h' : ScaleRung.InRange ⟨rung.index - k⟩ :=
    inRange_of_renderLo (Int.le_trans (Int.sub_le_self _ (Int.natCast_nonneg k)) h.2) hcoarser
  obtain ⟨hlow, hup⟩ := near_of_renderLo h hc hfinite
  obtain ⟨hlow', hup'⟩ := near_of_renderLo h' (hc.ediv k) hcoarser
  obtain ⟨hkeyLo, hkeyHi, hnanHi⟩ := key_render h hc hlow
  obtain ⟨hkeyLo', hkeyHi', hnanHi'⟩ := key_render h' (hc.ediv k) hlow'
  obtain ⟨hkeyLo, hnanLo⟩ := hkeyLo hup
  obtain ⟨hkeyLo', hnanLo'⟩ := hkeyLo' hup'
  obtain ⟨hbelow, habove⟩ := ediv_bounds c k
  rw [apronExponent_coarser h.2, pow_add] at hkeyLo' hkeyHi'
  have hone : (1 : ℤ) ≤ 2 ^ k := Int.pow_pos (by decide)
  have hscale : (0 : ℤ) ≤ 2 ^ rung.apronExponent := (pow_pos (by decide) _).le
  refine ⟨le_iff.mpr ⟨hnanLo', hnanLo, ?_⟩, le_iff.mpr ⟨hnanHi, hnanHi', ?_⟩⟩
  · rw [hkeyLo, hkeyLo']
    apply roundKey_mono Nat.one_pos Nat.one_pos
    rw [Nat.cast_one, mul_one, mul_one, mul_comm ((2 : ℤ) ^ rung.apronExponent), ← mul_assoc]
    exact Int.mul_le_mul_of_nonneg_right (by linarith) hscale
  · rw [hkeyHi, hkeyHi']
    apply roundKey_mono Nat.one_pos Nat.one_pos
    rw [Nat.cast_one, mul_one, mul_one, mul_comm ((2 : ℤ) ^ rung.apronExponent), ← mul_assoc]
    exact Int.mul_le_mul_of_nonneg_right (by linarith) hscale

end Geometry

/-! ## The placement of a coarser tile -/

section Placement

variable {rung : ScaleRung} {coord : TileCoord} {k : ℕ}

/-- How far the pixels of a coarser tile are moved, along one axis. -/
def axisMove (c : ℤ) (k : ℕ) : ℤ := 4 * (2 ^ k * (64 * (c / 2 ^ k) - 1)) - 4 * (64 * c - 1)

private theorem representable_int {m : ℤ} (hm : |m| < 2 ^ 53) : Representable m :=
  ⟨_, represents_ofInt hm⟩

/-- The whole numbers of pixels that a placement computes with are doubles. -/
private theorem axisMove_bounds {c : ℤ} (hc : Fits32 c) (hk : k ≤ maxFallbackOctaves) :
    |4 * (64 * c - 1)| < 2 ^ 53 ∧ |4 * (2 ^ k * (64 * (c / 2 ^ k) - 1))| < 2 ^ 53 ∧
      |axisMove c k| < 2 ^ 53 := by
  obtain ⟨h0, h1⟩ := hc
  obtain ⟨hbelow, habove⟩ := ediv_bounds c k
  have hone : (1 : ℤ) ≤ 2 ^ k := Int.pow_pos (by decide)
  have hsixteen : (2 : ℤ) ^ k ≤ 16 := by
    calc (2 : ℤ) ^ k ≤ 2 ^ maxFallbackOctaves := pow_le_pow_right₀ (by decide) hk
      _ = 16 := by decide
  have hsplit : (2 : ℤ) ^ k * (64 * (c / 2 ^ k) - 1) = 64 * (2 ^ k * (c / 2 ^ k)) - 2 ^ k := by
    ring
  rw [axisMove, hsplit]
  generalize (2 : ℤ) ^ k * (c / 2 ^ k) = a at hbelow habove
  generalize (2 : ℤ) ^ k = b at hbelow habove hone hsixteen
  refine ⟨abs_lt.mpr ⟨?_, ?_⟩, abs_lt.mpr ⟨?_, ?_⟩, abs_lt.mpr ⟨?_, ?_⟩⟩ <;> omega

/-- A coarser tile is scaled up and moved without rounding. -/
theorem places_coarser (h : rung.InRange) (hc : coord.Fits) (hk : k ≤ maxFallbackOctaves)
    (hcorner : FiniteCorner rung coord)
    (hcoarser : FiniteCorner ⟨rung.index - k⟩ ⟨coord.col / 2 ^ k, coord.row / 2 ^ k⟩) :
    (compose
      (compose (.scaling (rungScale rung) (rungScale rung))
        (.translation (-renderLo rung coord.col) (-renderLo rung coord.row)))
      (compose
        (.translation (renderLo ⟨rung.index - k⟩ (coord.col / 2 ^ k))
          (renderLo ⟨rung.index - k⟩ (coord.row / 2 ^ k)))
        (.scaling (1 / rungScale ⟨rung.index - k⟩) (1 / rungScale ⟨rung.index - k⟩)))).Places
      (2 ^ k) (axisMove coord.col k) (axisMove coord.row k) := by
  have h' : ScaleRung.InRange ⟨rung.index - k⟩ :=
    inRange_of_renderLo (Int.le_trans (Int.sub_le_self _ (Int.natCast_nonneg k)) h.2) hcoarser.1
  have hα := (apronRat_pos rung).ne'
  have hw0 := represents_renderLo h hc.1 hcorner.1
  have hw1 := represents_renderLo h hc.2 hcorner.2
  have hx0 := represents_renderLo h' (hc.1.ediv k) hcoarser.1
  have hy0 := represents_renderLo h' (hc.2.ediv k) hcoarser.2
  have hs := represents_one_div h'
  have hρ := represents_rungScale h
  rw [apronRat_coarser h.2] at hx0 hy0 hs
  obtain ⟨hcol, hcol', hcolMove⟩ := axisMove_bounds hc.1 hk
  obtain ⟨hrow, hrow', hrowMove⟩ := axisMove_bounds hc.2 hk
  -- the tile itself is moved to the corner of its surface
  have hmove : ∀ c : ℤ, 4 / apronRat rung * -((64 * c - 1) * apronRat rung) =
      ((-(4 * (64 * c - 1)) : ℤ) : ℚ) := by
    intro c
    push_cast
    field_simp
  have hinner : (compose (.scaling (rungScale rung) (rungScale rung))
      (.translation (-renderLo rung coord.col) (-renderLo rung coord.row))).Places
      (4 / apronRat rung) ((-(4 * (64 * coord.col - 1)) : ℤ) : ℚ)
      ((-(4 * (64 * coord.row - 1)) : ℤ) : ℚ) := by
    have hcolInt := representable_int (m := -(4 * (64 * coord.col - 1))) (by rwa [abs_neg])
    have hrowInt := representable_int (m := -(4 * (64 * coord.row - 1))) (by rwa [abs_neg])
    refine (places_scaling hρ).compose (places_translation hw0.neg hw1.neg)
      ⟨⟨_, hρ⟩, mul_one _⟩ ?_ ?_ ⟨hcolInt, ?_⟩ ⟨hrowInt, ?_⟩
    · rwa [hmove]
    · rwa [hmove]
    · rw [hmove, add_zero]
    · rw [hmove, add_zero]
  have houter := (places_translation hx0 hy0).compose (places_scaling hs) ⟨⟨_, hs⟩, one_mul _⟩
    ⟨0, by rw [mul_zero]; exact represents_zero⟩ ⟨0, by rw [mul_zero]; exact represents_zero⟩
    ⟨⟨_, hx0⟩, by rw [mul_zero, zero_add]⟩ ⟨⟨_, hy0⟩, by rw [mul_zero, zero_add]⟩
  -- the coarser tile is moved to that corner from where it begins
  have hshift : ∀ c : ℤ, 4 / apronRat rung *
      ((64 * ((c / 2 ^ k : ℤ) : ℚ) - 1) * (2 ^ k * apronRat rung)) =
        ((4 * (2 ^ k * (64 * (c / 2 ^ k) - 1)) : ℤ) : ℚ) := by
    intro c
    push_cast
    field_simp
  have hfactor : Representable (2 ^ k) := by
    have hint := representable_int (m := 2 ^ k) (by
      rw [abs_of_pos (pow_pos (by decide) _)]
      exact pow_lt_pow_right₀ (by decide) (Nat.lt_of_le_of_lt hk (by decide)))
    rwa [Int.cast_pow, Int.cast_ofNat] at hint
  refine hinner.compose houter ⟨hfactor, ?_⟩ ?_ ?_ ⟨representable_int hcolMove, ?_⟩
    ⟨representable_int hrowMove, ?_⟩
  · field_simp
  · rw [hshift]
    exact representable_int hcol'
  · rw [hshift]
    exact representable_int hrow'
  · rw [hshift, axisMove]
    push_cast
    ring
  · rw [hshift, axisMove]
    push_cast
    ring

end Placement

/-! ## What stands in for a tile -/

section Substitute

variable {tile : PlannedTile} {found : TileMeta} {rung : ScaleRung} {k : ℕ}

/-- A tile has the scale of its rung when its scale stands for the same number. -/
theorem atScale_iff (h : rung.InRange) :
    AtScale rung found ↔ found.achievedScale.toRat = (rungScale rung).toRat := by
  have hfinite := (represents_rungScale h).finite
  rw [AtScale, beq, toRat_inj, isNaN_of_isFinite hfinite]
  constructor
  · intro hbeq
    simp only [Bool.and_eq_true, decide_eq_true_iff] at hbeq
    exact hbeq.2
  · intro hkey
    rw [isNaN_of_isFinite (isFinite_of_key_eq hkey hfinite), decide_eq_true hkey]
    rfl

/-- The cell of a coarser tile. -/
theorem sourceCoord_eq (hsource : tile.sourceRung = ⟨tile.key.rung.index - k⟩) :
    tile.sourceCoord = ⟨tile.coord.col / 2 ^ k, tile.coord.row / 2 ^ k⟩ := by
  have hk : (tile.key.rung.index - tile.sourceRung.index).toNat = k := by
    rw [hsource]
    show (tile.key.rung.index - (tile.key.rung.index - k)).toNat = k
    omega
  rw [PlannedTile.sourceCoord, hk, coarserCoord_eq]

theorem sourceCoord_of_same (hsource : tile.sourceRung = tile.key.rung) :
    tile.sourceCoord = tile.coord := by
  rw [sourceCoord_eq (k := 0) (by rw [hsource, Nat.cast_zero, Int.sub_zero]), pow_zero,
    Int.ediv_one, Int.ediv_one]

/-- A stale tile stands in for a tile when it has the scale of its rung. -/
theorem substitutes_stale_iff (h : tile.key.rung.InRange) (hc : tile.coord.Fits)
    (hrect : tile.localRect = tileRenderRect tile.key.rung tile.coord)
    (hsource : tile.sourceRung = tile.key.rung) (hdisplay : tile.displaySource = .stale) :
    Substitutes tile found ↔ AtScale tile.key.rung found := by
  have hplaced : tile.placed.Places 1 0 0 := by
    rw [PlannedTile.placed, hdisplay]
    exact places_identity
  have hsame : tile.sourceRect = tile.localRect := by
    rw [PlannedTile.sourceRect, sourceCoord_of_same hsource, hsource, hrect]
  have hmoves : ∀ p, tile.placed.moves p = p := by
    intro p
    rw [hplaced.moves_eq]
    simp only [one_mul, add_zero]
  rw [atScale_iff h]
  constructor
  · intro hs
    have hone := congrArg Prod.fst (hs.exact (1, 0))
    rw [hmoves, hsame] at hone
    have hinv := add_left_cancel hone
    rw [one_div, one_div] at hinv
    exact (inv_injective hinv).symm
  · intro hscale
    refine ⟨?_, hplaced.isFinite, ?_, ?_⟩
    · obtain ⟨hlo, hhi⟩ := isNaN_render h hc.1
      obtain ⟨hlo', hhi'⟩ := isNaN_render h hc.2
      rw [hsame, hrect]
      exact ⟨⟨Double.le_refl hlo, Double.le_refl hhi⟩, Double.le_refl hlo', Double.le_refl hhi'⟩
    · intro p
      rw [hmoves, hsame, showsAt, showsAt, hscale]
    · intro q hq
      exact ⟨q, hq, hmoves q⟩

/-- Along one axis, a coarser tile shows at a position what the tile shows where it is moved to. -/
private theorem shows_coarser {α : ℚ} (hα : α ≠ 0) (c : ℤ) (k : ℕ) (p : ℚ) :
    (64 * c - 1) * α + (2 ^ k * p + axisMove c k) / (4 / α) =
      (64 * ((c / 2 ^ k : ℤ) : ℚ) - 1) * (2 ^ k * α) + p / (4 / (2 ^ k * α)) := by
  rw [axisMove]
  push_cast
  field_simp
  ring

/-- Along one axis, the positions of a tile are those that positions of a coarser tile are moved
to. -/
private theorem exists_position (c : ℤ) (k : ℕ) {q : ℚ} (h0 : 0 ≤ q) (h1 : q ≤ tileSurfaceSize) :
    ∃ p, (0 ≤ p ∧ p ≤ tileSurfaceSize) ∧ 2 ^ k * p + axisMove c k = q := by
  have hpos : (0 : ℚ) < 2 ^ k := pow_pos rfl _
  have hone : (1 : ℚ) ≤ 2 ^ k := one_le_pow₀ (by norm_num)
  obtain ⟨hbelow, habove⟩ := ediv_bounds c k
  have hbelow' : (2 : ℚ) ^ k * ((c / 2 ^ k : ℤ) : ℚ) ≤ c := by exact_mod_cast hbelow
  have habove' : (c : ℚ) + 1 ≤ 2 ^ k * ((c / 2 ^ k : ℤ) : ℚ) + 2 ^ k := by exact_mod_cast habove
  have hmove : (axisMove c k : ℚ) =
      4 * (2 ^ k * (64 * ((c / 2 ^ k : ℤ) : ℚ) - 1)) - 4 * (64 * c - 1) := by
    rw [axisMove]
    push_cast
    rfl
  rw [tileSurfaceSize] at h1 ⊢
  refine ⟨(q - axisMove c k) / 2 ^ k, ⟨?_, ?_⟩, ?_⟩
  · apply div_nonneg _ hpos.le
    rw [hmove]
    linarith
  · rw [div_le_iff₀ hpos, hmove]
    linarith
  · rw [mul_div_cancel₀ _ hpos.ne']
    ring

/-- A coarser tile stands in for a tile when it has the scale of its rung and neither of them begins
at an infinity. -/
theorem substitutes_coarser_iff (h : tile.key.rung.InRange) (hc : tile.coord.Fits)
    (hk : k ≤ maxFallbackOctaves) (hrect : tile.localRect = tileRenderRect tile.key.rung tile.coord)
    (hsource : tile.sourceRung = ⟨tile.key.rung.index - k⟩)
    (hdisplay : tile.displaySource = .coarser) :
    Substitutes tile found ↔ AtScale ⟨tile.key.rung.index - k⟩ found ∧
      FiniteCorner tile.key.rung tile.coord ∧
        FiniteCorner ⟨tile.key.rung.index - k⟩ (coarserCoord tile.coord k) := by
  have hcoord := sourceCoord_eq hsource
  have hsame : tile.sourceRect = tileRenderRect ⟨tile.key.rung.index - k⟩
      ⟨tile.coord.col / 2 ^ k, tile.coord.row / 2 ^ k⟩ := by
    rw [PlannedTile.sourceRect, hsource, hcoord]
  have hplaced : tile.placed = coarserToTemp tile := by
    rw [PlannedTile.placed, hdisplay]
  rw [coarserToTemp, hsame, hsource, hrect] at hplaced
  rw [coarserCoord_eq]
  -- whatever is drawn with finite coefficients does not begin at an infinity
  have hcorners : tile.placed.IsFinite → FiniteCorner tile.key.rung tile.coord ∧
      FiniteCorner ⟨tile.key.rung.index - k⟩
        ⟨tile.coord.col / 2 ^ k, tile.coord.row / 2 ^ k⟩ := by
    intro hfinite
    rw [hplaced] at hfinite
    obtain ⟨-, htx, hty⟩ := hfinite
    obtain ⟨hx, htx⟩ := isFinite_of_add htx
    obtain ⟨hy, hty⟩ := isFinite_of_add hty
    have hw0 := (isFinite_of_mul (isFinite_of_add (isFinite_of_add htx).1).1).2
    have hw1 := (isFinite_of_mul (isFinite_of_add (isFinite_of_add hty).1).2).2
    exact ⟨⟨(isFinite_neg _).symm.trans hw0, (isFinite_neg _).symm.trans hw1⟩, (isFinite_of_add (isFinite_of_mul (isFinite_of_add hx).1).2).2,
      (isFinite_of_add (isFinite_of_mul (isFinite_of_add hy).2).2).2⟩
  have hα := (apronRat_pos tile.key.rung).ne'
  have hρ := represents_rungScale h
  have hindex : tile.key.rung.index - k ≤ 1023 :=
    Int.le_trans (Int.sub_le_self _ (Int.natCast_nonneg k)) h.2
  -- along each axis, what is shown at a position is what the tile shows where it is moved to
  have hshows : ∀ {c : ℤ}, Fits32 c → (renderLo tile.key.rung c).isFinite = true →
      (renderLo ⟨tile.key.rung.index - k⟩ (c / 2 ^ k)).isFinite = true → ∀ p : ℚ,
        (renderLo tile.key.rung c).toRat + (2 ^ k * p + axisMove c k) /
          (rungScale tile.key.rung).toRat =
        (renderLo ⟨tile.key.rung.index - k⟩ (c / 2 ^ k)).toRat +
          p / (rungScale ⟨tile.key.rung.index - k⟩).toRat := by
    intro c hc hlo hlo' p
    have h' := inRange_of_renderLo hindex hlo'
    rw [(represents_renderLo h hc hlo).eq, (represents_renderLo h' (hc.ediv k) hlo').eq, hρ.eq,
      (represents_rungScale h').eq, apronRat_coarser h.2]
    exact shows_coarser hα c k p
  have hplaces : FiniteCorner tile.key.rung tile.coord → FiniteCorner ⟨tile.key.rung.index - k⟩
      ⟨tile.coord.col / 2 ^ k, tile.coord.row / 2 ^ k⟩ →
      tile.placed.Places (2 ^ k) (axisMove tile.coord.col k) (axisMove tile.coord.row k) := by
    intro hcorner hcoarser
    rw [hplaced]
    exact places_coarser h hc hk hcorner hcoarser
  constructor
  · intro hs
    obtain ⟨hcorner, hcoarser⟩ := hcorners hs.finite
    have hp := hplaces hcorner hcoarser
    refine ⟨(atScale_iff (inRange_of_renderLo hindex hcoarser.1)).mpr ?_, hcorner, hcoarser⟩
    have hone := congrArg Prod.fst (hs.exact (1, 0))
    rw [hsame, hrect, hp.moves_eq] at hone
    have hinv := add_left_cancel ((hshows hc.1 hcorner.1 hcoarser.1 1).symm.trans hone)
    rw [one_div] at hinv
    exact (inv_injective (hinv.trans (one_div _))).symm
  · rintro ⟨hscale, hcorner, hcoarser⟩
    have hp := hplaces hcorner hcoarser
    rw [atScale_iff (inRange_of_renderLo hindex hcoarser.1)] at hscale
    refine ⟨?_, ?_, ?_, ?_⟩
    · rw [hsame, hrect]
      exact ⟨covers_of_finite h hc.1 hcorner.1 hcoarser.1,
        covers_of_finite h hc.2 hcorner.2 hcoarser.2⟩
    · exact hp.isFinite
    · intro p
      rw [hsame, hrect, hp.moves_eq, showsAt, showsAt, hscale]
      exact Prod.ext (hshows hc.1 hcorner.1 hcoarser.1 p.1) (hshows hc.2 hcorner.2 hcoarser.2 p.2)
    · rintro ⟨q, r⟩ ⟨⟨hq0, hq1⟩, hr0, hr1⟩
      obtain ⟨p, hp0, hpq⟩ := exists_position tile.coord.col k hq0 hq1
      obtain ⟨p', hp0', hpr⟩ := exists_position tile.coord.row k hr0 hr1
      refine ⟨(p, p'), ⟨hp0, hp0'⟩, ?_⟩
      rw [hp.moves_eq]
      exact Prod.ext hpq hpr

end Substitute

/-! ## The ladder, step by step -/

section Ladder

/-- The first hit of a search over the numbers below a bound. -/
theorem findSome?_range_eq_some {α : Type} {f : ℕ → Option α} {a : α} {n : ℕ} :
    (List.range n).findSome? f = some a ↔
      ∃ i < n, f i = some a ∧ ∀ j < i, f j = none := by
  induction n with
  | zero =>
    simp only [List.range_zero, List.findSome?_nil, Nat.not_lt_zero, false_and, exists_false,
      reduceCtorEq]
  | succ n ih =>
    rw [List.range_succ, List.findSome?_append, Option.or_eq_some_iff, ih]
    constructor
    · rintro (⟨i, hi, hfound, hbefore⟩ | ⟨hnone, hlast⟩)
      · exact ⟨i, Nat.lt_succ_of_lt hi, hfound, hbefore⟩
      · rw [List.findSome?_singleton] at hlast
        refine ⟨n, Nat.lt_succ_self n, hlast, fun j hj => ?_⟩
        exact List.findSome?_eq_none_iff.mp hnone j (List.mem_range.mpr hj)
    · rintro ⟨i, hi, hfound, hbefore⟩
      rcases Nat.lt_succ_iff_lt_or_eq.mp hi with hlt | rfl
      · exact Or.inl ⟨i, hlt, hfound, hbefore⟩
      · refine Or.inr ⟨List.findSome?_eq_none_iff.mpr fun j hj => ?_, ?_⟩
        · exact hbefore j (List.mem_range.mp hj)
        · rw [List.findSome?_singleton]
          exact hfound

variable {cache : TileKey → Option TileMeta} {content : ObjectId} {revision : UInt64}
  {priorRevision : Option UInt64} {rung : ScaleRung} {achieved : Option Int64} {coord : TileCoord}

/-- The coarser probe gives the first coarser tile in the cache. -/
theorem coarserProbe_eq_some {coarser : ScaleRung} {hit : TileMeta} :
    coarserProbe cache content revision rung achieved coord = some (coarser, hit) ↔
      ∃ octave : ℕ, (1 ≤ octave ∧ octave ≤ maxFallbackOctaves) ∧ coarser = ⟨rung.index - octave⟩ ∧
        cache (coarserKey content revision rung achieved coord octave) = some hit ∧
        ∀ finer, 1 ≤ finer → finer < octave →
          cache (coarserKey content revision rung achieved coord finer) = none := by
  rw [coarserProbe, findSome?_range_eq_some]
  constructor
  · rintro ⟨i, hi, hfound, hbefore⟩
    obtain ⟨found, hcache, heq⟩ := Option.map_eq_some_iff.mp hfound
    cases heq
    refine ⟨i + 1, ⟨Nat.le_add_left 1 i, hi⟩, rfl, hcache, fun finer h1 hlt => ?_⟩
    have hnone := Option.map_eq_none_iff.mp (hbefore (finer - 1) (by omega))
    rwa [Nat.sub_add_cancel h1] at hnone
  · rintro ⟨octave, ⟨h1, hmax⟩, rfl, hcache, hbefore⟩
    refine ⟨octave - 1, by omega, ?_, fun j hj => ?_⟩
    · rw [Nat.sub_add_cancel h1]
      exact Option.map_eq_some_iff.mpr ⟨hit, hcache, rfl⟩
    · exact Option.map_eq_none_iff.mpr (hbefore (j + 1) (by omega) (by omega))

/-- A cell that is in the cache at the scale of its rung needs nothing else. -/
private theorem ladderReady_of_served {found : TileMeta}
    (hfound : cache ⟨content, revision, rung, coord, achieved⟩ = some found)
    (hat : AtScale rung found) :
    LadderReady cache content revision priorRevision rung achieved coord :=
  ⟨fun hnone => absurd hat (hnone found hfound), fun hnone => absurd hat (hnone found hfound)⟩

/-- A tile that is owed, and for which neither a stale nor a coarser tile is shown, is right. -/
private theorem sound_of_owed {tile : PlannedTile} (howed : tile.isMiss = true)
    (hsource : tile.displaySource ≠ .stale ∧ tile.displaySource ≠ .coarser) :
    tile.Sound cache := by
  refine ⟨?_, fun hnot => absurd howed (by rw [hnot]; exact Bool.false_ne_true)⟩
  rintro (hstale | hcoarser)
  · exact absurd hstale hsource.1
  · exact absurd hcoarser hsource.2

/-- A tile that is owed is right when what is held for it stands in for it. -/
private theorem sound_held_iff {tile : PlannedTile} {found : TileMeta}
    (howed : tile.isMiss = true) (hhold : tile.hold = some found)
    (hsource : tile.displaySource = .stale ∨ tile.displaySource = .coarser)
    (hcached : ∃ revision, cache ⟨tile.key.content, revision, tile.sourceRung, tile.sourceCoord,
      tile.key.achievedTime⟩ = some found) :
    tile.Sound cache ↔ Substitutes tile found := by
  constructor
  · intro hsound
    obtain ⟨held, hheld, -, hsub⟩ := hsound.substitute hsource
    obtain rfl := Option.some.inj (hhold.symm.trans hheld)
    exact hsub
  · intro hsub
    exact ⟨fun _ => ⟨found, hhold, hcached, hsub⟩,
      fun hnot => absurd howed (by rw [hnot]; exact Bool.false_ne_true)⟩

/-- A planned tile is right exactly when the tiles that may be shown for it are. -/
theorem sound_planTile_iff (h : rung.InRange) (hc : coord.Fits) :
    (planTile cache content revision priorRevision rung achieved coord).Sound cache ↔
      LadderReady cache content revision priorRevision rung achieved coord := by
  rcases hfresh : (cache ⟨content, revision, rung, coord, achieved⟩).any (fun found =>
    found.exact && found.achievedScale.beq (rungScale rung)) with _ | _
  case true =>
    obtain ⟨found, hfound, hgood⟩ := (Option.any_eq_true _ _).mp hfresh
    rw [planTile, if_pos hfresh]
    refine iff_of_true ⟨?_, fun _ => ⟨found, hfound, hgood⟩⟩
      (ladderReady_of_served hfound ((Bool.and_eq_true _ _).mp hgood).2)
    rintro (hstale | hcoarser)
    · cases hstale
    · cases hcoarser
  rcases hscale : (cache ⟨content, revision, rung, coord, achieved⟩).any (fun found =>
    found.achievedScale.beq (rungScale rung)) with _ | _
  case true =>
    obtain ⟨found, hfound, hat⟩ := (Option.any_eq_true _ _).mp hscale
    rw [planTile, if_neg (ne_true_of_eq_false hfresh), if_pos hscale]
    exact iff_of_true (sound_of_owed rfl ⟨nofun, nofun⟩) (ladderReady_of_served hfound hat)
  have hplan := ne_true_of_eq_false hfresh
  have hplan' := ne_true_of_eq_false hscale
  have hunserved : ∀ found, cache ⟨content, revision, rung, coord, achieved⟩ = some found →
      ¬ AtScale rung found := by
    intro found hfound hat
    rw [hfound, Option.any_some] at hscale
    rw [AtScale, hscale] at hat
    cases hat
  rcases hstale : priorRevision.bind fun prior =>
    cache ⟨content, prior, rung, coord, achieved⟩ with _ | stale
  case some =>
    obtain ⟨prior, hprior, hfound⟩ := Option.bind_eq_some_iff.mp hstale
    rw [planTile, if_neg hplan, if_neg hplan', hstale, sound_held_iff rfl rfl (Or.inl rfl) ⟨prior, ?_⟩,
      substitutes_stale_iff h hc rfl rfl rfl]
    · constructor
      · intro hat
        refine ⟨fun _ p found hp hf => ?_, fun _ hnone => ?_⟩
        · obtain rfl := Option.some.inj (hprior.symm.trans hp)
          obtain rfl := Option.some.inj (hfound.symm.trans hf)
          exact hat
        · rw [hnone prior hprior] at hfound
          cases hfound
      · intro hready
        exact hready.stale hunserved prior stale hprior hfound
    · rw [sourceCoord_of_same (by rfl)]
      exact hfound
  have hnostale : ∀ prior, priorRevision = some prior →
      cache ⟨content, prior, rung, coord, achieved⟩ = none := by
    rintro prior rfl
    exact hstale
  rcases hcoarser : coarserProbe cache content revision rung achieved coord with _ | ⟨coarser, hit⟩
  · rw [planTile, if_neg hplan, if_neg hplan', hstale, hcoarser]
    refine iff_of_true (sound_of_owed rfl ⟨nofun, nofun⟩) ⟨?_, ?_⟩
    · intro _ prior found hprior hfound
      rw [hnostale prior hprior] at hfound
      cases hfound
    · intro _ _ octave found h1 hmax hbefore hfound
      rw [coarserProbe_eq_some.mpr ⟨octave, ⟨h1, hmax⟩, rfl, hfound, hbefore⟩] at hcoarser
      cases hcoarser
  · obtain ⟨octave, ⟨h1, hmax⟩, rfl, hfound, hbefore⟩ := coarserProbe_eq_some.mp hcoarser
    rw [planTile, if_neg hplan, if_neg hplan', hstale, hcoarser,
      sound_held_iff rfl rfl (Or.inr rfl) ⟨revision, ?_⟩,
      substitutes_coarser_iff h hc hmax rfl rfl rfl]
    · constructor
      · intro hgood
        refine ⟨fun _ prior found hprior hf => ?_, fun _ _ octave' found h1' hmax' hbefore' hf => ?_⟩
        · rw [hnostale prior hprior] at hf
          cases hf
        · -- there is one first octave
          have hsame : octave' = octave := by
            rcases Nat.lt_trichotomy octave' octave with hlt | heq | hgt
            · rw [hbefore octave' h1' hlt] at hf
              cases hf
            · exact heq
            · rw [hbefore' octave h1 hgt] at hfound
              cases hfound
          subst hsame
          obtain rfl := Option.some.inj (hfound.symm.trans hf)
          exact hgood
      · intro hready
        exact hready.coarser hunserved hnostale octave hit h1 hmax hbefore hfound
    · rw [sourceCoord_eq (by rfl), ← coarserCoord_eq]
      exact hfound

end Ladder

/-! ## Whole plans -/

section Main

variable (cache : TileKey → Option TileMeta) (content : ObjectId) (revision : UInt64)
  (priorRevision : Option UInt64)

/-- Every tile of a plan is right. -/
def LayerTilePlan.Sound {σ δ : Type} (plan : LayerTilePlan σ δ) : Prop :=
  ∀ tile ∈ plan.tiles, tile.Sound cache

/-- The tiles of a plan are right exactly when, for every cell of its cover that is not in the cache
at the scale of its rung, what the cache has for it instead is at the scale of its own. -/
theorem ladderSound_iff {σ δ : Type} (selection : RungSelection) (localRegion : DeviceRect)
    (localToDevice : Transform) (stability : Stability) (time : Int64) (snapshot : σ)
    (deadline : δ) (quantizeTime : Option (Int64 → Option Int64)) :
    (∀ plan, planLayer cache content revision priorRevision selection localRegion localToDevice
      stability time snapshot deadline quantizeTime = some plan → plan.Sound cache) ↔
    ∀ cover, tilesCovering? selection.rung localRegion = some cover → ∀ coord ∈ cover,
      LadderReady cache content revision priorRevision selection.rung
        (keyTime stability quantizeTime time) coord := by
  constructor
  · intro hsound cover hcover coord hmem
    obtain ⟨h, hc⟩ := fits_of_mem_cover hcover hmem
    rw [← sound_planTile_iff h hc]
    refine hsound _ (by rw [planLayer, hcover]; rfl) _ ?_
    exact List.mem_map_of_mem hmem
  · intro hready plan hplan tile htile
    obtain ⟨cover, hcover, rfl⟩ := Option.map_eq_some_iff.mp hplan
    obtain ⟨coord, hmem, rfl⟩ := List.mem_map.mp htile
    obtain ⟨h, hc⟩ := fits_of_mem_cover hcover hmem
    exact (sound_planTile_iff h hc).mpr (hready cover hcover coord hmem)

/-- A cache with one tile at revision one that was rendered at a quarter of the scale of its
rung. -/
def clampedCache : TileKey → Option TileMeta := fun key =>
  if key = ⟨⟨7⟩, 1, ⟨2⟩, ⟨0, 0⟩, none⟩ then some ⟨1, false⟩ else none

/-- At the revision after, that tile is shown as if it had the scale of its rung. -/
theorem not_ladderSound : ¬ ∀ plan, planLayer clampedCache ⟨7⟩ 2 (some 1) ⟨⟨2⟩, 1⟩
    ⟨0, 0, ofInt 64, ofInt 64⟩ {} .static 0 () () none = some plan → plan.Sound clampedCache := by
  intro hsound
  have hcover : tilesCovering? ⟨2⟩ ⟨0, 0, ofInt 64, ofInt 64⟩ = some [⟨0, 0⟩] := by decide +kernel
  have htile := hsound _ (by rw [planLayer, hcover]; rfl) _ (List.mem_singleton_self _)
  rw [sound_planTile_iff ⟨by decide, by decide⟩ ⟨by decide, by decide⟩] at htile
  have hnone : clampedCache ⟨⟨7⟩, 2, ⟨2⟩, ⟨0, 0⟩, none⟩ = none := by decide +kernel
  have hat := htile.stale (fun found hfound => absurd (hnone.symm.trans hfound) nofun) 1 ⟨1, false⟩
    rfl (by decide +kernel)
  have hnot : (1 : Double).beq (rungScale ⟨2⟩) = false := by decide +kernel
  exact Bool.false_ne_true (hnot.symm.trans hat)

end Main

end ArbitraryComposer
