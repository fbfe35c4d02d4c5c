import ArbitraryComposer.Base.RationalTime
import ArbitraryComposer.Cache.KeyedStore
import ArbitraryComposer.Compositor.AnchoredViewports

/-!
# Tile Planning

A frame draws the layers of one composition. A layer that is shown at the displayed instant is
placed; its scale is rounded up to a power of two, the rung, and the part of the layer in view is
covered with square cells of that rung. A cell is looked up in the tile cache under the content,
the content's revision, the rung, the cell and, unless the content is static, the instant its
pixels are for.

## Main definitions

- `ContentLibrary`: what the compositor asks contents.
- `ScaleRung`, `selectRung`, `tilesCovering`, `tileRenderRect`: the geometry of tiles.
- `TileKey`, `TileMeta`, `TileMeta.fresh`: what a tile is cached under and when it is up to date.
- `placeLayer`, `PlacedLayer.keys`: the layers a frame draws and the tiles it probes for them.
-/

namespace ArbitraryComposer

open Double

/-- `Stability`. -/
inductive Stability where
  /-- Time does not change the output. -/
  | static
  /-- The output is a function of the instant. -/
  | timed
  /-- The output is not reproducible. -/
  | live
  deriving DecidableEq, Repr

/-- What the compositor asks the contents of a document. -/
structure ContentLibrary (κ : Type) where
  /-- `ContentResolver`. -/
  resolve : ObjectId → Option κ
  /-- `Content::stability`. -/
  stability : κ → Stability
  /-- `Content::bounds`. -/
  bounds : κ → Option DeviceRect
  /-- `Content::quantize_time`. -/
  quantizeTime : κ → Int64 → Option Int64
  /-- `Content::composition_ref`: the composition that a nesting content shows. -/
  compositionRef : κ → ObjectId

/-! ## Rungs and cells -/

/-- `ScaleRung`. -/
structure ScaleRung where
  /-- The exponent of two. -/
  index : ℤ
  deriving DecidableEq, Repr

/-- `rung_scale`: device pixels for a local unit. -/
def rungScale (rung : ScaleRung) : Double :=
  if 1024 ≤ rung.index then infinity false
  else if rung.index < -1074 then 0
  else round false (2 ^ (rung.index + 1074).toNat) 1

/-- `select_rung`: the smallest power of two that is not below the scale. -/
def selectRung (scale : Double) : ScaleRung :=
  let units := scale.units.natAbs
  if units = 2 ^ units.log2 then ⟨units.log2 - 1074⟩ else ⟨units.log2 + 1 - 1074⟩

/-- `TileCoord`. -/
structure TileCoord where
  /-- Column of the cell. -/
  col : ℤ
  /-- Row of the cell. -/
  row : ℤ
  deriving DecidableEq, Repr

/-- `k_tile_size`. -/
def tileSize : ℤ := 256

/-- `k_tile_apron`. -/
def tileApron : ℤ := 4

/-- The edge of a cell in local units. -/
def cellEdge (rung : ScaleRung) : Double := ofInt tileSize / rungScale rung

/-- The integers from `first` to `last`. -/
def indicesUpTo (first last : ℤ) : List ℤ :=
  (List.range (last + 1 - first).toNat).map fun i => first + i

theorem mem_indicesUpTo {first last i : ℤ} :
    i ∈ indicesUpTo first last ↔ first ≤ i ∧ i ≤ last := by
  simp only [indicesUpTo, List.mem_map, List.bind_eq_flatMap, List.mem_flatMap, List.pure_def,
    List.mem_singleton, List.mem_range]
  constructor
  · rintro ⟨-, ⟨k, hk, rfl⟩, rfl⟩
    omega
  · rintro ⟨hfirst, hlast⟩
    exact ⟨(i - first).toNat, ⟨_, by omega, rfl⟩, by omega⟩

theorem nodup_indicesUpTo (first last : ℤ) : (indicesUpTo first last).Nodup := by
  have hlist : indicesUpTo first last =
      (List.range (last + 1 - first).toNat).map fun i : ℕ => first + (i : ℤ) := by
    simp only [indicesUpTo, List.bind_eq_flatMap, List.pure_def, List.map_flatMap, List.map_cons,
      List.map_nil]
    exact List.map_eq_flatMap.symm
  rw [hlist]
  refine List.nodup_range.map ?_
  intro i j hij
  exact Int.ofNat_inj.mp (Int.add_left_cancel hij)

/-- `tiles_covering`. -/
def tilesCovering (rung : ScaleRung) (region : DeviceRect) : List TileCoord :=
  if region.empty then []
  else
    let cell := cellEdge rung
    let cols := indicesUpTo (region.x0 / cell).floorInt ((region.x1 / cell).ceilInt - 1)
    let rows := indicesUpTo (region.y0 / cell).floorInt ((region.y1 / cell).ceilInt - 1)
    rows.flatMap fun row => cols.map fun col => ⟨col, row⟩

theorem mem_tilesCovering {rung : ScaleRung} {region : DeviceRect} {c : TileCoord}
    (h : region.empty = false) : c ∈ tilesCovering rung region ↔
      ((region.x0 / cellEdge rung).floorInt ≤ c.col ∧
        c.col ≤ (region.x1 / cellEdge rung).ceilInt - 1) ∧
      (region.y0 / cellEdge rung).floorInt ≤ c.row ∧
        c.row ≤ (region.y1 / cellEdge rung).ceilInt - 1 := by
  rw [tilesCovering, h, if_neg Bool.false_ne_true]
  simp only [List.mem_flatMap, List.mem_map, mem_indicesUpTo]
  constructor
  · rintro ⟨row, hrow, col, hcol, rfl⟩
    exact ⟨hcol, hrow⟩
  · rintro ⟨hcol, hrow⟩
    exact ⟨c.row, hrow, c.col, hcol, rfl⟩

theorem nodup_tilesCovering (rung : ScaleRung) (region : DeviceRect) :
    (tilesCovering rung region).Nodup := by
  rw [tilesCovering]
  split
  · exact List.nodup_nil
  · have hprod : ∀ rows cols : List ℤ, (rows.flatMap fun row => cols.map fun col =>
        (⟨col, row⟩ : TileCoord)) = (rows ×ˢ cols).map fun p => ⟨p.2, p.1⟩ := by
      intro rows cols
      show _ = (rows.flatMap fun row => cols.map (Prod.mk row)).map _
      rw [List.map_flatMap]
      simp only [List.map_map]
      rfl
    rw [hprod]
    refine ((nodup_indicesUpTo _ _).product (nodup_indicesUpTo _ _)).map ?_
    intro p q hpq
    obtain ⟨hcol, hrow⟩ := TileCoord.mk.injEq _ _ _ _ ▸ hpq
    exact Prod.ext hrow hcol

/-- `tile_local_rect`. -/
def tileLocalRect (rung : ScaleRung) (coord : TileCoord) : DeviceRect :=
  let cell := cellEdge rung
  let x0 := ofInt coord.col * cell
  let y0 := ofInt coord.row * cell
  ⟨x0, y0, x0 + cell, y0 + cell⟩

/-- `tile_render_rect`: the cell and the apron of its neighbours that the taps read. -/
def tileRenderRect (rung : ScaleRung) (coord : TileCoord) : DeviceRect :=
  let cell := tileLocalRect rung coord
  let apron := ofInt tileApron / rungScale rung
  ⟨cell.x0 - apron, cell.y0 - apron, cell.x1 + apron, cell.y1 + apron⟩

/-! ## Keys -/

/-- `TileKey`. -/
structure TileKey where
  /-- The content, under its cache identity. -/
  content : ObjectId
  /-- The revision that the content contributes. -/
  revision : UInt64
  /-- The rung. -/
  rung : ScaleRung
  /-- The cell. -/
  coord : TileCoord
  /-- The instant, unless the content is static. -/
  achievedTime : Option Int64
  deriving DecidableEq, Repr

/-- `TileMeta`. -/
structure TileMeta where
  /-- The scale the tile was rendered at. -/
  achievedScale : Double
  /-- Whether the render was exact. -/
  exact : Bool
  deriving DecidableEq, Repr

/-- The fresh test of `plan_layer`: a hit is fresh when it is exact at the rung of the plan. -/
def TileMeta.fresh (rung : ScaleRung) (found : TileMeta) : Bool :=
  found.exact && found.achievedScale.beq (rungScale rung)

/-! ## The layers of a frame -/

/-- `LayerRecord::blend`. -/
def LayerRecord.blend (l : LayerRecord) : UInt32 := (l.flags &&& layerBlendMask) >>> layerBlendShift

/-- The local time of a layer; one whose local time overflows is not shown. -/
def LayerRecord.localTime (l : LayerRecord) (time : Int64) : Option Int64 :=
  (l.timeMap.evaluate time).toOption

/-- The gates of a layer that come before its geometry: it is visible, it is present at the
instant, its content resolves and its local time can be computed. -/
def LayerRecord.shown {κ : Type} (library : ContentLibrary κ) (time : Int64) (l : LayerRecord) :
    Option (κ × Int64) :=
  if l.visible && !Double.le ⟨l.opacity⟩ 0 && l.span.contains time then
    (library.resolve l.content).bind fun content =>
      (l.localTime time).map fun localTime => (content, localTime)
  else none

/-- A layer of a frame, with its geometry. -/
structure PlacedLayer (κ : Type) where
  /-- The record. -/
  layer : LayerRecord
  /-- The content. -/
  content : κ
  /-- The content-local instant. -/
  localTime : Int64
  /-- Content to device. -/
  composed : Transform
  /-- Device to content. -/
  inverse : Transform
  /-- The part of the content in view. -/
  region : DeviceRect
  /-- The rung. -/
  rung : ScaleRung
  deriving DecidableEq

/-- The geometry of a layer, which may be in no view. It does not depend on the instant. -/
def layerGeometry {κ : Type} (library : ContentLibrary κ) (viewport : Viewport) (l : LayerRecord)
    (content : κ) : Option (Transform × Transform × DeviceRect × ScaleRung) :=
  let composed := compose viewport.camera l.transform.toTransform
  composed.inverse.bind fun inverse =>
    let seen := inverse.mapRect viewport.deviceRect
    let region := match library.bounds content with
      | some bounds => seen.intersect bounds
      | none => seen
    let scale := composed.maxScale
    if region.empty || !(Double.lt 0 scale) || !scale.isFinite then none
    else some (composed, inverse, region, selectRung scale)

/-- What `render_frame_interactive` makes of a layer before it plans tiles. -/
def placeLayer {κ : Type} (library : ContentLibrary κ) (viewport : Viewport) (time : Int64)
    (l : LayerRecord) : Option (PlacedLayer κ) :=
  (l.shown library time).bind fun (content, localTime) =>
    (layerGeometry library viewport l content).map fun (composed, inverse, region, rung) =>
      ⟨l, content, localTime, composed, inverse, region, rung⟩

/-- The instant a content's pixels are for. -/
def ContentLibrary.achievedTime {κ : Type} (library : ContentLibrary κ) (content : κ)
    (time : Int64) : Option Int64 :=
  if library.stability content = .static then none
  else some ((library.quantizeTime content time).getD time)

namespace PlacedLayer

variable {κ : Type}

/-- The key of a cell of a layer. -/
def key (library : ContentLibrary κ) (revision : κ → UInt64) (p : PlacedLayer κ)
    (coord : TileCoord) : TileKey :=
  ⟨p.layer.content, revision p.content, p.rung, coord, library.achievedTime p.content p.localTime⟩

/-- The keys `plan_layer` probes first for a region of a layer. -/
def regionKeys (library : ContentLibrary κ) (revision : κ → UInt64) (p : PlacedLayer κ)
    (region : DeviceRect) : List TileKey :=
  (tilesCovering p.rung region).map (p.key library revision)

/-- The keys a frame probes first for a layer: over all that is in view, or over each repaint
rectangle. -/
def keys (library : ContentLibrary κ) (revision : κ → UInt64) (repaint : Option (List DeviceRect))
    (p : PlacedLayer κ) : List TileKey :=
  match repaint with
  | none => p.regionKeys library revision p.region
  | some rects => rects.flatMap fun rect =>
      p.regionKeys library revision (p.region.intersect (p.inverse.mapRect rect))

end PlacedLayer

end ArbitraryComposer
