import ArbitraryComposer.Base.Transform
import ArbitraryComposer.Compositor.OperatorGraph
import ArbitraryComposer.Model.Queries

/-!
# Anchored Viewports

The walk from the anchor of a viewport down through the compositions its layers name. Transforms
are composed on the way down, and a composition that falls off the viewport or below a pixel is
not entered. There is no other bound: the model does not reject compositions that contain
themselves, and the walk enters such a composition as often as its placement stays in view.

A walk takes a number of turns; `none` says that they did not suffice.

## Main definitions

- `subtreeCulled`, `walkComposition`, `cullWalk`: the walk, with what it reports in order.
- `mapDamageToDevice`: damage as device rectangles.
-/

namespace ArbitraryComposer

open Double

/-- `LayerRecord::visible`. -/
def LayerRecord.visible (l : LayerRecord) : Bool := l.flags &&& layerVisible != 0

/-- `k_subpixel_cull_extent`. -/
def subpixelCullExtent : Double := 1

/-- `subtree_culled`. -/
def subtreeCulled (composed : Transform) (canvasW canvasH : Double) (deviceRect : DeviceRect) :
    Bool :=
  match composed.inverse with
  | none => true
  | some inv =>
    let region := (inv.mapRect deviceRect).intersect ⟨0, 0, canvasW, canvasH⟩
    if region.empty then true
    else
      let scale := composed.maxScale
      if !(Double.lt 0 scale) || !scale.isFinite then true
      else (region.width * scale).lt subpixelCullExtent ||
        (region.height * scale).lt subpixelCullExtent

/-- What the walk reports: the calls of `on_descend` and `visit`. -/
inductive WalkReport where
  /-- A layer that names a composition, before it is culled or entered. -/
  | descend (groupLayer childComposition : ObjectId) (composed : Transform)
  /-- Any other layer. -/
  | visit (layerId : ObjectId) (layer : LayerRecord) (composed : Transform)
  deriving DecidableEq

/-- Whether the walk enters the composition a layer names. -/
def entered (layer : LayerRecord) (child : CompositionRecord) (composed : Transform)
    (deviceRect : DeviceRect) : Bool :=
  layer.visible && !Double.le ⟨layer.opacity⟩ 0 &&
    !subtreeCulled composed ⟨child.canvasW⟩ ⟨child.canvasH⟩ deviceRect

/-- What the walk does at a member of a composition, given how it walks the composition the
member names. -/
def walkMember (m : DocMap) (toDevice : Transform) (deviceRect : DeviceRect)
    (descend : ObjectId → Transform → Option (List WalkReport)) (member : ObjectId) :
    Option (List WalkReport) :=
  match m.findLayer member with
  | none => some []
  | some layer =>
    let composed := compose toDevice layer.transform.toTransform
    match m.findComposition layer.content with
    | some child =>
      if entered layer child composed deviceRect then
        (descend layer.content composed).map (.descend member layer.content composed :: ·)
      else some [.descend member layer.content composed]
    | none => some [.visit member layer composed]

/-- `walk_composition`. -/
def walkComposition (m : DocMap) (deviceRect : DeviceRect) :
    ℕ → ObjectId → Transform → Option (List WalkReport)
  | 0, _, _ => none
  | turns + 1, composition, toDevice => do
    let order ← m.layersIn turns composition
    let reports ← order.mapM
      (walkMember m toDevice deviceRect (walkComposition m deviceRect turns))
    some reports.flatten

/-- `Viewport`. -/
structure Viewport where
  /-- Width in device pixels. -/
  width : ℤ
  /-- Height in device pixels. -/
  height : ℤ
  /-- Anchor space to device pixels. -/
  camera : Transform
  /-- The composition the camera is pinned to. -/
  anchor : ObjectId
  deriving DecidableEq

/-- The device rectangle of a viewport. -/
def Viewport.deviceRect (v : Viewport) : DeviceRect := .fromSize (ofInt v.width) (ofInt v.height)

/-- `k_root_anchor`. -/
def rootAnchor : ObjectId := 0

/-- `cull_walk`. -/
def cullWalk (m : DocMap) (turns : ℕ) (viewport : Viewport) : Option (List WalkReport) :=
  if viewport.anchor = rootAnchor then some []
  else walkComposition m viewport.deviceRect turns viewport.anchor viewport.camera

/-- `TimeRange::contains`. -/
def TimeRange.contains (r : TimeRange) (t : Int64) : Bool := decide (r.start ≤ t ∧ t < r.stop)

/-- The transforms a report matches damaged object `d` with. -/
def WalkReport.matches (d : ObjectId) : WalkReport → List Transform
  | .visit layerId layer composed =>
    if layerId = d then [composed]
    else if layer.content ≠ d ∨ layer.visible = false ∨ Double.le ⟨layer.opacity⟩ 0 = true then []
    else [composed]
  | .descend groupLayer childComposition composed =>
    if groupLayer = d ∨ childComposition = d then [composed] else []

/-- The device rectangle of a damaged rectangle under a transform. -/
def damageRect (viewport : Viewport) (rect : DeviceRect) (composed : Transform) : DeviceRect :=
  if rect.isFinite then (composed.mapRect rect).intersect viewport.deviceRect
  else viewport.deviceRect

/-- What one damage adds to the device rectangles. -/
def mapOneDamage (m : DocMap) (turns : ℕ) (viewport : Viewport) (now : Int64) (d : Damage Double) :
    Option (List DeviceRect) :=
  if d.range.empty || d.range.contains now then
    (cullWalk m turns viewport).map fun reports =>
      (((if d.object = viewport.anchor then [viewport.camera] else []) ++
        reports.flatMap (WalkReport.matches d.object)).map
          (damageRect viewport d.rect)).filter fun dev => !DeviceRect.empty dev
  else some []

/-- `map_damage_to_device`. -/
def mapDamageToDevice (m : DocMap) (turns : ℕ) (viewport : Viewport) (damage : List (Damage Double))
    (now : Int64) : Option (List DeviceRect) :=
  (damage.mapM (mapOneDamage m turns viewport now)).map List.flatten

end ArbitraryComposer
