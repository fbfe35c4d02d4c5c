import ArbitraryComposer.Compositor.TilePlanning
import Mathlib.Data.List.Destutter

/-!
# Damage Planning

What damage does to a frame. The clock damages every moving layer it passes; damage maps to device
rectangles; the rectangles are rounded out to whole pixels and cut into disjoint ones, which are
cleared and drawn again; and the cached tiles that damage touches are dropped.

## Main definitions

- `addDamage`: one damage for an object, over double-precision rectangles.
- `clockAdvanceDamage`: the damage of the clock.
- `repaintRegion`, `repaintRegions`: what is drawn again.
- `Damage.drops`, `invalidateDamage`: the tiles that are dropped.
-/

namespace ArbitraryComposer

open Double

/-! ## Accumulating damage -/

/-- `rect_union`, over double-precision coordinates. -/
def DeviceRect.union (a b : DeviceRect) : DeviceRect :=
  if a.empty then b
  else if b.empty then a
  else ⟨a.x0.min b.x0, a.y0.min b.y0, a.x1.max b.x1, a.y1.max b.y1⟩

/-- Two damages to one object as one. -/
def Damage.merge (e d : Damage Double) : Damage Double :=
  ⟨e.object, DeviceRect.union e.rect d.rect, rangeUnion e.range d.range⟩

/-- `damage_add`, over double-precision coordinates. -/
def addDamage : List (Damage Double) → Damage Double → List (Damage Double)
  | [], d => [d]
  | e :: set, d => if e.object = d.object then e.merge d :: set else e :: addDamage set d

/-- `damage_add` of several damages, in order. -/
def addAllDamage (set : List (Damage Double)) (more : List (Damage Double)) :
    List (Damage Double) := more.foldl addDamage set

section Accumulation

variable {set more : List (Damage Double)} {c d : Damage Double} {P : Damage Double → Prop}

/-- What merging keeps holds of all damage that is gathered. -/
theorem forall_addDamage (hmerge : ∀ e d, P e → P d → P (e.merge d)) (hset : ∀ d ∈ set, P d)
    (hc : P c) : ∀ d ∈ addDamage set c, P d := by
  induction set with
  | nil =>
    intro d hd
    rwa [List.mem_singleton.mp hd]
  | cons e set ih =>
    obtain ⟨he, hset⟩ := List.forall_mem_cons.mp hset
    unfold addDamage
    split
    · exact List.forall_mem_cons.mpr ⟨hmerge e c he hc, hset⟩
    · exact List.forall_mem_cons.mpr ⟨he, ih hset⟩

theorem forall_addAllDamage (hmerge : ∀ e d, P e → P d → P (e.merge d)) (hset : ∀ d ∈ set, P d)
    (hmore : ∀ d ∈ more, P d) : ∀ d ∈ addAllDamage set more, P d := by
  induction more generalizing set with
  | nil => exact hset
  | cons c more ih =>
    obtain ⟨hc, hmore⟩ := List.forall_mem_cons.mp hmore
    exact ih (forall_addDamage hmerge hset hc) hmore

/-- The objects damaged. -/
theorem mem_objects_addDamage {id : ObjectId} :
    id ∈ (addDamage set c).map (·.object) ↔ id ∈ set.map (·.object) ∨ id = c.object := by
  induction set with
  | nil => simp [addDamage]
  | cons e set ih =>
    unfold addDamage
    split
    · rename_i hobject
      simp only [List.map_cons, List.mem_cons, Damage.merge, ← hobject]
      tauto
    · simp only [List.map_cons, List.mem_cons, ih]
      tauto

theorem mem_objects_addAllDamage {id : ObjectId} :
    id ∈ (addAllDamage set more).map (·.object) ↔
      id ∈ set.map (·.object) ∨ id ∈ more.map (·.object) := by
  induction more generalizing set with
  | nil => simp [addAllDamage]
  | cons c more ih =>
    change id ∈ (addAllDamage (addDamage set c) more).map _ ↔ _
    rw [ih, mem_objects_addDamage, List.map_cons, List.mem_cons, or_assoc]

end Accumulation

/-! ## The clock -/

/-- A layer that the clock damages: in sight, with a content that is not static. -/
def LayerRecord.moving {κ : Type} (library : ContentLibrary κ) (l : LayerRecord) : Bool :=
  l.visible && !Double.le ⟨l.opacity⟩ 0 &&
    (library.resolve l.content).any fun content => library.stability content != .static

/-- What the clock adds for a report of the walk. -/
def WalkReport.clockDamage {κ : Type} (library : ContentLibrary κ) (advanced : TimeRange) :
    WalkReport → List (Damage Double)
  | .visit _ layer _ =>
    if layer.moving library then [⟨layer.content, DeviceRect.infinite, advanced⟩] else []
  | .descend _ _ _ => []

/-- `clock_advance_damage`. -/
def clockAdvanceDamage {κ : Type} (library : ContentLibrary κ) (m : DocMap) (turns : ℕ)
    (viewport : Viewport) (advanced : TimeRange) : Option (List (Damage Double)) :=
  if advanced.empty then some []
  else (cullWalk m turns viewport).map fun reports =>
    addAllDamage [] (reports.flatMap (WalkReport.clockDamage library advanced))

section Clock

variable {κ : Type} {library : ContentLibrary κ} {m : DocMap} {turns : ℕ} {viewport : Viewport}
  {advanced : TimeRange} {reports : List WalkReport} {damage : List (Damage Double)}

/-- The clock damages whole objects, over the interval it moved. -/
theorem forall_clockAdvanceDamage
    (h : clockAdvanceDamage library m turns viewport advanced = some damage) :
    ∀ d ∈ damage, d.rect = DeviceRect.infinite ∧ d.range = advanced := by
  unfold clockAdvanceDamage at h
  split at h
  · cases h
    exact fun d hd => absurd hd List.not_mem_nil
  obtain ⟨reports, -, rfl⟩ := Option.map_eq_some_iff.mp h
  refine forall_addAllDamage ?_ (fun d hd => absurd hd List.not_mem_nil) fun d hd => ?_
  · -- the whole plane and the interval are their own unions
    rintro e d ⟨he, hre⟩ ⟨hd, hrd⟩
    constructor
    · rw [Damage.merge, he, hd]
      change DeviceRect.union DeviceRect.infinite DeviceRect.infinite = DeviceRect.infinite
      decide
    · change rangeUnion e.range d.range = advanced
      rw [hre, hrd, rangeUnion]
      split
      · rfl
      · exact congrArg₂ TimeRange.mk (ite_self _) (ite_self _)
  · obtain ⟨e, -, hd⟩ := List.mem_flatMap.mp hd
    cases e with
    | visit layerId layer composed =>
      obtain ⟨-, hd⟩ := List.mem_ite_nil_right.mp hd
      rw [List.mem_singleton.mp hd]
      exact ⟨rfl, rfl⟩
    | descend groupLayer childComposition composed => cases hd

/-- When the clock moves forward it damages the content of every moving layer in the walk. -/
theorem mem_objects_clockAdvanceDamage (hwalk : cullWalk m turns viewport = some reports)
    (hforward : advanced.empty = false) :
    ∃ damage, clockAdvanceDamage library m turns viewport advanced = some damage ∧
      ∀ id, id ∈ damage.map (·.object) ↔ ∃ layerId layer composed,
        .visit layerId layer composed ∈ reports ∧ layer.moving library = true ∧
          id = layer.content := by
  refine ⟨_, by rw [clockAdvanceDamage, if_neg (by simp [hforward]), hwalk]; rfl, fun id => ?_⟩
  rw [mem_objects_addAllDamage, List.map_nil, List.mem_map]
  constructor
  · rintro (hnil | ⟨d, hd, rfl⟩)
    · cases hnil
    obtain ⟨e, he, hd⟩ := List.mem_flatMap.mp hd
    cases e with
    | visit layerId layer composed =>
      obtain ⟨hmoving, hd⟩ := List.mem_ite_nil_right.mp hd
      exact ⟨layerId, layer, composed, he, hmoving, by rw [List.mem_singleton.mp hd]⟩
    | descend groupLayer childComposition composed => cases hd
  · rintro ⟨layerId, layer, composed, he, hmoving, rfl⟩
    refine .inr ⟨⟨layer.content, DeviceRect.infinite, advanced⟩, ?_, rfl⟩
    refine List.mem_flatMap.mpr ⟨_, he, ?_⟩
    exact List.mem_ite_nil_right.mpr ⟨hmoving, List.mem_singleton_self _⟩

end Clock

/-! ## What is drawn again -/

/-- A rectangle rounded out to whole pixels. A zero loses its sign, which no comparison sees. -/
def DeviceRect.roundOut (r : DeviceRect) : DeviceRect :=
  ⟨ofInt r.x0.floorInt, ofInt r.y0.floorInt, ofInt r.x1.ceilInt, ofInt r.y1.ceilInt⟩

/-- `integer_inputs`. -/
def integerInputs (dirty : List DeviceRect) (deviceRect : DeviceRect) : List DeviceRect :=
  dirty.filterMap fun r =>
    let clipped := r.intersect deviceRect
    let bounded := (DeviceRect.roundOut clipped).intersect deviceRect
    if clipped.empty || bounded.empty then none else some bounded

/-- The order `std::sort` puts runs in. -/
def runBefore (a b : Double × Double) : Bool := a.1.lt b.1 || (!b.1.lt a.1 && !b.2.lt a.2)

/-- The loop that merges sorted runs which overlap or abut. -/
def mergeRuns : List (Double × Double) → List (Double × Double)
  | [] => []
  | run :: rest =>
    match mergeRuns.absorb run rest with
    | (run, rest) => run :: rest
where
  /-- A run takes in the runs that begin before it ends. -/
  absorb (run : Double × Double) :
      List (Double × Double) → (Double × Double) × List (Double × Double)
    | [] => (run, [])
    | next :: rest =>
      if next.1.le run.2 then absorb (run.1, run.2.max next.2) rest
      else
        match absorb next rest with
        | (next, rest) => (run, next :: rest)

/-- `band_runs`. -/
def bandRuns (inputs : List DeviceRect) (y0 y1 : Double) : List (Double × Double) :=
  mergeRuns (((inputs.filter fun r => r.y0.le y0 && y1.le r.y1).map fun r =>
    (r.x0, r.x1)).insertionSort fun a b => runBefore a b = true)

/-- `repaint_region`. -/
def repaintRegion (dirty : List DeviceRect) (viewport : Viewport) : DeviceRect :=
  let box := dirty.foldl (fun box r =>
    let clipped := r.intersect viewport.deviceRect
    if clipped.empty then box else DeviceRect.union box clipped) ⟨0, 0, 0, 0⟩
  if box.empty then ⟨0, 0, 0, 0⟩ else (DeviceRect.roundOut box).intersect viewport.deviceRect

/-- `k_max_repaint_rects`. -/
def maxRepaintRects : ℕ := 64

/-- The sweep over the bands: the rectangles done, newest first, and those of the band below. `none`
says that there are too many. -/
def sweepBands (inputs : List DeviceRect) :
    List Double → List DeviceRect → List DeviceRect → Option (List DeviceRect)
  | y0 :: y1 :: edges, done, below =>
    let runs := bandRuns inputs y0 y1
    if runs.isEmpty then sweepBands inputs (y1 :: edges) (below ++ done) []
    else if runs = below.reverse.map fun r => (r.x0, r.x1) then
      sweepBands inputs (y1 :: edges) done (below.map fun r => { r with y1 := y1 })
    else
      let band := (runs.map fun run => (⟨run.1, y0, run.2, y1⟩ : DeviceRect)).reverse
      if maxRepaintRects < (band ++ below ++ done).length then none
      else sweepBands inputs (y1 :: edges) (below ++ done) band
  | _, done, below => some (below ++ done).reverse

/-- `repaint_regions`. -/
def repaintRegions (dirty : List DeviceRect) (viewport : Viewport) : List DeviceRect :=
  let inputs := integerInputs dirty viewport.deviceRect
  let edges := ((inputs.flatMap fun r => [r.y0, r.y1]).insertionSort fun a b =>
    b.lt a = false).destutter fun a b => a.beq b = false
  (sweepBands inputs edges [] []).getD [repaintRegion dirty viewport]

/-! ## What is dropped -/

/-- The test of `invalidate_content` and of `invalidate_region` on the key of a tile. -/
def Damage.drops (d : Damage Double) (key : TileKey) : Bool :=
  key.content == d.object &&
    (!DeviceRect.isFinite d.rect ||
      !DeviceRect.empty ((tileRenderRect key.rung key.coord).intersect d.rect))

/-- `invalidate_damage`, as the calls of `remove_if` it makes. -/
def invalidateDamage {ν : Type} (damage : List (Damage Double)) : List (CacheEvent TileKey ν) :=
  damage.map fun d => .removeIf d.drops

end ArbitraryComposer
