import ArbitraryComposer.Cache.Accounting
import ArbitraryComposer.Compositor.DamagePlanning

/-!
# The Interactive Frame Loop

A frame collects the damage of the model and of the clock, maps it to the device and leaves early
when none of it is visible and nothing else is owed. Otherwise it drops the cached tiles that the
damage touches, probes the cache for the tiles it draws, and renders what is missing. A tile that
is found exact at the wanted scale is drawn as it is: it is fresh.

An event is a call of `render_frame`, with what it is handed and what the rest of the frame does: its
other work on the cache, the damage of the renders that arrived, and what is in flight when it ends.
The record of a run holds the tiles that damage made out of date and those drawn as fresh although
they were.

## Main definitions

- `InteractiveRenderer`, `Frame`: the renderer and the input of a frame.
- `InteractiveRenderer.dirtyRects`, `takesEarlyOut`: the dirty region and the early-out.
- `interactiveModel`: all runs of frames.
-/

namespace ArbitraryComposer

open Double

/-- The views of the content graph that a renderer keeps for a revision. -/
structure IdentityMemo (κ : Type) where
  /-- `d_identity_map`: the cache identity of a content. -/
  pullIdentity : κ → Option ObjectId
  /-- `route_operator_damage` over `d_operator_layers`. -/
  routeUp : κ → DeviceRect → TimeRange → List (Damage Double)

/-- `InteractiveRenderer`, as far as its frames read it. -/
structure InteractiveRenderer (κ : Type) where
  /-- `d_prev_time`. -/
  prevTime : Option Int64 := none
  /-- `d_prev_viewport`. -/
  prevViewport : Option Viewport := none
  /-- `d_carried_damage`. -/
  carriedDamage : List (Damage Double) := []
  /-- The tiles of `d_pending`. -/
  pending : List TileKey := []
  /-- `d_identity_revision` and what is kept for it. -/
  identity : Option (ℕ × IdentityMemo κ) := none
  /-- `d_frames_rendered`. -/
  framesRendered : ℕ := 0

/-- What `render_frame` is handed, with the views that a refresh of the memo builds. -/
structure Frame (κ : Type) where
  /-- The document version. -/
  state : DocMap
  /-- Its revision. -/
  revision : ℕ
  /-- The turns that its chains and walks may take. -/
  turns : ℕ
  /-- The contents. -/
  library : ContentLibrary κ
  /-- The graph of the contents. -/
  identity : IdentityMemo κ
  /-- The revision that a content's tiles are keyed under. -/
  contribution : κ → UInt64
  /-- The viewport. -/
  viewport : Viewport
  /-- The model damage. -/
  modelDamage : List (Damage Double)
  /-- The instant. -/
  time : Int64

namespace InteractiveRenderer

variable {κ : Type}

/-- `refresh_identity_memo`. -/
def refreshIdentity (R : InteractiveRenderer κ) (F : Frame κ) : InteractiveRenderer κ :=
  match R.identity with
  | some (revision, _) =>
    if revision = F.revision then R else { R with identity := some (F.revision, F.identity) }
  | none => { R with identity := some (F.revision, F.identity) }

/-- The loop of `route_model_damage` over the damage of one object. -/
def routeOne (memo : Option (IdentityMemo κ)) (library : ContentLibrary κ)
    (routed : List (Damage Double)) (d : Damage Double) : List (Damage Double) :=
  match library.resolve d.object, memo with
  | some content, some memo =>
    let routed := match memo.pullIdentity content with
      | some id => addDamage routed ⟨id, d.rect, d.range⟩
      | none => routed
    addAllDamage routed (memo.routeUp content d.rect d.range)
  | _, _ => routed

/-- `route_model_damage`. -/
def routeModelDamage (R : InteractiveRenderer κ) (F : Frame κ) : List (Damage Double) :=
  let memo := (R.refreshIdentity F).identity.map Prod.snd
  F.modelDamage.foldl (routeOne memo F.library) F.modelDamage

/-- The interval the clock moved over. -/
def advanced (R : InteractiveRenderer κ) (F : Frame κ) : TimeRange :=
  ⟨R.prevTime.getD F.time, F.time⟩

/-- The damage of the clock. -/
def clockDamage (R : InteractiveRenderer κ) (F : Frame κ) : Option (List (Damage Double)) :=
  clockAdvanceDamage F.library F.state F.turns F.viewport (R.advanced F)

/-- The device rectangles of the damage of the clock, mapped where it starts. -/
def clockRects (R : InteractiveRenderer κ) (F : Frame κ) : Option (List DeviceRect) := do
  let damage ← R.clockDamage F
  if damage.isEmpty then some []
  else mapDamageToDevice F.state F.turns F.viewport damage (R.advanced F).start

/-- The dirty region of a frame: the model damage and what arrived since, and the clock. -/
def dirtyRects (R : InteractiveRenderer κ) (F : Frame κ) : Option (List DeviceRect) := do
  let present := addAllDamage (R.routeModelDamage F) R.carriedDamage
  let rects ← mapDamageToDevice F.state F.turns F.viewport present F.time
  let clock ← R.clockRects F
  some (rects ++ clock)

/-- The frame is not the first one and the mapping to the device is that of the frame before. -/
def sameView (R : InteractiveRenderer κ) (F : Frame κ) : Bool :=
  R.prevTime.isSome && R.prevViewport.all (· = F.viewport)

/-- The test of the early-out, given the dirty region. -/
def takesEarlyOut (R : InteractiveRenderer κ) (F : Frame κ) (dirty : List DeviceRect) : Bool :=
  R.sameView F && dirty.isEmpty && R.pending.isEmpty

/-- The damage that drops tiles: the model's and the clock's. -/
def contentDamage (R : InteractiveRenderer κ) (F : Frame κ) : Option (List (Damage Double)) :=
  (R.clockDamage F).map (addAllDamage (R.routeModelDamage F))

end InteractiveRenderer

/-- The layers a frame draws, bottom to top. -/
def Frame.placed {κ : Type} (F : Frame κ) : Option (List (PlacedLayer κ)) :=
  (F.state.layersIn F.turns F.viewport.anchor).map fun order =>
    order.filterMap fun member =>
      (F.state.findLayer member).bind (placeLayer F.library F.viewport F.time)

/-- The keys a frame probes first, layer by layer, where `repaint` is what is drawn again or
everything. -/
def Frame.keys {κ : Type} (F : Frame κ) (repaint : Option (List DeviceRect)) :
    Option (List TileKey) :=
  F.placed.map fun placed =>
    placed.flatMap (PlacedLayer.keys F.library F.contribution repaint)

/-! ## The machine -/

/-- What the rest of a frame does. -/
structure FrameWork where
  /-- The work on the cache before each probe and after the last one. -/
  cacheWork : List (List (CacheEvent TileKey TileMeta)) := []
  /-- The routed damage of the renders that arrived. -/
  arrivals : List (Damage Double) := []
  /-- The tiles in flight at the end. -/
  pending : List TileKey := []

/-- The probes of a frame, with its other work on the cache between them. -/
def interleave {κ ν : Type} : List κ → List (List (CacheEvent κ ν)) → List (CacheEvent κ ν)
  | [], work => work.flatten
  | key :: keys, [] => .lookup key :: interleave keys []
  | key :: keys, first :: work => first ++ .lookup key :: interleave keys work

/-- A cache and the record of its run, with the entries that were found fresh. -/
structure TileSession where
  /-- The cache and the holds on it. -/
  cache : CacheSession TileKey TileMeta
  /-- The record. -/
  ledger : CacheLedger := {}
  /-- The identities of the entries found fresh. -/
  freshHits : List ℕ := []

/-- The entry a probe finds fresh. -/
def TileSession.freshHit (s : TileSession) : CacheEvent TileKey TileMeta → List ℕ
  | .lookup key =>
    match s.cache.store.find? key with
    | some (_, e) => if e.value.fresh key.rung then [e.id] else []
    | none => []
  | _ => []

/-- An operation on the cache. -/
def TileSession.step (s : TileSession) (e : CacheEvent TileKey TileMeta) : Option TileSession :=
  (s.cache.step e).map fun cache =>
    ⟨cache, .record e s.cache cache s.ledger, s.freshHit e ++ s.freshHits⟩

/-- Operations on the cache, in order. -/
def TileSession.runAll (s : TileSession) : List (CacheEvent TileKey TileMeta) → Option TileSession
  | [] => some s
  | e :: es => (s.step e).bind (·.runAll es)

/-- The session at the start of a frame: nothing was found fresh yet. -/
def TileSession.newFrame (s : TileSession) : TileSession := { s with freshHits := [] }

/-- The key is that of a tile which the damage makes out of date: the rectangle that was rendered
for it meets the damaged one. -/
def Damage.outdates (d : Damage Double) (key : TileKey) : Bool :=
  key.content == d.object &&
    !DeviceRect.empty ((tileRenderRect key.rung key.coord).intersect d.rect)

/-- The renderer and its cache, with the record of the run. -/
structure FrameLoop (κ : Type) where
  /-- The renderer. -/
  renderer : InteractiveRenderer κ
  /-- The cache. -/
  tiles : TileSession
  /-- The tiles that damage made out of date. -/
  outdated : List ℕ := []
  /-- The tiles that were out of date and drawn as fresh. -/
  staleDrawn : List ℕ := []

namespace FrameLoop

variable {κ : Type}

/-- The cached tiles that the model damage of a frame makes out of date. -/
def newlyOutdated (L : FrameLoop κ) (F : Frame κ) : List ℕ :=
  let damage := L.renderer.routeModelDamage F
  (L.tiles.cache.store.map.filter fun p => damage.any fun d => d.outdates p.1).map fun p => p.2.id

/-- `render_frame`. -/
def renderFrame (L : FrameLoop κ) (F : Frame κ) (work : FrameWork) : Option (FrameLoop κ) := do
  let dirty ← L.renderer.dirtyRects F
  let damage ← L.renderer.contentDamage F
  let outdated := L.newlyOutdated F ++ L.outdated
  if L.renderer.takesEarlyOut F dirty then
    let renderer := if F.modelDamage.isEmpty then L.renderer else L.renderer.refreshIdentity F
    some { L with
      renderer := { renderer with prevTime := some F.time, carriedDamage := [] }
      outdated := outdated }
  else
    let repaint := if L.renderer.sameView F then some (repaintRegions dirty F.viewport) else none
    let keys ← F.keys repaint
    let invalidated ← L.tiles.newFrame.runAll (invalidateDamage damage)
    let tiles ← invalidated.runAll (interleave keys work.cacheWork)
    some {
      renderer := { L.renderer.refreshIdentity F with
        prevTime := some F.time
        prevViewport := some F.viewport
        carriedDamage := work.arrivals
        pending := work.pending
        framesRendered := L.renderer.framesRendered + 1 }
      tiles := tiles
      outdated := outdated
      staleDrawn := tiles.freshHits.filter (· ∈ outdated) ++ L.staleDrawn }

end FrameLoop

/-- What happens to a frame loop. -/
inductive LoopEvent (κ : Type) where
  /-- `render_frame`. -/
  | frame (F : Frame κ) (work : FrameWork)
  /-- The cache is used by others between frames. -/
  | cache (e : CacheEvent TileKey TileMeta)

/-- The effect of an event. -/
def FrameLoop.step {κ : Type} : LoopEvent κ → FrameLoop κ → Option (FrameLoop κ)
  | .frame F work, L => L.renderFrame F work
  | .cache e, L => (L.tiles.step e).map fun tiles => { L with tiles := tiles }

/-- All runs of frames, from a new renderer and an empty cache of any budget. -/
def interactiveModel (κ : Type) : Machine (FrameLoop κ) (LoopEvent κ) where
  start L := ∃ budget, L = { renderer := {}, tiles := { cache := ⟨{ budget }, []⟩ } }
  step := FrameLoop.step

end ArbitraryComposer
