import ArbitraryComposer.Runtime.RasterTileStore
import ArbitraryComposer.Serialize.SaveContext

/-!
# Raster Codec

Saving and loading one raster content. A save walks the level-0 grid of a pinned version, asks
the memo for each tile's name, encodes the tiles the memo misses, records and stores them, and
lists all names in the parameters. A load decodes the listed blobs into a fresh pool and seeds
the memo with their names.

A save runs beside the writer thread: wherever it is not inside a memo operation, the edits
the schedule holds next may happen.

## Main definitions

- `RasterContent`, `RasterSession`: the raster contents of a document and everything they share.
- `WriterEdit`: what the writer thread does to a content.
- `serializeRaster`: the save of one content.
- `deserializeRaster`: the load of one content.
-/

namespace ArbitraryComposer

open Exec

/-- The thread that edits, and the one that saves. -/
def writerThread : ℕ := 0

/-- The thread a save runs on. -/
def saveThread : ℕ := 1

/-- The versions of a raster layer; its pool is `TileWorld.pool`. -/
structure RasterContent where
  /-- The tables alive; a dropped version leaves its place empty. -/
  versions : List (Option TileTable)
  /-- The place of the base table. -/
  base : ℕ

/-- `RasterStore::base_table`. -/
def RasterContent.baseTable (content : RasterContent) : Option TileTable :=
  content.versions.getD content.base none

/-- An edit of a raster content by the writer thread. -/
inductive WriterEdit where
  /-- `RasterContent::paint`: the painted version becomes the base. -/
  | paint (c : ℕ) (brush : Brush)
  /-- `RasterContent::restore`: another version becomes the base. -/
  | restore (c k : ℕ)
  /-- The last handle of a version goes. -/
  | dropVersion (c k : ℕ)

/-- The raster contents of a document, their pools and memo, and the sinks of its saves. -/
structure RasterSession where
  /-- Pools and memo. -/
  world : TileWorld
  /-- The contents. -/
  contents : ℕ → RasterContent
  /-- The asset sinks. -/
  sinks : ℕ → AssetSink
  /-- The writer edits that interleave with the running save, batch by batch. -/
  schedule : List (List WriterEdit)
  /-- The version a running save pins. -/
  pinned : Option (ℕ × ℕ)

/-- `SerializeError::Kind`. -/
inductive SerializeError where
  /-- The codec could not encode the content. -/
  | codecFailed
  /-- The document has bytes to store and the save has no sink. -/
  | assetSinkMissing
  /-- The sink could not write. -/
  | assetWriteFailed
  deriving DecidableEq, Repr

/-- Programs on a session. -/
abbrev SessionExec (α : Type) : Type := Exec RasterSession SerializeError Fault α

/-- A program on pools and memo. -/
def onWorld {α : Type} (x : WorldExec α) : SessionExec α :=
  zoom RasterSession.world (fun w s => { s with world := w }) Empty.elim x

/-- How the codec reports a sink error. -/
def SerializeError.ofSink : AssetSinkError → SerializeError
  | .noSink => .assetSinkMissing
  | .writeFailed => .assetWriteFailed

/-- A program on the sinks. -/
def onSinks {α : Type} (x : SinkExec α) : SessionExec α :=
  zoom RasterSession.sinks (fun k s => { s with sinks := k }) SerializeError.ofSink x

/-! ## Writer edits -/

/-- Replace the content `c`. -/
def setContent (c : ℕ) (content : RasterContent) : SessionExec Unit :=
  modify fun s => { s with contents := Function.update s.contents c content }

/-- Apply one edit; an edit of a version that does not exist does nothing. -/
def applyEdit : WriterEdit → SessionExec Unit
  | .paint c brush => do
    let content ← gets fun s => s.contents c
    match content.baseTable with
    | none => pure ()
    | some base =>
      let table ← onWorld (onPool c (paintTable writerThread base brush))
      setContent c ⟨content.versions ++ [some table], content.versions.length⟩
  | .restore c k => do
    let content ← gets fun s => s.contents c
    if (content.versions.getD k none).isSome then
      setContent c { content with base := k }
    else
      pure ()
  | .dropVersion c k => do
    let content ← gets fun s => s.contents c
    let pinned ← gets RasterSession.pinned
    match content.versions.getD k none with
    | none => pure ()
    | some table =>
      -- the base pointer and a running save each keep their version alive
      if k = content.base ∨ pinned = some (c, k) then
        pure ()
      else
        onWorld (onPool c (dropTable writerThread table))
        setContent c { content with versions := content.versions.set k none }

/-- A point of the save at which the writer thread may run. -/
def yieldToWriter : SessionExec Unit := do
  let batch ← gets fun s => s.schedule.headD []
  modify fun s => { s with schedule := s.schedule.tail }
  forEach batch applyEdit

/-! ## Save -/

/-- `k_default_tiles_base`. -/
def defaultTilesBase : String := "assets/tiles/"

/-- A distinct missed slot and the tiles that alias it. -/
structure EncodeJob where
  /-- The tile to encode. -/
  ref : BlockSlotRef
  /-- The grid places it fills. -/
  tiles : List ℕ

/-- One more tile names the slot of a job. -/
def EncodeJob.addTile (i : ℕ) (job : EncodeJob) : EncodeJob := { job with tiles := job.tiles ++ [i] }

/-- The outcome of classifying a grid. -/
structure TilePlan where
  /-- `blob_names`, row-major. -/
  names : List String
  /-- `job_refs` and `job_tiles`. A job is found by its reference, as `pending` finds it. -/
  jobs : List EncodeJob

/-- Phase 1: classify the tiles `refs` of the grid from place `i` on. -/
def classify : List BlockSlotRef → ℕ → TilePlan → SessionExec TilePlan
  | [], _, plan => pure plan
  | ref :: refs, i, plan => do
    yieldToWriter
    match plan.jobs.findIdx? (fun job => job.ref = ref) with
    | some j => classify refs (i + 1) { plan with jobs := plan.jobs.modify j (EncodeJob.addTile i) }
    | none =>
      match ← onWorld (probe ref) with
      | some hash => classify refs (i + 1) { plan with names := plan.names.set i hash }
      | none => classify refs (i + 1) { plan with jobs := plan.jobs ++ [⟨ref, [i]⟩] }

/-- Write `hash` at the given places. -/
def fillNames (names : List String) (hash : String) (tiles : List ℕ) : List String :=
  tiles.foldl (fun names i => names.set i hash) names

/-- The parameters a save produces. -/
structure RasterParams where
  /-- The base URI of the blobs. -/
  tiles : String
  /-- Edge of a tile. -/
  edge : ℕ
  /-- Width of the layer. -/
  width : ℕ
  /-- Height of the layer. -/
  height : ℕ
  /-- The names of the level-0 tiles, row-major. -/
  blobs : List String
  deriving DecidableEq

section Codec

variable (prims : BlobPrimitives) (resolveUri : String → String → String)

/-- Phase 2: encode, record and store the jobs in order. `seen` holds the names this save has
already dealt with. -/
def runJobs (c : ℕ) (ctx : SaveContext) :
    List EncodeJob → List String → List String → SessionExec (List String)
  | [], names, _ => pure names
  | job :: jobs, names, seen => do
    yieldToWriter
    let pool ← gets fun s => s.world.pool c
    let storageBytes := toStorageBytes (pool.peek job.ref) ctx.storageFormat
    let hash := prims.hashTile storageBytes
    match frameTileBlob prims storageBytes ctx.storageFormat with
    | .error _ => throw .codecFailed
    | .ok frame =>
      onWorld (record c job.ref hash)
      let names := fillNames names hash job.tiles
      if hash ∈ seen then
        runJobs c ctx jobs names seen
      else
        let uri := tileBlobUri defaultTilesBase hash
        if ← onSinks (hasAsset resolveUri ctx uri) then
          runJobs c ctx jobs names (hash :: seen)
        else
          let _ ← onSinks (storeAsset resolveUri ctx uri frame)
          runJobs c ctx jobs names (hash :: seen)

/-- The two phases of a save over a pinned table. -/
def saveTable (c : ℕ) (ctx : SaveContext) (table : TileTable) (level0 : List BlockSlotRef) :
    SessionExec RasterParams := do
  onWorld (beginPass saveThread ctx.storageFormat)
  let plan ← classify level0 0 ⟨List.replicate level0.length "", []⟩
  let names ← runJobs prims resolveUri c ctx plan.jobs plan.names []
  onWorld (endPass saveThread)
  pure ⟨defaultTilesBase, table.edge, table.width, table.height, names⟩

/-- `serialize_raster`. -/
def serializeRaster (c : ℕ) (ctx : SaveContext) : SessionExec RasterParams := do
  if ctx.sink.isNone && !ctx.paramsOnly then
    throw .assetSinkMissing
  else
    let content ← gets fun s => s.contents c
    match content.baseTable with
    | none => throw .codecFailed
    | some table =>
      match table.levels with
      | [] => throw .codecFailed
      | level0 :: _ =>
        modify fun s => { s with pinned := some (c, content.base) }
        ensuring (saveTable prims resolveUri c ctx table level0)
          (modify fun s => { s with pinned := none })

/-! ## Load -/

/-- What a load reads: the geometry, the listed names with the frames fetched for them, and
the pyramid above level 0 that the decimation of the decoded tiles gives. -/
structure RasterInput where
  /-- `params.edge`. -/
  edge : ℤ
  /-- `params.width`. -/
  width : ℤ
  /-- `params.height`. -/
  height : ℤ
  /-- `params.blobs`, each with the frame the asset source returned. -/
  blobs : List (String × List UInt8)
  /-- The samples of the tiles above level 0. -/
  upper : List (List (List UInt32))

/-- Decode the listed blobs; an empty frame is an unresolvable blob. -/
def decodeBlobs (storage : PixelFormat) (samples : ℕ) :
    List (String × List UInt8) → Option (List (List UInt32))
  | [] => some []
  | (hash, frame) :: rest =>
    if frame.isEmpty then
      none
    else
      match decodeTileBlob prims frame hash storage samples with
      | .error _ => none
      | .ok pixels => (decodeBlobs storage samples rest).map (pixels :: ·)

/-- Seed the memo with the names of a freshly loaded grid. -/
def seedTiles (c : ℕ) (storage : PixelFormat) :
    List (BlockSlotRef × String) → WorldExec Unit :=
  fun tiles => forEach tiles fun tile => seed c tile.1 storage tile.2

/-- `deserialize_raster` into the new content `c`. A malformed input leaves the session as it
was: the half-built content and its pool are destroyed. -/
def deserializeRaster (c : ℕ) (storage : PixelFormat) (input : RasterInput) :
    SessionExec Unit :=
  match validateTileGeometry input.edge input.width input.height with
  | none => throw .codecFailed
  | some geom =>
    if input.blobs.length ≠ geom.tileCount then
      throw .codecFailed
    else
      match decodeBlobs prims storage geom.tileSamples input.blobs with
      | none => throw .codecFailed
      | some tiles => do
        let table ← onWorld (onPool c
          (buildTable writerThread geom.width geom.height geom.edge (tiles :: input.upper)))
        setContent c ⟨[some table], 0⟩
        onWorld (seedTiles c storage
          ((table.levels.headD []).zip (input.blobs.map Prod.fst)))

end Codec

end ArbitraryComposer
