import ArbitraryComposer.Runtime.RasterDocument.Names
import ArbitraryComposer.Runtime.TileFanOut
import ArbitraryComposer.Serialize.DocumentText

/-!
# Dispatched Tiles

A save encodes its tiles and a load decodes them, on the thread that runs it or on the workers of a
pool. The encoding reads a pinned tile and the decoding reads a fetched frame; everything else stays
with the thread, in the order of the tiles. The tiles of a save are pinned and keep their samples, so
the edits of the writer thread are left out here.

## Main definitions

- `encodeTile`, `reapTile`, `saveTiles`: a save, tile by tile.
- `fetchTile`, `decodeTile`, `fillTile`, `loadTiles`: a load, tile by tile.
- `encodeFan`, `decodeFan`: `TileEncodeDispatch` and `TileDecodeDispatch` over a pool.

## Main results

- `tile_dispatch_matches_inline`: a dispatched save or load is the inline one.
-/

namespace ArbitraryComposer

open Exec

/-! ## Encoding -/

/-- `TileEncodeOutput`. -/
structure TileEncodeOutput where
  /-- The name of the tile. -/
  hash : String
  /-- Its blob. -/
  frame : List UInt8
  /-- Why there is no blob. -/
  error : Option TileBlobError

/-- What a save has come to: the names of the grid and the blobs it has dealt with. -/
structure SaveProgress where
  /-- `blob_names`. -/
  names : List String
  /-- `seen`. -/
  seen : List String

section Save

variable (prims : BlobPrimitives) (resolveUri : String → String → String)

/-- The `encode` of a save. -/
def encodeTile (pool : BigBlockPool) (storage : PixelFormat) (ref : BlockSlotRef) :
    TileEncodeOutput :=
  let storageBytes := toStorageBytes (pool.peek ref) storage
  let hash := prims.hashTile storageBytes
  match frameTileBlob prims storageBytes storage with
  | .ok frame => ⟨hash, frame, none⟩
  | .error e => ⟨hash, [], some e⟩

/-- The `reap` of a save. -/
def reapTile (c : ℕ) (ctx : SaveContext) (job : EncodeJob) (out : TileEncodeOutput)
    (progress : SaveProgress) : SessionExec SaveProgress :=
  if out.error.isSome then throw .codecFailed
  else do
    onWorld (record c job.ref out.hash)
    let names := fillNames progress.names out.hash job.tiles
    if out.hash ∈ progress.seen then
      pure { progress with names }
    else
      let uri := tileBlobUri defaultTilesBase out.hash
      if ← onSinks (hasAsset resolveUri ctx uri) then
        pure { names, seen := out.hash :: progress.seen }
      else
        let _ ← onSinks (storeAsset resolveUri ctx uri out.frame)
        pure { names, seen := out.hash :: progress.seen }

/-- The inline executor: encode and reap, one job at a time. -/
def saveTiles (c : ℕ) (ctx : SaveContext) : List EncodeJob → SaveProgress → SessionExec SaveProgress
  | [], progress => pure progress
  | job :: jobs, progress => do
    let pool ← gets fun s => s.world.pool c
    let progress ← reapTile resolveUri c ctx job (encodeTile prims pool ctx.storageFormat job.ref)
      progress
    saveTiles c ctx jobs progress

/-- How a save has ended, or where it is. -/
abbrev SaveSink : Type := Outcome RasterSession SerializeError Fault SaveProgress

/-- Go on with a save that nothing has stopped. -/
def SaveSink.next (x : SaveProgress → SessionExec SaveProgress) (sink : SaveSink) :
    SaveSink × Bool :=
  match sink with
  | .ok progress session =>
    match (x progress).run session with
    | .ok progress session => (.ok progress session, true)
    | stopped => (stopped, false)
  | stopped => (stopped, false)

/-- `TileEncodeDispatch` over a pool, with the jobs of a save that begins in `session`. No job is
declined. The window of the code is twice the number of workers, and at least one. -/
def encodeFan (window : ℕ+) (c : ℕ) (ctx : SaveContext) (jobs : List EncodeJob)
    (session : RasterSession) : FanOut Unit EncodeJob Empty TileEncodeOutput SaveSink where
  count := jobs.length
  window := window
  window_pos := window.pos
  stage u j := (.ok (jobs.getD j ⟨⟨0, 0⟩, []⟩), u)
  work job := encodeTile prims (session.world.pool c) ctx.storageFormat job.ref
  reap sink j result :=
    match result with
    | .ok out => sink.next (reapTile resolveUri c ctx (jobs.getD j ⟨⟨0, 0⟩, []⟩) out)
    | .error v => v.elim

end Save

/-! ## Decoding -/

/-- `TileDecodeInput`. -/
structure TileDecodeInput where
  /-- The name the blob was fetched under. -/
  hash : String
  /-- The blob. -/
  frame : List UInt8

/-- The verdicts of a fetch that hands out no job. -/
inductive TileFetch where
  /-- The entry names no blob. -/
  | malformed
  /-- There is no such blob. -/
  | unresolvable
  deriving DecidableEq, Repr

/-- What a load has come to: the tiles of the new grid, and why it stopped. -/
structure TileLoad where
  /-- The samples of the filled tiles. -/
  tiles : List (List UInt32)
  /-- `failure`. -/
  failure : Option ReaderError
  deriving DecidableEq

section Load

variable (prims : BlobPrimitives) {F : Type} (loadAsset : F → String → List UInt8 × F)

/-- The `fetch` of a load. `loadAsset` resolves a URI and asks the asset source. -/
def fetchTile (base : String) (blobs : List Json) (f : F) (j : ℕ) :
    Except TileFetch TileDecodeInput × F :=
  match blobs[j]? with
  | some (.string hash) =>
    if isTileHash hash then
      let (frame, f') := loadAsset f (tileBlobUri base hash)
      if frame.isEmpty then (.error .unresolvable, f') else (.ok ⟨hash, frame⟩, f')
    else (.error .malformed, f)
  | _ => (.error .malformed, f)

/-- The `decode` of a load. -/
def decodeTile (storage : PixelFormat) (samples : ℕ) (input : TileDecodeInput) :
    Except TileBlobError (List UInt32) :=
  decodeTileBlob prims input.frame input.hash storage samples

/-- The `fill` of a load. -/
def fillTile (load : TileLoad) (reaped : Except TileFetch (Except TileBlobError (List UInt32))) :
    TileLoad × Bool :=
  match reaped with
  | .error .unresolvable =>
    ({ load with failure := some ⟨.unresolvableReference, "/params/blobs"⟩ }, false)
  | .error .malformed => ({ load with failure := some ⟨.malformedField, "/params/blobs"⟩ }, false)
  | .ok (.error _) => ({ load with failure := some ⟨.malformedField, "/params/blobs"⟩ }, false)
  | .ok (.ok pixels) => ({ load with tiles := load.tiles ++ [pixels] }, true)

/-- The inline executor: fetch, decode and fill `n` tiles from tile `j` on, one at a time. -/
def loadTiles (base : String) (blobs : List Json) (storage : PixelFormat) (samples : ℕ) :
    ℕ → ℕ → F → TileLoad → TileLoad
  | 0, _, _, load => load
  | n + 1, j, f, load =>
    let (fetched, f') := fetchTile loadAsset base blobs f j
    match fillTile load (fetched.map (decodeTile prims storage samples)) with
    | (load', true) => loadTiles base blobs storage samples n (j + 1) f' load'
    | (load', false) => load'

/-- `TileDecodeDispatch` over a pool, with the blobs of a load. A drain with nothing in flight is
skipped by the code, and does nothing here. -/
def decodeFan (window : ℕ+) (base : String) (blobs : List Json) (storage : PixelFormat)
    (samples : ℕ) : FanOut F TileDecodeInput TileFetch (Except TileBlobError (List UInt32))
      TileLoad where
  count := blobs.length
  window := window
  window_pos := window.pos
  stage := fetchTile loadAsset base blobs
  work := decodeTile prims storage samples
  reap load _ := fillTile load

end Load

/-! ## The inline executors -/

section Inline

variable {prims : BlobPrimitives} {resolveUri : String → String → String} {c : ℕ}
  {ctx : SaveContext} {s : RasterSession}

theorem record_data {w : TileWorld} (ref : BlockSlotRef) (hash : String) :
    wp (record c ref hash) (fun _ w' => w.SameData w') (fun _ _ => True) (fun _ => True) w := by
  simp only [record, wp_bind, wp_gets]
  refine wp_ite (fun _ => .refl) fun _ => ?_
  simp only [modifyTiles, wp_bind, wp_modify]
  unfold wp tryPin
  cases hr : (w.pool c).retain ref with
  | none => exact .refl
  | some p =>
    have hdata : p.data = (w.pool c).data := by
      unfold BigBlockPool.retain at hr
      split_ifs at hr
      obtain rfl := Option.some.inj hr
      rfl
    exact TileWorld.sameData_setPool (w := w) hdata

/-- Taking a tile back leaves the samples of all pools, and no edit is due after it. -/
theorem reapTile_frame (job : EncodeJob) (out : TileEncodeOutput) (progress : SaveProgress) :
    wp (reapTile resolveUri c ctx job out progress)
      (fun _ s' => s.world.SameData s'.world ∧ s'.schedule = s.schedule)
      (fun _ _ => True) (fun _ => True) s := by
  unfold reapTile
  refine wp_ite (fun _ => trivial) fun _ => ?_
  simp only [wp_bind, onWorld, wp_zoom]
  refine wp_imp (record_data job.ref out.hash) (fun _ w' hdata => ?_) fun _ _ _ => trivial
  refine wp_ite (fun _ => ⟨hdata, rfl⟩) fun _ => ?_
  simp only [wp_bind, onSinks, wp_zoom]
  refine wp_of_forall (fun stored sinks => ?_) fun _ _ => trivial
  refine wp_ite (fun _ => ⟨hdata, rfl⟩) fun _ => ?_
  simp only [wp_bind, wp_zoom]
  exact wp_of_forall (fun _ _ => ⟨hdata, rfl⟩) fun _ _ => trivial

/-- Encoding reads the samples of a tile and nothing else. -/
theorem encodeTile_congr {pool pool' : BigBlockPool} (h : pool'.data = pool.data)
    (storage : PixelFormat) (ref : BlockSlotRef) :
    encodeTile prims pool' storage ref = encodeTile prims pool storage ref := by
  simp only [encodeTile, BigBlockPool.peek, h]

/-- The save of a job, and of those after it. -/
theorem saveTiles_cons (job : EncodeJob) (jobs : List EncodeJob) (progress : SaveProgress) :
    (saveTiles prims resolveUri c ctx (job :: jobs) progress).run s =
      match (reapTile resolveUri c ctx job
        (encodeTile prims (s.world.pool c) ctx.storageFormat job.ref) progress).run s with
      | .ok progress' s' => (saveTiles prims resolveUri c ctx jobs progress').run s'
      | .error e s' => .error e s'
      | .fault g => .fault g := by
  rw [saveTiles]
  show Exec.bind (reapTile resolveUri c ctx job _ progress) _ s = _
  unfold Exec.bind run
  cases reapTile resolveUri c ctx job
    (encodeTile prims (s.world.pool c) ctx.storageFormat job.ref) progress s <;> rfl

/-- The jobs one by one, encoded from the tiles of the session the save began in, are the inline
save. -/
theorem encodeFan_inlineFrom (window : ℕ+) (jobs : List EncodeJob) (s₀ : RasterSession) (n j : ℕ)
    {progress : SaveProgress} (hdata : s₀.world.SameData s.world)
    (hn : (jobs.drop j).length = n) :
    ((encodeFan prims resolveUri window c ctx jobs s₀).inlineFrom n j () (.ok progress s)).1 =
      (saveTiles prims resolveUri c ctx (jobs.drop j) progress).run s := by
  induction n generalizing j s progress with
  | zero =>
    rw [List.length_eq_zero_iff.mp hn]
    rfl
  | succ n ih =>
    have hlt : j < jobs.length := by
      rw [List.length_drop] at hn
      omega
    have hdrop := List.drop_eq_getElem_cons hlt
    have hjob : jobs.getD j ⟨⟨0, 0⟩, []⟩ = jobs[j] := by
      rw [List.getD_eq_getElem?_getD, List.getElem?_eq_getElem hlt, Option.getD_some]
    have hrest : (jobs.drop (j + 1)).length = n := by
      rw [hdrop, List.length_cons] at hn
      omega
    have hframe : wp (reapTile resolveUri c ctx jobs[j]
        (encodeTile prims (s₀.world.pool c) ctx.storageFormat jobs[j].ref) progress)
        (fun _ s' => s.world.SameData s'.world ∧ s'.schedule = s.schedule)
        (fun _ _ => True) (fun _ => True) s := reapTile_frame _ _ progress
    have hreap : (encodeFan prims resolveUri window c ctx jobs s₀).reap (.ok progress s) j
        (((encodeFan prims resolveUri window c ctx jobs s₀).stage () j).1.map
          (encodeFan prims resolveUri window c ctx jobs s₀).work) =
        SaveSink.next (reapTile resolveUri c ctx jobs[j]
          (encodeTile prims (s₀.world.pool c) ctx.storageFormat jobs[j].ref)) (.ok progress s) := by
      rw [← hjob]
      rfl
    rw [hdrop, saveTiles_cons, encodeTile_congr (hdata c), FanOut.inlineFrom_succ _ n j hreap]
    unfold wp at hframe
    unfold run
    cases hrun : reapTile resolveUri c ctx jobs[j]
        (encodeTile prims (s₀.world.pool c) ctx.storageFormat jobs[j].ref) progress s with
    | ok progress' s' =>
      rw [hrun] at hframe
      exact ih (j + 1) (hdata.trans hframe.1) hrest
    | error e s' => rfl
    | fault g => rfl

theorem encodeFan_inline (window : ℕ+) (jobs : List EncodeJob) (progress : SaveProgress) :
    (encodeFan prims resolveUri window c ctx jobs s).inline () (.ok progress s) =
      (saveTiles prims resolveUri c ctx jobs progress).run s :=
  encodeFan_inlineFrom window jobs s jobs.length 0 .refl rfl

/-- The blobs one by one are the inline load. -/
theorem decodeFan_inlineFrom {F : Type} (loadAsset : F → String → List UInt8 × F) (window : ℕ+)
    (base : String) (blobs : List Json) (storage : PixelFormat) (samples n j : ℕ) (f : F)
    (load : TileLoad) :
    ((decodeFan prims loadAsset window base blobs storage samples).inlineFrom n j f load).1 =
      loadTiles prims loadAsset base blobs storage samples n j f load := by
  induction n generalizing j f load with
  | zero => rfl
  | succ n ih =>
    cases hfill : fillTile load
        ((fetchTile loadAsset base blobs f j).1.map (decodeTile prims storage samples)) with
    | mk load' goOn =>
      rw [FanOut.inlineFrom_succ (decodeFan prims loadAsset window base blobs storage samples) n j
        hfill, loadTiles]
      simp only [hfill]
      cases goOn with
      | true => exact ih (j + 1) _ load'
      | false => rfl

end Inline

/-! ## Dispatched and inline -/

/-- Whatever the order in which workers begin and finish, and wherever encoding, storing, reading or
decoding fails: a dispatched save or load keeps to its window, comes to what the inline one comes to,
leaves no job running, can go on until it returns, and takes no more than four steps a tile and
three. -/
theorem tile_dispatch_matches_inline (prims : BlobPrimitives)
    (resolveUri : String → String → String) :
    (∀ (window : ℕ+) (c : ℕ) (ctx : SaveContext) (jobs : List EncodeJob) (progress : SaveProgress)
      (session : RasterSession),
      let P := encodeFan prims resolveUri window c ctx jobs session
      (∀ st, (P.machine () (.ok progress session)).Reachable Machine.anyEvent st →
        P.Sound () (.ok progress session) st ∧
        (st.phase = .returned →
          st.sink = (saveTiles prims resolveUri c ctx jobs progress).run session)) ∧
      ∀ es st, (P.machine () (.ok progress session)).run es (P.start () (.ok progress session)) =
        some st → es.length ≤ 4 * jobs.length + 3) ∧
    ∀ (F : Type) (loadAsset : F → String → List UInt8 × F) (window : ℕ+) (base : String)
      (blobs : List Json) (storage : PixelFormat) (samples : ℕ) (f : F) (load : TileLoad),
      let P := decodeFan prims loadAsset window base blobs storage samples
      (∀ st, (P.machine f load).Reachable Machine.anyEvent st →
        P.Sound f load st ∧
        (st.phase = .returned → st.sink =
          loadTiles prims loadAsset base blobs storage samples blobs.length 0 f load)) ∧
      ∀ es st, (P.machine f load).run es (P.start f load) = some st →
        es.length ≤ 4 * blobs.length + 3 := by
  refine ⟨fun window c ctx jobs progress session => ⟨fun st h => ?_, fun es st hrun => ?_⟩,
    fun F loadAsset window base blobs storage samples f load =>
      ⟨fun st h => ?_, fun es st hrun => ?_⟩⟩
  · have hsound := FanOut.sound _ () _ h
    refine ⟨hsound, fun hphase => (hsound.result hphase).trans ?_⟩
    exact encodeFan_inline window jobs progress
  · exact FanOut.length_run_le _ () _ hrun
  · have hsound := FanOut.sound _ f _ h
    refine ⟨hsound, fun hphase => (hsound.result hphase).trans ?_⟩
    exact decodeFan_inlineFrom loadAsset window base blobs storage samples _ 0 f load
  · exact FanOut.length_run_le _ f _ hrun

/-- Two tiles are encoded in the other order and saved in theirs; a load stops at its second
entry. -/
theorem tile_dispatch_matches_inline_twoTiles :
    (∃ st : FanState Unit EncodeJob Empty TileEncodeOutput SaveSink, st.phase = .returned ∧
      st.sink = (saveTiles plainPrimitives joinUri 0 (plainSave 0)
        [⟨⟨0, 4⟩, [0]⟩, ⟨⟨1, 4⟩, [1]⟩] ⟨["", ""], []⟩).run emptyDocument.session) ∧
    ∃ st : FanState Unit TileDecodeInput TileFetch (Except TileBlobError (List UInt32)) TileLoad,
      st.phase = .returned ∧ st.reaped = 2 ∧
      st.sink = loadTiles plainPrimitives (fun u _ => (List.replicate 16 0, u)) ""
        [.string "00000000000000000000000000000000", .null] .rgba32fLinearPremul 4 2 0 ()
        ⟨[], none⟩ := by
  refine ⟨?_, ?_⟩
  · obtain ⟨st, hst, hrun⟩ := Machine.exists_reachable
      (M := (encodeFan plainPrimitives joinUri 2 0 (plainSave 0) [⟨⟨0, 4⟩, [0]⟩, ⟨⟨1, 4⟩, [1]⟩]
        emptyDocument.session).machine () (.ok ⟨["", ""], []⟩ emptyDocument.session))
      Machine.anyEvent
      [.dispatch, .dispatch, .start 1, .finish 1, .start 0, .finish 0, .reap, .reap, .leave]
      (fun st : FanState Unit EncodeJob Empty TileEncodeOutput SaveSink => st.phase = .returned)
      rfl (Machine.runAllowed_anyEvent _ _) (by decide +kernel)
    have hphase := of_decide_eq_true hrun
    exact ⟨st, hphase, (((tile_dispatch_matches_inline _ _).1 _ _ _ _ _ _).1 st hst).2 hphase⟩
  · obtain ⟨st, hst, hrun⟩ := Machine.exists_reachable
      (M := (decodeFan plainPrimitives (fun (u : Unit) _ => (List.replicate 16 0, u)) 2 ""
        [.string "00000000000000000000000000000000", .null] .rgba32fLinearPremul 4).machine ()
        ⟨[], none⟩)
      Machine.anyEvent
      [.dispatch, .dispatch, .start 0, .finish 0, .reap, .reap, .drain, .leave]
      (fun st : FanState Unit TileDecodeInput TileFetch (Except TileBlobError (List UInt32))
        TileLoad => st.phase = .returned ∧ st.reaped = 2)
      rfl (Machine.runAllowed_anyEvent _ _) (by decide +kernel)
    obtain ⟨hphase, hreaped⟩ := of_decide_eq_true hrun
    exact ⟨st, hphase, hreaped,
      (((tile_dispatch_matches_inline plainPrimitives joinUri).2 _ _ _ _ _ _ _ _ _).1 st hst).2
        hphase⟩

end ArbitraryComposer
