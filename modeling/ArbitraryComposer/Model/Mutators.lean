import ArbitraryComposer.Model.Journal

/-!
# Transaction Mutators

What the mutators of a transaction do, as scripts over the working map: they allocate ids, look
records up, follow chunk chains, and put and erase records. A put makes a new record under the
stamp of the transaction, and the two setters that write a content's state retain it for the
record; the first operation the allocator refuses ends the script. Its damage is `Mutator.damage`.

## Main definitions

- `Script`: the operations a mutator is made of.
- `storeMembership`, `writeContentChain`: the writers of spilled lists.
- `Mutator`, `Mutator.script`: the public mutators.
-/

namespace ArbitraryComposer

/-- A program over the working map of a transaction. -/
inductive Script (α : Type) where
  /-- Return. -/
  | done (a : α)
  /-- `Model::allocate_id`. -/
  | allocateId (k : ObjectId → Script α)
  /-- `hamt_lookup` and `peek`. -/
  | lookup (key : ObjectId) (k : Option Payload → Script α)
  /-- `read_chunk_chain`: the chunks of a kind from a head on, with their ids. -/
  | chain (kind : RecordKind) (head : ObjectId) (k : List (ObjectId × Payload) → Script α)
  /-- Create a record, stamp it, retain the state it carries on the state sink if `retains`, and
  insert it. -/
  | put (key : ObjectId) (as : Payload) (retains : Bool) (k : Script α)
  /-- `hamt_erase`. -/
  | erase (key : ObjectId) (k : Script α)
  /-- Record a change of a content's state. -/
  | noteState (e : ContentStateEdit) (k : Script α)

namespace Script

variable {α β : Type}

/-- Sequencing. -/
protected def bind : Script α → (α → Script β) → Script β
  | done a, f => f a
  | allocateId k, f => .allocateId fun id => (k id).bind f
  | lookup key k, f => .lookup key fun r => (k r).bind f
  | chain kind head k, f => .chain kind head fun l => (k l).bind f
  | put key as retains k, f => .put key as retains (k.bind f)
  | erase key k, f => .erase key (k.bind f)
  | noteState e k, f => .noteState e (k.bind f)

instance : Monad Script where
  pure := done
  bind := Script.bind

/-- Look a record up. -/
def find (key : ObjectId) : Script (Option Payload) := lookup key done

/-- Insert a new record. -/
def set (key : ObjectId) (as : Payload) : Script Unit := put key as false (done ())

/-- Insert a new record and retain the state it carries. -/
def setRetained (key : ObjectId) (as : Payload) : Script Unit := put key as true (done ())

/-- Erase the records of some ids. -/
def eraseAll : List ObjectId → Script Unit
  | [] => done ()
  | id :: ids => erase id (eraseAll ids)

/-- Allocate some ids. -/
def allocateIds : ℕ → Script (List ObjectId)
  | 0 => done []
  | n + 1 => do
    let id ← allocateId done
    let ids ← allocateIds n
    pure (id :: ids)

/-- Insert new records in order. -/
def setAll : List (ObjectId × Payload) → Script Unit
  | [] => done ()
  | (key, as) :: rest => put key as false (setAll rest)

end Script

open Script

/-- A path copy of a record of one kind with a field overridden; absent or of another kind, it
does nothing. -/
def editRecord (id : ObjectId) (f : Payload → Option Payload) : Script Unit := do
  match (← find id).bind f with
  | some as => set id as
  | none => pure ()

/-- A path copy of a composition. -/
def editComposition (id : ObjectId) (f : CompositionRecord → CompositionRecord) : Script Unit :=
  editRecord id fun
    | .composition c => some (.composition (f c))
    | _ => none

/-- A path copy of a layer. -/
def editLayer (id : ObjectId) (f : LayerRecord → LayerRecord) : Script Unit :=
  editRecord id fun
    | .layer l => some (.layer (f l))
    | _ => none

/-- A new object. -/
def addObject (as : Payload) : Script ObjectId := do
  let id ← allocateId done
  set id as
  pure id

/-- `add_layer`. -/
def addLayer (content : ObjectId) (transform : Affine) (opacity : UInt64) : Script ObjectId :=
  addObject (.layer { content, transform, opacity })

/-- `add_content`. -/
def addContent (kind : UInt64) : Script ObjectId := addObject (.content { kind })

/-- `add_composition` under an id of the caller. -/
def addCompositionAs (id : ObjectId) (canvasW canvasH : UInt64) : Script ObjectId := do
  set id (.composition { canvasW, canvasH })
  pure id

/-- `add_composition`. -/
def addComposition (canvasW canvasH : UInt64) : Script ObjectId := do
  addCompositionAs (← allocateId done) canvasW canvasH

/-- `set_working_space`. -/
def setWorkingSpace (composition : ObjectId) (format : SurfaceFormat) : Script Unit :=
  editComposition composition fun c => { c with workingSpace := format }

/-- `set_working_audio_format`. -/
def setWorkingAudioFormat (composition : ObjectId) (format : AudioFormat) : Script Unit :=
  editComposition composition fun c => { c with workingAudioFormat := format }

/-- `set_transform`. -/
def setTransform (layer : ObjectId) (transform : Affine) : Script Unit :=
  editLayer layer fun l => { l with transform }

/-- `set_span`. -/
def setSpan (layer : ObjectId) (span : TimeRange) : Script Unit :=
  editLayer layer fun l => { l with span }

/-- `set_time_map`. -/
def setTimeMap (layer : ObjectId) (timeMap : TimeMap) : Script Unit :=
  editLayer layer fun l => { l with timeMap }

/-- `set_opacity`. -/
def setOpacity (layer : ObjectId) (opacity : UInt64) : Script Unit :=
  editLayer layer fun l => { l with opacity }

/-- `set_gain`. -/
def setGain (layer : ObjectId) (gain : UInt64) : Script Unit :=
  editLayer layer fun l => { l with gain }

/-- Set or clear a flag. -/
def setFlag (flag : UInt32) (on : Bool) (flags : UInt32) : UInt32 :=
  if on then flags ||| flag else flags &&& ~~~ flag

/-- `set_audible`. -/
def setAudible (layer : ObjectId) (audible : Bool) : Script Unit :=
  editLayer layer fun l => { l with flags := setFlag layerAudible audible l.flags }

/-- `set_visible`. -/
def setVisible (layer : ObjectId) (visible : Bool) : Script Unit :=
  editLayer layer fun l => { l with flags := setFlag layerVisible visible l.flags }

/-- The value of a blend mode. -/
def BlendMode.code (b : BlendMode) : UInt32 := .ofNat b.ctorIdx

/-- `set_blend`. -/
def setBlend (layer : ObjectId) (blend : BlendMode) : Script Unit :=
  editLayer layer fun l => { l with
    flags := (l.flags &&& ~~~ layerBlendMask) |||
      ((blend.code <<< layerBlendShift) &&& layerBlendMask) }

/-- The ids of the layers of a chunk. -/
def chunkMembers : Payload → List ObjectId
  | .orderChunk ch => (List.ofFn ch.members).take ch.count.toNat
  | _ => []

/-- `read_layer_order`: the members and the chunk ids. -/
def readLayerOrder (c : CompositionRecord) : Script (List ObjectId × List ObjectId) :=
  if c.spillRoot.valid then
    chain .layerOrderChunk c.spillRoot fun chunks =>
      done (chunks.flatMap fun ch => chunkMembers ch.2, chunks.map Prod.fst)
  else
    done ((List.ofFn c.layers).take c.layerCount.toNat, [])

/-- The members of the chunk at a position. -/
def chunkAt (order : List ObjectId) (p : ℕ) : List ObjectId :=
  (order.drop (p * maxInlineLayers)).take maxInlineLayers

/-- A chunk with the given members. -/
def orderChunk (members : List ObjectId) (next : ObjectId) : Payload :=
  .orderChunk
    { count := .ofNat members.length, members := fun i => members.getD i 0, next }

/-- The number of chunks a spilled list takes. -/
def chunkCount (n : ℕ) : ℕ := (n + maxInlineLayers - 1) / maxInlineLayers

/-- `store_membership`. -/
def storeMembership (composition : ObjectId) (base : CompositionRecord)
    (oldOrder oldChunkIds newOrder : List ObjectId) : Script Unit := do
  let n := newOrder.length
  if n ≤ maxInlineLayers then
    eraseAll oldChunkIds
    set composition (.composition { base with
      layerCount := .ofNat n, spillRoot := 0, layers := fun i => newOrder.getD i 0 })
  else
    let cNew := chunkCount n
    let cOld := oldChunkIds.length
    -- chunk ids are reused by position, so an unchanged prefix keeps its records
    let fresh ← allocateIds (cNew - cOld)
    let chunkIds := oldChunkIds.take cNew ++ fresh
    eraseAll (oldChunkIds.drop cNew)
    let unchanged p := p < cOld ∧ chunkAt newOrder p = chunkAt oldOrder p ∧
      oldChunkIds.getD (p + 1) 0 = chunkIds.getD (p + 1) 0
    setAll (((List.range cNew).filter fun p => ¬ unchanged p).map fun p =>
      (chunkIds.getD p 0, orderChunk (chunkAt newOrder p) (chunkIds.getD (p + 1) 0)))
    set composition (.composition { base with
      layerCount := .ofNat n, spillRoot := chunkIds.getD 0 0, layers := fun _ => 0 })

/-- The common part of the mutators of a layer order. -/
def editMembership (composition : ObjectId)
    (f : List ObjectId → Option (List ObjectId)) : Script Unit := do
  match ← find composition with
  | some (.composition c) =>
    let (order, chunkIds) ← readLayerOrder c
    match f order with
    | some newOrder => storeMembership composition c order chunkIds newOrder
    | none => pure ()
  | _ => pure ()

/-- `attach_layer`. -/
def attachLayer (composition layer : ObjectId) (atIndex : UInt32) : Script Unit := do
  match ← find composition with
  | some (.composition _) =>
    match ← find layer with
    | some _ =>
      editMembership composition
        (fun order => some (order.insertIdx (min atIndex.toNat order.length) layer))
    | none => pure ()
  | _ => pure ()

/-- `detach_layer`. -/
def detachLayer (composition layer : ObjectId) : Script Unit :=
  editMembership composition fun order =>
    if layer ∈ order then some (order.erase layer) else none

/-- `reorder_layer`. -/
def reorderLayer (composition : ObjectId) (fromIndex toIndex : UInt32) : Script Unit :=
  editMembership composition fun order =>
    if order.length ≤ toIndex.toNat ∨ fromIndex = toIndex then
      none
    else
      order[fromIndex.toNat]?.map fun moved =>
        (order.eraseIdx fromIndex.toNat).insertIdx toIndex.toNat moved

/-- `set_content_state`. -/
def setContentState (content : ObjectId) (after : StateHandle) : Script Unit := do
  match ← find content with
  | some (.content c) =>
    setRetained content (.content { c with state := after })
    noteState ⟨content, c.state, after⟩ (done ())
  | _ => pure ()

/-- `write_content_chain`: the old chain of the content is erased, the chunks are written from
the last to the first, and the content record names the new head. -/
def writeContentChain (content : ObjectId) (kind : RecordKind) (count : ℕ)
    (fill : ℕ → ObjectId → Payload) (head : ContentRecord → ObjectId)
    (onRecord : ContentRecord → ObjectId → ContentRecord) : Script Unit := do
  match ← find content with
  | some (.content base) =>
    if (head base).valid then
      let old ← chain kind (head base) done
      eraseAll (old.map Prod.fst)
    let chunkIds ← allocateIds count
    setAll ((List.range count).reverse.map fun p =>
      (chunkIds.getD p 0, fill p (chunkIds.getD (p + 1) 0)))
    setRetained content (.content (onRecord base (chunkIds.getD 0 0)))
  | _ => pure ()

/-- `set_content_identity`. -/
def setContentIdentity (content : ObjectId) (kindId params : List UInt8) : Script Unit :=
  let text := if kindId = [] ∧ params = [] then [] else kindId ++ 0 :: params
  writeContentChain content .textChunk ((text.length + textChunkBytes - 1) / textChunkBytes)
    (fun p next =>
      let bytes := (text.drop (p * textChunkBytes)).take textChunkBytes
      .textChunk { count := .ofNat bytes.length, total := .ofNat text.length, next,
                   bytes := fun i => bytes.getD i 0 })
    ContentRecord.identityRoot fun c head => { c with identityRoot := head }

/-- `set_content_inputs`. -/
def setContentInputs (content : ObjectId) (inputs : List ObjectId) : Script Unit :=
  let inlineForm := inputs.length ≤ maxInlineInputs
  writeContentChain content .layerOrderChunk (if inlineForm then 0 else chunkCount inputs.length)
    (fun p next => orderChunk (chunkAt inputs p) next)
    ContentRecord.inputsRoot fun c head => { c with
      inputsRoot := head
      inputCount := .ofNat inputs.length
      inputs := fun i => if inlineForm then inputs.getD i 0 else 0 }

/-- `remove`: the record goes, whatever other records name it. -/
def removeObject (id : ObjectId) : Script Unit := do
  match ← find id with
  | some _ => erase id (done ())
  | none => pure ()

/-- The public mutators. -/
inductive Mutator where
  | addLayer (content : ObjectId) (transform : Affine) (opacity : UInt64)
  | addContent (kind : UInt64)
  | addComposition (canvasW canvasH : UInt64)
  | addCompositionAs (id : ObjectId) (canvasW canvasH : UInt64)
  | setWorkingSpace (composition : ObjectId) (format : SurfaceFormat)
  | setWorkingAudioFormat (composition : ObjectId) (format : AudioFormat)
  | setTransform (layer : ObjectId) (transform : Affine)
  | setSpan (layer : ObjectId) (span : TimeRange)
  | setTimeMap (layer : ObjectId) (timeMap : TimeMap)
  | setOpacity (layer : ObjectId) (opacity : UInt64)
  | setGain (layer : ObjectId) (gain : UInt64)
  | setAudible (layer : ObjectId) (audible : Bool)
  | setVisible (layer : ObjectId) (visible : Bool)
  | setBlend (layer : ObjectId) (blend : BlendMode)
  | attachLayer (composition layer : ObjectId) (atIndex : UInt32)
  | detachLayer (composition layer : ObjectId)
  | reorderLayer (composition : ObjectId) (fromIndex toIndex : UInt32)
  | setContentState (content : ObjectId) (after : StateHandle)
  | setContentIdentity (content : ObjectId) (kindId params : List UInt8)
  | setContentInputs (content : ObjectId) (inputs : List ObjectId)
  | remove (id : ObjectId)

/-- The script of a mutator; those without a result return the invalid id. -/
def Mutator.script : Mutator → Script ObjectId
  | addLayer content transform opacity => ArbitraryComposer.addLayer content transform opacity
  | addContent kind => ArbitraryComposer.addContent kind
  | addComposition w h => ArbitraryComposer.addComposition w h
  | addCompositionAs id w h => ArbitraryComposer.addCompositionAs id w h
  | setWorkingSpace c format => void (ArbitraryComposer.setWorkingSpace c format)
  | setWorkingAudioFormat c format => void (ArbitraryComposer.setWorkingAudioFormat c format)
  | setTransform l transform => void (ArbitraryComposer.setTransform l transform)
  | setSpan l span => void (ArbitraryComposer.setSpan l span)
  | setTimeMap l timeMap => void (ArbitraryComposer.setTimeMap l timeMap)
  | setOpacity l opacity => void (ArbitraryComposer.setOpacity l opacity)
  | setGain l gain => void (ArbitraryComposer.setGain l gain)
  | setAudible l audible => void (ArbitraryComposer.setAudible l audible)
  | setVisible l visible => void (ArbitraryComposer.setVisible l visible)
  | setBlend l blend => void (ArbitraryComposer.setBlend l blend)
  | attachLayer c l i => void (ArbitraryComposer.attachLayer c l i)
  | detachLayer c l => void (ArbitraryComposer.detachLayer c l)
  | reorderLayer c i k => void (ArbitraryComposer.reorderLayer c i k)
  | setContentState c after => void (ArbitraryComposer.setContentState c after)
  | setContentIdentity c kindId params => void (ArbitraryComposer.setContentIdentity c kindId params)
  | setContentInputs c inputs => void (ArbitraryComposer.setContentInputs c inputs)
  | remove id => void (removeObject id)
where
  /-- The script without its result. -/
  void (x : Script Unit) : Script ObjectId := do
    x
    pure 0

end ArbitraryComposer
