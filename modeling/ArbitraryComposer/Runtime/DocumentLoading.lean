import ArbitraryComposer.Model.Refinement
import ArbitraryComposer.Serialize.GraphReader
import ArbitraryComposer.Serialize.UriResolution

/-!
# Loading a Document

`load_document` reads a text into a document. The sink of the read commits every content to the model
as it is built, and removes the record of one that turns out to be an input of a later one. A content that names another document has it requested from the asset source;
an answer that is there when the request returns is read on the spot, and any other is kept in a
queue until the document settles its loads. Then the compositions are published as the baseline.

What a codec does beyond building a content is one of a few requests, so a codec is a table of
answers. The asset source is any function of the requests made so far.

## Main definitions

- `PendingExternalLoads`, `LoadingDocument`: the document as its loader sees it.
- `CodecAnswer`, `LoadConfig`: what a load is given.
- `sinkContent`: the sink.
- `loadReference`: `ExternalCompositionLoader`.
- `loadDocument`: the entry point.

## Main results

- `evolve_loadPorts`: no part of a load takes a binding away.
-/

namespace ArbitraryComposer

open Exec

/-- The bytes of an asset. -/
abbrev AssetBytes : Type := List UInt8

/-- `AssetSource`: the answers it gives within a request, from the URIs requested so far, the latest
first. -/
abbrev AssetSource : Type := List String → List AssetBytes

/-- `PendingExternalLoads::Entry`. -/
structure PendingEntry where
  /-- The resolved URI. -/
  uri : String
  /-- The number of references on the way to it. -/
  depth : ℕ
  deriving DecidableEq

/-- `PendingExternalLoads::AssetEntry`. -/
structure AssetEntry where
  /-- The resolved URI. -/
  uri : String
  /-- The contents that wait for it. -/
  awaiting : List ObjectId
  deriving DecidableEq

/-- `PendingExternalLoads`. -/
@[ext]
structure PendingExternalLoads where
  /-- The composition a resolved URI stands for; the invalid id says that there is none. -/
  byUri : String → Option ObjectId
  /-- The compositions whose bytes are in flight. -/
  pending : ObjectId → Option PendingEntry
  /-- The fetch of an asset that is in flight. -/
  assetByUri : String → Option ObjectId
  /-- The fetches in flight. -/
  pendingAssets : ObjectId → Option AssetEntry
  /-- The source of the document. -/
  source : Option AssetSource
  /-- The answers that nobody has taken. -/
  ready : List (ObjectId × AssetBytes)

/-- A content as the loader sees it; `κ` is what its kind makes of it. -/
structure LoadedContent (κ : Type) where
  /-- The token of its kind. -/
  kind : UInt64
  /-- `inputs`: the objects it draws. -/
  inputs : List ℕ
  /-- `composition_ref`. -/
  composition : ObjectId
  /-- The state it captures, where it is editable. -/
  state : Option StateHandle
  /-- What the identity capture says of it, where there is one. -/
  identity : Option (List UInt8 × List UInt8)
  /-- The fetch it waits for. -/
  awaits : ObjectId
  /-- What it was made of. -/
  value : κ

/-- What an asset fetch found. -/
structure FetchedAsset where
  /-- The resolved URI. -/
  resolved : String
  /-- The bytes, where the source answered. -/
  bytes : AssetBytes
  /-- The fetch in flight, where it did not. -/
  pending : ObjectId

/-- What a codec makes of its parameters. -/
inductive CodecAnswer (κ : Type) where
  /-- It refuses them. -/
  | fail (e : ReaderError)
  /-- A content. -/
  | content (c : LoadedContent κ)
  /-- The nested kind: a reference to another document. -/
  | external (reference : String) (build : ObjectId → LoadedContent κ)
  /-- The image kind: a reference to an asset that may come later. -/
  | asset (source : String) (build : FetchedAsset → Except ReaderError (LoadedContent κ))
  /-- A read of an asset that has to be there. -/
  | read (reference : String) (next : AssetBytes → CodecAnswer κ)

/-- A codec of the load. -/
structure LoadCodec (κ : Type) where
  /-- What it makes of parameters, inputs and a child composition. -/
  answer : Json → List ℕ → ObjectId → CodecAnswer κ
  /-- The parameters it writes of a content; `none` is a codec that fails. -/
  serialize : LoadedContent κ → Option Json

/-- What does not change during a load. -/
structure LoadConfig (κ : Type) where
  /-- The thread of the writer. -/
  thread : ℕ
  /-- The codec table. -/
  codec : String → Option (LoadCodec κ)
  /-- Whether the registry has a factory for a kind. -/
  kindRegistered : String → Bool
  /-- `PlaceholderContent`. -/
  placeholder : Json → Bool → List ℕ → ObjectId → LoadedContent κ
  /-- `json::parse`. -/
  parse : AssetBytes → Option Json

/-- A document as its loader sees it. -/
structure LoadingDocument (κ : Type) where
  /-- The model. -/
  model : Model
  /-- The contents built, in order; a live object is a position. -/
  objects : List (LoadedContent κ)
  /-- The binding table. -/
  rows : List (ObjectId × ℕ)
  /-- `d_minted`: the objects whose record may still be removed. -/
  minted : List (ℕ × ObjectId)
  /-- The preserved unknown fields. -/
  unknown : UnknownFieldStore
  /-- The external loads. -/
  pending : PendingExternalLoads
  /-- The storage format. -/
  storageFormat : PixelFormat
  /-- The URIs requested from the source, the latest first. -/
  requests : List String
  /-- The versions published by the loader, the latest first, with their revisions. -/
  history : List (ℕ × DocMap)
  /-- The documents requested, the latest first, and the ids of their compositions. -/
  documents : List (String × ObjectId)
  /-- The references that a content was built with, the latest first: what each resolves to, and the
  composition it got. -/
  bound : List (String × ObjectId)
  /-- What the references resolve to that are beyond the cap. -/
  capped : List String

/-- Programs of the loader. -/
abbrev LoadExec (κ α : Type) : Type := Exec (LoadingDocument κ) ReaderError Fault α

variable {κ : Type}

/-- `k_external_ref_depth_cap`. -/
def externalRefDepthCap : ℕ := 64

/-- The error of an install that the arena refuses. -/
def installError : ReaderError := ⟨.malformedField, "/composition"⟩

/-- The document with another state of its model; a version that is new is noted. -/
def LoadingDocument.withModel (d : LoadingDocument κ) (m : Model) : LoadingDocument κ :=
  { d with
    model := m
    history := if m.current = d.model.current then d.history
      else (m.session.revision, m.session.map) :: d.history }

/-- A program of the model. -/
def onModel {α : Type} (x : ModelExec α) : LoadExec κ α :=
  zoom LoadingDocument.model (fun m d => d.withModel m) (fun _ => installError) x

/-- A call of the model whose result is not looked at. -/
def callModel {α : Type} (x : ModelExec α) : LoadExec κ Unit := onModel (attempt x)

/-- Change the external loads. -/
def editPending (f : PendingExternalLoads → PendingExternalLoads) : LoadExec κ Unit :=
  modify fun d => { d with pending := f d.pending }

/-! ## External loads -/

namespace PendingExternalLoads

/-- `record`. -/
def record (p : PendingExternalLoads) (uri : String) (child : ObjectId) : PendingExternalLoads :=
  { p with byUri := Function.update p.byUri uri (some child) }

/-- `add_pending`. -/
def addPending (p : PendingExternalLoads) (child : ObjectId) (entry : PendingEntry) :
    PendingExternalLoads :=
  { p with pending := Function.update p.pending child (some entry) }

/-- The part of `take_pending` that changes the table. -/
def dropPending (p : PendingExternalLoads) (child : ObjectId) : PendingExternalLoads :=
  { p with pending := Function.update p.pending child none }

/-- `add_pending_asset`. -/
def addPendingAsset (p : PendingExternalLoads) (fetch : ObjectId) (uri : String) :
    PendingExternalLoads :=
  { p with
    assetByUri := Function.update p.assetByUri uri (some fetch)
    pendingAssets := Function.update p.pendingAssets fetch (some ⟨uri, []⟩) }

/-- `add_asset_waiter`. -/
def addAssetWaiter (p : PendingExternalLoads) (fetch content : ObjectId) : PendingExternalLoads :=
  match p.pendingAssets fetch with
  | none => p
  | some entry =>
    let entry' := { entry with awaiting := entry.awaiting ++ [content] }
    { p with pendingAssets := Function.update p.pendingAssets fetch (some entry') }

/-- The part of `take_pending_asset` that changes the tables. -/
def dropPendingAsset (p : PendingExternalLoads) (fetch : ObjectId) : PendingExternalLoads :=
  match p.pendingAssets fetch with
  | none => p
  | some entry =>
    { p with
      assetByUri := Function.update p.assetByUri entry.uri none
      pendingAssets := Function.update p.pendingAssets fetch none }

/-- `complete`. -/
def complete (p : PendingExternalLoads) (child : ObjectId) (bytes : AssetBytes) :
    PendingExternalLoads :=
  { p with ready := p.ready ++ [(child, bytes)] }

/-- The part of `take_arrival` that changes the queue: the first answer for `child` goes. -/
def dropArrival (p : PendingExternalLoads) (child : ObjectId) : PendingExternalLoads :=
  { p with ready := p.ready.eraseP fun a => a.1 = child }

end PendingExternalLoads

/-- `take_arrival`. -/
def takeArrival (child : ObjectId) : LoadExec κ (Option AssetBytes) := do
  let ready ← gets (·.pending.ready)
  editPending (·.dropArrival child)
  pure (ready.lookup child)

/-- `LoadContext::load_asset`: the request, and what the source answers within it. Without a source
the answer is empty. -/
def loadAsset (uri : String) : LoadExec κ (List AssetBytes) := do
  match ← gets (·.pending.source) with
  | none => pure [[]]
  | some source =>
    modify fun d => { d with requests := uri :: d.requests }
    let requests ← gets LoadingDocument.requests
    pure (source requests)

/-- A request whose answers go to the queue under an id. -/
def requestFor (id : ObjectId) (uri : String) : LoadExec κ Unit := do
  let answers ← loadAsset uri
  editPending fun p => answers.foldl (fun p bytes => p.complete id bytes) p

/-- `ExternalAssetLoader::fetch`. -/
def fetchAsset (baseUri source : String) : LoadExec κ FetchedAsset :=
  if source = "" then pure ⟨"", [], 0⟩
  else do
    let uri := String.ofList (resolveUri baseUri.toList source.toList)
    match (← gets (·.pending.assetByUri)) uri with
    | some fetch => pure ⟨uri, [], fetch⟩
    | none =>
      let id ← onModel allocateId
      editPending (·.addPendingAsset id uri)
      requestFor id uri
      match ← takeArrival id with
      | none => pure ⟨uri, [], id⟩
      | some bytes =>
        editPending (·.dropPendingAsset id)
        pure ⟨uri, bytes, 0⟩

/-! ## The sink -/

/-- A transaction of some mutators, whatever its commit returns. -/
def commitMutators (thread : ℕ) (ms : List Mutator) : LoadExec κ Unit := do
  let i ← gets (·.model.transactions.length)
  callModel beginTransaction
  forEach ms fun m => callModel (mutate thread i m)
  callModel (commit i)
  callModel (destroyTransaction i)

/-- The mutators of `add_content` that come after the record is there. -/
def contentMutators (rows : List (ObjectId × ℕ)) (id : ObjectId) (c : LoadedContent κ) :
    List Mutator :=
  ((c.state.filter StateHandle.hasState).map (Mutator.setContentState id)).toList ++
    (c.identity.map fun p => Mutator.setContentIdentity id p.1 p.2).toList ++
    (if c.inputs = [] then []
      else [.setContentInputs id
        (c.inputs.map fun live => ((rows.find? (·.2 = live)).map Prod.fst).getD 0)])

/-- The row that `add_content` emplaces; one that exists stays as it is. -/
def LoadingDocument.addRow (d : LoadingDocument κ) (id : ObjectId) (live : ℕ) : LoadingDocument κ :=
  if (d.rows.lookup id).isSome then d else { d with rows := d.rows ++ [(id, live)] }

/-- `Document::add_content`, of an object that is in the table of objects. -/
def addDocumentContent (thread live : ℕ) (c : LoadedContent κ) : LoadExec κ ObjectId := do
  let i ← gets (·.model.transactions.length)
  callModel beginTransaction
  let next ← gets (·.model.nextId)
  callModel (mutate thread i (.addContent c.kind))
  -- a transaction that has failed hands out the invalid id
  let txn ← gets (·.model.transaction? i)
  let id := if (txn.bind Transaction.status).isSome then 0 else next
  let rows ← gets LoadingDocument.rows
  forEach (contentMutators rows id c) fun m => callModel (mutate thread i m)
  callModel (commit i)
  callModel (destroyTransaction i)
  modify fun d => d.addRow id live
  pure id

/-- Remove the record of an object that became an input. -/
def demote (thread input : ℕ) : LoadExec κ Unit := do
  match (← gets LoadingDocument.minted).lookup input with
  | none => pure ()
  | some id =>
    commitMutators thread [.remove id]
    modify fun d => { d with minted := d.minted.filter fun p => p.1 ≠ input }

/-- `LoadAssembly::make_sink`. -/
def sinkContent (thread : ℕ) (c : LoadedContent κ) : LoadExec κ SunkContent := do
  let live ← gets (·.objects.length)
  modify fun d => { d with objects := d.objects ++ [c] }
  forEach c.inputs (demote thread)
  let id ← addDocumentContent thread live c
  modify fun d => { d with
    minted := d.minted ++ [(live, id)]
    pending := if c.awaits.valid then d.pending.addAssetWaiter c.awaits id else d.pending }
  pure ⟨id, live⟩

/-! ## Codecs -/

/-- `LoadContext::resolve` of a document at a base, and the URI of what it returns. -/
def resolvedUri (baseUri reference : String) : String :=
  String.ofList (resolveUri baseUri.toList reference.toList)

/-- Run a codec: what it asks for, and the content it builds. -/
def runCodec (loadRef : String → LoadExec κ ObjectId) (baseUri : String) :
    CodecAnswer κ → LoadExec κ (LoadedContent κ)
  | .fail e => throw e
  | .content c => pure c
  | .external reference build => do
    let child ← loadRef reference
    modify fun d => { d with bound := (resolvedUri baseUri reference, child) :: d.bound }
    pure (build child)
  | .asset source build => do
    let fetched ← fetchAsset baseUri source
    match build fetched with
    | .ok c => pure c
    | .error e => throw e
  | .read reference next => do
    let answers ← loadAsset (String.ofList (resolveUri baseUri.toList reference.toList))
    runCodec loadRef baseUri (next (answers.getLast?.getD []))

/-- What the reader of a document at `baseUri` is given. -/
def loadPorts (cfg : LoadConfig κ) (loadRef : String → LoadExec κ ObjectId) (baseUri : String) :
    ReaderPorts (LoadingDocument κ) (LoadedContent κ) where
  allocateId := onModel allocateId
  codec kind := (cfg.codec kind).map fun c =>
    { deserialize := fun params inputs composition =>
        runCodec loadRef baseUri (c.answer params inputs composition)
      serialize := c.serialize }
  kindRegistered := cfg.kindRegistered
  placeholder := cfg.placeholder
  sink := sinkContent cfg.thread

/-! ## External compositions -/

/-- `load_composition`: the graph goes into an ordinary transaction. -/
def loadComposition (cfg : LoadConfig κ) (ports : ReaderPorts (LoadingDocument κ) (LoadedContent κ))
    (parsed : Option Json) (child : ObjectId) : LoadExec κ ObjectId := do
  let root ← orThrow (parseDocument parsed)
  let _ ← orThrow (applyStorageFormat root .rgba16fLinearPremul)
  let graph ← resolveGraph ports root child
  if graph.root.valid then
    let i ← gets (·.model.transactions.length)
    callModel beginTransaction
    let next ← gets (·.model.nextId)
    forEach (installGraph next graph.comps).1 fun m => callModel (mutate cfg.thread i m)
    let committed ← result (onModel (commit i))
    callModel (destroyTransaction i)
    match committed with
    | .ok _ => pure graph.root
    | .error _ => throw installError
  else pure 0

/-- `ExternalCompositionLoader::install`, with the loader of the child's own references. -/
def installChild (cfg : LoadConfig κ) (loadRef : String → String → LoadExec κ ObjectId)
    (uri : String) (bytes : AssetBytes) : LoadExec κ ObjectId :=
  if bytes = [] then do
    editPending (·.record uri 0)
    pure 0
  else do
    let child := ((← gets (·.pending.byUri)) uri).getD 0
    match ← result (loadComposition cfg (loadPorts cfg (loadRef uri) uri) (cfg.parse bytes) child) with
    | .ok id =>
      if id.valid then pure id
      else do
        editPending (·.record uri 0)
        pure 0
    | .error _ => do
      editPending (·.record uri 0)
      pure 0

/-- `ExternalCompositionLoader::load` with so many more references to go before the cap. -/
def loadReference (cfg : LoadConfig κ) : ℕ → String → String → LoadExec κ ObjectId
  | 0, baseUri, reference => do
    modify fun d => { d with capped := resolvedUri baseUri reference :: d.capped }
    pure 0
  | left + 1, baseUri, reference => do
    let uri := resolvedUri baseUri reference
    match (← gets (·.pending.byUri)) uri with
    | some known => pure known
    | none =>
      -- the id is recorded before the request, so a way back to this URI finds it
      let child ← onModel allocateId
      editPending fun p => (p.record uri child).addPending child
        ⟨uri, externalRefDepthCap - (left + 1)⟩
      modify fun d => { d with documents := (uri, child) :: d.documents }
      requestFor child uri
      match ← takeArrival child with
      | none => pure child
      | some bytes =>
        editPending (·.dropPending child)
        installChild cfg (loadReference cfg left) uri bytes

/-! ## The entry point -/

/-- `InstallScope`: the journal is not told. -/
def withoutJournal {α : Type} (x : LoadExec κ α) : LoadExec κ α := do
  modify fun d => { d with model := { d.model with journaled := false } }
  ensuring x (modify fun d => { d with model := { d.model with journaled := true } })

/-- `arbc::load_document`, with the root composition's id. -/
def readDocument (cfg : LoadConfig κ) (parsed : Option Json) (baseUri : String) (root : ObjectId) :
    LoadExec κ Unit := do
  let text ← orThrow (parseDocument parsed)
  let format ← orThrow (applyStorageFormat text .rgba16fLinearPremul)
  let graph ← resolveGraph
    (loadPorts cfg (loadReference cfg externalRefDepthCap baseUri) baseUri) text root
  let next ← gets (·.model.nextId)
  let (ms, staged) := installGraph next graph.comps
  onModel (loadBaseline cfg.thread ms)
  modify fun d => { d with unknown := graph.staged ++ staged, storageFormat := format }

/-- `load_document` of the runtime. -/
def loadDocument (cfg : LoadConfig κ) (parsed : Option Json) (baseUri : String)
    (assets : Option AssetSource) : LoadExec κ Unit :=
  withoutJournal do
    let base := String.ofList (normalizeUri baseUri.toList)
    editPending fun p => { p with source := assets }
    let root ← onModel allocateId
    modify fun d => { d with minted := [] }
    editPending (·.record base root)
    readDocument cfg parsed base root

/-! ## Bindings stay -/

/-- No binding is taken away. -/
def RowsGrow (d d' : LoadingDocument κ) : Prop := d.rows <+: d'.rows

instance : IsPreorder (LoadingDocument κ) RowsGrow where
  refl d := List.prefix_refl d.rows
  trans _ _ _ h h' := h.trans h'

theorem evolves_onModel {α : Type} (x : ModelExec α) :
    Evolves RowsGrow (onModel x : LoadExec κ α) :=
  evolves_zoom (T := fun _ _ => True) (fun _ _ _ => trivial) fun d _ _ => List.prefix_refl d.rows

theorem evolves_callModel {α : Type} (x : ModelExec α) :
    Evolves RowsGrow (callModel x : LoadExec κ Unit) :=
  evolves_onModel _

theorem evolves_editPending (f : PendingExternalLoads → PendingExternalLoads) :
    Evolves RowsGrow (editPending f : LoadExec κ Unit) :=
  evolves_modify fun d => List.prefix_refl d.rows

theorem evolves_takeArrival (child : ObjectId) :
    Evolves RowsGrow (takeArrival child : LoadExec κ (Option AssetBytes)) :=
  evolves_bind (evolves_gets _) fun _ => evolves_bind (evolves_editPending _) fun _ =>
    evolves_pure _

theorem evolves_loadAsset (uri : String) :
    Evolves RowsGrow (loadAsset uri : LoadExec κ (List AssetBytes)) := by
  refine evolves_bind (evolves_gets _) fun source => ?_
  split
  · exact evolves_pure _
  · exact evolves_bind (evolves_modify fun d => List.prefix_refl d.rows) fun _ =>
      evolves_bind (evolves_gets _) fun _ => evolves_pure _

theorem evolves_requestFor (id : ObjectId) (uri : String) :
    Evolves RowsGrow (requestFor id uri : LoadExec κ Unit) :=
  evolves_bind (evolves_loadAsset uri) fun _ => evolves_editPending _

theorem evolves_fetchAsset (baseUri source : String) :
    Evolves RowsGrow (fetchAsset baseUri source : LoadExec κ FetchedAsset) := by
  refine evolves_ite (evolves_pure _) (evolves_bind (evolves_gets _) fun byUri => ?_)
  split
  · exact evolves_pure _
  · refine evolves_bind (evolves_onModel _) fun id => evolves_bind (evolves_editPending _) fun _ =>
      evolves_bind (evolves_requestFor _ _) fun _ => evolves_bind (evolves_takeArrival _) fun _ => ?_
    split
    · exact evolves_pure _
    · exact evolves_bind (evolves_editPending _) fun _ => evolves_pure _

theorem evolves_commitMutators (thread : ℕ) (ms : List Mutator) :
    Evolves RowsGrow (commitMutators thread ms : LoadExec κ Unit) :=
  evolves_bind (evolves_gets _) fun _ => evolves_bind (evolves_callModel _) fun _ =>
    evolves_bind (evolves_forEach (fun _ => evolves_callModel _) _) fun _ =>
      evolves_bind (evolves_callModel _) fun _ => evolves_callModel _

theorem rowsGrow_addRow (d : LoadingDocument κ) (id : ObjectId) (live : ℕ) :
    RowsGrow d (d.addRow id live) := by
  show d.rows <+: _
  unfold LoadingDocument.addRow
  split
  · exact List.prefix_refl d.rows
  · exact List.prefix_append d.rows _

theorem evolves_addDocumentContent (thread live : ℕ) (c : LoadedContent κ) :
    Evolves RowsGrow (addDocumentContent thread live c) :=
  evolves_bind (evolves_gets _) fun _ => evolves_bind (evolves_callModel _) fun _ =>
    evolves_bind (evolves_gets _) fun _ => evolves_bind (evolves_callModel _) fun _ =>
    evolves_bind (evolves_gets _) fun _ => evolves_bind (evolves_gets _) fun _ =>
    evolves_bind (evolves_forEach (fun _ => evolves_callModel _) _) fun _ =>
    evolves_bind (evolves_callModel _) fun _ => evolves_bind (evolves_callModel _) fun _ =>
    evolves_bind (evolves_modify fun d => rowsGrow_addRow d _ _) fun _ => evolves_pure _

theorem evolves_demote (thread input : ℕ) :
    Evolves RowsGrow (demote thread input : LoadExec κ Unit) := by
  refine evolves_bind (evolves_gets _) fun minted => ?_
  split
  · exact evolves_pure _
  · exact evolves_bind (evolves_commitMutators _ _) fun _ =>
      evolves_modify fun d => List.prefix_refl d.rows

theorem evolves_sinkContent (thread : ℕ) (c : LoadedContent κ) :
    Evolves RowsGrow (sinkContent thread c) :=
  evolves_bind (evolves_gets _) fun _ =>
    evolves_bind (evolves_modify fun d => List.prefix_refl d.rows) fun _ =>
    evolves_bind (evolves_forEach (fun _ => evolves_demote _ _) _) fun _ =>
    evolves_bind (evolves_addDocumentContent _ _ _) fun _ =>
    evolves_bind (evolves_modify fun d => List.prefix_refl d.rows) fun _ => evolves_pure _

theorem evolves_runCodec {loadRef : String → LoadExec κ ObjectId}
    (h : ∀ reference, Evolves RowsGrow (loadRef reference)) (baseUri : String)
    (answer : CodecAnswer κ) : Evolves RowsGrow (runCodec loadRef baseUri answer) := by
  induction answer with
  | fail e => exact evolves_throw e
  | content c => exact evolves_pure c
  | external reference build =>
    exact evolves_bind (h reference) fun _ =>
      evolves_bind (evolves_modify fun d => List.prefix_refl d.rows) fun _ => evolves_pure _
  | asset source build =>
    refine evolves_bind (evolves_fetchAsset _ _) fun fetched => ?_
    split
    · exact evolves_pure _
    · exact evolves_throw _
  | read reference next ih => exact evolves_bind (evolves_loadAsset _) fun _ => ih _

theorem evolve_loadPorts (cfg : LoadConfig κ) {loadRef : String → LoadExec κ ObjectId}
    (h : ∀ reference, Evolves RowsGrow (loadRef reference)) (baseUri : String) :
    (loadPorts cfg loadRef baseUri).Evolve RowsGrow where
  allocateId := evolves_onModel _
  deserialize kind codec hcodec params inputs composition := by
    obtain ⟨c, -, rfl⟩ := Option.map_eq_some_iff.mp hcodec
    exact evolves_runCodec h baseUri _
  sink c := evolves_sinkContent cfg.thread c

theorem evolves_loadComposition {cfg : LoadConfig κ}
    {ports : ReaderPorts (LoadingDocument κ) (LoadedContent κ)} (h : ports.Evolve RowsGrow)
    (parsed : Option Json) (child : ObjectId) :
    Evolves RowsGrow (loadComposition cfg ports parsed child) := by
  refine evolves_bind (evolves_orThrow _) fun root => evolves_bind (evolves_orThrow _) fun _ =>
    evolves_bind (evolves_resolveGraph h root child) fun graph => evolves_ite ?_ (evolves_pure _)
  refine evolves_bind (evolves_gets _) fun _ => evolves_bind (evolves_callModel _) fun _ =>
    evolves_bind (evolves_gets _) fun _ =>
    evolves_bind (evolves_forEach (fun _ => evolves_callModel _) _) fun _ =>
    evolves_bind (evolves_result (evolves_onModel _)) fun _ =>
    evolves_bind (evolves_callModel _) fun _ => ?_
  split
  · exact evolves_pure _
  · exact evolves_throw _

theorem evolves_installChild {cfg : LoadConfig κ} {loadRef : String → String → LoadExec κ ObjectId}
    (h : ∀ baseUri reference, Evolves RowsGrow (loadRef baseUri reference)) (uri : String)
    (bytes : AssetBytes) : Evolves RowsGrow (installChild cfg loadRef uri bytes) := by
  refine evolves_ite (evolves_bind (evolves_editPending _) fun _ => evolves_pure _) ?_
  refine evolves_bind (evolves_gets _) fun byUri => evolves_bind (evolves_result
    (evolves_loadComposition (evolve_loadPorts cfg (h uri) uri) _ _)) fun installed => ?_
  split
  · exact evolves_ite (evolves_pure _) (evolves_bind (evolves_editPending _) fun _ =>
      evolves_pure _)
  · exact evolves_bind (evolves_editPending _) fun _ => evolves_pure _

theorem evolves_loadReference (cfg : LoadConfig κ) (left : ℕ) (baseUri reference : String) :
    Evolves RowsGrow (loadReference cfg left baseUri reference) := by
  induction left generalizing baseUri reference with
  | zero =>
    exact evolves_bind (evolves_modify fun d => List.prefix_refl d.rows) fun _ => evolves_pure _
  | succ left ih =>
    refine evolves_bind (evolves_gets _) fun byUri => ?_
    split
    · exact evolves_pure _
    · refine evolves_bind (evolves_onModel _) fun child =>
        evolves_bind (evolves_editPending _) fun _ =>
        evolves_bind (evolves_modify fun d => List.prefix_refl d.rows) fun _ =>
        evolves_bind (evolves_requestFor _ _) fun _ =>
        evolves_bind (evolves_takeArrival _) fun _ => ?_
      split
      · exact evolves_pure _
      · exact evolves_bind (evolves_editPending _) fun _ => evolves_installChild ih _ _

end ArbitraryComposer
