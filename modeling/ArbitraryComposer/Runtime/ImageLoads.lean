import ArbitraryComposer.Runtime.CodecImage
import ArbitraryComposer.Runtime.FailedLoad

/-!
# Loading Images

Every image layer that a load builds has its asset requested, unless the same URI is in flight. The
source answers within the request, later, more than once or never. An answer within the request goes
into the content when it is built; a later one goes to a queue, and a settle hands it to the
contents that wait for it. A layer may be removed in the meantime: its content stays bound while the
removal can be undone.

## Main definitions

- `ImageDocument`: the images of a document and its pending assets.
- `ImageDocument.step`: a load of an image, an answer, a settle, a removal.
- `ImageDocument.Faithful`: what becomes of references and bytes.
-/

namespace ArbitraryComposer

/-- The content of an image layer as it is bound. -/
structure BoundImage where
  /-- The id of the content. -/
  id : ObjectId
  /-- The content. -/
  content : ImageContent
  /-- The parameters that it was built from. -/
  params : Json
  /-- The base that its reference was resolved against. -/
  baseUri : String
  /-- The answer of the source that it was given. -/
  answered : Option AssetBytes

namespace BoundImage

/-- The reference that the parameters carry. -/
def source (r : BoundImage) : String := sourceOf r.params

/-- The URI it resolves to. -/
def uri (r : BoundImage) : String := imageUri r.baseUri r.source

/-- Neither the reference nor the URI has a newline. -/
def Plain (r : BoundImage) : Prop := newline ∉ bytesOf r.source ∧ newline ∉ bytesOf r.uri

end BoundImage

/-- The images of a document. -/
structure ImageDocument (π : Type) where
  /-- The next id. -/
  nextId : ObjectId
  /-- The cache of the plugin. -/
  cache : PyramidCache π
  /-- The pending assets. -/
  pending : PendingExternalLoads
  /-- The contents that are bound. -/
  rows : List BoundImage := []
  /-- The contents that the current version has. -/
  records : List ObjectId := []
  /-- The transactions of settles: the contents that each damages, newest first. -/
  published : List (List ObjectId) := []
  /-- The answers that a settle has taken and not come to. -/
  batch : List (ObjectId × AssetBytes) := []
  /-- The requests, with their URIs. -/
  requested : List (ObjectId × String) := []
  /-- What the source has answered for a URI. -/
  delivered : List (String × AssetBytes) := []

/-- What happens to the images of a document. -/
inductive ImageEvent where
  /-- A load builds an image layer; the source gives some answers within the request. -/
  | load (baseUri : String) (params : Json) (answers : List AssetBytes)
  /-- A request is answered later, on any thread. -/
  | answer (fetch : ObjectId) (bytes : AssetBytes)
  /-- A settle takes the queue. -/
  | takeReady
  /-- It comes to the next answer. -/
  | settleNext
  /-- The layer of a content is removed. -/
  | remove (id : ObjectId)
  /-- The removal is undone. -/
  | undo (id : ObjectId)
  /-- The history forgets a content that was removed. -/
  | reclaim (id : ObjectId)

namespace ImageDocument

variable {π : Type} (d : PyramidDecoder π)

/-- `ExternalAssetLoader::fetch`. -/
def fetch (s : ImageDocument π) (baseUri source : String) (answers : List AssetBytes) :
    FetchedAsset × ImageDocument π :=
  if source = "" then (⟨"", [], 0⟩, s)
  else
    let uri := imageUri baseUri source
    match s.pending.assetByUri uri with
    | some fetch => (⟨uri, [], fetch⟩, s)
    | none =>
      let id := s.nextId
      let pending := answers.foldl (fun p bytes => p.complete id bytes)
        (s.pending.addPendingAsset id uri)
      let s := { s with
        nextId := id + 1
        requested := (id, uri) :: s.requested
        delivered := answers.map (uri, ·) ++ s.delivered }
      match pending.ready.lookup id with
      | none => (⟨uri, [], id⟩, { s with pending })
      | some bytes =>
        (⟨uri, bytes, 0⟩, { s with pending := (pending.dropArrival id).dropPendingAsset id })

/-- `deserialize_image` and the sink of the load. -/
def loadImage (s : ImageDocument π) (baseUri : String) (params : Json) (answers : List AssetBytes) :
    ImageDocument π :=
  let source := sourceOf params
  let (fetched, s) := s.fetch baseUri source answers
  match makeImageContent d s.cache
      (imageConfig (bytesOf source) (bytesOf fetched.resolved) fetched.bytes) with
  | .error _ => s
  | .ok (content, cache) =>
    let id := s.nextId
    let waits := fetched.pending.valid
    let answered := if source = "" ∨ waits then none else some fetched.bytes
    { s with
      nextId := id + 1
      cache
      rows := s.rows ++ [{ id, content, params, baseUri, answered }]
      records := s.records ++ [id]
      pending := if waits then s.pending.addAssetWaiter fetched.pending id else s.pending }

/-- `Content::install_asset` of a content that waits: whether it took the bytes. -/
def install (s : ImageDocument π) (bytes : AssetBytes) (id : ObjectId) : Bool × ImageDocument π :=
  match s.rows.find? fun r => r.id = id with
  | none => (false, s)
  | some row =>
    let (took, content, cache) := row.content.installAsset d s.cache bytes
    (took, { s with
      cache
      rows := s.rows.map fun r =>
        if r.id = id then { r with content, answered := some bytes } else r })

/-- The contents that wait, one after the other, and those that took the bytes. -/
def installAll (bytes : AssetBytes) :
    List ObjectId → ImageDocument π → List ObjectId × ImageDocument π
  | [], s => ([], s)
  | id :: rest, s =>
    let (took, s) := s.install d bytes id
    let (damaged, s) := installAll bytes rest s
    (if took then id :: damaged else damaged, s)

/-- `settle_asset_arrival`; an answer that nobody waits for is passed over. -/
def settleArrival (s : ImageDocument π) (fetch : ObjectId) (bytes : AssetBytes) :
    ImageDocument π :=
  match s.pending.pendingAssets fetch with
  | none => s
  | some entry =>
    let (damaged, s) :=
      installAll d bytes entry.awaiting { s with pending := s.pending.dropPendingAsset fetch }
    if damaged = [] then s else { s with published := damaged :: s.published }

/-- The effect of an event. A run stops where the ids would wrap. -/
def step : ImageEvent → ImageDocument π → Option (ImageDocument π)
  | .load baseUri params answers, s =>
    if s.nextId.toNat + 2 < 2 ^ 64 then some (s.loadImage d baseUri params answers) else none
  | .answer fetch bytes, s =>
    (s.requested.lookup fetch).map fun uri =>
      { s with
        pending := s.pending.complete fetch bytes
        delivered := (uri, bytes) :: s.delivered }
  | .takeReady, s =>
    match s.batch with
    | [] => some { s with batch := s.pending.ready, pending := { s.pending with ready := [] } }
    | _ => none
  | .settleNext, s =>
    match s.batch with
    | [] => none
    | arrival :: rest => some (({ s with batch := rest }).settleArrival d arrival.1 arrival.2)
  | .remove id, s => some { s with records := s.records.filter (· ≠ id) }
  | .undo id, s =>
    if id ∈ s.rows.map BoundImage.id ∧ id ∉ s.records then
      some { s with records := s.records ++ [id] }
    else none
  | .reclaim id, s =>
    if id ∈ s.records then none else some { s with rows := s.rows.filter fun r => r.id ≠ id }

/-- All runs of a document without images, with any cache. -/
def machine : Machine (ImageDocument π) ImageEvent where
  start s := ∃ nextId cache, 0 < nextId.toNat ∧ s = { nextId, cache, pending := .init }
  step := step d

/-! ## What is promised -/

/-- The answer that is settled next goes where it should. -/
structure Settles (s s' : ImageDocument π) (fetch : ObjectId) (bytes : AssetBytes)
    (rest : List (ObjectId × AssetBytes)) : Prop where
  /-- An answer that nobody waits for, such as a second one, changes nothing. -/
  second : s.pending.pendingAssets fetch = none → s' = { s with batch := rest }
  /-- Neither does one for contents that are no longer bound; it is only no longer waited for. -/
  unbound : ∀ entry, s.pending.pendingAssets fetch = some entry →
    (∀ r ∈ s.rows, r.id ∉ entry.awaiting) →
      s' = { s with batch := rest, pending := s.pending.dropPendingAsset fetch }
  /-- The version has the same contents, also where one that was removed is still bound. -/
  records : s'.records = s.records
  /-- Contents that do not wait for it stay as they are, and those that do are given the bytes. -/
  rows : ∀ r' ∈ s'.rows, r' ∈ s.rows ∨ r'.answered = some bytes ∧
    ∃ entry, s.pending.pendingAssets fetch = some entry ∧ r'.id ∈ entry.awaiting

/-- Image layers keep their references and get their own bytes. -/
structure Faithful (s : ImageDocument π) : Prop where
  /-- A content has the reference of its parameters, and the URI that it resolves to. -/
  reference : ∀ r ∈ s.rows, r.Plain →
    r.content.uri = bytesOf r.source ∧ r.content.resolved = bytesOf r.uri
  /-- It is given what the source has answered for its URI, and nothing else. -/
  given : ∀ r ∈ s.rows, r.Plain → match r.answered with
    | none => r.content.given = []
    | some bytes => (r.uri, bytes) ∈ s.delivered ∧ r.content.given = [bytes].filter (· ≠ [])
  /-- As long as it was given no answer, it waits for one. -/
  waits : ∀ r ∈ s.rows, r.source ≠ "" → r.answered = none → ∃ fetch entry,
    s.pending.pendingAssets fetch = some entry ∧ entry.uri = r.uri ∧ r.id ∈ entry.awaiting
  /-- Its reference is saved. -/
  saved : ∀ r ∈ s.rows, r.Plain → ∀ source, r.params.find "source" = some (.string source) →
    (savedParams r.params r.content).find "source" = some (.string source)
  /-- The next answer goes where it should. -/
  settles : ∀ fetch bytes rest s', s.batch = (fetch, bytes) :: rest →
    step d .settleNext s = some s' → s.Settles s' fetch bytes rest

end ImageDocument

end ArbitraryComposer
