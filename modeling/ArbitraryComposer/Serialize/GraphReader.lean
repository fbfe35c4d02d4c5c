import ArbitraryComposer.Model.Mutators
import ArbitraryComposer.Pool.Fault
import ArbitraryComposer.Serialize.DocumentText
import ArbitraryComposer.ToMathlib.Exec

/-!
# Reading a Document Graph

A document is read in two parts. First all its contents are built, from the inputs of a content to
the content itself, and each is handed to a sink the moment it is built; a shared content is built
once, and a composition that a content names is given its id and put at the end of a worklist. Then
the compositions are installed in one transaction. A failed read has handed to the sink what it had
built by then.

The codecs, the sink and the id counter work on a state of the caller's, the host.

## Main definitions

- `ReaderPorts`: what the reader is given.
- `resolveContent`, `buildContent`, `buildInputs`: `RefResolver`.
- `resolveComposition`: `CompResolver`.
- `resolveGraph`, `installGraph`: the two parts.

## Main results

- `evolves_resolveGraph`: what every port keeps, the reader keeps.
- `resolvePending_ends`: the worklist of compositions ends before its turns do.
-/

namespace ArbitraryComposer

open Exec

/-- `SunkContent`. -/
structure SunkContent where
  /-- The id the sink minted. -/
  id : ObjectId
  /-- The live object. -/
  live : ℕ
  deriving DecidableEq, Repr

/-- `Codec`. -/
structure Codec (σ κ : Type) where
  /-- Builds a content from its parameters, its inputs and its child composition. -/
  deserialize : Json → List ℕ → ObjectId → Exec σ ReaderError Fault κ
  /-- The parameters of a content; `none` is a codec that fails. -/
  serialize : κ → Option Json

/-- What the reader is given: contents are values of `κ`, and `σ` is the state of the host. -/
structure ReaderPorts (σ κ : Type) where
  /-- `Model::allocate_id`. -/
  allocateId : Exec σ ReaderError Fault ObjectId
  /-- `CodecTable::find`. -/
  codec : String → Option (Codec σ κ)
  /-- Whether the registry has a factory for a kind. -/
  kindRegistered : String → Bool
  /-- `PlaceholderContent`. -/
  placeholder : Json → Bool → List ℕ → ObjectId → κ
  /-- `ContentSink`. -/
  sink : κ → Exec σ ReaderError Fault SunkContent

/-- The state of a read. -/
structure Reading (σ : Type) where
  /-- The host. -/
  host : σ
  /-- The ids of the compositions named so far. -/
  allocated : List (String × ObjectId)
  /-- The worklist of compositions. -/
  pending : List (ObjectId × Json)
  /-- The shared contents built so far. -/
  cache : List (String × SunkContent)
  /-- The residuals found so far. -/
  staged : UnknownFieldStore

/-- Programs of the reader. -/
abbrev ReadExec (σ α : Type) : Type := Exec (Reading σ) ReaderError Fault α

variable {σ κ : Type}

/-- A program of the host. -/
def onHost {α : Type} (x : Exec σ ReaderError Fault α) : ReadExec σ α :=
  zoom Reading.host (fun h r => { r with host := h }) id x

/-- The checks of `content_body_from_json`: the kind and the parameters of a content. -/
def contentFrame (body : Json) : Except ReaderError (String × Json) :=
  if body.isObject then
    match body.find "kind" with
    | none => .error ⟨.missingRequiredField, "/kind"⟩
    | some kind =>
      match kind.getString? with
      | none => .error ⟨.malformedField, "/kind"⟩
      | some kind =>
        if kind = "" then .error ⟨.missingRequiredField, "/kind"⟩
        else
          let params := (body.find "params").getD (.object [])
          if params.isObject then .ok (kind, params) else .error ⟨.malformedField, "/params"⟩
  else .error ⟨.malformedField, ""⟩

/-- `content_body_from_json`: the content and the residual of its parameters. -/
def contentBodyFromJson (ports : ReaderPorts σ κ) (body : Json) (inputs : List ℕ)
    (composition : ObjectId) : Exec σ ReaderError Fault (κ × Json) := do
  let (kind, params) ← orThrow (contentFrame body)
  match ports.codec kind with
  | some codec =>
    let content ← codec.deserialize params inputs composition
    let residual := ((codec.serialize content).map (unknownResidualDiff params)).getD (.object [])
    pure (content, residual)
  | none =>
    let stored := (body.erase "inputs").erase "composition"
    pure (ports.placeholder stored (ports.kindRegistered kind) inputs composition, .object [])

/-! ## Compositions -/

/-- The id of the root: the one the caller allocated, or a new one. -/
def rootId (ports : ReaderPorts σ κ) (seeded : ObjectId) : Exec σ ReaderError Fault ObjectId :=
  if seeded.valid then pure seeded else ports.allocateId

/-- `CompResolver::add_root`. -/
def addRoot (ports : ReaderPorts σ κ) (body : Json) (seeded : ObjectId) : ReadExec σ ObjectId := do
  let id ← onHost (rootId ports seeded)
  modify fun r => { r with allocated := [("0", id)], pending := [(id, body)] }
  pure id

/-- `CompResolver::resolve`. -/
def resolveComposition (ports : ReaderPorts σ κ) (compositions : Option Json) (key : String) :
    ReadExec σ ObjectId := do
  let allocated ← gets Reading.allocated
  match allocated.lookup key with
  | some id => pure id
  | none =>
    match compositions.bind (·.find key) with
    | none => throw ⟨.unresolvableReference, "/compositions/" ++ key⟩
    | some body =>
      if body.isObject then do
        let id ← onHost ports.allocateId
        modify fun r => { r with
          allocated := r.allocated ++ [(key, id)], pending := r.pending ++ [(id, body)] }
        pure id
      else throw ⟨.malformedField, "/compositions/" ++ key⟩

/-- The child composition that a content names. -/
def childComposition (ports : ReaderPorts σ κ) (compositions : Option Json) (body : Json) :
    ReadExec σ ObjectId :=
  match body.find "composition" with
  | none => pure 0
  | some key =>
    match key.getString? with
    | some key => resolveComposition ports compositions key
    | none => throw ⟨.malformedField, "/composition"⟩

/-! ## Contents -/

/-- What is kept of a content beyond what its codec takes. -/
def contentUnknown (body residual : Json) (layerPosition : Bool) : Json :=
  let stash := if layerPosition then .object [] else unknownResidual body bodyKeys
  if residual.isEmpty then stash else stash.set "params" residual

/-- The last part of `RefResolver::build`: the inputs are there. -/
def produceContent (ports : ReaderPorts σ κ) (compositions : Option Json) (body : Json)
    (inputs : List ℕ) (layerPosition : Bool) : ReadExec σ SunkContent := do
  let child ← childComposition ports compositions body
  let (content, residual) ← onHost (contentBodyFromJson ports body inputs child)
  let sunk ← onHost (ports.sink content)
  modify fun r => { r with
    staged := r.staged.set .content sunk.id (contentUnknown body residual layerPosition) }
  pure sunk

/-- The weight of the shared contents that are not being built. -/
noncomputable def unresolved (contents : Option Json) (inProgress : List String) : ℕ :=
  (((contents.elim [] Json.members).filter fun p => p.1 ∉ inProgress).map
    fun p => 2 * (sizeOf p.2 + 1)).sum

/-- Building a shared content leaves less. -/
theorem unresolved_lt {contents : Option Json} {inProgress : List String} {id : String}
    {body : Json} (h : contents.bind (·.find id) = some body) (hid : id ∉ inProgress) :
    unresolved contents (id :: inProgress) + 2 * sizeOf body < unresolved contents inProgress := by
  obtain ⟨table, rfl, hbody⟩ := Option.bind_eq_some_iff.mp h
  cases table with
  | object fields =>
    obtain ⟨l, r, hfields, -⟩ := List.lookup_eq_some_iff.mp hbody
    have hsub : (fields.filter fun p => p.1 ∉ id :: inProgress).Sublist
        ((l ++ r).filter fun p => p.1 ∉ inProgress) := by
      rw [hfields, List.filter_append, List.filter_append, List.filter_cons_of_neg (by simp)]
      refine List.Sublist.append ?_ ?_ <;>
      · refine List.monotone_filter_right _ fun p hp => ?_
        simp_all
    have hsum := (hsub.map fun p => 2 * (sizeOf p.2 + 1)).sum_le_sum fun _ _ => Nat.zero_le _
    have hall : (((l ++ r).filter fun p => p.1 ∉ inProgress).map
        fun p => 2 * (sizeOf p.2 + 1)).sum + 2 * (sizeOf body + 1) =
        unresolved (some (.object fields)) inProgress := by
      simp [unresolved, Json.members, hfields, List.filter_append, hid]
      omega
    show ((fields.filter fun p => p.1 ∉ id :: inProgress).map _).sum + _ < _
    omega
  | _ => exact absurd hbody nofun
section Contents

variable (ports : ReaderPorts σ κ) (compositions contents : Option Json)

mutual

/-- `RefResolver::resolve`. -/
def resolveContent (inProgress : List String) (node : Json) (layerPosition : Bool) :
    ReadExec σ SunkContent :=
  match node.find "$ref" with
  | none => buildContent inProgress node layerPosition
  | some ref =>
    match ref.getString? with
    | none => throw ⟨.unresolvableReference, "/$ref"⟩
    | some id => do
      let cache ← gets Reading.cache
      match cache.lookup id with
      | some sunk => pure sunk
      | none =>
        if _hid : id ∈ inProgress then throw ⟨.unresolvableReference, "/contents/" ++ id⟩
        else
          match _hbody : contents.bind (·.find id) with
          | none => throw ⟨.unresolvableReference, "/contents/" ++ id⟩
          | some body =>
            if body.isObject then do
              -- a shared content stands alone, wherever it is named
              let sunk ← buildContent (id :: inProgress) body false
              modify fun r => { r with cache := r.cache ++ [(id, sunk)] }
              pure sunk
            else throw ⟨.malformedField, "/contents/" ++ id⟩
termination_by unresolved contents inProgress + 2 * sizeOf node + 1
decreasing_by
  · omega
  · have := unresolved_lt _hbody _hid
    omega

/-- `RefResolver::build`. -/
def buildContent (inProgress : List String) (body : Json) (layerPosition : Bool) :
    ReadExec σ SunkContent :=
  if body.contains "inputs" && body.contains "composition" then throw ⟨.malformedField, ""⟩
  else
    match _hinputs : body.find "inputs" with
    | none => produceContent ports compositions body [] layerPosition
    | some (.array slots) => do
      let inputs ← buildInputs inProgress slots
      produceContent ports compositions body inputs layerPosition
    | some _ => throw ⟨.malformedField, "/inputs"⟩
termination_by unresolved contents inProgress + 2 * sizeOf body
decreasing_by
  have := Json.sizeOf_lt_of_find _hinputs
  simp only [Json.array.sizeOf_spec] at this
  omega

/-- The loop over the inputs of a content. -/
def buildInputs (inProgress : List String) (slots : List Json) : ReadExec σ (List ℕ) :=
  match slots with
  | [] => pure []
  | slot :: rest =>
    if slot.isObject then do
      let child ← resolveContent inProgress slot false
      let children ← buildInputs inProgress rest
      pure (child.live :: children)
    else throw ⟨.malformedField, "/inputs"⟩
termination_by unresolved contents inProgress + 2 * sizeOf slots
decreasing_by
  · simp only [List.cons.sizeOf_spec]
    omega
  · simp only [List.cons.sizeOf_spec]
    omega

end

/-- The content of a layer: its id, or the invalid id where the layer has none. -/
def readLayer (l : LayerData) : ReadExec σ (LayerData × ObjectId) :=
  match l.contentBody with
  | none => pure (l, 0)
  | some body => do
    let sunk ← resolveContent ports compositions contents [] body true
    pure (l, sunk.id)

/-- The loop over the layers of a composition. -/
def readLayers : List LayerData → ReadExec σ (List (LayerData × ObjectId))
  | [] => pure []
  | l :: rest => do
    let layer ← readLayer ports compositions contents l
    let layers ← readLayers rest
    pure (layer :: layers)

end Contents

/-! ## Graphs -/

/-- `ResolvedComp`. -/
structure ResolvedComp where
  /-- The id it takes. -/
  id : ObjectId
  /-- The composition as it is written. -/
  data : CompData
  /-- Its layers with their contents. -/
  layers : List (LayerData × ObjectId)

/-- `DocumentGraph`. -/
structure DocumentGraph where
  /-- The root composition; the invalid id where the document has none. -/
  root : ObjectId
  /-- The compositions in the order of the worklist. -/
  comps : List ResolvedComp
  /-- The residuals found so far. -/
  staged : UnknownFieldStore

/-- The loop over the worklist of compositions. -/
def resolvePending (ports : ReaderPorts σ κ) (compositions contents : Option Json) :
    ℕ → ℕ → ReadExec σ (List ResolvedComp)
  | 0, i => do
    let pending ← gets Reading.pending
    match pending[i]? with
    | none => pure []
    | some _ => fault .depthExceeded
  | turns + 1, i => do
    let pending ← gets Reading.pending
    match pending[i]? with
    | none => pure []
    | some (id, body) =>
      let data := parseComposition body
      let layers ← readLayers ports compositions contents data.layers
      let rest ← resolvePending ports compositions contents turns (i + 1)
      pure (⟨id, data, layers⟩ :: rest)

/-- The compositions and the contents from the root on. -/
def resolveRoot (ports : ReaderPorts σ κ) (compositions contents : Option Json) (body : Json)
    (seeded : ObjectId) : ReadExec σ DocumentGraph := do
  let id ← addRoot ports body seeded
  let comps ← resolvePending ports compositions contents
    ((compositions.elim [] Json.members).length + 1) 0
  let staged ← gets Reading.staged
  pure ⟨id, comps, staged⟩

/-- A read over the host. -/
def withReading {α : Type} (staged : UnknownFieldStore) (x : ReadExec σ α) :
    Exec σ ReaderError Fault α := fun s =>
  match x.run ⟨s, [], [], [], staged⟩ with
  | .ok a r => .ok a r.host
  | .error e r => .error e r.host
  | .fault f => .fault f

@[simp]
theorem wp_withReading {α : Type} (staged : UnknownFieldStore) (x : ReadExec σ α)
    {Q : α → σ → Prop} {E : ReaderError → σ → Prop} {F : Fault → Prop} {s : σ} :
    wp (withReading staged x) Q E F s ↔ wp x (fun a r => Q a r.host) (fun e r => E e r.host) F
      ⟨s, [], [], [], staged⟩ := by
  unfold wp withReading run
  cases x ⟨s, [], [], [], staged⟩ <;> rfl

/-- The checks of `resolve_graph`: the root composition and the two tables. -/
def checkTables (root : Json) : Except ReaderError Unit :=
  if (root.find "composition").any (!·.isObject) then .error ⟨.malformedField, "/composition"⟩
  else if (root.find "compositions").any (!·.isObject) then
    .error ⟨.malformedField, "/compositions"⟩
  else if (root.find "compositions").any (·.contains "0") then
    .error ⟨.malformedField, "/compositions/0"⟩
  else if (root.find "contents").any (!·.isObject) then .error ⟨.malformedField, "/contents"⟩
  else .ok ()

/-- `resolve_graph`. -/
def resolveGraph (ports : ReaderPorts σ κ) (root : Json) (seeded : ObjectId) :
    Exec σ ReaderError Fault DocumentGraph := do
  orThrow (checkTables root)
  let staged := UnknownFieldStore.set [] .document 0 (documentUnknown root)
  match root.find "composition" with
  | none => pure ⟨0, [], staged⟩
  | some body =>
    withReading staged
      (resolveRoot ports (root.find "compositions") (root.find "contents") body seeded)

/-! ## Installing -/

/-- The chunks a composition of so many layers continues in. -/
def spillCount (n : ℕ) : ℕ := if n ≤ maxInlineLayers then 0 else chunkCount n

/-- The mutators that install a layer under an id; a field at its default is not written. -/
def layerMutators (composition layer content : ObjectId) (l : LayerData) : List Mutator :=
  [.addLayer content l.transform l.opacity] ++
    (if l.blend = .normal then [] else [.setBlend layer l.blend]) ++
    (if l.gain = 0x3FF0000000000000 then [] else [.setGain layer l.gain]) ++
    (if l.visible then [] else [.setVisible layer false]) ++
    (if l.audible then [] else [.setAudible layer false]) ++
    (if l.span = .all then [] else [.setSpan layer l.span]) ++
    (if l.timeMap = {} then [] else [.setTimeMap layer l.timeMap]) ++
    [.attachLayer composition layer 0xFFFFFFFF]

/-- The layers of a composition from position `n` on: the mutators, the residuals, and the next id.
A layer takes one id, and attaching it those of the chunks it adds. -/
def installLayers (composition : ObjectId) : ℕ → ObjectId → List (LayerData × ObjectId) →
    List Mutator × UnknownFieldStore × ObjectId
  | _, next, [] => ([], [], next)
  | n, next, (l, content) :: rest =>
    let chunks := spillCount (n + 1) - spillCount n
    let (ms, staged, last) := installLayers composition (n + 1) (next + 1 + .ofNat chunks) rest
    (layerMutators composition next content l ++ ms,
      UnknownFieldStore.set staged .layer next l.unknown, last)

/-- The mutators that install a composition, before its layers. -/
def compositionMutators (c : ResolvedComp) : List Mutator :=
  [.addCompositionAs c.id c.data.canvasW c.data.canvasH] ++
    (c.data.workingSpace.map (Mutator.setWorkingSpace c.id)).toList ++
    (c.data.workingAudioFormat.map (Mutator.setWorkingAudioFormat c.id)).toList

/-- `install_graph`: the mutators, and the residuals of compositions and layers. -/
def installGraph : ObjectId → List ResolvedComp → List Mutator × UnknownFieldStore
  | _, [] => ([], [])
  | next, c :: rest =>
    let (ms, staged, next) := installLayers c.id 0 next c.layers
    let (ms', staged') := installGraph next rest
    (compositionMutators c ++ ms ++ ms',
      UnknownFieldStore.set (staged ++ staged') .composition c.id c.data.unknown)

/-! ## Induction along the reader -/

/-- The steps of an induction along the reader: for a place where a content stands, for a content,
and for a list of inputs. -/
structure ReaderSteps (contents : Option Json) (P Q : List String → Json → Prop)
    (S : List String → List Json → Prop) : Prop where
  /-- A place holds a content, or a reference to a shared content that is not being built. -/
  place : ∀ inProgress node, (node.find "$ref" = none → Q inProgress node) →
    (∀ id body, contents.bind (·.find id) = some body → id ∉ inProgress →
      Q (id :: inProgress) body) → P inProgress node
  /-- A content has inputs. -/
  content : ∀ inProgress body,
    (∀ slots, body.find "inputs" = some (.array slots) → S inProgress slots) → Q inProgress body
  /-- No inputs. -/
  nil : ∀ inProgress, S inProgress []
  /-- An input is a place. -/
  cons : ∀ inProgress slot rest, P inProgress slot → S inProgress rest →
    S inProgress (slot :: rest)

namespace ReaderSteps

variable {contents : Option Json} {P Q : List String → Json → Prop}
  {S : List String → List Json → Prop}

mutual

theorem at_place (h : ReaderSteps contents P Q S) (inProgress : List String) (node : Json) :
    P inProgress node :=
  h.place inProgress node (fun _ => at_content h inProgress node)
    fun id body _ _ => at_content h (id :: inProgress) body
termination_by unresolved contents inProgress + 2 * sizeOf node + 1
decreasing_by
  · omega
  · have hless : unresolved contents (id :: inProgress) + 2 * sizeOf body <
        unresolved contents inProgress := unresolved_lt ‹_› ‹_›
    omega

theorem at_content (h : ReaderSteps contents P Q S) (inProgress : List String) (body : Json) :
    Q inProgress body :=
  h.content inProgress body fun slots _ => at_inputs h inProgress slots
termination_by unresolved contents inProgress + 2 * sizeOf body
decreasing_by
  have := Json.sizeOf_lt_of_find ‹_›
  simp only [Json.array.sizeOf_spec] at this
  omega

theorem at_inputs (h : ReaderSteps contents P Q S) (inProgress : List String)
    (slots : List Json) : S inProgress slots :=
  match slots with
  | [] => h.nil inProgress
  | slot :: rest => h.cons inProgress slot rest (at_place h inProgress slot)
      (at_inputs h inProgress rest)
termination_by unresolved contents inProgress + 2 * sizeOf slots
decreasing_by
  · simp only [List.cons.sizeOf_spec]
    omega
  · simp only [List.cons.sizeOf_spec]
    omega

end

end ReaderSteps

/-! ## What a read keeps -/

/-- What each port does to the host. -/
structure ReaderPorts.Evolve (ports : ReaderPorts σ κ) (R : σ → σ → Prop) : Prop where
  /-- Allocating an id. -/
  allocateId : Evolves R ports.allocateId
  /-- Running a codec. -/
  deserialize : ∀ kind codec, ports.codec kind = some codec → ∀ params inputs composition,
    Evolves R (codec.deserialize params inputs composition)
  /-- Handing a content to the sink. -/
  sink : ∀ content, Evolves R (ports.sink content)

/-- A relation of hosts, on the state of a read. -/
def OnHost (R : σ → σ → Prop) (r r' : Reading σ) : Prop := R r.host r'.host

section Evolve

variable {ports : ReaderPorts σ κ} {R : σ → σ → Prop} [IsPreorder σ R]
  {compositions contents : Option Json}

instance : IsPreorder (Reading σ) (OnHost R) where
  refl r := refl_of R r.host
  trans _ _ _ h h' := trans_of R h h'

omit [IsPreorder σ R] in
theorem evolves_onHost {α : Type} {x : Exec σ ReaderError Fault α} (hx : Evolves R x) :
    Evolves (OnHost R) (onHost x) :=
  evolves_zoom hx fun _ _ h => h

/-- What the reader does to its own state the host does not see. -/
theorem evolves_reading {g : Reading σ → Reading σ} (h : ∀ r, (g r).host = r.host) :
    Evolves (OnHost R) (modify g : ReadExec σ Unit) :=
  evolves_modify fun r => by
    show R r.host (g r).host
    rw [h]
    exact refl_of R r.host

theorem evolves_contentBodyFromJson (h : ports.Evolve R) (body : Json) (inputs : List ℕ)
    (composition : ObjectId) :
    Evolves R (contentBodyFromJson ports body inputs composition) := by
  refine evolves_bind (evolves_orThrow _) ?_
  rintro ⟨kind, params⟩
  dsimp only
  split
  · exact evolves_bind (h.deserialize _ _ ‹_› _ _ _) fun _ => evolves_pure _
  · exact evolves_pure _

theorem evolves_addRoot (h : ports.Evolve R) (body : Json) (seeded : ObjectId) :
    Evolves (OnHost R) (addRoot ports body seeded) := by
  refine evolves_bind (evolves_onHost (evolves_ite (evolves_pure _) h.allocateId)) fun id => ?_
  exact evolves_bind (evolves_reading fun _ => rfl) fun _ => evolves_pure id

theorem evolves_resolveComposition (h : ports.Evolve R) (key : String) :
    Evolves (OnHost R) (resolveComposition ports compositions key) := by
  unfold resolveComposition
  refine evolves_bind (evolves_gets _) fun allocated => ?_
  split
  · exact evolves_pure _
  · split
    · exact evolves_throw _
    · split
      · refine evolves_bind (evolves_onHost h.allocateId) fun id => ?_
        exact evolves_bind (evolves_reading fun _ => rfl) fun _ => evolves_pure id
      · exact evolves_throw _

theorem evolves_childComposition (h : ports.Evolve R) (body : Json) :
    Evolves (OnHost R) (childComposition ports compositions body) := by
  unfold childComposition
  split
  · exact evolves_pure _
  · split
    · exact evolves_resolveComposition h _
    · exact evolves_throw _

theorem evolves_produceContent (h : ports.Evolve R) (body : Json) (inputs : List ℕ)
    (layerPosition : Bool) :
    Evolves (OnHost R) (produceContent ports compositions body inputs layerPosition) := by
  refine evolves_bind (evolves_childComposition h body) fun child => ?_
  refine evolves_bind (evolves_onHost (evolves_contentBodyFromJson h body inputs child))
    fun produced => ?_
  refine evolves_bind (evolves_onHost (h.sink produced.1)) fun sunk => ?_
  exact evolves_bind (evolves_reading fun _ => rfl) fun _ => evolves_pure sunk

/-- What a part of the read does to the state of the read, once every content that is produced does
it. -/
structure ReaderPorts.Reads (ports : ReaderPorts σ κ) (compositions : Option Json)
    (T : Reading σ → Reading σ → Prop) : Prop where
  /-- A content is produced. -/
  produce : ∀ body inputs layerPosition,
    Evolves T (produceContent ports compositions body inputs layerPosition)
  /-- A shared content is remembered. -/
  remember : ∀ id sunk,
    Evolves T (modify fun r => { r with cache := r.cache ++ [(id, sunk)] } : ReadExec σ Unit)

section Reads

variable {T : Reading σ → Reading σ → Prop} [IsPreorder (Reading σ) T]

omit [IsPreorder σ R] in
/-- Each part of the resolver keeps it. -/
private theorem evolves_steps (h : ports.Reads compositions T) : ReaderSteps contents
    (fun inProgress node => ∀ layerPosition, Evolves T
      (resolveContent ports compositions contents inProgress node layerPosition))
    (fun inProgress body => ∀ layerPosition, Evolves T
      (buildContent ports compositions contents inProgress body layerPosition))
    fun inProgress slots => Evolves T
      (buildInputs ports compositions contents inProgress slots) where
  place inProgress node hcontent hshared layerPosition := by
    rw [resolveContent]
    split
    · exact hcontent ‹_› layerPosition
    · split
      · exact evolves_throw _
      · refine evolves_bind (evolves_gets _) fun cache => ?_
        split
        · exact evolves_pure _
        · split
          · exact evolves_throw _
          · split
            · exact evolves_throw _
            · refine evolves_ite ?_ (evolves_throw _)
              refine evolves_bind (hshared _ _ ‹_› ‹_› false) fun sunk => ?_
              exact evolves_bind (h.remember _ _) fun _ => evolves_pure sunk
  content inProgress body hinputs layerPosition := by
    rw [buildContent]
    split
    · exact evolves_throw _
    · split
      · exact h.produce body [] layerPosition
      · exact evolves_bind (hinputs _ ‹_›) fun inputs => h.produce body inputs layerPosition
      · exact evolves_throw _
  nil inProgress := by
    rw [buildInputs]
    exact evolves_pure _
  cons inProgress slot rest hslot hrest := by
    rw [buildInputs]
    refine evolves_ite ?_ (evolves_throw _)
    exact evolves_bind (hslot false) fun child => evolves_bind hrest fun _ => evolves_pure _

omit [IsPreorder σ R] in
theorem ReaderPorts.Reads.readLayers (h : ports.Reads compositions T) (layers : List LayerData) :
    Evolves T (ArbitraryComposer.readLayers ports compositions contents layers) := by
  induction layers with
  | nil => exact evolves_pure _
  | cons l rest ih =>
    refine evolves_bind ?_ fun layer => evolves_bind ih fun _ => evolves_pure _
    unfold readLayer
    split
    · exact evolves_pure _
    · exact evolves_bind ((evolves_steps h).at_place [] _ true) fun _ => evolves_pure _

end Reads

/-- What every port keeps of the host, every content that is produced keeps. -/
theorem ReaderPorts.Evolve.reads (h : ports.Evolve R) :
    ports.Reads compositions (OnHost R) where
  produce body inputs layerPosition := evolves_produceContent h body inputs layerPosition
  remember _ _ := evolves_reading fun _ => rfl

theorem evolves_buildInputs (h : ports.Evolve R) (inProgress : List String) (slots : List Json) :
    Evolves (OnHost R) (buildInputs ports compositions contents inProgress slots) :=
  (evolves_steps h.reads).at_inputs inProgress slots

theorem evolves_readLayers (h : ports.Evolve R) (layers : List LayerData) :
    Evolves (OnHost R) (readLayers ports compositions contents layers) :=
  h.reads.readLayers layers

theorem evolves_resolvePending (h : ports.Evolve R) (turns i : ℕ) :
    Evolves (OnHost R) (resolvePending ports compositions contents turns i) := by
  induction turns generalizing i with
  | zero =>
    refine evolves_bind (evolves_gets _) fun pending => ?_
    split
    · exact evolves_pure _
    · exact evolves_fault _
  | succ turns ih =>
    refine evolves_bind (evolves_gets _) fun pending => ?_
    split
    · exact evolves_pure _
    · exact evolves_bind (evolves_readLayers h _) fun _ => evolves_bind (ih _) fun _ =>
        evolves_pure _

omit [IsPreorder σ R] in
theorem evolves_withReading {α : Type} {x : ReadExec σ α} (hx : Evolves (OnHost R) x)
    (staged : UnknownFieldStore) : Evolves R (withReading staged x) := by
  intro s s' hs
  change ((withReading staged x) s).state? = some s' at hs
  have h := hx ⟨s, [], [], [], staged⟩
  unfold withReading at hs
  cases hr : x.run ⟨s, [], [], [], staged⟩ with
  | ok a r =>
    rw [hr] at hs h
    cases hs
    exact h r rfl
  | error e r =>
    rw [hr] at hs h
    cases hs
    exact h r rfl
  | fault f =>
    rw [hr] at hs
    cases hs

/-- What every port keeps of the host, the reader keeps. -/
theorem evolves_resolveGraph (h : ports.Evolve R) (root : Json) (seeded : ObjectId) :
    Evolves R (resolveGraph ports root seeded) := by
  refine evolves_bind (evolves_orThrow _) fun _ => ?_
  split
  · exact evolves_pure _
  · refine evolves_withReading ?_ _
    refine evolves_bind (evolves_addRoot h _ seeded) fun _ => ?_
    exact evolves_bind (evolves_resolvePending h _ 0) fun _ =>
      evolves_bind (evolves_gets _) fun _ => evolves_pure _

end Evolve

/-! ## The worklist ends -/

/-- The compositions that have an id are the root and some of the table, each once, and each is on
the worklist. -/
structure Reading.Listed (compositions : Option Json) (r : Reading σ) : Prop where
  /-- Each has one id. -/
  nodup : (r.allocated.map Prod.fst).Nodup
  /-- It is the root or in the table. -/
  keys : ∀ key ∈ r.allocated.map Prod.fst,
    key = "0" ∨ key ∈ (compositions.elim [] Json.members).map Prod.fst
  /-- It is on the worklist. -/
  pending : r.pending.length = r.allocated.length

/-- A step of the read lists compositions in this way if it found them so. -/
def StaysListed (compositions : Option Json) (r r' : Reading σ) : Prop :=
  r.Listed compositions → r'.Listed compositions

instance (compositions : Option Json) : IsPreorder (Reading σ) (StaysListed compositions) where
  refl _ h := h
  trans _ _ _ h h' hr := h' (h hr)

section Worklist

variable {ports : ReaderPorts σ κ} {compositions contents : Option Json}

theorem Reading.Listed.length_pending_le {r : Reading σ} (h : r.Listed compositions) :
    r.pending.length ≤ (compositions.elim [] Json.members).length + 1 := by
  have hsub : r.allocated.map Prod.fst ⊆
      "0" :: (compositions.elim [] Json.members).map Prod.fst := fun key hkey =>
    List.mem_cons.mpr (h.keys key hkey)
  have hle := (h.nodup.subperm hsub).length_le
  rw [List.length_cons, List.length_map, List.length_map] at hle
  rw [h.pending]
  exact hle

theorem staysListed_onHost {α : Type} (x : Exec σ ReaderError Fault α) :
    Evolves (StaysListed compositions) (onHost x) :=
  evolves_zoom (T := fun _ _ => True) (fun _ _ _ => trivial)
    fun _ _ _ h => ⟨h.nodup, h.keys, h.pending⟩

/-- What is found in a table is one of its members. -/
theorem mem_members_of_find {compositions : Option Json} {key : String} {body : Json}
    (h : compositions.bind (·.find key) = some body) :
    key ∈ (compositions.elim [] Json.members).map Prod.fst := by
  obtain ⟨table, rfl, hbody⟩ := Option.bind_eq_some_iff.mp h
  cases table with
  | object fields =>
    obtain ⟨l, l', hfields, -⟩ := List.lookup_eq_some_iff.mp hbody
    refine List.mem_map.mpr ⟨(key, body), ?_, rfl⟩
    show (key, body) ∈ fields
    rw [hfields]
    exact List.mem_append_right l (List.mem_cons_self ..)
  | _ => exact absurd hbody nofun

theorem staysListed_resolveComposition (key : String) :
    Evolves (StaysListed compositions) (resolveComposition ports compositions key) := by
  refine evolves_of_wp fun r => ?_
  unfold resolveComposition
  rw [wp_bind, wp_gets]
  cases hknown : r.allocated.lookup key with
  | some id => exact fun h => h
  | none =>
    dsimp only
    cases hbody : compositions.bind (·.find key) with
    | none => exact fun h => h
    | some body =>
      dsimp only
      refine wp_ite (fun _ => ?_) fun _ h => h
      simp only [onHost, wp_bind, wp_zoom, wp_modify, wp_pure]
      -- The key is new, so it is listed once.
      refine wp_of_forall (fun id host h => ⟨?_, ?_, ?_⟩) fun _ _ h => ⟨h.nodup, h.keys, h.pending⟩
      · rw [List.map_append, List.nodup_append]
        refine ⟨h.nodup, List.nodup_singleton _, ?_⟩
        rintro key' hkey' _ hkey rfl
        obtain rfl := List.mem_singleton.mp hkey
        obtain ⟨p, hp, rfl⟩ := List.mem_map.mp hkey'
        exact bne_iff_ne.mp (List.lookup_eq_none_iff.mp hknown p hp) rfl
      · intro key' hkey'
        rw [List.map_append, List.mem_append] at hkey'
        rcases hkey' with hkey' | hkey'
        · exact h.keys key' hkey'
        · obtain rfl := List.mem_singleton.mp hkey'
          exact .inr (mem_members_of_find hbody)
      · show (r.pending ++ _).length = (r.allocated ++ _).length
        rw [List.length_append, List.length_append, h.pending]
        rfl

theorem reads_staysListed : ports.Reads compositions (StaysListed compositions) where
  produce body inputs layerPosition := by
    refine evolves_bind ?_ fun child => evolves_bind (staysListed_onHost _) fun produced =>
      evolves_bind (staysListed_onHost _) fun sunk => evolves_bind ?_ fun _ => evolves_pure sunk
    · unfold childComposition
      split
      · exact evolves_pure _
      · split
        · exact staysListed_resolveComposition _
        · exact evolves_throw _
    · exact evolves_modify fun r h => ⟨h.nodup, h.keys, h.pending⟩
  remember _ _ := evolves_modify fun r h => ⟨h.nodup, h.keys, h.pending⟩

/-- Once there are turns for all compositions, more turns do not change the read. -/
theorem resolvePending_add (n extra i : ℕ) {r : Reading σ} (h : r.Listed compositions)
    (hn : (compositions.elim [] Json.members).length + 1 ≤ i + n) :
    resolvePending ports compositions contents (n + extra) i r =
      resolvePending ports compositions contents n i r := by
  induction n generalizing i r with
  | zero =>
    have hlength := h.length_pending_le
    have hnone : r.pending[i]? = none := List.getElem?_eq_none (by omega)
    -- Nothing is left, so no turn is taken.
    have hdone : ∀ turns, resolvePending ports compositions contents turns i r = .ok [] r := by
      intro turns
      cases turns <;>
      · unfold resolvePending
        show Exec.bind (gets Reading.pending) _ r = _
        simp only [Exec.bind, gets, hnone]
        rfl
    rw [hdone, hdone]
  | succ n ih =>
    rw [Nat.add_right_comm, resolvePending, resolvePending]
    show Exec.bind (gets Reading.pending) _ r = Exec.bind (gets Reading.pending) _ r
    simp only [Exec.bind, gets]
    cases hbody : r.pending[i]? with
    | none => rfl
    | some entry =>
      show Exec.bind _ _ r = Exec.bind _ _ r
      unfold Exec.bind
      cases hlayers : readLayers ports compositions contents (parseComposition entry.2).layers r with
      | error e r' => rfl
      | fault f => rfl
      | ok layers r' =>
        have h' : r'.Listed compositions :=
          reads_staysListed.readLayers _ r r' (by rw [run, hlayers]; rfl) h
        show Exec.bind _ _ r' = Exec.bind _ _ r'
        unfold Exec.bind
        rw [ih (i + 1) h' (by omega)]

/-- The worklist of a document ends, also where compositions nest in each other: beyond one turn for
the root and one for every member of the table, turns change no read. -/
theorem resolvePending_ends (body : Json) (seeded : ObjectId) (extra : ℕ) :
    (addRoot ports body seeded >>= fun _ => resolvePending ports compositions contents
      ((compositions.elim [] Json.members).length + 1 + extra) 0) =
    (addRoot ports body seeded >>= fun _ => resolvePending ports compositions contents
      ((compositions.elim [] Json.members).length + 1) 0) := by
  funext r
  have hlisted : wp (addRoot ports body seeded) (fun _ r' => r'.Listed compositions)
      (fun _ _ => True) (fun _ => True) r := by
    simp only [addRoot, onHost, wp_bind, wp_zoom, wp_modify, wp_pure]
    refine wp_of_forall (fun _ _ => ⟨List.nodup_singleton _, ?_, rfl⟩) fun _ _ => trivial
    exact fun key hkey => .inl (List.mem_singleton.mp hkey)
  show Exec.bind _ _ r = Exec.bind _ _ r
  unfold Exec.bind
  cases hroot : addRoot ports body seeded r with
  | ok _ r' =>
    have hl := of_wp_ok hlisted hroot
    exact resolvePending_add _ extra 0 hl (by omega)
  | error e r' => rfl
  | fault f => rfl

end Worklist

end ArbitraryComposer
