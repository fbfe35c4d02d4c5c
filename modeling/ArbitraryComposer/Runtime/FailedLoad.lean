import ArbitraryComposer.Runtime.DocumentLoading

/-!
# Failed Loads

A load commits a content the moment it is built, and records the URI of the document before it reads
anything. So a load that fails leaves the record of the URI behind. The first content is the leaf on
the way along the first inputs from the first layer that has a content.

## Main definitions

- `LoadingDocument.IsFresh`: a document nobody loaded into.
- `UntouchedBeside`, `Untouched`: what a failed load is to leave alone.
- `firstContent`, `leavesTrace`: where the first content is, and whether anything stays of it.

## Main results

- `failed_load_untouched_iff`: when a failed load leaves the document as it was.
-/

namespace ArbitraryComposer

open Exec

variable {κ : Type}

/-- Nothing is loaded or in flight. -/
def PendingExternalLoads.init : PendingExternalLoads where
  byUri _ := none
  pending _ := none
  assetByUri _ := none
  pendingAssets _ := none
  source := none
  ready := []

/-- A document that nothing was loaded into. -/
structure LoadingDocument.IsFresh (d : LoadingDocument κ) : Prop where
  /-- The model is new. -/
  model : d.model.IsStart
  /-- Commits are journaled. -/
  journaled : d.model.journaled = true
  /-- No content was built. -/
  objects : d.objects = []
  /-- Nothing is bound. -/
  rows : d.rows = []
  /-- Nothing unknown is kept. -/
  unknown : d.unknown = []
  /-- Nothing is in flight. -/
  pending : d.pending = .init
  /-- Nothing was requested. -/
  requests : d.requests = []
  /-- No version was noted. -/
  history : d.history = []

/-- The version, the journal, the binding table, the unknown fields and the external loads are what
they were; the identities of some URIs are not looked at. -/
structure UntouchedBeside (skip : String → Prop) (d d' : LoadingDocument κ) : Prop where
  /-- The published version, its revision and the journal. -/
  session : d'.model.session = d.model.session
  /-- The binding table. -/
  rows : d'.rows = d.rows
  /-- The preserved unknown fields. -/
  unknown : d'.unknown = d.unknown
  /-- What the URIs stand for. -/
  byUri : ∀ uri, ¬ skip uri → d'.pending.byUri uri = d.pending.byUri uri
  /-- The compositions in flight. -/
  pending : d'.pending.pending = d.pending.pending
  /-- The assets that are fetched. -/
  assetByUri : d'.pending.assetByUri = d.pending.assetByUri
  /-- The fetches in flight. -/
  pendingAssets : d'.pending.pendingAssets = d.pending.pendingAssets
  /-- The answers that nobody has taken. -/
  ready : d'.pending.ready = d.pending.ready

/-- All of it is what it was. -/
def Untouched (d d' : LoadingDocument κ) : Prop := UntouchedBeside (fun _ => False) d d'

/-! ## The first content -/

section

variable (contents : Option Json)

mutual

/-- The content that is built first of those at a place; none where the way to it fails. -/
def firstAt (inProgress : List String) (node : Json) : Option Json :=
  match node.find "$ref" with
  | none => firstOf inProgress node
  | some ref =>
    match ref.getString? with
    | none => none
    | some id =>
      if _hid : id ∈ inProgress then none
      else
        match _hbody : contents.bind (·.find id) with
        | none => none
        | some body => if body.isObject then firstOf (id :: inProgress) body else none
termination_by unresolved contents inProgress + 2 * sizeOf node + 1
decreasing_by
  · omega
  · have := unresolved_lt _hbody _hid
    omega

/-- The content that is built first of a content and its inputs. -/
def firstOf (inProgress : List String) (body : Json) : Option Json :=
  if body.contains "inputs" && body.contains "composition" then none
  else
    match _hinputs : body.find "inputs" with
    | none => some body
    | some (.array []) => some body
    | some (.array (slot :: _)) => if slot.isObject then firstAt inProgress slot else none
    | some _ => none
termination_by unresolved contents inProgress + 2 * sizeOf body
decreasing_by
  have := Json.sizeOf_lt_of_find _hinputs
  simp only [Json.array.sizeOf_spec, List.cons.sizeOf_spec] at this
  omega

end

end

/-- The content that a load of a text builds first. -/
def firstContent (text body : Json) : Option Json :=
  ((parseLayers body).findSome? LayerData.contentBody).bind (firstAt (text.find "contents") [])

/-! ## What stays of the first content -/

/-- What a request on a new document is answered within it, and the requests afterwards. -/
def inlineAnswers (assets : Option AssetSource) (requests : List String) (uri : String) :
    List AssetBytes × List String :=
  match assets with
  | none => ([[]], requests)
  | some source => (source (uri :: requests), uri :: requests)

/-- Whether something stays of a content of which a codec says this: it is built, or its fetch is
in flight, or an answer is left over. -/
def CodecAnswer.leavesTrace (assets : Option AssetSource) (baseUri : String) :
    CodecAnswer κ → List String → Bool
  | .fail _, _ => false
  | .content _, _ => true
  | .external _ _, _ => true
  | .asset source build, requests =>
    if source = "" then (build ⟨"", [], 0⟩).toBool
    else
      let uri := String.ofList (resolveUri baseUri.toList source.toList)
      match (inlineAnswers assets requests uri).1 with
      | [bytes] => (build ⟨uri, bytes, 0⟩).toBool
      | _ => true
  | .read reference next, requests =>
    let uri := String.ofList (resolveUri baseUri.toList reference.toList)
    let answers := inlineAnswers assets requests uri
    (next (answers.1.getLast?.getD [])).leavesTrace assets baseUri answers.2

/-- The child composition of the first content; none where it has another type or does not resolve.
The root of a new document has the id 1, and the first child the id 2. -/
def firstChild (compositions : Option Json) (body : Json) : Option ObjectId :=
  match body.find "composition" with
  | none => some 0
  | some key =>
    match key.getString? with
    | none => none
    | some key =>
      if key = "0" then some 1
      else
        match compositions.bind (·.find key) with
        | none => none
        | some child => if child.isObject then some 2 else none

/-- Whether something stays of the content built first. -/
def contentLeavesTrace (cfg : LoadConfig κ) (assets : Option AssetSource) (baseUri : String)
    (compositions : Option Json) (body : Json) : Bool :=
  match firstChild compositions body, contentFrame body with
  | some child, .ok (kind, params) =>
    match cfg.codec kind with
    | none => true
    | some codec => (codec.answer params [] child).leavesTrace assets baseUri []
  | _, _ => false

/-- Whether something stays of what a load of this text on a new document builds. -/
def leavesTrace (cfg : LoadConfig κ) (parsed : Option Json) (baseUri : String)
    (assets : Option AssetSource) : Bool :=
  match parseDocument parsed with
  | .error _ => false
  | .ok text =>
    match applyStorageFormat text .rgba16fLinearPremul, checkTables text with
    | .ok _, .ok _ =>
      ((text.find "composition").bind (firstContent text)).any
        (contentLeavesTrace cfg assets (String.ofList (normalizeUri baseUri.toList))
          (text.find "compositions"))
    | _, _ => false

/-! ## Programs of the loader that never fail -/

theorem returns_allocateId : Returns allocateId := by
  refine returns_zoom (returns_bind (returns_gets _) fun id => ?_)
  exact returns_bind (returns_modify _) fun _ => returns_bind (returns_assert _ _) fun _ =>
    returns_pure id

theorem returns_onModel {α : Type} {x : ModelExec α} (hx : Returns x) :
    Returns (onModel x : LoadExec κ α) :=
  returns_zoom hx

theorem returns_callModel {α : Type} (x : ModelExec α) : Returns (callModel x : LoadExec κ Unit) :=
  returns_onModel (returns_attempt x)

theorem returns_loadAsset (uri : String) :
    Returns (loadAsset uri : LoadExec κ (List AssetBytes)) := by
  refine returns_bind (returns_gets _) fun source => ?_
  split
  · exact returns_pure _
  · exact returns_bind (returns_modify _) fun _ => returns_bind (returns_gets _) fun _ =>
      returns_pure _

theorem returns_requestFor (id : ObjectId) (uri : String) :
    Returns (requestFor id uri : LoadExec κ Unit) :=
  returns_bind (returns_loadAsset uri) fun _ => returns_modify _

theorem returns_takeArrival (child : ObjectId) :
    Returns (takeArrival child : LoadExec κ (Option AssetBytes)) :=
  returns_bind (returns_gets _) fun _ => returns_bind (returns_modify _) fun _ => returns_pure _

theorem returns_commitMutators (thread : ℕ) (ms : List Mutator) :
    Returns (commitMutators thread ms : LoadExec κ Unit) :=
  returns_bind (returns_gets _) fun _ => returns_bind (returns_callModel _) fun _ =>
    returns_bind (returns_forEach (fun _ => returns_callModel _) _) fun _ =>
      returns_bind (returns_callModel _) fun _ => returns_callModel _

theorem returns_addDocumentContent (thread live : ℕ) (c : LoadedContent κ) :
    Returns (addDocumentContent thread live c) :=
  returns_bind (returns_gets _) fun _ => returns_bind (returns_callModel _) fun _ =>
    returns_bind (returns_gets _) fun _ => returns_bind (returns_callModel _) fun _ =>
    returns_bind (returns_gets _) fun _ => returns_bind (returns_gets _) fun _ =>
    returns_bind (returns_forEach (fun _ => returns_callModel _) _) fun _ =>
    returns_bind (returns_callModel _) fun _ => returns_bind (returns_callModel _) fun _ =>
    returns_bind (returns_modify _) fun _ => returns_pure _

theorem returns_demote (thread input : ℕ) : Returns (demote thread input : LoadExec κ Unit) := by
  refine returns_bind (returns_gets _) fun minted => ?_
  split
  · exact returns_pure _
  · exact returns_bind (returns_commitMutators _ _) fun _ => returns_modify _

theorem returns_sinkContent (thread : ℕ) (c : LoadedContent κ) : Returns (sinkContent thread c) :=
  returns_bind (returns_gets _) fun _ => returns_bind (returns_modify _) fun _ =>
    returns_bind (returns_forEach (fun _ => returns_demote _ _) _) fun _ =>
    returns_bind (returns_addDocumentContent _ _ _) fun _ =>
    returns_bind (returns_modify _) fun _ => returns_pure _

theorem returns_installChild (cfg : LoadConfig κ) (loadRef : String → String → LoadExec κ ObjectId)
    (uri : String) (bytes : AssetBytes) : Returns (installChild cfg loadRef uri bytes) := by
  refine returns_ite (returns_bind (returns_modify _) fun _ => returns_pure _) ?_
  refine returns_bind (returns_gets _) fun byUri => returns_bind (returns_result _) fun r => ?_
  split
  · exact returns_ite (returns_pure _) (returns_bind (returns_modify _) fun _ => returns_pure _)
  · exact returns_bind (returns_modify _) fun _ => returns_pure _

/-- A reference that does not resolve is no error. -/
theorem returns_loadReference (cfg : LoadConfig κ) (left : ℕ) (baseUri reference : String) :
    Returns (loadReference cfg left baseUri reference) := by
  cases left with
  | zero => exact returns_bind (returns_modify _) fun _ => returns_pure _
  | succ left =>
    refine returns_bind (returns_gets _) fun byUri => ?_
    split
    · exact returns_pure _
    · refine returns_bind (returns_onModel returns_allocateId) fun child =>
        returns_bind (returns_modify _) fun _ => returns_bind (returns_modify _) fun _ =>
        returns_bind (returns_requestFor _ _) fun _ =>
        returns_bind (returns_takeArrival _) fun _ => ?_
      split
      · exact returns_pure _
      · exact returns_bind (returns_modify _) fun _ => returns_installChild _ _ _ _

/-- A row is there afterwards. -/
theorem addRow_rows_ne_nil (d : LoadingDocument κ) (id : ObjectId) (live : ℕ) :
    (d.addRow id live).rows ≠ [] := by
  unfold LoadingDocument.addRow
  split
  case isTrue h =>
    intro hrows
    rw [hrows] at h
    exact absurd h (by simp)
  case isFalse => exact List.append_ne_nil_of_right_ne_nil _ (List.cons_ne_nil _ _)

theorem addDocumentContent_rows (thread live : ℕ) (c : LoadedContent κ) (d : LoadingDocument κ) :
    wp (addDocumentContent thread live c) (fun _ d' => d'.rows ≠ []) (fun _ _ => True)
      (fun _ => True) d := by
  simp only [addDocumentContent, wp_bind, wp_gets, wp_modify, wp_pure]
  refine wp_of_forall (fun _ _ => ?_) fun _ _ => trivial
  refine wp_of_forall (fun _ _ => ?_) fun _ _ => trivial
  refine wp_of_forall (fun _ _ => ?_) fun _ _ => trivial
  refine wp_of_forall (fun _ _ => ?_) fun _ _ => trivial
  exact wp_of_forall (fun _ d₁ => addRow_rows_ne_nil d₁ _ _) fun _ _ => trivial

/-- What the sink takes is bound. -/
theorem sinkContent_rows (thread : ℕ) (c : LoadedContent κ) (d : LoadingDocument κ) :
    wp (sinkContent thread c) (fun _ d' => d'.rows ≠ []) (fun _ _ => False) (fun _ => True) d := by
  refine (returns_sinkContent thread c).wp (D := fun _ _ => True) ?_
  simp only [sinkContent, wp_bind, wp_gets, wp_modify, wp_pure]
  refine wp_of_forall (fun _ d₁ => ?_) fun _ _ => trivial
  exact wp_imp (addDocumentContent_rows thread _ c d₁) (fun _ _ h => h) fun _ _ _ => trivial

/-! ## Up to the first content -/

/-- The failure of a read has left the document alone: ids were taken. -/
def Quiet (d d' : LoadingDocument κ) : Prop :=
  (∃ n, d'.model = { d.model with nextId := n }) ∧ d'.rows = d.rows ∧ d'.unknown = d.unknown ∧
    d'.pending = d.pending

/-- Something was bound, or is in flight. -/
def Traced (d : LoadingDocument κ) : Prop :=
  d.rows ≠ [] ∨ d.pending.ready ≠ [] ∨ d.pending.pendingAssets ≠ fun _ => none

theorem Quiet.refl (d : LoadingDocument κ) : Quiet d d := ⟨⟨_, rfl⟩, rfl, rfl, rfl⟩

theorem Quiet.trans {d d' d'' : LoadingDocument κ} (h : Quiet d d') (h' : Quiet d' d'') :
    Quiet d d'' := by
  obtain ⟨⟨n, hn⟩, hrows, hunknown, hpending⟩ := h
  obtain ⟨⟨n', hn'⟩, hrows', hunknown', hpending'⟩ := h'
  refine ⟨⟨n', ?_⟩, hrows'.trans hrows, hunknown'.trans hunknown, hpending'.trans hpending⟩
  rw [hn', hn]

/-- Nothing is bound and no asset is known, and the source is that of the load. -/
structure Blank (assets : Option AssetSource) (d : LoadingDocument κ) : Prop where
  /-- Nothing is bound. -/
  rows : d.rows = []
  /-- No asset is fetched. -/
  assetByUri : d.pending.assetByUri = fun _ => none
  /-- No fetch is in flight. -/
  pendingAssets : d.pending.pendingAssets = fun _ => none
  /-- No answer waits. -/
  ready : d.pending.ready = []
  /-- The source of the load. -/
  source : d.pending.source = assets

theorem onModel_allocateId_spec (d : LoadingDocument κ) {E : ReaderError → LoadingDocument κ → Prop} :
    wp (onModel allocateId) (fun id d' => id = d.model.nextId ∧
      d' = { d with model := { d.model with nextId := d.model.nextId + 1 } }) E (fun _ => True)
      d := by
  simp only [onModel, allocateId, takeId, wp_zoom, wp_bind, wp_gets, wp_modify, wp_pure]
  rw [wp_assert]
  by_cases h : d.model.nextId.synthetic = true
  · exact Or.inr ⟨not_not_intro h, trivial⟩
  · refine Or.inl ⟨h, trivial, ?_⟩
    show d.withModel _ = _
    unfold LoadingDocument.withModel
    rw [if_pos rfl]

/-- An id was taken. -/
theorem Quiet.of_allocate {d d' : LoadingDocument κ}
    (h : d' = { d with model := { d.model with nextId := d.model.nextId + 1 } }) : Quiet d d' := by
  subst h
  exact ⟨⟨_, rfl⟩, rfl, rfl, rfl⟩

theorem loadAsset_spec (uri : String) (d : LoadingDocument κ)
    {E : ReaderError → LoadingDocument κ → Prop} {F : Fault → Prop} :
    wp (loadAsset uri) (fun answers d' =>
      answers = (inlineAnswers d.pending.source d.requests uri).1 ∧
        d' = { d with requests := (inlineAnswers d.pending.source d.requests uri).2 }) E F d := by
  simp only [loadAsset, wp_bind, wp_gets]
  cases d.pending.source with
  | none => exact ⟨rfl, rfl⟩
  | some source => exact ⟨rfl, rfl⟩

/-- Answers go to the end of the queue. -/
theorem PendingExternalLoads.foldl_complete (p : PendingExternalLoads) (id : ObjectId)
    (answers : List AssetBytes) :
    answers.foldl (fun p bytes => p.complete id bytes) p =
      { p with ready := p.ready ++ answers.map fun bytes => (id, bytes) } := by
  induction answers generalizing p with
  | nil => simp
  | cons bytes rest ih =>
    rw [List.foldl_cons, ih]
    simp [complete]

/-- The end of a fetch leaves the queue alone. -/
theorem PendingExternalLoads.dropPendingAsset_ready (p : PendingExternalLoads) (fetch : ObjectId) :
    (p.dropPendingAsset fetch).ready = p.ready := by
  unfold dropPendingAsset
  split <;> rfl

/-- Fetching an asset leaves no trace when there is one answer within the request. -/
theorem fetchAsset_spec {assets : Option AssetSource} {d : LoadingDocument κ} (h : Blank assets d)
    {baseUri source : String} (hsource : source ≠ "") :
    wp (fetchAsset baseUri source) (fun fetched d' =>
      let uri := String.ofList (resolveUri baseUri.toList source.toList)
      ((inlineAnswers assets d.requests uri).1.length ≠ 1 → Traced d') ∧
        ∀ bytes, (inlineAnswers assets d.requests uri).1 = [bytes] →
          fetched = ⟨uri, bytes, 0⟩ ∧ Quiet d d') (fun _ _ => False) (fun _ => True) d := by
  unfold fetchAsset
  rw [if_neg hsource]
  simp only [wp_bind, wp_gets, h.assetByUri]
  refine wp_imp (onModel_allocateId_spec d) (fun id d₁ hd₁ => ?_) fun _ _ h => h
  obtain ⟨-, rfl⟩ := hd₁
  simp only [requestFor, editPending, wp_bind, wp_modify]
  refine wp_imp (loadAsset_spec _ _) (fun answers d₂ hd₂ => ?_) fun _ _ h => h
  obtain ⟨hanswers, rfl⟩ := hd₂
  simp only [PendingExternalLoads.addPendingAsset, h.source] at hanswers
  simp only [← hanswers, PendingExternalLoads.foldl_complete,
    PendingExternalLoads.addPendingAsset, takeArrival, editPending, wp_bind, wp_gets, wp_modify,
    wp_pure, h.ready, List.nil_append]
  rcases answers with _ | ⟨bytes, _ | ⟨bytes', rest⟩⟩
  · -- the fetch stays in flight
    refine ⟨fun _ => Or.inr (Or.inr fun hnone => ?_), by simp⟩
    have hid := congrFun hnone id
    simp [PendingExternalLoads.dropArrival] at hid
  · simp only [List.map_cons, List.map_nil, List.lookup_cons, beq_self_eq_true, wp_bind,
      wp_modify, wp_pure]
    refine ⟨fun hne => absurd rfl hne, fun bytes' hbytes => ?_⟩
    obtain rfl : bytes = bytes' := List.head_eq_of_cons_eq hbytes
    refine ⟨rfl, ⟨_, rfl⟩, rfl, rfl, ?_⟩
    -- what the request put into the tables is taken out again
    simp only [PendingExternalLoads.dropArrival, PendingExternalLoads.dropPendingAsset,
      h.assetByUri, h.pendingAssets, Function.update_self, Function.update_idem]
    refine PendingExternalLoads.ext rfl rfl ?_ ?_ rfl ?_
    · exact (Function.update_eq_self _ fun _ => none).trans h.assetByUri.symm
    · exact (Function.update_eq_self _ fun _ => none).trans h.pendingAssets.symm
    · simp [h.ready]
  · simp only [List.map_cons, List.lookup_cons, beq_self_eq_true, wp_bind, wp_modify, wp_pure]
    refine ⟨fun _ => Or.inr (Or.inl ?_), by simp⟩
    rw [PendingExternalLoads.dropPendingAsset_ready]
    simp [PendingExternalLoads.dropArrival]

/-- What stays when a codec fails on the first content of a load; what it builds leaves a trace. -/
theorem runCodec_first {assets : Option AssetSource} {baseUri : String}
    {loadRef : String → LoadExec κ ObjectId} (hload : ∀ reference, Returns (loadRef reference))
    (answer : CodecAnswer κ) {d : LoadingDocument κ} (h : Blank assets d) :
    wp (runCodec loadRef baseUri answer)
      (fun _ _ => answer.leavesTrace assets baseUri d.requests = true)
      (fun _ d' => if answer.leavesTrace assets baseUri d.requests then Traced d' else Quiet d d')
      (fun _ => True) d := by
  induction answer generalizing d with
  | fail e => exact Quiet.refl d
  | content c => exact rfl
  | external reference build =>
    simp only [runCodec, wp_bind, wp_pure]
    exact (hload reference).wp (D := fun _ _ => True)
      (wp_of_forall (fun _ _ => rfl) fun _ _ => trivial)
  | asset source build =>
    simp only [runCodec, wp_bind]
    by_cases hsource : source = ""
    · simp only [fetchAsset, if_pos hsource, wp_pure, CodecAnswer.leavesTrace]
      cases hb : build ⟨"", [], 0⟩ with
      | ok c => exact rfl
      | error e => exact Quiet.refl d
    · refine wp_imp (fetchAsset_spec h hsource) (fun fetched d' hd' => ?_) fun _ _ h => h.elim
      obtain ⟨hmany, hone⟩ := hd'
      simp only [CodecAnswer.leavesTrace, if_neg hsource]
      cases hanswers : (inlineAnswers assets d.requests
        (String.ofList (resolveUri baseUri.toList source.toList))).1 with
      | nil =>
        have htraced := hmany (by simp [hanswers])
        cases build fetched with
        | ok c => exact rfl
        | error e => exact htraced
      | cons bytes rest =>
        cases rest with
        | nil =>
          obtain ⟨rfl, hquiet⟩ := hone bytes hanswers
          cases hbuild : build ⟨_, bytes, 0⟩ with
          | ok c =>
            show (build _).toBool = true
            rw [hbuild]
            rfl
          | error e =>
            show if (build _).toBool = true then Traced d' else Quiet d d'
            rw [hbuild]
            exact hquiet
        | cons bytes' rest =>
          have htraced := hmany (by simp [hanswers])
          cases build fetched with
          | ok c => exact rfl
          | error e => exact htraced
  | read reference next ih =>
    simp only [runCodec, wp_bind]
    refine wp_imp (loadAsset_spec _ d) (fun answers d' hd' => ?_) fun _ _ h => h
    obtain ⟨rfl, rfl⟩ := hd'
    have hblank : Blank assets { d with requests := (inlineAnswers d.pending.source d.requests
      (String.ofList (resolveUri baseUri.toList reference.toList))).2 } :=
      ⟨h.rows, h.assetByUri, h.pendingAssets, h.ready, h.source⟩
    simp only [CodecAnswer.leavesTrace, ← h.source]
    exact wp_imp (ih _ hblank) (fun _ _ hb => h.source ▸ hb) fun _ _ hb => h.source ▸ hb

/-! ## The way to the first content -/

/-- The reader is on its way to the first content. -/
structure Ready (assets : Option AssetSource) (r : Reading (LoadingDocument κ)) : Prop where
  /-- Nothing is bound. -/
  host : Blank assets r.host
  /-- Nothing was requested. -/
  requests : r.host.requests = []
  /-- Only the root has an id. -/
  nextId : r.host.model.nextId = 2
  /-- The root is known. -/
  allocated : r.allocated = [("0", 1)]
  /-- No shared content was built. -/
  cache : r.cache = []

/-- The program binds a content, or it fails; `b` says whether something stays when it fails. -/
def BindsFirst {α : Type} (b : Bool) (x : ReadExec (LoadingDocument κ) α)
    (r : Reading (LoadingDocument κ)) : Prop :=
  wp x (fun _ r' => b = true ∧ r'.host.rows ≠ [])
    (fun _ r' => if b then Traced r'.host else Quiet r.host r'.host) (fun _ => True) r

section

variable {α β : Type} {b : Bool} {x : ReadExec (LoadingDocument κ) α}
  {r : Reading (LoadingDocument κ)}

theorem bindsFirst_throw (e : ReaderError) :
    BindsFirst false (throw e : ReadExec (LoadingDocument κ) α) r :=
  Quiet.refl r.host

theorem bindsFirst_gets {stays : Bool} {g : Reading (LoadingDocument κ) → α}
    {f : α → ReadExec (LoadingDocument κ) β} {r : Reading (LoadingDocument κ)}
    (h : BindsFirst stays (f (g r)) r) : BindsFirst stays (gets g >>= f) r := h

/-- A binding stays, whatever comes after it. -/
theorem BindsFirst.bind (h : BindsFirst b x r) {f : α → ReadExec (LoadingDocument κ) β}
    (hf : ∀ a, Evolves (OnHost RowsGrow) (f a)) : BindsFirst b (x >>= f) r := by
  show wp (x >>= f) _ _ _ _
  rw [wp_bind]
  refine wp_imp h (fun a r' hr' => ?_) fun _ _ h => h
  obtain ⟨rfl, hrows⟩ := hr'
  have hgrow : ∀ r'', OnHost RowsGrow r' r'' → r''.host.rows ≠ [] := fun r'' hgrow hnil => by
    have hgrown : r'.host.rows <+: r''.host.rows := hgrow
    rw [hnil] at hgrown
    exact hrows (List.prefix_nil.mp hgrown)
  exact wp_imp ((hf a).wp r') (fun _ r'' h => ⟨rfl, hgrow r'' h⟩) fun _ r'' h =>
    Or.inl (hgrow r'' h)

end

variable {cfg : LoadConfig κ} {assets : Option AssetSource} {baseUri : String}
  {loadRef : String → LoadExec κ ObjectId} {compositions contents : Option Json}

theorem childComposition_first {r : Reading (LoadingDocument κ)} (h : Ready assets r)
    (body : Json) :
    wp (childComposition (loadPorts cfg loadRef baseUri) compositions body)
      (fun id r' => firstChild compositions body = some id ∧ Quiet r.host r'.host ∧
        Blank assets r'.host ∧ r'.host.requests = [])
      (fun _ r' => firstChild compositions body = none ∧ Quiet r.host r'.host) (fun _ => True)
      r := by
  unfold childComposition firstChild
  cases body.find "composition" with
  | none => exact ⟨rfl, Quiet.refl r.host, h.host, h.requests⟩
  | some key =>
    dsimp only
    cases key.getString? with
    | none => exact ⟨rfl, Quiet.refl r.host⟩
    | some key =>
      simp only [resolveComposition, wp_bind, wp_gets, h.allocated]
      by_cases hkey : key = "0"
      · -- the root itself
        subst hkey
        simp only [List.lookup_cons, beq_self_eq_true, if_true, wp_pure]
        exact ⟨trivial, Quiet.refl r.host, h.host, h.requests⟩
      · have hbeq : (key == "0") = false := beq_false_of_ne hkey
        simp only [List.lookup_cons, hbeq, List.lookup_nil, if_neg hkey]
        cases compositions.bind (·.find key) with
        | none => exact ⟨rfl, Quiet.refl r.host⟩
        | some child =>
          dsimp only
          refine wp_ite (fun hobject => ?_) fun hobject => ?_
          · rw [if_pos hobject]
            simp only [wp_bind, onHost, wp_zoom, wp_modify, wp_pure]
            refine wp_imp (onModel_allocateId_spec r.host) (fun id d' hd' => ?_) fun _ _ h => h
            obtain ⟨hid, hd'⟩ := hd'
            refine ⟨by rw [hid, h.nextId], Quiet.of_allocate hd', ?_, ?_⟩
            · subst hd'
              exact ⟨h.host.rows, h.host.assetByUri, h.host.pendingAssets, h.host.ready,
                h.host.source⟩
            · subst hd'
              exact h.requests
          · rw [if_neg hobject]
            exact ⟨rfl, Quiet.refl r.host⟩

/-- A content without inputs, and the residual of its parameters. -/
theorem contentBodyFromJson_first (hload : ∀ reference, Returns (loadRef reference)) (body : Json)
    {child : ObjectId} (hchild : firstChild compositions body = some child)
    {d : LoadingDocument κ} (h : Blank assets d) (hrequests : d.requests = []) :
    wp (contentBodyFromJson (loadPorts cfg loadRef baseUri) body [] child)
      (fun _ _ => contentLeavesTrace cfg assets baseUri compositions body = true)
      (fun _ d' => if contentLeavesTrace cfg assets baseUri compositions body then Traced d'
        else Quiet d d') (fun _ => True) d := by
  unfold contentBodyFromJson contentLeavesTrace
  rw [wp_bind, hchild]
  cases contentFrame body with
  | error e => exact Quiet.refl d
  | ok frame =>
    obtain ⟨kind, params⟩ := frame
    refine wp_orThrow (fun a ha => ?_) nofun
    obtain rfl := Except.ok.inj ha
    rcases Option.eq_none_or_eq_some (cfg.codec kind) with hcodec | ⟨codec, hcodec⟩
    · simp only [loadPorts, hcodec, Option.map_none]
      exact trivial
    · simp only [loadPorts, hcodec, Option.map_some, wp_bind, wp_pure]
      have hrun := @runCodec_first _ _ baseUri _ hload (codec.answer params [] child) _ h
      rw [hrequests] at hrun
      exact hrun

/-- The first content is bound, or the load fails there. -/
theorem produceContent_first (hload : ∀ reference, Returns (loadRef reference)) (body : Json)
    (layerPosition : Bool) {r : Reading (LoadingDocument κ)} (h : Ready assets r) :
    BindsFirst (contentLeavesTrace cfg assets baseUri compositions body)
      (produceContent (loadPorts cfg loadRef baseUri) compositions body [] layerPosition) r := by
  unfold BindsFirst produceContent
  rw [wp_bind]
  refine wp_imp (childComposition_first h body) (fun child r₁ hr₁ => ?_) fun _ r₁ hr₁ => ?_
  · obtain ⟨hchild, hquiet, hblank, hrequests⟩ := hr₁
    simp only [wp_bind, onHost, wp_zoom, wp_modify, wp_pure]
    refine wp_imp (contentBodyFromJson_first hload body hchild hblank hrequests)
      (fun produced d' hb => ?_) fun _ d' hd' => ?_
    · refine wp_imp (sinkContent_rows cfg.thread produced.1 d') (fun _ _ hrows => ⟨hb, hrows⟩)
        fun _ _ h => h.elim
    · show if _ then _ else _
      split
      case isTrue hb => rwa [if_pos hb] at hd'
      case isFalse hb => exact hquiet.trans (by rwa [if_neg hb] at hd')
  · obtain ⟨hchild, hquiet⟩ := hr₁
    have hfalse : contentLeavesTrace cfg assets baseUri compositions body = false := by
      unfold contentLeavesTrace
      rw [hchild]
    rw [hfalse]
    exact hquiet

/-- What stays of the first content of a place. -/
def firstStays (cfg : LoadConfig κ) (assets : Option AssetSource) (baseUri : String)
    (compositions : Option Json) (first : Option Json) : Bool :=
  first.any (contentLeavesTrace cfg assets baseUri compositions)

private theorem firstSteps (hload : ∀ reference, Returns (loadRef reference))
    (hgrow : ∀ reference, Evolves RowsGrow (loadRef reference)) : ReaderSteps contents
    (fun inProgress node => ∀ layerPosition (r : Reading (LoadingDocument κ)), Ready assets r →
      BindsFirst (firstStays cfg assets baseUri compositions (firstAt contents inProgress node))
        (resolveContent (loadPorts cfg loadRef baseUri) compositions contents inProgress node
          layerPosition) r)
    (fun inProgress body => ∀ layerPosition (r : Reading (LoadingDocument κ)), Ready assets r →
      BindsFirst (firstStays cfg assets baseUri compositions (firstOf contents inProgress body))
        (buildContent (loadPorts cfg loadRef baseUri) compositions contents inProgress body
          layerPosition) r)
    (fun inProgress slots => ∀ slot rest, slots = slot :: rest →
      ∀ (r : Reading (LoadingDocument κ)), Ready assets r →
      BindsFirst (if slot.isObject then
          firstStays cfg assets baseUri compositions (firstAt contents inProgress slot) else false)
        (buildInputs (loadPorts cfg loadRef baseUri) compositions contents inProgress slots) r) where
  place inProgress node hcontent hshared layerPosition r hr := by
    rw [resolveContent, firstAt]
    cases hnode : node.find "$ref" with
    | none => exact hcontent hnode layerPosition r hr
    | some ref =>
      dsimp only
      cases ref.getString? with
      | none => exact bindsFirst_throw _
      | some id =>
        refine bindsFirst_gets ?_
        simp only [hr.cache, List.lookup_nil]
        split
        case isTrue hid => exact bindsFirst_throw _
        case isFalse hid =>
          cases hbody : contents.bind fun x => x.find id with
          | none => exact bindsFirst_throw _
          | some body =>
            dsimp only
            by_cases hobject : body.isObject = true
            · simp only [if_pos hobject]
              refine (hshared id body hbody hid false r hr).bind fun sunk => ?_
              exact evolves_bind (evolves_reading fun _ => rfl) fun _ => evolves_pure sunk
            · simp only [if_neg hobject]
              exact bindsFirst_throw _
  content inProgress body hinputs layerPosition r hr := by
    rw [buildContent, firstOf]
    split
    · exact bindsFirst_throw _
    · split
      case h_1 hnone =>
        split
        case h_1 => exact produceContent_first hload body layerPosition hr
        case h_2 slots hslots => cases hnone.symm.trans hslots
        case h_3 hv => cases hnone.symm.trans hv
      case h_2 hempty =>
        split
        case h_1 hnone => cases hnone.symm.trans hempty
        case h_2 slots hslots =>
          obtain rfl : slots = [] := by simpa [hslots] using hempty
          rw [buildInputs]
          exact produceContent_first hload body layerPosition hr
        case h_3 hno hv => exact absurd (Option.some.inj (hv.symm.trans hempty)) (hno _)
      case h_3 slot rest hfirst =>
        have hbinds := hinputs _ hfirst slot rest rfl r hr
        rw [apply_ite (firstStays cfg assets baseUri compositions)]
        change BindsFirst (if slot.isObject then _ else false) _ _
        generalize (if slot.isObject then _ else false) = kept at hbinds ⊢
        split
        case h_1 hnone => cases hnone.symm.trans hfirst
        case h_2 slots hslots =>
          obtain rfl : slots = slot :: rest := by simpa [hslots] using hfirst
          exact hbinds.bind fun inputs =>
            evolves_produceContent (evolve_loadPorts cfg hgrow baseUri) body inputs layerPosition
        case h_3 hno hv => exact absurd (Option.some.inj (hv.symm.trans hfirst)) (hno _)
      case h_4 hnil hcons hv =>
        split
        case h_1 hnone => cases hnone.symm.trans hv
        case h_2 slots hslots =>
          cases slots with
          | nil => exact absurd (Option.some.inj (hv.symm.trans hslots)) hnil
          | cons slot rest => exact absurd (Option.some.inj (hv.symm.trans hslots)) (hcons _ _)
        case h_3 => exact bindsFirst_throw _
  nil inProgress := by rintro _ _ ⟨⟩
  cons inProgress slot rest hslot hrest := by
    rintro slot' rest' ⟨⟩ r hr
    rw [buildInputs]
    split
    · refine (hslot false r hr).bind fun child => ?_
      exact evolves_bind (evolves_buildInputs (evolve_loadPorts cfg hgrow baseUri) _ _) fun _ =>
        evolves_pure _
    · exact bindsFirst_throw _

/-! ## The whole load -/

/-- Layers without contents build nothing. -/
theorem readLayers_of_findSome?_eq_none {σ : Type} (ports : ReaderPorts σ (LoadedContent κ))
    {layers : List LayerData} (h : layers.findSome? LayerData.contentBody = none) :
    readLayers ports compositions contents layers = pure (layers.map fun l => (l, 0)) := by
  induction layers with
  | nil => rfl
  | cons l rest ih =>
    rw [List.findSome?_cons] at h
    cases hl : l.contentBody with
    | none =>
      rw [hl] at h
      show (do let layer ← readLayer ports compositions contents l; _) = _
      unfold readLayer
      rw [hl, ih h]
      rfl
    | some node =>
      rw [hl] at h
      cases h

/-- The first layer with a content decides. -/
theorem readLayers_first (hload : ∀ reference, Returns (loadRef reference))
    (hgrow : ∀ reference, Evolves RowsGrow (loadRef reference)) {layers : List LayerData}
    {node : Json} (h : layers.findSome? LayerData.contentBody = some node)
    {r : Reading (LoadingDocument κ)} (hr : Ready assets r) :
    BindsFirst (firstStays cfg assets baseUri compositions (firstAt contents [] node))
      (readLayers (loadPorts cfg loadRef baseUri) compositions contents layers) r := by
  have hports := evolve_loadPorts cfg hgrow baseUri
  induction layers with
  | nil => cases h
  | cons l rest ih =>
    rw [List.findSome?_cons] at h
    show BindsFirst _ (do let layer ← readLayer _ _ _ l; _) r
    cases hl : l.contentBody with
    | none =>
      rw [hl] at h
      unfold readLayer
      rw [hl]
      exact (ih h).bind fun _ => evolves_pure _
    | some node' =>
      rw [hl] at h
      obtain rfl : node' = node := Option.some.inj h
      have hplace : BindsFirst
          (firstStays cfg assets baseUri compositions (firstAt contents [] node'))
          (resolveContent (loadPorts cfg loadRef baseUri) compositions contents [] node' true) r :=
        (firstSteps hload hgrow).at_place [] node' true r hr
      refine BindsFirst.bind ?_ fun _ => evolves_bind (evolves_readLayers hports rest) fun _ =>
        evolves_pure _
      unfold readLayer
      rw [hl]
      exact hplace.bind fun _ => evolves_pure _

/-- The compositions, from a root that is the only one so far. -/
theorem resolvePending_first (hload : ∀ reference, Returns (loadRef reference))
    (hgrow : ∀ reference, Evolves RowsGrow (loadRef reference)) (turns : ℕ) (body : Json)
    {r : Reading (LoadingDocument κ)} (hr : Ready assets r) (hpending : r.pending = [(1, body)]) :
    wp (resolvePending (loadPorts cfg loadRef baseUri) compositions contents (turns + 1) 0)
      (fun _ r' => if firstStays cfg assets baseUri compositions
          (((parseLayers body).findSome? LayerData.contentBody).bind (firstAt contents []))
        then r'.host.rows ≠ [] else r' = r)
      (fun _ r' => if firstStays cfg assets baseUri compositions
          (((parseLayers body).findSome? LayerData.contentBody).bind (firstAt contents []))
        then Traced r'.host else Quiet r.host r'.host) (fun _ => True) r := by
  have hports := evolve_loadPorts cfg hgrow baseUri
  unfold resolvePending
  rw [wp_bind, wp_gets, hpending]
  cases hfirst : (parseLayers body).findSome? LayerData.contentBody with
  | none =>
    show wp (do let layers ← readLayers _ _ _ (parseLayers body); _) _ _ _ r
    rw [readLayers_of_findSome?_eq_none _ hfirst, wp_bind, wp_pure, wp_bind]
    have hrest : wp (resolvePending (loadPorts cfg loadRef baseUri) compositions contents turns 1)
        (fun _ r' => r' = r) (fun _ _ => False) (fun _ => True) r := by
      cases turns <;> unfold resolvePending <;> rw [wp_bind, wp_gets, hpending] <;> exact rfl
    exact wp_imp hrest (fun _ _ h => h) fun _ _ h => h.elim
  | some node =>
    have hbinds : BindsFirst
        (firstStays cfg assets baseUri compositions (firstAt contents [] node))
        (readLayers (loadPorts cfg loadRef baseUri) compositions contents _) r :=
      readLayers_first hload hgrow hfirst hr
    have hall : BindsFirst _ (do
        let layers ← readLayers (loadPorts cfg loadRef baseUri) compositions contents
          (parseLayers body)
        let rest ← resolvePending (loadPorts cfg loadRef baseUri) compositions contents turns 1
        pure ((⟨1, parseComposition body, layers⟩ : ResolvedComp) :: rest)) r :=
      hbinds.bind fun _ => evolves_bind (evolves_resolvePending hports _ _) fun _ => evolves_pure _
    refine wp_imp hall (fun _ r' h => ?_) fun _ _ h => h
    show if firstStays cfg assets baseUri compositions (firstAt contents [] node) then _ else _
    rw [if_pos h.1]
    exact h.2

/-- What stays of the contents of a text whose envelope is read. -/
def textStays (cfg : LoadConfig κ) (assets : Option AssetSource) (baseUri : String)
    (text : Json) : Bool :=
  match checkTables text with
  | .error _ => false
  | .ok _ => firstStays cfg assets baseUri (text.find "compositions")
      ((text.find "composition").bind (firstContent text))

theorem resolveGraph_first (hload : ∀ reference, Returns (loadRef reference))
    (hgrow : ∀ reference, Evolves RowsGrow (loadRef reference)) (text : Json)
    {d : LoadingDocument κ} (h : Blank assets d) (hrequests : d.requests = [])
    (hnext : d.model.nextId = 2) :
    wp (resolveGraph (loadPorts cfg loadRef baseUri) text 1)
      (fun _ d' => if textStays cfg assets baseUri text then d'.rows ≠ [] else d' = d)
      (fun _ d' => if textStays cfg assets baseUri text then Traced d' else Quiet d d')
      (fun _ => True) d := by
  unfold resolveGraph textStays
  rw [wp_bind]
  cases checkTables text with
  | error e => exact Quiet.refl d
  | ok _ =>
    refine wp_orThrow (fun _ _ => ?_) nofun
    cases text.find "composition" with
    | none => exact rfl
    | some body =>
      have hroot : ObjectId.valid 1 = true := by decide
      simp only [wp_withReading, resolveRoot, addRoot, rootId, if_pos hroot, onHost, wp_bind,
        wp_zoom, wp_pure, wp_modify, wp_gets]
      have hready : Ready assets (⟨d, [("0", 1)], [(1, body)], [],
          UnknownFieldStore.set [] .document 0 (documentUnknown text)⟩ :
            Reading (LoadingDocument κ)) := ⟨h, hrequests, hnext, rfl, rfl⟩
      refine wp_imp (resolvePending_first hload hgrow _ body hready rfl) (fun _ r' hr' => ?_)
        fun _ _ h => h
      show if firstStays _ _ _ _ (firstContent text body) then r'.host.rows ≠ [] else r'.host = d
      unfold firstContent
      split
      case isTrue hstays => rwa [if_pos hstays] at hr'
      case isFalse hstays =>
        rw [if_neg hstays] at hr'
        rw [hr']

/-- The state of a document that a failed load is to leave alone, the identities of URIs apart. -/
def Kept (d d' : LoadingDocument κ) : Prop :=
  d'.model.session = d.model.session ∧ d'.rows = d.rows ∧ d'.unknown = d.unknown ∧
    d'.pending = d.pending

theorem Quiet.kept {d d' : LoadingDocument κ} (h : Quiet d d') : Kept d d' := by
  obtain ⟨⟨n, hn⟩, hrest⟩ := h
  refine ⟨?_, hrest⟩
  rw [hn]
  rfl

private theorem except_cases {ε α : Type} (x : Except ε α) :
    (∃ e, x = .error e) ∨ ∃ a, x = .ok a := by
  cases x with
  | error e => exact Or.inl ⟨e, rfl⟩
  | ok a => exact Or.inr ⟨a, rfl⟩

private theorem leavesTrace_of_ok {parsed : Option Json} {text : Json} {format : PixelFormat}
    (htext : parseDocument parsed = .ok text)
    (hformat : applyStorageFormat text .rgba16fLinearPremul = .ok format) :
    leavesTrace cfg parsed baseUri assets =
      textStays cfg assets (String.ofList (normalizeUri baseUri.toList)) text := by
  unfold leavesTrace textStays
  simp only [htext, hformat]
  rcases except_cases (checkTables text) with ⟨e, htables⟩ | ⟨_, htables⟩
  · rw [htables]
  · rw [htables]
    rfl

theorem readDocument_first {parsed : Option Json} {d : LoadingDocument κ} (h : Blank assets d)
    (hrequests : d.requests = []) (hnext : d.model.nextId = 2) (hinv : d.model.Inv) :
    wp (readDocument cfg parsed (String.ofList (normalizeUri baseUri.toList)) 1) (fun _ _ => True)
      (fun _ d' => if leavesTrace cfg parsed baseUri assets then Traced d' else Kept d d')
      (fun _ => True) d := by
  have hload := returns_loadReference cfg externalRefDepthCap
  have hgrow := evolves_loadReference cfg externalRefDepthCap
  unfold readDocument
  rw [wp_bind]
  rcases except_cases (parseDocument parsed) with ⟨e, htext⟩ | ⟨text, htext⟩
  · rw [leavesTrace, htext]
    exact (Quiet.refl d).kept
  rw [htext]
  refine wp_orThrow (fun text' htext' => ?_) nofun
  obtain rfl := Except.ok.inj htext'
  rw [wp_bind]
  rcases except_cases (applyStorageFormat text .rgba16fLinearPremul) with
    ⟨e, hformat⟩ | ⟨format, hformat⟩
  · have hleaves : leavesTrace cfg parsed baseUri assets = false := by
      simp [leavesTrace, htext, hformat]
    rw [hformat, hleaves]
    exact (Quiet.refl d).kept
  rw [hformat]
  refine wp_orThrow (fun format' hformat' => ?_) nofun
  obtain rfl := Except.ok.inj hformat'
  rw [leavesTrace_of_ok htext hformat, wp_bind]
  refine wp_imp (resolveGraph_first (hload _) (hgrow _) text h hrequests hnext)
    (fun graph d' hd' => ?_) fun _ d' hd' => ?_
  · rw [wp_bind, wp_gets]
    dsimp only
    rw [wp_bind]
    split at hd'
    case isTrue hstays =>
      -- a binding stays through the baseline
      refine wp_imp ((evolves_onModel _).wp d') (fun _ _ _ => trivial) fun _ d'' hgrow => ?_
      rw [if_pos hstays]
      exact Or.inl fun hnil => hd' (List.prefix_nil.mp (hnil ▸ (show d'.rows <+: d''.rows from hgrow)))
    case isFalse hstays =>
      subst hd'
      simp only [onModel, wp_zoom, wp_modify]
      refine wp_mono (Model.loadBaseline_spec hinv) (fun _ _ _ => trivial) (fun _ m hm => ?_)
        fun _ _ => trivial
      rw [if_neg hstays]
      exact ⟨hm.2.2, rfl, rfl, rfl⟩
  · split at hd' <;> rename_i hstays
    · rwa [if_pos hstays]
    · rw [if_neg hstays]
      exact hd'.kept

/-- What was bound or is in flight was not there before. -/
theorem Traced.not_untouchedBeside {d d' : LoadingDocument κ} (hd : d.IsFresh) (h : Traced d')
    (skip : String → Prop) : ¬ UntouchedBeside skip d d' := by
  intro hu
  have hpending := hd.pending
  rcases h with h | h | h
  · exact h (hu.rows.trans hd.rows)
  · exact h (hu.ready.trans (by rw [hpending]; rfl))
  · exact h (hu.pendingAssets.trans (by rw [hpending]; rfl))

/-- The document when its text is read: commits are not journaled, the root composition has an id,
and the URI of the document stands for it. -/
def LoadingDocument.seeded (d : LoadingDocument κ) (assets : Option AssetSource) (baseUri : String) :
    LoadingDocument κ :=
  { d with
    model := { d.model with journaled := false, nextId := 2 }
    minted := []
    pending := { d.pending with source := assets }.record
      (String.ofList (normalizeUri baseUri.toList)) 1 }

/-- The document when the load returns. -/
def LoadingDocument.rejournaled (d : LoadingDocument κ) : LoadingDocument κ :=
  { d with model := { d.model with journaled := true } }

/-- A load into a new document is a read into a seeded one. -/
theorem wp_loadDocument {parsed : Option Json} {d : LoadingDocument κ} (hd : d.IsFresh)
    {Q : Unit → LoadingDocument κ → Prop} {E : ReaderError → LoadingDocument κ → Prop}
    (h : wp (readDocument cfg parsed (String.ofList (normalizeUri baseUri.toList)) 1)
      (fun _ d' => Q () d'.rejournaled) (fun e d' => E e d'.rejournaled) (fun _ => True)
      (d.seeded assets baseUri)) :
    wp (loadDocument cfg parsed baseUri assets) Q E (fun _ => True) d := by
  have hid : d.model.nextId = 1 := by
    obtain ⟨_, _, _, _, _, _, _, -, hmodel⟩ := hd.model
    rw [hmodel]
    rfl
  simp only [loadDocument, withoutJournal, editPending, wp_bind, wp_modify, wp_ensuring]
  refine wp_imp (onModel_allocateId_spec _) (fun id d₁ hd₁ => ?_) fun _ _ h => h
  obtain ⟨rfl, rfl⟩ := hd₁
  simp only [hid]
  exact h

section Seeded

variable {d : LoadingDocument κ} (hd : d.IsFresh)
include hd

theorem LoadingDocument.IsFresh.blank : Blank assets (d.seeded assets baseUri) :=
  ⟨hd.rows, congrArg PendingExternalLoads.assetByUri hd.pending,
    congrArg PendingExternalLoads.pendingAssets hd.pending,
    congrArg PendingExternalLoads.ready hd.pending, rfl⟩

theorem LoadingDocument.IsFresh.inv : (d.seeded assets baseUri).model.Inv := by
  have h := hd.model.inv
  exact ⟨h.owned, h.version_isMap, h.transaction_isMap, h.holders, h.current_eq, h.cursor_le⟩

end Seeded

/-- What a load that fails leaves of a new document. -/
theorem loadDocument_error {parsed : Option Json} {d : LoadingDocument κ} (hd : d.IsFresh) :
    wp (loadDocument cfg parsed baseUri assets) (fun _ _ => True)
      (fun _ d' => if leavesTrace cfg parsed baseUri assets then Traced d' else
        d'.model.session = d.model.session ∧ d'.rows = d.rows ∧ d'.unknown = d.unknown ∧
          d'.pending = { d.pending with source := assets }.record
            (String.ofList (normalizeUri baseUri.toList)) 1) (fun _ => True) d := by
  refine wp_loadDocument hd (wp_imp (readDocument_first hd.blank hd.requests rfl hd.inv)
    (fun _ _ _ => trivial) fun _ d' hd' => ?_)
  split at hd'
  case isTrue hstays =>
    rw [if_pos hstays]
    exact hd'
  case isFalse hstays =>
    rw [if_neg hstays]
    obtain ⟨hsession, hrows, hunknown, hpending⟩ := hd'
    refine ⟨?_, hrows, hunknown, hpending⟩
    calc Session.mk d'.model.session.current d'.model.session.revision d'.model.session.map
          d'.model.session.drafts true d'.model.session.journal
        = { d.model.session with journaled := true } := by rw [hsession]; rfl
      _ = d.model.session := by rw [← hd.journaled]; rfl

/-- After a load that failed on a new document the identity of its URI is known, and everything else
is what it was if and only if the load failed before it bound anything or asked for anything. -/
theorem failed_load_untouched_iff (cfg : LoadConfig κ) (parsed : Option Json) (baseUri : String)
    (assets : Option AssetSource) {d d' : LoadingDocument κ} {e : ReaderError} (hd : d.IsFresh)
    (h : (loadDocument cfg parsed baseUri assets).run d = .error e d') :
    ¬ Untouched d d' ∧
      (UntouchedBeside (· = String.ofList (normalizeUri baseUri.toList)) d d' ↔
        leavesTrace cfg parsed baseUri assets = false) := by
  have hleft := of_wp_error (loadDocument_error hd) h
  have hpending := hd.pending
  split at hleft
  case isTrue hstays =>
    rw [hstays]
    exact ⟨hleft.not_untouchedBeside hd _,
      iff_of_false (hleft.not_untouchedBeside hd _) nofun⟩
  case isFalse hstays =>
    obtain ⟨hsession, hrows, hunknown, hseed⟩ := hleft
    refine ⟨fun hu => ?_, iff_of_true ?_ (Bool.eq_false_of_not_eq_true hstays)⟩
    · -- the URI of the document has an identity now
      have hbase := hu.byUri (String.ofList (normalizeUri baseUri.toList)) not_false
      rw [hseed, hpending] at hbase
      simp [PendingExternalLoads.record, PendingExternalLoads.init] at hbase
    · refine ⟨hsession, hrows, hunknown, fun uri huri => ?_, ?_, ?_, ?_, ?_⟩ <;> rw [hseed]
      · exact Function.update_of_ne huri _ _
      all_goals rfl

/-! ## A load that fails at its second layer -/

/-- A codec table with one kind of content without state. -/
def solidOnly : LoadConfig Unit where
  thread := 0
  codec kind := if kind = "solid" then
      some { answer := fun _ _ _ => .content ⟨1, [], 0, none, none, 0, ()⟩, serialize := fun _ => none }
    else none
  kindRegistered _ := false
  placeholder _ _ inputs composition := ⟨0, inputs, composition, none, none, 0, ()⟩
  parse _ := none

/-- A new document. -/
def newDocument : LoadingDocument Unit where
  model := emptyModel
  objects := []
  rows := []
  minted := []
  unknown := []
  pending := .init
  storageFormat := .rgba16fLinearPremul
  requests := []
  history := []
  documents := []
  bound := []
  capped := []

theorem newDocument_isFresh : newDocument.IsFresh :=
  ⟨start_emptyModel, rfl, rfl, rfl, rfl, rfl, rfl, rfl⟩

/-- Two layers; the content of the second is not there. -/
def danglingText : Json := .object [("arbc", .object [("format", .integer 1)]),
  ("composition", .object [("layers", .array [.object [("kind", .string "solid")],
    .object [("$ref", .string "gone")]])])]

/-- The load fails with the first layer bound and a version published. -/
theorem danglingText_fails : ∃ e d',
    (loadDocument solidOnly (some danglingText) "" none).run newDocument = .error e d' ∧
      d'.rows = [(2, 0)] ∧ (d'.model.versionAt d'.model.current).revision = 1 := by
  have hrun : (match (loadDocument solidOnly (some danglingText) "" none).run newDocument with
      | .error _ d' => decide (d'.rows = [(2, 0)] ∧
          (d'.model.versionAt d'.model.current).revision = 1)
      | _ => false) = true := by decide +kernel
  split at hrun
  case h_1 e d' hfail => exact ⟨e, d', hfail, of_decide_eq_true hrun⟩
  case h_2 => cases hrun

/-- A failed load does not leave the document untouched. -/
theorem not_failed_load_untouched : ¬ ∀ (cfg : LoadConfig Unit) (parsed : Option Json)
    (baseUri : String) (assets : Option AssetSource) (d d' : LoadingDocument Unit)
    (e : ReaderError), d.IsFresh → (loadDocument cfg parsed baseUri assets).run d = .error e d' →
    Untouched d d' := by
  intro h
  obtain ⟨e, d', hfail, hrows, -⟩ := danglingText_fails
  have hkept := (h _ _ _ _ _ _ _ newDocument_isFresh hfail).rows
  rw [hrows] at hkept
  cases hkept

theorem failed_load_untouched_iff_danglingText : ∃ e d',
    (loadDocument solidOnly (some danglingText) "" none).run newDocument = .error e d' ∧
      ¬ Untouched newDocument d' ∧
      (UntouchedBeside (· = String.ofList (normalizeUri "".toList)) newDocument d' ↔
        leavesTrace solidOnly (some danglingText) "" none = false) := by
  obtain ⟨e, d', hfail, -⟩ := danglingText_fails
  exact ⟨e, d', hfail,
    failed_load_untouched_iff solidOnly (some danglingText) "" none newDocument_isFresh hfail⟩

end ArbitraryComposer
