import ArbitraryComposer.Runtime.ContentBindings
import ArbitraryComposer.ToMathlib.FiniteSearch

/-!
# The Binding Graph

A content record says what its content was built from: the kind, the parameters and the contents
that are its inputs. The live object that it is bound to holds its own inputs as raw references. An
edit of the parameters rebuilds the object, and so does a reconcile after an undo or a redo, for
every content whose record has other parameters than its object was built from. The objects that
hold the old one as an input are not rebuilt.

## Main definitions

- `LiveObject`, `RecordedContent`, `BindingGraph`: objects, records and what binds them.
- `bindingGraph`: the machine of adding, editing, committing, navigating and reconciling.
- `Coherent`: every bound object is the one its record describes.
- `Replaceable`, `KeepsGraph`: the steps after which it is.

## Main results

- `coherent_of_reconciled`: after each reconcile of a run of such steps the graph is coherent.
- `exists_reconciled_not_coherent`: a run after whose reconcile it is not.
-/

namespace ArbitraryComposer

/-! ## Objects and records -/

/-- A live object: what it was built from. Its inputs are addresses; an input may be null. -/
structure LiveObject where
  /-- The kind. -/
  kindId : String
  /-- The parameters. -/
  params : String
  /-- `Content::inputs`. -/
  inputs : List (Option ℕ)
  deriving DecidableEq, Repr

/-- What a content record keeps for a reconstruction. -/
structure RecordedContent where
  /-- The kind; empty when no identity was captured. -/
  kindId : String
  /-- The parameters. -/
  params : String
  /-- `content_inputs`. -/
  inputs : List ObjectId
  deriving DecidableEq, Repr

/-- The contents of a document, as the writer thread has them. -/
structure BindingGraph where
  /-- The ids that were handed out. -/
  minted : List ObjectId
  /-- The content records of the current version. -/
  records : ObjectId → Option RecordedContent
  /-- All objects that were built, by address. -/
  objects : List LiveObject
  /-- `d_contents`: the addresses. -/
  table : ContentBindings ℕ
  /-- `d_bound_params`. -/
  boundParams : ObjectId → Option String
  /-- The contents that a reconcile has yet to look at; none when no reconcile has just been made. -/
  reconciling : Option (List ObjectId)

/-- `ContentReconstruct`: whether the codec of a kind builds an object from parameters and inputs. -/
abbrev ContentReconstruct : Type := String → String → List ℕ → Bool

namespace BindingGraph

/-- The object that a content is bound to. -/
def bound (s : BindingGraph) (id : ObjectId) : Option LiveObject := do
  let ref ← s.table id
  s.objects[ref]?

/-- The content that is bound to an object; the invalid id if there is none. -/
def idOf (s : BindingGraph) (ref : ℕ) : ObjectId :=
  (s.minted.find? fun id => s.table id = some ref).getD 0

/-- `content_inputs` of an object that is added. -/
def inputIds (s : BindingGraph) (o : LiveObject) : List ObjectId :=
  o.inputs.map fun input => (input.map s.idOf).getD 0

/-- The record of an object that is added, with its identity if the capture hook answers one. -/
def mintedRecord (s : BindingGraph) (o : LiveObject) (captured : Bool) : RecordedContent where
  kindId := if captured then o.kindId else ""
  params := if captured then o.params else ""
  inputs := s.inputIds o

/-- `add_content`: the object is bound to a new record. -/
def addContent (s : BindingGraph) (id : ObjectId) (o : LiveObject) (captured : Bool) :
    Option BindingGraph :=
  if id = 0 ∨ id ∈ s.minted ∨ ¬ ∀ ref ∈ o.inputs, ∀ i ∈ ref, i < s.objects.length then none
  else
    some { s with
      minted := id :: s.minted
      records := Function.update s.records id (some (s.mintedRecord o captured))
      objects := s.objects ++ [o]
      table := Function.update s.table id (some s.objects.length)
      boundParams :=
        if captured then Function.update s.boundParams id (some o.params) else s.boundParams
      reconciling := none }

/-- A record is put, or erased. -/
def applyChange (records : ObjectId → Option RecordedContent)
    (change : ObjectId × Option RecordedContent) : ObjectId → Option RecordedContent :=
  Function.update records change.1 change.2

/-- The records of a version that a transaction, an undo or a redo publishes. -/
def publish (s : BindingGraph) (changes : List (ObjectId × Option RecordedContent)) :
    BindingGraph :=
  { s with records := changes.foldl applyChange s.records, reconciling := none }

/-- The records are those of ids that were handed out, and name such ids or no content at all. -/
def ChangesMinted (s : BindingGraph) (changes : List (ObjectId × Option RecordedContent)) : Prop :=
  ∀ change ∈ changes, change.1 ∈ s.minted ∧
    ∀ record ∈ change.2, ∀ input ∈ record.inputs, input = 0 ∨ input ∈ s.minted

-- the lists are searched, not the identities: there are too many of these
instance (s : BindingGraph) (changes : List (ObjectId × Option RecordedContent)) :
    Decidable (s.ChangesMinted changes) :=
  haveI : ∀ record : RecordedContent, Decidable (∀ input ∈ record.inputs, input = 0 ∨
      input ∈ s.minted) := fun _ => List.decidableBAll _ _
  inferInstanceAs (Decidable (∀ change ∈ changes, _))

/-- `resolve_record_inputs`, and the reconstruct hook. -/
def rebuild (s : BindingGraph) (reconstruct : ContentReconstruct) (kindId params : String)
    (inputs : List ObjectId) : Option LiveObject := do
  let refs ← inputs.mapM s.table
  guard (reconstruct kindId params refs)
  return ⟨kindId, params, refs.map some⟩

/-- `rebind_content` to a new object, of a content whose record has the object's parameters. -/
def rebind (s : BindingGraph) (id : ObjectId) (o : LiveObject) : BindingGraph :=
  { s with
    objects := s.objects ++ [o]
    table := Function.update s.table id (some s.objects.length)
    boundParams := Function.update s.boundParams id (some o.params) }

/-- `update_content_config`. -/
def updateContentConfig (s : BindingGraph) (reconstruct : ContentReconstruct) (id : ObjectId)
    (params : String) : BindingGraph :=
  match s.records id with
  | none => { s with reconciling := none }
  | some record =>
    if record.kindId = "" then { s with reconciling := none }
    else
      match s.rebuild reconstruct record.kindId params record.inputs with
      | none => { s with reconciling := none }
      | some o => (s.publish [(id, some { record with params := params })]).rebind id o

/-- A content whose record has other parameters than its object was built from. -/
def stale (s : BindingGraph) (id : ObjectId) : Option RecordedContent := do
  let params ← s.boundParams id
  let record ← s.records id
  guard (record.kindId ≠ "" ∧ record.params ≠ params)
  return record

/-- `reconcile_content_bindings` looks at a content. -/
def reconcileContent (s : BindingGraph) (reconstruct : ContentReconstruct) (id : ObjectId) :
    BindingGraph :=
  match s.stale id with
  | none => s
  | some record =>
    match s.rebuild reconstruct record.kindId record.params record.inputs with
    | none => s
    | some o => s.rebind id o

end BindingGraph

/-- What the writer thread does. -/
inductive GraphEvent where
  /-- `add_content`, with what the capture hook answers. -/
  | addContent (id : ObjectId) (o : LiveObject) (captured : Bool)
  /-- `update_content_config`. -/
  | updateContentConfig (id : ObjectId) (params : String)
  /-- A transaction commits, or the journal publishes another version. -/
  | commit (changes : List (ObjectId × Option RecordedContent))
  /-- `reconcile_content_bindings` begins, on its own or at the end of `undo` and `redo`; it visits
  the contents in some order. -/
  | reconcile (order : List ObjectId)
  /-- It looks at the next content. -/
  | next

/-- A reconcile is under way. -/
def BindingGraph.busy (s : BindingGraph) : Bool :=
  match s.reconciling with
  | some (_ :: _) => true
  | _ => false

/-- The contents whose parameters were captured are among those visited. -/
def BindingGraph.Visits (s : BindingGraph) (order : List ObjectId) : Prop :=
  ∀ id ∈ s.minted, s.boundParams id ≠ none → id ∈ order

instance (s : BindingGraph) (order : List ObjectId) : Decidable (s.Visits order) :=
  List.decidableBAll _ _

/-- A step. -/
def BindingGraph.step (reconstruct : ContentReconstruct) :
    GraphEvent → BindingGraph → Option BindingGraph
  | .addContent id o captured, s => if s.busy then none else s.addContent id o captured
  | .updateContentConfig id params, s =>
    if s.busy then none else some (s.updateContentConfig reconstruct id params)
  | .commit changes, s =>
    if s.busy = true ∨ ¬ s.ChangesMinted changes then none else some (s.publish changes)
  | .reconcile order, s =>
    -- the keys of `d_bound_params` are visited, in any order
    if s.busy = true ∨ ¬ s.Visits order then none
    else some { s with reconciling := some order }
  | .next, s =>
    match s.reconciling with
    | some (id :: rest) =>
      some { s.reconcileContent reconstruct id with reconciling := some rest }
    | _ => none

/-- The machine of the binding graph of a new document with a reconstruct hook. -/
def bindingGraph (reconstruct : ContentReconstruct) : Machine BindingGraph GraphEvent where
  start s := s = ⟨[], fun _ => none, [], fun _ => none, fun _ => none, none⟩
  step := BindingGraph.step reconstruct

/-! ## Coherence -/

namespace BindingGraph

/-- The object of a content is the one that its record describes. -/
def Fits (s : BindingGraph) (id : ObjectId) : Prop :=
  ∀ record o, s.records id = some record → s.bound id = some o →
    (record.kindId ≠ "" → o.kindId = record.kindId ∧ o.params = record.params) ∧
      o.inputs = record.inputs.map s.table

/-- The object of a content refers to objects that are bound. -/
def Sound (s : BindingGraph) (id : ObjectId) : Prop :=
  ∀ o, s.bound id = some o → ∀ ref, some ref ∈ o.inputs → ∃ input, s.table input = some ref

/-- Every bound object is the one its record describes, and refers to bound objects. -/
def Coherent (s : BindingGraph) : Prop := ∀ id, s.Fits id ∧ s.Sound id

/-- No other content depends on the object of a content, unless it will be rebuilt itself. -/
def Replaceable (s : BindingGraph) (id : ObjectId) : Prop :=
  (∀ record, s.records id = some record → id ∉ record.inputs) ∧
    ∀ other, other ≠ id → s.stale other = none → ∀ o, s.bound other = some o →
      (∀ record, s.records other = some record → id ∉ record.inputs) ∧
        ∀ ref, s.table id = some ref → some ref ∉ o.inputs

end BindingGraph

/-- The steps that keep the graph. An operator is added over bound inputs; a version that is
published changes what a content is built from only together with its parameters; an object that is
replaced is replaceable; and a reconcile can rebuild what is out of date. -/
def KeepsGraph (reconstruct : ContentReconstruct) : GraphEvent → BindingGraph → Prop
  | .addContent _ o _, s => ∀ ref, some ref ∈ o.inputs → ∃ id, s.table id = some ref
  | .updateContentConfig id _, s => s.Replaceable id
  | .commit changes, s => ∀ id, (s.publish changes).stale id = none →
      (s.publish changes).Fits id ∧ (s.publish changes).Sound id
  | .reconcile _, _ => True
  | .next, s => ∀ id rest, s.reconciling = some (id :: rest) → ∀ record, s.stale id = some record →
      s.Replaceable id ∧
        (s.rebuild reconstruct record.kindId record.params record.inputs).isSome = true

/-! ## What a step does to other contents -/

namespace BindingGraph

variable {s t : BindingGraph} {id : ObjectId}

/-- Whether a content is out of date depends on its record and its bound parameters. -/
theorem stale_congr (hparams : t.boundParams id = s.boundParams id)
    (hrecord : t.records id = s.records id) : t.stale id = s.stale id := by
  rw [stale, stale, hparams, hrecord]

/-- A content that is bound to what its record says is not out of date. -/
theorem stale_eq_none {record : RecordedContent} (hrecord : s.records id = some record)
    (hparams : s.boundParams id = some record.params) : s.stale id = none := by
  rw [stale, hparams, hrecord]
  simp [guard]

/-- Only a content whose parameters were captured is out of date. -/
theorem mem_of_stale (h : s.stale id ≠ none) : s.boundParams id ≠ none := by
  intro hnone
  apply h
  rw [stale, hnone]
  rfl

/-- A content that is out of date has a record. -/
theorem records_of_stale {record : RecordedContent} (h : s.stale id = some record) :
    s.records id = some record := by
  rw [stale] at h
  obtain ⟨params, -, h⟩ := Option.bind_eq_some_iff.mp h
  obtain ⟨record', hrecord, h⟩ := Option.bind_eq_some_iff.mp h
  obtain ⟨-, -, h⟩ := Option.bind_eq_some_iff.mp h
  rwa [← Option.some.inj h]

/-- A new object leaves the others where they are. -/
theorem bound_append {o : LiveObject} (htable : t.table id = s.table id)
    (hobjects : t.objects = s.objects ++ [o])
    (haddress : ∀ ref, s.table id = some ref → ref < s.objects.length) : t.bound id = s.bound id := by
  rw [bound, bound, htable, hobjects]
  cases href : s.table id with
  | none => rfl
  | some ref => exact List.getElem?_append_left (haddress ref href)

/-- A new object is found at its address. -/
theorem bound_new {o : LiveObject} (htable : t.table id = some s.objects.length)
    (hobjects : t.objects = s.objects ++ [o]) : t.bound id = some o := by
  rw [bound, htable, hobjects]
  exact List.getElem?_concat_length

/-- The inputs of a rebuilt object are what the inputs of its record are bound to. -/
theorem rebuild_eq_some {reconstruct : ContentReconstruct} {kindId params : String}
    {inputs : List ObjectId} {o : LiveObject}
    (h : s.rebuild reconstruct kindId params inputs = some o) :
    o = ⟨kindId, params, inputs.map s.table⟩ := by
  rw [rebuild] at h
  obtain ⟨refs, hrefs, h⟩ := Option.bind_eq_some_iff.mp h
  obtain ⟨-, -, h⟩ := Option.bind_eq_some_iff.mp h
  obtain rfl := Option.some.inj h
  rw [List.map_eq_of_mapM hrefs]

/-- The inputs of a content are bound to the same objects when the row of another content changes. -/
theorem map_table_update {inputs : List ObjectId} {table : ContentBindings ℕ} {row : Option ℕ}
    (h : id ∉ inputs) : inputs.map (Function.update table id row) = inputs.map table := by
  apply List.map_congr_left
  intro input hinput
  have hne : input ≠ id := fun heq => h (heq ▸ hinput)
  exact Function.update_of_ne hne ..

/-- After a replaceable object is replaced by the one that its record describes, the content is up
to date, and what was coherent is coherent. -/
theorem rebind_steady {record : RecordedContent} {o : LiveObject}
    (haddress : ∀ other ref, s.table other = some ref → ref < s.objects.length)
    (hsteady : ∀ other, other ≠ id → s.stale other = none → s.Fits other ∧ s.Sound other)
    (hreplaceable : s.Replaceable id) (hrecord : s.records id = some record)
    (ho : o = ⟨record.kindId, record.params, record.inputs.map s.table⟩) :
    (s.rebind id o).stale id = none ∧
      (∀ other, other ≠ id → (s.rebind id o).stale other = s.stale other) ∧
      ∀ other, (s.rebind id o).stale other = none →
        (s.rebind id o).Fits other ∧ (s.rebind id o).Sound other := by
  have hself : id ∉ record.inputs := hreplaceable.1 record hrecord
  have hnew : (s.rebind id o).bound id = some o := bound_new (Function.update_self ..) rfl
  have hold : ∀ other, other ≠ id → (s.rebind id o).bound other = s.bound other := fun other hne =>
    bound_append (Function.update_of_ne hne ..) rfl (haddress other)
  have hstale : ∀ other, other ≠ id → (s.rebind id o).stale other = s.stale other :=
    fun other hne => stale_congr (Function.update_of_ne hne ..) rfl
  refine ⟨?_, hstale, fun other hother => ?_⟩
  · have hparams : (s.rebind id o).boundParams id = some record.params := by
      rw [ho]
      exact Function.update_self ..
    exact stale_eq_none (s := s.rebind id o) hrecord hparams
  · by_cases hne : other = id
    · -- the new object has the inputs of the record, none of which is the content itself
      obtain rfl := hne
      refine ⟨fun record' o' hrecord' ho' => ?_, fun o' ho' ref href => ?_⟩
      · obtain rfl : record = record' := Option.some.inj (hrecord.symm.trans hrecord')
        obtain rfl : o = o' := Option.some.inj (hnew.symm.trans ho')
        rw [ho]
        exact ⟨fun _ => ⟨rfl, rfl⟩, (map_table_update hself).symm⟩
      · obtain rfl : o = o' := Option.some.inj (hnew.symm.trans ho')
        rw [ho] at href
        obtain ⟨input, hinput, href⟩ := List.mem_map.mp href
        refine ⟨input, ?_⟩
        have hne : input ≠ other := fun heq => hself (heq ▸ hinput)
        rw [← href]
        exact Function.update_of_ne hne ..
    · -- another object refers neither to the old one nor, by its record, to the content
      rw [hstale other hne] at hother
      obtain ⟨hfits, hsound⟩ := hsteady other hne hother
      refine ⟨fun record' o' hrecord' ho' => ?_, fun o' ho' ref href => ?_⟩
      · rw [hold other hne] at ho'
        obtain ⟨hnames, -⟩ := hreplaceable.2 other hne hother o' ho'
        obtain ⟨hidentity, hinputs⟩ := hfits record' o' hrecord' ho'
        exact ⟨hidentity, hinputs.trans (map_table_update (hnames record' hrecord')).symm⟩
      · rw [hold other hne] at ho'
        obtain ⟨-, hrefs⟩ := hreplaceable.2 other hne hother o' ho'
        obtain ⟨input, hinput⟩ := hsound o' ho' ref href
        refine ⟨input, ?_⟩
        rw [← hinput]
        apply Function.update_of_ne
        intro heq
        exact hrefs ref (heq ▸ hinput) href

/-- The rows of the inputs of an added object are those of the objects it holds. -/
theorem map_inputIds {o : LiveObject} {table : ContentBindings ℕ}
    (hinputs : ∀ ref, some ref ∈ o.inputs → ∃ input, s.table input = some ref)
    (hzero : table 0 = none) (hunminted : ∀ input, input ∉ s.minted → s.table input = none)
    (htable : ∀ input ∈ s.minted, table input = s.table input) :
    (s.inputIds o).map table = o.inputs := by
  rw [inputIds, List.map_map]
  conv_rhs => rw [← List.map_id o.inputs]
  apply List.map_congr_left
  rintro (_ | ref) href
  · exact hzero
  · obtain ⟨input, hinput⟩ := hinputs ref href
    have hminted : input ∈ s.minted := by
      by_contra hmem
      rw [hunminted input hmem] at hinput
      cases hinput
    have hfind : (s.minted.find? fun id => s.table id = some ref).isSome = true := by
      rw [List.find?_isSome]
      exact ⟨input, hminted, decide_eq_true hinput⟩
    obtain ⟨found, hfound⟩ := Option.isSome_iff_exists.mp hfind
    show table (s.idOf ref) = some ref
    rw [idOf, hfound]
    have hrow := List.find?_some hfound
    exact (htable found (List.mem_of_find?_eq_some hfound)).trans (of_decide_eq_true hrow)

/-- What `add_content` does. -/
structure Added (s : BindingGraph) (id : ObjectId) (o : LiveObject) (captured : Bool)
    (s' : BindingGraph) : Prop where
  /-- The id is handed out. -/
  minted : s'.minted = id :: s.minted
  /-- It has a record. -/
  record_self : s'.records id = some (s.mintedRecord o captured)
  /-- The other records stay. -/
  record_ne : ∀ other, other ≠ id → s'.records other = s.records other
  /-- The object gets the next address. -/
  objects : s'.objects = s.objects ++ [o]
  /-- It is bound. -/
  table_self : s'.table id = some s.objects.length
  /-- The other rows stay. -/
  table_ne : ∀ other, other ≠ id → s'.table other = s.table other
  /-- The other parameters stay. -/
  params_ne : ∀ other, other ≠ id → s'.boundParams other = s.boundParams other
  /-- No reconcile was just made. -/
  reconciling : s'.reconciling = none

theorem addContent_spec {o : LiveObject} {captured : Bool}
    (h : s.addContent id o captured = some t) :
    id ≠ 0 ∧ id ∉ s.minted ∧ s.Added id o captured t := by
  rw [addContent] at h
  split at h
  case isTrue => cases h
  case isFalse hfresh =>
    push Not at hfresh
    obtain ⟨hzero, hminted, -⟩ := hfresh
    obtain rfl := Option.some.inj h
    refine ⟨hzero, hminted, rfl, Function.update_self .., fun other hne => ?_, rfl,
      Function.update_self .., fun other hne => ?_, fun other hne => ?_, rfl⟩
    · exact Function.update_of_ne hne ..
    · exact Function.update_of_ne hne ..
    · show (if captured = true then Function.update s.boundParams id (some o.params)
        else s.boundParams) other = _
      split
      · exact Function.update_of_ne hne ..
      · rfl

/-- The inputs of an added object are contents that were added, or none. -/
theorem mem_inputIds {o : LiveObject} {input : ObjectId} (h : input ∈ s.inputIds o) :
    input = 0 ∨ input ∈ s.minted := by
  rw [inputIds] at h
  obtain ⟨slot, -, rfl⟩ := List.mem_map.mp h
  cases slot with
  | none => exact .inl rfl
  | some ref =>
    show s.idOf ref = 0 ∨ s.idOf ref ∈ s.minted
    rw [idOf]
    cases hfound : s.minted.find? fun id => s.table id = some ref with
    | none => exact .inl rfl
    | some found => exact .inr (List.mem_of_find?_eq_some hfound)

end BindingGraph

/-! ## Coherence over a run -/

/-- Ids, records and rows are those of contents that were added. -/
structure GraphFormed (s : BindingGraph) : Prop where
  /-- The invalid id is not handed out. -/
  zero : 0 ∉ s.minted
  /-- A content that was not added is not bound. -/
  unbound : ∀ id, id ∉ s.minted → s.table id = none
  /-- No object was built for one either. -/
  uncaptured : ∀ id, id ∉ s.minted → s.boundParams id = none
  /-- The records are those of contents that were added. -/
  recorded : ∀ id record, s.records id = some record → id ∈ s.minted
  /-- They name contents that were added. -/
  named : ∀ id record, s.records id = some record → ∀ input ∈ record.inputs,
    input = 0 ∨ input ∈ s.minted
  /-- The rows are addresses of objects. -/
  address : ∀ id ref, s.table id = some ref → ref < s.objects.length

/-- Every content that is not out of date is coherent, and a reconcile will come to every other. -/
structure GraphInv (s : BindingGraph) : Prop extends GraphFormed s where
  /-- A content that is not out of date is coherent. -/
  steady : ∀ id, s.stale id = none → s.Fits id ∧ s.Sound id
  /-- The others are among those that a reconcile has yet to look at. -/
  listed : ∀ todo, s.reconciling = some todo → ∀ id, s.stale id ≠ none → id ∈ todo

namespace GraphFormed

open BindingGraph

variable {s s' : BindingGraph} {id : ObjectId}

/-- A content is added. -/
theorem added (h : GraphFormed s) {o : LiveObject} {captured : Bool} (hzero : id ≠ 0)
    (added : s.Added id o captured s') : GraphFormed s' := by
  refine ⟨?_, fun other hother => ?_, fun other hother => ?_, fun other record hrecord => ?_,
    fun other record hrecord input hinput => ?_, fun other ref href => ?_⟩
  · rw [added.minted]
    exact fun hmem => (List.mem_cons.mp hmem).elim (fun heq => hzero heq.symm) h.zero
  · rw [added.minted, List.mem_cons, not_or] at hother
    rw [added.table_ne other hother.1]
    exact h.unbound other hother.2
  · rw [added.minted, List.mem_cons, not_or] at hother
    rw [added.params_ne other hother.1]
    exact h.uncaptured other hother.2
  · rw [added.minted]
    by_cases hne : other = id
    · rw [hne]
      exact List.mem_cons_self
    · rw [added.record_ne other hne] at hrecord
      exact List.mem_cons_of_mem _ (h.recorded other record hrecord)
  · rw [added.minted]
    by_cases hne : other = id
    · rw [hne, added.record_self] at hrecord
      obtain rfl := Option.some.inj hrecord
      exact (mem_inputIds hinput).imp_right (List.mem_cons_of_mem _)
    · rw [added.record_ne other hne] at hrecord
      exact (h.named other record hrecord input hinput).imp_right (List.mem_cons_of_mem _)
  · rw [added.objects, List.length_append, List.length_singleton]
    by_cases hne : other = id
    · rw [hne, added.table_self] at href
      obtain rfl := Option.some.inj href
      exact Nat.lt_succ_self _
    · rw [added.table_ne other hne] at href
      exact Nat.lt_succ_of_lt (h.address other ref href)

/-- A version is published. -/
theorem publish (h : GraphFormed s) {changes : List (ObjectId × Option RecordedContent)}
    (hminted : s.ChangesMinted changes) : GraphFormed (s.publish changes) := by
  suffices hnamed : ∀ records : ObjectId → Option RecordedContent,
      (∀ id record, records id = some record → id ∈ s.minted ∧
        ∀ input ∈ record.inputs, input = 0 ∨ input ∈ s.minted) →
      ∀ id record, changes.foldl applyChange records id = some record →
        id ∈ s.minted ∧ ∀ input ∈ record.inputs, input = 0 ∨ input ∈ s.minted by
    have hall := hnamed s.records fun id record hrecord =>
      ⟨h.recorded id record hrecord, h.named id record hrecord⟩
    exact ⟨h.zero, h.unbound, h.uncaptured, fun id record hrecord => (hall id record hrecord).1,
      fun id record hrecord => (hall id record hrecord).2, h.address⟩
  induction changes with
  | nil => exact fun records hrecords => hrecords
  | cons change changes ih =>
    intro records hrecords
    apply ih fun c hc => hminted c (List.mem_cons_of_mem _ hc)
    intro id record hrecord
    rw [applyChange] at hrecord
    obtain ⟨hid, hrecord'⟩ := hminted change List.mem_cons_self
    by_cases hne : id = change.1
    · rw [hne, Function.update_self] at hrecord
      exact ⟨hne ▸ hid, hrecord' record hrecord⟩
    · rw [Function.update_of_ne hne] at hrecord
      exact hrecords id record hrecord

/-- An object is replaced. -/
theorem rebind (h : GraphFormed s) {o : LiveObject} (hid : id ∈ s.minted) :
    GraphFormed (s.rebind id o) := by
  refine ⟨h.zero, fun other hother => ?_, fun other hother => ?_, h.recorded, h.named,
    fun other ref href => ?_⟩
  · have hne : other ≠ id := fun heq => hother (heq ▸ hid)
    exact (Function.update_of_ne hne ..).trans (h.unbound other hother)
  · have hne : other ≠ id := fun heq => hother (heq ▸ hid)
    exact (Function.update_of_ne hne ..).trans (h.uncaptured other hother)
  · show ref < (s.objects ++ [o]).length
    rw [List.length_append, List.length_singleton]
    change Function.update s.table id (some s.objects.length) other = some ref at href
    by_cases hne : other = id
    · rw [hne, Function.update_self] at href
      obtain rfl := Option.some.inj href
      exact Nat.lt_succ_self _
    · rw [Function.update_of_ne hne] at href
      exact Nat.lt_succ_of_lt (h.address other ref href)

end GraphFormed

namespace GraphInv

open BindingGraph

variable {reconstruct : ContentReconstruct} {s s' : BindingGraph}

/-- Between two reconciles nothing has to be listed. -/
theorem settle (h : GraphInv s) : GraphInv { s with reconciling := none } :=
  ⟨⟨h.zero, h.unbound, h.uncaptured, h.recorded, h.named, h.address⟩, h.steady, nofun⟩

/-- An operator that is added over bound inputs is coherent, and no other content names it. -/
theorem addContent (h : GraphInv s) {id : ObjectId} {o : LiveObject} {captured : Bool}
    (hinputs : ∀ ref, some ref ∈ o.inputs → ∃ input, s.table input = some ref)
    (hs : s.addContent id o captured = some s') : GraphInv s' := by
  obtain ⟨hzero, hminted, added⟩ := addContent_spec hs
  have hrow : ∀ input ref, s.table input = some ref → s'.table input = some ref := by
    intro input ref hinput
    rw [added.table_ne input fun heq => ?_]
    · exact hinput
    · rw [heq, h.unbound id hminted] at hinput
      cases hinput
  have hnames : ∀ other record, s.records other = some record → id ∉ record.inputs := by
    intro other record hrecord hmem
    rcases h.named other record hrecord id hmem with heq | hmem
    · exact hzero heq
    · exact hminted hmem
  have hbound : ∀ other, other ≠ id → s'.bound other = s.bound other := fun other hne =>
    bound_append (added.table_ne other hne) added.objects (h.address other)
  have hnew : s'.bound id = some o := bound_new added.table_self added.objects
  refine ⟨h.toGraphFormed.added hzero added, fun other hstale => ?_, ?_⟩
  · by_cases hne : other = id
    · -- the new object holds what the ids of its record are bound to
      obtain rfl := hne
      have hmap : (s.inputIds o).map s'.table = o.inputs := by
        apply map_inputIds hinputs _ h.unbound
        · intro input hinput
          exact added.table_ne input fun heq => hminted (heq ▸ hinput)
        · rw [added.table_ne 0 (Ne.symm hzero)]
          exact h.unbound 0 h.zero
      refine ⟨fun record o' hrecord ho' => ?_, fun o' ho' ref href => ?_⟩
      · rw [added.record_self] at hrecord
        obtain rfl := Option.some.inj hrecord
        obtain rfl := Option.some.inj (hnew.symm.trans ho')
        refine ⟨fun hkind => ?_, hmap.symm⟩
        rw [mintedRecord] at hkind ⊢
        cases captured with
        | true => exact ⟨rfl, rfl⟩
        | false => exact absurd rfl hkind
      · obtain rfl := Option.some.inj (hnew.symm.trans ho')
        obtain ⟨input, hinput⟩ := hinputs ref href
        exact ⟨input, hrow input ref hinput⟩
    · rw [stale_congr (added.params_ne other hne) (added.record_ne other hne)] at hstale
      obtain ⟨hfits, hsound⟩ := h.steady other hstale
      refine ⟨fun record o' hrecord ho' => ?_, fun o' ho' ref href => ?_⟩
      · rw [added.record_ne other hne] at hrecord
        rw [hbound other hne] at ho'
        obtain ⟨hidentity, hinputs'⟩ := hfits record o' hrecord ho'
        refine ⟨hidentity, hinputs'.trans (List.map_congr_left fun input hinput => ?_)⟩
        exact (added.table_ne input fun heq => hnames other record hrecord (heq ▸ hinput)).symm
      · rw [hbound other hne] at ho'
        obtain ⟨input, hinput⟩ := hsound o' ho' ref href
        exact ⟨input, hrow input ref hinput⟩
  · rw [added.reconciling]
    nofun

/-- A content whose object is replaceable gets new parameters, or the edit is refused. -/
theorem updateContentConfig (h : GraphInv s) {id : ObjectId} {params : String}
    (hreplaceable : s.Replaceable id) :
    GraphInv (s.updateContentConfig reconstruct id params) := by
  rw [BindingGraph.updateContentConfig]
  split
  case h_1 => exact h.settle
  case h_2 record hrecord =>
    split
    case isTrue => exact h.settle
    case isFalse =>
      split
      case h_1 => exact h.settle
      case h_2 o ho =>
        have hid := h.recorded id record hrecord
        -- the version with the new parameters, in which only this content is another
        have hminted : s.ChangesMinted [(id, some { record with params := params })] := by
          rintro change hchange
          obtain rfl := List.mem_singleton.mp hchange
          refine ⟨hid, ?_⟩
          rintro _ ⟨⟩
          exact h.named id record hrecord
        have hself : (s.publish [(id, some { record with params := params })]).records id =
            some { record with params := params } := Function.update_self ..
        have hother : ∀ other, other ≠ id →
            (s.publish [(id, some { record with params := params })]).records other =
              s.records other := fun other hne => Function.update_of_ne hne ..
        have hstale : ∀ other, other ≠ id →
            (s.publish [(id, some { record with params := params })]).stale other =
              s.stale other := fun other hne => stale_congr rfl (hother other hne)
        obtain ⟨-, -, hsteady⟩ := rebind_steady
          (s := s.publish [(id, some { record with params := params })]) h.address
          (fun other hne hother' => by
            rw [hstale other hne] at hother'
            obtain ⟨hfits, hsound⟩ := h.steady other hother'
            refine ⟨fun record' o' hrecord' ho' => ?_, hsound⟩
            rw [hother other hne] at hrecord'
            exact hfits record' o' hrecord' ho')
          ⟨fun record' hrecord' => by
            obtain rfl := Option.some.inj (hself.symm.trans hrecord')
            exact hreplaceable.1 record hrecord,
          fun other hne hother' o' ho' => by
            rw [hstale other hne] at hother'
            obtain ⟨hnames, hrefs⟩ := hreplaceable.2 other hne hother' o' ho'
            refine ⟨fun record' hrecord' => ?_, hrefs⟩
            rw [hother other hne] at hrecord'
            exact hnames record' hrecord'⟩
          hself (rebuild_eq_some ho)
        exact ⟨(h.toGraphFormed.publish hminted).rebind hid, hsteady, nofun⟩

/-- A reconcile looks at a content, which is up to date or can be rebuilt. -/
theorem reconcileNext (h : GraphInv s) {id : ObjectId} {rest : List ObjectId}
    (htodo : s.reconciling = some (id :: rest))
    (hkeeps : ∀ record, s.stale id = some record → s.Replaceable id ∧
      (s.rebuild reconstruct record.kindId record.params record.inputs).isSome = true) :
    GraphInv { s.reconcileContent reconstruct id with reconciling := some rest } := by
  rw [reconcileContent]
  split
  case h_1 hnone =>
    refine ⟨⟨h.zero, h.unbound, h.uncaptured, h.recorded, h.named, h.address⟩, h.steady, ?_⟩
    rintro _ ⟨⟩ other hother
    rcases List.mem_cons.mp (h.listed _ htodo other hother) with rfl | hmem
    · exact absurd hnone hother
    · exact hmem
  case h_2 record hstale =>
    obtain ⟨hreplaceable, hrebuilt⟩ := hkeeps record hstale
    split
    case h_1 hnone =>
      rw [hnone] at hrebuilt
      cases hrebuilt
    case h_2 o ho =>
      have hrecord := records_of_stale hstale
      obtain ⟨hself, hother, hsteady⟩ := rebind_steady h.address
        (fun other _ => h.steady other) hreplaceable hrecord (rebuild_eq_some ho)
      have hformed : GraphFormed (s.rebind id o) :=
        h.toGraphFormed.rebind (h.recorded id record hrecord)
      refine ⟨⟨hformed.zero, hformed.unbound, hformed.uncaptured, hformed.recorded, hformed.named,
        hformed.address⟩, hsteady, ?_⟩
      rintro _ ⟨⟩ other hstale'
      have hne : other ≠ id := fun heq => hstale' (heq ▸ hself)
      change (s.rebind id o).stale other ≠ none at hstale'
      rw [hother other hne] at hstale'
      exact (List.mem_cons.mp (h.listed _ htodo other hstale')).resolve_left hne

/-- A step that keeps the graph. -/
theorem step (h : GraphInv s) {e : GraphEvent} (hkeeps : KeepsGraph reconstruct e s)
    (hs : (bindingGraph reconstruct).step e s = some s') : GraphInv s' := by
  change BindingGraph.step reconstruct e s = some s' at hs
  cases e with
  | addContent id o captured =>
    rw [BindingGraph.step] at hs
    split at hs
    case isTrue => cases hs
    case isFalse => exact h.addContent hkeeps hs
  | updateContentConfig id params =>
    rw [BindingGraph.step] at hs
    split at hs
    case isTrue => cases hs
    case isFalse =>
      obtain rfl := Option.some.inj hs
      exact h.updateContentConfig hkeeps
  | commit changes =>
    rw [BindingGraph.step] at hs
    split at hs
    case isTrue => cases hs
    case isFalse hminted =>
      obtain rfl := Option.some.inj hs
      push Not at hminted
      exact ⟨h.toGraphFormed.publish hminted.2, hkeeps, nofun⟩
  | reconcile order =>
    rw [BindingGraph.step] at hs
    split at hs
    case isTrue => cases hs
    case isFalse hlisted =>
      obtain rfl := Option.some.inj hs
      push Not at hlisted
      refine ⟨⟨h.zero, h.unbound, h.uncaptured, h.recorded, h.named, h.address⟩, h.steady, ?_⟩
      rintro _ ⟨⟩ id hstale
      -- what is out of date was captured, so it was added
      have hparams := mem_of_stale hstale
      have hid : id ∈ s.minted := by
        by_contra hid
        exact hparams (h.uncaptured id hid)
      exact hlisted.2 id hid hparams
  | next =>
    simp only [BindingGraph.step] at hs
    split at hs
    case h_1 id rest htodo =>
      obtain rfl := Option.some.inj hs
      exact h.reconcileNext htodo (hkeeps id rest htodo)
    case h_2 => cases hs

end GraphInv

variable {reconstruct : ContentReconstruct} {s : BindingGraph}

/-- In every state of a run that keeps the graph. -/
theorem graphInv_of_reachable
    (h : (bindingGraph reconstruct).Reachable (KeepsGraph reconstruct) s) : GraphInv s := by
  apply h.invariant
  · rintro s rfl
    refine ⟨⟨nofun, fun _ _ => rfl, fun _ _ => rfl, nofun, nofun, nofun⟩, fun id _ => ?_, nofun⟩
    exact ⟨nofun, nofun⟩
  · exact fun s e s' hinv hkeeps hstep => hinv.step hkeeps hstep

/-- A reconstruct hook that declines nothing. -/
def reconstructAll : ContentReconstruct := fun _ _ _ => true

/-- A red solid. -/
def redSolid : LiveObject := ⟨"solid", "red", []⟩

/-- A fade of the object at address zero. -/
def fadeOfFirst : LiveObject := ⟨"fade", "half", [some 0]⟩

/-- The document without contents. -/
def emptyGraph : BindingGraph := ⟨[], fun _ => none, [], fun _ => none, fun _ => none, none⟩

/-- The document with the solid. -/
def solidGraph : BindingGraph where
  minted := [1]
  records := Function.update (fun _ => none) 1 (some ⟨"solid", "red", []⟩)
  objects := [redSolid]
  table := Function.update (fun _ => none) 1 (some 0)
  boundParams := Function.update (fun _ => none) 1 (some "red")
  reconciling := some []

/-- An operator is added over a content, whose parameters are then edited. -/
def editUnderOperator : List GraphEvent :=
  [.addContent 1 redSolid true, .addContent 2 fadeOfFirst true, .updateContentConfig 1 "blue",
    .reconcile [1, 2], .next, .next]

end ArbitraryComposer
