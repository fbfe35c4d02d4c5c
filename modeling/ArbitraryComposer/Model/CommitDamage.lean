import ArbitraryComposer.Compositor.DamagePlanning
import ArbitraryComposer.Model.Refinement
import ArbitraryComposer.Model.ScriptWrites

/-!
# Atomic Commits and their Damage

A transaction gathers the damage of its mutators and of its caller beside its working tree. A
commit publishes the tree, flushes the damage once and hands the journal an entry; nothing else
that happens to a transaction, and no commit that fails, is seen outside of it.

A mutator of a layer or a composition damages the object it has touched, not the chunk records
behind a layer order. The setters of a content damage nothing: their caller adds the damage.

## Main definitions

- `Mutator.damage`, `Mutator.silent`: what a call damages and what it only touches.
- `DamagedModel`, `damagedModel`: a model with the damage gathered and flushed.
- `Committed`: what a commit that succeeds leaves behind.

## Main results

- `Mutator.accounted`: what a mutator writes it damages, or it is silent about it.
- `DamagedModel.commit_atomic`: only a commit that succeeds is seen, and it names what it touched.
-/

namespace ArbitraryComposer

open Exec

/-! ## Mutators -/

/-- The object that a mutator damages when it has touched it. -/
def Mutator.damages (result : ObjectId) : Mutator → Option ObjectId
  | addLayer _ _ _ | addContent _ | addComposition _ _ | addCompositionAs _ _ _ => some result
  | setWorkingSpace id _ | setWorkingAudioFormat id _ | setTransform id _ | setSpan id _
  | setTimeMap id _ | setOpacity id _ | setGain id _ | setAudible id _ | setVisible id _
  | setBlend id _ | attachLayer id _ _ | detachLayer id _ | reorderLayer id _ _
  | remove id => some id
  -- the region of a content is known to its kind, which adds the damage
  | setContentState _ _ | setContentIdentity _ _ _ | setContentInputs _ _ => none

/-- The calls of `add_damage` in a mutator that returned and wrote something. -/
def Mutator.damage (mu : Mutator) (result : ObjectId) (ws : List Write) : List (Damage Double) :=
  match mu.damages result with
  | some id =>
    if id ∈ ws.map Prod.fst then [⟨id, DeviceRect.infinite, TimeRange.all⟩] else []
  | none => []

/-- What a mutator touches without damage: the chunks behind a layer order, and whatever the
setters of a content write. -/
def Mutator.silent (ws : List Write) : Mutator → List ObjectId
  | attachLayer id _ _ | detachLayer id _ | reorderLayer id _ _ =>
    (ws.map Prod.fst).filter (· ≠ id)
  | setContentState _ _ | setContentIdentity _ _ _ | setContentInputs _ _ => ws.map Prod.fst
  | _ => []

/-- Not the record of a layer or a composition. -/
def Inner (o : Option Payload) : Prop :=
  ∀ as ∈ o, as.kind ≠ .layer ∧ as.kind ≠ .composition

/-- What was written is damaged, or it is touched in silence and is no layer or composition. -/
def Mutator.Accounted (mu : Mutator) (result : ObjectId) (ws : List Write) : Prop :=
  ∀ q ∈ ws, mu.damages result = some q.1 ∨ q.1 ∈ mu.silent ws ∧ Inner q.2

section Accounted

open Script

theorem inner_none : Inner none := by
  rintro as ⟨⟩

theorem inner_content (c : ContentRecord) : Inner (some (.content c)) := by
  rintro as ⟨⟩
  exact ⟨nofun, nofun⟩

theorem inner_orderChunk (members : List ObjectId) (next : ObjectId) :
    Inner (some (orderChunk members next)) := by
  rintro as ⟨⟩
  exact ⟨nofun, nofun⟩

private theorem writes_editRecord (id : ObjectId) (f : Payload → Option Payload) :
    (editRecord id f).Writes fun q => q.1 = id := by
  refine (writes_find id).bind fun r => ?_
  split
  · exact writes_set rfl
  · exact writes_pure ()

private theorem writes_removeObject (id : ObjectId) :
    (removeObject id).Writes fun q => q.1 = id := by
  refine (writes_find id).bind fun r => ?_
  cases r with
  | none => exact writes_pure ()
  | some as =>
    have hone : ∀ k ∈ [id], k = id := fun k hk =>
      List.mem_singleton.mp hk
    exact writes_eraseAll (P := fun q => q.1 = id) hone

private theorem writes_storeMembership (id : ObjectId) (base : CompositionRecord)
    (old oldIds new : List ObjectId) :
    (storeMembership id base old oldIds new).Writes fun q => q.1 = id ∨ Inner q.2 := by
  unfold storeMembership
  dsimp only
  split
  · apply (writes_eraseAll fun _ _ => Or.inr inner_none).bind
    exact fun _ => writes_set (Or.inl rfl)
  · apply (writes_allocateIds _).bind
    intro fresh
    apply (writes_eraseAll fun _ _ => Or.inr inner_none).bind
    intro _
    refine (writes_setAll fun p hp => ?_).bind fun _ => writes_set (Or.inl rfl)
    obtain ⟨i, -, rfl⟩ := List.mem_map.mp hp
    exact Or.inr (inner_orderChunk _ _)

private theorem writes_editMembership (id : ObjectId)
    (f : List ObjectId → Option (List ObjectId)) :
    (editMembership id f).Writes fun q => q.1 = id ∨ Inner q.2 := by
  refine (writes_find id).bind fun r => ?_
  split
  · rename_i c
    have order : (readLayerOrder c).Writes fun q => q.1 = id ∨ Inner q.2 := by
      unfold readLayerOrder
      split
      · exact writes_chain _ _ fun l => writes_pure _
      · exact writes_pure _
    refine order.bind fun l => ?_
    dsimp only
    split
    · exact writes_storeMembership _ _ _ _ _
    · exact writes_pure ()
  · exact writes_pure ()

private theorem writes_attachLayer (id layer : ObjectId) (i : UInt32) :
    (attachLayer id layer i).Writes fun q => q.1 = id ∨ Inner q.2 := by
  refine (writes_find id).bind fun r => ?_
  split
  · refine (writes_find layer).bind fun l => ?_
    cases l with
    | none => exact writes_pure ()
    | some l => exact writes_editMembership id _
  · exact writes_pure ()

private theorem writes_setContentState (id : ObjectId) (after : StateHandle) :
    (setContentState id after).Writes fun q => Inner q.2 := by
  refine (writes_find id).bind fun r => ?_
  split
  · exact (writes_setRetained (inner_content _)).bind fun _ => writes_pure ()
  · exact writes_pure ()

private theorem writes_writeContentChain {id : ObjectId} {kind : RecordKind} {count : ℕ}
    {fill : ℕ → ObjectId → Payload} {head : ContentRecord → ObjectId}
    {onRecord : ContentRecord → ObjectId → ContentRecord}
    (h : ∀ p next, Inner (some (fill p next))) :
    (writeContentChain id kind count fill head onRecord).Writes fun q => Inner q.2 := by
  have write (base : ContentRecord) : (do
      let chunkIds ← allocateIds count
      setAll ((List.range count).reverse.map fun p =>
        (chunkIds.getD p 0, fill p (chunkIds.getD (p + 1) 0)))
      setRetained id (.content (onRecord base (chunkIds.getD 0 0))) : Script Unit).Writes
        fun q => Inner q.2 := by
    refine (writes_allocateIds _).bind fun ids => ?_
    refine (writes_setAll fun p hp => ?_).bind fun _ => writes_setRetained (inner_content _)
    obtain ⟨i, -, rfl⟩ := List.mem_map.mp hp
    exact h _ _
  refine (writes_find id).bind fun r => ?_
  split
  · rename_i base
    dsimp only
    split
    · apply (writes_chain _ _ fun l => writes_pure l).bind
      exact fun old => (writes_eraseAll fun _ _ => inner_none).bind fun _ => write base
    · exact write base
  · exact writes_pure ()

private theorem writes_setContentIdentity (id : ObjectId) (kindId params : List UInt8) :
    (setContentIdentity id kindId params).Writes fun q => Inner q.2 := by
  unfold setContentIdentity
  apply writes_writeContentChain
  rintro p next as ⟨⟩
  exact ⟨nofun, nofun⟩

private theorem writes_setContentInputs (id : ObjectId) (inputs : List ObjectId) :
    (setContentInputs id inputs).Writes fun q => Inner q.2 := by
  unfold setContentInputs
  apply writes_writeContentChain
  exact fun p next => inner_orderChunk _ next

/-- A new object is the result of the call. -/
private theorem leaves_addObject (as : Payload) :
    (addObject as).Leaves (fun id ws => ∀ q ∈ ws, id = q.1) [] := by
  intro id q hq
  rw [List.mem_singleton.mp hq]

/-- The writes of a script without a result. -/
private theorem leaves_void {P : Write → Prop} {x : Script Unit} (h : x.Writes P) :
    (Mutator.script.void x).Leaves (fun _ ws => ∀ q ∈ ws, P q) [] := by
  refine h.bind (fun _ => writes_pure _) [] ?_
  simp

namespace Mutator

variable {mu : Mutator} {id : ObjectId} {x : Script Unit}

private theorem accounted_one (hmu : ∀ result, mu.damages result = some id)
    (hx : x.Writes fun q => q.1 = id) : (script.void x).Leaves mu.Accounted [] :=
  (leaves_void hx).mono fun result ws h q hq => Or.inl ((hmu result).trans (by rw [h q hq]))

private theorem accounted_order (hmu : ∀ result, mu.damages result = some id)
    (hsilent : ∀ ws, mu.silent ws = (ws.map Prod.fst).filter (· ≠ id))
    (hx : x.Writes fun q => q.1 = id ∨ Inner q.2) : (script.void x).Leaves mu.Accounted [] := by
  refine (leaves_void hx).mono fun result ws h q hq => ?_
  by_cases hid : q.1 = id
  · exact Or.inl (hid ▸ hmu result)
  · refine Or.inr ⟨?_, (h q hq).resolve_left hid⟩
    rw [hsilent]
    exact List.mem_filter.mpr ⟨List.mem_map_of_mem hq, decide_eq_true hid⟩

private theorem accounted_setter (hsilent : ∀ ws, mu.silent ws = ws.map Prod.fst)
    (hx : x.Writes fun q => Inner q.2) : (script.void x).Leaves mu.Accounted [] := by
  refine (leaves_void hx).mono fun result ws h q hq => Or.inr ⟨?_, h q hq⟩
  rw [hsilent]
  exact List.mem_map_of_mem hq

private theorem accounted_added {y : Script ObjectId}
    (hmu : ∀ result, mu.damages result = some result)
    (hy : y.Leaves (fun id ws => ∀ q ∈ ws, id = q.1) []) : y.Leaves mu.Accounted [] :=
  hy.mono fun result ws h q hq => Or.inl ((hmu result).trans (by rw [h q hq]))

/-- What a mutator writes it damages, or it is silent about it. -/
theorem accounted (mu : Mutator) : mu.script.Leaves mu.Accounted [] := by
  cases mu with
  | addLayer content transform opacity =>
    exact accounted_added (fun _ => rfl) (leaves_addObject _)
  | addContent kind => exact accounted_added (fun _ => rfl) (leaves_addObject _)
  | addComposition w h =>
    exact accounted_added (fun _ => rfl) fun id q hq => by rw [List.mem_singleton.mp hq]
  | addCompositionAs id w h =>
    refine accounted_added (fun _ => rfl) ?_
    intro q hq
    rw [List.mem_singleton.mp hq]
  | setWorkingSpace id format => exact accounted_one (fun _ => rfl) (writes_editRecord id _)
  | setWorkingAudioFormat id format => exact accounted_one (fun _ => rfl) (writes_editRecord id _)
  | setTransform id transform => exact accounted_one (fun _ => rfl) (writes_editRecord id _)
  | setSpan id span => exact accounted_one (fun _ => rfl) (writes_editRecord id _)
  | setTimeMap id timeMap => exact accounted_one (fun _ => rfl) (writes_editRecord id _)
  | setOpacity id opacity => exact accounted_one (fun _ => rfl) (writes_editRecord id _)
  | setGain id gain => exact accounted_one (fun _ => rfl) (writes_editRecord id _)
  | setAudible id audible => exact accounted_one (fun _ => rfl) (writes_editRecord id _)
  | setVisible id visible => exact accounted_one (fun _ => rfl) (writes_editRecord id _)
  | setBlend id blend => exact accounted_one (fun _ => rfl) (writes_editRecord id _)
  | attachLayer id layer i =>
    exact accounted_order (fun _ => rfl) (fun _ => rfl) (writes_attachLayer id layer i)
  | detachLayer id layer =>
    exact accounted_order (fun _ => rfl) (fun _ => rfl) (writes_editMembership id _)
  | reorderLayer id i k =>
    exact accounted_order (fun _ => rfl) (fun _ => rfl) (writes_editMembership id _)
  | setContentState id after =>
    exact accounted_setter (fun _ => rfl) (writes_setContentState id after)
  | setContentIdentity id kindId params =>
    exact accounted_setter (fun _ => rfl) (writes_setContentIdentity id kindId params)
  | setContentInputs id inputs =>
    exact accounted_setter (fun _ => rfl) (writes_setContentInputs id inputs)
  | remove id => exact accounted_one (fun _ => rfl) (writes_removeObject id)

end Mutator

end Accounted

/-! ## Damage beside a model -/

/-- What a transaction has gathered. -/
structure Gathered where
  /-- `d_damage`. -/
  damage : List (Damage Double) := []
  /-- The objects touched without damage. The source keeps no list of them. -/
  silent : List ObjectId := []

/-- The objects for which damage was gathered. -/
def Gathered.named (g : Gathered) : List ObjectId := g.damage.map (·.object)

/-- A mutator call that returned, with its result and its writes. -/
def Gathered.call (g : Gathered) (mu : Mutator) (r : ObjectId × List Write) : Gathered where
  damage := addAllDamage g.damage (mu.damage r.1 r.2)
  silent := g.silent ++ mu.silent r.2

/-- A model with its damage. -/
structure DamagedModel where
  /-- The model. -/
  model : Model
  /-- What each transaction has gathered. -/
  gathered : ℕ → Gathered
  /-- `JournalEntry::damage`, in the order of the journal. -/
  entries : List (List (Damage Double))
  /-- What the damage sink was handed, oldest first. -/
  flushed : List (List (Damage Double))

/-- What happens to a model with its damage. -/
inductive DamageEvent where
  /-- An event of the model. -/
  | model (e : ModelEvent)
  /-- `Transaction::add_damage`, called by the owner of the transaction. -/
  | addDamage (i : ℕ) (d : Damage Double)

/-- The result and the writes of a mutator that returns without an error; the run is the one of
`mutate`. -/
def Model.written (s : Model) (t i : ℕ) (mu : Mutator) : Option (ObjectId × List Write) :=
  match s.transaction? i with
  | some txn =>
    match (mu.script.trace []).interp t txn.publishRevision
        ⟨s.arena, s.nextId, txn.root, txn.touched, txn.contents⟩ with
    | .ok r _ => if txn.status.isSome then none else some r
    | _ => none
  | none => none

/-- Mutators one after the other, with the damage they gather. -/
def Script.gather : List Mutator → List (Damage Double) → Script (List (Damage Double))
  | [], damage => .done damage
  | mu :: ms, damage => do
    let r ← mu.script.trace []
    Script.gather ms (addAllDamage damage (mu.damage r.1 r.2))

/-- The damage that the transaction of a baseline gathers; the run is the one of
`load_baseline`. -/
def baselineDamage (t : ℕ) (ms : List Mutator) : ModelExec (List (Damage Double)) := do
  let d ← currentVersion
  onHeap (copyRoot d.root)
  zoom (fun s : Model => ⟨s.arena, s.nextId, d.root, [], []⟩) (fun _ s => s) id
    ((Script.gather ms []).interp t 0)

namespace DamagedModel

/-- A list of damage is handed to the sink. -/
def flush (p : DamagedModel) (damage : List (Damage Double)) : DamagedModel :=
  { p with flushed := p.flushed ++ [damage] }

/-- Replace what a transaction has gathered. -/
def setGathered (p : DamagedModel) (i : ℕ) (g : Gathered) : DamagedModel :=
  { p with gathered := Function.update p.gathered i g }

@[simp]
theorem gathered_setGathered_self (p : DamagedModel) (i : ℕ) (g : Gathered) :
    (p.setGathered i g).gathered i = g := Function.update_self ..

theorem gathered_setGathered_of_ne {i j : ℕ} (h : i ≠ j) (p : DamagedModel) (g : Gathered) :
    (p.setGathered j g).gathered i = p.gathered i := Function.update_of_ne h ..

/-- A draft is published: its damage goes to the sink and to the journal entry. -/
def commit (p : DamagedModel) (i : ℕ) (d : Draft) : DamagedModel :=
  let damage := (p.gathered i).damage
  let session := p.model.session
  { p.flush damage with
    entries :=
      if session.journaled then
        session.journal.annotate d.entry (addAllDamage · damage) damage p.entries
      else p.entries }

/-- The damage after an event that leaves the model `s'`. -/
def follow (p : DamagedModel) (s' : Model) (e : ModelEvent) : DamagedModel :=
  match e with
  | .transact => p.setGathered p.model.transactions.length {}
  | .mutate t i mu =>
    match p.model.written t i mu with
    | some r => p.setGathered i ((p.gathered i).call mu r)
    | none => p
  | .commit i =>
    match p.model.session.draft? i with
    | some d => if s'.current = p.model.current then p else p.commit i d
    | none => p
  | .abort i =>
    if (p.model.transaction? i).any Transaction.isOpen then p.setGathered i {} else p
  | .undo _ =>
    if s'.current = p.model.current then p
    else p.flush ((p.entries[s'.journal.cursor]?).getD [])
  | .redo _ =>
    if s'.current = p.model.current then p
    else p.flush ((p.entries[p.model.journal.cursor]?).getD [])
  | .setByteBudget _ =>
    { p with entries := p.entries.drop (p.model.journal.entries.length -
        s'.journal.entries.length) }
  | .loadBaseline t ms =>
    match (baselineDamage t ms).run p.model with
    | .ok damage _ => if s'.current = p.model.current then p else p.flush damage
    | _ => p
  | _ => p

end DamagedModel

/-- All runs of a model with its damage. A damage sink is installed. -/
def damagedModel : Machine DamagedModel DamageEvent where
  start p := p.model.IsStart ∧ p.gathered = (fun _ => {}) ∧ p.entries = [] ∧ p.flushed = []
  step e p :=
    match e with
    | .model e => (docModel.step e p.model).map fun s' => { p.follow s' e with model := s' }
    | .addDamage i d =>
      if (p.model.transaction? i).isSome then
        some (p.setGathered i { p.gathered i with damage := addDamage (p.gathered i).damage d })
      else none

/-- A model that has damaged nothing. -/
def DamagedModel.ofModel (s : Model) : DamagedModel := ⟨s, fun _ => {}, [], []⟩

theorem start_ofModel {s : Model} (h : docModel.start s) :
    damagedModel.start (DamagedModel.ofModel s) := ⟨h, rfl, rfl, rfl⟩

/-! ## What a mutator leaves in its draft -/

section Runs

variable {s s' : Model} {t i : ℕ} {mu : Mutator} {d d' : Draft}

namespace Model

/-- A draft is that of a transaction. -/
theorem exists_transaction (h : s.session.draft? i = some d) :
    ∃ txn, s.transaction? i = some txn ∧ d = s.draft txn := by
  rw [Session.draft?, session, List.getElem?_map, Option.join_eq_some_iff] at h
  obtain ⟨o, ho, heq⟩ := Option.map_eq_some_iff.mp h
  obtain ⟨txn, rfl, rfl⟩ := Option.map_eq_some_iff.mp heq
  exact ⟨txn, Option.join_eq_some_iff.mpr ho, rfl⟩

/-- The draft of a transaction that was replaced. -/
private theorem draft_of_setTransaction {txn : Transaction}
    (h : (s.setTransaction i (some txn)).session.draft? i = some d) : d = s.draft txn := by
  rw [session_setTransaction] at h
  rcases Session.draft?_setDraft h with ⟨-, heq⟩ | ⟨hne, -⟩
  · exact (Option.some.inj heq).symm
  · exact absurd rfl hne

/-- What a mutator call did to a draft that can still be published. -/
structure WroteDraft (mu : Mutator) (d d' : Draft) (r : ObjectId × List Write) : Prop where
  /-- What was written is accounted for. -/
  accounted : mu.Accounted r.1 r.2
  /-- Nothing else was touched. -/
  touched : d'.touched ⊆ d.touched ++ r.2.map Prod.fst
  /-- The map has what was written. -/
  readsBack : d'.map.ReadsBack r.2
  /-- The rest is as it was. -/
  same : ∀ k ∉ r.2.map Prod.fst, d'.map k = d.map k

/-- A mutator that returns without an error has its writes in the draft. -/
theorem wrote_of_mutate (h : s.Inv) (hs : docModel.step (.mutate t i mu) s = some s')
    (hd : s.session.draft? i = some d) (hd' : s'.session.draft? i = some d')
    (hold : d.status = none) (hnew : d'.status = none) :
    ∃ r, s.written t i mu = some r ∧ WroteDraft mu d d' r := by
  obtain ⟨txn, ht, rfl⟩ := exists_transaction hd
  have hwp : wp (mutate t i mu)
      (fun _ s' => ∀ d', s'.session.draft? i = some d' → d'.status = none →
        ∃ r, s.written t i mu = some r ∧ WroteDraft mu (s.draft txn) d' r)
      (fun _ s' => ∀ d', s'.session.draft? i = some d' → d'.status = none →
        ∃ r, s.written t i mu = some r ∧ WroteDraft mu (s.draft txn) d' r)
      (fun _ => True) s := by
    simp only [mutate, wp_bind]
    refine wp_transaction trivial fun txn' ht' => ?_
    obtain rfl : txn = txn' := Option.some.inj (ht.symm.trans ht')
    refine wp_ite (fun hsome => ?_) fun hstatus => ?_
    · rw [show txn.status = none from hold] at hsome
      cases hsome
    have hmem := some_mem_of_transaction? ht
    have howned := h.owned
    rw [zero_add, heldRefs_eq ht] at howned
    have hok : (⟨s.arena, s.nextId, txn.root, txn.touched, txn.contents⟩ : Working).Ok
        (s.setTransaction i none).heldRefs := ⟨howned, h.transaction_isMap txn hmem⟩
    rw [wp_bind]
    unfold wp runScript
    cases hrun : mu.script.interp t txn.publishRevision
        ⟨s.arena, s.nextId, txn.root, txn.touched, txn.contents⟩ with
    | ok a w =>
      intro d' hd' _
      obtain rfl := draft_of_setTransaction hd'
      obtain ⟨ws, htrace⟩ := Script.exists_trace hrun []
      obtain ⟨hwrote, hleaves⟩ := Script.trace_spec hok htrace
      refine ⟨(a, ws), ?_, hleaves _ mu.accounted, hwrote.touched, hwrote.readsBack, hwrote.same⟩
      rw [written, ht]
      simp only [htrace, if_neg hstatus]
    | error e w =>
      intro d' hd' hnone
      obtain rfl := draft_of_setTransaction hd'
      cases hnone
    | fault f => trivial
  exact of_wp_state (P := fun s' : Model => ∀ d', s'.session.draft? i = some d' →
    d'.status = none → ∃ r, s.written t i mu = some r ∧ WroteDraft mu (s.draft txn) d' r)
    hwp hs d' hd' hnew

end Model

/-! ## Runs -/

/-- An object touched is named by the damage, or it was touched in silence and is no layer or
composition. -/
def Gathered.Tells (g : Gathered) (m : DocMap) (k : ObjectId) : Prop :=
  k ∈ g.named ∨ k ∈ g.silent ∧ Inner (m.payloads k)

section Tells

variable {g : Gathered} {r : ObjectId × List Write} {k : ObjectId}

private theorem mem_named_call : k ∈ (g.call mu r).named ↔
    k ∈ g.named ∨ k ∈ (mu.damage r.1 r.2).map (·.object) := mem_objects_addAllDamage

private theorem Gathered.Tells.call {m : DocMap} (h : g.Tells m k) (mu : Mutator)
    (r : ObjectId × List Write) : (g.call mu r).Tells m k :=
  h.imp (fun hk => mem_named_call.mpr (Or.inl hk)) fun hk =>
    ⟨List.mem_append_left _ hk.1, hk.2⟩

/-- A written object that the mutator damages is named. -/
private theorem mem_damage (hk : k ∈ r.2.map Prod.fst) (hmu : mu.damages r.1 = some k) :
    k ∈ (mu.damage r.1 r.2).map (·.object) := by
  simp only [Mutator.damage, hmu, if_pos hk, List.map_singleton, List.mem_singleton]

/-- After a call all that was touched is told. -/
private theorem Model.WroteDraft.tells (h : WroteDraft mu d d' r)
    (hold : ∀ k ∈ d.touched, g.Tells d.map k) : ∀ k ∈ d'.touched, (g.call mu r).Tells d'.map k := by
  intro k hk
  by_cases hw : k ∈ r.2.map Prod.fst
  · -- the record the map has is one of those accounted for
    rcases h.accounted _ (h.readsBack k hw) with hdamaged | ⟨hsilent, hinner⟩
    · exact Or.inl (mem_named_call.mpr (Or.inr (mem_damage hw hdamaged)))
    · exact Or.inr ⟨List.mem_append_right _ hsilent, hinner⟩
  · have hkd := (List.mem_append.mp (h.touched hk)).resolve_right hw
    have htold := (hold k hkd).call mu r
    unfold Gathered.Tells DocMap.payloads at htold ⊢
    rwa [h.same k hw]

end Tells

/-- Only a mutator and a new transaction touch anything: otherwise a draft that can be published
could be published before, with the same map. -/
private theorem pending_of_step {s s' : Session} {e : ModelEvent} (h : Session.Step e s s')
    (htransact : e ≠ .transact) (hmutate : ∀ t i mu, e ≠ .mutate t i mu)
    (hd' : s'.draft? i = some d') (hp : d'.Pending) :
    ∃ d, s.draft? i = some d ∧ d.Pending ∧ d'.touched = d.touched ∧ d'.map = d.map := by
  have replaced {j : ℕ} {o : Option Draft} {s₁ : Session} (hs₁ : s₁.drafts = (s.setDraft j o).drafts)
      (hd₁ : s₁.draft? i = some d')
      (ho : ∀ d₂ ∈ o, d₂.Pending →
        ∃ d, s.draft? j = some d ∧ d.Pending ∧ d₂.touched = d.touched ∧ d₂.map = d.map) :
      ∃ d, s.draft? i = some d ∧ d.Pending ∧ d'.touched = d.touched ∧ d'.map = d.map := by
    rw [Session.draft?, hs₁] at hd₁
    rcases Session.draft?_setDraft hd₁ with ⟨rfl, rfl⟩ | ⟨-, hd⟩
    · exact ho d' rfl hp
    · exact ⟨d', hd, hp, rfl, rfl⟩
  have closed {d₂ : Draft} (h₂ : d₂.isOpen = false) (hp₂ : d₂.Pending) : False := by
    rw [hp₂.1] at h₂
    cases h₂
  cases h with
  | stay => exact ⟨d', hd', hp, rfl, rfl⟩
  | transact => exact absurd rfl htransact
  | mutate => exact absurd rfl (hmutate _ _ _)
  | @coalesce _ j d key hd =>
    refine replaced rfl hd' ?_
    rintro d₂ ⟨⟩ hp₂
    exact ⟨d, hd, hp₂, rfl, rfl⟩
  | @fail _ j d err hd =>
    refine replaced rfl hd' ?_
    rintro d₂ ⟨⟩ hp₂
    cases hp₂.2
  | @commit _ j d hd hpending =>
    refine replaced rfl hd' ?_
    rintro d₂ ⟨⟩ hp₂
    exact (closed rfl hp₂).elim
  | @abort _ j d hd =>
    refine replaced rfl hd' ?_
    rintro d₂ ⟨⟩ hp₂
    exact (closed rfl hp₂).elim
  | destroy hd =>
    refine replaced rfl hd' ?_
    rintro d₂ ⟨⟩
  | undo => exact ⟨d', hd', hp, rfl, rfl⟩
  | redo => exact ⟨d', hd', hp, rfl, rfl⟩
  | setByteBudget => exact ⟨d', hd', hp, rfl, rfl⟩
  | loadBaseline => exact ⟨d', hd', hp, rfl, rfl⟩

end Runs

namespace DamagedModel

variable {p p' : DamagedModel} {e : DamageEvent} {i : ℕ}

/-- Every draft that can still be published has told what it touched. -/
structure Covered (p : DamagedModel) : Prop where
  /-- The invariant of the model. -/
  inv : p.model.Inv
  /-- The drafts fit their base. -/
  wf : p.model.session.Wf
  /-- What is touched is told. -/
  told : ∀ i d, p.model.session.draft? i = some d → d.Pending →
    ∀ k ∈ d.touched, (p.gathered i).Tells d.map k

/-- An event that is neither a new transaction, a mutator nor an abort gathers nothing. -/
private theorem follow_gathered (p : DamagedModel) (s' : Model) {e : ModelEvent}
    (htransact : e ≠ .transact) (hmutate : ∀ t i mu, e ≠ .mutate t i mu)
    (habort : ∀ i, e ≠ .abort i) :
    (p.follow s' e).gathered = p.gathered := by
  cases e with
  | transact => exact absurd rfl htransact
  | mutate t i mu => exact absurd rfl (hmutate t i mu)
  | abort i => exact absurd rfl (habort i)
  | commit i =>
    simp only [follow]
    split
    · split <;> rfl
    · rfl
  | undo t =>
    simp only [follow]
    split <;> rfl
  | redo t =>
    simp only [follow]
    split <;> rfl
  | loadBaseline t ms =>
    simp only [follow]
    split
    · split <;> rfl
    · rfl
  | _ => rfl

/-- A new transaction has touched nothing. -/
private theorem Covered.told_transact (h : p.Covered) {s' : Model} {d' : Draft} {k : ObjectId}
    (hstep : Session.Step .transact p.model.session s'.session)
    (hd' : s'.session.draft? i = some d') (hp : d'.Pending) (hk : k ∈ d'.touched) :
    ((p.follow s' .transact).gathered i).Tells d'.map k := by
  have hlength : p.model.session.drafts.length = p.model.transactions.length := List.length_map _
  have old {d : Draft} (hd : p.model.session.draft? i = some d) (hp : d.Pending)
      (hk : k ∈ d.touched) : ((p.follow s' .transact).gathered i).Tells d.map k := by
    have hlt : i < p.model.transactions.length := by
      rw [← hlength]
      rw [Session.draft?, Option.join_eq_some_iff] at hd
      exact (List.getElem?_eq_some_iff.mp hd).1
    rw [follow, gathered_setGathered_of_ne hlt.ne]
    exact h.told i d hd hp k hk
  generalize hs' : s'.session = b at hstep hd'
  generalize hs : p.model.session = a at hstep hlength old
  cases hstep with
  | stay => exact old hd' hp hk
  | transact =>
    rw [Session.draft?, Option.join_eq_some_iff] at hd'
    rcases Nat.lt_or_ge i a.drafts.length with hlt | hge
    · rw [List.getElem?_append_left hlt] at hd'
      exact old (Option.join_eq_some_iff.mpr hd') hp hk
    · rw [List.getElem?_append_right hge] at hd'
      obtain hmem := List.mem_of_getElem? hd'
      obtain rfl : d' = a.fork := Option.some.inj (List.mem_singleton.mp hmem)
      exact absurd hk List.not_mem_nil

/-- A mutator tells what it touched. -/
private theorem Covered.told_mutate (h : p.Covered) {s' : Model} {t j : ℕ} {mu : Mutator}
    {d' : Draft} (hs : docModel.step (.mutate t j mu) p.model = some s')
    (hd' : s'.session.draft? i = some d') (hp : d'.Pending) :
    ∀ k ∈ d'.touched, ((p.follow s' (.mutate t j mu)).gathered i).Tells d'.map k := by
  -- a draft that did not change is told at least what it was told before
  have old {d : Draft} (hd : p.model.session.draft? i = some d) (hp : d.Pending) :
      ∀ k ∈ d.touched, ((p.follow s' (.mutate t j mu)).gathered i).Tells d.map k := by
    intro k hk
    have htold := h.told i d hd hp k hk
    simp only [follow]
    split
    · rename_i r _
      by_cases hij : i = j
      · subst hij
        rw [gathered_setGathered_self]
        exact htold.call mu r
      · rwa [gathered_setGathered_of_ne hij]
    · exact htold
  have hstep := (Model.step_spec h.inv hs).2
  have hwrote {d d' : Draft} (hd : p.model.session.draft? j = some d)
      (hd' : s'.session.draft? j = some d') (hold : d.status = none) (hnew : d'.status = none) :=
    Model.wrote_of_mutate h.inv hs hd hd' hold hnew
  generalize hs₁ : s'.session = b at hstep hd' hwrote
  generalize hs₀ : p.model.session = a at hstep old hwrote
  cases hstep with
  | stay => exact old hd' hp
  | @mutate _ _ _ _ d d₂ hd hedit =>
    rcases Session.draft?_setDraft hd' with ⟨rfl, heq⟩ | ⟨-, hd'⟩
    · obtain rfl : d₂ = d' := Option.some.inj heq
      obtain ⟨r, hr, hdraft⟩ := hwrote hd hd' hedit.status_eq hp.2
      have hpd : d.Pending := ⟨hedit.isOpen_eq ▸ hp.1, hedit.status_eq⟩
      simp only [follow, hr, gathered_setGathered_self]
      exact hdraft.tells (h.told i d (hs₀ ▸ hd) hpd)
    · exact old hd' hp

/-- A draft that is still open was not aborted. -/
private theorem Covered.told_abort (h : p.Covered) {s' : Model} {j : ℕ} {d' : Draft}
    (hs : docModel.step (.abort j) p.model = some s') (hd' : s'.session.draft? i = some d')
    (hp : d'.Pending) :
    ∀ k ∈ d'.touched, ((p.follow s' (.abort j)).gathered i).Tells d'.map k := by
  obtain ⟨-, d, hd, hsession⟩ := of_wp_state
    (P := fun s' : Model => s'.Inv ∧ ∃ d, p.model.session.draft? j = some d ∧ s'.session =
      if d.isOpen then
        p.model.session.setDraft j (some { Session.close d with touched := [], contents := [] })
      else p.model.session)
    (wp_imp (Model.abort_spec h.inv) (fun _ _ h => h) fun _ _ hE => hE.elim) hs
  obtain ⟨txn, ht, rfl⟩ := Model.exists_transaction hd
  simp only [follow, ht, Option.any_some]
  rw [hsession] at hd'
  split at hd'
  · rename_i hopen
    rw [if_pos (show txn.isOpen = true from hopen)]
    rcases Session.draft?_setDraft hd' with ⟨-, heq⟩ | ⟨hne, hd'⟩
    · cases heq
      exact absurd hp.1 Bool.false_ne_true
    · rw [gathered_setGathered_of_ne hne]
      exact h.told i d' hd' hp
  · rename_i hopen
    rw [if_neg (show ¬ txn.isOpen = true from hopen)]
    exact h.told i d' hd' hp

/-- One step keeps it. -/
theorem Covered.step (h : p.Covered) (hs : damagedModel.step e p = some p') : p'.Covered := by
  cases e with
  | addDamage j c =>
    simp only [damagedModel] at hs
    split at hs
    · cases hs
      refine ⟨h.inv, h.wf, fun i d hd hp k hk => ?_⟩
      have htold := h.told i d hd hp k hk
      by_cases hi : i = j
      · subst hi
        refine htold.imp (fun hk => ?_) fun hk => ?_
        · rw [gathered_setGathered_self, Gathered.named]
          exact mem_objects_addDamage.mpr (Or.inl hk)
        · rwa [gathered_setGathered_self]
      · rwa [gathered_setGathered_of_ne hi]
    · cases hs
  | model e =>
    obtain ⟨s', hs', rfl⟩ := Option.map_eq_some_iff.mp hs
    obtain ⟨hinv, hstep⟩ := Model.step_spec h.inv hs'
    refine ⟨hinv, hstep.wf h.wf, fun i d' hd' hp k hk => ?_⟩
    change ((p.follow s' e).gathered i).Tells d'.map k
    have other (htransact : e ≠ .transact) (hmutate : ∀ t i mu, e ≠ .mutate t i mu)
        (habort : ∀ i, e ≠ .abort i) : ((p.follow s' e).gathered i).Tells d'.map k := by
      obtain ⟨d, hd, hpd, htouched, hmap⟩ := pending_of_step hstep htransact hmutate hd' hp
      rw [p.follow_gathered s' htransact hmutate habort, hmap]
      exact h.told i d hd hpd k (htouched ▸ hk)
    cases e with
    | transact => exact h.told_transact hstep hd' hp hk
    | mutate t j mu => exact h.told_mutate hs' hd' hp k hk
    | abort j => exact h.told_abort hs' hd' hp k hk
    | _ => exact other (by simp) (by simp) (by simp)

/-- In every run the drafts have told what they touched. -/
theorem covered {allowed : DamageEvent → DamagedModel → Prop}
    (h : damagedModel.Reachable allowed p) : p.Covered := by
  refine h.invariant (fun p hp => ?_) fun p e p' hp _ hs => hp.step hs
  have hinv := hp.1.inv
  obtain ⟨⟨_, _, _, _, _, _, _, -, hmodel⟩, -⟩ := hp
  have hdrafts : p.model.session.drafts = [] := by
    rw [hmodel]
    rfl
  refine ⟨hinv, ⟨?_, ?_, ?_⟩, ?_⟩
  · simp [hdrafts]
  · simp [hdrafts]
  · simp [hdrafts]
  · simp [Session.draft?, hdrafts]

/-! ## Atomicity -/

/-- The published version, the journal and the damage handed to the sink are the same. -/
structure SameDocument (p p' : DamagedModel) : Prop where
  /-- The version. -/
  current : p'.model.session.current = p.model.session.current
  /-- Its revision. -/
  revision : p'.model.session.revision = p.model.session.revision
  /-- Its map. -/
  map : p'.model.session.map = p.model.session.map
  /-- The entries, the cursor and the total cost. -/
  journal : p'.model.session.journal = p.model.session.journal
  /-- The damage. -/
  flushed : p'.flushed = p.flushed

/-- What a commit of a draft leaves behind, and what it told of its edits. -/
structure Committed (p p' : DamagedModel) (i : ℕ) (d : Draft) : Prop where
  /-- A new version is published. -/
  current : p'.model.session.current = p.model.session.current + 1
  /-- It has the revision of the transaction. -/
  revision : p'.model.session.revision = d.publishRevision
  /-- It is the working map. -/
  map : p'.model.session.map = d.map
  /-- The journal, if there is one, was handed the entry. -/
  journal : p'.model.session.journal = if p.model.session.journaled then
    (p.model.session.journal.onCommit d.entry).1 else p.model.session.journal
  /-- The entry is about the objects touched or changed. -/
  keys : ∀ k, k ∈ d.entry.objects.map ObjectEdit.object ↔
    d.baseMap k ≠ p'.model.session.map k ∨ k ∈ d.touched
  /-- Its records are those of the base and of the published version. -/
  records : ∀ oe ∈ d.entry.objects, oe.before = d.baseMap oe.object ∧
    oe.after = p'.model.session.map oe.object
  /-- The damage gathered was flushed, once. -/
  flushed : p'.flushed = p.flushed ++ [(p.gathered i).damage]
  /-- The damage names what was touched, but for what was touched in silence. -/
  named : ∀ k ∈ d.touched, k ∈ (p.gathered i).named ∨ k ∈ (p.gathered i).silent
  /-- It names every layer and composition that was touched. -/
  shown : ∀ k ∈ d.touched, ∀ as, p'.model.session.map.payloads k = some as →
    as.kind = .layer ∨ as.kind = .composition → k ∈ (p.gathered i).named

end DamagedModel

/-- Whether a commit returns success. -/
def Model.Commits (s : Model) (i : ℕ) : Prop := ∃ s', (commit i).run s = .ok () s'

/-- The operations of a transaction, and a commit that does not return success. -/
def DamageEvent.Edits (p : DamagedModel) : DamageEvent → Prop
  | .addDamage _ _ => True
  | .model e =>
    match e with
    | .transact | .mutate _ _ _ | .coalesce _ _ | .abort _ | .destroy _ => True
    | .commit i => ¬ p.model.Commits i
    | _ => False

namespace DamagedModel

variable {p p' : DamagedModel} {e : DamageEvent} {i : ℕ} {d : Draft}

/-- The keys of the entry of a draft. -/
private theorem mem_entry_objects (hd : d.Framed) (k : ObjectId) :
    k ∈ d.entry.objects.map ObjectEdit.object ↔ d.baseMap k ≠ d.map k ∨ k ∈ d.touched := by
  have hkeys : d.entry.objects.map ObjectEdit.object = d.touched := by
    simp [Draft.entry, Function.comp_def]
  rw [hkeys]
  refine ⟨Or.inr, ?_⟩
  rintro (hne | hk)
  · by_contra hk
    exact hne (hd.frame k hk).symm
  · exact hk

/-- An edit of a session is not seen outside of its draft. -/
private theorem sameDocument_of_step {s s' : Session} {e : ModelEvent} (h : Session.Step e s s')
    (he : DamageEvent.Edits p (.model e)) (hcommit : ∀ i, e ≠ .commit i) :
    s'.current = s.current ∧ s'.revision = s.revision ∧ s'.map = s.map ∧
      s'.journal = s.journal := by
  cases h with
  | commit => exact absurd rfl (hcommit _)
  | undo => exact he.elim
  | redo => exact he.elim
  | setByteBudget => exact he.elim
  | loadBaseline => exact he.elim
  | _ => exact ⟨rfl, rfl, rfl, rfl⟩

/-- A commit that publishes nothing flushes nothing. -/
private theorem sameDocument_of_commit {s' : Model} (hcurrent : s'.session.current =
      p.model.session.current) (hrevision : s'.session.revision = p.model.session.revision)
    (hmap : s'.session.map = p.model.session.map)
    (hjournal : s'.session.journal = p.model.session.journal) :
    SameDocument p { p.follow s' (.commit i) with model := s' } := by
  have hsame : s'.current = p.model.current := hcurrent
  refine ⟨hcurrent, hrevision, hmap, hjournal, ?_⟩
  simp only [follow]
  split
  · rw [if_pos hsame]
  · rfl

/-- A commit that fails is not seen. -/
private theorem sameDocument_of_failed (h : p.Covered) {s' : Model}
    (hs : docModel.step (.commit i) p.model = some s') (hfail : ¬ p.model.Commits i) :
    SameDocument p { p.follow s' (.commit i) with model := s' } := by
  change (((ArbitraryComposer.commit i).run p.model).state? = some s') at hs
  cases hrun : (ArbitraryComposer.commit i).run p.model with
  | ok u s'' => exact absurd ⟨s'', hrun⟩ hfail
  | error err s'' =>
    rw [hrun] at hs
    cases hs
    rcases (of_wp_error (Model.commit_spec h.inv) hrun).2 with hsession | ⟨d, _, -, hsession⟩
    · exact sameDocument_of_commit (by rw [hsession]) (by rw [hsession]) (by rw [hsession])
        (by rw [hsession])
    · exact sameDocument_of_commit (by rw [hsession]; rfl) (by rw [hsession]; rfl)
        (by rw [hsession]; rfl) (by rw [hsession]; rfl)
  | fault f =>
    rw [hrun] at hs
    cases hs

/-- A commit that succeeds publishes and tells all, or finds the transaction closed. -/
private theorem committed_of_succeeded (h : p.Covered) {s' : Model}
    (hs : docModel.step (.commit i) p.model = some s') (hok : p.model.Commits i) :
    ∃ d, p.model.session.draft? i = some d ∧ d.status = none ∧
      (d.isOpen = false → SameDocument p { p.follow s' (.commit i) with model := s' }) ∧
      (d.isOpen = true → Committed p { p.follow s' (.commit i) with model := s' } i d) := by
  obtain ⟨s₁, hrun⟩ := hok
  change (((ArbitraryComposer.commit i).run p.model).state? = some s') at hs
  rw [hrun] at hs
  cases hs
  obtain ⟨-, d, hd, hstatus, hsession⟩ := of_wp_ok (Model.commit_spec h.inv) hrun
  refine ⟨d, hd, hstatus, fun hclosed => ?_, fun hopen => ?_⟩
  · rw [if_neg (by rw [hclosed]; exact Bool.false_ne_true)] at hsession
    exact sameDocument_of_commit (by rw [hsession]) (by rw [hsession]) (by rw [hsession])
      (by rw [hsession])
  · rw [if_pos hopen] at hsession
    have hmap : s'.session.map = d.map := by
      rw [hsession]
      rfl
    have hne : s'.current ≠ p.model.current := by
      change s'.session.current ≠ p.model.session.current
      rw [hsession]
      exact Nat.succ_ne_self _
    have hframed := h.wf.framed d (Session.some_mem_of_draft? hd) hopen
    have htold := h.told i d hd ⟨hopen, hstatus⟩
    refine ⟨by rw [hsession]; rfl, by rw [hsession]; rfl, hmap, by rw [hsession]; rfl, ?_, ?_, ?_,
      fun k hk => (htold k hk).imp_right And.left, ?_⟩
    · intro k
      change k ∈ _ ↔ d.baseMap k ≠ s'.session.map k ∨ _
      rw [hmap]
      exact mem_entry_objects hframed k
    · intro oe hoe
      change _ ∧ oe.after = s'.session.map oe.object
      obtain ⟨k, -, rfl⟩ := List.mem_map.mp hoe
      rw [hmap]
      exact ⟨rfl, rfl⟩
    · simp only [follow, hd, if_neg hne]
      rfl
    · intro k hk as has hkind
      change s'.session.map.payloads k = some as at has
      rw [hmap] at has
      -- what was touched in silence is no layer or composition
      refine (htold k hk).resolve_right fun hsilent => ?_
      obtain ⟨hlayer, hcomposition⟩ := hsilent.2 as has
      exact hkind.elim hlayer hcomposition

/-- In every run, whatever the allocator refuses, the operations of a transaction and the commits
that fail leave the document, the journal and the damage as they were. A commit that succeeds on an
open transaction publishes it, hands the journal the records of the objects touched, and flushes
damage for every layer and composition among them. -/
theorem commit_atomic (hp : damagedModel.Reachable Machine.anyEvent p)
    (hs : damagedModel.step e p = some p') :
    (e.Edits p → SameDocument p p') ∧
      ∀ i, e = .model (.commit i) → p.model.Commits i →
        ∃ d, p.model.session.draft? i = some d ∧ d.status = none ∧
          (d.isOpen = false → SameDocument p p') ∧ (d.isOpen = true → Committed p p' i d) := by
  have hcovered := covered hp
  constructor
  · intro hedits
    cases e with
    | addDamage j c =>
      simp only [damagedModel] at hs
      split at hs
      · cases hs
        exact ⟨rfl, rfl, rfl, rfl, rfl⟩
      · cases hs
    | model e =>
      obtain ⟨s', hs', rfl⟩ := Option.map_eq_some_iff.mp hs
      have hstep := (Model.step_spec hcovered.inv hs').2
      have other (hcommit : ∀ i, e ≠ .commit i)
          (hflushed : (p.follow s' e).flushed = p.flushed) :
          SameDocument p { p.follow s' e with model := s' } := by
        obtain ⟨hcurrent, hrevision, hmap, hjournal⟩ := sameDocument_of_step hstep hedits hcommit
        exact ⟨hcurrent, hrevision, hmap, hjournal, hflushed⟩
      cases e with
      | commit j => exact sameDocument_of_failed hcovered hs' hedits
      | transact => exact other (by simp) rfl
      | mutate t j mu =>
        refine other (by simp) ?_
        simp only [follow]
        split <;> rfl
      | abort j =>
        refine other (by simp) ?_
        simp only [follow]
        split <;> rfl
      | coalesce j key => exact other (by simp) rfl
      | destroy j => exact other (by simp) rfl
      | _ => exact hedits.elim
  · rintro j rfl hok
    obtain ⟨s', hs', rfl⟩ := Option.map_eq_some_iff.mp hs
    exact committed_of_succeeded hcovered hs' hok

/-- A content is added and its construction identity is recorded, in a chunk of its own. -/
private def identityRun : List DamageEvent :=
  [.model .transact, .model (.mutate 0 0 (.addContent 7)),
    .model (.mutate 0 0 (.setContentIdentity 1 [97] []))]

/-- The first transaction is open and has touched the chunk, its damage does not name the chunk,
and a commit of it succeeds. -/
private def chunkUnnamed (p : DamagedModel) : Bool :=
  (p.model.session.draft? 0).any (fun d => d.isOpen && decide (2 ∈ d.touched)) &&
    decide (2 ∉ (p.gathered 0).named) &&
    match (ArbitraryComposer.commit 0).run p.model with
    | .ok _ _ => true
    | _ => false

private theorem exists_chunkUnnamed :
    ∃ p, damagedModel.Reachable Machine.anyEvent p ∧ chunkUnnamed p = true :=
  Machine.exists_reachable (M := damagedModel) Machine.anyEvent identityRun chunkUnnamed
    (start_ofModel start_emptyModel) (Machine.runAllowed_anyEvent _ _) (by decide +kernel)

/-- What the run leads to. -/
private theorem chunkUnnamed_spec (h : chunkUnnamed p = true) :
    (∃ d, p.model.session.draft? 0 = some d ∧ d.isOpen = true ∧ 2 ∈ d.touched) ∧
      2 ∉ (p.gathered 0).named ∧ p.model.Commits 0 ∧
      ∃ p', damagedModel.step (.model (.commit 0)) p = some p' := by
  simp only [chunkUnnamed, Bool.and_eq_true, decide_eq_true_eq, Option.any_eq_true] at h
  obtain ⟨⟨⟨d, hd, hopen, htouched⟩, hnamed⟩, hrun⟩ := h
  split at hrun
  · rename_i s' hs'
    refine ⟨⟨d, hd, hopen, htouched⟩, hnamed, ⟨s', hs'⟩,
      { p.follow s' (.commit 0) with model := s' }, ?_⟩
    have hstep : docModel.step (.commit 0) p.model = some s' := by
      change ((ArbitraryComposer.commit 0).run p.model).state? = some s'
      rw [hs']
      rfl
    simp only [damagedModel, hstep, Option.map_some]
  · cases hrun

theorem commit_atomic_identity : ∃ p p' d, damagedModel.Reachable Machine.anyEvent p ∧
    damagedModel.step (.model (.commit 0)) p = some p' ∧ 2 ∈ d.touched ∧
    Committed p p' 0 d := by
  obtain ⟨p, hp, hchunk⟩ := exists_chunkUnnamed
  obtain ⟨⟨d, hd, hopen, htouched⟩, -, hok, p', hs⟩ := chunkUnnamed_spec hchunk
  obtain ⟨d', hd', -, -, hcommitted⟩ := (commit_atomic hp hs).2 0 rfl hok
  obtain rfl : d = d' := Option.some.inj (hd.symm.trans hd')
  exact ⟨p, p', d, hp, hs, htouched, hcommitted hopen⟩

/-- The damage a commit delivers does not name every object touched. -/
theorem not_commit_names_touched : ¬ ∀ (p p' : DamagedModel) (i : ℕ) (d : Draft),
    damagedModel.Reachable Machine.anyEvent p →
      damagedModel.step (.model (.commit i)) p = some p' → p.model.Commits i →
      p.model.session.draft? i = some d → d.isOpen = true →
      ∃ damage, p'.flushed = p.flushed ++ [damage] ∧
        ∀ k ∈ d.touched, k ∈ damage.map (·.object) := by
  intro hall
  obtain ⟨p, hp, hchunk⟩ := exists_chunkUnnamed
  obtain ⟨⟨d, hd, hopen, htouched⟩, hnamed, hok, p', hs⟩ := chunkUnnamed_spec hchunk
  obtain ⟨s', hs', rfl⟩ := Option.map_eq_some_iff.mp hs
  obtain ⟨damage, hflushed, hnames⟩ := hall p _ 0 d hp hs hok hd hopen
  obtain ⟨d', hd', -, -, hcommitted⟩ := committed_of_succeeded (covered hp) hs' hok
  obtain rfl : d = d' := Option.some.inj (hd.symm.trans hd')
  have heq := (hcommitted hopen).flushed.symm.trans hflushed
  obtain rfl : (p.gathered 0).damage = damage := by simpa using heq
  exact hnamed (hnames 2 htouched)

end DamagedModel

end ArbitraryComposer
