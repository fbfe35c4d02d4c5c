import ArbitraryComposer.Model.Membership

/-!
# What Each Mutator Does to the Chains

One rule for each mutator. Most replace a record and leave its chains and its order alone, or
write a chain of a content anew. A new composition has the empty order; the mutators of a layer
order change the order of one composition; a removal is the erasure of one record.

## Main results

- `Mutator.ensures_quiet`: the mutators that leave every layer order alone.
- `ensures_addComposition`, `ensures_editMembership`, `ensures_attachLayer`: those that do not.
-/

namespace ArbitraryComposer

open Script

namespace Payload

@[simp]
theorem not_isChunk_composition (c : CompositionRecord) : ¬ (composition c).IsChunk := by
  rintro (h | h) <;> cases h

@[simp]
theorem not_isChunk_layer (l : LayerRecord) : ¬ (layer l).IsChunk := by
  rintro (h | h) <;> cases h

@[simp]
theorem not_isChunk_content (c : ContentRecord) : ¬ (content c).IsChunk := by
  rintro (h | h) <;> cases h

end Payload

section

variable {m : DocMap} {n : ObjectId} {stamp : ℕ} {chains : ChainRoot → List (ObjectId × Payload)}
  {c : Option ObjectId} {id : ObjectId} {as as' : Payload}

/-! ## Records -/

/-- The replacement of a record by one with the same chains and the same order. -/
private theorem DocMap.Effect.of_replace (has : m.payloads id = some as) (hc : ¬ as.IsChunk)
    (hc' : ¬ as'.IsChunk) (heads : ∀ slot, as'.head slot = as.head slot)
    (members : as'.membership = as.membership) :
    m.Effect c (Function.update m id (some ⟨id, stamp, as'⟩)) := by
  refine .put (fun as₀ has₀ => ?_) (fun r hr => ?_) (fun slot => ?_) (Or.inr ?_)
  · cases has.symm.trans has₀
    exact hc
  · cases hr
    exact hc'
  · rw [head_of_payloads (id, slot) payloads_update_self, head_of_payloads (id, slot) has]
    exact heads slot
  · rw [membership, membership, payloads_update_self, has]
    exact members

/-- The insertion of a record that owns no chain. -/
theorem DocMap.Effect.of_insert (hnone : m id = none) (hc : ¬ as.IsChunk)
    (heads : ∀ slot, as.head slot = 0) (members : some id = c ∨ as.membership = none) :
    m.Effect c (Function.update m id (some ⟨id, stamp, as⟩)) := by
  refine .put (fun as₀ has₀ => ?_) (fun r hr => ?_) (fun slot => ?_) (members.imp_right fun h => ?_)
  · cases (payloads_eq_none.mpr hnone).symm.trans has₀
  · cases hr
    exact hc
  · rw [head_of_payloads (id, slot) payloads_update_self, head_of_none (id, slot) hnone]
    exact heads slot
  · rw [membership_of_none hnone, membership, payloads_update_self]
    exact h

theorem DocMap.Filed.below' (hm : m.Filed n) (has : m.payloads id = some as) :
    id.synthetic = true ∨ id.toNat < n.toNat := by
  obtain ⟨r, hr, -⟩ := Option.map_eq_some_iff.mp has
  exact hm.below id r hr

/-- The path copy of a record. -/
private theorem ensures_editRecord {f : Payload → Option Payload} (hm : m.Filed n)
    (hf : ∀ as as', f as = some as' → ¬ as.IsChunk ∧ ¬ as'.IsChunk ∧
      (∀ slot, as'.head slot = as.head slot) ∧ as'.membership = as.membership) :
    (editRecord id f).Ensures stamp (fun _ m' n' => m.Effect c m' ∧ m'.Filed n') m n := by
  unfold editRecord
  rw [ensures_bind, ensures_find]
  cases has : m.payloads id with
  | none =>
    rw [show (m id).map ObjectRecord.as = none from has]
    exact ⟨.same, hm⟩
  | some as =>
    rw [show (m id).map ObjectRecord.as = some as from has, Option.bind_some]
    cases has' : f as with
    | none => exact ⟨.same, hm⟩
    | some as' =>
      obtain ⟨hc, hc', heads, members⟩ := hf as as' has'
      exact ⟨.of_replace has hc hc' heads members, hm.put (hm.below' has)⟩

private theorem ensures_editComposition {f : CompositionRecord → CompositionRecord} (hm : m.Filed n)
    (hf : ∀ r, (f r).membership = r.membership) :
    (editComposition id f).Ensures stamp (fun _ m' n' => m.Effect c m' ∧ m'.Filed n') m n := by
  refine ensures_editRecord hm fun as as' h => ?_
  cases as with
  | composition r =>
    cases h
    refine ⟨by simp, by simp, fun slot => ?_, congrArg some (hf r)⟩
    cases slot with
    | layers => exact congrArg Membership.spillRoot (hf r)
    | identity => rfl
    | inputs => rfl
  | _ => cases h

private theorem ensures_editLayer {f : LayerRecord → LayerRecord} (hm : m.Filed n) :
    (editLayer id f).Ensures stamp (fun _ m' n' => m.Effect c m' ∧ m'.Filed n') m n := by
  refine ensures_editRecord hm fun as as' h => ?_
  cases as with
  | layer r =>
    cases h
    exact ⟨by simp, by simp, fun slot => rfl, rfl⟩
  | _ => cases h

/-- A new object that is no composition. -/
private theorem ensures_addObject (hm : m.Filed n) (hc : ¬ as.IsChunk)
    (heads : ∀ slot, as.head slot = 0) (members : as.membership = none) :
    (addObject as).Ensures stamp (fun _ m' n' => m.Effect c m' ∧ m'.Filed n') m n := by
  unfold addObject
  rw [ensures_bind]
  intro valid
  have hnext := toNat_add_one valid
  have hnone := hm.eq_none valid le_rfl
  refine ⟨.of_insert hnone hc heads (Or.inr members), (hm.mono ?_).put (Or.inr ?_)⟩ <;> omega

/-- The empty order of a new composition. -/
theorem DocMap.holds_nil (m : DocMap) (id : ObjectId) (w h : UInt64) :
    DocMap.Holds (Function.update m id
      (some ⟨id, stamp, .composition { canvasW := w, canvasH := h }⟩)) id [] := by
  refine ⟨_, by rw [membership, payloads_update_self]; rfl, rfl, ?_⟩
  rw [if_pos (show ([] : List ObjectId).length ≤ maxInlineLayers from Nat.zero_le _)]
  exact ⟨rfl, rfl⟩

theorem head_composition (w h : UInt64) (slot : ChainSlot) :
    (Payload.composition { canvasW := w, canvasH := h }).head slot = 0 := by
  cases slot <;> rfl

/-- A new composition has the empty order. -/
theorem ensures_addComposition {w h : UInt64} (hm : m.Filed n) :
    (addComposition w h).Ensures stamp (fun id m' n' => id = n ∧ m.Effect (some id) m' ∧
      m'.Filed n' ∧ m'.Holds id []) m n := by
  unfold addComposition
  rw [ensures_bind]
  intro valid
  have hnext := toNat_add_one valid
  refine ⟨rfl, .of_insert (hm.eq_none valid le_rfl) (by simp) (head_composition w h) (Or.inl rfl),
    (hm.mono ?_).put (Or.inr ?_), m.holds_nil n w h⟩ <;> omega

/-- A composition put under an id of the caller. -/
theorem ensures_addCompositionAs {w h : UInt64} {Q : ObjectId → DocMap → ObjectId → Prop} :
    (addCompositionAs id w h).Ensures stamp Q m n ↔
      Q id (Function.update m id (some ⟨id, stamp, .composition { canvasW := w, canvasH := h }⟩))
        n := Iff.rfl

/-- A removal erases one record. -/
theorem ensures_removeObject {Q : Unit → DocMap → ObjectId → Prop} :
    (removeObject id).Ensures stamp Q m n ↔ Q () (Function.update m id none) n := by
  unfold removeObject
  rw [ensures_bind, ensures_find]
  cases hr : m id with
  | none =>
    have hsame : Function.update m id none = m := by
      rw [← hr]
      exact Function.update_eq_self id m
    rw [hsame]
    exact Iff.rfl
  | some r => exact Iff.rfl

private theorem ensures_setContentState {after : StateHandle} (hm : m.Filed n) :
    (setContentState id after).Ensures stamp (fun _ m' n' => m.Effect c m' ∧ m'.Filed n') m n := by
  unfold setContentState
  rw [ensures_bind, ensures_find]
  cases has : m.payloads id with
  | none =>
    rw [show (m id).map ObjectRecord.as = none from has]
    exact ⟨.same, hm⟩
  | some as =>
    rw [show (m id).map ObjectRecord.as = some as from has]
    cases as with
    | content r =>
      refine ⟨.of_replace has (by simp) (by simp) (fun slot => ?_) rfl, hm.put (hm.below' has)⟩
      cases slot <;> rfl
    | _ => exact ⟨.same, hm⟩

private theorem ensures_setContentIdentity {kindId params : List UInt8} (hl : m.Linked chains)
    (hm : m.Filed n) : (setContentIdentity id kindId params).Ensures stamp
      (fun _ m' n' => m.Effect c m' ∧ m'.Filed n') m n := by
  unfold setContentIdentity
  refine ensures_writeContentChain .identity ContentRecord.identityRoot
    (fun c head => { c with identityRoot := head }) (by simp) (fun _ => rfl)
    (fun _ _ => ⟨rfl, rfl⟩) (fun _ _ => rfl) (fun r k slot hs => ?_) hl hm
  cases slot with
  | identity => exact absurd rfl hs
  | layers => rfl
  | inputs => rfl

private theorem ensures_setContentInputs {inputs : List ObjectId} (hl : m.Linked chains)
    (hm : m.Filed n) : (setContentInputs id inputs).Ensures stamp
      (fun _ m' n' => m.Effect c m' ∧ m'.Filed n') m n := by
  unfold setContentInputs
  refine ensures_writeContentChain .inputs ContentRecord.inputsRoot _
    (by simp) (fun _ => rfl) (fun _ _ => ⟨rfl, rfl⟩) (fun _ _ => rfl) (fun r k slot hs => ?_) hl hm
  cases slot with
  | inputs => exact absurd rfl hs
  | layers => rfl
  | identity => rfl

/-- A script run for its effect. -/
theorem ensures_void {x : Script Unit} {Q : ObjectId → DocMap → ObjectId → Prop} :
    (Mutator.script.void x).Ensures stamp Q m n ↔
      x.Ensures stamp (fun _ m' n' => Q 0 m' n') m n := by
  unfold Mutator.script.void
  rw [ensures_bind]
  rfl

/-! ## Mutators -/

/-- The mutators that leave every layer order alone. -/
def Mutator.Quiet : Mutator → Prop
  | addComposition _ _ | addCompositionAs _ _ _ | attachLayer _ _ _ | detachLayer _ _
  | reorderLayer _ _ _ | remove _ => False
  | _ => True

/-- They do. -/
theorem Mutator.ensures_quiet {mu : Mutator} (hq : mu.Quiet) (hl : m.Linked chains)
    (hm : m.Filed n) :
    mu.script.Ensures stamp (fun _ m' n' => m.Effect c m' ∧ m'.Filed n') m n := by
  cases mu with
  | addLayer content transform opacity =>
    exact ensures_addObject hm (by simp) (fun slot => by cases slot <;> rfl) rfl
  | addContent kind => exact ensures_addObject hm (by simp) (fun slot => by cases slot <;> rfl) rfl
  | setWorkingSpace id format => exact ensures_void.mpr (ensures_editComposition hm fun _ => rfl)
  | setWorkingAudioFormat id format =>
    exact ensures_void.mpr (ensures_editComposition hm fun _ => rfl)
  | setTransform id transform => exact ensures_void.mpr (ensures_editLayer hm)
  | setSpan id span => exact ensures_void.mpr (ensures_editLayer hm)
  | setTimeMap id timeMap => exact ensures_void.mpr (ensures_editLayer hm)
  | setOpacity id opacity => exact ensures_void.mpr (ensures_editLayer hm)
  | setGain id gain => exact ensures_void.mpr (ensures_editLayer hm)
  | setAudible id audible => exact ensures_void.mpr (ensures_editLayer hm)
  | setVisible id visible => exact ensures_void.mpr (ensures_editLayer hm)
  | setBlend id blend => exact ensures_void.mpr (ensures_editLayer hm)
  | setContentState id after => exact ensures_void.mpr (ensures_setContentState hm)
  | setContentIdentity id kindId params => exact ensures_void.mpr (ensures_setContentIdentity hl hm)
  | setContentInputs id inputs => exact ensures_void.mpr (ensures_setContentInputs hl hm)
  | addComposition _ _ => exact hq.elim
  | addCompositionAs _ _ _ => exact hq.elim
  | attachLayer _ _ _ => exact hq.elim
  | detachLayer _ _ => exact hq.elim
  | reorderLayer _ _ _ => exact hq.elim
  | remove _ => exact hq.elim

/-! ## Layer orders -/

variable {composition : ObjectId} {order : List ObjectId}

private theorem exists_composition {mem : Membership} (h : m.membership composition = some mem) :
    ∃ r, m.payloads composition = some (.composition r) ∧ r.membership = mem := by
  obtain ⟨as, has, hmem⟩ := Option.bind_eq_some_iff.mp h
  cases as with
  | composition r => exact ⟨r, has, Option.some.inj hmem⟩
  | _ => cases hmem

/-- A mutator of the order of a composition: the new order is the one computed. -/
theorem ensures_editMembership {f : List ObjectId → Option (List ObjectId)} (hl : m.Linked chains)
    (hm : m.Filed n) (ho : m.Holds composition order) :
    (editMembership composition f).Ensures stamp (fun _ m' n' => m.Effect (some composition) m' ∧
      m'.Filed n' ∧ m'.Holds composition ((f order).getD order)) m n := by
  obtain ⟨mem, hmem, horder⟩ := ho
  obtain ⟨r, hr, rfl⟩ := exists_composition hmem
  unfold editMembership
  rw [ensures_bind, ensures_find, show (m composition).map ObjectRecord.as = _ from hr]
  change ((readLayerOrder r) >>= _).Ensures stamp _ m n
  rw [ensures_bind]
  refine (ensures_readLayerOrder hl hr horder).mono fun p m' n' hp => ?_
  obtain ⟨rfl, rfl, rfl⟩ := hp
  cases hf : f order with
  | none =>
    simp only [hf]
    exact ⟨.same, hm, _, hmem, horder⟩
  | some newOrder =>
    simp only [hf]
    exact ensures_storeMembership hl hm hr horder

/-- Where there is no composition, it does nothing. -/
theorem ensures_editMembership_of_none {f : List ObjectId → Option (List ObjectId)}
    {Q : Unit → DocMap → ObjectId → Prop} (h : m.membership composition = none) (hQ : Q () m n) :
    (editMembership composition f).Ensures stamp Q m n := by
  unfold editMembership
  rw [ensures_bind, ensures_find]
  cases has : m.payloads composition with
  | none =>
    rw [show (m composition).map ObjectRecord.as = none from has]
    exact hQ
  | some as =>
    rw [show (m composition).map ObjectRecord.as = some as from has]
    cases as with
    | composition r =>
      rw [DocMap.membership, has] at h
      cases h
    | _ => exact hQ

/-- `attach_layer` inserts a layer that exists. -/
theorem ensures_attachLayer {layer : ObjectId} {atIndex : UInt32} (hl : m.Linked chains)
    (hm : m.Filed n) (ho : m.Holds composition order) :
    (attachLayer composition layer atIndex).Ensures stamp (fun _ m' n' =>
      m.Effect (some composition) m' ∧ m'.Filed n' ∧ m'.Holds composition
        (if (m layer).isSome then order.insertIdx (min atIndex.toNat order.length) layer
          else order)) m n := by
  obtain ⟨r, hr, -⟩ := exists_composition ho.choose_spec.1
  unfold attachLayer
  rw [ensures_bind, ensures_find, show (m composition).map ObjectRecord.as = _ from hr]
  change ((find layer) >>= _).Ensures stamp _ m n
  rw [ensures_bind, ensures_find]
  cases hlayer : m layer with
  | none => exact ⟨.same, hm, ho⟩
  | some l =>
    exact ensures_editMembership
      (f := fun order => some (order.insertIdx (min atIndex.toNat order.length) layer)) hl hm ho

/-- Where there is no composition, it does nothing. -/
theorem ensures_attachLayer_of_none {layer : ObjectId} {atIndex : UInt32}
    {Q : Unit → DocMap → ObjectId → Prop} (h : m.membership composition = none) (hQ : Q () m n) :
    (attachLayer composition layer atIndex).Ensures stamp Q m n := by
  unfold attachLayer
  rw [ensures_bind, ensures_find]
  cases has : m.payloads composition with
  | none =>
    rw [show (m composition).map ObjectRecord.as = none from has]
    exact hQ
  | some as =>
    rw [show (m composition).map ObjectRecord.as = some as from has]
    cases as with
    | composition r =>
      rw [DocMap.membership, has] at h
      cases h
    | _ => exact hQ

end

end ArbitraryComposer
