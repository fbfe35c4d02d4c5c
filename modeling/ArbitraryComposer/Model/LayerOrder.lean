import ArbitraryComposer.Model.MutatorEffects
import ArbitraryComposer.Model.Queries
import ArbitraryComposer.Model.Shadow

/-!
# Layer Membership Behaves as a List

Beside every map runs a plain editor that keeps a list for each composition: attaching inserts,
detaching erases, reordering moves, and undo and redo bring back the lists of the maps around
the entry. What the model reads back is that list, however often it went in and out of chunks, as
long as no chunk is removed by its id, a count fits its field, and the history is kept exact.

## Main definitions

- `Lists`, `plainLists`: the plain editor.
- `DocMap.HasOrder`: what a composition with an order looks like.
- `Mutator.SparesOrders`: the mutators that keep it so.

## Main results

- `layer_order_refines`: in runs of such mutators the orders are the plain lists.
- `layer_order_lost`: a commit that is not made on the current version and an undo break it.
-/

namespace ArbitraryComposer

/-- A list of layers for each composition. -/
abbrev Lists : Type := ObjectId → Option (List ObjectId)

/-- A layer is moved; out of range, nothing moves. -/
def moveIndex (order : List ObjectId) (fromIndex toIndex : ℕ) : List ObjectId :=
  match order[fromIndex]? with
  | some moved =>
    if toIndex < order.length then (order.eraseIdx fromIndex).insertIdx toIndex moved else order
  | none => order

/-- What a mutator does to the plain lists. -/
def editLists (mu : Mutator) (m : DocMap) (n : ObjectId) (lists : Lists) : Lists :=
  match mu with
  | .addComposition _ _ => Function.update lists n (some [])
  | .addCompositionAs id _ _ => Function.update lists id (some [])
  | .remove id => Function.update lists id none
  | .attachLayer composition layer atIndex =>
    if (m layer).isSome then
      Function.update lists composition ((lists composition).map fun order =>
        order.insertIdx (min atIndex.toNat order.length) layer)
    else lists
  | .detachLayer composition layer =>
    Function.update lists composition ((lists composition).map fun order => order.erase layer)
  | .reorderLayer composition fromIndex toIndex =>
    Function.update lists composition ((lists composition).map fun order =>
      moveIndex order fromIndex.toNat toIndex.toNat)
  | _ => lists

/-- The plain editor. -/
def plainLists : Shadowing Lists := ⟨fun _ => none, editLists⟩

/-- A composition has an order: it is what is read back, the count is its length, and it is in
the record or in exactly the chunks it takes, none of them empty. -/
structure DocMap.HasOrder (m : DocMap) (c : CompositionRecord) (order : List ObjectId) : Prop where
  /-- The order is read back. -/
  read : ∀ turns, order.length < turns → m.layerOrder turns c = some order
  /-- The count is its length. -/
  count : c.layerCount.toNat = order.length
  /-- An order that fits has no chunk. -/
  inline : order.length ≤ maxInlineLayers → c.spillRoot = 0
  /-- A longer one has the chunks it takes. -/
  spilled : maxInlineLayers < order.length → ∃ chunks,
    m.Complete .layerOrderChunk c.spillRoot chunks ∧ chunks.length = chunkCount order.length ∧
      ∀ ch ∈ chunks, chunkMembers ch.2 ≠ []

/-- The orders of a map are some lists, and nothing else is a composition. -/
def DocMap.HasLists (m : DocMap) (lists : Lists) : Prop :=
  ∀ id, match lists id with
    | some order => ∃ c, m.findComposition id = some c ∧ m.HasOrder c order
    | none => m.findComposition id = none

/-- The mutators that remove no chunk by its id, let no count overflow, and put no record where
one is still to be handed out. -/
def Mutator.SparesOrders (mu : Mutator) (m : DocMap) (n : ObjectId) : Prop :=
  match mu with
  | addCompositionAs id _ _ =>
    (id.synthetic = true ∨ id.toNat < n.toNat) ∧ ∀ as ∈ m.payloads id, ¬ as.IsChunk
  | remove id => ∀ as ∈ m.payloads id, ¬ as.IsChunk
  | attachLayer composition _ _ =>
    ∀ c ∈ m.findComposition composition, c.layerCount.toNat + 1 < 2 ^ 32
  | _ => True

instance (mu : Mutator) (m : DocMap) (n : ObjectId) : Decidable (mu.SparesOrders m n) := by
  unfold Mutator.SparesOrders
  rcases mu with ⟨⟩ <;> infer_instance

section

variable {m m' : DocMap} {n id : ObjectId} {lists : Lists} {order : List ObjectId} {stamp : ℕ}

/-! ## Orders as they are read -/

/-- The chunks of a chain are read one after the other. -/
theorem readOrderChain_of_complete {head : ObjectId} {l : List (ObjectId × Payload)} {turns : ℕ}
    (h : m.Complete .layerOrderChunk head l) (hlt : l.length < turns) :
    m.readOrderChain turns head = some (l.flatMap fun ch => chunkMembers ch.2) := by
  induction h generalizing turns with
  | @stop head hs =>
    obtain ⟨turns, rfl⟩ := Nat.exists_eq_succ_of_ne_zero (Nat.ne_of_gt hlt)
    have hnone : m.findOrderChunk head = none := if_neg (by rw [hs]; exact Bool.false_ne_true)
    rw [DocMap.readOrderChain, hnone]
    rfl
  | @link head as rest hs has hkind _ ih =>
    obtain ⟨turns, rfl⟩ := Nat.exists_eq_succ_of_ne_zero (Nat.ne_of_gt (Nat.zero_lt_of_lt hlt))
    obtain ⟨r, hr, rfl⟩ := Option.map_eq_some_iff.mp has
    obtain ⟨id, revision, as⟩ := r
    cases as with
    | orderChunk ch =>
      have hchunk : m.findOrderChunk head = some ch := by
        rw [DocMap.findOrderChunk, if_pos (Bool.eq_true_of_not_eq_false hs), hr]
      rw [DocMap.readOrderChain, hchunk]
      simp only [Payload.next] at ih
      simp only [ih (Nat.lt_of_succ_lt_succ hlt), Option.map_some, List.flatMap_cons]
      rfl
    | _ => cases hkind

theorem findComposition_eq : m.findComposition id =
    (m.payloads id).bind fun
      | .composition c => some c
      | _ => none := by
  unfold DocMap.findComposition DocMap.payloads
  cases m id with
  | none => rfl
  | some r =>
    obtain ⟨id, revision, as⟩ := r
    cases as <;> rfl

theorem membership_eq_map : m.membership id =
    (m.findComposition id).map CompositionRecord.membership := by
  rw [findComposition_eq, DocMap.membership]
  cases m.payloads id with
  | none => rfl
  | some as => cases as <;> rfl

/-- An order in the form the mutators give it is what is read. -/
theorem hasOrder_of_holds {c : CompositionRecord} (h : c.membership.Holds m order)
    (hlt : order.length < 2 ^ 32) : m.HasOrder c order := by
  obtain ⟨hcount, hform⟩ := h
  have hcount : c.layerCount = .ofNat order.length := hcount
  have htoNat : c.layerCount.toNat = order.length := by
    rw [hcount, UInt32.toNat_ofNat']
    exact Nat.mod_eq_of_lt hlt
  by_cases hfits : order.length ≤ maxInlineLayers
  · rw [if_pos hfits] at hform
    obtain ⟨hspill, hlayers⟩ := hform
    have hspill : c.spillRoot = 0 := hspill
    have hlayers : c.layers = fun i : Fin maxInlineLayers => order.getD i 0 := hlayers
    refine ⟨fun turns _ => ?_, htoNat, fun _ => hspill, fun hgt => absurd hfits (by omega)⟩
    rw [DocMap.layerOrder, hspill, htoNat, hlayers, take_ofFn_getD hfits]
    rfl
  · rw [if_neg hfits] at hform
    obtain ⟨-, ids, hlen, hcomplete⟩ := hform
    have hlength : (orderLinks order ids).length = chunkCount order.length := by
      rw [orderLinks, Chains.length_links, hlen]
    have hle : chunkCount order.length ≤ order.length := by
      unfold chunkCount maxInlineLayers at *
      omega
    have hvalid : c.spillRoot.valid = true := by
      by_contra hv
      have hnil : orderLinks order ids = [] :=
        hcomplete.unique (.stop (Bool.eq_false_of_not_eq_true hv))
      have := chunkCount_pos (n := order.length) (by omega)
      rw [hnil, List.length_nil] at hlength
      omega
    refine ⟨fun turns hturns => ?_, htoNat, fun h => absurd h hfits, fun _ =>
      ⟨_, hcomplete, hlength, fun ch hch => ?_⟩⟩
    · rw [DocMap.layerOrder, if_pos hvalid, show c.spillRoot = c.membership.spillRoot from rfl,
        readOrderChain_of_complete hcomplete (by omega),
        flatMap_orderLinks (hlen ▸ length_le_chunkCount _)]
    · rw [orderLinks, Chains.links_eq_map] at hch
      obtain ⟨p, hp, rfl⟩ := List.mem_map.mp hch
      rw [chunkMembers_orderChunk (length_chunkAt_le _ _)]
      exact chunkAt_ne_nil (hlen ▸ List.mem_range.mp hp)

/-! ## The plain editor beside the map -/

/-- The orders of a map, in the form the mutators give them, are the plain lists. -/
structure DocMap.Listed (m : DocMap) (lists : Lists) : Prop where
  /-- The chains are complete and disjoint. -/
  linked : ∃ chains, m.Linked chains
  /-- A list is the order of its composition. -/
  holds : ∀ id order, lists id = some order → m.Holds id order ∧ order.length < 2 ^ 32
  /-- Nothing else is a composition. -/
  unlisted : ∀ id, lists id = none → m.membership id = none

theorem DocMap.Listed.hasLists (h : m.Listed lists) : m.HasLists lists := by
  intro id
  cases horder : lists id with
  | none =>
    have := h.unlisted id horder
    rw [membership_eq_map, Option.map_eq_none_iff] at this
    exact this
  | some order =>
    obtain ⟨⟨mem, hmem, hholds⟩, hlt⟩ := h.holds id order horder
    rw [membership_eq_map, Option.map_eq_some_iff] at hmem
    obtain ⟨c, hc, rfl⟩ := hmem
    exact ⟨c, hc, hasOrder_of_holds hholds hlt⟩

theorem DocMap.listed_empty : DocMap.Listed (fun _ => none) fun _ => none := by
  refine ⟨⟨fun _ => [], ⟨fun root => Complete.of_zero rfl, ?_⟩⟩, fun id order h => ?_,
    fun _ _ => rfl⟩
  · rintro i j k ⟨⟩
  · cases h

/-- A mutator that changes one order at most, to the one of its plain list. -/
theorem DocMap.Listed.effect {c : Option ObjectId} {lists' : Lists} (h : m.Listed lists)
    (he : m.Effect c m') (hother : ∀ id, some id ≠ c → lists' id = lists id)
    (hc : ∀ id ∈ c, (∀ order, lists' id = some order → m'.Holds id order ∧ order.length < 2 ^ 32) ∧
      (lists' id = none → m'.membership id = none)) : m'.Listed lists' := by
  obtain ⟨chains, hl⟩ := h.linked
  refine ⟨he.linked hl, fun id order horder => ?_, fun id hnone => ?_⟩ <;> by_cases hid : some id = c
  · exact (hc id hid.symm).1 order horder
  · rw [hother id hid] at horder
    exact ⟨he.holds hl hid (h.holds id order horder).1, (h.holds id order horder).2⟩
  · exact (hc id hid.symm).2 hnone
  · rw [hother id hid] at hnone
    rw [he.membership_eq hid]
    exact h.unlisted id hnone

/-- A record that is no chunk is erased, or replaced by an empty composition. -/
theorem DocMap.Listed.clear {o : Option ObjectRecord} (h : m.Listed lists)
    (hold : ∀ as ∈ m.payloads id, ¬ as.IsChunk)
    (ho : o = none ∨
      ∃ stamp w h, o = some ⟨id, stamp, .composition { canvasW := w, canvasH := h }⟩) :
    DocMap.Listed (Function.update m id o) (Function.update lists id (o.map fun _ => [])) := by
  obtain ⟨chains, hl⟩ := h.linked
  have heads : ∀ slot, DocMap.head (Function.update m id o) (id, slot) = 0 := fun slot => by
    rcases ho with rfl | ⟨stamp, w, h, rfl⟩
    · exact head_of_none _ (Function.update_self ..)
    · rw [head_of_payloads (id, slot) payloads_update_self]
      exact head_composition w h slot
  refine ⟨⟨_, hl.clear hold heads⟩, fun k order horder => ?_, fun k hnone => ?_⟩ <;>
    by_cases hk : k = id
  · subst hk
    rw [Function.update_self] at horder
    rcases ho with rfl | ⟨stamp, w, h, rfl⟩
    · cases horder
    · cases horder
      exact ⟨m.holds_nil k w h, by simp⟩
  · rw [Function.update_of_ne hk] at horder
    obtain ⟨hholds, hlt⟩ := h.holds k order horder
    refine ⟨hholds.congr (membership_congr (Function.update_of_ne hk _ _)) fun l hcomplete k' hk' =>
      payloads_update_of_ne ?_, hlt⟩
    obtain rfl : l = chains (k, .layers) := hcomplete.unique (hl.complete (k, .layers))
    rintro rfl
    exact hl.notMem hold hk'
  · subst hk
    rw [Function.update_self] at hnone
    rcases ho with rfl | ⟨stamp, w, h, rfl⟩
    · exact membership_of_none (Function.update_self ..)
    · cases hnone
  · rw [Function.update_of_ne hk] at hnone
    rw [membership_congr (Function.update_of_ne hk _ _)]
    exact h.unlisted k hnone

/-- A mutator of a layer order, beside the same edit of the plain list. -/
private theorem ensures_listed_of_holds {x : Script Unit} {composition : ObjectId}
    {edit : List ObjectId → List ObjectId} (h : m.Listed lists) (hf : m.Filed n)
    (hlength : ∀ order, lists composition = some order → (edit order).length < 2 ^ 32)
    (hnone : m.membership composition = none →
      x.Ensures stamp (fun _ m' n' => m' = m ∧ n' = n) m n)
    (hholds : ∀ chains order, m.Linked chains → m.Holds composition order → x.Ensures stamp
      (fun _ m' n' => m.Effect (some composition) m' ∧ m'.Filed n' ∧
        m'.Holds composition (edit order)) m n) :
    x.Ensures stamp (fun _ m' n' => m'.Listed
      (Function.update lists composition ((lists composition).map edit)) ∧ m'.Filed n') m n := by
  obtain ⟨chains, hl⟩ := h.linked
  cases horder : lists composition with
  | none =>
    refine (hnone (h.unlisted _ horder)).mono fun _ m' n' heq => ?_
    obtain ⟨rfl, rfl⟩ := heq
    rw [Option.map_none, ← horder, Function.update_eq_self]
    exact ⟨h, hf⟩
  | some order =>
    refine (hholds chains order hl (h.holds _ _ horder).1).mono fun _ m' n' heffect =>
      ⟨h.effect heffect.1 (fun id hid => ?_) fun id hid => ?_, heffect.2.1⟩
    · exact Function.update_of_ne (fun heq => hid (congrArg some heq)) _ _
    · cases hid
      rw [Function.update_self, Option.map_some]
      refine ⟨fun order' horder' => ?_, fun hnone => by cases hnone⟩
      cases horder'
      exact ⟨heffect.2.2, hlength order horder⟩

private theorem insertIdx_eraseIdx_self {l : List ObjectId} {i : ℕ} {a : ObjectId}
    (h : l[i]? = some a) : (l.eraseIdx i).insertIdx i a = l := by
  induction l generalizing i with
  | nil => cases h
  | cons b l ih =>
    cases i with
    | zero =>
      cases h
      rfl
    | succ i => exact congrArg (b :: ·) (ih h)

/-- The move that the model computes, which leaves an order alone where nothing moves. -/
private theorem moveIndex_eq (order : List ObjectId) (fromIndex toIndex : UInt32) :
    Option.getD (if order.length ≤ toIndex.toNat ∨ fromIndex = toIndex then none
      else order[fromIndex.toNat]?.map fun moved =>
        (order.eraseIdx fromIndex.toNat).insertIdx toIndex.toNat moved) order =
      moveIndex order fromIndex.toNat toIndex.toNat := by
  unfold moveIndex
  cases hmoved : order[fromIndex.toNat]? with
  | none => split <;> rfl
  | some moved =>
    by_cases hto : order.length ≤ toIndex.toNat
    · simp only [hto, true_or, if_true, Option.getD_none, if_neg (not_lt.mpr hto)]
    · by_cases heq : fromIndex = toIndex
      · subst heq
        simp only [or_true, if_true, Option.getD_none, if_pos (not_le.mp hto)]
        exact (insertIdx_eraseIdx_self hmoved).symm
      · simp only [hto, heq, or_self, if_false, Option.map_some, Option.getD_some,
          if_pos (not_le.mp hto)]

private theorem length_moveIndex_le (order : List ObjectId) (fromIndex toIndex : ℕ) :
    (moveIndex order fromIndex toIndex).length ≤ order.length := by
  unfold moveIndex
  cases hmoved : order[fromIndex]? with
  | none => exact le_rfl
  | some moved =>
    have hlt := (List.getElem?_eq_some_iff.mp hmoved).1
    change (if toIndex < order.length then (order.eraseIdx fromIndex).insertIdx toIndex moved
      else order).length ≤ order.length
    split
    · rename_i hto
      rw [List.length_insertIdx, List.length_eraseIdx_of_lt hlt]
      split <;> omega
    · exact le_rfl

/-- Every mutator that spares the orders keeps the plain lists beside the map. -/
theorem Mutator.ensures_listed {mu : Mutator} (h : m.Listed lists) (hf : m.Filed n)
    (hc : mu.SparesOrders m n) :
    mu.script.Ensures stamp (fun _ m' n' => m'.Listed (editLists mu m n lists) ∧ m'.Filed n')
      m n := by
  obtain ⟨chains, hl⟩ := h.linked
  have hquiet : mu.Quiet → mu.script.Ensures stamp (fun _ m' n' => m'.Listed lists ∧ m'.Filed n')
      m n := fun hq => (Mutator.ensures_quiet (c := none) hq hl hf).mono fun _ m' n' he =>
    ⟨h.effect he.1 (fun _ _ => rfl) (by simp), he.2⟩
  cases mu with
  | addComposition w w' =>
    refine (ensures_addComposition hf).mono fun id m' n' he => ?_
    obtain ⟨rfl, heffect, hf', hholds⟩ := he
    refine ⟨h.effect heffect (fun id' hid => ?_) fun id' hid => ?_, hf'⟩
    · exact Function.update_of_ne (fun heq => hid (congrArg some heq)) _ _
    · cases hid
      rw [editLists, Function.update_self]
      refine ⟨fun order horder => ?_, fun hnone => by cases hnone⟩
      cases horder
      exact ⟨hholds, by simp⟩
  | addCompositionAs id w w' =>
    exact ensures_addCompositionAs.mpr ⟨h.clear hc.2 (Or.inr ⟨_, w, w', rfl⟩), hf.put hc.1⟩
  | remove id =>
    exact ensures_void.mpr (ensures_removeObject.mpr
      ⟨h.clear hc (Or.inl rfl), hf.erase⟩)
  | attachLayer composition layer atIndex =>
    refine ensures_void.mpr ?_
    simp only [editLists]
    by_cases hlayer : (m layer).isSome = true
    · rw [if_pos hlayer]
      refine ensures_listed_of_holds h hf (fun order horder => ?_)
        (fun hnone => ensures_attachLayer_of_none hnone ⟨rfl, rfl⟩) fun chains order hl ho => ?_
      · have hlist := h.hasLists composition
        rw [horder] at hlist
        obtain ⟨c, hcomp, hholds⟩ := hlist
        have hlt := hc c hcomp
        rw [hholds.count] at hlt
        rw [List.length_insertIdx_of_le_length (min_le_right _ _)]
        exact hlt
      · refine (ensures_attachLayer hl hf ho).mono fun _ m' n' he => ?_
        rwa [if_pos hlayer] at he
    · rw [if_neg hlayer]
      have hsame : Function.update lists composition ((lists composition).map id) = lists := by
        rw [Option.map_id, id, Function.update_eq_self]
      rw [← hsame]
      refine ensures_listed_of_holds h hf (fun order horder => (h.holds _ _ horder).2)
        (fun hnone => ensures_attachLayer_of_none hnone ⟨rfl, rfl⟩) fun chains order hl ho => ?_
      refine (ensures_attachLayer hl hf ho).mono fun _ m' n' he => ?_
      rwa [if_neg hlayer] at he
  | detachLayer composition layer =>
    refine ensures_void.mpr (ensures_listed_of_holds h hf (fun order horder => ?_)
      (fun hnone => ensures_editMembership_of_none hnone ⟨rfl, rfl⟩) fun chains order hl ho => ?_)
    · exact (List.length_erase_le ..).trans_lt (h.holds _ _ horder).2
    · refine (ensures_editMembership hl hf ho).mono fun _ m' n' he => ?_
      by_cases hmem : layer ∈ order
      · rwa [if_pos hmem] at he
      · rwa [if_neg hmem, Option.getD_none, ← List.erase_of_not_mem hmem] at he
  | reorderLayer composition fromIndex toIndex =>
    refine ensures_void.mpr (ensures_listed_of_holds h hf (fun order horder => ?_)
      (fun hnone => ensures_editMembership_of_none hnone ⟨rfl, rfl⟩) fun chains order hl ho => ?_)
    · exact (length_moveIndex_le ..).trans_lt (h.holds _ _ horder).2
    · refine (ensures_editMembership hl hf ho).mono fun _ m' n' he => ?_
      rwa [moveIndex_eq] at he
  | _ => exact hquiet trivial

theorem plainLists_follows : plainLists.Follows DocMap.Listed Mutator.SparesOrders where
  empty := DocMap.listed_empty
  edit _ hm hf hc := Mutator.ensures_listed hm hf hc

end

/-- Layer membership behaves as a list. In every run whose mutators spare the orders and which
keeps its history, the orders of every version published are the lists of the plain editor. -/
theorem layer_order_refines {p : (Model × Trail) × Shadows Lists}
    (h : plainLists.machine.Reachable (fun e p => Careful Mutator.SparesOrders e p.1.1) p) :
    p.1.1.session.map.HasLists p.2.current ∧ ∀ v ∈ p.2.published, v.1.HasLists v.2 := by
  obtain ⟨-, hbeside⟩ := plainLists_follows.fits h
  exact ⟨hbeside.current.1.hasLists, fun v hv => (hbeside.published v hv).hasLists⟩

/-- A layer is attached to a composition and detached, and the second edit is undone. -/
def reattachedRun : List ModelEvent :=
  [.transact, .mutate 0 0 (.addComposition 1 1), .mutate 0 0 (.addLayer 0 {} 0),
    .mutate 0 0 (.attachLayer 1 2 0), .commit 0, .transact, .mutate 0 1 (.detachLayer 1 2),
    .commit 1, .undo 0]

theorem layer_order_refines_reattachedRun : ∃ p, plainLists.machine.Reachable
    (fun e p => Careful Mutator.SparesOrders e p.1.1) p ∧
      p.2.published.map (fun v => v.2 1) = [some [2], some [], some [2]] ∧
      p.1.1.session.map.HasLists p.2.current := by
  obtain ⟨p, hp, hlists⟩ := Machine.exists_reachable (M := plainLists.machine)
    (fun e p => Careful Mutator.SparesOrders e p.1.1) reattachedRun
    (fun p => decide (p.2.published.map (fun v => v.2 1) = [some [2], some [], some [2]]))
    (s := ((emptyModel, []), ⟨fun _ => none, [], [], []⟩)) ⟨⟨start_emptyModel, rfl⟩, rfl⟩
    (by decide +kernel) (by decide +kernel)
  exact ⟨p, hp, of_decide_eq_true hlists, (layer_order_refines hp).1⟩

/-- Of two transactions opened on an empty order, each attaches a layer; both are committed, and
the second is undone. -/
def overlappingAttachRun : List ModelEvent :=
  [.transact, .mutate 0 0 (.addComposition 1 1), .mutate 0 0 (.addLayer 0 {} 0), .commit 0,
    .transact, .transact, .mutate 0 1 (.attachLayer 1 2 0), .mutate 0 2 (.attachLayer 1 2 0),
    .commit 1, .commit 2, .undo 0]

/-- The undo brings back the empty order, not the one that was current before. -/
theorem layer_order_lost : ¬ ∀ p, plainLists.machine.Reachable Machine.anyEvent p →
    p.1.1.session.map.HasLists p.2.current ∧ ∀ v ∈ p.2.published, v.1.HasLists v.2 := by
  intro hall
  obtain ⟨p, hp, hlists⟩ := Machine.exists_reachable (M := plainLists.machine) Machine.anyEvent
    overlappingAttachRun (fun p => decide (p.2.current 1 = some [2] ∧
      (p.1.1.session.map.findComposition 1).any (fun c => c.layerCount == 0) = true))
    (s := ((emptyModel, []), ⟨fun _ => none, [], [], []⟩)) ⟨⟨start_emptyModel, rfl⟩, rfl⟩
    (Machine.runAllowed_anyEvent _ _) (by decide +kernel)
  obtain ⟨hlist, hcount⟩ := of_decide_eq_true hlists
  have hcurrent := (hall p hp).1 1
  rw [hlist] at hcurrent
  obtain ⟨c, hc, horder⟩ := hcurrent
  rw [hc, Option.any_some, beq_iff_eq] at hcount
  have := horder.count
  rw [hcount] at this
  cases this

end ArbitraryComposer
