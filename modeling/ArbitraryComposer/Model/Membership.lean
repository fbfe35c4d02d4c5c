import ArbitraryComposer.Model.Chunks

/-!
# Membership Lists and the Mutators

The layer order of a composition is in the record while it fits, and else in a chain of chunks,
each but the last one full. Every mutator either leaves the chains alone, writes one of them
anew, or replaces an owner.

## Main definitions

- `DocMap.Holds`: a composition has a layer order, in the form it takes.
- `DocMap.Effect`: what a mutator does to the chains and the orders.

## Main results

- `ensures_storeMembership`, `ensures_writeContentChain`: the writers of chains.
- `Effect.holds`: the orders of other compositions stay.
-/

namespace ArbitraryComposer

open Script

/-- The part of a composition that has its layer order. -/
structure Membership where
  /-- Number of layers. -/
  count : UInt32
  /-- The layers, while they fit. -/
  layers : Fin maxInlineLayers → ObjectId
  /-- Head of the spilled layer order. -/
  spillRoot : ObjectId

/-- The membership of a composition. -/
def CompositionRecord.membership (c : CompositionRecord) : Membership :=
  ⟨c.layerCount, c.layers, c.spillRoot⟩

/-- The membership of a record, if it is a composition. -/
def Payload.membership : Payload → Option Membership
  | .composition c => some c.membership
  | _ => none

/-- The membership of an object, if it is a composition. -/
def DocMap.membership (m : DocMap) (id : ObjectId) : Option Membership :=
  (m.payloads id).bind Payload.membership

/-- The chunks of a spilled order, under their ids. -/
def orderLinks (order ids : List ObjectId) : List (ObjectId × Payload) :=
  Chains.links 0 (fun p => orderChunk (chunkAt order p)) ids

/-- A membership has an order: in the record and without a chain while it fits, else in exactly
the chunks it takes. -/
def Membership.Holds (m : DocMap) (c : Membership) (order : List ObjectId) : Prop :=
  c.count = .ofNat order.length ∧
  if order.length ≤ maxInlineLayers then
    c.spillRoot = 0 ∧ c.layers = fun i : Fin maxInlineLayers => order.getD i 0
  else
    c.layers = (fun _ => 0) ∧ ∃ ids : List ObjectId, ids.length = chunkCount order.length ∧
      m.Complete .layerOrderChunk c.spillRoot (orderLinks order ids)

/-- An object is a composition with an order. -/
def DocMap.Holds (m : DocMap) (id : ObjectId) (order : List ObjectId) : Prop :=
  ∃ c, m.membership id = some c ∧ c.Holds m order

/-- Every composition has an order. -/
def DocMap.Ordered (m : DocMap) : Prop :=
  ∀ id, m.membership id = none ∨ ∃ order, m.Holds id order

/-! ## Chunks of an order -/

section

variable {order ids : List ObjectId}

theorem length_chunkAt_le (order : List ObjectId) (p : ℕ) :
    (chunkAt order p).length ≤ maxInlineLayers := List.length_take_le _ _

/-- A list that fits is read back from its slots. -/
theorem take_ofFn_getD {l : List ObjectId} (h : l.length ≤ maxInlineLayers) :
    (List.ofFn fun i : Fin maxInlineLayers => l.getD i 0).take l.length = l := by
  refine List.ext_getElem ?_ fun i hi hi' => ?_
  · rw [List.length_take, List.length_ofFn]
    omega
  · rw [List.getElem_take, List.getElem_ofFn]
    exact List.getD_eq_getElem _ _ hi'

/-- The number of members of a record survives its width. -/
theorem toNat_ofNat_length {l : List ObjectId} (h : l.length ≤ maxInlineLayers) :
    (UInt32.ofNat l.length).toNat = l.length := by
  rw [UInt32.toNat_ofNat']
  exact Nat.mod_eq_of_lt (h.trans_lt (by decide))

/-- The members of a chunk are read back. -/
theorem chunkMembers_orderChunk {l : List ObjectId} (h : l.length ≤ maxInlineLayers)
    (next : ObjectId) : chunkMembers (orderChunk l next) = l := by
  rw [orderChunk, chunkMembers, toNat_ofNat_length h]
  exact take_ofFn_getD h

/-- The chunks of an order, read one after the other, are the order. -/
theorem flatMap_orderLinks (h : order.length ≤ ids.length * maxInlineLayers) :
    (orderLinks order ids).flatMap (fun ch => chunkMembers ch.2) = order := by
  unfold orderLinks
  induction ids generalizing order with
  | nil =>
    rw [List.length_nil, Nat.zero_mul] at h
    exact (List.eq_nil_of_length_eq_zero (Nat.le_zero.mp h)).symm
  | cons id ids ih =>
    rw [Chains.links, List.flatMap_cons, chunkMembers_orderChunk (length_chunkAt_le _ _)]
    have hshift : (fun p => orderChunk (chunkAt order (p + 1))) =
        fun p => orderChunk (chunkAt (order.drop maxInlineLayers) p) := funext fun p => by
      rw [chunkAt, chunkAt, List.drop_drop, Nat.add_mul, Nat.one_mul, Nat.add_comm]
    rw [hshift, ih]
    · rw [chunkAt, Nat.zero_mul, List.drop_zero, List.take_append_drop]
    · rw [List.length_drop]
      rw [List.length_cons, Nat.add_mul, Nat.one_mul] at h
      omega

theorem length_le_chunkCount (n : ℕ) : n ≤ chunkCount n * maxInlineLayers := by
  unfold chunkCount maxInlineLayers
  omega

theorem chunkCount_pos {n : ℕ} (h : 0 < n) : 0 < chunkCount n := by
  unfold chunkCount maxInlineLayers
  omega

/-- No chunk of an order is empty. -/
theorem chunkAt_ne_nil {p : ℕ} (h : p < chunkCount order.length) : chunkAt order p ≠ [] := by
  have hlt : p * maxInlineLayers < order.length := by
    unfold chunkCount maxInlineLayers at *
    omega
  refine List.ne_nil_of_length_pos ?_
  rw [chunkAt, List.length_take, List.length_drop]
  exact lt_min (by decide) (by omega)

end

/-! ## What a mutator does -/

namespace DocMap

/-- What a mutator does to the chains and the orders; only the order of `c` may change. -/
inductive Effect (m : DocMap) (c : Option ObjectId) : DocMap → Prop
  /-- Nothing. -/
  | same : Effect m c m
  /-- A record that is no chunk is put in place of another one, with the same chains. -/
  | put {key : ObjectId} {o : Option ObjectRecord} (hold : ∀ as ∈ m.payloads key, ¬ as.IsChunk)
      (hnew : ∀ r ∈ o, ¬ r.as.IsChunk)
      (heads : ∀ slot, DocMap.head (Function.update m key o) (key, slot) = m.head (key, slot))
      (members : some key = c ∨
        DocMap.membership (Function.update m key o) key = m.membership key) :
      Effect m c (Function.update m key o)
  /-- A chain is written anew. -/
  | rewrite {m' : DocMap} {root : ChainRoot} {old new : List (ObjectId × Payload)}
      (hold : m.Complete root.2.kind (m.head root) old) (h : m.Rewritten m' root old new)
      (members : some root.1 = c ∨
        root.2 ≠ .layers ∧ m'.membership root.1 = m.membership root.1) : Effect m c m'

variable {m m' : DocMap} {chains : ChainRoot → List (ObjectId × Payload)} {c : Option ObjectId}
  {id : ObjectId} {order : List ObjectId} {root : ChainRoot} {old new : List (ObjectId × Payload)}

/-- A chunk has no membership. -/
theorem membership_of_isChunk {as : Payload} (h : m.payloads id = some as) (hc : as.IsChunk) :
    m.membership id = none := by
  rw [membership, h]
  cases as with
  | composition _ => rcases hc with hc | hc <;> cases hc
  | _ => rfl

theorem membership_of_none (h : m id = none) : m.membership id = none := by
  rw [membership, payloads_eq_none.mpr h]
  rfl

theorem membership_congr (h : m' id = m id) : m'.membership id = m.membership id := by
  rw [membership, membership, payloads_congr h]

/-- A linked map stays linked. -/
theorem Effect.linked (h : m.Effect c m') (hl : m.Linked chains) :
    ∃ chains', m'.Linked chains' := by
  cases h with
  | same => exact ⟨chains, hl⟩
  | put hold _ heads _ => exact ⟨chains, hl.put hold heads⟩
  | @rewrite _ root old new hold h _ =>
    obtain rfl : old = chains root := hold.unique (hl.complete root)
    exact ⟨_, hl.rewrite h⟩

/-- A tidy map stays tidy. -/
theorem Effect.tidy (h : m.Effect c m') (ht : m.Tidy chains) : ∃ chains', m'.Tidy chains' := by
  cases h with
  | same => exact ⟨chains, ht⟩
  | put hold hnew heads _ => exact ⟨chains, ht.put hold hnew heads⟩
  | @rewrite _ root old new hold h _ =>
    obtain rfl : old = chains root := hold.unique (ht.linked.complete root)
    exact ⟨_, ht.rewrite h⟩

/-- The memberships of objects other than the owner do not change. -/
theorem Rewritten.membership_eq (h : m.Rewritten m' root old new)
    (hold : m.Complete root.2.kind (m.head root) old) (hid : id ≠ root.1) :
    m'.membership id = m.membership id := by
  have hnew : id ∈ Chains.keys new → m'.membership id = none := fun hk => by
    obtain ⟨-, as, has, hkind, -⟩ := h.complete.mem_keys hk
    exact membership_of_isChunk has (ChainSlot.isChunk hkind)
  by_cases hmem : id ∈ Chains.keys old
  · obtain ⟨-, as, has, hkind, -⟩ := hold.mem_keys hmem
    rw [membership_of_isChunk has (ChainSlot.isChunk hkind)]
    by_cases hk : id ∈ Chains.keys new
    · exact hnew hk
    · exact membership_of_none (h.erased id hmem hk)
  · by_cases hk : id ∈ Chains.keys new
    · rw [hnew hk, membership_of_none ((h.fresh id hk).resolve_left hmem)]
    · exact membership_congr (h.frame id hid hmem hk)

/-- The other memberships do not change. -/
theorem Effect.membership_eq (h : m.Effect c m') (hid : some id ≠ c) :
    m'.membership id = m.membership id := by
  cases h with
  | same => rfl
  | @put key o _ _ _ members =>
    by_cases hk : id = key
    · subst hk
      exact members.resolve_left hid
    · exact membership_congr (Function.update_of_ne hk _ _)
  | @rewrite _ root _ _ hold h members =>
    by_cases hk : id = root.1
    · subst hk
      exact (members.resolve_left hid).2
    · exact h.membership_eq hold hk

/-- The head of the layer order, by the membership. -/
theorem head_layers {mem : Membership} (h : m.membership id = some mem) :
    m.head (id, .layers) = mem.spillRoot := by
  obtain ⟨as, has, hmem⟩ := Option.bind_eq_some_iff.mp h
  rw [head_of_payloads (id, .layers) has]
  cases as with
  | composition c =>
    cases hmem
    rfl
  | _ => cases hmem

/-- A layer order is where it was as long as its chunks are. -/
theorem Holds.congr (h : m.Holds id order) (hmem : m'.membership id = m.membership id)
    (hchunks : ∀ l, m.Complete .layerOrderChunk (m.head (id, .layers)) l →
      ∀ k ∈ Chains.keys l, m'.payloads k = m.payloads k) : m'.Holds id order := by
  obtain ⟨mem, hm, hcount, hform⟩ := h
  refine ⟨mem, hmem.trans hm, hcount, ?_⟩
  split at hform
  · rw [if_pos ‹_›]
    exact hform
  · rw [if_neg ‹_›]
    obtain ⟨hlayers, ids, hlen, hcomplete⟩ := hform
    refine ⟨hlayers, ids, hlen, Chains.Complete.congr hcomplete (hchunks _ ?_)⟩
    rw [head_layers hm]
    exact hcomplete

/-- The other orders stay. -/
theorem Effect.holds (h : m.Effect c m') (hl : m.Linked chains) (hid : some id ≠ c)
    (ho : m.Holds id order) : m'.Holds id order := by
  refine ho.congr (h.membership_eq hid) fun l hcomplete k hk => ?_
  obtain rfl : l = chains (id, .layers) := hcomplete.unique (hl.complete (id, .layers))
  cases h with
  | same => rfl
  | @put key o hold _ _ _ =>
    refine payloads_update_of_ne ?_
    rintro rfl
    exact hl.notMem hold hk
  | @rewrite _ root old new hold h members =>
    obtain rfl : old = chains root := hold.unique (hl.complete root)
    refine payloads_congr (h.eq_of_mem hl (fun heq => ?_) hk)
    subst heq
    rcases members with hc | ⟨hlayers, -⟩
    · exact hid hc
    · exact hlayers rfl

/-- With an order for the composition whose order may change, every composition has one. -/
theorem Effect.ordered (h : m.Effect c m') (hl : m.Linked chains) (ho : m.Ordered)
    (hc : ∀ id ∈ c, m'.membership id = none ∨ ∃ order, m'.Holds id order) : m'.Ordered := by
  intro id
  by_cases hid : some id = c
  · exact hc id hid.symm
  · rw [h.membership_eq hid]
    exact (ho id).imp_right fun ⟨order, horder⟩ => ⟨order, h.holds hl hid horder⟩

end DocMap

/-! ## The writers of chains -/

section

variable {m : DocMap} {n : ObjectId} {stamp : ℕ}
  {chains : ChainRoot → List (ObjectId × Payload)} {composition content : ObjectId}
  {order newOrder : List ObjectId}

/-- Ids just handed out are valid, free and below the next id. -/
theorem Script.Fresh.free {ids : List ObjectId} {n' : ObjectId} (h : Fresh ids n n')
    (hm : m.Filed n) {k : ObjectId} (hk : k ∈ ids) :
    k.valid = true ∧ m k = none ∧ (k.synthetic = true ∨ k.toNat < n'.toNat) := by
  obtain ⟨hle, hlt⟩ := h.bound k hk
  refine ⟨?_, hm.eq_none (h.model k hk) hle, Or.inr hlt⟩
  have hpos := hm.pos
  rw [ObjectId.valid, bne_iff_ne]
  rintro rfl
  rw [UInt64.toNat_zero] at hle
  omega

/-- The order of a composition, read from it. -/
theorem ensures_readLayerOrder {c : CompositionRecord} (hl : m.Linked chains)
    (hc : m.payloads composition = some (.composition c)) (ho : c.membership.Holds m order) :
    (readLayerOrder c).Ensures stamp (fun p m' n' =>
      p = (order, Chains.keys (chains (composition, .layers))) ∧ m' = m ∧ n' = n) m n := by
  have hhead : m.head (composition, .layers) = c.spillRoot :=
    DocMap.head_of_payloads (composition, .layers) hc
  have hchain : m.Complete .layerOrderChunk c.spillRoot (chains (composition, .layers)) :=
    hhead ▸ hl.complete (composition, .layers)
  obtain ⟨hcount, hform⟩ := ho
  unfold readLayerOrder
  by_cases hfits : order.length ≤ maxInlineLayers
  · rw [if_pos hfits] at hform
    obtain ⟨hspill, hlayers⟩ := hform
    have hspill : c.spillRoot = 0 := hspill
    have hcount : c.layerCount = .ofNat order.length := hcount
    have hlayers : c.layers = fun i : Fin maxInlineLayers => order.getD i 0 := hlayers
    rw [hspill] at hchain
    rw [hspill, hcount, hlayers, toNat_ofNat_length hfits, take_ofFn_getD hfits, hchain.eq_nil]
    exact ⟨rfl, rfl, rfl⟩
  · rw [if_neg hfits] at hform
    obtain ⟨-, ids, hlen, hcomplete⟩ := hform
    have hids : chains (composition, .layers) = orderLinks order ids := hchain.unique hcomplete
    have hvalid : c.spillRoot.valid = true := by
      have hne : ids ≠ [] := fun hnil => by
        have := chunkCount_pos (n := order.length) (by omega)
        rw [hnil, List.length_nil] at hlen
        omega
      obtain ⟨id, rest, rfl⟩ := List.exists_cons_of_ne_nil hne
      rw [orderLinks, Chains.links] at hcomplete
      cases hcomplete with
      | link hv _ _ _ => exact Bool.eq_true_of_not_eq_false hv
    rw [if_pos hvalid]
    intro l hl'
    obtain rfl : l = orderLinks order ids := hl'.unique hcomplete.chain
    refine ⟨?_, rfl, rfl⟩
    rw [flatMap_orderLinks (hlen ▸ length_le_chunkCount _), hids]

private theorem headD_eq_getD (l : List ObjectId) : l.headD 0 = l.getD 0 0 := by
  cases l <;> rfl

/-- Ids reused by position and new ones: none twice, and the rest of the old ones is left out. -/
private theorem nodup_reuse {old fresh : List ObjectId} (chunks : ℕ) (hold : old.Nodup)
    (hfresh : fresh.Nodup) (hfree : ∀ k ∈ fresh, k ∉ old) :
    (old.take chunks ++ fresh).Nodup ∧
      ∀ k, k ∈ old.drop chunks ↔ k ∈ old ∧ k ∉ old.take chunks ++ fresh := by
  refine ⟨(hold.sublist (List.take_sublist _ _)).append hfresh
    fun k hk hk' => hfree k hk' (List.mem_of_mem_take hk), fun k => ⟨fun hk => ?_, ?_⟩⟩
  · refine ⟨List.mem_of_mem_drop hk, fun hki => ?_⟩
    rcases List.mem_append.mp hki with hki | hki
    · rw [← List.take_append_drop chunks old] at hold
      exact List.disjoint_of_nodup_append hold hki hk
    · exact hfree k hki (List.mem_of_mem_drop hk)
  · rintro ⟨hk, hki⟩
    rw [← List.take_append_drop chunks old] at hk
    rcases List.mem_append.mp hk with hk | hk
    · exact absurd (List.mem_append_left _ hk) hki
    · exact hk

/-- A chunk whose members and successor stay is not written again: it is the one there. -/
private theorem payloads_of_unchanged {base : CompositionRecord} {fresh : List ObjectId} {p : ℕ}
    (hl : m.Linked chains) (hc : m.payloads composition = some (.composition base))
    (ho : base.membership.Holds m order)
    (hp : p < (Chains.keys (chains (composition, .layers))).length)
    (hpn : p < chunkCount newOrder.length) (hmembers : chunkAt newOrder p = chunkAt order p)
    (hnext : (Chains.keys (chains (composition, .layers))).getD (p + 1) 0 =
      ((Chains.keys (chains (composition, .layers))).take (chunkCount newOrder.length) ++
        fresh).getD (p + 1) 0) :
    m.payloads (((Chains.keys (chains (composition, .layers))).take
      (chunkCount newOrder.length) ++ fresh).getD p 0) = some (orderChunk (chunkAt newOrder p)
        (((Chains.keys (chains (composition, .layers))).take (chunkCount newOrder.length) ++
          fresh).getD (p + 1) 0)) := by
  have hchain := hl.complete (composition, .layers)
  rw [DocMap.head_of_payloads (composition, .layers) hc] at hchain
  obtain ⟨-, hform⟩ := ho
  split at hform
  · -- an order that fits has no chunk
    have hspill : base.spillRoot = 0 := hform.1
    rw [show (Payload.composition base).head ChainSlot.layers = 0 from hspill] at hchain
    rw [DocMap.Complete.eq_nil hchain] at hp
    cases hp
  obtain ⟨-, ids, hlen, hcomplete⟩ := hform
  have hids : chains (composition, .layers) = orderLinks order ids := hchain.unique hcomplete
  have hkeys : Chains.keys (chains (composition, .layers)) = ids := by
    rw [hids]
    exact Chains.keys_links
  rw [hkeys] at hp hnext ⊢
  have hat : (ids.take (chunkCount newOrder.length) ++ fresh).getD p 0 = ids.getD p 0 := by
    rw [List.getD_append _ _ _ _ (by rw [List.length_take]; omega), List.getD_eq_getElem _ _ hp,
      List.getD_eq_getElem _ _ (by rw [List.length_take]; omega), List.getElem_take]
  have hmem : (ids.getD p 0, orderChunk (chunkAt order p) (ids.getD (p + 1) 0)) ∈
      orderLinks order ids := by
    rw [orderLinks, Chains.links_eq_map]
    exact List.mem_map.mpr ⟨p, List.mem_range.mpr hp, rfl⟩
  rw [hat, ← hnext, hmembers]
  exact (hcomplete.mem hmem).2.1

/-- `store_membership` writes the layer order of a composition. -/
theorem ensures_storeMembership {base : CompositionRecord} (hl : m.Linked chains) (hm : m.Filed n)
    (hc : m.payloads composition = some (.composition base)) (ho : base.membership.Holds m order) :
    (storeMembership composition base order (Chains.keys (chains (composition, .layers)))
      newOrder).Ensures stamp (fun _ m' n' => m.Effect (some composition) m' ∧ m'.Filed n' ∧
        m'.Holds composition newOrder) m n := by
  set oldIds := Chains.keys (chains (composition, .layers)) with holdIds
  have hchain := hl.complete (composition, .layers)
  have hnotchunk : ∀ c : CompositionRecord, ¬ (Payload.composition c).IsChunk := fun c hk => by
    rcases hk with hk | hk <;> cases hk
  have hkey : composition.synthetic = true ∨ composition.toNat < n.toNat := by
    obtain ⟨r, hr, -⟩ := Option.map_eq_some_iff.mp hc
    exact hm.below composition r hr
  have hheads : ∀ c : CompositionRecord, ∀ slot ≠ ChainSlot.layers,
      (Payload.composition c).head slot = (Payload.composition base).head slot :=
    fun c slot hs => by
    cases slot with
    | layers => exact absurd rfl hs
    | identity => rfl
    | inputs => rfl
  unfold storeMembership
  by_cases hfits : newOrder.length ≤ maxInlineLayers
  · simp only [if_pos hfits]
    rw [ensures_bind, ensures_eraseAll, ensures_set]
    -- nothing is left of the chain
    have hrewritten := DocMap.rewritten_of_store stamp (composition, .layers)
      (.composition { base with
        layerCount := .ofNat newOrder.length
        spillRoot := 0
        layers := fun i : Fin maxInlineLayers => newOrder.getD i 0 })
      (fun p => orderChunk (chunkAt newOrder p)) [] oldIds [] hc (hnotchunk _) (hnotchunk _) hchain
      List.nodup_nil (by simp) (fun _ _ => ⟨rfl, rfl⟩) (by simp) (by simp [holdIds]) (by simp)
      List.nodup_nil (by simp [Chains.links]) rfl (hheads _)
    refine ⟨.rewrite hchain hrewritten (Or.inl rfl), (hm.without _).put hkey, _,
      by rw [DocMap.membership, DocMap.payloads_update_self]; rfl, rfl, ?_⟩
    rw [if_pos hfits]
    exact ⟨rfl, rfl⟩
  · simp only [if_neg hfits]
    rw [ensures_bind]
    refine ensures_allocateIds fun fresh n' hlength hfresh => ?_
    rw [ensures_bind, ensures_eraseAll, ensures_bind, ensures_setAll, ensures_set]
    set chunks := chunkCount newOrder.length
    set ids := oldIds.take chunks ++ fresh with hids
    have hlen : ids.length = chunks := by
      rw [hids, List.length_append, List.length_take, hlength]
      omega
    have holdNodup : oldIds.Nodup := hchain.nodup
    have hfree : ∀ k ∈ fresh, k ∉ oldIds := fun k hk hold => by
      obtain ⟨as, has, -, -, -⟩ := hl.mem hold
      rw [DocMap.payloads_eq_none.mpr (hfresh.free hm hk).2.1] at has
      cases has
    obtain ⟨hnodup, hdead⟩ := nodup_reuse chunks holdNodup hfresh.nodup hfree
    have hmem : ∀ k ∈ ids, k ∈ oldIds ∨ k ∈ fresh := fun k hk =>
      (List.mem_append.mp hk).imp_left List.mem_of_mem_take
    set unchanged : ℕ → Prop := fun p => p < oldIds.length ∧
      chunkAt newOrder p = chunkAt order p ∧ oldIds.getD (p + 1) 0 = ids.getD (p + 1) 0
    set write : ℕ → ObjectId × Payload := fun p =>
      (ids.getD p 0, orderChunk (chunkAt newOrder p) (ids.getD (p + 1) 0))
    have hlinks : orderLinks newOrder ids = (List.range chunks).map write := by
      rw [orderLinks, Chains.links_eq_map, hlen]
    set recs := ((List.range chunks).filter fun p => decide (¬ unchanged p)).map write
    have hsub : recs.Sublist (orderLinks newOrder ids) := by
      rw [hlinks]
      exact List.filter_sublist.map write
    have hkeys : Chains.keys (orderLinks newOrder ids) = ids := Chains.keys_links
    have hkeysNodup : (Chains.keys (orderLinks newOrder ids)).Nodup := by
      rw [hkeys]
      exact hnodup
    have hrecs : ∀ q ∈ recs, q.1 ∈ ids := fun q hq =>
      hkeys ▸ List.mem_map_of_mem (hsub.subset hq)
    have hkept : ∀ q ∈ orderLinks newOrder ids, q ∉ recs → m.payloads q.1 = some q.2 := by
      intro q hq hnot
      rw [hlinks] at hq
      obtain ⟨p, hp, rfl⟩ := List.mem_map.mp hq
      have hunchanged : unchanged p := by
        by_contra hch
        exact hnot (List.mem_map_of_mem (List.mem_filter.mpr ⟨hp, decide_eq_true hch⟩))
      exact payloads_of_unchanged hl hc ho hunchanged.1 (List.mem_range.mp hp) hunchanged.2.1
        hunchanged.2.2
    have hrewritten := DocMap.rewritten_of_store stamp (composition, .layers)
      (.composition { base with
        layerCount := .ofNat newOrder.length
        spillRoot := ids.getD 0 0
        layers := fun _ => 0 })
      (fun p => orderChunk (chunkAt newOrder p)) ids (oldIds.drop chunks) recs hc (hnotchunk _)
      (hnotchunk _) hchain hnodup ?_ (fun _ _ => ⟨rfl, rfl⟩) ?_ hdead hsub.subset
      ((hsub.map Prod.fst).nodup hkeysNodup) hkept (headD_eq_getD ids).symm (hheads _)
    · refine ⟨.rewrite hchain hrewritten (Or.inl rfl), ?_, _,
        by rw [DocMap.membership, DocMap.payloads_update_self]; rfl, rfl, ?_⟩
      · refine DocMap.Filed.put (((hm.mono hfresh.le).without _).withAll fun q hq => ?_)
          (hkey.imp_right (·.trans_le hfresh.le))
        rcases hmem _ (hrecs q hq) with hk | hk
        · obtain ⟨as, has, -, -, -⟩ := hl.mem hk
          obtain ⟨r, hr, -⟩ := Option.map_eq_some_iff.mp has
          exact (hm.below _ r hr).imp_right (·.trans_le hfresh.le)
        · exact (hfresh.free hm hk).2.2
      · rw [if_neg hfits]
        refine ⟨rfl, ids, hlen, ?_⟩
        have hcomplete := hrewritten.complete
        rw [DocMap.head_of_payloads (composition, .layers) DocMap.payloads_update_self]
          at hcomplete
        exact hcomplete
    · intro k hk
      rcases hmem k hk with hk | hk
      · obtain ⟨-, -, -, hv, -⟩ := hl.mem hk
        exact hv
      · exact (hfresh.free hm hk).1
    · intro k hk
      exact (hmem k hk).imp_right fun hk => (hfresh.free hm hk).2.1

/-- `write_content_chain` writes a chain of a content. -/
theorem ensures_writeContentChain (slot : ChainSlot) {count : ℕ} {fill : ℕ → ObjectId → Payload}
    (head : ContentRecord → ObjectId) (onRecord : ContentRecord → ObjectId → ContentRecord)
    {c : Option ObjectId} (hslot : slot ≠ .layers)
    (hhead : ∀ r, head r = (Payload.content r).head slot)
    (hfill : ∀ i k, (fill i k).next = k ∧ (fill i k).kind = slot.kind)
    (hset : ∀ r k, (Payload.content (onRecord r k)).head slot = k)
    (hother : ∀ r k, ∀ slot' ≠ slot,
      (Payload.content (onRecord r k)).head slot' = (Payload.content r).head slot')
    (hl : m.Linked chains) (hm : m.Filed n) :
    (writeContentChain content slot.kind count fill head onRecord).Ensures stamp
      (fun _ m' n' => m.Effect c m' ∧ m'.Filed n') m n := by
  unfold writeContentChain
  rw [ensures_bind, ensures_find]
  cases hc : m.payloads content with
  | none =>
    rw [show (m content).map ObjectRecord.as = none from hc]
    exact ⟨.same, hm⟩
  | some as =>
    rw [show (m content).map ObjectRecord.as = some as from hc]
    cases as with
    | content base =>
      have hchain : m.Complete slot.kind (head base) (chains (content, slot)) := by
        rw [hhead, ← DocMap.head_of_payloads (content, slot) hc]
        exact hl.complete (content, slot)
      have hnotchunk : ∀ r : ContentRecord, ¬ (Payload.content r).IsChunk := fun r hk => by
        rcases hk with hk | hk <;> cases hk
      have hkey : content.synthetic = true ∨ content.toNat < n.toNat := by
        obtain ⟨r, hr, -⟩ := Option.map_eq_some_iff.mp hc
        exact hm.below content r hr
      -- the new chain, once the old one is erased
      have hwrite : ∀ old : List ObjectId, old = Chains.keys (chains (content, slot)) →
          (do
            let chunkIds ← allocateIds count
            setAll ((List.range count).reverse.map fun p =>
              (chunkIds.getD p 0, fill p (chunkIds.getD (p + 1) 0)))
            setRetained content (.content (onRecord base (chunkIds.getD 0 0))) :
              Script Unit).Ensures stamp (fun _ m' n' => m.Effect c m' ∧ m'.Filed n')
                (without m old) n := by
        rintro old rfl
        rw [ensures_bind]
        refine ensures_allocateIds fun ids n' hlength hfresh => ?_
        rw [ensures_bind, ensures_setAll, ensures_setRetained, ← hlength]
        have hrecs : ((List.range ids.length).reverse.map fun p =>
            (ids.getD p 0, fill p (ids.getD (p + 1) 0))) = (Chains.links 0 fill ids).reverse := by
          rw [Chains.links_eq_map, List.map_reverse]
        rw [hrecs]
        have hrewritten := DocMap.rewritten_of_store stamp (content, slot)
          (.content (onRecord base (ids.getD 0 0))) fill ids (Chains.keys (chains (content, slot)))
          (Chains.links 0 fill ids).reverse hc (hnotchunk _) (hnotchunk _)
          (hl.complete (content, slot)) hfresh.nodup (fun k hk => (hfresh.free hm hk).1) hfill
          (fun k hk => Or.inr (hfresh.free hm hk).2.1) (fun k => ⟨fun hk => ⟨hk, fun hki => ?_⟩,
            And.left⟩) (List.reverse_subset.mpr (List.Subset.refl _)) ?_
          (fun q hq hnot => absurd (List.mem_reverse.mpr hq) hnot)
          ((hset _ _).trans (headD_eq_getD ids).symm) (hother _ _)
        · refine ⟨.rewrite (hl.complete (content, slot)) hrewritten (Or.inr ⟨hslot, ?_⟩), ?_⟩
          · rw [DocMap.membership, DocMap.payloads_update_self, DocMap.membership, hc]
            rfl
          · refine DocMap.Filed.put (((hm.mono hfresh.le).without _).withAll fun q hq => ?_)
              (hkey.imp_right (·.trans_le hfresh.le))
            exact (hfresh.free hm (Chains.fst_mem_of_mem_links (List.mem_reverse.mp hq))).2.2
        · obtain ⟨as, has, -, -, -⟩ := hl.mem hk
          rw [DocMap.payloads_eq_none.mpr (hfresh.free hm hki).2.1] at has
          cases has
        · rw [List.map_reverse, List.nodup_reverse]
          have hkeys : Chains.keys (Chains.links 0 fill ids) = ids := Chains.keys_links
          rw [show (Chains.links 0 fill ids).map Prod.fst = ids from hkeys]
          exact hfresh.nodup
      by_cases hv : (head base).valid = true
      · simp only [hv, if_true]
        rw [ensures_bind]
        intro l hl'
        obtain rfl : l = chains (content, slot) := hl'.unique hchain.chain
        change (eraseAll (Chains.keys (chains (content, slot))) >>= _).Ensures stamp _ m n
        rw [ensures_bind, ensures_eraseAll]
        exact hwrite _ rfl
      · simp only [hv]
        have hnil : chains (content, slot) = [] := by
          have hzero : head base = 0 := by simpa [ObjectId.valid] using hv
          rw [hzero] at hchain
          exact hchain.eq_nil
        have hm' : without m [] = m := funext fun k => by simp [without]
        have := hwrite [] (by rw [hnil]; rfl)
        rw [hm'] at this
        exact this
    | composition r => exact ⟨.same, hm⟩
    | layer r => exact ⟨.same, hm⟩
    | orderChunk r => exact ⟨.same, hm⟩
    | textChunk r => exact ⟨.same, hm⟩

end

end ArbitraryComposer
