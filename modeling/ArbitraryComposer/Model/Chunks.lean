import ArbitraryComposer.Model.ScriptLogic

/-!
# Chunks and Their Owners

Lists that outgrow a record continue in chunk records, which are ordinary entries of the map and
found from their owner only: the layer order from a composition, the identity text and the inputs
from a content. A map is linked when every chain runs to its end and no chunk is on two of them,
and tidy when besides every chunk is on one.

## Main definitions

- `ChainRoot`: an owner and one of its chains.
- `DocMap.Linked`, `DocMap.Tidy`: maps whose chains are complete and disjoint, and have all chunks.
- `DocMap.Rewritten`: one chain of a map was written anew.
- `DocMap.Filed`: records are filed under their id, and the ids still to be handed out are free.

## Main results

- `DocMap.Linked.put`, `.clear`, `.rewrite` and `DocMap.Tidy.put`, `.rewrite`: what edits keep.
- `DocMap.rewritten_of_store`: a store writes the chain anew.
-/

namespace ArbitraryComposer

/-- The chains a record may own. -/
inductive ChainSlot where
  /-- The spilled layer order of a composition. -/
  | layers
  /-- The identity text of a content. -/
  | identity
  /-- The spilled inputs of a content. -/
  | inputs
  deriving DecidableEq, Repr

/-- The kind of the chunks of a chain. -/
def ChainSlot.kind : ChainSlot → RecordKind
  | layers => .layerOrderChunk
  | identity => .textChunk
  | inputs => .layerOrderChunk

/-- An owner and one of its chains. -/
abbrev ChainRoot : Type := ObjectId × ChainSlot

namespace Payload

/-- The head of a chain; invalid when the record does not own it. -/
def head : Payload → ChainSlot → ObjectId
  | .composition c, .layers => c.spillRoot
  | .content c, .identity => c.identityRoot
  | .content c, .inputs => c.inputsRoot
  | _, _ => 0

/-- Whether a record is a chunk. -/
def IsChunk (as : Payload) : Prop := as.kind = .layerOrderChunk ∨ as.kind = .textChunk

instance (as : Payload) : Decidable as.IsChunk := inferInstanceAs (Decidable (_ ∨ _))

/-- A chunk owns no chain. -/
theorem IsChunk.head_eq {as : Payload} (h : as.IsChunk) (slot : ChainSlot) : as.head slot = 0 := by
  cases as with
  | orderChunk c => rfl
  | textChunk c => rfl
  | composition c => rcases h with h | h <;> cases h
  | layer c => rcases h with h | h <;> cases h
  | content c => rcases h with h | h <;> cases h

end Payload

theorem ChainSlot.isChunk {slot : ChainSlot} {as : Payload} (h : as.kind = slot.kind) :
    as.IsChunk := by
  cases slot with
  | layers => exact Or.inl h
  | identity => exact Or.inr h
  | inputs => exact Or.inl h

namespace DocMap

/-- The head of a chain; invalid when there is no owner. -/
def head (m : DocMap) (root : ChainRoot) : ObjectId :=
  ((m.payloads root.1).map fun as => as.head root.2).getD 0

/-- A chain of chunks of a kind, to an invalid id. -/
def Complete (m : DocMap) (kind : RecordKind) (head : ObjectId) (l : List (ObjectId × Payload)) :
    Prop :=
  Chains.Complete (fun id => id.valid = false) Payload.next (fun as => as.kind = kind) m.payloads
    head l

/-- The chains of a map, by their root: each is complete and no chunk is on two of them. -/
def Linked (m : DocMap) (chains : ChainRoot → List (ObjectId × Payload)) : Prop :=
  Chains.Linked (fun id => id.valid = false) Payload.next
    (fun root as => as.kind = root.2.kind) m.payloads m.head chains

/-- Besides, every chunk is on a chain. -/
structure Tidy (m : DocMap) (chains : ChainRoot → List (ObjectId × Payload)) : Prop where
  /-- The chains are complete and disjoint. -/
  linked : m.Linked chains
  /-- Every chunk is on one. -/
  owned : ∀ k as, m.payloads k = some as → as.IsChunk → ∃ root, k ∈ Chains.keys (chains root)

variable {m m' : DocMap} {chains : ChainRoot → List (ObjectId × Payload)} {root : ChainRoot}
  {k key id : ObjectId} {as : Payload} {l new : List (ObjectId × Payload)} {stamp : ℕ}
  {o : Option ObjectRecord} {kind : RecordKind}

/-! ## Lookups -/

theorem payloads_of_eq {r : ObjectRecord} (h : m k = some r) : m.payloads k = some r.as := by
  rw [payloads, h, Option.map_some]

theorem payloads_eq_none : m.payloads k = none ↔ m k = none := Option.map_eq_none_iff

theorem payloads_congr (h : m' k = m k) : m'.payloads k = m.payloads k := by
  rw [payloads, payloads, h]

theorem head_of_payloads (root : ChainRoot) (h : m.payloads root.1 = some as) : m.head root = as.head root.2 := by
  rw [head, h]
  rfl

theorem head_of_none (root : ChainRoot) (h : m root.1 = none) : m.head root = 0 := by
  rw [head, payloads_eq_none.mpr h]
  rfl

theorem head_of_isChunk (root : ChainRoot) (h : m.payloads root.1 = some as) (hc : as.IsChunk) : m.head root = 0 :=
  (head_of_payloads root h).trans (hc.head_eq _)

theorem head_congr (h : m' root.1 = m root.1) : m'.head root = m.head root := by
  rw [head, head, payloads_congr h]

@[simp]
theorem payloads_update_self : DocMap.payloads (Function.update m key o) key =
    o.map ObjectRecord.as := by
  rw [payloads, Function.update_self]

theorem payloads_update_of_ne (h : k ≠ key) :
    DocMap.payloads (Function.update m key o) k = m.payloads k :=
  payloads_congr (Function.update_of_ne h _ _)

/-- A complete chain is what reading it finds. -/
theorem Complete.chain (h : m.Complete kind id l) : m.Chain kind id l := by
  induction h with
  | stop hs => exact .stop fun hv => fun ends => by rw [hs] at hv; cases hv
  | @link id as rest hs has hk _ ih =>
    obtain ⟨r, hr, rfl⟩ := Option.map_eq_some_iff.mp has
    exact .chunk (by simpa using hs) hr (r.kind_eq ▸ hk) ih

/-- An invalid head has the empty chain. -/
theorem Complete.of_zero (h : id = 0) : m.Complete kind id [] := .stop (by rw [h]; rfl)

/-- The chain of an invalid head is empty. -/
theorem Complete.eq_nil (h : m.Complete kind 0 l) : l = [] := h.unique (.stop rfl)

/-- A key on a chain of a linked map has a chunk. -/
theorem Linked.mem (h : m.Linked chains) (hk : k ∈ Chains.keys (chains root)) :
    ∃ as, m.payloads k = some as ∧ as.IsChunk ∧ k.valid = true ∧ (k, as) ∈ chains root := by
  obtain ⟨hv, as, has, hkind, hmem⟩ := (h.complete root).mem_keys hk
  exact ⟨as, has, ChainSlot.isChunk hkind, by simpa using hv, hmem⟩

/-- A record that is no chunk is on no chain. -/
theorem Linked.notMem (h : m.Linked chains) (hk : ∀ as ∈ m.payloads k, ¬ as.IsChunk) :
    k ∉ Chains.keys (chains root) := fun hmem => by
  obtain ⟨as, has, hc, -, -⟩ := h.mem hmem
  exact hk as has hc

/-- In a tidy map every chunk is on exactly one chain. -/
theorem Tidy.existsUnique (h : m.Tidy chains) (hk : m.payloads k = some as) (hc : as.IsChunk) :
    ∃! root : ChainRoot, ∃ l, m.Complete root.2.kind (m.head root) l ∧ k ∈ Chains.keys l := by
  obtain ⟨root, hroot⟩ := h.owned k as hk hc
  refine ⟨root, ⟨_, h.linked.complete root, hroot⟩, fun root' hroot' => ?_⟩
  obtain ⟨l, hl, hkl⟩ := hroot'
  have heq : l = chains root' := hl.unique (h.linked.complete root')
  exact h.linked.disjoint root' root k (heq ▸ hkl) hroot

/-! ## Edits of one record -/

/-- A record that is no chunk is replaced, and its chains start where they did. -/
theorem Linked.put (h : m.Linked chains) (hold : ∀ as ∈ m.payloads key, ¬ as.IsChunk)
    (heads : ∀ slot, DocMap.head (Function.update m key o) (key, slot) = m.head (key, slot)) :
    DocMap.Linked (Function.update m key o) chains := by
  refine Chains.Linked.congr h (fun root => ?_) fun root k hk => ?_
  · obtain ⟨id, slot⟩ := root
    by_cases hid : id = key
    · exact hid ▸ heads slot
    · exact head_congr (Function.update_of_ne hid _ _)
  · refine payloads_update_of_ne ?_
    rintro rfl
    exact h.notMem hold hk

/-- The same in a tidy map. -/
theorem Tidy.put (h : m.Tidy chains) (hold : ∀ as ∈ m.payloads key, ¬ as.IsChunk)
    (hnew : ∀ r ∈ o, ¬ r.as.IsChunk)
    (heads : ∀ slot, DocMap.head (Function.update m key o) (key, slot) = m.head (key, slot)) :
    DocMap.Tidy (Function.update m key o) chains := by
  refine ⟨h.linked.put hold heads, fun k as has hc => ?_⟩
  by_cases hk : k = key
  · subst hk
    rw [payloads_update_self] at has
    obtain ⟨r, hr, rfl⟩ := Option.map_eq_some_iff.mp has
    exact absurd hc (hnew r hr)
  · rw [payloads_update_of_ne hk] at has
    exact h.owned k as has hc

/-- A record that is no chunk is replaced by one that owns nothing, or erased. -/
theorem Linked.clear (h : m.Linked chains) (hold : ∀ as ∈ m.payloads key, ¬ as.IsChunk)
    (heads : ∀ slot, DocMap.head (Function.update m key o) (key, slot) = 0) :
    DocMap.Linked (Function.update m key o)
      (fun root => if root.1 = key then [] else chains root) where
  complete root := by
    obtain ⟨id, slot⟩ := root
    by_cases hid : id = key
    · subst hid
      simp only [if_true]
      exact Complete.of_zero (heads slot)
    · simp only [if_neg hid]
      rw [head_congr (Function.update_of_ne hid _ _)]
      refine Chains.Complete.congr (h.complete (id, slot)) fun k hk => payloads_update_of_ne ?_
      rintro rfl
      exact h.notMem hold hk
  disjoint i j k hi hj := by
    by_cases hki : i.1 = key
    · simp [hki] at hi
    · by_cases hkj : j.1 = key
      · simp [hkj] at hj
      · rw [if_neg hki] at hi
        rw [if_neg hkj] at hj
        exact h.disjoint i j k hi hj

/-! ## A chain written anew -/

/-- One chain was written anew; `old` is what it was before. -/
structure Rewritten (m m' : DocMap) (root : ChainRoot) (old new : List (ObjectId × Payload)) :
    Prop where
  /-- The owner is no chunk. -/
  owner : ∀ as ∈ m.payloads root.1, ¬ as.IsChunk
  /-- It still is none. -/
  owner' : ∀ as ∈ m'.payloads root.1, ¬ as.IsChunk
  /-- The new chain is complete. -/
  complete : m'.Complete root.2.kind (m'.head root) new
  /-- The other chains of the owner start where they did. -/
  heads : ∀ slot ≠ root.2, m'.head (root.1, slot) = m.head (root.1, slot)
  /-- The new chain has ids of the old one, and free ones. -/
  fresh : ∀ k ∈ Chains.keys new, k ∈ Chains.keys old ∨ m k = none
  /-- The rest of the old one was erased. -/
  erased : ∀ k ∈ Chains.keys old, k ∉ Chains.keys new → m' k = none
  /-- Nothing else changed. -/
  frame : ∀ k ≠ root.1, k ∉ Chains.keys old → k ∉ Chains.keys new → m' k = m k

/-- The heads of the other chains did not change. -/
private theorem Rewritten.head_eq {root' : ChainRoot} (h : m.Rewritten m' root (chains root) new)
    (hl : m.Linked chains) (hne : root' ≠ root) : m'.head root' = m.head root' := by
  obtain ⟨id, slot⟩ := root'
  by_cases hid : id = root.1
  · subst hid
    refine h.heads slot fun hslot => hne ?_
    rw [hslot]
  -- an id of a chunk, before or after, owns nothing
  have hnew : id ∈ Chains.keys new → m'.head (id, slot) = 0 := fun hk => by
    obtain ⟨-, as, has, hkind, -⟩ := h.complete.mem_keys hk
    exact head_of_isChunk _ has (ChainSlot.isChunk hkind)
  by_cases hold : id ∈ Chains.keys (chains root)
  · obtain ⟨as, has, hc, -, -⟩ := hl.mem hold
    rw [head_of_isChunk (id, slot) has hc]
    by_cases hk : id ∈ Chains.keys new
    · exact hnew hk
    · exact head_of_none _ (h.erased id hold hk)
  · by_cases hk : id ∈ Chains.keys new
    · rw [hnew hk, head_of_none (id, slot) ((h.fresh id hk).resolve_left hold)]
    · exact head_congr (h.frame id hid hold hk)

/-- What is on another chain did not change. -/
theorem Rewritten.eq_of_mem {root' : ChainRoot} (h : m.Rewritten m' root (chains root) new)
    (hl : m.Linked chains) (hne : root' ≠ root) (hk : k ∈ Chains.keys (chains root')) :
    m' k = m k := by
  have hold : k ∉ Chains.keys (chains root) := fun hold => hne (hl.disjoint _ _ k hk hold)
  refine h.frame k ?_ hold fun hnew => ?_
  · rintro rfl
    exact hl.notMem h.owner hk
  · obtain ⟨as, has, -, -, -⟩ := hl.mem hk
    rw [payloads_eq_none.mpr ((h.fresh k hnew).resolve_left hold)] at has
    cases has

/-- A linked map stays linked. -/
theorem Linked.rewrite (hl : m.Linked chains) (h : m.Rewritten m' root (chains root) new) :
    m'.Linked (Function.update chains root new) := by
  refine Chains.Linked.rewrite hl h.complete (fun _ hne => h.head_eq hl hne)
    (fun _ hne k hk => payloads_congr (h.eq_of_mem hl hne hk)) fun k hk => ?_
  refine (h.fresh k hk).imp_right fun hnone root' hmem => ?_
  obtain ⟨as, has, -, -, -⟩ := hl.mem hmem
  rw [payloads_eq_none.mpr hnone] at has
  cases has

/-- A tidy map stays tidy. -/
theorem Tidy.rewrite (ht : m.Tidy chains) (h : m.Rewritten m' root (chains root) new) :
    m'.Tidy (Function.update chains root new) := by
  refine ⟨ht.linked.rewrite h, fun k as has hc => ?_⟩
  by_cases hk : k ∈ Chains.keys new
  · exact ⟨root, by rwa [Function.update_self]⟩
  have hold : k ∉ Chains.keys (chains root) := fun hold => by
    rw [payloads_eq_none.mpr (h.erased k hold hk)] at has
    cases has
  have hne : k ≠ root.1 := by
    rintro rfl
    exact h.owner' as has hc
  rw [payloads_congr (h.frame k hne hold hk)] at has
  obtain ⟨root', hroot'⟩ := ht.owned k as has hc
  refine ⟨root', ?_⟩
  rwa [Function.update_of_ne]
  rintro rfl
  exact hold hroot'

/-- The records of a chain, once written, are in the map. -/
private theorem payloads_of_store {fill : ℕ → ObjectId → Payload} {ids dead : List ObjectId}
    {recs : List (ObjectId × Payload)} (hids : ids.Nodup) (hdead : ∀ k ∈ ids, k ∉ dead)
    (hrecs : recs ⊆ Chains.links 0 fill ids) (hnodup : (recs.map Prod.fst).Nodup)
    (hkept : ∀ q ∈ Chains.links 0 fill ids, q ∉ recs → m.payloads q.1 = some q.2)
    {q : ObjectId × Payload} (hq : q ∈ Chains.links 0 fill ids) :
    DocMap.payloads (Script.withAll stamp (Script.without m dead) recs) q.1 = some q.2 := by
  have hkeys : (Chains.keys (Chains.links 0 fill ids)).Nodup := by rwa [Chains.keys_links]
  by_cases hrec : q ∈ recs
  · exact payloads_of_eq (Script.withAll_of_mem hnodup hrec)
  · -- a record not written is the one the chain had there
    have hnot : q.1 ∉ recs.map Prod.fst := fun hmem => by
      obtain ⟨q', hq', heq⟩ := List.mem_map.mp hmem
      have : q' = q := List.inj_on_of_nodup_map hkeys (hrecs hq') hq heq
      exact hrec (this ▸ hq')
    have hmem : q.1 ∈ ids := Chains.fst_mem_of_mem_links hq
    have heq : Script.withAll stamp (Script.without m dead) recs q.1 = m q.1 := by
      rw [Script.withAll_of_notMem hnot, Script.without, if_neg (hdead _ hmem)]
    rw [payloads_congr heq]
    exact hkept q hq hrec

/-- The chain of an owner is written anew: ids of the old chain that the new one does without are
erased, records that differ are written, and then the owner. -/
theorem rewritten_of_store {base : Payload} {old : List (ObjectId × Payload)} (stamp : ℕ)
    (root : ChainRoot) (as : Payload) (fill : ℕ → ObjectId → Payload) (ids dead : List ObjectId)
    (recs : List (ObjectId × Payload)) (hroot : m.payloads root.1 = some base) (hbase : ¬ base.IsChunk) (has : ¬ as.IsChunk)
    (hold : m.Complete root.2.kind (m.head root) old) (hids : ids.Nodup)
    (hvalid : ∀ k ∈ ids, k.valid = true)
    (hfill : ∀ i k, (fill i k).next = k ∧ (fill i k).kind = root.2.kind)
    (hfresh : ∀ k ∈ ids, k ∈ Chains.keys old ∨ m k = none)
    (hdead : ∀ k, k ∈ dead ↔ k ∈ Chains.keys old ∧ k ∉ ids)
    (hrecs : recs ⊆ Chains.links 0 fill ids) (hnodup : (recs.map Prod.fst).Nodup)
    (hkept : ∀ q ∈ Chains.links 0 fill ids, q ∉ recs → m.payloads q.1 = some q.2)
    (hhead : as.head root.2 = ids.headD 0)
    (hheads : ∀ slot ≠ root.2, as.head slot = base.head slot) :
    m.Rewritten (Function.update (Script.withAll stamp (Script.without m dead) recs) root.1
      (some ⟨root.1, stamp, as⟩)) root old (Chains.links 0 fill ids) := by
  have howner : ∀ as ∈ m.payloads root.1, ¬ as.IsChunk := fun as' has' => by
    obtain rfl : base = as' := Option.some.inj (hroot.symm.trans has')
    exact hbase
  have hself : DocMap.payloads (Function.update (Script.withAll stamp (Script.without m dead) recs)
      root.1 (some ⟨root.1, stamp, as⟩)) root.1 = some as := payloads_update_self
  -- the owner is neither on the old chain nor on the new one
  have hroot_old : root.1 ∉ Chains.keys old := fun hk => by
    obtain ⟨-, as', has', hkind, -⟩ := hold.mem_keys hk
    exact howner as' has' (ChainSlot.isChunk hkind)
  have hroot_new : root.1 ∉ ids := fun hk => by
    rcases hfresh _ hk with hk | hk
    · exact hroot_old hk
    · rw [payloads_eq_none.mpr hk] at hroot
      cases hroot
  have hwritten : ∀ q ∈ Chains.links 0 fill ids, DocMap.payloads (Function.update
      (Script.withAll stamp (Script.without m dead) recs) root.1 (some ⟨root.1, stamp, as⟩)) q.1 =
        some q.2 := fun q hq => by
    have hmem : q.1 ∈ ids := Chains.fst_mem_of_mem_links hq
    have hne : q.1 ≠ root.1 := fun heq => hroot_new (heq ▸ hmem)
    rw [payloads_update_of_ne hne]
    exact payloads_of_store hids (fun k hk hd => ((hdead k).mp hd).2 hk) hrecs hnodup hkept hq
  have hout : ∀ k ≠ root.1, k ∉ ids → Function.update
      (Script.withAll stamp (Script.without m dead) recs) root.1 (some ⟨root.1, stamp, as⟩) k =
        Script.without m dead k := fun k hk hki => by
    rw [Function.update_of_ne hk]
    refine Script.withAll_of_notMem fun hmem => hki ?_
    obtain ⟨q, hq, rfl⟩ := List.mem_map.mp hmem
    exact Chains.fst_mem_of_mem_links (hrecs hq)
  refine ⟨howner, fun as' has' => ?_, ?_, fun slot hslot => ?_, fun k hk => ?_, fun k hk hki => ?_,
    fun k hk hkold hki => ?_⟩
  · cases hself.symm.trans has'
    exact has
  · rw [head_of_payloads root hself, hhead]
    exact Chains.complete_links rfl (fun k hk => by simp [hvalid k hk]) hfill hwritten
  · rw [head_of_payloads (root.1, slot) hself, head_of_payloads (root.1, slot)
      hroot]
    exact hheads slot hslot
  · rw [Chains.keys_links] at hk
    exact hfresh k hk
  · rw [Chains.keys_links] at hki
    rw [hout k (fun heq => hroot_old (heq ▸ hk)) hki]
    exact if_pos ((hdead k).mpr ⟨hk, hki⟩)
  · rw [Chains.keys_links] at hki
    rw [hout k hk hki]
    exact if_neg fun hd => hkold ((hdead k).mp hd).1

end DocMap

/-! ## Free ids -/

/-- Records are filed under their id, and no id still to be handed out has one. -/
structure DocMap.Filed (m : DocMap) (n : ObjectId) : Prop where
  /-- The invalid id is not handed out. -/
  pos : 0 < n.toNat
  /-- A record is found under its id. -/
  id_eq : ∀ k r, m k = some r → r.id = k
  /-- Its id was handed out, or never will be. -/
  below : ∀ k r, m k = some r → k.synthetic = true ∨ k.toNat < n.toNat

theorem DocMap.Filed.mono {m : DocMap} {n n' : ObjectId} (h : m.Filed n)
    (hle : n.toNat ≤ n'.toNat) : m.Filed n' :=
  ⟨h.pos.trans_le hle, h.id_eq, fun k r hr => (h.below k r hr).imp_right (·.trans_le hle)⟩

section

variable {m : DocMap} {n : ObjectId} {key : ObjectId} {as : Payload} {stamp : ℕ}

/-- An id still to be handed out has no record. -/
theorem DocMap.Filed.eq_none (h : m.Filed n) (hk : key.synthetic = false)
    (hle : n.toNat ≤ key.toNat) : m key = none := by
  cases hr : m key with
  | none => rfl
  | some r =>
    rcases h.below key r hr with hs | hlt
    · rw [hk] at hs
      cases hs
    · omega

theorem DocMap.Filed.put (h : m.Filed n) (hk : key.synthetic = true ∨ key.toNat < n.toNat) :
    DocMap.Filed (Function.update m key (some ⟨key, stamp, as⟩)) n := by
  refine ⟨h.pos, fun k r hr => ?_, fun k r hr => ?_⟩ <;> by_cases hkk : k = key
  · subst hkk
    rw [Function.update_self] at hr
    cases hr
    rfl
  · rw [Function.update_of_ne hkk] at hr
    exact h.id_eq k r hr
  · exact hkk ▸ hk
  · rw [Function.update_of_ne hkk] at hr
    exact h.below k r hr

theorem DocMap.Filed.erase (h : m.Filed n) : DocMap.Filed (Function.update m key none) n := by
  refine ⟨h.pos, fun k r hr => ?_, fun k r hr => ?_⟩ <;> by_cases hkk : k = key
  · subst hkk
    rw [Function.update_self] at hr
    cases hr
  · rw [Function.update_of_ne hkk] at hr
    exact h.id_eq k r hr
  · subst hkk
    rw [Function.update_self] at hr
    cases hr
  · rw [Function.update_of_ne hkk] at hr
    exact h.below k r hr

theorem DocMap.Filed.without (h : m.Filed n) (ids : List ObjectId) :
    DocMap.Filed (Script.without m ids) n := by
  have hsub : ∀ k r, Script.without m ids k = some r → m k = some r := fun k r hr => by
    rw [Script.without] at hr
    split at hr
    · cases hr
    · exact hr
  exact ⟨h.pos, fun k r hr => h.id_eq k r (hsub k r hr), fun k r hr => h.below k r (hsub k r hr)⟩

theorem DocMap.Filed.withAll {recs : List (ObjectId × Payload)} (h : m.Filed n)
    (hrecs : ∀ q ∈ recs, q.1.synthetic = true ∨ q.1.toNat < n.toNat) :
    DocMap.Filed (Script.withAll stamp m recs) n := by
  induction recs generalizing m with
  | nil => exact h
  | cons q recs ih =>
    exact ih (h.put (hrecs q List.mem_cons_self)) fun q' hq' =>
      hrecs q' (List.mem_cons_of_mem _ hq')

end

end ArbitraryComposer
