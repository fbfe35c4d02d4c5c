import ArbitraryComposer.Model.Hamt.Correctness

/-!
# The Map of a Document Version

What a version root stands for, with the record slots resolved: a map from object ids to the
records themselves. The rest of the model is stated over these maps; the tries and the slots do
not appear in it again.

## Main definitions

- `recordAt`: the record in a slot.
- `docMap`: the map below a root.
- `IsMap`: the nodes below a root form a map.

## Main results

- `docMap_extends`, `docMap_preserves`: the map below a held root does not change.
- `insert_spec`, `erase_spec`: the operations of the persistent map, said of `docMap`.
-/

set_option linter.unusedSectionVars false

namespace ArbitraryComposer

open Exec Arena SlabType

/-- The records of a version by object id. -/
abbrev DocMap : Type := ObjectId → Option ObjectRecord

/-- The record in a slot; a slot without a record reads as an arbitrary one. -/
def recordAt (A : Heap) (i : ℕ) : ObjectRecord :=
  match A.cells.lookup (A.slot (.records, i)) with
  | some (.record r) => r
  | _ => { id := 0, revision := 0, as := .textChunk {} }

/-- The record `hamt_lookup` finds for a key. -/
def docMap (A : Heap) (root : Option ℕ) : DocMap := fun key =>
  match (hamtLookup root key).run A with
  | .ok r _ => r.map (recordAt A)
  | _ => none

/-- The count a root handle holds. -/
def rootRefs (root : Option ℕ) : Multiset (View × ℕ) :=
  Multiset.ofList (root.toList.map fun i => (View.nodes, i))

/-- The nodes below a root form a map. -/
def IsMap (A : Heap) (root : Option ℕ) : Prop :=
  ∃ tr, RepresentsRoot A root tr ∧ tr.Routed hamtDigit hamtMaxDepth 0

section

variable {A A' : Heap} {held : Multiset (View × ℕ)} {batch : List (View × ℕ)} {i t : ℕ}
  {tr : DocTrie} {root : Option ℕ} {F : Fault → Prop} {key : ObjectId} {record : ℕ}

@[simp]
theorem rootRefs_none : rootRefs none = 0 := rfl

@[simp]
theorem rootRefs_some : rootRefs (some i) = {(View.nodes, i)} := rfl

theorem mem_of_rootRefs_le (h : rootRefs root ≤ held) : ∀ i ∈ root, (View.nodes, i) ∈ held := by
  intro i hi
  obtain rfl : root = some i := hi
  exact Multiset.singleton_le.mp h

theorem isMap_none : IsMap A none := ⟨.empty, rfl, trivial⟩

theorem IsMap.extends (h : IsMap A root) (hext : A.Extends A') : IsMap A' root := by
  obtain ⟨tr, hrep, hrouted⟩ := h
  exact ⟨tr, hrep.extends hext, hrouted⟩

theorem docMap_eq (hrep : RepresentsRoot A root tr)
    (hrouted : tr.Routed hamtDigit hamtMaxDepth 0) :
    docMap A root key = (tr.lookup hamtDigit key 0).map (recordAt A) := by
  have hspec := hamtLookup_spec key (E := fun _ _ => False) (F := fun _ => False)
    hrep hrouted
  unfold wp at hspec
  unfold docMap run
  cases hrun : hamtLookup root key A with
  | ok r B =>
    rw [hrun] at hspec
    rw [hspec.1]
  | error e B =>
    rw [hrun] at hspec
    exact hspec.elim
  | fault f =>
    rw [hrun] at hspec
    exact hspec.elim

/-! ## The records below a root -/

/-- The record a leaf names is live, and what reaches the node reaches it. -/
private theorem Represents.record_mem (h : Represents A i tr) (held : Multiset (View × ℕ))
    {p : ObjectId × ℕ} (hp : p ∈ tr.leaves) : A.Live held (.records, p.2) ∧
      (A.graph.Reachable (held.map A.slot) (A.slot (.nodes, i)) →
        A.graph.Reachable (held.map A.slot) (A.slot (.records, p.2))) := by
  -- an edge of a node leads from its slot
  have hstep : ∀ {i : ℕ} {n : HamtNode} {r : View × ℕ},
      A.cells.lookup (A.slot (.nodes, i)) = some (.node n) → r ∈ n.edges →
      A.graph.Reachable (held.map A.slot) (A.slot (.nodes, i)) →
      A.graph.Reachable (held.map A.slot) (A.slot r) := by
    intro i n r hl hr hreach
    obtain ⟨top, htop, hpath⟩ := hreach
    refine ⟨top, htop, hpath.tail ⟨Finmap.mem_keys.mpr (Finmap.mem_of_lookup_eq_some hl), ?_⟩⟩
    change A.slot r ∈
      (((A.cells.lookup (A.slot (.nodes, i))).elim [] edges).map A.slot : List (ℕ × ℕ))
    rw [hl]
    exact List.mem_map_of_mem hr
  induction tr generalizing i with
  | empty => exact h.elim
  | leaf k r =>
    obtain ⟨n, hl, hleaf, -, rfl⟩ := h
    obtain rfl := List.mem_singleton.mp hp
    have hedge : (View.records, n.record) ∈ n.edges := by
      rw [HamtNode.edges, if_pos hleaf]
      exact List.mem_singleton_self _
    exact ⟨Or.inr ⟨_, _, hl, hedge⟩, hstep hl hedge⟩
  | branch child ih =>
    obtain ⟨n, hl, hleaf, hchild⟩ := h
    obtain ⟨d, -, hp⟩ := List.mem_flatMap.mp hp
    rcases hchild d with ⟨c, hc, hrep⟩ | ⟨-, hempty⟩
    · obtain ⟨hn, hr⟩ := ih d hrep hp
      exact ⟨hn, fun hreach => hr (hstep hl (HamtNode.mem_edges hleaf hc) hreach)⟩
    · rw [hempty] at hp
      exact absurd hp List.not_mem_nil

theorem recordAt_of_lookup {r : ObjectRecord}
    (h : A.cells.lookup (A.slot (.records, i)) = some (.record r)) : recordAt A i = r := by
  rw [recordAt, h]

theorem Arena.Names.exists_record (h : A.Names (.records, i)) :
    A.cells.lookup (A.slot (.records, i)) = some (.record (recordAt A i)) := by
  obtain ⟨o, ho, hv⟩ := h.exists_lookup
  cases o with
  | node n => cases hv
  | record r => rw [ho, recordAt_of_lookup ho]

theorem recordAt_extends (h : A.Names (.records, i)) (hext : A.Extends A') :
    recordAt A' i = recordAt A i := by
  refine recordAt_of_lookup ?_
  rw [hext.slot_eq]
  exact hext.lookup_eq _ _ h.exists_record

/-- A record a held reference reaches is not changed by a drain. -/
theorem recordAt_preserves (hp : A.Preserves held A')
    (hr : A.graph.Reachable (held.map A.slot) (A.slot (.records, i))) :
    recordAt A' i = recordAt A i := by
  have hslot : A'.slot (.records, i) = A.slot (.records, i) := by
    rw [slot, hp.storeOf_eq, slot]
  rw [recordAt, recordAt, hslot, hp.lookup_eq _ hr]

theorem recordAt_preserves_held (hp : A.Preserves held A') (hr : (View.records, i) ∈ held) :
    recordAt A' i = recordAt A i :=
  recordAt_preserves hp ⟨_, Multiset.mem_map_of_mem A.slot hr, Relation.ReflTransGen.refl⟩

/-- The records below a root are live. -/
private theorem RepresentsRoot.live_record (hrep : RepresentsRoot A root tr)
    (held : Multiset (View × ℕ)) (hrouted : tr.Routed hamtDigit hamtMaxDepth 0)
    (hl : tr.lookup hamtDigit key 0 = some i) : A.Live held (.records, i) := by
  have hp := hrouted.lookup_eq_some_iff.mp hl
  cases root with
  | none =>
    obtain rfl : tr = .empty := hrep
    exact absurd hp List.not_mem_nil
  | some j => exact (Represents.record_mem (show Represents A j tr from hrep) held hp).1

/-- A record of a map is in a live slot. -/
theorem exists_live_of_docMap {r : ObjectRecord} (h : IsMap A root) (held : Multiset (View × ℕ))
    (hr : docMap A root key = some r) : ∃ i, A.Live held (.records, i) ∧ recordAt A i = r := by
  obtain ⟨tr, hrep, hrouted⟩ := h
  rw [docMap_eq hrep hrouted] at hr
  obtain ⟨i, hl, hi⟩ := Option.map_eq_some_iff.mp hr
  exact ⟨i, hrep.live_record held hrouted hl, hi⟩

/-- A record of a map is in a slot that the root reaches. -/
theorem exists_reachable_of_docMap {r : ObjectRecord} (h : IsMap A root) (hs : A.Sound batch held)
    (hr : docMap A root key = some r) : ∃ j, A.Names (.records, j) ∧ recordAt A j = r ∧
      A.graph.Reachable ((rootRefs root).map A.slot) (A.slot (.records, j)) := by
  obtain ⟨tr, hrep, hrouted⟩ := h
  rw [docMap_eq hrep hrouted] at hr
  obtain ⟨j, hl, hj⟩ := Option.map_eq_some_iff.mp hr
  have hp := hrouted.lookup_eq_some_iff.mp hl
  refine ⟨j, (hrep.live_record held hrouted hl).names hs, hj, ?_⟩
  cases root with
  | none =>
    obtain rfl : tr = .empty := hrep
    exact absurd hp List.not_mem_nil
  | some i =>
    exact (Represents.record_mem (show Represents A i tr from hrep) (rootRefs (some i)) hp).2
      ⟨_, Multiset.mem_map_of_mem A.slot (Multiset.mem_singleton_self _), .refl⟩

/-- The map below a root does not change while objects are only added. -/
theorem docMap_extends (h : IsMap A root) (hs : A.Sound batch held) (hext : A.Extends A') :
    docMap A' root = docMap A root := by
  obtain ⟨tr, hrep, hrouted⟩ := h
  ext key : 1
  rw [docMap_eq hrep hrouted, docMap_eq (hrep.extends hext) hrouted]
  cases hl : tr.lookup hamtDigit key 0 with
  | none => rfl
  | some i =>
    rw [Option.map_some, Option.map_some,
      recordAt_extends ((hrep.live_record held hrouted hl).names hs) hext]

/-- The map below a held root is not changed by a drain. -/
theorem docMap_preserves (h : IsMap A root) (hp : A.Preserves held A')
    (hroot : ∀ i ∈ root, (View.nodes, i) ∈ held) :
    IsMap A' root ∧ docMap A' root = docMap A root := by
  obtain ⟨tr, hrep, hrouted⟩ := h
  have hrep' := hrep.preserves hp hroot
  refine ⟨⟨tr, hrep', hrouted⟩, ?_⟩
  ext key : 1
  rw [docMap_eq hrep hrouted, docMap_eq hrep' hrouted]
  cases hl : tr.lookup hamtDigit key 0 with
  | none => rfl
  | some i =>
    rw [Option.map_some, Option.map_some]
    cases root with
    | none =>
      obtain rfl : tr = .empty := hrep
      rw [Trie.lookup_empty] at hl
      cases hl
    | some j =>
      have hreach := (Represents.record_mem (show Represents A j tr from hrep) held
        (hrouted.lookup_eq_some_iff.mp hl)).2
          ⟨_, Multiset.mem_map_of_mem A.slot (hroot j rfl), Relation.ReflTransGen.refl⟩
      rw [recordAt_preserves hp hreach]

/-- The ids bound below a root: `collect_leaves`, without the records. -/
def docKeys (A : Heap) (root : Option ℕ) : List ObjectId :=
  match (leafWalk root).run A with
  | .ok out _ => out.map Prod.fst
  | _ => []

/-- The walk meets every id that has a record. -/
theorem mem_docKeys {r : ObjectRecord} (h : IsMap A root) (hr : docMap A root key = some r) :
    key ∈ docKeys A root := by
  obtain ⟨tr, hrep, hrouted⟩ := h
  rw [docMap_eq hrep hrouted] at hr
  obtain ⟨i, hi, -⟩ := Option.map_eq_some_iff.mp hr
  have hspec := leafWalk_spec (E := fun _ _ => False) (F := fun _ => False) hrep hrouted
  unfold wp at hspec
  unfold docKeys run
  cases hrun : leafWalk root A with
  | ok out B =>
    rw [hrun] at hspec
    rw [hspec.1]
    exact List.mem_map_of_mem (f := Prod.fst) (hrouted.lookup_eq_some_iff.mp hi)
  | error e B =>
    rw [hrun] at hspec
    exact hspec.elim
  | fault f =>
    rw [hrun] at hspec
    exact hspec.elim

/-! ## Operations -/

/-- A lookup returns the slot of the record the map has, and the slot is live. -/
theorem lookup_spec {E : PoolError → Heap → Prop} (h : IsMap A root)
    (held : Multiset (View × ℕ)) :
    wp (hamtLookup root key) (fun r A' => A' = A ∧ r.map (recordAt A) = docMap A root key ∧
      ∀ i ∈ r, A.Live held (.records, i)) E F A := by
  obtain ⟨tr, hrep, hrouted⟩ := h
  refine wp_imp (hamtLookup_spec key hrep hrouted) (fun r B hB => ?_) fun _ _ hE => hE
  obtain ⟨rfl, rfl⟩ := hB
  exact ⟨rfl, (docMap_eq hrep hrouted).symm, fun i hi => hrep.live_record held hrouted hi⟩

/-- `hamt_insert` binds the key to the record in the slot. -/
theorem insert_spec (h : A.Owned held) (hr : (View.records, record) ∈ held)
    (hroot : ∀ i ∈ root, (View.nodes, i) ∈ held) (hmap : IsMap A root) :
    wp (hamtInsert t root key record)
      (fun i A' => A'.Owned ((.nodes, i) ::ₘ held) ∧ A.Extends A' ∧ IsMap A' (some i) ∧
        docMap A' (some i) = Function.update (docMap A root) key (some (recordAt A record)))
      (Undone A held) F A := by
  obtain ⟨tr, hrep, hrouted⟩ := hmap
  refine wp_imp (hamtInsert_spec h hr hroot hrep hrouted) (fun i A' hA' => ?_) fun _ _ hE => hE
  obtain ⟨howned, hext, tr', hrep', hreb⟩ := hA'
  refine ⟨howned, hext, ⟨tr', hrep', hreb.routed⟩, ?_⟩
  ext k : 1
  have hrepRoot : RepresentsRoot A' (some i) tr' := hrep'
  rw [docMap_eq hrepRoot hreb.routed, hreb.lookup_eq]
  by_cases hk : k = key
  · rw [if_pos hk, hk, Function.update_self, Option.map_some,
      recordAt_extends (h.sound.held_names _ hr) hext]
  · rw [if_neg hk, Function.update_of_ne hk, ← docMap_extends ⟨tr, hrep, hrouted⟩ h.sound hext,
      docMap_eq (hrep.extends hext) hrouted]

/-- `hamt_erase` unbinds the key. -/
theorem erase_spec (h : A.Owned held) (hroot : ∀ i ∈ root, (View.nodes, i) ∈ held)
    (hmap : IsMap A root) :
    wp (hamtErase t root key)
      (fun root' A' => A'.Owned (rootRefs root' + held) ∧ A.Extends A' ∧ IsMap A' root' ∧
        docMap A' root' = Function.update (docMap A root) key none)
      (Undone A held) F A := by
  obtain ⟨tr, hrep, hrouted⟩ := hmap
  refine wp_imp (hamtErase_spec h hroot hrep hrouted) (fun root' A' hA' => ?_) fun _ _ hE => hE
  obtain ⟨howned, hext, tr', hrep', hreb⟩ := hA'
  refine ⟨howned, hext, ⟨tr', hrep', hreb.routed⟩, ?_⟩
  ext k : 1
  rw [docMap_eq hrep' hreb.routed, hreb.lookup_eq]
  by_cases hk : k = key
  · rw [if_pos hk, hk, Function.update_self, Option.map_none]
  · rw [if_neg hk, Function.update_of_ne hk, ← docMap_extends ⟨tr, hrep, hrouted⟩ h.sound hext,
      docMap_eq (hrep.extends hext) hrouted]

end

end ArbitraryComposer
