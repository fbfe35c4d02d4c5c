import ArbitraryComposer.Model.Hamt.Versions

/-!
# The Shape of the Persistent Map

The shape of a version is its trie without the records. An insertion builds a chain of branches
where two keys share several digits. An erasure turns the lowest branch of the chain into the leaf
that is left, and keeps the branches above it, with one leaf below them. Where no erasure does that,
the keys determine the shape.

## Main definitions

- `boundKeys`: the keys that some calls leave bound.
- `Versions.Unchained`: an erasure that leaves no chain.
- `Versions.CanonicalShapes`: branches have two leaves, and the keys determine the shape.

## Main results

- `docVersions_canonical`: without an erasure that leaves a chain, every shape is canonical.
- `not_docVersions_canonical`: a chain that an erasure leaves.
-/

namespace ArbitraryComposer

open Exec Arena SlabType

/-! ## What a slot represents, once more -/

/-- A slot represents one trie. -/
theorem Represents.unique {A : Heap} {i : ℕ} {tr tr' : DocTrie} (h : Represents A i tr)
    (h' : Represents A i tr') : tr = tr' := by
  induction tr generalizing i tr' with
  | empty => exact h.elim
  | leaf k r =>
    obtain ⟨n, hn, hleaf, rfl, rfl⟩ := h
    exact (h'.of_isLeaf hn hleaf).symm
  | branch child ih =>
    obtain ⟨n, hn, hleaf, hchild⟩ := h
    obtain ⟨child', rfl, hchild'⟩ := h'.of_isBranch hn hleaf
    congr 1
    funext d
    have hd' := hchild' d
    rcases hchild d with ⟨c, hc, hd⟩ | ⟨hc, hd⟩
    · rw [hc] at hd'
      exact ih d hd hd'
    · rw [hc] at hd'
      rw [hd]
      exact (show child' d = .empty from hd').symm

/-- A root represents one trie. -/
theorem RepresentsRoot.unique {A : Heap} {root : Option ℕ} {tr tr' : DocTrie}
    (h : RepresentsRoot A root tr) (h' : RepresentsRoot A root tr') : tr = tr' := by
  cases root with
  | none =>
    rw [show tr = .empty from h, show tr' = .empty from h']
  | some i => exact Represents.unique h h'

/-- Two roots represent tries of one shape. -/
def SameShape (A : Heap) (root root' : Option ℕ) : Prop :=
  ∃ tr tr', RepresentsRoot A root tr ∧ RepresentsRoot A root' tr' ∧ tr.shape = tr'.shape

/-! ## The keys of some calls -/

/-- The keys that some calls leave bound. -/
def boundKeys (edits : List MapEdit) : List ObjectId :=
  (edits.filterMap fun
    | .insert k _ => some k
    | .erase _ => none).filter fun k => (lastInserted edits k).isSome

/-- Only an inserted key is bound. -/
theorem mem_of_lastInserted {edits : List MapEdit} {key : ObjectId} {r : ℕ}
    (h : lastInserted edits key = some r) : ∃ r', .insert key r' ∈ edits := by
  induction edits with
  | nil => cases h
  | cons e edits ih =>
    cases e with
    | insert k r' =>
      rw [lastInserted] at h
      split at h
      case isTrue hk => exact ⟨r', hk ▸ List.mem_cons_self⟩
      case isFalse =>
        obtain ⟨r'', hr''⟩ := ih h
        exact ⟨r'', List.mem_cons_of_mem _ hr''⟩
    | erase k =>
      rw [lastInserted] at h
      split at h
      case isTrue => cases h
      case isFalse =>
        obtain ⟨r'', hr''⟩ := ih h
        exact ⟨r'', List.mem_cons_of_mem _ hr''⟩

theorem mem_boundKeys {edits : List MapEdit} {key : ObjectId} :
    key ∈ boundKeys edits ↔ ∃ r, lastInserted edits key = some r := by
  rw [boundKeys, List.mem_filter, Option.isSome_iff_exists, and_iff_right_iff_imp]
  rintro ⟨r, hr⟩
  obtain ⟨r', hr'⟩ := mem_of_lastInserted hr
  exact List.mem_filterMap.mpr ⟨_, hr', rfl⟩

/-- The trie of some calls has the keys they leave bound. -/
theorem mem_keys_trieOf {edits : List MapEdit} {key : ObjectId} :
    key ∈ (trieOf edits).keys ↔ key ∈ boundKeys edits := by
  obtain ⟨hrouted, hlookup⟩ := trieOf_spec edits
  rw [hrouted.mem_keys_iff, mem_boundKeys, hlookup]

namespace Versions

/-! ## Canonical shapes -/

/-- An erasure leaves no chain: it is not the case that, at some level, exactly one other bound
key shares the digits of the erased key up to there, and the next digit as well. -/
def Unchained (e : VersionEvent) (s : Versions) : Prop :=
  match e with
  | .erase _ i key =>
    match s.versions[i]? with
    | some v => key ∈ boundKeys v.edits →
        ¬ Trie.Chained hamtDigit 0 hamtMaxDepth (boundKeys v.edits) key
    | none => True
  | _ => True

instance (e : VersionEvent) (s : Versions) : Decidable (Unchained e s) := by
  unfold Unchained
  split
  · split <;> infer_instance
  all_goals infer_instance

/-- The keys that are bound determine the shape of a version. -/
structure CanonicalShapes (s : Versions) : Prop where
  /-- Every branch other than the root has two leaves or more below it. -/
  branches : ∀ v ∈ s.versions, ∃ tr, RepresentsRoot s.heap v.root tr ∧ tr.CanonicalBelow
  /-- Versions with the same keys have the same shape. -/
  sameKeys : ∀ v ∈ s.versions, ∀ w ∈ s.versions,
    (∀ key, (lastInserted v.edits key).isSome = (lastInserted w.edits key).isSome) →
      SameShape s.heap v.root w.root
  /-- The erasure of a key that was just inserted restores the shape. -/
  restored : ∀ v ∈ s.versions, ∀ w ∈ s.versions, ∀ key r,
    w.edits = .erase key :: .insert key r :: v.edits → lastInserted v.edits key = none →
      SameShape s.heap v.root w.root

/-- Every version held is a canonical trie. -/
def Canonical (s : Versions) : Prop := ∀ v ∈ s.versions, (trieOf v.edits).Canonical

variable {s s' : Versions} {v w : Version} {e : VersionEvent} {key : ObjectId}

/-- Versions of canonical tries have canonical shapes. -/
theorem Canonical.shapes (hc : s.Canonical) (h : s.Replays) : s.CanonicalShapes := by
  have hshape : ∀ v ∈ s.versions, ∀ w ∈ s.versions,
      (∀ key, (lastInserted v.edits key).isSome = (lastInserted w.edits key).isSome) →
        SameShape s.heap v.root w.root := by
    intro v hv w hw hkeys
    refine ⟨_, _, h.represents v hv, h.represents w hw, (hc v hv).shape_eq (hc w hw)
      (trieOf_spec v.edits).1 (trieOf_spec w.edits).1 fun key => ?_⟩
    rw [mem_keys_trieOf, mem_keys_trieOf, mem_boundKeys, mem_boundKeys,
      ← Option.isSome_iff_exists, ← Option.isSome_iff_exists, hkeys]
  refine ⟨fun v hv => ⟨_, h.represents v hv, (hc v hv).below⟩, hshape,
    fun v hv w hw key r hedits hnone => hshape v hv w hw fun k => ?_⟩
  rw [hedits, lastInserted, lastInserted]
  split
  case isTrue hk => rw [hk, hnone]
  case isFalse hk => rfl

/-- A version after a call is one of before, or it was made by the call. -/
theorem step_versions (hs : step e s = some s') (hw : w ∈ s'.versions) :
    w ∈ s.versions ∨
    (∃ t i key r v, e = .insert t i key r ∧ s.versions[i]? = some v ∧
      w.edits = .insert key r :: v.edits) ∨
    ∃ t i key v, e = .erase t i key ∧ s.versions[i]? = some v ∧
      w.edits = .erase key :: v.edits := by
  have hpush : ∀ {edits : List MapEdit} {out : Outcome Heap PoolError Fault (Option ℕ)},
      s.push edits out = some s' → w ∈ s.versions ∨ w.edits = edits := by
    intro edits out hout
    cases out with
    | ok root A =>
      cases hout
      rcases List.mem_append.mp hw with hw | hw
      · exact Or.inl hw
      · rw [List.mem_singleton.mp hw]
        exact Or.inr rfl
    | error e A =>
      cases hout
      exact Or.inl hw
    | fault f => cases hout
  cases e with
  | record t r =>
    simp only [step] at hs
    split at hs
    · cases hs
      exact Or.inl hw
    · cases hs
      exact Or.inl hw
    · cases hs
  | insert t i key r =>
    simp only [step] at hs
    split at hs
    · rename_i v hv
      split at hs
      · rcases hpush hs with hw | hw
        · exact Or.inl hw
        · exact Or.inr (Or.inl ⟨t, i, key, r, v, rfl, hv, hw⟩)
      · cases hs
    · cases hs
  | erase t i key =>
    simp only [step] at hs
    split at hs
    · rename_i v hv
      rcases hpush hs with hw | hw
      · exact Or.inl hw
      · exact Or.inr (Or.inr ⟨t, i, key, v, rfl, hv, hw⟩)
    · cases hs
  | forget i =>
    simp only [step] at hs
    split at hs
    · obtain ⟨B, -, rfl⟩ := Option.map_eq_some_iff.mp hs
      exact Or.inl (List.mem_of_mem_eraseIdx hw)
    · cases hs
  | drain t =>
    obtain ⟨B, -, rfl⟩ := Option.map_eq_some_iff.mp hs
    exact Or.inl hw

/-- A call keeps the versions canonical unless it is an erasure that leaves a chain. -/
theorem Canonical.step (hc : s.Canonical) (hu : Unchained e s)
    (hs : Versions.step e s = some s') : s'.Canonical := by
  intro w hw
  rcases step_versions hs hw with hw | ⟨t, i, key, r, v, rfl, hv, hedits⟩ |
    ⟨t, i, key, v, rfl, hv, hedits⟩
  · exact hc w hw
  · rw [hedits]
    exact ((hc v (List.mem_of_getElem? hv)).insertAt (by omega) (trieOf_spec v.edits).1
      fun k' _ hne => exists_hamtDigit_ne hne).1
  · rw [hedits]
    have hcv := hc v (List.mem_of_getElem? hv)
    simp only [Unchained, hv] at hu
    show (Trie.eraseAt hamtDigit key 0 (trieOf v.edits)).Canonical
    by_cases hk : key ∈ (trieOf v.edits).keys
    · refine hcv.eraseAt (trieOf_spec v.edits).1 (fun _ _ j hj => absurd hj (Nat.not_lt_zero j)) ?_
      intro hchained
      exact hu (mem_keys_trieOf.mp hk) (hchained.congr fun k => mem_keys_trieOf)
    · rw [Trie.eraseAt_of_not_mem hk]
      exact hcv

theorem reachable_canonical (h : docVersions.Reachable Unchained s) : s.Canonical := by
  refine h.invariant (fun s hs v hv => ?_) fun e s s' hc hu hs => hc.step hu hs
  rw [hs.2.2, List.mem_singleton] at hv
  subst hv
  trivial

end Versions

/-- In every sequence of calls whose erasures leave no chain, every branch other than the root has
two leaves or more below it, versions with the same keys have the same shape, and the erasure of
a key that was just inserted restores the shape. -/
theorem docVersions_canonical {s : Versions} (h : docVersions.Reachable Versions.Unchained s) :
    s.CanonicalShapes :=
  (Versions.reachable_canonical h).shapes
    (Versions.reachable_replays (h.mono fun _ _ _ => trivial))

/-- Of three keys, of which two share their first digit, one that does is erased. -/
def unchainedCalls : List VersionEvent :=
  [.record 0 ⟨1, 0, .layer {}⟩, .insert 0 0 1 0, .insert 0 1 2 0, .insert 0 2 33 0, .erase 0 3 33]

theorem docVersions_canonical_unchainedCalls :
    ∃ s, docVersions.Reachable Versions.Unchained s ∧ s.versions.length = 5 ∧
      s.CanonicalShapes := by
  have hstart : docVersions.start emptyVersions :=
    ⟨⟨_, _, _, none, by simp, rfl⟩, rfl, rfl⟩
  obtain ⟨s, hs, hlen⟩ := Machine.exists_reachable Versions.Unchained unchainedCalls
    (fun s => s.versions.length == 5) hstart (by decide +kernel) (by decide +kernel)
  exact ⟨s, hs, by simpa using hlen, docVersions_canonical hs⟩

/-- Two keys share their first two digits, and the one inserted last is erased. -/
def chainedCalls : List VersionEvent :=
  [.record 0 ⟨1, 0, .layer {}⟩, .insert 0 0 1 0, .insert 0 1 1025 0, .erase 0 2 1025]

/-- Two branches with one leaf are left of the chain, of which one is not the root. -/
theorem not_docVersions_canonical :
    ∃ s, docVersions.Reachable Machine.anyEvent s ∧ ¬ s.CanonicalShapes := by
  have hstart : docVersions.start emptyVersions :=
    ⟨⟨_, _, _, none, by simp, rfl⟩, rfl, rfl⟩
  obtain ⟨s, hs, hrun⟩ := Machine.exists_reachable Machine.anyEvent chainedCalls
    (fun s : Versions => decide (s.versions.map Version.edits =
      [[], [.insert 1 0], [.insert 1025 0, .insert 1 0],
        [.erase 1025, .insert 1025 0, .insert 1 0]])) hstart
    (Machine.runAllowed_anyEvent _ _) (by decide +kernel)
  refine ⟨s, hs, fun hc => ?_⟩
  obtain ⟨w, hw, hedits⟩ : ∃ w ∈ s.versions,
      w.edits = [.erase 1025, .insert 1025 0, .insert 1 0] :=
    List.mem_map.mp (by rw [of_decide_eq_true hrun]; simp)
  obtain ⟨tr, hrep, hbelow⟩ := hc.branches w hw
  obtain rfl := hrep.unique ((Versions.reachable_replays hs).represents w hw)
  rw [hedits] at hbelow
  exact absurd hbelow (by decide +kernel)

end ArbitraryComposer
