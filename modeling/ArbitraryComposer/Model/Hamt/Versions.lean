import ArbitraryComposer.Model.Hamt.Correctness
import ArbitraryComposer.ToMathlib.Machine

/-!
# Sequences of Map Versions

Any number of insertions and erasures, each from any version made before, with versions given up
and the reclamation queue drained in between. Every version carries the calls that made it.

## Main definitions

- `MapEdit`, `lastInserted`: the calls and the finite map they stand for.
- `trieOf`: the trie that the calls build.
- `Versions`: the arena, the records and the versions the caller holds.
- `docVersions`: the machine of all such sequences.

## Main results

- `Versions.reachable_replays`: every version held is the trie of its calls.
- `docVersions_refine`: every version held answers as the finite map of its calls.
-/

namespace ArbitraryComposer

open Exec Arena SlabType

/-- A call that makes a version from another. -/
inductive MapEdit where
  /-- `hamt_insert`. -/
  | insert (key : ObjectId) (record : ℕ)
  /-- `hamt_erase`. -/
  | erase (key : ObjectId)
  deriving DecidableEq

/-- The record last inserted for a key and not erased since; the newest call comes first. -/
def lastInserted : List MapEdit → ObjectId → Option ℕ
  | [], _ => none
  | .insert k r :: edits, key => if key = k then some r else lastInserted edits key
  | .erase k :: edits, key => if key = k then none else lastInserted edits key

/-- The trie that some calls build; the newest call comes first. -/
def trieOf : List MapEdit → DocTrie
  | [] => .empty
  | .insert k r :: edits => (trieOf edits).insertAt hamtDigit k r (hamtMaxDepth + 1) 0
  | .erase k :: edits => (trieOf edits).eraseAt hamtDigit k 0

/-- The trie of some calls is routed and is the finite map they stand for. -/
theorem trieOf_spec (edits : List MapEdit) :
    (trieOf edits).Routed hamtDigit hamtMaxDepth 0 ∧
      ∀ key, (trieOf edits).lookup hamtDigit key 0 = lastInserted edits key := by
  induction edits with
  | nil => exact ⟨trivial, fun _ => Trie.lookup_empty⟩
  | cons e edits ih =>
    obtain ⟨hrouted, hlookup⟩ := ih
    cases e with
    | insert k r =>
      have hfuel : hamtMaxDepth ≤ 0 + (hamtMaxDepth + 1) := by omega
      have hreb := Trie.rebinds_insertAt (k := k) (a := r) hrouted hfuel
        fun k' _ hne => exists_hamtDigit_ne hne
      refine ⟨hreb.routed, fun key => ?_⟩
      show Trie.lookup hamtDigit key 0 (Trie.insertAt hamtDigit k r _ 0 _) = _
      rw [hreb.lookup_eq, lastInserted, hlookup]
    | erase k =>
      have hreb := Trie.rebinds_eraseAt (k := k) hrouted
      refine ⟨hreb.routed, fun key => ?_⟩
      show Trie.lookup hamtDigit key 0 (Trie.eraseAt hamtDigit k 0 _) = _
      rw [hreb.lookup_eq, lastInserted, hlookup]

/-- A root and the calls that made it. -/
structure Version where
  /-- The root node, unless the map is empty. -/
  root : Option ℕ
  /-- The calls, newest first. -/
  edits : List MapEdit
  deriving DecidableEq

/-- What the caller of the map holds. -/
structure Versions where
  /-- The arena. -/
  heap : Heap
  /-- Records the caller holds a reference to. -/
  records : List ℕ
  /-- Versions the caller holds a reference to. -/
  versions : List Version

/-- What the caller may do. -/
inductive VersionEvent where
  /-- Create a record. -/
  | record (t : ℕ) (r : ObjectRecord)
  /-- Insert into the version at a position. -/
  | insert (t v : ℕ) (key : ObjectId) (record : ℕ)
  /-- Erase from the version at a position. -/
  | erase (t v : ℕ) (key : ObjectId)
  /-- Give up the version at a position. -/
  | forget (v : ℕ)
  /-- Drain the reclamation queue. -/
  | drain (t : ℕ)

namespace Versions

/-- The version a call that ended in `out` adds, if it succeeded. -/
def push (s : Versions) (edits : List MapEdit) :
    Outcome Heap PoolError Fault (Option ℕ) → Option Versions
  | .ok root A => some { s with heap := A, versions := s.versions ++ [⟨root, edits⟩] }
  | .error _ A => some { s with heap := A }
  | .fault _ => none

/-- One call. An error leaves the versions as they were. -/
def step (e : VersionEvent) (s : Versions) : Option Versions :=
  match e with
  | .record t r =>
    match (create t (.record r)).run s.heap with
    | .ok i A => some { s with heap := A, records := i :: s.records }
    | .error _ A => some { s with heap := A }
    | .fault _ => none
  | .insert t v key record =>
    match s.versions[v]? with
    | some version =>
      if record ∈ s.records then
        s.push (.insert key record :: version.edits)
          ((do return some (← hamtInsert t version.root key record)).run s.heap)
      else
        none
    | none => none
  | .erase t v key =>
    match s.versions[v]? with
    | some version =>
      s.push (.erase key :: version.edits) ((hamtErase t version.root key).run s.heap)
    | none => none
  | .forget v =>
    match s.versions[v]? with
    | some version =>
      ((forEach version.root.toList fun i => release (.nodes, i)).run s.heap).state?.map fun A =>
        { s with heap := A, versions := s.versions.eraseIdx v }
    | none => none
  | .drain t => ((drain t drainOrder).run s.heap).state?.map fun A => { s with heap := A }

/-- An arena that has handed out nothing, and the empty map. -/
def IsStart (s : Versions) : Prop :=
  (∃ storeOf chunkBits source fence, (∀ f ∈ fence, f.quarantine = []) ∧
    s.heap = init storeOf chunkBits source fence) ∧ s.records = [] ∧ s.versions = [⟨none, []⟩]

/-- What a lookup in a version returns; `none` if it does not return. -/
def answer (s : Versions) (v : Version) (key : ObjectId) : Option (Option ℕ) :=
  match (hamtLookup v.root key).run s.heap with
  | .ok r _ => some r
  | _ => none

/-- What a walk over a version returns; `none` if it does not return. -/
def walk (s : Versions) (v : Version) : Option (List (ObjectId × ℕ)) :=
  match (leafWalk v.root).run s.heap with
  | .ok out _ => some out
  | _ => none

/-- The references of the roots of some versions. -/
def rootRefs (versions : List Version) : Multiset (View × ℕ) :=
  (versions.flatMap fun v => v.root.toList.map fun i => (View.nodes, i) : List (View × ℕ))

/-- Every reference the caller holds. -/
def held (s : Versions) : Multiset (View × ℕ) :=
  rootRefs s.versions + Multiset.ofList (s.records.map fun i => (View.records, i))

/-- The map of a version is that of its calls. -/
def Faithful (A : Heap) (v : Version) : Prop :=
  ∃ tr, RepresentsRoot A v.root tr ∧ tr.Routed hamtDigit hamtMaxDepth 0 ∧
    ∀ key, tr.lookup hamtDigit key 0 = lastInserted v.edits key

/-- The references are accounted for, and every version is faithful. -/
structure Inv (s : Versions) : Prop where
  /-- The counts are exact for what the caller holds. -/
  owned : s.heap.Owned s.held
  /-- Every version is faithful. -/
  faithful : ∀ v ∈ s.versions, Faithful s.heap v

/-- The references are accounted for, and every version is the trie of its calls. -/
structure Replays (s : Versions) : Prop where
  /-- The counts are exact for what the caller holds. -/
  owned : s.heap.Owned s.held
  /-- Every version is the trie of its calls. -/
  represents : ∀ v ∈ s.versions, RepresentsRoot s.heap v.root (trieOf v.edits)

end Versions

/-- The machine of all sequences of calls. -/
def docVersions : Machine Versions VersionEvent where
  start := Versions.IsStart
  step := Versions.step

namespace Versions

variable {s s' : Versions} {A : Heap} {v : Version} {key : ObjectId} {record t : ℕ}

theorem rootRefs_append (vs ws : List Version) :
    rootRefs (vs ++ ws) = rootRefs vs + rootRefs ws := by
  simp [rootRefs, List.flatMap_append]

theorem mem_held_of_root (hv : v ∈ s.versions) : ∀ i ∈ v.root, (View.nodes, i) ∈ s.held := by
  intro i hi
  refine Multiset.mem_add.mpr (Or.inl (Multiset.mem_coe.mpr (List.mem_flatMap.mpr ⟨v, hv, ?_⟩)))
  rw [Option.mem_def.mp hi]
  exact List.mem_singleton_self _

theorem mem_held_of_record (hr : record ∈ s.records) : (View.records, record) ∈ s.held :=
  Multiset.mem_add.mpr (Or.inr (Multiset.mem_coe.mpr (List.mem_map_of_mem hr)))

/-- A version that is the trie of its calls is faithful. -/
theorem Replays.inv (h : s.Replays) : s.Inv :=
  ⟨h.owned, fun v hv => ⟨trieOf v.edits, h.represents v hv, trieOf_spec v.edits⟩⟩

theorem IsStart.replays (h : s.IsStart) : s.Replays := by
  obtain ⟨⟨storeOf, chunkBits, source, fence, hf, hheap⟩, hrecords, hversions⟩ := h
  constructor
  · have hheld : s.held = 0 := by
      rw [held, hrecords, hversions]
      rfl
    rw [hheld, hheap]
    exact owned_init storeOf chunkBits source hf
  · intro v hv
    rw [hversions, List.mem_singleton] at hv
    subst hv
    rfl

/-- What a call that makes a version does: it returns, it keeps the invariant, and the versions
are those of before, with one more if it succeeded. -/
structure Pushed (s s' : Versions) (edits : List MapEdit) : Prop where
  /-- The invariant is kept. -/
  replays : s'.Replays
  /-- The earlier versions are kept. -/
  versions : s'.versions = s.versions ∨
    ∃ root, s'.versions = s.versions ++ [⟨root, edits⟩]

/-- The rule of a call that makes a version. -/
private theorem push_spec {x : HeapExec (Option ℕ)} {edits : List MapEdit} (h : s.Replays)
    (hx : wp x (BuiltRoot s.heap s.held fun tr => tr = trieOf edits)
      (Undone s.heap s.held) (fun _ => False) s.heap) :
    ∃ s', s.push edits (x.run s.heap) = some s' ∧ Pushed s s' edits := by
  unfold wp at hx
  unfold run push
  cases hrun : x s.heap with
  | ok root B =>
    rw [hrun] at hx
    obtain ⟨howned, hext, tr, hrep, rfl⟩ := hx
    refine ⟨_, rfl, ⟨?_, fun v hv => ?_⟩, Or.inr ⟨root, rfl⟩⟩
    · have hheld : held { s with heap := B, versions := s.versions ++ [⟨root, edits⟩] } =
          Multiset.ofList (root.toList.map fun i => (View.nodes, i)) + s.held := by
        simp only [held, rootRefs_append]
        rw [add_comm (rootRefs s.versions), add_assoc]
        simp [rootRefs]
      rw [hheld]
      exact howned
    · rcases List.mem_append.mp hv with hv | hv
      · exact (h.represents v hv).extends hext
      · rw [List.mem_singleton.mp hv]
        exact hrep
  | error e B =>
    rw [hrun] at hx
    obtain ⟨howned, hext⟩ := hx
    exact ⟨_, rfl, ⟨howned, fun v hv => (h.represents v hv).extends hext⟩, Or.inl rfl⟩
  | fault f =>
    rw [hrun] at hx
    exact hx.elim

/-- An insertion from a held version returns. -/
theorem step_insert {i : ℕ} (t : ℕ) (key : ObjectId) (h : s.Replays) (hv : s.versions[i]? = some v)
    (hr : record ∈ s.records) :
    ∃ s', step (.insert t i key record) s = some s' ∧
      Pushed s s' (.insert key record :: v.edits) := by
  simp only [step, hv, if_pos hr]
  refine push_spec h ?_
  rw [wp_bind]
  refine wp_imp (hamtInsert_insertAt h.owned (mem_held_of_record hr)
    (mem_held_of_root (List.mem_of_getElem? hv)) (h.represents v (List.mem_of_getElem? hv))
    (trieOf_spec v.edits).1) (fun j B hB => ?_) fun _ _ hE => hE
  obtain ⟨howned, hext, tr', hrep', rfl⟩ := hB
  exact ⟨by simpa using howned, hext, _, hrep', rfl⟩

/-- An erasure from a held version returns. -/
theorem step_erase {i : ℕ} (t : ℕ) (key : ObjectId) (h : s.Replays)
    (hv : s.versions[i]? = some v) :
    ∃ s', step (.erase t i key) s = some s' ∧ Pushed s s' (.erase key :: v.edits) := by
  simp only [step, hv]
  refine push_spec h ?_
  exact hamtErase_eraseAt h.owned (mem_held_of_root (List.mem_of_getElem? hv))
    (h.represents v (List.mem_of_getElem? hv)) (trieOf_spec v.edits).1

/-- The root references of a list of versions without the one at a position. -/
private theorem rootRefs_eraseIdx {vs : List Version} {i : ℕ} (hv : vs[i]? = some v) :
    rootRefs vs = Multiset.ofList (v.root.toList.map fun j => (View.nodes, j)) +
      rootRefs (vs.eraseIdx i) := by
  obtain ⟨hi, rfl⟩ := List.getElem?_eq_some_iff.mp hv
  have hperm : vs.Perm (vs[i] :: vs.eraseIdx i) := (List.getElem_cons_eraseIdx_perm hi).symm
  have hflat := hperm.flatMap_right fun v : Version => v.root.toList.map fun j => (View.nodes, j)
  rw [rootRefs, Multiset.coe_eq_coe.mpr hflat, List.flatMap_cons, ← Multiset.coe_add, rootRefs]

/-- Every call keeps the invariant, and the versions that are not given up. -/
theorem step_replays {e : VersionEvent} (h : s.Replays) (hs : step e s = some s') :
    s'.Replays ∧ ((∀ i, e ≠ .forget i) → ∀ v ∈ s.versions, v ∈ s'.versions) := by
  have hpushed : ∀ {edits : List MapEdit}, Pushed s s' edits →
      s'.Replays ∧ ((∀ i, e ≠ .forget i) → ∀ v ∈ s.versions, v ∈ s'.versions) := by
    intro edits hp
    refine ⟨hp.replays, fun _ v hv => ?_⟩
    rcases hp.versions with heq | ⟨root, heq⟩
    · rwa [heq]
    · rw [heq]
      exact List.mem_append_left _ hv
  cases e with
  | record t r =>
    have hspec := create_spec (t := t) (F := fun _ => False) h.owned
      (show edges (Object.record r) = [] from rfl)
    unfold wp at hspec
    simp only [step, run] at hs
    cases hrun : create t (.record r) s.heap with
    | ok i B =>
      rw [hrun] at hs hspec
      cases hs
      obtain ⟨howned, hext, -⟩ := hspec
      refine ⟨⟨?_, fun v hv => (h.represents v hv).extends hext⟩, fun _ v hv => hv⟩
      have hheld : held { s with heap := B, records := i :: s.records } =
          (View.records, i) ::ₘ s.held := by
        rw [held, held, List.map_cons, ← Multiset.cons_coe, Multiset.add_cons]
      rw [hheld]
      exact howned
    | error e B =>
      rw [hrun] at hs hspec
      cases hs
      exact ⟨⟨hspec.1, fun v hv => (h.represents v hv).extends hspec.2⟩, fun _ v hv => hv⟩
    | fault f =>
      rw [hrun] at hs
      cases hs
  | insert t i key record =>
    simp only [step] at hs
    split at hs
    · rename_i v hv
      split at hs
      · rename_i hr
        obtain ⟨s'', hs'', hp⟩ := step_insert t key h hv hr
        simp only [step, hv, if_pos hr] at hs''
        obtain rfl : s'' = s' := Option.some.inj (hs''.symm.trans hs)
        exact hpushed hp
      · cases hs
    · cases hs
  | erase t i key =>
    simp only [step] at hs
    split at hs
    · rename_i v hv
      obtain ⟨s'', hs'', hp⟩ := step_erase t key h hv
      simp only [step, hv] at hs''
      obtain rfl : s'' = s' := Option.some.inj (hs''.symm.trans hs)
      exact hpushed hp
    · cases hs
  | forget i =>
    simp only [step] at hs
    split at hs
    · rename_i v hv
      obtain ⟨B, hrun, rfl⟩ := Option.map_eq_some_iff.mp hs
      refine ⟨?_, fun hne => absurd rfl (hne i)⟩
      have hsplit := rootRefs_eraseIdx hv
      have howned := h.owned
      rw [held, hsplit, add_assoc] at howned
      have hspec := of_wp_state (P := fun B => B.Owned (held { s with
          versions := s.versions.eraseIdx i }) ∧ s.heap.SameMemory B)
        (F := fun _ => False) (s := s.heap) (x := forEach v.root.toList fun j =>
          release (.nodes, j)) ?_ hrun
      · exact ⟨hspec.1, fun w hw =>
          (h.represents w (List.mem_of_mem_eraseIdx hw)).extends hspec.2.extends⟩
      · cases hroot : v.root with
        | none =>
          rw [hroot] at howned
          exact ⟨by simpa [held] using howned, .refl⟩
        | some j =>
          rw [hroot] at howned
          have howned' : s.heap.Owned ((.nodes, j) ::ₘ
              held { s with versions := s.versions.eraseIdx i }) := by
            simpa [held] using howned
          simp only [Option.toList_some, forEach, wp_bind]
          exact wp_imp (release_owned howned') (fun _ B hB => ⟨hB.1, hB.2.1⟩) fun _ _ hE => hE
    · cases hs
  | drain t =>
    obtain ⟨B, hrun, rfl⟩ := Option.map_eq_some_iff.mp hs
    have hspec := of_wp_state (P := fun B => B.Owned s.held ∧ s.heap.Preserves s.held B)
      (F := fun _ => False) (wp_imp (drain_spec _ (E := fun _ B => B.Owned s.held ∧
        s.heap.Preserves s.held B) h.owned) (fun _ B hB => ⟨hB.1, hB.2.1⟩) fun _ _ hE => hE) hrun
    exact ⟨⟨hspec.1, fun v hv => (h.represents v hv).preserves hspec.2 (mem_held_of_root hv)⟩,
      fun _ v hv => hv⟩

/-- Every version held is the trie of its calls. -/
theorem reachable_replays (h : docVersions.Reachable Machine.anyEvent s) : s.Replays :=
  h.invariant (fun _ => IsStart.replays) fun _ _ _ hi _ hs => (step_replays hi hs).1

theorem Inv.answer_eq (h : s.Inv) (hv : v ∈ s.versions) (key : ObjectId) :
    s.answer v key = some (lastInserted v.edits key) := by
  obtain ⟨tr, hrep, hrouted, hlookup⟩ := h.faithful v hv
  have hspec := hamtLookup_spec key (E := fun _ _ => False) (F := fun _ => False)
    hrep hrouted
  unfold wp at hspec
  unfold answer run
  cases hrun : hamtLookup v.root key s.heap with
  | ok r B =>
    rw [hrun] at hspec
    rw [hspec.1, hlookup]
  | error e B =>
    rw [hrun] at hspec
    exact hspec.elim
  | fault f =>
    rw [hrun] at hspec
    exact hspec.elim

theorem Inv.walk_eq (h : s.Inv) (hv : v ∈ s.versions) :
    ∃ out, s.walk v = some out ∧ (out.map Prod.fst).Nodup ∧
      ∀ key r, (key, r) ∈ out ↔ lastInserted v.edits key = some r := by
  obtain ⟨tr, hrep, hrouted, hlookup⟩ := h.faithful v hv
  have hspec := leafWalk_spec (E := fun _ _ => False) (F := fun _ => False) hrep hrouted
  refine ⟨tr.leaves, ?_, hrouted.nodup_keys, fun key r => ?_⟩
  · unfold wp at hspec
    unfold walk run
    cases hrun : leafWalk v.root s.heap with
    | ok r B =>
      rw [hrun] at hspec
      rw [hspec.1]
    | error e B =>
      rw [hrun] at hspec
      exact hspec.elim
    | fault f =>
      rw [hrun] at hspec
      exact hspec.elim
  · rw [← hrouted.lookup_eq_some_iff, hlookup]

end Versions

/-- The persistent map refines a finite map: whatever calls were made, every version held
answers each key with the record last inserted and not erased since, its walk yields each bound
key once, an insertion or an erasure returns and adds the version of its call or, when the
allocator refuses, none, and no call changes the answers of a version made before. -/
theorem docVersions_refine {s : Versions} (h : docVersions.Reachable Machine.anyEvent s) :
    (∀ v ∈ s.versions, ∀ key, s.answer v key = some (lastInserted v.edits key)) ∧
    (∀ v ∈ s.versions, ∃ out, s.walk v = some out ∧ (out.map Prod.fst).Nodup ∧
      ∀ key r, (key, r) ∈ out ↔ lastInserted v.edits key = some r) ∧
    (∀ t i key record v, s.versions[i]? = some v → record ∈ s.records →
      ∃ s', docVersions.step (.insert t i key record) s = some s' ∧
        (s'.versions = s.versions ∨
          ∃ root, s'.versions = s.versions ++ [⟨root, .insert key record :: v.edits⟩])) ∧
    (∀ t i key v, s.versions[i]? = some v →
      ∃ s', docVersions.step (.erase t i key) s = some s' ∧
        (s'.versions = s.versions ∨
          ∃ root, s'.versions = s.versions ++ [⟨root, .erase key :: v.edits⟩])) ∧
    ∀ e s', docVersions.step e s = some s' → (∀ i, e ≠ .forget i) →
      ∀ v ∈ s.versions, v ∈ s'.versions ∧ ∀ key, s'.answer v key = s.answer v key := by
  have hreplays := Versions.reachable_replays h
  have hinv := hreplays.inv
  refine ⟨fun v hv => hinv.answer_eq hv, fun v hv => hinv.walk_eq hv,
    fun t i key record v hv hr => ?_, fun t i key v hv => ?_, fun e s' hs hne v hv => ?_⟩
  · obtain ⟨s', hs', hp⟩ := Versions.step_insert t key hreplays hv hr
    exact ⟨s', hs', hp.versions⟩
  · obtain ⟨s', hs', hp⟩ := Versions.step_erase t key hreplays hv
    exact ⟨s', hs', hp.versions⟩
  · obtain ⟨hreplays', hkeep⟩ := Versions.step_replays hreplays hs
    have hv' := hkeep hne v hv
    exact ⟨hv', fun key => (hreplays'.inv.answer_eq hv' key).trans (hinv.answer_eq hv key).symm⟩

/-- An arena that refuses nothing, and the empty map. -/
def emptyVersions : Versions where
  heap := init (fun _ => 0) (fun _ => 2) (fun _ => ⟨fun _ => none, 0⟩) none
  records := []
  versions := [⟨none, []⟩]

/-- Two keys that share their first digit are bound, one is erased and a version is given up. -/
def sampleCalls : List VersionEvent :=
  [.record 0 ⟨1, 0, .layer {}⟩, .insert 0 0 1 0, .insert 0 1 33 0, .erase 0 2 1, .forget 1,
    .drain 0]

theorem docVersions_refine_sampleCalls : ∃ s, docVersions.Reachable Machine.anyEvent s ∧
    s.versions.length = 3 ∧
    ∀ v ∈ s.versions, ∀ key, s.answer v key = some (lastInserted v.edits key) := by
  have hstart : docVersions.start emptyVersions :=
    ⟨⟨_, _, _, none, by simp, rfl⟩, rfl, rfl⟩
  obtain ⟨s, hs, hlen⟩ := Machine.exists_reachable Machine.anyEvent sampleCalls
    (fun s => s.versions.length == 3) hstart (Machine.runAllowed_anyEvent _ _)
    (by decide +kernel)
  exact ⟨s, hs, by simpa using hlen, (docVersions_refine hs).1⟩

end ArbitraryComposer
