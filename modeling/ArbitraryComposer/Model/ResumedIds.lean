import ArbitraryComposer.Model.Recovery

/-!
# Ids After a Reopen

A model that opens a file hands out ids from one past the largest id of a record. The records name
other objects by value, also objects that were removed, and the walk does not look at these names.

## Main definitions

- `DocMap.Appears`: an id is bound in a map or named by a record of it.
- `Model.HandsOutLater`: some run of a model hands an id out.

## Main results

- `handsOutLater_iff`: a model hands out the ids from its counter on.
- `allocateId_increases`: no id is handed out twice.
- `resumed_ids_fresh_iff`: when no id in the document is handed out after a reopen.
-/

namespace ArbitraryComposer

open Exec WorkspaceImage Relation

/-- An id appears in a map: it is bound, or a record names it. -/
def DocMap.Appears (m : DocMap) (id : ObjectId) : Prop :=
  ∃ k r, m k = some r ∧ (id = k ∨ id ∈ r.namedIds)

/-- At some later point `Model::allocate_id` returns the id. -/
def Model.HandsOutLater (s : Model) (id : ObjectId) : Prop :=
  ∃ es s₁ s₂, docModel.run es s = some s₁ ∧ allocateId.run s₁ = .ok id s₂

/-! ## The counter in a run -/

theorem idsGrow_exec (e : ModelEvent) : Evolves IdsGrow (exec e) := by
  cases e with
  | transact => exact idsGrow_of_keeps keeps_beginTransaction
  | mutate t i m => exact idsGrow_mutate t i m
  | coalesce i key => exact idsGrow_of_keeps (keeps_setCoalesceKey i key)
  | commit i => exact idsGrow_of_keeps (keeps_commit i)
  | abort i => exact idsGrow_of_keeps (keeps_abortTransaction i)
  | destroy i => exact idsGrow_of_keeps (keeps_destroyTransaction i)
  | undo t => exact idsGrow_of_keeps (keeps_undo t)
  | redo t => exact idsGrow_of_keeps (keeps_redo t)
  | setByteBudget bytes => exact idsGrow_of_keeps (keeps_updateJournal _)
  | loadBaseline t ms => exact idsGrow_loadBaseline t ms
  | pin => exact idsGrow_of_keeps (keeps_modify fun _ => rfl)
  | unpin v => exact idsGrow_of_keeps (keeps_unpin v)
  | allocateId =>
    refine evolves_bind (evolves_of_wp fun s => wp_imp (wp_allocateId s) (fun id s' hs => ?_)
      fun _ _ h => h) fun _ => evolves_pure _
    show s.nextId.toNat ≤ s'.nextId.toNat
    omega
  | drain t => exact idsGrow_of_keeps (Model.keeps_onHeap _)

theorem idsGrow_run {es : List ModelEvent} {s s' : Model} (h : docModel.run es s = some s') :
    IdsGrow s s' := by
  induction es generalizing s with
  | nil =>
    cases h
    exact Nat.le_refl _
  | cons e es ih =>
    obtain ⟨t, ht, h⟩ := Option.bind_eq_some_iff.mp h
    exact Nat.le_trans (idsGrow_exec e s t ht) (ih h)

/-- The id that is handed out is the next one, unless it is not the model's. -/
theorem allocateId_run (s : Model) : allocateId.run s =
    if s.nextId.synthetic = true then .fault .syntheticId
    else .ok s.nextId { s with nextId := s.nextId + 1 } := by
  by_cases hid : s.nextId.synthetic = true
  · simp [allocateId, takeId, run, zoom, assert, Bind.bind, Exec.bind, gets, Exec.modify, fault, hid]
  · simp [allocateId, takeId, run, zoom, assert, Bind.bind, Exec.bind, Pure.pure, Exec.pure, gets,
      Exec.modify, hid]

/-- Ids are taken one after the other up to the ids that are not the model's. -/
private theorem exists_run_allocateId (n : ℕ) (s : Model) (hn : s.nextId.toNat + n < 2 ^ 63) :
    ∃ s', docModel.run (List.replicate n .allocateId) s = some s' ∧
      s'.nextId.toNat = s.nextId.toNat + n := by
  induction n generalizing s with
  | zero => exact ⟨s, rfl, rfl⟩
  | succ n ih =>
    have hid : s.nextId.synthetic = false := decide_eq_false (by omega)
    have hnext : (s.nextId + 1).toNat = s.nextId.toNat + 1 := Script.toNat_add_one hid
    obtain ⟨s', hrun, hs'⟩ := ih { s with nextId := s.nextId + 1 } (by dsimp only; omega)
    have hstep : docModel.step .allocateId s = some { s with nextId := s.nextId + 1 } := by
      have hok := allocateId_run s
      rw [hid, if_neg Bool.false_ne_true] at hok
      show (Exec.bind allocateId (fun _ => Exec.pure ()) s).state? = _
      rw [Exec.bind, show allocateId s = _ from hok]
      rfl
    refine ⟨s', ?_, ?_⟩
    · rw [List.replicate_succ, Machine.run, hstep]
      exact hrun
    · rw [hs']
      dsimp only
      omega

/-- A model hands out the ids from its counter on that are the model's. -/
theorem handsOutLater_iff (s : Model) (id : ObjectId) :
    s.HandsOutLater id ↔ s.nextId.toNat ≤ id.toNat ∧ id.synthetic = false := by
  constructor
  · rintro ⟨es, s₁, s₂, hrun, hid⟩
    rw [allocateId_run] at hid
    split at hid
    case isTrue => cases hid
    case isFalse hown =>
      cases hid
      exact ⟨idsGrow_run hrun, Bool.eq_false_of_not_eq_true hown⟩
  · rintro ⟨hle, hown⟩
    have hlt : id.toNat < 2 ^ 63 := Nat.lt_of_not_le (of_decide_eq_false hown)
    obtain ⟨s₁, hrun, hnext⟩ := exists_run_allocateId (id.toNat - s.nextId.toNat) s (by omega)
    obtain rfl : s₁.nextId = id := UInt64.toNat_inj.mp (by omega)
    refine ⟨_, s₁, { s₁ with nextId := s₁.nextId + 1 }, hrun, ?_⟩
    rw [allocateId_run, hown, if_neg Bool.false_ne_true]

section

variable {img : WorkspaceImage} {s s' : Model} {source : ℕ → ChunkSource} {journaled : Bool}
  {budget : ℕ} {stateCost : ObjectId → StateHandle → ℕ}

/-- Below a node that is reached lie leaves of the root. -/
private theorem exists_represents {A : Heap} {tr : DocTrie} {root i : ℕ} (hof : img.Of A)
    (hrep : Represents A root tr) (hpath : ReflTransGen (fun a b => b ∈ img.children a) root i) :
    ∃ below, Represents A i below ∧ below.leaves ⊆ tr.leaves := by
  induction hpath with
  | refl => exact ⟨tr, hrep, List.Subset.refl _⟩
  | @tail j k _ hjk ih =>
    obtain ⟨below, hbelow, hsub⟩ := ih
    have hedge := mem_edgesAt_nodes.mpr hjk
    obtain ⟨n, hl⟩ := hbelow.lookup
    rw [edgesAt_eq ((node?_eq_some hof).mpr hl)] at hedge
    cases hleaf : n.isLeaf with
    | true =>
      rw [HamtNode.edges, hleaf, if_pos rfl] at hedge
      simp at hedge
    | false =>
      rw [HamtNode.edges_eq hleaf] at hedge
      obtain ⟨d, -, hd⟩ := List.mem_filterMap.mp hedge
      obtain ⟨c, hc, ⟨⟩⟩ := Option.map_eq_some_iff.mp hd
      obtain ⟨child, rfl, hchild⟩ := hbelow.of_isBranch hl hleaf
      have hrepc := hchild d
      rw [hc] at hrepc
      refine ⟨child d, hrepc, List.Subset.trans (fun p hp => ?_) hsub⟩
      exact List.mem_flatMap.mpr ⟨d, List.mem_finRange d, hp⟩

/-- A record the walk meets is bound to a key. -/
private theorem exists_key {A : Heap} {taken : List ℕ} {out : Recovered}
    (hof : img.Of A) (hmap : IsMap A img.root)
    (htaken : ∀ i, i ∈ taken ↔
      ∃ root ∈ img.root, ReflTransGen (fun a b => b ∈ img.children a) root i)
    (hwalk : img.Walked taken out) {j : ℕ} (hj : j ∈ out.records) :
    ∃ k, docMap A img.root k = some (recordAt A j) := by
  obtain ⟨i, hi, hedge⟩ := (hwalk.mem_records j).mp hj
  obtain ⟨root, hroot, hpath⟩ := (htaken i).mp hi
  obtain ⟨tr, hrep, hrouted⟩ := hmap
  rw [Option.mem_def.mp hroot] at hrep ⊢
  obtain ⟨below, hbelow, hsub⟩ := exists_represents hof (show Represents A root tr from hrep) hpath
  obtain ⟨n, hl⟩ := hbelow.lookup
  rw [edgesAt_eq ((node?_eq_some hof).mpr hl)] at hedge
  cases hleaf : n.isLeaf with
  | false =>
    rw [HamtNode.edges_eq hleaf] at hedge
    obtain ⟨d, -, hd⟩ := List.mem_filterMap.mp hedge
    obtain ⟨c, -, ⟨⟩⟩ := Option.map_eq_some_iff.mp hd
  | true =>
    rw [HamtNode.edges, hleaf, if_pos rfl] at hedge
    obtain rfl : j = n.record := by simpa using hedge
    obtain rfl := hbelow.of_isLeaf hl hleaf
    refine ⟨n.key, ?_⟩
    rw [docMap_eq (show RepresentsRoot A (some root) tr from hrep) hrouted,
      hrouted.lookup_eq_some_iff.mpr (hsub (List.mem_singleton_self _)), Option.map_some]

/-- After a reopen the counter is past every object, and right past the one of the largest id. -/
private theorem nextId_openModel (h : docModel.Reachable Machine.anyEvent s)
    (hc : s.checkpoint = some img)
    (ho : img.openModel source journaled budget stateCost = some s') :
    0 < s'.nextId.toNat ∧ (∀ k r, s.session.map k = some r → k.toNat < s'.nextId.toNat) ∧
      (s'.nextId.toNat = 1 ∨ ∃ k r, s.session.map k = some r ∧ s'.nextId.toNat = k.toNat + 1) := by
  obtain ⟨hof, hA, hroot, hisMap, taken, -, htaken, hnames, hwalk⟩ := walked_of_checkpoint h hc
  obtain ⟨⟨-, hown⟩, ⟨⟩⟩ := Option.ite_none_right_eq_some.mp ho
  have hkeyed := (Model.keyed_of_reachable h).current
  have hmap : s.session.map = docMap s.arena img.root := by
    rw [hroot]
    rfl
  have hnext : (img.opened source journaled budget stateCost).nextId.toNat =
      img.rebuildCounts.maxId.toNat + 1 := Script.toNat_add_one hown
  refine ⟨by omega, fun k r hr => ?_, ?_⟩
  · have hle := (le_max_of_docMap hof hA htaken hnames hwalk hisMap (hmap ▸ hr)).2.1
    rw [hkeyed k r hr] at hle
    omega
  · rcases hwalk.max_mem with hzero | ⟨j, hj, r, hr, hmax⟩
    · left
      rw [hnext, hzero]
      rfl
    · obtain ⟨k, hk⟩ := exists_key hof hisMap htaken hwalk hj
      rw [← hmap, recordAt_of_lookup ((record?_eq_some hof).mp hr)] at hk
      refine .inr ⟨k, r, hk, ?_⟩
      rw [hnext, ← hmax, hkeyed k r hk]

/-- After a reopen of a checkpoint no id of the document is handed out, if and only if every id that
a record names is null, is not one of a model, or is at most that of some object. -/
theorem resumed_ids_fresh_iff (h : docModel.Reachable Machine.anyEvent s)
    (hc : s.checkpoint = some img)
    (ho : img.openModel source journaled budget stateCost = some s') :
    (∀ id, s'.HandsOutLater id → ¬ s'.session.map.Appears id) ↔
      ∀ k r, s.session.map k = some r → ∀ id ∈ r.namedIds, id.valid = false ∨
        id.synthetic = true ∨ ∃ k' r', s.session.map k' = some r' ∧ id.toNat ≤ k'.toNat := by
  obtain ⟨hpos, hlt, hmax⟩ := nextId_openModel h hc ho
  rw [map_of_openModel h hc ho]
  simp only [handsOutLater_iff]
  constructor
  · intro hfresh k r hr id hid
    by_contra hnone
    simp only [not_or, Bool.not_eq_true, Bool.not_eq_false] at hnone
    obtain ⟨hvalid, hown, hlarger⟩ := hnone
    refine hfresh id ⟨?_, hown⟩ ⟨k, r, hr, .inr hid⟩
    rcases hmax with hone | ⟨k', r', hr', hnext⟩
    · have hzero : id ≠ 0 := by simpa [ObjectId.valid] using hvalid
      have := UInt64.toNat_inj.not.mpr hzero
      rw [UInt64.toNat_zero] at this
      omega
    · by_contra hlt
      exact hlarger ⟨k', r', hr', by omega⟩
  · rintro hnamed id ⟨hle, hown⟩ ⟨k, r, hr, rfl | hid⟩
    · have := hlt id r hr
      omega
    · rcases hnamed k r hr id hid with hvalid | hsynth | ⟨k', r', hr', hle'⟩
      · have hzero : id = 0 := by simpa [ObjectId.valid] using hvalid
        rw [hzero, UInt64.toNat_zero] at hle
        omega
      · rw [hsynth] at hown
        cases hown
      · have := hlt k' r' hr'
        omega

end

theorem resumed_ids_fresh_iff_composedRun : ∃ s s' : Model, (s'.session.map 2).isSome = true ∧
    ((∀ id, s'.HandsOutLater id → ¬ s'.session.map.Appears id) ↔
      ∀ k r, s.session.map k = some r → ∀ id ∈ r.namedIds, id.valid = false ∨
        id.synthetic = true ∨ ∃ k' r', s.session.map k' = some r' ∧ id.toNat ≤ k'.toNat) := by
  obtain ⟨s, hs, hopen⟩ := Machine.exists_reachable (M := docModel) Machine.anyEvent composedRun
    (fun s => (reopened s).any fun s' => (s'.session.map 2).isSome) start_durableModel
    (Machine.runAllowed_anyEvent _ _) (by decide +kernel)
  obtain ⟨s', ho, hsome⟩ := (Option.any_eq_true _ _).mp hopen
  obtain ⟨img, hc, ho⟩ := Option.bind_eq_some_iff.mp ho
  exact ⟨s, s', hsome, resumed_ids_fresh_iff hs hc ho⟩

/-- A composition gets a layer, which is then removed without being detached. -/
def removedMemberRun : List ModelEvent :=
  [.transact, .mutate 0 0 (.addComposition 1 1), .mutate 0 0 (.addLayer 0 {} 0),
    .mutate 0 0 (.attachLayer 1 2 0), .mutate 0 0 (.remove 2), .commit 0]

/-- The composition still lists the id, and the reopened model hands it out. -/
theorem not_resumed_ids_fresh : ¬ ∀ (s s' : Model) (img : WorkspaceImage)
    (source : ℕ → ChunkSource) (journaled : Bool) (budget : ℕ)
    (stateCost : ObjectId → StateHandle → ℕ), docModel.Reachable Machine.anyEvent s →
      s.checkpoint = some img → img.openModel source journaled budget stateCost = some s' →
        ∀ id, s'.HandsOutLater id → ¬ s'.session.map.Appears id := by
  intro hall
  obtain ⟨s, hs, hopen⟩ := Machine.exists_reachable (M := docModel) Machine.anyEvent
    removedMemberRun (fun s => (reopened s).any fun s' : Model => decide (s'.nextId = 2) &&
      (s'.session.map 1).any fun r : ObjectRecord => decide (2 ∈ r.namedIds)) start_durableModel
    (Machine.runAllowed_anyEvent _ _) (by decide +kernel)
  obtain ⟨s', ho, hs'⟩ := (Option.any_eq_true _ _).mp hopen
  obtain ⟨img, hc, ho⟩ := Option.bind_eq_some_iff.mp ho
  obtain ⟨hnext, hnamed⟩ := (Bool.and_eq_true _ _).mp hs'
  obtain ⟨r, hr, hnamed⟩ := (Option.any_eq_true _ _).mp hnamed
  refine hall s s' img _ _ _ _ hs hc ho 2 ((handsOutLater_iff s' 2).mpr ⟨?_, rfl⟩)
    ⟨1, r, hr, .inr (of_decide_eq_true hnamed)⟩
  rw [of_decide_eq_true hnext]

end ArbitraryComposer
