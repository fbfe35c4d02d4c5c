import ArbitraryComposer.Model.ScriptLogic

/-!
# The Working Tree of a Transaction

A transaction edits a map of its own, forked from the version it was opened on. This module
gives the mutator scripts their meaning on the arena. Every error exit leaves the working tree
as it was when the operation was refused, and whatever was counted for the failed operation is
given back.

## Main definitions

- `Working`: what the mutators of a transaction read and write.
- `Script.interp`: a script run on it, with a stamp for the records it makes.
- `Working.Edited`: what a script may have changed.

## Main results

- `Script.interp_spec`: a script keeps the counts exact, and its edits are stamped.
-/

set_option linter.unusedSectionVars false

namespace ArbitraryComposer

open Exec Arena SlabType

/-- The state the mutators of a transaction work on. -/
structure Working where
  /-- The arena of the model. -/
  arena : Heap
  /-- The next id of the model. -/
  nextId : ObjectId
  /-- The working root. -/
  root : Option ℕ
  /-- The objects touched, in order. -/
  touched : List ObjectId
  /-- The content states changed. -/
  contents : List ContentStateEdit

/-- Programs of a mutator. -/
abbrev WorkingExec (α : Type) : Type := Exec Working PoolError Fault α

/-- The working map. -/
def Working.map (w : Working) : DocMap := docMap w.arena w.root

/-- An operation on the arena. -/
def onArena {α : Type} (x : HeapExec α) : WorkingExec α :=
  zoom Working.arena (fun A w => { w with arena := A }) id x

/-- Drop a root handle. -/
def releaseRoot (root : Option ℕ) : HeapExec Unit :=
  forEach root.toList fun i => release (.nodes, i)

/-- The move assignment to the working root. -/
def assignRoot (next : Option ℕ) : WorkingExec Unit := do
  let old ← gets Working.root
  modify fun w => { w with root := next }
  onArena (releaseRoot old)

/-- `Transaction::touch`. -/
def touch (id : ObjectId) : WorkingExec Unit :=
  modify fun w => if id ∈ w.touched then w else { w with touched := w.touched ++ [id] }

/-- The working root after an edit of one object. -/
def rebind (next : Option ℕ) (key : ObjectId) : WorkingExec Unit := do
  assignRoot next
  touch key

/-- `Model::allocate_id`. -/
def takeId : WorkingExec ObjectId := do
  let id ← gets Working.nextId
  modify fun w => { w with nextId := id + 1 }
  assert (¬ id.synthetic) .syntheticId
  pure id

/-- The call of `StateRefSink::retain` for a new content record. The sink is registered before
the first transaction. -/
def retainState (r : ObjectRecord) : HeapExec Unit :=
  match r.as with
  | .content c =>
    if c.state.hasState then
      modify fun A => { A with retained := .record r :: A.retained }
    else
      pure ()
  | _ => pure ()

/-- The sequence of every mutator: create a record, stamp it, insert it, touch the object. The
setters of a content retain the state of the record in between. -/
def putRecord (t stamp : ℕ) (key : ObjectId) (as : Payload) (retains : Bool) :
    WorkingExec Unit := do
  let record ← onArena (create t (.record ⟨key, stamp, as⟩))
  ensuring
    (do
      onArena (if retains then retainState ⟨key, stamp, as⟩ else pure ())
      let root ← gets Working.root
      let next ← onArena (hamtInsert t root key record)
      rebind (some next) key)
    (onArena (release (.records, record)))

/-- Erase a record and touch the object. -/
def eraseRecord (t : ℕ) (key : ObjectId) : WorkingExec Unit := do
  let root ← gets Working.root
  let next ← onArena (hamtErase t root key)
  rebind next key

/-- The record of an object. -/
def findRecord (root : Option ℕ) (key : ObjectId) : HeapExec (Option ObjectRecord) := do
  match ← hamtLookup root key with
  | some i =>
    match ← peek (.records, i) with
    | .record r => return some r
    | .node _ => fault .dangling
  | none => return none

/-- `read_chunk_chain`. A chain longer than the number of records comes back to a chunk it has
visited; there the loop of the source does not end. -/
def readChunkChain (root : Option ℕ) (kind : RecordKind) :
    ℕ → ObjectId → HeapExec (List (ObjectId × Payload))
  | 0, _ => fault .depthExceeded
  | fuel + 1, cur =>
    if cur.valid then do
      match ← findRecord root cur with
      | some r =>
        if r.kind = kind then
          return (cur, r.as) :: (← readChunkChain root kind fuel r.as.next)
        else
          return []
      | none => return []
    else
      pure []

/-- The chain of a kind from a head on. -/
def readChain (root : Option ℕ) (kind : RecordKind) (head : ObjectId) :
    HeapExec (List (ObjectId × Payload)) := do
  let n ← gets fun A : Heap => A.cells.keys.card
  readChunkChain root kind (n + 1) head

/-- Run a script; the records it makes get the stamp. -/
def Script.interp {α : Type} (t stamp : ℕ) : Script α → WorkingExec α
  | done a => pure a
  | allocateId k => do
    let id ← takeId
    (k id).interp t stamp
  | lookup key k => do
    let root ← gets Working.root
    let r ← onArena (findRecord root key)
    (k (r.map ObjectRecord.as)).interp t stamp
  | chain kind head k => do
    let root ← gets Working.root
    let chunks ← onArena (readChain root kind head)
    (k chunks).interp t stamp
  | put key as retains k => do
    putRecord t stamp key as retains
    k.interp t stamp
  | erase key k => do
    eraseRecord t key
    k.interp t stamp
  | noteState e k => do
    modify fun w => { w with contents := mergeContent w.contents e }
    k.interp t stamp

/-! ## What a script changes -/

/-- The assertions of the model that a run may fail: an id past the model's half of the id
space, a cyclic chunk chain, and a count at its ceiling. -/
def Stops (f : Fault) : Prop :=
  f = .syntheticId ∨ f = .depthExceeded ∨ f = .countOverflow

namespace Working

/-- The working root is a map and its count is the transaction's; `rest` is held elsewhere. -/
structure Ok (w : Working) (rest : Multiset (View × ℕ)) : Prop where
  /-- The counts are exact. -/
  owned : w.arena.Owned (rootRefs w.root + rest)
  /-- The working root is a map. -/
  isMap : IsMap w.arena w.root

/-- Only touched objects changed, and every new record has the stamp and the id it is filed
under. -/
structure Edited (stamp : ℕ) (w w' : Working) : Prop where
  /-- No object in the arena changed. -/
  ext : w.arena.Extends w'.arena
  /-- Ids are handed out in order. -/
  nextId_le : w.nextId.toNat ≤ w'.nextId.toNat
  /-- What was touched stays touched. -/
  touched_subset : w.touched ⊆ w'.touched
  /-- An object is touched once. -/
  nodup : w.touched.Nodup → w'.touched.Nodup
  /-- What is not touched did not change. -/
  frame : ∀ k ∉ w'.touched, w'.map k = w.map k
  /-- What changed is stamped. -/
  stamped : ∀ k r, w'.map k = some r → w.map k = some r ∨ r.revision = stamp ∧ r.id = k

variable {w w' w'' : Working} {stamp t : ℕ} {rest : Multiset (View × ℕ)} {key : ObjectId}
  {as : Payload}

theorem Edited.refl : Edited stamp w w :=
  ⟨.refl, le_rfl, List.Subset.refl _, id, fun _ _ => rfl, fun _ _ h => Or.inl h⟩

theorem Edited.trans (h : Edited stamp w w') (h' : Edited stamp w' w'') : Edited stamp w w'' where
  ext := h.ext.trans h'.ext
  nextId_le := h.nextId_le.trans h'.nextId_le
  touched_subset := List.Subset.trans h.touched_subset h'.touched_subset
  nodup hn := h'.nodup (h.nodup hn)
  frame k hk := (h'.frame k hk).trans (h.frame k fun hk' => hk (h'.touched_subset hk'))
  stamped k r hr := by
    rcases h'.stamped k r hr with hr | hr
    · exact h.stamped k r hr
    · exact Or.inr hr

/-- A step that leaves the working map alone. -/
theorem Edited.of_map_eq (hext : w.arena.Extends w'.arena) (hmap : w'.map = w.map)
    (hid : w.nextId.toNat ≤ w'.nextId.toNat) (ht : w'.touched = w.touched) :
    Edited stamp w w' where
  ext := hext
  nextId_le := hid
  touched_subset := ht ▸ List.Subset.refl _
  nodup := ht ▸ id
  frame k _ := congrFun hmap k
  stamped _ _ hr := Or.inl (hmap ▸ hr)

/-- A step that rebinds one object and touches it. -/
theorem Edited.of_update {o : Option ObjectRecord} (hext : w.arena.Extends w'.arena)
    (hmap : w'.map = Function.update w.map key o) (hid : w'.nextId = w.nextId)
    (ht : w'.touched = if key ∈ w.touched then w.touched else w.touched ++ [key])
    (ho : ∀ r ∈ o, r.revision = stamp ∧ r.id = key) : Edited stamp w w' where
  ext := hext
  nextId_le := by rw [hid]
  touched_subset := by
    rw [ht]
    split
    · exact List.Subset.refl _
    · exact List.subset_append_left _ _
  nodup hn := by
    rw [ht]
    split
    · exact hn
    · rename_i hk
      exact List.Nodup.append hn (List.nodup_singleton key) (by simpa using hk)
  frame k hk := by
    have hne : k ≠ key := by
      rintro rfl
      rw [ht] at hk
      split at hk
      · exact hk ‹_›
      · exact hk (List.mem_append_right _ (List.mem_singleton_self _))
    rw [hmap, Function.update_of_ne hne]
  stamped k r hr := by
    rw [hmap] at hr
    by_cases hk : k = key
    · subst hk
      rw [Function.update_self] at hr
      exact Or.inr (ho r hr)
    · rw [Function.update_of_ne hk] at hr
      exact Or.inl hr

end Working

section

variable {A : Heap} {w : Working} {stamp t : ℕ} {rest held : Multiset (View × ℕ)}
  {key : ObjectId} {as : Payload} {root next : Option ℕ} {E : PoolError → Heap → Prop}
  {F : Fault → Prop}

/-- The exits of a step of a mutator: the counts stay exact and the edits are touched and
stamped, whether the step was refused or not. -/
def Working.After (stamp : ℕ) (rest : Multiset (View × ℕ)) (w w' : Working) : Prop :=
  w'.Ok rest ∧ w.Edited stamp w'

/-- An exit of a step that hands out no id, with the map it leaves. -/
def Working.Leaves (stamp : ℕ) (rest : Multiset (View × ℕ)) (w : Working) (m : DocMap)
    (w' : Working) : Prop :=
  w.After stamp rest w' ∧ w'.map = m ∧ w'.nextId = w.nextId

/-- A held root handle can be dropped. -/
theorem releaseRoot_spec (h : A.Owned (rootRefs root + held)) :
    wp (releaseRoot root) (fun _ A' => A'.Owned held ∧ A.SameMemory A') E F A := by
  cases root with
  | none => exact ⟨by simpa using h, .refl⟩
  | some i =>
    have h' : A.Owned ((.nodes, i) ::ₘ held) := by simpa using h
    simp only [releaseRoot, Option.toList_some, forEach, wp_bind]
    exact wp_imp (release_owned h') (fun _ A' hA' => ⟨hA'.1, hA'.2.1⟩) fun _ _ hE => hE

/-- The working root is replaced by a root the caller holds. -/
theorem assignRoot_spec {E : PoolError → Working → Prop}
    (h : w.arena.Owned (rootRefs next + (rootRefs w.root + held))) :
    wp (assignRoot next) (fun _ w' => w'.arena.Owned (rootRefs next + held) ∧
      w.arena.SameMemory w'.arena ∧ w' = { w with arena := w'.arena, root := next }) E F w := by
  simp only [assignRoot, wp_bind, wp_gets, wp_modify, onArena, wp_zoom]
  have h' : w.arena.Owned (rootRefs w.root + (rootRefs next + held)) := by
    rwa [add_left_comm] at h
  exact wp_imp (releaseRoot_spec h') (fun _ A' hA' => ⟨hA'.1, hA'.2, trivial⟩) fun _ _ hE => hE

theorem touch_spec {E : PoolError → Working → Prop} : wp (touch key) (fun _ w' => w' = { w with
    touched := if key ∈ w.touched then w.touched else w.touched ++ [key] }) E F w := by
  simp only [touch, wp_modify]
  split <;> rfl

/-- The working root is replaced by a map in which one object is rebound. -/
theorem rebind_spec {A' : Heap} {o : Option ObjectRecord} {E : PoolError → Working → Prop}
    (hext : w.arena.Extends A')
    (howned : A'.Owned (rootRefs next + (rootRefs w.root + held))) (hmap : IsMap A' next)
    (hdoc : docMap A' next = Function.update w.map key o)
    (ho : ∀ r ∈ o, r.revision = stamp ∧ r.id = key) :
    wp (rebind next key) (fun _ => w.Leaves stamp held (Function.update w.map key o)) E F
      { w with arena := A' } := by
  simp only [rebind, wp_bind]
  refine wp_imp (assignRoot_spec (w := { w with arena := A' }) howned) (fun _ w₁ hw₁ => ?_)
    fun _ _ hE => hE
  obtain ⟨howned₁, hsame, hw₁⟩ := hw₁
  refine wp_imp touch_spec (fun _ w₂ hw₂ => ?_) fun _ _ hE => hE
  subst hw₂
  rw [hw₁]
  have hmap₁ : docMap w₁.arena next = Function.update w.map key o :=
    (docMap_extends hmap howned.sound hsame.extends).trans hdoc
  refine ⟨⟨⟨howned₁, hmap.extends hsame.extends⟩, ?_⟩, hmap₁, rfl⟩
  exact .of_update (hext.trans hsame.extends) hmap₁ rfl rfl ho

/-- Moving counts on the arena changes nothing in the working map. -/
theorem Working.Ok.setArena {A' : Heap} (h : w.Ok rest) (stamp : ℕ)
    (howned : A'.Owned (rootRefs w.root + held)) (hext : w.arena.Extends A') :
    Working.Leaves stamp held w w.map { w with arena := A' } := by
  have hmap := docMap_extends h.isMap h.owned.sound hext
  exact ⟨⟨⟨howned, h.isMap.extends hext⟩, .of_map_eq hext hmap le_rfl rfl⟩, hmap, rfl⟩

/-- Retaining a state leaves the memory as it is. -/
theorem retainState_spec {r : ObjectRecord} {retains : Bool} (h : A.Owned held) :
    wp (if retains then retainState r else pure ())
      (fun _ A' => A'.Owned held ∧ A.SameMemory A') E F A := by
  refine wp_ite (fun _ => ?_) fun _ => ⟨h, .refl⟩
  unfold retainState
  split
  · refine wp_ite (fun _ => ?_) fun _ => ⟨h, .refl⟩
    rw [wp_modify]
    exact ⟨h.setRetained _, rfl, rfl, rfl, rfl⟩
  · exact ⟨h, .refl⟩

/-- A put rebinds one object, or is refused and changes nothing. -/
theorem putRecord_spec {retains : Bool} (h : w.Ok rest) :
    wp (putRecord t stamp key as retains)
      (fun _ => w.Leaves stamp rest (Function.update w.map key (some ⟨key, stamp, as⟩)))
      (fun _ => w.Leaves stamp rest w.map) F w := by
  simp only [putRecord, wp_bind, onArena, wp_zoom, wp_ensuring, wp_gets]
  refine wp_imp (create_spec h.owned rfl) (fun i A₀ hA₁ => ?_)
    fun _ A' hA' => h.setArena stamp hA'.1 hA'.2
  obtain ⟨howned₀, hext₀, hcell₀, -, -⟩ := hA₁
  refine wp_imp (retainState_spec howned₀) (fun _ A₁ hA₁ => ?_) fun _ _ hE => hE
  obtain ⟨howned₁, hsame⟩ := hA₁
  have hext₁ := hext₀.trans hsame.extends
  have hcell := hsame.extends.lookup_eq _ _ hcell₀
  -- the record is held until the end of the scope, whichever way the scope ends
  have hrelease : ∀ {m : DocMap} {w' : Working} {E : PoolError → Heap → Prop},
      w.Leaves stamp ((.records, i) ::ₘ rest) m w' →
      wp (release (.records, i)) (fun _ A' => w.Leaves stamp rest m { w' with arena := A' }) E F
        w'.arena := by
    rintro m w' E ⟨⟨hok, hedit⟩, hm, hid⟩
    have howned : w'.arena.Owned ((.records, i) ::ₘ (rootRefs w'.root + rest)) := by
      rw [← Multiset.add_cons]
      exact hok.owned
    refine wp_imp (release_owned howned) (fun _ A' hA' => ?_) fun _ _ hE => hE
    obtain ⟨hafter, hmap, -⟩ := hok.setArena stamp hA'.1 hA'.2.1.extends
    exact ⟨⟨hafter.1, hedit.trans hafter.2⟩, hmap.trans hm, hid⟩
  have hroot : ∀ j ∈ w.root, (View.nodes, j) ∈ (View.records, i) ::ₘ (rootRefs w.root + rest) :=
    mem_of_rootRefs_le ((Multiset.le_add_right _ _).trans (Multiset.le_cons_self _ _))
  refine wp_imp (insert_spec howned₁ (Multiset.mem_cons_self _ _) hroot
    (h.isMap.extends hext₁)) (fun j A₂ hA₂ => ?_) fun _ A₂ hA₂ => ?_
  · obtain ⟨howned₂, hext₂, hmap₂, hdoc₂⟩ := hA₂
    have hrecord : recordAt A₁ i = ⟨key, stamp, as⟩ :=
      recordAt_of_lookup (by rw [hext₁.slot_eq]; exact hcell)
    rw [docMap_extends h.isMap h.owned.sound hext₁, hrecord] at hdoc₂
    rw [← Multiset.add_cons, ← Multiset.singleton_add, ← rootRefs_some] at howned₂
    refine wp_imp (rebind_spec (hext₁.trans hext₂) howned₂ hmap₂ hdoc₂ ?_)
      (fun _ w₃ hw₃ => hrelease hw₃) fun _ _ hE => hE
    rintro r ⟨⟩
    exact ⟨rfl, rfl⟩
  · rw [Undone, ← Multiset.add_cons] at hA₂
    exact hrelease (h.setArena stamp hA₂.1 (hext₁.trans hA₂.2))

/-- An erasure unbinds one object, or is refused and changes nothing. -/
theorem eraseRecord_spec (h : w.Ok rest) :
    wp (eraseRecord t key) (fun _ => w.Leaves stamp rest (Function.update w.map key none))
      (fun _ => w.Leaves stamp rest w.map) F w := by
  simp only [eraseRecord, wp_bind, onArena, wp_zoom, wp_gets]
  refine wp_imp (erase_spec h.owned (mem_of_rootRefs_le (Multiset.le_add_right _ _)) h.isMap)
    (fun next A₁ hA₁ => ?_) fun _ A' hA' => h.setArena stamp hA'.1 hA'.2
  obtain ⟨howned, hext, hmap, hdoc⟩ := hA₁
  refine wp_imp (rebind_spec hext howned hmap hdoc ?_) (fun _ w₂ hw₂ => hw₂) fun _ _ hE => hE
  rintro r ⟨⟩

/-- A record is found as the map has it. -/
theorem findRecord_spec (hs : A.Owned held) (hmap : IsMap A root) :
    wp (findRecord root key) (fun r A' => A' = A ∧ r = docMap A root key) E F A := by
  simp only [findRecord, wp_bind]
  refine wp_imp (lookup_spec hmap held) (fun r A' hA' => ?_) fun _ _ hE => hE
  obtain ⟨rfl, hdoc, hlive⟩ := hA'
  cases r with
  | none => exact ⟨rfl, hdoc⟩
  | some i =>
    rw [wp_bind]
    exact wp_peek ((hlive i rfl).names hs.sound).exists_record ⟨rfl, hdoc⟩

/-- Following a chain gives the chain of the map and changes nothing. -/
theorem readChain_spec {kind : RecordKind} {head : ObjectId} (hs : A.Owned held)
    (hmap : IsMap A root) :
    wp (readChain root kind head) (fun l A' => A' = A ∧ (docMap A root).Chain kind head l) E
      Stops A := by
  have hloop : ∀ (fuel : ℕ) (cur : ObjectId), wp (readChunkChain root kind fuel cur)
      (fun l A' => A' = A ∧ (docMap A root).Chain kind cur l) E Stops A := by
    intro fuel
    induction fuel with
    | zero => exact fun _ => Or.inr (Or.inl rfl)
    | succ fuel ih =>
      intro cur
      rw [readChunkChain]
      refine wp_ite (fun hvalid => ?_) fun hvalid => ⟨rfl, .stop fun h => absurd h hvalid⟩
      rw [wp_bind]
      refine wp_imp (findRecord_spec hs hmap) (fun r A' hA' => ?_) fun _ _ hE => hE
      obtain ⟨rfl, hr⟩ := hA'
      cases r with
      | none => exact ⟨rfl, .stop fun _ r' hr' => by rw [← hr] at hr'; cases hr'⟩
      | some r =>
        refine wp_ite (fun hkind => ?_) fun hkind => ⟨rfl, .stop fun _ r' hr' => ?_⟩
        · rw [wp_bind]
          refine wp_imp (ih r.as.next) (fun l A'' hA => ?_) fun _ _ hE => hE
          exact ⟨hA.1, .chunk hvalid hr.symm hkind hA.2⟩
        · rw [← hr] at hr'
          cases hr'
          exact hkind
  exact hloop _ head

/-- The next id is handed out while it is in the model's half of the id space. -/
theorem takeId_spec (stamp : ℕ) {E : PoolError → Working → Prop} (h : w.Ok rest) :
    wp takeId (fun id w' => w.After stamp rest w' ∧ id = w.nextId ∧ id.synthetic = false ∧
      w'.map = w.map ∧ w'.nextId = w.nextId + 1) E Stops w := by
  simp only [takeId, wp_bind, wp_gets, wp_modify]
  rw [wp_assert]
  by_cases hid : w.nextId.synthetic = true
  · exact Or.inr ⟨not_not_intro hid, Or.inl rfl⟩
  · refine Or.inl ⟨hid, ?_⟩
    have hid := Bool.eq_false_of_not_eq_true hid
    have hnext := Script.toNat_add_one hid
    refine ⟨⟨⟨h.owned, h.isMap⟩, .of_map_eq .refl rfl ?_ rfl⟩, rfl, hid, rfl, rfl⟩
    rw [hnext]
    omega

/-- What follows a step is described from the state before it. -/
private theorem Working.After.wp {α : Type} {y : WorkingExec α} {w₁ : Working}
    {Q : α → Working → Prop} (h : w.After stamp rest w₁)
    (hy : wp y (fun a w' => w₁.After stamp rest w' ∧ Q a w')
      (fun _ => w₁.After stamp rest) Stops w₁) :
    wp y (fun a w' => w.After stamp rest w' ∧ Q a w') (fun _ => w.After stamp rest) Stops w₁ :=
  wp_imp hy (fun _ _ hw₂ => ⟨⟨hw₂.1.1, h.2.trans hw₂.1.2⟩, hw₂.2⟩)
    fun _ _ hw₂ => ⟨hw₂.1, h.2.trans hw₂.2⟩

/-- A script keeps the counts exact and makes only edits that are touched and stamped; when it is
not refused, what it ensures holds of the working map. -/
theorem Script.interp_spec {α : Type} (x : Script α) (stamp : ℕ)
    (Q : α → DocMap → ObjectId → Prop) (h : w.Ok rest) (hQ : x.Ensures stamp Q w.map w.nextId) :
    wp (x.interp t stamp) (fun a w' => w.After stamp rest w' ∧ Q a w'.map w'.nextId)
      (fun _ => w.After stamp rest) Stops w := by
  induction x generalizing w with
  | done a => exact ⟨⟨h, .refl⟩, hQ⟩
  | allocateId k ih =>
    simp only [interp, wp_bind]
    refine wp_imp (takeId_spec stamp h) (fun id w₁ hw₁ => ?_) fun _ _ hE => hE
    obtain ⟨hafter, rfl, hid, hmap, hnext⟩ := hw₁
    exact hafter.wp (ih _ hafter.1 (by rw [hmap, hnext]; exact hQ hid))
  | lookup key k ih =>
    simp only [interp, wp_bind, wp_gets, onArena, wp_zoom]
    refine wp_imp (findRecord_spec h.owned h.isMap) (fun r A' hA' => ?_) fun _ _ hE => hE
    obtain ⟨rfl, rfl⟩ := hA'
    exact ih _ h hQ
  | chain kind head k ih =>
    simp only [interp, wp_bind, wp_gets, onArena, wp_zoom]
    refine wp_imp (readChain_spec h.owned h.isMap) (fun chunks A' hA' => ?_) fun _ _ hE => hE
    obtain ⟨rfl, hchain⟩ := hA'
    exact ih _ h (hQ chunks hchain)
  | put key as retains k ih =>
    simp only [interp, wp_bind]
    refine wp_imp (putRecord_spec h) (fun _ w₁ hw₁ => ?_) fun _ _ hE => hE.1
    obtain ⟨hafter, hmap, hid⟩ := hw₁
    exact hafter.wp (ih hafter.1 (by rw [hmap, hid]; exact hQ))
  | erase key k ih =>
    simp only [interp, wp_bind]
    refine wp_imp (eraseRecord_spec h) (fun _ w₁ hw₁ => ?_) fun _ _ hE => hE.1
    obtain ⟨hafter, hmap, hid⟩ := hw₁
    exact hafter.wp (ih hafter.1 (by rw [hmap, hid]; exact hQ))
  | noteState e k ih =>
    simp only [interp, wp_bind, wp_modify]
    have hafter : w.After stamp rest { w with contents := mergeContent w.contents e } :=
      ⟨⟨h.owned, h.isMap⟩, .of_map_eq .refl rfl le_rfl rfl⟩
    exact hafter.wp (ih hafter.1 hQ)

end

end ArbitraryComposer
