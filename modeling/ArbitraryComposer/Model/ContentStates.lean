import ArbitraryComposer.Model.Counts

/-!
# Content State Handles Are Balanced

A content record carries a handle on an editable state, and every copy of the record owns one
count on it. The setters retain the handle on the state sink right after they have made the copy;
the zero-count sink of the records releases it when the last reference to the copy goes, be it
dropped by the writer, by a failed operation or by the destructor of a node in a drain.

## Main definitions

- `Object.carried`: the content and the handle a record carries.
- `Model.retains`, `Model.releases`: the calls made on the state sink.
- `Model.carriers`: the record slots in use that carry a handle.

## Main results

- `state_handles_balanced`: the calls balance in every run.
-/

namespace ArbitraryComposer

open Exec Arena SlabType

/-- The content and the state handle a record carries. -/
def Object.carried : Object → Option (ObjectId × StateHandle)
  | .record r =>
    match r.as with
    | .content c => if c.state.hasState then some (r.id, c.state) else none
    | _ => none
  | .node _ => none

/-- Whether an object carries a handle of a given kind. -/
def Object.carries (P : ObjectId × StateHandle → Bool) (o : Object) : Bool := o.carried.any P

/-- What carries a handle is not written again. -/
theorem Object.immutable_of_carries {P : ObjectId × StateHandle → Bool} {o : Object}
    (h : o.carries P = true) : immutable o = true := by
  cases o with
  | node n => exact absurd h (by simp [carries, carried])
  | record r => rfl

/-- For every record made that carries a handle there was one call of `retain`. -/
def Booked (A : Heap) : Prop :=
  A.retained.filterMap Object.carried = A.made.filterMap Object.carried

/-- What a program logs: for the records that it makes the calls of `retain`, each of some kind, and
perhaps more calls of `release`. -/
def Logged (P : ObjectId × StateHandle → Prop) (A A' : Heap) : Prop :=
  ∃ calls : List (ObjectId × StateHandle), (∀ p ∈ calls, P p) ∧
    A'.made.filterMap Object.carried = calls ++ A.made.filterMap Object.carried ∧
    A'.retained.filterMap Object.carried = calls ++ A.retained.filterMap Object.carried ∧
    A.zeroed <:+ A'.zeroed

section Books

variable {t : ℕ} {key : ObjectId} {root : Option ℕ} {P : ObjectId × StateHandle → Prop}
  {A A' : Heap}

/-- Nothing is made that carries a handle. -/
theorem Logged.quiet (hmade : A'.made.filterMap Object.carried = A.made.filterMap Object.carried)
    (hretained : A'.retained = A.retained) (hzeroed : A.zeroed <:+ A'.zeroed) : Logged P A A' :=
  ⟨[], nofun, hmade, by rw [hretained]; rfl, hzeroed⟩

theorem Logged.refl : Logged P A A := .quiet rfl rfl List.suffix_rfl

/-- The books do not see what is logged. -/
theorem Logged.booked_iff (h : Logged P A A') : Booked A' ↔ Booked A := by
  obtain ⟨calls, -, hmade, hretained, -⟩ := h
  rw [Booked, Booked, hmade, hretained]
  exact List.append_right_inj calls

instance : IsPreorder Heap (Logged P) where
  refl _ := .refl
  trans := by
    rintro A A' A'' ⟨calls, hP, hmade, hretained, hzeroed⟩ ⟨calls', hP', hmade', hretained', hzeroed'⟩
    refine ⟨calls' ++ calls, fun p hp => ?_, ?_, ?_, hzeroed.trans hzeroed'⟩
    · exact (List.mem_append.mp hp).elim (hP' p) (hP p)
    · rw [hmade', hmade, List.append_assoc]
    · rw [hretained', hretained, List.append_assoc]

/-! ## The arena -/

private theorem logged_createNode (n : HamtNode) : Evolves (Logged P) (create t (.node n)) := by
  intro A A' h
  unfold Exec.run create at h
  dsimp only at h
  split at h <;> cases h <;> exact .quiet rfl rfl List.suffix_rfl

private theorem logged_retain (r : View × ℕ) : Evolves (Logged P) (retain r) := by
  intro A A' h
  unfold Exec.run retain at h
  split at h <;> cases h <;> exact .quiet rfl rfl List.suffix_rfl

private theorem logged_copyRef (r : View × ℕ) : Evolves (Logged P) (copyRef r) := by
  intro A A' h
  unfold Exec.run copyRef at h
  split at h <;> cases h
  exact .quiet rfl rfl List.suffix_rfl

private theorem logged_release (r : View × ℕ) : Evolves (Logged P) (release r) := by
  intro A A' h
  unfold Exec.run release at h
  split at h <;> cases h
  split
  · exact .quiet rfl rfl (List.suffix_append _ _)
  · exact .quiet rfl rfl List.suffix_rfl

private theorem logged_peek (r : View × ℕ) : Evolves (Logged P) (peek r) := by
  intro A A' h
  unfold Exec.run peek at h
  split at h <;> cases h
  exact .quiet rfl rfl List.suffix_rfl

private theorem logged_reclaim (r : View × ℕ) : Evolves (Logged P) (reclaim t r) := by
  refine evolves_bind (logged_peek r) fun o => ?_
  refine evolves_bind (evolves_gets _) fun s => ?_
  refine evolves_bind (evolves_modify fun _ => .quiet rfl rfl List.suffix_rfl) fun _ => ?_
  refine evolves_bind (evolves_forEach logged_release _) fun _ => ?_
  refine evolves_modify fun A => ?_
  dsimp only
  split <;> exact .quiet rfl rfl List.suffix_rfl

private theorem logged_drainPass (vs : List View) : Evolves (Logged P) (drainPass t vs) := by
  induction vs with
  | nil => exact evolves_pure false
  | cons v vs ih =>
    refine evolves_bind ?_ ?_
    · refine evolves_bind (evolves_gets _) fun batch => ?_
      refine evolves_ite (evolves_pure _) ?_
      refine evolves_bind (evolves_modify fun _ => .quiet rfl rfl List.suffix_rfl) fun _ => ?_
      exact evolves_bind (evolves_forEach (fun i => logged_reclaim (v, i)) _) fun _ => evolves_pure _
    · exact fun _ => evolves_bind ih fun _ => evolves_pure _

private theorem logged_drain (vs : List View) : Evolves (Logged P) (drain t vs) := by
  refine evolves_bind (evolves_gets _) fun n => ?_
  generalize n + 1 = fuel
  induction fuel with
  | zero => exact evolves_fault _
  | succ fuel ih =>
    refine evolves_bind (logged_drainPass vs) fun progressed => ?_
    exact evolves_ite ih (evolves_pure ())

/-! ## The map -/

private theorem logged_peekNode (i : ℕ) : Evolves (Logged P) (peekNode i) := by
  refine evolves_bind (logged_peek _) fun o => ?_
  cases o with
  | node n => exact evolves_pure n
  | record r => exact evolves_fault _

private theorem logged_updateNode (i : ℕ) (f : HamtNode → HamtNode) :
    Evolves (Logged P) (updateNode i f) :=
  evolves_bind (logged_peekNode i) fun _ => evolves_modify fun _ => .quiet rfl rfl List.suffix_rfl

private theorem logged_adopt (r : View × ℕ) (i : ℕ) (f : HamtNode → HamtNode) :
    Evolves (Logged P) (adopt r i f) :=
  evolves_bind (logged_retain r) fun _ => logged_updateNode i f

private theorem logged_makeLeaf (record : ℕ) : Evolves (Logged P) (makeLeaf t key record) := by
  refine evolves_bind (logged_createNode _) fun node => ?_
  exact evolves_onError (evolves_bind (logged_adopt _ _ _) fun _ => evolves_pure _) (logged_release _)

private theorem logged_shareChildren (base : Option HamtNode) (skip : Fin hamtArity) (node : ℕ) :
    Evolves (Logged P) (shareChildren base skip node) := by
  cases base with
  | none => exact evolves_pure ()
  | some base => exact evolves_forEach (fun d => evolves_ite (evolves_pure ()) (logged_adopt _ _ _)) _

private theorem logged_branchWithChild (base : Option HamtNode) (d : Fin hamtArity) (child : ℕ) :
    Evolves (Logged P) (branchWithChild t base d child) := by
  refine evolves_bind (logged_createNode _) fun node => evolves_onError ?_ (logged_release _)
  refine evolves_bind (logged_shareChildren base d node) fun _ => ?_
  refine evolves_bind (logged_updateNode _ _) fun _ => ?_
  exact evolves_bind (logged_adopt _ _ _) fun _ => evolves_pure _

private theorem logged_branchWithoutChild (base : HamtNode) (skip : Fin hamtArity) :
    Evolves (Logged P) (branchWithoutChild t base skip) := by
  refine evolves_bind (logged_createNode _) fun node => evolves_onError ?_ (logged_release _)
  exact evolves_bind (logged_shareChildren _ skip node) fun _ => evolves_pure _

private theorem logged_split (leaf : ℕ) (existing : ObjectId) (record fuel l : ℕ) :
    Evolves (Logged P) (split t leaf existing key record fuel l) := by
  induction fuel generalizing l with
  | zero => exact evolves_fault _
  | succ fuel ih =>
    refine evolves_ite ?_ ?_
    · refine evolves_bind (ih (l + 1)) fun inner => ?_
      exact evolves_ensuring (logged_branchWithChild _ _ _) (logged_release _)
    · refine evolves_bind (logged_makeLeaf record) fun leaf => evolves_ensuring ?_ (logged_release _)
      refine evolves_bind (logged_branchWithChild _ _ _) fun branch => ?_
      exact evolves_onError (evolves_bind (logged_adopt _ _ _) fun _ => evolves_pure _) (logged_release _)

private theorem logged_insertRec (record fuel node l : ℕ) :
    Evolves (Logged P) (insertRec t key record fuel node l) := by
  induction fuel generalizing node l with
  | zero => exact evolves_fault _
  | succ fuel ih =>
    refine evolves_bind (logged_peekNode node) fun n => ?_
    refine evolves_ite ?_ ?_
    · exact evolves_ite (logged_makeLeaf record) (logged_split node n.key record (fuel + 1) l)
    · refine evolves_ite ?_ ?_
      · refine evolves_bind (ih _ _) fun child => ?_
        exact evolves_ensuring (logged_branchWithChild _ _ _) (logged_release _)
      · refine evolves_bind (logged_makeLeaf record) fun leaf => ?_
        exact evolves_ensuring (logged_branchWithChild _ _ _) (logged_release _)

private theorem logged_shareNode (i : ℕ) : Evolves (Logged P) (shareNode i) :=
  evolves_bind (logged_retain _) fun _ => evolves_pure _

/-- A child that is not erased is put into a copy of its parent. -/
private theorem logged_eraseRec (fuel node l : ℕ) : Evolves (Logged P) (eraseRec t key fuel node l) := by
  induction fuel generalizing node l with
  | zero => exact evolves_fault _
  | succ fuel ih =>
    have share (i : ℕ) : Evolves (Logged P) (do return some (← shareNode i) : HeapExec (Option ℕ)) :=
      evolves_bind (logged_shareNode i) fun _ => evolves_pure _
    refine evolves_bind (logged_peekNode node) fun n => ?_
    have without (d : Fin hamtArity) :
        Evolves (Logged P) (do return some (← branchWithoutChild t n d) : HeapExec (Option ℕ)) :=
      evolves_bind (logged_branchWithoutChild n d) fun _ => evolves_pure _
    refine evolves_ite ?_ ?_
    · exact evolves_ite (evolves_pure none) (share node)
    refine evolves_ite (evolves_bind (ih _ _) fun child => ?_) (share node)
    cases child with
    | some child =>
      apply evolves_ensuring _ (logged_release _)
      exact evolves_bind (logged_branchWithChild _ _ _) fun _ => evolves_pure _
    | none =>
      dsimp only
      split
      · exact evolves_pure none
      · refine evolves_bind (logged_peekNode _) fun sibling => ?_
        exact evolves_ite (share _) (without _)
      · exact without _

private theorem logged_hamtInsert (record : ℕ) : Evolves (Logged P) (hamtInsert t root key record) := by
  cases root with
  | none => exact logged_makeLeaf record
  | some root => exact logged_insertRec record _ root 0

private theorem logged_hamtErase : Evolves (Logged P) (hamtErase t root key) := by
  cases root with
  | none => exact evolves_pure none
  | some root => exact logged_eraseRec _ root 0

private theorem logged_hamtLookup : Evolves (Logged P) (hamtLookup root key) := by
  cases root with
  | none => exact evolves_pure none
  | some root =>
    have loop (fuel cur l : ℕ) : Evolves (Logged P) (lookupRec key fuel cur l) := by
      induction fuel generalizing cur l with
      | zero => exact evolves_fault _
      | succ fuel ih =>
        refine evolves_bind (logged_peekNode cur) fun n => ?_
        exact evolves_ite (evolves_pure _) (evolves_ite (ih _ _) (evolves_pure none))
    exact loop _ root 0

/-! ## Mutators -/

private theorem logged_onArena {α : Type} {x : HeapExec α} (hx : Evolves (Logged P) x) :
    Evolves (Order.Preimage Working.arena (Logged P)) (onArena x) :=
  evolves_zoom hx fun _ _ h => h

private theorem logged_releaseRoot : Evolves (Logged P) (releaseRoot root) :=
  evolves_forEach (fun i => logged_release (.nodes, i)) _

private theorem logged_rebind (next : Option ℕ) :
    Evolves (Order.Preimage Working.arena (Logged P)) (rebind next key) := by
  refine evolves_bind ?_ ?_
  · refine evolves_bind (evolves_gets _) fun old => evolves_bind (evolves_modify fun _ => .quiet rfl rfl List.suffix_rfl) fun _ => ?_
    exact logged_onArena logged_releaseRoot
  · refine fun _ => evolves_modify fun w => ?_
    split <;> exact .quiet rfl rfl List.suffix_rfl

private theorem logged_takeId : Evolves (Order.Preimage Working.arena (Logged P)) takeId := by
  refine evolves_bind (evolves_gets _) fun id => evolves_bind (evolves_modify fun _ => .quiet rfl rfl List.suffix_rfl) fun _ => ?_
  exact evolves_bind (evolves_assert _ _) fun _ => evolves_pure _

private theorem logged_eraseRecord :
    Evolves (Order.Preimage Working.arena (Logged P)) (eraseRecord t key) := by
  refine evolves_bind (evolves_gets _) fun root => ?_
  exact evolves_bind (logged_onArena logged_hamtErase) fun next => logged_rebind next

private theorem logged_findRecord : Evolves (Logged P) (findRecord root key) := by
  refine evolves_bind logged_hamtLookup fun r => ?_
  cases r with
  | none => exact evolves_pure none
  | some i =>
    refine evolves_bind (logged_peek _) fun o => ?_
    cases o with
    | node n => exact evolves_fault _
    | record r => exact evolves_pure _

private theorem logged_readChain (kind : RecordKind) (head : ObjectId) :
    Evolves (Logged P) (readChain root kind head) := by
  have loop (fuel : ℕ) (cur : ObjectId) : Evolves (Logged P) (readChunkChain root kind fuel cur) := by
    induction fuel generalizing cur with
    | zero => exact evolves_fault _
    | succ fuel ih =>
      refine evolves_ite (evolves_bind logged_findRecord fun r => ?_) (evolves_pure [])
      cases r with
      | none => exact evolves_pure []
      | some r => exact evolves_ite (evolves_bind (ih _) fun _ => evolves_pure _) (evolves_pure [])
  exact evolves_bind (evolves_gets _) fun n => loop (n + 1) head

/-- Whether a record of some shape carries a handle. -/
def Payload.carriesState : Payload → Bool
  | .content c => c.state.hasState
  | _ => false

/-- A record that carries no handle. -/
private theorem carried_eq_none {r : ObjectRecord} (h : r.as.carriesState = false) :
    (Object.record r).carried = none := by
  obtain ⟨id, revision, as⟩ := r
  cases as with
  | content c => exact if_neg (Bool.eq_false_iff.mp h)
  | _ => rfl

/-- The call of `retain` notes the record exactly when it carries a handle. -/
private theorem retainState_run {r : ObjectRecord} {retains : Bool}
    (h : r.as.carriesState = true → retains = true) (A : Heap) :
    ∃ A', (if retains then retainState r else pure () : HeapExec Unit) A = .ok () A' ∧
      A'.made = A.made ∧ A'.zeroed = A.zeroed ∧ A'.retained.filterMap Object.carried =
        (Object.record r).carried.toList ++ A.retained.filterMap Object.carried := by
  by_cases hr : r.as.carriesState = true
  · obtain ⟨id, revision, as⟩ := r
    cases as with
    | content c =>
      have hstate : c.state.hasState = true := hr
      have hcarried : (Object.record ⟨id, revision, .content c⟩).carried = some (id, c.state) :=
        if_pos hstate
      refine ⟨{ A with retained := .record ⟨id, revision, .content c⟩ :: A.retained }, ?_, rfl, rfl, ?_⟩
      · rw [if_pos (h hr)]
        exact congrFun (if_pos hstate) A
      · rw [List.filterMap_cons_some hcarried, hcarried]
        rfl
    | _ => exact absurd hr Bool.false_ne_true
  · have hr := Bool.eq_false_iff.mpr hr
    refine ⟨A, ?_, rfl, rfl, by rw [carried_eq_none hr]; rfl⟩
    cases retains with
    | false => rfl
    | true =>
      obtain ⟨id, revision, as⟩ := r
      rw [if_pos rfl, retainState]
      cases as with
      | content c => exact congrFun (if_neg (Bool.eq_false_iff.mp hr)) A
      | _ => rfl

/-- A new record is the last object made, or nothing is made. -/
private theorem create_logs (o : Object) (A : Heap) :
    wp (create t o)
      (fun _ A' => A'.made = o :: A.made ∧ A'.retained = A.retained ∧ A'.zeroed = A.zeroed)
      (fun _ A' => A'.made = A.made ∧ A'.retained = A.retained ∧ A'.zeroed = A.zeroed)
      (fun _ => True) A := by
  unfold wp create
  dsimp only
  split
  · rename_i heq
    split at heq <;> cases heq
    exact ⟨rfl, rfl, rfl⟩
  · rename_i heq
    split at heq <;> cases heq
    exact ⟨rfl, rfl, rfl⟩
  · trivial

/-- A record is made and retained for, or made without a handle. -/
private theorem logged_putRecord {stamp : ℕ} {as : Payload} {retains : Bool}
    (h : as.carriesState = true → retains = true)
    (hP : ∀ p ∈ (Object.record ⟨key, stamp, as⟩).carried, P p) :
    Evolves (Order.Preimage Working.arena (Logged P)) (putRecord t stamp key as retains) := by
  intro w w' hw
  refine of_wp_state (P := fun w' => Logged P w.arena w'.arena) (F := fun _ => True) ?_ hw
  simp only [putRecord, wp_bind, onArena, wp_zoom, wp_ensuring, wp_gets]
  refine wp_imp (create_logs _ w.arena) (fun record A hA => ?_) fun e A hA => ?_
  · obtain ⟨A', hrun, hmade, hzeroed, hretained⟩ := retainState_run (r := ⟨key, stamp, as⟩) h A
    -- both logs got the same entry, or none of them did
    have logged : Logged P w.arena A' := by
      refine ⟨(Object.record ⟨key, stamp, as⟩).carried.toList, fun p hp => hP p ?_, ?_, ?_, ?_⟩
      · exact Option.mem_toList.mp hp
      · rw [hmade, hA.1]
        cases hc : (Object.record ⟨key, stamp, as⟩).carried with
        | none => rw [List.filterMap_cons_none hc]; rfl
        | some p => rw [List.filterMap_cons_some hc]; rfl
      · rw [hretained, hA.2.1]
      · rw [hzeroed, hA.2.2]
    have drop (A₁ : Heap) (hA₁ : Logged P w.arena A₁) :
        wp (release (.records, record)) (fun _ A₂ => Logged P w.arena A₂)
          (fun _ A₂ => Logged P w.arena A₂) (fun _ => True) A₁ :=
      wp_imp ((logged_release _).wp A₁) (fun _ _ h => trans_of _ hA₁ h)
        fun _ _ h => trans_of _ hA₁ h
    refine wp_of_run hrun ?_
    refine wp_imp ((logged_hamtInsert (P := P) record).wp A') (fun next A₁ hA₁ => ?_) fun _ A₁ hA₁ => ?_
    · have hinserted := trans_of _ logged hA₁
      refine wp_imp ((logged_rebind (P := P) (some next)).wp _) (fun _ w₁ hw₁ => ?_) fun _ w₁ hw₁ => ?_
      · exact drop _ (trans_of _ hinserted hw₁)
      · exact drop _ (trans_of _ hinserted hw₁)
    · exact drop _ (trans_of _ logged hA₁)
  · exact .quiet (by rw [hA.1]) hA.2.1 (by rw [hA.2.2])

end Books

namespace Script

variable {α β : Type} {t stamp : ℕ} {P : ObjectId → Payload → Bool → Prop}
  {N : ContentStateEdit → Prop} {found : ObjectId → Option Payload → Prop}

/-- Every put of a script satisfies a property, and so does every change of a state it notes. -/
def Ops (P : ObjectId → Payload → Bool → Prop) (N : ContentStateEdit → Prop) : Script α → Prop
  | done _ => True
  | allocateId k => ∀ id, (k id).Ops P N
  | lookup _ k => ∀ r, (k r).Ops P N
  | chain _ _ k => ∀ l, (k l).Ops P N
  | put key as retains k => P key as retains ∧ k.Ops P N
  | erase _ k => k.Ops P N
  | noteState e k => N e ∧ k.Ops P N

/-- They do when the record that a script looks up before anything else is one that may be
found. -/
def OpsOn (found : ObjectId → Option Payload → Prop) (P : ObjectId → Payload → Bool → Prop)
    (N : ContentStateEdit → Prop) : Script α → Prop
  | lookup key k => ∀ r, found key r → (k r).Ops P N
  | x => x.Ops P N

/-- The rule for sequencing. -/
theorem Ops.bind {x : Script α} {f : α → Script β} (hx : x.Ops P N)
    (hf : ∀ a, (f a).Ops P N) : (x >>= f).Ops P N := by
  change (x.bind f).Ops P N
  induction x with
  | done a => exact hf a
  | allocateId k ih => exact fun id => ih id (hx id)
  | lookup key k ih => exact fun r => ih r (hx r)
  | chain kind head k ih => exact fun l => ih l (hx l)
  | put key as retains k ih => exact ⟨hx.1, ih hx.2⟩
  | erase key k ih => exact ih hx
  | noteState e k ih => exact ⟨hx.1, ih hx.2⟩

theorem ops_find (key : ObjectId) : (find key).Ops P N := fun _ => trivial

theorem ops_allocateId : (allocateId done).Ops P N := fun _ => trivial

theorem ops_chain (kind : RecordKind) (head : ObjectId) : (chain kind head done).Ops P N :=
  fun _ => trivial

theorem ops_set {key : ObjectId} {as : Payload} (h : P key as false) : (set key as).Ops P N :=
  ⟨h, trivial⟩

theorem ops_setRetained {key : ObjectId} {as : Payload} (h : P key as true) :
    (setRetained key as).Ops P N := ⟨h, trivial⟩

theorem ops_eraseAll (ids : List ObjectId) : (eraseAll ids).Ops P N := by
  induction ids with
  | nil => trivial
  | cons id ids ih => exact ih

theorem ops_allocateIds (n : ℕ) : (allocateIds n).Ops P N := by
  induction n with
  | zero => trivial
  | succ n ih => exact ops_allocateId.bind fun _ => ih.bind fun _ => trivial

theorem ops_setAll {records : List (ObjectId × Payload)}
    (h : ∀ p ∈ records, P p.1 p.2 false) : (setAll records).Ops P N := by
  induction records with
  | nil => trivial
  | cons p records ih =>
    exact ⟨h p List.mem_cons_self, ih fun q hq => h q (List.mem_cons_of_mem p hq)⟩

/-- A script that begins with a lookup. -/
theorem opsOn_find_bind {key : ObjectId} {f : Option Payload → Script β}
    (h : ∀ r, found key r → (f r).Ops P N) : (find key >>= f).OpsOn found P N := h

/-- What is asked of every operation is asked of those after the lookup. -/
theorem Ops.on {x : Script α} (h : x.Ops P N) : x.OpsOn found P N := by
  cases x with
  | lookup key k => exact fun r _ => h r
  | _ => exact h

/-- A script run for its effect. -/
theorem OpsOn.void {x : Script Unit} (h : x.OpsOn found P N) :
    (Mutator.script.void x).OpsOn found P N := by
  cases x with
  | lookup key k => exact fun r hr => Ops.bind (h r hr) fun _ => trivial
  | done a => exact trivial
  | allocateId k => exact Ops.on (Ops.bind (x := allocateId k) h fun _ => trivial)
  | chain kind head k => exact Ops.on (Ops.bind (x := chain kind head k) h fun _ => trivial)
  | put key as retains k => exact Ops.on (Ops.bind (x := put key as retains k) h fun _ => trivial)
  | erase key k => exact Ops.on (Ops.bind (x := erase key k) h fun _ => trivial)
  | noteState e k => exact Ops.on (Ops.bind (x := noteState e k) h fun _ => trivial)

/-- When anything may be found, every operation satisfies the property. -/
theorem OpsOn.ops {x : Script α} (h : x.OpsOn (fun _ _ => True) P N) : x.Ops P N := by
  cases x with
  | lookup key k => exact fun r => h r trivial
  | _ => exact h

end Script

/-! ## The operations of the mutators -/

section Setters

open Script

/-- What the puts and the notes of the mutators satisfy: it holds of every put without a handle,
of the copies that the setters of a content make of the record they find, and of the change of a
state. -/
structure Script.Permits (found : ObjectId → Option Payload → Prop)
    (P : ObjectId → Payload → Bool → Prop) (N : ContentStateEdit → Prop) : Prop where
  /-- Nothing is asked of records without a handle. -/
  stateless : ∀ key as, as.carriesState = false → P key as false
  /-- A content record is copied with its state. -/
  copy : ∀ id c c', found id (some (.content c)) → c'.state = c.state → P id (.content c') true

variable {found : ObjectId → Option Payload → Prop} {P : ObjectId → Payload → Bool → Prop}
  {N : ContentStateEdit → Prop} (h : Permits found P N)

include h

/-- An edit of a record that never makes one with a handle. -/
private theorem ops_editRecord {id : ObjectId} {f : Payload → Option Payload}
    (hf : ∀ as, ∀ as' ∈ f as, as'.carriesState = false) : (editRecord id f).Ops P N := by
  refine (ops_find id).bind fun r => ?_
  cases hr : r.bind f with
  | none => exact trivial
  | some as' =>
    obtain ⟨as, -, has⟩ := Option.bind_eq_some_iff.mp hr
    exact ops_set (h.stateless id as' (hf as as' has))

private theorem ops_editComposition (id : ObjectId)
    (f : CompositionRecord → CompositionRecord) : (editComposition id f).Ops P N := by
  refine ops_editRecord h fun as as' has => ?_
  cases as <;> cases has
  rfl

private theorem ops_editLayer (id : ObjectId) (f : LayerRecord → LayerRecord) :
    (editLayer id f).Ops P N := by
  refine ops_editRecord h fun as as' has => ?_
  cases as <;> cases has
  rfl

private theorem ops_addObject {as : Payload} (has : as.carriesState = false) :
    (addObject as).Ops P N := by
  apply ops_allocateId.bind
  exact fun id => (ops_set (h.stateless id as has)).bind fun _ => trivial

private theorem ops_addCompositionAs (id : ObjectId) (w ht : UInt64) :
    (addCompositionAs id w ht).Ops P N := (ops_set (h.stateless id _ rfl)).bind fun _ => trivial

private theorem ops_storeMembership (id : ObjectId) (base : CompositionRecord)
    (old oldIds new : List ObjectId) : (storeMembership id base old oldIds new).Ops P N := by
  unfold storeMembership
  dsimp only
  split
  · exact (ops_eraseAll _).bind fun _ => ops_set (h.stateless _ _ rfl)
  · apply (ops_allocateIds _).bind
    intro fresh
    apply (ops_eraseAll _).bind
    intro _
    refine (ops_setAll fun p hp => ?_).bind fun _ => ops_set (h.stateless _ _ rfl)
    obtain ⟨i, -, rfl⟩ := List.mem_map.mp hp
    exact h.stateless _ _ rfl

private theorem ops_editMembership (id : ObjectId)
    (f : List ObjectId → Option (List ObjectId)) : (editMembership id f).Ops P N := by
  refine (ops_find id).bind fun r => ?_
  split
  · rename_i c
    have order : (readLayerOrder c).Ops P N := by
      unfold readLayerOrder
      split
      · exact fun _ => trivial
      · exact trivial
    refine order.bind fun l => ?_
    dsimp only
    split
    · exact ops_storeMembership h _ _ _ _ _
    · exact trivial
  · exact trivial

private theorem ops_attachLayer (id layer : ObjectId) (i : UInt32) :
    (attachLayer id layer i).Ops P N := by
  refine (ops_find id).bind fun r => ?_
  split
  · refine (ops_find layer).bind fun l => ?_
    cases l with
    | none => exact trivial
    | some l => exact ops_editMembership h id _
  · exact trivial

/-- The chunks carry no handle, and the content record that is found keeps its state. -/
private theorem opsOn_writeContentChain {id : ObjectId} {kind : RecordKind} {count : ℕ}
    {fill : ℕ → ObjectId → Payload} {head : ContentRecord → ObjectId}
    {onRecord : ContentRecord → ObjectId → ContentRecord}
    (hfill : ∀ p next, (fill p next).carriesState = false)
    (hstate : ∀ base id, (onRecord base id).state = base.state) :
    (writeContentChain id kind count fill head onRecord).OpsOn found P N := by
  refine opsOn_find_bind fun r hr => ?_
  split
  · rename_i base
    have write : (do
        let chunkIds ← allocateIds count
        setAll ((List.range count).reverse.map fun p =>
          (chunkIds.getD p 0, fill p (chunkIds.getD (p + 1) 0)))
        setRetained id (.content (onRecord base (chunkIds.getD 0 0))) : Script Unit).Ops P N := by
      refine (ops_allocateIds _).bind fun ids => ?_
      refine (ops_setAll fun p hp => ?_).bind fun _ =>
        ops_setRetained (h.copy id base _ hr (hstate base _))
      obtain ⟨i, -, rfl⟩ := List.mem_map.mp hp
      exact h.stateless _ _ (hfill _ _)
    dsimp only
    split
    · apply (ops_chain _ _).bind
      exact fun old => (ops_eraseAll _).bind fun _ => write
    · exact write
  · exact trivial

/-- Every mutator makes the puts and notes that are permitted, but for the change of a state. -/
theorem Mutator.opsOn_script (m : Mutator)
    (hset : ∀ id after, m = .setContentState id after → ∀ c, found id (some (.content c)) →
      P id (.content { c with state := after }) true ∧ N ⟨id, c.state, after⟩) :
    m.script.OpsOn found P N := by
  cases m with
  | addLayer content transform opacity => exact (ops_addObject h rfl).on
  | addContent kind => exact (ops_addObject h rfl).on
  | addComposition w ht => exact (ops_allocateId.bind fun _ => ops_addCompositionAs h ..).on
  | addCompositionAs id w ht => exact (ops_addCompositionAs h id w ht).on
  | setWorkingSpace id format => exact (ops_editComposition h id _).on.void
  | setWorkingAudioFormat id format => exact (ops_editComposition h id _).on.void
  | setTransform id transform => exact (ops_editLayer h id _).on.void
  | setSpan id span => exact (ops_editLayer h id _).on.void
  | setTimeMap id timeMap => exact (ops_editLayer h id _).on.void
  | setOpacity id opacity => exact (ops_editLayer h id _).on.void
  | setGain id gain => exact (ops_editLayer h id _).on.void
  | setAudible id audible => exact (ops_editLayer h id _).on.void
  | setVisible id visible => exact (ops_editLayer h id _).on.void
  | setBlend id blend => exact (ops_editLayer h id _).on.void
  | attachLayer id layer i => exact (ops_attachLayer h id layer i).on.void
  | detachLayer id layer => exact (ops_editMembership h id _).on.void
  | reorderLayer id i k => exact (ops_editMembership h id _).on.void
  | setContentState id after =>
    refine OpsOn.void (opsOn_find_bind fun r hr => ?_)
    split
    · rename_i c
      obtain ⟨hput, hnote⟩ := hset id after rfl c hr
      exact (ops_setRetained hput).bind fun _ => ⟨hnote, trivial⟩
    · exact trivial
  | setContentIdentity id kindId params =>
    apply OpsOn.void
    unfold ArbitraryComposer.setContentIdentity
    exact opsOn_writeContentChain h (fun _ _ => rfl) fun _ _ => rfl
  | setContentInputs id inputs =>
    apply OpsOn.void
    unfold ArbitraryComposer.setContentInputs
    exact opsOn_writeContentChain h (fun _ _ => rfl) fun _ _ => rfl
  | remove id =>
    refine OpsOn.void (opsOn_find_bind fun r _ => ?_)
    cases r with
    | none => exact trivial
    | some r => exact trivial

end Setters

namespace Script

variable {α β : Type} {t stamp : ℕ} {P : ObjectId × StateHandle → Prop}

/-- A record is put with a call of `retain` if it carries a handle, which is of some kind. -/
def CallsFor (P : ObjectId × StateHandle → Prop) (key : ObjectId) (as : Payload)
    (retains : Bool) : Prop :=
  ∀ c, as = .content c → c.state.hasState = true → retains = true ∧ P (key, c.state)

/-- A script that retains for every record it makes that carries a handle, which is of some kind. -/
abbrev Calls (P : ObjectId × StateHandle → Prop) (x : Script α) : Prop :=
  x.Ops (CallsFor P) fun _ => True

theorem callsFor_stateless {key : ObjectId} {as : Payload} (h : as.carriesState = false)
    (retains : Bool) : CallsFor P key as retains := by
  rintro c rfl hc
  rw [show c.state.hasState = false from h] at hc
  cases hc

/-- A put logs its call. -/
private theorem logged_put {key : ObjectId} {as : Payload} {retains : Bool}
    (h : CallsFor P key as retains) :
    Evolves (Order.Preimage Working.arena (Logged P)) (putRecord t stamp key as retains) := by
  refine logged_putRecord (fun hs => ?_) fun p hp => ?_
  · cases as with
    | content c => exact (h c rfl hs).1
    | _ => cases hs
  · cases as with
    | content c =>
      obtain ⟨hstate, hp⟩ := Option.ite_none_right_eq_some.mp hp
      obtain rfl := Option.some.inj hp
      exact (h c rfl hstate).2
    | _ => cases hp

/-- A script logs its calls. -/
theorem Ops.logged {N : ContentStateEdit → Prop} {x : Script α} (h : x.Ops (CallsFor P) N) :
    Evolves (Order.Preimage Working.arena (Logged P)) (x.interp t stamp) := by
  induction x with
  | done a => exact evolves_pure a
  | allocateId k ih => exact evolves_bind logged_takeId fun id => ih id (h id)
  | lookup key k ih =>
    refine evolves_bind (evolves_gets _) fun root => ?_
    exact evolves_bind (logged_onArena logged_findRecord) fun r => ih _ (h _)
  | chain kind head k ih =>
    refine evolves_bind (evolves_gets _) fun root => ?_
    exact evolves_bind (logged_onArena (logged_readChain kind head)) fun l => ih l (h l)
  | put key as retains k ih => exact evolves_bind (logged_put h.1) fun _ => ih h.2
  | erase key k ih => exact evolves_bind logged_eraseRecord fun _ => ih h
  | noteState e k ih => exact evolves_bind (evolves_modify fun _ => .refl) fun _ => ih h.2

/-- So does one on a map, when its lookup finds what the map has. -/
theorem OpsOn.logged {N : ContentStateEdit → Prop} {x : Script α} {w : Working}
    {rest : Multiset (View × ℕ)} (hok : w.Ok rest)
    (h : x.OpsOn (fun key r => r = w.map.payloads key) (CallsFor P) N) :
    wp (x.interp t stamp) (fun _ w' => Logged P w.arena w'.arena)
      (fun _ w' => Logged P w.arena w'.arena) (fun _ => True) w := by
  cases x with
  | lookup key k =>
    rw [interp, wp_bind, wp_gets, wp_bind, onArena, wp_zoom]
    refine wp_imp (findRecord_spec (E := fun _ _ => False) hok.owned hok.isMap)
      (fun r A hA => ?_) fun _ _ hE => hE.elim
    obtain ⟨rfl, rfl⟩ := hA
    exact (Ops.logged (h _ rfl)).wp w
  | _ => exact (Ops.logged h).wp w

end Script

/-- Every mutator calls for every record it makes that carries a handle. -/
theorem Mutator.calls_script (m : Mutator) : m.script.Calls fun _ => True := by
  refine (m.opsOn_script ⟨fun _ as has => ?_, fun id c c' _ _ => ?_⟩ ?_).ops
  · exact Script.callsFor_stateless has _
  · exact fun c hc hstate => ⟨rfl, trivial⟩
  · exact fun id after _ c _ => ⟨fun c hc hstate => ⟨rfl, trivial⟩, trivial⟩

private theorem calls_sequence (ms : List Mutator) :
    (Script.sequence ms).Calls fun _ => True := by
  induction ms with
  | nil => exact trivial
  | cons m ms ih => exact m.calls_script.bind fun _ => ih

/-! ## Events -/

section Events

variable {t : ℕ} {P : ObjectId × StateHandle → Prop}

private theorem logged_onHeap {α : Type} {x : HeapExec α} (hx : Evolves (Logged P) x) :
    Evolves (Order.Preimage Model.arena (Logged P)) (onHeap x) :=
  evolves_zoom hx fun _ _ h => h

/-- A script leaves the model with the arena of its working tree. -/
theorem exists_interp_of_runScript {α : Type} {stamp : ℕ} {x : Script α} {root : Option ℕ}
    {touched : List ObjectId} {contents : List ContentStateEdit} {s s' : Model}
    (h : (runScript t stamp x root touched contents s).state? = some s') :
    ∃ w', ((x.interp t stamp).run ⟨s.arena, s.nextId, root, touched, contents⟩).state? = some w' ∧
      s' = { s with arena := w'.arena, nextId := w'.nextId } := by
  unfold runScript at h
  split at h
  · rename_i hx
    cases h
    exact ⟨_, by rw [Exec.run, hx]; rfl, rfl⟩
  · rename_i hx
    cases h
    exact ⟨_, by rw [Exec.run, hx]; rfl, rfl⟩
  · cases h

private theorem logged_runScript {α : Type} {stamp : ℕ} {x : Script α} (h : x.Calls P)
    (root : Option ℕ) (touched : List ObjectId) (contents : List ContentStateEdit) :
    Evolves (Order.Preimage Model.arena (Logged P)) (runScript t stamp x root touched contents) := by
  intro s s' hs
  obtain ⟨w', hw', rfl⟩ := exists_interp_of_runScript hs
  exact Script.Ops.logged h _ _ hw'

private theorem logged_dropVersion (v : ℕ) :
    Evolves (Order.Preimage Model.arena (Logged P)) (dropVersion v) := by
  refine evolves_bind (evolves_gets _) fun s => ?_
  cases s.version? v with
  | none => exact evolves_pure ()
  | some d =>
    refine evolves_ite (evolves_pure ()) (evolves_bind (evolves_modify fun _ => .refl) fun _ => ?_)
    exact logged_onHeap logged_releaseRoot

private theorem logged_publish (d : DocRoot) :
    Evolves (Order.Preimage Model.arena (Logged P)) (publish d) := by
  refine evolves_bind (evolves_gets _) fun old => evolves_bind (evolves_modify fun _ => .refl) fun _ => ?_
  exact logged_dropVersion old

private theorem logged_currentVersion : Evolves (Order.Preimage Model.arena (Logged P)) currentVersion :=
  evolves_bind (evolves_gets _) fun _ => evolves_expect _ _

private theorem logged_transaction (i : ℕ) :
    Evolves (Order.Preimage Model.arena (Logged P)) (transaction i) :=
  evolves_bind (evolves_gets _) fun _ => evolves_expect _ _

private theorem logged_copyRoot (root : Option ℕ) : Evolves (Logged P) (copyRoot root) :=
  evolves_forEach (fun i => logged_copyRef (.nodes, i)) _

private theorem logged_mutate (i : ℕ) {m : Mutator} (h : m.script.Calls P) :
    Evolves (Order.Preimage Model.arena (Logged P)) (mutate t i m) := by
  refine evolves_bind (logged_transaction i) fun txn => evolves_ite (evolves_pure ()) ?_
  refine evolves_bind (logged_runScript h _ _ _) fun w => ?_
  exact evolves_modify fun _ => .refl

private theorem logged_resolveIn (root : Option ℕ) (key : ObjectId) :
    Evolves (Logged P) (resolveIn root key) := by
  refine evolves_bind logged_hamtLookup fun r => ?_
  cases r with
  | none => exact evolves_pure none
  | some i => exact evolves_bind (logged_retain _) fun _ => evolves_pure _

private theorem logged_releaseRecords (records : List ℕ) : Evolves (Logged P) (releaseRecords records) :=
  evolves_forEach (fun i => logged_release (.records, i)) _

private theorem logged_buildEdits (base root : Option ℕ) (keys : List ObjectId)
    (edits : List (ObjectEdit ℕ)) : Evolves (Logged P) (buildEdits base root keys edits) := by
  induction keys generalizing edits with
  | nil => exact evolves_pure edits
  | cons key keys ih =>
    refine evolves_bind (evolves_onError ?_ (logged_releaseRecords _)) fun e => ih _
    refine evolves_bind (logged_resolveIn base key) fun before => ?_
    refine evolves_bind ?_ ?_
    · exact evolves_onError (logged_resolveIn root key) (logged_releaseRecords _)
    · exact fun _ => evolves_pure _

private theorem logged_updateJournal (f : Journal ℕ → Journal ℕ × List (RefEffect ℕ)) :
    Evolves (Order.Preimage Model.arena (Logged P)) (updateJournal f) := by
  refine evolves_bind (evolves_gets _) fun j => evolves_bind (evolves_modify fun _ => .refl) fun _ => ?_
  refine logged_onHeap (evolves_forEach (fun effect => ?_) _)
  cases effect with
  | copy i => exact logged_copyRef _
  | drop i => exact logged_release _

private theorem logged_publishTransaction (i : ℕ) (txn : Transaction) :
    Evolves (Order.Preimage Model.arena (Logged P)) (publishTransaction i txn) :=
  evolves_bind (evolves_modify fun _ => .refl) fun _ => logged_publish _

private theorem logged_commit (i : ℕ) : Evolves (Order.Preimage Model.arena (Logged P)) (commit i) := by
  refine evolves_bind (logged_transaction i) fun txn => ?_
  cases txn.status with
  | some e => exact evolves_throw e
  | none =>
    refine evolves_ite (evolves_bind (evolves_gets _) fun journaled => ?_) (evolves_pure ())
    refine evolves_ite ?_ (logged_publishTransaction i txn)
    refine evolves_bind ?_ ?_
    · refine evolves_bind (evolves_gets _) fun s => evolves_bind (evolves_expect _ _) fun base => ?_
      refine evolves_bind ?_ fun _ => evolves_pure _
      refine evolves_onError (logged_onHeap (logged_buildEdits _ _ _ _)) ?_
      exact evolves_modify fun _ => .refl
    · intro entry
      exact evolves_bind (logged_publishTransaction i txn) fun _ => logged_updateJournal _

private theorem logged_navigate (targets : List (ObjectId × Option ℕ)) :
    Evolves (Order.Preimage Model.arena (Logged P)) (navigate t targets) := by
  have loop (root : Option ℕ) : Evolves (Logged P) (navigateLoop t root targets) := by
    induction targets generalizing root with
    | nil => exact evolves_pure root
    | cons p targets ih =>
      have step : Evolves (Logged P) (navigateStep t root p.1 p.2) := by
        cases p.2 with
        | none => exact logged_hamtErase
        | some record => exact evolves_bind (logged_hamtInsert record) fun _ => evolves_pure _
      refine evolves_bind (evolves_onError step logged_releaseRoot) fun next => ?_
      exact evolves_bind logged_releaseRoot fun _ => ih next
  refine evolves_bind logged_currentVersion fun d => ?_
  refine evolves_bind (logged_onHeap (logged_copyRoot _)) fun _ => ?_
  exact evolves_bind (logged_onHeap (loop d.root)) fun root => logged_publish _

private theorem logged_setCursor (cursor : ℕ) :
    Evolves (Order.Preimage Model.arena (Logged P)) (setCursor cursor) :=
  evolves_modify fun _ => .refl

/-- The calls of `retain` that an event may make are of some kind. -/
def ModelEvent.Calls (P : ObjectId × StateHandle → Prop) : ModelEvent → Prop
  | mutate _ _ m => m.script.Calls P
  | loadBaseline _ ms => (Script.sequence ms).Calls P
  | _ => True

/-- Every event logs its calls. -/
private theorem logged_exec {e : ModelEvent} (h : e.Calls P) :
    Evolves (Order.Preimage Model.arena (Logged P)) (exec e) := by
  cases e with
  | transact =>
    refine evolves_bind logged_currentVersion fun d => ?_
    exact evolves_bind (logged_onHeap (logged_copyRoot _)) fun _ => evolves_modify fun _ => .refl
  | mutate t i m => exact logged_mutate i h
  | coalesce i key => exact evolves_bind (logged_transaction i) fun _ => evolves_modify fun _ => .refl
  | commit i => exact logged_commit i
  | abort i =>
    refine evolves_bind (logged_transaction i) fun txn => evolves_ite ?_ (evolves_pure ())
    exact evolves_bind (evolves_modify fun _ => .refl) fun _ => logged_onHeap logged_releaseRoot
  | destroy i =>
    refine evolves_bind (logged_transaction i) fun txn => ?_
    refine evolves_bind (evolves_modify fun _ => .refl) fun _ => ?_
    exact evolves_bind (logged_onHeap logged_releaseRoot) fun _ => logged_dropVersion _
  | undo t =>
    refine evolves_bind (evolves_gets _) fun j => evolves_ite (evolves_pure ()) ?_
    refine evolves_bind (evolves_expect _ _) fun stored => ?_
    exact evolves_bind (logged_navigate _) fun _ => logged_setCursor _
  | redo t =>
    refine evolves_bind (evolves_gets _) fun j => ?_
    cases j.entries[j.cursor]? with
    | none => exact evolves_pure ()
    | some stored => exact evolves_bind (logged_navigate _) fun _ => logged_setCursor _
  | setByteBudget bytes => exact logged_updateJournal _
  | loadBaseline t ms =>
    refine evolves_bind logged_currentVersion fun d => ?_
    refine evolves_bind (logged_onHeap (logged_copyRoot _)) fun _ => ?_
    refine evolves_bind (logged_runScript h _ _ _) fun r => ?_
    obtain ⟨w, status⟩ := r
    cases status with
    | none => exact logged_publish _
    | some e => exact evolves_bind (logged_onHeap logged_releaseRoot) fun _ => evolves_throw e
  | pin => exact evolves_modify fun _ => .refl
  | unpin v =>
    refine evolves_bind (evolves_gets _) fun s => evolves_bind (evolves_assert _ _) fun _ => ?_
    exact evolves_bind (evolves_modify fun _ => .refl) fun _ => logged_dropVersion v
  | allocateId =>
    refine evolves_bind ?_ fun _ => evolves_pure ()
    exact evolves_zoom (T := fun _ _ => True) (fun _ _ _ => trivial) fun _ _ _ => .refl
  | drain t => exact logged_onHeap (logged_drain _)

/-- Every event retains for what it makes. -/
theorem ModelEvent.calls (e : ModelEvent) : e.Calls fun _ => True := by
  cases e with
  | mutate t i m => exact m.calls_script
  | loadBaseline t ms => exact calls_sequence ms
  | _ => exact trivial

end Events

/-! ## The balance -/

namespace Model

variable {s : Model} {P : ObjectId × StateHandle → Bool}

/-- The calls of `StateRefSink::retain`, the last one first. -/
def retains (s : Model) : List (ObjectId × StateHandle) :=
  s.arena.retained.filterMap Object.carried

/-- The calls of `StateRefSink::release`, the last one first: what
`ContentStateReclaimSink::on_zero` calls for the records it is called on. -/
def releases (s : Model) : List (ObjectId × StateHandle) :=
  s.arena.zeroed.filterMap Object.carried

/-- The record slots in use that carry a handle of some kind. -/
def carriers (s : Model) (P : ObjectId × StateHandle → Bool) : Finset (ℕ × ℕ) :=
  s.arena.cells.keys.filter fun slot => s.arena.count slot ≠ 0 ∧
    (s.arena.cells.lookup slot).any (Object.carries P) = true

/-- Whether a version, a pin, a transaction or a journal entry reaches a slot. -/
def Reaches (s : Model) (slot : ℕ × ℕ) : Prop :=
  s.arena.graph.Reachable (s.externalRefs.map s.arena.slot) slot

/-- What a step logs. -/
theorem logged_of_step {Q : ObjectId × StateHandle → Prop} {e : ModelEvent} {s' : Model}
    (h : e.Calls Q) (hs : docModel.step e s = some s') : Logged Q s.arena s'.arena :=
  logged_exec h s s' hs

/-- In every run there was one call of `retain` for every record made that carries a handle. -/
theorem booked_of_reachable (h : docModel.Reachable Machine.anyEvent s) : Booked s.arena := by
  apply h.invariant (I := fun s : Model => Booked s.arena)
  · rintro s ⟨storeOf, chunkBits, source, fence, journaled, budget, stateCost, -, rfl⟩
    rfl
  · intro s e s' hs _ hstep
    exact (logged_of_step e.calls hstep).booked_iff.mpr hs

/-- The live objects that carry a handle, by slot. -/
private theorem countP_live (A : Heap) (p : Object → Bool)
    (hp : ∀ o, p o = true → immutable o = true) : A.live.countP (fun o => p o = true) =
      (A.cells.keys.filter fun slot =>
        A.count slot ≠ 0 ∧ (A.cells.lookup slot).any p = true).card := by
  have each (slot : ℕ × ℕ) : (A.liveAt slot).countP (fun o => p o = true) =
      if A.count slot ≠ 0 ∧ (A.cells.lookup slot).any p = true then 1 else 0 := by
    unfold Arena.liveAt
    by_cases h0 : A.count slot = 0
    · rw [if_pos h0, if_neg fun h => h.1 h0]
      rfl
    · rw [if_neg h0]
      rw [Multiset.coe_countP, List.countP_filter]
      cases A.cells.lookup slot with
      | none => simp
      | some o =>
        have himp : p o = true → immutable o = true := hp o
        cases hpo : p o <;> simp_all
  rw [Arena.live, Finset.card_filter, ← Multiset.coe_countPAddMonoidHom, map_sum]
  exact Finset.sum_congr rfl fun slot _ => each slot

/-- The calls of `retain` exceed those of `release` by the slots in use that carry a handle. -/
theorem retains_eq (h : docModel.Reachable Machine.anyEvent s)
    (P : ObjectId × StateHandle → Bool) :
    s.retains.countP P = s.releases.countP P + (s.carriers P).card := by
  have books := (Model.reachable_inv h).owned.sound.books
  have hfilter (l : List Object) :
      ((l.filter immutable : List Object) : Multiset Object).countP
        (fun o => o.carries P = true) = (l.filterMap Object.carried).countP P := by
    rw [Multiset.coe_countP, List.countP_filter, List.countP_filterMap]
    refine List.countP_congr fun o _ => ?_
    have himm : o.carries P = true → immutable o = true := Object.immutable_of_carries
    have hmap : (o.carried.map P).getD false = o.carries P := by
      unfold Object.carries
      cases o.carried <;> rfl
    rw [hmap, Bool.and_eq_true, decide_eq_true_iff]
    exact and_iff_left_of_imp himm
  have hcount := congrArg (Multiset.countP fun o => o.carries P = true) books
  rw [Multiset.countP_add, hfilter, hfilter, countP_live _ _ fun o => Object.immutable_of_carries]
    at hcount
  rw [retains, booked_of_reachable h, hcount]
  rfl

/-- A slot in use that carries a handle. -/
theorem mem_carriers {slot : ℕ × ℕ} : slot ∈ s.carriers P ↔ s.arena.count slot ≠ 0 ∧
    ∃ o, s.arena.cells.lookup slot = some o ∧ o.carries P = true := by
  rw [carriers, Finset.mem_filter, Option.any_eq_true, Finmap.mem_keys]
  constructor
  · exact fun h => h.2
  · rintro ⟨h0, o, ho, hp⟩
    exact ⟨Finmap.mem_of_lookup_eq_some ho, h0, o, ho, hp⟩

/-- The calls on the state sink balance for the handles of some kind: the calls of `retain`
exceed those of `release` by the record slots in use that carry one. -/
structure StatesBalance (s : Model) (P : ObjectId × StateHandle → Bool) : Prop where
  /-- The calls made. -/
  calls : s.retains.countP P = s.releases.countP P + (s.carriers P).card
  /-- What is reached is not released for the last time. -/
  reached : ∀ slot o, s.Reaches slot → s.arena.cells.lookup slot = some o →
    o.carries P = true → s.releases.countP P < s.retains.countP P
  /-- Once nothing waits for reclamation, what is not reached is. -/
  drained : (∀ v, s.arena.pending v = []) →
    (∀ slot o, s.Reaches slot → s.arena.cells.lookup slot = some o → o.carries P = false) →
    s.releases.countP P = s.retains.countP P

/-- What is reached is counted. -/
theorem Inv.count_ne_zero_of_reaches (h : s.Inv) {slot : ℕ × ℕ} (hr : s.Reaches slot)
    (hmem : slot ∈ s.arena.cells) : s.arena.count slot ≠ 0 := by
  have howned := h.owned
  rw [zero_add, h.heldRefs_eq_externalRefs] at howned
  obtain ⟨o, ho⟩ := Finmap.mem_iff.mp hmem
  have hslot : s.arena.slot (view o, slot.2) = slot :=
    Prod.ext (howned.sound.cell_slot slot o ho).symm rfl
  have hn : s.arena.Names (view o, slot.2) := by
    rw [Names, hslot, ho]
    rfl
  intro h0
  exact howned.sound.not_reachable hn (by rw [hslot, h0]) (by rw [hslot]; exact hr)

theorem statesBalance (h : docModel.Reachable Machine.anyEvent s)
    (P : ObjectId × StateHandle → Bool) : s.StatesBalance P := by
  have hinv := Model.reachable_inv h
  have hcalls := retains_eq h P
  refine ⟨hcalls, fun slot o hr ho hp => ?_, fun hdrained hnone => ?_⟩
  · have hcount := hinv.count_ne_zero_of_reaches hr (Finmap.mem_of_lookup_eq_some ho)
    have hpos : 0 < (s.carriers P).card :=
      Finset.card_pos.mpr ⟨slot, mem_carriers.mpr ⟨hcount, o, ho, hp⟩⟩
    omega
  · have howned := hinv.owned
    rw [zero_add, hinv.heldRefs_eq_externalRefs] at howned
    have hempty : s.carriers P = ∅ := by
      refine Finset.eq_empty_of_forall_notMem fun slot hslot => ?_
      obtain ⟨-, o, ho, hp⟩ := mem_carriers.mp hslot
      have hr := (howned.mem_iff_reachable hdrained).mp (Finmap.mem_of_lookup_eq_some ho)
      rw [hnone slot o hr ho] at hp
      cases hp
    rw [hcalls, hempty, Finset.card_empty, add_zero]

end Model

/-- State handles are balanced. In every run the calls of `retain` for a handle exceed those of
`release` by the record slots in use that carry it, for the handle of each owner apart and for
all owners of equal handles together. So a handle that a version, a pin, a transaction or the
journal reaches is not released for the last time, and once the reclaim stacks are empty every
other one is. -/
theorem state_handles_balanced {s : Model} (h : docModel.Reachable Machine.anyEvent s)
    (handle : StateHandle) : s.StatesBalance (fun p => p.2 == handle) ∧
      ∀ content, s.StatesBalance (fun p => p == (content, handle)) :=
  ⟨Model.statesBalance h _, fun _ => Model.statesBalance h _⟩

/-- A content gets a state and then its identity, both in one transaction, and what that leaves
is drained. -/
def identityRun : List ModelEvent :=
  [.transact, .mutate 0 0 (.addContent 7), .mutate 0 0 (.setContentState 1 ⟨5⟩),
    .mutate 0 0 (.setContentIdentity 1 [107] []), .commit 0, .drain 0]

/-- The handle was retained for both copies, released for the first, and is carried by the
second. -/
theorem state_handles_balanced_identityRun : ∃ s, docModel.Reachable Machine.anyEvent s ∧
    s.retains = [(1, ⟨5⟩), (1, ⟨5⟩)] ∧ s.releases = [(1, ⟨5⟩)] ∧
    s.StatesBalance (fun p => p.2 == ⟨5⟩) := by
  obtain ⟨s, hs, hp⟩ := Machine.exists_reachable Machine.anyEvent identityRun
    (fun s : Model => s.retains == [(1, ⟨5⟩), (1, ⟨5⟩)] && s.releases == [(1, ⟨5⟩)])
    start_emptyModel (Machine.runAllowed_anyEvent _ _) (by decide +kernel)
  simp only [Bool.and_eq_true, beq_iff_eq] at hp
  exact ⟨s, hs, hp.1, hp.2, (state_handles_balanced hs ⟨5⟩).1⟩

end ArbitraryComposer
