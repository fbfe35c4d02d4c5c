import ArbitraryComposer.Model.Refinement

/-!
# The Next Id

Ids come from one counter. Mutators take ids from it, and nothing else moves it; no part of the
model sets it back, whatever state the model is in. The allocator asserts that it has not reached
the upper half of the ids, so the counter does not wrap around.

## Main definitions

- `IdsGrow`: the counter is where it was, or farther.

## Main results

- `idsGrow_mutate`, `idsGrow_loadBaseline`: what takes ids.
- `keeps_beginTransaction`, `keeps_commit`, `keeps_undo` and so on: what takes none.
-/

namespace ArbitraryComposer

open Exec

/-! ## What takes no id -/

theorem keeps_transaction (i : ℕ) : Keeps Model.nextId (transaction i) :=
  keeps_bind (keeps_gets _) fun _ => keeps_expect _ _

theorem keeps_currentVersion : Keeps Model.nextId currentVersion :=
  keeps_bind (keeps_gets _) fun _ => keeps_expect _ _

theorem keeps_beginTransaction : Keeps Model.nextId beginTransaction :=
  keeps_bind keeps_currentVersion fun _ =>
    keeps_bind (Model.keeps_onHeap _) fun _ => keeps_modify fun _ => rfl

theorem keeps_setCoalesceKey (i : ℕ) (key : UInt64) :
    Keeps Model.nextId (setCoalesceKey i key) :=
  keeps_bind (keeps_transaction i) fun _ => keeps_modify fun _ => rfl

theorem keeps_abortTransaction (i : ℕ) : Keeps Model.nextId (abortTransaction i) :=
  keeps_bind (keeps_transaction i) fun _ => keeps_ite
    (keeps_bind (keeps_modify fun _ => rfl) fun _ => Model.keeps_onHeap _) (keeps_pure _)

theorem keeps_destroyTransaction (i : ℕ) : Keeps Model.nextId (destroyTransaction i) :=
  keeps_bind (keeps_transaction i) fun _ => keeps_bind (keeps_modify fun _ => rfl) fun _ =>
    keeps_bind (Model.keeps_onHeap _) fun _ => Model.keeps_dropVersion _

theorem keeps_updateJournal (f : Journal ℕ → Journal ℕ × List (RefEffect ℕ)) :
    Keeps Model.nextId (updateJournal f) :=
  keeps_bind (keeps_gets _) fun _ =>
    keeps_bind (keeps_modify fun _ => rfl) fun _ => Model.keeps_onHeap _

theorem keeps_publishTransaction (i : ℕ) (txn : Transaction) :
    Keeps Model.nextId (publishTransaction i txn) :=
  keeps_bind (keeps_modify fun _ => rfl) fun _ => Model.keeps_publish _

theorem keeps_buildEntry (i : ℕ) (txn : Transaction) :
    Keeps Model.nextId (buildEntry i txn) :=
  keeps_bind (keeps_gets _) fun _ => keeps_bind (keeps_expect _ _) fun _ =>
    keeps_bind (keeps_onError (Model.keeps_onHeap _) (keeps_modify fun _ => rfl))
      fun _ => keeps_pure _

theorem keeps_commit (i : ℕ) : Keeps Model.nextId (commit i) := by
  refine keeps_bind (keeps_transaction i) fun txn => ?_
  split
  · exact keeps_throw _
  · refine keeps_ite (keeps_bind (keeps_gets _) fun _ => keeps_ite ?_ ?_) (keeps_pure _)
    · exact keeps_bind (keeps_buildEntry i txn) fun _ =>
        keeps_bind (keeps_publishTransaction i txn) fun _ => keeps_updateJournal _
    · exact keeps_publishTransaction i txn

theorem keeps_navigate (t : ℕ) (targets : List (ObjectId × Option ℕ)) :
    Keeps Model.nextId (navigate t targets) :=
  keeps_bind keeps_currentVersion fun _ => keeps_bind (Model.keeps_onHeap _) fun _ =>
    keeps_bind (Model.keeps_onHeap _) fun _ => Model.keeps_publish _

theorem keeps_undo (t : ℕ) : Keeps Model.nextId (undo t) :=
  keeps_bind (keeps_gets _) fun _ => keeps_ite (keeps_pure _) <|
    keeps_bind (keeps_expect _ _) fun _ =>
      keeps_bind (keeps_navigate t _) fun _ => keeps_modify fun _ => rfl

theorem keeps_redo (t : ℕ) : Keeps Model.nextId (redo t) := by
  refine keeps_bind (keeps_gets _) fun j => ?_
  split
  · exact keeps_bind (keeps_navigate t _) fun _ => keeps_modify fun _ => rfl
  · exact keeps_pure _

theorem keeps_unpin (v : ℕ) : Keeps Model.nextId (unpin v) :=
  keeps_bind (keeps_gets _) fun _ => keeps_bind (keeps_assert _ _) fun _ =>
    keeps_bind (keeps_modify fun _ => rfl) fun _ => Model.keeps_dropVersion v

/-! ## What takes ids -/

/-- The counter is where it was, or farther. -/
def IdsGrow (s s' : Model) : Prop := s.nextId.toNat ≤ s'.nextId.toNat

instance : IsPreorder Model IdsGrow where
  refl s := Nat.le_refl s.nextId.toNat
  trans _ _ _ h h' := Nat.le_trans h h'

/-- The same of the state of a mutator. -/
def Working.IdsGrow (w w' : Working) : Prop := w.nextId.toNat ≤ w'.nextId.toNat

instance : IsPreorder Working Working.IdsGrow where
  refl w := Nat.le_refl w.nextId.toNat
  trans _ _ _ h h' := Nat.le_trans h h'

theorem idsGrow_onArena {α : Type} (x : HeapExec α) : Evolves Working.IdsGrow (onArena x) :=
  evolves_zoom (T := fun _ _ => True) (fun _ _ _ => trivial) fun w _ _ => Nat.le_refl w.nextId.toNat

/-- An id is handed out only below the ids that are not the model's, where one more is more. -/
theorem wp_takeId {E : PoolError → Working → Prop} (w : Working) :
    wp takeId (fun id w' => id = w.nextId ∧ w'.nextId.toNat = w.nextId.toNat + 1) E
      (fun _ => True) w := by
  simp only [takeId, wp_bind, wp_gets, wp_modify]
  rw [wp_assert]
  by_cases hid : w.nextId.synthetic = true
  · exact .inr ⟨not_not_intro hid, trivial⟩
  · exact .inl ⟨hid, rfl, Script.toNat_add_one (Bool.eq_false_of_not_eq_true hid)⟩

theorem idsGrow_takeId : Evolves Working.IdsGrow takeId := by
  refine evolves_of_wp fun w => wp_imp (wp_takeId w) (fun id w' hw' => ?_) fun _ _ h => h
  show w.nextId.toNat ≤ w'.nextId.toNat
  omega

theorem idsGrow_rebind (next : Option ℕ) (key : ObjectId) :
    Evolves Working.IdsGrow (rebind next key) := by
  have hassign : Evolves Working.IdsGrow (assignRoot next) :=
    evolves_bind (evolves_gets _) fun _ =>
      evolves_bind (evolves_modify fun w => Nat.le_refl w.nextId.toNat) fun _ => idsGrow_onArena _
  refine evolves_bind hassign fun _ => evolves_modify fun w => ?_
  show w.nextId.toNat ≤ (if key ∈ w.touched then w else _).nextId.toNat
  split <;> exact Nat.le_refl _

/-- A script takes ids and sets none back. -/
theorem idsGrow_interp {α : Type} (t stamp : ℕ) (x : Script α) :
    Evolves Working.IdsGrow (x.interp t stamp) := by
  induction x with
  | done a => exact evolves_pure a
  | allocateId k ih => exact evolves_bind idsGrow_takeId fun id => ih id
  | lookup key k ih =>
    exact evolves_bind (evolves_gets _) fun _ => evolves_bind (idsGrow_onArena _) fun r => ih _
  | chain kind head k ih =>
    exact evolves_bind (evolves_gets _) fun _ => evolves_bind (idsGrow_onArena _) fun l => ih l
  | put key as retains k ih =>
    refine evolves_bind (evolves_bind (idsGrow_onArena _) fun record => ?_) fun _ => ih
    refine evolves_ensuring ?_ (idsGrow_onArena _)
    exact evolves_bind (idsGrow_onArena _) fun _ => evolves_bind (evolves_gets _) fun _ =>
      evolves_bind (idsGrow_onArena _) fun _ => idsGrow_rebind _ key
  | erase key k ih =>
    refine evolves_bind (evolves_bind (evolves_gets _) fun _ => ?_) fun _ => ih
    exact evolves_bind (idsGrow_onArena _) fun _ => idsGrow_rebind _ key
  | noteState e k ih =>
    exact evolves_bind (evolves_modify fun w => Nat.le_refl w.nextId.toNat) fun _ => ih

theorem idsGrow_runScript {α : Type} (t stamp : ℕ) (x : Script α) (root : Option ℕ)
    (touched : List ObjectId) (contents : List ContentStateEdit) :
    Evolves IdsGrow (runScript t stamp x root touched contents) := by
  intro s s' hs
  have hx := idsGrow_interp t stamp x ⟨s.arena, s.nextId, root, touched, contents⟩
  change (runScript t stamp x root touched contents s).state? = some s' at hs
  unfold runScript at hs
  cases hr : x.interp t stamp ⟨s.arena, s.nextId, root, touched, contents⟩ with
  | ok a w =>
    rw [hr] at hs
    cases hs
    exact hx w (by rw [run, hr]; rfl)
  | error e w =>
    rw [hr] at hs
    cases hs
    exact hx w (by rw [run, hr]; rfl)
  | fault f =>
    rw [hr] at hs
    cases hs

/-- What takes no id leaves the counter. -/
theorem idsGrow_of_keeps {α : Type} {x : ModelExec α} (h : Keeps Model.nextId x) :
    Evolves IdsGrow x := by
  intro s s' hs
  show s.nextId.toNat ≤ s'.nextId.toNat
  rw [h s s' hs]

theorem idsGrow_mutate (t i : ℕ) (m : Mutator) : Evolves IdsGrow (mutate t i m) := by
  refine evolves_bind (idsGrow_of_keeps (keeps_transaction i)) fun txn =>
    evolves_ite (evolves_pure _) ?_
  refine evolves_bind (idsGrow_runScript _ _ _ _ _ _) fun p => ?_
  exact evolves_modify fun s => Nat.le_refl s.nextId.toNat

theorem idsGrow_loadBaseline (t : ℕ) (ms : List Mutator) :
    Evolves IdsGrow (loadBaseline t ms) := by
  refine evolves_bind (idsGrow_of_keeps keeps_currentVersion) fun d =>
    evolves_bind (idsGrow_of_keeps (Model.keeps_onHeap _)) fun _ =>
    evolves_bind (idsGrow_runScript _ _ _ _ _ _) fun p => ?_
  rcases p with ⟨w, status⟩
  cases status with
  | none => exact idsGrow_of_keeps (Model.keeps_publish _)
  | some e =>
    exact evolves_bind (idsGrow_of_keeps (Model.keeps_onHeap _)) fun _ => evolves_throw e

/-- The id that is handed out was the next one. -/
theorem wp_allocateId {E : PoolError → Model → Prop} (s : Model) :
    wp allocateId (fun id s' => id = s.nextId ∧ s'.nextId.toNat = s.nextId.toNat + 1) E
      (fun _ => True) s := by
  unfold allocateId
  rw [wp_zoom]
  exact wp_takeId _

end ArbitraryComposer
