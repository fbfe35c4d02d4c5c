import ArbitraryComposer.Model.Transaction

/-!
# The Writes of a Mutator

A script can be made to return, with its result, the records it has put and the ids it has erased.
What holds of these whatever the lookups find is a property of the script alone, and the working
tree reads back what was written.

## Main definitions

- `Script.trace`: a script that also returns its writes.
- `Script.Leaves`: what holds of the result and the writes of every run.
- `DocMap.ReadsBack`: a map holds what was written.

## Main results

- `Script.leaves_bind` and a rule for each composite operation.
- `Script.exists_trace`: a script that ends also ends when it is traced, with the same tree.
- `Script.trace_spec`: what the traced run touches and leaves in the map.
-/

namespace ArbitraryComposer

open Exec

/-- A record put under an id, or none when the id was erased. -/
abbrev Write : Type := ObjectId × Option Payload

namespace Script

variable {α β : Type} {R : α → List Write → Prop} {ws : List Write} {t stamp : ℕ}

/-- The script that also returns what it has written, after some earlier writes. -/
def trace : Script α → List Write → Script (α × List Write)
  | done a, ws => done (a, ws)
  | allocateId k, ws => .allocateId fun id => (k id).trace ws
  | lookup key k, ws => .lookup key fun r => (k r).trace ws
  | chain kind head k, ws => .chain kind head fun l => (k l).trace ws
  | put key as retains k, ws => .put key as retains (k.trace (ws ++ [(key, some as)]))
  | erase key k, ws => .erase key (k.trace (ws ++ [(key, none)]))
  | noteState e k, ws => .noteState e (k.trace ws)

/-- What holds of the result and the writes, whatever the lookups find and whichever ids are
handed out. -/
def Leaves (R : α → List Write → Prop) : Script α → List Write → Prop
  | done a, ws => R a ws
  | allocateId k, ws => ∀ id, (k id).Leaves R ws
  | lookup _ k, ws => ∀ r, (k r).Leaves R ws
  | chain _ _ k, ws => ∀ l, (k l).Leaves R ws
  | put key as _ k, ws => k.Leaves R (ws ++ [(key, some as)])
  | erase key k, ws => k.Leaves R (ws ++ [(key, none)])
  | noteState _ k, ws => k.Leaves R ws

/-! ## Rules -/

/-- The rule for sequencing. -/
theorem leaves_bind {R : β → List Write → Prop} (x : Script α) (f : α → Script β) :
    (x >>= f).Leaves R ws ↔ x.Leaves (fun a ws => (f a).Leaves R ws) ws := by
  change (x.bind f).Leaves R ws ↔ _
  induction x generalizing ws with
  | done a => exact Iff.rfl
  | allocateId k ih => exact forall_congr' fun id => ih id
  | lookup key k ih => exact forall_congr' fun r => ih r
  | chain kind head k ih => exact forall_congr' fun l => ih l
  | put key as retains k ih => exact ih
  | erase key k ih => exact ih
  | noteState e k ih => exact ih

/-- What always holds. -/
theorem leaves_of_forall (x : Script α) (h : ∀ a ws, R a ws) (ws : List Write) :
    x.Leaves R ws := by
  induction x generalizing ws with
  | done a => exact h a ws
  | allocateId k ih => exact fun id => ih id ws
  | lookup key k ih => exact fun r => ih r ws
  | chain kind head k ih => exact fun l => ih l ws
  | put key as retains k ih => exact ih _
  | erase key k ih => exact ih _
  | noteState e k ih => exact ih ws

/-- The rule for erasing records. -/
theorem leaves_eraseAll (ids : List ObjectId) {R : Unit → List Write → Prop} :
    (eraseAll ids).Leaves R ws ↔ R () (ws ++ ids.map fun id => (id, none)) := by
  induction ids generalizing ws with
  | nil =>
    rw [List.map_nil, List.append_nil]
    exact Iff.rfl
  | cons id ids ih =>
    change (eraseAll ids).Leaves R (ws ++ [(id, none)]) ↔ _
    rw [ih, List.append_assoc]
    exact Iff.rfl

/-- The rule for inserting records in order. -/
theorem leaves_setAll (records : List (ObjectId × Payload)) {R : Unit → List Write → Prop} :
    (setAll records).Leaves R ws ↔ R () (ws ++ records.map fun p => (p.1, some p.2)) := by
  induction records generalizing ws with
  | nil =>
    rw [List.map_nil, List.append_nil]
    exact Iff.rfl
  | cons p records ih =>
    change (setAll records).Leaves R (ws ++ [(p.1, some p.2)]) ↔ _
    rw [ih, List.append_assoc]
    exact Iff.rfl

/-- The rule for allocating ids. -/
theorem leaves_allocateIds {count : ℕ} {R : List ObjectId → List Write → Prop}
    (h : ∀ ids, R ids ws) : (allocateIds count).Leaves R ws := by
  induction count generalizing R with
  | zero => exact h []
  | succ count ih =>
    rw [allocateIds, leaves_bind]
    intro id
    change ((allocateIds count) >>= fun ids => pure (id :: ids)).Leaves R ws
    rw [leaves_bind]
    exact ih fun ids => h (id :: ids)

/-- What a script leaves may be weakened. -/
theorem Leaves.mono {R' : α → List Write → Prop} {x : Script α} (h : x.Leaves R ws)
    (imp : ∀ a ws, R a ws → R' a ws) : x.Leaves R' ws := by
  induction x generalizing ws with
  | done a => exact imp a ws h
  | allocateId k ih => exact fun id => ih id (h id)
  | lookup key k ih => exact fun r => ih r (h r)
  | chain kind head k ih => exact fun l => ih l (h l)
  | put key as retains k ih => exact ih h
  | erase key k ih => exact ih h
  | noteState e k ih => exact ih h

/-! ## One property of every write -/

/-- Every write of a script satisfies a property. -/
def Writes (P : Write → Prop) (x : Script α) : Prop :=
  ∀ ws, (∀ q ∈ ws, P q) → x.Leaves (fun _ ws' => ∀ q ∈ ws', P q) ws

section Writes

variable {P : Write → Prop}

/-- One more write that satisfies it. -/
private theorem forall_mem_push {w : Write} (h : ∀ q ∈ ws, P q) (hw : P w) :
    ∀ q ∈ ws ++ [w], P q :=
  List.forall_mem_append.mpr ⟨h, List.forall_mem_singleton.mpr hw⟩

theorem Writes.bind {x : Script α} {f : α → Script β} (hx : x.Writes P)
    (hf : ∀ a, (f a).Writes P) : (x >>= f).Writes P := by
  intro ws hws
  rw [leaves_bind]
  exact (hx ws hws).mono fun a ws' h => hf a ws' h

theorem writes_pure (a : α) : (pure a : Script α).Writes P := fun _ hws => hws

theorem writes_find (key : ObjectId) : (find key).Writes P := fun _ hws _ => hws

theorem writes_chain (kind : RecordKind) (head : ObjectId)
    {k : List (ObjectId × Payload) → Script α} (h : ∀ l, (k l).Writes P) :
    (chain kind head k).Writes P := fun ws hws l => h l ws hws

theorem writes_set {key : ObjectId} {as : Payload} (h : P (key, some as)) :
    (set key as).Writes P := fun _ hws => forall_mem_push hws h

theorem writes_setRetained {key : ObjectId} {as : Payload} (h : P (key, some as)) :
    (setRetained key as).Writes P := fun _ hws => forall_mem_push hws h

theorem writes_eraseAll {ids : List ObjectId} (h : ∀ id ∈ ids, P (id, none)) :
    (eraseAll ids).Writes P := by
  intro ws hws
  rw [leaves_eraseAll]
  refine List.forall_mem_append.mpr ⟨hws, fun q hq => ?_⟩
  obtain ⟨id, hid, rfl⟩ := List.mem_map.mp hq
  exact h id hid

theorem writes_setAll {records : List (ObjectId × Payload)}
    (h : ∀ p ∈ records, P (p.1, some p.2)) : (setAll records).Writes P := by
  intro ws hws
  rw [leaves_setAll]
  refine List.forall_mem_append.mpr ⟨hws, fun q hq => ?_⟩
  obtain ⟨p, hp, rfl⟩ := List.mem_map.mp hq
  exact h p hp

theorem writes_allocateIds (count : ℕ) : (allocateIds count).Writes P :=
  fun _ hws => leaves_allocateIds fun _ => hws

end Writes

/-! ## Traced runs -/

/-- A script that ends also ends when it is traced, with the same result and tree. -/
theorem exists_trace {x : Script α} {a : α} {w w' : Working}
    (h : x.interp t stamp w = .ok a w') (ws : List Write) :
    ∃ ws', (x.trace ws).interp t stamp w = .ok (a, ws') w' := by
  -- the two runs do the same up to the end, so they are split at the first operation together
  have step {γ : Type} {y : WorkingExec γ} {f : γ → WorkingExec α}
      {g : γ → WorkingExec (α × List Write)} {w : Working}
      (h : (y >>= f) w = .ok a w')
      (hfg : ∀ c w₁, f c w₁ = .ok a w' → ∃ ws', g c w₁ = .ok (a, ws') w') :
      ∃ ws', (y >>= g) w = .ok (a, ws') w' := by
    change Exec.bind y f w = _ at h
    change ∃ ws', Exec.bind y g w = _
    unfold Exec.bind at h ⊢
    cases hy : y w with
    | ok c w₁ =>
      rw [hy] at h
      exact hfg c w₁ h
    | error e w₁ =>
      rw [hy] at h
      cases h
    | fault e =>
      rw [hy] at h
      cases h
  induction x generalizing w ws with
  | done b =>
    cases h
    exact ⟨ws, rfl⟩
  | allocateId k ih => exact step h fun id _ h => ih id h ws
  | lookup key k ih => exact step h fun root _ h => step h fun r _ h => ih _ h ws
  | chain kind head k ih => exact step h fun root _ h => step h fun l _ h => ih l h ws
  | put key as retains k ih => exact step h fun _ _ h => ih h _
  | erase key k ih => exact step h fun _ _ h => ih h _
  | noteState e k ih => exact step h fun _ _ h => ih h ws

end Script

/-! ## What a traced run leaves -/

/-- A map has, for every id written, one of the records written. -/
def DocMap.ReadsBack (m : DocMap) (ws : List Write) : Prop :=
  ∀ k ∈ ws.map Prod.fst, (k, m.payloads k) ∈ ws

theorem DocMap.readsBack_nil (m : DocMap) : m.ReadsBack [] := fun _ hk =>
  absurd hk List.not_mem_nil

/-- One more write is read back. -/
theorem DocMap.ReadsBack.update {m : DocMap} {ws : List Write} (h : m.ReadsBack ws)
    (key : ObjectId) (o : Option ObjectRecord) :
    DocMap.ReadsBack (Function.update m key o) (ws ++ [(key, o.map ObjectRecord.as)]) := by
  intro k hk
  rw [payloads]
  by_cases hkey : k = key
  · subst hkey
    rw [Function.update_self]
    exact List.mem_append_right _ (List.mem_singleton.mpr rfl)
  · rw [Function.update_of_ne hkey]
    rw [List.map_append, List.mem_append] at hk
    rcases hk with hk | hk
    · exact List.mem_append_left _ (h k hk)
    · exact absurd (List.mem_singleton.mp hk) hkey

/-- What was not written is as in another map. -/
private def SameApart (m₀ m : DocMap) (ws : List Write) : Prop :=
  ∀ k ∉ ws.map Prod.fst, m k = m₀ k

private theorem SameApart.update {m₀ m : DocMap} {ws : List Write} (h : SameApart m₀ m ws)
    (key : ObjectId) (o : Option ObjectRecord) (w : Option Payload) :
    SameApart m₀ (Function.update m key o) (ws ++ [(key, w)]) := by
  intro k hk
  rw [List.map_append, List.mem_append, not_or] at hk
  obtain ⟨hws, hkey⟩ := hk
  rw [Function.update_of_ne fun heq => hkey (List.mem_singleton.mpr heq)]
  exact h k hws

namespace Script

variable {α : Type} {R : α → List Write → Prop} {ws : List Write} {t stamp : ℕ}

/-- The map a traced script leaves reads back its writes, and has nothing else new. -/
private theorem Leaves.ensures_trace {x : Script α} (h : x.Leaves R ws) {m₀ m : DocMap}
    {n : ObjectId} (hback : m.ReadsBack ws) (hsame : SameApart m₀ m ws) :
    (x.trace ws).Ensures stamp
      (fun p m' _ => R p.1 p.2 ∧ m'.ReadsBack p.2 ∧ SameApart m₀ m' p.2) m n := by
  induction x generalizing m n ws with
  | done a => exact ⟨h, hback, hsame⟩
  | allocateId k ih => exact fun _ => ih n (h n) hback hsame
  | lookup key k ih => exact ih _ (h _) hback hsame
  | chain kind head k ih => exact fun l _ => ih l (h l) hback hsame
  | put key as retains k ih =>
    exact ih h (hback.update key (some ⟨key, stamp, as⟩)) (hsame.update key _ _)
  | erase key k ih => exact ih h (hback.update key none) (hsame.update key _ _)
  | noteState e k ih => exact ih h hback hsame

private theorem keeps_onArena {γ : Type} (y : HeapExec γ) : Keeps Working.touched (onArena y) :=
  keeps_zoom _ fun _ _ => rfl

/-- An edit of one object touches that object. -/
private theorem wp_rebind (next : Option ℕ) (key : ObjectId) (w : Working) :
    wp (rebind next key) (fun _ w' => w'.touched ⊆ w.touched ++ [key]) (fun _ _ => True)
      (fun _ => True) w := by
  have hassign : Keeps Working.touched (assignRoot next) :=
    keeps_bind (keeps_gets _) fun _ => keeps_bind (keeps_modify fun _ => rfl) fun _ =>
      keeps_onArena _
  rw [rebind, wp_bind]
  refine wp_imp (hassign.wp w) (fun _ w₁ hw₁ => ?_) fun _ _ _ => trivial
  rw [touch, wp_modify, ← hw₁]
  split
  · exact List.subset_append_left _ _
  · exact List.Subset.refl _

private theorem wp_putRecord (key : ObjectId) (as : Payload) (retains : Bool) (w : Working) :
    wp (putRecord t stamp key as retains) (fun _ w' => w'.touched ⊆ w.touched ++ [key])
      (fun _ _ => True) (fun _ => True) w := by
  have onArena_wp {γ : Type} (y : HeapExec γ) {Q : γ → Working → Prop} (w : Working)
      (h : ∀ c w', w'.touched = w.touched → Q c w') :
      wp (onArena y) Q (fun _ _ => True) (fun _ => True) w :=
    wp_imp ((keeps_onArena y).wp w) (fun c w' hw' => h c w' hw') fun _ _ _ => trivial
  rw [putRecord, wp_bind]
  refine onArena_wp _ w fun record w₁ hw₁ => ?_
  -- the record is released on both exits, which touches nothing
  rw [wp_ensuring]
  have hbody : wp (do
      onArena (if retains then retainState ⟨key, stamp, as⟩ else pure ())
      let root ← gets Working.root
      let next ← onArena (hamtInsert t root key record)
      rebind (some next) key : WorkingExec Unit)
      (fun _ w' => w'.touched ⊆ w.touched ++ [key]) (fun _ _ => True) (fun _ => True) w₁ := by
    rw [wp_bind]
    refine onArena_wp _ w₁ fun _ w₂ hw₂ => ?_
    rw [wp_bind, wp_gets, wp_bind]
    refine onArena_wp _ w₂ fun next w₃ hw₃ => ?_
    refine wp_imp (wp_rebind (some next) key w₃) (fun _ w₄ hw₄ => ?_) fun _ _ hE => hE
    rwa [hw₃, hw₂, hw₁] at hw₄
  refine wp_imp hbody (fun _ w' hw' => ?_) fun _ w' _ => ?_
  · exact onArena_wp _ w' fun _ w'' hw'' => hw''.symm ▸ hw'
  · exact onArena_wp _ w' fun _ _ _ => trivial

/-- A traced script touches what it has written. -/
private theorem wp_trace (x : Script α) {touched : List ObjectId} {w : Working}
    (h : w.touched ⊆ touched ++ ws.map Prod.fst) :
    wp ((x.trace ws).interp t stamp) (fun p w' => w'.touched ⊆ touched ++ p.2.map Prod.fst)
      (fun _ _ => True) (fun _ => True) w := by
  have append {w' : Working} {key : ObjectId} (o : Option Payload) {w : Working}
      {ws : List Write} (h : w.touched ⊆ touched ++ ws.map Prod.fst)
      (hw' : w'.touched ⊆ w.touched ++ [key]) :
      w'.touched ⊆ touched ++ (ws ++ [(key, o)]).map Prod.fst := by
    rw [List.map_append, ← List.append_assoc]
    apply List.Subset.trans hw'
    apply List.append_subset.mpr
    exact ⟨List.Subset.trans h (List.subset_append_left _ _), List.subset_append_right _ _⟩
  induction x generalizing w ws with
  | done a => exact h
  | allocateId k ih =>
    have hid : Keeps Working.touched takeId :=
      keeps_bind (keeps_gets _) fun _ => keeps_bind (keeps_modify fun _ => rfl) fun _ =>
        keeps_bind (keeps_assert _ _) fun _ => keeps_pure _
    rw [trace, interp, wp_bind]
    exact wp_imp (hid.wp w) (fun id w₁ hw₁ => ih id (hw₁.symm ▸ h)) fun _ _ _ => trivial
  | lookup key k ih =>
    rw [trace, interp, wp_bind, wp_gets, wp_bind]
    exact wp_imp ((keeps_onArena _).wp w) (fun r w₁ hw₁ => ih _ (hw₁.symm ▸ h))
      fun _ _ _ => trivial
  | chain kind head k ih =>
    rw [trace, interp, wp_bind, wp_gets, wp_bind]
    exact wp_imp ((keeps_onArena _).wp w) (fun l w₁ hw₁ => ih l (hw₁.symm ▸ h))
      fun _ _ _ => trivial
  | put key as retains k ih =>
    rw [trace, interp, wp_bind]
    exact wp_imp (wp_putRecord key as retains w) (fun _ w₁ hw₁ => ih (append _ h hw₁))
      fun _ _ hE => hE
  | erase key k ih =>
    rw [trace, interp, eraseRecord, wp_bind, wp_bind, wp_gets, wp_bind]
    refine wp_imp ((keeps_onArena _).wp w) (fun next w₁ hw₁ => ?_) fun _ _ _ => trivial
    refine wp_imp (wp_rebind next key w₁) (fun _ w₂ hw₂ => ih (append _ h ?_)) fun _ _ hE => hE
    rwa [hw₁] at hw₂
  | noteState e k ih =>
    rw [trace, interp, wp_bind, wp_modify]
    exact ih h

/-- What a run to the end has written: it is all that was touched, the map reads it back, and the
rest of the map is as it was. -/
structure Wrote (w w' : Working) (ws : List Write) : Prop where
  /-- Nothing else was touched. -/
  touched : w'.touched ⊆ w.touched ++ ws.map Prod.fst
  /-- The map has what was written. -/
  readsBack : w'.map.ReadsBack ws
  /-- The rest is as it was. -/
  same : ∀ k ∉ ws.map Prod.fst, w'.map k = w.map k

/-- What a script leaves holds of the run to its end. -/
theorem trace_spec {x : Script α} {a : α} {w w' : Working} {rest : Multiset (View × ℕ)}
    (hok : w.Ok rest) (h : (x.trace []).interp t stamp w = .ok (a, ws) w') :
    Wrote w w' ws ∧ ∀ R, x.Leaves R [] → R a ws := by
  have hleaves {R : α → List Write → Prop} (hR : x.Leaves R []) :
      R a ws ∧ w'.map.ReadsBack ws ∧ SameApart w.map w'.map ws := by
    refine (of_wp_ok ((x.trace []).interp_spec stamp
      (fun p m _ => R p.1 p.2 ∧ m.ReadsBack p.2 ∧ SameApart w.map m p.2) hok ?_) h).2
    exact hR.ensures_trace w.map.readsBack_nil fun k _ => rfl
  have htrue : x.Leaves (fun _ _ => True) [] := x.leaves_of_forall (fun _ _ => trivial) _
  have htouched : w'.touched ⊆ w.touched ++ ws.map Prod.fst := by
    have hnil : w.touched ⊆ w.touched ++ ([] : List Write).map Prod.fst :=
      List.subset_append_left _ _
    exact of_wp_ok (s := w) (wp_trace x hnil) h
  exact ⟨⟨htouched, (hleaves htrue).2.1, (hleaves htrue).2.2⟩, fun R hR => (hleaves hR).1⟩

end Script

end ArbitraryComposer
