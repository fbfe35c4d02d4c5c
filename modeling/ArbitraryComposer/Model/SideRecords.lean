import ArbitraryComposer.Model.MutatorEffects
import ArbitraryComposer.Model.Shadow

/-!
# No Orphan Side Records

In every version that is published the chunks are on the chains of live owners, each on exactly
one, and the chains are complete, as long as no owner is removed or replaced while it has a chain,
no chunk is removed by its id, and the history is kept exact: a removal leaves the chunks behind.

## Main definitions

- `DocMap.NoOrphans`: every chunk is on exactly one chain, and the chains are complete.
- `Mutator.SparesChains`: the mutators that leave no chain behind.

## Main results

- `no_orphan_chunks`: runs of such mutators publish no orphan.
- `orphan_chunk`: a removal does.
-/

namespace ArbitraryComposer

/-- Every chunk record is on exactly one chain of a live owner, and every chain is complete. -/
def DocMap.NoOrphans (m : DocMap) : Prop :=
  (∀ root : ChainRoot, ∃ l, m.Complete root.2.kind (m.head root) l) ∧
  ∀ k r, m k = some r → r.as.IsChunk →
    ∃! root : ChainRoot, ∃ l, m.Complete root.2.kind (m.head root) l ∧ k ∈ Chains.keys l

/-- An object is not a chunk and has no chain, if it has a record at all. -/
def DocMap.Unchained (m : DocMap) (id : ObjectId) : Prop :=
  ∀ as ∈ m.payloads id, ¬ as.IsChunk ∧
    as.head .layers = 0 ∧ as.head .identity = 0 ∧ as.head .inputs = 0

instance (m : DocMap) (id : ObjectId) : Decidable (m.Unchained id) := by
  unfold DocMap.Unchained
  infer_instance

/-- The mutators that leave no chain behind, and put no record where one is still to be handed
out. -/
def Mutator.SparesChains (mu : Mutator) (m : DocMap) (n : ObjectId) : Prop :=
  match mu with
  | addCompositionAs id _ _ =>
    (id.synthetic = true ∨ id.toNat < n.toNat) ∧ m.Unchained id
  | remove id => m.Unchained id
  | _ => True

instance (mu : Mutator) (m : DocMap) (n : ObjectId) : Decidable (mu.SparesChains m n) := by
  unfold Mutator.SparesChains
  rcases mu with ⟨⟩ <;> infer_instance

/-- Nothing is kept beside the maps. -/
def noShadow : Shadowing Unit := ⟨(), fun _ _ _ _ => ()⟩

section

variable {m m' : DocMap} {n : ObjectId} {id : ObjectId} {o : Option ObjectRecord}

/-- A map without orphans whose chains have the form the mutators give them. -/
def DocMap.Neat (m : DocMap) : Prop := (∃ chains, m.Tidy chains) ∧ m.Ordered

theorem DocMap.Neat.noOrphans (h : m.Neat) : m.NoOrphans := by
  obtain ⟨⟨chains, htidy⟩, -⟩ := h
  refine ⟨fun root => ⟨_, htidy.linked.complete root⟩, fun k r hr hc => ?_⟩
  exact htidy.existsUnique (payloads_of_eq hr) hc

theorem DocMap.neat_empty : DocMap.Neat fun _ => none := by
  refine ⟨⟨fun _ => [], ⟨⟨fun root => Complete.of_zero rfl, ?_⟩, ?_⟩⟩, fun id => Or.inl rfl⟩
  · rintro i j k ⟨⟩
  · rintro k as ⟨⟩

theorem DocMap.Unchained.not_isChunk (h : m.Unchained id) :
    ∀ as ∈ m.payloads id, ¬ as.IsChunk := fun as has => (h as has).1

theorem DocMap.Unchained.head_eq (h : m.Unchained id) (slot : ChainSlot) :
    m.head (id, slot) = 0 := by
  cases has : m.payloads id with
  | none => exact head_of_none _ (payloads_eq_none.mp has)
  | some as =>
    obtain ⟨-, hlayers, hidentity, hinputs⟩ := h as has
    rw [head_of_payloads (id, slot) has]
    cases slot with
    | layers => exact hlayers
    | identity => exact hidentity
    | inputs => exact hinputs

/-- An object without chains is replaced by another one. -/
theorem DocMap.Effect.of_unchained (h : m.Unchained id)
    (ho : ∀ r ∈ o, ¬ r.as.IsChunk ∧ ∀ slot, r.as.head slot = 0) :
    m.Effect (some id) (Function.update m id o) := by
  refine .put h.not_isChunk (fun r hr => (ho r hr).1) (fun slot => ?_) (Or.inl rfl)
  rw [h.head_eq]
  cases o with
  | none => exact head_of_none _ (Function.update_self ..)
  | some r =>
    rw [head_of_payloads (id, slot) payloads_update_self]
    exact (ho r rfl).2 slot

/-- A map stays neat when the order that may change is one. -/
theorem DocMap.Neat.effect {c : Option ObjectId} (hm : m.Neat) (h : m.Effect c m')
    (hc : ∀ id ∈ c, m'.membership id = none ∨ ∃ order, m'.Holds id order) : m'.Neat := by
  obtain ⟨⟨chains, htidy⟩, hordered⟩ := hm
  exact ⟨h.tidy htidy, h.ordered htidy.linked hordered hc⟩

/-- A mutator of a layer order keeps a map neat. -/
private theorem ensures_neat_of_holds {x : Script Unit} {stamp : ℕ} (hm : m.Neat) (hf : m.Filed n)
    (hnone : m.membership id = none →
      x.Ensures stamp (fun _ m' n' => m' = m ∧ n' = n) m n)
    (hholds : ∀ chains order, m.Linked chains → m.Holds id order → ∃ order', x.Ensures stamp
      (fun _ m' n' => m.Effect (some id) m' ∧ m'.Filed n' ∧ m'.Holds id order') m n) :
    x.Ensures stamp (fun _ m' n' => m'.Neat ∧ m'.Filed n') m n := by
  have ⟨⟨chains, htidy⟩, hordered⟩ := hm
  rcases hordered id with h | ⟨order, h⟩
  · refine (hnone h).mono fun _ m' n' h => ?_
    obtain ⟨rfl, rfl⟩ := h
    exact ⟨hm, hf⟩
  · obtain ⟨order', hx⟩ := hholds chains order htidy.linked h
    refine hx.mono fun _ m' n' h => ⟨hm.effect h.1 fun id' hid' => ?_, h.2.1⟩
    cases hid'
    exact Or.inr ⟨_, h.2.2⟩

/-- Every mutator that leaves no chain behind keeps a map neat. -/
theorem Mutator.ensures_neat {mu : Mutator} {stamp : ℕ} (hm : m.Neat) (hf : m.Filed n)
    (hc : mu.SparesChains m n) :
    mu.script.Ensures stamp (fun _ m' n' => m'.Neat ∧ m'.Filed n') m n := by
  have ⟨⟨chains, htidy⟩, _⟩ := hm
  have hl := htidy.linked
  have hquiet : mu.Quiet → mu.script.Ensures stamp (fun _ m' n' => m'.Neat ∧ m'.Filed n') m n :=
    fun hq => (Mutator.ensures_quiet (c := none) hq hl hf).mono fun _ m' n' h =>
      ⟨hm.effect h.1 (by simp), h.2⟩
  cases mu with
  | addComposition w h =>
    refine (ensures_addComposition hf).mono fun id m' n' h => ⟨hm.effect h.2.1 ?_, h.2.2.1⟩
    rintro id' ⟨⟩
    exact Or.inr ⟨_, h.2.2.2⟩
  | addCompositionAs id w h =>
    refine ensures_addCompositionAs.mpr ⟨hm.effect (.of_unchained hc.2 ?_) ?_, hf.put hc.1⟩
    · rintro r ⟨⟩
      exact ⟨by simp, head_composition w h⟩
    · rintro id' ⟨⟩
      exact Or.inr ⟨_, m.holds_nil id w h⟩
  | remove id =>
    refine ensures_void.mpr (ensures_removeObject.mpr ⟨hm.effect (.of_unchained hc ?_) ?_, hf.erase⟩)
    · rintro r ⟨⟩
    · rintro id' ⟨⟩
      exact Or.inl (DocMap.membership_of_none (Function.update_self ..))
  | attachLayer composition layer atIndex =>
    exact ensures_void.mpr (ensures_neat_of_holds hm hf
      (fun h => ensures_attachLayer_of_none h ⟨rfl, rfl⟩)
      fun chains order hl ho => ⟨_, ensures_attachLayer hl hf ho⟩)
  | detachLayer composition layer =>
    exact ensures_void.mpr (ensures_neat_of_holds hm hf
      (fun h => ensures_editMembership_of_none h ⟨rfl, rfl⟩)
      fun chains order hl ho => ⟨_, ensures_editMembership hl hf ho⟩)
  | reorderLayer composition fromIndex toIndex =>
    exact ensures_void.mpr (ensures_neat_of_holds hm hf
      (fun h => ensures_editMembership_of_none h ⟨rfl, rfl⟩)
      fun chains order hl ho => ⟨_, ensures_editMembership hl hf ho⟩)
  | _ => exact hquiet trivial

theorem noShadow_follows : noShadow.Follows (fun m _ => m.Neat) Mutator.SparesChains where
  empty := DocMap.neat_empty
  edit _ hm hf hc := Mutator.ensures_neat hm hf hc

end

/-- No orphan side records. In every run whose mutators leave no chain behind and which keeps its
history, in every version published every chunk is on the chain of exactly one live owner and
every chain is complete. -/
theorem no_orphan_chunks {p : (Model × Trail) × Shadows Unit}
    (h : noShadow.machine.Reachable (fun e p => Careful Mutator.SparesChains e p.1.1) p) :
    p.1.1.session.map.NoOrphans ∧ ∀ v ∈ p.2.published, v.1.NoOrphans := by
  obtain ⟨-, hbeside⟩ := noShadow_follows.fits h
  exact ⟨hbeside.current.1.noOrphans, fun v hv => (hbeside.published v hv).noOrphans⟩

/-- The text of a content is written, replaced by none, and written again by an undo. -/
def replacedTextRun : List ModelEvent :=
  [.transact, .mutate 0 0 (.addContent 0), .mutate 0 0 (.setContentIdentity 1 [97] []), .commit 0,
    .transact, .mutate 0 1 (.setContentIdentity 1 [] []), .commit 1, .undo 0]

theorem no_orphan_chunks_replacedTextRun : ∃ p, noShadow.machine.Reachable
    (fun e p => Careful Mutator.SparesChains e p.1.1) p ∧
      (p.2.published.length = 3 ∧ (p.1.1.session.map 2).isSome = true) ∧
      p.1.1.session.map.NoOrphans := by
  obtain ⟨p, hp, hlen⟩ := Machine.exists_reachable (M := noShadow.machine)
    (fun e p => Careful Mutator.SparesChains e p.1.1) replacedTextRun
    (fun p => decide (p.2.published.length = 3 ∧ (p.1.1.session.map 2).isSome = true))
    (s := ((emptyModel, []), ⟨(), [], [], []⟩)) ⟨⟨start_emptyModel, rfl⟩, rfl⟩
    (by decide +kernel) (by decide +kernel)
  exact ⟨p, hp, of_decide_eq_true hlen, (no_orphan_chunks hp).1⟩

/-- A content with a text is removed. -/
def removedOwnerRun : List ModelEvent :=
  [.transact, .mutate 0 0 (.addContent 0), .mutate 0 0 (.setContentIdentity 1 [97] []), .commit 0,
    .transact, .mutate 0 1 (.remove 1), .commit 1]

/-- A chunk in a map that has nothing else is an orphan. -/
private theorem DocMap.not_noOrphans {m : DocMap} {k : ObjectId} {r : ObjectRecord}
    (hr : m k = some r) (hc : r.as.IsChunk) (honly : ∀ k' r', m k' = some r' → k' = k) :
    ¬ m.NoOrphans := by
  rintro ⟨-, howned⟩
  obtain ⟨root, ⟨l, hl, hk⟩, -⟩ := howned k r hr hc
  have hhead : m.head root = 0 := by
    cases hroot : m root.1 with
    | none => exact head_of_none _ hroot
    | some r' =>
      obtain rfl : root.1 = k := honly _ _ hroot
      exact head_of_isChunk _ (payloads_of_eq hr) hc
  rw [hhead] at hl
  rw [hl.eq_nil] at hk
  cases hk

/-- The removal of an owner leaves its chunks behind, on no chain. -/
theorem orphan_chunk : ¬ ∀ p, noShadow.machine.Reachable Machine.anyEvent p →
    p.1.1.session.map.NoOrphans ∧ ∀ v ∈ p.2.published, v.1.NoOrphans := by
  intro hall
  obtain ⟨p, hp, hkeys⟩ := Machine.exists_reachable (M := noShadow.machine) Machine.anyEvent
    removedOwnerRun (fun p => decide (docKeys p.1.1.arena
      (p.1.1.versionAt p.1.1.current).root = [2] ∧
        ∃ r ∈ p.1.1.session.map 2, r.as.IsChunk)) (s := ((emptyModel, []), ⟨(), [], [], []⟩))
    ⟨⟨start_emptyModel, rfl⟩, rfl⟩ (Machine.runAllowed_anyEvent _ _) (by decide +kernel)
  obtain ⟨hkeys, r, hr, hc⟩ := of_decide_eq_true hkeys
  have hinv := Shadowing.reachable_inv hp
  refine DocMap.not_noOrphans hr hc (fun k r' hr' => ?_) (hall p hp).1
  have hmem := mem_docKeys (hinv.mapAt_isMap List.mem_cons_self) hr'
  rw [hkeys] at hmem
  exact List.mem_singleton.mp hmem

end ArbitraryComposer
