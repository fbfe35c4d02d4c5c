import ArbitraryComposer.Runtime.CodecRaster
import Mathlib.Data.List.GetD

/-!
# What Raster Saves and Loads Do

The contract of the raster codec over a session whose pool counts are exact and whose memo is
honest. A save that succeeds lists, for each tile, the name of the memo entry filed under its key,
or the hash of its bytes if there is none; the names of the second kind are in the sink afterwards.

## Main definitions

- `RasterSession.Inv`: exact counts and an honest memo.
- `RasterSession.nameOf`: the name a save lists for a tile.
- `RasterSession.Keeps`: what the writer thread leaves alone while a save runs.

## Main results

- `applyEdit_spec`, `yieldToWriter_spec`: writer edits keep the invariant and the pinned tiles.
- `serializeRaster_spec`: the names a successful save lists, and which of them it stores.
- `deserializeRaster_spec`: a load keeps the memo honest when its blobs read back unchanged.
-/

namespace ArbitraryComposer

open Exec

/-- The slots the versions of a content own. -/
def RasterContent.slots (content : RasterContent) : Multiset (ℕ × ℕ) :=
  (content.versions.map fun v => v.elim 0 TileTable.slots).sum

/-- The table at a place. -/
def RasterContent.version (content : RasterContent) (k : ℕ) : Option TileTable :=
  content.versions.getD k none

/-- Pool counts are exact for the pins of the memo and the versions of the contents, and the
memo is honest provided `R`, which says that the loads so far read back. -/
structure RasterSession.Inv (prims : BlobPrimitives) (R : Prop) (s : RasterSession) : Prop where
  /-- The counts of every pool are exact. -/
  owned : s.world.Owned fun c => (s.contents c).slots
  /-- Every memo entry names the bytes of the tile it pins. -/
  honest : R → s.world.Honest prims

/-- What the writer thread leaves alone: the memo, the sinks, and the version a save pins. -/
structure RasterSession.Keeps (s s' : RasterSession) : Prop where
  /-- The memo is the same. -/
  tiles_eq : s'.world.tiles = s.world.tiles
  /-- The sinks are the same. -/
  sinks_eq : s'.sinks = s.sinks
  /-- The same version is pinned. -/
  pinned_eq : s'.pinned = s.pinned
  /-- The pinned version is still there, over the same bytes. -/
  pinned_version : ∀ c k table, s.pinned = some (c, k) →
    (s.contents c).version k = some table → (s'.contents c).version k = some table ∧
      (s.world.pool c).AgreesOn (s'.world.pool c) table.slots

variable {prims : BlobPrimitives} {R : Prop} {resolveUri : String → String → String}
  {s s' s'' : RasterSession} {w w' : TileWorld} {tables : ℕ → Multiset (ℕ × ℕ)}

theorem RasterSession.Keeps.refl : s.Keeps s :=
  ⟨rfl, rfl, rfl, fun _ _ _ _ hv => ⟨hv, .refl⟩⟩

theorem RasterSession.Keeps.trans (h : s.Keeps s') (h' : s'.Keeps s'') : s.Keeps s'' where
  tiles_eq := h'.tiles_eq.trans h.tiles_eq
  sinks_eq := h'.sinks_eq.trans h.sinks_eq
  pinned_eq := h'.pinned_eq.trans h.pinned_eq
  pinned_version c k table hp hv := by
    obtain ⟨hv', ha⟩ := h.pinned_version c k table hp hv
    obtain ⟨hv'', ha'⟩ := h'.pinned_version c k table (h.pinned_eq.trans hp) hv'
    exact ⟨hv'', ha.trans ha' fun _ hs => hs⟩

/-- Dropping a version removes what it owned. -/
private theorem sum_set_none {versions : List (Option TileTable)} {k : ℕ} {table : TileTable}
    (h : versions.getD k none = some table) :
    (versions.map fun v => v.elim 0 TileTable.slots).sum =
      table.slots + ((versions.set k none).map fun v => v.elim 0 TileTable.slots).sum := by
  induction versions generalizing k with
  | nil => simp at h
  | cons v versions ih =>
    cases k with
    | zero =>
      simp only [List.getD_cons_zero] at h
      subst h
      simp
    | succ k =>
      simp only [List.getD_cons_succ] at h
      simp only [List.set_cons_succ, List.map_cons, List.sum_cons, ih h, add_left_comm]

/-- The versions of a content own what each of them owns. -/
theorem RasterContent.slots_subset {content : RasterContent} {k : ℕ} {table : TileTable}
    (h : content.version k = some table) : table.slots ⊆ content.slots := by
  unfold RasterContent.slots
  rw [sum_set_none h]
  exact Multiset.subset_of_le (Multiset.le_add_right _ _)

/-- Counts and honesty after the pool of `c` changed without touching an owned tile. -/
theorem RasterSession.Inv.setPool {c : ℕ} {p : BigBlockPool} {content : RasterContent}
    (h : s.Inv prims R)
    (hp : p.Owned (s.world.tiles.live.pinsAt c + s.world.tiles.pass.pinsAt c + content.slots))
    (ha : (s.world.pool c).AgreesOn p
      (s.world.tiles.live.pinsAt c + s.world.tiles.pass.pinsAt c)) :
    RasterSession.Inv prims R { s with
      world := s.world.setPool c p
      contents := Function.update s.contents c content } where
  owned c' := by
    rw [TileWorld.setPool_pool]
    split
    · rename_i heq
      subst heq
      simp only [Function.update_self]
      exact hp
    · rename_i hne
      simp only [Function.update_of_ne hne]
      exact h.owned c'
  honest hR entry he := by
    refine (h.honest hR entry he).congr ?_
    change ((s.world.setPool c p).pool _).data _ = _
    rw [TileWorld.setPool_pool]
    split
    · rename_i heq
      subst heq
      refine ha _ (Multiset.mem_add.mpr ?_)
      rcases List.mem_append.mp he with he | he
      · exact Or.inl (Memo.slot_mem_pinsAt he)
      · exact Or.inr (Memo.slot_mem_pinsAt he)
    · rfl

/-- A writer edit keeps the invariant and leaves a running save alone. -/
theorem applyEdit_spec (e : WriterEdit) (h : s.Inv prims R) :
    wp (applyEdit e) (fun _ s' => s'.Inv prims R ∧ s.Keeps s') (fun _ _ => False) poolFault s := by
  cases e with
  | paint c brush =>
    simp only [applyEdit, wp_bind, wp_gets]
    split
    · exact ⟨h, .refl⟩
    · rename_i base hbase
      have hsub := RasterContent.slots_subset hbase
      simp only [onWorld, onPool, setContent, wp_bind, wp_zoom]
      refine wp_imp (paintTable_spec (h.owned c)
        (fun s hs => Multiset.mem_add.mpr (Or.inr (hsub hs))))
        (fun table p hp => ?_) fun _ _ h => h
      obtain ⟨hown, hagree⟩ := hp
      refine ⟨h.setPool (by
          simpa [RasterContent.slots, add_assoc, add_comm, add_left_comm] using hown)
        (fun s hs => hagree s (Multiset.mem_add.mpr (Or.inl hs))), rfl, rfl, rfl, ?_⟩
      intro c' k table' _ hv
      by_cases hc : c' = c
      · subst hc
        have hk : k < (s.contents c').versions.length := by
          by_contra hlt
          rw [RasterContent.version, List.getD_eq_default _ _ (Nat.le_of_not_lt hlt)] at hv
          cases hv
        refine ⟨?_, fun slot hs => ?_⟩
        · simp only [Function.update_self, RasterContent.version]
          rw [List.getD_append _ _ _ _ hk]
          exact hv
        · change ((s.world.setPool c' p).pool c').data slot = _
          rw [TileWorld.setPool_pool, if_pos rfl]
          exact hagree slot
            (Multiset.mem_add.mpr (Or.inr (RasterContent.slots_subset hv hs)))
      · refine ⟨?_, fun slot _ => ?_⟩
        · simp only [Function.update_of_ne hc]
          exact hv
        · change ((s.world.setPool c p).pool c').data slot = _
          rw [TileWorld.setPool_pool, if_neg hc]
  | restore c k =>
    simp only [applyEdit, wp_bind, wp_gets]
    refine wp_ite (fun _ => ?_) fun _ => ⟨h, .refl⟩
    refine ⟨⟨fun c' => ?_, h.honest⟩, rfl, rfl, rfl, fun c' k' table _ hv => ⟨?_, .refl⟩⟩
    · by_cases hc : c' = c
      · subst hc
        simp only [Function.update_self]
        exact h.owned c'
      · simp only [Function.update_of_ne hc]
        exact h.owned c'
    · by_cases hc : c' = c
      · subst hc
        simp only [Function.update_self]
        exact hv
      · simp only [Function.update_of_ne hc]
        exact hv
  | dropVersion c k =>
    simp only [applyEdit, wp_bind, wp_gets]
    split
    · exact ⟨h, .refl⟩
    · rename_i table htable
      refine wp_ite (fun _ => ⟨h, .refl⟩) fun hkeep => ?_
      push Not at hkeep
      have hslots : (s.contents c).slots = table.slots +
          RasterContent.slots { s.contents c with versions := (s.contents c).versions.set k none } :=
        sum_set_none htable
      have hown := h.owned c
      simp only [hslots, add_left_comm _ table.slots] at hown
      simp only [onWorld, onPool, setContent, wp_bind, wp_zoom]
      refine wp_imp (dropTable_spec hown) (fun _ p hp => ?_) fun _ _ h => h
      refine ⟨h.setPool hp.1 (.of_data_eq hp.2), rfl, rfl, rfl, ?_⟩
      intro c' k' table' hpin hv
      by_cases hc : c' = c
      · subst hc
        have hkk : k ≠ k' := fun heq => hkeep.2 (heq ▸ hpin)
        refine ⟨?_, fun slot _ => ?_⟩
        · simp only [Function.update_self, RasterContent.version]
          rw [RasterContent.version] at hv
          rw [List.getD_eq_getElem?_getD, List.getElem?_set_ne hkk, ← List.getD_eq_getElem?_getD]
          exact hv
        · change ((s.world.setPool c' p).pool c').data slot = _
          rw [TileWorld.setPool_pool, if_pos rfl, hp.2]
      · refine ⟨?_, fun slot _ => ?_⟩
        · simp only [Function.update_of_ne hc]
          exact hv
        · change ((s.world.setPool c p).pool c').data slot = _
          rw [TileWorld.setPool_pool, if_neg hc]

/-- Whatever edits are scheduled, the invariant holds after them and the save is left alone. -/
theorem yieldToWriter_spec (h : s.Inv prims R) :
    wp yieldToWriter (fun _ s' => s'.Inv prims R ∧ s.Keeps s') (fun _ _ => False) poolFault s := by
  simp only [yieldToWriter, wp_bind, wp_gets, wp_modify]
  have hstart : RasterSession.Inv prims R { s with schedule := s.schedule.tail } ∧
      s.Keeps { s with schedule := s.schedule.tail } :=
    ⟨⟨h.owned, h.honest⟩, rfl, rfl, rfl, fun _ _ _ _ hv => ⟨hv, .refl⟩⟩
  refine wp_forEach (I := fun _ s' => s'.Inv prims R ∧ s.Keeps s') hstart fun e _ s' hs' => ?_
  exact wp_imp (applyEdit_spec e hs'.1) (fun _ s'' hs'' => ⟨hs''.1, hs'.2.trans hs''.2⟩)
    fun _ _ h => h

/-! ## The two phases of a save -/

/-- The name a save that starts in `s` lists for a tile: that of the memo entry filed under the
tile's key, if there is one, and otherwise the hash of the tile's bytes. -/
def RasterSession.nameOf (prims : BlobPrimitives) (s : RasterSession) (c : ℕ)
    (storage : PixelFormat) (ref : BlockSlotRef) : String :=
  match s.world.tiles.live.lookup (ref.memoKey storage) with
  | some entry => entry.hash
  | none => tileName prims (s.world.pool c) ref storage

/-- A tile no entry of the memo is filed under. -/
def RasterSession.Misses (s : RasterSession) (storage : PixelFormat) (ref : BlockSlotRef) : Prop :=
  s.world.tiles.live.lookup (ref.memoKey storage) = none

/-- A save of version `k` of content `c`, begun in `s₀`, is between two of its steps. -/
structure Saving (prims : BlobPrimitives) (R : Prop) (s₀ : RasterSession) (c k : ℕ) (table : TileTable)
    (storage : PixelFormat) (s : RasterSession) : Prop where
  /-- The session invariant. -/
  inv : s.Inv prims R
  /-- The version is pinned. -/
  pinned : s.pinned = some (c, k)
  /-- The version is alive. -/
  version : (s.contents c).version k = some table
  /-- Its tiles hold what they held when the save began. -/
  agrees : (s₀.world.pool c).AgreesOn (s.world.pool c) table.slots
  /-- The memo of the last pass is still there. -/
  live_eq : s.world.tiles.live = s₀.world.tiles.live
  /-- The pass is over the save's storage format. -/
  storage_eq : s.world.tiles.storage = storage
  /-- The pass is open. -/
  inPass : s.world.tiles.inPass = true

variable {s₀ : RasterSession} {c k : ℕ} {table : TileTable} {storage : PixelFormat}
  {ctx : SaveContext} {grid : List BlockSlotRef}

/-- The writer thread may run between two steps of a save. -/
theorem Saving.keeps (h : Saving prims R s₀ c k table storage s) (hi : s'.Inv prims R)
    (hk : s.Keeps s') : Saving prims R s₀ c k table storage s' := by
  obtain ⟨hv, ha⟩ := hk.pinned_version c k table h.pinned h.version
  exact ⟨hi, hk.pinned_eq.trans h.pinned, hv, h.agrees.trans ha fun _ h => h,
    by rw [hk.tiles_eq]; exact h.live_eq, by rw [hk.tiles_eq]; exact h.storage_eq,
    by rw [hk.tiles_eq]; exact h.inPass⟩

/-- A memo operation may run between two steps of a save. -/
theorem Saving.withWorld (h : Saving prims R s₀ c k table storage s)
    (hown : w'.Owned fun c => (s.contents c).slots) (hhon : R → w'.Honest prims)
    (hdata : s.world.SameData w') (hlive : w'.tiles.live = s.world.tiles.live)
    (hstorage : w'.tiles.storage = s.world.tiles.storage)
    (hin : w'.tiles.inPass = s.world.tiles.inPass) :
    Saving prims R s₀ c k table storage { s with world := w' } :=
  ⟨⟨hown, hhon⟩, h.pinned, h.version, h.agrees.trans (.of_data_eq (hdata c)) fun _ h => h,
    hlive.trans h.live_eq, hstorage.trans h.storage_eq, hin.trans h.inPass⟩

/-- A tile of the saved version has the name it had when the save began. -/
theorem Saving.tileName_eq (h : Saving prims R s₀ c k table storage s) {ref : BlockSlotRef}
    (hr : ref.slot ∈ table.slots) :
    tileName prims (s.world.pool c) ref storage = tileName prims (s₀.world.pool c) ref storage :=
  tileName_congr (h.agrees _ hr)

/-- What the classification of the first `i` tiles of a grid has established. -/
structure TilePlan.Classifies (live : Memo) (storage : PixelFormat) (grid : List BlockSlotRef)
    (i : ℕ) (plan : TilePlan) : Prop where
  /-- One name per tile. -/
  length_eq : plan.names.length = grid.length
  /-- A tile with an entry has the entry's name. -/
  hit : ∀ k ref entry, k < i → grid[k]? = some ref →
    live.lookup (ref.memoKey storage) = some entry → plan.names[k]? = some entry.hash
  /-- A tile without an entry has a job. -/
  miss : ∀ k ref, k < i → grid[k]? = some ref → live.lookup (ref.memoKey storage) = none →
    ∃ job ∈ plan.jobs, job.ref = ref ∧ k ∈ job.tiles
  /-- A job is for a tile of the grid without an entry, and fills places of that tile. -/
  job : ∀ job ∈ plan.jobs, job.ref ∈ grid ∧ live.lookup (job.ref.memoKey storage) = none ∧
    ∀ k ∈ job.tiles, k < i ∧ grid[k]? = some job.ref

private theorem mem_modify_iff {jobs : List EncodeJob} {j i : ℕ} {job : EncodeJob} :
    job ∈ jobs.modify j (EncodeJob.addTile i) ↔
      ∃ m old, jobs[m]? = some old ∧ job = if j = m then old.addTile i else old := by
  rw [List.mem_iff_getElem?]
  refine exists_congr fun m => ?_
  rw [List.getElem?_modify]
  cases hm : jobs[m]? with
  | none => simp
  | some old => by_cases hj : j = m <;> simp [hj, eq_comm]

/-- A tile that aliases a missed slot joins its job. -/
theorem TilePlan.Classifies.addTile {live : Memo} {i j : ℕ} {plan : TilePlan} {ref : BlockSlotRef}
    (h : plan.Classifies live storage grid i) (hi : grid[i]? = some ref)
    (hj : plan.jobs.findIdx? (fun job => job.ref = ref) = some j) :
    TilePlan.Classifies live storage grid (i + 1)
      { plan with jobs := plan.jobs.modify j (EncodeJob.addTile i) } := by
  obtain ⟨hlt, href, -⟩ := List.findIdx?_eq_some_iff_getElem.mp hj
  simp only [decide_eq_true_eq] at href
  have hget : plan.jobs[j]? = some plan.jobs[j] := List.getElem?_eq_getElem hlt
  obtain ⟨hgrid, hmiss, -⟩ := h.job _ (List.getElem_mem hlt)
  refine ⟨h.length_eq, fun k r entry hk hr he => ?_, fun k r hk hr he => ?_, fun job hjob => ?_⟩
  · have hki : k ≠ i := by
      rintro rfl
      rw [hi, Option.some.injEq] at hr
      rw [href, hr, he] at hmiss
      cases hmiss
    exact h.hit k r entry (by omega) hr he
  · by_cases hki : k = i
    · subst hki
      rw [hi, Option.some.injEq] at hr
      refine ⟨plan.jobs[j].addTile k, mem_modify_iff.mpr ⟨j, _, hget, by simp⟩, ?_, ?_⟩
      · rw [EncodeJob.addTile, href, hr]
      · simp [EncodeJob.addTile]
    · obtain ⟨job, hjob, hjr, hk'⟩ := h.miss k r (by omega) hr he
      obtain ⟨m, hm⟩ := List.mem_iff_getElem?.mp hjob
      refine ⟨_, mem_modify_iff.mpr ⟨m, job, hm, rfl⟩, ?_, ?_⟩
      · split <;> exact hjr
      · split
        · exact List.mem_append_left _ hk'
        · exact hk'
  · obtain ⟨m, old, hm, rfl⟩ := mem_modify_iff.mp hjob
    obtain ⟨hg, hn, ht⟩ := h.job old (List.mem_of_getElem? hm)
    split
    · rename_i hjm
      subst hjm
      rw [hget, Option.some.injEq] at hm
      subst hm
      refine ⟨hg, hn, fun k hk => ?_⟩
      rcases List.mem_append.mp hk with hk | hk
      · exact ⟨by have := (ht k hk).1; omega, (ht k hk).2⟩
      · rw [List.mem_singleton.mp hk]
        exact ⟨by omega, by rw [EncodeJob.addTile, href]; exact hi⟩
    · exact ⟨hg, hn, fun k hk => ⟨by have := (ht k hk).1; omega, (ht k hk).2⟩⟩

/-- A tile the memo answers for gets the entry's name. -/
theorem TilePlan.Classifies.setName {live : Memo} {i : ℕ} {plan : TilePlan} {ref : BlockSlotRef}
    {entry : MemoEntry} (h : plan.Classifies live storage grid i) (hi : grid[i]? = some ref)
    (he : live.lookup (ref.memoKey storage) = some entry) :
    TilePlan.Classifies live storage grid (i + 1)
      { plan with names := plan.names.set i entry.hash } := by
  have hlt : i < plan.names.length := by
    rw [h.length_eq]
    exact (List.getElem?_eq_some_iff.mp hi).1
  refine ⟨by simp [h.length_eq], fun k r e hk hr he' => ?_, fun k r hk hr he' => ?_,
    fun job hjob => ?_⟩
  · by_cases hki : k = i
    · subst hki
      rw [hi, Option.some.injEq] at hr
      subst hr
      rw [he, Option.some.injEq] at he'
      rw [List.getElem?_set_self hlt, he']
    · rw [List.getElem?_set_ne (Ne.symm hki)]
      exact h.hit k r e (by omega) hr he'
  · have hki : k ≠ i := by
      rintro rfl
      rw [hi, Option.some.injEq] at hr
      rw [hr, he'] at he
      cases he
    exact h.miss k r (by omega) hr he'
  · obtain ⟨hg, hn, ht⟩ := h.job job hjob
    exact ⟨hg, hn, fun k hk => ⟨by have := (ht k hk).1; omega, (ht k hk).2⟩⟩

/-- A tile the memo does not know, in a slot without a job, gets a job. -/
theorem TilePlan.Classifies.addJob {live : Memo} {i : ℕ} {plan : TilePlan} {ref : BlockSlotRef}
    (h : plan.Classifies live storage grid i) (hi : grid[i]? = some ref)
    (he : live.lookup (ref.memoKey storage) = none) :
    TilePlan.Classifies live storage grid (i + 1)
      { plan with jobs := plan.jobs ++ [⟨ref, [i]⟩] } := by
  refine ⟨h.length_eq, fun k r e hk hr he' => ?_, fun k r hk hr he' => ?_, fun job hjob => ?_⟩
  · have hki : k ≠ i := by
      rintro rfl
      rw [hi, Option.some.injEq] at hr
      rw [hr, he'] at he
      cases he
    exact h.hit k r e (by omega) hr he'
  · by_cases hki : k = i
    · subst hki
      rw [hi, Option.some.injEq] at hr
      exact ⟨⟨ref, [k]⟩, by simp, hr, by simp⟩
    · obtain ⟨job, hjob, hjr, hk'⟩ := h.miss k r (by omega) hr he'
      exact ⟨job, List.mem_append_left _ hjob, hjr, hk'⟩
  · rcases List.mem_append.mp hjob with hjob | hjob
    · obtain ⟨hg, hn, ht⟩ := h.job job hjob
      exact ⟨hg, hn, fun k hk => ⟨by have := (ht k hk).1; omega, (ht k hk).2⟩⟩
    · rw [List.mem_singleton.mp hjob]
      refine ⟨List.mem_of_getElem? hi, he, fun k hk => ?_⟩
      rw [List.mem_singleton.mp hk]
      exact ⟨by omega, hi⟩

/-- During classification every entry of the pass was carried from the memo. -/
def RasterSession.Carried (s : RasterSession) : Prop :=
  ∀ key entry, s.world.tiles.pass.lookup key = some entry →
    s.world.tiles.live.lookup key = some entry

theorem RasterSession.Keeps.carried (h : s.Keeps s') (hc : s.Carried) : s'.Carried := by
  unfold RasterSession.Carried
  rw [h.tiles_eq]
  exact hc

/-- Phase 1 classifies the whole grid. -/
theorem classify_spec {refs : List BlockSlotRef} {i : ℕ} {plan : TilePlan}
    (hs : Saving prims R s₀ c k table storage s) (hc : s.Carried) (hrefs : grid.drop i = refs)
    (hplan : plan.Classifies s₀.world.tiles.live storage grid i) :
    wp (classify refs i plan) (fun plan s' => Saving prims R s₀ c k table storage s' ∧
        s'.sinks = s.sinks ∧ plan.Classifies s₀.world.tiles.live storage grid grid.length)
      (fun _ _ => False) poolFault s := by
  -- the tiles still to visit are the grid from place `i` on
  induction refs generalizing s i plan with
  | nil =>
    refine ⟨hs, rfl, hplan.length_eq, fun k' r e hk => hplan.hit k' r e ?_,
      fun k' r hk => hplan.miss k' r ?_, fun job hjob => ?_⟩
    · have := List.drop_eq_nil_iff.mp hrefs
      omega
    · have := List.drop_eq_nil_iff.mp hrefs
      omega
    · obtain ⟨hg, hn, ht⟩ := hplan.job job hjob
      exact ⟨hg, hn, fun k' hk => ⟨(List.getElem?_eq_some_iff.mp (ht k' hk).2).1, (ht k' hk).2⟩⟩
  | cons ref refs ih =>
    have hi : grid[i]? = some ref := by
      have := congrArg List.head? hrefs
      rwa [List.head?_drop, List.head?_cons] at this
    have hrest : grid.drop (i + 1) = refs := by
      rw [← List.tail_drop, hrefs, List.tail_cons]
    simp only [classify, wp_bind]
    refine wp_imp (yieldToWriter_spec hs.inv) (fun _ s₁ h₁ => ?_) fun _ _ h => h
    have hs₁ := hs.keeps h₁.1 h₁.2
    have hc₁ := h₁.2.carried hc
    split
    · rename_i j hj
      exact wp_imp (ih hs₁ hc₁ hrest (hplan.addTile hi hj))
        (fun _ s₂ h₂ => ⟨h₂.1, h₂.2.1.trans h₁.2.sinks_eq, h₂.2.2⟩) fun _ _ h => h
    · simp only [onWorld, wp_bind, wp_zoom]
      refine wp_imp (probe_spec hs₁.inv.owned hc₁) (fun r w h => ?_) fun _ _ h => h.elim
      obtain ⟨hr, hown, hdata, pass, htiles, hcarried, hmem⟩ := h
      have hs₂ : Saving prims R s₀ c k table storage { s₁ with world := w } := by
        refine hs₁.withWorld hown (fun hR e he => ?_) hdata (by rw [htiles]) (by rw [htiles])
          (by rw [htiles])
        rw [htiles] at he
        have he' : e ∈ s₁.world.tiles.live ++ s₁.world.tiles.pass := by
          rcases List.mem_append.mp he with he | he
          · exact List.mem_append_left _ he
          · exact hmem e he
        exact (hs₁.inv.honest hR e he').congr (congrFun (hdata _) _)
      have hc₂ : RasterSession.Carried { s₁ with world := w } := by
        unfold RasterSession.Carried
        rw [htiles]
        exact hcarried
      rw [hs₁.storage_eq, hs₁.live_eq] at hr
      cases hl : s₀.world.tiles.live.lookup (ref.memoKey storage) with
      | some entry =>
        rw [hl] at hr
        subst hr
        exact wp_imp (ih hs₂ hc₂ hrest (hplan.setName hi hl))
          (fun _ s₃ h₃ => ⟨h₃.1, h₃.2.1.trans h₁.2.sinks_eq, h₃.2.2⟩) fun _ _ h => h
      | none =>
        rw [hl] at hr
        subst hr
        exact wp_imp (ih hs₂ hc₂ hrest (hplan.addJob hi hl))
          (fun _ s₃ h₃ => ⟨h₃.1, h₃.2.1.trans h₁.2.sinks_eq, h₃.2.2⟩) fun _ _ h => h

theorem fillNames_length (names : List String) (hash : String) (tiles : List ℕ) :
    (fillNames names hash tiles).length = names.length := by
  unfold fillNames
  induction tiles generalizing names with
  | nil => rfl
  | cons i tiles ih => rw [List.foldl_cons, ih, List.length_set]

theorem fillNames_getElem? (names : List String) (hash : String) (tiles : List ℕ) (k : ℕ)
    (hk : k < names.length) :
    (fillNames names hash tiles)[k]? = if k ∈ tiles then some hash else names[k]? := by
  unfold fillNames
  induction tiles generalizing names with
  | nil => rfl
  | cons i tiles ih =>
    rw [List.foldl_cons, ih _ (by rwa [List.length_set])]
    by_cases hki : k = i
    · subst hki
      rw [List.getElem?_set_self hk]
      simp
    · rw [List.getElem?_set_ne (Ne.symm hki)]
      simp [hki]

/-- What phase 2 has established when `jobs` are still to run: every other place holds its
name, and every other missed tile's blob is in the sink. -/
structure JobsRun (prims : BlobPrimitives) (resolveUri : String → String → String)
    (s₀ : RasterSession) (c : ℕ) (ctx : SaveContext) (grid : List BlockSlotRef)
    (jobs : List EncodeJob) (names seen : List String) (sinks : ℕ → AssetSink) : Prop where
  /-- One name per tile. -/
  length_eq : names.length = grid.length
  /-- A place no job will fill holds its name. -/
  filled : ∀ k ref, grid[k]? = some ref →
    names[k]? = some (s₀.nameOf prims c ctx.storageFormat ref) ∨ ∃ job ∈ jobs, k ∈ job.tiles
  /-- A job is for a missed tile of the grid, and fills places of that tile. -/
  job : ∀ job ∈ jobs, job.ref ∈ grid ∧ s₀.Misses ctx.storageFormat job.ref ∧
    ∀ k ∈ job.tiles, grid[k]? = some job.ref
  /-- A missed tile without a job left has its blob in the sink of a save. -/
  stored : ∀ ref ∈ grid, s₀.Misses ctx.storageFormat ref →
    (∃ job ∈ jobs, job.ref = ref) ∨ (ctx.paramsOnly = false →
      ctx.Holds resolveUri sinks
        (tileBlobUri defaultTilesBase (s₀.nameOf prims c ctx.storageFormat ref)))
  /-- A name dealt with before is in the sink of a save. -/
  seen_held : ∀ hash ∈ seen, ctx.paramsOnly = false →
    ctx.Holds resolveUri sinks (tileBlobUri defaultTilesBase hash)

/-- The name of a missed tile is the hash of its bytes. -/
theorem RasterSession.Misses.nameOf_eq {ref : BlockSlotRef} (h : s.Misses storage ref) :
    s.nameOf prims c storage ref = tileName prims (s.world.pool c) ref storage := by
  unfold RasterSession.nameOf
  rw [show s.world.tiles.live.lookup (ref.memoKey storage) = none from h]

/-- One job done: its places are filled, and its blob is in the sink. -/
theorem JobsRun.next {job : EncodeJob} {jobs : List EncodeJob} {names seen seen' : List String}
    {sinks sinks' : ℕ → AssetSink}
    (h : JobsRun prims resolveUri s₀ c ctx grid (job :: jobs) names seen sinks)
    (hgrow : SinksGrow sinks sinks')
    (hheld : ctx.paramsOnly = false → ctx.Holds resolveUri sinks'
      (tileBlobUri defaultTilesBase (s₀.nameOf prims c ctx.storageFormat job.ref)))
    (hseen : ∀ hash ∈ seen', hash ∈ seen ∨
      hash = s₀.nameOf prims c ctx.storageFormat job.ref) :
    JobsRun prims resolveUri s₀ c ctx grid jobs
      (fillNames names (s₀.nameOf prims c ctx.storageFormat job.ref) job.tiles) seen' sinks' := by
  refine ⟨by rw [fillNames_length, h.length_eq], fun k ref hk => ?_,
    fun j hj => h.job j (List.mem_cons_of_mem _ hj), fun ref hr hm => ?_, fun hash hh hp => ?_⟩
  · have hlt : k < names.length := by
      rw [h.length_eq]
      exact (List.getElem?_eq_some_iff.mp hk).1
    rw [fillNames_getElem? _ _ _ _ hlt]
    by_cases hkt : k ∈ job.tiles
    · have hjr := ((h.job job List.mem_cons_self).2.2 k hkt)
      rw [hk, Option.some.injEq] at hjr
      exact Or.inl (by rw [if_pos hkt, hjr])
    · rw [if_neg hkt]
      rcases h.filled k ref hk with hf | ⟨j, hj, hkj⟩
      · exact Or.inl hf
      · rcases List.mem_cons.mp hj with rfl | hj
        · exact absurd hkj hkt
        · exact Or.inr ⟨j, hj, hkj⟩
  · rcases h.stored ref hr hm with ⟨j, hj, rfl⟩ | hs
    · rcases List.mem_cons.mp hj with rfl | hj
      · exact Or.inr hheld
      · exact Or.inl ⟨j, hj, rfl⟩
    · exact Or.inr fun hp => (hs hp).mono hgrow
  · rcases hseen hash hh with hh | rfl
    · exact (h.seen_held hash hh hp).mono hgrow
    · exact hheld hp

/-- Phase 2 runs every job, or the save fails with the invariant intact. -/
theorem runJobs_spec {jobs : List EncodeJob} {names seen : List String}
    (hs : Saving prims R s₀ c k table ctx.storageFormat s)
    (hgrid : ∀ ref ∈ grid, ref.slot ∈ table.slots)
    (hj : JobsRun prims resolveUri s₀ c ctx grid jobs names seen s.sinks) :
    wp (runJobs prims resolveUri c ctx jobs names seen)
      (fun names s' => Saving prims R s₀ c k table ctx.storageFormat s' ∧
        SinksGrow s.sinks s'.sinks ∧
        ∃ seen, JobsRun prims resolveUri s₀ c ctx grid [] names seen s'.sinks)
      (fun _ s' => Saving prims R s₀ c k table ctx.storageFormat s' ∧ SinksGrow s.sinks s'.sinks)
      poolFault s := by
  induction jobs generalizing s names seen with
  | nil => exact ⟨hs, .refl, seen, hj⟩
  | cons job jobs ih =>
    obtain ⟨hjgrid, hjmiss, -⟩ := hj.job job List.mem_cons_self
    simp only [runJobs, wp_bind]
    refine wp_imp (yieldToWriter_spec hs.inv) (fun _ s₁ h₁ => ?_) fun _ _ h => h.elim
    have hs₁ := hs.keeps h₁.1 h₁.2
    -- the job's tile still holds what it held when the save began
    have hname : prims.hashTile (toStorageBytes ((s₁.world.pool c).peek job.ref)
        ctx.storageFormat) = s₀.nameOf prims c ctx.storageFormat job.ref := by
      rw [hjmiss.nameOf_eq]
      exact hs₁.tileName_eq (hgrid _ hjgrid)
    simp only [wp_gets, hname]
    rw [← h₁.2.sinks_eq] at hj ⊢
    split
    · exact ⟨hs₁, .refl⟩
    · simp only [onWorld, wp_bind, wp_zoom]
      have hslot : job.ref.slot ∈ (s₁.contents c).slots :=
        RasterContent.slots_subset hs₁.version (hgrid _ hjgrid)
      refine wp_imp (record_spec hs₁.inv.owned hslot) (fun _ w hw => ?_) fun _ _ h => h.elim
      obtain ⟨hown, hdata, hashed, pass, htiles, hmem⟩ := hw
      have hs₂ : Saving prims R s₀ c k table ctx.storageFormat { s₁ with world := w } := by
        refine hs₁.withWorld hown (fun hR e he => ?_) hdata (by rw [htiles]) (by rw [htiles])
          (by rw [htiles])
        rw [htiles] at he
        rcases List.mem_append.mp he with he | he
        · exact (hs₁.inv.honest hR e (List.mem_append_left _ he)).congr (congrFun (hdata _) _)
        · rcases hmem e he with he | rfl
          · exact (hs₁.inv.honest hR e (List.mem_append_right _ he)).congr (congrFun (hdata _) _)
          · refine ⟨rfl, ?_⟩
            change s₀.nameOf prims c ctx.storageFormat job.ref = _
            rw [hs₁.storage_eq, ← hname]
            exact (tileName_congr (congrFun (hdata c) _)).symm
      refine wp_ite (fun hin => ?_) fun hin => ?_
      · exact ih hs₂ (hj.next .refl (fun hp => hj.seen_held _ hin hp) fun _ h => Or.inl h)
      · have hcons : ∀ hash ∈ s₀.nameOf prims c ctx.storageFormat job.ref :: seen, hash ∈ seen ∨
            hash = s₀.nameOf prims c ctx.storageFormat job.ref :=
          fun hash hh => (List.mem_cons.mp hh).symm
        simp only [onSinks, wp_bind, wp_zoom]
        refine wp_imp hasAsset_spec (fun b sinks hb => ?_) fun _ _ h => h
        obtain ⟨rfl, hb⟩ := hb
        refine wp_ite (fun hbt => ?_) fun _ => ?_
        · exact ih hs₂ (hj.next .refl (hb hbt) hcons)
        · simp only [wp_bind, wp_zoom]
          refine wp_imp storeAsset_spec (fun _ sinks hstore => ?_) fun _ sinks hgrow => ?_
          · have hs₃ : Saving prims R s₀ c k table ctx.storageFormat
                { s₁ with world := w, sinks := sinks } :=
              ⟨⟨hs₂.inv.owned, hs₂.inv.honest⟩, hs₂.pinned, hs₂.version, hs₂.agrees,
                hs₂.live_eq, hs₂.storage_eq, hs₂.inPass⟩
            refine wp_imp (ih hs₃ (hj.next hstore.1 hstore.2 hcons)) (fun _ s' h' => ?_)
              fun _ s' h' => ?_
            · exact ⟨h'.1, hstore.1.trans h'.2.1, h'.2.2⟩
            · exact ⟨h'.1, hstore.1.trans h'.2⟩
          · exact ⟨⟨⟨hs₂.inv.owned, hs₂.inv.honest⟩, hs₂.pinned, hs₂.version, hs₂.agrees,
              hs₂.live_eq, hs₂.storage_eq, hs₂.inPass⟩, hgrow⟩

/-- A save over a pinned version: it closes its pass, or fails and leaves it open. -/
theorem saveTable_spec {rest : List (List BlockSlotRef)} (h : s.Inv prims R)
    (hpin : s.pinned = some (c, k)) (hv : (s.contents c).version k = some table)
    (hlevels : table.levels = grid :: rest) :
    wp (saveTable prims resolveUri c ctx table grid)
      (fun params s' => s'.Inv prims R ∧ SinksGrow s.sinks s'.sinks ∧
        params.blobs = grid.map (s.nameOf prims c ctx.storageFormat) ∧
        ∀ ref ∈ grid, s.Misses ctx.storageFormat ref → ctx.paramsOnly = false →
          ctx.Holds resolveUri s'.sinks
            (tileBlobUri defaultTilesBase (s.nameOf prims c ctx.storageFormat ref)))
      (fun _ s' => s'.Inv prims R ∧ SinksGrow s.sinks s'.sinks) poolFault s := by
  have hgrid : ∀ ref ∈ grid, ref.slot ∈ table.slots := by
    intro ref hr
    refine Multiset.mem_coe.mpr (List.mem_map_of_mem ?_)
    rw [hlevels, List.flatten_cons]
    exact List.mem_append_left _ hr
  simp only [saveTable, onWorld, wp_bind, wp_zoom]
  refine wp_imp (beginPass_spec h.owned) (fun _ w hw => ?_) fun _ _ h => h.elim
  obtain ⟨hown, hdata, htiles⟩ := hw
  have hs₁ : Saving prims R s c k table ctx.storageFormat { s with world := w } := by
    refine ⟨⟨hown, fun hR e he => ?_⟩, hpin, hv, .of_data_eq (hdata c), by rw [htiles],
      by rw [htiles], by rw [htiles]⟩
    rw [htiles, List.append_nil] at he
    exact (h.honest hR e (List.mem_append_left _ he)).congr (congrFun (hdata _) _)
  have hc₁ : RasterSession.Carried { s with world := w } := by
    intro key entry he
    rw [htiles] at he
    cases he
  have hplan : TilePlan.Classifies s.world.tiles.live ctx.storageFormat grid 0
      ⟨List.replicate grid.length "", []⟩ :=
    ⟨by simp, fun _ _ _ hk => by omega, fun _ _ hk => by omega, fun _ hj => by cases hj⟩
  refine wp_imp (classify_spec hs₁ hc₁ List.drop_zero hplan) (fun plan s₂ h₂ => ?_)
    fun _ _ h => h.elim
  obtain ⟨hs₂, hsinks, hplan⟩ := h₂
  have hjobs : JobsRun prims resolveUri s c ctx grid plan.jobs plan.names [] s₂.sinks := by
    refine ⟨hplan.length_eq, fun k' ref hk => ?_, fun job hj => ?_, fun ref hr hm => ?_,
      fun _ hh => by cases hh⟩
    · have hlt := (List.getElem?_eq_some_iff.mp hk).1
      cases hl : s.world.tiles.live.lookup (ref.memoKey ctx.storageFormat) with
      | some entry =>
        refine Or.inl ?_
        rw [hplan.hit k' ref entry hlt hk hl, RasterSession.nameOf, hl]
      | none =>
        obtain ⟨job, hj, -, hk'⟩ := hplan.miss k' ref hlt hk hl
        exact Or.inr ⟨job, hj, hk'⟩
    · obtain ⟨hg, hn, ht⟩ := hplan.job job hj
      exact ⟨hg, hn, fun k' hk => (ht k' hk).2⟩
    · obtain ⟨k', hk⟩ := List.mem_iff_getElem?.mp hr
      obtain ⟨job, hj, hjr, -⟩ := hplan.miss k' ref (List.getElem?_eq_some_iff.mp hk).1 hk hm
      exact Or.inl ⟨job, hj, hjr⟩
  refine wp_imp (runJobs_spec hs₂ hgrid hjobs) (fun names s₃ h₃ => ?_)
    fun _ s₃ h₃ => ⟨h₃.1.inv, by rw [hsinks] at h₃; exact h₃.2⟩
  obtain ⟨hs₃, hgrow, seen, hrun⟩ := h₃
  refine wp_imp (endPass_spec hs₃.inv.owned hs₃.inPass) (fun _ w' hw' => ?_) fun _ _ h => h.elim
  obtain ⟨hown', hdata', htiles'⟩ := hw'
  refine ⟨⟨hown', fun hR e he => ?_⟩, by rw [hsinks] at hgrow; exact hgrow, ?_, fun ref hr hm hp => ?_⟩
  · rw [htiles', List.append_nil] at he
    exact (hs₃.inv.honest hR e (List.mem_append_right _ he)).congr (congrFun (hdata' _) _)
  · refine List.ext_getElem? fun k' => ?_
    rw [List.getElem?_map]
    cases hk : grid[k']? with
    | none =>
      rw [List.getElem?_eq_none_iff] at hk
      exact List.getElem?_eq_none (by rw [hrun.length_eq]; exact hk)
    | some ref =>
      rcases hrun.filled k' ref hk with hf | ⟨job, hj, -⟩
      · exact hf
      · cases hj
  · rcases hrun.stored ref hr hm with ⟨job, hj, -⟩ | hs
    · cases hj
    · exact hs hp

/-- The names a successful save lists, and which of them it stores. -/
theorem serializeRaster_spec (h : s.Inv prims R) :
    wp (serializeRaster prims resolveUri c ctx)
      (fun params s' => s'.Inv prims R ∧ SinksGrow s.sinks s'.sinks ∧
        ∃ table grid rest, (s.contents c).baseTable = some table ∧ table.levels = grid :: rest ∧
          params.blobs = grid.map (s.nameOf prims c ctx.storageFormat) ∧
          ∀ ref ∈ grid, s.Misses ctx.storageFormat ref → ctx.paramsOnly = false →
            ctx.Holds resolveUri s'.sinks
              (tileBlobUri defaultTilesBase (s.nameOf prims c ctx.storageFormat ref)))
      (fun _ s' => s'.Inv prims R ∧ SinksGrow s.sinks s'.sinks) poolFault s := by
  unfold serializeRaster
  refine wp_ite (fun _ => ⟨h, .refl⟩) fun _ => ?_
  simp only [wp_bind, wp_gets]
  split
  · exact ⟨h, .refl⟩
  · rename_i table htable
    split
    · exact ⟨h, .refl⟩
    · rename_i grid rest hlevels
      simp only [wp_bind, wp_modify, wp_ensuring]
      have h' : RasterSession.Inv prims R { s with pinned := some (c, (s.contents c).base) } :=
        ⟨h.owned, h.honest⟩
      refine wp_imp (saveTable_spec h' rfl htable hlevels) (fun params s' hs' => ?_)
        fun _ s' hs' => ⟨⟨hs'.1.owned, hs'.1.honest⟩, hs'.2⟩
      exact ⟨⟨hs'.1.owned, hs'.1.honest⟩, hs'.2.1, table, grid, rest, htable, hlevels,
        hs'.2.2.1, hs'.2.2.2⟩

/-! ## Loads -/

/-- Seeding names that are the tiles' own keeps the memo honest. -/
theorem seedTiles_spec {tiles : List (BlockSlotRef × String)} (hown : w.Owned tables)
    (hhon : R → w.Honest prims) (hslot : ∀ tile ∈ tiles, tile.1.slot ∈ tables c)
    (hname : R → ∀ tile ∈ tiles, tile.2 = tileName prims (w.pool c) tile.1 storage) :
    wp (seedTiles c storage tiles) (fun _ w' => w'.Owned tables ∧ (R → w'.Honest prims))
      (fun _ _ => False) poolFault w := by
  induction tiles generalizing w with
  | nil => exact ⟨hown, hhon⟩
  | cons tile tiles ih =>
    simp only [seedTiles, forEach, wp_bind]
    refine wp_imp (seed_spec hown (hslot tile List.mem_cons_self)) (fun _ w' hw' => ?_)
      fun _ _ h => h
    obtain ⟨hown', hdata, live, htiles, hmem⟩ := hw'
    refine ih hown' (fun hR e he => ?_) (fun tile ht => hslot tile (List.mem_cons_of_mem _ ht))
      fun hR tile' ht => ?_
    · rw [htiles] at he
      rcases List.mem_append.mp he with he | he
      · rcases hmem e he with he | rfl
        · exact (hhon hR e (List.mem_append_left _ he)).congr (congrFun (hdata _) _)
        · refine ⟨rfl, (hname hR tile List.mem_cons_self).trans ?_⟩
          exact (tileName_congr (congrFun (hdata c) _)).symm
      · exact (hhon hR e (List.mem_append_right _ he)).congr (congrFun (hdata _) _)
    · rw [hname hR tile' (List.mem_cons_of_mem _ ht)]
      exact (tileName_congr (congrFun (hdata c) _)).symm

/-- Every blob of an input reads back as it was stored. -/
def RasterInput.ReadsBack (prims : BlobPrimitives) (storage : PixelFormat)
    (input : RasterInput) : Prop :=
  ∀ geom ∈ validateTileGeometry input.edge input.width input.height, ∀ blob ∈ input.blobs,
    ∀ raw ∈ prims.decompress blob.2 (geom.tileSamples * bytesPerSample storage),
      ArbitraryComposer.ReadsBack (unshuffleBytes raw (bytesPerSample storage)) storage
        geom.tileSamples

instance (storage : PixelFormat) (input : RasterInput) :
    Decidable (input.ReadsBack prims storage) :=
  inferInstanceAs (Decidable (∀ geom ∈ _, ∀ blob ∈ _, ∀ raw ∈ _, ArbitraryComposer.ReadsBack _ _ _))

/-- The decoded tiles of blobs that read back have the names listed for them. -/
private theorem decodeBlobs_names {samples : ℕ} {blobs : List (String × List UInt8)}
    {tiles : List (List UInt32)} (h : decodeBlobs prims storage samples blobs = some tiles)
    (hrb : ∀ blob ∈ blobs,
      ∀ raw ∈ prims.decompress blob.2 (samples * bytesPerSample storage),
        ReadsBack (unshuffleBytes raw (bytesPerSample storage)) storage samples) :
    List.Forall₂ (fun blob (pixels : List UInt32) =>
      blob.1 = prims.hashTile (toStorageBytes (pixels.take samples) storage)) blobs tiles := by
  induction blobs generalizing tiles with
  | nil =>
    cases h
    exact .nil
  | cons blob blobs ih =>
    obtain ⟨hash, frame⟩ := blob
    unfold decodeBlobs at h
    split at h
    · cases h
    · split at h
      · cases h
      · rename_i pixels hdec
        obtain ⟨tiles', hrest, rfl⟩ := Option.map_eq_some_iff.mp h
        obtain ⟨raw, hraw, hhash, rfl⟩ := decodeTileBlob_ok hdec
        refine .cons ?_ (ih hrest fun b hb => hrb b (List.mem_cons_of_mem _ hb))
        rw [hrb _ List.mem_cons_self raw hraw]
        exact hhash.symm

/-- The tiles of a grid that holds the decoded samples have the names listed for them. -/
private theorem grid_names {geom : TileGeometry} {p : BigBlockPool}
    {blobs : List (String × List UInt8)} {tiles : List (List UInt32)} {grid : List BlockSlotRef}
    (hgrid : List.Forall₂ (fun samples ref =>
      ref.size = blobBytes geom.edge ∧ p.data ref.slot = samples) tiles grid)
    (hnames : List.Forall₂ (fun blob (pixels : List UInt32) =>
      blob.1 = prims.hashTile (toStorageBytes (pixels.take geom.tileSamples) storage))
      blobs tiles) :
    ∀ tile ∈ grid.zip (blobs.map Prod.fst), tile.2 = tileName prims p tile.1 storage := by
  induction hgrid generalizing blobs with
  | nil => simp
  | @cons samples ref tiles grid hread _ ih =>
    obtain ⟨blob, blobs, hname, hrest, rfl⟩ := List.forall₂_cons_right_iff.mp hnames
    intro tile ht
    simp only [List.map_cons, List.zip_cons_cons, List.mem_cons] at ht
    rcases ht with rfl | ht
    · have hsize : ref.size / 4 = geom.tileSamples := by
        rw [hread.1, blobBytes, TileGeometry.tileSamples, tileChannels]
        omega
      rw [tileName, BigBlockPool.peek, hread.2, hsize]
      exact hname
    · exact ih hrest tile ht

/-- A load keeps the invariant, and blobs that read back keep the memo honest; a refused load
changes nothing. -/
theorem deserializeRaster_spec {input : RasterInput} (h : s.Inv prims R)
    (hfresh : (s.contents c).versions = []) (hrb : R → input.ReadsBack prims storage) :
    wp (deserializeRaster prims c storage input)
      (fun _ s' => s'.Inv prims R ∧ s'.sinks = s.sinks ∧ s'.pinned = s.pinned)
      (fun _ s' => s' = s) poolFault s := by
  unfold deserializeRaster
  split
  · rfl
  · rename_i geom hgeom
    refine wp_ite (fun _ => rfl) fun _ => ?_
    split
    · rfl
    · rename_i tiles htiles
      have hslots : (s.contents c).slots = 0 := by rw [RasterContent.slots, hfresh]; rfl
      have hown := h.owned c
      simp only [hslots, add_zero] at hown
      simp only [onWorld, onPool, setContent, wp_bind, wp_zoom]
      refine wp_imp (buildTable_spec hown) (fun table p hp => ?_) fun _ _ h => h.elim
      obtain ⟨hown', hagree, hdata⟩ := hp
      have hinv : RasterSession.Inv prims R { s with
          world := s.world.setPool c p
          contents := Function.update s.contents c ⟨[some table], 0⟩ } := by
        refine h.setPool ?_ hagree
        simpa [RasterContent.slots, add_comm] using hown'
      obtain ⟨grid, upper, hgrid, -, hlevels⟩ := List.forall₂_cons_left_iff.mp hdata
      have hhead : table.levels.headD [] = grid := by rw [hlevels]; rfl
      rw [wp_modify, hhead]
      refine wp_imp (seedTiles_spec hinv.owned hinv.honest (c := c) (fun tile ht => ?_)
        fun hR tile ht => ?_) (fun _ w' hw' => ⟨⟨hw'.1, hw'.2⟩, rfl, rfl⟩) fun _ _ h => h.elim
      · have hmem : tile.1.slot ∈ table.slots := by
          refine Multiset.mem_coe.mpr (List.mem_map_of_mem ?_)
          rw [hlevels, List.flatten_cons]
          exact List.mem_append_left _ (List.of_mem_zip ht).1
        simpa [RasterContent.slots] using hmem
      · -- the level-0 grid holds the decoded tiles, whose names are the listed ones
        rw [grid_names hgrid (decodeBlobs_names htiles (hrb hR geom hgeom)) tile ht]
        change _ = tileName prims ((s.world.setPool c p).pool c) tile.1 storage
        rw [TileWorld.setPool_pool, if_pos rfl]

end ArbitraryComposer
