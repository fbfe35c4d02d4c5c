import ArbitraryComposer.KindRaster.RasterStore
import ArbitraryComposer.Serialize.TileBlob

/-!
# Raster Tile-Hash Memo

The memo a save consults before hashing a tile. One store serves every raster content of a
document, while each content owns its own block pool. An entry pins the tile it was computed from;
its key is the tile's index and size in that pool, and the storage format.

## Main definitions

- `MemoKey`, `MemoEntry`, `RasterTileStore`: the memo and its passes.
- `TileWorld`: the block pools of the contents together with the memo.
- `beginPass`, `probe`, `record`, `endPass`, `seed`: the operations of the store.
- `TileWorld.Owned`: pool counts are exact for the pins of the memo and other owners.
- `TileWorld.Honest`: every entry names the bytes of the tile it pins.

## Main results

- `probe_spec`, `record_spec`, `endPass_spec`, `seed_spec`: what each does
  to the memo.
-/

namespace ArbitraryComposer

open Exec

/-- The key of a memo entry. -/
structure MemoKey where
  /-- The slot index of the tile. -/
  index : ℕ
  /-- The byte size of the tile. -/
  size : ℕ
  /-- The storage format the hash was taken over. -/
  storage : PixelFormat
  deriving DecidableEq

/-- A memo entry: a hash and the owning reference that keeps the hashed tile alive. -/
structure MemoEntry where
  /-- The blob name. -/
  hash : String
  /-- The content whose pool the pin counts in. -/
  content : ℕ
  /-- The pinned tile. -/
  ref : BlockSlotRef
  deriving DecidableEq

/-- A hash map of entries; a key occurs at most once, as entries are only emplaced. -/
abbrev Memo : Type := List (MemoKey × MemoEntry)

/-- The incremental-save hash memo. -/
structure RasterTileStore where
  /-- `d_live`: the last completed pass. -/
  live : Memo
  /-- `d_pass`: the pass being built. -/
  pass : Memo
  /-- Whether a pass is open. -/
  inPass : Bool
  /-- The storage format of the pass. -/
  storage : PixelFormat
  /-- Tiles hashed so far. -/
  tilesHashed : ℕ

/-- A store that memoizes nothing. -/
def RasterTileStore.init : RasterTileStore where
  live := []
  pass := []
  inPass := false
  storage := .rgba16fLinearPremul
  tilesHashed := 0

/-- The memo key of a tile reference. -/
def BlockSlotRef.memoKey (ref : BlockSlotRef) (storage : PixelFormat) : MemoKey :=
  ⟨ref.index, ref.size, storage⟩

/-- The pools of the raster contents and the memo they share. -/
structure TileWorld where
  /-- The pool each content owns. -/
  pool : ℕ → BigBlockPool
  /-- The shared memo. -/
  tiles : RasterTileStore

/-- Programs on the pools and the memo; none of them returns an error value. -/
abbrev WorldExec (α : Type) : Type := Exec TileWorld Empty Fault α

/-- Replace the pool of `c`. -/
def TileWorld.setPool (c : ℕ) (p : BigBlockPool) (w : TileWorld) : TileWorld :=
  { w with pool := Function.update w.pool c p }

/-- A pool program on the pool of `c`. -/
def onPool {α : Type} (c : ℕ) (x : PoolExec α) : WorldExec α :=
  zoom (fun w => w.pool c) (TileWorld.setPool c) id x

/-- Change the memo. -/
def modifyTiles (f : RasterTileStore → RasterTileStore) : WorldExec Unit :=
  modify fun w => { w with tiles := f w.tiles }

/-- Drop the pins of discarded entries. -/
def releasePins (t : ℕ) (memo : Memo) : WorldExec Unit :=
  forEach memo fun entry => onPool entry.2.content (releaseBlob t entry.2.ref)

/-- `RasterTileStore::begin_pass`. -/
def beginPass (t : ℕ) (storage : PixelFormat) : WorldExec Unit := do
  let abandoned ← gets fun w => w.tiles.pass
  modifyTiles fun m => { m with storage := storage, pass := [], inPass := true }
  releasePins t abandoned

/-- `RasterTileStore::end_pass`: the pass becomes the memo and the old memo's pins go. -/
def endPass (t : ℕ) : WorldExec Unit := do
  let tiles ← gets TileWorld.tiles
  if tiles.inPass then
    modifyTiles fun m => { m with live := m.pass, pass := [], inPass := false }
    releasePins t tiles.live
  else
    pure ()

/-- `RasterTileStore::probe`. The pool the tile lives in is not consulted. -/
def probe (ref : BlockSlotRef) : WorldExec (Option String) := do
  let tiles ← gets TileWorld.tiles
  let key := ref.memoKey tiles.storage
  match tiles.pass.lookup key with
  | some entry => pure (some entry.hash)
  | none =>
    match tiles.live.lookup key with
    | some entry =>
      -- the copied entry takes its own count on the pinned tile
      onPool entry.content (retainBlob entry.ref)
      modifyTiles fun m => { m with pass := (key, entry) :: m.pass }
      pure (some entry.hash)
    | none => pure none

/-- `BigBlockPool::resolve` for a pin; a count at its ceiling yields no pin. -/
def tryPin (c : ℕ) (ref : BlockSlotRef) : WorldExec Bool := fun w =>
  match (w.pool c).retain ref with
  | some p => .ok true (w.setPool c p)
  | none => .ok false w

/-- `RasterTileStore::record`. -/
def record (c : ℕ) (ref : BlockSlotRef) (hash : String) : WorldExec Unit := do
  let tiles ← gets TileWorld.tiles
  let key := ref.memoKey tiles.storage
  if (tiles.pass.lookup key).isSome then
    pure ()
  else
    modifyTiles fun m => { m with tilesHashed := m.tilesHashed + 1 }
    if ← tryPin c ref then
      modifyTiles fun m => { m with pass := (key, ⟨hash, c, ref⟩) :: m.pass }

/-- `RasterTileStore::seed`. -/
def seed (c : ℕ) (ref : BlockSlotRef) (storage : PixelFormat) (hash : String) :
    WorldExec Unit := do
  let tiles ← gets TileWorld.tiles
  let key := ref.memoKey storage
  if (tiles.live.lookup key).isSome then
    pure ()
  else
    if ← tryPin c ref then
      modifyTiles fun m => { m with live := (key, ⟨hash, c, ref⟩) :: m.live }

/-! ## Ownership -/

/-- The slots of the pool of `c` that a memo pins. -/
def Memo.pinsAt (memo : Memo) (c : ℕ) : Multiset (ℕ × ℕ) :=
  slotsOf ((memo.filter fun entry => entry.2.content = c).map fun entry => entry.2.ref)

/-- The counts of every pool are exact for the pins of the memo and the owners `tables`. -/
def TileWorld.Owned (w : TileWorld) (tables : ℕ → Multiset (ℕ × ℕ)) : Prop :=
  ∀ c, (w.pool c).Owned (w.tiles.live.pinsAt c + w.tiles.pass.pinsAt c + tables c)

/-- The blob name of the bytes a tile holds. -/
def tileName (prims : BlobPrimitives) (p : BigBlockPool) (ref : BlockSlotRef)
    (storage : PixelFormat) : String :=
  prims.hashTile (toStorageBytes (p.peek ref) storage)

/-- An entry is filed under its pinned tile and names the bytes of that tile. -/
structure MemoEntry.Honest (prims : BlobPrimitives) (pool : ℕ → BigBlockPool)
    (entry : MemoKey × MemoEntry) : Prop where
  /-- The key is the pinned tile's. -/
  key_eq : entry.1 = entry.2.ref.memoKey entry.1.storage
  /-- The hash is of the pinned tile's bytes. -/
  hash_eq : entry.2.hash = tileName prims (pool entry.2.content) entry.2.ref entry.1.storage

/-- Every entry of the memo is honest. -/
def TileWorld.Honest (prims : BlobPrimitives) (w : TileWorld) : Prop :=
  ∀ entry ∈ w.tiles.live ++ w.tiles.pass, MemoEntry.Honest prims w.pool entry

/-- Two worlds hold the same bytes in every slot. -/
def TileWorld.SameData (w w' : TileWorld) : Prop := ∀ c, (w'.pool c).data = (w.pool c).data

variable {prims : BlobPrimitives} {w w' w'' : TileWorld} {tables : ℕ → Multiset (ℕ × ℕ)} {t : ℕ}

theorem TileWorld.SameData.refl : w.SameData w := fun _ => rfl

theorem TileWorld.SameData.trans (h : w.SameData w') (h' : w'.SameData w'') : w.SameData w'' :=
  fun c => (h' c).trans (h c)

theorem tileName_congr {p p' : BigBlockPool} {ref : BlockSlotRef} {storage : PixelFormat}
    (h : p'.data ref.slot = p.data ref.slot) :
    tileName prims p' ref storage = tileName prims p ref storage := by
  simp only [tileName, BigBlockPool.peek, h]

theorem MemoEntry.Honest.congr {pool pool' : ℕ → BigBlockPool} {entry : MemoKey × MemoEntry}
    (h : MemoEntry.Honest prims pool entry)
    (hd : (pool' entry.2.content).data entry.2.ref.slot =
      (pool entry.2.content).data entry.2.ref.slot) :
    MemoEntry.Honest prims pool' entry :=
  ⟨h.key_eq, h.hash_eq.trans (tileName_congr hd).symm⟩

@[simp]
theorem Memo.pinsAt_nil (c : ℕ) : Memo.pinsAt [] c = 0 := rfl

theorem Memo.pinsAt_cons (entry : MemoKey × MemoEntry) (memo : Memo) (c : ℕ) :
    Memo.pinsAt (entry :: memo) c =
      (if entry.2.content = c then {entry.2.ref.slot} else 0) + memo.pinsAt c := by
  unfold Memo.pinsAt
  by_cases h : entry.2.content = c
  · simp only [List.filter_cons, h, decide_true, if_true, List.map_cons, slotsOf_cons,
      Multiset.singleton_add]
  · simp only [List.filter_cons, h, decide_false, if_false, zero_add, Bool.false_eq_true]

theorem Memo.slot_mem_pinsAt {memo : Memo} {entry : MemoKey × MemoEntry} (h : entry ∈ memo) :
    entry.2.ref.slot ∈ memo.pinsAt entry.2.content := by
  refine Multiset.mem_coe.mpr (List.mem_map_of_mem (List.mem_map.mpr ⟨entry, ?_, rfl⟩))
  exact List.mem_filter.mpr ⟨h, by simp⟩

theorem TileWorld.setPool_pool (c c' : ℕ) (p : BigBlockPool) :
    (w.setPool c p).pool c' = if c' = c then p else w.pool c' := by
  unfold TileWorld.setPool
  by_cases h : c' = c
  · subst h; simp
  · simp [h]

theorem TileWorld.sameData_setPool {c : ℕ} {p : BigBlockPool} (h : p.data = (w.pool c).data) :
    w.SameData (w.setPool c p) := by
  intro c'
  rw [setPool_pool]
  split
  · rename_i hc
    rw [hc, h]
  · rfl

/-- Give back the pins of entries that left the memo. -/
theorem releasePins_spec {memo : Memo} (tables : ℕ → Multiset (ℕ × ℕ))
    (h : w.Owned fun c => memo.pinsAt c + tables c) :
    wp (releasePins t memo)
      (fun _ w' => w'.Owned tables ∧ w'.tiles = w.tiles ∧ w.SameData w')
      (fun _ _ => False) poolFault w := by
  induction memo generalizing w with
  | nil => exact ⟨by simpa [TileWorld.Owned] using h, rfl, .refl⟩
  | cons entry memo ih =>
    simp only [releasePins, forEach, wp_bind, onPool, wp_zoom]
    have hc := h entry.2.content
    simp only at hc
    rw [Memo.pinsAt_cons, if_pos rfl, Multiset.singleton_add, Multiset.cons_add,
      Multiset.add_cons] at hc
    refine wp_imp (releaseBlob_spec hc) (fun _ p hp => ?_) fun _ _ h => h
    have hown : (w.setPool entry.2.content p).Owned fun c => Memo.pinsAt memo c + tables c := by
      intro c
      rw [TileWorld.setPool_pool]
      split
      · rename_i heq
        subst heq
        exact hp.1
      · rename_i hne
        have hc' := h c
        simp only at hc'
        rwa [Memo.pinsAt_cons, if_neg (Ne.symm hne), zero_add] at hc'
    refine wp_imp (ih hown) (fun _ w' hw' => ⟨hw'.1, hw'.2.1, ?_⟩) fun _ _ h => h
    exact (TileWorld.sameData_setPool hp.2).trans hw'.2.2

/-- Opening a pass drops what an abandoned pass left. -/
theorem beginPass_spec {storage : PixelFormat} (h : w.Owned tables) :
    wp (beginPass t storage) (fun _ w' => w'.Owned tables ∧ w.SameData w' ∧
        w'.tiles = { w.tiles with storage := storage, pass := [], inPass := true })
      (fun _ _ => False) poolFault w := by
  simp only [beginPass, modifyTiles, wp_bind, wp_gets, wp_modify]
  refine wp_imp (releasePins_spec (t := t) tables fun c => ?_)
    (fun _ w' hw' => ⟨hw'.1, hw'.2.2, hw'.2.1⟩) fun _ _ h => h
  have := h c
  simpa [add_assoc] using this

/-- Closing a pass makes it the memo. -/
theorem endPass_spec (h : w.Owned tables) (hin : w.tiles.inPass = true) :
    wp (endPass t) (fun _ w' => w'.Owned tables ∧ w.SameData w' ∧
        w'.tiles = { w.tiles with live := w.tiles.pass, pass := [], inPass := false })
      (fun _ _ => False) poolFault w := by
  simp only [endPass, modifyTiles, wp_bind, wp_gets, hin, if_true, wp_modify]
  refine wp_imp (releasePins_spec (t := t) tables fun c => ?_)
    (fun _ w' hw' => ⟨hw'.1, hw'.2.2, hw'.2.1⟩) fun _ _ h => h
  have := h c
  simpa [add_assoc, add_left_comm, add_comm] using this

/-- A probe answers from the pass, then from the memo, whose entry it carries into the pass. -/
theorem probe_spec {ref : BlockSlotRef} (h : w.Owned tables)
    (hcarried : ∀ key entry, w.tiles.pass.lookup key = some entry →
      w.tiles.live.lookup key = some entry) :
    wp (probe ref) (fun r w' =>
        r = (w.tiles.live.lookup (ref.memoKey w.tiles.storage)).map MemoEntry.hash ∧
        w'.Owned tables ∧ w.SameData w' ∧
        (∃ pass, w'.tiles = { w.tiles with pass := pass } ∧
          (∀ key entry, pass.lookup key = some entry → w.tiles.live.lookup key = some entry) ∧
          ∀ entry ∈ pass, entry ∈ w.tiles.live ++ w.tiles.pass))
      (fun _ _ => False) poolFault w := by
  simp only [probe, wp_bind, wp_gets]
  split
  · rename_i entry hentry
    refine ⟨?_, h, .refl, w.tiles.pass, rfl, hcarried, fun e he => List.mem_append_right _ he⟩
    rw [hcarried _ _ hentry]
    rfl
  · rename_i hnone
    split
    · rename_i entry hentry
      have hmem : (ref.memoKey w.tiles.storage, entry) ∈ w.tiles.live := by
        obtain ⟨l₁, l₂, heq, -⟩ := List.lookup_eq_some_iff.mp hentry
        simp [heq]
      simp only [onPool, modifyTiles, wp_bind, wp_zoom]
      have hslot : entry.ref.slot ∈ w.tiles.live.pinsAt entry.content +
          w.tiles.pass.pinsAt entry.content + tables entry.content :=
        Multiset.mem_add.mpr (Or.inl (Multiset.mem_add.mpr
          (Or.inl (Memo.slot_mem_pinsAt hmem))))
      refine wp_imp (retainBlob_spec (h entry.content) hslot) (fun _ p hp => ?_) fun _ _ h => h
      refine ⟨by rw [hentry]; rfl, fun c => ?_, TileWorld.sameData_setPool hp.2,
        (ref.memoKey w.tiles.storage, entry) :: w.tiles.pass, rfl, fun key e he => ?_,
        fun e he => ?_⟩
      · change ((w.setPool entry.content p).pool c).Owned
          (w.tiles.live.pinsAt c + Memo.pinsAt (_ :: w.tiles.pass) c + tables c)
        rw [TileWorld.setPool_pool, Memo.pinsAt_cons]
        split
        · rename_i heq
          subst heq
          rw [if_pos rfl, add_left_comm, add_assoc, Multiset.singleton_add]
          exact hp.1
        · rename_i hne
          rw [if_neg (Ne.symm hne), zero_add]
          exact h c
      · by_cases hkey : key = ref.memoKey w.tiles.storage
        · subst hkey
          rw [List.lookup_cons_self, Option.some.injEq] at he
          rw [hentry, he]
        · rw [List.lookup_cons, beq_false_of_ne hkey] at he
          exact hcarried key e he
      · rcases List.mem_cons.mp he with rfl | he
        · exact List.mem_append_left _ hmem
        · exact List.mem_append_right _ he
    · rename_i hmiss
      refine ⟨?_, h, .refl, w.tiles.pass, rfl, hcarried, fun e he => List.mem_append_right _ he⟩
      rw [hmiss]
      rfl

/-- A pin is taken or refused. -/
theorem tryPin_spec {c : ℕ} {ref : BlockSlotRef} {owners : Multiset (ℕ × ℕ)}
    (h : (w.pool c).Owned owners) (hmem : ref.slot ∈ owners) :
    wp (tryPin c ref) (fun pinned w' => w'.tiles = w.tiles ∧ w.SameData w' ∧
        if pinned then (∃ p, w' = w.setPool c p ∧ p.Owned (ref.slot ::ₘ owners)) else w' = w)
      (fun _ _ => False) poolFault w := by
  unfold wp tryPin
  cases hr : (w.pool c).retain ref with
  | none => exact ⟨rfl, .refl, by simp⟩
  | some p =>
    obtain ⟨hown, hdata⟩ := h.retain hmem hr
    exact ⟨rfl, TileWorld.sameData_setPool hdata, by simpa using ⟨p, rfl, hown⟩⟩

/-- The counts after a pin of `ref` was filed in one of the two memos. -/
private theorem TileWorld.Owned.file {c : ℕ} {ref : BlockSlotRef} {p : BigBlockPool}
    (key : MemoKey) (hash : String) {m : RasterTileStore} (h : w.Owned tables)
    (hp : p.Owned (ref.slot ::ₘ (w.tiles.live.pinsAt c + w.tiles.pass.pinsAt c + tables c)))
    (hm : ∀ c', m.live.pinsAt c' + m.pass.pinsAt c' =
      Memo.pinsAt [(key, ⟨hash, c, ref⟩)] c' +
        (w.tiles.live.pinsAt c' + w.tiles.pass.pinsAt c')) :
    TileWorld.Owned { w.setPool c p with tiles := m } tables := by
  intro c'
  change ((w.setPool c p).pool c').Owned (m.live.pinsAt c' + m.pass.pinsAt c' + tables c')
  rw [hm c', TileWorld.setPool_pool, Memo.pinsAt_cons]
  split
  · rename_i heq
    subst heq
    rw [if_pos rfl, Memo.pinsAt_nil, add_zero, add_assoc, Multiset.singleton_add]
    exact hp
  · rename_i hne
    rw [if_neg (Ne.symm hne), Memo.pinsAt_nil, add_zero, zero_add]
    exact h c'

/-- Recording a miss files an entry for it in the pass, or leaves the memo as it was. -/
theorem record_spec {c : ℕ} {ref : BlockSlotRef} {hash : String} (h : w.Owned tables)
    (hmem : ref.slot ∈ tables c) :
    wp (record c ref hash) (fun _ w' => w'.Owned tables ∧ w.SameData w' ∧
        ∃ hashed pass, w'.tiles = { w.tiles with tilesHashed := hashed, pass := pass } ∧
          ∀ entry ∈ pass, entry ∈ w.tiles.pass ∨
            entry = (ref.memoKey w.tiles.storage, ⟨hash, c, ref⟩))
      (fun _ _ => False) poolFault w := by
  simp only [record, wp_bind, wp_gets]
  refine wp_ite (fun _ => ?_) fun _ => ?_
  · exact ⟨h, .refl, w.tiles.tilesHashed, w.tiles.pass, rfl, fun _ he => Or.inl he⟩
  · simp only [modifyTiles, wp_bind, wp_modify]
    refine wp_imp (tryPin_spec (h c) (Multiset.mem_add.mpr (Or.inr hmem)))
      (fun pinned w' hw' => ?_) fun _ _ h => h
    obtain ⟨htiles, hdata, hpin⟩ := hw'
    cases pinned with
    | false =>
      simp only [Bool.false_eq_true, if_false] at hpin ⊢
      subst hpin
      exact ⟨h, hdata, _, w.tiles.pass, rfl, fun _ he => Or.inl he⟩
    | true =>
      simp only [if_true] at hpin ⊢
      obtain ⟨p, rfl, hp⟩ := hpin
      refine ⟨?_, hdata, _, (ref.memoKey w.tiles.storage, ⟨hash, c, ref⟩) :: w.tiles.pass, rfl,
        fun e he => ?_⟩
      · refine TileWorld.Owned.file (ref.memoKey w.tiles.storage) hash h hp
          fun c' => ?_
        simp only [Memo.pinsAt_cons, Memo.pinsAt_nil, add_zero, TileWorld.setPool]
        rw [add_left_comm]
      · rcases List.mem_cons.mp he with rfl | he
        · exact Or.inr rfl
        · exact Or.inl he

/-- Seeding files an entry in the memo, or leaves the memo as it was. -/
theorem seed_spec {c : ℕ} {ref : BlockSlotRef} {storage : PixelFormat} {hash : String}
    (h : w.Owned tables) (hmem : ref.slot ∈ tables c) :
    wp (seed c ref storage hash) (fun _ w' => w'.Owned tables ∧ w.SameData w' ∧
        ∃ live, w'.tiles = { w.tiles with live := live } ∧
          ∀ entry ∈ live, entry ∈ w.tiles.live ∨
            entry = (ref.memoKey storage, ⟨hash, c, ref⟩))
      (fun _ _ => False) poolFault w := by
  simp only [seed, wp_bind, wp_gets]
  refine wp_ite (fun _ => ?_) fun _ => ?_
  · exact ⟨h, .refl, w.tiles.live, rfl, fun _ he => Or.inl he⟩
  · rw [wp_bind]
    refine wp_imp (tryPin_spec (h c) (Multiset.mem_add.mpr (Or.inr hmem)))
      (fun pinned w' hw' => ?_) fun _ _ h => h
    obtain ⟨htiles, hdata, hpin⟩ := hw'
    cases pinned with
    | false =>
      simp only [Bool.false_eq_true, if_false] at hpin ⊢
      exact ⟨hpin ▸ h, hdata, w.tiles.live, by rw [hpin], fun _ he => Or.inl he⟩
    | true =>
      simp only [if_true] at hpin ⊢
      obtain ⟨p, rfl, hp⟩ := hpin
      refine ⟨?_, hdata, (ref.memoKey storage, ⟨hash, c, ref⟩) :: w.tiles.live, rfl,
        fun e he => ?_⟩
      · refine TileWorld.Owned.file (ref.memoKey storage) hash h hp
          fun c' => ?_
        simp only [Memo.pinsAt_cons, Memo.pinsAt_nil, add_zero, TileWorld.setPool]
        rw [add_assoc]
      · rcases List.mem_cons.mp he with rfl | he
        · exact Or.inr rfl
        · exact Or.inl he

end ArbitraryComposer
