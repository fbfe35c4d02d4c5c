import ArbitraryComposer.Pool.RefStore
import ArbitraryComposer.ToMathlib.Machine

/-!
# Checkpoints and the Durability Fence

A workspace file holds the data chunks of an arena and two root slots in its header. A commit
makes the data durable, publishes a root with a bumped generation into the inactive slot and makes
the header durable; either sync may fail. A slot that is released is quarantined with the epoch of
the next commit, because the root on disk may still reach it, and the commit that makes the
release durable returns it to the allocator.

The writer allocates and commits; any thread releases, under the same mutex as a commit. The
epochs wrap at 32 bits, the diagnostic counters do not. An object is constructed by the writer
before its slot is handed on, and not written afterwards.

## Main definitions

- `WorkspaceRoot`, `WorkspaceHeader`, `selectRoot`: what the header holds and which root is read.
- `Checkpointer.isDirty`, `drainFences`, `commit`: the commit protocol.
- `Workspace`, `workspace`: the machine of allocations, releases and commits.
- `Image`: what a published root reaches.

## Main results

- `Workspace.reachable_inv`: what a root on disk reaches is constructed or quarantined.
- `fenced_slots_safe`: no slot that a root on disk reaches is handed out.
-/

namespace ArbitraryComposer

open SlotStore

/-! ## The header -/

/-- `WorkspaceRoot`. -/
structure WorkspaceRoot where
  /-- The generation; zero was never written. -/
  generation : UInt32 := 0
  /-- The slot of the root. -/
  rootIndex : UInt32 := 0
  deriving DecidableEq, Repr

/-- A store-table snapshot: the high-water marks that belong to a root. -/
structure StoreSnapshot where
  /-- The generation of the root that owns it. -/
  generation : UInt32 := 0
  /-- The mark of each store. -/
  highWater : ℕ → ℕ := fun _ => 0

/-- The two root slots of a workspace file and their snapshots. -/
structure WorkspaceHeader where
  /-- The roots. -/
  root : Bool → WorkspaceRoot := fun _ => {}
  /-- The snapshots. -/
  snapshot : Bool → StoreSnapshot := fun _ => {}

/-- `select_root`: the newest root that its snapshot is stamped for, the first slot on ties. -/
def selectRoot (h : WorkspaceHeader) : Option (Bool × WorkspaceRoot) :=
  let newest := (h.root false).generation < (h.root true).generation
  [decide newest, !decide newest].findSome? fun slot =>
    if (h.snapshot slot).generation = (h.root slot).generation then
      some (slot, h.root slot)
    else
      none

/-- What a commit publishes into a slot of the header. -/
def WorkspaceHeader.publish (h : WorkspaceHeader) (slot : Bool) (root : WorkspaceRoot)
    (highWater : ℕ → ℕ) : WorkspaceHeader where
  root := Function.update h.root slot root
  snapshot := Function.update h.snapshot slot ⟨root.generation, highWater⟩

/-- `Model::k_no_root`. -/
def noRoot : UInt32 := 0xFFFFFFFF

/-! ## The stores of an arena -/

/-- What a root on disk names: the objects at its publication. -/
structure Image where
  /-- The slot of the root. -/
  root : Option (ℕ × ℕ)
  /-- The references stored in each object. -/
  objects : Finmap fun _ : ℕ × ℕ => List (ℕ × ℕ)

/-- An object stores a reference to a slot. -/
def Image.Names (im : Image) (s s' : ℕ × ℕ) : Prop :=
  ∃ edges, im.objects.lookup s = some edges ∧ s' ∈ edges

/-- What the root of an image reaches. -/
def Image.Reaches (im : Image) (s : ℕ × ℕ) : Prop :=
  ∃ root ∈ im.root, Relation.ReflTransGen im.Names root s

/-- `Checkpointer`. -/
structure Checkpointer where
  /-- The last root generation published. -/
  generation : UInt32
  /-- The last epoch made durable. -/
  durableEpoch : UInt32
  /-- The epoch in progress. -/
  epoch : UInt32
  /-- The header slot the next commit publishes into. -/
  nextSlot : Bool
  /-- Live slots at the last commit. -/
  snapLive : ℕ
  /-- High-water marks at the last commit. -/
  snapHighWater : ℕ
  /-- Slots ever quarantined, at the last commit. -/
  snapQuarantined : ℕ

/-- The stores of a workspace file, the objects in their slots, the fence and the checkpointer. The
last three fields are read by nothing. -/
structure Workspace where
  /-- The size classes with a store. -/
  classes : Finset ℕ
  /-- The stores. -/
  stores : ℕ → SlotStore
  /-- The references stored in the object of each slot. -/
  objects : Finmap fun _ : ℕ × ℕ => List (ℕ × ℕ)
  /-- The slots in quarantine, oldest first. -/
  quarantine : List Quarantined
  /-- The slots that ever entered quarantine. -/
  quarantinedTotal : ℕ
  /-- The header as it is mapped. -/
  header : WorkspaceHeader
  /-- The checkpointer. -/
  checkpointer : Checkpointer
  /-- The root of the last commit that returned success. -/
  durable : Image
  /-- The roots published since by commits that did not. -/
  attempted : List Image
  /-- Slots written or given back since the last successful data sync. -/
  unsynced : ℕ

/-- The outcomes of the two syncs of a commit. -/
structure SyncResults where
  /-- Whether the data sync succeeds, where it is made. -/
  data : Bool
  /-- Whether the header sync succeeds. -/
  header : Bool
  deriving DecidableEq, Repr

namespace Workspace

/-- Replace the store of a size class. -/
def setStore (s : Workspace) (c : ℕ) (store : SlotStore) : Workspace :=
  { s with stores := Function.update s.stores c store }

/-- `Arena::total_slots_live`. -/
def totalLive (s : Workspace) : ℕ := ∑ c ∈ s.classes, (s.stores c).slotsLive

/-- `Arena::total_high_water`. -/
def totalHighWater (s : Workspace) : ℕ := ∑ c ∈ s.classes, (s.stores c).highWater

/-- `Checkpointer::is_dirty`. -/
def isDirty (s : Workspace) : Bool :=
  s.totalLive != s.checkpointer.snapLive || s.totalHighWater != s.checkpointer.snapHighWater ||
    s.quarantinedTotal != s.checkpointer.snapQuarantined

/-- `Checkpointer::snapshot`. -/
def snapshot (s : Workspace) : Workspace :=
  { s with checkpointer := { s.checkpointer with
      snapLive := s.totalLive
      snapHighWater := s.totalHighWater
      snapQuarantined := s.quarantinedTotal } }

/-- Return slots to their stores on thread `w`, oldest first. -/
def freeAll (w : ℕ) (stores : ℕ → SlotStore) (freed : List Quarantined) : ℕ → SlotStore :=
  freed.foldl (fun stores q =>
    Function.update stores q.store ((stores q.store).freeNow w q.index)) stores

/-- `Checkpointer::drain_fences` on thread `w`. -/
def drainFences (w : ℕ) (s : Workspace) : Workspace :=
  { s with
    stores := freeAll w s.stores
      (s.quarantine.filter fun q => q.epoch ≤ s.checkpointer.durableEpoch.toNat)
    quarantine := s.quarantine.filter fun q => ¬ q.epoch ≤ s.checkpointer.durableEpoch.toNat }

/-- The root a commit publishes. -/
def newRoot (s : Workspace) (root : Option (ℕ × ℕ)) : WorkspaceRoot :=
  ⟨s.checkpointer.epoch, root.elim noRoot fun r => .ofNat r.2⟩

/-- `Checkpointer::commit` on thread `w`, up to the header sync: the data of a dirty scene is
synced, and the root is published. -/
def publish (s : Workspace) (root : Option (ℕ × ℕ)) : Workspace :=
  { s with
    header := s.header.publish s.checkpointer.nextSlot (s.newRoot root)
      fun c => (s.stores c).highWater
    attempted := ⟨root, s.objects⟩ :: s.attempted
    unsynced := if s.isDirty then 0 else s.unsynced }

/-- The rest of `Checkpointer::commit`, after the header sync. -/
def advance (w : ℕ) (s : Workspace) (root : Option (ℕ × ℕ)) : Workspace :=
  let s := { s with
    checkpointer := { s.checkpointer with
      generation := s.checkpointer.epoch
      durableEpoch := s.checkpointer.epoch
      nextSlot := !s.checkpointer.nextSlot }
    durable := ⟨root, s.objects⟩
    attempted := [] }
  let s := s.drainFences w
  let s := { s with checkpointer := { s.checkpointer with
    epoch := s.checkpointer.generation + 1 } }
  s.snapshot

/-- `Checkpointer::commit` on thread `w`: whether it returns success, and the state it leaves. -/
def commit (w : ℕ) (s : Workspace) (root : Option (ℕ × ℕ)) (sync : SyncResults) :
    Bool × Workspace :=
  if s.isDirty && !sync.data then
    (false, s)
  else
    let s := s.publish root
    if sync.header then
      (true, s.advance w root)
    else
      (false, s)

/-- `SlotStore::allocate` on the writer thread, and the construction of an object in the slot. -/
def allocate (w : ℕ) (s : Workspace) (c : ℕ) (edges : List (ℕ × ℕ)) : Workspace :=
  match (s.stores c).allocate w with
  | (.error _, store) => s.setStore c store
  | (.ok i, store) => { s.setStore c store with
      objects := s.objects.insert (c, i) edges
      unsynced := s.unsynced + 1 }

/-- `SlotStore::release` behind the fence, after the object was destroyed. -/
def release (s : Workspace) (slot : ℕ × ℕ) : Workspace :=
  { s.setStore slot.1 (s.stores slot.1).dropLive with
    objects := s.objects.erase slot
    quarantine := s.quarantine ++ [⟨slot.1, slot.2, s.checkpointer.epoch.toNat⟩]
    quarantinedTotal := s.quarantinedTotal + 1
    unsynced := s.unsynced + 1 }

end Workspace

/-- What happens to a workspace file. -/
inductive WorkspaceEvent where
  /-- An object with some references is made in a size class. -/
  | allocate (c : ℕ) (edges : List (ℕ × ℕ))
  /-- An object is destroyed and its slot released. -/
  | release (slot : ℕ × ℕ)
  /-- A root is committed. -/
  | commit (root : Option (ℕ × ℕ)) (sync : SyncResults)

/-- No object stores a reference to a slot. -/
def Workspace.Unnamed (s : Workspace) (slot : ℕ × ℕ) : Prop :=
  ∀ k ∈ s.objects.keys, slot ∉ (s.objects.lookup k).getD []

instance (s : Workspace) (slot : ℕ × ℕ) : Decidable (s.Unnamed slot) :=
  inferInstanceAs (Decidable (∀ k ∈ s.objects.keys, _))

/-- A step: objects store references to objects that are there, and an object is destroyed only
when none names it. -/
def Workspace.step (w : ℕ) : WorkspaceEvent → Workspace → Option Workspace
  | .allocate c edges, s =>
    if c ∈ s.classes ∧ ∀ r ∈ edges, r ∈ s.objects then some (s.allocate w c edges) else none
  | .release slot, s =>
    if slot ∈ s.objects ∧ s.Unnamed slot then some (s.release slot) else none
  | .commit root sync, s =>
    if ∀ r ∈ root, r ∈ s.objects then some (s.commit w root sync).2 else none

/-- The store of a size class after a reopen: its chunks bound, and its free list the complement of
the live slots. -/
def restoredStore (chunkBits : ℕ) (source : ChunkSource) (highWater : ℕ) (live : List ℕ) :
    SlotStore :=
  ((SlotStore.init chunkBits source).reserveRestored highWater).2.finalizeRestore live

/-! ## Start states -/

/-- A workspace that was just created, or opened again: the stores hold the objects the selected
root reaches, and the checkpointer is the one its constructor makes before they are restored. -/
structure Workspace.Start (s : Workspace) : Prop where
  /-- Every object lies in a store. -/
  mem_classes : ∀ a ∈ s.objects, a.1 ∈ s.classes
  /-- Every store was rebuilt from its mark and its live slots. -/
  restored : ∀ c, ∃ chunkBits source highWater, ∃ live : List ℕ,
    ((SlotStore.init chunkBits source).reserveRestored highWater).1 = .ok () ∧
      s.stores c = restoredStore chunkBits source highWater live ∧
      (∀ i ∈ live, i < highWater) ∧ ∀ i, i ∈ live ↔ (c, i) ∈ s.objects
  /-- References are to objects that are there. -/
  closed : ∀ a edges, s.objects.lookup a = some edges → ∀ b ∈ edges, b ∈ s.objects
  /-- The objects are those of the durable root. -/
  durable_objects : s.durable.objects = s.objects
  /-- The durable root is an object. -/
  durable_root : ∀ r ∈ s.durable.root, r ∈ s.objects
  /-- No commit was attempted. -/
  attempted_eq : s.attempted = []
  /-- Nothing waits. -/
  quarantine_eq : s.quarantine = []
  /-- Nothing ever waited. -/
  quarantinedTotal_eq : s.quarantinedTotal = 0
  /-- Nothing was written. -/
  unsynced_eq : s.unsynced = 0
  /-- The root the header selects is the durable one, and the checkpointer goes on from it. Before
  the first commit returned success there is none, and the second slot was never written. -/
  selected : ∃ slot root, selectRoot s.header = some (slot, root) ∧
    (∀ r ∈ s.durable.root, root.rootIndex = .ofNat r.2) ∧
    (root.generation = 0 → s.durable.root = none ∧ (s.header.root true).generation = 0 ∧
      (s.header.snapshot true).generation = 0) ∧
    s.checkpointer =
      { generation := root.generation
        durableEpoch := root.generation
        epoch := root.generation + 1
        nextSlot := if root.generation = 0 then false else !slot
        snapLive := 0
        snapHighWater := 0
        snapQuarantined := 0 }

/-- The machine of a workspace file, with `w` the writer thread. -/
def workspace (w : ℕ) : Machine Workspace WorkspaceEvent where
  start := Workspace.Start
  step := Workspace.step w

/-! ## The invariant -/

namespace Workspace

variable {w : ℕ} {s s' : Workspace} {a : ℕ × ℕ}

/-- The places of the quarantine. -/
def quarantined (s : Workspace) : List (ℕ × ℕ) := s.quarantine.map fun q => (q.store, q.index)

/-- A slot that an object occupies or that waits in the quarantine. -/
def heldAt (s : Workspace) (c i : ℕ) : ℕ :=
  (if (c, i) ∈ s.objects then 1 else 0) + s.quarantined.count (c, i)

/-- Every reference is to an object that is there. -/
def Closed (s : Workspace) : Prop :=
  ∀ a edges, s.objects.lookup a = some edges → ∀ b ∈ edges, b ∈ s.objects

/-- What is counted since the last snapshot: `made` allocations and `gone` releases. -/
structure Booked (s : Workspace) (made gone : ℕ) : Prop where
  /-- The quarantine counter. -/
  gone_eq : s.quarantinedTotal = s.checkpointer.snapQuarantined + gone
  /-- The live slots. -/
  live_ge : s.checkpointer.snapLive + made ≤ s.totalLive + gone
  /-- What a data sync has to write. -/
  unsynced_le : s.unsynced ≤ made + gone

/-- The header slots hold the last durable root and the last one attempted. -/
structure HeaderHolds (s : Workspace) : Prop where
  /-- The generation of the durable root. -/
  generation_eq : (s.header.root !s.checkpointer.nextSlot).generation = s.checkpointer.generation
  /-- Its snapshot is stamped for it. -/
  stamped : (s.header.snapshot !s.checkpointer.nextSlot).generation = s.checkpointer.generation
  /-- The slot of the durable root. -/
  durable_root : ∀ r ∈ s.durable.root,
    (s.header.root !s.checkpointer.nextSlot).rootIndex = .ofNat r.2
  /-- The root a failed commit left in the other slot. -/
  attempted_root : ∀ im ∈ s.attempted.head?,
    s.header.root s.checkpointer.nextSlot = s.newRoot im.root

/-- The invariant of the fence, with `w` the writer thread. -/
structure Inv (w : ℕ) (s : Workspace) : Prop where
  /-- Every slot below a mark is free, occupied or quarantined, in exactly one place. -/
  placed : ∀ c, (s.stores c).Partition (s.heldAt c)
  /-- Free slots wait for the writer alone. -/
  onlyPool : ∀ c, (s.stores c).OnlyPool w
  /-- References are to objects that are there. -/
  closed : s.Closed
  /-- What a root on disk reaches is occupied or quarantined. -/
  kept : ∀ im ∈ s.durable :: s.attempted, ∀ a, im.Reaches a → s.heldAt a.1 a.2 ≠ 0
  /-- What waits, waits for the next commit. -/
  current : ∀ q ∈ s.quarantine, q.epoch = s.checkpointer.epoch.toNat
  /-- The checkpointer publishes the generation of its epoch. -/
  epoch_eq : s.checkpointer.epoch = s.checkpointer.generation + 1
  /-- The counters of the dirty test. -/
  booked : ∃ made gone, s.Booked made gone
  /-- The header. -/
  header : s.HeaderHolds

theorem heldAt_ne_zero_iff {c i : ℕ} :
    s.heldAt c i ≠ 0 ↔ (c, i) ∈ s.objects ∨ (c, i) ∈ s.quarantined := by
  unfold heldAt
  rw [← List.count_pos_iff]
  by_cases hm : (c, i) ∈ s.objects
  · simp [hm]
  · simp only [hm, if_false, false_or]
    omega

/-- From an object, references lead to objects. -/
theorem Closed.of_reaches (h : s.Closed) {root : Option (ℕ × ℕ)} (hroot : ∀ r ∈ root, r ∈ s.objects)
    (ha : Image.Reaches ⟨root, s.objects⟩ a) : a ∈ s.objects := by
  obtain ⟨r, hr, hpath⟩ := ha
  induction hpath with
  | refl => exact hroot r hr
  | tail _ hname _ =>
    obtain ⟨edges, hedges, hmem⟩ := hname
    exact h _ edges hedges _ hmem

/-- A clean scene has nothing to sync. -/
theorem Booked.unsynced_eq_zero {made gone : ℕ} (h : s.Booked made gone)
    (hclean : s.isDirty = false) : s.unsynced = 0 := by
  simp only [isDirty, Bool.or_eq_false_iff, bne_eq_false_iff_eq] at hclean
  obtain ⟨⟨hlive, -⟩, hquar⟩ := hclean
  have h1 := h.gone_eq
  have h2 := h.live_ge
  have h3 := h.unsynced_le
  omega

/-- A root on disk reaches no slot that is handed out. -/
theorem Inv.allocate_not_reached (h : s.Inv w) {c i : ℕ} {store : SlotStore}
    (ha : (s.stores c).allocate w = (.ok i, store)) {im : Image}
    (him : im ∈ s.durable :: s.attempted) : ¬ im.Reaches (c, i) := by
  intro hreach
  obtain ⟨hfree, -, -⟩ := (h.placed c).allocate_ok ha
  exact h.kept im him _ hreach hfree

/-- Every slot that is neither an object nor quarantined comes back. -/
theorem Inv.handsOut (h : s.Inv w) {c i : ℕ} (hi : i < (s.stores c).highWater)
    (hheld : s.heldAt c i = 0) : (s.stores c).HandsOut w i := by
  have hplace := (h.placed c).place i
  rw [if_pos hi, hheld] at hplace
  refine handsOut_of_mem_upcoming ((h.onlyPool c).mem_upcoming ?_)
  omega

/-! ## Every step keeps the invariant -/

/-- One store is replaced, and the places in the others stay. -/
private theorem placed_of_setStore {c : ℕ} {store : SlotStore}
    (h : ∀ c, (s.stores c).Partition (s.heldAt c))
    (hs : s'.stores = Function.update s.stores c store)
    (hother : ∀ c' i, c' ≠ c → s'.heldAt c' i = s.heldAt c' i)
    (hc : store.Partition (s'.heldAt c)) : ∀ c', (s'.stores c').Partition (s'.heldAt c') := by
  intro c'
  rw [hs]
  by_cases hcc : c' = c
  · subst hcc
    rw [Function.update_self]
    exact hc
  · rw [Function.update_of_ne hcc]
    exact (h c').congr fun i => hother c' i hcc

private theorem onlyPool_of_setStore {c : ℕ} {store : SlotStore}
    (h : ∀ c, (s.stores c).OnlyPool w) (hs : s'.stores = Function.update s.stores c store)
    (hc : store.OnlyPool w) : ∀ c', (s'.stores c').OnlyPool w := by
  intro c'
  rw [hs]
  by_cases hcc : c' = c
  · subst hcc
    rwa [Function.update_self]
  · rw [Function.update_of_ne hcc]
    exact h c'

/-- The live slots after one store was replaced. -/
private theorem totalLive_setStore {c : ℕ} (store : SlotStore) (hc : c ∈ s.classes) :
    (s.setStore c store).totalLive + (s.stores c).slotsLive = s.totalLive + store.slotsLive := by
  have hrest : ∑ c' ∈ s.classes.erase c, (Function.update s.stores c store c').slotsLive =
      ∑ c' ∈ s.classes.erase c, (s.stores c').slotsLive := by
    refine Finset.sum_congr rfl fun c' hc' => ?_
    rw [Function.update_of_ne (Finset.ne_of_mem_erase hc')]
  have hnew := Finset.add_sum_erase s.classes
    (fun c' => (Function.update s.stores c store c').slotsLive) hc
  have hold := Finset.add_sum_erase s.classes (fun c' => (s.stores c').slotsLive) hc
  simp only [Function.update_self, hrest] at hnew
  simp only [totalLive, setStore]
  omega

/-- A refused allocation changes no object and no counter. -/
private theorem Inv.allocate_error (h : s.Inv w) {c : ℕ} {e : PoolError} {store : SlotStore}
    (hc : c ∈ s.classes) (ha : (s.stores c).allocate w = (.error e, store)) :
    (s.setStore c store).Inv w := by
  have hlive : store.slotsLive = (s.stores c).slotsLive := by
    have := slotsLive_allocate (s := s.stores c) (t := w)
    rw [ha] at this
    exact this
  have honly := (h.onlyPool c).allocate
  rw [ha] at honly
  obtain ⟨made, gone, hbook⟩ := h.booked
  refine
    { placed := placed_of_setStore h.placed rfl (fun _ _ _ => rfl)
        ((h.placed c).allocate_error ha).1
      onlyPool := onlyPool_of_setStore h.onlyPool rfl honly
      closed := h.closed
      kept := h.kept
      current := h.current
      epoch_eq := h.epoch_eq
      booked := ⟨made, gone, hbook.gone_eq, ?_, hbook.unsynced_le⟩
      header := ⟨h.header.generation_eq, h.header.stamped, h.header.durable_root,
        h.header.attempted_root⟩ }
  have h1 := totalLive_setStore store hc
  have h2 := hbook.live_ge
  change s.checkpointer.snapLive + made ≤ (s.setStore c store).totalLive + gone
  omega

/-- An allocated slot was free, so the new object takes no place of another. -/
private theorem Inv.allocate_ok (h : s.Inv w) {c i : ℕ} {edges : List (ℕ × ℕ)} {store : SlotStore}
    (hc : c ∈ s.classes) (hedges : ∀ r ∈ edges, r ∈ s.objects)
    (ha : (s.stores c).allocate w = (.ok i, store)) :
    Inv w { s.setStore c store with
      objects := s.objects.insert (c, i) edges
      unsynced := s.unsynced + 1 } := by
  obtain ⟨hfree, hplaced, -⟩ := (h.placed c).allocate_ok ha
  have hlive : store.slotsLive = (s.stores c).slotsLive + 1 := by
    have := slotsLive_allocate (s := s.stores c) (t := w)
    rw [ha] at this
    exact this
  have honly := (h.onlyPool c).allocate
  rw [ha] at honly
  set t : Workspace := { s.setStore c store with
    objects := s.objects.insert (c, i) edges
    unsynced := s.unsynced + 1 } with ht
  have hfresh : (c, i) ∉ s.objects ∧ s.quarantined.count (c, i) = 0 := by
    by_cases hm : (c, i) ∈ s.objects
    · simp [heldAt, hm] at hfree
    · simpa [heldAt, hm] using hfree
  have hheld : ∀ c' i', t.heldAt c' i' = if (c', i') = (c, i) then 1 else s.heldAt c' i' := by
    intro c' i'
    have hq : t.quarantined = s.quarantined := rfl
    split
    · rename_i heq
      rw [heldAt, hq, heq, hfresh.2, if_pos (Finmap.mem_insert.mpr (.inl rfl))]
    · rename_i hne
      have hiff : (c', i') ∈ t.objects ↔ (c', i') ∈ s.objects := by
        rw [ht, Finmap.mem_insert]
        exact or_iff_right hne
      simp only [heldAt, hq, hiff]
  have hmem : ∀ {a}, a ∈ s.objects → a ∈ t.objects := fun ha => Finmap.mem_insert.mpr (.inr ha)
  obtain ⟨made, gone, hbook⟩ := h.booked
  refine
    { placed := placed_of_setStore h.placed rfl (fun c' i' hc' => ?_) ?_
      onlyPool := onlyPool_of_setStore h.onlyPool rfl honly
      closed := fun a es hes b hb => ?_
      kept := fun im him a ha => ?_
      current := h.current
      epoch_eq := h.epoch_eq
      booked := ⟨made + 1, gone, hbook.gone_eq, ?_, ?_⟩
      header := ⟨h.header.generation_eq, h.header.stamped, h.header.durable_root,
        h.header.attempted_root⟩ }
  · rw [hheld, if_neg (fun heq => hc' (Prod.ext_iff.mp heq).1)]
  · refine hplaced.congr fun i' => ?_
    rw [hheld]
    by_cases hi : i' = i
    · subst hi
      rw [if_pos rfl, Function.update_self]
    · rw [if_neg (fun heq => hi (Prod.ext_iff.mp heq).2), Function.update_of_ne hi]
  · -- the new object names objects that were there, and no object lost one
    by_cases hac : a = (c, i)
    · subst hac
      rw [ht, Finmap.lookup_insert] at hes
      cases hes
      exact hmem (hedges b hb)
    · rw [ht, Finmap.lookup_insert_of_ne _ hac] at hes
      exact hmem (h.closed a es hes b hb)
  · rw [hheld]
    split
    · exact Nat.one_ne_zero
    · exact h.kept im him a ha
  · have h1 := totalLive_setStore store hc
    have h2 := hbook.live_ge
    change s.checkpointer.snapLive + (made + 1) ≤ (s.setStore c store).totalLive + gone
    omega
  · have := hbook.unsynced_le
    change s.unsynced + 1 ≤ made + 1 + gone
    omega

theorem Inv.allocate (h : s.Inv w) {c : ℕ} {edges : List (ℕ × ℕ)} (hc : c ∈ s.classes)
    (hedges : ∀ r ∈ edges, r ∈ s.objects) : (s.allocate w c edges).Inv w := by
  unfold Workspace.allocate
  split
  · rename_i ha
    exact h.allocate_error hc ha
  · rename_i ha
    exact h.allocate_ok hc hedges ha

/-- A released slot moves from its object to the quarantine. -/
theorem Inv.release (h : s.Inv w) {slot : ℕ × ℕ} (hslot : slot ∈ s.objects)
    (hun : s.Unnamed slot) : (s.release slot).Inv w := by
  set t := s.release slot with ht
  have hheld : ∀ c i, t.heldAt c i = s.heldAt c i := by
    intro c i
    have hq : t.quarantined = s.quarantined ++ [slot] := by
      simp [ht, Workspace.release, quarantined]
    have hiff : (c, i) ∈ t.objects ↔ (c, i) ≠ slot ∧ (c, i) ∈ s.objects := by
      rw [ht, Workspace.release, Finmap.mem_erase]
    simp only [heldAt, hq, List.count_append, hiff]
    by_cases heq : (c, i) = slot
    · subst heq
      simp only [ne_eq, not_true_eq_false, false_and, if_false, hslot, if_true,
        List.count_singleton_self]
      omega
    · simp [heq, List.count_eq_zero.mpr]
  obtain ⟨made, gone, hbook⟩ := h.booked
  refine
    { placed := placed_of_setStore h.placed rfl (fun c' i' _ => hheld c' i')
        ((h.placed slot.1).dropLive.congr (hheld slot.1))
      onlyPool := onlyPool_of_setStore h.onlyPool rfl (h.onlyPool slot.1)
      closed := fun a es hes b hb => ?_
      kept := fun im him a ha => (hheld a.1 a.2).symm ▸ h.kept im him a ha
      current := fun q hq => ?_
      epoch_eq := h.epoch_eq
      booked := ⟨made, gone + 1, ?_, ?_, ?_⟩
      header := ⟨h.header.generation_eq, h.header.stamped, h.header.durable_root,
        h.header.attempted_root⟩ }
  · -- no object that is left names the slot
    have hne : a ≠ slot := by
      rintro rfl
      rw [ht, Workspace.release, Finmap.lookup_erase] at hes
      cases hes
    rw [ht, Workspace.release, Finmap.lookup_erase_ne hne] at hes
    have hbs : b ≠ slot := by
      rintro rfl
      have hkey : a ∈ s.objects.keys := Finmap.mem_keys.mpr (Finmap.mem_of_lookup_eq_some hes)
      have := hun a hkey
      rw [hes] at this
      exact this hb
    exact Finmap.mem_erase.mpr ⟨hbs, h.closed a es hes b hb⟩
  · rcases List.mem_append.mp hq with hq | hq
    · exact h.current q hq
    · rw [List.mem_singleton.mp hq]
      rfl
  · have := hbook.gone_eq
    change s.quarantinedTotal + 1 = s.checkpointer.snapQuarantined + (gone + 1)
    omega
  · have hlive : s.totalLive ≤ t.totalLive + 1 := by
      by_cases hc : slot.1 ∈ s.classes
      · have h1 := totalLive_setStore (s.stores slot.1).dropLive hc
        have h2 : (s.stores slot.1).dropLive.slotsLive = (s.stores slot.1).slotsLive - 1 := rfl
        change _ ≤ (s.setStore slot.1 (s.stores slot.1).dropLive).totalLive + 1
        omega
      · refine le_trans (le_of_eq ?_) (Nat.le_succ _)
        refine Finset.sum_congr rfl fun c' hc' => ?_
        change _ = (Function.update s.stores slot.1 _ c').slotsLive
        rw [Function.update_of_ne fun heq : c' = slot.1 => hc (heq ▸ hc')]
    have := hbook.live_ge
    change s.checkpointer.snapLive + made ≤ t.totalLive + (gone + 1)
    omega
  · have := hbook.unsynced_le
    change s.unsynced + 1 ≤ made + (gone + 1)
    omega

/-! ## Commits -/

/-- Returning held slots makes each of them reusable once. -/
private theorem freeAll_spec (qs : List Quarantined) (held : ℕ → ℕ → ℕ) {stores : ℕ → SlotStore}
    (hp : ∀ c, (stores c).Partition fun i =>
      held c i + (qs.map fun q => (q.store, q.index)).count (c, i))
    (ho : ∀ c, (stores c).OnlyPool w) :
    (∀ c, (freeAll w stores qs c).Partition (held c)) ∧ ∀ c, (freeAll w stores qs c).OnlyPool w := by
  induction qs generalizing stores with
  | nil => exact ⟨fun c => (hp c).congr fun i => by simp, ho⟩
  | cons q qs ih =>
    refine @ih (Function.update stores q.store ((stores q.store).freeNow w q.index))
      (fun c => ?_) fun c => ?_
    · have hone : held q.store q.index +
          (((q :: qs).map fun q => (q.store, q.index)).count (q.store, q.index)) = 1 := by
        have hplace := (hp q.store).place q.index
        rw [List.map_cons, List.count_cons_self] at hplace ⊢
        split at hplace <;> omega
      by_cases hc : c = q.store
      · subst hc
        rw [Function.update_self]
        refine ((hp q.store).freeNow hone).congr fun i => ?_
        by_cases hi : i = q.index
        · subst hi
          rw [List.map_cons, List.count_cons_self] at hone
          rw [Function.update_self]
          omega
        · rw [Function.update_of_ne hi, List.map_cons,
            List.count_cons_of_ne fun heq => hi (Prod.ext_iff.mp heq).2.symm]
      · rw [Function.update_of_ne hc]
        refine (hp c).congr fun i => ?_
        rw [List.map_cons, List.count_cons_of_ne fun heq => hc (Prod.ext_iff.mp heq).1.symm]
    · by_cases hc : c = q.store
      · subst hc
        rw [Function.update_self]
        exact (ho q.store).freeNow q.index
      · rw [Function.update_of_ne hc]
        exact ho c

/-- The root a commit publishes reaches objects only. -/
private theorem Inv.image_kept (h : s.Inv w) {root : Option (ℕ × ℕ)}
    (hroot : ∀ r ∈ root, r ∈ s.objects) (ha : Image.Reaches ⟨root, s.objects⟩ a) :
    s.heldAt a.1 a.2 ≠ 0 :=
  heldAt_ne_zero_iff.mpr (.inl (h.closed.of_reaches hroot ha))

/-- A commit that gets as far as its header sync leaves the fence as it was. -/
theorem Inv.publish (h : s.Inv w) {root : Option (ℕ × ℕ)} (hroot : ∀ r ∈ root, r ∈ s.objects) :
    (s.publish root).Inv w := by
  obtain ⟨made, gone, hbook⟩ := h.booked
  refine
    { placed := h.placed
      onlyPool := h.onlyPool
      closed := h.closed
      kept := fun im him a ha => ?_
      current := h.current
      epoch_eq := h.epoch_eq
      booked := ⟨made, gone, hbook.gone_eq, hbook.live_ge, ?_⟩
      header := ⟨?_, ?_, fun r hr => ?_, fun im him => ?_⟩ }
  · rcases List.mem_cons.mp him with rfl | him
    · exact h.kept _ List.mem_cons_self a ha
    · rcases List.mem_cons.mp him with rfl | him
      · exact h.image_kept hroot ha
      · exact h.kept im (List.mem_cons_of_mem _ him) a ha
  · change (if s.isDirty then 0 else s.unsynced) ≤ made + gone
    split
    · exact Nat.zero_le _
    · exact hbook.unsynced_le
  -- the slot that holds the durable root is the other one
  · change (Function.update s.header.root _ _ (!s.checkpointer.nextSlot)).generation = _
    rw [Function.update_of_ne (Bool.not_ne_self _)]
    exact h.header.generation_eq
  · change (Function.update s.header.snapshot _ _ (!s.checkpointer.nextSlot)).generation = _
    rw [Function.update_of_ne (Bool.not_ne_self _)]
    exact h.header.stamped
  · change (Function.update s.header.root _ _ (!s.checkpointer.nextSlot)).rootIndex = _
    rw [Function.update_of_ne (Bool.not_ne_self _)]
    exact h.header.durable_root r hr
  · obtain rfl : ⟨root, s.objects⟩ = im := Option.some.inj him
    change Function.update s.header.root _ _ s.checkpointer.nextSlot = _
    rw [Function.update_self]
    rfl

/-- A commit that succeeds drains the whole quarantine. -/
theorem Inv.quarantine_advance (h : s.Inv w) (root : Option (ℕ × ℕ)) :
    (s.advance w root).quarantine = [] := by
  refine List.filter_eq_nil_iff.mpr fun q hq => ?_
  have hle : q.epoch ≤ s.checkpointer.epoch.toNat := (h.current q hq).le
  simpa using hle

private theorem Inv.stores_advance (h : s.Inv w) (root : Option (ℕ × ℕ)) :
    (s.advance w root).stores = freeAll w s.stores s.quarantine := by
  change freeAll w s.stores (s.quarantine.filter fun q => q.epoch ≤ s.checkpointer.epoch.toNat) = _
  congr 1
  refine List.filter_eq_self.mpr fun q hq => ?_
  simpa using (h.current q hq).le

/-- After a successful header sync, what was quarantined is free again. -/
theorem Inv.advance (h : s.Inv w) {root : Option (ℕ × ℕ)} (hroot : ∀ r ∈ root, r ∈ s.objects)
    (hsync : s.unsynced = 0) (hhead : s.header.root s.checkpointer.nextSlot = s.newRoot root)
    (hstamp : (s.header.snapshot s.checkpointer.nextSlot).generation = s.checkpointer.epoch) :
    (s.advance w root).Inv w := by
  obtain ⟨hplaced, honly⟩ := freeAll_spec s.quarantine
    (fun c i => if (c, i) ∈ s.objects then 1 else 0) h.placed h.onlyPool
  have hheld : ∀ c i, (s.advance w root).heldAt c i = if (c, i) ∈ s.objects then 1 else 0 := by
    intro c i
    rw [heldAt, quarantined, h.quarantine_advance root, List.map_nil, List.count_nil]
    rfl
  refine
    { placed := fun c => h.stores_advance root ▸ (hplaced c).congr (hheld c)
      onlyPool := fun c => h.stores_advance root ▸ honly c
      closed := h.closed
      kept := fun im him a ha => ?_
      current := fun q hq => ?_
      epoch_eq := rfl
      booked := ⟨0, 0, rfl, le_rfl, hsync.le⟩
      header := ⟨?_, ?_, fun r hr => ?_, fun im him => ?_⟩ }
  · obtain rfl := List.mem_singleton.mp him
    rw [hheld, if_pos (h.closed.of_reaches hroot ha)]
    exact Nat.one_ne_zero
  · rw [h.quarantine_advance root] at hq
    cases hq
  · change (s.header.root (!(!s.checkpointer.nextSlot))).generation = s.checkpointer.epoch
    rw [Bool.not_not, hhead]
    rfl
  · change (s.header.snapshot (!(!s.checkpointer.nextSlot))).generation = s.checkpointer.epoch
    rw [Bool.not_not, hstamp]
  · change (s.header.root (!(!s.checkpointer.nextSlot))).rootIndex = _
    rw [Bool.not_not, hhead]
    obtain rfl : root = some r := hr
    rfl
  · cases him

theorem Inv.commit (h : s.Inv w) {root : Option (ℕ × ℕ)} (hroot : ∀ r ∈ root, r ∈ s.objects)
    (sync : SyncResults) : (s.commit w root sync).2.Inv w := by
  unfold Workspace.commit
  split
  · exact h
  · split
    · refine (h.publish hroot).advance hroot ?_ ?_ ?_
      · obtain ⟨made, gone, hbook⟩ := h.booked
        change (if s.isDirty then 0 else s.unsynced) = 0
        split
        · rfl
        · rename_i hclean
          exact hbook.unsynced_eq_zero (Bool.eq_false_iff.mpr hclean)
      · exact Function.update_self ..
      · change (Function.update s.header.snapshot _ _ s.checkpointer.nextSlot).generation = _
        rw [Function.update_self]
        rfl
    · exact h.publish hroot

/-! ## Runs -/

private theorem Start.heldAt_eq (h : s.Start) (c i : ℕ) :
    s.heldAt c i = if (c, i) ∈ s.objects then 1 else 0 := by
  rw [heldAt, quarantined, h.quarantine_eq, List.map_nil, List.count_nil, Nat.add_zero]

/-- A store that was rebuilt has its objects in place and its pools empty. -/
private theorem restored_spec {chunkBits highWater : ℕ} {source : ChunkSource} {live : List ℕ}
    (hok : ((SlotStore.init chunkBits source).reserveRestored highWater).1 = .ok ())
    (hlive : ∀ i ∈ live, i < highWater) :
    (restoredStore chunkBits source highWater live).Partition (fun i => if i ∈ live then 1 else 0) ∧
      (restoredStore chunkBits source highWater live).localPool = fun _ => [] := by
  obtain ⟨hreg, hloc⟩ := reserveRestored_init_pools chunkBits source highWater
  refine ⟨partition_finalizeRestore hreg hloc ?_, hloc⟩
  rwa [highWater_reserveRestored hok]

theorem Start.inv (h : s.Start) : s.Inv w := by
  obtain ⟨slot, root, hsel, hindex, hzero, hcheck⟩ := h.selected
  have hroot : root = s.header.root slot ∧
      (s.header.snapshot slot).generation = root.generation := by
    obtain ⟨b, -, hb⟩ := List.exists_of_findSome?_eq_some hsel
    split at hb
    · rename_i heq
      cases hb
      exact ⟨rfl, heq⟩
    · cases hb
  obtain ⟨rfl, hstamp⟩ := hroot
  refine
    { placed := fun c => ?_
      onlyPool := fun c => ?_
      closed := h.closed
      kept := fun im him a ha => ?_
      current := fun q hq => ?_
      epoch_eq := by rw [hcheck]
      booked := ⟨0, 0, ?_, ?_, ?_⟩
      header := ?_ }
  · obtain ⟨chunkBits, source, highWater, live, hok, hstore, hlt, hmem⟩ := h.restored c
    rw [hstore]
    refine (restored_spec hok hlt).1.congr fun i => ?_
    simp only [h.heldAt_eq, hmem]
  · obtain ⟨chunkBits, source, highWater, live, hok, hstore, hlt, -⟩ := h.restored c
    rw [hstore]
    intro t _
    rw [(restored_spec hok hlt).2]
  · rw [h.attempted_eq, List.mem_singleton] at him
    subst him
    have hin : a ∈ s.objects := by
      refine Closed.of_reaches h.closed h.durable_root ?_
      rw [← h.durable_objects]
      exact ha
    rw [h.heldAt_eq, if_pos hin]
    exact Nat.one_ne_zero
  · rw [h.quarantine_eq] at hq
    cases hq
  · rw [h.quarantinedTotal_eq, hcheck]
  · rw [hcheck]
    exact Nat.zero_le _
  · exact h.unsynced_eq.le
  · -- an unwritten file publishes into the first slot, so the second stands for its root
    have hslots : (s.header.root !s.checkpointer.nextSlot).generation =
          (s.header.root slot).generation ∧
        (s.header.snapshot !s.checkpointer.nextSlot).generation =
          (s.header.root slot).generation ∧
        ∀ r ∈ s.durable.root, (s.header.root !s.checkpointer.nextSlot).rootIndex = .ofNat r.2 := by
      rw [hcheck]
      by_cases hg : (s.header.root slot).generation = 0
      · obtain ⟨hnone, hgen, hsnap⟩ := hzero hg
        simp only [hg, if_true, Bool.not_false, hgen, hsnap, hnone]
        exact ⟨trivial, trivial, fun r hr => by cases hr⟩
      · simp only [hg, if_false, Bool.not_not]
        exact ⟨trivial, hstamp, hindex⟩
    refine ⟨?_, ?_, hslots.2.2, fun im him => ?_⟩
    · rw [hslots.1, hcheck]
    · rw [hslots.2.1, hcheck]
    · rw [h.attempted_eq] at him
      cases him

theorem Inv.step (h : s.Inv w) {e : WorkspaceEvent} (hs : Workspace.step w e s = some s') :
    s'.Inv w := by
  cases e with
  | allocate c edges =>
    obtain ⟨hpre, heq⟩ := Option.ite_none_right_eq_some.mp hs
    cases heq
    exact h.allocate hpre.1 hpre.2
  | release slot =>
    obtain ⟨hpre, heq⟩ := Option.ite_none_right_eq_some.mp hs
    cases heq
    exact h.release hpre.1 hpre.2
  | commit root sync =>
    obtain ⟨hpre, heq⟩ := Option.ite_none_right_eq_some.mp hs
    cases heq
    exact h.commit hpre sync

/-- What a root on disk reaches is constructed or quarantined, in every reachable state. -/
theorem reachable_inv (h : (workspace w).Reachable Machine.anyEvent s) : s.Inv w :=
  h.invariant (fun _ hstart => hstart.inv) fun _ _ _ hinv _ hs => hinv.step hs

private theorem highWater_freeAll (qs : List Quarantined) (stores : ℕ → SlotStore) (c : ℕ) :
    (freeAll w stores qs c).highWater = (stores c).highWater := by
  induction qs generalizing stores with
  | nil => rfl
  | cons q qs ih =>
    refine (ih (Function.update stores q.store ((stores q.store).freeNow w q.index))).trans ?_
    by_cases hc : c = q.store
    · subst hc
      rw [Function.update_self, highWater_freeNow]
    · rw [Function.update_of_ne hc]

/-- No step lowers a high-water mark. -/
private theorem Inv.highWater_le_step (h : s.Inv w) {e : WorkspaceEvent}
    (hs : Workspace.step w e s = some s') (c : ℕ) :
    (s.stores c).highWater ≤ (s'.stores c).highWater := by
  cases e with
  | allocate d edges =>
    obtain ⟨-, heq⟩ := Option.ite_none_right_eq_some.mp hs
    have hle : (s.stores d).highWater ≤ ((s.stores d).allocate w).2.highWater := by
      cases ha : (s.stores d).allocate w with
      | mk r store =>
        cases r with
        | ok i => exact ((h.placed d).allocate_ok ha).2.2
        | error e => exact ((h.placed d).allocate_error ha).2.ge
    have hstores : s'.stores = Function.update s.stores d ((s.stores d).allocate w).2 := by
      cases heq
      unfold Workspace.allocate
      split <;> simp only [*, setStore]
    rw [hstores]
    by_cases hc : c = d
    · subst hc
      rwa [Function.update_self]
    · rw [Function.update_of_ne hc]
  | release slot =>
    obtain ⟨-, heq⟩ := Option.ite_none_right_eq_some.mp hs
    cases heq
    change _ ≤ (Function.update s.stores slot.1 (s.stores slot.1).dropLive c).highWater
    by_cases hc : c = slot.1
    · subst hc
      rw [Function.update_self]
      exact le_rfl
    · rw [Function.update_of_ne hc]
  | commit root sync =>
    obtain ⟨-, heq⟩ := Option.ite_none_right_eq_some.mp hs
    cases heq
    unfold Workspace.commit
    split
    · exact le_rfl
    · split
      · exact (highWater_freeAll _ _ c).ge
      · exact le_rfl

private theorem Inv.highWater_le_run {es : List WorkspaceEvent} (h : s.Inv w)
    (hrun : (workspace w).run es s = some s') (c : ℕ) :
    (s.stores c).highWater ≤ (s'.stores c).highWater := by
  induction es generalizing s with
  | nil =>
    cases hrun
    exact le_rfl
  | cons e es ih =>
    obtain ⟨t, ht, hrun⟩ := Option.bind_eq_some_iff.mp hrun
    exact (h.highWater_le_step ht c).trans (ih (h.step ht) hrun)

/-- A commit that returns success leaves every slot an object or allocatable. -/
private theorem Inv.handsOut_commit (h : s.Inv w) {root : Option (ℕ × ℕ)} {sync : SyncResults}
    (hroot : ∀ r ∈ root, r ∈ s.objects) (hok : (s.commit w root sync).1 = true) {c i : ℕ}
    (hi : i < ((s.commit w root sync).2.stores c).highWater) (hm : (c, i) ∉ s.objects) :
    ((s.commit w root sync).2.stores c).HandsOut w i := by
  refine (h.commit hroot sync).handsOut hi ?_
  by_contra hheld
  -- success is the branch that advanced, and that emptied the quarantine
  have hleft : (s.commit w root sync).2.quarantine = [] ∧
      (s.commit w root sync).2.objects = s.objects := by
    unfold Workspace.commit at hok ⊢
    split at hok
    · cases hok
    · rename_i hsync
      rw [if_neg hsync]
      split at hok
      · rename_i hhead
        simp only [hhead, if_true]
        exact ⟨(h.publish hroot).quarantine_advance root, rfl⟩
      · cases hok
  rcases heldAt_ne_zero_iff.mp hheld with hobj | hquar
  · exact hm (hleft.2 ▸ hobj)
  · rw [quarantined, hleft.1] at hquar
    cases hquar

end Workspace

open Workspace

variable {w : ℕ} {s : Workspace}

/-- In every run of allocations, releases and commits whose syncs may fail: no slot that is handed
out is reached by the last durable root or by one whose publication was attempted since; a slot
that was released is, after the next commit that returns success, handed out again by
repeated allocation, if it was not before; and a scene that is not dirty has nothing that the last
data sync did not write. -/
theorem fenced_slots_safe (h : (workspace w).Reachable Machine.anyEvent s) :
    (∀ c i store, (s.stores c).allocate w = (.ok i, store) →
      ∀ im ∈ s.durable :: s.attempted, ¬ im.Reaches (c, i)) ∧
    (∀ slot es s', (workspace w).run (.release slot :: es) s = some s' →
      ∀ root sync, (∀ r ∈ root, r ∈ s'.objects) → (s'.commit w root sync).1 = true →
        slot ∈ s'.objects ∨ ((s'.commit w root sync).2.stores slot.1).HandsOut w slot.2) ∧
    (s.isDirty = false → s.unsynced = 0) := by
  have hinv := reachable_inv h
  refine ⟨fun c i store ha im him => hinv.allocate_not_reached ha him, ?_, fun hclean => ?_⟩
  · intro slot es s' hrun root sync hroot hok
    have hinv' := reachable_inv
      (Machine.reachable_of_run h (Machine.runAllowed_anyEvent _ _) hrun)
    by_cases hm : slot ∈ s'.objects
    · exact .inl hm
    · refine .inr (hinv'.handsOut_commit hroot hok ?_ hm)
      obtain ⟨t, ht, -⟩ := Option.bind_eq_some_iff.mp hrun
      have hslot : slot ∈ s.objects := (Option.ite_none_right_eq_some.mp ht).1.1
      have hcommit : Workspace.step w (.commit root sync) s' =
          some (s'.commit w root sync).2 := if_pos hroot
      calc slot.2 < (s.stores slot.1).highWater :=
            (hinv.placed slot.1).lt_highWater fun h0 =>
              heldAt_ne_zero_iff.mpr (.inl hslot) (Nat.add_eq_zero_iff.mp h0).2
        _ ≤ (s'.stores slot.1).highWater := hinv.highWater_le_run hrun slot.1
        _ ≤ _ := hinv'.highWater_le_step hcommit slot.1
  · obtain ⟨made, gone, hbook⟩ := hinv.booked
    exact hbook.unsynced_eq_zero hclean

/-- A workspace file that was just created, with one size class of four-slot chunks. -/
def createdWorkspace : Workspace where
  classes := {0}
  stores _ := restoredStore 2 ⟨fun _ => none, 0⟩ 0 []
  objects := ∅
  quarantine := []
  quarantinedTotal := 0
  header := {}
  checkpointer := ⟨0, 0, 1, false, 0, 0, 0⟩
  durable := ⟨none, ∅⟩
  attempted := []
  unsynced := 0

theorem start_createdWorkspace : createdWorkspace.Start where
  mem_classes a ha := absurd ha (Finmap.notMem_empty)
  restored c := ⟨2, ⟨fun _ => none, 0⟩, 0, [], rfl, rfl, by simp,
    fun i => by simp [createdWorkspace, Finmap.notMem_empty]⟩
  closed a edges h := by simp [createdWorkspace, Finmap.lookup_empty] at h
  durable_objects := rfl
  durable_root r hr := by cases hr
  attempted_eq := rfl
  quarantine_eq := rfl
  quarantinedTotal_eq := rfl
  unsynced_eq := rfl
  selected := by
    refine ⟨false, {}, rfl, fun r hr => ?_, fun _ => ⟨rfl, rfl, rfl⟩, rfl⟩
    cases hr

/-- Two objects are made and committed, the root is released, and a commit fails at the header
sync: its slot waits, and both roots may be on disk. -/
theorem fenced_slots_safe_failedCommit :
    ∃ s, (workspace 0).Reachable Machine.anyEvent s ∧
      (s.quarantine.length = 1 ∧ s.attempted.length = 1 ∧ s.durable.root = some (0, 1)) ∧
      (∀ c i store, (s.stores c).allocate 0 = (.ok i, store) →
        ∀ im ∈ s.durable :: s.attempted, ¬ im.Reaches (c, i)) ∧
      (s.isDirty = false → s.unsynced = 0) := by
  obtain ⟨s, h, hp⟩ := Machine.exists_reachable Machine.anyEvent
    [.allocate 0 [], .allocate 0 [(0, 0)], .commit (some (0, 1)) ⟨true, true⟩, .release (0, 1),
      .commit (some (0, 0)) ⟨true, false⟩]
    (fun s : Workspace => decide (s.quarantine.length = 1 ∧ s.attempted.length = 1 ∧
      s.durable.root = some (0, 1)))
    (show (workspace 0).start createdWorkspace from start_createdWorkspace)
    (Machine.runAllowed_anyEvent _ _) (by decide +kernel)
  obtain ⟨hreached, -, hclean⟩ := fenced_slots_safe h
  exact ⟨s, h, of_decide_eq_true hp, hreached, hclean⟩

end ArbitraryComposer
