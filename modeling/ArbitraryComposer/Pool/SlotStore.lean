import Mathlib.Algebra.BigOperators.Group.List.Basic
import Mathlib.Algebra.GroupWithZero.Nat
import Mathlib.Data.Finset.Insert

/-!
# Slot Store

One size class of the slab allocator: slots are handed out by the writer from a thread-local
free pool, then from the shared global pool, then by growing the high-water mark; any thread
returns slots to its own pool, which spills a whole batch to the global pool when it fills.

Slot indices and threads are natural numbers. Free pools are stacks. A vector whose back is the top
is modelled by the list that starts at the back, so `push_back` is `::` and the batch moves of the
source keep their order.

## Main definitions

- `SlotStore`: free pools, high-water mark and chunk directory of one size class.
- `SlotStore.allocate`, `SlotStore.freeNow`: hand out a slot and take one back.
- `SlotStore.reserveRestored`, `SlotStore.finalizeRestore`: rebuild a store on reopen.
- `SlotStore.Partition`: every slot below the high-water mark has exactly one place.

## Main results

- `SlotStore.Partition.allocate_ok`: an allocated slot was neither free nor held.
- `SlotStore.Partition.freeNow`: returning a held slot keeps the partition.
- `SlotStore.partition_finalizeRestore`: the free list after a reopen.
-/

namespace ArbitraryComposer

/-- Errors of the allocator. -/
inductive PoolError where
  /-- The backing chunk source refused to grow. -/
  | outOfMemory
  /-- The slot index space of a store, or a count, is exhausted. -/
  | capacityExhausted
  deriving DecidableEq, Repr

/-- The backing of slab chunks: which `acquire` calls it refuses. -/
structure ChunkSource where
  /-- The error returned by the `n`-th `acquire`, if that one is refused. -/
  refuses : ℕ → Option PoolError
  /-- The number of `acquire` calls so far. -/
  acquired : ℕ

/-- Ask for one more chunk. -/
def ChunkSource.acquire (c : ChunkSource) : Except PoolError Unit × ChunkSource :=
  let c' := { c with acquired := c.acquired + 1 }
  match c.refuses c.acquired with
  | some e => (.error e, c')
  | none => (.ok (), c')

/-- `SlabDirectory::max_chunks`. -/
def maxChunks : ℕ := 2 ^ 20

/-- `SlotStore::k_free_pool_batch`. -/
def freePoolBatch : ℕ := 32

/-- `default_chunk_bits`: the largest exponent up to 12 whose slots fit a 64 KiB chunk. -/
def defaultChunkBits (slotStride : ℕ) : ℕ :=
  let slots := 64 * 1024 / (if slotStride = 0 then 1 else slotStride)
  ((List.range 12).takeWhile fun bits => 2 ^ (bits + 1) ≤ slots).length

/-- `k_max_count`: the largest value of a 32-bit count. -/
def maxCount : ℕ := 2 ^ 32 - 1

/-- One size class of the slab allocator. -/
structure SlotStore where
  /-- Slots per chunk, as an exponent of two. -/
  chunkBits : ℕ
  /-- Where chunks come from. -/
  source : ChunkSource
  /-- The chunk numbers published in the directory. -/
  directory : Finset ℕ
  /-- The shared global free pool, top first. -/
  free : List ℕ
  /-- The threads that own a local pool, in the order they registered. -/
  registered : List ℕ
  /-- The local free pool of each thread, top first. -/
  localPool : ℕ → List ℕ
  /-- One past the highest slot ever handed out. -/
  highWater : ℕ
  /-- The number of live slots. -/
  slotsLive : ℕ

namespace SlotStore

/-- A store that has handed out nothing. -/
def init (chunkBits : ℕ) (source : ChunkSource) : SlotStore where
  chunkBits := chunkBits
  source := source
  directory := ∅
  free := []
  registered := []
  localPool := fun _ => []
  highWater := 0
  slotsLive := 0

/-- `SlotStore::local_pool`: register the pool of `t` on first touch. -/
def touchLocal (s : SlotStore) (t : ℕ) : SlotStore :=
  if t ∈ s.registered then s else { s with registered := s.registered ++ [t] }

/-- Replace the local pool of `t`. -/
def setLocal (s : SlotStore) (t : ℕ) (pool : List ℕ) : SlotStore :=
  { s with localPool := Function.update s.localPool t pool }

/-- `SlotStore::push_free`: push onto the pool of `t`, spilling it when it fills a batch. -/
def pushFree (s : SlotStore) (t : ℕ) (index : ℕ) : SlotStore :=
  let s := s.touchLocal t
  let pool := index :: s.localPool t
  if freePoolBatch ≤ pool.length then
    { s.setLocal t [] with free := pool ++ s.free }
  else
    s.setLocal t pool

/-- The unlocked half of `push_free`: push onto the pool of `t`. -/
def pushLocal (s : SlotStore) (t : ℕ) (index : ℕ) : SlotStore :=
  let s := s.touchLocal t
  s.setLocal t (index :: s.localPool t)

/-- The locked half of `push_free`: move the pool of `t` to the global pool. -/
def spillLocal (s : SlotStore) (t : ℕ) : SlotStore :=
  { s.setLocal t [] with free := s.localPool t ++ s.free }

/-- `SlotStore::refill_from_global`: move up to a batch from the global pool into that of
`t`, which the caller found empty. -/
def refillFromGlobal (s : SlotStore) (t : ℕ) : SlotStore :=
  { s.setLocal t (s.free.take freePoolBatch ++ s.localPool t) with
    free := s.free.drop freePoolBatch }

/-- Grow the high-water mark by one slot, acquiring a chunk at a chunk boundary. -/
def grow (s : SlotStore) : Except PoolError ℕ × SlotStore :=
  let index := s.highWater
  let chunkNumber := index >>> s.chunkBits
  let advance (s : SlotStore) : SlotStore :=
    { s with highWater := s.highWater + 1, slotsLive := s.slotsLive + 1 }
  if index % 2 ^ s.chunkBits = 0 then
    if maxChunks ≤ chunkNumber then
      (.error .capacityExhausted, s)
    else
      match s.source.acquire with
      | (.error e, source) => (.error e, { s with source := source })
      | (.ok (), source) =>
        (.ok index,
          advance { s with source := source, directory := insert chunkNumber s.directory })
  else
    (.ok index, advance s)

/-- The pool of `t` made ready for an allocation: refilled from the global pool when dry. -/
def readyLocal (s : SlotStore) (t : ℕ) : SlotStore :=
  let s := s.touchLocal t
  if (s.localPool t).isEmpty then s.refillFromGlobal t else s

/-- `SlotStore::allocate` on thread `t`. -/
def allocate (s : SlotStore) (t : ℕ) : Except PoolError ℕ × SlotStore :=
  let s := s.readyLocal t
  match s.localPool t with
  | index :: pool => (.ok index, { s.setLocal t pool with slotsLive := s.slotsLive + 1 })
  | [] => s.grow

/-- `SlotStore::free_now` on thread `t`: the un-fenced return of a slot. -/
def freeNow (s : SlotStore) (t : ℕ) (index : ℕ) : SlotStore :=
  s.pushFree t index

/-- The accounting half of `SlotStore::release`, before the slot goes to a fence or a pool. -/
def dropLive (s : SlotStore) : SlotStore :=
  { s with slotsLive := s.slotsLive - 1 }

/-- `SlotStore::reusable_slots`: every slot a later `allocate` could hand out. -/
def reusableSlots (s : SlotStore) : List ℕ :=
  s.free ++ s.registered.flatMap s.localPool

/-- Publish the chunks `n`, `n + 1`, …, skipping those already published. -/
def bindChunks (s : SlotStore) : List ℕ → Except PoolError Unit × SlotStore
  | [] => (.ok (), s)
  | n :: ns =>
    if n ∈ s.directory then
      bindChunks s ns
    else if maxChunks ≤ n then
      (.error .capacityExhausted, s)
    else
      match s.source.acquire with
      | (.error e, source) => (.error e, { s with source := source })
      | (.ok (), source) =>
        bindChunks { s with source := source, directory := insert n s.directory } ns

/-- `SlotStore::reserve_restored`. -/
def reserveRestored (s : SlotStore) (highWater : ℕ) : Except PoolError Unit × SlotStore :=
  if highWater = 0 then
    (.ok (), { s with highWater := 0 })
  else
    let chunksNeeded := (highWater - 1) >>> s.chunkBits + 1
    match s.bindChunks (List.range chunksNeeded) with
    | (.error e, s) => (.error e, s)
    | (.ok (), s) => (.ok (), { s with highWater := highWater, slotsLive := 0 })

/-- `SlotStore::finalize_restore`: the free list becomes the complement of `live` below the
high-water mark, lowest slot on top. -/
def finalizeRestore (s : SlotStore) (live : List ℕ) : SlotStore :=
  { s with
    free := (List.range s.highWater).filter (· ∉ live)
    slotsLive := live.length }

/-! ## Places of a slot -/

/-- The number of places in which a slot waits for reuse. -/
def freeCount (s : SlotStore) (i : ℕ) : ℕ := s.reusableSlots.count i

/-- Every slot below the high-water mark is either reusable or held by `held`, in exactly one
place, and no slot above it has a place; the pools of unregistered threads are empty. -/
structure Partition (s : SlotStore) (held : ℕ → ℕ) : Prop where
  /-- Exactly one place below the mark, none above it. -/
  place : ∀ i, s.freeCount i + held i = if i < s.highWater then 1 else 0
  /-- Each pool is registered once. -/
  registered_nodup : s.registered.Nodup
  /-- A thread that never touched the store has an empty pool. -/
  localPool_eq_nil : ∀ t ∉ s.registered, s.localPool t = []

variable {s : SlotStore} {t : ℕ} {held : ℕ → ℕ}

theorem Partition.congr {held' : ℕ → ℕ} (h : s.Partition held) (hh : ∀ i, held' i = held i) :
    s.Partition held' :=
  ⟨fun i => (hh i).symm ▸ h.place i, h.registered_nodup, h.localPool_eq_nil⟩

theorem freeCount_eq (s : SlotStore) (i : ℕ) :
    s.freeCount i = s.free.count i + (s.registered.map fun u => (s.localPool u).count i).sum := by
  unfold freeCount reusableSlots
  rw [List.count_append, List.count_flatMap]
  rfl

/-- The pools of the other threads are untouched by an update of one. -/
private theorem sum_map_update {r : List ℕ} (f : ℕ → List ℕ)
    (ht : t ∈ r) (hr : r.Nodup) (pool : List ℕ) (i : ℕ) :
    (r.map fun u => (Function.update f t pool u).count i).sum + (f t).count i =
      (r.map fun u => (f u).count i).sum + pool.count i := by
  induction r with
  | nil => simp at ht
  | cons u r ih =>
    obtain ⟨hur, hr⟩ := List.nodup_cons.mp hr
    rcases List.mem_cons.mp ht with rfl | ht
    · have hrest : (r.map fun u => (Function.update f t pool u).count i) =
          r.map fun u => (f u).count i := by
        refine List.map_congr_left fun u hu => ?_
        rw [Function.update_of_ne (ne_of_mem_of_not_mem hu hur)]
      simp only [List.map_cons, List.sum_cons, Function.update_self, hrest]
      omega
    · have htu : u ≠ t := fun h => hur (h ▸ ht)
      simp only [List.map_cons, List.sum_cons, Function.update_of_ne htu]
      have := ih ht hr
      omega

/-- Moving slots between a registered pool, the global pool and the outside. -/
private theorem freeCount_setLocal (ht : t ∈ s.registered) (hr : s.registered.Nodup)
    (pool free : List ℕ) (i : ℕ) :
    freeCount { s.setLocal t pool with free := free } i + (s.localPool t).count i +
        s.free.count i =
      s.freeCount i + pool.count i + free.count i := by
  have := sum_map_update s.localPool ht hr pool i
  simp only [freeCount_eq, setLocal]
  omega

theorem mem_registered_touchLocal : t ∈ (s.touchLocal t).registered := by
  unfold touchLocal
  split <;> simp [*]

theorem Partition.touchLocal (h : s.Partition held) (t : ℕ) :
    (s.touchLocal t).Partition held := by
  unfold SlotStore.touchLocal
  split
  · exact h
  · rename_i ht
    refine ⟨fun i => ?_, ?_, fun u hu => ?_⟩
    · have := h.place i
      rw [freeCount_eq] at this ⊢
      simpa [h.localPool_eq_nil t ht] using this
    · simp only [List.nodup_append, h.registered_nodup, List.nodup_singleton, true_and]
      intro u hu v hv
      rw [List.mem_singleton.mp hv]
      exact ne_of_mem_of_not_mem hu ht
    · exact h.localPool_eq_nil u fun hu' => hu (List.mem_append_left _ hu')

/-- A store that differs in its pools only, with the places of every slot accounted for. -/
private theorem Partition.of_setLocal (h : s.Partition held) (ht : t ∈ s.registered)
    {held' : ℕ → ℕ} {pool : List ℕ} (free : List ℕ) (live : ℕ)
    (hplace : ∀ i, pool.count i + free.count i + held' i =
      (s.localPool t).count i + s.free.count i + held i) :
    Partition { s.setLocal t pool with free := free, slotsLive := live } held' where
  place i := by
    have h1 := h.place i
    have h2 := freeCount_setLocal ht h.registered_nodup pool free i
    have h3 := hplace i
    change freeCount { s.setLocal t pool with free := free } i + held' i =
      if i < s.highWater then 1 else 0
    omega
  registered_nodup := h.registered_nodup
  localPool_eq_nil u hu := by
    have hut : u ≠ t := fun heq => hu (heq ▸ ht)
    change Function.update s.localPool t pool u = []
    rw [Function.update_of_ne hut]
    exact h.localPool_eq_nil u hu

/-- A slot held once that is pushed onto a pool is reusable. -/
theorem Partition.pushLocal {index : ℕ} (h : s.Partition held) (hi : held index = 1) :
    (s.pushLocal t index).Partition (Function.update held index 0) := by
  have hplace : ∀ i, (if i = index then 1 else 0) + Function.update held index 0 i = held i := by
    intro i
    by_cases hii : i = index
    · subst hii; simp [hi]
    · simp [hii]
  have h' := h.touchLocal t
  refine h'.of_setLocal mem_registered_touchLocal _ (s.touchLocal t).slotsLive fun i => ?_
  have := hplace i
  rw [List.count_cons]
  simp only [beq_iff_eq, eq_comm (a := index)]
  omega

/-- Spilling a pool moves its slots. -/
theorem Partition.spillLocal (h : s.Partition held) (ht : t ∈ s.registered) :
    (s.spillLocal t).Partition held := by
  refine h.of_setLocal ht _ s.slotsLive fun i => ?_
  rw [List.count_append, List.count_nil]
  omega

/-- The two halves of `push_free`. -/
theorem pushFree_eq (s : SlotStore) (t index : ℕ) : s.pushFree t index =
    if freePoolBatch ≤ ((s.pushLocal t index).localPool t).length then
      (s.pushLocal t index).spillLocal t
    else s.pushLocal t index := by
  have hpool : (s.pushLocal t index).localPool t = index :: (s.touchLocal t).localPool t :=
    Function.update_self ..
  rw [hpool]
  unfold pushFree SlotStore.spillLocal
  rw [hpool]
  simp only [SlotStore.pushLocal, setLocal, Function.update_idem]

/-- Returning a slot held once makes it reusable. -/
theorem Partition.freeNow {index : ℕ} (h : s.Partition held)
    (hi : held index = 1) :
    (s.freeNow t index).Partition (Function.update held index 0) := by
  unfold SlotStore.freeNow
  rw [pushFree_eq]
  split
  · exact (h.pushLocal hi).spillLocal mem_registered_touchLocal
  · exact h.pushLocal hi

theorem Partition.refillFromGlobal (h : s.Partition held) (ht : t ∈ s.registered) :
    (s.refillFromGlobal t).Partition held := by
  refine h.of_setLocal ht _ s.slotsLive fun i => ?_
  have := congrArg (List.count i) (List.take_append_drop freePoolBatch s.free)
  rw [List.count_append] at this ⊢
  omega

/-- A slot the partition holds, or one that is reusable, lies below the high-water mark. -/
theorem Partition.lt_highWater {i : ℕ} (h : s.Partition held)
    (hi : s.freeCount i + held i ≠ 0) : i < s.highWater := by
  by_contra hlt
  have := h.place i
  rw [if_neg hlt] at this
  exact hi this

theorem Partition.grow_ok {index : ℕ} {s' : SlotStore} (h : s.Partition held)
    (hg : s.grow = (.ok index, s')) :
    held index = 0 ∧ s'.Partition (Function.update held index 1) ∧
      s'.highWater = s.highWater + 1 ∧ index = s.highWater := by
  -- both branches that succeed hand out the mark and advance it
  obtain ⟨hidx, hhw, hfree, hreg, hloc⟩ : index = s.highWater ∧ s'.highWater = s.highWater + 1 ∧
      s'.free = s.free ∧ s'.registered = s.registered ∧ s'.localPool = s.localPool := by
    simp only [grow] at hg
    split at hg
    · split at hg
      · simp at hg
      · split at hg
        · simp at hg
        · cases hg; simp
    · cases hg; simp
  have hnew := h.place index
  rw [if_neg (by omega)] at hnew
  refine ⟨by omega, ⟨fun i => ?_, hreg ▸ h.registered_nodup, fun u hu => ?_⟩, hhw, hidx⟩
  · have hi := h.place i
    have hcount : s'.freeCount i = s.freeCount i := by
      rw [freeCount_eq, freeCount_eq, hfree, hreg, hloc]
    rw [hcount, hhw]
    by_cases hii : i = index
    · subst hii
      rw [Function.update_self, if_pos (by omega)]
      omega
    · rw [Function.update_of_ne hii]
      split at hi <;> split <;> omega
  · rw [hloc]
    exact h.localPool_eq_nil u (hreg ▸ hu)

theorem Partition.grow_error {e : PoolError} {s' : SlotStore} (h : s.Partition held)
    (hg : s.grow = (.error e, s')) : s'.Partition held ∧ s'.highWater = s.highWater := by
  simp only [grow] at hg
  split at hg
  · split at hg
    · cases hg; exact ⟨h, rfl⟩
    · split at hg
      · cases hg; exact ⟨⟨h.place, h.registered_nodup, h.localPool_eq_nil⟩, rfl⟩
      · cases hg
  · cases hg

theorem Partition.readyLocal (h : s.Partition held) (t : ℕ) :
    (s.readyLocal t).Partition held := by
  unfold SlotStore.readyLocal
  simp only
  split
  · exact (h.touchLocal t).refillFromGlobal mem_registered_touchLocal
  · exact h.touchLocal t

@[simp]
theorem highWater_readyLocal : (s.readyLocal t).highWater = s.highWater := by
  have hhw : (s.touchLocal t).highWater = s.highWater := by unfold touchLocal; split <;> rfl
  unfold readyLocal
  simp only
  split <;> exact hhw

theorem mem_registered_readyLocal : t ∈ (s.readyLocal t).registered := by
  have ht : t ∈ (s.touchLocal t).registered := mem_registered_touchLocal
  unfold readyLocal
  simp only
  split <;> exact ht

/-- An allocated slot was neither reusable elsewhere nor held, and is now held once. -/
theorem Partition.allocate_ok {index : ℕ} {s' : SlotStore} (h : s.Partition held)
    (ha : s.allocate t = (.ok index, s')) :
    held index = 0 ∧ s'.Partition (Function.update held index 1) ∧
      s.highWater ≤ s'.highWater := by
  have hr := h.readyLocal t
  have hreg : t ∈ (s.readyLocal t).registered := mem_registered_readyLocal
  have hhw : (s.readyLocal t).highWater = s.highWater := highWater_readyLocal
  unfold allocate at ha
  simp only at ha
  generalize s.readyLocal t = r at ha hr hreg hhw
  split at ha
  · rename_i i pool heq
    cases ha
    have hi := hr.place index
    have hpos : 0 < r.freeCount index := by
      refine List.count_pos_iff.mpr (List.mem_append_right _ (List.mem_flatMap.mpr ⟨t, hreg, ?_⟩))
      rw [heq]
      exact List.mem_cons_self
    have hheld : held index = 0 := by split at hi <;> omega
    refine ⟨hheld, hr.of_setLocal hreg r.free _ fun j => ?_, le_of_eq hhw.symm⟩
    rw [heq, List.count_cons]
    by_cases hj : j = index
    · subst hj
      simp only [Function.update_self, BEq.rfl, if_true]
      omega
    · simp only [Function.update_of_ne hj, beq_iff_eq, Ne.symm hj, if_false]
      omega
  · obtain ⟨h1, h2, h3, _⟩ := hr.grow_ok ha
    exact ⟨h1, h2, by omega⟩

/-- A refused allocation changes no place of any slot. -/
theorem Partition.allocate_error {e : PoolError} {s' : SlotStore} (h : s.Partition held)
    (ha : s.allocate t = (.error e, s')) : s'.Partition held ∧ s'.highWater = s.highWater := by
  have hr := h.readyLocal t
  unfold allocate at ha
  simp only at ha
  split at ha
  · cases ha
  · obtain ⟨h1, h2⟩ := hr.grow_error ha
    exact ⟨h1, h2.trans highWater_readyLocal⟩

@[simp]
theorem free_grow : s.grow.2.free = s.free := by
  unfold grow
  dsimp only
  split
  · split
    · rfl
    · split <;> rfl
  · rfl

@[simp]
theorem localPool_grow : s.grow.2.localPool = s.localPool := by
  unfold grow
  dsimp only
  split
  · split
    · rfl
    · split <;> rfl
  · rfl

/-- A refused growth leaves the mark alone. -/
theorem highWater_grow_error {e : PoolError} (h : s.grow.1 = .error e) :
    s.grow.2.highWater = s.highWater := by
  revert h
  unfold grow
  dsimp only
  split
  · split
    · exact fun _ => rfl
    · split
      · exact fun _ => rfl
      · nofun
  · nofun

/-- A source that never refuses lets a store grow into any chunk it may publish. -/
theorem grow_of_unrefused (hsource : ∀ n, s.source.refuses n = none)
    (hchunk : s.highWater >>> s.chunkBits < maxChunks) :
    s.grow.1 = .ok s.highWater ∧ s.grow.2.highWater = s.highWater + 1 ∧
      s.grow.2.chunkBits = s.chunkBits ∧ s.grow.2.source.refuses = s.source.refuses := by
  have hacquire : s.source.acquire =
      (.ok (), { s.source with acquired := s.source.acquired + 1 }) := by
    unfold ChunkSource.acquire
    rw [hsource]
  unfold grow
  dsimp only
  rw [if_neg (Nat.not_le.mpr hchunk), hacquire]
  split <;> exact ⟨rfl, rfl, rfl, rfl⟩

/-- Growing moves the mark by one at most. -/
theorem highWater_grow_le : s.grow.2.highWater ≤ s.highWater + 1 := by
  unfold grow
  simp only
  split
  · split
    · exact Nat.le_succ _
    · split
      · exact Nat.le_succ _
      · exact Nat.le_refl _
  · exact Nat.le_refl _

/-- An allocation moves the mark by one at most. -/
theorem highWater_allocate_le : (s.allocate t).2.highWater ≤ s.highWater + 1 := by
  have hhw : (s.readyLocal t).highWater = s.highWater := highWater_readyLocal
  unfold allocate
  simp only
  split
  · rw [← hhw]
    exact Nat.le_succ _
  · rw [← hhw]
    exact highWater_grow_le

theorem Partition.dropLive (h : s.Partition held) : s.dropLive.Partition held :=
  ⟨h.place, h.registered_nodup, h.localPool_eq_nil⟩

theorem partition_init (chunkBits : ℕ) (source : ChunkSource) :
    (init chunkBits source).Partition fun _ => 0 :=
  ⟨fun _ => rfl, List.nodup_nil, fun _ _ => rfl⟩

@[simp]
theorem slotsLive_readyLocal : (s.readyLocal t).slotsLive = s.slotsLive := by
  have hlive : (s.touchLocal t).slotsLive = s.slotsLive := by unfold touchLocal; split <;> rfl
  unfold readyLocal
  simp only
  split <;> exact hlive

/-- An allocation that succeeds makes one more slot live. -/
theorem slotsLive_allocate : (s.allocate t).2.slotsLive =
    match (s.allocate t).1 with
    | .ok _ => s.slotsLive + 1
    | .error _ => s.slotsLive := by
  have hlive : (s.readyLocal t).slotsLive = s.slotsLive := slotsLive_readyLocal
  unfold allocate
  simp only
  generalize s.readyLocal t = r at hlive ⊢
  rw [← hlive]
  split
  · rfl
  · unfold grow
    simp only
    split
    · split
      · rfl
      · split <;> rfl
    · rfl

@[simp]
theorem highWater_touchLocal : (s.touchLocal t).highWater = s.highWater := by
  unfold touchLocal
  split <;> rfl

@[simp]
theorem highWater_pushLocal (index : ℕ) : (s.pushLocal t index).highWater = s.highWater :=
  highWater_touchLocal

theorem highWater_freeNow (index : ℕ) : (s.freeNow t index).highWater = s.highWater := by
  unfold freeNow
  rw [pushFree_eq]
  split <;> exact highWater_pushLocal index

/-! ## Reopening -/

/-- Binding chunks touches no pool and no mark. -/
private theorem bindChunks_pools (ns : List ℕ) : ∀ s : SlotStore,
    (s.bindChunks ns).2.free = s.free ∧ (s.bindChunks ns).2.registered = s.registered ∧
      (s.bindChunks ns).2.localPool = s.localPool ∧
      (s.bindChunks ns).2.highWater = s.highWater := by
  induction ns with
  | nil => exact fun s => ⟨rfl, rfl, rfl, rfl⟩
  | cons n ns ih =>
    intro s
    unfold bindChunks
    split
    · exact ih s
    · split
      · exact ⟨rfl, rfl, rfl, rfl⟩
      · split
        · exact ⟨rfl, rfl, rfl, rfl⟩
        · exact ih _

/-- Restoring a mark touches no pool. -/
theorem reserveRestored_pools (s : SlotStore) (highWater : ℕ) :
    (s.reserveRestored highWater).2.free = s.free ∧
      (s.reserveRestored highWater).2.registered = s.registered ∧
      (s.reserveRestored highWater).2.localPool = s.localPool := by
  unfold reserveRestored
  split
  · exact ⟨rfl, rfl, rfl⟩
  · obtain ⟨hfree, hreg, hloc, -⟩ :=
      bindChunks_pools (List.range ((highWater - 1) >>> s.chunkBits + 1)) s
    dsimp only
    split
    · rename_i heq
      rw [heq] at hfree hreg hloc
      exact ⟨hfree, hreg, hloc⟩
    · rename_i heq
      rw [heq] at hfree hreg hloc
      exact ⟨hfree, hreg, hloc⟩

/-- A store with its chunks bound again has empty local pools. -/
theorem reserveRestored_init_pools (chunkBits : ℕ) (source : ChunkSource) (highWater : ℕ) :
    ((init chunkBits source).reserveRestored highWater).2.registered = [] ∧
      ((init chunkBits source).reserveRestored highWater).2.localPool = fun _ => [] := by
  obtain ⟨-, hreg, hloc⟩ := reserveRestored_pools (init chunkBits source) highWater
  exact ⟨hreg, hloc⟩

/-- Binding that fails leaves the mark alone. -/
theorem highWater_reserveRestored_error {highWater : ℕ} {e : PoolError}
    (h : (s.reserveRestored highWater).1 = .error e) :
    (s.reserveRestored highWater).2.highWater = s.highWater := by
  unfold reserveRestored at h ⊢
  split at h
  · cases h
  · rename_i h0
    rw [if_neg h0]
    obtain ⟨-, -, -, hmark⟩ :=
      bindChunks_pools (List.range ((highWater - 1) >>> s.chunkBits + 1)) s
    dsimp only at h ⊢
    split at h
    · rename_i heq
      rw [heq] at hmark
      exact hmark
    · cases h

/-- Binding that succeeds restores the mark. -/
theorem highWater_reserveRestored {highWater : ℕ}
    (h : (s.reserveRestored highWater).1 = .ok ()) :
    (s.reserveRestored highWater).2.highWater = highWater := by
  unfold reserveRestored at h ⊢
  split at h
  · rename_i h0
    rw [if_pos h0, h0]
  · rename_i h0
    rw [if_neg h0]
    simp only at h ⊢
    split at h
    · cases h
    · rfl

/-- With dry local pools, the free list becomes the complement of the live set below the
high-water mark. -/
theorem partition_finalizeRestore_of_dry {live : List ℕ} (hreg : s.registered.Nodup)
    (hloc : ∀ t, s.localPool t = []) :
    (s.finalizeRestore live).Partition fun i => if i ∈ live ∧ i < s.highWater then 1 else 0 where
  place i := by
    have hdry : (s.registered.map fun u => (s.localPool u).count i).sum = 0 := by
      refine List.sum_eq_zero fun n hn => ?_
      obtain ⟨u, -, rfl⟩ := List.mem_map.mp hn
      rw [hloc u, List.count_nil]
    have hfree : (s.finalizeRestore live).freeCount i =
        if i < s.highWater ∧ i ∉ live then 1 else 0 := by
      rw [freeCount_eq]
      simp only [finalizeRestore, hdry, Nat.add_zero]
      rw [List.Nodup.count (List.nodup_range.filter _)]
      simp only [List.mem_filter, List.mem_range, decide_eq_true_eq]
    change _ = if i < s.highWater then 1 else 0
    rw [hfree]
    by_cases hi : i ∈ live
    · simp [hi]
    · simp [hi]
  registered_nodup := hreg
  localPool_eq_nil _ _ := hloc _

/-- After a reopen the free list is the complement of the live set below the high-water mark. -/
theorem partition_finalizeRestore {live : List ℕ} (hreg : s.registered = [])
    (hloc : s.localPool = fun _ => []) (hlive : ∀ i ∈ live, i < s.highWater) :
    (s.finalizeRestore live).Partition fun i => if i ∈ live then 1 else 0 := by
  have hdry : (s.finalizeRestore live).Partition
      fun i => if i ∈ live ∧ i < s.highWater then 1 else 0 := by
    apply partition_finalizeRestore_of_dry
    · rw [hreg]
      exact List.nodup_nil
    · intro t
      rw [hloc]
  refine hdry.congr fun i => if_congr ?_ rfl rfl
  exact ⟨fun hi => ⟨hi, hlive i hi⟩, And.left⟩

/-! ## Repeated allocation -/

/-- What the next allocations on a thread hand out before the store grows, first one first. -/
def upcoming (s : SlotStore) (t : ℕ) : List ℕ := s.localPool t ++ s.free

/-- Repeated allocation on a thread hands a slot out. -/
def HandsOut (s : SlotStore) (t i : ℕ) : Prop :=
  ∃ n, ((fun st => (allocate st t).2)^[n] s |>.allocate t).1 = .ok i

@[simp]
theorem upcoming_touchLocal (u : ℕ) : (s.touchLocal u).upcoming t = s.upcoming t := by
  unfold touchLocal
  split <;> rfl

/-- Refilling a dry pool keeps the order of what comes. -/
theorem upcoming_readyLocal : (s.readyLocal t).upcoming t = s.upcoming t := by
  unfold readyLocal
  simp only
  split
  · rename_i hdry
    rw [List.isEmpty_iff] at hdry
    refine Eq.trans ?_ (upcoming_touchLocal t)
    simp only [upcoming, refillFromGlobal, setLocal, Function.update_self, hdry,
      List.append_nil, List.nil_append, List.take_append_drop]
  · exact upcoming_touchLocal t

/-- A pool made ready is dry only when nothing is left. -/
private theorem upcoming_eq_nil_of_dry (hdry : (s.readyLocal t).localPool t = []) :
    s.upcoming t = [] := by
  unfold readyLocal at hdry
  simp only at hdry
  split at hdry
  · rename_i hempty
    rw [List.isEmpty_iff] at hempty
    simp only [refillFromGlobal, setLocal, Function.update_self, hempty, List.append_nil,
      List.take_eq_nil_iff] at hdry
    rcases hdry with h0 | hfree
    · exact absurd h0 (by decide)
    · rw [← upcoming_touchLocal t, upcoming, hempty, hfree, List.nil_append]
  · rename_i hne
    exact absurd (List.isEmpty_iff.mpr hdry) hne

/-- With nothing to come the store grows, its pools and its mark as they were. -/
theorem allocate_of_dry (hloc : s.localPool t = []) (hfree : s.free = []) :
    ∃ r : SlotStore, s.allocate t = r.grow ∧ r.free = s.free ∧ r.localPool = s.localPool ∧
      r.highWater = s.highWater ∧ r.source = s.source ∧ r.chunkBits = s.chunkBits := by
  have htouch : (s.touchLocal t).localPool = s.localPool ∧ (s.touchLocal t).free = s.free ∧
      (s.touchLocal t).source = s.source ∧ (s.touchLocal t).chunkBits = s.chunkBits := by
    unfold touchLocal
    split <;> exact ⟨rfl, rfl, rfl, rfl⟩
  obtain ⟨hloc', hfree', hsource, hbits⟩ := htouch
  have hready : s.readyLocal t = (s.touchLocal t).refillFromGlobal t := by
    unfold readyLocal
    dsimp only
    rw [if_pos (by rw [hloc', hloc]; rfl)]
  have hpool : (s.readyLocal t).localPool = s.localPool := by
    rw [hready]
    show Function.update (s.touchLocal t).localPool t _ = _
    rw [hfree', hfree, hloc', List.take_nil, List.nil_append, Function.update_eq_self]
  refine ⟨s.readyLocal t, ?_, ?_, hpool, highWater_readyLocal, ?_, ?_⟩
  · unfold allocate
    dsimp only
    rw [hpool, hloc]
  · rw [hready]
    show (s.touchLocal t).free.drop _ = _
    rw [hfree', hfree, List.drop_nil]
  · rw [hready]
    exact hsource
  · rw [hready]
    exact hbits

/-- An allocation hands out the first of the slots to come. -/
theorem allocate_of_upcoming {i : ℕ} {rest : List ℕ} (h : s.upcoming t = i :: rest) :
    (s.allocate t).1 = .ok i ∧ (s.allocate t).2.upcoming t = rest := by
  have hready := (upcoming_readyLocal (s := s) (t := t)).trans h
  unfold allocate
  simp only
  split
  · rename_i j pool heq
    rw [upcoming, heq, List.cons_append, List.cons.injEq] at hready
    obtain ⟨rfl, hrest⟩ := hready
    refine ⟨rfl, ?_⟩
    simp only [upcoming, setLocal, Function.update_self]
    exact hrest
  · rename_i hdry
    rw [upcoming_eq_nil_of_dry hdry] at h
    cases h

/-- An allocation from the pools leaves the mark alone. -/
theorem highWater_allocate_of_upcoming (h : s.upcoming t ≠ []) :
    (s.allocate t).2.highWater = s.highWater := by
  unfold allocate
  simp only
  split
  · exact highWater_readyLocal
  · rename_i hdry
    exact absurd (upcoming_eq_nil_of_dry hdry) h

/-- An allocation leaves the pools of the other threads alone. -/
theorem localPool_allocate_of_ne {u : ℕ} (hu : u ≠ t) :
    (s.allocate t).2.localPool u = s.localPool u := by
  have htouch : (s.touchLocal t).localPool = s.localPool := by
    unfold touchLocal
    split <;> rfl
  have hready : (s.readyLocal t).localPool u = s.localPool u := by
    unfold readyLocal
    dsimp only
    split
    · show Function.update (s.touchLocal t).localPool t _ u = _
      rw [Function.update_of_ne hu, htouch]
    · rw [htouch]
  unfold allocate
  dsimp only
  split
  · show Function.update (s.readyLocal t).localPool t _ u = _
    rw [Function.update_of_ne hu, hready]
  · rw [localPool_grow, hready]

/-- A refused allocation leaves the pools and the mark alone. -/
theorem allocate_error_pools {e : PoolError} (h : (s.allocate t).1 = .error e) :
    (s.allocate t).2.free = s.free ∧ (s.allocate t).2.localPool = s.localPool ∧
      (s.allocate t).2.highWater = s.highWater := by
  have hdry : s.upcoming t = [] := by
    rcases hup : s.upcoming t with _ | ⟨i, rest⟩
    · rfl
    · rw [(allocate_of_upcoming hup).1] at h
      cases h
  obtain ⟨hloc, hfree⟩ := List.append_eq_nil_iff.mp hdry
  obtain ⟨r, hgrow, hr⟩ := allocate_of_dry hloc hfree
  rw [hgrow] at h ⊢
  have hrefused : r.grow.2.highWater = r.highWater := highWater_grow_error h
  rw [free_grow, localPool_grow, hrefused, hr.1, hr.2.1, hr.2.2.1]
  exact ⟨rfl, rfl, rfl⟩

/-- No thread but `t` keeps slots in its pool. -/
def OnlyPool (s : SlotStore) (t : ℕ) : Prop := ∀ u ≠ t, s.localPool u = []

theorem OnlyPool.touchLocal (h : s.OnlyPool t) (u : ℕ) : (s.touchLocal u).OnlyPool t := by
  unfold SlotStore.touchLocal
  split
  · exact h
  · exact h

private theorem OnlyPool.setLocal (h : s.OnlyPool t) (pool : List ℕ) :
    (s.setLocal t pool).OnlyPool t := by
  intro u hu
  simp only [SlotStore.setLocal, Function.update_of_ne hu]
  exact h u hu

theorem OnlyPool.freeNow (h : s.OnlyPool t) (index : ℕ) : (s.freeNow t index).OnlyPool t := by
  unfold SlotStore.freeNow pushFree
  simp only
  split
  · exact (h.touchLocal t).setLocal _
  · exact (h.touchLocal t).setLocal _

theorem OnlyPool.allocate (h : s.OnlyPool t) : (s.allocate t).2.OnlyPool t := by
  have hready : (s.readyLocal t).OnlyPool t := by
    unfold readyLocal
    simp only
    split
    · exact (h.touchLocal t).setLocal _
    · exact h.touchLocal t
  unfold SlotStore.allocate
  simp only
  split
  · exact hready.setLocal _
  · unfold grow
    simp only
    split
    · split
      · exact hready
      · split <;> exact hready
    · exact hready

/-- With one pool in use, every reusable slot is one to come. -/
theorem OnlyPool.mem_upcoming {i : ℕ} (h : s.OnlyPool t) (hi : s.freeCount i ≠ 0) :
    i ∈ s.upcoming t := by
  have hmem := List.count_pos_iff.mp (Nat.pos_of_ne_zero hi)
  rcases List.mem_append.mp hmem with hfree | hloc
  · exact List.mem_append_right _ hfree
  · obtain ⟨u, -, hu⟩ := List.mem_flatMap.mp hloc
    by_cases hut : u = t
    · exact List.mem_append_left _ (hut ▸ hu)
    · rw [h u hut] at hu
      cases hu

/-- Every slot to come is handed out by repeated allocation. -/
theorem handsOut_of_mem_upcoming {i : ℕ} (h : i ∈ s.upcoming t) : s.HandsOut t i := by
  generalize hl : s.upcoming t = l at h
  induction l generalizing s with
  | nil => cases h
  | cons j rest ih =>
    obtain ⟨hj, hrest⟩ := allocate_of_upcoming hl
    rcases List.mem_cons.mp h with rfl | hi
    · exact ⟨0, hj⟩
    · obtain ⟨n, hn⟩ := ih hrest hi
      exact ⟨n + 1, hn⟩

end SlotStore

end ArbitraryComposer
