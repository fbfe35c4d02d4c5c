import ArbitraryComposer.Pool.SlotStore

/-!
# Big-Block Pool

The size-classed allocator of immutable blobs. A blob is named by an index and its byte size,
and the size decides which size class the index is read in. Every holder of a reference owns
one count; a blob whose last count goes returns to its class at once.

## Main definitions

- `BlockSlotRef`: the stored reference form, and `BlockSlotRef.slot`, the slot it names.
- `BigBlockPool`: one `SlotStore` per size class, the counts and the blob contents.
- `BigBlockPool.Owned`: the counts are exact for a multiset of owners.

## Main results

- `BigBlockPool.Owned.allocate_ok`: a fresh blob takes no slot anybody owns.
- `BigBlockPool.Owned.retain`, `BigBlockPool.Owned.release`: counts follow the owners.
-/

namespace ArbitraryComposer

/-- The reference form stored in records: a slot index and a byte size. -/
structure BlockSlotRef where
  /-- The slot index in the class of `size`. -/
  index : ℕ
  /-- The logical size in bytes. -/
  size : ℕ
  deriving DecidableEq, Repr

/-- `BigBlockPool::k_page`. -/
def poolPage : ℕ := 4096

/-- Double `p` until it reaches `n`. -/
def doubleUpTo : ℕ → ℕ → ℕ → ℕ
  | 0, p, _ => p
  | fuel + 1, p, n => if p < n then doubleUpTo fuel (2 * p) n else p

/-- `BigBlockPool::class_stride`: powers of two with a one-page floor. Sizes are 32-bit, so
twenty doublings of a page reach every size. -/
def classStride (size : ℕ) : ℕ :=
  if size ≤ poolPage then poolPage else doubleUpTo 20 poolPage size

/-- The slot a reference names: its size class and its index there. -/
def BlockSlotRef.slot (ref : BlockSlotRef) : ℕ × ℕ := (classStride ref.size, ref.index)

/-- The size-classed blob allocator. A class store is minted on first use, so a class nothing
was allocated from is a fresh store. -/
structure BigBlockPool where
  /-- The store of each size class. -/
  classStore : ℕ → SlotStore
  /-- The count of each slot. -/
  count : ℕ × ℕ → ℕ
  /-- The samples last written to each slot. -/
  data : ℕ × ℕ → List UInt32

namespace BigBlockPool

/-- A pool over the chunk source `source`. -/
def init (source : ChunkSource) : BigBlockPool where
  classStore stride := SlotStore.init (defaultChunkBits stride) source
  count := fun _ => 0
  data := fun _ => []

/-- `BigBlockPool::allocate` followed by the fill of the writable blob with `samples`. -/
def allocate (p : BigBlockPool) (t : ℕ) (size : ℕ) (samples : List UInt32) :
    Except PoolError BlockSlotRef × BigBlockPool :=
  let stride := classStride size
  match (p.classStore stride).allocate t with
  | (.error e, store) =>
    (.error e, { p with classStore := Function.update p.classStore stride store })
  | (.ok index, store) =>
    (.ok ⟨index, size⟩,
      { classStore := Function.update p.classStore stride store
        count := Function.update p.count (stride, index) 1
        data := Function.update p.data (stride, index) samples })

/-- `BigBlockPool::retain` and `::resolve`: take a count, refused at the ceiling. -/
def retain (p : BigBlockPool) (ref : BlockSlotRef) : Option BigBlockPool :=
  if p.count ref.slot = maxCount then
    none
  else
    some { p with count := Function.update p.count ref.slot (p.count ref.slot + 1) }

/-- `BigBlockPool::release`; `none` is the underflow assertion. The last count returns the
slot to its class. -/
def release (p : BigBlockPool) (t : ℕ) (ref : BlockSlotRef) : Option BigBlockPool :=
  if p.count ref.slot = 0 then
    none
  else
    let p' := { p with count := Function.update p.count ref.slot (p.count ref.slot - 1) }
    if p.count ref.slot = 1 then
      let store := (p.classStore ref.slot.1).dropLive.freeNow t ref.index
      some { p' with classStore := Function.update p.classStore ref.slot.1 store }
    else
      some p'

/-- `BigBlockPool::peek`: the samples of a blob, without touching its count. -/
def peek (p : BigBlockPool) (ref : BlockSlotRef) : List UInt32 :=
  (p.data ref.slot).take (ref.size / 4)

/-- Whether a slot is counted, as the number of places it takes in its class. -/
def held (p : BigBlockPool) (stride i : ℕ) : ℕ := min 1 (p.count (stride, i))

/-- The counts are exact for `owners`, and the slots with a count are those no free pool of
their class holds. -/
structure Owned (p : BigBlockPool) (owners : Multiset (ℕ × ℕ)) : Prop where
  /-- A count is the number of owners. -/
  count_eq : ∀ slot, p.count slot = owners.count slot
  /-- A counted slot is the one place its class keeps for it. -/
  partition : ∀ stride, (p.classStore stride).Partition (p.held stride)

variable {p p' : BigBlockPool} {owners : Multiset (ℕ × ℕ)} {t : ℕ}

theorem owned_init (source : ChunkSource) : (init source).Owned 0 where
  count_eq := fun _ => rfl
  partition := fun stride => SlotStore.partition_init (defaultChunkBits stride) source

/-- A fresh blob takes a slot nobody owns, and its allocator owns it. -/
theorem Owned.allocate_ok {size : ℕ} {samples : List UInt32} {ref : BlockSlotRef}
    (h : p.Owned owners) (ha : p.allocate t size samples = (.ok ref, p')) :
    ref.slot ∉ owners ∧ p'.Owned (ref.slot ::ₘ owners) ∧ ref.size = size ∧
      p'.data = Function.update p.data ref.slot samples := by
  unfold allocate at ha
  simp only at ha
  split at ha
  · cases ha
  · rename_i index store hstore
    cases ha
    obtain ⟨hheld, hpart, -⟩ := (h.partition (classStride size)).allocate_ok hstore
    have hzero : p.count (classStride size, index) = 0 := by
      unfold held at hheld
      omega
    refine ⟨?_, ⟨fun slot => ?_, fun stride => ?_⟩, rfl, rfl⟩
    · rw [← Multiset.count_eq_zero, ← h.count_eq]
      exact hzero
    · rw [Multiset.count_cons]
      by_cases hs : slot = (classStride size, index)
      · subst hs
        simp [BlockSlotRef.slot, ← h.count_eq, hzero]
      · simp [BlockSlotRef.slot, hs, h.count_eq]
    · by_cases hs : stride = classStride size
      · subst hs
        simp only [Function.update_self]
        refine hpart.congr fun i => ?_
        by_cases hi : i = index
        · subst hi; simp [held]
        · simp [held, hi]
      · simp only [Function.update_of_ne hs]
        refine (h.partition stride).congr fun i => ?_
        simp [held, hs]

/-- A count taken by a new owner. -/
theorem Owned.retain {ref : BlockSlotRef} (h : p.Owned owners) (hmem : ref.slot ∈ owners)
    (hr : p.retain ref = some p') : p'.Owned (ref.slot ::ₘ owners) ∧ p'.data = p.data := by
  unfold BigBlockPool.retain at hr
  split at hr
  · cases hr
  · cases hr
    have hpos : 0 < p.count ref.slot := by
      rw [h.count_eq]
      exact Multiset.count_pos.mpr hmem
    refine ⟨⟨fun slot => ?_, fun stride => ?_⟩, rfl⟩
    · rw [Multiset.count_cons, ← h.count_eq]
      by_cases hs : slot = ref.slot
      · subst hs; simp
      · simp [hs]
    · refine (h.partition stride).congr fun i => ?_
      by_cases hs : (stride, i) = ref.slot
      · simp only [held, hs, Function.update_self]
        omega
      · simp only [held, Function.update_of_ne hs]

/-- An owner gives its count back; the assertion holds. -/
theorem Owned.release {ref : BlockSlotRef} (h : p.Owned (ref.slot ::ₘ owners)) :
    ∃ p', p.release t ref = some p' ∧ p'.Owned owners ∧ p'.data = p.data := by
  have hcount := h.count_eq ref.slot
  rw [Multiset.count_cons_self] at hcount
  have hcounts : ∀ slot, Function.update p.count ref.slot (p.count ref.slot - 1) slot =
      owners.count slot := by
    intro slot
    by_cases hs : slot = ref.slot
    · subst hs
      rw [Function.update_self]
      omega
    · rw [Function.update_of_ne hs, h.count_eq, Multiset.count_cons_of_ne hs]
  unfold BigBlockPool.release
  rw [if_neg (by omega)]
  split
  · rename_i hone
    refine ⟨_, rfl, ⟨hcounts, fun stride => ?_⟩, rfl⟩
    by_cases hs : stride = ref.slot.1
    · subst hs
      simp only [Function.update_self]
      have hheld : p.held ref.slot.1 ref.index = 1 := by
        change min 1 (p.count ref.slot) = 1
        omega
      refine ((h.partition ref.slot.1).dropLive.freeNow hheld).congr fun i => ?_
      by_cases hi : i = ref.index
      · subst hi
        change min 1 (Function.update p.count ref.slot (p.count ref.slot - 1) ref.slot) = _
        simp [hone]
      · have hne : (ref.slot.1, i) ≠ ref.slot := fun heq => hi (congrArg Prod.snd heq)
        simp only [held, Function.update_of_ne hne, Function.update_of_ne hi]
    · simp only [Function.update_of_ne hs]
      refine (h.partition stride).congr fun i => ?_
      have hne : (stride, i) ≠ ref.slot := fun heq => hs (congrArg Prod.fst heq)
      simp only [held, Function.update_of_ne hne]
  · rename_i hone
    refine ⟨_, rfl, ⟨hcounts, fun stride => ?_⟩, rfl⟩
    refine (h.partition stride).congr fun i => ?_
    by_cases hs : (stride, i) = ref.slot
    · simp only [held, hs, Function.update_self]
      omega
    · simp only [held, Function.update_of_ne hs]

end BigBlockPool

end ArbitraryComposer
