import ArbitraryComposer.Pool.Fault
import ArbitraryComposer.Pool.SlotStore
import ArbitraryComposer.ToMathlib.Exec
import ArbitraryComposer.ToMathlib.RefGraph
import Mathlib.Data.Finmap

/-!
# Counted Slots

The typed views of an arena. A view hands out slots of one size class, constructs an object in
each and counts the references to it; views of one size class share its slot store and its
counts. A reference whose count goes to zero is pushed on the reclaim stack of its view.

## Main definitions

- `SlabType`: the view of an object, and the references its destructor releases.
- `Arena`: slot stores, objects, counts, reclaim stacks and the durability fence.
- `create`, `retain`, `release`, `peek`, `write`: the operations of `RefStore`.
- `Arena.live`: the immutable objects that some reference counts.
- `Arena.Sound`: counts are exact for the edges of the objects and the references held outside.
- `Arena.Placed`: every slot below a high-water mark has exactly one place.
- `Arena.Owned`: both, between two operations.

## Main results

- `Arena.create_spec`, `.retain_owned`, `.release_owned`, `.Owned.link`: what each operation does.
- `Arena.Owned.mem_iff_reachable`: then held references reach every object.
-/

set_option linter.unusedSectionVars false

namespace ArbitraryComposer

open Exec

/-- What the pool knows about a type of objects. -/
class SlabType (O : Type) (V : outParam Type) where
  /-- The typed view an object is stored through. -/
  view : O → V
  /-- The references the destructor releases, in order. -/
  edges : O → List (V × ℕ)
  /-- Whether the object stays as it was constructed. -/
  immutable : O → Bool

open SlabType

/-- A slot whose freeing is not yet durable. -/
structure Quarantined where
  /-- The size class. -/
  store : ℕ
  /-- The slot. -/
  index : ℕ
  /-- The epoch it was freed in. -/
  epoch : ℕ
  deriving DecidableEq, Repr

/-- `DurabilityEpochFence`: freed slots wait here for the commit that makes their freeing
durable. -/
structure DurabilityEpochFence where
  /-- The slots waiting, oldest first. -/
  quarantine : List Quarantined
  /-- The epoch now. -/
  epoch : ℕ

/-- Slot stores, the objects constructed in their slots, and the counts of references. -/
structure Arena (V O : Type) where
  /-- The size class of a view. -/
  storeOf : V → ℕ
  /-- The slot store of each size class. -/
  stores : ℕ → SlotStore
  /-- The objects constructed, by size class and slot. -/
  cells : Finmap fun _ : ℕ × ℕ => O
  /-- The count of each slot. -/
  count : ℕ × ℕ → ℕ
  /-- The reclaim stack of each view, top first. -/
  pending : V → List ℕ
  /-- The fence on every store, for a durable document. -/
  fence : Option DurabilityEpochFence
  /-- The objects constructed so far, the last one first. -/
  made : List O
  /-- The objects the zero-count sinks were called on so far, the last one first. -/
  zeroed : List O
  /-- The objects the writer retained a resource for so far, the last one first. -/
  retained : List O

/-- An arena that has handed out nothing. -/
def Arena.init (storeOf : V → ℕ) (chunkBits : ℕ → ℕ) (source : ℕ → ChunkSource)
    (fence : Option DurabilityEpochFence) : Arena V O where
  storeOf := storeOf
  stores c := .init (chunkBits c) (source c)
  cells := ∅
  count := fun _ => 0
  pending := fun _ => []
  fence := fence
  made := []
  zeroed := []
  retained := []

/-- Programs on an arena. -/
abbrev ArenaExec (V O α : Type) : Type := Exec (Arena V O) PoolError Fault α

variable {V O : Type} [DecidableEq V] [SlabType O V]

/-- The slot a typed reference names. -/
def Arena.slot (A : Arena V O) (r : V × ℕ) : ℕ × ℕ := (A.storeOf r.1, r.2)

/-- Replace the store of a size class. -/
def Arena.setStore (A : Arena V O) (c : ℕ) (store : SlotStore) : Arena V O :=
  { A with stores := Function.update A.stores c store }

/-- Put an object in a slot. -/
def Arena.setCell (A : Arena V O) (s : ℕ × ℕ) (o : O) : Arena V O :=
  { A with cells := A.cells.insert s o }

/-- `RefStore::create`: a slot, an object in it, and the one count the caller owns. -/
def create (t : ℕ) (o : O) : ArenaExec V O ℕ := fun A =>
  let c := A.storeOf (view o)
  match (A.stores c).allocate t with
  | (.error e, store) => .error e (A.setStore c store)
  | (.ok i, store) =>
    .ok i { (A.setStore c store).setCell (c, i) o with
      count := Function.update A.count (c, i) 1
      made := o :: A.made }

/-- `RefStore::retain` and `resolve`, whose refusal the writer reports as an exhausted
capacity. -/
def retain (r : V × ℕ) : ArenaExec V O Unit := fun A =>
  if A.count (A.slot r) = maxCount then
    .error .capacityExhausted A
  else
    .ok () { A with count := Function.update A.count (A.slot r) (A.count (A.slot r) + 1) }

/-- The copy of an owning `Ref`, whose overflow is an assertion. -/
def copyRef (r : V × ℕ) : ArenaExec V O Unit := fun A =>
  if A.count (A.slot r) = maxCount then
    .fault .countOverflow
  else
    .ok () { A with count := Function.update A.count (A.slot r) (A.count (A.slot r) + 1) }

/-- `RefStore::enqueue_reclaim`. -/
def Arena.enqueue (A : Arena V O) (r : V × ℕ) : Arena V O :=
  { A with pending := Function.update A.pending r.1 (r.2 :: A.pending r.1) }

/-- `ZeroCountSink::on_zero` of the deferred sinks: what it is called on is still constructed. -/
def Arena.onZero (A : Arena V O) (r : V × ℕ) : Arena V O :=
  { A.enqueue r with zeroed := (A.cells.lookup (A.slot r)).toList ++ A.zeroed }

/-- `RefStore::release` under the deferred sinks. -/
def release (r : V × ℕ) : ArenaExec V O Unit := fun A =>
  if A.count (A.slot r) = 0 then
    .fault .countUnderflow
  else
    let A' := { A with count := Function.update A.count (A.slot r) (A.count (A.slot r) - 1) }
    .ok () (if A.count (A.slot r) = 1 then A'.onZero r else A')

/-- `RefStore::peek`. -/
def peek (r : V × ℕ) : ArenaExec V O O := fun A =>
  match A.cells.lookup (A.slot r) with
  | some o => .ok o A
  | none => .fault .dangling

/-- Write the object of a slot in place. -/
def write (r : V × ℕ) (o : O) : ArenaExec V O Unit :=
  modify fun A => A.setCell (A.slot r) o

/-! ## Invariants -/

namespace Arena

/-- The slots, the references stored in their objects, and their counts. -/
def graph (A : Arena V O) : RefGraph (ℕ × ℕ) where
  nodes := A.cells.keys
  out s := (((A.cells.lookup s).elim [] edges).map A.slot : List (ℕ × ℕ))
  count := A.count

/-- A typed reference to an object of its type. -/
def Names (A : Arena V O) (r : V × ℕ) : Prop := (A.cells.lookup (A.slot r)).map view = some r.1

instance (A : Arena V O) (r : V × ℕ) : Decidable (A.Names r) :=
  inferInstanceAs (Decidable (_ = _))

/-- The immutable object in a slot that some reference counts. -/
def liveAt (A : Arena V O) (s : ℕ × ℕ) : Multiset O :=
  if A.count s = 0 then 0 else (((A.cells.lookup s).toList.filter immutable : List O) : Multiset O)

/-- The immutable objects that some reference counts. -/
def live (A : Arena V O) : Multiset O := ∑ s ∈ A.cells.keys, A.liveAt s

/-- Counts are exact for the stored references and the references `held` outside. What waits
for reclamation is on a reclaim stack or in the detached `batch`. -/
structure Sound (A : Arena V O) (batch : List (V × ℕ)) (held : Multiset (V × ℕ)) : Prop where
  /-- An object lies in the size class of its view. -/
  cell_slot : ∀ s o, A.cells.lookup s = some o → s.1 = A.storeOf (view o)
  /-- A stored reference names an object of its type. -/
  edge_names : ∀ s o, A.cells.lookup s = some o → ∀ r ∈ edges o, A.Names r
  /-- So does a reference held outside. -/
  held_names : ∀ r ∈ held, A.Names r
  /-- The counts are exact. -/
  exact : A.graph.Exact (held.map A.slot)
  /-- There is no cycle. -/
  ranked : A.graph.Ranked
  /-- An object waits for reclamation once if its count is zero, and not otherwise. -/
  waiting : ∀ r, batch.count r + (A.pending r.1).count r.2 =
    if A.Names r ∧ A.count (A.slot r) = 0 then 1 else 0
  /-- Of the immutable objects constructed, the sinks were called on all but the live ones. -/
  books : ((A.made.filter immutable : List O) : Multiset O) =
    (A.zeroed.filter immutable : List O) + A.live

/-- The number of places a slot takes outside the free pools of its class. -/
def heldAt (A : Arena V O) (extra : Multiset (ℕ × ℕ)) (c i : ℕ) : ℕ :=
  (if (c, i) ∈ A.cells then 1 else 0) +
    ((A.fence.elim [] fun fence => fence.quarantine.map fun q => (q.store, q.index)).count (c, i) +
      extra.count (c, i))

/-- Every slot below a high-water mark holds an object, waits in the quarantine, is free, or is
one of the slots `extra` in transit, and only one of these. -/
def Placed (A : Arena V O) (extra : Multiset (ℕ × ℕ)) : Prop :=
  ∀ c, (A.stores c).Partition (A.heldAt extra c)

/-- Only counts, reclaim stacks and the calls of the sinks differ. -/
structure SameMemory (A A' : Arena V O) : Prop where
  /-- The size classes are the same. -/
  storeOf_eq : A'.storeOf = A.storeOf
  /-- The stores are the same. -/
  stores_eq : A'.stores = A.stores
  /-- The objects are the same. -/
  cells_eq : A'.cells = A.cells
  /-- The fence is the same. -/
  fence_eq : A'.fence = A.fence

/-- Every object is still there, unchanged. -/
structure Extends (A A' : Arena V O) : Prop where
  /-- The size classes are the same. -/
  storeOf_eq : A'.storeOf = A.storeOf
  /-- The objects are unchanged. -/
  lookup_eq : ∀ s o, A.cells.lookup s = some o → A'.cells.lookup s = some o

/-- Every object a held reference reaches is still there, unchanged. -/
structure Preserves (held : Multiset (V × ℕ)) (A A' : Arena V O) : Prop where
  /-- The size classes are the same. -/
  storeOf_eq : A'.storeOf = A.storeOf
  /-- The reachable objects are unchanged. -/
  lookup_eq : ∀ s, A.graph.Reachable (held.map A.slot) s → A'.cells.lookup s = A.cells.lookup s

variable {A A' A'' : Arena V O} {batch : List (V × ℕ)} {held : Multiset (V × ℕ)}
  {extra : Multiset (ℕ × ℕ)} {r : V × ℕ} {o : O} {t : ℕ}

theorem SameMemory.refl : A.SameMemory A := ⟨rfl, rfl, rfl, rfl⟩

theorem SameMemory.trans (h : A.SameMemory A') (h' : A'.SameMemory A'') : A.SameMemory A'' :=
  ⟨h'.1.trans h.1, h'.2.trans h.2, h'.3.trans h.3, h'.4.trans h.4⟩

theorem SameMemory.slot_eq (h : A.SameMemory A') : A'.slot r = A.slot r := by
  rw [slot, h.storeOf_eq, slot]

theorem SameMemory.extends (h : A.SameMemory A') : A.Extends A' :=
  ⟨h.storeOf_eq, fun _ _ hl => h.cells_eq ▸ hl⟩

theorem SameMemory.placed (h : A.SameMemory A') (hp : A.Placed extra) : A'.Placed extra := by
  intro c
  rw [h.stores_eq]
  refine (hp c).congr fun i => ?_
  simp only [heldAt, h.cells_eq, h.fence_eq]

theorem Extends.refl : A.Extends A := ⟨rfl, fun _ _ h => h⟩

theorem Extends.trans (h : A.Extends A') (h' : A'.Extends A'') : A.Extends A'' :=
  ⟨h'.1.trans h.1, fun s o hl => h'.2 s o (h.2 s o hl)⟩

theorem Extends.slot_eq (h : A.Extends A') : A'.slot r = A.slot r := by
  rw [slot, h.storeOf_eq, slot]

theorem Names.exists_lookup (h : A.Names r) :
    ∃ o, A.cells.lookup (A.slot r) = some o ∧ view o = r.1 :=
  Option.map_eq_some_iff.mp h

theorem Names.mem (h : A.Names r) : A.slot r ∈ A.cells := by
  obtain ⟨o, ho, -⟩ := h.exists_lookup
  exact Finmap.mem_of_lookup_eq_some ho

theorem Extends.names (h : A.Extends A') (hr : A.Names r) : A'.Names r := by
  obtain ⟨o, ho, hv⟩ := hr.exists_lookup
  rw [Names, h.slot_eq, h.lookup_eq _ _ ho, Option.map_some, hv]

/-- Typed references of different types name different slots. -/
theorem Names.eq_of_slot_eq {r' : V × ℕ} (h : A.Names r) (h' : A.Names r')
    (hs : A.slot r = A.slot r') : r = r' := by
  have hi : r.2 = r'.2 := (Prod.ext_iff.mp hs).2
  rw [Names, hs, h', Option.some.injEq] at h
  exact Prod.ext h.symm hi

/-! ## Books -/

/-- What is live depends on the objects and on which counts are zero. -/
theorem live_congr (hc : A'.cells = A.cells) (h0 : ∀ s, A'.count s = 0 ↔ A.count s = 0) :
    A'.live = A.live := by
  unfold live liveAt
  rw [hc]
  exact Finset.sum_congr rfl fun s _ => by simp only [h0]

/-- A slot that is left out of the live ones. -/
theorem live_erase {s : ℕ × ℕ} (hs : s ∈ A.cells) :
    A.live = A.liveAt s + ∑ s' ∈ A.cells.keys.erase s, A.liveAt s' :=
  (Finset.add_sum_erase _ _ (Finmap.mem_keys.mpr hs)).symm

/-- A slot whose count goes to zero is live no more. -/
theorem live_setZero {s : ℕ × ℕ} (hs : s ∈ A.cells) (hc : A'.cells = A.cells)
    (hcount : A'.count = Function.update A.count s 0) : A.live = A.liveAt s + A'.live := by
  have hrest : ∀ s' ∈ A.cells.keys.erase s, A'.liveAt s' = A.liveAt s' := fun s' hs' => by
    rw [liveAt, liveAt, hc, hcount, Function.update_of_ne (Finset.ne_of_mem_erase hs')]
  have hzero : A'.liveAt s = 0 := by
    rw [liveAt, if_pos (by rw [hcount, Function.update_self])]
  rw [live_erase hs, live_erase (A := A') (hc ▸ hs), hzero, zero_add, hc,
    Finset.sum_congr rfl hrest]

/-- A new object is live. -/
theorem live_create {s : ℕ × ℕ} (hs : s ∉ A.cells) (hc : A'.cells = A.cells.insert s o)
    (hcount : A'.count = Function.update A.count s 1) :
    A'.live = (([o].filter immutable : List O) : Multiset O) + A.live := by
  have hkeys : A'.cells.keys = insert s A.cells.keys := by
    ext a
    simp only [hc, Finmap.mem_keys, Finmap.mem_insert, Finset.mem_insert]
  have hnew : A'.liveAt s = (([o].filter immutable : List O) : Multiset O) := by
    rw [liveAt, if_neg (by rw [hcount, Function.update_self]; omega), hc, Finmap.lookup_insert]
    rfl
  have hold : ∀ s' ∈ A.cells.keys, A'.liveAt s' = A.liveAt s' := fun s' hs' => by
    have hne : s' ≠ s := by
      rintro rfl
      exact hs (Finmap.mem_keys.mp hs')
    rw [liveAt, liveAt, hc, hcount, Function.update_of_ne hne, Finmap.lookup_insert_of_ne _ hne]
  rw [live, hkeys, Finset.sum_insert fun hm => hs (Finmap.mem_keys.mp hm), hnew,
    Finset.sum_congr rfl hold, live]

/-- Writing an object that may be written changes nothing that is live. -/
theorem live_setCell {s : ℕ × ℕ} {o' : O} (hl : A.cells.lookup s = some o)
    (ho : immutable o = false) (ho' : immutable o' = false) : (A.setCell s o').live = A.live := by
  have hkeys : (A.setCell s o').cells.keys = A.cells.keys := by
    ext a
    simp only [setCell, Finmap.mem_keys, Finmap.mem_insert]
    refine or_iff_right_of_imp ?_
    rintro rfl
    exact Finmap.mem_of_lookup_eq_some hl
  unfold live
  rw [hkeys]
  refine Finset.sum_congr rfl fun s' _ => ?_
  by_cases hs : s' = s
  · subst hs
    simp [liveAt, setCell, Finmap.lookup_insert, hl, ho, ho']
  · simp only [liveAt, setCell, Finmap.lookup_insert_of_ne _ hs]

/-- An object nothing counts may go. -/
theorem live_eraseCell {s : ℕ × ℕ} (hs : s ∈ A.cells) (h0 : A.count s = 0) :
    ({ A with cells := A.cells.erase s } : Arena V O).live = A.live := by
  have hkeys : (A.cells.erase s).keys = A.cells.keys.erase s := by
    ext a
    simp only [Finmap.mem_keys, Finmap.mem_erase, Finset.mem_erase]
  rw [live_erase hs, liveAt, if_pos h0, zero_add, live, hkeys]
  refine Finset.sum_congr rfl fun s' hs' => ?_
  simp only [liveAt, Finmap.lookup_erase_ne (Finset.ne_of_mem_erase hs')]

/-- The sink is called on the object whose count goes to zero. -/
theorem books_onZero (h : ((A.made.filter immutable : List O) : Multiset O) =
      (A.zeroed.filter immutable : List O) + A.live)
    (hr : A.slot r ∈ A.cells) (h0 : A.count (A.slot r) ≠ 0) (hc : A'.cells = A.cells)
    (hcount : A'.count = Function.update A.count (A.slot r) 0)
    (hz : A'.zeroed = (A.cells.lookup (A.slot r)).toList ++ A.zeroed) (hm : A'.made = A.made) :
    ((A'.made.filter immutable : List O) : Multiset O) =
      (A'.zeroed.filter immutable : List O) + A'.live := by
  rw [hm, hz, List.filter_append, ← Multiset.coe_add, h, live_setZero hr hc hcount, liveAt,
    if_neg h0]
  exact (add_assoc _ _ _).symm.trans (congrArg (· + A'.live) (add_comm _ _))

/-! ## Counts -/

/-- A held reference is counted. -/
theorem Sound.count_pos (h : A.Sound batch (r ::ₘ held)) : 0 < A.count (A.slot r) :=
  RefGraph.Exact.count_pos (show A.graph.Exact (A.slot r ::ₘ held.map A.slot) by
    simpa using h.exact)

theorem Sound.mem_keys_of_names (hr : A.Names r) : A.slot r ∈ A.graph.nodes :=
  Finmap.mem_keys.mpr hr.mem

/-- A live reference gets one more count, held outside. -/
theorem Sound.retain (h : A.Sound batch held) (hr : A.Names r) (hpos : A.count (A.slot r) ≠ 0) :
    Sound { A with count := Function.update A.count (A.slot r) (A.count (A.slot r) + 1) }
      batch (r ::ₘ held) where
  cell_slot := h.cell_slot
  edge_names := h.edge_names
  held_names := fun r' hr' => by
    rcases Multiset.mem_cons.mp hr' with rfl | hr'
    · exact hr
    · exact h.held_names r' hr'
  exact := by
    rw [Multiset.map_cons]
    exact h.exact.retain (Sound.mem_keys_of_names hr)
  ranked := h.ranked
  waiting r' := by
    refine (h.waiting r').trans ?_
    change (if A.Names r' ∧ A.count (A.slot r') = 0 then 1 else 0) = if A.Names r' ∧
      Function.update A.count (A.slot r) (A.count (A.slot r) + 1) (A.slot r') = 0 then 1 else 0
    by_cases hs : A.slot r' = A.slot r
    · rw [hs, Function.update_self, if_neg (by omega), if_neg (by omega)]
    · rw [Function.update_of_ne hs]
  books := by
    refine h.books.trans (congrArg _ (Eq.symm (live_congr (A := A) rfl fun s => ?_)))
    change Function.update A.count (A.slot r) (A.count (A.slot r) + 1) s = 0 ↔ A.count s = 0
    by_cases hs : s = A.slot r
    · subst hs
      rw [Function.update_self]
      omega
    · rw [Function.update_of_ne hs]

/-- A held reference gives its count back; the object waits for reclamation if it was the
last. -/
theorem Sound.release (h : A.Sound batch (r ::ₘ held)) :
    Sound (let A' := { A with
        count := Function.update A.count (A.slot r) (A.count (A.slot r) - 1) }
      if A.count (A.slot r) = 1 then A'.onZero r else A') batch held := by
  have hr : A.Names r := h.held_names r (Multiset.mem_cons_self r held)
  have hpos := h.count_pos
  have hexact : RefGraph.Exact (A.graph.setCount (A.slot r) (A.graph.count (A.slot r) - 1))
      (held.map A.slot) := by
    have := h.exact
    rw [Multiset.map_cons] at this
    exact this.release
  have hwait : ∀ r', batch.count r' + (A.pending r'.1).count r'.2 =
      if A.Names r' ∧ A.count (A.slot r') = 0 then 1 else 0 := h.waiting
  have hnames : ∀ r' ∈ held, A.Names r' :=
    fun r' hr' => h.held_names r' (Multiset.mem_cons_of_mem hr')
  simp only
  split
  · rename_i hone
    refine ⟨h.cell_slot, h.edge_names, hnames, hexact, h.ranked, fun r' => ?_, ?_⟩
    · have hw := hwait r'
      change _ + (Function.update A.pending r.1 (r.2 :: A.pending r.1) r'.1).count r'.2 =
        if A.Names r' ∧ Function.update A.count (A.slot r) _ (A.slot r') = 0 then 1 else 0
      by_cases hrr : r' = r
      · subst hrr
        rw [if_neg (by omega)] at hw
        rw [Function.update_self, Function.update_self, List.count_cons_self, if_pos ⟨hr, by omega⟩]
        omega
      · -- another reference to the same slot would have another type
        have hcount : (Function.update A.pending r.1 (r.2 :: A.pending r.1) r'.1).count r'.2 =
            (A.pending r'.1).count r'.2 := by
          by_cases hv : r'.1 = r.1
          · have hi : r.2 ≠ r'.2 := fun hi => hrr (Prod.ext hv hi.symm)
            rw [hv, Function.update_self, List.count_cons_of_ne hi]
          · rw [Function.update_of_ne hv]
        rw [hcount, hw]
        by_cases hs : A.slot r' = A.slot r
        · have hn : ¬ A.Names r' := fun hn => hrr (hn.eq_of_slot_eq hr hs)
          rw [if_neg (fun hc => hn hc.1), if_neg (fun hc => hn hc.1)]
        · rw [Function.update_of_ne hs]
    · refine books_onZero h.books hr.mem (by omega) rfl ?_ rfl rfl
      rw [← show A.count (A.slot r) - 1 = 0 by omega]
      rfl
  · rename_i hone
    have hcount (s : ℕ × ℕ) :
        Function.update A.count (A.slot r) (A.count (A.slot r) - 1) s = 0 ↔ A.count s = 0 := by
      by_cases hs : s = A.slot r
      · subst hs
        rw [Function.update_self]
        omega
      · rw [Function.update_of_ne hs]
    refine ⟨h.cell_slot, h.edge_names, hnames, hexact, h.ranked, fun r' => ?_, ?_⟩
    · refine (hwait r').trans ?_
      change (if A.Names r' ∧ A.count (A.slot r') = 0 then 1 else 0) = if A.Names r' ∧
        Function.update A.count (A.slot r) (A.count (A.slot r) - 1) (A.slot r') = 0 then 1 else 0
      simp only [hcount]
    · exact h.books.trans (congrArg _ (Eq.symm (live_congr (A := A) rfl hcount)))

/-- Taking a count succeeds unless the count is at its ceiling. -/
theorem retain_spec {F : Fault → Prop} (h : A.Sound batch held) (hr : A.Names r)
    (hpos : A.count (A.slot r) ≠ 0) :
    wp (ArbitraryComposer.retain r) (fun _ A' => A'.Sound batch (r ::ₘ held) ∧ A.SameMemory A' ∧
        ∀ s, s ≠ A.slot r → A'.count s = A.count s) (fun _ A' => A' = A) F A := by
  unfold wp ArbitraryComposer.retain
  split
  · rename_i heq
    split at heq
    · cases heq
    · cases heq
      exact ⟨h.retain hr hpos, ⟨rfl, rfl, rfl, rfl⟩, fun s hs => Function.update_of_ne hs _ _⟩
  · rename_i heq
    split at heq <;> cases heq
    rfl
  · rename_i heq
    split at heq <;> cases heq

/-- An object that is there can be read. -/
theorem wp_peek {Q : O → Arena V O → Prop} {E : PoolError → Arena V O → Prop} {F : Fault → Prop}
    (hl : A.cells.lookup (A.slot r) = some o) (hQ : Q o A) : wp (peek r) Q E F A := by
  simp only [wp, peek, hl]
  exact hQ

/-- Copying a reference stops at the ceiling. -/
theorem copyRef_spec (h : A.Sound batch held) (hr : A.Names r) (hpos : A.count (A.slot r) ≠ 0) :
    wp (copyRef r) (fun _ A' => A'.Sound batch (r ::ₘ held) ∧ A.SameMemory A')
      (fun _ _ => False) (· = .countOverflow) A := by
  unfold wp copyRef
  split
  · rename_i heq
    split at heq
    · cases heq
    · cases heq
      exact ⟨h.retain hr hpos, rfl, rfl, rfl, rfl⟩
  · rename_i heq
    split at heq <;> cases heq
  · rename_i heq
    split at heq <;> cases heq
    rfl

/-- A held reference can be released. -/
theorem release_spec {E : PoolError → Arena V O → Prop} {F : Fault → Prop}
    (h : A.Sound batch (r ::ₘ held)) :
    wp (ArbitraryComposer.release r) (fun _ A' => A'.Sound batch held ∧ A.SameMemory A' ∧
        ∀ s, s ≠ A.slot r → A'.count s = A.count s) E F A := by
  have hpos := h.count_pos
  have hsound := h.release
  unfold wp ArbitraryComposer.release
  simp only [if_neg (show ¬ A.count (A.slot r) = 0 by omega)]
  refine ⟨hsound, ?_, fun s hs => ?_⟩
  · split <;> exact ⟨rfl, rfl, rfl, rfl⟩
  · split <;> exact Function.update_of_ne hs _ _

/-- The releases of a list of held references. -/
theorem releases_spec {E : PoolError → Arena V O → Prop} {F : Fault → Prop}
    {rs : List (V × ℕ)} (h : A.Sound batch ((rs : Multiset (V × ℕ)) + held)) :
    wp (forEach rs ArbitraryComposer.release)
      (fun _ A' => A'.Sound batch held ∧ A.SameMemory A') E F A := by
  induction rs generalizing A with
  | nil => exact ⟨by simpa using h, .refl⟩
  | cons r rs ih =>
    rw [← Multiset.cons_coe, Multiset.cons_add] at h
    simp only [forEach, wp_bind]
    refine wp_imp (release_spec h) (fun _ A' hA' => ?_) fun _ _ h => h
    exact wp_imp (ih hA'.1) (fun _ A'' hA'' => ⟨hA''.1, hA'.2.1.trans hA''.2⟩) fun _ _ h => h

/-! ## Objects -/

/-- An object whose only reference is held by the caller is stored nowhere. -/
theorem Sound.not_mem_out (h : A.Sound batch (r ::ₘ held)) (hone : A.count (A.slot r) = 1) :
    A.slot r ∉ held.map A.slot ∧ ∀ s ∈ A.graph.nodes, A.slot r ∉ A.graph.out s := by
  have hr : A.slot r ∈ A.graph.nodes :=
    Sound.mem_keys_of_names (h.held_names r (Multiset.mem_cons_self r held))
  have hcount := h.exact.count_eq _ hr
  rw [Multiset.map_cons, Multiset.count_cons_self] at hcount
  change A.count (A.slot r) = _ at hcount
  refine ⟨fun hm => ?_, fun s hs hm => ?_⟩
  · have := Multiset.count_pos.mpr hm
    omega
  · have hpos : 0 < (A.graph.out s).count (A.slot r) := Multiset.count_pos.mpr hm
    have hle : (A.graph.out s).count (A.slot r) ≤ A.graph.inDegree (A.slot r) :=
      Finset.single_le_sum (f := fun b => (A.graph.out b).count (A.slot r))
        (fun _ _ => Nat.zero_le _) hs
    omega

theorem lookup_setCell {s s' : ℕ × ℕ} :
    (A.setCell s o).cells.lookup s' = if s' = s then some o else A.cells.lookup s' := by
  unfold setCell
  split
  · subst s'
    exact Finmap.lookup_insert _
  · exact Finmap.lookup_insert_of_ne _ ‹_›

theorem nodes_setCell {s : ℕ × ℕ} : (A.setCell s o).graph.nodes = insert s A.graph.nodes := by
  ext a
  simp only [graph, setCell, Finmap.mem_keys, Finmap.mem_insert, Finset.mem_insert]

theorem out_setCell {s : ℕ × ℕ} (a : ℕ × ℕ) : (A.setCell s o).graph.out a =
    if a = s then (((edges o).map A.slot : List (ℕ × ℕ)) : Multiset (ℕ × ℕ))
    else A.graph.out a := by
  simp only [graph, lookup_setCell]
  split <;> rfl

theorem extends_setCell {s : ℕ × ℕ} (hs : s ∉ A.cells) : A.Extends (A.setCell s o) := by
  refine ⟨rfl, fun s' o' hl => ?_⟩
  rw [lookup_setCell, if_neg, hl]
  rintro rfl
  exact hs (Finmap.mem_of_lookup_eq_some hl)

/-- The slots of the objects kept apart from the rest may be written. -/
theorem Extends.setCell {s : ℕ × ℕ} (h : A.Extends A') (hs : s ∉ A.cells) :
    A.Extends (A'.setCell s o) := by
  refine ⟨h.storeOf_eq, fun s' o' hl => ?_⟩
  rw [lookup_setCell, if_neg, h.lookup_eq s' o' hl]
  rintro rfl
  exact hs (Finmap.mem_of_lookup_eq_some hl)

theorem names_setCell_of_ne {s : ℕ × ℕ} (hne : A.slot r ≠ s) :
    (A.setCell s o).Names r ↔ A.Names r := by
  rw [Names, show (A.setCell s o).slot r = A.slot r from rfl, lookup_setCell, if_neg hne, Names]

/-- Overwriting an object with one of its type changes no name. -/
theorem names_setCell {o' : O} {s : ℕ × ℕ} (hl : A.cells.lookup s = some o)
    (hv : view o' = view o) (r' : V × ℕ) : (A.setCell s o').Names r' ↔ A.Names r' := by
  rw [Names, show (A.setCell s o').slot r' = A.slot r' from rfl, lookup_setCell, Names]
  split
  · rename_i heq
    rw [heq, hl, Option.map_some, Option.map_some, hv]
  · exact Iff.rfl

/-- A new object without references, in an empty slot of its class, is held once. -/
theorem Sound.addCell {i : ℕ} (h : A.Sound batch held) (hs : (A.storeOf (view o), i) ∉ A.cells)
    (ho : edges o = []) :
    Sound { A.setCell (A.storeOf (view o), i) o with
      count := Function.update A.count (A.storeOf (view o), i) 1
      made := o :: A.made }
      batch ((view o, i) ::ₘ held) := by
  set s := (A.storeOf (view o), i) with hs_def
  have hext : A.Extends (A.setCell s o) := extends_setCell hs
  have hnode : s ∉ A.graph.nodes := fun hm => hs (Finmap.mem_keys.mp hm)
  have hnew : (A.setCell s o).Names (view o, i) := by
    rw [Names, show (A.setCell s o).slot (view o, i) = s from rfl, lookup_setCell, if_pos rfl]
    rfl
  -- the graph of the new arena is the old one with a node added
  have hout : ∀ a, (A.setCell s o).graph.out a = (A.graph.create s).out a := by
    intro a
    rw [out_setCell, ho]
    by_cases ha : a = s
    · subst ha
      simp [RefGraph.create]
    · simp only [if_neg ha, RefGraph.create, Function.update_of_ne ha]
  have hkeys : (A.setCell s o).graph.nodes = (A.graph.create s).nodes := nodes_setCell
  constructor
  · intro s' o' hl
    rw [show Finmap.lookup s' _ = _ from lookup_setCell] at hl
    split at hl
    · subst s'
      cases hl
      rfl
    · exact h.cell_slot s' o' hl
  · intro s' o' hl r hr
    rw [show Finmap.lookup s' _ = _ from lookup_setCell] at hl
    split at hl
    · cases hl
      rw [ho] at hr
      cases hr
    · exact hext.names (h.edge_names s' o' hl r hr)
  · intro r hr
    rcases Multiset.mem_cons.mp hr with rfl | hr
    · exact hnew
    · exact hext.names (h.held_names r hr)
  · rw [Multiset.map_cons]
    exact (h.exact.create hnode).congr hkeys (fun a _ => hout a) fun _ _ => rfl
  · exact (h.ranked.create hnode).congr hkeys.le fun a _ => hout a
  · intro r
    have hw := h.waiting r
    change batch.count r + (A.pending r.1).count r.2 =
      if (A.setCell s o).Names r ∧ Function.update A.count s 1 (A.slot r) = 0 then 1 else 0
    by_cases hrs : A.slot r = s
    · have hn : ¬ A.Names r := fun hn => hs (hrs ▸ hn.mem)
      rw [if_neg (fun hc => hn hc.1)] at hw
      rw [hrs, Function.update_self, if_neg (by omega)]
      exact hw
    · rw [Function.update_of_ne hrs]
      simp only [names_setCell_of_ne hrs]
      exact hw
  · change ((List.filter immutable (o :: A.made) : List O) : Multiset O) = _
    refine Eq.trans ?_ (congrArg _ (Eq.symm (live_create (A := A) hs rfl rfl)))
    rw [show o :: A.made = [o] ++ A.made from rfl, List.filter_append, ← Multiset.coe_add, h.books]
    exact add_left_comm _ _ _

/-- Overwriting an object with one of its type leaves everything sound when the graph stays
exact and without a cycle. -/
private theorem Sound.setCell {held' : Multiset (V × ℕ)} {o' : O} (h : A.Sound batch held)
    (hl : A.cells.lookup (A.slot r) = some o) (hv : view o' = view o)
    (ho : immutable o = false) (ho' : immutable o' = false)
    (hedges : ∀ r' ∈ edges o', A.Names r') (hheld : ∀ r' ∈ held', A.Names r')
    (hexact : (A.setCell (A.slot r) o').graph.Exact (held'.map A.slot))
    (hranked : (A.setCell (A.slot r) o').graph.Ranked) :
    (A.setCell (A.slot r) o').Sound batch held' := by
  have hnames := names_setCell hl hv
  refine ⟨fun s' o'' hs' => ?_, fun s' o'' hs' r' hr' => ?_, fun r' hr' => ?_, hexact, hranked,
    fun r' => ?_, h.books.trans (congrArg _ (live_setCell hl ho ho').symm)⟩
  · rw [lookup_setCell] at hs'
    split at hs'
    · subst s'
      cases hs'
      rw [hv]
      exact h.cell_slot _ _ hl
    · exact h.cell_slot s' o'' hs'
  · rw [hnames]
    rw [lookup_setCell] at hs'
    split at hs'
    · cases hs'
      exact hedges r' hr'
    · exact h.edge_names s' o'' hs' r' hr'
  · exact (hnames r').mpr (hheld r' hr')
  · simp only [hnames]
    exact h.waiting r'

/-- An object is overwritten with one that stores one more reference, which was held. -/
theorem Sound.link {child : V × ℕ} {o' : O} (h : A.Sound batch (child ::ₘ r ::ₘ held))
    (hone : A.count (A.slot r) = 1) (hl : A.cells.lookup (A.slot r) = some o)
    (hv : view o' = view o) (ho : immutable o = false) (ho' : immutable o' = false)
    (he : (edges o' : Multiset (V × ℕ)) = child ::ₘ (edges o)) :
    (A.setCell (A.slot r) o').Sound batch (r ::ₘ held) := by
  have hswap : child ::ₘ r ::ₘ held = r ::ₘ child ::ₘ held := Multiset.cons_swap _ _ _
  obtain ⟨hheld, hin⟩ := (hswap ▸ h).not_mem_out hone
  have hne : A.slot child ≠ A.slot r := fun heq =>
    hheld (heq ▸ Multiset.mem_map_of_mem A.slot (Multiset.mem_cons_self child held))
  have hkey : A.slot r ∈ A.graph.nodes := Finmap.mem_keys.mpr (Finmap.mem_of_lookup_eq_some hl)
  have hkeys : (A.setCell (A.slot r) o').graph.nodes = A.graph.nodes := by
    rw [nodes_setCell, Finset.insert_eq_of_mem hkey]
  have hout : ∀ a, (A.setCell (A.slot r) o').graph.out a =
      (A.graph.link (A.slot r) (A.slot child)).out a := by
    intro a
    rw [out_setCell]
    by_cases ha : a = A.slot r
    · subst ha
      rw [if_pos rfl, ← Multiset.map_coe, he, Multiset.map_cons, Multiset.map_coe]
      simp only [RefGraph.link, Function.update_self, graph, hl, Option.elim_some]
    · rw [if_neg ha]
      simp only [RefGraph.link, Function.update_of_ne ha]
  have hexact := h.exact
  rw [Multiset.map_cons] at hexact
  refine h.setCell hl hv ho ho' (fun r' hr' => ?_)
    (fun r' hr' => h.held_names r' (Multiset.mem_cons_of_mem hr'))
    ((hexact.link hkey).congr hkeys (fun a _ => hout a) fun _ _ => rfl)
    ((h.ranked.link hne hin).congr hkeys.le fun a _ => hout a)
  have hmem : r' ∈ child ::ₘ (edges o : Multiset (V × ℕ)) := he ▸ hr'
  rcases Multiset.mem_cons.mp hmem with rfl | hmem
  · exact h.held_names r' (Multiset.mem_cons_self _ _)
  · exact h.edge_names _ _ hl r' hmem

/-- An object is overwritten with one of its type that stores the same references. -/
theorem Sound.rewrite {o' : O} (h : A.Sound batch held) (hl : A.cells.lookup (A.slot r) = some o)
    (hv : view o' = view o) (ho : immutable o = false) (ho' : immutable o' = false)
    (he : edges o' = edges o) :
    (A.setCell (A.slot r) o').Sound batch held := by
  have hkey : A.slot r ∈ A.graph.nodes := Finmap.mem_keys.mpr (Finmap.mem_of_lookup_eq_some hl)
  have hkeys : (A.setCell (A.slot r) o').graph.nodes = A.graph.nodes := by
    rw [nodes_setCell, Finset.insert_eq_of_mem hkey]
  have hout : ∀ a, (A.setCell (A.slot r) o').graph.out a = A.graph.out a := by
    intro a
    rw [out_setCell]
    split
    · subst a
      simp only [he, graph, hl, Option.elim_some]
    · rfl
  exact h.setCell hl hv ho ho' (fun r' hr' => h.edge_names _ _ hl r' (he ▸ hr')) h.held_names
    (h.exact.congr hkeys (fun a _ => hout a) fun _ _ => rfl)
    (h.ranked.congr hkeys.le fun a _ => hout a)

/-! ## Places -/

/-- Replacing one store of an arena that gives the slots of the other classes the same places. -/
theorem Placed.of_setStore {extra' : Multiset (ℕ × ℕ)} {c : ℕ} {store : SlotStore}
    (h : A.Placed extra) (hs : A'.stores = Function.update A.stores c store)
    (hother : ∀ c' i, c' ≠ c → A'.heldAt extra' c' i = A.heldAt extra c' i)
    (hc : store.Partition (A'.heldAt extra' c)) : A'.Placed extra' := by
  intro c'
  rw [hs]
  by_cases hcc : c' = c
  · subst hcc
    rwa [Function.update_self]
  · rw [Function.update_of_ne hcc]
    exact (h c').congr fun i => hother c' i hcc

/-! ## Owned references -/

/-- Between two operations: the counts are exact for the references held, and every slot has
its place. -/
structure Owned (A : Arena V O) (held : Multiset (V × ℕ)) : Prop where
  /-- The counts are exact. -/
  sound : A.Sound [] held
  /-- Every slot has one place. -/
  placed : A.Placed 0

theorem owned_init (storeOf : V → ℕ) (chunkBits : ℕ → ℕ) (source : ℕ → ChunkSource)
    {fence : Option DurabilityEpochFence} (hf : ∀ f ∈ fence, f.quarantine = []) :
    (init storeOf chunkBits source fence : Arena V O).Owned 0 := by
  set A : Arena V O := init storeOf chunkBits source fence
  have hlook : ∀ s, A.cells.lookup s = none := fun s => Finmap.lookup_empty s
  have hnodes : A.graph.nodes = ∅ := Finmap.keys_empty
  refine ⟨⟨fun s o hl => ?_, fun s o hl => ?_, by simp, ⟨?_, by simp, ?_⟩, ⟨fun _ => 0, ?_⟩,
    fun r => ?_, by rw [live, show A.cells.keys = ∅ from hnodes]; rfl⟩, fun c => ?_⟩
  · rw [hlook] at hl
    cases hl
  · rw [hlook] at hl
    cases hl
  · simp [hnodes]
  · simp [hnodes]
  · simp [hnodes]
  · have hn : ¬ A.Names r := fun hn => by
      rw [Names, hlook] at hn
      cases hn
    rw [if_neg fun hc => hn hc.1]
    rfl
  · refine (SlotStore.partition_init (chunkBits c) (source c)).congr fun i => ?_
    have hcell : (c, i) ∉ A.cells := Finmap.notMem_empty
    have hq : A.fence.elim [] (fun fence => fence.quarantine.map fun q => (q.store, q.index)) =
        [] := by
      change fence.elim [] _ = []
      cases fence with
      | none => rfl
      | some f => rw [Option.elim_some, hf f rfl, List.map_nil]
    rw [heldAt, if_neg hcell, hq]
    rfl

/-- Retaining a resource for an object is noted. -/
theorem Owned.setRetained (h : A.Owned held) (retained : List O) :
    ({ A with retained := retained } : Arena V O).Owned held :=
  have hs := h.sound
  ⟨⟨hs.cell_slot, hs.edge_names, hs.held_names, hs.exact, hs.ranked, hs.waiting, hs.books⟩,
    h.placed⟩

theorem Owned.of_sameMemory {held' : Multiset (V × ℕ)} (h : A.Owned held) (hs : A.SameMemory A')
    (h' : A'.Sound [] held') : A'.Owned held' :=
  ⟨h', hs.placed h.placed⟩

/-- A reference stored in an object is counted. -/
theorem Sound.count_ne_zero_of_edge {s : ℕ × ℕ} (h : A.Sound batch held)
    (hl : A.cells.lookup s = some o) (hr : r ∈ edges o) : A.count (A.slot r) ≠ 0 := by
  intro h0
  have hnode : s ∈ A.graph.nodes := Finmap.mem_keys.mpr (Finmap.mem_of_lookup_eq_some hl)
  have hout : A.slot r ∈ A.graph.out s := by
    change A.slot r ∈ (((A.cells.lookup s).elim [] edges).map A.slot : List (ℕ × ℕ))
    rw [hl]
    exact List.mem_map_of_mem hr
  exact ((h.exact.count_eq_zero_iff (h.exact.out_mem s hnode _ hout)).mp h0).1 s hnode hout

/-- Creating hands out the one reference to a new object, or changes no object. -/
theorem create_spec {F : Fault → Prop} (h : A.Owned held) (ho : edges o = []) :
    wp (create t o)
      (fun i A' => A'.Owned ((view o, i) ::ₘ held) ∧ A.Extends A' ∧
        A'.cells.lookup (A.slot (view o, i)) = some o ∧ A'.count (A.slot (view o, i)) = 1 ∧
        A.slot (view o, i) ∉ A.cells)
      (fun _ A' => A'.Owned held ∧ A.Extends A') F A := by
  have hpart := h.placed (A.storeOf (view o))
  unfold wp create
  rcases ha : (A.stores (A.storeOf (view o))).allocate t with ⟨e | i, store⟩ <;> simp only [ha]
  · obtain ⟨hp, -⟩ := hpart.allocate_error ha
    have hs := h.sound
    refine ⟨⟨⟨hs.cell_slot, hs.edge_names, hs.held_names, hs.exact, hs.ranked, hs.waiting,
      hs.books⟩, ?_⟩, rfl, fun _ _ hl => hl⟩
    exact h.placed.of_setStore rfl (fun _ _ _ => rfl) hp
  · obtain ⟨hzero, hp, -⟩ := hpart.allocate_ok ha
    have hfresh : (A.storeOf (view o), i) ∉ A.cells := by
      intro hm
      rw [heldAt, if_pos hm] at hzero
      omega
    have hs := h.sound.addCell hfresh ho
    refine ⟨⟨⟨hs.cell_slot, hs.edge_names, hs.held_names, hs.exact, hs.ranked, hs.waiting,
      hs.books⟩, ?_⟩, ⟨rfl, (extends_setCell hfresh).lookup_eq⟩, ?_, Function.update_self .., hfresh⟩
    · -- the new object is the one place of its slot
      refine h.placed.of_setStore (c := A.storeOf (view o)) rfl (fun c' i' hc' => ?_)
        (hp.congr fun i' => ?_)
      · have hne : (c', i') ≠ (A.storeOf (view o), i) := fun heq => hc' (Prod.ext_iff.mp heq).1
        simp only [heldAt, Arena.setCell, setStore, Finmap.mem_insert, hne, false_or]
      · by_cases hi : i' = i
        · subst hi
          rw [Function.update_self]
          simp only [heldAt, if_neg hfresh] at hzero
          simp only [heldAt, Arena.setCell, setStore, Finmap.mem_insert, true_or, if_true]
          omega
        · have hne : (A.storeOf (view o), i') ≠ (A.storeOf (view o), i) :=
            fun heq => hi (Prod.ext_iff.mp heq).2
          rw [Function.update_of_ne hi]
          simp only [heldAt, Arena.setCell, setStore, Finmap.mem_insert, hne, false_or]
    · exact (lookup_setCell (A := A)).trans (if_pos rfl)

/-- A reference held or stored: the writer may take a count on it. -/
def Live (A : Arena V O) (held : Multiset (V × ℕ)) (r : V × ℕ) : Prop :=
  r ∈ held ∨ ∃ s o, A.cells.lookup s = some o ∧ r ∈ edges o

theorem Live.names (hr : A.Live held r) (h : A.Sound batch held) : A.Names r := by
  rcases hr with hr | ⟨s, o, hl, hr⟩
  · exact h.held_names r hr
  · exact h.edge_names s o hl r hr

theorem Live.count_ne_zero (hr : A.Live held r) (h : A.Sound batch held) :
    A.count (A.slot r) ≠ 0 := by
  rcases hr with hr | ⟨s, o, hl, hr⟩
  · obtain ⟨rest, rfl⟩ := Multiset.exists_cons_of_mem hr
    exact h.count_pos.ne'
  · exact h.count_ne_zero_of_edge hl hr

/-- What was live stays live while objects are only added and references only taken. -/
theorem Live.extends {held' : Multiset (V × ℕ)} (hr : A.Live held r) (h : A.Extends A')
    (hle : held ⊆ held') : A'.Live held' r := by
  rcases hr with hr | ⟨s, o, hl, hr⟩
  · exact Or.inl (hle hr)
  · exact Or.inr ⟨s, o, h.lookup_eq s o hl, hr⟩

/-- A reference to a live object is retained. -/
theorem retain_owned {F : Fault → Prop} (h : A.Owned held) (hr : A.Live held r) :
    wp (ArbitraryComposer.retain r) (fun _ A' => A'.Owned (r ::ₘ held) ∧ A.SameMemory A' ∧
        ∀ s, s ≠ A.slot r → A'.count s = A.count s) (fun _ A' => A' = A) F A :=
  wp_imp (retain_spec h.sound (hr.names h.sound) (hr.count_ne_zero h.sound))
    (fun _ _ hA => ⟨h.of_sameMemory hA.2.1 hA.1, hA.2⟩) fun _ _ hA => hA

/-- A held reference is dropped. -/
theorem release_owned {E : PoolError → Arena V O → Prop} {F : Fault → Prop}
    (h : A.Owned (r ::ₘ held)) :
    wp (ArbitraryComposer.release r) (fun _ A' => A'.Owned held ∧ A.SameMemory A' ∧
        ∀ s, s ≠ A.slot r → A'.count s = A.count s) E F A :=
  wp_imp (release_spec h.sound) (fun _ _ hA => ⟨h.of_sameMemory hA.2.1 hA.1, hA.2⟩)
    fun _ _ hA => hA

/-- An object the caller alone refers to gets one more reference, which the caller held. -/
theorem Owned.link {child : V × ℕ} {o' : O} (h : A.Owned (child ::ₘ r ::ₘ held))
    (hone : A.count (A.slot r) = 1) (hl : A.cells.lookup (A.slot r) = some o)
    (hv : view o' = view o) (ho : immutable o = false) (ho' : immutable o' = false)
    (he : (edges o' : Multiset (V × ℕ)) = child ::ₘ (edges o)) :
    (A.setCell (A.slot r) o').Owned (r ::ₘ held) :=
  ⟨h.sound.link hone hl hv ho ho' he, fun c => (h.placed c).congr fun i => by
    have hm := Finmap.mem_of_lookup_eq_some hl
    by_cases hi : (c, i) = A.slot r
    · simp [heldAt, setCell, Finmap.mem_insert, hi, hm]
    · simp [heldAt, setCell, Finmap.mem_insert, hi]⟩

/-- An object is rewritten without changing the references it stores. -/
theorem Owned.rewrite {o' : O} (h : A.Owned held) (hl : A.cells.lookup (A.slot r) = some o)
    (hv : view o' = view o) (ho : immutable o = false) (ho' : immutable o' = false)
    (he : edges o' = edges o) : (A.setCell (A.slot r) o').Owned held :=
  ⟨h.sound.rewrite hl hv ho ho' he, fun c => (h.placed c).congr fun i => by
    have hm := Finmap.mem_of_lookup_eq_some hl
    by_cases hi : (c, i) = A.slot r
    · simp [heldAt, setCell, Finmap.mem_insert, hi, hm]
    · simp [heldAt, setCell, Finmap.mem_insert, hi]⟩

/-! ## What held references reach -/

theorem Preserves.refl : A.Preserves held A := ⟨rfl, fun _ _ => rfl⟩

/-- What a held reference reaches does not depend on the rest of the memory. -/
theorem Preserves.reachable {s : ℕ × ℕ} (h : A.Preserves held A')
    (hs : A.graph.Reachable (held.map A.slot) s) :
    A'.graph.Reachable (held.map A'.slot) s := by
  have hslot : A'.slot = A.slot := by
    funext r
    rw [slot, h.storeOf_eq, slot]
  obtain ⟨root, hroot, hpath⟩ := hs
  refine ⟨root, hslot ▸ hroot, ?_⟩
  induction hpath with
  | refl => exact .refl
  | @tail b c hpath hedge ih =>
    refine ih.tail ?_
    -- the object at `b` is unchanged, so its references are
    have hb : A'.cells.lookup b = A.cells.lookup b := h.lookup_eq b ⟨root, hroot, hpath⟩
    obtain ⟨hnode, hout⟩ := hedge
    obtain ⟨o, ho⟩ := Finmap.mem_iff.mp (Finmap.mem_keys.mp hnode)
    refine ⟨Finmap.mem_keys.mpr (Finmap.mem_of_lookup_eq_some (hb.trans ho)), ?_⟩
    change c ∈ (((A'.cells.lookup b).elim [] edges).map A'.slot : List (ℕ × ℕ))
    rw [hb, hslot]
    exact hout

theorem Preserves.trans (h : A.Preserves held A') (h' : A'.Preserves held A'') :
    A.Preserves held A'' :=
  ⟨h'.storeOf_eq.trans h.storeOf_eq,
    fun s hs => (h'.lookup_eq s (h.reachable hs)).trans (h.lookup_eq s hs)⟩

/-- Once every reclaim stack is empty, an object is there exactly when a held reference reaches
it. -/
theorem Owned.mem_iff_reachable (h : A.Owned held) (hdrained : ∀ v, A.pending v = [])
    {s : ℕ × ℕ} : s ∈ A.cells ↔ A.graph.Reachable (held.map A.slot) s := by
  rw [← Finmap.mem_keys]
  refine h.sound.exact.mem_nodes_iff_reachable h.sound.ranked fun s hs h0 => ?_
  obtain ⟨o, ho⟩ := Finmap.mem_iff.mp (Finmap.mem_keys.mp hs)
  have hslot : A.slot (view o, s.2) = s := Prod.ext (h.sound.cell_slot s o ho).symm rfl
  have hn : A.Names (view o, s.2) := by
    rw [Names, hslot, ho]
    rfl
  have hw := h.sound.waiting (view o, s.2)
  rw [if_pos ⟨hn, hslot ▸ h0⟩, hdrained] at hw
  simp at hw

end Arena

end ArbitraryComposer
