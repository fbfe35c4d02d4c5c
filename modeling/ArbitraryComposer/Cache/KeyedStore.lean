import ArbitraryComposer.ToMathlib.Machine
import Mathlib.Algebra.Group.Nat.Defs
import Mathlib.Data.List.Nodup

/-!
# The Keyed Store of the Cache

Tiles and blocks are cached under keys in a store with a byte budget. An insertion over budget
evicts the least recently used entry of the lowest priority class first. A hold pins the entry it
was given for; an entry that is removed or replaced while pinned leaves the map at once and is
destroyed by its last hold. Byte counts are machine words and wrap as they do in the source.

The order in which the map is iterated is unspecified in the source; here it is the order of a
list, and no result depends on it.

## Main definitions

- `KeyedStore`: the map, the orphans and the counters.
- `KeyedStore.insert`, `lookup`, `reclassify`, `remove`, `removeIf`, `unpin`: the interface.
- `cacheModel`: the machine of all runs of a store and the holds on it.
-/

namespace ArbitraryComposer

/-- `PriorityClass`. -/
inductive PriorityClass where
  /-- Evicted first. -/
  | speculative
  /-- Recently visible. -/
  | recent
  /-- The prefetch ring of upcoming frames. -/
  | temporal
  /-- The ring around the view. -/
  | adjacent
  /-- Evicted last. -/
  | visible
  deriving DecidableEq, Repr

/-- `cache_eviction_order`. -/
def cacheEvictionOrder : List PriorityClass := [.speculative, .recent, .temporal, .adjacent, .visible]

/-- The place of a class in the eviction order. -/
def PriorityClass.rank (klass : PriorityClass) : ℕ := cacheEvictionOrder.idxOf klass

/-- `CacheEntry`, with the identity a hold refers to it by. -/
structure CacheEntry (ν : Type) where
  /-- The identity of the allocation. -/
  id : ℕ
  /-- The value. -/
  value : ν
  /-- Its cost. -/
  bytes : UInt64
  /-- Its priority class. -/
  klass : PriorityClass
  /-- The tick of its last use. -/
  recency : ℕ
  /-- The number of holds. -/
  pins : ℕ
  /-- Removed while pinned. -/
  removed : Bool
  deriving DecidableEq

/-- One hold less. -/
def CacheEntry.unpin {ν : Type} (e : CacheEntry ν) : CacheEntry ν := { e with pins := e.pins - 1 }

/-- A use pins an entry and moves it to the front of its class. -/
def CacheEntry.use {ν : Type} (tick : ℕ) (e : CacheEntry ν) : CacheEntry ν :=
  { e with recency := tick, pins := e.pins + 1 }

/-- `KeyedStore`, with the identities it has allocated and those it has destroyed. -/
structure KeyedStore (κ ν : Type) where
  /-- `d_budget`. -/
  budget : UInt64
  /-- `d_resident`. -/
  resident : UInt64 := 0
  /-- `d_tick`. -/
  tick : ℕ := 0
  /-- `d_hits`. -/
  hits : ℕ := 0
  /-- `d_misses`. -/
  misses : ℕ := 0
  /-- `d_evictions`. -/
  evictions : ℕ := 0
  /-- `d_map`. -/
  map : List (κ × CacheEntry ν) := []
  /-- `d_orphans`. -/
  orphans : List (CacheEntry ν) := []
  /-- The next identity. -/
  next : ℕ := 0
  /-- The identities of the entries destroyed, newest first. -/
  dropped : List ℕ := []
  deriving DecidableEq

namespace KeyedStore

variable {κ ν : Type} [DecidableEq κ]

/-- Every entry that is not destroyed. -/
def entries (s : KeyedStore κ ν) : List (CacheEntry ν) := s.map.map Prod.snd ++ s.orphans

/-- `d_map.find`. -/
def find? (s : KeyedStore κ ν) (key : κ) : Option (κ × CacheEntry ν) :=
  s.map.find? fun p => p.1 = key

/-- Change the entry of an identity wherever it is. -/
def modifyEntry (s : KeyedStore κ ν) (id : ℕ) (f : CacheEntry ν → CacheEntry ν) :
    KeyedStore κ ν :=
  { s with
    map := s.map.map fun p => (p.1, if p.2.id = id then f p.2 else p.2)
    orphans := s.orphans.map fun e => if e.id = id then f e else e }

/-- `unpin`. -/
def unpin (s : KeyedStore κ ν) (id : ℕ) : KeyedStore κ ν :=
  let s := s.modifyEntry id CacheEntry.unpin
  match s.entries.find? fun e => e.id = id with
  | some e =>
    if e.pins = 0 ∧ e.removed = true then
      { s with
        resident := s.resident - e.bytes
        orphans := s.orphans.eraseP fun o => o.id = id
        dropped := id :: s.dropped }
    else
      s
  | none => s

/-- `detach` of the entry under a key, if there is one. -/
def detach (s : KeyedStore κ ν) (key : κ) : KeyedStore κ ν :=
  match s.find? key with
  | some (_, e) =>
    if e.pins = 0 then
      { s with
        resident := s.resident - e.bytes
        map := s.map.eraseP fun p => p.1 = key
        dropped := e.id :: s.dropped }
    else
      { s with
        map := s.map.eraseP fun p => p.1 = key
        orphans := s.orphans ++ [{ e with removed := true }] }
  | none => s

/-- The inner loop of `pick_victim`. -/
def minRecency (klass : PriorityClass) (map : List (κ × CacheEntry ν)) :
    Option (κ × CacheEntry ν) :=
  map.foldl (fun victim p =>
    if p.2.klass ≠ klass ∨ p.2.pins ≠ 0 then
      victim
    else
      match victim with
      | none => some p
      | some v => if p.2.recency < v.2.recency then some p else some v) none

/-- `pick_victim`. -/
def pickVictim (s : KeyedStore κ ν) : Option (κ × CacheEntry ν) :=
  cacheEvictionOrder.findSome? fun klass => minRecency klass s.map

/-- A victim is evicted. -/
def evict (s : KeyedStore κ ν) (victim : κ × CacheEntry ν) : KeyedStore κ ν :=
  { s with
    resident := s.resident - victim.2.bytes
    evictions := s.evictions + 1
    map := s.map.eraseP fun p => p.1 = victim.1
    dropped := victim.2.id :: s.dropped }

/-- The loop of `evict_to_fit`; every round takes an entry from the map. -/
def evictLoop (incoming : UInt64) : ℕ → KeyedStore κ ν → KeyedStore κ ν
  | 0, s => s
  | n + 1, s =>
    if s.budget < s.resident + incoming then
      match s.pickVictim with
      | some victim => evictLoop incoming n (s.evict victim)
      | none => s
    else
      s

/-- `evict_to_fit`. -/
def evictToFit (s : KeyedStore κ ν) (incoming : UInt64) : KeyedStore κ ν :=
  evictLoop incoming s.map.length s

/-- `insert`, and the entry of the hold it returns. -/
def insert (s : KeyedStore κ ν) (key : κ) (value : ν) (bytes : UInt64) (klass : PriorityClass) :
    ℕ × KeyedStore κ ν :=
  let s := (s.detach key).evictToFit bytes
  (s.next, { s with
    tick := s.tick + 1
    resident := s.resident + bytes
    map := (key, ⟨s.next, value, bytes, klass, s.tick + 1, 1, false⟩) :: s.map
    next := s.next + 1 })

/-- `lookup`, and the entry of the hold it returns. -/
def lookup (s : KeyedStore κ ν) (key : κ) : Option ℕ × KeyedStore κ ν :=
  match s.find? key with
  | none => (none, { s with misses := s.misses + 1 })
  | some (_, e) =>
    let s' := s.modifyEntry e.id (CacheEntry.use (s.tick + 1))
    (some e.id, { s' with hits := s.hits + 1, tick := s.tick + 1 })

/-- `reclassify`. -/
def reclassify (s : KeyedStore κ ν) (key : κ) (klass : PriorityClass) : KeyedStore κ ν :=
  { s with map := s.map.map fun p => (p.1, if p.1 = key then { p.2 with klass := klass } else p.2) }

/-- `remove`. -/
def remove (s : KeyedStore κ ν) (key : κ) : KeyedStore κ ν := s.detach key

/-- `remove_if`. -/
def removeIf (s : KeyedStore κ ν) (pred : κ → Bool) : KeyedStore κ ν :=
  ((s.map.map Prod.fst).filter pred).foldl detach s

end KeyedStore

/-- A store and the holds on it. -/
structure CacheSession (κ ν : Type) where
  /-- The store. -/
  store : KeyedStore κ ν
  /-- The entry of each hold. -/
  holds : List ℕ

/-- What happens to a store. -/
inductive CacheEvent (κ ν : Type) where
  /-- `KeyedStore::insert`. -/
  | insert (key : κ) (value : ν) (bytes : UInt64) (klass : PriorityClass)
  /-- `KeyedStore::lookup`. -/
  | lookup (key : κ)
  /-- `KeyedStore::reclassify`. -/
  | reclassify (key : κ) (klass : PriorityClass)
  /-- `KeyedStore::remove`. -/
  | remove (key : κ)
  /-- `KeyedStore::remove_if`. -/
  | removeIf (pred : κ → Bool)
  /-- The end of a hold. -/
  | release (id : ℕ)

/-- The record of a run. -/
structure CacheLedger where
  /-- The entries used, newest first. -/
  uses : List ℕ := []
  /-- The entries that were removed, replaced or evicted. -/
  gone : List ℕ := []

section

variable {κ ν : Type} [DecidableEq κ]

/-- The effect of an event. A run stops where a counter of the source would wrap: a tick at
`2 ^ 64`, the holds on one entry at `2 ^ 32`; and a hold that is not there cannot end. -/
def CacheSession.step (e : CacheEvent κ ν) (s : CacheSession κ ν) : Option (CacheSession κ ν) :=
  match e with
  | .insert key value bytes klass =>
    let (id, store) := s.store.insert key value bytes klass
    if store.tick < 2 ^ 64 then some ⟨store, id :: s.holds⟩ else none
  | .lookup key =>
    match s.store.lookup key with
    | (none, store) => some ⟨store, s.holds⟩
    | (some id, store) =>
      if store.tick < 2 ^ 64 ∧ s.holds.count id + 1 < 2 ^ 32 then some ⟨store, id :: s.holds⟩
      else none
  | .reclassify key klass => some ⟨s.store.reclassify key klass, s.holds⟩
  | .remove key => some ⟨s.store.remove key, s.holds⟩
  | .removeIf pred => some ⟨s.store.removeIf pred, s.holds⟩
  | .release id => if id ∈ s.holds then some ⟨s.store.unpin id, s.holds.erase id⟩ else none

/-- The identities in the map. -/
def KeyedStore.ids (s : KeyedStore κ ν) : List ℕ := s.map.map fun p => p.2.id

/-- The record of an event: an insertion and a hit are uses. -/
def CacheLedger.record (e : CacheEvent κ ν) (s s' : CacheSession κ ν) (l : CacheLedger) :
    CacheLedger where
  uses :=
    match e with
    | .insert _ _ _ _ => s.store.next :: l.uses
    | .lookup key => (s.store.find? key).toList.map (fun p => p.2.id) ++ l.uses
    | _ => l.uses
  gone := s.store.ids.filter (fun id => id ∉ s'.store.ids) ++ l.gone

/-- All runs of a store, which starts empty with any budget. -/
def cacheModel (κ ν : Type) [DecidableEq κ] :
    Machine (CacheSession κ ν × CacheLedger) (CacheEvent κ ν) :=
  Machine.observe
    { start := fun s => ∃ budget, s = ⟨{ budget }, []⟩
      step := CacheSession.step }
    (fun _ => {}) CacheLedger.record

end

end ArbitraryComposer
