import ArbitraryComposer.ToMathlib.Machine
import ArbitraryComposer.ToMathlib.Tally
import Mathlib.Data.List.MinMax

/-!
# The Pyramid Cache

Images that name one file share its decoded pyramid. A cache owns the pyramids and bounds them by a
byte budget: it evicts the least recently used one that no render has pinned, and decodes it again
from the bytes it has kept when it is asked for. Pins are objects that are moved and destroyed by
any thread; every operation of the cache runs under its mutex.

Resident pyramids are in memory together, so the sum of their sizes is not cut to a machine word.

## Main definitions

- `PyramidCache`: the entries and the counters.
- `PyramidCache.resolve`, `pin`, `unpin`, `setByteBudget`: the operations.
- `PyramidPins`: a cache and all pins, with a record of what was asked and answered.
- `PyramidPins.machine`: all interleavings.
- `PyramidPins.Transparent`: what the cache promises.
-/

namespace ArbitraryComposer

/-- A `std::string`, which need not be text. -/
abbrev ByteString : Type := List UInt8

/-- `Pyramid::decode` and `Pyramid::resident_bytes`. -/
structure PyramidDecoder (π : Type) where
  /-- The pyramid of encoded bytes, if they can be decoded. -/
  decode : List UInt8 → Option π
  /-- The bytes of all levels. -/
  residentBytes : π → ℕ
  /-- Absence cannot be decoded. -/
  decode_nil : decode [] = none

/-- `PyramidCache::Entry`, with its key. -/
structure PyramidEntry (π : Type) where
  /-- The key. -/
  uri : ByteString
  /-- The source. -/
  encoded : List UInt8
  /-- The derived data, none when evicted. -/
  resident : Option π
  /-- Its size while resident. -/
  bytes : ℕ
  /-- The tick of the last use. -/
  recency : ℕ
  /-- The number of pins. -/
  pins : ℕ
  deriving DecidableEq

/-- The entry may be evicted. -/
def PyramidEntry.evictable {π : Type} (e : PyramidEntry π) : Bool :=
  e.resident.isSome && e.pins == 0

/-- One eviction: of which entry, and among which; and the uses so far, newest first. -/
structure PyramidEviction where
  /-- The entry that is evicted. -/
  victim : ByteString
  /-- All entries that might have been. -/
  candidates : List ByteString
  /-- The uses so far. -/
  uses : List ByteString
  deriving DecidableEq

/-- The victim is the least recently used candidate. -/
def PyramidEviction.IsLru (v : PyramidEviction) : Prop :=
  v.victim ∈ v.candidates ∧
    ∀ uri ∈ v.candidates, uri ≠ v.victim → v.uses.idxOf uri < v.uses.idxOf v.victim

/-- `PyramidCache`. -/
structure PyramidCache (π : Type) where
  /-- `d_by_uri`. Entries are never erased, so that a pin knows its entry by its place. -/
  entries : List (PyramidEntry π) := []
  /-- `d_budget`. -/
  budget : ℕ
  /-- `d_resident`. -/
  resident : ℕ := 0
  /-- `d_tick`. -/
  tick : ℕ := 0
  /-- `d_decodes_issued`. -/
  decodesIssued : ℕ := 0
  /-- The evictions, of which `d_evictions` is the number. -/
  evictions : List PyramidEviction := []
  /-- The URIs of the ticks, newest first, which no operation reads. -/
  uses : List ByteString := []
  deriving DecidableEq

/-- `PyramidPin`: the place of its entry, and the pyramid. -/
structure PyramidPin (π : Type) where
  /-- `d_cache` and `d_entry`. -/
  entry : Option ℕ := none
  /-- `d_pyramid`. -/
  pyramid : Option π := none
  deriving DecidableEq

namespace PyramidCache

variable {π : Type} (d : PyramidDecoder π)

/-- `d_by_uri.find`. -/
def find? (c : PyramidCache π) (uri : ByteString) : Option ℕ :=
  c.entries.findIdx? fun e => e.uri = uri

/-- The entries that may be evicted, with their places. -/
def candidates (c : PyramidCache π) : List (PyramidEntry π × ℕ) :=
  c.entries.zipIdx.filter fun p => p.1.evictable

/-- `pick_victim_locked`: the first of those with the least recency. -/
def pickVictim (c : PyramidCache π) : Option (PyramidEntry π × ℕ) :=
  c.candidates.argmin fun p => p.1.recency

/-- A victim is evicted. -/
def evict (c : PyramidCache π) (victim : PyramidEntry π × ℕ) : PyramidCache π :=
  { c with
    resident := c.resident - victim.1.bytes
    entries := c.entries.set victim.2 { victim.1 with bytes := 0, resident := none }
    evictions := ⟨victim.1.uri, c.candidates.map fun p => p.1.uri, c.uses⟩ :: c.evictions }

/-- The loop of `evict_to_fit_locked`; every round leaves an entry less to evict. -/
def evictLoop : ℕ → PyramidCache π → PyramidCache π
  | 0, c => c
  | n + 1, c =>
    if c.budget < c.resident then
      match c.pickVictim with
      | some victim => evictLoop n (c.evict victim)
      | none => c
    else c

/-- `evict_to_fit_locked`. -/
def evictToFit (c : PyramidCache π) : PyramidCache π := evictLoop c.entries.length c

/-- `refill_locked`. -/
def refill (c : PyramidCache π) (i : ℕ) (e : PyramidEntry π) : Option π × PyramidCache π :=
  match d.decode e.encoded with
  | none => (none, c)
  | some fresh =>
    (some fresh,
      { c with
        decodesIssued := c.decodesIssued + 1
        entries := c.entries.set i
          { e with bytes := d.residentBytes fresh, resident := some fresh }
        resident := c.resident + d.residentBytes fresh })

/-- The pyramid of an entry, decoded again if it was evicted. -/
def access (c : PyramidCache π) (i : ℕ) : Option π × PyramidCache π :=
  match c.entries[i]? with
  | none => (none, c)
  | some e =>
    match e.resident with
    | some p => (some p, c)
    | none => c.refill d i e

/-- The entry at a place changes. -/
def modify (c : PyramidCache π) (i : ℕ) (f : PyramidEntry π → PyramidEntry π) : PyramidCache π :=
  match c.entries[i]? with
  | none => c
  | some e => { c with entries := c.entries.set i (f e) }

/-- `entry.recency = ++d_tick`. -/
def touch (c : PyramidCache π) (i : ℕ) : PyramidCache π :=
  match c.entries[i]? with
  | none => c
  | some e =>
    { c with
      tick := c.tick + 1
      uses := e.uri :: c.uses
      entries := c.entries.set i { e with recency := c.tick + 1 } }

/-- `resolve` of a URI that is new. -/
def admitEntry (c : PyramidCache π) (uri : ByteString) (encoded : List UInt8) (fresh : π) :
    PyramidCache π :=
  let entry : PyramidEntry π :=
    { uri, encoded, resident := some fresh, bytes := d.residentBytes fresh, recency := c.tick + 1,
      pins := 0 }
  { c with
    decodesIssued := c.decodesIssued + 1
    tick := c.tick + 1
    uses := uri :: c.uses
    resident := c.resident + entry.bytes
    entries := c.entries ++ [entry] }

/-- `PyramidCache::resolve`. -/
def resolve (c : PyramidCache π) (uri : ByteString) (encoded : List UInt8) :
    Option π × PyramidCache π :=
  if uri = [] then (none, c)
  else if encoded = [] then (none, c)
  else
    match c.find? uri with
    | some i =>
      let (resident, c) := (c.touch i).access d i
      (resident, c.evictToFit)
    | none =>
      match d.decode encoded with
      | none => (none, c)
      | some fresh => (some fresh, (c.admitEntry d uri encoded fresh).evictToFit)

/-- `PyramidCache::pin`. -/
def pin (c : PyramidCache π) (uri : ByteString) : PyramidPin π × PyramidCache π :=
  if uri = [] then ({}, c)
  else
    match c.find? uri with
    | none => ({}, c)
    | some i =>
      match c.access d i with
      | (none, c) => ({}, c)
      | (some resident, c) =>
        -- the pin comes before the trimming, so that the entry is not its own victim
        let c := (c.modify i fun e => { e with pins := e.pins + 1 }).touch i
        (⟨some i, some resident⟩, c.evictToFit)

/-- `PyramidCache::unpin`. -/
def unpin (c : PyramidCache π) (i : ℕ) : PyramidCache π :=
  let c := c.modify i fun e => if e.pins > 0 then { e with pins := e.pins - 1 } else e
  match c.entries[i]? with
  | none => c
  | some e => if e.pins = 0 then c.evictToFit else c

/-- `PyramidCache::set_byte_budget`. -/
def setByteBudget (c : PyramidCache π) (budget : ℕ) : PyramidCache π :=
  { c with budget }.evictToFit

end PyramidCache

/-- A cache and all objects of type `PyramidPin`, with the bytes of all calls of `resolve` and what
the calls of `resolve` and `pin` have answered. -/
structure PyramidPins (π : Type) where
  /-- The cache. -/
  cache : PyramidCache π
  /-- The pins; one that was destroyed or moved from is empty. -/
  pins : List (PyramidPin π) := []
  /-- The calls of `resolve`. -/
  calls : List (ByteString × List UInt8) := []
  /-- The answers of all calls that were successful. -/
  answers : List (ByteString × π) := []
  deriving DecidableEq

/-- What a thread does next. -/
inductive PyramidEvent (π : Type) where
  /-- `PyramidCache::resolve`. -/
  | resolve (uri : ByteString) (encoded : List UInt8)
  /-- `PyramidCache::pin`, into a new object. -/
  | pin (uri : ByteString)
  /-- `PyramidCache::set_byte_budget`. -/
  | setByteBudget (budget : ℕ)
  /-- A new empty pin. -/
  | empty
  /-- A new pin that owns a pyramid. -/
  | own (pyramid : π)
  /-- `PyramidPin::release`, also by the destructor or the first half of a move assignment. -/
  | release (i : ℕ)
  /-- A pin takes over from another: the second half of a move assignment after `release`, or a move
  construction after `empty`. -/
  | take (target source : ℕ)

namespace PyramidPins

variable {π : Type} (d : PyramidDecoder π)

/-- A call is answered. -/
def answer (uri : ByteString) (pyramid : Option π) (s : PyramidPins π) : PyramidPins π :=
  { s with answers := (pyramid.map (uri, ·)).toList ++ s.answers }

/-- The effect of an event. -/
def step : PyramidEvent π → PyramidPins π → Option (PyramidPins π)
  | .resolve uri encoded, s =>
    let (pyramid, cache) := s.cache.resolve d uri encoded
    some (answer uri pyramid { s with cache, calls := (uri, encoded) :: s.calls })
  | .pin uri, s =>
    let (pin, cache) := s.cache.pin d uri
    some (answer uri pin.pyramid { s with cache, pins := s.pins ++ [pin] })
  | .setByteBudget budget, s => some { s with cache := s.cache.setByteBudget budget }
  | .empty, s => some { s with pins := s.pins ++ [{}] }
  | .own pyramid, s => some { s with pins := s.pins ++ [⟨none, some pyramid⟩] }
  | .release i, s =>
    (s.pins[i]?).map fun pin =>
      { s with
        cache := match pin.entry with
          | none => s.cache
          | some entry => s.cache.unpin entry
        pins := s.pins.set i {} }
  | .take target source, s =>
    match s.pins[target]?, s.pins[source]? with
    | some ⟨none, none⟩, some pin => some { s with pins := (s.pins.set source {}).set target pin }
    | _, _ => none

/-- All runs of a cache, which starts empty with any budget. -/
def machine : Machine (PyramidPins π) (PyramidEvent π) where
  start s := ∃ budget, s = { cache := { budget } }
  step := step d

/-- The number of pins on an entry. -/
def held (s : PyramidPins π) (i : ℕ) : ℕ := s.pins.countP fun pin => pin.entry = some i

/-- The cache is transparent and keeps its books. -/
structure Transparent (s : PyramidPins π) : Prop where
  /-- The resident bytes are those of the resident pyramids. -/
  resident : s.cache.resident =
    s.cache.entries.tally fun e => (e.resident.map d.residentBytes).getD 0
  /-- Every pin is counted once, at its entry. -/
  pins : ∀ (i : ℕ) (e : PyramidEntry π), s.cache.entries[i]? = some e → e.pins = s.held i
  /-- The entry of a pin is resident, with the pyramid of the pin. -/
  pinned : ∀ pin ∈ s.pins, ∀ i, pin.entry = some i → ∃ e p, s.cache.entries[i]? = some e ∧
    e.resident = some p ∧ pin.pyramid = some p
  /-- The cache is within its budget, or all that is resident is pinned. -/
  fits : s.cache.resident ≤ s.cache.budget ∨
    ∀ e ∈ s.cache.entries, e.resident.isSome = true → 0 < e.pins
  /-- Every victim was the least recently used entry that was resident and not pinned. -/
  lru : ∀ v ∈ s.cache.evictions, v.IsLru
  /-- An answer is the pyramid of the bytes that all calls for its URI carry, where these can be
  decoded. -/
  answers : ∀ uri p encoded, (uri, p) ∈ s.answers →
    (∀ other, (uri, other) ∈ s.calls → (d.decode other).isSome = true → other = encoded) →
      d.decode encoded = some p

end PyramidPins

end ArbitraryComposer
