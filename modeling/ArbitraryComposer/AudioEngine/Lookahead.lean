import ArbitraryComposer.AudioEngine.Mix
import ArbitraryComposer.Compositor.PullAudio

/-!
# The Lookahead Ring

The lookahead walks a composition the way the mixer does, down through the compositions that its
contents nest, and wants every block that a pull of the mixer will probe. A block of the mix is ready
when the wanted blocks of its layers are resident.

## Main definitions

- `LookaheadRingConfig.descend`, `contributionsFor`: the contributors to a block of the mix.
- `contributionKey`, `makeWant`, `nativeRerequestWant`: the blocks that a contributor wants.
- `collectWants`, `blockReady`: which of them are missing, and whether the block can be mixed.
- `Contribution.closure`: a contributor and all contributors below it.
-/

namespace ArbitraryComposer

/-- `LookaheadRing::Contribution`. -/
structure Contribution (φ : Type) where
  /-- The content. -/
  content : ObjectId
  /-- The rate of its pull. -/
  rate : UInt32
  /-- The channels of its pull. -/
  layout : ChannelLayout
  /-- The frames of its pull. -/
  frames : UInt32
  /-- The start of its window. -/
  windowStart : Int64
  /-- The spatial context of its pull. -/
  spatial : Option (Spatialization φ)
  /-- The contributors to the composition it nests. -/
  children : List (Contribution φ)

/-- `PrefetchWant`. -/
structure PrefetchWant (φ : Type) where
  /-- The block. -/
  key : BlockKey
  /-- The content. -/
  content : ObjectId
  /-- The window. -/
  window : TimeRange
  /-- The rate. -/
  rate : UInt32
  /-- The channels. -/
  layout : ChannelLayout
  /-- The frames. -/
  frames : UInt32
  /-- The spatial context. -/
  spatial : Option (Spatialization φ)
  deriving DecidableEq

/-- `LookaheadRingConfig`, and the document and the resolver of the ring. -/
structure LookaheadRingConfig (κ φ : Type) where
  /-- The pinned version. -/
  doc : DocMap
  /-- Turns for the walks of layer orders. -/
  turns : ℕ
  /-- The composition that is mixed. -/
  composition : ObjectId
  /-- `MixResolver`. -/
  audio : AudioLibrary κ
  /-- The working rate. -/
  sampleRate : UInt32
  /-- The working channels. -/
  layout : ChannelLayout
  /-- Frames of a block. -/
  blockFrames : UInt32
  /-- The contribution of an object to revisions. -/
  contribution : ObjectId → UInt64
  /-- The spatial seed. -/
  spatial : Option (Spatialization φ)
  /-- The composition that a content nests. -/
  nestedComposition : ObjectId → Option ObjectId
  /-- The recursion budget. -/
  maxDepth : ℕ

/-- The wants that are collected, and the keys that are among them. -/
structure Wants (φ : Type) where
  /-- The want-list. -/
  wants : List (PrefetchWant φ) := []
  /-- The keys that were wanted. -/
  seen : List BlockKey := []
  deriving DecidableEq

/-- A key is wanted once. -/
def Wants.add {φ : Type} (w : Wants φ) (want : PrefetchWant φ) : Wants φ :=
  if want.key ∈ w.seen then w else ⟨w.wants ++ [want], want.key :: w.seen⟩

namespace LookaheadRingConfig

variable {κ φ : Type} (A : SampleArith φ) (ring : LookaheadRingConfig κ φ)

/-! ## The descent -/

/-- A composition and its layers, bottom to top. -/
def layers (composition : ObjectId) : Option (CompositionRecord × List LayerRecord) := do
  let comp ← ring.doc.findComposition composition
  let members ← ring.doc.layersIn ring.turns composition
  return (comp, members.filterMap ring.doc.findLayer)

/-- `d_block_span_flicks`. -/
def blockSpan : Int64 :=
  if ring.sampleRate ≠ 0 ∧ ring.blockFrames ≠ 0 then
    ring.blockFrames.toUInt64.toInt64 * flicksPerFrame ring.sampleRate
  else 0

/-- `block_start`. -/
def blockStart (index : Int64) : Int64 := index * ring.blockSpan

/-- The attenuation, the listener and the spatial context of a layer's content; none when the layer
is below the threshold. -/
def edgeContext (accumAtten : φ) (parentListener : Transform) (l : LayerRecord) :
    Option (φ × Transform × Option (Spatialization φ)) :=
  match ring.spatial with
  | none => some (accumAtten, parentListener, none)
  | some sp =>
    let childAtten := A.mul accumAtten (spatialEdgeAtten A l.transform.toTransform)
    if A.lt childAtten sp.subAudible then none
    else
      let childListener := compose parentListener l.transform.toTransform
      some (childAtten, childListener,
        some ⟨childListener, sp.viewportW, sp.viewportH, childAtten, sp.subAudible⟩)

/-- What `descend` makes of a layer, given what it makes of a nested composition. -/
def contribute (nested : ObjectId → UInt32 → Int64 → φ → Transform → List (Contribution φ))
    (comp : CompositionRecord) (requestRate : UInt32) (windowStart : Int64) (accumAtten : φ)
    (parentListener : Transform) (l : LayerRecord) : Option (Contribution φ) := do
  let _ ← l.audioContent ring.audio
  guard (l.overlaps (frameWindow windowStart ring.blockFrames requestRate))
  let (childAtten, childListener, spatial) ← ring.edgeContext A accumAtten parentListener l
  let childRate ← l.childRate requestRate
  let childStart ← (l.timeMap.evaluate windowStart).toOption
  return {
    content := l.content
    rate := childRate
    layout := comp.workingAudioFormat.layout
    frames := ring.blockFrames
    windowStart := childStart
    spatial := spatial
    children := match ring.nestedComposition l.content with
      | none => []
      | some composition => nested composition childRate childStart childAtten childListener }

/-- What `descend` makes of a composition, given what it makes of a nested one. -/
def descendWith (nested : ObjectId → UInt32 → Int64 → φ → Transform → List (Contribution φ))
    (composition : ObjectId) (requestRate : UInt32) (windowStart : Int64) (accumAtten : φ)
    (parentListener : Transform) : List (Contribution φ) :=
  match ring.layers composition with
  | none => []
  | some (comp, layers) =>
    layers.filterMap (ring.contribute A nested comp requestRate windowStart accumAtten
      parentListener)

/-- `descend` from a composition on, at a rate, an instant, an attenuation and a listener, where
`levels` is `max_depth - depth`. -/
def descend : (levels : ℕ) → ObjectId → UInt32 → Int64 → φ → Transform → List (Contribution φ)
  | 0 => ring.descendWith A fun _ _ _ _ _ => []
  | levels + 1 => ring.descendWith A (descend levels)

/-- The attenuation that the descent starts with. -/
def seedAtten : φ :=
  match ring.spatial with
  | some sp => sp.accumAtten
  | none => A.one

/-- The listener that the descent starts with. -/
def seedListener : Transform :=
  match ring.spatial with
  | some sp => sp.listener
  | none => {}

/-- `contributions_for`. -/
def contributionsFor (index : Int64) : List (Contribution φ) :=
  ring.descend A (ring.maxDepth - 1) ring.composition ring.sampleRate (ring.blockStart index)
    (ring.seedAtten A) ring.seedListener

/-- The request of `mix_block`. -/
def blockRequest (index : Int64) : AudioRequest φ where
  window := frameWindow (ring.blockStart index) ring.blockFrames ring.sampleRate
  sampleRate := ring.sampleRate
  layout := ring.layout
  frames := ring.blockFrames
  exactness := .bestEffort
  snapshot := {}
  spatial := ring.spatial

/-! ## Wants -/

/-- The quotient of a window start by the flicks of a frame, as the ring computes it. -/
def wantIndex (start : Int64) (rate : UInt32) : Int64 :=
  if flicksPerFrame rate ≠ 0 then start / flicksPerFrame rate else 0

/-- The index that the ring computes is the one that the pull computes. -/
theorem wantIndex_eq_frameIndex (start : Int64) (rate : UInt32) :
    wantIndex start rate = frameIndex start rate := by
  have hnonneg := flicksPerFrame_nonneg rate
  rw [wantIndex, frameIndex]
  by_cases hzero : flicksPerFrame rate = 0
  · rw [if_neg (not_not.mpr hzero), if_pos (by rw [hzero]; exact Int64.le_refl _)]
  · rw [if_pos hzero, if_neg fun hle => hzero (Int64.le_antisymm hle hnonneg)]

/-- `contribution_key`. -/
def contributionKey (c : Contribution φ) : BlockKey :=
  ⟨c.content, ring.contribution c.content, wantIndex c.windowStart c.rate, c.rate,
    spatialContextDigest A c.spatial⟩

/-- `make_want`. -/
def makeWant (c : Contribution φ) : PrefetchWant φ :=
  ⟨ring.contributionKey A c, c.content, frameWindow c.windowStart c.frames c.rate, c.rate, c.layout,
    c.frames, c.spatial⟩

/-- `native_rerequest_want`. -/
def nativeRerequestWant (c : Contribution φ) (achievedRate : UInt32) : Option (PrefetchWant φ) :=
  if achievedRate = 0 ∨ c.rate ≤ achievedRate then none
  else
    let frames := nativeFrames c.frames achievedRate c.rate
    some ⟨⟨c.content, ring.contribution c.content, wantIndex c.windowStart achievedRate,
        achievedRate, spatialContextDigest A c.spatial⟩,
      c.content, frameWindow c.windowStart frames achievedRate, achievedRate, c.layout, frames,
      c.spatial⟩

mutual

/-- `collect_wants`: a contributor is warm when its block is resident, and the block of its native
rate too if its block is below the asked rate. A missing block is wanted when everything below it is
warm. -/
def collectWants (blocks : BlockCache φ) : Contribution φ → Wants φ → Bool × Wants φ
  | ⟨content, rate, layout, frames, windowStart, spatial, children⟩, w =>
    let c : Contribution φ := ⟨content, rate, layout, frames, windowStart, spatial, children⟩
    match blocks (ring.contributionKey A c) with
    | none =>
      let (childrenResident, w) := collectAll blocks children w
      (false, if childrenResident then w.add (ring.makeWant A c) else w)
    | some value =>
      match ring.nativeRerequestWant A c value.result.achievedRate with
      | none => (true, w)
      | some native =>
        if (blocks native.key).isSome then (true, w) else (false, w.add native)

/-- The loops over contributors: all of them are collected, and all of them have to be warm. -/
def collectAll (blocks : BlockCache φ) : List (Contribution φ) → Wants φ → Bool × Wants φ
  | [], w => (true, w)
  | c :: cs, w =>
    let (first, w) := collectWants blocks c w
    let (rest, w) := collectAll blocks cs w
    (first && rest, w)

end

/-- A block of the mix is ready: `prime` may mix it. -/
def blockReady (blocks : BlockCache φ) (index : Int64) : Bool :=
  (ring.collectAll A blocks (ring.contributionsFor A index) {}).1

end LookaheadRingConfig

namespace Contribution

variable {φ : Type}

mutual

/-- A contributor and all contributors below it. -/
def closure : Contribution φ → List (Contribution φ)
  | ⟨content, rate, layout, frames, windowStart, spatial, children⟩ =>
    ⟨content, rate, layout, frames, windowStart, spatial, children⟩ :: closureAll children

/-- Contributors and all contributors below them. -/
def closureAll : List (Contribution φ) → List (Contribution φ)
  | [] => []
  | c :: cs => c.closure ++ closureAll cs

end

/-- A contributor comes before those below it. -/
theorem closure_eq (c : Contribution φ) : c.closure = c :: closureAll c.children := by
  cases c
  rw [closure]

/-- The request that fills the block of a contributor. -/
def request (c : Contribution φ) : AudioRequest φ where
  window := frameWindow c.windowStart c.frames c.rate
  sampleRate := c.rate
  layout := c.layout
  frames := c.frames
  exactness := .bestEffort
  snapshot := {}
  spatial := c.spatial

end Contribution

end ArbitraryComposer
