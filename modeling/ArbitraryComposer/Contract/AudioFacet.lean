import ArbitraryComposer.Base.Transform

/-!
# The Audio Contract

What a mixer asks of a content and is answered. The arithmetic of single-precision samples is a
parameter: the mixers are compared for all of them. Integer conversions wrap, as the fixed-width
types do.

## Main definitions

- `SampleArith`: the arithmetic of samples.
- `AudioRequest`, `AudioResult`, `AudioOutcome`: what a mixer asks for and is answered.
- `AudioService`: a pull service, with whatever state it has.
- `spatialContextDigest`: what a spatial context adds to a cache key.
-/

namespace ArbitraryComposer

open Double

/-! ## Requests -/

/-- The single-precision arithmetic that samples are mixed with. -/
structure SampleArith (φ : Type) where
  /-- Silence. -/
  zero : φ
  /-- Full level. -/
  one : φ
  /-- One half. -/
  half : φ
  /-- Sum. -/
  add : φ → φ → φ
  /-- Product. -/
  mul : φ → φ → φ
  /-- Comparison. -/
  lt : φ → φ → Bool
  /-- The nearest sample to a double-precision number. -/
  ofDouble : Double → φ
  /-- The bit pattern. -/
  bits : φ → UInt64
  /-- `resample_audio`, from a block of one rate to a number of frames of another. -/
  resample : ChannelLayout → List φ → (inRate outRate frames : UInt32) → List φ

/-- `Spatialization`. -/
structure Spatialization (φ : Type) where
  /-- From the composition to the viewport. -/
  listener : Transform
  /-- Width of the viewport. -/
  viewportW : Double
  /-- Height of the viewport. -/
  viewportH : Double
  /-- The attenuation of all edges above. -/
  accumAtten : φ
  /-- Below this attenuation a layer is culled. -/
  subAudible : φ
  deriving DecidableEq

/-- `Exactness`. -/
inductive Exactness where
  | bestEffort
  | exact
  deriving DecidableEq, Repr

/-- `AudioRequest`; the target block has the layout and the rate of the request. -/
structure AudioRequest (φ : Type) where
  /-- The window, in the time of the content that is asked. -/
  window : TimeRange
  /-- Samples per second. -/
  sampleRate : UInt32
  /-- The channels. -/
  layout : ChannelLayout
  /-- Frames of the target block. -/
  frames : UInt32
  /-- Whether less than the asked rate will do. -/
  exactness : Exactness
  /-- The pinned state. -/
  snapshot : StateHandle
  /-- The spatial context; without one the mix is flat. -/
  spatial : Option (Spatialization φ)
  deriving DecidableEq

/-- `AudioResult`. -/
structure AudioResult where
  /-- The rate the samples carry. -/
  achievedRate : UInt32
  /-- Whether the block is a faithful answer. -/
  exact : Bool
  deriving DecidableEq, Repr

/-- What `pull_audio` does about a request. -/
inductive AudioOutcome (φ : Type) where
  /-- The completion is not settled yet. -/
  | deferred
  /-- The completion holds no result: the pull failed, or its settlement was taken. -/
  | failed
  /-- The completion holds a result, and the samples are in the target. -/
  | served (result : AudioResult) (samples : List φ)
  deriving DecidableEq

/-- A pull service whose state is a `σ`. -/
abbrev AudioService (σ κ φ : Type) : Type := σ → κ → AudioRequest φ → AudioOutcome φ × σ

/-- What a mixer asks contents. -/
structure AudioLibrary (κ : Type) where
  /-- `MixResolver`. -/
  resolve : ObjectId → Option κ
  /-- `Content::audio` gives a facet. -/
  hasAudio : κ → Bool

/-! ## Rates and places -/

/-- `Time::flicks_per_second`. -/
def flicksPerSecond : Int64 := 705600000

/-- The flicks of a frame, rounded down. -/
def flicksPerFrame (rate : UInt32) : Int64 := flicksPerSecond / rate.toUInt64.toInt64

/-- A 32-bit number as a 64-bit one. -/
theorem toInt_toInt64 (n : UInt32) : n.toUInt64.toInt64.toInt = n.toNat := by
  have hlt := n.toNat_lt
  change n.toUInt64.toBitVec.toInt = _
  rw [BitVec.toInt_eq_toNat_bmod, UInt64.toNat_toBitVec, UInt32.toNat_toUInt64]
  exact Int.bmod_eq_of_le (by omega) (by omega)

/-- A frame has no negative number of flicks, and lasts a second at most. -/
private theorem flicksPerFrame_bounds (rate : UInt32) :
    0 ≤ (flicksPerFrame rate).toInt ∧ (flicksPerFrame rate).toInt ≤ 705600000 := by
  have hflicks : flicksPerSecond.toInt = 705600000 := rfl
  have hpos : 0 ≤ (705600000 : ℤ).tdiv rate.toNat :=
    Int.tdiv_nonneg (by decide) (Int.natCast_nonneg _)
  have hle : (705600000 : ℤ).tdiv rate.toNat ≤ 705600000 := by
    rw [Int.tdiv_eq_ediv_of_nonneg (by omega)]
    exact Int.ediv_le_self _ (by omega)
  rw [flicksPerFrame, Int64.toInt_div, toInt_toInt64, hflicks,
    Int.bmod_eq_of_le (by omega) (by omega)]
  exact ⟨hpos, hle⟩

/-- A frame has no negative number of flicks. -/
theorem flicksPerFrame_nonneg (rate : UInt32) : 0 ≤ flicksPerFrame rate :=
  Int64.le_iff_toInt_le.mpr (flicksPerFrame_bounds rate).1

/-- A frame lasts a second at most. -/
theorem flicksPerFrame_le (rate : UInt32) : (flicksPerFrame rate).toInt ≤ 705600000 :=
  (flicksPerFrame_bounds rate).2

/-- The window of a number of frames. -/
def frameWindow (start : Int64) (frames rate : UInt32) : TimeRange :=
  ⟨start, start + frames.toUInt64.toInt64 * flicksPerFrame rate⟩

/-- `spatial_edge_atten`. -/
def spatialEdgeAtten {φ : Type} (A : SampleArith φ) (t : Transform) : φ :=
  if t.maxScale.le 0 then A.zero
  else if Double.le 1 t.maxScale then A.one
  else A.ofDouble t.maxScale

/-- `spatial_pan_gains`, left and right. -/
def spatialPanGains {φ : Type} (A : SampleArith φ) (composed : Transform) (viewportW : Double) :
    φ × φ :=
  let x := (composed.apply 0 0).1
  let p := if Double.lt 0 viewportW then ofInt 2 * x / viewportW - 1 else 0
  let p := if p.lt (-1) then -1 else p
  let p := if Double.lt 1 p then 1 else p
  let t := (p + 1) / ofInt 2
  (A.ofDouble (Double.sqrt (1 - t)), A.ofDouble t.sqrt)

/-- The mixer of `spatial_context_digest`. -/
def digestMix (seed value : UInt64) : UInt64 :=
  seed ^^^ (value + 0x9e3779b97f4a7c15 + (seed <<< (6 : UInt64)) + (seed >>> (2 : UInt64)))

/-- `spatial_context_digest`: zero exactly without a context. -/
def spatialContextDigest {φ : Type} (A : SampleArith φ) : Option (Spatialization φ) → UInt64
  | none => 0
  | some sp =>
    let t := sp.listener
    let fields := [t.a.bits, t.b.bits, t.c.bits, t.d.bits, t.tx.bits, t.ty.bits, sp.viewportW.bits,
      sp.viewportH.bits, A.bits sp.accumAtten, A.bits sp.subAudible]
    let h := fields.foldl digestMix 0x100000001b3
    if h != 0 then h else 0x9e3779b97f4a7c15

end ArbitraryComposer
