import ArbitraryComposer.Compositor.AggregateRevision
import ArbitraryComposer.Contract.AudioFacet

/-!
# The Audio Pull

The pull service answers an audio request from the block cache if it can, and otherwise dispatches
it. A block is kept under the content, the revision, the frame the window starts at, the rate and
the spatial context. It answers a request when it is exact, has the asked rate and is as long and as
wide as the target.

## Main definitions

- `BlockKey`, `AudioBlockValue`: what a block is kept under, and a block.
- `PullConfig.key`, `AudioBlockValue.serves`: the probe.
- `PullConfig.pullAudio`: the service.
-/

namespace ArbitraryComposer

/-- `BlockKey`. -/
structure BlockKey where
  /-- The content. -/
  content : ObjectId
  /-- The revision. -/
  revision : UInt64
  /-- The frame that the window starts at. -/
  blockIndex : Int64
  /-- The rate. -/
  rate : UInt32
  /-- The spatial context. -/
  spatialDigest : UInt64
  deriving DecidableEq, Repr

/-- `AudioBlockValue`. -/
structure AudioBlockValue (φ : Type) where
  /-- The samples. -/
  samples : List φ
  /-- Frames of the block. -/
  frames : UInt32
  /-- The channels. -/
  layout : ChannelLayout
  /-- The rate it was asked at. -/
  rate : UInt32
  /-- `AudioBlockValue::meta`: what it was answered with. -/
  result : AudioResult
  deriving DecidableEq

/-- The blocks of a block cache. -/
abbrev BlockCache (φ : Type) : Type := BlockKey → Option (AudioBlockValue φ)

/-- The quotient of a window start by the flicks of a frame; zero when a frame has no flick. -/
def frameIndex (start : Int64) (rate : UInt32) : Int64 :=
  if flicksPerFrame rate ≤ 0 then 0 else start / flicksPerFrame rate

/-- `PullConfig`. -/
structure PullConfig (κ : Type) where
  /-- `PullConfig::id_of`. -/
  idOf : κ → ObjectId
  /-- `Content::inputs`. -/
  inputs : κ → List (Option κ)
  /-- `PullConfig::contribution`. -/
  contribution : κ → UInt64
  /-- `GraphBudget::max_depth`. -/
  maxDepth : ℕ

section

variable {σ κ φ : Type}

/-- A block answers a request. -/
def AudioBlockValue.serves (value : AudioBlockValue φ) (request : AudioRequest φ) : Bool :=
  value.result.exact && value.result.achievedRate == request.sampleRate &&
    value.frames == request.frames && value.layout == request.layout

/-- The samples that a block puts into the target. One that is too short leaves the silence. -/
def AudioBlockValue.deliver (A : SampleArith φ) (value : AudioBlockValue φ) : List φ :=
  let n := value.frames.toNat * value.layout.channelCount
  if n ≤ value.samples.length then value.samples.take n else List.replicate n A.zero

/-- `audio_block_index`. -/
def audioBlockIndex (request : AudioRequest φ) : Int64 :=
  if request.sampleRate = 0 then 0 else frameIndex request.window.start request.sampleRate

/-- A request at the rate zero has no frames to start at, and is at the index zero as well. -/
theorem audioBlockIndex_eq (request : AudioRequest φ) :
    audioBlockIndex request = frameIndex request.window.start request.sampleRate := by
  rw [audioBlockIndex]
  split
  case isTrue hzero => rw [hzero, frameIndex, if_pos (show flicksPerFrame 0 ≤ 0 by decide)]
  case isFalse => rfl

variable [DecidableEq κ] [Fintype κ]

namespace PullConfig

/-- The revision a content is cached under: an operator sums over what it reaches. -/
def revision (config : PullConfig κ) (content : κ) : UInt64 :=
  if isOperator config.inputs content then
    aggregateRevision config.inputs config.contribution (some content)
  else config.contribution content

/-- The key that `pull_audio` probes. -/
def key (A : SampleArith φ) (config : PullConfig κ) (content : κ) (request : AudioRequest φ) :
    BlockKey :=
  ⟨config.idOf content, config.revision content, audioBlockIndex request, request.sampleRate,
    spatialContextDigest A request.spatial⟩

/-- The probe of `pull_audio`: a resident block that answers the request. -/
def hit (A : SampleArith φ) (config : PullConfig κ) (blocks : BlockCache φ) (content : κ)
    (request : AudioRequest φ) : Option (AudioBlockValue φ) :=
  (blocks (config.key A content request)).filter (·.serves request)

/-- `PullServiceImpl::pull_audio` at a depth. -/
def pullAudio (A : SampleArith φ) (config : PullConfig κ) (blocks : BlockCache φ)
    (dispatch : AudioService σ κ φ) (depth : ℕ) : AudioService σ κ φ := fun s content request =>
  if config.maxDepth ≤ depth then (.failed, s)
  else
    match config.hit A blocks content request with
    | some value => (.served value.result (value.deliver A), s)
    | none => dispatch s content request

end PullConfig

end

end ArbitraryComposer
