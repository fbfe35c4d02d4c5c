import Mathlib.Data.Nat.Notation

/-!
# Media Descriptors

How samples are stored and blended: the vocabulary that records, blobs and the mix engine share.

## Main definitions

- `PixelFormat`: the pixel formats, of which two are permitted storage formats.
- `SurfaceFormat`, `AudioFormat`: the working formats of a composition.
- `ChannelLayout`: the channels of interleaved samples.
- `BlendMode`: how a layer is combined with what is under it.
-/

namespace ArbitraryComposer

/-- Pixel formats of media surfaces and of stored tiles. -/
inductive PixelFormat where
  /-- Half-float linear premultiplied samples. -/
  | rgba16fLinearPremul
  /-- Single-float linear premultiplied samples, the working form. -/
  | rgba32fLinearPremul
  /-- Eight-bit sRGB samples; not a storage format. -/
  | rgba8Srgb
  deriving DecidableEq, Repr

/-- `TransferFunction`. -/
inductive TransferFunction where
  | linear
  | srgb
  deriving DecidableEq, Repr

/-- `SurfaceFormat`; there is one set of primaries. -/
structure SurfaceFormat where
  /-- Storage of a pixel. -/
  pixelFormat : PixelFormat := .rgba32fLinearPremul
  /-- Encoding of light. -/
  transfer : TransferFunction := .linear
  /-- Whether colour is multiplied by alpha. -/
  premultiplied : Bool := true
  deriving DecidableEq, Repr

/-- `AudioFormat`. -/
structure AudioFormat where
  /-- Samples per second. -/
  sampleRate : UInt32 := 48000
  /-- Stereo or mono. -/
  stereo : Bool := true
  deriving DecidableEq, Repr

/-- `ChannelLayout`. -/
inductive ChannelLayout where
  | mono
  | stereo
  deriving DecidableEq, Repr

/-- `channel_count`. -/
def ChannelLayout.channelCount : ChannelLayout → ℕ
  | .mono => 1
  | .stereo => 2

/-- `AudioFormat::layout`. -/
def AudioFormat.layout (format : AudioFormat) : ChannelLayout :=
  if format.stereo then .stereo else .mono

/-- `BlendMode`. -/
inductive BlendMode where
  | normal
  | multiply
  | screen
  | overlay
  | darken
  | lighten
  | colorDodge
  | colorBurn
  | hardLight
  | softLight
  | difference
  | exclusion
  deriving DecidableEq, Repr

end ArbitraryComposer
