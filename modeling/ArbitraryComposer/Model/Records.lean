import ArbitraryComposer.Media.Formats
import Mathlib.Data.Fintype.Pi

/-!
# Object Records

The records a document version maps object ids to. A record has a fixed size and owns nothing:
it names other objects by their id, and lists that outgrow it continue in chunk records. The
double-precision fields are carried as bit patterns; nothing in the model computes with them.

## Main definitions

- `ObjectRecord`: id, revision stamp and one of the five record shapes.
- `ObjectRecord.namedIds`: every id a record names by value.
-/

namespace ArbitraryComposer

/-- `ObjectId`: zero is the invalid id. -/
abbrev ObjectId : Type := UInt64

/-- `ObjectId::valid`. -/
def ObjectId.valid (id : ObjectId) : Bool := id != 0

/-- `synthetic`: bit 63 marks the ids the runtime makes up. -/
def ObjectId.synthetic (id : ObjectId) : Bool := 2 ^ 63 ≤ id.toNat

/-- `Affine`, as six bit patterns. -/
structure Affine where
  /-- First column. -/
  a : UInt64 := 0x3FF0000000000000
  /-- First column. -/
  b : UInt64 := 0
  /-- Second column. -/
  c : UInt64 := 0
  /-- Second column. -/
  d : UInt64 := 0x3FF0000000000000
  /-- Translation. -/
  tx : UInt64 := 0
  /-- Translation. -/
  ty : UInt64 := 0
  deriving DecidableEq, Repr

/-- `TimeRange`, in flicks. -/
structure TimeRange where
  /-- First instant. -/
  start : Int64
  /-- One past the last instant. -/
  stop : Int64
  deriving DecidableEq, Repr

/-- `TimeRange::all`. -/
def TimeRange.all : TimeRange := ⟨Int64.minValue, Int64.maxValue⟩

/-- `TimeMap`: the rate is a normalized fraction. -/
structure TimeMap where
  /-- Parent time of the origin. -/
  input : Int64 := 0
  /-- Numerator of the rate. -/
  rateNum : Int64 := 1
  /-- Denominator of the rate. -/
  rateDen : Int64 := 1
  /-- Local time of the origin. -/
  offset : Int64 := 0
  deriving DecidableEq, Repr

/-- `RecordKind`. -/
inductive RecordKind where
  | composition
  | layer
  | content
  | layerOrderChunk
  | textChunk
  deriving DecidableEq, Repr

/-- `k_state_none`. -/
def stateNone : UInt32 := 0xFFFFFFFF

/-- `StateHandle`: a slot of a content's editable state. -/
structure StateHandle where
  /-- The slot. -/
  slot : UInt32 := stateNone
  deriving DecidableEq, Repr

/-- `has_state`. -/
def StateHandle.hasState (h : StateHandle) : Bool := h.slot != stateNone

/-- `k_layer_visible`. -/
def layerVisible : UInt32 := 1

/-- `k_layer_audible`. -/
def layerAudible : UInt32 := 2

/-- `k_layer_blend_shift`. -/
def layerBlendShift : UInt32 := 8

/-- `k_layer_blend_mask`. -/
def layerBlendMask : UInt32 := 0xFF00

/-- `k_text_chunk_bytes`. -/
def textChunkBytes : ℕ := 96

/-- `k_max_inline_inputs`. -/
def maxInlineInputs : ℕ := 4

/-- `k_max_inline_layers`. -/
def maxInlineLayers : ℕ := 8

/-- `TextChunk`. -/
structure TextChunk where
  /-- Bytes this chunk fills. -/
  count : UInt32 := 0
  /-- Bytes of the whole text. -/
  total : UInt32 := 0
  /-- The next chunk. -/
  next : ObjectId := 0
  /-- The bytes. -/
  bytes : Fin textChunkBytes → UInt8 := fun _ => 0
  deriving DecidableEq

/-- `ContentRecord`. -/
structure ContentRecord where
  /-- Kind token. -/
  kind : UInt64 := 0
  /-- Editable state. -/
  state : StateHandle := {}
  /-- Head of the identity text. -/
  identityRoot : ObjectId := 0
  /-- Head of the spilled input list. -/
  inputsRoot : ObjectId := 0
  /-- Number of inputs. -/
  inputCount : UInt32 := 0
  /-- The inputs, while they fit. -/
  inputs : Fin maxInlineInputs → ObjectId := fun _ => 0
  deriving DecidableEq

/-- `LayerRecord`. -/
structure LayerRecord where
  /-- The bound content. -/
  content : ObjectId := 0
  /-- Placement. -/
  transform : Affine := {}
  /-- Opacity. -/
  opacity : UInt64 := 0x3FF0000000000000
  /-- Audio gain. -/
  gain : UInt64 := 0x3FF0000000000000
  /-- Visibility, audibility and blend mode. -/
  flags : UInt32 := layerVisible ||| layerAudible
  /-- When the layer exists. -/
  span : TimeRange := .all
  /-- Parent time to local time. -/
  timeMap : TimeMap := {}
  deriving DecidableEq

/-- `LayerOrderChunk`. -/
structure LayerOrderChunk where
  /-- Members this chunk fills. -/
  count : UInt32 := 0
  /-- The members. -/
  members : Fin maxInlineLayers → ObjectId := fun _ => 0
  /-- The next chunk. -/
  next : ObjectId := 0
  deriving DecidableEq

/-- `CompositionRecord`. -/
structure CompositionRecord where
  /-- Canvas width. -/
  canvasW : UInt64 := 0
  /-- Canvas height. -/
  canvasH : UInt64 := 0
  /-- Working space. -/
  workingSpace : SurfaceFormat := {}
  /-- Working audio format. -/
  workingAudioFormat : AudioFormat := {}
  /-- Number of layers. -/
  layerCount : UInt32 := 0
  /-- The layers, while they fit. -/
  layers : Fin maxInlineLayers → ObjectId := fun _ => 0
  /-- Head of the spilled layer order. -/
  spillRoot : ObjectId := 0
  deriving DecidableEq

/-- The union `ObjectRecord::as`. -/
inductive Payload where
  | composition (r : CompositionRecord)
  | layer (r : LayerRecord)
  | content (r : ContentRecord)
  | orderChunk (r : LayerOrderChunk)
  | textChunk (r : TextChunk)
  deriving DecidableEq

/-- `ObjectRecord`. -/
structure ObjectRecord where
  /-- The object. -/
  id : ObjectId
  /-- The stamp: the revision published by the commit that made this record. -/
  revision : ℕ
  /-- The record shape. -/
  as : Payload
  deriving DecidableEq

/-- `ObjectRecord::kind`. -/
def ObjectRecord.kind (r : ObjectRecord) : RecordKind :=
  match r.as with
  | .composition _ => .composition
  | .layer _ => .layer
  | .content _ => .content
  | .orderChunk _ => .layerOrderChunk
  | .textChunk _ => .textChunk

/-- Every id a record names by value. -/
def ObjectRecord.namedIds (r : ObjectRecord) : List ObjectId :=
  match r.as with
  | .composition c => List.ofFn c.layers ++ [c.spillRoot]
  | .layer l => [l.content]
  | .content c => [c.identityRoot, c.inputsRoot] ++ List.ofFn c.inputs
  | .orderChunk c => List.ofFn c.members ++ [c.next]
  | .textChunk c => [c.next]

end ArbitraryComposer
