import ArbitraryComposer.Serialize.UnknownFields
import ArbitraryComposer.ToMathlib.Binary64

/-!
# Document Text

What the reader takes from a parsed document before it builds anything: the envelope, the storage
format, and the placement of every layer. A field that is absent or of another type has its default.
What a tier does not name is its residual.

## Main definitions

- `ReaderError`: how a read fails.
- `parseDocument`, `applyStorageFormat`: the envelope.
- `LayerData`, `parseLayer`, `CompData`, `parseComposition`: a composition and its layers.
-/

namespace ArbitraryComposer

/-- `ReaderError::Kind`. -/
inductive ReaderErrorKind where
  /-- The input is not JSON. -/
  | malformedJson
  /-- The format major is not known. -/
  | unknownFormatMajor
  /-- A required key is absent. -/
  | missingRequiredField
  /-- A key has another type. -/
  | malformedField
  /-- A reference did not resolve. -/
  | unresolvableReference
  deriving DecidableEq, Repr

/-- `ReaderError`; the reader names no object in it. -/
structure ReaderError where
  /-- What went wrong. -/
  kind : ReaderErrorKind
  /-- Where. -/
  path : String
  deriving DecidableEq, Repr

/-! ## The keys of each tier -/

/-- `k_root_keys`. -/
def rootKeys : List String := ["arbc", "composition", "compositions", "contents"]

/-- `k_envelope_keys`. -/
def envelopeKeys : List String := ["format", "storage_format"]

/-- `k_composition_keys`. -/
def compositionKeys : List String := ["canvas", "layers", "working_audio_format", "working_space"]

/-- `k_working_space_keys`. -/
def workingSpaceKeys : List String := ["format", "premultiplied", "transfer"]

/-- `k_working_audio_format_keys`. -/
def workingAudioFormatKeys : List String := ["channels", "sample_rate"]

/-- `k_layer_keys`. -/
def layerKeys : List String :=
  ["audible", "blend", "gain", "opacity", "span", "time_map", "transform", "visible"]

/-- `k_time_map_keys`. -/
def timeMapKeys : List String := ["in", "offset", "rate"]

/-- `k_body_keys`. -/
def bodyKeys : List String := ["$ref", "composition", "inputs", "kind", "kind_version", "params"]

/-! ## Field accessors -/

namespace Json

/-- The double of a value that is a number. -/
def getDouble? : Json → Option Double
  | integer i => some (Double.ofInt i)
  | float bits => some ⟨bits⟩
  | _ => none

/-- The text of a value that is a string. -/
def getString? : Json → Option String
  | string s => some s
  | _ => none

/-- The value of a boolean. -/
def getBool? : Json → Option Bool
  | bool b => some b
  | _ => none

end Json

/-- `num_or`, as the bits of the double. -/
def numOr (o : Json) (key : String) (dflt : UInt64) : UInt64 :=
  (((o.find key).bind Json.getDouble?).map Double.bits).getD dflt

/-- `bool_or`. -/
def boolOr (o : Json) (key : String) (dflt : Bool) : Bool :=
  ((o.find key).bind Json.getBool?).getD dflt

/-- `parse_pixel_format`. -/
def parsePixelFormat (token : String) : PixelFormat :=
  if token = "rgba16f-linear-premul" then .rgba16fLinearPremul
  else if token = "rgba8-srgb" then .rgba8Srgb
  else .rgba32fLinearPremul

/-- `parse_transfer`. -/
def parseTransfer (token : String) : TransferFunction := if token = "srgb" then .srgb else .linear

/-- `parse_surface_format`. -/
def parseSurfaceFormat (o : Json) : SurfaceFormat where
  pixelFormat := (((o.find "format").bind Json.getString?).map parsePixelFormat).getD
    .rgba32fLinearPremul
  premultiplied := boolOr o "premultiplied" true
  transfer := (((o.find "transfer").bind Json.getString?).map parseTransfer).getD .linear

/-- `parse_audio_format`. -/
def parseAudioFormat (o : Json) : AudioFormat where
  sampleRate :=
    match (o.find "sample_rate").bind Json.getInt? with
    | some rate =>
      if 0 < rate ∧ rate.toInt ≤ 2 ^ 32 - 1 then .ofNat rate.toInt.toNat else 48000
    | none => 48000
  stereo := (((o.find "channels").bind Json.getString?).map (· != "mono")).getD true

/-- `parse_transform`. -/
def parseTransform (o : Json) : Affine :=
  match o.find "transform" with
  | some (.array [a, b, c, d, tx, ty]) =>
    match a.getDouble?, b.getDouble?, c.getDouble?, d.getDouble?, tx.getDouble?, ty.getDouble? with
    | some a, some b, some c, some d, some tx, some ty =>
      ⟨a.bits, b.bits, c.bits, d.bits, tx.bits, ty.bits⟩
    | _, _, _, _, _, _ => {}
  | _ => {}

/-- `parse_span`. -/
def parseSpan (o : Json) : TimeRange :=
  match o.find "span" with
  | some (.array [start, stop]) =>
    match start.getInt?, stop.getInt? with
    | some start, some stop => ⟨start, stop⟩
    | _, _ => .all
  | _ => .all

/-- The time map of a layer; `parseTimeMap_spec` says that it always has one. -/
def layerTimeMap (o : Json) : TimeMap :=
  match parseTimeMap o with
  | .ok map => map
  | .error _ => {}

/-- `blend_mode_name`. -/
def BlendMode.name : BlendMode → String
  | normal => "normal"
  | multiply => "multiply"
  | screen => "screen"
  | overlay => "overlay"
  | darken => "darken"
  | lighten => "lighten"
  | colorDodge => "color-dodge"
  | colorBurn => "color-burn"
  | hardLight => "hard-light"
  | softLight => "soft-light"
  | difference => "difference"
  | exclusion => "exclusion"

/-- The blend modes in order. -/
def blendModes : List BlendMode :=
  [.normal, .multiply, .screen, .overlay, .darken, .lighten, .colorDodge, .colorBurn, .hardLight,
    .softLight, .difference, .exclusion]

/-- `blend_mode_from_name`. -/
def blendModeFromName (name : String) : Option BlendMode := blendModes.find? (·.name = name)

/-! ## Layers -/

/-- `LayerData`. -/
structure LayerData where
  /-- Placement. -/
  transform : Affine
  /-- Opacity. -/
  opacity : UInt64
  /-- Whether the layer is drawn. -/
  visible : Bool
  /-- Blend mode. -/
  blend : BlendMode
  /-- Audio gain. -/
  gain : UInt64
  /-- Whether the layer is heard. -/
  audible : Bool
  /-- When the layer exists. -/
  span : TimeRange
  /-- Parent time to local time. -/
  timeMap : TimeMap
  /-- The content position, where the layer has one. -/
  contentBody : Option Json
  /-- What the core does not name. -/
  unknown : Json

/-- `extract_content_body`: the layer without its placement. -/
def extractContentBody (o : Json) : Option Json :=
  if o.contains "$ref" || o.contains "kind" then some (unknownResidual o layerKeys) else none

/-- The blend mode of a layer, where it names one that is known. -/
def layerBlend (o : Json) : Option BlendMode :=
  ((o.find "blend").bind Json.getString?).bind blendModeFromName

/-- The residual of a layer: neither placement nor content body, with the residual of the time map
and a blend mode that is not known. -/
def layerUnknown (o : Json) : Json :=
  let base := unknownResidual o (layerKeys ++ bodyKeys)
  let timeMap := unknownResidualAt o "time_map" timeMapKeys
  let base := if timeMap.isEmpty then base else base.set "time_map" timeMap
  match o.find "blend" with
  | some token => if (layerBlend o).isSome then base else base.set "blend" token
  | none => base

/-- `parse_layer`. -/
def parseLayer (o : Json) : LayerData where
  transform := parseTransform o
  opacity := numOr o "opacity" 0x3FF0000000000000
  visible := boolOr o "visible" true
  blend := (layerBlend o).getD .normal
  gain := numOr o "gain" 0x3FF0000000000000
  audible := boolOr o "audible" true
  span := parseSpan o
  timeMap := layerTimeMap o
  contentBody := extractContentBody o
  unknown := layerUnknown o

/-! ## Compositions -/

/-- `CompData`. -/
structure CompData where
  /-- Canvas width. -/
  canvasW : UInt64
  /-- Canvas height. -/
  canvasH : UInt64
  /-- Working space, where it is given. -/
  workingSpace : Option SurfaceFormat
  /-- Working audio format, where it is given. -/
  workingAudioFormat : Option AudioFormat
  /-- The layers, from the bottom to the top. -/
  layers : List LayerData
  /-- What the core does not name. -/
  unknown : Json

/-- The extents of a canvas. -/
def parseCanvas (c : Json) : UInt64 × UInt64 :=
  match c.find "canvas" with
  | some (.array (_ :: _ :: w :: h :: _)) =>
    match w.getDouble?, h.getDouble? with
    | some w, some h => (w.bits, h.bits)
    | _, _ => (0, 0)
  | _ => (0, 0)

/-- A member that is an object. -/
def objectAt (o : Json) (key : String) : Option Json := (o.find key).filter Json.isObject

/-- The layers of a composition; what is not an object is passed over. -/
def parseLayers (c : Json) : List LayerData :=
  match c.find "layers" with
  | some (.array layers) => (layers.filter Json.isObject).map parseLayer
  | _ => []

/-- The residual of a composition, with the residuals of its two formats. -/
def compositionUnknown (c : Json) : Json :=
  let base := unknownResidual c compositionKeys
  let space := unknownResidualAt c "working_space" workingSpaceKeys
  let base := if space.isEmpty then base else base.set "working_space" space
  let audio := unknownResidualAt c "working_audio_format" workingAudioFormatKeys
  if audio.isEmpty then base else base.set "working_audio_format" audio

/-- `parse_composition`. -/
def parseComposition (c : Json) : CompData where
  canvasW := (parseCanvas c).1
  canvasH := (parseCanvas c).2
  workingSpace := (objectAt c "working_space").map parseSurfaceFormat
  workingAudioFormat := (objectAt c "working_audio_format").map parseAudioFormat
  layers := parseLayers c
  unknown := compositionUnknown c

/-! ## The envelope -/

/-- `parse_document`, of what the JSON parser made of the text. -/
def parseDocument (parsed : Option Json) : Except ReaderError Json :=
  match parsed with
  | none => .error ⟨.malformedJson, ""⟩
  | some root =>
    if root.isObject then
      match root.find "arbc" with
      | none => .error ⟨.missingRequiredField, "/arbc"⟩
      | some envelope =>
        if envelope.isObject then
          match envelope.find "format" with
          | none => .error ⟨.missingRequiredField, "/arbc/format"⟩
          | some format =>
            match format.getInt? with
            | none => .error ⟨.malformedField, "/arbc/format"⟩
            | some major =>
              if major = 1 then .ok root else .error ⟨.unknownFormatMajor, "/arbc/format"⟩
        else .error ⟨.malformedField, "/arbc"⟩
    else .error ⟨.malformedField, ""⟩

/-- `storage_format_from_token`. -/
def storageFormatFromToken (token : String) : Option PixelFormat :=
  if token = "rgba16f" then some .rgba16fLinearPremul
  else if token = "rgba32f" then some .rgba32fLinearPremul
  else none

/-- `apply_storage_format`: the format of the context afterwards. -/
def applyStorageFormat (root : Json) (format : PixelFormat) : Except ReaderError PixelFormat :=
  match (root.find "arbc").bind (·.find "storage_format") with
  | none => .ok format
  | some token =>
    match token.getString?.bind storageFormatFromToken with
    | some format => .ok format
    | none => .error ⟨.malformedField, "/arbc/storage_format"⟩

/-- The residual of the root, with that of the envelope. -/
def documentUnknown (root : Json) : Json :=
  let base := unknownResidual root rootKeys
  let envelope := unknownResidualAt root "arbc" envelopeKeys
  if envelope.isEmpty then base else base.set "arbc" envelope

end ArbitraryComposer
