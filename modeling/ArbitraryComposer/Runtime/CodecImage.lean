import ArbitraryComposer.KindImage.PyramidCache
import ArbitraryComposer.Serialize.UnknownFields
import ArbitraryComposer.Serialize.UriResolution
import ArbitraryComposer.ToMathlib.Delimited

/-!
# The Codec of the Image Kind

An image layer is saved as the reference that its document was written with. On a load the codec
resolves the reference and hands the plugin one text of three parts: the reference, the URI it
resolves to, and the bytes of the asset. The plugin cuts it apart again at the first two newlines,
which is right when neither the reference nor the URI has one.

## Main definitions

- `imageConfig`, `makeImageContent`: the text, and the factory of the plugin.
- `serializeImage`: what is saved.
- `ImageContent.installAsset`: bytes that come later.

## Main results

- `cutConfig_imageConfig_iff`: when the parts come apart as they were put together.
- `find_savedParams`: what is saved of a reference that was kept.
-/

namespace ArbitraryComposer

/-- The bytes of a text. -/
def bytesOf (s : String) : ByteString := s.toUTF8.data.toList

/-- The text of bytes that are one. -/
def textOf (bytes : ByteString) : String := (String.fromUTF8? ⟨bytes.toArray⟩).getD ""

theorem textOf_bytesOf (s : String) : textOf (bytesOf s) = s := by
  have hutf8 : String.fromUTF8? s.toUTF8 = some s := by
    rw [String.fromUTF8?, dif_pos (show s.toUTF8.IsValidUTF8 from s.isValidUTF8)]
    rfl
  exact congrArg (·.getD "") hutf8

/-- The newline. -/
def newline : UInt8 := 10

/-- The frame of a `ContentConfig`. -/
def imageConfig (authored resolved bytes : ByteString) : ByteString :=
  authored ++ newline :: (resolved ++ newline :: bytes)

/-- The parts of a frame: the reference, the URI and the bytes. -/
def cutConfig (config : ByteString) : Except String (ByteString × ByteString × ByteString) :=
  match config.cutAt newline with
  | none => .error "image: malformed config (no authored-URI delimiter)"
  | some (authored, rest) =>
    match rest.cutAt newline with
    | none => .error "image: malformed config (no resolved-URI delimiter)"
    | some (resolved, bytes) => .ok (authored, resolved, bytes)

/-- The parts of a frame come apart as they were put together when the reference and the URI have no
newline, and only then. -/
theorem cutConfig_imageConfig_iff {authored resolved bytes : ByteString} :
    cutConfig (imageConfig authored resolved bytes) = .ok (authored, resolved, bytes) ↔
      newline ∉ authored ∧ newline ∉ resolved := by
  constructor
  · intro h
    rw [cutConfig] at h
    split at h
    case h_1 => cases h
    case h_2 authored' rest hcut =>
      split at h
      case h_1 => cases h
      case h_2 resolved' bytes' hcut' =>
        cases h
        exact ⟨(List.cutAt_eq_some hcut).2, (List.cutAt_eq_some hcut').2⟩
  · rintro ⟨hauthored, hresolved⟩
    rw [cutConfig, imageConfig, List.cutAt_append hauthored]
    dsimp only
    rw [List.cutAt_append hresolved]

/-- `ImageContent`. -/
structure ImageContent where
  /-- `d_uri`. -/
  uri : ByteString
  /-- `d_resolved`. -/
  resolved : ByteString
  /-- The extent is published. -/
  available : Bool
  /-- The bytes that its pixels were asked for with; empty bytes are absence. -/
  given : List ByteString
  deriving DecidableEq

variable {π : Type} (d : PyramidDecoder π)

/-- `make_image_content`. -/
def makeImageContent (cache : PyramidCache π) (config : ByteString) :
    Except String (ImageContent × PyramidCache π) :=
  match cutConfig config with
  | .error e => .error e
  | .ok (authored, resolved, bytes) =>
    let (pyramid, cache) := cache.resolve d resolved bytes
    .ok (⟨authored, resolved, pyramid.isSome, [bytes].filter (· ≠ [])⟩, cache)

/-- `ImageContent::install_asset`: whether it has its extent, and the content. -/
def ImageContent.installAsset (cache : PyramidCache π) (c : ImageContent) (encoded : ByteString) :
    Bool × ImageContent × PyramidCache π :=
  if c.available then (true, c, cache)
  else
    let (decoded, cache) := cache.resolve d c.resolved encoded
    (decoded.isSome,
      { c with
        available := decoded.isSome
        given := c.given ++ [encoded].filter (· ≠ []) },
      cache)

/-- `serialize_image`. -/
def serializeImage (c : ImageContent) : Json :=
  .object (if c.uri = [] then [] else [("source", .string (textOf c.uri))])

/-- The reference of parameters; one that is not a text is taken for absent. -/
def sourceOf (params : Json) : String :=
  match params.find "source" with
  | some (.string source) => source
  | _ => ""

/-- The URI a reference resolves to at a base; the empty reference resolves to nothing. -/
def imageUri (baseUri source : String) : String :=
  if source = "" then "" else String.ofList (resolveUri baseUri.toList source.toList)

/-- The parameters of a content that are saved: what the codec writes, with what it did not write on
the load. -/
def savedParams (params : Json) (c : ImageContent) : Json :=
  mergeUnknown (serializeImage c) (unknownResidualDiff params (serializeImage c))

/-- What the factory builds from a frame whose reference and URI have no newline. -/
theorem makeImageContent_spec {cache cache' : PyramidCache π} {authored resolved bytes : ByteString}
    {c : ImageContent} (hauthored : newline ∉ authored) (hresolved : newline ∉ resolved)
    (h : makeImageContent d cache (imageConfig authored resolved bytes) = .ok (c, cache')) :
    c.uri = authored ∧ c.resolved = resolved ∧ c.given = [bytes].filter (· ≠ []) ∧
      (bytes = [] → c.available = false) := by
  rw [makeImageContent, cutConfig_imageConfig_iff.mpr ⟨hauthored, hresolved⟩] at h
  cases h
  refine ⟨rfl, rfl, rfl, ?_⟩
  rintro rfl
  -- empty bytes are absence, also where the cache has the URI
  show (cache.resolve d resolved []).1.isSome = false
  rw [PyramidCache.resolve, if_pos rfl, ite_self]
  rfl

/-! ## What is saved -/

section

variable {known : Json} {key s : String}

/-- A text that is written already stays. -/
theorem find_mergeMembers_of_string (fields : List (String × Json)) (ho : known.isObject = true)
    (h : known.find key = some (.string s)) :
    (mergeMembers known fields).find key = some (.string s) := by
  induction fields generalizing known with
  | nil =>
    rw [mergeMembers]
    exact h
  | cons p fields ih =>
    obtain ⟨key', value⟩ := p
    obtain ⟨known', ho', hmerge, hne, hself⟩ := mergeStep ho key' value fields
    rw [hmerge]
    refine ih ho' ?_
    by_cases hkey : key = key'
    · subst hkey
      rw [hself, h, Option.elim_some, mergeUnknown_eq_self (.inl rfl)]
    · exact (hne key hkey).trans h

/-- A text that is not written yet comes from the residual. -/
theorem find_mergeMembers_of_none {fields : List (String × Json)} (ho : known.isObject = true)
    (h : known.find key = none) (hfields : fields.lookup key = some (.string s)) :
    (mergeMembers known fields).find key = some (.string s) := by
  induction fields generalizing known with
  | nil => cases hfields
  | cons p fields ih =>
    obtain ⟨key', value⟩ := p
    obtain ⟨known', ho', hmerge, hne, hself⟩ := mergeStep ho key' value fields
    rw [hmerge]
    rw [List.lookup_cons] at hfields
    by_cases hkey : key = key'
    · subst hkey
      rw [beq_self_eq_true] at hfields
      obtain rfl := Option.some.inj hfields
      exact find_mergeMembers_of_string fields ho' (by rw [hself, h, Option.elim_none])
    · rw [beq_false_of_ne hkey] at hfields
      exact ih ho' ((hne key hkey).trans h) hfields

/-- Where the codec writes nothing, all parameters are kept. -/
theorem diffMembers_empty (fields : List (String × Json)) :
    diffMembers fields (.object []) = fields := by
  induction fields with
  | nil => rw [diffMembers]
  | cons p fields ih =>
    obtain ⟨key, value⟩ := p
    rw [diffMembers, ih]
    rfl

end

/-- A reference that the content has kept is saved. -/
theorem find_savedParams {params : Json} {c : ImageContent} {source : String}
    (hparams : params.find "source" = some (.string source)) (huri : c.uri = bytesOf source) :
    (savedParams params c).find "source" = some (.string source) := by
  cases params with
  | object fields =>
    have hlookup : fields.lookup "source" = some (.string source) := hparams
    rw [savedParams, serializeImage, huri]
    by_cases hempty : bytesOf source = []
    · rw [if_pos hempty]
      show (mergeMembers (.object []) (diffMembers fields (.object []))).find "source" = _
      rw [diffMembers_empty]
      exact find_mergeMembers_of_none rfl rfl hlookup
    · rw [if_neg hempty, textOf_bytesOf]
      exact find_mergeMembers_of_string _ rfl rfl
  | _ => cases hparams

end ArbitraryComposer
