import ArbitraryComposer.Media.Formats
import Mathlib.Algebra.Group.Int.Defs
import Mathlib.Logic.Basic

/-!
# Tile Blobs

The storage form of one raster tile: the working samples converted to the document's storage
format, named by a hash of those bytes, and framed by a byte shuffle and a compressor.

Floating-point samples are their 32-bit patterns; the half-float conversions are the source's
bit manipulations. The hash and the compressor are parameters (`BlobPrimitives`).

## Main definitions

- `f16FromFloat`, `f16ToFloat`: the software half-float conversions.
- `toStorageBytes`, `fromStorageBytes`: working samples to storage bytes and back.
- `hashTile`, `frameTileBlob`, `decodeTileBlob`: naming, framing and verified decoding.

## Main results

- `decodeTileBlob_ok`: a decoded blob hashes to the name it was fetched under.
-/

namespace ArbitraryComposer

/-- Channels of a pixel, in every format. -/
def tileChannels : ℕ := 4

/-- `bytes_per_sample`. -/
def bytesPerSample : PixelFormat → ℕ
  | .rgba16fLinearPremul => 2
  | .rgba32fLinearPremul => 4
  | .rgba8Srgb => 1

/-! ## Software half-float -/

/-- Shift a subnormal mantissa up to its leading one, counting the shifts. Ten shifts suffice
for a nonzero mantissa. -/
def renormalize : ℕ → UInt32 → UInt32 → UInt32 × UInt32
  | 0, m, shift => (m, shift)
  | fuel + 1, m, shift =>
    if m &&& 0x400 = 0 then renormalize fuel (m <<< 1) (shift + 1) else (m, shift)

/-- `f16_to_float`, on bit patterns. -/
def f16ToFloat (half : UInt16) : UInt32 :=
  let sign : UInt32 := (half &&& 0x8000).toUInt32 <<< 16
  let exp : UInt32 := (half >>> 10).toUInt32 &&& 0x1F
  let mant : UInt32 := half.toUInt32 &&& 0x3FF
  if exp = 0 then
    if mant ≠ 0 then
      let (m, shift) := renormalize 10 mant 0
      let e : UInt32 := 127 - 14 - shift
      sign ||| e <<< (23 : UInt32) ||| (m &&& 0x3FF) <<< (13 : UInt32)
    else
      sign
  else if exp = 0x1F then
    -- infinity or NaN, payload preserved
    sign ||| (0x7F800000 : UInt32) ||| mant <<< (13 : UInt32)
  else
    sign ||| (exp + (127 - 15)) <<< (23 : UInt32) ||| mant <<< (13 : UInt32)

/-- `f16_from_float`, on bit patterns. -/
def f16FromFloat (bits : UInt32) : UInt16 :=
  let sign : UInt16 := (bits >>> 16).toUInt16 &&& 0x8000
  let biased : UInt32 := (bits >>> 23) &&& 0xFF
  let mant : UInt32 := bits &&& 0x7FFFFF
  if biased = 0xFF then
    -- a NaN is quieted to one payload, infinity stays infinity
    sign ||| 0x7C00 ||| (if mant ≠ 0 then 0x200 else 0)
  else
    let exp : ℤ := (biased.toNat : ℤ) - 127 + 15
    if exp ≥ 0x1F then
      sign ||| 0x7C00
    else if exp ≤ 0 then
      if exp < -10 then
        sign
      else
        let full : UInt32 := mant ||| 0x800000
        let shift : UInt32 := .ofNat (14 - exp).toNat
        let quotient := full >>> shift
        let remainder := full &&& ((1 <<< shift) - 1)
        let halfway : UInt32 := 1 <<< (shift - 1)
        let rounded :=
          if remainder > halfway ∨ (remainder = halfway ∧ quotient &&& 1 ≠ 0) then quotient + 1
          else quotient
        sign ||| rounded.toUInt16
    else
      let halfMant := mant >>> 13
      let remainder := mant &&& 0x1FFF
      let out : UInt32 := (UInt32.ofNat exp.toNat <<< 10) ||| halfMant
      let out :=
        if remainder > 0x1000 ∨ (remainder = 0x1000 ∧ halfMant &&& 1 ≠ 0) then out + 1 else out
      sign ||| out.toUInt16

/-! ## Storage bytes -/

/-- The little-endian bytes of a 16-bit sample. -/
def bytesOf16 (h : UInt16) : List UInt8 := [h.toUInt8, (h >>> 8).toUInt8]

/-- The little-endian bytes of a 32-bit sample. -/
def bytesOf32 (w : UInt32) : List UInt8 :=
  [w.toUInt8, (w >>> 8).toUInt8, (w >>> 16).toUInt8, (w >>> 24).toUInt8]

/-- `to_storage_bytes`: whole pixels only; a format that is not a storage format encodes to
nothing. -/
def toStorageBytes (working : List UInt32) (storage : PixelFormat) : List UInt8 :=
  let samples := working.take (working.length / tileChannels * tileChannels)
  match storage with
  | .rgba32fLinearPremul => samples.flatMap bytesOf32
  | .rgba16fLinearPremul => samples.flatMap fun w => bytesOf16 (f16FromFloat w)
  | .rgba8Srgb => []

/-- The 32-bit samples of a byte sequence; an incomplete last sample is dropped. -/
def words32 : List UInt8 → List UInt32
  | a :: b :: c :: d :: rest =>
    (a.toUInt32 ||| b.toUInt32 <<< 8 ||| c.toUInt32 <<< 16 ||| d.toUInt32 <<< 24) :: words32 rest
  | _ => []

/-- The 16-bit samples of a byte sequence; an incomplete last sample is dropped. -/
def words16 : List UInt8 → List UInt16
  | a :: b :: rest => (a.toUInt16 ||| b.toUInt16 <<< 8) :: words16 rest
  | _ => []

/-- `from_storage_bytes`: whole pixels only. -/
def fromStorageBytes (storage : List UInt8) (format : PixelFormat) : List UInt32 :=
  let pixels := storage.length / (tileChannels * bytesPerSample format)
  match format with
  | .rgba32fLinearPremul => (words32 storage).take (pixels * tileChannels)
  | .rgba16fLinearPremul => ((words16 storage).take (pixels * tileChannels)).map f16ToFloat
  | .rgba8Srgb => []

/-! ## Names and frames -/

/-- What the tile format takes from outside: the content hash, printed as a name, and the
compressor. -/
structure BlobPrimitives where
  /-- `hash_tile`: the name of a byte sequence. -/
  hashTile : List UInt8 → String
  /-- `compress_blob`; `none` when the compressor reports an error. -/
  compress : List UInt8 → Option (List UInt8)
  /-- `decompress_blob` to exactly the given size; `none` on a corrupt frame. -/
  decompress : List UInt8 → ℕ → Option (List UInt8)

/-- A validated tile grid. -/
structure TileGeometry where
  /-- Edge of a tile in pixels. -/
  edge : ℕ
  /-- Width of the layer in pixels. -/
  width : ℕ
  /-- Height of the layer in pixels. -/
  height : ℕ
  /-- Tiles per row. -/
  tilesX : ℕ
  /-- Tiles per column. -/
  tilesY : ℕ
  deriving DecidableEq, Repr

/-- `TileGeometry::tile_count`. -/
def TileGeometry.tileCount (g : TileGeometry) : ℕ := g.tilesX * g.tilesY

/-- `TileGeometry::tile_samples`. -/
def TileGeometry.tileSamples (g : TileGeometry) : ℕ := g.edge * g.edge * tileChannels

/-- `k_max_tile_edge`. -/
def maxTileEdge : ℤ := 4096

/-- `k_max_dimension`. -/
def maxDimension : ℤ := 2 ^ 20

/-- `k_max_tiles`. -/
def maxTiles : ℤ := 2 ^ 22

/-- `is_power_of_two`, for values up to `maxTileEdge`. -/
def isPowerOfTwo (v : ℤ) : Bool := (List.range 13).any fun k => v = 2 ^ k

/-- `validate_tile_geometry`; `none` is `BadGeometry`. -/
def validateTileGeometry (edge width height : ℤ) : Option TileGeometry :=
  if !isPowerOfTwo edge || edge > maxTileEdge then
    none
  else if width ≤ 0 || height ≤ 0 || width > maxDimension || height > maxDimension then
    none
  else
    let tilesX := (width + edge - 1) / edge
    let tilesY := (height + edge - 1) / edge
    if tilesX * tilesY > maxTiles then
      none
    else
      some ⟨edge.toNat, width.toNat, height.toNat, tilesX.toNat, tilesY.toNat⟩

/-- `TileBlobError::Kind`. -/
inductive TileBlobError where
  /-- The compressor failed or the frame does not decompress to the expected size. -/
  | corruptFrame
  /-- The bytes do not hash to the name they were fetched under. -/
  | hashMismatch
  /-- The expected name is not a tile hash. -/
  | badHash
  deriving DecidableEq, Repr

/-- `k_tile_hash_chars`. -/
def tileHashChars : ℕ := 32

/-- `is_tile_hash`: 32 lower-case hexadecimal characters. -/
def isTileHash (name : String) : Bool :=
  name.length == tileHashChars &&
    name.toList.all fun c => ('0' ≤ c && c ≤ '9') || ('a' ≤ c && c ≤ 'f')

/-- `tile_blob_uri`: the blob's name under `base`, in its two-character fan-out directory. -/
def tileBlobUri (base hash : String) : String :=
  let base := if base.isEmpty || base.toList.getLast? == some '/' then base else base ++ "/"
  base ++ String.ofList (hash.toList.take 2) ++ "/" ++ hash

/-- `shuffle_bytes`: bytes grouped by their position within a sample. -/
def shuffleBytes (bytes : List UInt8) (stride : ℕ) : List UInt8 :=
  if stride ≤ 1 then bytes
  else
    let groups := bytes.length / stride
    ((List.range stride).flatMap fun j =>
      (List.range groups).map fun i => bytes.getD (i * stride + j) 0) ++
      bytes.drop (groups * stride)

/-- `unshuffle_bytes`. -/
def unshuffleBytes (bytes : List UInt8) (stride : ℕ) : List UInt8 :=
  if stride ≤ 1 then bytes
  else
    let groups := bytes.length / stride
    ((List.range groups).flatMap fun i =>
      (List.range stride).map fun j => bytes.getD (j * groups + i) 0) ++
      bytes.drop (groups * stride)

/-- `frame_tile_blob`. -/
def frameTileBlob (prims : BlobPrimitives) (storageBytes : List UInt8) (storage : PixelFormat) :
    Except TileBlobError (List UInt8) :=
  match prims.compress (shuffleBytes storageBytes (bytesPerSample storage)) with
  | some frame => .ok frame
  | none => .error .corruptFrame

/-- `decode_tile_blob`: decompress, unshuffle, verify the name, convert. -/
def decodeTileBlob (prims : BlobPrimitives) (frame : List UInt8) (expectedHash : String)
    (storage : PixelFormat) (sampleCount : ℕ) : Except TileBlobError (List UInt32) :=
  if !isTileHash expectedHash then
    .error .badHash
  else
    match prims.decompress frame (sampleCount * bytesPerSample storage) with
    | none => .error .corruptFrame
    | some raw =>
      let storageBytes := unshuffleBytes raw (bytesPerSample storage)
      if prims.hashTile storageBytes ≠ expectedHash then
        .error .hashMismatch
      else
        .ok (fromStorageBytes storageBytes storage)

/-- A blob of `samples` samples encodes again to the bytes it was decoded from: it holds no
half-float NaN but the one the encoder writes. -/
def ReadsBack (bytes : List UInt8) (storage : PixelFormat) (samples : ℕ) : Prop :=
  toStorageBytes ((fromStorageBytes bytes storage).take samples) storage = bytes

instance (bytes : List UInt8) (storage : PixelFormat) (samples : ℕ) :
    Decidable (ReadsBack bytes storage samples) :=
  inferInstanceAs (Decidable (_ = _))

/-- A decoded blob is the reading of bytes that hash to the name it was fetched under. -/
theorem decodeTileBlob_ok {prims : BlobPrimitives} {frame : List UInt8} {hash : String}
    {storage : PixelFormat} {samples : ℕ} {pixels : List UInt32}
    (h : decodeTileBlob prims frame hash storage samples = .ok pixels) :
    ∃ raw, prims.decompress frame (samples * bytesPerSample storage) = some raw ∧
      prims.hashTile (unshuffleBytes raw (bytesPerSample storage)) = hash ∧
      pixels = fromStorageBytes (unshuffleBytes raw (bytesPerSample storage)) storage := by
  unfold decodeTileBlob at h
  split at h
  · cases h
  · split at h
    · cases h
    · rename_i raw hraw
      simp only at h
      split at h
      · cases h
      · rename_i hhash
        exact ⟨raw, hraw, not_not.mp hhash, by cases h; rfl⟩

/-- A half-float NaN with any payload but the encoder's own does not survive a load. -/
example : f16FromFloat (f16ToFloat 0x7C01) = 0x7E00 := by decide +kernel

end ArbitraryComposer
