import ArbitraryComposer.Serialize.TileBlob
import ArbitraryComposer.ToMathlib.Grid
import Mathlib.Data.UInt

/-!
# The Tile Blob Codec

A tile of a checked geometry is framed and decoded again. The one buffer of a decode has the size
that the checked geometry gives, whatever the frame says. The compressor is a parameter: a frame
decompresses to what was compressed when the buffer is large enough.

A 32-bit tile comes back as it was. A 16-bit tile was rounded when it was written, so what comes
back are its samples as half floats.

## Main definitions

- `Zstd`, `compressBlob`, `decompressBlob`: the compressor and the two functions over it.
- `validateTileGeometry64`: the geometry check in machine integers.
- `storedSample`: a sample as a storage format keeps it.

## Main results

- `unshuffleBytes_shuffleBytes`, `shuffleBytes_unshuffleBytes`: the byte shuffle is a bijection.
- `validateTileGeometry64_eq`: no computation of the geometry check overflows.
- `tileBlobCodec_roundTrip`: the codec.
-/

namespace ArbitraryComposer

/-! ## The compressor and the names -/

/-- The compressor library. -/
structure Zstd where
  /-- `ZSTD_compress` into a buffer of `ZSTD_compressBound` bytes; none is an error. -/
  compress : List UInt8 → Option (List UInt8)
  /-- `ZSTD_decompress` into a buffer of so many bytes: what was produced, or an error. -/
  decompress : List UInt8 → ℕ → Option (List UInt8)

/-- A frame decompresses to what was compressed, into a buffer that just holds it. -/
def Zstd.Lossless (zstd : Zstd) : Prop :=
  ∀ bytes frame, zstd.compress bytes = some frame →
    zstd.decompress frame bytes.length = some bytes

/-- `compress_blob`. -/
def compressBlob (zstd : Zstd) (blob : List UInt8) : Option (List UInt8) := zstd.compress blob

/-- `decompress_blob`: anything but the expected size is an error. -/
def decompressBlob (zstd : Zstd) (frame : List UInt8) (expectedSize : ℕ) : Option (List UInt8) :=
  (zstd.decompress frame expectedSize).filter fun blob => blob.length == expectedSize

/-- `k_hex`. -/
def hexChars : List Char := "0123456789abcdef".toList

/-- `to_hex`: the leading bytes of a digest. -/
def toHex (digest : List UInt8) (n : ℕ) : String :=
  .ofList ((digest.take n).flatMap fun (b : UInt8) =>
    [hexChars.getD ((b >>> 4) &&& 0x0F).toNat '0', hexChars.getD (b &&& 0x0F).toNat '0'])

/-- `k_tile_hash_bytes`. -/
def tileHashBytes : ℕ := 16

/-- `hash_tile`. -/
def hashTile (sha256 : List UInt8 → Vector UInt8 32) (storageBytes : List UInt8) : String :=
  toHex (sha256 storageBytes).toList tileHashBytes

/-- What the tile format takes from outside, over a compressor and a digest. -/
def zstdPrimitives (zstd : Zstd) (sha256 : List UInt8 → Vector UInt8 32) : BlobPrimitives where
  hashTile := hashTile sha256
  compress := compressBlob zstd
  decompress := decompressBlob zstd

/-- What `to_hex` writes. -/
private theorem hexChars_getD (n : ℕ) (hn : n < 16) :
    ('0' ≤ hexChars.getD n '0' && hexChars.getD n '0' ≤ '9' ||
      'a' ≤ hexChars.getD n '0' && hexChars.getD n '0' ≤ 'f') = true := by
  have hall : ∀ m < 16, ('0' ≤ hexChars.getD m '0' && hexChars.getD m '0' ≤ '9' ||
      'a' ≤ hexChars.getD m '0' && hexChars.getD m '0' ≤ 'f') = true := by decide
  exact hall n hn

/-- The name of a blob is a tile hash. -/
theorem isTileHash_hashTile (sha256 : List UInt8 → Vector UInt8 32) (bytes : List UInt8) :
    isTileHash (hashTile sha256 bytes) = true := by
  have hnibble : ∀ b : UInt8, (b &&& 0x0F).toNat < 16 := fun b => by
    rw [UInt8.toNat_and]
    exact Nat.lt_succ_of_le Nat.and_le_right
  rw [isTileHash, hashTile, toHex, Bool.and_eq_true, beq_iff_eq, List.all_eq_true]
  constructor
  · rw [String.length_ofList, List.length_flatMap]
    simp [tileHashBytes, tileHashChars]
  · intro c hc
    rw [String.toList_ofList, List.mem_flatMap] at hc
    obtain ⟨b, -, hc⟩ := hc
    rcases List.mem_cons.mp hc with rfl | hc
    · exact hexChars_getD _ (hnibble _)
    · obtain rfl := List.mem_singleton.mp hc
      exact hexChars_getD _ (hnibble _)

/-! ## The byte shuffle -/

/-- The byte planes as a grid. -/
private theorem shuffleBytes_eq {stride : ℕ} (hstride : ¬ stride ≤ 1) (bytes : List UInt8) :
    shuffleBytes bytes stride = List.grid stride (bytes.length / stride) (fun j i =>
      bytes.getD (i * stride + j) 0) ++ bytes.drop (bytes.length / stride * stride) := by
  rw [shuffleBytes, if_neg hstride]
  rfl

/-- The samples of byte planes as a grid. -/
private theorem unshuffleBytes_eq {stride : ℕ} (hstride : ¬ stride ≤ 1) (bytes : List UInt8) :
    unshuffleBytes bytes stride = List.grid (bytes.length / stride) stride (fun i j =>
      bytes.getD (j * (bytes.length / stride) + i) 0) ++
        bytes.drop (bytes.length / stride * stride) := by
  rw [unshuffleBytes, if_neg hstride]
  rfl

@[simp]
theorem length_shuffleBytes (bytes : List UInt8) (stride : ℕ) :
    (shuffleBytes bytes stride).length = bytes.length := by
  by_cases hstride : stride ≤ 1
  · rw [shuffleBytes, if_pos hstride]
  · have hle := Nat.div_mul_le_self bytes.length stride
    rw [shuffleBytes_eq hstride, List.length_append, List.length_grid, List.length_drop,
      Nat.mul_comm stride]
    omega

@[simp]
theorem length_unshuffleBytes (bytes : List UInt8) (stride : ℕ) :
    (unshuffleBytes bytes stride).length = bytes.length := by
  by_cases hstride : stride ≤ 1
  · rw [unshuffleBytes, if_pos hstride]
  · have hle := Nat.div_mul_le_self bytes.length stride
    rw [unshuffleBytes_eq hstride, List.length_append, List.length_grid, List.length_drop]
    omega

/-- Unshuffling undoes shuffling. -/
theorem unshuffleBytes_shuffleBytes (bytes : List UInt8) (stride : ℕ) :
    unshuffleBytes (shuffleBytes bytes stride) stride = bytes := by
  by_cases hstride : stride ≤ 1
  · rw [unshuffleBytes, if_pos hstride, shuffleBytes, if_pos hstride]
  · have hle := Nat.div_mul_le_self bytes.length stride
    rw [unshuffleBytes_eq hstride, length_shuffleBytes, shuffleBytes_eq hstride,
      List.grid_transpose bytes _ 0 hle, List.drop_append_of_le_length, List.drop_of_length_le,
      List.nil_append, List.take_append_drop]
    · rw [List.length_grid, Nat.mul_comm]
    · rw [List.length_grid, Nat.mul_comm]

/-- Shuffling undoes unshuffling. -/
theorem shuffleBytes_unshuffleBytes (bytes : List UInt8) (stride : ℕ) :
    shuffleBytes (unshuffleBytes bytes stride) stride = bytes := by
  by_cases hstride : stride ≤ 1
  · rw [shuffleBytes, if_pos hstride, unshuffleBytes, if_pos hstride]
  · have hle := Nat.div_mul_le_self bytes.length stride
    have hle' : stride * (bytes.length / stride) ≤ bytes.length := by rwa [Nat.mul_comm]
    rw [shuffleBytes_eq hstride, length_unshuffleBytes, unshuffleBytes_eq hstride,
      List.grid_transpose bytes _ 0 hle', List.drop_append_of_le_length, List.drop_of_length_le,
      List.nil_append, Nat.mul_comm stride, List.take_append_drop]
    · rw [List.length_grid]
    · rw [List.length_grid]

/-! ## Storage bytes -/

/-- A word is spelled by its bytes. -/
private theorem word32_bytes (w : UInt32) :
    w.toUInt8.toUInt32 ||| (w >>> 8).toUInt8.toUInt32 <<< 8 |||
      (w >>> 16).toUInt8.toUInt32 <<< 16 ||| (w >>> 24).toUInt8.toUInt32 <<< 24 = w := by
  have h8 : (UInt32.toBitVec 8 % 32).toNat = 8 := rfl
  have h16 : (UInt32.toBitVec 16 % 32).toNat = 16 := rfl
  have h24 : (UInt32.toBitVec 24 % 32).toNat = 24 := rfl
  apply UInt32.toBitVec_inj.mp
  ext i hi
  simp only [UInt32.toBitVec_or, UInt32.toBitVec_shiftLeft, UInt8.toBitVec_toUInt32,
    UInt32.toBitVec_toUInt8, UInt32.toBitVec_shiftRight, BitVec.getElem_or, BitVec.shiftLeft_eq',
    BitVec.ushiftRight_eq', h8, h16, h24, BitVec.getElem_shiftLeft, BitVec.getElem_setWidth,
    BitVec.getLsbD_setWidth, BitVec.getLsbD_ushiftRight]
  rw [← BitVec.getLsbD_eq_getElem]
  -- a bit comes from the byte it lies in
  rcases Nat.lt_or_ge i 16 with hlo | hhi
  · rcases Nat.lt_or_ge i 8 with h | h
    · simp [h, show i < 16 by omega, show i < 24 by omega]
    · simp [show ¬ i < 8 by omega, show i - 8 < 8 by omega, show 8 + (i - 8) = i by omega, hlo,
        show i < 24 by omega]
  · rcases Nat.lt_or_ge i 24 with h | h
    · simp [show ¬ i < 8 by omega, show ¬ i - 8 < 8 by omega, show ¬ i < 16 by omega,
        show i - 16 < 8 by omega, show 16 + (i - 16) = i by omega, h]
    · simp [show ¬ i < 8 by omega, show ¬ i - 8 < 8 by omega, show ¬ i < 16 by omega,
        show ¬ i - 16 < 8 by omega, show ¬ i < 24 by omega, show i - 24 < 8 by omega,
        show 24 + (i - 24) = i by omega]

/-- A half word is spelled by its bytes. -/
private theorem word16_bytes (h : UInt16) :
    h.toUInt8.toUInt16 ||| (h >>> 8).toUInt8.toUInt16 <<< 8 = h := by
  have h8 : (UInt16.toBitVec 8 % 16).toNat = 8 := rfl
  apply UInt16.toBitVec_inj.mp
  ext i hi
  simp only [UInt16.toBitVec_or, UInt16.toBitVec_shiftLeft, UInt8.toBitVec_toUInt16,
    UInt16.toBitVec_toUInt8, UInt16.toBitVec_shiftRight, BitVec.getElem_or, BitVec.shiftLeft_eq',
    BitVec.ushiftRight_eq', h8, BitVec.getElem_shiftLeft, BitVec.getElem_setWidth,
    BitVec.getLsbD_setWidth, BitVec.getLsbD_ushiftRight]
  rw [← BitVec.getLsbD_eq_getElem]
  rcases Nat.lt_or_ge i 8 with h | h
  · simp [h]
  · simp [show ¬ i < 8 by omega, show i - 8 < 8 by omega, show 8 + (i - 8) = i by omega]

/-- 32-bit samples are read as they were written. -/
theorem words32_flatMap (samples : List UInt32) :
    words32 (samples.flatMap bytesOf32) = samples := by
  induction samples with
  | nil => rfl
  | cons w samples ih =>
    show words32 (w.toUInt8 :: (w >>> 8).toUInt8 :: (w >>> 16).toUInt8 :: (w >>> 24).toUInt8 ::
      samples.flatMap bytesOf32) = _
    rw [words32, ih, word32_bytes]

/-- 16-bit samples are read as they were written. -/
theorem words16_flatMap (samples : List UInt16) :
    words16 (samples.flatMap bytesOf16) = samples := by
  induction samples with
  | nil => rfl
  | cons h samples ih =>
    show words16 (h.toUInt8 :: (h >>> 8).toUInt8 :: samples.flatMap bytesOf16) = _
    rw [words16, ih, word16_bytes]

/-- Four bytes are a 32-bit sample. -/
private theorem length_words32 (bytes : List UInt8) :
    (words32 bytes).length = bytes.length / 4 := by
  fun_induction words32 bytes with
  | case1 a b c d rest ih =>
    rw [List.length_cons, ih]
    simp only [List.length_cons]
    omega
  | case2 bytes h =>
    rcases bytes with _ | ⟨a, _ | ⟨b, _ | ⟨c, _ | ⟨d, rest⟩⟩⟩⟩
    · rfl
    · simp
    · simp
    · simp
    · exact absurd rfl (h a b c d rest)

/-- Two bytes are a 16-bit sample. -/
private theorem length_words16 (bytes : List UInt8) :
    (words16 bytes).length = bytes.length / 2 := by
  fun_induction words16 bytes with
  | case1 a b rest ih =>
    rw [List.length_cons, ih]
    simp only [List.length_cons]
    omega
  | case2 bytes h =>
    rcases bytes with _ | ⟨a, _ | ⟨b, rest⟩⟩
    · rfl
    · simp
    · exact absurd rfl (h a b rest)

/-- A storage format that a document may have. -/
def PixelFormat.stores : PixelFormat → Bool
  | .rgba16fLinearPremul | .rgba32fLinearPremul => true
  | .rgba8Srgb => false

/-- A sample as a storage format keeps it. -/
def storedSample : PixelFormat → UInt32 → UInt32
  | .rgba16fLinearPremul, sample => f16ToFloat (f16FromFloat sample)
  | _, sample => sample

variable {storage : PixelFormat}

/-- Whole pixels take as many bytes as their samples. -/
theorem length_toStorageBytes (hstorage : storage.stores = true) {working : List UInt32}
    (hpixels : tileChannels ∣ working.length) :
    (toStorageBytes working storage).length = working.length * bytesPerSample storage := by
  have hwhole : working.length / tileChannels * tileChannels = working.length :=
    Nat.div_mul_cancel hpixels
  cases storage with
  | rgba8Srgb => cases hstorage
  | rgba16fLinearPremul =>
    rw [toStorageBytes, hwhole, List.take_length]
    simp [List.length_flatMap, bytesOf16, bytesPerSample]
  | rgba32fLinearPremul =>
    rw [toStorageBytes, hwhole, List.take_length]
    simp [List.length_flatMap, bytesOf32, bytesPerSample]

/-- Storage bytes are read as the samples that the format keeps. -/
theorem fromStorageBytes_toStorageBytes (hstorage : storage.stores = true) {working : List UInt32}
    (hpixels : tileChannels ∣ working.length) :
    fromStorageBytes (toStorageBytes working storage) storage =
      working.map (storedSample storage) := by
  have hlength := length_toStorageBytes hstorage hpixels
  have hwhole : working.length / tileChannels * tileChannels = working.length :=
    Nat.div_mul_cancel hpixels
  have hcount : (toStorageBytes working storage).length / (tileChannels * bytesPerSample storage) *
      tileChannels = working.length := by
    have hpos : 0 < bytesPerSample storage := by cases storage <;> decide
    rw [hlength, Nat.mul_div_mul_right _ _ hpos, hwhole]
  unfold fromStorageBytes
  dsimp only
  rw [hcount]
  cases storage with
  | rgba8Srgb => cases hstorage
  | rgba16fLinearPremul =>
    have hwords : words16 (toStorageBytes working .rgba16fLinearPremul) =
        working.map f16FromFloat := by
      rw [toStorageBytes, hwhole, List.take_length, ← words16_flatMap (working.map f16FromFloat),
        List.flatMap_map]
    dsimp only
    rw [hwords, List.take_of_length_le (Nat.le_of_eq (List.length_map _)), List.map_map]
    rfl
  | rgba32fLinearPremul =>
    have hwords : words32 (toStorageBytes working .rgba32fLinearPremul) = working := by
      rw [toStorageBytes, hwhole, List.take_length, words32_flatMap]
    dsimp only
    rw [hwords, List.take_length]
    exact (List.map_id _).symm

/-- Bytes of whole pixels are read as so many samples. -/
theorem length_fromStorageBytes (hstorage : storage.stores = true) {bytes : List UInt8}
    {samples : ℕ} (hbytes : bytes.length = samples * bytesPerSample storage)
    (hpixels : tileChannels ∣ samples) :
    (fromStorageBytes bytes storage).length = samples := by
  have hpos : 0 < bytesPerSample storage := by cases storage <;> decide
  have hcount :
      bytes.length / (tileChannels * bytesPerSample storage) * tileChannels = samples := by
    rw [hbytes, Nat.mul_div_mul_right _ _ hpos, Nat.div_mul_cancel hpixels]
  unfold fromStorageBytes
  dsimp only
  rw [hcount]
  cases storage with
  | rgba8Srgb => cases hstorage
  | rgba16fLinearPremul =>
    dsimp only
    rw [List.length_map, List.length_take, length_words16, hbytes]
    simp [bytesPerSample]
  | rgba32fLinearPremul =>
    dsimp only
    rw [List.length_take, length_words32, hbytes]
    simp [bytesPerSample]

/-! ## The geometry check -/

/-- `is_power_of_two`. -/
def isPowerOfTwo64 (v : Int64) : Bool := decide (0 < v) && (v &&& (v - 1)) == 0

/-- `k_max_tile_edge`. -/
def maxTileEdge64 : Int64 := 4096

/-- `k_max_dimension`. -/
def maxDimension64 : Int64 := (1 : Int64) <<< 20

/-- `k_max_tiles`. -/
def maxTiles64 : Int64 := (1 : Int64) <<< 22

/-- `validate_tile_geometry` in the integers it is computed in. -/
def validateTileGeometry64 (edge width height : Int64) : Option TileGeometry :=
  if !isPowerOfTwo64 edge || decide (maxTileEdge64 < edge) then none
  else if width ≤ 0 ∨ height ≤ 0 ∨ maxDimension64 < width ∨ maxDimension64 < height then none
  else
    let tilesX := (width + edge - 1) / edge
    let tilesY := (height + edge - 1) / edge
    if maxTiles64 < tilesX * tilesY then none
    else some ⟨edge.toInt32.toInt.toNat, width.toInt32.toInt.toNat, height.toInt32.toInt.toNat,
      tilesX.toInt32.toInt.toNat, tilesY.toInt32.toInt.toNat⟩

private theorem maxTileEdge64_toInt : maxTileEdge64.toInt = maxTileEdge := by decide +kernel

private theorem maxDimension64_toInt : maxDimension64.toInt = maxDimension := by decide +kernel

private theorem maxTiles64_toInt : maxTiles64.toInt = maxTiles := by decide +kernel

/-- The two tests of a power of two agree on edges. -/
private theorem isPowerOfTwo64_eq {edge : Int64} (hedge : edge.toInt ≤ 4096) :
    isPowerOfTwo64 edge = isPowerOfTwo edge.toInt := by
  by_cases hpos : 0 < edge.toInt
  · have hall : ∀ a < 65, ∀ b < 64, isPowerOfTwo64 (Int64.ofNat (64 * a + b)) =
        isPowerOfTwo ((64 * a + b : ℕ) : ℤ) := by
      decide +kernel
    obtain ⟨n, hn⟩ := Int.eq_ofNat_of_zero_le hpos.le
    have hedge' : edge = Int64.ofNat n := by
      apply Int64.toInt_inj.mp
      rw [hn, Int64.toInt_ofNat_of_lt (by omega)]
    have hcase := hall (n / 64) (by omega) (n % 64) (Nat.mod_lt _ (by decide))
    rw [Nat.div_add_mod] at hcase
    rw [hn, hedge', hcase]
  · have hnot : ¬ (0 : Int64) < edge := fun hlt => hpos (Int64.lt_iff_toInt_lt.mp hlt)
    rw [isPowerOfTwo64, decide_eq_false hnot, Bool.false_and]
    symm
    rw [isPowerOfTwo, List.any_eq_false]
    intro k _
    have hpow : (0 : ℤ) < 2 ^ k := Int.pow_pos (by decide)
    rw [decide_eq_true_iff]
    omega

/-- An edge of a tile is positive. -/
private theorem pos_of_isPowerOfTwo {v : ℤ} (h : isPowerOfTwo v = true) : 0 < v := by
  rw [isPowerOfTwo, List.any_eq_true] at h
  obtain ⟨k, -, hk⟩ := h
  rw [decide_eq_true_iff] at hk
  rw [hk]
  exact Int.pow_pos (by decide)

/-- Tiles along a side, rounded up, in machine integers. -/
private theorem toInt_tiles {side edge : Int64} (hside : 0 < side.toInt)
    (hside' : side.toInt ≤ 2 ^ 20) (hedge : 0 < edge.toInt) (hedge' : edge.toInt ≤ 4096) :
    ((side + edge - 1) / edge).toInt = (side.toInt + edge.toInt - 1) / edge.toInt := by
  have hone : (1 : Int64).toInt = 1 := rfl
  have hne : edge ≠ -1 := fun heq => by
    rw [heq] at hedge
    exact absurd hedge (by decide)
  have hadd : (side + edge).toInt = side.toInt + edge.toInt := by
    rw [Int64.toInt_add, Int.bmod_eq_of_le (by omega) (by omega)]
  have hsum : (side + edge - 1).toInt = side.toInt + edge.toInt - 1 := by
    rw [Int64.toInt_sub, hadd, hone, Int.bmod_eq_of_le (by omega) (by omega)]
  rw [Int64.toInt_div_of_ne_right _ _ hne, hsum, Int.tdiv_eq_ediv_of_nonneg (by omega)]

/-- A side takes at least one tile and no more tiles than pixels. -/
private theorem tiles_bounds {side edge : ℤ} (hside : 0 < side) (hedge : 0 < edge) :
    0 < (side + edge - 1) / edge ∧ (side + edge - 1) / edge ≤ side := by
  constructor
  · apply Int.add_one_le_iff.mp
    rw [Int.zero_add, Int.le_ediv_iff_mul_le hedge, Int.one_mul]
    omega
  · apply Int.lt_add_one_iff.mp
    rw [Int.ediv_lt_iff_lt_mul hedge]
    have hmul : side * 1 ≤ side * edge := Int.mul_le_mul_of_nonneg_left hedge hside.le
    rw [Int.add_mul]
    omega

/-- A small number survives the cast to `int`. -/
private theorem toNat_toInt32 {v : Int64} (hv : 0 ≤ v.toInt) (hv' : v.toInt ≤ 2 ^ 20) :
    v.toInt32.toInt.toNat = v.toInt.toNat := by
  rw [Int64.toInt_toInt32, Int.bmod_eq_of_le (by omega) (by omega)]

/-- No computation of the geometry check overflows. -/
theorem validateTileGeometry64_eq (edge width height : Int64) :
    validateTileGeometry64 edge width height =
      validateTileGeometry edge.toInt width.toInt height.toInt := by
  have hzero : (0 : Int64).toInt = 0 := rfl
  have hedges : (!isPowerOfTwo64 edge || decide (maxTileEdge64 < edge)) =
      (!isPowerOfTwo edge.toInt || decide (edge.toInt > maxTileEdge)) := by
    have hlt : decide (maxTileEdge64 < edge) = decide (edge.toInt > maxTileEdge) := by
      rw [decide_eq_decide, Int64.lt_iff_toInt_lt, maxTileEdge64_toInt]
    by_cases hedge : edge.toInt ≤ 4096
    · rw [hlt, isPowerOfTwo64_eq hedge]
    · have hlarge : edge.toInt > maxTileEdge := Int.not_le.mp hedge
      rw [hlt, decide_eq_true hlarge, Bool.or_true, Bool.or_true]
  have hsides : (width ≤ 0 ∨ height ≤ 0 ∨ maxDimension64 < width ∨ maxDimension64 < height) ↔
      (decide (width.toInt ≤ 0) || decide (height.toInt ≤ 0) ||
        decide (width.toInt > maxDimension) || decide (height.toInt > maxDimension)) = true := by
    simp only [Int64.le_iff_toInt_le, Int64.lt_iff_toInt_lt, hzero, maxDimension64_toInt,
      Bool.or_eq_true, decide_eq_true_iff, gt_iff_lt, or_assoc]
  rw [validateTileGeometry64, validateTileGeometry, hedges, if_congr hsides rfl rfl]
  apply ite_congr rfl (fun _ => rfl)
  intro hpow
  apply ite_congr rfl (fun _ => rfl)
  intro hbounds
  obtain ⟨hpow, hedge⟩ : isPowerOfTwo edge.toInt = true ∧ edge.toInt ≤ 4096 := by
    rw [Bool.or_eq_true, Bool.not_eq_true', not_or, Bool.not_eq_false, decide_eq_true_iff] at hpow
    exact ⟨hpow.1, Int.not_lt.mp hpow.2⟩
  obtain ⟨hwidth, hheight, hwidth', hheight'⟩ : 0 < width.toInt ∧ 0 < height.toInt ∧
      width.toInt ≤ 2 ^ 20 ∧ height.toInt ≤ 2 ^ 20 := by
    simp only [Bool.or_eq_true, decide_eq_true_iff, gt_iff_lt, not_or, Int.not_le, Int.not_lt,
      maxDimension] at hbounds
    exact ⟨hbounds.1.1.1, hbounds.1.1.2, hbounds.1.2, hbounds.2⟩
  have hpos := pos_of_isPowerOfTwo hpow
  have htilesX := toInt_tiles hwidth hwidth' hpos hedge
  have htilesY := toInt_tiles hheight hheight' hpos hedge
  obtain ⟨hx, hx'⟩ := tiles_bounds hwidth hpos
  obtain ⟨hy, hy'⟩ := tiles_bounds hheight hpos
  rw [← htilesX] at hx hx'
  rw [← htilesY] at hy hy'
  dsimp only
  rw [← htilesX, ← htilesY]
  generalize (width + edge - 1) / edge = tilesX at hx hx' ⊢
  generalize (height + edge - 1) / edge = tilesY at hy hy' ⊢
  have hproduct : (tilesX * tilesY).toInt = tilesX.toInt * tilesY.toInt := by
    have hle : tilesX.toInt * tilesY.toInt ≤ 2 ^ 20 * 2 ^ 20 :=
      Int.mul_le_mul (by omega) (by omega) (by omega) (by omega)
    have hge : 0 < tilesX.toInt * tilesY.toInt := Int.mul_pos hx hy
    rw [Int64.toInt_mul, Int.bmod_eq_of_le (by omega) (by omega)]
  have hcount : maxTiles64 < tilesX * tilesY ↔ tilesX.toInt * tilesY.toInt > maxTiles := by
    rw [Int64.lt_iff_toInt_lt, maxTiles64_toInt, hproduct]
  rw [if_congr hcount rfl rfl, toNat_toInt32 hpos.le (by omega),
    toNat_toInt32 hwidth.le hwidth', toNat_toInt32 hheight.le hheight',
    toNat_toInt32 hx.le (by omega), toNat_toInt32 hy.le (by omega)]

/-- What an accepted geometry says. -/
theorem validateTileGeometry_some {edge width height : ℤ} {g : TileGeometry}
    (h : validateTileGeometry edge width height = some g) :
    (g.edge : ℤ) = edge ∧ (g.width : ℤ) = width ∧ (g.height : ℤ) = height ∧
      edge ≤ maxTileEdge ∧ (g.tilesX * g.tilesY : ℤ) ≤ maxTiles := by
  unfold validateTileGeometry at h
  split at h
  case isTrue => cases h
  case isFalse hedges =>
    split at h
    case isTrue => cases h
    case isFalse hsides =>
      dsimp only at h
      split at h
      case isTrue => cases h
      case isFalse hcount =>
        obtain rfl := Option.some.inj h
        obtain ⟨hpow, hedge⟩ : isPowerOfTwo edge = true ∧ edge ≤ maxTileEdge := by
          rw [Bool.or_eq_true, Bool.not_eq_true', not_or, Bool.not_eq_false,
            decide_eq_true_iff] at hedges
          exact ⟨hedges.1, Int.not_lt.mp hedges.2⟩
        obtain ⟨hwidth, hheight⟩ : 0 < width ∧ 0 < height := by
          simp only [Bool.or_eq_true, decide_eq_true_iff, not_or, Int.not_le] at hsides
          exact ⟨hsides.1.1.1, hsides.1.1.2⟩
        have hpos := pos_of_isPowerOfTwo hpow
        have hx := (tiles_bounds hwidth hpos).1
        have hy := (tiles_bounds hheight hpos).1
        refine ⟨Int.toNat_of_nonneg hpos.le, Int.toNat_of_nonneg hwidth.le,
          Int.toNat_of_nonneg hheight.le, hedge, ?_⟩
        show ((_ : ℤ).toNat * (_ : ℤ).toNat : ℤ) ≤ _
        rw [Int.toNat_of_nonneg hx.le, Int.toNat_of_nonneg hy.le]
        exact Int.not_lt.mp hcount

/-! ## Sizes -/

/-- `TileGeometry::tile_count` in the integers it is computed in. -/
def TileGeometry.tileCount64 (g : TileGeometry) : UInt64 :=
  UInt64.ofNat g.tilesX * UInt64.ofNat g.tilesY

/-- `TileGeometry::tile_samples` in the integers it is computed in. -/
def TileGeometry.tileSamples64 (g : TileGeometry) : UInt64 :=
  UInt64.ofNat g.edge * UInt64.ofNat g.edge * UInt64.ofNat tileChannels

/-- The size that `decode_tile_blob` allocates, in the integers it is computed in. -/
def TileGeometry.expectedSize64 (g : TileGeometry) (storage : PixelFormat) : UInt64 :=
  g.tileSamples64 * UInt64.ofNat (bytesPerSample storage)

/-- The sizes of an accepted geometry fit their integers. -/
theorem TileGeometry.sizes {edge width height : ℤ} {g : TileGeometry}
    (h : validateTileGeometry edge width height = some g) :
    g.tileCount64.toNat = g.tileCount ∧ g.tileCount ≤ 2 ^ 22 ∧
      ∀ storage, (g.expectedSize64 storage).toNat = g.tileSamples * bytesPerSample storage ∧
        g.tileSamples * bytesPerSample storage ≤ 2 ^ 28 := by
  obtain ⟨hedge, -, -, hmax, hcount⟩ := validateTileGeometry_some h
  have hcount' : g.tileCount ≤ 2 ^ 22 := by
    rw [TileGeometry.tileCount, ← Int.ofNat_le, Int.natCast_mul]
    exact hcount
  have hedge' : g.edge ≤ 4096 := by
    rw [maxTileEdge] at hmax
    omega
  refine ⟨?_, hcount', fun storage => ?_⟩
  · rw [TileGeometry.tileCount64, ← UInt64.ofNat_mul]
    apply UInt64.toNat_ofNat_of_lt'
    exact Nat.lt_of_le_of_lt hcount' (by decide)
  · have hbytes : bytesPerSample storage ≤ 4 := by cases storage <;> decide
    have hpixels : g.edge * g.edge ≤ 4096 * 4096 := Nat.mul_le_mul hedge' hedge'
    have hsize : g.tileSamples * bytesPerSample storage ≤ 2 ^ 28 :=
      calc g.tileSamples * bytesPerSample storage
          ≤ 4096 * 4096 * 4 * 4 := Nat.mul_le_mul (Nat.mul_le_mul_right _ hpixels) hbytes
        _ = 2 ^ 28 := by decide
    refine ⟨?_, hsize⟩
    rw [TileGeometry.expectedSize64, TileGeometry.tileSamples64, ← UInt64.ofNat_mul,
      ← UInt64.ofNat_mul, ← UInt64.ofNat_mul]
    apply UInt64.toNat_ofNat_of_lt'
    exact Nat.lt_of_le_of_lt hsize (by decide)

/-! ## The codec -/

/-- What is decompressed has the size that was asked for. -/
theorem length_decompressBlob {zstd : Zstd} {frame blob : List UInt8} {expectedSize : ℕ}
    (h : decompressBlob zstd frame expectedSize = some blob) : blob.length = expectedSize := by
  rw [decompressBlob, Option.filter_eq_some_iff] at h
  exact beq_iff_eq.mp h.2

/-- A framed tile decodes to the samples that the format keeps. -/
theorem decodeTileBlob_frameTileBlob {zstd : Zstd} (hzstd : zstd.Lossless)
    (sha256 : List UInt8 → Vector UInt8 32) (hstorage : storage.stores = true)
    {working : List UInt32} (hpixels : tileChannels ∣ working.length) {frame : List UInt8}
    (hframe : frameTileBlob (zstdPrimitives zstd sha256) (toStorageBytes working storage) storage =
      .ok frame) :
    decodeTileBlob (zstdPrimitives zstd sha256) frame
        (hashTile sha256 (toStorageBytes working storage)) storage working.length =
      .ok (working.map (storedSample storage)) := by
  have hcompress : zstd.compress
      (shuffleBytes (toStorageBytes working storage) (bytesPerSample storage)) = some frame := by
    unfold frameTileBlob at hframe
    split at hframe
    · rename_i frame' hcompress
      obtain rfl := Except.ok.inj hframe
      exact hcompress
    · cases hframe
  have hdecompress : decompressBlob zstd frame (working.length * bytesPerSample storage) =
      some (shuffleBytes (toStorageBytes working storage) (bytesPerSample storage)) := by
    have hblob := hzstd _ _ hcompress
    rw [length_shuffleBytes, length_toStorageBytes hstorage hpixels] at hblob
    rw [decompressBlob, hblob, Option.filter_eq_some_iff]
    refine ⟨rfl, ?_⟩
    rw [beq_iff_eq, length_shuffleBytes, length_toStorageBytes hstorage hpixels]
  have hname : (zstdPrimitives zstd sha256).hashTile (toStorageBytes working storage) =
      hashTile sha256 (toStorageBytes working storage) := rfl
  unfold decodeTileBlob
  rw [isTileHash_hashTile]
  rw [show (zstdPrimitives zstd sha256).decompress frame _ = some _ from hdecompress]
  simp only [Bool.not_true, Bool.false_eq_true, if_false]
  rw [unshuffleBytes_shuffleBytes, if_neg (not_not.mpr hname),
    fromStorageBytes_toStorageBytes hstorage hpixels]

/-- Whatever the bytes are, a decoded tile has the size that was asked for. -/
theorem length_decodeTileBlob {zstd : Zstd} {sha256 : List UInt8 → Vector UInt8 32}
    (hstorage : storage.stores = true) {samples : ℕ} (hpixels : tileChannels ∣ samples)
    {frame : List UInt8} {hash : String} {working : List UInt32}
    (h : decodeTileBlob (zstdPrimitives zstd sha256) frame hash storage samples = .ok working) :
    working.length = samples := by
  obtain ⟨raw, hraw, -, rfl⟩ := decodeTileBlob_ok h
  apply length_fromStorageBytes hstorage _ hpixels
  rw [length_unshuffleBytes]
  exact length_decompressBlob hraw

/-- What the codec does for the tiles of an accepted geometry. -/
structure TileGeometry.Codec (zstd : Zstd) (sha256 : List UInt8 → Vector UInt8 32)
    (g : TileGeometry) : Prop where
  /-- The geometry is accepted again as the numbers it is stored under. -/
  geometry : validateTileGeometry g.edge g.width g.height = some g
  /-- The count of tiles does not overflow. -/
  count : g.tileCount64.toNat = g.tileCount
  /-- The buffer size of a decode does not overflow. -/
  size : ∀ storage,
    (g.expectedSize64 storage).toNat = g.tileSamples * bytesPerSample storage ∧
      g.tileSamples * bytesPerSample storage ≤ 2 ^ 28
  /-- A framed tile decodes to its samples as the storage format keeps them. -/
  roundTrip : ∀ storage : PixelFormat, storage.stores = true → ∀ working : List UInt32,
    working.length = g.tileSamples → ∀ frame : List UInt8,
      frameTileBlob (zstdPrimitives zstd sha256) (toStorageBytes working storage) storage =
        .ok frame →
      decodeTileBlob (zstdPrimitives zstd sha256) frame
          (hashTile sha256 (toStorageBytes working storage)) storage g.tileSamples =
        .ok (working.map (storedSample storage))
  /-- Any bytes are rejected or decode to a tile of just that size. -/
  exactSize : ∀ storage : PixelFormat, storage.stores = true →
    ∀ (frame : List UInt8) hash working,
    decodeTileBlob (zstdPrimitives zstd sha256) frame hash storage g.tileSamples = .ok working →
      working.length = g.tileSamples

/-- The tile codec. Shuffling and unshuffling undo each other on all bytes; an accepted geometry
is checked and measured without overflow; a framed tile decodes to its samples as the format keeps
them, which are the samples themselves in a 32-bit format; and no bytes decode to a tile of another
size. -/
theorem tileBlobCodec_roundTrip (zstd : Zstd) (sha256 : List UInt8 → Vector UInt8 32)
    (hzstd : zstd.Lossless) :
    (∀ (bytes : List UInt8) (stride : ℕ),
      unshuffleBytes (shuffleBytes bytes stride) stride = bytes ∧
        shuffleBytes (unshuffleBytes bytes stride) stride = bytes) ∧
    (∀ samples : List UInt32, samples.map (storedSample .rgba32fLinearPremul) = samples) ∧
    ∀ edge width height : Int64,
      validateTileGeometry64 edge width height =
        validateTileGeometry edge.toInt width.toInt height.toInt ∧
      ∀ g, validateTileGeometry64 edge width height = some g →
        (g.edge : ℤ) = edge.toInt ∧ (g.width : ℤ) = width.toInt ∧
          (g.height : ℤ) = height.toInt ∧ g.Codec zstd sha256 := by
  refine ⟨fun bytes stride => ⟨unshuffleBytes_shuffleBytes bytes stride,
    shuffleBytes_unshuffleBytes bytes stride⟩, List.map_id, fun edge width height =>
    ⟨validateTileGeometry64_eq edge width height, fun g hg => ?_⟩⟩
  rw [validateTileGeometry64_eq] at hg
  obtain ⟨hedge, hwidth, hheight, -, -⟩ := validateTileGeometry_some hg
  obtain ⟨hcount, -, hsize⟩ := TileGeometry.sizes hg
  have hpixels : tileChannels ∣ g.tileSamples := Nat.dvd_mul_left _ _
  refine ⟨hedge, hwidth, hheight, ?_, hcount, hsize, ?_, ?_⟩
  · rw [hedge, hwidth, hheight, hg]
  · intro storage hstorage working hworking frame hframe
    rw [← hworking] at hpixels ⊢
    exact decodeTileBlob_frameTileBlob hzstd sha256 hstorage hpixels hframe
  · intro storage hstorage frame hash working hdecode
    exact length_decodeTileBlob hstorage hpixels hdecode

/-- A compressor that stores bytes as they are. -/
def Zstd.stored : Zstd where
  compress bytes := some bytes
  decompress frame size := if frame.length ≤ size then some frame else none

theorem Zstd.stored_lossless : Zstd.stored.Lossless := by
  intro bytes frame hframe
  obtain rfl := Option.some.inj hframe
  exact if_pos (Nat.le_refl _)

/-- A digest of nothing but the length. -/
def lengthDigest (bytes : List UInt8) : Vector UInt8 32 := .replicate 32 (.ofNat bytes.length)

/-- With a stored codec, every one-pixel tile of 32-bit samples comes back. -/
theorem tileBlobCodec_roundTrip_stored :
    (TileGeometry.mk 1 1 1 1 1).Codec .stored lengthDigest := by
  have hg : validateTileGeometry64 1 1 1 = some ⟨1, 1, 1, 1, 1⟩ := by decide +kernel
  obtain ⟨-, -, htiles⟩ := tileBlobCodec_roundTrip .stored lengthDigest Zstd.stored_lossless
  obtain ⟨-, -, -, hcodec⟩ := (htiles 1 1 1).2 _ hg
  exact hcodec

/-- A tile does not come back from a 16-bit blob as it was: a sample just above one is stored as
one. -/
theorem not_tileBlobCodec_exact :
    ¬ ∀ (zstd : Zstd) (sha256 : List UInt8 → Vector UInt8 32), zstd.Lossless →
      ∀ (edge width height : Int64) (g : TileGeometry),
        validateTileGeometry64 edge width height = some g →
      ∀ storage : PixelFormat, storage.stores = true →
      ∀ (working : List UInt32) (frame : List UInt8), working.length = g.tileSamples →
        frameTileBlob (zstdPrimitives zstd sha256) (toStorageBytes working storage) storage =
          .ok frame →
        decodeTileBlob (zstdPrimitives zstd sha256) frame
            (hashTile sha256 (toStorageBytes working storage)) storage g.tileSamples =
          .ok working := by
  intro hexact
  have hg : validateTileGeometry64 1 1 1 = some ⟨1, 1, 1, 1, 1⟩ := by decide +kernel
  have hdecoded := hexact .stored lengthDigest Zstd.stored_lossless 1 1 1 _ hg
    .rgba16fLinearPremul rfl [0x3F800001, 0, 0, 0x3F800000] [0, 0, 0, 0, 60, 0, 0, 60] rfl
    (by decide +kernel)
  have hrounded : decodeTileBlob (zstdPrimitives .stored lengthDigest) [0, 0, 0, 0, 60, 0, 0, 60]
      (hashTile lengthDigest (toStorageBytes [0x3F800001, 0, 0, 0x3F800000] .rgba16fLinearPremul))
      .rgba16fLinearPremul 4 = .ok [0x3F800000, 0, 0, 0x3F800000] := by decide +kernel
  have hsame : (.ok [0x3F800001, 0, 0, 0x3F800000] : Except TileBlobError (List UInt32)) =
      .ok [0x3F800000, 0, 0, 0x3F800000] := hdecoded.symm.trans hrounded
  exact absurd (Except.ok.inj hsame) (by decide)

end ArbitraryComposer
