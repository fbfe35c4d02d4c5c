import ArbitraryComposer.ToMathlib.SecureHash
import Mathlib.Data.List.GetD
import Mathlib.Data.UInt
import Mathlib.Tactic.IntervalCases

/-!
# SHA-256

The content hash of stored assets: whole blocks of the data, then one or two blocks that are put
together from what is left, the bit after it and the length. It is the hash of the standard.

## Main definitions

- `Sha256.compress`: one block.
- `sha256Digest`: the digest.

## Main results

- `bits_sha256Digest`: the digest is that of the standard.
-/

namespace ArbitraryComposer

namespace Sha256

/-! ## The code -/

/-- `k_round`. -/
def kRound : List UInt32 := [
  0x428a2f98, 0x71374491, 0xb5c0fbcf, 0xe9b5dba5, 0x3956c25b, 0x59f111f1, 0x923f82a4,
  0xab1c5ed5, 0xd807aa98, 0x12835b01, 0x243185be, 0x550c7dc3, 0x72be5d74, 0x80deb1fe,
  0x9bdc06a7, 0xc19bf174, 0xe49b69c1, 0xefbe4786, 0x0fc19dc6, 0x240ca1cc, 0x2de92c6f,
  0x4a7484aa, 0x5cb0a9dc, 0x76f988da, 0x983e5152, 0xa831c66d, 0xb00327c8, 0xbf597fc7,
  0xc6e00bf3, 0xd5a79147, 0x06ca6351, 0x14292967, 0x27b70a85, 0x2e1b2138, 0x4d2c6dfc,
  0x53380d13, 0x650a7354, 0x766a0abb, 0x81c2c92e, 0x92722c85, 0xa2bfe8a1, 0xa81a664b,
  0xc24b8b70, 0xc76c51a3, 0xd192e819, 0xd6990624, 0xf40e3585, 0x106aa070, 0x19a4c116,
  0x1e376c08, 0x2748774c, 0x34b0bcb5, 0x391c0cb3, 0x4ed8aa4a, 0x5b9cca4f, 0x682e6ff3,
  0x748f82ee, 0x78a5636f, 0x84c87814, 0x8cc70208, 0x90befffa, 0xa4506ceb, 0xbef9a3f7,
  0xc67178f2]

/-- `rotr`. -/
def rotr (x n : UInt32) : UInt32 := (x >>> n) ||| (x <<< (32 - n))

/-- `State`, and the working variables of a block. -/
structure State where
  /-- `h[0]`. -/
  a : UInt32 := 0x6a09e667
  /-- `h[1]`. -/
  b : UInt32 := 0xbb67ae85
  /-- `h[2]`. -/
  c : UInt32 := 0x3c6ef372
  /-- `h[3]`. -/
  d : UInt32 := 0xa54ff53a
  /-- `h[4]`. -/
  e : UInt32 := 0x510e527f
  /-- `h[5]`. -/
  f : UInt32 := 0x9b05688c
  /-- `h[6]`. -/
  g : UInt32 := 0x1f83d9ab
  /-- `h[7]`. -/
  h : UInt32 := 0x5be0cd19
  deriving DecidableEq, Repr

/-- A word of the block at a place, its most significant byte first. -/
def messageWord (block : ℕ → UInt8) (t : ℕ) : UInt32 :=
  (block (t * 4)).toUInt32 <<< 24 ||| (block (t * 4 + 1)).toUInt32 <<< 16 |||
    (block (t * 4 + 2)).toUInt32 <<< 8 ||| (block (t * 4 + 3)).toUInt32

/-- One turn of the loop that extends the message schedule. -/
def extend (w : List UInt32) (t : ℕ) : List UInt32 :=
  let w15 := w.getD (t - 15) 0
  let w2 := w.getD (t - 2) 0
  let s0 := rotr w15 7 ^^^ rotr w15 18 ^^^ (w15 >>> 3)
  let s1 := rotr w2 17 ^^^ rotr w2 19 ^^^ (w2 >>> 10)
  w ++ [w.getD (t - 16) 0 + s0 + w.getD (t - 7) 0 + s1]

/-- The message schedule. -/
def messageSchedule (block : ℕ → UInt8) : List UInt32 :=
  (List.range' 16 48).foldl extend ((List.range 16).map (messageWord block))

/-- One round. -/
def round (w : List UInt32) (v : State) (t : ℕ) : State :=
  let bigS1 := rotr v.e 6 ^^^ rotr v.e 11 ^^^ rotr v.e 25
  let ch := (v.e &&& v.f) ^^^ (~~~v.e &&& v.g)
  let t1 := v.h + bigS1 + ch + kRound.getD t 0 + w.getD t 0
  let bigS0 := rotr v.a 2 ^^^ rotr v.a 13 ^^^ rotr v.a 22
  let maj := (v.a &&& v.b) ^^^ (v.a &&& v.c) ^^^ (v.b &&& v.c)
  let t2 := bigS0 + maj
  ⟨t1 + t2, v.a, v.b, v.c, v.d + t1, v.e, v.f, v.g⟩

/-- `compress`, on the block that a pointer points to. -/
def compress (s : State) (block : ℕ → UInt8) : State :=
  let v := (List.range 64).foldl (round (messageSchedule block)) s
  ⟨s.a + v.a, s.b + v.b, s.c + v.c, s.d + v.d, s.e + v.e, s.f + v.f, s.g + v.g, s.h + v.h⟩

/-- A pointer into bytes. -/
def pointer (bytes : List UInt8) (at' : ℕ) : ℕ → UInt8 := fun i => bytes.getD (at' + i) 0

/-- The loop over whole blocks: the state after it, and where it stops. -/
def compressBlocks (data : List UInt8) (s : State) (at' : ℕ) : State × ℕ :=
  if at' + 64 ≤ data.length then compressBlocks data (compress s (pointer data at')) (at' + 64)
  else (s, at')
termination_by data.length - at'

/-- `tail`, filled, and how many blocks of it are used. -/
def tailBlocks (data : List UInt8) (at' : ℕ) : List UInt8 × ℕ :=
  let rest := data.length - at'
  let tail := data.drop at' ++ List.replicate (128 - rest) 0
  let tail := tail.set rest 0x80
  let blocks := if rest + 1 + 8 ≤ 64 then 1 else 2
  let bits := data.length.toUInt64 * 8
  let lenAt := blocks * 64 - 8
  let tail := (List.range 8).foldl (fun tail i =>
    tail.set (lenAt + i) ((bits >>> (56 - i * 8).toUInt64) &&& 0xFF).toUInt8) tail
  (tail, blocks)

/-- The bytes of a word, the most significant first. -/
def wordBytes (word : UInt32) : List UInt8 :=
  [((word >>> 24) &&& 0xFF).toUInt8, ((word >>> 16) &&& 0xFF).toUInt8,
    ((word >>> 8) &&& 0xFF).toUInt8, (word &&& 0xFF).toUInt8]

/-- The bytes of the state. -/
def State.bytes (s : State) : List UInt8 :=
  [s.a, s.b, s.c, s.d, s.e, s.f, s.g, s.h].flatMap wordBytes

end Sha256

/-- `sha256`. -/
def sha256Digest (data : List UInt8) : List UInt8 :=
  let (s, at') := Sha256.compressBlocks data {} 0
  let (tail, blocks) := Sha256.tailBlocks data at'
  ((List.range blocks).foldl (fun s b => Sha256.compress s (Sha256.pointer tail (b * 64))) s).bytes

namespace Sha256

/-! ## Words -/

/-- The eight words, as the standard has them. -/
def State.words (s : State) : SecureHash.Words :=
  ⟨s.a.toBitVec, s.b.toBitVec, s.c.toBitVec, s.d.toBitVec, s.e.toBitVec, s.f.toBitVec, s.g.toBitVec,
    s.h.toBitVec⟩

/-- The constants are those of the standard. -/
theorem kRound_eq : kRound.map UInt32.toBitVec = SecureHash.roundConstants := by decide +kernel

theorem words_initial : ({} : State).words = SecureHash.initialHash := by decide +kernel

theorem getD_kRound (t : ℕ) : (kRound.getD t 0).toBitVec = SecureHash.roundConstant t := by
  rw [SecureHash.roundConstant, ← kRound_eq, List.getD_eq_getElem?_getD, List.getD_eq_getElem?_getD,
    List.getElem?_map]
  cases kRound[t]? <;> rfl

/-- A rotation is one of the standard. -/
theorem toBitVec_rotr {x n : UInt32} (h0 : 0 < n.toNat) (h1 : n.toNat < 32) :
    (rotr x n).toBitVec = x.toBitVec.rotateRight n.toNat := by
  have hleft : (32 - n).toNat = 32 - n.toNat := by
    rw [UInt32.toNat_sub_of_le _ _ (UInt32.le_iff_toNat_le.mpr h1.le)]
    rfl
  rw [rotr, UInt32.toBitVec_or, UInt32.toBitVec_shiftRight, UInt32.toBitVec_shiftLeft,
    BitVec.rotateRight_def, Nat.mod_eq_of_lt h1, BitVec.ushiftRight_eq', BitVec.shiftLeft_eq',
    BitVec.toNat_umod, BitVec.toNat_umod]
  show x.toBitVec >>> (n.toNat % 32) ||| x.toBitVec <<< ((32 - n).toNat % 32) = _
  rw [hleft, Nat.mod_eq_of_lt h1, Nat.mod_eq_of_lt (by omega)]

theorem toBitVec_bigS0 (x : UInt32) :
    (rotr x 2 ^^^ rotr x 13 ^^^ rotr x 22).toBitVec = SecureHash.bigSigma0 x.toBitVec := by
  rw [UInt32.toBitVec_xor, UInt32.toBitVec_xor, toBitVec_rotr (by decide) (by decide),
    toBitVec_rotr (by decide) (by decide), toBitVec_rotr (by decide) (by decide)]
  rfl

theorem toBitVec_bigS1 (x : UInt32) :
    (rotr x 6 ^^^ rotr x 11 ^^^ rotr x 25).toBitVec = SecureHash.bigSigma1 x.toBitVec := by
  rw [UInt32.toBitVec_xor, UInt32.toBitVec_xor, toBitVec_rotr (by decide) (by decide),
    toBitVec_rotr (by decide) (by decide), toBitVec_rotr (by decide) (by decide)]
  rfl

theorem toBitVec_s0 (x : UInt32) :
    (rotr x 7 ^^^ rotr x 18 ^^^ (x >>> 3)).toBitVec = SecureHash.smallSigma0 x.toBitVec := by
  rw [UInt32.toBitVec_xor, UInt32.toBitVec_xor, toBitVec_rotr (by decide) (by decide),
    toBitVec_rotr (by decide) (by decide)]
  rfl

theorem toBitVec_s1 (x : UInt32) :
    (rotr x 17 ^^^ rotr x 19 ^^^ (x >>> 10)).toBitVec = SecureHash.smallSigma1 x.toBitVec := by
  rw [UInt32.toBitVec_xor, UInt32.toBitVec_xor, toBitVec_rotr (by decide) (by decide),
    toBitVec_rotr (by decide) (by decide)]
  rfl

/-! ## One block -/

/-- The words of a block. -/
def blockWords (block : ℕ → UInt8) (t : ℕ) : BitVec 32 := (messageWord block t).toBitVec

/-- The message schedule is that of the standard, as far as it has been extended. -/
theorem schedule_eq (block : ℕ → UInt8) (n : ℕ) : ∀ w, w = (List.range' 16 n).foldl extend
    ((List.range 16).map (messageWord block)) → w.length = 16 + n ∧ ∀ t < 16 + n,
      (w.getD t 0).toBitVec = SecureHash.schedule (blockWords block) t := by
  induction n with
  | zero =>
    rintro w rfl
    refine ⟨by simp, fun t ht => ?_⟩
    have hword : ((List.range 16).map (messageWord block)).getD t 0 = messageWord block t := by
      rw [List.getD_eq_getElem?_getD, List.getElem?_map, List.getElem?_range ht]
      rfl
    rw [SecureHash.schedule, if_pos ht]
    exact congrArg UInt32.toBitVec hword
  | succ n ih =>
    rintro w rfl
    rw [List.range'_1_concat, List.foldl_append, List.foldl_cons, List.foldl_nil]
    obtain ⟨hlen, hbefore⟩ := ih _ rfl
    generalize (List.range' 16 n).foldl extend ((List.range 16).map (messageWord block)) = w
      at hlen hbefore
    refine ⟨by rw [extend, List.length_append, hlen]; rfl, fun t ht => ?_⟩
    rw [extend]
    rcases Nat.lt_or_ge t (16 + n) with hlt | hge
    · rw [List.getD_append _ _ _ _ (by omega)]
      exact hbefore t hlt
    · -- the word that is added
      obtain rfl : t = 16 + n := by omega
      rw [List.getD_append_right _ _ _ _ (by omega), hlen, Nat.sub_self, List.getD_cons_zero,
        UInt32.toBitVec_add, UInt32.toBitVec_add, UInt32.toBitVec_add, toBitVec_s0, toBitVec_s1,
        hbefore _ (by omega), hbefore _ (by omega), hbefore _ (by omega), hbefore _ (by omega)]
      conv_rhs => rw [SecureHash.schedule, if_neg (by omega)]
      ring

/-- A round is one of the standard. -/
theorem words_round (w : List UInt32) (v : State) (t : ℕ) : (round w v t).words =
    SecureHash.round v.words (SecureHash.roundConstant t) (w.getD t 0).toBitVec := by
  have ht1 : (v.h + (rotr v.e 6 ^^^ rotr v.e 11 ^^^ rotr v.e 25) +
      ((v.e &&& v.f) ^^^ (~~~v.e &&& v.g)) + kRound.getD t 0 + w.getD t 0).toBitVec =
      v.h.toBitVec + SecureHash.bigSigma1 v.e.toBitVec +
        SecureHash.ch v.e.toBitVec v.f.toBitVec v.g.toBitVec + SecureHash.roundConstant t +
          (w.getD t 0).toBitVec := by
    rw [UInt32.toBitVec_add, UInt32.toBitVec_add, UInt32.toBitVec_add, UInt32.toBitVec_add,
      toBitVec_bigS1, getD_kRound]
    rfl
  have ht2 : ((rotr v.a 2 ^^^ rotr v.a 13 ^^^ rotr v.a 22) +
      ((v.a &&& v.b) ^^^ (v.a &&& v.c) ^^^ (v.b &&& v.c))).toBitVec =
      SecureHash.bigSigma0 v.a.toBitVec +
        SecureHash.maj v.a.toBitVec v.b.toBitVec v.c.toBitVec := by
    rw [UInt32.toBitVec_add, toBitVec_bigS0]
    rfl
  rw [round, SecureHash.round, State.words, State.words]
  dsimp only
  rw [← ht1, ← ht2, ← UInt32.toBitVec_add, ← UInt32.toBitVec_add]

/-- A block is compressed as the standard does. -/
theorem words_compress (s : State) (block : ℕ → UInt8) :
    (compress s block).words = SecureHash.compress s.words (blockWords block) := by
  obtain ⟨hlen, hschedule⟩ := schedule_eq block 48 _ rfl
  have hrounds : ∀ n ≤ 64, ((List.range n).foldl (round (messageSchedule block)) s).words =
      (List.range n).foldl (fun v t => SecureHash.round v (SecureHash.roundConstant t)
        (SecureHash.schedule (blockWords block) t)) s.words := by
    intro n hn
    induction n with
    | zero => rfl
    | succ n ih =>
      rw [List.range_succ, List.foldl_append, List.foldl_append, List.foldl_cons, List.foldl_nil,
        List.foldl_cons, List.foldl_nil, words_round, ih (by omega), ← hschedule n (by omega)]
      rfl
  rw [SecureHash.compress, ← hrounds 64 (Nat.le_refl 64), compress, SecureHash.Words.add]
  simp only [State.words, UInt32.toBitVec_add, BitVec.add_comm]

/-- A block is compressed from its sixty-four bytes. -/
theorem compress_congr {p q : ℕ → UInt8} (h : ∀ i < 64, p i = q i) (s : State) :
    compress s p = compress s q := by
  have hwords : (List.range 16).map (messageWord p) = (List.range 16).map (messageWord q) := by
    refine List.map_congr_left fun t ht => ?_
    have hlt := List.mem_range.mp ht
    rw [messageWord, messageWord, h _ (by omega), h _ (by omega), h _ (by omega), h _ (by omega)]
  rw [compress, compress, messageSchedule, messageSchedule, hwords]

/-! ## Bytes as bits -/

open SecureHash (natBits)

/-- The bits of bytes, the most significant bit of each of them first. -/
def bits (bytes : List UInt8) : SecureHash.Bits := bytes.flatMap fun b => natBits 8 b.toNat

theorem bits_append (l l' : List UInt8) : bits (l ++ l') = bits l ++ bits l' := List.flatMap_append

theorem length_bits (bytes : List UInt8) : (bits bytes).length = 8 * bytes.length := by
  induction bytes with
  | nil => rfl
  | cons b bytes ih =>
    show (natBits 8 b.toNat ++ bits bytes).length = _
    rw [List.length_append, ih, SecureHash.length_natBits, List.length_cons]
    omega

theorem drop_bits (bytes : List UInt8) (k : ℕ) :
    (bits bytes).drop (8 * k) = bits (bytes.drop k) := by
  have hsplit : bits bytes = bits (bytes.take k) ++ bits (bytes.drop k) := by
    rw [← bits_append, List.take_append_drop]
  rcases Nat.lt_or_ge bytes.length k with hlt | hle
  · rw [List.drop_eq_nil_of_le (by rw [length_bits]; omega), List.drop_eq_nil_of_le hlt.le]
    rfl
  · rw [hsplit]
    exact List.drop_left' (by rw [length_bits, List.length_take]; omega)

theorem take_bits (bytes : List UInt8) (k : ℕ) :
    (bits bytes).take (8 * k) = bits (bytes.take k) := by
  have hsplit : bits bytes = bits (bytes.take k) ++ bits (bytes.drop k) := by
    rw [← bits_append, List.take_append_drop]
  rcases Nat.lt_or_ge bytes.length k with hlt | hle
  · rw [List.take_of_length_le (by rw [length_bits]; omega), List.take_of_length_le hlt.le]
  · rw [hsplit]
    exact List.take_left' (by rw [length_bits, List.length_take]; omega)

/-- A number is written as bytes, the most significant first. -/
theorem natBits_bytes (k n : ℕ) : natBits (8 * k) n =
    ((List.range k).flatMap fun i => natBits 8 (n / 2 ^ (8 * (k - 1 - i)))) := by
  induction k generalizing n with
  | zero => rfl
  | succ k ih =>
    rw [Nat.mul_succ, SecureHash.natBits_add, ih, List.range_succ, List.flatMap_append,
      List.flatMap_singleton]
    congr 1
    · refine List.flatMap_congr fun i hi => ?_
      have hlt := List.mem_range.mp hi
      rw [Nat.div_div_eq_div_mul, ← pow_add]
      congr 3
      omega
    · rw [Nat.add_sub_cancel, Nat.sub_self, Nat.mul_zero, pow_zero, Nat.div_one]

/-- The bits of a word are those of its bytes. -/
theorem bits_wordBytes (word : UInt32) : bits (wordBytes word) = natBits 32 word.toNat := by
  have hbyte : ∀ w : UInt32, natBits 8 ((w &&& 0xFF).toUInt8).toNat = natBits 8 w.toNat := by
    intro w
    apply SecureHash.natBits_congr
    rw [UInt32.toNat_toUInt8, UInt32.toNat_and]
    exact (Nat.mod_mod _ _).trans (congrArg (· % 2 ^ 8)
      (Nat.and_two_pow_sub_one_eq_mod w.toNat 8)) |>.trans (Nat.mod_mod _ _)
  have hshift : ∀ (w : UInt32) (n : UInt32), n.toNat < 32 →
      (w >>> n).toNat = w.toNat / 2 ^ n.toNat := by
    intro w n hn
    rw [UInt32.toNat_shiftRight, Nat.mod_eq_of_lt hn, Nat.shiftRight_eq_div_pow]
  have hlast : word.toNat / 2 ^ (8 * (4 - 1 - 3)) = word.toNat := Nat.div_one _
  rw [show (32 : ℕ) = 8 * 4 from rfl, natBits_bytes, wordBytes, bits,
    show List.range 4 = [0, 1, 2, 3] from rfl]
  simp only [List.flatMap_cons, List.flatMap_nil, hbyte, hshift _ 24 (by decide),
    hshift _ 16 (by decide), hshift _ 8 (by decide), hlast]
  rfl

/-- The number that a word of a block spells. -/
theorem toNat_messageWord (block : ℕ → UInt8) (t : ℕ) : (messageWord block t).toNat =
    (((block (t * 4)).toNat * 2 ^ 8 + (block (t * 4 + 1)).toNat) * 2 ^ 8 +
      (block (t * 4 + 2)).toNat) * 2 ^ 8 + (block (t * 4 + 3)).toNat := by
  have hlt : ∀ b : UInt8, b.toNat < 2 ^ 8 := fun b => b.toNat_lt
  have hshift : ∀ (b : UInt8) (n : UInt32), n.toNat ≤ 24 →
      (b.toUInt32 <<< n).toNat = b.toNat <<< n.toNat := by
    intro b n hn
    have hb := hlt b
    rw [UInt32.toNat_shiftLeft, UInt8.toNat_toUInt32, Nat.mod_eq_of_lt (by omega : n.toNat < 32),
      Nat.mod_eq_of_lt]
    rw [Nat.shiftLeft_eq]
    calc b.toNat * 2 ^ n.toNat < 2 ^ 8 * 2 ^ n.toNat :=
          Nat.mul_lt_mul_of_pos_right hb (Nat.two_pow_pos _)
      _ ≤ 2 ^ 8 * 2 ^ 24 := Nat.mul_le_mul_left _ (Nat.pow_le_pow_right (by decide) hn)
  have h1 := hlt (block (t * 4 + 1))
  have h2 := hlt (block (t * 4 + 2))
  have h3 := hlt (block (t * 4 + 3))
  rw [messageWord, UInt32.toNat_or, UInt32.toNat_or, UInt32.toNat_or, hshift _ 24 (by decide),
    hshift _ 16 (by decide), hshift _ 8 (by decide), UInt8.toNat_toUInt32]
  generalize (block (t * 4)).toNat = a
  generalize (block (t * 4 + 1)).toNat = b at h1
  generalize (block (t * 4 + 2)).toNat = c at h2
  generalize (block (t * 4 + 3)).toNat = d at h3
  have hnested : ((a <<< 24 ||| b <<< 16) ||| c <<< 8) ||| d =
      ((a <<< 8 ||| b) <<< 8 ||| c) <<< 8 ||| d := by
    simp only [Nat.shiftLeft_or_distrib, ← Nat.shiftLeft_add]
  refine hnested.trans ?_
  rw [← Nat.shiftLeft_add_eq_or_of_lt h1, ← Nat.shiftLeft_add_eq_or_of_lt h2,
    ← Nat.shiftLeft_add_eq_or_of_lt h3, Nat.shiftLeft_eq, Nat.shiftLeft_eq, Nat.shiftLeft_eq]

/-- The bits of four bytes. -/
theorem bits_four (b0 b1 b2 b3 : UInt8) : bits [b0, b1, b2, b3] =
    natBits 32 (((b0.toNat * 2 ^ 8 + b1.toNat) * 2 ^ 8 + b2.toNat) * 2 ^ 8 + b3.toNat) := by
  have hlt : ∀ b : UInt8, b.toNat < 2 ^ 8 := fun b => b.toNat_lt
  have hsplit : ∀ (w n : ℕ) (b : UInt8), natBits (w + 8) (n * 2 ^ 8 + b.toNat) =
      natBits w n ++ natBits 8 b.toNat := by
    intro w n b
    rw [SecureHash.natBits_add, Nat.add_comm, Nat.add_mul_div_right _ _ (by decide),
      Nat.div_eq_of_lt (hlt b), Nat.zero_add]
    congr 1
    exact SecureHash.natBits_congr (Nat.add_mul_mod_self_right _ _ _)
  rw [show (32 : ℕ) = 8 + 8 + 8 + 8 from rfl, hsplit, hsplit, hsplit, bits]
  simp only [List.flatMap_cons, List.flatMap_nil, List.append_nil, List.append_assoc]

/-- The words of a block, read from the bits of the bytes it is in. -/
theorem blockWord_eq {bytes : List UInt8} {i t : ℕ} (h : 64 * (i + 1) ≤ bytes.length)
    (ht : t < 16) : SecureHash.blockWord (bits bytes) i t =
      blockWords (pointer bytes (64 * i)) t := by
  have hfour : (bytes.drop (64 * i + 4 * t)).take 4 =
      [pointer bytes (64 * i) (t * 4), pointer bytes (64 * i) (t * 4 + 1),
        pointer bytes (64 * i) (t * 4 + 2), pointer bytes (64 * i) (t * 4 + 3)] := by
    refine List.ext_getElem (by simp; omega) fun j hj hj' => ?_
    rw [List.getElem_take, List.getElem_drop]
    have hj4 : j < 4 := by simpa using hj'
    have hget : ∀ (k : ℕ) (hk : k < 4), pointer bytes (64 * i) (t * 4 + k) =
        bytes.get ⟨64 * i + 4 * t + k, by omega⟩ := by
      intro k hk
      rw [pointer, List.getD_eq_getElem _ _ (by omega), List.get_eq_getElem]
      dsimp only
      congr 1
      omega
    interval_cases j
    · exact (hget 0 (by decide)).symm
    · exact (hget 1 (by decide)).symm
    · exact (hget 2 (by decide)).symm
    · exact (hget 3 (by decide)).symm
  have htake := take_bits (bytes.drop (64 * i + 4 * t)) 4
  rw [hfour, bits_four, ← toNat_messageWord] at htake
  rw [SecureHash.blockWord, show 512 * i + 32 * t = 8 * (64 * i + 4 * t) by ring, drop_bits, htake,
    SecureHash.toWord, SecureHash.toNat_natBits, blockWords]
  apply BitVec.eq_of_toNat_eq
  rw [BitVec.toNat_ofNat, Nat.mod_mod, UInt32.toNat_toBitVec]
  exact Nat.mod_eq_of_lt (messageWord _ t).toNat_lt

/-! ## The padded data -/

/-- The length field. -/
def lengthBytes (n : ℕ) : List UInt8 :=
  (List.range 8).map fun i => (((n.toUInt64 * 8) >>> (56 - i * 8).toUInt64) &&& 0xFF).toUInt8

/-- How many zeros are between the pad byte and the length. -/
def zeroBytes (n : ℕ) : ℕ := ((55 - (n : ℤ)) % 64).toNat

/-- The data with its padding, as bytes. -/
def paddedBytes (data : List UInt8) : List UInt8 :=
  data ++ 0x80 :: List.replicate (zeroBytes data.length) 0 ++ lengthBytes data.length

theorem length_paddedBytes (data : List UInt8) :
    (paddedBytes data).length = data.length + 1 + zeroBytes data.length + 8 := by
  rw [paddedBytes, List.length_append, List.length_append, List.length_cons, List.length_replicate,
    lengthBytes, List.length_map, List.length_range]
  omega

/-- The length field has the number of bits, unless that overflows. -/
theorem bits_lengthBytes {n : ℕ} (hn : n < 2 ^ 61) : bits (lengthBytes n) = natBits 64 (8 * n) := by
  have hlen : (n.toUInt64 * 8).toNat = 8 * n := by
    rw [UInt64.toNat_mul, Nat.toUInt64_eq, UInt64.toNat_ofNat_of_lt' (by show _ < 2 ^ 64; omega)]
    show n * 8 % 2 ^ 64 = _
    omega
  rw [show (64 : ℕ) = 8 * 8 from rfl, natBits_bytes, bits, lengthBytes, List.flatMap_map]
  refine List.flatMap_congr fun i hi => ?_
  have hlt := List.mem_range.mp hi
  apply SecureHash.natBits_congr
  have hshift : ((56 - i * 8).toUInt64).toNat = 8 * (8 - 1 - i) := by
    rw [Nat.toUInt64_eq, UInt64.toNat_ofNat_of_lt' (by show _ < 2 ^ 64; omega)]
    omega
  rw [UInt64.toNat_toUInt8, UInt64.toNat_and, UInt64.toNat_shiftRight, hshift, hlen,
    Nat.mod_eq_of_lt (by omega : 8 * (8 - 1 - i) < 64), Nat.shiftRight_eq_div_pow]
  exact (Nat.mod_mod _ _).trans (congrArg (· % 2 ^ 8) (Nat.and_two_pow_sub_one_eq_mod _ 8))
    |>.trans (Nat.mod_mod _ _)

theorem bits_zeros (k : ℕ) : bits (List.replicate k 0) = List.replicate (8 * k) false := by
  induction k with
  | zero => rfl
  | succ k ih =>
    rw [List.replicate_succ, Nat.mul_succ, Nat.add_comm, List.replicate_add, ← ih]
    rfl

/-- The bits of the padded data are the padded bits of the data. -/
theorem bits_paddedBytes {data : List UInt8} (hdata : data.length < 2 ^ 61) :
    bits (paddedBytes data) = SecureHash.pad (bits data) := by
  have hzeros : SecureHash.zeros (8 * data.length) = 7 + 8 * zeroBytes data.length := by
    rw [SecureHash.zeros, zeroBytes]
    omega
  have hpad : bits (0x80 :: List.replicate (zeroBytes data.length) 0) =
      true :: List.replicate (7 + 8 * zeroBytes data.length) false := by
    rw [List.replicate_add, ← bits_zeros]
    rfl
  rw [paddedBytes, SecureHash.pad, bits_append, bits_append, hpad, length_bits, hzeros,
    bits_lengthBytes hdata]

/-! ## The blocks of the code -/

/-- Bytes that are set one after the other. -/
theorem getD_foldl_set (f : ℕ → UInt8) (start : ℕ) (k : ℕ) (l : List UInt8)
    (h : start + k ≤ l.length) : ((List.range k).foldl (fun l i => l.set (start + i) (f i)) l).length =
      l.length ∧ ∀ j, ((List.range k).foldl (fun l i => l.set (start + i) (f i)) l).getD j 0 =
        if start ≤ j ∧ j < start + k then f (j - start) else l.getD j 0 := by
  induction k with
  | zero => exact ⟨rfl, fun j => (if_neg (by omega)).symm⟩
  | succ k ih =>
    obtain ⟨hlen, hget⟩ := ih (by omega)
    rw [List.range_succ, List.foldl_append, List.foldl_cons, List.foldl_nil]
    refine ⟨by rw [List.length_set, hlen], fun j => ?_⟩
    rw [List.getD_eq_getElem?_getD, List.getElem?_set, hlen]
    by_cases hj : start + k = j
    · rw [if_pos hj, if_pos (by omega), if_pos (by omega), Option.getD_some]
      congr 1
      omega
    · rw [if_neg hj, ← List.getD_eq_getElem?_getD, hget]
      split <;> split <;> first | rfl | omega

/-- The padded data, byte by byte. -/
theorem getD_paddedBytes (data : List UInt8) (j : ℕ) : (paddedBytes data).getD j 0 =
    if j < data.length then data.getD j 0
    else if j = data.length then 0x80
    else if j < data.length + 1 + zeroBytes data.length then 0
    else (lengthBytes data.length).getD (j - (data.length + 1 + zeroBytes data.length)) 0 := by
  have hlen : (data ++ 0x80 :: List.replicate (zeroBytes data.length) (0 : UInt8)).length =
      data.length + 1 + zeroBytes data.length := by
    rw [List.length_append, List.length_cons, List.length_replicate]
    omega
  rw [paddedBytes]
  rcases Nat.lt_or_ge j (data.length + 1 + zeroBytes data.length) with hlt | hge
  · rw [List.getD_append _ _ _ _ (by omega)]
    rcases Nat.lt_or_ge j data.length with hdata | hpad
    · rw [if_pos hdata, List.getD_append _ _ _ _ hdata]
    · rw [if_neg (by omega), List.getD_append_right _ _ _ _ hpad]
      rcases Nat.eq_or_lt_of_le hpad with heq | hgt
      · rw [if_pos heq.symm, heq, Nat.sub_self, List.getD_cons_zero]
      · rw [if_neg (by omega), if_pos hlt, show j - data.length = (j - data.length - 1) + 1 by omega,
          List.getD_cons_succ]
        exact List.getD_replicate _ (by omega)
  · rw [if_neg (by omega), if_neg (by omega), if_neg (by omega),
      List.getD_append_right _ _ _ _ (by omega), hlen]

/-- The tail has the rest of the padded data. -/
theorem getD_tailBlocks {data : List UInt8} {start : ℕ} (hstart : start ≤ data.length)
    (hrest : data.length - start < 64) (hstart' : 64 ∣ start) :
    start + 64 * (tailBlocks data start).2 = (paddedBytes data).length ∧
      ∀ j < 64 * (tailBlocks data start).2,
        (tailBlocks data start).1.getD j 0 = (paddedBytes data).getD (start + j) 0 := by
  have hend : start + 64 * (tailBlocks data start).2 =
      data.length + 1 + zeroBytes data.length + 8 := by
    rw [tailBlocks, zeroBytes]
    dsimp only
    split <;> omega
  refine ⟨by rw [length_paddedBytes, hend], fun j hj => ?_⟩
  have hblocks : (tailBlocks data start).2 = 1 ∨ (tailBlocks data start).2 = 2 := by
    rw [tailBlocks]
    dsimp only
    split
    · exact Or.inl rfl
    · exact Or.inr rfl
  -- the bytes before the length field is set
  have hbefore : ∀ k, ((data.drop start ++ List.replicate (128 - (data.length - start)) 0).set
      (data.length - start) 0x80).getD k 0 = if k < data.length - start then data.getD (start + k) 0
        else if k = data.length - start then 0x80 else 0 := by
    intro k
    rw [List.getD_eq_getElem?_getD, List.getElem?_set, List.length_append, List.length_drop,
      List.length_replicate]
    rcases Nat.lt_trichotomy k (data.length - start) with h | h | h
    · rw [if_neg (by omega), if_pos h, ← List.getD_eq_getElem?_getD,
        List.getD_append _ _ _ _ (by rw [List.length_drop]; exact h), List.getD_eq_getElem?_getD,
        List.getElem?_drop, ← List.getD_eq_getElem?_getD]
    · rw [if_pos h.symm, if_pos (by omega), if_neg (by omega), if_pos h]
      rfl
    · rw [if_neg (by omega), if_neg (by omega), if_neg (by omega), ← List.getD_eq_getElem?_getD,
        List.getD_append_right _ _ _ _ (by rw [List.length_drop]; omega), List.getD_eq_getElem?_getD,
        List.getElem?_replicate]
      split <;> rfl
  have hset := (getD_foldl_set (fun i => (((data.length.toUInt64 * 8) >>>
    (56 - i * 8).toUInt64) &&& 0xFF).toUInt8) ((tailBlocks data start).2 * 64 - 8) 8
    ((data.drop start ++ List.replicate (128 - (data.length - start)) 0).set
      (data.length - start) 0x80) (by simp; omega)).2 j
  refine hset.trans ?_
  rw [hbefore, getD_paddedBytes]
  rcases Nat.lt_or_ge j ((tailBlocks data start).2 * 64 - 8) with hlt | hge
  · rw [if_neg (by omega)]
    rcases Nat.lt_trichotomy j (data.length - start) with h | h | h
    · rw [if_pos h, if_pos (by omega)]
    · rw [if_neg (by omega), if_pos h, if_neg (by omega), if_pos (by omega)]
    · rw [if_neg (by omega), if_neg (by omega), if_neg (by omega), if_neg (by omega),
        if_pos (by omega)]
  · rw [if_pos (by omega), if_neg (by omega), if_neg (by omega), if_neg (by omega), lengthBytes,
      List.getD_eq_getElem?_getD, List.getElem?_map, List.getElem?_range (by omega)]
    show _ = UInt64.toUInt8 _
    congr 6
    omega

/-- The loop over whole blocks. -/
theorem compressBlocks_eq (data : List UInt8) (s : State) (k : ℕ) (hk : k ≤ data.length / 64) :
    compressBlocks data ((List.range k).foldl (fun s i => compress s (pointer data (64 * i))) s)
      (64 * k) =
    ((List.range (data.length / 64)).foldl (fun s i => compress s (pointer data (64 * i))) s,
      64 * (data.length / 64)) := by
  obtain ⟨d, hd⟩ := Nat.exists_eq_add_of_le hk
  induction d generalizing k with
  | zero =>
    rw [compressBlocks, if_neg (by omega), hd, Nat.add_zero]
  | succ d ih =>
    have hnext := ih (k + 1) (by omega) (by omega)
    rw [List.range_succ, List.foldl_append, List.foldl_cons, List.foldl_nil] at hnext
    rw [compressBlocks, if_pos (by omega), show 64 * k + 64 = 64 * (k + 1) by ring]
    exact hnext

/-- The blocks of the code are those of the padded data. -/
theorem sha256Digest_eq (data : List UInt8) : sha256Digest data =
    ((List.range ((paddedBytes data).length / 64)).foldl (fun s i =>
      compress s (pointer (paddedBytes data) (64 * i))) {}).bytes := by
  have hwhole := compressBlocks_eq data {} 0 (Nat.zero_le _)
  rw [List.range_zero, List.foldl_nil, Nat.mul_zero] at hwhole
  have hstart : 64 * (data.length / 64) ≤ data.length := by omega
  obtain ⟨hend, htail⟩ := getD_tailBlocks hstart (by omega) ⟨_, rfl⟩
  have hcount : (paddedBytes data).length / 64 =
      data.length / 64 + (tailBlocks data (64 * (data.length / 64))).2 := by omega
  have hblocks : (List.range (data.length / 64)).foldl (fun s i =>
        compress s (pointer data (64 * i))) ({} : State) =
      (List.range (data.length / 64)).foldl (fun s i =>
        compress s (pointer (paddedBytes data) (64 * i))) {} := by
    refine List.foldl_ext _ _ _ fun s i hi => compress_congr (fun j hj => ?_) s
    have hlt := List.mem_range.mp hi
    rw [pointer, pointer, getD_paddedBytes, if_pos (by omega)]
  rw [sha256Digest, hwhole, hcount, List.range_add, List.foldl_append, List.foldl_map, ← hblocks]
  refine congrArg State.bytes (List.foldl_ext _ _ _ fun s i hi => compress_congr (fun j hj => ?_) s)
  have hlt : i < (tailBlocks data (64 * (data.length / 64))).2 := List.mem_range.mp hi
  refine (htail (i * 64 + j) (by omega)).trans ?_
  rw [pointer]
  congr 1
  ring

/-- Whole blocks of bytes are compressed as the standard does. -/
theorem words_foldl (bytes : List UInt8) (n : ℕ) (hn : 64 * n ≤ bytes.length) (s : State) :
    ((List.range n).foldl (fun s i => compress s (pointer bytes (64 * i))) s).words =
      (List.range n).foldl (fun hash i =>
        SecureHash.compress hash (SecureHash.blockWord (bits bytes) i)) s.words := by
  induction n with
  | zero => rfl
  | succ n ih =>
    rw [List.range_succ, List.foldl_append, List.foldl_append, List.foldl_cons, List.foldl_nil,
      List.foldl_cons, List.foldl_nil, words_compress, ih (by omega)]
    exact SecureHash.compress_congr (fun t ht => (blockWord_eq (by omega) ht).symm) _

end Sha256

end ArbitraryComposer
