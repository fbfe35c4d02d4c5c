import ArbitraryComposer.ToMathlib.CheckedInt
import ArbitraryComposer.ToMathlib.Limbs
import Mathlib.Data.UInt

/-!
# 128-bit integers without a native type

Two structures of two words each stand in for the compiler's 128-bit integers where it has none.
Their operations are compared with those of 128-bit words. All of them agree but the checked
product, which sums the part of a product above its low 128 bits in one word.

## Main definitions

- `mul64High`: the high word of a product of words.
- `RationalU128`, `RationalI128`: the two types with their operations.
- `mulOverflow`, `addOverflow`: the checked operations.
- `Hidden`: a product whose overflow is not seen.

## Main results

- `RationalU128.native`, `RationalI128.native`: the operations are those of 128-bit words.
- `mulOverflow_fst`: when a product is reported.
- `portable_iff`: the two types are the native ones away from `Hidden` products.
-/

namespace ArbitraryComposer

namespace PortableInt128

/-! ## The code -/

/-- `arbc_mul64_high`. -/
def mul64High (a b : UInt64) : UInt64 :=
  let a0 := a &&& 0xFFFFFFFF
  let a1 := a >>> 32
  let b0 := b &&& 0xFFFFFFFF
  let b1 := b >>> 32
  let p1 := a0 * b0
  let p2 := a0 * b1
  let p3 := a1 * b0
  let p4 := a1 * b1
  let mid := (p1 >>> 32) + (p2 &&& 0xFFFFFFFF) + (p3 &&& 0xFFFFFFFF)
  p4 + (p2 >>> 32) + (p3 >>> 32) + (mid >>> 32)

/-- `rational_u128`. -/
structure RationalU128 where
  /-- `lo`. -/
  lo : UInt64 := 0
  /-- `hi`. -/
  hi : UInt64 := 0
  deriving DecidableEq

/-- `rational_i128`. -/
structure RationalI128 where
  /-- `lo`. -/
  lo : UInt64 := 0
  /-- `hi`, with the sign. -/
  hi : Int64 := 0
  deriving DecidableEq

namespace RationalU128

/-- `operator==`. -/
def eq (a o : RationalU128) : Bool := a.lo == o.lo && a.hi == o.hi

/-- `operator!=`. -/
def ne (a o : RationalU128) : Bool := !a.eq o

/-- `operator<`. -/
def lt (a o : RationalU128) : Bool := a.hi < o.hi || (a.hi == o.hi && a.lo < o.lo)

/-- `operator<=`. -/
def le (a o : RationalU128) : Bool := !o.lt a

/-- `operator>`. -/
def gt (a o : RationalU128) : Bool := o.lt a

/-- `operator+`. -/
def add (a o : RationalU128) : RationalU128 :=
  let lo := a.lo + o.lo
  let carry : UInt64 := if lo < a.lo then 1 else 0
  { lo := lo, hi := a.hi + o.hi + carry }

/-- `operator-` of two operands. -/
def sub (a o : RationalU128) : RationalU128 :=
  let lo := a.lo - o.lo
  let borrow : UInt64 := if lo > a.lo then 1 else 0
  { lo := lo, hi := a.hi - o.hi - borrow }

/-- `operator-` of one operand. -/
def neg (a : RationalU128) : RationalU128 where
  lo := ~~~a.lo + 1
  hi := ~~~a.hi + if a.lo = 0 then 1 else 0

/-- `operator<<`. -/
def shl (a : RationalU128) (shift : UInt32) : RationalU128 :=
  if shift = 0 then a
  else if shift < 64 then
    { lo := a.lo <<< shift.toUInt64
      hi := (a.hi <<< shift.toUInt64) ||| (a.lo >>> (64 - shift).toUInt64) }
  else if shift < 128 then { lo := 0, hi := a.lo <<< (shift - 64).toUInt64 }
  else {}

/-- `operator>>`. -/
def shr (a : RationalU128) (shift : UInt32) : RationalU128 :=
  if shift = 0 then a
  else if shift < 64 then
    { lo := (a.lo >>> shift.toUInt64) ||| (a.hi <<< (64 - shift).toUInt64)
      hi := a.hi >>> shift.toUInt64 }
  else if shift < 128 then { lo := a.hi >>> (shift - 64).toUInt64, hi := 0 }
  else {}

/-- One pass of the loop of `divmod`, at bit `ui`, on quotient and remainder. -/
def divmodStep (a b : RationalU128) (ui : UInt32) (s : RationalU128 × RationalU128) :
    RationalU128 × RationalU128 :=
  let q := s.1
  let r := s.2.shl 1
  let srcWord := if ui < 64 then a.lo else a.hi
  let bit := (srcWord >>> (ui % 64).toUInt64) &&& 1
  let r := { r with lo := r.lo ||| bit }
  if !r.lt b then
    (if ui < 64 then { q with lo := q.lo ||| ((1 : UInt64) <<< ui.toUInt64) }
      else { q with hi := q.hi ||| ((1 : UInt64) <<< (ui - 64).toUInt64) },
     r.sub b)
  else (q, r)

/-- The loop of `divmod` over the bits below `n`, from the highest. -/
def divmodLoop (a b : RationalU128) :
    ℕ → RationalU128 × RationalU128 → RationalU128 × RationalU128
  | 0, s => s
  | n + 1, s => divmodLoop a b n (divmodStep a b n.toUInt32 s)

/-- `divmod`: quotient and remainder. -/
def divmod (a b : RationalU128) : RationalU128 × RationalU128 :=
  if b.hi = 0 ∧ b.lo = 0 then ({}, {})
  else if a.lt b then ({}, a)
  else divmodLoop a b 128 ({}, {})

/-- `operator/`. -/
def div (a b : RationalU128) : RationalU128 := (divmod a b).1

/-- `operator%`. -/
def mod (a b : RationalU128) : RationalU128 := (divmod a b).2

end RationalU128

namespace RationalI128

/-- The constructor that takes the bits of an unsigned value. -/
def ofU128 (v : RationalU128) : RationalI128 where
  lo := v.lo
  hi := v.hi.toInt64

/-- `is_negative`. -/
def isNegative (a : RationalI128) : Bool := a.hi < 0

/-- `operator rational_u128`. -/
def toU128 (a : RationalI128) : RationalU128 where
  lo := a.lo
  hi := a.hi.toUInt64

/-- `magnitude`. -/
def magnitude (a : RationalI128) : RationalU128 :=
  if a.isNegative then a.toU128.neg else a.toU128

/-- `operator==`. -/
def eq (a o : RationalI128) : Bool := a.lo == o.lo && a.hi == o.hi

/-- `operator!=`. -/
def ne (a o : RationalI128) : Bool := !a.eq o

/-- `operator<`. -/
def lt (a o : RationalI128) : Bool := a.hi < o.hi || (a.hi == o.hi && a.lo < o.lo)

/-- `operator>`. -/
def gt (a o : RationalI128) : Bool := o.lt a

/-- `operator>=`. -/
def ge (a o : RationalI128) : Bool := !a.lt o

/-- `operator-` of one operand. -/
def neg (a : RationalI128) : RationalI128 where
  lo := ~~~a.lo + 1
  hi := (~~~a.hi.toUInt64 + if a.lo = 0 then 1 else 0).toInt64

/-- `operator+`. -/
def add (a o : RationalI128) : RationalI128 :=
  let lo := a.lo + o.lo
  let carry : UInt64 := if lo < a.lo then 1 else 0
  { lo := lo, hi := (a.hi.toUInt64 + o.hi.toUInt64 + carry).toInt64 }

/-- `operator-` of two operands. -/
def sub (a o : RationalI128) : RationalI128 := a.add o.neg

/-- `operator*`. -/
def mul (a o : RationalI128) : RationalI128 :=
  let neg := a.isNegative != o.isNegative
  let aa := a.magnitude
  let bb := o.magnitude
  let mag : RationalU128 :=
    { lo := aa.lo * bb.lo
      hi := mul64High aa.lo bb.lo + aa.hi * bb.lo + aa.lo * bb.hi }
  ofU128 (if neg then mag.neg else mag)

/-- `operator/`. -/
def div (a o : RationalI128) : RationalI128 :=
  let neg := a.isNegative != o.isNegative
  let r := ofU128 (RationalU128.divmod a.magnitude o.magnitude).1
  if neg then r.neg else r

/-- `operator%`. -/
def mod (a o : RationalI128) : RationalI128 :=
  let r := ofU128 (RationalU128.divmod a.magnitude o.magnitude).2
  if a.isNegative then r.neg else r

end RationalI128

/-- `arbc_mul_overflow_i128`: the report, and what is left in `result`. -/
def mulOverflow (a b result : RationalI128) : Bool × RationalI128 :=
  let neg := a.isNegative != b.isNegative
  let a0 := a.magnitude.lo
  let a1 := a.magnitude.hi
  let b0 := b.magnitude.lo
  let b1 := b.magnitude.hi
  let r0 := a0 * b0
  let r0h := mul64High a0 b0
  let crossLo := a1 * b0
  let crossHi0 := a0 * b1
  let carry : UInt64 := if r0h + crossLo < r0h then 1 else 0
  let mid := r0h + crossLo
  let carry := if mid + crossHi0 < mid then carry + 1 else carry
  let mid := mid + crossHi0
  let hiOverflow := a1 * b1 + mul64High a1 b0 + mul64High a0 b1 + carry
  if hiOverflow ≠ 0 then (true, result)
  else
    let highBitSet : Bool := mid >>> 63 ≠ 0
    if !neg && highBitSet then (true, result)
    else if neg && highBitSet && (mid ≠ (1 : UInt64) <<< 63 || r0 ≠ 0) then (true, result)
    else
      let mag : RationalU128 := { lo := r0, hi := mid }
      (false, .ofU128 (if neg then mag.neg else mag))

/-- `arbc_add_overflow_i128`: the report, and the sum. -/
def addOverflow (a b : RationalI128) : Bool × RationalI128 :=
  let result := a.add b
  (a.isNegative == b.isNegative && result.isNegative != a.isNegative, result)

/-! ## Words in halves -/

/-- The low half of a word. -/
theorem toNat_and_mask (x : UInt64) : (x &&& 0xFFFFFFFF).toNat = x.toNat % 2 ^ 32 := by
  rw [UInt64.toNat_and]
  exact Nat.and_two_pow_sub_one_eq_mod x.toNat 32

/-- The high half of a word. -/
theorem toNat_shiftRight_32 (x : UInt64) : (x >>> 32).toNat = x.toNat / 2 ^ 32 := by
  rw [UInt64.toNat_shiftRight]
  exact Nat.shiftRight_eq_div_pow _ _

/-- A product of two halves is a word. -/
theorem half_mul_lt {x y : ℕ} (hx : x < 2 ^ 32) (hy : y < 2 ^ 32) : x * y < 2 ^ 64 := by
  calc x * y ≤ x * 2 ^ 32 := Nat.mul_le_mul_left x (Nat.le_of_lt hy)
    _ < 2 ^ 32 * 2 ^ 32 := Nat.mul_lt_mul_of_pos_right hx (by decide)
    _ = 2 ^ 64 := by decide

/-- The high word of a product. -/
theorem toNat_mul64High (a b : UInt64) :
    (mul64High a b).toNat = a.toNat * b.toNat / 2 ^ 64 := by
  have ha := Nat.div_add_mod a.toNat (2 ^ 32)
  have hb := Nat.div_add_mod b.toNat (2 ^ 32)
  have hsplit := Limbs.mul_div_square (W := 2 ^ 32) (by decide) (a.toNat % 2 ^ 32)
    (a.toNat / 2 ^ 32) (b.toNat % 2 ^ 32) (b.toNat / 2 ^ 32)
  rw [ha, hb] at hsplit
  have htop : a.toNat * b.toNat / (2 ^ 32 * 2 ^ 32) < 2 ^ 64 := by
    apply Nat.div_lt_of_lt_mul
    exact Nat.mul_lt_mul'' a.toNat_lt b.toNat_lt
  have ha0 : a.toNat % 2 ^ 32 < 2 ^ 32 := Nat.mod_lt _ (by decide)
  have hb0 : b.toNat % 2 ^ 32 < 2 ^ 32 := Nat.mod_lt _ (by decide)
  have ha1 : a.toNat / 2 ^ 32 < 2 ^ 32 := Nat.div_lt_of_lt_mul a.toNat_lt
  have hb1 : b.toNat / 2 ^ 32 < 2 ^ 32 := Nat.div_lt_of_lt_mul b.toNat_lt
  -- no product of halves wraps
  have h00 := Nat.mod_eq_of_lt (half_mul_lt ha0 hb0)
  have h01 := Nat.mod_eq_of_lt (half_mul_lt ha0 hb1)
  have h10 := Nat.mod_eq_of_lt (half_mul_lt ha1 hb0)
  have h11 := Nat.mod_eq_of_lt (half_mul_lt ha1 hb1)
  rw [show (2 : ℕ) ^ 64 = 2 ^ 32 * 2 ^ 32 from rfl, hsplit]
  rw [hsplit] at htop
  simp only [mul64High, UInt64.toNat_add, UInt64.toNat_mul, toNat_and_mask, toNat_shiftRight_32,
    h00, h01, h10, h11]
  simp only [Limbs.top, Limbs.middle] at htop ⊢
  -- nor does any sum, since the whole is the high word
  omega

namespace RationalU128

variable (u v : RationalU128)

/-! ## Unsigned operations -/

/-- The 128-bit word that a value stands for. -/
def bits : BitVec 128 := u.hi.toBitVec ++ u.lo.toBitVec

/-- The number that a value stands for. -/
theorem toNat_bits : u.bits.toNat = 2 ^ 64 * u.hi.toNat + u.lo.toNat := by
  rw [bits, BitVec.toNat_append, ← Nat.shiftLeft_add_eq_or_of_lt u.lo.toBitVec.isLt,
    Nat.shiftLeft_eq, Nat.mul_comm]
  rfl

variable {u v} in
/-- Values that stand for the same word are the same. -/
theorem bits_inj : u.bits = v.bits ↔ u = v := by
  constructor
  · intro h
    have hnat := congrArg BitVec.toNat h
    rw [toNat_bits, toNat_bits] at hnat
    have hu := u.lo.toNat_lt
    have hv := v.lo.toNat_lt
    obtain ⟨ulo, uhi⟩ := u
    obtain ⟨vlo, vhi⟩ := v
    rw [RationalU128.mk.injEq, ← UInt64.toNat_inj, ← UInt64.toNat_inj]
    simp only at hnat hu hv
    omega
  · exact congrArg bits

/-- Equality. -/
theorem eq_bits : u.eq v = (u.bits == v.bits) := by
  rw [Bool.eq_iff_iff, beq_iff_eq, bits_inj, eq, Bool.and_eq_true, beq_iff_eq, beq_iff_eq]
  obtain ⟨ulo, uhi⟩ := u
  obtain ⟨vlo, vhi⟩ := v
  rw [RationalU128.mk.injEq]

/-- The order of the numbers. -/
theorem lt_iff : u.lt v = true ↔ u.bits.toNat < v.bits.toNat := by
  have hu := u.lo.toNat_lt
  have hv := v.lo.toNat_lt
  rw [lt, Bool.or_eq_true, Bool.and_eq_true, decide_eq_true_iff, decide_eq_true_iff,
    beq_iff_eq, UInt64.lt_iff_toNat_lt, UInt64.lt_iff_toNat_lt, ← UInt64.toNat_inj, toNat_bits,
    toNat_bits]
  omega

/-- Comparison. -/
theorem lt_bits : u.lt v = u.bits.ult v.bits := by
  rw [Bool.eq_iff_iff, lt_iff, BitVec.ult_iff_lt, BitVec.lt_def]

/-- Addition. -/
theorem bits_add : (u.add v).bits = u.bits + v.bits := by
  apply BitVec.eq_of_toNat_eq
  have hul := u.lo.toNat_lt
  have hvl := v.lo.toNat_lt
  have hcarry : (if u.lo + v.lo < u.lo then (1 : UInt64) else 0).toNat =
      (u.lo.toNat + v.lo.toNat) / 2 ^ 64 := by
    rw [Limbs.div_eq_carry hul hvl, apply_ite UInt64.toNat]
    simp only [UInt64.lt_iff_toNat_lt, UInt64.toNat_add]
    rfl
  rw [BitVec.toNat_add, toNat_bits, toNat_bits, toNat_bits]
  simp only [add, UInt64.toNat_add, hcarry]
  omega

/-- Subtraction. -/
theorem bits_sub : (u.sub v).bits = u.bits - v.bits := by
  apply BitVec.eq_of_toNat_eq
  have hul := u.lo.toNat_lt
  have hvl := v.lo.toNat_lt
  have huh := u.hi.toNat_lt
  have hvh := v.hi.toNat_lt
  have hborrow : (if u.lo - v.lo > u.lo then (1 : UInt64) else 0).toNat =
      if u.lo.toNat < v.lo.toNat then 1 else 0 := by
    rw [apply_ite UInt64.toNat]
    simp only [gt_iff_lt, UInt64.lt_iff_toNat_lt, UInt64.toNat_sub,
      Limbs.lt_mod_iff_borrow hul hvl]
    rfl
  rw [BitVec.toNat_sub, toNat_bits, toNat_bits, toNat_bits]
  simp only [sub, UInt64.toNat_sub, hborrow]
  split <;> omega

/-- Negation. -/
theorem bits_neg : u.neg.bits = -u.bits := by
  apply BitVec.eq_of_toNat_eq
  have hul := u.lo.toNat_lt
  have huh := u.hi.toNat_lt
  have hcarry : (if u.lo = 0 then (1 : UInt64) else 0).toNat =
      if u.lo.toNat = 0 then 1 else 0 := by
    rw [apply_ite UInt64.toNat]
    simp only [← UInt64.toNat_inj]
    rfl
  rw [BitVec.toNat_neg, toNat_bits, toNat_bits]
  simp only [neg, UInt64.toNat_add, UInt64.toNat_not, hcarry]
  split <;> simp <;> omega

/-! ## Shifts -/

/-- The bits of a value: those of the low word, then those of the high one. -/
theorem getLsbD_bits (i : ℕ) :
    u.bits.getLsbD i = if i < 64 then u.lo.toBitVec.getLsbD i else u.hi.toBitVec.getLsbD (i - 64) :=
  BitVec.getLsbD_append

/-- A word shifted left by less than its width. -/
theorem toBitVec_shiftLeft_of_lt {x : UInt64} {s : UInt32} (hs : s.toNat < 64) :
    (x <<< s.toUInt64).toBitVec = x.toBitVec <<< s.toNat := by
  rw [UInt64.toBitVec_shiftLeft, BitVec.shiftLeft_eq', BitVec.toNat_umod]
  congr 1
  exact Nat.mod_eq_of_lt hs

/-- A word shifted right by less than its width. -/
theorem toBitVec_shiftRight_of_lt {x : UInt64} {s : UInt32} (hs : s.toNat < 64) :
    (x >>> s.toUInt64).toBitVec = x.toBitVec >>> s.toNat := by
  rw [UInt64.toBitVec_shiftRight, BitVec.ushiftRight_eq', BitVec.toNat_umod]
  congr 1
  exact Nat.mod_eq_of_lt hs

/-- A difference of counts that does not wrap. -/
theorem toNat_sub_count {s t : UInt32} (h : s.toNat ≤ t.toNat) :
    (t - s).toNat = t.toNat - s.toNat := UInt32.toNat_sub_of_le t s (UInt32.le_iff_toNat_le.mpr h)

/-- Shift to the left. -/
theorem bits_shl (s : UInt32) : (u.shl s).bits = u.bits <<< s.toNat := by
  apply BitVec.eq_of_getLsbD_eq
  intro i hi
  unfold shl
  split
  case isTrue h0 =>
    subst h0
    rw [BitVec.getLsbD_shiftLeft]
    simp [hi]
  rename_i h0
  have hpos : s.toNat ≠ 0 := fun h => h0 (UInt32.toNat_inj.mp h)
  split
  case isTrue hlt =>
    have hs : s.toNat < 64 := UInt32.lt_iff_toNat_lt.mp hlt
    have hc : ((64 : UInt32) - s).toNat = 64 - s.toNat := toNat_sub_count (Nat.le_of_lt hs)
    rw [getLsbD_bits, BitVec.getLsbD_shiftLeft, getLsbD_bits, UInt64.toBitVec_or,
      toBitVec_shiftLeft_of_lt hs, toBitVec_shiftLeft_of_lt hs,
      toBitVec_shiftRight_of_lt (by omega), hc, BitVec.getLsbD_or, BitVec.getLsbD_shiftLeft,
      BitVec.getLsbD_shiftLeft, BitVec.getLsbD_ushiftRight]
    rcases Nat.lt_or_ge i 64 with hlow | hhigh
    · have hsub : i - s.toNat < 64 := by omega
      simp [hlow, hi, hsub]
    · rcases Nat.lt_or_ge (i - 64) s.toNat with hcross | habove
      · have hlow : i - s.toNat < 64 := by omega
        have hidx : 64 - s.toNat + (i - 64) = i - s.toNat := by omega
        have hns : ¬ i < s.toNat := by omega
        simp [Nat.not_lt.mpr hhigh, hi, hcross, hlow, hidx, hns]
      · have hup : ¬ i - s.toNat < 64 := by omega
        have hns : ¬ i < s.toNat := by omega
        have hidx : i - 64 - s.toNat = i - s.toNat - 64 := by omega
        have hout : 64 ≤ 64 - s.toNat + (i - 64) := by omega
        simp [Nat.not_lt.mpr hhigh, hi, Nat.not_lt.mpr habove, hup, hns, hidx,
          BitVec.getLsbD_of_ge u.lo.toBitVec _ hout]
        omega
  rename_i hge
  have hs : 64 ≤ s.toNat := Nat.not_lt.mp fun h => hge (UInt32.lt_iff_toNat_lt.mpr h)
  rw [BitVec.getLsbD_shiftLeft]
  split
  case isTrue hlt =>
    have hs' : s.toNat < 128 := UInt32.lt_iff_toNat_lt.mp hlt
    have hc : (s - 64).toNat = s.toNat - 64 := toNat_sub_count hs
    rw [getLsbD_bits, toBitVec_shiftLeft_of_lt (by omega), hc, BitVec.getLsbD_shiftLeft,
      getLsbD_bits]
    rcases Nat.lt_or_ge i s.toNat with hlow | hhigh
    · have hcross : i - 64 < s.toNat - 64 ∨ i < 64 := by omega
      rcases hcross with h | h <;> simp [hlow, h]
    · have hlow : i - s.toNat < 64 := by omega
      have hidx : i - 64 - (s.toNat - 64) = i - s.toNat := by omega
      have hup : ¬ i < 64 := by omega
      have hns : ¬ i - 64 < s.toNat - 64 := by omega
      have hin : i - 64 < 64 := by omega
      simp [hup, hlow, hidx, hns, hi, Nat.not_lt.mpr hhigh, hin]
  rename_i hover
  have hs' : i < s.toNat :=
    Nat.lt_of_lt_of_le hi (Nat.not_lt.mp fun h => hover (UInt32.lt_iff_toNat_lt.mpr h))
  simp [getLsbD_bits, hs']

/-- Shift to the right. -/
theorem bits_shr (s : UInt32) : (u.shr s).bits = u.bits >>> s.toNat := by
  apply BitVec.eq_of_getLsbD_eq
  intro i hi
  rw [BitVec.getLsbD_ushiftRight]
  unfold shr
  split
  case isTrue h0 =>
    subst h0
    simp
  rename_i h0
  have hpos : s.toNat ≠ 0 := fun h => h0 (UInt32.toNat_inj.mp h)
  split
  case isTrue hlt =>
    have hs : s.toNat < 64 := UInt32.lt_iff_toNat_lt.mp hlt
    have hc : ((64 : UInt32) - s).toNat = 64 - s.toNat := toNat_sub_count (Nat.le_of_lt hs)
    rw [getLsbD_bits, getLsbD_bits, UInt64.toBitVec_or, toBitVec_shiftRight_of_lt hs,
      toBitVec_shiftRight_of_lt hs, toBitVec_shiftLeft_of_lt (by omega), hc, BitVec.getLsbD_or,
      BitVec.getLsbD_ushiftRight, BitVec.getLsbD_ushiftRight, BitVec.getLsbD_shiftLeft]
    rcases Nat.lt_or_ge i 64 with hlow | hhigh
    · rcases Nat.lt_or_ge (s.toNat + i) 64 with hin | hcross
      · have hns : i < 64 - s.toNat := by omega
        simp [hlow, hin, hns]
      · have hns : ¬ i < 64 - s.toNat := by omega
        have hidx : i - (64 - s.toNat) = s.toNat + i - 64 := by omega
        simp [hlow, Nat.not_lt.mpr hcross, hns, hidx,
          BitVec.getLsbD_of_ge u.lo.toBitVec _ hcross]
    · have hup : ¬ s.toNat + i < 64 := by omega
      have hidx : s.toNat + (i - 64) = s.toNat + i - 64 := by omega
      simp [Nat.not_lt.mpr hhigh, hup, hidx]
  rename_i hge
  have hs : 64 ≤ s.toNat := Nat.not_lt.mp fun h => hge (UInt32.lt_iff_toNat_lt.mpr h)
  split
  case isTrue hlt =>
    have hs' : s.toNat < 128 := UInt32.lt_iff_toNat_lt.mp hlt
    have hc : (s - 64).toNat = s.toNat - 64 := toNat_sub_count hs
    have hup : ¬ s.toNat + i < 64 := by omega
    have hidx : s.toNat - 64 + i = s.toNat + i - 64 := by omega
    rw [getLsbD_bits, toBitVec_shiftRight_of_lt (by omega), hc, BitVec.getLsbD_ushiftRight,
      getLsbD_bits, if_neg hup, hidx]
    split
    case isTrue => rfl
    case isFalse hhigh =>
      have hout : 64 ≤ s.toNat + i - 64 := by omega
      simp [BitVec.getLsbD_of_ge u.hi.toBitVec _ hout]
  rename_i hover
  have hout : 128 ≤ s.toNat + i :=
    Nat.le_add_right_of_le (Nat.not_lt.mp fun h => hover (UInt32.lt_iff_toNat_lt.mpr h))
  rw [BitVec.getLsbD_of_ge u.bits _ hout]
  simp [getLsbD_bits]

/-! ## Division -/

variable {u v}

/-- A bit joined to a number that ends above it. -/
theorem or_two_pow {x n : ℕ} (h : 2 ^ (n + 1) ∣ x) : x ||| 2 ^ n = x + 2 ^ n := by
  obtain ⟨k, rfl⟩ := h
  exact (Nat.two_pow_add_eq_or_of_lt (Nat.pow_lt_pow_right (by decide) (Nat.lt_succ_self n)) k).symm

/-- One bit of a word. -/
theorem toNat_bit {n : UInt32} (hn : n.toNat < 64) :
    ((1 : UInt64) <<< n.toUInt64).toNat = 2 ^ n.toNat := by
  rw [← UInt64.toNat_toBitVec, toBitVec_shiftLeft_of_lt hn, BitVec.toNat_shiftLeft]
  show 1 <<< n.toNat % 2 ^ 64 = _
  rw [Nat.one_shiftLeft, Nat.mod_eq_of_lt (Nat.pow_lt_pow_right (by decide) hn)]

/-- A bit of the quotient is set. -/
theorem toNat_setBit {q : RationalU128} {n : UInt32} (hn : n.toNat < 128)
    (h : 2 ^ (n.toNat + 1) ∣ q.bits.toNat) :
    (if n < 64 then { q with lo := q.lo ||| ((1 : UInt64) <<< n.toUInt64) }
      else { q with hi := q.hi ||| ((1 : UInt64) <<< (n - 64).toUInt64) }).bits.toNat =
      q.bits.toNat + 2 ^ n.toNat := by
  rw [toNat_bits q] at h ⊢
  split
  case isTrue hlt =>
    have hs : n.toNat < 64 := UInt32.lt_iff_toNat_lt.mp hlt
    have hword : 2 ^ (n.toNat + 1) ∣ 2 ^ 64 * q.hi.toNat :=
      Nat.dvd_mul_right_of_dvd (Nat.pow_dvd_pow 2 hs) _
    rw [toNat_bits, UInt64.toNat_or, toNat_bit hs, or_two_pow ((Nat.dvd_add_right hword).mp h),
      Nat.add_assoc]
  case isFalse hge =>
    have hs : 64 ≤ n.toNat := Nat.not_lt.mp fun h => hge (UInt32.lt_iff_toNat_lt.mpr h)
    have hc : (n - 64).toNat = n.toNat - 64 := toNat_sub_count hs
    have hlo : q.lo.toNat = 0 := by
      have hword := Nat.dvd_trans (Nat.pow_dvd_pow 2 (Nat.le_succ_of_le hs)) h
      have hdvd := (Nat.dvd_add_right (Nat.dvd_mul_right _ _)).mp hword
      exact Nat.eq_zero_of_dvd_of_lt hdvd q.lo.toNat_lt
    have hsplit : 2 ^ (n.toNat + 1) = 2 ^ 64 * 2 ^ ((n - 64).toNat + 1) := by
      rw [← Nat.pow_add, hc]
      congr 1
      omega
    have hhi : 2 ^ ((n - 64).toNat + 1) ∣ q.hi.toNat := by
      rw [hlo, Nat.add_zero, hsplit] at h
      exact Nat.dvd_of_mul_dvd_mul_left (by decide) h
    rw [toNat_bits, UInt64.toNat_or, toNat_bit (by omega), or_two_pow hhi, Nat.mul_add, hlo,
      Nat.add_zero, Nat.add_zero, ← Nat.pow_add, hc]
    congr 2
    omega

/-- The next bit of the dividend. -/
theorem toNat_nextBit {a : RationalU128} {n : UInt32} (hn : n.toNat < 128) :
    (((if n < 64 then a.lo else a.hi) >>> (n % 64).toUInt64) &&& 1).toNat =
      a.bits.toNat / 2 ^ n.toNat % 2 := by
  have hmod : (n % 64).toNat = n.toNat % 64 := UInt32.toNat_mod n 64
  have hword : ∀ x : UInt64, ((x >>> (n % 64).toUInt64) &&& 1).toNat =
      (x.toNat.testBit (n.toNat % 64)).toNat := by
    intro x
    rw [UInt64.toNat_and, ← UInt64.toNat_toBitVec (_ >>> _),
      toBitVec_shiftRight_of_lt (by omega), BitVec.toNat_ushiftRight, Nat.shiftRight_eq_div_pow,
      hmod, Nat.toNat_testBit]
    exact Nat.and_one_is_mod _
  have hbit : a.bits.toNat.testBit n.toNat =
      if n.toNat < 64 then a.lo.toNat.testBit n.toNat else a.hi.toNat.testBit (n.toNat - 64) :=
    getLsbD_bits a n.toNat
  rw [hword, ← Nat.toNat_testBit, hbit]
  split
  case isTrue hlt =>
    have hs : n.toNat < 64 := UInt32.lt_iff_toNat_lt.mp hlt
    rw [if_pos hs, Nat.mod_eq_of_lt hs]
  case isFalse hge =>
    have hs : ¬ n.toNat < 64 := fun h => hge (UInt32.lt_iff_toNat_lt.mpr h)
    rw [if_neg hs, show n.toNat % 64 = n.toNat - 64 by omega]

/-- The numbers that a pair of values stands for. -/
def numbers (s : RationalU128 × RationalU128) : ℕ × ℕ := (s.1.bits.toNat, s.2.bits.toNat)

/-- The remainder with the next bit of the dividend is not cut off. -/
theorem toNat_remainder {r : RationalU128} {bit : UInt64} (hbit : bit.toNat < 2)
    (hfit : 2 * r.bits.toNat + bit.toNat < 2 ^ 128) :
    ({ r.shl 1 with lo := (r.shl 1).lo ||| bit } : RationalU128).bits.toNat =
      2 * r.bits.toNat + bit.toNat := by
  have hshift : (r.shl 1).bits.toNat = 2 * r.bits.toNat := by
    rw [bits_shl, BitVec.toNat_shiftLeft, Nat.shiftLeft_eq]
    show r.bits.toNat * 2 ^ 1 % 2 ^ 128 = _
    rw [Nat.mod_eq_of_lt (by omega), Nat.pow_one, Nat.mul_comm]
  rw [toNat_bits] at hshift
  have heven : (r.shl 1).lo.toNat = 2 ^ 1 * ((r.shl 1).lo.toNat / 2) := by omega
  have hor : (r.shl 1).lo.toNat ||| bit.toNat = (r.shl 1).lo.toNat + bit.toNat := by
    rw [heven]
    exact (Nat.two_pow_add_eq_or_of_lt hbit _).symm
  rw [toNat_bits, UInt64.toNat_or, hor, ← Nat.add_assoc, hshift]

/-- The divisor is taken off where it fits. -/
theorem numbers_take {b q q' r : RationalU128} {m bit : ℕ} (hr : r.bits.toNat = m)
    (hq : q'.bits.toNat = q.bits.toNat + bit) :
    numbers (if !r.lt b then (q', r.sub b) else (q, r)) =
      if m < b.bits.toNat then (q.bits.toNat, m) else (q.bits.toNat + bit, m - b.bits.toNat) := by
  rw [← hr]
  by_cases hlt : r.bits.toNat < b.bits.toNat
  · rw [if_pos hlt, (lt_iff r b).mpr hlt]
    rfl
  · have hfits : r.lt b = false := Bool.eq_false_iff.mpr (mt (lt_iff r b).mp hlt)
    rw [if_neg hlt, hfits, ← hq, ← BitVec.toNat_sub_of_le (Nat.le_of_not_lt hlt), ← bits_sub]
    rfl

/-- A pass of the loop is a step of restoring division. -/
theorem numbers_divmodStep {a b : RationalU128} {n : ℕ} {s : RationalU128 × RationalU128}
    (hn : n < 128) (h : Limbs.Divides a.bits.toNat b.bits.toNat (n + 1) (numbers s)) :
    numbers (divmodStep a b n.toUInt32 s) =
      Limbs.divisionStep a.bits.toNat b.bits.toNat n (numbers s) := by
  have hcount : n.toUInt32.toNat = n := Nat.mod_eq_of_lt (Nat.lt_trans hn (by decide))
  have hnext := toNat_nextBit (a := a) (n := n.toUInt32) (by rwa [hcount])
  rw [hcount] at hnext
  have hbit : a.bits.toNat / 2 ^ n % 2 < 2 := Nat.mod_lt _ (by decide)
  have hfit : 2 * s.2.bits.toNat + a.bits.toNat / 2 ^ n % 2 < 2 ^ 128 := by
    have hrem : s.2.bits.toNat ≤ a.bits.toNat / 2 ^ (n + 1) := h.rem_le
    have hread := Limbs.div_two_pow_succ a.bits.toNat n
    have hle : a.bits.toNat / 2 ^ n ≤ a.bits.toNat := Nat.div_le_self _ _
    have hlt := a.bits.isLt
    omega
  have hr := toNat_remainder (r := s.2) (by rwa [hnext]) (by rwa [hnext])
  rw [hnext] at hr
  have hq := toNat_setBit (q := s.1) (n := n.toUInt32) (by rwa [hcount])
    (by rw [hcount]; exact h.low)
  rw [hcount] at hq
  exact numbers_take hr hq

/-- The loop is restoring division. -/
theorem numbers_divmodLoop {a b : RationalU128} {n : ℕ} {s : RationalU128 × RationalU128}
    (hn : n ≤ 128) (h : Limbs.Divides a.bits.toNat b.bits.toNat n (numbers s)) :
    numbers (divmodLoop a b n s) = Limbs.longDivision a.bits.toNat b.bits.toNat n (numbers s) := by
  induction n generalizing s with
  | zero => rfl
  | succ n ih =>
    have hstep := numbers_divmodStep hn h
    rw [divmodLoop, Limbs.longDivision, ← hstep]
    apply ih (Nat.le_of_succ_le hn)
    rw [hstep]
    exact h.step

/-- The default value stands for zero. -/
theorem bits_empty : ({} : RationalU128).bits = 0 := rfl

/-- No other value does. -/
theorem bits_eq_zero_iff : u.bits = 0 ↔ u.hi = 0 ∧ u.lo = 0 := by
  rw [← bits_empty, bits_inj]
  obtain ⟨lo, hi⟩ := u
  rw [RationalU128.mk.injEq, and_comm]

/-- Division. -/
theorem numbers_divmod (h : v.bits ≠ 0) :
    numbers (divmod u v) = (u.bits.toNat / v.bits.toNat, u.bits.toNat % v.bits.toNat) := by
  have hpos : 0 < v.bits.toNat := by
    apply Nat.pos_of_ne_zero
    exact fun hzero => h (BitVec.eq_of_toNat_eq hzero)
  rw [divmod, if_neg (mt bits_eq_zero_iff.mpr h)]
  split
  case isTrue hlt =>
    rw [lt_iff] at hlt
    rw [Nat.div_eq_of_lt hlt, Nat.mod_eq_of_lt hlt, numbers, bits_empty]
    rfl
  case isFalse =>
    rw [numbers_divmodLoop (Nat.le_refl _) (Limbs.Divides.start u.bits.isLt hpos)]
    exact Limbs.longDivision_eq u.bits.isLt hpos

/-- The quotient. -/
theorem bits_divmod_fst (h : v.bits ≠ 0) : (divmod u v).1.bits = u.bits / v.bits :=
  BitVec.eq_of_toNat_eq ((congrArg Prod.fst (numbers_divmod h)).trans BitVec.toNat_udiv.symm)

/-- The remainder. -/
theorem bits_divmod_snd (h : v.bits ≠ 0) : (divmod u v).2.bits = u.bits % v.bits :=
  BitVec.eq_of_toNat_eq ((congrArg Prod.snd (numbers_divmod h)).trans BitVec.toNat_umod.symm)

end RationalU128

namespace RationalI128

variable (a o : RationalI128)

/-! ## Signed operations -/

/-- The 128-bit word that a value stands for. -/
def bits : BitVec 128 := a.toU128.bits

variable {a o} in
/-- Values that stand for the same word are the same. -/
theorem bits_inj : a.bits = o.bits ↔ a = o := by
  rw [bits, bits, RationalU128.bits_inj]
  obtain ⟨alo, ahi⟩ := a
  obtain ⟨olo, ohi⟩ := o
  rw [toU128, toU128, RationalU128.mk.injEq, RationalI128.mk.injEq]
  apply and_congr_right
  intro _
  constructor
  · intro h
    rw [← Int64.toInt64_toUInt64 ahi, h, Int64.toInt64_toUInt64]
  · exact congrArg Int64.toUInt64

/-- Bits that are taken as a signed value stay. -/
theorem bits_ofU128 (v : RationalU128) : (ofU128 v).bits = v.bits := rfl

/-- The sign. -/
theorem isNegative_eq : a.isNegative = a.bits.msb := by
  have hmsb : a.bits.msb = a.hi.toBitVec.msb := BitVec.msb_append
  rw [hmsb, isNegative, Bool.eq_iff_iff, decide_eq_true_iff, Int64.lt_iff_toInt_lt,
    BitVec.msb_eq_toInt, decide_eq_true_iff]
  rfl

/-- The number in terms of its two words. -/
theorem toInt_bits : a.bits.toInt = 2 ^ 64 * a.hi.toInt + a.lo.toNat :=
  BitVec.toInt_append

/-- Equality. -/
theorem eq_bits : a.eq o = (a.bits == o.bits) := by
  rw [Bool.eq_iff_iff, beq_iff_eq, bits_inj, eq, Bool.and_eq_true, beq_iff_eq, beq_iff_eq]
  obtain ⟨alo, ahi⟩ := a
  obtain ⟨olo, ohi⟩ := o
  rw [RationalI128.mk.injEq]

/-- Comparison. -/
theorem lt_bits : a.lt o = a.bits.slt o.bits := by
  have ha := a.lo.toNat_lt
  have ho := o.lo.toNat_lt
  rw [Bool.eq_iff_iff, BitVec.slt_iff_toInt_lt, toInt_bits, toInt_bits, lt, Bool.or_eq_true,
    Bool.and_eq_true, decide_eq_true_iff, decide_eq_true_iff, beq_iff_eq, Int64.lt_iff_toInt_lt,
    UInt64.lt_iff_toNat_lt, ← Int64.toInt_inj]
  omega

/-- Negation. -/
theorem bits_neg : a.neg.bits = -a.bits := RationalU128.bits_neg a.toU128

/-- Addition. -/
theorem bits_add : (a.add o).bits = a.bits + o.bits :=
  RationalU128.bits_add a.toU128 o.toU128

/-- Subtraction. -/
theorem bits_sub : (a.sub o).bits = a.bits - o.bits := by
  rw [sub, bits_add, bits_neg, BitVec.sub_eq_add_neg]

/-- The magnitude is the absolute value, also of the lowest number. -/
theorem bits_magnitude : a.magnitude.bits = a.bits.abs := by
  rw [magnitude, BitVec.abs, isNegative_eq, apply_ite RationalU128.bits, RationalU128.bits_neg]
  rfl

/-- A value gets its sign back. -/
theorem bits_signed (neg : Bool) (m : RationalU128) :
    (ofU128 (if neg then m.neg else m)).bits = if neg then -m.bits else m.bits := by
  rw [bits_ofU128, apply_ite RationalU128.bits, RationalU128.bits_neg]

/-- The low two words of a product. -/
theorem bits_lowProduct (u v : RationalU128) :
    (RationalU128.mk (u.lo * v.lo) (mul64High u.lo v.lo + u.hi * v.lo + u.lo * v.hi)).bits =
      u.bits * v.bits := by
  apply BitVec.eq_of_toNat_eq
  rw [BitVec.toNat_mul, RationalU128.toNat_bits, RationalU128.toNat_bits, RationalU128.toNat_bits,
    show (2 : ℕ) ^ 128 = 2 ^ 64 * 2 ^ 64 from rfl, Limbs.mul_mod_square (by decide),
    Limbs.middle_mod]
  simp only [UInt64.toNat_add, UInt64.toNat_mul, toNat_mul64High, Nat.add_mod_mod,
    Nat.mod_add_mod]

/-- Multiplication. -/
theorem bits_mul : (a.mul o).bits = a.bits * o.bits := by
  rw [mul, bits_signed, bits_lowProduct, bits_magnitude, bits_magnitude, isNegative_eq, isNegative_eq,
    BitVec.abs, BitVec.abs]
  cases a.bits.msb <;> cases o.bits.msb <;> simp

variable {o} in
/-- The magnitude of a number that is not zero is not zero. -/
theorem bits_magnitude_ne_zero (h : o.bits ≠ 0) : o.magnitude.bits ≠ 0 := by
  rw [bits_magnitude, BitVec.abs]
  split
  case isTrue => exact fun hzero => h (BitVec.neg_eq_zero_iff.mp hzero)
  case isFalse => exact h

variable {o} in
/-- Division. -/
theorem bits_div (h : o.bits ≠ 0) : (a.div o).bits = a.bits.sdiv o.bits := by
  have hq := RationalU128.bits_divmod_fst (u := a.magnitude) (bits_magnitude_ne_zero h)
  rw [bits_magnitude, bits_magnitude, BitVec.abs, BitVec.abs] at hq
  rw [div, BitVec.sdiv_eq, isNegative_eq, isNegative_eq, apply_ite bits, bits_neg, bits_ofU128, hq]
  cases a.bits.msb <;> cases o.bits.msb <;> rfl

variable {o} in
/-- Remainder. -/
theorem bits_mod (h : o.bits ≠ 0) : (a.mod o).bits = a.bits.srem o.bits := by
  have hr := RationalU128.bits_divmod_snd (u := a.magnitude) (bits_magnitude_ne_zero h)
  rw [bits_magnitude, bits_magnitude, BitVec.abs, BitVec.abs] at hr
  rw [mod, BitVec.srem_eq, isNegative_eq, apply_ite bits, bits_neg, bits_ofU128, hr]
  cases a.bits.msb <;> cases o.bits.msb <;> rfl

end RationalI128

/-! ## The checked product -/

/-- The carry of a sum, as it is seen in the sum. -/
theorem div_eq_carry (x y : UInt64) :
    (x.toNat + y.toNat) / 2 ^ 64 = if x + y < x then 1 else 0 := by
  rw [Limbs.div_eq_carry x.toNat_lt y.toNat_lt]
  simp only [UInt64.lt_iff_toNat_lt, UInt64.toNat_add]

/-- The carries of two sums in a row. -/
theorem toNat_carries (x y z : UInt64) :
    (if x + y + z < x + y then (if x + y < x then (1 : UInt64) else 0) + 1
      else if x + y < x then 1 else 0).toNat = (x.toNat + y.toNat + z.toNat) / 2 ^ 64 := by
  have hfirst := div_eq_carry x y
  have hsecond := div_eq_carry (x + y) z
  rw [UInt64.toNat_add] at hsecond
  have hsum : (x.toNat + y.toNat + z.toNat) / 2 ^ 64 =
      (if x + y + z < x + y then 1 else 0) + if x + y < x then 1 else 0 := by
    rw [← hfirst, ← hsecond]
    omega
  rw [hsum]
  split <;> split <;> rfl

section Product

variable (a b : RationalI128)

/-- The number that the product of the two magnitudes is. -/
def productMagnitude : ℕ := a.bits.toInt.natAbs * b.bits.toInt.natAbs

/-- The operands differ in their signs. -/
def SignsDiffer : Prop := a.bits.msb ≠ b.bits.msb

instance : Decidable (SignsDiffer a b) := inferInstanceAs (Decidable (_ ≠ _))

/-- A magnitude that a signed value of the product's sign can have. -/
def MagnitudeFits (m : ℕ) : Prop := m < 2 ^ 127 ∨ SignsDiffer a b ∧ m = 2 ^ 127

instance (m : ℕ) : Decidable (MagnitudeFits a b m) := inferInstanceAs (Decidable (_ ∨ _))

/-- The number of a magnitude. -/
theorem toNat_magnitude : a.magnitude.bits.toNat = a.bits.toInt.natAbs := by
  have hlt := a.bits.isLt
  rw [RationalI128.bits_magnitude, BitVec.toNat_abs, BitVec.toInt_eq_msb_cond]
  split <;> omega

/-- The word that the report is read from: the product above its low 128 bits, cut to a word. -/
theorem toNat_hiOverflow (u v : RationalU128) :
    (u.hi * v.hi + mul64High u.hi v.lo + mul64High u.lo v.hi +
      (if mul64High u.lo v.lo + u.hi * v.lo + u.lo * v.hi < mul64High u.lo v.lo + u.hi * v.lo then
          (if mul64High u.lo v.lo + u.hi * v.lo < mul64High u.lo v.lo then (1 : UInt64) else 0) + 1
        else if mul64High u.lo v.lo + u.hi * v.lo < mul64High u.lo v.lo then 1 else 0)).toNat =
      u.bits.toNat * v.bits.toNat / 2 ^ 128 % 2 ^ 64 := by
  rw [UInt64.toNat_add, toNat_carries, RationalU128.toNat_bits, RationalU128.toNat_bits,
    show (2 : ℕ) ^ 128 = 2 ^ 64 * 2 ^ 64 from rfl, Limbs.mul_div_square (by decide)]
  simp only [UInt64.toNat_add, UInt64.toNat_mul, toNat_mul64High, Limbs.top, Limbs.middle,
    Nat.mod_add_mod]

/-- The test of the high bit is a comparison. -/
theorem shiftRight_63_ne_zero_iff (u : RationalU128) :
    u.hi >>> 63 ≠ 0 ↔ 2 ^ 127 ≤ u.bits.toNat := by
  have hlo := u.lo.toNat_lt
  have hshift : (u.hi >>> 63).toNat = u.hi.toNat / 2 ^ 63 := by
    rw [UInt64.toNat_shiftRight]
    exact Nat.shiftRight_eq_div_pow _ _
  rw [ne_eq, ← UInt64.toNat_inj, hshift, RationalU128.toNat_bits]
  show ¬ u.hi.toNat / 2 ^ 63 = 0 ↔ _
  omega

/-- The one magnitude with the high bit that a negative value can have. -/
theorem eq_lowest_iff (u : RationalU128) :
    u.hi = (1 : UInt64) <<< 63 ∧ u.lo = 0 ↔ u.bits.toNat = 2 ^ 127 := by
  have hlo := u.lo.toNat_lt
  rw [← UInt64.toNat_inj, ← UInt64.toNat_inj, RationalU128.toNat_bits]
  show u.hi.toNat = 2 ^ 63 ∧ u.lo.toNat = 0 ↔ _
  omega

/-- The tests of a product in numbers. -/
theorem report_eq {α : Type} (differ : Bool) (top : UInt64) (m : RationalU128) (yes no : α) :
    (if top ≠ 0 then yes
      else if !differ && decide (m.hi >>> 63 ≠ 0) then yes
      else if differ && decide (m.hi >>> 63 ≠ 0) &&
          (decide (m.hi ≠ (1 : UInt64) <<< 63) || decide (m.lo ≠ 0)) then yes
      else no) =
      if top.toNat ≠ 0 ∨ ¬ (m.bits.toNat < 2 ^ 127 ∨ differ = true ∧ m.bits.toNat = 2 ^ 127) then
        yes
      else no := by
  have htop : top.toNat ≠ 0 ↔ top ≠ 0 := not_congr (UInt64.toNat_inj (b := 0))
  have hhigh := shiftRight_63_ne_zero_iff m
  have hlowest := eq_lowest_iff m
  by_cases h0 : top ≠ 0
  · rw [if_pos h0, if_pos (Or.inl (htop.mpr h0))]
  rw [if_neg h0]
  have hn : ¬ top.toNat ≠ 0 := mt htop.mp h0
  by_cases hset : m.hi >>> 63 ≠ 0
  · have hge := hhigh.mp hset
    cases differ with
    | false =>
      rw [if_pos (by simpa using hset), if_pos]
      right
      rintro (hlt | ⟨hfalse, -⟩)
      · omega
      · exact Bool.false_ne_true hfalse
    | true =>
      rw [if_neg (by simp)]
      by_cases hmin : m.hi = (1 : UInt64) <<< 63 ∧ m.lo = 0
      · rw [if_neg (by simp [hmin.1, hmin.2]), if_neg]
        rintro (h | h)
        · exact hn h
        · exact h (Or.inr ⟨rfl, hlowest.mp hmin⟩)
      · have hne := mt hlowest.mpr hmin
        rw [not_and_or] at hmin
        rw [if_pos (by simpa [hset] using hmin), if_pos]
        right
        rintro (hlt | ⟨-, heq⟩)
        · omega
        · exact hne heq
  · have hlt := mt hhigh.mpr hset
    rw [if_neg (by simp [hset]), if_neg (by simp [hset]), if_neg]
    rintro (h | h)
    · exact hn h
    · exact h (Or.inl (Nat.not_le.mp hlt))

/-- What the checked product does: the two reasons for a report, and the product otherwise. -/
theorem mulOverflow_eq (result : RationalI128) :
    mulOverflow a b result =
      if productMagnitude a b / 2 ^ 128 % 2 ^ 64 ≠ 0 ∨
          ¬ MagnitudeFits a b (productMagnitude a b % 2 ^ 128) then (true, result)
      else (false, a.mul b) := by
  have hmul : a.magnitude.bits.toNat * b.magnitude.bits.toNat = productMagnitude a b := by
    rw [productMagnitude, toNat_magnitude, toNat_magnitude]
  have htop := toNat_hiOverflow a.magnitude b.magnitude
  have hlow := congrArg BitVec.toNat (RationalI128.bits_lowProduct a.magnitude b.magnitude)
  rw [BitVec.toNat_mul, hmul] at hlow
  rw [hmul] at htop
  have hsigns : (a.isNegative != b.isNegative) = true ↔ SignsDiffer a b := by
    rw [RationalI128.isNegative_eq, RationalI128.isNegative_eq, bne_iff_ne]
    rfl
  refine Eq.trans (report_eq _ _ ⟨a.magnitude.lo * b.magnitude.lo,
    mul64High a.magnitude.lo b.magnitude.lo + a.magnitude.hi * b.magnitude.lo +
      a.magnitude.lo * b.magnitude.hi⟩ _ _) ?_
  rw [hlow, htop]
  exact if_congr (or_congr_right (not_congr (or_congr_right (and_congr_left' hsigns)))) rfl rfl

/-! ## Agreement with the native types -/

/-- A product that is not reported although it does not fit: above its low 128 bits it has a
multiple of 2^64, which the word that is tested cannot show, and its low 128 bits fit. -/
def Hidden : Prop :=
  2 ^ 192 ≤ productMagnitude a b ∧ productMagnitude a b / 2 ^ 128 % 2 ^ 64 = 0 ∧
    MagnitudeFits a b (productMagnitude a b % 2 ^ 128)

instance : Decidable (Hidden a b) := inferInstanceAs (Decidable (_ ∧ _))

/-- A checked operation reports exactly the results that do not fit, and stores the others. -/
def Checks (out : Bool × RationalI128) (exact : ℤ) : Prop :=
  (out.1 = true ↔ ¬ FitsSigned 128 exact) ∧ (out.1 = false → out.2.bits.toInt = exact)

/-- The checked sum. -/
theorem addOverflow_checks :
    Checks (addOverflow a b) (a.bits.toInt + b.bits.toInt) := by
  have hflag : (addOverflow a b).1 = a.bits.saddOverflow b.bits := by
    rw [addOverflow, BitVec.saddOverflow_eq, RationalI128.isNegative_eq,
      RationalI128.isNegative_eq, RationalI128.isNegative_eq, RationalI128.bits_add]
    rfl
  refine ⟨?_, fun h => ?_⟩
  · rw [hflag, BitVec.saddOverflow, Bool.or_eq_true, decide_eq_true_iff, decide_eq_true_iff,
      FitsSigned]
    omega
  · rw [hflag] at h
    show (a.add b).bits.toInt = _
    rw [RationalI128.bits_add]
    exact BitVec.toInt_add_of_not_saddOverflow (by simp [h])

/-- The exact product is the product of the magnitudes with a sign. -/
theorem exact_product :
    a.bits.toInt * b.bits.toInt =
      if SignsDiffer a b then -(productMagnitude a b : ℤ) else productMagnitude a b := by
  have hsigns : SignsDiffer a b ↔ ¬ (a.bits.toInt < 0 ↔ b.bits.toInt < 0) := by
    show a.bits.msb ≠ b.bits.msb ↔ _
    rw [BitVec.msb_eq_toInt, BitVec.msb_eq_toInt, ne_eq, decide_eq_decide]
  have habs : (productMagnitude a b : ℤ) = |a.bits.toInt| * |b.bits.toInt| := by
    rw [productMagnitude, Nat.cast_mul, Int.natCast_natAbs, Int.natCast_natAbs]
  rw [habs]
  rcases lt_or_ge a.bits.toInt 0 with ha | ha <;> rcases lt_or_ge b.bits.toInt 0 with hb | hb
  · rw [if_neg (by simp [hsigns, ha, hb]), abs_of_neg ha, abs_of_neg hb, neg_mul_neg]
  · rw [if_pos (by simp [hsigns, ha, not_lt.mpr hb]), abs_of_neg ha, abs_of_nonneg hb, neg_mul,
      neg_neg]
  · rw [if_pos (by simp [hsigns, hb, not_lt.mpr ha]), abs_of_nonneg ha, abs_of_neg hb, mul_neg,
      neg_neg]
  · rw [if_neg (by simp [hsigns, not_lt.mpr ha, not_lt.mpr hb]), abs_of_nonneg ha,
      abs_of_nonneg hb]

/-- A product fits when its magnitude does. -/
theorem fits_product_iff :
    FitsSigned 128 (a.bits.toInt * b.bits.toInt) ↔ MagnitudeFits a b (productMagnitude a b) := by
  rw [exact_product, FitsSigned, MagnitudeFits]
  split
  case isTrue hd => simp only [hd, true_and]; omega
  case isFalse hd => simp only [hd, false_and, or_false]; omega

/-- When a product is reported. -/
theorem mulOverflow_fst (result : RationalI128) :
    (mulOverflow a b result).1 = true ↔
      productMagnitude a b / 2 ^ 128 % 2 ^ 64 ≠ 0 ∨
        ¬ MagnitudeFits a b (productMagnitude a b % 2 ^ 128) := by
  rw [mulOverflow_eq]
  split
  case isTrue h => exact iff_of_true rfl h
  case isFalse h => exact iff_of_false Bool.false_ne_true h

/-- A hidden product does not fit. -/
theorem Hidden.not_fits {a b : RationalI128} (h : Hidden a b) :
    ¬ MagnitudeFits a b (productMagnitude a b) := by
  have hlarge := h.1
  rintro (hlt | ⟨-, heq⟩) <;> omega

/-- The report is right where no product is hidden. -/
theorem mulOverflow_fst_of_not_hidden {a b : RationalI128} (h : ¬ Hidden a b)
    (result : RationalI128) :
    (mulOverflow a b result).1 = true ↔ ¬ MagnitudeFits a b (productMagnitude a b) := by
  rw [mulOverflow_fst]
  rcases Nat.lt_or_ge (productMagnitude a b) (2 ^ 128) with hlt | hge
  · rw [Nat.div_eq_of_lt hlt, Nat.mod_eq_of_lt hlt]
    simp
  · have hbig : ¬ MagnitudeFits a b (productMagnitude a b) := by
      rintro (hlt | ⟨-, heq⟩) <;> omega
    refine iff_of_true ?_ hbig
    -- otherwise the part above the low bits would be a multiple of 2^64, and the product hidden
    by_contra hquiet
    rw [not_or, not_not, not_not] at hquiet
    refine h ⟨?_, hquiet⟩
    have hzero := hquiet.1
    omega

/-- The checked product. -/
theorem mulOverflow_checks_iff (result : RationalI128) :
    Checks (mulOverflow a b result) (a.bits.toInt * b.bits.toInt) ↔ ¬ Hidden a b := by
  rw [Checks, fits_product_iff]
  constructor
  · rintro ⟨hflag, -⟩ h
    have hquiet := (mulOverflow_fst a b result).mp (hflag.mpr h.not_fits)
    rcases hquiet with htop | hlow
    · exact htop h.2.1
    · exact hlow h.2.2
  · intro h
    have hflag := mulOverflow_fst_of_not_hidden h result
    refine ⟨hflag, fun hquiet => ?_⟩
    have hfits := (fits_product_iff a b).mpr (not_not.mp (mt hflag.mpr (by simp [hquiet])))
    have hstored : (mulOverflow a b result).2 = a.mul b := by
      rw [mulOverflow_eq] at hquiet ⊢
      split at hquiet
      case isTrue => exact Bool.noConfusion hquiet
      case isFalse hc => rw [if_neg hc]
    rw [hstored, RationalI128.bits_mul]
    apply BitVec.toInt_mul_of_not_smulOverflow
    rw [BitVec.smulOverflow, Bool.or_eq_true, decide_eq_true_iff, decide_eq_true_iff]
    rw [FitsSigned] at hfits
    rintro (hover | hunder)
    · exact absurd hfits.2 (not_lt.mpr hover)
    · exact absurd hfits.1 (not_le.mpr hunder)

end Product

/-- The operations on two unsigned values, and on the first with a count, are those of 128-bit
words. -/
structure RationalU128.Native (u v : RationalU128) (shift : UInt32) : Prop where
  /-- `operator==`. -/
  eq : u.eq v = (u.bits == v.bits)
  /-- `operator!=`. -/
  ne : u.ne v = (u.bits != v.bits)
  /-- `operator<`. -/
  lt : u.lt v = u.bits.ult v.bits
  /-- `operator<=`. -/
  le : u.le v = u.bits.ule v.bits
  /-- `operator>`. -/
  gt : u.gt v = v.bits.ult u.bits
  /-- `operator+`. -/
  add : (u.add v).bits = u.bits + v.bits
  /-- `operator-` of two operands. -/
  sub : (u.sub v).bits = u.bits - v.bits
  /-- `operator-` of one operand. -/
  neg : u.neg.bits = -u.bits
  /-- `operator<<`. -/
  shl : (u.shl shift).bits = u.bits <<< shift.toNat
  /-- `operator>>`. -/
  shr : (u.shr shift).bits = u.bits >>> shift.toNat
  /-- `operator/`. -/
  div : v.bits ≠ 0 → (u.div v).bits = u.bits / v.bits
  /-- `operator%`. -/
  mod : v.bits ≠ 0 → (u.mod v).bits = u.bits % v.bits

/-- The operations on two signed values are those of 128-bit words. -/
structure RationalI128.Native (a b : RationalI128) : Prop where
  /-- `operator==`. -/
  eq : a.eq b = (a.bits == b.bits)
  /-- `operator!=`. -/
  ne : a.ne b = (a.bits != b.bits)
  /-- `operator<`. -/
  lt : a.lt b = a.bits.slt b.bits
  /-- `operator>`. -/
  gt : a.gt b = b.bits.slt a.bits
  /-- `operator>=`. -/
  ge : a.ge b = b.bits.sle a.bits
  /-- `operator+`. -/
  add : (a.add b).bits = a.bits + b.bits
  /-- `operator-` of two operands. -/
  sub : (a.sub b).bits = a.bits - b.bits
  /-- `operator-` of one operand. -/
  neg : a.neg.bits = -a.bits
  /-- `operator*`. -/
  mul : (a.mul b).bits = a.bits * b.bits
  /-- `operator/`. -/
  div : b.bits ≠ 0 → (a.div b).bits = a.bits.sdiv b.bits
  /-- `operator%`. -/
  mod : b.bits ≠ 0 → (a.mod b).bits = a.bits.srem b.bits

/-- The unsigned operations. -/
theorem RationalU128.native (u v : RationalU128) (shift : UInt32) : u.Native v shift where
  eq := u.eq_bits v
  ne := congrArg (!·) (u.eq_bits v)
  lt := u.lt_bits v
  le := by rw [RationalU128.le, v.lt_bits, BitVec.ule_eq_not_ult]
  gt := v.lt_bits u
  add := u.bits_add v
  sub := u.bits_sub v
  neg := u.bits_neg
  shl := u.bits_shl shift
  shr := u.bits_shr shift
  div := RationalU128.bits_divmod_fst
  mod := RationalU128.bits_divmod_snd

/-- The signed operations. -/
theorem RationalI128.native (a b : RationalI128) : a.Native b where
  eq := a.eq_bits b
  ne := congrArg (!·) (a.eq_bits b)
  lt := a.lt_bits b
  gt := b.lt_bits a
  ge := by rw [RationalI128.ge, a.lt_bits, BitVec.sle_eq_not_slt]
  add := a.bits_add b
  sub := a.bits_sub b
  neg := a.bits_neg
  mul := a.bits_mul b
  div := a.bits_div
  mod := a.bits_mod

/-- The two types do what the native ones do: every operation, and the checked sum and product
whatever `result` holds before. -/
structure Portable (u v : RationalU128) (shift : UInt32) (a b result : RationalI128) : Prop where
  /-- The unsigned operations. -/
  unsigned : u.Native v shift
  /-- The signed operations. -/
  signed : a.Native b
  /-- `arbc_add_overflow_i128`. -/
  add : Checks (addOverflow a b) (a.bits.toInt + b.bits.toInt)
  /-- `arbc_mul_overflow_i128`. -/
  mul : Checks (mulOverflow a b result) (a.bits.toInt * b.bits.toInt)

/-- On every operands the two types do what the native ones do, unless the product is one whose
overflow is hidden. -/
theorem portable_iff (u v : RationalU128) (shift : UInt32) (a b result : RationalI128) :
    Portable u v shift a b result ↔ ¬ Hidden a b := by
  rw [← mulOverflow_checks_iff a b result]
  constructor
  · exact Portable.mul
  · intro h
    exact ⟨u.native v shift, a.native b, addOverflow_checks a b, h⟩

/-- The product of 2^96 with itself is not reported. -/
theorem not_portable_two_pow_96 :
    ¬ ∀ (u v : RationalU128) (shift : UInt32) (a b result : RationalI128),
      Portable u v shift a b result := by
  intro h
  have hreport := (h {} {} 0 ⟨0, 2 ^ 32⟩ ⟨0, 2 ^ 32⟩ {}).mul.1.mpr (by decide +kernel)
  exact absurd hreport (by decide +kernel)

end PortableInt128

end ArbitraryComposer
