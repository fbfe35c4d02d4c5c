import Mathlib.Data.Fintype.EquivFin
import Mathlib.Tactic.Positivity

/-!
# Double-Precision Arithmetic on Bit Patterns

The binary64 format with its default rounding, to nearest with ties to even. A double is its bit
pattern. A finite double is an integral multiple of the least subnormal, so every operation
computes an exact integer or fraction in that unit and rounds once. All results that are not a
number are the one quiet pattern.

## Main definitions

- `Double`: a bit pattern, with `Double.units` the integer it stands for.
- `Double.round`: the double nearest to a fraction.
- `Double.add`, `sub`, `mul`, `div`, `sqrt`: the operations.
- `Double.lt`, `le`, `beq`, `min`, `max`: comparisons, false when an argument is not a number.
- `Double.ofInt`, `floorInt`, `ceilInt`: from and to integers.

## Main results

- `Double.lt_ofInt`: integers that fit the significand keep their order.
- `Double.units_le_units_iff`, `Double.units_ofInt`: units and places.
-/

/-- A double-precision number, as its bit pattern. -/
structure Double where
  /-- The bit pattern. -/
  bits : UInt64
  deriving DecidableEq, Repr

namespace Double

/-- The pattern without the sign. -/
def magnitude (x : Double) : ℕ := x.bits.toNat % 2 ^ 63

/-- The sign bit. -/
def negative (x : Double) : Bool := decide (2 ^ 63 ≤ x.bits.toNat)

/-- The magnitude of an infinity; patterns above are not numbers. -/
def infinityBits : ℕ := 0x7FF0000000000000

/-- `isnan`. -/
def isNaN (x : Double) : Bool := decide (infinityBits < x.magnitude)

/-- `isfinite`. -/
def isFinite (x : Double) : Bool := decide (x.magnitude < infinityBits)

/-- The value of a finite double in units of the least subnormal. -/
def units (x : Double) : ℤ :=
  let field := x.magnitude / 2 ^ 52
  let m := if field = 0 then x.magnitude else (2 ^ 52 + x.magnitude % 2 ^ 52) * 2 ^ (field - 1)
  if x.negative then -(m : ℤ) else m

/-- A pattern from its sign and its magnitude. -/
def ofBits (sign : Bool) (magnitude : ℕ) : Double :=
  ⟨.ofNat (magnitude + if sign then 2 ^ 63 else 0)⟩

/-- The quiet pattern that is not a number. -/
def nan : Double := ⟨0x7FF8000000000000⟩

/-- An infinity. -/
def infinity (sign : Bool) : Double := ofBits sign infinityBits

/-- The integer nearest to a fraction; of two, the even one. -/
def roundHalfEven (num den : ℕ) : ℕ :=
  if 2 * (num % den) < den ∨ (2 * (num % den) = den ∧ num / den % 2 = 0) then num / den
  else num / den + 1

/-- The double nearest to a fraction of the unit. A significand that rounds up to the next power
of two carries into the exponent, and an exponent that is too large gives an infinity. -/
def round (sign : Bool) (num den : ℕ) : Double :=
  let e := if num / den < 2 ^ 53 then 0 else (num / den).log2 - 52
  ofBits sign (Nat.min (e * 2 ^ 52 + roundHalfEven num (den * 2 ^ e)) infinityBits)

/-- Negation flips the sign bit. -/
def neg (x : Double) : Double := ofBits (!x.negative) x.magnitude

/-- Addition. An exact zero is negative when both arguments are. -/
def add (x y : Double) : Double :=
  if x.isNaN || y.isNaN then nan
  else if !x.isFinite then
    if !y.isFinite && x.negative != y.negative then nan else x
  else if !y.isFinite then y
  else if x.units + y.units = 0 then ofBits (x.negative && y.negative) 0
  else round (decide (x.units + y.units < 0)) (x.units + y.units).natAbs 1

/-- Subtraction. -/
def sub (x y : Double) : Double := add x (neg y)

/-- Multiplication. -/
def mul (x y : Double) : Double :=
  let sign := x.negative != y.negative
  if x.isNaN || y.isNaN then nan
  else if !x.isFinite || !y.isFinite then
    if x.magnitude = 0 ∨ y.magnitude = 0 then nan else infinity sign
  else round sign (x.units.natAbs * y.units.natAbs) (2 ^ 1074)

/-- Division. -/
def div (x y : Double) : Double :=
  let sign := x.negative != y.negative
  if x.isNaN || y.isNaN then nan
  else if !x.isFinite then
    if !y.isFinite then nan else infinity sign
  else if !y.isFinite then ofBits sign 0
  else if y.magnitude = 0 then
    if x.magnitude = 0 then nan else infinity sign
  else round sign (x.units.natAbs * 2 ^ 1074) y.units.natAbs

/-- The integral square root, by Newton's iteration from above; every turn halves the relative
error at least, so few turns are needed. -/
def isqrt (n : ℕ) : ℕ → ℕ → ℕ
  | 0, root => root
  | turns + 1, root =>
    if (root + n / root) / 2 < root then isqrt n turns ((root + n / root) / 2) else root

/-- The square root. The root is taken with a bit to spare, and a last bit says whether it was
exact. -/
def sqrt (x : Double) : Double :=
  if x.isNaN then nan
  else if x.magnitude = 0 then x
  else if x.negative then nan
  else if !x.isFinite then x
  else
    let n := 4 * (x.units.natAbs * 2 ^ 1074)
    let root := isqrt n 64 (2 ^ (n.log2 / 2 + 1))
    round false (2 * root + if root * root = n then 0 else 1) 4

/-- The place of a number in the order. -/
def key (x : Double) : ℤ := if x.negative then -(x.magnitude : ℤ) else x.magnitude

/-- `<`. -/
def lt (x y : Double) : Bool := !x.isNaN && !y.isNaN && decide (x.key < y.key)

/-- `<=`. -/
def le (x y : Double) : Bool := !x.isNaN && !y.isNaN && decide (x.key ≤ y.key)

/-- `==`. -/
def beq (x y : Double) : Bool := !x.isNaN && !y.isNaN && decide (x.key = y.key)

/-- `std::min`. -/
def min (x y : Double) : Double := if y.lt x then y else x

/-- `std::max`. -/
def max (x y : Double) : Double := if x.lt y then y else x

/-- The double nearest to an integer. -/
def ofInt (z : ℤ) : Double := round (decide (z < 0)) (z.natAbs * 2 ^ 1074) 1

/-- The integer below a finite double, for `floor`. -/
def floorInt (x : Double) : ℤ := x.units / 2 ^ 1074

/-- The integer above a finite double, for `ceil`. -/
def ceilInt (x : Double) : ℤ := -(-x.units / 2 ^ 1074)

instance : Zero Double := ⟨⟨0⟩⟩
instance : One Double := ⟨⟨0x3FF0000000000000⟩⟩
instance : Neg Double := ⟨neg⟩
instance : Add Double := ⟨add⟩
instance : Sub Double := ⟨sub⟩
instance : Mul Double := ⟨mul⟩
instance : Div Double := ⟨div⟩

/-- There are finitely many bit patterns. -/
instance : Finite Double :=
  Finite.of_injective (fun x : Double => x.bits.toFin) fun x y h => by
    cases x
    cases y
    exact congrArg mk (UInt64.toFin_inj.mp h)

example : (1 + 1 : Double) = ofInt 2 ∧ (1 / ofInt 3 : Double) = ⟨0x3FD5555555555555⟩ ∧
    sqrt (ofInt 2) = ⟨0x3FF6A09E667F3BCD⟩ := by decide +kernel

/-! ## Integers -/

/-- A pattern without a sign is its own magnitude. -/
private theorem magnitude_ofBits {m : ℕ} (h : m < 2 ^ 63) :
    (ofBits false m).magnitude = m ∧ (ofBits false m).negative = false := by
  have hbits : (ofBits false m).bits.toNat = m := by
    change (m + 0) % 2 ^ 64 = m
    rw [Nat.add_zero, Nat.mod_eq_of_lt (h.trans (by decide))]
  constructor
  · rw [magnitude, hbits, Nat.mod_eq_of_lt h]
  · rw [negative, hbits]
    exact decide_eq_false (Nat.not_le.mpr h)

/-- A pattern up to the infinity is a number, and its own place in the order. -/
theorem key_ofBits {m : ℕ} (h : m ≤ infinityBits) :
    (ofBits false m).key = m ∧ (ofBits false m).isNaN = false := by
  obtain ⟨hmag, hneg⟩ := magnitude_ofBits (h.trans_lt (by decide))
  constructor
  · rw [key, hneg, hmag]
    rfl
  · rw [isNaN, hmag, decide_eq_false (Nat.not_lt.mpr h)]

private theorem log2_mul_two_pow {z : ℕ} (hz : z ≠ 0) (k : ℕ) :
    (z * 2 ^ k).log2 = z.log2 + k := by
  rw [Nat.log2_eq_iff (Nat.mul_ne_zero hz (by positivity)), Nat.add_right_comm, pow_add, pow_add]
  exact ⟨Nat.mul_le_mul_right _ (Nat.log2_self_le hz),
    Nat.mul_lt_mul_of_pos_right Nat.lt_log2_self (by positivity)⟩

private theorem two_pow_le_div {z s t k : ℕ} (hz : z ≠ 0) (h : s + t = z.log2 + k) :
    2 ^ s ≤ z * 2 ^ k / 2 ^ t := by
  rw [Nat.le_div_iff_mul_le (by positivity), ← pow_add, h, pow_add]
  exact Nat.mul_le_mul_right _ (Nat.log2_self_le hz)

private theorem two_pow_le_mul {z s k : ℕ} (hz : z ≠ 0) (h : s ≤ k) : 2 ^ s ≤ z * 2 ^ k :=
  (Nat.pow_le_pow_right (by decide) h).trans (Nat.le_mul_of_pos_left _ (Nat.pos_of_ne_zero hz))

private theorem mul_two_pow_lt {z s t : ℕ} (h : z.log2 + 1 + s = t) : z * 2 ^ s < 2 ^ t := by
  rw [← h, pow_add]
  exact Nat.mul_lt_mul_of_pos_right Nat.lt_log2_self (by positivity)

private theorem roundHalfEven_ge (num den : ℕ) : num / den ≤ roundHalfEven num den := by
  unfold roundHalfEven
  split <;> omega

/-- A fraction that is an integer is not rounded. -/
private theorem roundHalfEven_mul {q den : ℕ} (hden : den ≠ 0) :
    roundHalfEven (q * den) den = q := by
  rw [roundHalfEven, Nat.mul_mod_left, Nat.mul_div_cancel _ (Nat.pos_of_ne_zero hden),
    if_pos (Or.inl (by omega))]

/-- The pattern of a positive integer, before the infinity caps it. -/
private def naturalBits (z : ℕ) : ℕ :=
  (z.log2 + 1022) * 2 ^ 52 + roundHalfEven (z * 2 ^ 1074) (2 ^ (z.log2 + 1022))

private theorem ofInt_natCast {z : ℕ} (hz : z ≠ 0) :
    ofInt z = ofBits false (Nat.min (naturalBits z) infinityBits) := by
  have hbig : ¬ z * 2 ^ 1074 < 2 ^ 53 := Nat.not_lt.mpr (two_pow_le_mul hz (by omega))
  have hneg : decide ((z : ℤ) < 0) = false := decide_eq_false (by omega)
  have hexp : z.log2 + 1074 - 52 = z.log2 + 1022 := by omega
  simp only [ofInt, round, hneg, Int.natAbs_natCast, Nat.div_one, if_neg hbig,
    log2_mul_two_pow hz, one_mul, hexp, naturalBits]

private theorem naturalBits_ge {z : ℕ} (hz : z ≠ 0) :
    (z.log2 + 1023) * 2 ^ 52 ≤ naturalBits z := by
  have hdiv : 2 ^ 52 ≤ z * 2 ^ 1074 / 2 ^ (z.log2 + 1022) := two_pow_le_div hz (by omega)
  have hnext : z.log2 + 1023 = z.log2 + 1022 + 1 := by omega
  rw [naturalBits, hnext, Nat.succ_mul]
  exact Nat.add_le_add_left (hdiv.trans (roundHalfEven_ge _ _)) _

private theorem naturalBits_eq {z : ℕ} (hlog : z.log2 ≤ 52) :
    naturalBits z = (z.log2 + 1022) * 2 ^ 52 + z * 2 ^ (52 - z.log2) := by
  have hsplit : (1074 : ℕ) = 52 - z.log2 + (z.log2 + 1022) := by omega
  rw [naturalBits, hsplit, pow_add, ← mul_assoc, roundHalfEven_mul (by positivity)]

private theorem naturalBits_lt {z : ℕ} (hlog : z.log2 ≤ 52) :
    naturalBits z < (z.log2 + 1024) * 2 ^ 52 := by
  have hlt : z * 2 ^ (52 - z.log2) < 2 ^ 53 := mul_two_pow_lt (by omega)
  rw [naturalBits_eq hlog]
  generalize z * 2 ^ (52 - z.log2) = r at hlt ⊢
  omega

private theorem naturalBits_lt_infinityBits {z : ℕ} (hlog : z.log2 ≤ 52) :
    naturalBits z < infinityBits := by
  have hlt := naturalBits_lt hlog
  have hcap : 1076 * 2 ^ 52 < infinityBits := by decide
  omega

private theorem naturalBits_pos {z : ℕ} (hz : z ≠ 0) : 0 < naturalBits z := by
  have hge := naturalBits_ge hz
  omega

/-- Integers that fit 53 bits are in their order, and below all greater ones. -/
private theorem naturalBits_lt_naturalBits {a b : ℕ} (ha : a ≠ 0) (hab : a < b)
    (hlog : a.log2 ≤ 52) : naturalBits a < naturalBits b := by
  have hb : b ≠ 0 := by omega
  have hle : a.log2 ≤ b.log2 := (Nat.le_log2 hb).mpr ((Nat.log2_self_le ha).trans hab.le)
  rcases hle.eq_or_lt with heq | hlt
  · rw [naturalBits_eq hlog, naturalBits_eq (heq ▸ hlog), heq]
    exact Nat.add_lt_add_left (Nat.mul_lt_mul_of_pos_right hab (by positivity)) _
  · have hltA := naturalBits_lt hlog
    have hgeB := naturalBits_ge hb
    omega

/-- Integers that fit 53 bits keep their order as doubles, also to integers that do not fit. -/
theorem lt_ofInt {a b : ℤ} (ha : 0 ≤ a) (hab : a < b) (h : a < 2 ^ 53) :
    (ofInt a).lt (ofInt b) = true := by
  obtain ⟨a, rfl⟩ := Int.eq_ofNat_of_zero_le ha
  obtain ⟨b, rfl⟩ := Int.eq_ofNat_of_zero_le (ha.trans hab.le)
  have hb : b ≠ 0 := by omega
  obtain ⟨keyB, nanB⟩ := key_ofBits (Nat.min_le_right (naturalBits b) infinityBits)
  rw [← ofInt_natCast hb] at keyB nanB
  rcases Nat.eq_zero_or_pos a with rfl | ha
  · have zero : ofInt ((0 : ℕ) : ℤ) = ofBits false 0 := by decide +kernel
    obtain ⟨keyA, nanA⟩ := key_ofBits (Nat.zero_le infinityBits)
    have hmin : 0 < Nat.min (naturalBits b) infinityBits :=
      Nat.lt_min.mpr ⟨naturalBits_pos hb, by decide⟩
    rw [zero, lt, nanA, nanB, keyA, keyB]
    simp only [Bool.not_false, Bool.true_and, decide_eq_true_eq]
    exact Int.ofNat_lt.mpr hmin
  · obtain ⟨keyA, nanA⟩ := key_ofBits (Nat.min_le_right (naturalBits a) infinityBits)
    rw [← ofInt_natCast ha.ne'] at keyA nanA
    have hlog : a.log2 ≤ 52 := Nat.lt_succ_iff.mp ((Nat.log2_lt ha.ne').mpr (by omega))
    have hfinite := naturalBits_lt_infinityBits hlog
    have hlt := naturalBits_lt_naturalBits ha.ne' (by omega : a < b) hlog
    have hmin : Nat.min (naturalBits a) infinityBits < Nat.min (naturalBits b) infinityBits := by
      rw [show Nat.min (naturalBits a) infinityBits = naturalBits a from Nat.min_eq_left hfinite.le]
      exact Nat.lt_min.mpr ⟨hlt, hfinite⟩
    rw [lt, nanA, nanB, keyA, keyB]
    simp only [Bool.not_false, Bool.true_and, decide_eq_true_eq]
    exact Int.ofNat_lt.mpr hmin

/-! ## Units -/

/-- The units of a magnitude. -/
private def magnitudeUnits (m : ℕ) : ℕ :=
  if m / 2 ^ 52 = 0 then m else (2 ^ 52 + m % 2 ^ 52) * 2 ^ (m / 2 ^ 52 - 1)

private theorem units_eq (x : Double) : x.units =
    if x.negative then -(magnitudeUnits x.magnitude : ℤ) else magnitudeUnits x.magnitude := rfl

/-- A greater magnitude stands for more units. -/
private theorem magnitudeUnits_lt {m n : ℕ} (h : m < n) : magnitudeUnits m < magnitudeUnits n := by
  unfold magnitudeUnits
  have hm := Nat.div_add_mod m (2 ^ 52)
  have hn := Nat.div_add_mod n (2 ^ 52)
  have hmr := Nat.mod_lt m (show 2 ^ 52 > 0 by decide)
  have hnr := Nat.mod_lt n (show 2 ^ 52 > 0 by decide)
  have hle : m / 2 ^ 52 ≤ n / 2 ^ 52 := Nat.div_le_div_right h.le
  generalize m / 2 ^ 52 = p at *
  generalize n / 2 ^ 52 = q at *
  generalize m % 2 ^ 52 = r at *
  generalize n % 2 ^ 52 = s at *
  rcases hle.eq_or_lt with rfl | hlt
  · have hrs : r < s := by omega
    split
    · omega
    · exact Nat.mul_lt_mul_of_pos_right (by omega) (by positivity)
  · obtain ⟨k, rfl⟩ : ∃ k, q = k + 1 := ⟨q - 1, by omega⟩
    rw [if_neg (Nat.succ_ne_zero k), Nat.add_sub_cancel]
    have hone : 2 ^ 52 ≤ (2 ^ 52 + s) * 2 ^ k :=
      (Nat.le_mul_of_pos_right _ (by positivity)).trans (Nat.mul_le_mul_right _ (by omega))
    split
    · exact Nat.lt_of_lt_of_le (by omega) hone
    · obtain ⟨j, rfl⟩ : ∃ j, p = j + 1 := ⟨p - 1, by omega⟩
      rw [Nat.add_sub_cancel]
      calc (2 ^ 52 + r) * 2 ^ j < 2 ^ 53 * 2 ^ j :=
            Nat.mul_lt_mul_of_pos_right (by omega) (by positivity)
        _ = 2 ^ 52 * 2 ^ (j + 1) := by rw [← pow_add, ← pow_add, Nat.add_comm j 1, ← Nat.add_assoc]
        _ ≤ 2 ^ 52 * 2 ^ k := Nat.mul_le_mul_left _ (Nat.pow_le_pow_right (by decide) (by omega))
        _ ≤ (2 ^ 52 + s) * 2 ^ k := Nat.mul_le_mul_right _ (by omega)

private theorem magnitudeUnits_le_iff {m n : ℕ} :
    magnitudeUnits m ≤ magnitudeUnits n ↔ m ≤ n := by
  constructor
  · intro h
    by_contra hlt
    have hlt := magnitudeUnits_lt (Nat.not_le.mp hlt)
    omega
  · intro h
    rcases h.eq_or_lt with rfl | h
    · exact Nat.le_refl _
    · exact (magnitudeUnits_lt h).le

/-- The places of doubles are in the order of their units. -/
theorem units_le_units_iff {x y : Double} : x.units ≤ y.units ↔ x.key ≤ y.key := by
  have hle := magnitudeUnits_le_iff (m := x.magnitude) (n := y.magnitude)
  have hge := magnitudeUnits_le_iff (m := y.magnitude) (n := x.magnitude)
  have hx := magnitudeUnits_le_iff (m := x.magnitude) (n := 0)
  have hy := magnitudeUnits_le_iff (m := y.magnitude) (n := 0)
  have hzero : magnitudeUnits 0 = 0 := rfl
  rw [units_eq, units_eq, key, key]
  split <;> split <;> omega

/-- The units of a magnitude that is not subnormal. -/
private theorem magnitudeUnits_normal {p r : ℕ} (hr : r < 2 ^ 52) :
    magnitudeUnits (p * 2 ^ 52 + (2 ^ 52 + r)) = (2 ^ 52 + r) * 2 ^ p := by
  have hdiv : (p * 2 ^ 52 + (2 ^ 52 + r)) / 2 ^ 52 = p + 1 := by omega
  have hmod : (p * 2 ^ 52 + (2 ^ 52 + r)) % 2 ^ 52 = r := by omega
  rw [magnitudeUnits, hdiv, hmod, if_neg (Nat.succ_ne_zero p), Nat.add_sub_cancel]

/-- The significand of a positive integer that fits it. -/
private theorem significand_bounds {z : ℕ} (hz : z ≠ 0) (hlog : z.log2 ≤ 52) :
    2 ^ 52 ≤ z * 2 ^ (52 - z.log2) ∧ z * 2 ^ (52 - z.log2) < 2 ^ 53 := by
  constructor
  · calc 2 ^ 52 = 2 ^ z.log2 * 2 ^ (52 - z.log2) := by
          rw [← pow_add, Nat.add_sub_cancel' hlog]
      _ ≤ z * 2 ^ (52 - z.log2) := Nat.mul_le_mul_right _ (Nat.log2_self_le hz)
  · exact mul_two_pow_lt (by omega)

private theorem magnitudeUnits_significand {m p : ℕ} (hge : 2 ^ 52 ≤ m) (hlt : m < 2 ^ 53) :
    magnitudeUnits (p * 2 ^ 52 + m) = m * 2 ^ p := by
  obtain ⟨r, rfl⟩ := Nat.exists_eq_add_of_le hge
  exact magnitudeUnits_normal (by omega)

private theorem magnitudeUnits_naturalBits {z : ℕ} (hz : z ≠ 0) (hlog : z.log2 ≤ 52) :
    magnitudeUnits (naturalBits z) = z * 2 ^ 1074 := by
  have hexp : 52 - z.log2 + (z.log2 + 1022) = 1074 := by omega
  obtain ⟨hge, hlt⟩ := significand_bounds hz hlog
  rw [naturalBits_eq hlog, magnitudeUnits_significand hge hlt, Nat.mul_assoc, ← pow_add]
  exact congrArg (z * 2 ^ ·) hexp

/-- An integer that fits the significand is a multiple of the unit. -/
theorem units_ofInt {z : ℕ} (h : z < 2 ^ 53) :
    (ofInt z).units = z * 2 ^ 1074 ∧ (ofInt z).isNaN = false ∧ (ofInt z).isFinite = true ∧
      (ofInt z).negative = false := by
  rcases Nat.eq_zero_or_pos z with rfl | hz
  · rw [show ofInt ((0 : ℕ) : ℤ) = ofBits false 0 by decide +kernel, Nat.cast_zero, zero_mul]
    exact ⟨by decide +kernel, by decide +kernel⟩
  · have hlog : z.log2 ≤ 52 := Nat.lt_succ_iff.mp ((Nat.log2_lt hz.ne').mpr (by omega))
    have hfinite := naturalBits_lt_infinityBits hlog
    obtain ⟨hmag, hneg⟩ := magnitude_ofBits (hfinite.trans (show infinityBits < 2 ^ 63 by decide))
    rw [ofInt_natCast hz.ne', show Nat.min (naturalBits z) infinityBits = naturalBits z from
        Nat.min_eq_left hfinite.le]
    refine ⟨?_, ?_, ?_, hneg⟩
    · rw [units_eq, hneg, hmag, magnitudeUnits_naturalBits hz.ne' hlog,
        if_neg Bool.false_ne_true, Nat.cast_mul, Nat.cast_pow, Nat.cast_ofNat]
    · rw [isNaN, hmag]
      exact decide_eq_false (by omega)
    · rw [isFinite, hmag]
      exact decide_eq_true hfinite

/-- An integer that is not positive is a number that is not above zero. -/
theorem key_ofInt_nonpos {z : ℤ} (h : z ≤ 0) : (ofInt z).key ≤ 0 ∧ (ofInt z).isNaN = false := by
  rcases h.eq_or_lt with rfl | h
  · decide +kernel
  · have hround : ∀ num den, ∃ m ≤ infinityBits, round true num den = ofBits true m :=
      fun _ _ => ⟨_, Nat.min_le_right _ _, rfl⟩
    obtain ⟨m, hm, hz⟩ := hround (z.natAbs * 2 ^ 1074) 1
    rw [← decide_eq_true h] at hz
    have hlt : m < 2 ^ 63 := hm.trans_lt (by decide)
    have hbits : (ofBits true m).bits.toNat = m + 2 ^ 63 := by
      rw [ofBits, UInt64.toNat_ofNat', if_pos rfl, Nat.mod_eq_of_lt (by omega)]
    have hneg : (ofBits true m).negative = true := by
      rw [negative, hbits]
      exact decide_eq_true (Nat.le_add_left _ _)
    have hmag : (ofBits true m).magnitude = m := by
      rw [magnitude, hbits, Nat.add_mod_right, Nat.mod_eq_of_lt hlt]
    rw [ofInt, hz, decide_eq_true h, key, hneg, isNaN, hmag]
    exact ⟨neg_nonpos.mpr (Int.natCast_nonneg m), decide_eq_false (Nat.not_lt.mpr hm)⟩

end Double
