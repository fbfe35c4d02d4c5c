import ArbitraryComposer.ToMathlib.DoubleOrder
import Mathlib.Tactic.Ring
import Mathlib.Tactic.Zify

/-!
# Rounding of Doubles

The result of an operation on finite doubles is the exact result, rounded. Rounding keeps the
order, and what a double stands for is not rounded. So an operation is monotone, and it is exact
where its result is a significand times a power of two.

## Main definitions

- `Double.roundKey`: the place of a rounded fraction of the unit.

## Main results

- `Double.roundKey_mono`, `Double.roundKey_units`: rounding keeps the order and all doubles.
- `Double.key_add`, `key_sub`, `key_mul`, `key_div`: the operations round.
- `Double.sub_le_sub`, `Double.mul_le_mul`: the operations are monotone.
-/

namespace Double

variable {x y z : Double}

/-! ## Rounding to an integer -/

private theorem roundHalfEven_bounds (num den : ℕ) :
    num / den ≤ roundHalfEven num den ∧ roundHalfEven num den ≤ num / den + 1 := by
  unfold roundHalfEven
  split <;> omega

private theorem roundHalfEven_of_dvd (q : ℕ) {den : ℕ} (hden : 0 < den) :
    roundHalfEven (q * den) den = q := by
  rw [roundHalfEven, Nat.mul_mod_left, Nat.mul_div_cancel _ hden, if_pos (Or.inl (by omega))]

/-- A fraction that is not above another one is not rounded above it. -/
private theorem roundHalfEven_mono {num den num' den' : ℕ} (hden : 0 < den) (hden' : 0 < den')
    (h : num * den' ≤ num' * den) : roundHalfEven num den ≤ roundHalfEven num' den' := by
  have hle : num / den ≤ num' / den' := by
    rw [Nat.le_div_iff_mul_le hden']
    refine Nat.le_of_mul_le_mul_right (Nat.le_trans ?_ h) hden
    calc num / den * den' * den = num / den * den * den' := by ring
      _ ≤ num * den' := Nat.mul_le_mul_right _ (Nat.div_mul_le_self num den)
  rcases hle.lt_or_eq with hlt | heq
  · exact Nat.le_trans (roundHalfEven_bounds num den).2
      (Nat.le_trans hlt (roundHalfEven_bounds num' den').1)
  · -- the integral parts agree, so the remainders are in order
    have hrest : num % den * den' ≤ num' % den' * den := by
      have hnum := Nat.div_add_mod num den
      have hnum' := Nat.div_add_mod num' den'
      have hsame : den * (num / den) * den' = den' * (num' / den') * den := by
        rw [heq]
        ring
      have hsum : den * (num / den) * den' + num % den * den' ≤
          den' * (num' / den') * den + num' % den' * den := by
        rw [← Nat.add_mul, ← Nat.add_mul, hnum, hnum']
        exact h
      omega
    unfold roundHalfEven
    rw [← heq]
    split
    case isTrue => split <;> omega
    case isFalse hup =>
      split
      case isFalse => exact Nat.le_refl _
      case isTrue hdown =>
        refine absurd ?_ hup
        have hrest2 : 2 * (num % den) * den' ≤ 2 * (num' % den') * den := by
          rw [Nat.mul_assoc, Nat.mul_assoc]
          exact Nat.mul_le_mul_left 2 hrest
        rcases hdown with hdown | ⟨htie, heven⟩
        · refine Or.inl (Nat.lt_of_mul_lt_mul_right (a := den') (Nat.lt_of_le_of_lt hrest2 ?_))
          rw [Nat.mul_comm den]
          exact Nat.mul_lt_mul_of_pos_right hdown hden
        · rw [htie, Nat.mul_comm den'] at hrest2
          rcases (Nat.le_of_mul_le_mul_right hrest2 hden').lt_or_eq with hlt | htie'
          · exact Or.inl hlt
          · exact Or.inr ⟨htie', heven⟩

/-! ## Rounding to a pattern -/

/-- The exponent of a rounded fraction. -/
private def exponentOf (q : ℕ) : ℕ := if q < 2 ^ 53 then 0 else q.log2 - 52

/-- The magnitude of a rounded fraction, before the infinity caps it. -/
private def uncapped (num den : ℕ) : ℕ :=
  exponentOf (num / den) * 2 ^ 52 + roundHalfEven num (den * 2 ^ exponentOf (num / den))

/-- The magnitude of a rounded fraction of the unit. -/
def roundMagnitude (num den : ℕ) : ℕ :=
  let e := if num / den < 2 ^ 53 then 0 else (num / den).log2 - 52
  Nat.min (e * 2 ^ 52 + roundHalfEven num (den * 2 ^ e)) infinityBits

theorem round_eq (sign : Bool) (num den : ℕ) :
    round sign num den = ofBits sign (roundMagnitude num den) := rfl

private theorem roundMagnitude_eq (num den : ℕ) :
    roundMagnitude num den = Nat.min (uncapped num den) infinityBits := rfl

private theorem exponentOf_mono {q q' : ℕ} (h : q ≤ q') : exponentOf q ≤ exponentOf q' := by
  unfold exponentOf
  split
  case isTrue => exact Nat.zero_le _
  case isFalse hq =>
    have hq' : ¬ q' < 2 ^ 53 := by omega
    rw [if_neg hq']
    exact Nat.sub_le_sub_right
      ((Nat.le_log2 (by omega)).mpr (Nat.le_trans (Nat.log2_self_le (by omega)) h)) _

/-- The significand of a fraction has at most 53 bits. -/
private theorem div_exponentOf_lt (q : ℕ) : q / 2 ^ exponentOf q < 2 ^ 53 := by
  unfold exponentOf
  split
  case isTrue hq => rwa [pow_zero, Nat.div_one]
  case isFalse hq =>
    have hlog : 53 ≤ q.log2 := (Nat.le_log2 (by omega)).mpr (Nat.not_lt.mp hq)
    rw [Nat.div_lt_iff_lt_mul (by positivity), ← pow_add,
      show 53 + (q.log2 - 52) = q.log2 + 1 by omega]
    exact Nat.lt_log2_self

/-- The significand of a fraction with an exponent has all of them. -/
private theorem le_div_exponentOf {q : ℕ} (h : 0 < exponentOf q) :
    2 ^ 52 ≤ q / 2 ^ exponentOf q := by
  unfold exponentOf at h ⊢
  split at h
  case isTrue => exact absurd h (Nat.lt_irrefl 0)
  case isFalse hq =>
    rw [if_neg hq, Nat.le_div_iff_mul_le (by positivity), ← pow_add,
      show 52 + (q.log2 - 52) = q.log2 by omega]
    exact Nat.log2_self_le (by omega)

private theorem uncapped_mono {num den num' den' : ℕ} (hden : 0 < den) (hden' : 0 < den')
    (h : num * den' ≤ num' * den) : uncapped num den ≤ uncapped num' den' := by
  have hle : num / den ≤ num' / den' := by
    rw [Nat.le_div_iff_mul_le hden']
    refine Nat.le_of_mul_le_mul_right (Nat.le_trans ?_ h) hden
    calc num / den * den' * den = num / den * den * den' := by ring
      _ ≤ num * den' := Nat.mul_le_mul_right _ (Nat.div_mul_le_self num den)
  unfold uncapped
  rcases (exponentOf_mono hle).lt_or_eq with hlt | heq
  · have hupper := (roundHalfEven_bounds num (den * 2 ^ exponentOf (num / den))).2
    have hlower := (roundHalfEven_bounds num' (den' * 2 ^ exponentOf (num' / den'))).1
    rw [← Nat.div_div_eq_div_mul] at hupper hlower
    have hsmall := div_exponentOf_lt (num / den)
    have hlarge := le_div_exponentOf (Nat.lt_of_le_of_lt (Nat.zero_le _) hlt)
    generalize exponentOf (num / den) = e at *
    generalize exponentOf (num' / den') = e' at *
    omega
  · rw [heq]
    apply Nat.add_le_add_left
    apply roundHalfEven_mono (by positivity) (by positivity)
    calc num * (den' * 2 ^ exponentOf (num' / den')) =
          num * den' * 2 ^ exponentOf (num' / den') := by ring
      _ ≤ num' * den * 2 ^ exponentOf (num' / den') := Nat.mul_le_mul_right _ h
      _ = num' * (den * 2 ^ exponentOf (num' / den')) := by ring

/-- A fraction that is not above another one is not rounded above it. -/
theorem roundMagnitude_mono {num den num' den' : ℕ} (hden : 0 < den) (hden' : 0 < den')
    (h : num * den' ≤ num' * den) : roundMagnitude num den ≤ roundMagnitude num' den' := by
  rw [roundMagnitude_eq, roundMagnitude_eq]
  exact Nat.le_min.mpr ⟨Nat.le_trans (Nat.min_le_left _ _) (uncapped_mono hden hden' h),
    Nat.min_le_right _ _⟩

theorem roundMagnitude_le (num den : ℕ) : roundMagnitude num den ≤ infinityBits :=
  Nat.min_le_right _ _

/-- A fraction vanishes when it is at most half of the unit. -/
theorem roundMagnitude_eq_zero_iff {num den : ℕ} (hden : 0 < den) :
    roundMagnitude num den = 0 ↔ 2 * num ≤ den := by
  have hcap : ∀ {m : ℕ}, Nat.min m infinityBits = 0 ↔ m = 0 := by
    intro m
    have hpos : 0 < infinityBits := by decide
    exact ⟨fun h => (Nat.min_eq_zero_iff.mp h).resolve_right hpos.ne', fun h => by rw [h]; rfl⟩
  rw [roundMagnitude_eq, hcap, uncapped]
  constructor
  · intro h
    by_contra hlt
    obtain ⟨hexp, hround⟩ := Nat.add_eq_zero_iff.mp h
    have hzero : exponentOf (num / den) = 0 := by omega
    rw [hzero, pow_zero, Nat.mul_one] at hround
    have hge := (roundHalfEven_bounds num den).1
    have hsmall : num < den := by
      by_contra hle
      have hone : 1 ≤ num / den := (Nat.one_le_div_iff hden).mpr (Nat.not_lt.mp hle)
      omega
    unfold roundHalfEven at hround
    rw [Nat.mod_eq_of_lt hsmall, Nat.div_eq_of_lt hsmall] at hround
    split at hround <;> omega
  · intro h
    have hsmall : num < den := by omega
    have hdiv : num / den = 0 := Nat.div_eq_of_lt hsmall
    rw [hdiv, exponentOf, if_pos (by decide), Nat.zero_mul, Nat.zero_add, pow_zero, Nat.mul_one]
    unfold roundHalfEven
    rw [Nat.mod_eq_of_lt hsmall, hdiv]
    split <;> omega

/-- What a finite double stands for is not rounded. -/
theorem roundMagnitude_units (hx : x.isFinite = true) : roundMagnitude x.units.natAbs 1 =
    x.magnitude := by
  have hcap : x.magnitude < infinityBits := of_decide_eq_true hx
  have hnat : x.units.natAbs = if x.magnitude / 2 ^ 52 = 0 then x.magnitude
      else (2 ^ 52 + x.magnitude % 2 ^ 52) * 2 ^ (x.magnitude / 2 ^ 52 - 1) := by
    show (if x.negative then _ else _ : ℤ).natAbs = _
    split
    · rw [Int.natAbs_neg]
      exact Int.natAbs_natCast _
    · exact Int.natAbs_natCast _
  have hparts := Nat.div_add_mod x.magnitude (2 ^ 52)
  have hrest := Nat.mod_lt x.magnitude (show 2 ^ 52 > 0 by decide)
  have hmain : uncapped x.units.natAbs 1 = x.magnitude := by
    rw [uncapped, Nat.div_one, Nat.one_mul, hnat]
    generalize x.magnitude = m at *
    generalize m / 2 ^ 52 = field at *
    generalize m % 2 ^ 52 = r at *
    split
    case isTrue hzero =>
      subst hzero
      have hsmall : m < 2 ^ 53 := by omega
      rw [exponentOf, if_pos hsmall, pow_zero, Nat.zero_mul, Nat.zero_add]
      simpa using roundHalfEven_of_dvd m Nat.one_pos
    case isFalse hfield =>
      obtain ⟨p, rfl⟩ : ∃ p, field = p + 1 := ⟨field - 1, by omega⟩
      rw [Nat.add_sub_cancel]
      have hexp : exponentOf ((2 ^ 52 + r) * 2 ^ p) = p := by
        rcases Nat.eq_zero_or_pos p with rfl | hp
        · rw [exponentOf, pow_zero, Nat.mul_one, if_pos (by omega)]
        · have hlog : ((2 ^ 52 + r) * 2 ^ p).log2 = 52 + p := by
            rw [Nat.log2_eq_iff (by positivity), pow_add, Nat.add_right_comm, pow_add]
            exact ⟨Nat.mul_le_mul_right _ (Nat.le_add_right _ _),
              Nat.mul_lt_mul_of_pos_right (by omega) (by positivity)⟩
          have hbig : ¬ (2 ^ 52 + r) * 2 ^ p < 2 ^ 53 := by
            have htwo : 2 ≤ 2 ^ p := Nat.le_self_pow (by omega) 2
            have hmul := Nat.mul_le_mul (Nat.le_add_right (2 ^ 52) r) htwo
            omega
          rw [exponentOf, if_neg hbig, hlog]
          omega
      rw [hexp, roundHalfEven_of_dvd _ (by positivity)]
      omega
  rw [roundMagnitude_eq, hmain]
  exact Nat.min_eq_left hcap.le

/-- Common factors do not matter. -/
theorem roundMagnitude_mul {num den c : ℕ} (hden : 0 < den) (hc : 0 < c) :
    roundMagnitude (num * c) (den * c) = roundMagnitude num den := by
  have hdenc : 0 < den * c := Nat.mul_pos hden hc
  apply Nat.le_antisymm
  · exact roundMagnitude_mono hdenc hden (Nat.le_of_eq (by ring))
  · exact roundMagnitude_mono hden hdenc (Nat.le_of_eq (by ring))

/-! ## Places of patterns -/

private theorem magnitude_ofBits_sign (sign : Bool) {m : ℕ} (h : m ≤ infinityBits) :
    (ofBits sign m).magnitude = m ∧ (ofBits sign m).negative = sign := by
  have hlt : m < 2 ^ 63 := Nat.lt_of_le_of_lt h (by decide)
  have hbits : (ofBits sign m).bits.toNat = m + if sign then 2 ^ 63 else 0 := by
    rw [ofBits, UInt64.toNat_ofNat', Nat.mod_eq_of_lt]
    split <;> omega
  constructor
  · rw [magnitude, hbits]
    split <;> omega
  · rw [negative, hbits]
    cases sign
    · exact decide_eq_false (Nat.not_le.mpr hlt)
    · exact decide_eq_true (Nat.le_add_left _ _)

/-- A pattern up to the infinity is a number, and its own place up to the sign. -/
theorem key_ofBits_sign (sign : Bool) {m : ℕ} (h : m ≤ infinityBits) :
    (ofBits sign m).key = (if sign then -(m : ℤ) else m) ∧ (ofBits sign m).isNaN = false := by
  obtain ⟨hmag, hneg⟩ := magnitude_ofBits_sign sign h
  constructor
  · rw [key, hneg, hmag]
  · rw [isNaN, hmag]
    exact decide_eq_false (Nat.not_lt.mpr h)

theorem units_zero : (0 : Double).units = 0 := by decide +kernel

theorem key_zero : (0 : Double).key = 0 := by decide +kernel

theorem units_nonpos_iff : x.units ≤ 0 ↔ x.key ≤ 0 := by
  have h := units_le_units_iff (x := x) (y := 0)
  rwa [units_zero, key_zero] at h

theorem units_nonneg_iff : 0 ≤ x.units ↔ 0 ≤ x.key := by
  have h := units_le_units_iff (x := 0) (y := x)
  rwa [units_zero, key_zero] at h

theorem units_pos_iff : 0 < x.units ↔ 0 < x.key := by
  rw [← not_le, units_nonpos_iff, not_le]

theorem units_lt_units_iff : x.units < y.units ↔ x.key < y.key := by
  rw [← not_le, units_le_units_iff, not_le]

theorem units_eq_units_iff : x.units = y.units ↔ x.key = y.key := by
  rw [le_antisymm_iff, units_le_units_iff, units_le_units_iff, ← le_antisymm_iff]

/-- The sign bit of a double that is not zero. -/
theorem negative_of_units_ne (h : x.units ≠ 0) : x.negative = decide (x.units < 0) := by
  have hne : x.key ≠ 0 := by
    intro hkey
    exact h ((units_eq_units_iff.mpr (hkey.trans key_zero.symm)).trans units_zero)
  have hkey : x.key = if x.negative then -(x.magnitude : ℤ) else x.magnitude := rfl
  cases hneg : x.negative with
  | false =>
    rw [hneg, if_neg Bool.false_ne_true] at hkey
    exact (decide_eq_false (not_lt.mpr (units_nonneg_iff.mpr (by omega)))).symm
  | true =>
    rw [hneg, if_pos rfl] at hkey
    have hlt : x.units < 0 := not_le.mp fun hle => by
      have hle := units_nonneg_iff.mp hle
      omega
    exact (decide_eq_true hlt).symm

theorem isNaN_of_isFinite (h : x.isFinite = true) : x.isNaN = false :=
  decide_eq_false (Nat.not_lt.mpr (of_decide_eq_true h : x.magnitude < infinityBits).le)

/-- A double is finite when its place is between the infinities. -/
theorem isFinite_iff : x.isFinite = true ↔ -(infinityBits : ℤ) < x.key ∧ x.key < infinityBits := by
  rw [isFinite, decide_eq_true_iff, key]
  split <;> omega

/-! ## Negation -/

section Negation

private theorem magnitude_lt (x : Double) : x.magnitude < 2 ^ 63 := Nat.mod_lt _ (by decide)

private theorem parts_neg (x : Double) :
    (-x).magnitude = x.magnitude ∧ (-x).negative = !x.negative := by
  have hlt := magnitude_lt x
  have hbits : (-x).bits.toNat = x.magnitude + if !x.negative then 2 ^ 63 else 0 := by
    show (ofBits (!x.negative) x.magnitude).bits.toNat = _
    rw [ofBits, UInt64.toNat_ofNat', Nat.mod_eq_of_lt]
    split <;> omega
  constructor
  · rw [magnitude, hbits]
    split <;> omega
  · rw [negative, hbits]
    cases x.negative
    · exact decide_eq_true (Nat.le_add_left _ _)
    · exact decide_eq_false (Nat.not_le.mpr hlt)

theorem isFinite_neg (x : Double) : (-x).isFinite = x.isFinite := by
  rw [isFinite, (parts_neg x).1, isFinite]

theorem key_neg (x : Double) : (-x).key = -x.key := by
  rw [key, key, (parts_neg x).1, (parts_neg x).2]
  cases x.negative <;> simp

theorem units_neg (x : Double) : (-x).units = -x.units := by
  unfold units
  rw [(parts_neg x).1, (parts_neg x).2]
  cases x.negative <;> simp

end Negation

/-! ## The place of a rounded fraction -/

/-- The place of a rounded fraction of the unit. -/
def roundKey (num : ℤ) (den : ℕ) : ℤ :=
  if num < 0 then -(roundMagnitude num.natAbs den : ℤ) else roundMagnitude num.natAbs den

/-- Rounding keeps the order. -/
theorem roundKey_mono {num num' : ℤ} {den den' : ℕ} (hden : 0 < den) (hden' : 0 < den')
    (h : num * den' ≤ num' * den) : roundKey num den ≤ roundKey num' den' := by
  unfold roundKey
  split
  case isTrue hneg =>
    split
    case isFalse => omega
    case isTrue hneg' =>
      apply Int.neg_le_neg
      refine Int.ofNat_le.mpr (roundMagnitude_mono hden' hden ?_)
      zify
      rw [abs_of_neg hneg, abs_of_neg hneg', Int.neg_mul, Int.neg_mul]
      exact Int.neg_le_neg h
  case isFalse hpos =>
    have hpos' : ¬ num' < 0 := by
      intro hneg'
      have hl : (0 : ℤ) ≤ num * den' := Int.mul_nonneg (by omega) (Int.natCast_nonneg _)
      have hr : num' * (den : ℤ) < 0 := Int.mul_neg_of_neg_of_pos hneg' (by omega)
      omega
    rw [if_neg hpos']
    refine Int.ofNat_le.mpr (roundMagnitude_mono hden hden' ?_)
    zify
    rwa [abs_of_nonneg (by omega), abs_of_nonneg (by omega)]

theorem roundMagnitude_zero (den : ℕ) : roundMagnitude 0 den = 0 := by
  rw [roundMagnitude_eq, uncapped, Nat.zero_div, exponentOf, if_pos (by decide), Nat.zero_mul,
    Nat.zero_add, pow_zero, Nat.mul_one, roundHalfEven, Nat.zero_mod, Nat.zero_div]
  split
  · rfl
  · rename_i h
    exact absurd (by omega) h

theorem roundKey_zero (den : ℕ) : roundKey 0 den = 0 := by
  rw [roundKey, if_neg (by decide), Int.natAbs_zero, roundMagnitude_zero]
  rfl

/-- Rounding is symmetric. -/
theorem roundKey_neg (num : ℤ) (den : ℕ) : roundKey (-num) den = -roundKey num den := by
  rcases Int.lt_trichotomy num 0 with h | rfl | h
  · rw [roundKey, roundKey, if_pos h, if_neg (by omega), Int.natAbs_neg, Int.neg_neg]
  · rw [Int.neg_zero, roundKey_zero, Int.neg_zero]
  · rw [roundKey, roundKey, if_pos (by omega), if_neg (by omega), Int.natAbs_neg]

/-- What a finite double stands for is not rounded. -/
theorem roundKey_units (hx : x.isFinite = true) {den : ℕ} (hden : 0 < den) :
    roundKey (x.units * den) den = x.key := by
  have hmag : roundMagnitude (x.units * den).natAbs den = x.magnitude := by
    rw [Int.natAbs_mul, Int.natAbs_natCast, ← roundMagnitude_units hx]
    conv_lhs => rw [← Nat.one_mul den, ← Nat.mul_assoc, Nat.mul_one]
    exact roundMagnitude_mul Nat.one_pos hden
  by_cases hzero : x.units = 0
  · rw [hzero, Int.zero_mul, roundKey_zero]
    exact (units_eq_units_iff.mp (hzero.trans units_zero.symm)).trans key_zero |>.symm
  · have hsign : x.units * (den : ℤ) < 0 ↔ x.units < 0 :=
      ⟨fun h => Int.not_le.mp fun hle => absurd h (Int.not_lt.mpr
        (Int.mul_nonneg hle (Int.natCast_nonneg _))),
        fun h => Int.mul_neg_of_neg_of_pos h (by omega)⟩
    rw [roundKey, hmag, key, negative_of_units_ne hzero]
    simp only [hsign, decide_eq_true_eq]

/-- A fraction at a double, or above it, is rounded so. -/
theorem key_le_roundKey (hx : x.isFinite = true) {num : ℤ} {den : ℕ} (hden : 0 < den)
    (h : x.units * den ≤ num) : x.key ≤ roundKey num den := by
  rw [← roundKey_units hx hden]
  exact roundKey_mono hden hden (Int.mul_le_mul_of_nonneg_right h (Int.natCast_nonneg _))

/-- A fraction at a double, or below it, is rounded so. -/
theorem roundKey_le_key (hx : x.isFinite = true) {num : ℤ} {den : ℕ} (hden : 0 < den)
    (h : num ≤ x.units * den) : roundKey num den ≤ x.key := by
  rw [← roundKey_units hx hden]
  exact roundKey_mono hden hden (Int.mul_le_mul_of_nonneg_right h (Int.natCast_nonneg _))

/-! ## Operations round -/

/-- A rounded fraction has its place, and is a number. -/
theorem key_round {sign : Bool} {num : ℤ} {den : ℕ}
    (h : num ≠ 0 → sign = decide (num < 0)) :
    (round sign num.natAbs den).key = roundKey num den ∧
      (round sign num.natAbs den).isNaN = false := by
  rw [round_eq]
  obtain ⟨hkey, hnan⟩ := key_ofBits_sign sign (roundMagnitude_le num.natAbs den)
  refine ⟨hkey.trans ?_, hnan⟩
  by_cases hzero : num = 0
  · subst hzero
    rw [Int.natAbs_zero, roundMagnitude_zero, roundKey_zero]
    split <;> rfl
  · rw [roundKey, h hzero]
    simp only [decide_eq_true_eq]

/-- A sum of finite doubles is the exact sum, rounded. -/
theorem key_add (hx : x.isFinite = true) (hy : y.isFinite = true) :
    (x + y).key = roundKey (x.units + y.units) 1 ∧ (x + y).isNaN = false := by
  show (add x y).key = _ ∧ (add x y).isNaN = false
  rw [add, isNaN_of_isFinite hx, isNaN_of_isFinite hy, hx, hy]
  simp only [Bool.or_self, Bool.false_eq_true, Bool.not_true, if_false]
  split
  case isTrue hzero =>
    obtain ⟨hkey, hnan⟩ := key_ofBits_sign (x.negative && y.negative)
      (Nat.zero_le infinityBits)
    rw [hzero, roundKey_zero]
    refine ⟨hkey.trans ?_, hnan⟩
    split <;> rfl
  case isFalse => exact key_round fun _ => rfl

/-- A difference of finite doubles is the exact difference, rounded. -/
theorem key_sub (hx : x.isFinite = true) (hy : y.isFinite = true) :
    (x - y).key = roundKey (x.units - y.units) 1 ∧ (x - y).isNaN = false := by
  have h := key_add hx ((isFinite_neg y).trans hy)
  rwa [units_neg, ← sub_eq_add_neg] at h

/-- The sign of a product of doubles that are not zero. -/
private theorem negative_mul (h : x.units * y.units ≠ 0) :
    (x.negative != y.negative) = decide (x.units * y.units < 0) := by
  have hx : x.units ≠ 0 := left_ne_zero_of_mul h
  have hy : y.units ≠ 0 := right_ne_zero_of_mul h
  rw [negative_of_units_ne hx, negative_of_units_ne hy, Bool.eq_iff_iff, decide_eq_true_iff,
    mul_neg_iff]
  rcases lt_or_gt_of_ne hx with hx | hx <;> rcases lt_or_gt_of_ne hy with hy | hy <;>
    simp [hx, hy, hx.not_gt, hy.not_gt]

/-- A product of finite doubles is the exact product, rounded. -/
theorem key_mul (hx : x.isFinite = true) (hy : y.isFinite = true) :
    (x * y).key = roundKey (x.units * y.units) (2 ^ 1074) ∧ (x * y).isNaN = false := by
  show (mul x y).key = _ ∧ (mul x y).isNaN = false
  rw [mul, isNaN_of_isFinite hx, isNaN_of_isFinite hy, hx, hy]
  simp only [Bool.or_self, Bool.false_eq_true, Bool.not_true, if_false]
  rw [← Int.natAbs_mul]
  exact key_round negative_mul

theorem magnitude_eq_zero_iff : x.magnitude = 0 ↔ x.units = 0 := by
  rw [← units_zero, units_eq_units_iff, key_zero, key]
  split <;> omega

/-- A quotient of finite doubles, the second of them positive, is the exact one, rounded. -/
theorem key_div (hx : x.isFinite = true) (hy : y.isFinite = true) (hpos : 0 < y.units) :
    (x / y).key = roundKey (x.units * 2 ^ 1074) y.units.natAbs ∧ (x / y).isNaN = false := by
  show (div x y).key = _ ∧ (div x y).isNaN = false
  have hmag : y.magnitude ≠ 0 := fun h => hpos.ne' (magnitude_eq_zero_iff.mp h)
  rw [div, isNaN_of_isFinite hx, isNaN_of_isFinite hy, hx, hy]
  simp only [Bool.or_self, Bool.false_eq_true, Bool.not_true, if_false, hmag]
  have hneg : y.negative = false := by
    rw [negative_of_units_ne hpos.ne']
    exact decide_eq_false (not_lt.mpr hpos.le)
  have hunit : (0 : ℤ) < 2 ^ 1074 := by positivity
  have hnat : x.units.natAbs * 2 ^ 1074 = (x.units * 2 ^ 1074).natAbs := by
    rw [Int.natAbs_mul, Int.natAbs_pow, show Int.natAbs 2 = 2 from rfl]
  rw [hnat]
  generalize (2 : ℤ) ^ 1074 = unit at hunit ⊢
  apply key_round
  intro h
  rw [hneg, negative_of_units_ne (left_ne_zero_of_mul h), Bool.bne_false]
  exact decide_eq_decide.mpr ⟨fun hx => Int.mul_neg_of_neg_of_pos hx hunit,
    fun hmul => not_le.mp fun hx => absurd hmul (not_lt.mpr (Int.mul_nonneg hx hunit.le))⟩

/-! ## Operations are monotone -/

theorem key_bounds (hx : x.isNaN = false) :
    -(infinityBits : ℤ) ≤ x.key ∧ x.key ≤ infinityBits := by
  have hle : x.magnitude ≤ infinityBits := Nat.not_lt.mp (of_decide_eq_false hx)
  rw [key]
  split <;> omega

/-- A number that is not finite is an infinity. -/
theorem key_of_not_isFinite (hx : x.isNaN = false) (h : ¬ x.isFinite = true) :
    x.key = -(infinityBits : ℤ) ∨ x.key = infinityBits := by
  have hb := key_bounds hx
  rw [isFinite_iff] at h
  omega

/-- A finite double added to an infinity does not matter. -/
theorem add_of_not_isFinite (hx : x.isNaN = false) (h : ¬ x.isFinite = true)
    (hz : z.isFinite = true) : x + z = x := by
  show add x z = x
  rw [add, hx, isNaN_of_isFinite hz, hz, (Bool.not_eq_true _).mp h]
  rfl

/-- A number, shifted by a finite double, is a number. -/
theorem isNaN_add (hx : x.isNaN = false) (hz : z.isFinite = true) : (x + z).isNaN = false := by
  by_cases h : x.isFinite = true
  · exact (key_add h hz).2
  · rwa [add_of_not_isFinite hx h hz]

/-- Numbers that are shifted by a finite double stay in order. -/
theorem add_le_add (h : x.le y = true) (hz : z.isFinite = true) :
    (x + z).le (y + z) = true := by
  obtain ⟨hx, hy, hkey⟩ := le_iff.mp h
  refine le_iff.mpr ⟨isNaN_add hx hz, isNaN_add hy hz, ?_⟩
  by_cases hfx : x.isFinite = true
  · by_cases hfy : y.isFinite = true
    · rw [(key_add hfx hz).1, (key_add hfy hz).1]
      have hunits := units_le_units_iff.mpr hkey
      exact roundKey_mono Nat.one_pos Nat.one_pos (by push_cast; omega)
    · -- the greater one is the infinity
      have hb := key_bounds (isNaN_add hx hz)
      have hxb := isFinite_iff.mp hfx
      have hinf := key_of_not_isFinite hy hfy
      rw [add_of_not_isFinite hy hfy hz]
      omega
  · have hb := key_bounds (isNaN_add hy hz)
    rw [add_of_not_isFinite hx hfx hz]
    rcases key_of_not_isFinite hx hfx with hinf | hinf
    · omega
    · have hyb := key_bounds hy
      have hfy : ¬ y.isFinite = true := by
        rw [isFinite_iff]
        omega
      rwa [add_of_not_isFinite hy hfy hz]

theorem isNaN_sub (hx : x.isNaN = false) (hz : z.isFinite = true) : (x - z).isNaN = false :=
  isNaN_add hx ((isFinite_neg z).trans hz)

theorem sub_le_sub (h : x.le y = true) (hz : z.isFinite = true) :
    (x - z).le (y - z) = true :=
  add_le_add h ((isFinite_neg z).trans hz)

/-- An infinity, scaled by a positive finite double, is that infinity. -/
private theorem key_mul_of_not_isFinite (hx : x.isNaN = false) (h : ¬ x.isFinite = true)
    (hz : z.isFinite = true) (hpos : 0 < z.units) :
    (x * z).key = x.key ∧ (x * z).isNaN = false := by
  have hneg : z.negative = false := by
    rw [negative_of_units_ne hpos.ne']
    exact decide_eq_false (not_lt.mpr hpos.le)
  have hinf : x.magnitude = infinityBits := by
    have hle : x.magnitude ≤ infinityBits := Nat.not_lt.mp (of_decide_eq_false hx)
    have hge : ¬ x.magnitude < infinityBits := fun hlt => h (decide_eq_true hlt)
    omega
  have hmag : ¬ (x.magnitude = 0 ∨ z.magnitude = 0) := by
    rw [magnitude_eq_zero_iff (x := z), hinf]
    exact fun h => h.elim (by decide) hpos.ne'
  show (mul x z).key = x.key ∧ (mul x z).isNaN = false
  rw [mul, hx, isNaN_of_isFinite hz, (Bool.not_eq_true _).mp h, hneg]
  simp only [Bool.or_self, Bool.false_eq_true, Bool.not_false, Bool.true_or, if_true, if_false,
    if_neg hmag, Bool.bne_false]
  obtain ⟨hkey, hnan⟩ := key_ofBits_sign x.negative (Nat.le_refl infinityBits)
  refine ⟨hkey.trans ?_, hnan⟩
  rw [key, hinf]

theorem isNaN_mul (hx : x.isNaN = false) (hz : z.isFinite = true) (hpos : 0 < z.units) :
    (x * z).isNaN = false := by
  by_cases h : x.isFinite = true
  · exact (key_mul h hz).2
  · exact (key_mul_of_not_isFinite hx h hz hpos).2

/-- Numbers that are scaled by a positive finite double stay in order. -/
theorem mul_le_mul (h : x.le y = true) (hz : z.isFinite = true) (hpos : 0 < z.units) :
    (x * z).le (y * z) = true := by
  obtain ⟨hx, hy, hkey⟩ := le_iff.mp h
  refine le_iff.mpr ⟨isNaN_mul hx hz hpos, isNaN_mul hy hz hpos, ?_⟩
  by_cases hfx : x.isFinite = true
  · by_cases hfy : y.isFinite = true
    · rw [(key_mul hfx hz).1, (key_mul hfy hz).1]
      have hunits := Int.mul_le_mul_of_nonneg_right (units_le_units_iff.mpr hkey) hpos.le
      exact roundKey_mono (by positivity) (by positivity)
        (Int.mul_le_mul_of_nonneg_right hunits (Int.natCast_nonneg _))
    · have hb := key_bounds (isNaN_mul hx hz hpos)
      have hxb := isFinite_iff.mp hfx
      have hinf := key_of_not_isFinite hy hfy
      rw [(key_mul_of_not_isFinite hy hfy hz hpos).1]
      omega
  · have hb := key_bounds (isNaN_mul hy hz hpos)
    rw [(key_mul_of_not_isFinite hx hfx hz hpos).1]
    rcases key_of_not_isFinite hx hfx with hinf | hinf
    · omega
    · have hyb := key_bounds hy
      have hfy : ¬ y.isFinite = true := by
        rw [isFinite_iff]
        omega
      rwa [(key_mul_of_not_isFinite hy hfy hz hpos).1]

/-! ## Doubles as significands -/

section Significands

private theorem two_pow_top : (2 : ℕ) ^ 2098 = 2 ^ 52 * 2 ^ 2046 :=
  (congrArg (2 ^ ·) (show 2098 = 52 + 2046 by decide)).trans (pow_add 2 52 2046)

/-- The magnitude of a significand that is scaled. -/
private theorem units_ofBits {m p : ℕ} (hm : m < 2 ^ 53) (hp : p ≤ 2045)
    (hnormal : p = 0 ∨ 2 ^ 52 ≤ m) :
    (ofBits false (p * 2 ^ 52 + m)).isFinite = true ∧
      (ofBits false (p * 2 ^ 52 + m)).units = m * 2 ^ p := by
  have hinf : infinityBits = 2047 * 2 ^ 52 := by decide
  have hle : p * 2 ^ 52 + m ≤ infinityBits := by omega
  obtain ⟨hmag, hneg⟩ := magnitude_ofBits_sign false hle
  have hlt : p * 2 ^ 52 + m < infinityBits := by omega
  refine ⟨by rw [isFinite, hmag]; exact decide_eq_true hlt, ?_⟩
  unfold units
  rw [hmag, hneg, if_neg Bool.false_ne_true]
  congr 1
  by_cases hsmall : m < 2 ^ 52
  · obtain rfl : p = 0 := hnormal.resolve_right (Nat.not_le.mpr hsmall)
    have hfield : (0 * 2 ^ 52 + m) / 2 ^ 52 = 0 := by omega
    rw [hfield, if_pos rfl, pow_zero]
    omega
  · have hfield : (p * 2 ^ 52 + m) / 2 ^ 52 = p + 1 := by omega
    have hrest : 2 ^ 52 + (p * 2 ^ 52 + m) % 2 ^ 52 = m := by omega
    rw [hfield, if_neg (Nat.succ_ne_zero p), hrest, Nat.add_sub_cancel]

/-- A significand, scaled by a power of two, is a double. -/
private theorem exists_units_nat {m e : ℕ} (hm : m < 2 ^ 53) (h : m * 2 ^ e < 2 ^ 2098) :
    ∃ x : Double, x.isFinite = true ∧ x.units = ((m * 2 ^ e : ℕ) : ℤ) := by
  rcases Nat.eq_zero_or_pos m with rfl | hpos
  · exact ⟨0, by decide +kernel, by rw [Nat.zero_mul]; exact units_zero⟩
  -- the significand is shifted up until it is full or the exponent is used up
  obtain ⟨t, ht, htop, hfull⟩ : ∃ t ≤ e, m * 2 ^ t < 2 ^ 53 ∧ (e - t = 0 ∨ 2 ^ 52 ≤ m * 2 ^ t) := by
    have hlog : m.log2 ≤ 52 := Nat.lt_succ_iff.mp ((Nat.log2_lt hpos.ne').mpr hm)
    by_cases hle : e ≤ 52 - m.log2
    · refine ⟨e, Nat.le_refl e, ?_, Or.inl (Nat.sub_self e)⟩
      calc m * 2 ^ e < 2 ^ (m.log2 + 1) * 2 ^ e :=
            Nat.mul_lt_mul_of_pos_right Nat.lt_log2_self (by positivity)
        _ = 2 ^ (m.log2 + 1 + e) := (pow_add _ _ _).symm
        _ ≤ 2 ^ 53 := Nat.pow_le_pow_right (by decide) (by omega)
    · refine ⟨52 - m.log2, by omega, ?_, Or.inr ?_⟩
      · calc m * 2 ^ (52 - m.log2) < 2 ^ (m.log2 + 1) * 2 ^ (52 - m.log2) :=
              Nat.mul_lt_mul_of_pos_right Nat.lt_log2_self (by positivity)
          _ = 2 ^ 53 := by rw [← pow_add, show m.log2 + 1 + (52 - m.log2) = 53 by omega]
      · calc 2 ^ 52 = 2 ^ m.log2 * 2 ^ (52 - m.log2) := by
              rw [← pow_add, Nat.add_sub_cancel' hlog]
          _ ≤ m * 2 ^ (52 - m.log2) := Nat.mul_le_mul_right _ (Nat.log2_self_le hpos.ne')
  have hsplit : m * 2 ^ e = m * 2 ^ t * 2 ^ (e - t) := by
    rw [Nat.mul_assoc, ← pow_add, Nat.add_sub_cancel' ht]
  have hexp : e - t ≤ 2045 := by
    rcases hfull with hzero | hfull
    · omega
    · by_contra hbig
      have hge : 2 ^ 2098 ≤ m * 2 ^ t * 2 ^ (e - t) :=
        calc 2 ^ 2098 = 2 ^ 52 * 2 ^ 2046 := two_pow_top
          _ ≤ m * 2 ^ t * 2 ^ (e - t) :=
            Nat.mul_le_mul hfull (Nat.pow_le_pow_right Nat.two_pos (Nat.not_le.mp hbig))
      exact absurd h (Nat.not_lt.mpr (hsplit ▸ hge))
  obtain ⟨hfinite, hunits⟩ := units_ofBits htop hexp hfull
  refine ⟨_, hfinite, ?_⟩
  rw [hunits, hsplit]
  push_cast
  rfl

/-- A significand, scaled by a power of two, is a double. -/
theorem exists_units {m : ℤ} {e : ℕ} (hm : |m| < 2 ^ 53) (h : |m * 2 ^ e| < 2 ^ 2098) :
    ∃ x : Double, x.isFinite = true ∧ x.units = m * 2 ^ e := by
  rw [abs_mul, abs_pow, abs_two] at h
  obtain ⟨k, hk⟩ := Int.eq_ofNat_of_zero_le (abs_nonneg m)
  rw [hk] at hm h
  obtain ⟨x, hx, hunits⟩ := exists_units_nat (m := k) (e := e) (by omega) (by exact_mod_cast h)
  push_cast at hunits
  rcases abs_choice m with habs | habs
  · exact ⟨x, hx, by rw [hunits, ← hk, habs]⟩
  · refine ⟨-x, (isFinite_neg x).trans hx, ?_⟩
    rw [units_neg, hunits, ← hk, habs]
    ring

/-- A double stands for a significand, scaled by a power of two. -/
theorem exists_significand (x : Double) :
    ∃ (m : ℤ) (e : ℕ), |m| < 2 ^ 53 ∧ x.units = m * 2 ^ e := by
  have hmod := Nat.mod_lt x.magnitude (show 2 ^ 52 > 0 by decide)
  have hdiv := Nat.div_add_mod x.magnitude (2 ^ 52)
  have hnat : ∃ m e : ℕ, m < 2 ^ 53 ∧ (if x.magnitude / 2 ^ 52 = 0 then x.magnitude
      else (2 ^ 52 + x.magnitude % 2 ^ 52) * 2 ^ (x.magnitude / 2 ^ 52 - 1)) = m * 2 ^ e := by
    split
    · exact ⟨x.magnitude, 0, by omega, by rw [pow_zero, Nat.mul_one]⟩
    · exact ⟨_, _, by omega, rfl⟩
  obtain ⟨m, e, hm, heq⟩ := hnat
  have hunits : x.units = if x.negative then -((m * 2 ^ e : ℕ) : ℤ) else ((m * 2 ^ e : ℕ) : ℤ) := by
    rw [← heq]
    rfl
  rcases hneg : x.negative
  · refine ⟨m, e, by rw [Nat.abs_cast]; exact_mod_cast hm, ?_⟩
    rw [hunits, hneg, if_neg Bool.false_ne_true]
    push_cast
    rfl
  · refine ⟨-m, e, by rw [abs_neg, Nat.abs_cast]; exact_mod_cast hm, ?_⟩
    rw [hunits, hneg, if_pos rfl]
    push_cast
    ring

/-- An infinity stands for the first power of two that is too large. -/
theorem units_infinity : (infinity false).units = 2 ^ 2098 := by
  obtain ⟨hmag, hneg⟩ := magnitude_ofBits_sign false (Nat.le_refl infinityBits)
  show (infinity false).units = _
  unfold units infinity
  rw [hmag, hneg, if_neg Bool.false_ne_true, show infinityBits / 2 ^ 52 = 2047 by decide,
    show infinityBits % 2 ^ 52 = 0 by decide, if_neg (by decide), Nat.add_zero,
    show 2047 - 1 = 2046 by decide, ← two_pow_top, Nat.cast_pow, Nat.cast_ofNat]

theorem key_infinity : (infinity false).key = infinityBits :=
  (key_ofBits_sign _ (Nat.le_refl _)).1

/-- A double is finite when it stands for less than the infinities. -/
theorem isFinite_iff_units : x.isFinite = true ↔ |x.units| < 2 ^ 2098 := by
  have hneg : (-infinity false).units = -2 ^ 2098 := by rw [units_neg, units_infinity]
  have hkey : (-infinity false).key = -infinityBits := by rw [key_neg, key_infinity]
  rw [isFinite_iff, abs_lt, ← hneg, units_lt_units_iff, hkey, ← units_infinity,
    units_lt_units_iff, key_infinity]

private theorem roundKey_of_ge {top den : ℕ} {num : ℤ} (hden : 0 < den)
    (htop : roundMagnitude top 1 = infinityBits) (h : (top : ℤ) * den ≤ num) :
    roundKey num den = infinityBits := by
  have hpos : (0 : ℤ) ≤ num :=
    Int.le_trans (Int.mul_nonneg (Int.natCast_nonneg _) (Int.natCast_nonneg _)) h
  rw [roundKey, if_neg (not_lt.mpr hpos)]
  refine congrArg Nat.cast (Nat.le_antisymm (roundMagnitude_le _ _) ?_)
  rw [← htop]
  apply roundMagnitude_mono Nat.one_pos hden
  zify
  rwa [abs_of_nonneg hpos, mul_one]

private theorem exponentOf_top {top : ℕ} (htop : top = 2 ^ 52 * 2 ^ 2046) :
    exponentOf top = 2046 := by
  have hlog : top.log2 = 52 + 2046 := by
    rw [htop, ← pow_add, Nat.log2_two_pow]
  have hlarge : ¬ top < 2 ^ 53 := by
    rw [← Nat.log2_lt (by rw [htop]; positivity), hlog]
    decide
  rw [exponentOf, if_neg hlarge, hlog]

/-- What is too large is rounded to an infinity. -/
theorem roundKey_of_overflow {num : ℤ} {den : ℕ} (hden : 0 < den) (h : 2 ^ 2098 * den ≤ num) :
    roundKey num den = infinityBits := by
  have hmag : ∀ {top : ℕ}, top = 2 ^ 52 * 2 ^ 2046 → roundMagnitude top 1 = infinityBits := by
    intro top htop
    have hcap : infinityBits ≤ uncapped top 1 := by
      rw [uncapped, Nat.div_one, exponentOf_top htop, Nat.one_mul, htop,
        roundHalfEven_of_dvd _ (by positivity)]
      decide
    rw [roundMagnitude_eq]
    exact Nat.min_eq_right hcap
  refine roundKey_of_ge hden (hmag two_pow_top) ?_
  rwa [Nat.cast_pow, Nat.cast_ofNat]

end Significands

end Double
