import ArbitraryComposer.Model.Records
import ArbitraryComposer.ToMathlib.CheckedInt

/-!
# Rational Time Maps

The time map of an edge is affine with a rational rate. A chain of edges is composed in exact
rational arithmetic, reduced through 128-bit intermediates, and rounded once, to the nearest flick
and half to even. What does not fit 64 bits is an error value.

The 64-bit fields are fixed-width integers. Every other operation is on integers, and stops at an
overflow of the type the source computes it in.

## Main definitions

- `Rational`: a rate or an offset, and `Rational.Canonical`: its reduced form.
- `Rational.fromI128`, `Rational.mul`, `Rational.add`: reduction and arithmetic.
- `ComposedTimeMap.from`, `andThen`, `andEdge`, `compose`, `evaluate`: composition.
- `TimeMap.exact`, `chainExact`: what a map and a chain compute over the rationals.
- `Grouping`: a way to group the compositions of a chain.

## Main results

- `Rational.mul_spec`, `Rational.add_spec`, `ComposedTimeMap.andThen_spec`: exact and canonical,
  or no fit.
- `chainComposes_iff`: when a chain composes exactly, in every grouping.
-/

namespace ArbitraryComposer

/-- `TimeError`. -/
inductive TimeError where
  /-- A reduced result does not fit 64 bits. -/
  | overflow
  deriving DecidableEq, Repr

/-- `Rational`. -/
structure Rational where
  /-- The numerator, which carries the sign. -/
  num : Int64 := 0
  /-- The denominator. -/
  den : Int64 := 1
  deriving DecidableEq, Repr

namespace Rational

/-- Lowest terms, a positive denominator, and a numerator that can be negated. -/
structure Canonical (r : Rational) : Prop where
  /-- The denominator is positive. -/
  den_pos : 0 < r.den.toInt
  /-- The numerator has an opposite. -/
  num_ne : r.num ≠ Int64.minValue
  /-- Numerator and denominator are coprime. -/
  coprime : Nat.Coprime r.num.toInt.natAbs r.den.toInt.natAbs

/-- The rational number. -/
def toRat (r : Rational) : ℚ := r.num.toInt / r.den.toInt

/-- The 64-bit value with a sign and a magnitude that fits. -/
def signedMagnitude (negative : Bool) (magnitude : ℕ) : Checked TimeError Int64 := do
  let value ← signed 64 (Int64.ofNat magnitude).toInt
  if negative then
    return .ofInt (← signed 64 (-value))
  else
    return .ofInt value

/-- `Rational::Rational`, with the assertions on its arguments. -/
def make (num den : Int64) : Checked TimeError Rational := do
  if den = 0 ∨ num = Int64.minValue ∨ den = Int64.minValue then
    throw (.trap .assertion)
  let an := magnitude 64 num.toInt
  let ad := magnitude 64 den.toInt
  let g := gcdLoop an ad
  let an ← unsignedQuotient an g
  let ad ← unsignedQuotient ad g
  let negative := decide (num < 0) != decide (den < 0)
  return { num := ← signedMagnitude negative an, den := .ofNat ad }

/-- `Rational::negated`. -/
def negated (r : Rational) : Checked TimeError Rational := do
  return { r with num := .ofInt (← signed 64 (-r.num.toInt)) }

/-- `Rational::from_i128`. -/
def fromI128 (num den : ℤ) : Checked TimeError Rational := do
  if den = 0 then
    throw (.trap .assertion)
  let negative := decide (num < 0) != decide (den < 0)
  let an := magnitude 128 num
  let ad := magnitude 128 den
  let g := gcdLoop an ad
  let an ← unsignedQuotient an g
  let ad ← unsignedQuotient ad g
  if an > Int64.maxValue.toInt.toNat ∨ ad > Int64.maxValue.toInt.toNat then
    throw (.error .overflow)
  return { num := ← signedMagnitude negative an, den := .ofNat ad }

/-- `Rational::mul`. -/
def mul (r other : Rational) : Checked TimeError Rational := do
  let num ← signed 128 (r.num.toInt * other.num.toInt)
  let den ← signed 128 (r.den.toInt * other.den.toInt)
  fromI128 num den

/-- `Rational::add`. -/
def add (r other : Rational) : Checked TimeError Rational := do
  let left ← signed 128 (r.num.toInt * other.den.toInt)
  let right ← signed 128 (other.num.toInt * r.den.toInt)
  let num ← signed 128 (left + right)
  let den ← signed 128 (r.den.toInt * other.den.toInt)
  fromI128 num den

end Rational

/-- The rate of a time map. -/
def TimeMap.rate (m : TimeMap) : Rational := ⟨m.rateNum, m.rateDen⟩

/-- `ComposedTimeMap`: the map `a * t + b`. -/
structure ComposedTimeMap where
  /-- The composed rate. -/
  a : Rational := { num := 1 }
  /-- The composed offset, in flicks. -/
  b : Rational := {}
  deriving DecidableEq, Repr

namespace ComposedTimeMap

/-- `ComposedTimeMap::from`. -/
def «from» (edge : TimeMap) : Checked TimeError ComposedTimeMap := do
  let inR ← Rational.make edge.input 1
  let offR ← Rational.make edge.offset 1
  let inScaled ← inR.mul edge.rate
  let b ← offR.add (← inScaled.negated)
  return ⟨edge.rate, b⟩

/-- `ComposedTimeMap::and_then`: `other` is applied after `m`. -/
def andThen (m other : ComposedTimeMap) : Checked TimeError ComposedTimeMap := do
  let na ← other.a.mul m.a
  let scaledB ← other.a.mul m.b
  let nb ← scaledB.add other.b
  return ⟨na, nb⟩

/-- `ComposedTimeMap::then`: an edge is applied after `m`. -/
def andEdge (m : ComposedTimeMap) (edge : TimeMap) : Checked TimeError ComposedTimeMap := do
  m.andThen (← «from» edge)

/-- `ComposedTimeMap::compose`, from the accumulator `acc` on. -/
def composeFrom (acc : ComposedTimeMap) : List TimeMap → Checked TimeError ComposedTimeMap
  | [] => pure acc
  | edge :: edges => do composeFrom (← acc.andEdge edge) edges

/-- `ComposedTimeMap::compose`. -/
def compose (edges : List TimeMap) : Checked TimeError ComposedTimeMap := composeFrom {} edges

/-- `__builtin_mul_overflow` and `__builtin_add_overflow`: a result that does not fit is reported. -/
def reported (x : ℤ) : Checked TimeError ℤ :=
  if FitsSigned 128 x then .ok x else .error (.error .overflow)

/-- The division of `ComposedTimeMap::evaluate`, towards minus infinity. -/
def floorDivision (n d : ℤ) : Checked TimeError (ℤ × ℤ) := do
  let q ← quotient 128 n d
  let r ← remainder n d
  if r < 0 then
    return (← signed 128 (q - 1), ← signed 128 (r + d))
  else
    return (q, r)

/-- The rounding of `ComposedTimeMap::evaluate`: twice the rest is compared with the divisor, and a
tie goes to the even candidate. -/
def roundQuotient (q r d : ℤ) : Checked TimeError ℤ := do
  let twice ← signed 128 (2 * r)
  if d < twice ∨ twice = d ∧ q % 2 ≠ 0 then signed 128 (q + 1) else pure q

/-- The range check of `ComposedTimeMap::evaluate`. -/
def toTime (q : ℤ) : Checked TimeError Int64 :=
  if q > Int64.maxValue.toInt ∨ q < Int64.minValue.toInt then
    throw (.error .overflow)
  else
    pure (.ofInt q)

/-- `ComposedTimeMap::evaluate`. -/
def evaluate (m : ComposedTimeMap) (parentTime : Int64) : Checked TimeError Int64 := do
  let term ← signed 128 (m.a.num.toInt * parentTime.toInt)
  let term ← reported (term * m.b.den.toInt)
  let cross ← signed 128 (m.b.num.toInt * m.a.den.toInt)
  let n ← reported (term + cross)
  let d ← signed 128 (m.a.den.toInt * m.b.den.toInt)
  let (q, r) ← floorDivision n d
  toTime (← roundQuotient q r d)

end ComposedTimeMap

/-- `TimeMap::evaluate`. -/
def TimeMap.evaluate (m : TimeMap) (parentTime : Int64) : Checked TimeError Int64 := do
  (← ComposedTimeMap.from m).evaluate parentTime

/-! ## Rationals -/

namespace Rational

open Checked

variable {r s : Rational}

private theorem maxValue_toNat : Int64.maxValue.toInt.toNat = 2 ^ 63 - 1 := rfl

/-- Values and products of 64-bit numerators and denominators. -/
private theorem Canonical.bounds (h : r.Canonical) :
    -(2 ^ 63 - 1) ≤ r.num.toInt ∧ r.num.toInt ≤ 2 ^ 63 - 1 ∧ 0 < r.den.toInt ∧
      r.den.toInt ≤ 2 ^ 63 - 1 := by
  have h1 := r.num.le_toInt
  have h2 := r.num.toInt_lt
  have h3 := r.den.toInt_lt
  have h4 : r.num.toInt ≠ -2 ^ 63 := fun heq => h.num_ne (Int64.toInt_inj.mp heq)
  refine ⟨by omega, by omega, h.den_pos, by omega⟩

/-- A product of two factors that are less than `2 ^ 63` in magnitude. -/
private theorem mul_bounds {x y : ℤ} (hx : -(2 ^ 63 - 1) ≤ x ∧ x ≤ 2 ^ 63 - 1)
    (hy : -(2 ^ 63) ≤ y ∧ y ≤ 2 ^ 63) : -2 ^ 126 ≤ x * y ∧ x * y ≤ 2 ^ 126 := by
  have habs : |x * y| ≤ 2 ^ 63 * 2 ^ 63 := by
    rw [abs_mul]
    exact mul_le_mul (abs_le.mpr ⟨by omega, by omega⟩) (abs_le.mpr hy) (abs_nonneg y) (by norm_num)
  have hpow : (2 : ℤ) ^ 63 * 2 ^ 63 = 2 ^ 126 := by norm_num
  rw [hpow] at habs
  exact abs_le.mp habs

private theorem fitsSigned_of_le {x : ℤ} (h : -2 ^ 126 ≤ x ∧ x ≤ 2 ^ 126) : FitsSigned 128 x := by
  obtain ⟨hlo, hhi⟩ := h
  constructor
  · have : (-2 : ℤ) ^ 127 ≤ -2 ^ 126 := by norm_num
    refine le_trans ?_ hlo
    norm_num
  · refine lt_of_le_of_lt hhi ?_
    norm_num

theorem Canonical.toRat_inj (hr : r.Canonical) (hs : s.Canonical) (h : r.toRat = s.toRat) :
    r = s := by
  obtain ⟨hnum, hden⟩ := Rat.div_int_inj hr.den_pos hs.den_pos hr.coprime hs.coprime h
  obtain ⟨rn, rd⟩ := r
  obtain ⟨sn, sd⟩ := s
  obtain rfl : rn = sn := Int64.toInt_inj.mp hnum
  obtain rfl : rd = sd := Int64.toInt_inj.mp hden
  rfl

private theorem toInt_ofNat {n : ℕ} (h : n ≤ 2 ^ 63 - 1) : (Int64.ofNat n).toInt = n :=
  Int64.toInt_ofNat_of_lt (by omega)

theorem signedMagnitude_eq {negative : Bool} {m : ℕ} (h : m ≤ 2 ^ 63 - 1) :
    ∃ v : Int64, signedMagnitude negative m = .ok v ∧
      v.toInt = if negative then -(m : ℤ) else m := by
  have hfit : FitsSigned 64 (m : ℤ) := ⟨by omega, by omega⟩
  have hfit' : FitsSigned 64 (-(m : ℤ)) := ⟨by omega, by omega⟩
  have hlo : (-2 : ℤ) ^ 63 ≤ 0 := by norm_num
  cases negative with
  | false =>
    refine ⟨.ofInt m, ?_, Int64.toInt_ofInt_of_le (by omega) (by omega)⟩
    simp only [signedMagnitude, toInt_ofNat h, signed_eq_ok hfit]
    rfl
  | true =>
    refine ⟨.ofInt (-m), ?_, Int64.toInt_ofInt_of_le (by omega) (by omega)⟩
    simp only [signedMagnitude, toInt_ofNat h, signed_eq_ok hfit]
    change (do return Int64.ofInt (← signed 64 (-(m : ℤ))) : Checked TimeError Int64) = _
    rw [signed_eq_ok hfit']
    rfl

/-- A quotient of integers by sign and magnitudes. -/
private theorem intDiv_eq (num : ℤ) {den : ℤ} (hd : den ≠ 0) :
    (num : ℚ) / den = (if (decide (num < 0) != decide (den < 0)) = true then -1 else 1) *
      ((num.natAbs : ℚ) / den.natAbs) := by
  have hcast : ∀ x : ℤ, (x : ℚ) = (if x < 0 then -1 else 1) * (x.natAbs : ℚ) := by
    intro x
    rw [Nat.cast_natAbs]
    split
    · rename_i hx
      rw [abs_of_neg hx]
      push_cast
      ring
    · rename_i hx
      rw [abs_of_nonneg (not_lt.mp hx), one_mul]
  have hden : (den.natAbs : ℚ) ≠ 0 := by exact_mod_cast Int.natAbs_ne_zero.mpr hd
  rw [hcast num, hcast den]
  by_cases h1 : num < 0 <;> by_cases h2 : den < 0 <;> simp [h1, h2] <;> field_simp

/-- A fraction in lowest terms whose terms fit is the canonical form of its value. -/
private theorem reduced_spec {num den : ℤ} (hne : den ≠ 0)
    (hnum : num.natAbs / Nat.gcd num.natAbs den.natAbs ≤ 2 ^ 63 - 1)
    (hden : den.natAbs / Nat.gcd num.natAbs den.natAbs ≤ 2 ^ 63 - 1) :
    ∃ v : Int64, signedMagnitude (decide (num < 0) != decide (den < 0))
        (num.natAbs / Nat.gcd num.natAbs den.natAbs) = .ok v ∧
      Canonical ⟨v, .ofNat (den.natAbs / Nat.gcd num.natAbs den.natAbs)⟩ ∧
      toRat ⟨v, .ofNat (den.natAbs / Nat.gcd num.natAbs den.natAbs)⟩ = num / den := by
  have hg : 0 < Nat.gcd num.natAbs den.natAbs :=
    Nat.gcd_pos_of_pos_right _ (Int.natAbs_pos.mpr hne)
  obtain ⟨v, hv, hval⟩ := @signedMagnitude_eq (decide (num < 0) != decide (den < 0)) _ hnum
  have hpos : 0 < den.natAbs / Nat.gcd num.natAbs den.natAbs :=
    Nat.div_pos (Nat.gcd_le_right _ (Int.natAbs_pos.mpr hne)) hg
  have hd := toInt_ofNat hden
  refine ⟨v, hv, ⟨?_, ?_, ?_⟩, ?_⟩
  · change 0 < (Int64.ofNat _).toInt
    rw [hd]
    exact_mod_cast hpos
  · -- a reduced numerator that fits is above the least value
    rintro rfl
    have hmin : Int64.minValue.toInt = -2 ^ 63 := by decide
    rw [hmin] at hval
    generalize num.natAbs / Nat.gcd num.natAbs den.natAbs = m at hval hnum
    split at hval <;> omega
  · change Nat.Coprime v.toInt.natAbs (Int64.ofNat _).toInt.natAbs
    have habs : v.toInt.natAbs = num.natAbs / Nat.gcd num.natAbs den.natAbs := by
      rw [hval]
      generalize num.natAbs / Nat.gcd num.natAbs den.natAbs = m
      split <;> omega
    rw [habs, hd, Int.natAbs_natCast]
    exact Nat.coprime_div_gcd_div_gcd hg
  · change (v.toInt : ℚ) / ((Int64.ofNat _).toInt : ℚ) = _
    have hgq : ((Nat.gcd num.natAbs den.natAbs : ℕ) : ℚ) ≠ 0 := by exact_mod_cast hg.ne'
    rw [intDiv_eq num hne, hval, hd, Int.cast_natCast, Nat.cast_div (Nat.gcd_dvd_right _ _) hgq]
    have hv' : ((if (decide (num < 0) != decide (den < 0)) = true then
          -((num.natAbs / Nat.gcd num.natAbs den.natAbs : ℕ) : ℤ) else
          ((num.natAbs / Nat.gcd num.natAbs den.natAbs : ℕ) : ℤ) : ℤ) : ℚ) =
        (if (decide (num < 0) != decide (den < 0)) = true then -1 else 1) *
          ((num.natAbs : ℚ) / (Nat.gcd num.natAbs den.natAbs : ℕ)) := by
      rw [← Nat.cast_div (Nat.gcd_dvd_left _ _) hgq]
      split
      · rw [Int.cast_neg, Int.cast_natCast, neg_one_mul]
      · rw [Int.cast_natCast, one_mul]
    rw [hv', mul_div_assoc, div_div_div_cancel_right₀ hgq]

/-- `from_i128` reduces exactly, or the reduced terms do not fit. -/
theorem fromI128_spec {num den : ℤ} (hn : FitsSigned 128 num) (hd : FitsSigned 128 den)
    (hne : den ≠ 0) :
    (fromI128 num den).Yields fun r => r.Canonical ∧ r.toRat = num / den := by
  have hg : 0 < Nat.gcd num.natAbs den.natAbs :=
    Nat.gcd_pos_of_pos_right _ (Int.natAbs_pos.mpr hne)
  simp only [fromI128, if_neg hne, magnitude_eq_natAbs (by decide) hn,
    magnitude_eq_natAbs (by decide) hd, gcdLoop_eq_gcd, unsignedQuotient_eq_ok hg.ne',
    maxValue_toNat]
  change Checked.Yields (if _ then _ else _) _
  split
  · exact trivial
  · rename_i hfit
    obtain ⟨hnum, hden⟩ := not_or.mp hfit
    obtain ⟨v, hv, hspec⟩ := reduced_spec hne (not_lt.mp hnum) (not_lt.mp hden)
    rw [hv]
    exact hspec

/-- The constructor makes the canonical form of any fraction whose terms have opposites. -/
theorem make_spec {num den : Int64} (hden : den ≠ 0) (hnum : num ≠ Int64.minValue)
    (hden' : den ≠ Int64.minValue) :
    ∃ r, make num den = .ok r ∧ r.Canonical ∧ r.toRat = (num.toInt : ℚ) / den.toInt := by
  have hmin : Int64.minValue.toInt = -2 ^ 63 := by decide
  have hne : den.toInt ≠ 0 := fun h => hden (Int64.toInt_inj.mp h)
  have hfit : ∀ x : Int64, FitsSigned 64 x.toInt := fun x => ⟨x.le_toInt, x.toInt_lt⟩
  have hsign : ∀ x : Int64, decide (x < 0) = decide (x.toInt < 0) := fun x =>
    decide_eq_decide.mpr Int64.lt_iff_toInt_lt
  have hle : ∀ (x : Int64) (g : ℕ), x ≠ Int64.minValue → x.toInt.natAbs / g ≤ 2 ^ 63 - 1 := by
    intro x g hx
    have hlo := x.le_toInt
    have hhi := x.toInt_lt
    have hx' : x.toInt ≠ -2 ^ 63 := fun h => hx (Int64.toInt_inj.mp (h.trans hmin.symm))
    exact (Nat.div_le_self _ _).trans (by omega)
  have hg : 0 < Nat.gcd num.toInt.natAbs den.toInt.natAbs :=
    Nat.gcd_pos_of_pos_right _ (Int.natAbs_pos.mpr hne)
  obtain ⟨v, hv, hspec⟩ := reduced_spec hne (hle num _ hnum) (hle den _ hden')
  refine ⟨_, ?_, hspec⟩
  simp only [make, hden, hnum, hden', or_self, if_false, magnitude_eq_natAbs (by decide) (hfit _),
    gcdLoop_eq_gcd, unsignedQuotient_eq_ok hg.ne', hsign]
  change (signedMagnitude _ _ >>= fun v => pure _) = _
  rw [hv]
  rfl

/-- Multiplication is exact, or the reduced product does not fit. -/
theorem mul_spec (hr : r.Canonical) (hs : s.Canonical) :
    (r.mul s).Yields fun t => t.Canonical ∧ t.toRat = r.toRat * s.toRat := by
  obtain ⟨h1, h2, h3, h4⟩ := hr.bounds
  obtain ⟨h5, h6, h7, h8⟩ := hs.bounds
  have hnum : FitsSigned 128 (r.num.toInt * s.num.toInt) :=
    fitsSigned_of_le (mul_bounds ⟨h1, h2⟩ ⟨by omega, by omega⟩)
  have hden : FitsSigned 128 (r.den.toInt * s.den.toInt) :=
    fitsSigned_of_le (mul_bounds ⟨by omega, h4⟩ ⟨by omega, by omega⟩)
  simp only [mul, signed_eq_ok hnum, signed_eq_ok hden]
  refine (fromI128_spec hnum hden (mul_pos h3 h7).ne').mono fun t ht => ⟨ht.1, ?_⟩
  rw [ht.2, toRat, toRat, div_mul_div_comm]
  push_cast
  rfl

/-- Addition is exact, or the reduced sum does not fit. -/
theorem add_spec (hr : r.Canonical) (hs : s.Canonical) :
    (r.add s).Yields fun t => t.Canonical ∧ t.toRat = r.toRat + s.toRat := by
  obtain ⟨h1, h2, h3, h4⟩ := hr.bounds
  obtain ⟨h5, h6, h7, h8⟩ := hs.bounds
  have hleft := mul_bounds ⟨h1, h2⟩ (show -2 ^ 63 ≤ s.den.toInt ∧ _ from ⟨by omega, by omega⟩)
  have hright := mul_bounds ⟨h5, h6⟩ (show -2 ^ 63 ≤ r.den.toInt ∧ _ from ⟨by omega, by omega⟩)
  have hden : FitsSigned 128 (r.den.toInt * s.den.toInt) :=
    fitsSigned_of_le (mul_bounds ⟨by omega, h4⟩ ⟨by omega, by omega⟩)
  -- each product is below half of the 128-bit range, so their sum fits
  have hsum : FitsSigned 128 (r.num.toInt * s.den.toInt + s.num.toInt * r.den.toInt) := by
    have hstrict : r.num.toInt * s.den.toInt < 2 ^ 126 := by
      calc r.num.toInt * s.den.toInt ≤ (2 ^ 63 - 1) * s.den.toInt :=
            mul_le_mul_of_nonneg_right h2 h7.le
        _ ≤ (2 ^ 63 - 1) * (2 ^ 63 - 1) := mul_le_mul_of_nonneg_left h8 (by norm_num)
        _ < 2 ^ 126 := by norm_num
    have h126 : (2 : ℤ) ^ 127 = 2 ^ 126 + 2 ^ 126 := by norm_num
    constructor
    · change -2 ^ 127 ≤ _
      rw [h126]
      linarith [hleft.1, hright.1]
    · change _ < 2 ^ 127
      rw [h126]
      linarith [hright.2]
  simp only [add, signed_eq_ok (fitsSigned_of_le hleft), signed_eq_ok (fitsSigned_of_le hright),
    signed_eq_ok hden]
  change Yields (signed 128 _ >>= fun num => fromI128 num _) _
  rw [signed_eq_ok hsum]
  refine (fromI128_spec hsum hden (mul_pos h3 h7).ne').mono fun t ht => ⟨ht.1, ?_⟩
  have h3q : (r.den.toInt : ℚ) ≠ 0 := by exact_mod_cast h3.ne'
  have h7q : (s.den.toInt : ℚ) ≠ 0 := by exact_mod_cast h7.ne'
  rw [ht.2, toRat, toRat, div_add_div _ _ h3q h7q]
  push_cast
  ring

/-- The opposite of a canonical number is canonical. -/
theorem negated_spec (hr : r.Canonical) :
    r.negated.Yields fun t => t.Canonical ∧ t.toRat = -r.toRat := by
  obtain ⟨h1, h2, -, -⟩ := hr.bounds
  have hfit : FitsSigned 64 (-r.num.toInt) := ⟨by omega, by omega⟩
  have hval : (Int64.ofInt (-r.num.toInt)).toInt = -r.num.toInt :=
    Int64.toInt_ofInt_of_le (by omega) (by omega)
  simp only [negated, signed_eq_ok hfit]
  change Canonical ⟨.ofInt _, _⟩ ∧ toRat ⟨.ofInt _, _⟩ = _
  refine ⟨⟨hr.den_pos, ?_, ?_⟩, ?_⟩
  · intro heq
    have hmin : Int64.minValue.toInt = -2 ^ 63 := by decide
    have := congrArg Int64.toInt heq
    change (Int64.ofInt (-r.num.toInt)).toInt = _ at this
    rw [hval, hmin] at this
    omega
  · change Nat.Coprime (Int64.ofInt (-r.num.toInt)).toInt.natAbs _
    rw [hval, Int.natAbs_neg]
    exact hr.coprime
  · change ((Int64.ofInt (-r.num.toInt)).toInt : ℚ) / _ = _
    rw [hval, Int.cast_neg, neg_div]
    rfl

end Rational

/-! ## Composition -/

/-- What a time map computes over the rationals: `(p - in) * rate + offset`. -/
def TimeMap.exact (m : TimeMap) (p : ℚ) : ℚ := (p - m.input.toInt) * m.rate.toRat + m.offset.toInt

/-- What a chain of time maps computes over the rationals, the first map first. -/
def chainExact (edges : List TimeMap) (p : ℚ) : ℚ := edges.foldl (fun p m => m.exact p) p

/-- An in-point and an offset that have opposites. -/
def TimeMap.Liftable (m : TimeMap) : Prop :=
  m.input ≠ Int64.minValue ∧ m.offset ≠ Int64.minValue

instance (m : TimeMap) : Decidable m.Liftable := inferInstanceAs (Decidable (_ ∧ _))

namespace ComposedTimeMap

open Checked

variable {c d : ComposedTimeMap} {f g : ℚ → ℚ} {m : TimeMap} {edges : List TimeMap}

/-- A composed map is canonical and computes a function. -/
structure Represents (c : ComposedTimeMap) (f : ℚ → ℚ) : Prop where
  /-- The rate is in lowest terms. -/
  rate_canonical : c.a.Canonical
  /-- The offset is in lowest terms. -/
  offset_canonical : c.b.Canonical
  /-- The function. -/
  exact_eq : ∀ p, f p = c.a.toRat * p + c.b.toRat

/-- A function has one composed map at most. -/
theorem Represents.unique (hc : c.Represents f) (hd : d.Represents f) : c = d := by
  have hb : c.b.toRat = d.b.toRat := by
    have h0 := (hc.exact_eq 0).symm.trans (hd.exact_eq 0)
    rwa [mul_zero, mul_zero, zero_add, zero_add] at h0
  have ha : c.a.toRat = d.a.toRat := by
    have h1 := (hc.exact_eq 1).symm.trans (hd.exact_eq 1)
    rw [mul_one, mul_one, hb] at h1
    exact add_right_cancel h1
  obtain ⟨ca, cb⟩ := c
  obtain ⟨da, db⟩ := d
  obtain rfl : ca = da := hc.rate_canonical.toRat_inj hd.rate_canonical ha
  obtain rfl : cb = db := hc.offset_canonical.toRat_inj hd.offset_canonical hb
  rfl

theorem represents_identity : Represents {} fun p => p where
  rate_canonical := ⟨by decide, by decide, by decide⟩
  offset_canonical := ⟨by decide, by decide, by decide⟩
  exact_eq p := by
    have h1 : Rational.toRat { num := 1 } = 1 := by
      change ((1 : ℤ) : ℚ) / ((1 : ℤ) : ℚ) = 1
      norm_num
    have h0 : Rational.toRat {} = 0 := by
      change ((0 : ℤ) : ℚ) / ((1 : ℤ) : ℚ) = 0
      norm_num
    rw [h1, h0]
    ring

private theorem one_spec {n : Int64} (hn : n ≠ Int64.minValue) :
    ∃ r, Rational.make n 1 = .ok r ∧ r.Canonical ∧ r.toRat = n.toInt := by
  obtain ⟨r, hr, hcan, hval⟩ := @Rational.make_spec n 1 (by decide) hn (by decide)
  refine ⟨r, hr, hcan, hval.trans ?_⟩
  change (n.toInt : ℚ) / ((1 : ℤ) : ℚ) = n.toInt
  rw [Int.cast_one, div_one]

private theorem make_minValue : (Rational.make Int64.minValue 1).Traps :=
  ⟨.assertion, by simp [Rational.make, throw, throwThe, MonadExceptOf.throw, bind, Except.bind]⟩

/-- An edge is lifted exactly, or its offset does not fit. -/
theorem from_spec (hrate : m.rate.Canonical) (hm : m.Liftable) :
    («from» m).Yields fun c => c.Represents m.exact := by
  obtain ⟨inR, hin, hinC, hinV⟩ := one_spec hm.1
  obtain ⟨offR, hoff, hoffC, hoffV⟩ := one_spec hm.2
  unfold «from»
  rw [hin, hoff]
  refine (Rational.mul_spec hinC hrate).bind fun scaled hscaled => ?_
  refine (Rational.negated_spec hscaled.1).bind fun neg hneg => ?_
  refine (Rational.add_spec hoffC hneg.1).bind fun b hb => ?_
  refine yields_ok ⟨hrate, hb.1, fun p => ?_⟩
  rw [hb.2, hneg.2, hscaled.2, hoffV, hinV]
  unfold TimeMap.exact
  ring

/-- An edge with an in-point or an offset that has no opposite cannot be lifted. -/
theorem from_traps (hm : ¬ m.Liftable) : («from» m).Traps := by
  obtain ⟨t, ht⟩ := make_minValue
  refine ⟨t, ?_⟩
  by_cases hin : m.input = Int64.minValue
  · rw [«from», hin, ht]
    rfl
  · obtain ⟨inR, hmake, -⟩ := one_spec hin
    have hoff : m.offset = Int64.minValue := by
      by_contra hoff
      exact hm ⟨hin, hoff⟩
    rw [«from», hmake, hoff, ht]
    rfl

/-- Two maps compose exactly, or a reduced coefficient does not fit. -/
theorem andThen_spec (hc : c.Represents f) (hd : d.Represents g) :
    (c.andThen d).Yields fun e => e.Represents fun p => g (f p) := by
  refine (Rational.mul_spec hd.rate_canonical hc.rate_canonical).bind fun na hna => ?_
  refine (Rational.mul_spec hd.rate_canonical hc.offset_canonical).bind fun scaled hscaled => ?_
  refine (Rational.add_spec hscaled.1 hd.offset_canonical).bind fun nb hnb => ?_
  refine yields_ok ⟨hna.1, hnb.1, fun p => ?_⟩
  rw [hna.2, hnb.2, hscaled.2, hd.exact_eq, hc.exact_eq]
  ring

theorem composeFrom_spec (hc : c.Represents f)
    (hedges : ∀ m ∈ edges, m.rate.Canonical ∧ m.Liftable) :
    (composeFrom c edges).Yields fun e => e.Represents fun p => chainExact edges (f p) := by
  induction edges generalizing c f with
  | nil => exact hc
  | cons m edges ih =>
    obtain ⟨hrate, hm⟩ := hedges m List.mem_cons_self
    have hstep : (c.andEdge m).Yields fun e => e.Represents fun p => m.exact (f p) :=
      (from_spec hrate hm).bind fun d hd => andThen_spec hc hd
    exact hstep.bind fun e he => ih he fun m' hm' => hedges m' (List.mem_cons_of_mem _ hm')

/-! ## Evaluation -/

/-- The floor division of the evaluation, and the room it leaves for the rounding. -/
private theorem floorDivision_spec {n d : ℤ} (hn : FitsSigned 128 n) (hd : 0 < d)
    (hd' : d ≤ 2 ^ 126) :
    ∃ q r, floorDivision n d = .ok (q, r) ∧ n = q * d + r ∧ 0 ≤ r ∧ r < d ∧
      (d ≠ 1 → FitsSigned 128 (q + 1)) := by
  obtain ⟨hlo, hhi⟩ := hn
  have habs := Int.natAbs_tdiv n d
  have hdiv := Int.tmod_add_mul_tdiv n d
  have hmod : (n.tmod d).natAbs < d.natAbs := by
    rw [Int.natAbs_tmod]
    exact Nat.mod_lt _ (by omega)
  -- with a divisor above one, the quotient is at most half of the range
  have hhalf : d ≠ 1 → (n.tdiv d).natAbs ≤ 2 ^ 126 := by
    intro hd1
    rw [habs]
    calc n.natAbs / d.natAbs ≤ n.natAbs / 2 := Nat.div_le_div_left (by omega) (by omega)
      _ ≤ 2 ^ 126 := by
        change -2 ^ 127 ≤ n at hlo
        change n < 2 ^ 127 at hhi
        omega
  have hfit : FitsSigned 128 (n.tdiv d) := by
    by_cases hd1 : d = 1
    · rw [hd1, Int.tdiv_one]
      exact ⟨hlo, hhi⟩
    · have := hhalf hd1
      constructor
      · change -2 ^ 127 ≤ _
        omega
      · change _ < 2 ^ 127
        omega
  by_cases hneg : n.tmod d < 0
  · have hd1 : d ≠ 1 := by
      rintro rfl
      rw [Int.tmod_one] at hneg
      exact absurd hneg (lt_irrefl 0)
    have := hhalf hd1
    have hq : FitsSigned 128 (n.tdiv d - 1) := by
      constructor
      · change -2 ^ 127 ≤ _
        omega
      · change _ < 2 ^ 127
        omega
    have hr : FitsSigned 128 (n.tmod d + d) := by
      constructor
      · change -2 ^ 127 ≤ _
        omega
      · change _ < 2 ^ 127
        omega
    refine ⟨n.tdiv d - 1, n.tmod d + d, ?_, ?_, by omega, by omega, fun _ => ?_⟩
    · simp only [floorDivision, quotient_eq_ok hd.ne' hfit, remainder_eq_ok hd.ne', bind,
        Except.bind, if_pos hneg, signed_eq_ok hq, signed_eq_ok hr]
      rfl
    · rw [sub_mul, one_mul, mul_comm]
      omega
    · rw [sub_add_cancel]
      exact hfit
  · refine ⟨n.tdiv d, n.tmod d, ?_, ?_, by omega, by omega, fun hd1 => ?_⟩
    · simp only [floorDivision, quotient_eq_ok hd.ne' hfit, remainder_eq_ok hd.ne', bind,
        Except.bind, if_neg hneg]
      rfl
    · rw [mul_comm]
      omega
    · have := hhalf hd1
      constructor
      · change -2 ^ 127 ≤ _
        omega
      · change _ < 2 ^ 127
        omega

private theorem reported_spec (x : ℤ) : (reported x).Yields fun y => y = x ∧ FitsSigned 128 x := by
  unfold reported
  split
  · exact ⟨rfl, ‹_›⟩
  · exact trivial

/-- The rounding picks the nearest quotient, and the even one on a tie. -/
private theorem roundQuotient_spec {n d q r : ℤ} (hd : 0 < d) (hd' : d ≤ 2 ^ 126)
    (hn : n = q * d + r) (hr : 0 ≤ r) (hrd : r < d) (hroom : d ≠ 1 → FitsSigned 128 (q + 1)) :
    (roundQuotient q r d).Yields fun z => RoundsHalfEven ((n : ℚ) / d) z := by
  have htwice : FitsSigned 128 (2 * r) := by
    constructor
    · change -2 ^ 127 ≤ _
      omega
    · change _ < 2 ^ 127
      omega
  have hround := RoundsHalfEven.of_floorDiv hd hn hr hrd
  rw [roundQuotient, signed_eq_ok htwice]
  change Yields (if _ then _ else _) _
  split
  · rename_i hup
    rw [if_pos hup] at hround
    rw [signed_eq_ok (hroom fun hd1 => by omega)]
    exact hround
  · rename_i hdown
    rw [if_neg hdown] at hround
    exact hround

private theorem toTime_spec (q : ℤ) : (toTime q).Yields fun v => v.toInt = q := by
  unfold toTime
  split
  · exact trivial
  · rename_i hfits
    have hmax : Int64.maxValue.toInt = 2 ^ 63 - 1 := by decide
    have hmin : Int64.minValue.toInt = -2 ^ 63 := by decide
    rw [hmax, hmin] at hfits
    exact yields_ok (Int64.toInt_ofInt_of_le (by omega) (by omega))

/-- A composed map is evaluated exactly and rounded once, or a result does not fit. -/
theorem evaluate_spec (hc : c.Represents f) (t : Int64) :
    (c.evaluate t).Yields fun v => RoundsHalfEven (f t.toInt) v.toInt := by
  obtain ⟨h1, h2, h3, h4⟩ := hc.rate_canonical.bounds
  obtain ⟨h5, h6, h7, h8⟩ := hc.offset_canonical.bounds
  have hterm : FitsSigned 128 (c.a.num.toInt * t.toInt) :=
    Rational.fitsSigned_of_le (Rational.mul_bounds ⟨h1, h2⟩ ⟨t.le_toInt, t.toInt_lt.le⟩)
  have hcross : FitsSigned 128 (c.b.num.toInt * c.a.den.toInt) :=
    Rational.fitsSigned_of_le (Rational.mul_bounds ⟨h5, h6⟩ ⟨by omega, by omega⟩)
  have hdle := Rational.mul_bounds (x := c.a.den.toInt) (y := c.b.den.toInt)
    ⟨by omega, h4⟩ ⟨by omega, by omega⟩
  have hdpos : 0 < c.a.den.toInt * c.b.den.toInt := mul_pos h3 h7
  simp only [evaluate, signed_eq_ok hterm, signed_eq_ok hcross,
    signed_eq_ok (Rational.fitsSigned_of_le hdle)]
  refine (reported_spec _).bind fun term hterm' => ?_
  refine (reported_spec _).bind fun n hn => ?_
  obtain ⟨q, r, hdiv, hnqr, hr, hrd, hroom⟩ := floorDivision_spec (hn.1 ▸ hn.2) hdpos hdle.2
  -- the fraction that is rounded is the exact value
  have hval : f t.toInt = (n : ℚ) / (c.a.den.toInt * c.b.den.toInt : ℤ) := by
    have h3q : (c.a.den.toInt : ℚ) ≠ 0 := by exact_mod_cast h3.ne'
    have h7q : (c.b.den.toInt : ℚ) ≠ 0 := by exact_mod_cast h7.ne'
    rw [hc.exact_eq, hn.1, hterm'.1, Rational.toRat, Rational.toRat]
    push_cast
    field_simp
  change Yields (floorDivision n _ >>= fun p => roundQuotient p.1 p.2 _ >>= toTime) _
  rw [hdiv, hval]
  refine (roundQuotient_spec hdpos hdle.2 hnqr hr hrd hroom).bind fun z hz => ?_
  refine (toTime_spec z).mono fun v hv => ?_
  rwa [hv]

end ComposedTimeMap

/-! ## Chains -/

/-- A way to group the compositions of a chain of edges. -/
inductive Grouping where
  /-- The identity map. -/
  | start
  /-- One edge. -/
  | edge (m : TimeMap)
  /-- Two groups, the second applied after the first. -/
  | join (g h : Grouping)

namespace Grouping

open Checked

/-- The edges of a grouping, in order. -/
def edges : Grouping → List TimeMap
  | start => []
  | edge m => [m]
  | join g h => g.edges ++ h.edges

/-- The groups are composed, and then joined. -/
def compose : Grouping → Checked TimeError ComposedTimeMap
  | start => pure {}
  | edge m => ComposedTimeMap.from m
  | join g h => do
    let (c, d) ← both g.compose h.compose
    c.andThen d

variable {g : Grouping}

/-- Every grouping of edges that can be lifted composes the chain exactly, or reports that a
coefficient does not fit. -/
theorem compose_spec (hg : ∀ m ∈ g.edges, m.rate.Canonical ∧ m.Liftable) :
    g.compose.Yields fun c => c.Represents (chainExact g.edges) := by
  induction g with
  | start => exact yields_ok ComposedTimeMap.represents_identity
  | edge m =>
    obtain ⟨hrate, hm⟩ := hg m (List.mem_singleton_self m)
    exact ComposedTimeMap.from_spec hrate hm
  | join g h ihg ihh =>
    have hspec := (ihg fun m hm => hg m (List.mem_append_left _ hm)).both
      (ihh fun m hm => hg m (List.mem_append_right _ hm))
    refine hspec.bind fun p hp => (ComposedTimeMap.andThen_spec hp.1 hp.2).mono fun e he => ?_
    have hchain : chainExact (g.edges ++ h.edges) =
        fun p => chainExact h.edges (chainExact g.edges p) := by
      funext p
      exact List.foldl_append
    change e.Represents (chainExact (g.edges ++ h.edges))
    rw [hchain]
    exact he

/-- A grouping that contains an edge that cannot be lifted traps. -/
theorem compose_traps {m : TimeMap} (hmem : m ∈ g.edges) (hm : ¬ m.Liftable) :
    g.compose.Traps := by
  induction g with
  | start => cases hmem
  | edge m' =>
    obtain rfl := List.mem_singleton.mp hmem
    exact ComposedTimeMap.from_traps hm
  | join g h ihg ihh =>
    rcases List.mem_append.mp hmem with hg | hh
    · exact ((ihg hg).both_left _).bind
    · exact (Traps.both_right _ (ihh hh)).bind

/-- Edges in order, grouped from the right. -/
def ofEdges : List TimeMap → Grouping
  | [] => start
  | m :: ms => join (edge m) (ofEdges ms)

theorem edges_ofEdges (ms : List TimeMap) : (ofEdges ms).edges = ms := by
  induction ms with
  | nil => rfl
  | cons m ms ih => exact congrArg (m :: ·) ih

end Grouping

/-- A composition of a chain: no operation overflows or divides by zero, the map is in lowest terms,
and its value at any instant is the exact one, rounded once, or is reported not to fit. -/
structure ComposesExactly (edges : List TimeMap) (x : Checked TimeError ComposedTimeMap) : Prop where
  /-- The composition has a defined outcome. -/
  defined : ¬ x.Traps
  /-- The rate is reduced. -/
  rate_canonical : ∀ c, x = .ok c → c.a.Canonical
  /-- The offset is reduced. -/
  offset_canonical : ∀ c, x = .ok c → c.b.Canonical
  /-- The evaluation has a defined outcome. -/
  evaluate_defined : ∀ c, x = .ok c → ∀ t, ¬ (c.evaluate t).Traps
  /-- The value is the exact one, rounded once. -/
  evaluate_exact : ∀ c, x = .ok c → ∀ t v, c.evaluate t = .ok v →
    RoundsHalfEven (chainExact edges t.toInt) v.toInt

theorem ComposesExactly.of_yields {edges : List TimeMap} {x : Checked TimeError ComposedTimeMap}
    (h : x.Yields fun c => c.Represents (chainExact edges)) : ComposesExactly edges x where
  defined := h.not_traps
  rate_canonical _ hc := (h.of_ok hc).rate_canonical
  offset_canonical _ hc := (h.of_ok hc).offset_canonical
  evaluate_defined _ hc t := (ComposedTimeMap.evaluate_spec (h.of_ok hc) t).not_traps
  evaluate_exact _ hc t _ hv := (ComposedTimeMap.evaluate_spec (h.of_ok hc) t).of_ok hv

/-- A chain composes exactly, edge by edge and in every grouping, with one result. -/
structure ChainComposes (edges : List TimeMap) : Prop where
  /-- Edge by edge. -/
  compose : ComposesExactly edges (ComposedTimeMap.compose edges)
  /-- In every grouping. -/
  grouped : ∀ g : Grouping, g.edges = edges → ComposesExactly edges g.compose
  /-- A grouping that succeeds agrees with the composition edge by edge. -/
  compose_eq : ∀ g : Grouping, g.edges = edges → ∀ c d,
    ComposedTimeMap.compose edges = .ok c → g.compose = .ok d → c = d
  /-- Groupings that succeed agree. -/
  grouped_eq : ∀ g h : Grouping, g.edges = edges → h.edges = edges → ∀ c d,
    g.compose = .ok c → h.compose = .ok d → c = d

/-- A chain of edges with reduced rates composes exactly, unless the in-point or the offset of an
edge is the least 64-bit value. -/
theorem chainComposes_iff {edges : List TimeMap} (hrate : ∀ m ∈ edges, m.rate.Canonical) :
    ChainComposes edges ↔ ∀ m ∈ edges, m.Liftable := by
  constructor
  · intro h m hmem
    by_contra hm
    have hedges := Grouping.edges_ofEdges edges
    exact (h.grouped _ hedges).defined (Grouping.compose_traps (hedges.symm ▸ hmem) hm)
  · intro h
    have hspec : (ComposedTimeMap.compose edges).Yields
        fun c => c.Represents (chainExact edges) :=
      ComposedTimeMap.composeFrom_spec ComposedTimeMap.represents_identity
        fun m hm => ⟨hrate m hm, h m hm⟩
    have hgroup : ∀ g : Grouping, g.edges = edges →
        g.compose.Yields fun c => c.Represents (chainExact edges) := by
      rintro g rfl
      exact Grouping.compose_spec fun m hm => ⟨hrate m hm, h m hm⟩
    exact
      { compose := .of_yields hspec
        grouped := fun g hg => .of_yields (hgroup g hg)
        compose_eq := fun g hg c d hc hd => (hspec.of_ok hc).unique ((hgroup g hg).of_ok hd)
        grouped_eq := fun g h hg hh c d hc hd =>
          ((hgroup g hg).of_ok hc).unique ((hgroup h hh).of_ok hd) }

end ArbitraryComposer
