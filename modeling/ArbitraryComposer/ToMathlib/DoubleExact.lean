import ArbitraryComposer.ToMathlib.DoubleGrid
import Mathlib.Tactic.FieldSimp

/-!
# Exact Operations on Double-Precision Numbers

A double stands for a rational number. An operation whose exact result is that of some double gives
this result, and an operation whose result is finite had finite arguments.

## Main definitions

- `Double.toRat`: the rational number a double stands for.
- `Double.Represents`: a finite double that stands for a rational number.

## Main results

- `Represents.add`, `Represents.mul`, `Represents.div`: exact operations.
- `isFinite_of_add`, `isFinite_of_mul`: the arguments of a finite result are finite.
-/

namespace Double

/-- The least double. -/
def least : ℚ := (2 ^ 1074)⁻¹

theorem least_pos : 0 < least := inv_pos.mpr (pow_pos rfl _)

theorem least_mul : least * 2 ^ 1074 = 1 := inv_mul_cancel₀ (pow_pos rfl _).ne'

/-- The rational number a double stands for. -/
def toRat (x : Double) : ℚ := x.units * least

/-- A finite double stands for a rational number. -/
structure Represents (x : Double) (q : ℚ) : Prop where
  /-- It is finite. -/
  finite : x.isFinite = true
  /-- It stands for the number. -/
  eq : x.toRat = q

variable {x y z : Double} {p q : ℚ}

theorem toRat_inj : x.toRat = y.toRat ↔ x.key = y.key := by
  rw [← units_eq_units_iff, toRat, toRat, mul_left_inj' least_pos.ne', Int.cast_inj]

theorem represents_self (hx : x.isFinite = true) : x.Represents x.toRat := ⟨hx, rfl⟩

/-- A double at the place of another one stands for the same number. -/
theorem Represents.of_key_eq (hy : y.Represents q) (h : x.key = y.key) : x.Represents q :=
  ⟨isFinite_of_key_eq h hy.finite, (toRat_inj.mpr h).trans hy.eq⟩

/-! ## Numbers that are represented -/

theorem represents_zero : (0 : Double).Represents 0 :=
  ⟨by decide +kernel, by rw [toRat, units_zero, Int.cast_zero, zero_mul]⟩

theorem represents_ofInt {m : ℤ} (hm : |m| < 2 ^ 53) : (ofInt m).Represents m := by
  obtain ⟨hfinite, hunits⟩ := ofInt_spec hm
  refine ⟨hfinite, ?_⟩
  rw [toRat, hunits, Int.cast_mul, Int.cast_pow, Int.cast_ofNat, mul_assoc, mul_comm _ least,
    least_mul, mul_one]

theorem PowerOfTwo.represents {g : Double} {n : ℕ} (hg : PowerOfTwo g n) :
    g.Represents (2 ^ n * least) :=
  ⟨hg.finite, by rw [toRat, hg.units, Int.cast_pow, Int.cast_ofNat]⟩

theorem Represents.neg (hx : x.Represents p) : (-x).Represents (-p) :=
  ⟨(isFinite_neg x).trans hx.finite,
    by rw [toRat, units_neg, Int.cast_neg, neg_mul, ← toRat, hx.eq]⟩

/-! ## Operations with a represented result -/

theorem Represents.add (hx : x.Represents p) (hy : y.Represents q) (hz : z.Represents (p + q)) :
    (x + y).Represents (p + q) := by
  refine hz.of_key_eq ?_
  have hsum : z.units = x.units + y.units := by
    have h := hz.eq
    rw [← hx.eq, ← hy.eq, toRat, toRat, toRat, ← add_mul, mul_left_inj' least_pos.ne'] at h
    exact_mod_cast h
  rw [(key_add hx.finite hy.finite).1, ← hsum, ← roundKey_units hz.finite Nat.one_pos,
    Nat.cast_one, mul_one]

theorem Represents.mul (hx : x.Represents p) (hy : y.Represents q) (hz : z.Represents (p * q)) :
    (x * y).Represents (p * q) := by
  refine hz.of_key_eq ?_
  have hprod : z.units * ((2 ^ 1074 : ℕ) : ℤ) = x.units * y.units := by
    have h := hz.eq
    rw [← hx.eq, ← hy.eq, toRat, toRat, toRat, mul_mul_mul_comm, ← mul_assoc,
      mul_left_inj' least_pos.ne'] at h
    have hscaled : (z.units : ℚ) * 2 ^ 1074 = x.units * y.units := by
      rw [h, mul_assoc, least_mul, mul_one]
    rw [Nat.cast_pow]
    exact_mod_cast hscaled
  rw [(key_mul hx.finite hy.finite).1, ← hprod, roundKey_units hz.finite (Nat.two_pow_pos _)]

theorem Represents.div {g : Double} {n : ℕ} (hx : x.Represents p) (hg : PowerOfTwo g n)
    (hz : z.Represents q) (h : q * (2 ^ n * least) = p) : (x / g).Represents q := by
  refine hz.of_key_eq ?_
  have hquot : z.units * ((2 ^ n : ℕ) : ℤ) = x.units * 2 ^ 1074 := by
    rw [← hz.eq, ← hx.eq, toRat, toRat, ← mul_assoc, mul_left_inj' least_pos.ne'] at h
    have hscaled : (z.units : ℚ) * 2 ^ n = x.units * 2 ^ 1074 := by
      rw [← h, mul_right_comm _ least, mul_assoc _ least, least_mul, mul_one]
    rw [Nat.cast_pow]
    exact_mod_cast hscaled
  rw [(hg.key_div hx.finite).1, ← hquot, roundKey_units hz.finite (Nat.two_pow_pos _)]

/-- A product with zero vanishes. -/
theorem Represents.vanish (hx : x.Represents 0) (hy : y.isFinite = true) :
    (x * y).Represents 0 := by
  have h := hx.mul (represents_self hy) (z := 0) (by rw [zero_mul]; exact represents_zero)
  rwa [zero_mul] at h

theorem Represents.vanish_right (hx : x.isFinite = true) (hy : y.Represents 0) :
    (x * y).Represents 0 := by
  have h := (represents_self hx).mul hy (z := 0) (by rw [mul_zero]; exact represents_zero)
  rwa [mul_zero] at h

/-- A sum with what vanishes. -/
theorem Represents.add_vanished (hx : x.Represents p) (hy : y.Represents 0) :
    (x + y).Represents p := by
  have h := hx.add hy (z := x) (by rwa [add_zero])
  rwa [add_zero] at h

theorem Represents.vanished_add (hx : x.Represents 0) (hy : y.Represents q) :
    (x + y).Represents q := by
  have h := hx.add hy (z := y) (by rwa [zero_add])
  rwa [zero_add] at h

/-! ## Finite results -/

/-- A sum is finite only if its arguments are. -/
theorem isFinite_of_add (h : (x + y).isFinite = true) :
    x.isFinite = true ∧ y.isFinite = true := by
  have hnan : nan.isFinite = false := by decide +kernel
  change (add x y).isFinite = true at h
  rw [add] at h
  rcases Bool.eq_false_or_eq_true (x.isNaN || y.isNaN) with hn | hn
  · rw [hn, if_pos rfl, hnan] at h
    cases h
  rcases Bool.eq_false_or_eq_true x.isFinite with hx | hx
  · rcases Bool.eq_false_or_eq_true y.isFinite with hy | hy
    · exact ⟨hx, hy⟩
    · simp only [hn, hx, hy, Bool.not_true, Bool.not_false, Bool.false_eq_true, if_false,
        if_true] at h
  · rw [hn, hx, if_neg Bool.false_ne_true, Bool.not_false, if_pos rfl] at h
    split at h
    · rw [hnan] at h
      cases h
    · rw [hx] at h
      cases h

/-- A product is finite only if its arguments are. -/
theorem isFinite_of_mul (h : (x * y).isFinite = true) :
    x.isFinite = true ∧ y.isFinite = true := by
  have hnan : nan.isFinite = false := by decide +kernel
  have hinf : ∀ s, (infinity s).isFinite = false := by decide +kernel
  change (mul x y).isFinite = true at h
  rw [mul] at h
  rcases Bool.eq_false_or_eq_true (x.isNaN || y.isNaN) with hn | hn
  · rw [hn, if_pos rfl, hnan] at h
    cases h
  rcases Bool.eq_false_or_eq_true (!x.isFinite || !y.isFinite) with hf | hf
  · rw [hn, hf, if_neg Bool.false_ne_true, if_pos rfl] at h
    split at h
    · rw [hnan] at h
      cases h
    · rw [hinf] at h
      cases h
  · rw [Bool.or_eq_false_iff, Bool.not_eq_false', Bool.not_eq_false'] at hf
    exact hf

end Double
