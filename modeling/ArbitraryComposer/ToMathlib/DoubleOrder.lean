import ArbitraryComposer.ToMathlib.Binary64

/-!
# The Order of Doubles

Doubles that are numbers are ordered by their place; a pattern that is not a number is below and
above nothing. The lesser and the greater of two numbers behave as in any linear order.

## Main definitions

- `Double.Whole`: the integers that fit the significand.

## Main results

- `Double.le_iff`, `Double.lt_iff`: comparisons, as those of the places.
- `Double.lt_min_iff`, `Double.max_le_iff`: comparisons with the lesser and the greater.
- `Double.ofInt_le_iff`, `Double.le_ofInt_iff`: floors and ceilings are adjoint to the integers.
- `Double.Whole.le_toDouble`, `Double.Whole.lt_toDouble`: integers compare as doubles do.
-/

namespace Double

variable {x y z : Double}

/-! ## Comparisons -/

theorem le_iff : x.le y = true ↔ x.isNaN = false ∧ y.isNaN = false ∧ x.key ≤ y.key := by
  simp [le, and_assoc]

theorem lt_iff : x.lt y = true ↔ x.isNaN = false ∧ y.isNaN = false ∧ x.key < y.key := by
  simp [lt, and_assoc]

theorem not_lt_iff (hx : x.isNaN = false) (hy : y.isNaN = false) :
    x.lt y = false ↔ y.key ≤ x.key := by
  rw [← Bool.not_eq_true, lt_iff]
  simp [hx, hy]

theorem lt_of_le_of_lt (h : x.le y = true) (h' : y.lt z = true) : x.lt z = true := by
  obtain ⟨hx, -, hxy⟩ := le_iff.mp h
  obtain ⟨-, hz, hyz⟩ := lt_iff.mp h'
  exact lt_iff.mpr ⟨hx, hz, by omega⟩

theorem le_trans (h : x.le y = true) (h' : y.le z = true) : x.le z = true := by
  obtain ⟨hx, -, hxy⟩ := le_iff.mp h
  obtain ⟨-, hz, hyz⟩ := le_iff.mp h'
  exact le_iff.mpr ⟨hx, hz, by omega⟩

theorem le_refl (hx : x.isNaN = false) : x.le x = true := le_iff.mpr ⟨hx, hx, by omega⟩

/-! ## The lesser and the greater -/

section MinMax

variable {a b : Double}

theorem isNaN_min (ha : a.isNaN = false) (hb : b.isNaN = false) : (a.min b).isNaN = false := by
  unfold min
  split
  · exact hb
  · exact ha

theorem isNaN_max (ha : a.isNaN = false) (hb : b.isNaN = false) : (a.max b).isNaN = false := by
  unfold max
  split
  · exact hb
  · exact ha

theorem key_min (ha : a.isNaN = false) (hb : b.isNaN = false) :
    (a.min b).key = Min.min a.key b.key := by
  unfold min
  split
  case isTrue h =>
    obtain ⟨-, -, h⟩ := lt_iff.mp h
    omega
  case isFalse h =>
    have hle := (not_lt_iff hb ha).mp (Bool.not_eq_true _ ▸ h)
    omega

theorem key_max (ha : a.isNaN = false) (hb : b.isNaN = false) :
    (a.max b).key = Max.max a.key b.key := by
  unfold max
  split
  case isTrue h =>
    obtain ⟨-, -, h⟩ := lt_iff.mp h
    omega
  case isFalse h =>
    have hle := (not_lt_iff ha hb).mp (Bool.not_eq_true _ ▸ h)
    omega

variable (ha : a.isNaN = false) (hb : b.isNaN = false)

include ha hb

theorem min_le_iff : (a.min b).le x = true ↔ a.le x = true ∨ b.le x = true := by
  rw [le_iff, le_iff, le_iff, key_min ha hb, isNaN_min ha hb, ha, hb]
  simp only [true_and, ← and_or_left]
  exact and_congr_right fun _ => by omega

theorem lt_max_iff : x.lt (a.max b) = true ↔ x.lt a = true ∨ x.lt b = true := by
  rw [lt_iff, lt_iff, lt_iff, key_max ha hb, isNaN_max ha hb, ha, hb]
  simp only [true_and, ← and_or_left]
  exact and_congr_right fun _ => by omega

theorem lt_min_iff : x.lt (a.min b) = true ↔ x.lt a = true ∧ x.lt b = true := by
  rw [lt_iff, lt_iff, lt_iff, key_min ha hb, isNaN_min ha hb, ha, hb]
  simp only [true_and, ← and_and_left]
  exact and_congr_right fun _ => by omega

theorem max_le_iff : (a.max b).le x = true ↔ a.le x = true ∧ b.le x = true := by
  rw [le_iff, le_iff, le_iff, key_max ha hb, isNaN_max ha hb, ha, hb]
  simp only [true_and, ← and_and_left]
  exact and_congr_right fun _ => by omega

end MinMax

/-! ## Integers as doubles -/

section Integers

variable {k : ℕ}

private theorem key_le_key_iff : x.key ≤ y.key ↔ x.units ≤ y.units := units_le_units_iff.symm

/-- A number is above an integer when its floor is. -/
theorem ofInt_le_iff (hk : k < 2 ^ 53) (hx : x.isNaN = false) :
    (ofInt k).le x = true ↔ (k : ℤ) ≤ x.floorInt := by
  obtain ⟨hunits, hnan, -⟩ := units_ofInt hk
  rw [le_iff, hnan, hx, key_le_key_iff, hunits, floorInt, Int.le_ediv_iff_mul_le (by positivity)]
  simp only [true_and]

/-- A number is below an integer when its ceiling is. -/
theorem le_ofInt_iff (hk : k < 2 ^ 53) (hx : x.isNaN = false) :
    x.le (ofInt k) = true ↔ x.ceilInt ≤ k := by
  obtain ⟨hunits, hnan, -⟩ := units_ofInt hk
  rw [le_iff, hnan, hx, key_le_key_iff, hunits, ceilInt, neg_le,
    Int.le_ediv_iff_mul_le (by positivity), neg_mul, neg_le_neg_iff]
  simp only [true_and]

/-- A number is below the ceiling of a greater one. -/
theorem floorInt_lt_ceilInt (h : x.lt y = true) : x.floorInt < y.ceilInt := by
  obtain ⟨-, -, hkey⟩ := lt_iff.mp h
  have hunits : x.units < y.units := by
    by_contra hle
    exact absurd (units_le_units_iff.mp (not_lt.mp hle)) (not_le.mpr hkey)
  have hpos : (0 : ℤ) < 2 ^ 1074 := by positivity
  have hfloor := Int.ediv_mul_le x.units hpos.ne'
  have hceil := Int.ediv_mul_le (-y.units) hpos.ne'
  rw [floorInt, ceilInt]
  generalize (2 : ℤ) ^ 1074 = unit at hpos hfloor hceil ⊢
  by_contra hle
  have hmul := mul_le_mul_of_nonneg_right (not_lt.mp hle) hpos.le
  rw [neg_mul] at hmul
  omega

theorem floorInt_mono (h : x.key ≤ y.key) : x.floorInt ≤ y.floorInt :=
  Int.ediv_le_ediv (by positivity) (units_le_units_iff.mpr h)

theorem ceilInt_mono (h : x.key ≤ y.key) : x.ceilInt ≤ y.ceilInt :=
  neg_le_neg (Int.ediv_le_ediv (by positivity) (neg_le_neg (units_le_units_iff.mpr h)))

/-- The integers that fit the significand. -/
abbrev Whole : Type := Fin (2 ^ 53)

/-- An integer as a double. -/
def Whole.toDouble (a : Whole) : Double := ofInt (a.val : ℤ)

namespace Whole

variable (a b : Whole)

theorem isNaN_toDouble : a.toDouble.isNaN = false := (units_ofInt a.isLt).2.1

theorem key_toDouble_le_iff : a.toDouble.key ≤ b.toDouble.key ↔ a ≤ b := by
  rw [key_le_key_iff, toDouble, toDouble, (units_ofInt a.isLt).1, (units_ofInt b.isLt).1,
    Int.mul_le_mul_right (by positivity), Int.ofNat_le]
  rfl

theorem le_toDouble : a.toDouble.le b.toDouble = decide (a ≤ b) := by
  rw [Bool.eq_iff_iff, le_iff, decide_eq_true_iff, isNaN_toDouble, isNaN_toDouble,
    key_toDouble_le_iff]
  simp only [true_and]

theorem lt_toDouble : a.toDouble.lt b.toDouble = decide (a < b) := by
  rw [Bool.eq_iff_iff, lt_iff, decide_eq_true_iff, isNaN_toDouble, isNaN_toDouble, ← not_le,
    key_toDouble_le_iff, not_le]
  simp only [true_and]

theorem beq_toDouble : a.toDouble.beq b.toDouble = decide (a = b) := by
  have hkey : a.toDouble.key = b.toDouble.key ↔ a = b := by
    rw [le_antisymm_iff, key_toDouble_le_iff, key_toDouble_le_iff, ← le_antisymm_iff]
  rw [beq, isNaN_toDouble, isNaN_toDouble, decide_eq_decide.mpr hkey]
  rfl

theorem max_toDouble : a.toDouble.max b.toDouble = (Max.max a b).toDouble := by
  rw [Double.max, lt_toDouble]
  by_cases h : a < b
  · rw [if_pos (decide_eq_true h), max_eq_right h.le]
  · rw [if_neg (by rwa [decide_eq_true_iff]), max_eq_left (not_lt.mp h)]

theorem min_toDouble : a.toDouble.min b.toDouble = (Min.min a b).toDouble := by
  rw [Double.min, lt_toDouble]
  by_cases h : b < a
  · rw [if_pos (decide_eq_true h), min_eq_right h.le]
  · rw [if_neg (by rwa [decide_eq_true_iff]), min_eq_left (not_lt.mp h)]

end Whole

end Integers

end Double
