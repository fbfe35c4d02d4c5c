import ArbitraryComposer.ToMathlib.DoubleRounding

/-!
# Doubles on a Binary Grid

A grid whose edge is a power of two suits doubles: its lines, and the lines moved by a fraction of
the edge that is a power of two, are doubles. So the cell of a double is found by a division and a
floor, but for doubles that are so small that the quotient vanishes, and a double that is moved by
such a fraction is not rounded across a line.

## Main definitions

- `Double.PowerOfTwo`: a double that stands for a power of two.
- `Double.nextafter`: the neighbour of a double.

## Main results

- `Double.le_floorInt_div`, `Double.floorInt_div_lt`: the cell of a double.
- `Double.exists_before_line`: a double is not moved across a line.
-/

namespace Double

variable {g v x y : Double} {n : ℕ} {c : ℤ}

theorem abs_mul_two_pow_lt {m : ℤ} {e j t : ℕ} (hm : |m| < 2 ^ j) (h : j + e ≤ t) :
    |m * 2 ^ e| < 2 ^ t := by
  rw [abs_mul, abs_pow, abs_two]
  calc |m| * 2 ^ e < 2 ^ j * 2 ^ e := Int.mul_lt_mul_of_pos_right hm (by positivity)
    _ = 2 ^ (j + e) := (pow_add _ _ _).symm
    _ ≤ 2 ^ t := pow_le_pow_right₀ (by decide) h

theorem isFinite_of_key_eq (h : x.key = y.key) (hy : y.isFinite = true) : x.isFinite = true := by
  rw [isFinite_iff] at hy ⊢
  rwa [h]

/-- An integer that fits the significand is a double. -/
theorem ofInt_spec (hc : |c| < 2 ^ 53) :
    (ofInt c).isFinite = true ∧ (ofInt c).units = c * 2 ^ 1074 := by
  obtain ⟨x, hx, hunits⟩ := exists_units hc
    (abs_mul_two_pow_lt hc (show 53 + 1074 ≤ 2098 by decide))
  have hnat : c.natAbs * 2 ^ 1074 = (c * 2 ^ 1074).natAbs := by
    rw [Int.natAbs_mul, Int.natAbs_pow, show Int.natAbs 2 = 2 from rfl]
  have hkey : (ofInt c).key = x.key := by
    rw [← roundKey_units hx Nat.one_pos, hunits, ofInt, hnat, Nat.cast_one, mul_one]
    apply (key_round _).1
    intro hne
    have hpos : (0 : ℤ) < 2 ^ 1074 := pow_pos (by decide) _
    exact decide_eq_decide.mpr ⟨fun h => Int.mul_neg_of_neg_of_pos h hpos,
      fun h => not_le.mp fun hle => absurd h (not_lt.mpr (Int.mul_nonneg hle hpos.le))⟩
  exact ⟨isFinite_of_key_eq hkey hx, (units_eq_units_iff.mpr hkey).trans hunits⟩

theorem le_floorInt_iff : c ≤ x.floorInt ↔ c * 2 ^ 1074 ≤ x.units :=
  Int.le_ediv_iff_mul_le (pow_pos (by decide) _)

theorem ceilInt_eq (x : Double) : x.ceilInt = -(-x).floorInt := by
  rw [ceilInt, floorInt, units_neg]

/-- A double that stands for a power of two. -/
structure PowerOfTwo (g : Double) (n : ℕ) : Prop where
  /-- It is finite. -/
  finite : g.isFinite = true
  /-- The power of two, in units. -/
  units : g.units = 2 ^ n

namespace PowerOfTwo

variable (hg : PowerOfTwo g n)

include hg

theorem units_pos : 0 < g.units := by
  rw [hg.units]
  positivity

/-- A quotient by a power of two. -/
theorem key_div (hv : v.isFinite = true) :
    (v / g).key = roundKey (v.units * 2 ^ 1074) (2 ^ n) ∧ (v / g).isNaN = false := by
  obtain ⟨hkey, hnan⟩ := Double.key_div hv hg.finite hg.units_pos
  rw [hg.units, Int.natAbs_pow, show Int.natAbs 2 = 2 from rfl] at hkey
  exact ⟨hkey, hnan⟩

/-- A quotient is finite only if its first argument is. -/
theorem isFinite_of_div (h : (v / g).isFinite = true) : v.isFinite = true := by
  by_contra hinf
  have hdiv : (div v g).isFinite = true := h
  have hfin : ∀ s, (infinity s).isFinite = false := by decide +kernel
  have hnan : nan.isFinite = false := by decide +kernel
  rw [div, isNaN_of_isFinite hg.finite, hg.finite, (Bool.not_eq_true _).mp hinf] at hdiv
  cases hv : v.isNaN <;> simp [hv, hfin, hnan] at hdiv

/-- The ceiling of a quotient is a floor. -/
theorem ceilInt_div (hv : v.isFinite = true) : (v / g).ceilInt = -(-v / g).floorInt := by
  have hkey : (-(v / g)).key = (-v / g).key := by
    rw [key_neg, (hg.key_div hv).1, (hg.key_div ((isFinite_neg v).trans hv)).1, units_neg,
      Int.neg_mul, roundKey_neg]
  rw [ceilInt_eq, floorInt, floorInt, units_eq_units_iff.mpr hkey]

/-- A double at a line of the grid, or above it, is in a cell from there on. -/
theorem le_floorInt_div (hv : v.isFinite = true) (hc : |c| < 2 ^ 53)
    (h : c * 2 ^ n ≤ v.units) : c ≤ (v / g).floorInt := by
  obtain ⟨hfinite, hunits⟩ := ofInt_spec hc
  rw [le_floorInt_iff, ← hunits, units_le_units_iff, (hg.key_div hv).1]
  apply key_le_roundKey hfinite (by positivity)
  rw [hunits]
  rw [Nat.cast_pow, Nat.cast_ofNat]
  calc c * 2 ^ 1074 * 2 ^ n = c * 2 ^ n * 2 ^ 1074 := mul_right_comm _ _ _
    _ ≤ v.units * 2 ^ 1074 := Int.mul_le_mul_of_nonneg_right h (pow_nonneg (by decide) _)

/-- A quotient that is at most a double below a line is below that line. -/
private theorem floorInt_div_lt_of_le {w : Double} (hv : v.isFinite = true)
    (hw : w.isFinite = true) (h : v.units * 2 ^ 1074 ≤ w.units * 2 ^ n)
    (hlt : w.units < c * 2 ^ 1074) : (v / g).floorInt < c := by
  rw [← not_le, le_floorInt_iff, not_le]
  refine Int.lt_of_le_of_lt (units_le_units_iff.mpr ?_) hlt
  rw [(hg.key_div hv).1]
  apply roundKey_le_key hw (by positivity)
  rw [Nat.cast_pow, Nat.cast_ofNat]
  exact h

/-- A small double has a small quotient: it is below the first line after zero. -/
private theorem floorInt_div_lt_of_small (hv : v.isFinite = true)
    (hsmall : |v.units| * 2 ^ 1022 < 2 ^ n) (hc : 0 < c) : (v / g).floorInt < c := by
  obtain ⟨w, hw, hunits⟩ := exists_units (m := 1) (e := 1073) (by decide)
    (abs_mul_two_pow_lt (show |(1 : ℤ)| < 2 ^ 1 by decide) (show 1 + 1073 ≤ 2098 by decide))
  rw [one_mul] at hunits
  refine hg.floorInt_div_lt_of_le hv hw ?_ ?_
  · have hle : v.units * 2 ^ 1022 ≤ 2 ^ n :=
      Int.le_of_lt (Int.lt_of_le_of_lt
        (Int.mul_le_mul_of_nonneg_right (le_abs_self _) (pow_nonneg (by decide) _)) hsmall)
    calc v.units * 2 ^ 1074 = v.units * 2 ^ 1022 * 2 ^ 52 := by rw [mul_assoc, ← pow_add]
      _ ≤ 2 ^ n * 2 ^ 52 := Int.mul_le_mul_of_nonneg_right hle (by decide)
      _ ≤ 2 ^ n * 2 ^ 1073 := Int.mul_le_mul_of_nonneg_left
          (pow_le_pow_right₀ (by decide) (by decide)) (pow_nonneg (by decide) _)
      _ = w.units * 2 ^ n := by rw [hunits, mul_comm]
  · rw [hunits]
    calc (2 : ℤ) ^ 1073 < 2 ^ 1074 := pow_lt_pow_right₀ (by decide) (by decide)
      _ = 1 * 2 ^ 1074 := (one_mul _).symm
      _ ≤ c * 2 ^ 1074 := Int.mul_le_mul_of_nonneg_right hc (pow_nonneg (by decide) _)

/-- A negative double whose quotient does not vanish is below zero. -/
private theorem floorInt_div_neg (hv : v.isFinite = true) (h : 2 ^ n < -v.units * 2 ^ 1075) :
    (v / g).floorInt < 0 := by
  have hneg : v.units < 0 := by
    by_contra hle
    have hnonpos : -v.units * 2 ^ 1075 ≤ 0 :=
      mul_nonpos_of_nonpos_of_nonneg (by omega) (pow_nonneg (by decide) _)
    exact absurd (h.trans_le hnonpos) (not_lt.mpr (pow_nonneg (by decide) _))
  have hnum : v.units * 2 ^ 1074 < 0 := Int.mul_neg_of_neg_of_pos hneg (pow_pos (by decide) _)
  have hmag : roundMagnitude (v.units * 2 ^ 1074).natAbs (2 ^ n) ≠ 0 := by
    rw [Ne, roundMagnitude_eq_zero_iff (Nat.two_pow_pos n), not_le]
    apply Int.ofNat_lt.mp
    rw [Nat.cast_pow, Nat.cast_mul, Int.natCast_natAbs, abs_of_neg hnum, Nat.cast_ofNat]
    calc (2 : ℤ) ^ n < -v.units * 2 ^ 1075 := h
      _ = -v.units * (2 ^ 1074 * 2) := congrArg _ (pow_succ 2 1074)
      _ = 2 * -(v.units * 2 ^ 1074) := by ring
  have hkey : (v / g).key < 0 := by
    rw [(hg.key_div hv).1, roundKey, if_pos hnum]
    omega
  rw [← not_le, le_floorInt_iff, Int.zero_mul, units_nonneg_iff]
  omega

/-- A double below a line of the grid is in a cell before it, unless its quotient vanishes. -/
theorem floorInt_div_lt (hv : v.isFinite = true) (hc : |c| < 2 ^ 52) (h : v.units < c * 2 ^ n)
    (hzero : c = 0 → 2 ^ n < -v.units * 2 ^ 1075) : (v / g).floorInt < c := by
  rw [abs_lt] at hc
  have hunit : (0 : ℤ) < 2 ^ n := pow_pos (by decide) _
  rcases le_or_gt v.units ((c - 1) * 2 ^ n) with hle | hgt
  · -- the line before is a double between them
    obtain ⟨hw, hunits⟩ := ofInt_spec (c := c - 1) (abs_lt.mpr ⟨by omega, by omega⟩)
    refine hg.floorInt_div_lt_of_le hv hw ?_ ?_
    · calc v.units * 2 ^ 1074 ≤ (c - 1) * 2 ^ n * 2 ^ 1074 :=
            Int.mul_le_mul_of_nonneg_right hle (pow_nonneg (by decide) _)
        _ = (ofInt (c - 1)).units * 2 ^ n := by rw [hunits, mul_right_comm]
    · rw [hunits]
      exact Int.mul_lt_mul_of_pos_right (by omega) (pow_pos (by decide) _)
  obtain ⟨m, e, hm, hsig⟩ := exists_significand v
  by_cases hexp : n ≤ e + 1074
  · -- the quotient is a double
    have habs : |v.units| < 2 ^ 53 * 2 ^ n := by
      rw [abs_lt]
      constructor
      · calc -(2 ^ 53 * 2 ^ n) = -2 ^ 53 * 2 ^ n := by ring
          _ ≤ (c - 1) * 2 ^ n := Int.mul_le_mul_of_nonneg_right (by omega) hunit.le
          _ < v.units := hgt
      · exact h.trans_le (Int.mul_le_mul_of_nonneg_right (by omega) hunit.le)
    have hscale : m * 2 ^ (e + 1074 - n) * 2 ^ n = v.units * 2 ^ 1074 := by
      rw [hsig, mul_assoc, mul_assoc, ← pow_add, ← pow_add, Nat.sub_add_cancel hexp]
    have hbound : |m * 2 ^ (e + 1074 - n)| < 2 ^ 2098 := by
      have hlt : |m * 2 ^ (e + 1074 - n)| * 2 ^ n < 2 ^ 1127 * 2 ^ n := by
        calc |m * 2 ^ (e + 1074 - n)| * 2 ^ n = |m * 2 ^ (e + 1074 - n) * 2 ^ n| := by
              rw [abs_mul _ (2 ^ n), abs_of_pos hunit]
          _ = |v.units| * 2 ^ 1074 := by rw [hscale, abs_mul, abs_pow, abs_two]
          _ < 2 ^ 53 * 2 ^ n * 2 ^ 1074 :=
              Int.mul_lt_mul_of_pos_right habs (pow_pos (by decide) _)
          _ = 2 ^ 1127 * 2 ^ n := by rw [mul_right_comm, ← pow_add]
      exact (lt_of_mul_lt_mul_right hlt hunit.le).trans
        (pow_lt_pow_right₀ (by decide) (by decide))
    obtain ⟨w, hw, hunits⟩ := exists_units hm hbound
    refine hg.floorInt_div_lt_of_le hv hw (Int.le_of_eq ?_) ?_
    · rw [hunits, hscale]
    · rw [hunits]
      refine lt_of_mul_lt_mul_right ?_ hunit.le
      rw [hscale, mul_right_comm]
      exact Int.mul_lt_mul_of_pos_right h (pow_pos (by decide) _)
  · -- the double is too small for the grid
    have hsmall : |v.units| * 2 ^ 1022 < 2 ^ n := by
      rw [hsig, abs_mul, abs_pow, abs_two]
      calc |m| * 2 ^ e * 2 ^ 1022 < 2 ^ 53 * 2 ^ e * 2 ^ 1022 := by
            refine Int.mul_lt_mul_of_pos_right ?_ (pow_pos (by decide) _)
            exact Int.mul_lt_mul_of_pos_right hm (pow_pos (by decide) _)
        _ = 2 ^ (53 + e + 1022) := by rw [← pow_add, ← pow_add]
        _ ≤ 2 ^ n := pow_le_pow_right₀ (by decide) (by omega)
    rcases lt_trichotomy c 0 with hneg | rfl | hpos
    · have hge : 2 ^ n ≤ |v.units| := by
        have hle : c * 2 ^ n ≤ -1 * 2 ^ n := Int.mul_le_mul_of_nonneg_right (by omega) hunit.le
        have habs := neg_le_abs v.units
        omega
      have hone : |v.units| ≤ |v.units| * 2 ^ 1022 :=
        le_mul_of_one_le_right (abs_nonneg _) (one_le_pow₀ (by decide))
      omega
    · exact hg.floorInt_div_neg hv (hzero rfl)
    · exact hg.floorInt_div_lt_of_small hv hsmall hpos

/-- A double at a line of the grid, or below it, is in a cell up to there. -/
theorem ceilInt_div_le (hv : v.isFinite = true) (hc : |c| < 2 ^ 53) (h : v.units ≤ c * 2 ^ n) :
    (v / g).ceilInt ≤ c := by
  rw [hg.ceilInt_div hv]
  have hneg := hg.le_floorInt_div (c := -c) ((isFinite_neg v).trans hv) (by rwa [abs_neg])
    (by rw [units_neg, Int.neg_mul]; exact Int.neg_le_neg h)
  omega

/-- A double above a line of the grid is in a cell after it, unless its quotient vanishes. -/
theorem lt_ceilInt_div (hv : v.isFinite = true) (hc : |c| < 2 ^ 52) (h : c * 2 ^ n < v.units)
    (hzero : c = 0 → 2 ^ n < v.units * 2 ^ 1075) : c < (v / g).ceilInt := by
  rw [hg.ceilInt_div hv]
  have hneg := hg.floorInt_div_lt (c := -c) ((isFinite_neg v).trans hv) (by rwa [abs_neg])
    (by rw [units_neg, Int.neg_mul]; exact Int.neg_lt_neg h)
    (fun hc => by rw [units_neg, Int.neg_neg]; exact hzero (Int.neg_eq_zero.mp hc))
  omega

/-- The quotient of a small double vanishes. -/
theorem key_div_of_small (hv : v.isFinite = true) (h : |v.units| * 2 ^ 1075 ≤ 2 ^ n) :
    (v / g).key = 0 := by
  have hmag : roundMagnitude (v.units * 2 ^ 1074).natAbs (2 ^ n) = 0 := by
    rw [roundMagnitude_eq_zero_iff (Nat.two_pow_pos n)]
    apply Int.ofNat_le.mp
    rw [Nat.cast_pow, Nat.cast_mul, Int.natCast_natAbs, abs_mul, Nat.cast_ofNat,
      abs_of_pos (pow_pos (by decide : (0 : ℤ) < 2) 1074)]
    calc 2 * (|v.units| * 2 ^ 1074) = |v.units| * (2 ^ 1074 * 2) := by ring
      _ = |v.units| * 2 ^ 1075 := congrArg _ (pow_succ 2 1074).symm
      _ ≤ 2 ^ n := h
  rw [(hg.key_div hv).1, roundKey, hmag]
  split <;> rfl

theorem floorInt_div_of_small (hv : v.isFinite = true) (h : |v.units| * 2 ^ 1075 ≤ 2 ^ n) :
    (v / g).floorInt = 0 ∧ (v / g).ceilInt = 0 := by
  have hunits : (v / g).units = 0 :=
    (units_eq_units_iff.mpr ((hg.key_div_of_small hv h).trans key_zero.symm)).trans units_zero
  rw [floorInt, ceilInt, hunits]
  exact ⟨Int.zero_ediv _, by rw [Int.neg_zero, Int.zero_ediv, Int.neg_zero]⟩

/-- A quotient of what is not far away is finite. -/
theorem isFinite_div (hv : v.isFinite = true) (hc : |c| < 2 ^ 53) (h : |v.units| ≤ c * 2 ^ n) :
    (v / g).isFinite = true := by
  obtain ⟨h0, h1⟩ := abs_le.mp h
  obtain ⟨hfinite, hunits⟩ := ofInt_spec hc
  obtain ⟨hfinite', hunits'⟩ := ofInt_spec (c := -c) (by rwa [abs_neg])
  have hup : (v / g).key ≤ (ofInt c).key := by
    rw [(hg.key_div hv).1]
    apply roundKey_le_key hfinite (by positivity)
    rw [hunits, Nat.cast_pow, Nat.cast_ofNat, mul_right_comm]
    exact Int.mul_le_mul_of_nonneg_right h1 (pow_nonneg (by decide) _)
  have hlow : (ofInt (-c)).key ≤ (v / g).key := by
    rw [(hg.key_div hv).1]
    apply key_le_roundKey hfinite' (by positivity)
    rw [hunits', Nat.cast_pow, Nat.cast_ofNat, mul_right_comm, Int.neg_mul]
    exact Int.mul_le_mul_of_nonneg_right h0 (pow_nonneg (by decide) _)
  rw [isFinite_iff] at hfinite hfinite' ⊢
  exact ⟨hfinite'.1.trans_le hlow, hup.trans_lt hfinite.2⟩

end PowerOfTwo

/-! ## Doubles that are moved -/

section Moved

variable {a : ℕ}

/-- What lies between a double that is moved up and a line of the grid, if anything does, and is
well before the line through zero. -/
private structure Before (x : Double) (a : ℕ) (c : ℤ) (w : Double) : Prop where
  /-- It is finite. -/
  finite : w.isFinite = true
  /-- It is not before the moved double. -/
  above : x.units + 2 ^ a ≤ w.units
  /-- It is before the line. -/
  below : w.units < c * 2 ^ (a + 6)
  /-- It is well before zero. -/
  zero : c = 0 → 2 ^ (a + 6) < -w.units * 2 ^ 1075

/-- A sum that is a double. -/
private theorem before_of_exact {m : ℤ} {e : ℕ} (hx : x.isFinite = true) (hm : |m| < 2 ^ 53)
    (hsum : x.units + 2 ^ a = m * 2 ^ e) (h : x.units + 2 ^ a < c * 2 ^ (a + 6))
    (hline : c * 2 ^ (a + 6) < 2 ^ 2098)
    (hzero : c = 0 → 2 ^ (a + 6) < -(x.units + 2 ^ a) * 2 ^ 1075) : ∃ w, Before x a c w := by
  have hpos : (0 : ℤ) < 2 ^ a := pow_pos (by decide) _
  have hlow := (abs_lt.mp (isFinite_iff_units.mp hx)).1
  obtain ⟨w, hw, hunits⟩ := exists_units (m := m) (e := e) hm (by
    rw [← hsum, abs_lt]
    exact ⟨hlow.trans (Int.lt_add_of_pos_right _ hpos), h.trans hline⟩)
  rw [← hsum] at hunits
  exact ⟨w, hw, Int.le_of_eq hunits.symm, hunits ▸ h, fun hc => hunits ▸ hzero hc⟩

/-- A negative multiple of a power of two is well before zero. -/
private theorem far_of_multiple {z m : ℤ} {e : ℕ} (hz : z = m * 2 ^ e) (hneg : z < 0)
    (he : a ≤ e + 52) : (2 : ℤ) ^ (a + 6) < -z * 2 ^ 1075 := by
  have hpos : (0 : ℤ) < 2 ^ e := pow_pos (by decide) _
  have hm : m ≤ -1 := by
    by_contra hlt
    exact absurd hneg (not_lt.mpr (hz ▸ Int.mul_nonneg (by omega) hpos.le))
  have hle : 2 ^ e ≤ -z := by
    have hmul : 1 * 2 ^ e ≤ -m * 2 ^ e := Int.mul_le_mul_of_nonneg_right (by omega) hpos.le
    rw [hz, ← Int.neg_mul]
    omega
  calc (2 : ℤ) ^ (a + 6) < 2 ^ (e + 1075) := pow_lt_pow_right₀ (by decide) (by omega)
    _ = 2 ^ e * 2 ^ 1075 := pow_add _ _ _
    _ ≤ -z * 2 ^ 1075 := Int.mul_le_mul_of_nonneg_right hle (pow_nonneg (by decide) _)

/-- A double that is as coarse as the move. -/
private theorem exists_before_coarse {m : ℤ} {e : ℕ} (hx : x.isFinite = true)
    (hsig : x.units = m * 2 ^ e) (he : a ≤ e) (hc : |c| ≤ 2 ^ 31)
    (h : x.units + 2 ^ a < c * 2 ^ (a + 6)) (hline : c * 2 ^ (a + 6) < 2 ^ 2098) :
    ∃ w, Before x a c w := by
  have hpos : (0 : ℤ) < 2 ^ a := pow_pos (by decide) _
  rw [abs_le] at hc
  have hsum : x.units + 2 ^ a = (m * 2 ^ (e - a) + 1) * 2 ^ a := by
    rw [hsig, Int.add_mul, one_mul, mul_assoc, ← pow_add, Nat.sub_add_cancel he]
  have hline' : c * 2 ^ (a + 6) = c * 64 * 2 ^ a := by
    rw [pow_add, mul_comm (2 ^ a) (2 ^ 6), ← mul_assoc]
    rfl
  generalize m * 2 ^ (e - a) + 1 = M at hsum
  have hM : M < c * 64 := by
    rw [hsum, hline'] at h
    exact lt_of_mul_lt_mul_right h hpos.le
  have hup : M < 2 ^ 53 := hM.trans_le ((Int.mul_le_mul_of_nonneg_right hc.2 (by decide)).trans
    (by decide))
  by_cases hsmall : -2 ^ 53 < M
  · apply before_of_exact hx (abs_lt.mpr ⟨hsmall, hup⟩) hsum h hline
    rintro rfl
    exact far_of_multiple hsum (h.trans_eq (Int.zero_mul _)) (Nat.le_add_right _ _)
  · -- the sum is far below the line
    have hlow := (abs_lt.mp (isFinite_iff_units.mp hx)).1
    have hle : x.units + 2 ^ a ≤ -1 * 2 ^ (52 + a) := by
      rw [hsum, pow_add, ← mul_assoc]
      exact Int.mul_le_mul_of_nonneg_right (by omega) hpos.le
    have hneg : (-1 : ℤ) * 2 ^ (52 + a) < 0 :=
      Int.mul_neg_of_neg_of_pos (by decide) (pow_pos (by decide) _)
    have htop : (0 : ℤ) < 2 ^ 2098 := pow_pos (by decide) _
    have hge := hlow.trans ((Int.lt_add_of_pos_right _ hpos).trans_le hle)
    obtain ⟨w, hw, hunits⟩ := exists_units (m := -1) (e := 52 + a) (by decide)
      (abs_lt.mpr ⟨hge, hneg.trans htop⟩)
    refine ⟨w, hw, hunits ▸ hle, ?_, fun _ => ?_⟩
    · rw [hunits, hline', pow_add, ← mul_assoc]
      exact Int.mul_lt_mul_of_pos_right (by omega) hpos
    · exact far_of_multiple hunits (hunits ▸ hneg) (by omega)

/-- A double that is finer than the move, and whose sum with it has more than 53 bits. -/
private theorem exists_before_carry {m : ℤ} {e : ℕ} (hx : x.isFinite = true) (hm : m < 2 ^ 53)
    (hsig : x.units = m * 2 ^ e) (hsum : x.units + 2 ^ a = (m + 2 ^ (a - e)) * 2 ^ e)
    (he : e < a) (hbig : 2 ^ 53 ≤ m + 2 ^ (a - e)) (h : x.units + 2 ^ a < c * 2 ^ (a + 6))
    (hline : c * 2 ^ (a + 6) < 2 ^ 2098) : ∃ w, Before x a c w := by
  have hpos : (0 : ℤ) < 2 ^ a := pow_pos (by decide) _
  have hunit : (0 : ℤ) < 2 ^ e := pow_pos (by decide) _
  have hlow := (abs_lt.mp (isFinite_iff_units.mp hx)).1
  -- the sum has just passed a power of two
  have hge : 2 ^ (53 + e) ≤ x.units + 2 ^ a := by
    rw [hsum, pow_add]
    exact Int.mul_le_mul_of_nonneg_right hbig hunit.le
  have hlt : x.units + 2 ^ a < 2 ^ (53 + e) + 2 ^ a := by
    rw [hsig, pow_add 2 53 e]
    exact Int.add_lt_add_right (Int.mul_lt_mul_of_pos_right hm hunit) _
  have hB : (0 : ℤ) < 2 ^ (53 + e) := pow_pos (by decide) _
  have hc : 1 ≤ c := by
    by_contra hle
    have hnonpos : c * 2 ^ (a + 6) ≤ 0 :=
      mul_nonpos_of_nonpos_of_nonneg (by clear hline; omega) (pow_nonneg (by decide) _)
    clear hline
    omega
  have hfirst : 2 ^ (a + 6) ≤ c * 2 ^ (a + 6) :=
    le_mul_of_one_le_left (pow_nonneg (by decide) _) hc
  have h4 : (2 : ℤ) ^ (a + 4) = 16 * 2 ^ a := by rw [pow_add, mul_comm]; rfl
  have h5 : (2 : ℤ) ^ (a + 5) = 32 * 2 ^ a := by rw [pow_add, mul_comm]; rfl
  have h6 : (2 : ℤ) ^ (a + 6) = 64 * 2 ^ a := by rw [pow_add, mul_comm]; rfl
  -- it suffices to give a double after the sum and before the line
  have hgive : ∀ {k : ℤ} {j : ℕ}, |k| < 2 ^ 53 → x.units + 2 ^ a ≤ k * 2 ^ j →
      k * 2 ^ j < c * 2 ^ (a + 6) → ∃ w, Before x a c w := by
    intro k j hk habove hbelow
    have hrange : |k * 2 ^ j| < 2 ^ 2098 :=
      abs_lt.mpr ⟨hlow.trans ((Int.lt_add_of_pos_right _ hpos).trans_le habove),
        hbelow.trans hline⟩
    obtain ⟨w, hw, hunits⟩ := exists_units hk hrange
    exact ⟨w, hw, hunits ▸ habove, hunits ▸ hbelow, fun hzero => absurd hc (by rw [hzero]; decide)⟩
  by_cases hnear : 53 + e ≤ a + 4
  · have hBle : (2 : ℤ) ^ (53 + e) ≤ 2 ^ (a + 4) := pow_le_pow_right₀ (by decide) hnear
    refine hgive (k := 1) (j := a + 5) (by decide) ?_ ?_ <;> clear hline <;> omega
  · have hsplit : (2 : ℤ) ^ (53 + e) = 2 ^ (53 + e - (a + 4)) * 2 ^ (a + 4) := by
      rw [← pow_add, Nat.sub_add_cancel (by omega)]
    have hk : (2 : ℤ) ^ (53 + e - (a + 4)) ≤ 2 ^ 48 := pow_le_pow_right₀ (by decide) (by omega)
    have hk0 : (0 : ℤ) < 2 ^ (53 + e - (a + 4)) := pow_pos (by decide) _
    have hsucc : (2 ^ (53 + e - (a + 4)) + 1) * 2 ^ (a + 4) = (2 : ℤ) ^ (53 + e) + 2 ^ (a + 4) := by
      rw [Int.add_mul, one_mul, ← hsplit]
    refine hgive (k := 2 ^ (53 + e - (a + 4)) + 1) (j := a + 4)
      (abs_lt.mpr ⟨by clear hline; omega, by clear hline; omega⟩) ?_ ?_ <;> rw [hsucc]
    · clear hline
      omega
    · by_cases hfive : 53 + e = a + 5
      · rw [hfive]
        clear hline
        omega
      · have hsix : (2 : ℤ) ^ (53 + e) = 2 ^ (53 + e - (a + 6)) * 2 ^ (a + 6) := by
          rw [← pow_add, Nat.sub_add_cancel (by omega)]
        have hclt : 2 ^ (53 + e - (a + 6)) < c := by
          have hlt' : 2 ^ (53 + e - (a + 6)) * 2 ^ (a + 6) < c * 2 ^ (a + 6) :=
            hsix ▸ hge.trans_lt h
          exact lt_of_mul_lt_mul_right hlt' (pow_nonneg (by decide) _)
        have hnext : (2 ^ (53 + e - (a + 6)) + 1) * 2 ^ (a + 6) ≤ c * 2 ^ (a + 6) :=
          Int.mul_le_mul_of_nonneg_right hclt (pow_nonneg (by decide) _)
        rw [Int.add_mul, one_mul, ← hsix] at hnext
        clear hline
        omega

/-- A double that is finer than the move. -/
private theorem exists_before_fine {m : ℤ} {e : ℕ} (hx : x.isFinite = true) (hm : |m| < 2 ^ 53)
    (hsig : x.units = m * 2 ^ e) (he : e < a) (h : x.units + 2 ^ a < c * 2 ^ (a + 6))
    (hline : c * 2 ^ (a + 6) < 2 ^ 2098) : ∃ w, Before x a c w := by
  have hpos : (0 : ℤ) < 2 ^ a := pow_pos (by decide) _
  have hunit : (0 : ℤ) < 2 ^ e := pow_pos (by decide) _
  have hsum : x.units + 2 ^ a = (m + 2 ^ (a - e)) * 2 ^ e := by
    rw [hsig, Int.add_mul, ← pow_add, Nat.sub_add_cancel he.le]
  have hstep : (0 : ℤ) < 2 ^ (a - e) := pow_pos (by decide) _
  obtain ⟨hm0, hm1⟩ := abs_lt.mp hm
  by_cases hsmall : m + 2 ^ (a - e) < 2 ^ 53
  · apply before_of_exact hx (abs_lt.mpr ⟨hm0.trans (Int.lt_add_of_pos_right _ hstep), hsmall⟩)
      hsum h hline
    rintro rfl
    have hneg : x.units + 2 ^ a < 0 := h.trans_eq (Int.zero_mul _)
    refine far_of_multiple hsum hneg ?_
    -- the double is below the move, and its significand has 53 bits
    have hlarge : (2 : ℤ) ^ a < 2 ^ (53 + e) :=
      calc (2 : ℤ) ^ a < -x.units := by clear hline; omega
        _ = -m * 2 ^ e := by rw [hsig, Int.neg_mul]
        _ < 2 ^ 53 * 2 ^ e := Int.mul_lt_mul_of_pos_right (by clear hline; omega) hunit
        _ = 2 ^ (53 + e) := (pow_add _ _ _).symm
    have hexp := (pow_lt_pow_iff_right₀ (by decide : (1 : ℤ) < 2)).mp hlarge
    clear hline
    omega
  · exact exists_before_carry hx hm1 hsig hsum he (not_lt.mp hsmall) h hline

/-- A double that is moved up and stays before a line is rounded to a double before it. -/
private theorem exists_before_line (hx : x.isFinite = true) (hc : |c| ≤ 2 ^ 31)
    (h : x.units + 2 ^ a < c * 2 ^ (a + 6)) (hline : c * 2 ^ (a + 6) < 2 ^ 2098) :
    ∃ w, Before x a c w := by
  obtain ⟨m, e, hm, hsig⟩ := exists_significand x
  rcases Nat.lt_or_ge e a with he | he
  · exact exists_before_fine hx hm hsig he h hline
  · exact exists_before_coarse hx hsig he hc h hline

namespace PowerOfTwo

variable {A : Double} (hA : PowerOfTwo A a) (hg : PowerOfTwo g (a + 6))

include hg in
/-- The cell of a double depends on its place only. -/
theorem floorInt_div_congr (hx : x.isFinite = true) (hy : y.isFinite = true)
    (h : x.key = y.key) : (x / g).floorInt = (y / g).floorInt := by
  have hkey : (x / g).key = (y / g).key := by
    rw [(hg.key_div hx).1, (hg.key_div hy).1, units_eq_units_iff.mpr h]
  rw [floorInt, floorInt, units_eq_units_iff.mpr hkey]

include hg in
/-- The cells of doubles are in their order. -/
theorem floorInt_div_mono (hx : x.isFinite = true) (hy : y.isFinite = true)
    (h : x.units ≤ y.units) : (x / g).floorInt ≤ (y / g).floorInt := by
  apply floorInt_mono
  rw [(hg.key_div hx).1, (hg.key_div hy).1]
  apply roundKey_mono (Nat.two_pow_pos _) (Nat.two_pow_pos _)
  refine Int.mul_le_mul_of_nonneg_right ?_ (Int.natCast_nonneg _)
  exact Int.mul_le_mul_of_nonneg_right h (pow_nonneg (by decide) _)

include hA in
/-- A finite double that is moved up by less than there is room for stays finite. -/
theorem isFinite_add {w : Double} (hx : x.isFinite = true) (hw : w.isFinite = true)
    (h : x.units + 2 ^ a ≤ w.units) :
    (x + A).isFinite = true ∧ x.units ≤ (x + A).units ∧ (x + A).units ≤ w.units := by
  have hpos : (0 : ℤ) < 2 ^ a := pow_pos (by decide) _
  obtain ⟨hkey, -⟩ := key_add hx hA.finite
  rw [hA.units] at hkey
  have hlow : x.key ≤ (x + A).key := by
    rw [hkey]
    apply key_le_roundKey hx Nat.one_pos
    rw [Nat.cast_one, mul_one]
    exact (Int.lt_add_of_pos_right _ hpos).le
  have hup : (x + A).key ≤ w.key := by
    rw [hkey]
    apply roundKey_le_key hw Nat.one_pos
    rw [Nat.cast_one, mul_one]
    exact h
  rw [isFinite_iff] at hx hw ⊢
  exact ⟨⟨hx.1.trans_le hlow, hup.trans_lt hw.2⟩, units_le_units_iff.mpr hlow,
    units_le_units_iff.mpr hup⟩

include hA hg

/-- A double that is moved up and stays before a line is in a cell before it. -/
theorem floorInt_add_div_lt (hx : x.isFinite = true) (hc : |c| ≤ 2 ^ 31)
    (h : x.units + 2 ^ a < c * 2 ^ (a + 6)) (hline : c * 2 ^ (a + 6) < 2 ^ 2098) :
    ((x + A) / g).floorInt < c := by
  obtain ⟨w, hw, habove, hbelow, hzero⟩ := exists_before_line hx hc h hline
  obtain ⟨hsum, -, hle⟩ := hA.isFinite_add hx hw habove
  refine Int.lt_of_le_of_lt (hg.floorInt_div_mono hsum hw hle) ?_
  exact hg.floorInt_div_lt hw (Int.lt_of_le_of_lt hc (by decide)) hbelow hzero

omit hg in
/-- A double that is moved up and stays before zero does not vanish when it is divided. -/
theorem far_of_add_neg (hx : x.isFinite = true) (h : (x + A).units < 0) :
    2 ^ (a + 6) < -(x + A).units * 2 ^ 1075 := by
  have hneg : x.units + 2 ^ a < 0 := by
    by_contra hge
    have hkey : (0 : Double).key ≤ (x + A).key := by
      rw [(key_add hx hA.finite).1, hA.units]
      apply key_le_roundKey (by decide +kernel) Nat.one_pos
      rw [units_zero, Int.zero_mul]
      exact not_lt.mp hge
    rw [key_zero, ← units_nonneg_iff] at hkey
    omega
  obtain ⟨w, hw, habove, -, hzero⟩ := exists_before_line (c := 0) hx (by decide)
    (by rwa [Int.zero_mul]) (by rw [Int.zero_mul]; exact pow_pos (by decide) _)
  obtain ⟨-, -, hle⟩ := hA.isFinite_add hx hw habove
  exact (hzero rfl).trans_le
    (Int.mul_le_mul_of_nonneg_right (Int.neg_le_neg hle) (pow_nonneg (by decide) _))

/-- The line before a double that was moved up is before the double, moved. -/
theorem line_le_of_floorInt_add (hx : x.isFinite = true) (hsum : (x + A).isFinite = true)
    (hc : |c| ≤ 2 ^ 31) (h : c ≤ ((x + A) / g).floorInt) :
    c * 2 ^ (a + 6) ≤ x.units + 2 ^ a := by
  by_contra hlt
  have hline : c * 2 ^ (a + 6) < 2 ^ 2098 := by
    rcases eq_or_ne c 0 with rfl | hne
    · rw [Int.zero_mul]
      exact pow_pos (by decide) _
    · refine lt_of_not_ge fun hge => ?_
      have hroom := (abs_lt.mp (isFinite_iff_units.mp hsum)).2
      exact absurd h (not_le.mpr (hg.floorInt_div_lt hsum (Int.lt_of_le_of_lt hc (by decide))
        (hroom.trans_le hge) fun hzero => absurd hzero hne))
  exact absurd h (not_le.mpr (hA.floorInt_add_div_lt hg hx hc (not_le.mp hlt) hline))

omit hg in
/-- A double that is moved down is the negative one, moved up. -/
theorem key_neg_sub (hx : x.isFinite = true) : (-(x - A)).key = (-x + A).key := by
  rw [key_neg, (key_sub hx hA.finite).1, (key_add ((isFinite_neg x).trans hx) hA.finite).1,
    units_neg, ← roundKey_neg]
  congr 1
  ring

omit hg in
/-- A double that is moved down and stays after zero does not vanish when it is divided. -/
theorem far_of_sub_pos (hx : x.isFinite = true) (h : 0 < (x - A).units) :
    2 ^ (a + 6) < (x - A).units * 2 ^ 1075 := by
  have hunits := units_eq_units_iff.mpr (hA.key_neg_sub hx)
  rw [units_neg] at hunits
  have hfar := hA.far_of_add_neg ((isFinite_neg x).trans hx) (by omega)
  rwa [← hunits, Int.neg_neg] at hfar

/-- The line after a double that was moved down is after the double, moved. -/
theorem le_line_of_ceilInt_sub (hx : x.isFinite = true) (hdiff : (x - A).isFinite = true)
    (hc : |c| ≤ 2 ^ 31) (h : ((x - A) / g).ceilInt ≤ c) :
    x.units - 2 ^ a ≤ c * 2 ^ (a + 6) := by
  have hneg : (-x).isFinite = true := (isFinite_neg x).trans hx
  have hkey := hA.key_neg_sub hx
  have hfinite : (-x + A).isFinite = true :=
    isFinite_of_key_eq hkey.symm ((isFinite_neg _).trans hdiff)
  rw [hg.ceilInt_div hdiff, hg.floorInt_div_congr ((isFinite_neg _).trans hdiff) hfinite hkey] at h
  have hle := hA.line_le_of_floorInt_add hg (c := -c) hneg hfinite (by rwa [abs_neg])
    (Int.neg_le_of_neg_le h)
  rw [units_neg, Int.neg_mul] at hle
  have hpos : (0 : ℤ) < 2 ^ a := pow_pos (by decide) _
  clear hc
  omega

end PowerOfTwo

end Moved

/-! ## Lines of a grid -/

section Lines

/-- A common factor does not matter. -/
theorem roundKey_mul (num : ℤ) {den k : ℕ} (hden : 0 < den) (hk : 0 < k) :
    roundKey (num * k) (den * k) = roundKey num den := by
  have hprod : 0 < den * k := Nat.mul_pos hden hk
  apply Int.le_antisymm
  · exact roundKey_mono hprod hden (Int.le_of_eq (by push_cast; ring))
  · exact roundKey_mono hden hprod (Int.le_of_eq (by push_cast; ring))

variable {m : ℤ} {e : ℕ} {z : Double}

/-- A scaled significand is a double, or it is rounded to an infinity. -/
private theorem roundKey_cases (hm : |m| < 2 ^ 53) :
    (∃ w : Double, w.isFinite = true ∧ w.units = m * 2 ^ e ∧ roundKey (m * 2 ^ e) 1 = w.key) ∨
      (2 ^ 2098 ≤ m * 2 ^ e ∧ roundKey (m * 2 ^ e) 1 = infinityBits) ∨
      (m * 2 ^ e ≤ -2 ^ 2098 ∧ roundKey (m * 2 ^ e) 1 = -infinityBits) := by
  rcases lt_or_ge |m * 2 ^ e| (2 ^ 2098) with hlt | hge
  · obtain ⟨w, hw, hunits⟩ := exists_units hm hlt
    refine Or.inl ⟨w, hw, hunits, ?_⟩
    rw [← roundKey_units hw Nat.one_pos, hunits, Nat.cast_one, mul_one]
  · right
    rcases le_abs.mp hge with hge | hge
    · refine Or.inl ⟨hge, roundKey_of_overflow Nat.one_pos ?_⟩
      rw [Nat.cast_one, mul_one]
      exact hge
    · refine Or.inr ⟨Int.le_neg_of_le_neg hge, ?_⟩
      rw [← Int.neg_neg (roundKey _ _), ← roundKey_neg, roundKey_of_overflow Nat.one_pos]
      rw [Nat.cast_one, mul_one]
      exact hge

/-- A scaled significand, rounded, is compared with a finite double as it stands. -/
theorem roundKey_le_iff (hz : z.isFinite = true) (hm : |m| < 2 ^ 53) :
    roundKey (m * 2 ^ e) 1 ≤ z.key ↔ m * 2 ^ e ≤ z.units := by
  obtain ⟨hz0, hz1⟩ := isFinite_iff.mp hz
  obtain ⟨hu0, hu1⟩ := abs_lt.mp (isFinite_iff_units.mp hz)
  rcases roundKey_cases (e := e) hm with ⟨w, hw, hunits, hkey⟩ | ⟨hge, hkey⟩ | ⟨hle, hkey⟩
  · rw [hkey, ← hunits, units_le_units_iff]
  · rw [hkey]
    exact ⟨fun h => absurd h (not_le.mpr hz1), fun h => absurd h (not_le.mpr (hu1.trans_le hge))⟩
  · rw [hkey]
    exact ⟨fun _ => (hle.trans_lt hu0).le, fun _ => hz0.le⟩

/-- A finite double is compared with a scaled significand, rounded, as that stands. -/
theorem le_roundKey_iff (hz : z.isFinite = true) (hm : |m| < 2 ^ 53) :
    z.key ≤ roundKey (m * 2 ^ e) 1 ↔ z.units ≤ m * 2 ^ e := by
  have h := roundKey_le_iff (m := -m) (e := e) ((isFinite_neg z).trans hz) (by rwa [abs_neg])
  rwa [Int.neg_mul, roundKey_neg, key_neg, units_neg, Int.neg_le_neg_iff, Int.neg_le_neg_iff] at h

namespace PowerOfTwo

variable (hg : PowerOfTwo g n)

include hg

/-- A line of a grid. -/
theorem key_line (hc : |c| < 2 ^ 53) :
    (ofInt c * g).key = roundKey (c * 2 ^ n) 1 ∧ (ofInt c * g).isNaN = false := by
  obtain ⟨hfinite, hunits⟩ := ofInt_spec hc
  obtain ⟨hkey, hnan⟩ := key_mul hfinite hg.finite
  refine ⟨hkey.trans ?_, hnan⟩
  have h := roundKey_mul (c * 2 ^ n) Nat.one_pos (Nat.two_pow_pos 1074)
  rw [← h, hunits, hg.units, one_mul, Nat.cast_pow, Nat.cast_ofNat, mul_right_comm]

omit hg in
/-- A finite double at the place of a scaled significand stands for it. -/
theorem units_of_key_scaled (hz : z.isFinite = true) (hm : |m| < 2 ^ 53)
    (hkey : z.key = roundKey (m * 2 ^ e) 1) : z.units = m * 2 ^ e :=
  Int.le_antisymm ((le_roundKey_iff hz hm).mp hkey.le) ((roundKey_le_iff hz hm).mp hkey.ge)

omit hg in
/-- A number at the place of a scaled significand that is not too far away is finite. -/
theorem isFinite_of_key_scaled (hm : |m| < 2 ^ 53) (hkey : z.key = roundKey (m * 2 ^ e) 1)
    (h : |m * 2 ^ e| < 2 ^ 2098) : z.isFinite = true := by
  obtain ⟨w, hw, hunits⟩ := exists_units hm h
  refine isFinite_of_key_eq (y := w) ?_ hw
  rw [hkey, ← roundKey_units hw Nat.one_pos, hunits, Nat.cast_one, mul_one]

/-- A line of a grid that is not too far away is a double. -/
theorem line_finite (hc : |c| < 2 ^ 53) (h : |c * 2 ^ n| < 2 ^ 2098) :
    (ofInt c * g).isFinite = true ∧ (ofInt c * g).units = c * 2 ^ n := by
  have hkey := (hg.key_line hc).1
  have hfinite := isFinite_of_key_scaled hc hkey h
  exact ⟨hfinite, units_of_key_scaled hfinite hc hkey⟩

/-- A power of two is added to a scaled significand, which may have become an infinity. -/
theorem key_add_scaled (hx : x.isNaN = false) (hkey : x.key = roundKey (m * 2 ^ e) 1)
    (hm : |m| < 2 ^ 53) (hlow : -2 ^ 2098 < m * 2 ^ e) :
    (x + g).key = roundKey (m * 2 ^ e + 2 ^ n) 1 ∧ (x + g).isNaN = false := by
  rcases roundKey_cases (e := e) hm with ⟨w, hw, hunits, hround⟩ | ⟨hge, hround⟩ | ⟨hle, -⟩
  · have hsame := hkey.trans hround
    have h := key_add (isFinite_of_key_eq hsame hw) hg.finite
    rwa [units_eq_units_iff.mpr hsame, hunits, hg.units] at h
  · have hinf : ¬ x.isFinite = true := by
      rw [isFinite_iff, hkey, hround]
      exact fun h => Int.lt_irrefl _ h.2
    rw [add_of_not_isFinite hx hinf hg.finite]
    refine ⟨hkey.trans (hround.trans (roundKey_of_overflow Nat.one_pos ?_).symm), hx⟩
    rw [Nat.cast_one, mul_one]
    exact hge.trans (Int.le_add_of_nonneg_right (pow_nonneg (by decide) _))
  · exact absurd hlow (not_lt.mpr hle)

end PowerOfTwo

end Lines

/-! ## Neighbours -/

section Neighbours

/-- `std::nextafter`. -/
def nextafter (x y : Double) : Double :=
  if x.isNaN || y.isNaN then nan
  else if x.beq y then y
  else if x.magnitude = 0 then ofBits y.negative 1
  else if x.lt y = x.negative then ofBits x.negative (x.magnitude - 1)
  else ofBits x.negative (x.magnitude + 1)

/-- The next double after a lesser one. -/
theorem key_nextafter (h : x.lt y = true) :
    (nextafter x y).key = x.key + 1 ∧ (nextafter x y).isNaN = false := by
  obtain ⟨hx, hy, hlt⟩ := lt_iff.mp h
  have hbeq : x.beq y = false := by
    rw [beq, hx, hy, decide_eq_false (by omega)]
    rfl
  have hxb := key_bounds hx
  have hyb := key_bounds hy
  have hkey : x.key = if x.negative then -(x.magnitude : ℤ) else x.magnitude := rfl
  have hkeyy : y.key = if y.negative then -(y.magnitude : ℤ) else y.magnitude := rfl
  have hone : 1 ≤ infinityBits := by decide
  rw [nextafter, hx, hy, hbeq, h]
  simp only [Bool.or_self, Bool.false_eq_true, if_false]
  split
  case isTrue hzero =>
    have hneg : y.negative = false := by
      by_contra hneg
      rw [(Bool.not_eq_false _).mp hneg, if_pos rfl] at hkeyy
      rw [hzero] at hkey
      split at hkey <;> omega
    obtain ⟨hk, hnan⟩ := key_ofBits_sign y.negative hone
    refine ⟨hk.trans ?_, hnan⟩
    rw [hneg, if_neg Bool.false_ne_true, hkey, hzero]
    split <;> rfl
  case isFalse hzero =>
    split
    case isTrue hneg =>
      rw [← hneg, if_pos rfl] at hkey
      obtain ⟨hk, hnan⟩ := key_ofBits_sign x.negative (m := x.magnitude - 1) (by omega)
      refine ⟨hk.trans ?_, hnan⟩
      rw [← hneg, if_pos rfl, hkey]
      omega
    case isFalse hneg =>
      have hneg : x.negative = false := by
        cases hx : x.negative
        · rfl
        · exact absurd hx.symm hneg
      rw [hneg, if_neg Bool.false_ne_true] at hkey
      obtain ⟨hk, hnan⟩ := key_ofBits_sign x.negative (m := x.magnitude + 1) (by omega)
      refine ⟨hk.trans ?_, hnan⟩
      rw [hneg, if_neg Bool.false_ne_true, hkey]
      omega

/-- There is a number at every place. -/
theorem exists_key {k : ℤ} (h0 : -(infinityBits : ℤ) ≤ k) (h1 : k ≤ infinityBits) :
    ∃ x : Double, x.isNaN = false ∧ x.key = k := by
  obtain ⟨hk, hnan⟩ := key_ofBits_sign (decide (k < 0)) (m := k.natAbs) (by omega)
  refine ⟨_, hnan, hk.trans ?_⟩
  by_cases hneg : k < 0
  · rw [decide_eq_true hneg, if_pos rfl]
    omega
  · rw [decide_eq_false hneg, if_neg Bool.false_ne_true]
    omega

end Neighbours

/-! ## Divisors that are not positive doubles -/

section Divisors

variable {x g : Double}

/-- A quotient by zero is not finite. -/
theorem isFinite_div_zero (x : Double) : (x / 0).isFinite = false := by
  have hfin : ∀ s, (infinity s).isFinite = false := by decide +kernel
  have hnan : nan.isFinite = false := by decide +kernel
  have hzero : isNaN 0 = false ∧ isFinite 0 = true ∧ magnitude 0 = 0 := by decide +kernel
  obtain ⟨hn, hf, hm⟩ := hzero
  show (div x 0).isFinite = false
  rw [div, hn, hf, hm]
  cases hx : x.isNaN <;> cases hxf : x.isFinite <;> by_cases hxm : x.magnitude = 0 <;>
    simp [hxm, hfin, hnan]

/-- A finite quotient by what is not finite is that of a finite double, and vanishes. -/
theorem floorInt_div_of_not_isFinite (hg : g.isFinite = false) (h : (x / g).isFinite = true) :
    x.isFinite = true ∧ (x / g).floorInt = 0 ∧ (x / g).ceilInt = 0 := by
  have hnan : nan.isFinite = false := by decide +kernel
  have hzero : ∀ s, (ofBits s 0).floorInt = 0 ∧ (ofBits s 0).ceilInt = 0 := by decide +kernel
  change (div x g).isFinite = true at h
  show x.isFinite = true ∧ (div x g).floorInt = 0 ∧ (div x g).ceilInt = 0
  have hval : div x g = nan ∨ x.isFinite = true ∧ ∃ s, div x g = ofBits s 0 := by
    rw [div, hg]
    rcases Bool.eq_false_or_eq_true (x.isNaN || g.isNaN) with hn | hn
    · exact Or.inl (by rw [hn]; rfl)
    rcases Bool.eq_false_or_eq_true x.isFinite with hf | hf
    · exact Or.inr ⟨hf, x.negative != g.negative, by rw [hn, hf]; rfl⟩
    · exact Or.inl (by rw [hn, hf]; rfl)
  rcases hval with hval | ⟨hf, s, hval⟩
  · rw [hval, hnan] at h
    cases h
  · rw [hval]
    exact ⟨hf, hzero s⟩

end Divisors

end Double
