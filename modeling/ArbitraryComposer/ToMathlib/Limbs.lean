import Mathlib.Tactic.Ring

/-!
# Numbers in two limbs

Arithmetic on numbers that are kept in limbs of base `W`: when a sum carries and a difference
borrows, the product of two two-limb numbers from the four products of their limbs, and division
one bit of the quotient at a time.

## Main definitions

- `Limbs.divisionStep`, `Limbs.longDivision`: restoring division.

## Main results

- `Limbs.mod_lt_iff_carry`, `Limbs.lt_mod_iff_borrow`: carries are seen in the result.
- `Limbs.mul_eq`: the four limbs of a product.
- `Limbs.longDivision_eq`: restoring division is division.
-/

namespace Limbs

/-! ## Carries -/

section Carries

variable {W x y : ℕ}

/-- A sum that wraps is below each of its summands, and only such a sum is. -/
theorem mod_lt_iff_carry (hx : x < W) (hy : y < W) : (x + y) % W < x ↔ W ≤ x + y := by
  rcases Nat.lt_or_ge (x + y) W with hlt | hge
  · rw [Nat.mod_eq_of_lt hlt]
    omega
  · rw [Nat.mod_eq_sub_mod hge, Nat.mod_eq_of_lt (by omega)]
    omega

/-- The quotient of a sum of two limbs is its carry. -/
theorem div_eq_carry (hx : x < W) (hy : y < W) :
    (x + y) / W = if (x + y) % W < x then 1 else 0 := by
  simp only [mod_lt_iff_carry hx hy]
  split
  case isTrue hge =>
    rw [Nat.div_eq_sub_div (Nat.lt_of_le_of_lt (Nat.zero_le x) hx) hge,
      Nat.div_eq_of_lt (by omega)]
  case isFalse hlt => exact Nat.div_eq_of_lt (by omega)

/-- A difference that wraps is above what it was taken from, and only such a difference is. -/
theorem lt_mod_iff_borrow (hx : x < W) (hy : y < W) : x < (W - y + x) % W ↔ x < y := by
  rcases Nat.lt_or_ge x y with hlt | hge
  · rw [Nat.mod_eq_of_lt (by omega)]
    omega
  · rw [Nat.mod_eq_sub_mod (by omega), Nat.mod_eq_of_lt (by omega)]
    omega

end Carries

/-! ## Products -/

section Products

variable {W : ℕ}

/-- What the middle column of a product of two-limb numbers holds before its carry is taken. -/
def middle (W a0 a1 b0 b1 : ℕ) : ℕ := a0 * b0 / W + a1 * b0 % W + a0 * b1 % W

/-- The part of a product of two-limb numbers above its two low limbs. -/
def top (W a0 a1 b0 b1 : ℕ) : ℕ :=
  a1 * b1 + a1 * b0 / W + a0 * b1 / W + middle W a0 a1 b0 b1 / W

/-- The product of two two-limb numbers: its lowest limb, the one above, and the rest. -/
theorem mul_eq (W a0 a1 b0 b1 : ℕ) :
    (W * a1 + a0) * (W * b1 + b0) =
      W * W * top W a0 a1 b0 b1 + (W * (middle W a0 a1 b0 b1 % W) + a0 * b0 % W) := by
  have h00 : W * (a0 * b0 / W) + a0 * b0 % W = a0 * b0 := Nat.div_add_mod _ _
  have h10 : W * (a1 * b0 / W) + a1 * b0 % W = a1 * b0 := Nat.div_add_mod _ _
  have h01 : W * (a0 * b1 / W) + a0 * b1 % W = a0 * b1 := Nat.div_add_mod _ _
  have hmid : W * (middle W a0 a1 b0 b1 / W) + middle W a0 a1 b0 b1 % W =
      a0 * b0 / W + a1 * b0 % W + a0 * b1 % W := Nat.div_add_mod _ _
  calc (W * a1 + a0) * (W * b1 + b0)
      = W * W * (a1 * b1) + W * (a1 * b0) + W * (a0 * b1) + a0 * b0 := by ring
    _ = W * W * (a1 * b1) + W * (W * (a1 * b0 / W) + a1 * b0 % W)
          + W * (W * (a0 * b1 / W) + a0 * b1 % W) + (W * (a0 * b0 / W) + a0 * b0 % W) := by
        rw [h00, h10, h01]
    _ = W * W * (a1 * b1 + a1 * b0 / W + a0 * b1 / W)
          + W * (a0 * b0 / W + a1 * b0 % W + a0 * b1 % W) + a0 * b0 % W := by ring
    _ = W * W * (a1 * b1 + a1 * b0 / W + a0 * b1 / W)
          + W * (W * (middle W a0 a1 b0 b1 / W) + middle W a0 a1 b0 b1 % W)
          + a0 * b0 % W := by rw [hmid]
    _ = W * W * top W a0 a1 b0 b1 + (W * (middle W a0 a1 b0 b1 % W) + a0 * b0 % W) := by
        rw [top]
        ring

/-- Two limbs hold less than the square of the base. -/
theorem lt_square {lo hi : ℕ} (hlo : lo < W) (hhi : hi < W) : W * hi + lo < W * W := by
  calc W * hi + lo < W * hi + W := Nat.add_lt_add_left hlo _
    _ = W * (hi + 1) := (Nat.mul_succ W hi).symm
    _ ≤ W * W := Nat.mul_le_mul_left W hhi

/-- The two low limbs of a product hold less than the square of the base. -/
theorem low_lt (hW : 0 < W) (a0 a1 b0 b1 : ℕ) :
    W * (middle W a0 a1 b0 b1 % W) + a0 * b0 % W < W * W :=
  lt_square (Nat.mod_lt _ hW) (Nat.mod_lt _ hW)

/-- The rest of a product is its quotient. -/
theorem mul_div_square (hW : 0 < W) (a0 a1 b0 b1 : ℕ) :
    (W * a1 + a0) * (W * b1 + b0) / (W * W) = top W a0 a1 b0 b1 := by
  rw [mul_eq, Nat.mul_add_div (Nat.mul_pos hW hW), Nat.div_eq_of_lt (low_lt hW a0 a1 b0 b1),
    Nat.add_zero]

/-- The two low limbs of a product are its remainder. -/
theorem mul_mod_square (hW : 0 < W) (a0 a1 b0 b1 : ℕ) :
    (W * a1 + a0) * (W * b1 + b0) % (W * W) =
      W * (middle W a0 a1 b0 b1 % W) + a0 * b0 % W := by
  rw [mul_eq, Nat.mul_add_mod, Nat.mod_eq_of_lt (low_lt hW a0 a1 b0 b1)]

/-- The middle column may be reduced after each of its sums, without splitting the two cross
products. -/
theorem middle_mod (W a0 a1 b0 b1 : ℕ) :
    middle W a0 a1 b0 b1 % W = (a0 * b0 / W + a1 * b0 + a0 * b1) % W := by
  rw [middle, Nat.add_mod, Nat.add_mod (a0 * b0 / W), Nat.mod_mod, Nat.mod_mod,
    ← Nat.add_mod (a0 * b0 / W), ← Nat.add_mod]

end Products

/-! ## Division -/

section Division

variable {a b n : ℕ}

/-- One bit of the quotient: the next bit of the dividend goes into the remainder, and the divisor
is taken from it where it fits. -/
def divisionStep (a b i : ℕ) (s : ℕ × ℕ) : ℕ × ℕ :=
  let r := 2 * s.2 + a / 2 ^ i % 2
  if r < b then (s.1, r) else (s.1 + 2 ^ i, r - b)

/-- The bits of the quotient below `n`, from the highest. -/
def longDivision (a b : ℕ) : ℕ → ℕ × ℕ → ℕ × ℕ
  | 0, s => s
  | n + 1, s => longDivision a b n (divisionStep a b n s)

/-- What holds of quotient and remainder when the bits from `n` on are done: they divide the
dividend without its low `n` bits. -/
structure Divides (a b n : ℕ) (s : ℕ × ℕ) : Prop where
  /-- Quotient and remainder make up what has been read of the dividend. -/
  eq : s.1 * b + s.2 * 2 ^ n = a / 2 ^ n * 2 ^ n
  /-- The remainder is below the divisor. -/
  rem_lt : s.2 < b
  /-- No low bit of the quotient is set. -/
  low : 2 ^ n ∣ s.1

/-- Nothing has been read of a dividend that has at most `n` bits. -/
theorem Divides.start (ha : a < 2 ^ n) (hb : 0 < b) : Divides a b n (0, 0) where
  eq := by simp [Nat.div_eq_of_lt ha]
  rem_lt := hb
  low := Nat.dvd_zero _

/-- The remainder is at most what has been read of the dividend. -/
theorem Divides.rem_le {s : ℕ × ℕ} (h : Divides a b n s) : s.2 ≤ a / 2 ^ n := by
  apply Nat.le_of_mul_le_mul_right _ (Nat.two_pow_pos n)
  rw [← h.eq]
  exact Nat.le_add_left _ _

/-- One more bit of a number that has been read down to bit `n + 1`. -/
theorem div_two_pow_succ (a n : ℕ) : a / 2 ^ n = 2 * (a / 2 ^ (n + 1)) + a / 2 ^ n % 2 := by
  have h := Nat.div_add_mod (a / 2 ^ n) 2
  rw [Nat.div_div_eq_div_mul, ← Nat.pow_succ] at h
  exact h.symm

/-- A step keeps it. -/
theorem Divides.step {s : ℕ × ℕ} (h : Divides a b (n + 1) s) :
    Divides a b n (divisionStep a b n s) := by
  have hbit : a / 2 ^ n % 2 < 2 := Nat.mod_lt _ (by decide)
  -- quotient and remainder with the next bit, before the divisor is taken off
  have hread : s.1 * b + (2 * s.2 + a / 2 ^ n % 2) * 2 ^ n = a / 2 ^ n * 2 ^ n :=
    calc s.1 * b + (2 * s.2 + a / 2 ^ n % 2) * 2 ^ n
        = (s.1 * b + s.2 * 2 ^ (n + 1)) + a / 2 ^ n % 2 * 2 ^ n := by ring
      _ = a / 2 ^ (n + 1) * 2 ^ (n + 1) + a / 2 ^ n % 2 * 2 ^ n := by rw [h.eq]
      _ = (2 * (a / 2 ^ (n + 1)) + a / 2 ^ n % 2) * 2 ^ n := by ring
      _ = a / 2 ^ n * 2 ^ n := by rw [← div_two_pow_succ]
  have hlow : 2 ^ n ∣ s.1 := Nat.dvd_trans (Nat.pow_dvd_pow 2 (Nat.le_succ n)) h.low
  simp only [divisionStep]
  split
  case isTrue hlt => exact ⟨hread, hlt, hlow⟩
  case isFalse hge =>
    have hrem := h.rem_lt
    refine ⟨?_, by dsimp only; omega, Nat.dvd_add hlow (Nat.dvd_refl _)⟩
    rw [← hread]
    show (s.1 + 2 ^ n) * b + (2 * s.2 + a / 2 ^ n % 2 - b) * 2 ^ n = _
    obtain ⟨rest, hrest⟩ := Nat.exists_eq_add_of_le (Nat.le_of_not_lt hge)
    rw [hrest, Nat.add_sub_cancel_left]
    ring

/-- The whole division keeps it. -/
theorem Divides.run {s : ℕ × ℕ} (h : Divides a b n s) :
    Divides a b 0 (longDivision a b n s) := by
  induction n generalizing s with
  | zero => exact h
  | succ n ih => exact ih h.step

/-- Restoring division is division. -/
theorem longDivision_eq (ha : a < 2 ^ n) (hb : 0 < b) :
    longDivision a b n (0, 0) = (a / b, a % b) := by
  obtain ⟨heq, hlt, -⟩ := (Divides.start ha hb).run
  rw [Nat.pow_zero, Nat.mul_one, Nat.mul_one, Nat.div_one] at heq
  generalize longDivision a b n (0, 0) = s at heq hlt
  have hmake : s.2 + b * s.1 = a := by
    rw [Nat.mul_comm, Nat.add_comm]
    exact heq
  obtain ⟨hdiv, hmod⟩ := (Nat.div_mod_unique hb).mpr ⟨hmake, hlt⟩
  exact Prod.ext hdiv.symm hmod.symm

end Division

end Limbs
