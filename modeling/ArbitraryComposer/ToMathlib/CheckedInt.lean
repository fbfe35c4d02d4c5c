import Mathlib.Data.Nat.Cast.Field
import Mathlib.Data.Rat.Floor

/-!
# Checked Machine Arithmetic and Rounding Half to Even

Signed integer arithmetic of a fixed width, where an operation whose result does not fit, or a
division by zero, stops the program. A program may also end with an error value of its own.

A rational number is rounded to the nearest integer, and to the even one of the two nearest when it
lies half way between them.

## Main definitions

- `Trap`, `Stop`, `Checked`: how checked arithmetic ends.
- `signed`, `quotient`, `remainder`: the operations of a signed type of some width.
- `magnitude`: the unsigned magnitude of a signed value, computed by unsigned wrap-around.
- `RoundsHalfEven`: an integer is the half-even rounding of a rational number.

## Main results

- `Checked.Yields`: a program that does not trap and whose values have a property, and its rules.
- `RoundsHalfEven.of_floorDiv`: rounding by floor division and a comparison of twice the rest.
-/

/-! ## Arithmetic that may stop -/

/-- An operation without a defined outcome. -/
inductive Trap where
  /-- The result of an operation on a signed type of some width does not fit. -/
  | signedOverflow (bits : ℕ)
  /-- A division by zero. -/
  | divisionByZero
  /-- An assertion of the program failed. -/
  | assertion
  deriving DecidableEq, Repr

/-- How a program stops before its end. -/
inductive Stop (ε : Type) where
  /-- It reached an operation without a defined outcome. -/
  | trap (t : Trap)
  /-- It returned an error value. -/
  | error (e : ε)
  deriving DecidableEq, Repr

/-- A computation with checked arithmetic and error values. -/
abbrev Checked (ε α : Type) : Type := Except (Stop ε) α

/-- A value fits a signed type of `bits` bits. -/
def FitsSigned (bits : ℕ) (x : ℤ) : Prop := -2 ^ (bits - 1) ≤ x ∧ x < 2 ^ (bits - 1)

instance (bits : ℕ) (x : ℤ) : Decidable (FitsSigned bits x) :=
  inferInstanceAs (Decidable (_ ∧ _))

section Operations

variable {ε : Type}

/-- The result of an operation on a signed type. -/
def signed (bits : ℕ) (x : ℤ) : Checked ε ℤ :=
  if FitsSigned bits x then .ok x else .error (.trap (.signedOverflow bits))

/-- Signed division, towards zero. -/
def quotient (bits : ℕ) (x y : ℤ) : Checked ε ℤ :=
  if y = 0 then .error (.trap .divisionByZero) else signed bits (x.tdiv y)

/-- The rest of the signed division, which takes the sign of the dividend. -/
def remainder (x y : ℤ) : Checked ε ℤ :=
  if y = 0 then .error (.trap .divisionByZero) else .ok (x.tmod y)

/-- Unsigned division. -/
def unsignedQuotient (x y : ℕ) : Checked ε ℕ :=
  if y = 0 then .error (.trap .divisionByZero) else .ok (x / y)

end Operations

/-- The magnitude of a signed value, as an unsigned value: a negative one is subtracted from zero
with wrap-around. -/
def magnitude (bits : ℕ) (x : ℤ) : ℕ :=
  if x < 0 then ((0 - x % 2 ^ bits) % 2 ^ bits).toNat else (x % 2 ^ bits).toNat

/-- Euclid's loop. -/
def gcdLoop (a b : ℕ) : ℕ :=
  if b = 0 then a else gcdLoop b (a % b)
termination_by b
decreasing_by exact Nat.mod_lt _ (Nat.pos_of_ne_zero ‹_›)

theorem gcdLoop_eq_gcd (a b : ℕ) : gcdLoop a b = Nat.gcd a b := by
  induction a, b using gcdLoop.induct with
  | case1 a => rw [gcdLoop, if_pos rfl, Nat.gcd_zero_right]
  | case2 a b hb ih =>
    rw [gcdLoop, if_neg hb, ih, Nat.gcd_comm a b, Nat.gcd_rec b a, Nat.gcd_comm]

theorem magnitude_eq_natAbs {bits : ℕ} {x : ℤ} (hbits : 0 < bits) (h : FitsSigned bits x) :
    magnitude bits x = x.natAbs := by
  obtain ⟨hlo, hhi⟩ := h
  have hpow : (2 : ℤ) ^ bits = 2 * 2 ^ (bits - 1) := by
    rw [← pow_succ', Nat.sub_add_cancel hbits]
  have hpos : (0 : ℤ) < 2 ^ (bits - 1) := by positivity
  unfold magnitude
  split
  · rename_i hneg
    rw [Int.sub_emod, Int.emod_emod, ← Int.sub_emod, zero_sub, Int.emod_eq_of_lt (by omega)
      (by omega)]
    omega
  · rename_i hneg
    rw [Int.emod_eq_of_lt (by omega) (by omega)]
    omega

/-! ## Computations that do not trap -/

namespace Checked

variable {ε α β : Type} {P : α → Prop} {Q : β → Prop} {x : Checked ε α}

/-- A computation does not trap, and a value it returns has a property. -/
def Yields (x : Checked ε α) (P : α → Prop) : Prop :=
  match x with
  | .ok a => P a
  | .error (.error _) => True
  | .error (.trap _) => False

/-- A computation traps. -/
def Traps (x : Checked ε α) : Prop := ∃ t, x = .error (.trap t)

theorem yields_ok {a : α} (h : P a) : Yields (ε := ε) (.ok a) P := h

theorem Yields.not_traps (h : x.Yields P) : ¬ x.Traps := by
  rintro ⟨t, rfl⟩
  exact h

theorem Yields.of_ok {a : α} (h : x.Yields P) (hx : x = .ok a) : P a := by
  subst hx
  exact h

/-- The rule of consequence. -/
theorem Yields.mono {P' : α → Prop} (h : x.Yields P) (himp : ∀ a, P a → P' a) : x.Yields P' := by
  match x, h with
  | .ok a, h => exact himp a h
  | .error (.error _), _ => exact trivial

/-- The rule of sequencing. -/
theorem Yields.bind {f : α → Checked ε β} (h : x.Yields P) (hf : ∀ a, P a → (f a).Yields Q) :
    Yields (x >>= f) Q := by
  match x, h with
  | .ok a, h => exact hf a h
  | .error (.error _), _ => exact trivial

/-- A computation that traps first, traps. -/
theorem Traps.bind {f : α → Checked ε β} (h : x.Traps) : Traps (x >>= f) := by
  obtain ⟨t, rfl⟩ := h
  exact ⟨t, rfl⟩

/-- Two computations that are both carried out, one after the other or not: a trap of either is a
trap, and otherwise the first error value is returned. -/
def both (x : Checked ε α) (y : Checked ε β) : Checked ε (α × β) :=
  match x, y with
  | .ok a, .ok b => .ok (a, b)
  | .error (.trap t), _ => .error (.trap t)
  | _, .error (.trap t) => .error (.trap t)
  | .error (.error e), _ => .error (.error e)
  | _, .error (.error e) => .error (.error e)

theorem Yields.both {y : Checked ε β} (hx : x.Yields P) (hy : y.Yields Q) :
    Yields (x.both y) fun p => P p.1 ∧ Q p.2 := by
  match x, y, hx, hy with
  | .ok _, .ok _, hx, hy => exact ⟨hx, hy⟩
  | .ok _, .error (.error _), _, _ => exact trivial
  | .error (.error _), .ok _, _, _ => exact trivial
  | .error (.error _), .error (.error _), _, _ => exact trivial

theorem Traps.both_left (y : Checked ε β) (hx : x.Traps) : Traps (x.both y) := by
  obtain ⟨t, rfl⟩ := hx
  exact ⟨t, by unfold both; split <;> simp_all⟩

theorem Traps.both_right {y : Checked ε β} (x : Checked ε α) (hy : y.Traps) : Traps (x.both y) := by
  obtain ⟨t, rfl⟩ := hy
  match x with
  | .ok _ => exact ⟨t, rfl⟩
  | .error (.trap t') => exact ⟨t', rfl⟩
  | .error (.error _) => exact ⟨t, rfl⟩

end Checked

section Rules

variable {ε : Type} {bits : ℕ} {x y : ℤ}

theorem signed_eq_ok (h : FitsSigned bits x) : signed (ε := ε) bits x = .ok x := if_pos h

theorem quotient_eq_ok (hy : y ≠ 0) (h : FitsSigned bits (x.tdiv y)) :
    quotient (ε := ε) bits x y = .ok (x.tdiv y) := by
  rw [quotient, if_neg hy, signed_eq_ok h]

theorem remainder_eq_ok (hy : y ≠ 0) : remainder (ε := ε) x y = .ok (x.tmod y) := if_neg hy

theorem unsignedQuotient_eq_ok {a b : ℕ} (hb : b ≠ 0) :
    unsignedQuotient (ε := ε) a b = .ok (a / b) := if_neg hb

end Rules

/-! ## Rounding -/

/-- An integer is nearest to a rational number, and even when the number lies half way between two
integers. -/
def RoundsHalfEven (x : ℚ) (z : ℤ) : Prop :=
  |x - z| < 1 / 2 ∨ |x - z| = 1 / 2 ∧ Even z

/-- Rounding by floor division: the quotient goes up when twice the rest exceeds the divisor, and on
a tie when it is odd. -/
theorem RoundsHalfEven.of_floorDiv {n d q r : ℤ} (hd : 0 < d) (hn : n = q * d + r) (hr : 0 ≤ r)
    (hrd : r < d) :
    RoundsHalfEven ((n : ℚ) / d)
      (if d < 2 * r ∨ 2 * r = d ∧ q % 2 ≠ 0 then q + 1 else q) := by
  have hdq : (0 : ℚ) < d := by exact_mod_cast hd
  have hval : (n : ℚ) / d = q + (r : ℚ) / d := by
    rw [hn]
    push_cast
    field_simp
  have hpos : (0 : ℚ) ≤ (r : ℚ) / d := div_nonneg (by exact_mod_cast hr) hdq.le
  have hlt : (r : ℚ) / d < 1 := (div_lt_one hdq).mpr (by exact_mod_cast hrd)
  rw [hval]
  split
  · rename_i hup
    have hhalf : (1 : ℚ) / 2 ≤ (r : ℚ) / d := by
      rw [div_le_div_iff₀ two_pos hdq]
      have : d ≤ r * 2 := by omega
      calc (1 : ℚ) * d = (d : ℚ) := one_mul _
        _ ≤ ((r * 2 : ℤ) : ℚ) := by exact_mod_cast this
        _ = r * 2 := by push_cast; ring
    have habs : |(q : ℚ) + (r : ℚ) / d - ((q + 1 : ℤ) : ℚ)| = 1 - (r : ℚ) / d := by
      rw [abs_of_nonpos (by push_cast; linarith)]
      push_cast
      ring
    rcases hup with hgt | ⟨htie, hodd⟩
    · refine .inl ?_
      rw [habs]
      have : (1 : ℚ) / 2 < (r : ℚ) / d := by
        rw [div_lt_div_iff₀ two_pos hdq]
        have : d < r * 2 := by omega
        calc (1 : ℚ) * d = (d : ℚ) := one_mul _
          _ < ((r * 2 : ℤ) : ℚ) := by exact_mod_cast this
          _ = r * 2 := by push_cast; ring
      linarith
    · refine .inr ⟨?_, ?_⟩
      · rw [habs]
        have : (r : ℚ) / d = 1 / 2 := by
          rw [div_eq_div_iff hdq.ne' two_ne_zero, one_mul]
          have : r * 2 = d := by omega
          exact_mod_cast this
        rw [this]
        norm_num
      · rw [Int.even_add_one]
        rw [Int.even_iff]
        exact hodd
  · rename_i hdown
    have hhalf : (r : ℚ) / d ≤ 1 / 2 := by
      rw [div_le_div_iff₀ hdq two_pos]
      have : r * 2 ≤ d := by omega
      calc (r : ℚ) * 2 = ((r * 2 : ℤ) : ℚ) := by push_cast; ring
        _ ≤ (d : ℚ) := by exact_mod_cast this
        _ = 1 * d := (one_mul _).symm
    have habs : |(q : ℚ) + (r : ℚ) / d - (q : ℚ)| = (r : ℚ) / d := by
      rw [abs_of_nonneg (by linarith)]
      ring
    unfold RoundsHalfEven
    rw [habs]
    rcases hhalf.lt_or_eq with hlt | heq
    · exact .inl hlt
    · refine .inr ⟨heq, ?_⟩
      rw [div_eq_div_iff hdq.ne' two_ne_zero, one_mul] at heq
      have htie : 2 * r = d := by
        have : r * 2 = d := by exact_mod_cast heq
        omega
      rw [Int.even_iff]
      by_contra hodd
      exact hdown (.inr ⟨htie, hodd⟩)
