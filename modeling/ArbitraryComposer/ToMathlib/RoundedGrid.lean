import Mathlib.Tactic.Linarith

/-!
# A grid with rounded points

The points of a grid are the multiples of a positive fraction `a / b`. A whole number belongs to
the last point at or before it, and a point is named by the whole number nearest to it, the even one
of two. The name of a point belongs to the point itself unless it was rounded down.

## Main definitions

- `RoundedGrid.index`: the point that a whole number belongs to.
- `RoundedGrid.rounded`: the whole number nearest to a fraction.
- `RoundedGrid.RoundsUp`: a fraction whose rounding is not below it.

## Main results

- `RoundedGrid.rounded_mono`: rounding keeps the order.
- `RoundedGrid.le_rounded_mul_iff`, `RoundedGrid.rounded_le`: when the rounding is up.
-/

namespace RoundedGrid

variable {a b d i n n' t t' : ℤ}

/-- The last grid point at or before `t`. -/
def index (a b t : ℤ) : ℤ := t * b / a

theorem le_index_iff (ha : 0 < a) : i ≤ index a b t ↔ i * a ≤ t * b :=
  Int.le_ediv_iff_mul_le ha

theorem index_mono (ha : 0 < a) (hb : 0 < b) (h : t ≤ t') : index a b t ≤ index a b t' :=
  Int.ediv_le_ediv ha (mul_le_mul_of_nonneg_right h hb.le)

/-- A whole number between two neighbouring points belongs to the first. -/
theorem index_eq (ha : 0 < a) (hlo : i * a ≤ t * b) (hhi : t * b < (i + 1) * a) :
    index a b t = i := by
  apply le_antisymm
  · apply Int.le_of_lt_add_one
    exact not_le.mp (mt (le_index_iff ha).mp (not_le.mpr hhi))
  · exact (le_index_iff ha).mpr hlo

/-- The rest of a division is large enough, or on a tie the quotient odd, to round up. -/
def Up (n d : ℤ) : Prop := d < 2 * (n % d) ∨ 2 * (n % d) = d ∧ n / d % 2 ≠ 0

instance (n d : ℤ) : Decidable (Up n d) := inferInstanceAs (Decidable (_ ∨ _))

/-- The whole number nearest to `n / d`, the even one of two. -/
def rounded (n d : ℤ) : ℤ := if Up n d then n / d + 1 else n / d

/-- The rounding of `n / d` is not below it. -/
def RoundsUp (n d : ℤ) : Prop := n % d = 0 ∨ Up n d

instance (n d : ℤ) : Decidable (RoundsUp n d) := inferInstanceAs (Decidable (_ ∨ _))

theorem div_le_rounded (n d : ℤ) : n / d ≤ rounded n d := by
  rw [rounded]
  split <;> omega

theorem rounded_le_div_add_one (n d : ℤ) : rounded n d ≤ n / d + 1 := by
  rw [rounded]
  split <;> omega

/-- Rounding keeps the order. -/
theorem rounded_mono (hd : 0 < d) (h : n ≤ n') : rounded n d ≤ rounded n' d := by
  have hq : n / d ≤ n' / d := Int.ediv_le_ediv hd h
  rcases hq.lt_or_eq with hlt | heq
  · exact le_trans (rounded_le_div_add_one n d) (le_trans hlt (div_le_rounded n' d))
  · -- with equal quotients the larger rest rounds up wherever the smaller does
    have hr : n % d ≤ n' % d := by
      have hn := Int.mul_ediv_add_emod n d
      have hn' := Int.mul_ediv_add_emod n' d
      rw [heq] at hn
      omega
    rw [rounded, rounded, heq]
    split
    case isTrue hup =>
      rw [if_pos]
      rcases hup with hgt | ⟨htie, hodd⟩
      · left
        omega
      · rcases hr.lt_or_eq with hlt | hsame
        · left
          omega
        · right
          rw [← hsame, ← heq]
          exact ⟨htie, hodd⟩
    case isFalse => split <;> omega

/-- Rounding does not go down exactly where it reaches the fraction. -/
theorem le_rounded_mul_iff (hd : 0 < d) : n ≤ rounded n d * d ↔ RoundsUp n d := by
  have hn := Int.mul_ediv_add_emod n d
  have hrest := Int.emod_nonneg n hd.ne'
  have hlt := Int.emod_lt_of_pos n hd
  rw [rounded, RoundsUp]
  split
  case isTrue hup =>
    refine iff_of_true ?_ (Or.inr hup)
    rw [add_mul, one_mul, mul_comm]
    omega
  case isFalse hdown =>
    rw [mul_comm, or_iff_left hdown]
    omega

/-- Rounding gives no more than the first whole number that is not below. -/
theorem rounded_le (hd : 0 < d) (h : n ≤ t * d) : rounded n d ≤ t := by
  have hn := Int.mul_ediv_add_emod n d
  have hrest := Int.emod_nonneg n hd.ne'
  have hle : n / d ≤ t := by
    rw [← Int.mul_ediv_cancel t hd.ne']
    exact Int.ediv_le_ediv hd h
  rcases hle.lt_or_eq with hlt | heq
  · exact le_trans (rounded_le_div_add_one n d) hlt
  · -- the fraction is whole, so it is not rounded at all
    have hexact : n % d = 0 := by
      rw [← heq, mul_comm] at h
      omega
    rw [rounded, if_neg]
    · exact hle
    · rintro (hgt | ⟨htie, -⟩) <;> omega

/-- The rounding of zero. -/
theorem rounded_zero (hd : 0 < d) : rounded 0 d = 0 := by
  rw [rounded, if_neg]
  · exact Int.zero_ediv d
  · rintro (hgt | ⟨htie, -⟩)
    · rw [Int.zero_emod] at hgt
      omega
    · rw [Int.zero_emod] at htie
      omega

/-- Rounding a fraction that is not negative gives no negative number. -/
theorem rounded_nonneg (hd : 0 < d) (hn : 0 ≤ n) : 0 ≤ rounded n d :=
  le_trans (Int.ediv_nonneg hn hd.le) (div_le_rounded n d)

end RoundedGrid
