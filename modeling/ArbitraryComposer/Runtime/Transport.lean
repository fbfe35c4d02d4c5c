import ArbitraryComposer.Base.RationalTime

/-!
# The Transport

A transport owns the playhead of a viewport, a rational rate, a pause flag and loop bounds. It is
advanced by the real time that elapsed, scaled by the rate, rounded once, and wrapped into the loop.
The sum is taken in 128 bits.

## Main definitions

- `Transport`, `Transport.advance`: the clock.
- `Transport.Plays`: it is advanced at rate one and without a wrap.

## Main results

- `Transport.advance_of_plays`: then the playhead moves by what elapsed.
-/

namespace ArbitraryComposer

/-- `Transport`. -/
structure Transport where
  /-- The playhead. -/
  playhead : Int64
  /-- The rate; negative in reverse. -/
  rate : Rational := ⟨1, 1⟩
  /-- The clock is frozen. -/
  paused : Bool := false
  /-- The loop bounds. -/
  loop : Option TimeRange := none
  deriving DecidableEq, Repr

namespace Transport

/-- The instant that an advanced playhead wraps to: the rest of a division, made positive. -/
def wrap (start stop advanced : ℤ) : ℤ :=
  let len := stop - start
  let m := (advanced - start).tmod len
  start + if m < 0 then m + len else m

/-- `Transport::advance`. An error leaves the playhead where it is. -/
def advance (t : Transport) (realElapsed : Int64) : Checked TimeError Transport :=
  if t.paused then pure t
  else do
    let delta ← TimeMap.evaluate ⟨0, t.rate.num, t.rate.den, 0⟩ realElapsed
    let advanced := t.playhead.toInt + delta.toInt
    let unbounded : Checked TimeError Transport :=
      if Int64.maxValue.toInt < advanced ∨ advanced < Int64.minValue.toInt then
        throw (.error .overflow)
      else pure { t with playhead := .ofInt advanced }
    match t.loop with
    | none => unbounded
    | some range =>
      -- a degenerate loop is no loop
      if range.stop ≤ range.start then unbounded
      else
        let wrapped := wrap range.start.toInt range.stop.toInt advanced
        pure { t with playhead := .ofInt wrapped }

/-- The instant that a playhead reaches is inside the loop, if there is one, and can be told. -/
def Reaches (t : Transport) (instant : ℤ) : Prop :=
  FitsSigned 64 instant ∧ ∀ range, t.loop = some range →
    range.start.toInt < range.stop.toInt →
      range.start.toInt ≤ instant ∧ instant < range.stop.toInt

/-- A transport plays at rate one, and does not wrap in the real time that elapses. -/
structure Plays (t : Transport) (realElapsed : ℤ) : Prop where
  /-- It is not paused. -/
  running : t.paused = false
  /-- Its rate is one. -/
  rate_eq : t.rate = ⟨1, 1⟩
  /-- It does not wrap. -/
  reaches : t.Reaches (t.playhead.toInt + realElapsed)

/-! ## Rate one -/

/-- A division by one. -/
private theorem floorDivision_one {n : ℤ} (h : FitsSigned 128 n) :
    ComposedTimeMap.floorDivision n 1 = .ok (n, 0) := by
  have hquotient : quotient (ε := TimeError) 128 n 1 = .ok n := by
    rw [quotient_eq_ok (by decide) (by rwa [Int.tdiv_one]), Int.tdiv_one]
  have hremainder : remainder (ε := TimeError) n 1 = .ok 0 := by
    rw [remainder_eq_ok (by decide), Int.tmod_one]
  rw [ComposedTimeMap.floorDivision, hquotient, hremainder]
  rfl

/-- Nothing is rounded where nothing is left. -/
private theorem roundQuotient_one (q : ℤ) : ComposedTimeMap.roundQuotient q 0 1 = .ok q := by
  have htwice : signed (ε := TimeError) 128 (2 * 0) = .ok 0 := signed_eq_ok (by decide)
  rw [ComposedTimeMap.roundQuotient, htwice]
  rfl

/-- An instant fits its range. -/
private theorem toTime_toInt (t : Int64) : ComposedTimeMap.toTime t.toInt = .ok t := by
  have hlo := t.le_toInt
  have hhi := t.toInt_lt
  have hmax : Int64.maxValue.toInt = 2 ^ 63 - 1 := by decide
  have hmin : Int64.minValue.toInt = -2 ^ 63 := by decide
  rw [ComposedTimeMap.toTime, if_neg (by rw [hmax, hmin]; omega), Int64.ofInt_toInt]
  rfl

/-- At rate one the delta is what elapsed. -/
theorem evaluate_one (realElapsed : Int64) :
    TimeMap.evaluate ⟨0, 1, 1, 0⟩ realElapsed = .ok realElapsed := by
  have hlo := realElapsed.le_toInt
  have hhi := realElapsed.toInt_lt
  have hfrom : ComposedTimeMap.from ⟨0, 1, 1, 0⟩ = .ok ⟨⟨1, 1⟩, ⟨0, 1⟩⟩ := by decide +kernel
  have hfit : FitsSigned 128 realElapsed.toInt := ⟨by omega, by omega⟩
  have hone : (1 : Int64).toInt = 1 := rfl
  have hzero : (0 : Int64).toInt = 0 := rfl
  rw [TimeMap.evaluate, hfrom]
  show ComposedTimeMap.evaluate ⟨⟨1, 1⟩, ⟨0, 1⟩⟩ realElapsed = _
  simp only [ComposedTimeMap.evaluate, hone, hzero, Int.one_mul, Int.mul_one, Int.add_zero,
    signed_eq_ok hfit, signed_eq_ok (show FitsSigned 128 0 by decide),
    signed_eq_ok (show FitsSigned 128 1 by decide), ComposedTimeMap.reported, if_pos hfit,
    floorDivision_one hfit, roundQuotient_one, toTime_toInt, bind, Except.bind]

/-- An instant inside the loop does not wrap. -/
private theorem wrap_of_mem {start stop instant : ℤ} (hstart : start ≤ instant)
    (hstop : instant < stop) : wrap start stop instant = instant := by
  have hmod : (instant - start).tmod (stop - start) = instant - start := by
    rw [Int.tmod_eq_emod_of_nonneg (by omega)]
    exact Int.emod_eq_of_lt (by omega) (by omega)
  rw [wrap, hmod]
  rw [if_neg (by omega)]
  omega

/-- A transport that plays at rate one moves by what elapsed. -/
theorem advance_of_plays {t : Transport} {realElapsed : Int64}
    (h : t.Plays realElapsed.toInt) :
    t.advance realElapsed =
      .ok { t with playhead := .ofInt (t.playhead.toInt + realElapsed.toInt) } := by
  obtain ⟨⟨hlo, hhi⟩, hloop⟩ := h.reaches
  have hmax : Int64.maxValue.toInt = 2 ^ 63 - 1 := by decide
  have hmin : Int64.minValue.toInt = -2 ^ 63 := by decide
  have hbounded : ¬ (Int64.maxValue.toInt < t.playhead.toInt + realElapsed.toInt ∨
      t.playhead.toInt + realElapsed.toInt < Int64.minValue.toInt) := by
    rw [hmax, hmin]
    omega
  rw [advance, h.running, if_neg Bool.false_ne_true, h.rate_eq, evaluate_one]
  simp only [bind, Except.bind, if_neg hbounded]
  cases hrange : t.loop with
  | none => rfl
  | some range =>
    dsimp only
    split
    case isTrue => rfl
    case isFalse hproper =>
      rw [Int64.not_le, Int64.lt_iff_toInt_lt] at hproper
      obtain ⟨hstart, hstop⟩ := hloop range hrange hproper
      rw [wrap_of_mem hstart hstop]
      rfl

end Transport

end ArbitraryComposer
