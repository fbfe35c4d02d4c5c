import ArbitraryComposer.Base.RationalTime
import ArbitraryComposer.Contract.AudioFacet
import ArbitraryComposer.ToMathlib.Machine
import ArbitraryComposer.ToMathlib.RoundedGrid

/-!
# The frame times of image sequences

An image sequence shows the frame whose exact instant is the last at or before a time, and names it
by the instant rounded to a whole flick. Where the instant is rounded down, the name belongs to the
frame before.

## Main definitions

- `ImageSeqContent.frameIndexFor`, `instantForIndex`, `quantizeTime`: frames and instants.
- `ImageSeqContent.render`, `playbackHint`, `machine`: the decoder with its cache.
- `ImageSeqContent.Coherent`: what quantised times promise.

## Main results

- `ImageSeqContent.frameIndexValue_eq`, `instantValue_eq`: the grid is computed.
- `ImageSeqContent.answers_of_reachable`: a render in any state that renders and hints lead to.
- `ImageSeqContent.coherent_iff`: when quantised times are coherent.
-/

namespace ArbitraryComposer

variable {φ : Type}

/-- `ImageSeqContent`: the frames are given by their paths. -/
structure ImageSeqContent where
  /-- `d_frames`. -/
  frames : List String
  /-- `d_rate`: frames per second. -/
  rate : Rational

namespace ImageSeqContent

/-! ## Frames and instants -/

/-- `frame_count`, the cast to `int` included. -/
def frameCount (c : ImageSeqContent) : ℤ := (c.frames.length : ℤ).bmod (2 ^ 32)

/-- The division of `frame_index_for`, which goes down. -/
def floorQuotient (numer denom : ℤ) : Checked Empty ℤ := do
  let q ← quotient 128 numer denom
  let rest ← remainder numer denom
  if rest ≠ 0 ∧ numer < 0 then signed 128 (q - 1) else pure q

/-- The index that `frame_index_for` casts to `int`. -/
def frameIndexValue (c : ImageSeqContent) (t : Int64) : Checked Empty ℤ := do
  if c.frames = [] then
    return 0
  let numer ← signed 128 (t.toInt * c.rate.num.toInt)
  let denom ← signed 128 (flicksPerSecond.toInt * c.rate.den.toInt)
  let q ← floorQuotient numer denom
  let q := if q < 0 then 0 else q
  let last ← signed 32 (c.frameCount - 1)
  return if last < q then last else q

/-- `frame_index_for`. -/
def frameIndexFor (c : ImageSeqContent) (t : Int64) : Checked Empty ℤ :=
  (·.bmod (2 ^ 32)) <$> c.frameIndexValue t

/-- The instant that `instant_for_index` casts to 64 bits. -/
def instantValue (c : ImageSeqContent) (index : ℤ) : Checked Empty ℤ := do
  let flicks ← signed 128 (index * flicksPerSecond.toInt)
  let numer ← signed 128 (flicks * c.rate.den.toInt)
  let denom := c.rate.num.toInt
  let q ← quotient 128 numer denom
  let product ← signed 128 (q * denom)
  let r ← signed 128 (numer - product)
  let twice ← signed 128 (2 * r)
  if denom < twice ∨ twice = denom ∧ q % 2 ≠ 0 then signed 128 (q + 1) else pure q

/-- `instant_for_index`. -/
def instantForIndex (c : ImageSeqContent) (index : ℤ) : Checked Empty Int64 :=
  Int64.ofInt <$> c.instantValue index

/-- `quantize_time`. -/
def quantizeTime (c : ImageSeqContent) (t : Int64) : Checked Empty (Option Int64) := do
  if c.frames = [] then
    return none
  return some (← c.instantForIndex (← c.frameIndexFor t))

/-! ## The decoder -/

/-- The mutable part of a content. -/
structure DecoderState (φ : Type) where
  /-- `d_cache`, the most recently used entry last. -/
  cache : List (ℤ × φ) := []
  /-- `d_last_index`. -/
  lastIndex : ℤ := -1
  /-- `d_decodes_issued`. -/
  decodesIssued : ℕ := 0

/-- `RenderResult`, as far as an image sequence sets it from the request and the frame. -/
structure Rendered (φ : Type) where
  /-- `achieved_time`. -/
  achievedTime : Int64
  /-- `provided`. -/
  provided : φ

/-- `RenderError`. -/
inductive RenderError where
  /-- `RenderError::ResourceUnavailable`. -/
  | resourceUnavailable
  deriving DecidableEq

/-- `PlaybackHint`. -/
structure PlaybackHint where
  /-- `direction`. -/
  direction : Int32
  /-- `horizon`. -/
  horizon : Int64

/-- `k_max_resident`. -/
def kMaxResident : ℕ := 16

variable (decode : String → Option φ)

/-- `resolve_locked`, where `decode` reads and decodes a file and checks its size. An index outside
of the frames has no defined outcome. -/
def resolveLocked (c : ImageSeqContent) (index : ℤ) (s : DecoderState φ) :
    Option (Option φ × DecoderState φ) :=
  match s.cache.find? fun entry => entry.1 = index with
  | some (_, frame) =>
    some (some frame,
      { s with cache := s.cache.eraseP (fun entry => entry.1 = index) ++ [(index, frame)] })
  | none =>
    if index < 0 then none
    else
      match c.frames[index.toNat]? with
      | none => none
      | some path =>
        match decode path with
        | none => some (none, s)
        | some frame =>
          let cache := s.cache ++ [(index, frame)]
          some (some frame,
            { s with
              decodesIssued := s.decodesIssued + 1
              cache := if kMaxResident < cache.length then cache.tail else cache })

/-- `render` at a time: what it returns, or the error it settles its completion with. -/
def render (c : ImageSeqContent) (t : Int64) (s : DecoderState φ) :
    Option (Except RenderError (Rendered φ) × DecoderState φ) := do
  if c.frames = [] then
    return (.error .resourceUnavailable, s)
  let index ← (c.frameIndexFor t).toOption
  let (frame, s) ← c.resolveLocked decode index s
  match frame with
  | none => return (.error .resourceUnavailable, s)
  | some frame =>
    let achieved ← (c.instantForIndex index).toOption
    return (.ok { achievedTime := achieved, provided := frame }, { s with lastIndex := index })

/-- The loop of `playback_hint`, with `n` steps to go from the given one. -/
def prerollFrom (c : ImageSeqContent) (anchor direction : ℤ) :
    ℕ → ℤ → DecoderState φ → Option (DecoderState φ)
  | 0, _, s => some s
  | n + 1, step, s => do
    let product ← (signed (ε := Empty) 64 (direction * step)).toOption
    let target ← (signed (ε := Empty) 64 (anchor + product)).toOption
    if target < 0 ∨ c.frameCount ≤ target then return s
    let (_, s) ← c.resolveLocked decode target s
    prerollFrom c anchor direction n (step + 1) s

/-- `playback_hint`. -/
def playbackHint (c : ImageSeqContent) (hint : PlaybackHint) (s : DecoderState φ) :
    Option (DecoderState φ) := do
  if hint.direction = 0 ∨ c.frames = [] then
    return s
  let period ← (c.instantForIndex 1).toOption
  if period ≤ 0 then
    return s
  let k := hint.horizon / period
  let anchor := if 0 ≤ s.lastIndex then s.lastIndex else 0
  c.prerollFrom decode anchor hint.direction.toInt k.toInt.toNat 1 s

/-- What a client does. -/
inductive Call where
  /-- `render` at a time. -/
  | render (t : Int64)
  /-- `playback_hint`. -/
  | hint (h : PlaybackHint)

/-- A content from its construction on. -/
def machine (c : ImageSeqContent) : Machine (DecoderState φ) Call where
  start s := s = {}
  step
    | .render t, s => (c.render decode t s).map Prod.snd
    | .hint h, s => c.playbackHint decode h s

/-! ## What is promised -/

/-- No intermediate of the frame and the instant of a time overflows, and no cast changes what it
casts. -/
structure NoOverflow (c : ImageSeqContent) (t : Int64) : Prop where
  /-- The number of frames is an `int`. -/
  count : FitsSigned 32 c.frames.length
  /-- The index is computed and is an `int`, and its instant is computed and fits 64 bits. -/
  index : ∃ i, c.frameIndexValue t = .ok i ∧ FitsSigned 32 i ∧
    ∃ q, c.instantValue i = .ok q ∧ FitsSigned 64 q

/-- What the decoder answers at a time: the quantised time with the picture of the frame. -/
def Answers (c : ImageSeqContent) (t : Int64) (s : DecoderState φ) : Prop :=
  ∃ q i path s', c.quantizeTime t = .ok (some q) ∧ c.frameIndexFor t = .ok i ∧ 0 ≤ i ∧
    c.frames[i.toNat]? = some path ∧
    c.render decode t s =
      some (match decode path with
        | some frame => .ok { achievedTime := q, provided := frame }
        | none => .error .resourceUnavailable, s')

/-- The promises about quantised times. -/
structure Coherent (c : ImageSeqContent) : Prop where
  /-- Nothing overflows. -/
  noOverflow : ∀ t, c.NoOverflow t
  /-- A quantised time is its own quantised time. -/
  idempotent : ∀ t q, c.quantizeTime t = .ok (some q) → c.quantizeTime q = .ok (some q)
  /-- Later times have later quantised times. -/
  monotone : ∀ t t' q q', t ≤ t' → c.quantizeTime t = .ok (some q) →
    c.quantizeTime t' = .ok (some q') → q ≤ q'
  /-- A render reports the quantised time and provides the frame of the time. -/
  achieved : ∀ s, (c.machine decode).Reachable Machine.anyEvent s → ∀ t, c.Answers decode t s
  /-- Times with one quantised time have one frame. -/
  sameInstant : ∀ t t' q, c.quantizeTime t = .ok (some q) → c.quantizeTime t' = .ok (some q) →
    c.frameIndexFor t = c.frameIndexFor t'
  /-- The frame of a quantised time is the frame of the time. -/
  sameFrame : ∀ t q, c.quantizeTime t = .ok (some q) → c.frameIndexFor q = c.frameIndexFor t

/-- The flicks between the exact instants of two frames, times the numerator of the rate. -/
def ticks (c : ImageSeqContent) : ℤ := flicksPerSecond.toInt * c.rate.den.toInt

/-- A frame that some time shows: a whole flick lies at or after its exact instant, and before that
of the next frame when there is one. -/
def Shown (c : ImageSeqContent) (i : ℤ) : Prop :=
  ∃ t : Int64, i * c.ticks ≤ t.toInt * c.rate.num.toInt ∧
    (i = c.frames.length - 1 ∨ t.toInt * c.rate.num.toInt < (i + 1) * c.ticks)

/-- The instant of no frame that is shown is rounded down, and the frames can be counted. -/
structure Unrounded (c : ImageSeqContent) : Prop where
  /-- The number of frames is an `int`. -/
  count : c.frames.length < 2 ^ 31
  /-- The exact instant is a whole flick, or is rounded up. -/
  up : ∀ i : ℤ, 0 ≤ i → i < c.frames.length → c.Shown i →
    RoundedGrid.RoundsUp (i * c.ticks) c.rate.num.toInt

/-! ## The grid -/

section Grid

variable {c : ImageSeqContent} {t t' : Int64} {i : ℤ}

theorem toInt_flicksPerSecond : flicksPerSecond.toInt = 705600000 := rfl

theorem ticks_pos (hden : 0 < c.rate.den.toInt) : 0 < c.ticks := by
  rw [ticks, toInt_flicksPerSecond]
  omega

theorem ticks_le (c : ImageSeqContent) : c.ticks ≤ 705600000 * 2 ^ 63 := by
  have hden : c.rate.den.toInt < 2 ^ 63 := c.rate.den.toInt_lt
  show 705600000 * c.rate.den.toInt ≤ _
  omega

/-- The frame of a time. -/
def frameAt (c : ImageSeqContent) (t : Int64) : ℤ :=
  min (max (RoundedGrid.index c.ticks c.rate.num.toInt t.toInt) 0) (c.frames.length - 1)

/-- The instant of a frame. -/
def instantAt (c : ImageSeqContent) (i : ℤ) : ℤ :=
  RoundedGrid.rounded (i * c.ticks) c.rate.num.toInt

/-- The division towards zero of `frame_index_for`, corrected, is floor division. -/
theorem tdiv_correct {n d : ℤ} (hd : 0 < d) :
    (if n.tmod d ≠ 0 ∧ n < 0 then n.tdiv d - 1 else n.tdiv d) = n / d := by
  rw [Int.tdiv_eq_ediv, Int.sign_eq_one_of_pos hd]
  by_cases h : n.tmod d ≠ 0 ∧ n < 0
  · rw [if_pos h, if_neg, add_sub_cancel_right]
    rintro (h0 | hdvd)
    · exact absurd h.2 (not_lt.mpr h0)
    · exact h.1 (Int.dvd_iff_tmod_eq_zero.mp hdvd)
  · rw [if_neg h, if_pos, add_zero]
    rw [not_and_or, not_not, not_lt, ← Int.dvd_iff_tmod_eq_zero, or_comm] at h
    exact h

theorem frameCount_eq (hcount : c.frames.length < 2 ^ 31) : c.frameCount = c.frames.length := by
  exact Int.bmod_eq_of_le (by omega) (by omega)

/-- A value goes on to the rest of a computation. -/
theorem ok_bind {α β : Type} (a : α) (f : α → Checked Empty β) : (.ok a >>= f) = f a := rfl

/-- A product of two 64-bit numbers fits 128 bits. -/
theorem fits_mul {x y : Int64} (hy : 0 < y.toInt) : FitsSigned 128 (x.toInt * y.toInt) := by
  have hxlo : -2 ^ 63 ≤ x.toInt := x.le_toInt
  have hxhi : x.toInt < 2 ^ 63 := x.toInt_lt
  have hyhi : y.toInt < 2 ^ 63 := y.toInt_lt
  constructor
  · calc (-2 ^ 127 : ℤ) ≤ -2 ^ 63 * 2 ^ 63 := by decide
      _ ≤ -2 ^ 63 * y.toInt := Int.mul_le_mul_of_nonpos_left (by decide) hyhi.le
      _ ≤ x.toInt * y.toInt := mul_le_mul_of_nonneg_right hxlo hy.le
  · calc x.toInt * y.toInt ≤ 2 ^ 63 * y.toInt := mul_le_mul_of_nonneg_right hxhi.le hy.le
      _ ≤ 2 ^ 63 * 2 ^ 63 := mul_le_mul_of_nonneg_left hyhi.le (by decide)
      _ < 2 ^ 127 := by decide

/-- Floor division by a positive number keeps to the range. -/
theorem fits_ediv {n d : ℤ} (hn : FitsSigned 128 n) (hd : 0 < d) : FitsSigned 128 (n / d) := by
  obtain ⟨hlo, hhi⟩ := hn
  constructor
  · apply (Int.le_ediv_iff_mul_le hd).mpr
    nlinarith
  · apply Int.ediv_lt_of_lt_mul hd
    nlinarith

/-- The division of `frame_index_for` is floor division, and does not overflow. -/
theorem floorQuotient_eq {n d : ℤ} (hn : FitsSigned 128 n) (hd : 0 < d) :
    floorQuotient n d = .ok (n / d) := by
  have hfloor := fits_ediv hn hd
  have hcorrect := tdiv_correct (n := n) hd
  have hfit : FitsSigned 128 (n.tdiv d) := by
    rw [← hcorrect] at hfloor
    split at hfloor
    case isTrue h =>
      have hneg : n.tdiv d ≤ 0 := by
        rw [← neg_neg n, Int.neg_tdiv, neg_nonpos]
        exact Int.tdiv_nonneg (neg_nonneg.mpr h.2.le) hd.le
      exact ⟨le_trans hfloor.1 (sub_le_self _ zero_le_one), lt_of_le_of_lt hneg (by positivity)⟩
    case isFalse => exact hfloor
  simp only [floorQuotient, quotient_eq_ok hd.ne' hfit, remainder_eq_ok hd.ne', bind, Except.bind]
  split
  case isTrue h =>
    rw [if_pos h] at hcorrect
    rw [hcorrect, signed_eq_ok hfloor]
  case isFalse h =>
    rw [if_neg h] at hcorrect
    rw [hcorrect]
    rfl

/-- The ticks fit 128 bits. -/
theorem fits_ticks (hden : 0 < c.rate.den.toInt) : FitsSigned 128 c.ticks := by
  have hle := ticks_le c
  have hpos := ticks_pos hden
  constructor
  · exact le_trans (by norm_num) hpos.le
  · exact lt_of_le_of_lt hle (by norm_num)

/-- The two clamps of `frame_index_for`. -/
theorem clamp_eq {q last : ℤ} (hlast : 0 ≤ last) :
    (if last < (if q < 0 then 0 else q) then last else if q < 0 then 0 else q) =
      min (max q 0) last := by
  split <;> split <;> omega

/-- The index of the last frame is an `int`. -/
theorem fits_last (hcount : c.frames.length < 2 ^ 31) : FitsSigned 32 (c.frameCount - 1) := by
  rw [frameCount_eq hcount]
  constructor
  · show (-2 ^ 31 : ℤ) ≤ _
    omega
  · show _ < (2 ^ 31 : ℤ)
    omega

/-- The index of a time is computed without overflow. -/
theorem frameIndexValue_eq (hframes : c.frames ≠ []) (hcount : c.frames.length < 2 ^ 31)
    (hnum : 0 < c.rate.num.toInt) (hden : 0 < c.rate.den.toInt) (t : Int64) :
    c.frameIndexValue t = .ok (c.frameAt t) := by
  have hnumer : FitsSigned 128 (t.toInt * c.rate.num.toInt) := fits_mul hnum
  have hlength := List.length_pos_iff.mpr hframes
  have hlast := fits_last hcount
  have hdenom := fits_ticks hden
  have hq := floorQuotient_eq hnumer (ticks_pos hden)
  have hone : (1 : ℤ) ≤ c.frames.length := by exact_mod_cast hlength
  rw [ticks] at hdenom hq
  simp only [frameIndexValue, if_neg hframes, signed_eq_ok hnumer, signed_eq_ok hdenom, hq,
    signed_eq_ok hlast, ok_bind]
  rw [frameCount_eq hcount, frameAt, RoundedGrid.index]
  exact congrArg Except.ok (clamp_eq (Int.sub_nonneg_of_le hone))

/-- The frame of a time is a frame. -/
theorem frameAt_bounds (hframes : c.frames ≠ []) (t : Int64) :
    0 ≤ c.frameAt t ∧ c.frameAt t < c.frames.length := by
  have hlength := List.length_pos_iff.mpr hframes
  rw [frameAt]
  omega

/-- Nonnegative numbers fit 128 bits below the bound. -/
theorem fits_nonneg {x : ℤ} (h0 : 0 ≤ x) (hx : x < 2 ^ 127) : FitsSigned 128 x :=
  ⟨le_trans (by norm_num) h0, hx⟩

/-- The instant of a frame is computed without overflow. -/
theorem instantValue_eq (hnum : 0 < c.rate.num.toInt) (hden : 0 < c.rate.den.toInt)
    (h0 : 0 ≤ i) (hi : i < 2 ^ 31) : c.instantValue i = .ok (c.instantAt i) := by
  have hnhi : c.rate.num.toInt < 2 ^ 63 := c.rate.num.toInt_lt
  have hticks := ticks_pos (c := c) hden
  have hn0 : 0 ≤ i * c.ticks := mul_nonneg h0 hticks.le
  have hnhi' : i * c.ticks ≤ 2 ^ 125 :=
    calc i * c.ticks ≤ 2 ^ 31 * (705600000 * 2 ^ 63) :=
          mul_le_mul hi.le (ticks_le c) hticks.le (by norm_num)
      _ ≤ 2 ^ 125 := by norm_num
  have hassoc : i * flicksPerSecond.toInt * c.rate.den.toInt = i * c.ticks := by
    rw [ticks, mul_assoc]
  have hflicks : FitsSigned 128 (i * flicksPerSecond.toInt) := by
    rw [toInt_flicksPerSecond]
    exact fits_nonneg (by positivity) (by omega)
  have hnumer : FitsSigned 128 (i * c.ticks) := fits_nonneg hn0 (by omega)
  have hq0 : 0 ≤ i * c.ticks / c.rate.num.toInt := Int.ediv_nonneg hn0 hnum.le
  have hqle : i * c.ticks / c.rate.num.toInt ≤ i * c.ticks := Int.ediv_le_self _ hn0
  have hdivmod := Int.ediv_mul_add_emod (i * c.ticks) c.rate.num.toInt
  have hr0 := Int.emod_nonneg (i * c.ticks) hnum.ne'
  have hrlt := Int.emod_lt_of_pos (i * c.ticks) hnum
  have htdiv : (i * c.ticks).tdiv c.rate.num.toInt = i * c.ticks / c.rate.num.toInt :=
    Int.tdiv_eq_ediv_of_nonneg hn0
  have hfits : FitsSigned 128 ((i * c.ticks).tdiv c.rate.num.toInt) := by
    rw [htdiv]
    exact fits_nonneg hq0 (by omega)
  have hquot := quotient_eq_ok (ε := Empty) hnum.ne' hfits
  rw [htdiv] at hquot
  have hproduct : FitsSigned 128 (i * c.ticks / c.rate.num.toInt * c.rate.num.toInt) :=
    fits_nonneg (mul_nonneg hq0 hnum.le) (by omega)
  have hrest : i * c.ticks - i * c.ticks / c.rate.num.toInt * c.rate.num.toInt =
      i * c.ticks % c.rate.num.toInt := by omega
  have hr : FitsSigned 128 (i * c.ticks % c.rate.num.toInt) := fits_nonneg hr0 (by omega)
  have htwice : FitsSigned 128 (2 * (i * c.ticks % c.rate.num.toInt)) :=
    fits_nonneg (by omega) (by omega)
  have hup : FitsSigned 128 (i * c.ticks / c.rate.num.toInt + 1) :=
    fits_nonneg (by omega) (by omega)
  simp only [instantValue, signed_eq_ok hflicks, ok_bind, hassoc, signed_eq_ok hnumer, hquot,
    signed_eq_ok hproduct, hrest, signed_eq_ok hr, signed_eq_ok htwice, signed_eq_ok hup]
  rw [instantAt, RoundedGrid.rounded]
  exact (apply_ite Except.ok _ _ _).symm

/-- A frame is at or before the time it is shown at, but for the first one. -/
theorem frameAt_mul_le (hden : 0 < c.rate.den.toInt) (hpos : 0 < c.frameAt t) :
    c.frameAt t * c.ticks ≤ t.toInt * c.rate.num.toInt := by
  apply (RoundedGrid.le_index_iff (ticks_pos hden)).mp
  rw [frameAt] at hpos ⊢
  omega

/-- The instant of the frame of a time fits 64 bits. -/
theorem instantAt_fits (hframes : c.frames ≠ []) (hnum : 0 < c.rate.num.toInt)
    (hden : 0 < c.rate.den.toInt) (t : Int64) :
    0 ≤ c.instantAt (c.frameAt t) ∧ c.instantAt (c.frameAt t) < 2 ^ 63 := by
  obtain ⟨h0, -⟩ := frameAt_bounds hframes t
  refine ⟨RoundedGrid.rounded_nonneg hnum (mul_nonneg h0 (ticks_pos hden).le), ?_⟩
  rcases h0.lt_or_eq with hpos | hzero
  · exact lt_of_le_of_lt (RoundedGrid.rounded_le hnum (frameAt_mul_le hden hpos)) t.toInt_lt
  · rw [← hzero, instantAt, zero_mul, RoundedGrid.rounded_zero hnum]
    norm_num

/-- The quantised time of a time. -/
def quantisedAt (c : ImageSeqContent) (t : Int64) : Int64 := .ofInt (c.instantAt (c.frameAt t))

theorem toInt_quantisedAt (hframes : c.frames ≠ []) (hnum : 0 < c.rate.num.toInt)
    (hden : 0 < c.rate.den.toInt) (t : Int64) :
    (c.quantisedAt t).toInt = c.instantAt (c.frameAt t) := by
  obtain ⟨h0, hlt⟩ := instantAt_fits hframes hnum hden t
  exact Int64.toInt_ofInt_of_le (le_trans (by norm_num) h0) hlt

/-- The frame of a time is computed as it is. -/
theorem frameIndexFor_eq (hframes : c.frames ≠ []) (hcount : c.frames.length < 2 ^ 31)
    (hnum : 0 < c.rate.num.toInt) (hden : 0 < c.rate.den.toInt) (t : Int64) :
    c.frameIndexFor t = .ok (c.frameAt t) := by
  obtain ⟨h0, hlt⟩ := frameAt_bounds hframes t
  rw [frameIndexFor, frameIndexValue_eq hframes hcount hnum hden]
  exact congrArg Except.ok (Int.bmod_eq_of_le (by omega) (by omega))

/-- A frame has an instant. -/
theorem instantForIndex_eq (hnum : 0 < c.rate.num.toInt) (hden : 0 < c.rate.den.toInt)
    (h0 : 0 ≤ i) (hi : i < 2 ^ 31) : c.instantForIndex i = .ok (.ofInt (c.instantAt i)) := by
  rw [instantForIndex, instantValue_eq hnum hden h0 hi]
  rfl

/-- A time is quantised to the instant of its frame. -/
theorem quantizeTime_eq (hframes : c.frames ≠ []) (hcount : c.frames.length < 2 ^ 31)
    (hnum : 0 < c.rate.num.toInt) (hden : 0 < c.rate.den.toInt) (t : Int64) :
    c.quantizeTime t = .ok (some (c.quantisedAt t)) := by
  obtain ⟨h0, hlt⟩ := frameAt_bounds hframes t
  rw [quantizeTime, if_neg hframes, frameIndexFor_eq hframes hcount hnum hden, ok_bind,
    instantForIndex_eq hnum hden h0 (by omega)]
  rfl

/-- Later times have later frames. -/
theorem frameAt_mono (hnum : 0 < c.rate.num.toInt) (hden : 0 < c.rate.den.toInt)
    (h : t.toInt ≤ t'.toInt) : c.frameAt t ≤ c.frameAt t' := by
  have hindex := RoundedGrid.index_mono (ticks_pos (c := c) hden) hnum h
  rw [frameAt, frameAt]
  omega

/-- A frame from the second on, at or before a time, is at or before the frame of the time. -/
theorem le_frameAt (hden : 0 < c.rate.den.toInt) (hi : i < c.frames.length)
    (h : i * c.ticks ≤ t.toInt * c.rate.num.toInt) : i ≤ c.frameAt t := by
  have hindex := (RoundedGrid.le_index_iff (ticks_pos (c := c) hden)).mpr h
  rw [frameAt]
  omega

/-- The frame of a time is shown. -/
theorem shown_frameAt (hden : 0 < c.rate.den.toInt) (hpos : 0 < c.frameAt t) :
    c.Shown (c.frameAt t) := by
  refine ⟨t, frameAt_mul_le hden hpos, ?_⟩
  by_contra hnext
  rw [not_or, not_lt] at hnext
  have hlater := (RoundedGrid.le_index_iff (ticks_pos (c := c) hden)).mpr hnext.2
  have hne := hnext.1
  rw [frameAt] at hlater hne hpos
  omega

/-- Where a frame is shown, it is the frame of a time. -/
theorem exists_frameAt_eq (hden : 0 < c.rate.den.toInt) (h0 : 0 ≤ i) (hi : i < c.frames.length)
    (h : c.Shown i) : ∃ t, c.frameAt t = i ∧ i * c.ticks ≤ t.toInt * c.rate.num.toInt := by
  obtain ⟨t, hlo, hhi⟩ := h
  refine ⟨t, ?_, hlo⟩
  rcases hhi with hlast | hlt
  · have hle := le_frameAt hden hi hlo
    rw [frameAt] at hle ⊢
    omega
  · rw [frameAt, RoundedGrid.index_eq (ticks_pos hden) hlo hlt]
    omega

end Grid

/-! ## Quantised times -/

section Quantised

variable {c : ImageSeqContent} {t t' : Int64}

/-- Where no instant is rounded down, the frame of a quantised time is the frame of the time. -/
theorem Unrounded.frameAt_quantisedAt (h : c.Unrounded) (hframes : c.frames ≠ [])
    (hnum : 0 < c.rate.num.toInt) (hden : 0 < c.rate.den.toInt) (t : Int64) :
    c.frameAt (c.quantisedAt t) = c.frameAt t := by
  obtain ⟨h0, hlt⟩ := frameAt_bounds hframes t
  have hq := toInt_quantisedAt hframes hnum hden t
  rcases h0.lt_or_eq with hpos | hzero
  · have hle := frameAt_mul_le hden hpos
    apply le_antisymm
    · apply frameAt_mono hnum hden
      rw [hq]
      exact RoundedGrid.rounded_le hnum hle
    · apply le_frameAt hden hlt
      rw [hq]
      exact (RoundedGrid.le_rounded_mul_iff hnum).mpr (h.up _ h0 hlt (shown_frameAt hden hpos))
  · -- the instant of the first frame is zero
    rw [← hzero, instantAt, zero_mul, RoundedGrid.rounded_zero hnum] at hq
    rw [← hzero, frameAt, hq, RoundedGrid.index, zero_mul, Int.zero_ediv]
    omega

/-- Where the frame of a quantised time is the frame of the time, no instant is rounded down. -/
theorem roundsUp_of_frameAt_quantisedAt (hframes : c.frames ≠ []) (hnum : 0 < c.rate.num.toInt)
    (hden : 0 < c.rate.den.toInt) {i : ℤ} (h0 : 0 ≤ i) (hi : i < c.frames.length)
    (hshown : c.Shown i) (h : ∀ t, c.frameAt (c.quantisedAt t) = c.frameAt t) :
    RoundedGrid.RoundsUp (i * c.ticks) c.rate.num.toInt := by
  rcases h0.lt_or_eq with hpos | rfl
  · obtain ⟨t, ht, -⟩ := exists_frameAt_eq hden h0 hi hshown
    have hsame := h t
    rw [ht] at hsame
    have hle := frameAt_mul_le (t := c.quantisedAt t) hden (by rwa [hsame])
    rw [hsame, toInt_quantisedAt hframes hnum hden, ht] at hle
    exact (RoundedGrid.le_rounded_mul_iff hnum).mp hle
  · left
    rw [zero_mul, Int.zero_emod]

end Quantised

/-! ## The decoder's cache -/

section Decoder

variable {c : ImageSeqContent} {decode : String → Option φ} {s s' : DecoderState φ} {index : ℤ}

/-- Every cached picture is that of its frame. -/
def Cached (c : ImageSeqContent) (decode : String → Option φ) (s : DecoderState φ) : Prop :=
  ∀ entry ∈ s.cache, ∃ path, c.frames[entry.1.toNat]? = some path ∧ decode path = some entry.2

/-- Resolving a frame keeps the cache right. -/
theorem Cached.resolveLocked {frame : Option φ} (h : c.Cached decode s)
    (hr : c.resolveLocked decode index s = some (frame, s')) : c.Cached decode s' := by
  rw [ImageSeqContent.resolveLocked] at hr
  split at hr
  case h_1 j f hfind =>
    obtain ⟨-, rfl⟩ := Prod.mk.inj (Option.some.inj hr)
    obtain ⟨hmem, hj⟩ := And.intro (List.mem_of_find?_eq_some hfind) (List.find?_some hfind)
    have hj : j = index := of_decide_eq_true hj
    intro entry hentry
    rcases List.mem_append.mp hentry with hold | hnew
    · exact h entry (List.mem_of_mem_eraseP hold)
    · rw [List.mem_singleton.mp hnew, ← hj]
      exact h (j, f) hmem
  case h_2 =>
    split at hr
    case isTrue => cases hr
    case isFalse =>
      split at hr
      case h_1 => cases hr
      case h_2 path hpath =>
        split at hr
        case h_1 =>
          obtain ⟨-, rfl⟩ := Prod.mk.inj (Option.some.inj hr)
          exact h
        case h_2 f hf =>
          obtain ⟨-, rfl⟩ := Prod.mk.inj (Option.some.inj hr)
          have hall : ∀ entry ∈ s.cache ++ [(index, f)], ∃ path,
              c.frames[entry.1.toNat]? = some path ∧ decode path = some entry.2 := by
            intro entry hentry
            rcases List.mem_append.mp hentry with hold | hnew
            · exact h entry hold
            · rw [List.mem_singleton.mp hnew]
              exact ⟨path, hpath, hf⟩
          intro entry hentry
          dsimp only at hentry
          split at hentry
          case isTrue => exact hall entry (List.mem_of_mem_tail hentry)
          case isFalse => exact hall entry hentry

/-- Resolving a frame gives its picture, cached or decoded. -/
theorem Cached.resolveLocked_eq (h : c.Cached decode s) (h0 : 0 ≤ index)
    (hi : index < c.frames.length) :
    ∃ path s', c.frames[index.toNat]? = some path ∧
      c.resolveLocked decode index s = some (decode path, s') := by
  have hlt : index.toNat < c.frames.length := by omega
  have hpath := List.getElem?_eq_getElem hlt
  refine ⟨c.frames[index.toNat], ?_⟩
  rw [ImageSeqContent.resolveLocked]
  split
  case h_1 j f hfind =>
    have hj : j = index := by simpa using List.find?_some hfind
    obtain ⟨path, hp, hf⟩ := h _ (List.mem_of_find?_eq_some hfind)
    dsimp only at hp hf
    rw [hj, hpath] at hp
    obtain rfl := Option.some.inj hp
    rw [hf]
    exact ⟨_, hpath, rfl⟩
  case h_2 =>
    rw [if_neg (not_lt.mpr h0)]
    simp only [hpath]
    split
    case h_1 hf => exact ⟨_, trivial, by rw [hf]⟩
    case h_2 f hf => exact ⟨_, trivial, by rw [hf]⟩

/-- The pre-roll keeps the cache right. -/
theorem Cached.prerollFrom {anchor direction step : ℤ} {n : ℕ} (h : c.Cached decode s)
    (hr : c.prerollFrom decode anchor direction n step s = some s') : c.Cached decode s' := by
  induction n generalizing step s with
  | zero =>
    obtain rfl := Option.some.inj hr
    exact h
  | succ n ih =>
    simp only [ImageSeqContent.prerollFrom, Option.bind_eq_bind, Option.bind_eq_some_iff] at hr
    obtain ⟨product, -, target, -, hr⟩ := hr
    split at hr
    case isTrue =>
      obtain rfl := Option.some.inj hr
      exact h
    case isFalse =>
      obtain ⟨⟨frame, t⟩, hres, hr⟩ := Option.bind_eq_some_iff.mp hr
      exact ih (h.resolveLocked hres) hr

/-- A render keeps the cache right. -/
theorem Cached.render {t : Int64} {out : Except RenderError (Rendered φ)}
    (h : c.Cached decode s) (hr : c.render decode t s = some (out, s')) : c.Cached decode s' := by
  simp only [ImageSeqContent.render, Option.bind_eq_bind] at hr
  split at hr
  case isTrue =>
    obtain ⟨-, rfl⟩ := Prod.mk.inj (Option.some.inj hr)
    exact h
  case isFalse =>
    obtain ⟨index, -, hr⟩ := Option.bind_eq_some_iff.mp hr
    obtain ⟨⟨frame, s₁⟩, hres, hr⟩ := Option.bind_eq_some_iff.mp hr
    have hcached := h.resolveLocked hres
    cases frame with
    | none =>
      obtain ⟨-, rfl⟩ := Prod.mk.inj (Option.some.inj hr)
      exact hcached
    | some f =>
      obtain ⟨achieved, -, hr⟩ := Option.bind_eq_some_iff.mp hr
      obtain ⟨-, rfl⟩ := Prod.mk.inj (Option.some.inj hr)
      exact hcached

/-- A hint keeps the cache right. -/
theorem Cached.playbackHint {hint : PlaybackHint} (h : c.Cached decode s)
    (hr : c.playbackHint decode hint s = some s') : c.Cached decode s' := by
  simp only [ImageSeqContent.playbackHint, Option.bind_eq_bind] at hr
  split at hr
  case isTrue =>
    obtain rfl := Option.some.inj hr
    exact h
  case isFalse =>
    obtain ⟨period, -, hr⟩ := Option.bind_eq_some_iff.mp hr
    split at hr
    case isTrue =>
      obtain rfl := Option.some.inj hr
      exact h
    case isFalse => exact h.prerollFrom hr

/-- The cache is right in every state of a content. -/
theorem cached_of_reachable (h : (c.machine decode).Reachable Machine.anyEvent s) :
    c.Cached decode s := by
  apply h.invariant (I := c.Cached decode)
  · rintro s rfl entry hentry
    exact absurd hentry List.not_mem_nil
  · rintro s (t | hint) s' hs - hstep
    · obtain ⟨⟨out, s''⟩, hr, rfl⟩ := Option.map_eq_some_iff.mp hstep
      exact hs.render hr
    · exact hs.playbackHint hstep

/-- A render in any state that renders and hints lead to answers with the quantised time and the
frame of the time. -/
theorem answers_of_reachable (hframes : c.frames ≠ []) (hcount : c.frames.length < 2 ^ 31)
    (hnum : 0 < c.rate.num.toInt) (hden : 0 < c.rate.den.toInt)
    (h : (c.machine decode).Reachable Machine.anyEvent s) (t : Int64) : c.Answers decode t s := by
  obtain ⟨h0, hlt⟩ := frameAt_bounds hframes t
  obtain ⟨path, s', hpath, hres⟩ := (cached_of_reachable h).resolveLocked_eq h0 hlt
  have hindex := frameIndexFor_eq hframes hcount hnum hden t
  have hinstant := instantForIndex_eq hnum hden h0 (lt_trans hlt (by exact_mod_cast hcount))
  refine ⟨c.quantisedAt t, c.frameAt t, path, ?_⟩
  have hrender : ∃ s'', c.render decode t s = some (match decode path with
      | some frame => .ok { achievedTime := c.quantisedAt t, provided := frame }
      | none => .error .resourceUnavailable, s'') := by
    rw [ImageSeqContent.render, if_neg hframes, hindex]
    simp only [Except.toOption, Option.bind_eq_bind, Option.bind_some, hres]
    cases decode path with
    | none => exact ⟨_, rfl⟩
    | some f =>
      dsimp only
      rw [hinstant]
      exact ⟨_, rfl⟩
  obtain ⟨s'', hrender⟩ := hrender
  exact ⟨s'', quantizeTime_eq hframes hcount hnum hden t, hindex, h0, hpath, hrender⟩

end Decoder

/-! ## Coherence -/

section Coherence

variable {c : ImageSeqContent} {decode : String → Option φ}

/-- Nothing overflows for frames that can be counted. -/
theorem noOverflow (hframes : c.frames ≠ []) (hcount : c.frames.length < 2 ^ 31)
    (hnum : 0 < c.rate.num.toInt) (hden : 0 < c.rate.den.toInt) (t : Int64) : c.NoOverflow t := by
  obtain ⟨h0, hlt⟩ := frameAt_bounds hframes t
  obtain ⟨hq0, hq⟩ := instantAt_fits hframes hnum hden t
  have hlt' : c.frameAt t < 2 ^ 31 := lt_trans hlt (by exact_mod_cast hcount)
  refine ⟨⟨?_, by exact_mod_cast hcount⟩, c.frameAt t,
    frameIndexValue_eq hframes hcount hnum hden t, ⟨le_trans ?_ h0, hlt'⟩,
    c.instantAt (c.frameAt t), instantValue_eq hnum hden h0 hlt', le_trans ?_ hq0, hq⟩
  · exact le_trans (by norm_num) (Int.natCast_nonneg _)
  · norm_num
  · norm_num

/-- Quantised times keep the order. -/
theorem quantisedAt_mono (hframes : c.frames ≠ []) (hnum : 0 < c.rate.num.toInt)
    (hden : 0 < c.rate.den.toInt) {t t' : Int64} (h : t ≤ t') :
    c.quantisedAt t ≤ c.quantisedAt t' := by
  rw [Int64.le_iff_toInt_le, toInt_quantisedAt hframes hnum hden,
    toInt_quantisedAt hframes hnum hden]
  apply RoundedGrid.rounded_mono hnum
  apply mul_le_mul_of_nonneg_right _ (ticks_pos hden).le
  exact frameAt_mono hnum hden (Int64.le_iff_toInt_le.mp h)

/-- Quantised times are coherent where no instant is rounded down. -/
theorem Unrounded.coherent (h : c.Unrounded) (decode : String → Option φ)
    (hframes : c.frames ≠ []) (hnum : 0 < c.rate.num.toInt) (hden : 0 < c.rate.den.toInt) :
    c.Coherent decode := by
  have hquant := quantizeTime_eq hframes h.count hnum hden
  have hindex := frameIndexFor_eq hframes h.count hnum hden
  have hsame := h.frameAt_quantisedAt hframes hnum hden
  have hquantised : ∀ {t q}, c.quantizeTime t = .ok (some q) → q = c.quantisedAt t := by
    intro t q hq
    rw [hquant] at hq
    exact (Option.some.inj (Except.ok.inj hq)).symm
  refine ⟨noOverflow hframes h.count hnum hden, ?_, ?_, fun s hs t =>
    answers_of_reachable hframes h.count hnum hden hs t, ?_, ?_⟩
  · intro t q hq
    obtain rfl := hquantised hq
    rw [hquant, quantisedAt, hsame]
    rfl
  · intro t t' q q' hle hq hq'
    obtain rfl := hquantised hq
    obtain rfl := hquantised hq'
    exact quantisedAt_mono hframes hnum hden hle
  · intro t t' q hq hq'
    rw [hindex, hindex, ← hsame t, ← hsame t', ← hquantised hq, ← hquantised hq']
  · intro t q hq
    rw [hindex, hindex, hquantised hq, hsame]

/-- Quantised times are coherent exactly when no frame that is shown has its instant rounded
down, and the frames can be counted. -/
theorem coherent_iff (decode : String → Option φ) (hframes : c.frames ≠ [])
    (hnum : 0 < c.rate.num.toInt) (hden : 0 < c.rate.den.toInt) :
    c.Coherent decode ↔ c.Unrounded := by
  constructor
  · intro h
    have hcount : c.frames.length < 2 ^ 31 := by exact_mod_cast (h.noOverflow 0).count.2
    refine ⟨hcount, fun i h0 hi hshown => ?_⟩
    apply roundsUp_of_frameAt_quantisedAt hframes hnum hden h0 hi hshown
    intro t
    have hsame := h.sameFrame t _ (quantizeTime_eq hframes hcount hnum hden t)
    rw [frameIndexFor_eq hframes hcount hnum hden, frameIndexFor_eq hframes hcount hnum hden]
      at hsame
    exact Except.ok.inj hsame
  · exact fun h => h.coherent decode hframes hnum hden

/-- Three frames at 24 per second are coherent, since every instant is a whole flick. -/
theorem coherent_iff_24 :
    (ImageSeqContent.mk ["a", "b", "c"] ⟨24, 1⟩).Coherent (fun _ : String => some ()) ↔
      (ImageSeqContent.mk ["a", "b", "c"] ⟨24, 1⟩).Unrounded :=
  coherent_iff _ (List.cons_ne_nil _ _) (by decide) (by decide)

/-- At 11 frames per second the third frame begins between two flicks, and its instant belongs to
the second. -/
theorem not_coherent_11 :
    ¬ ∀ (c : ImageSeqContent) (decode : String → Option Unit), c.frames ≠ [] →
      0 < c.rate.num.toInt → 0 < c.rate.den.toInt → c.Coherent decode := by
  intro h
  have hc := h ⟨["a", "b", "c"], ⟨11, 1⟩⟩ (fun _ => some ()) (List.cons_ne_nil _ _) (by decide)
    (by decide)
  have hsame := hc.sameFrame 128290910 128290909 (by decide +kernel)
  exact absurd hsame (by decide +kernel)

end Coherence

end ImageSeqContent

end ArbitraryComposer
