import ArbitraryComposer.Media.Formats
import ArbitraryComposer.ToMathlib.StreamWindow
import Mathlib.Data.List.Range

/-!
# The Audio Resampler

An output frame is a filter over the input frames around its position, which is the exact rational
`n * src / dst` rounded once to one of 32 phases. A whole stream is resampled in one pass; a
streaming resampler is given the same stream in blocks and keeps the frames that outputs to come
still reach. The product of a filter row and the taps is a parameter.

## Main definitions

- `framePos`, `macFrame`: the position of an output frame, and one output frame.
- `resampleAudio`: the pass over a whole stream.
- `StreamingResampler`: the streaming resampler and its operations.
- `StreamingResampler.Retained`: all taps of the next output frame are kept.
- `StreamsAsWhole`: what a pair of rates promises of streaming.

## Main results

- `streamsAsWhole_iff`: for which rates streaming equals the whole pass.
-/

namespace ArbitraryComposer

/-! ## The kernel -/

/-- `k_resampler_phases`. -/
def resamplerPhases : ℕ := 32

/-- `k_resampler_taps`. -/
def resamplerTaps : ℕ := 16

/-- A polyphase bank: the frozen table, or the one that is generated for a pair of rates. -/
inductive PolyphaseBank where
  /-- `k_resampler_coeffs`. -/
  | frozen
  /-- `generate_decimation_bank`. -/
  | decimation (srcRate dstRate : ℕ)
  deriving DecidableEq, Repr

/-- `PolyphaseBank::taps`: the half support of a generated bank is scaled by the ratio of rates. -/
def PolyphaseBank.taps : PolyphaseBank → ℕ
  | .frozen => resamplerTaps
  | .decimation srcRate dstRate => 2 * ((resamplerTaps / 2 * srcRate + dstRate - 1) / dstRate)

/-- The bank for a pair of rates. -/
def polyphaseBank (srcRate dstRate : ℕ) : PolyphaseBank :=
  if dstRate < srcRate then .decimation srcRate dstRate else .frozen

/-- `FramePos`. -/
structure FramePos where
  /-- The input frame at the middle of the filter. -/
  center : ℤ
  /-- The row of the bank. -/
  phase : ℕ
  deriving DecidableEq, Repr

/-- `frame_pos`: the product wraps at 64 bits, and the quotient is read as a signed word. -/
def framePos (n srcRate dstRate : ℕ) : FramePos :=
  let posNum := n * srcRate % 2 ^ 64
  let center := Int.bmod (posNum / dstRate : ℕ) (2 ^ 64)
  let phase := (posNum % dstRate * resamplerPhases + dstRate / 2) / dstRate
  if resamplerPhases ≤ phase then ⟨center + 1, phase - resamplerPhases⟩ else ⟨center, phase⟩

/-- `support_oldest`. -/
def supportOldest (pos : FramePos) (taps : ℕ) : ℤ := pos.center - ((taps / 2 : ℕ) - 1)

/-- `support_newest`. -/
def supportNewest (pos : FramePos) (taps : ℕ) : ℤ :=
  pos.center + ((taps : ℤ) - 1) - ((taps / 2 : ℕ) - 1)

/-- The product of a filter row with the taps in order. -/
abbrev FilterDot (φ : Type) : Type := PolyphaseBank → ℕ → List φ → φ

section

variable {φ : Type}

/-- `mac_frame`: one sample for each channel. -/
def macFrame (dot : FilterDot φ) (pos : FramePos) (channels : ℕ) (bank : PolyphaseBank) (taps : ℕ)
    (sample : ℤ → ℕ → φ) : List φ :=
  (List.range channels).map fun c =>
    dot bank pos.phase ((List.range taps).map fun k : ℕ => sample (supportOldest pos taps + k) c)

/-- An output frame of the pass over a whole stream. -/
def wholeFrame (zero : φ) (dot : FilterDot φ) (channels srcRate dstRate : ℕ) (input : List φ)
    (n : ℕ) : List φ :=
  let bank := polyphaseBank srcRate dstRate
  macFrame dot (framePos n srcRate dstRate) channels bank bank.taps (streamRead zero channels input)

/-- `resample_audio` into a block of `frames` frames with the samples `out`, from interleaved
samples of the same layout. -/
def resampleAudio (zero : φ) (dot : FilterDot φ) (layout : ChannelLayout) (srcRate dstRate : ℕ)
    (input : List φ) (frames : ℕ) (out : List φ) : List φ :=
  if srcRate = 0 ∨ dstRate = 0 ∨ srcRate = dstRate then out
  else
    (List.range frames).flatMap (wholeFrame zero dot layout.channelCount srcRate dstRate input)

/-! ## The streaming resampler -/

/-- `StreamingResampler`. -/
structure StreamingResampler (φ : Type) where
  /-- `d_src_rate`. -/
  srcRate : ℕ
  /-- `d_dst_rate`. -/
  dstRate : ℕ
  /-- `d_channels`. -/
  channels : ℕ
  /-- `d_dec_coeffs`, or the frozen table when it is empty. -/
  bank : PolyphaseBank
  /-- `d_taps`. -/
  taps : ℕ
  /-- `d_history`, `d_hist_base` and `d_hist_len`. -/
  history : StreamWindow φ
  /-- `d_out_index`. -/
  outIndex : ℕ

namespace StreamingResampler

/-- `configure`: the tap count and the capacity are kept in 32 bits. -/
def configure (zero : φ) (srcRate dstRate : ℕ) (layout : ChannelLayout) (blockFrames : ℕ) :
    StreamingResampler φ :=
  let bank := polyphaseBank srcRate dstRate
  let taps := bank.taps % 2 ^ 32
  let capacityFrames := (blockFrames + 2 * taps) % 2 ^ 32
  { srcRate, dstRate, channels := layout.channelCount, bank, taps
    history := .fresh (List.replicate (capacityFrames * layout.channelCount) zero)
    outIndex := 0 }

/-- `reset`: the history is empty, and the next frame is the first. -/
def reset (r : StreamingResampler φ) : StreamingResampler φ :=
  { r with history := .fresh r.history.buffer, outIndex := 0 }

/-- The position of the next output frame. -/
def nextPos (r : StreamingResampler φ) : FramePos := framePos r.outIndex r.srcRate r.dstRate

/-- `can_produce`. -/
def canProduce (r : StreamingResampler φ) : Bool :=
  r.dstRate ≠ 0 && decide (supportNewest r.nextPos r.taps < r.history.base + r.history.len)

/-- `produce`. -/
def produce (zero : φ) (dot : FilterDot φ) (r : StreamingResampler φ) :
    List φ × StreamingResampler φ :=
  (macFrame dot r.nextPos r.channels r.bank r.taps (r.history.read zero r.channels),
    { r with outIndex := r.outIndex + 1 })

/-- The compaction of `push_input`: what no output to come reaches is dropped, and no more than
there is. -/
def compact (r : StreamingResampler φ) : StreamWindow φ :=
  let drop := min (supportOldest r.nextPos r.taps - r.history.base) r.history.len
  if 0 < r.history.len ∧ 0 < drop then r.history.discard r.channels drop.toNat else r.history

/-- `push_input`; none when the block does not fit the buffer, or the count of frames ever pushed
leaves its signed word, which the caller avoids. -/
def pushInput (r : StreamingResampler φ) (samples : List φ) : Option (StreamingResampler φ) :=
  if samples.length / r.channels = 0 then some r
  else do
    let history ← r.compact.append r.channels samples
    if history.base + history.len < 2 ^ 63 then some { r with history } else none

/-- The drain of a caller: frames are produced while there are any, `want` at most. -/
def drain (zero : φ) (dot : FilterDot φ) :
    ℕ → StreamingResampler φ → List φ × StreamingResampler φ
  | 0, r => ([], r)
  | want + 1, r =>
    if r.canProduce then
      let (frame, r) := r.produce zero dot
      let (frames, r) := drain zero dot want r
      (frame ++ frames, r)
    else ([], r)

/-- What a caller does. -/
inductive Op (φ : Type) where
  /-- A block is pushed. -/
  | push (samples : List φ)
  /-- A block of that many frames is drained, or what there is of it. -/
  | drain (want : ℕ)

/-- Everything that was pushed. -/
def pushed : List (Op φ) → List φ
  | [] => []
  | .push samples :: ops => samples ++ pushed ops
  | .drain _ :: ops => pushed ops

/-- The calls in order: what was drained, and the resampler after them. -/
def run (zero : φ) (dot : FilterDot φ) :
    List (Op φ) → StreamingResampler φ → Option (List φ × StreamingResampler φ)
  | [], r => some ([], r)
  | .push samples :: ops, r => do run zero dot ops (← r.pushInput samples)
  | .drain want :: ops, r => do
    let (out, r) := drain zero dot want r
    let (outs, r) ← run zero dot ops r
    return (out ++ outs, r)

/-- Every tap of the next output frame that is in the stream at all is in the history. -/
def Retained (r : StreamingResampler φ) : Prop :=
  ∀ k < r.taps, 0 ≤ supportOldest r.nextPos r.taps + k →
    r.history.base ≤ supportOldest r.nextPos r.taps + k ∧
      supportOldest r.nextPos r.taps + k < r.history.base + r.history.len

end StreamingResampler

end

/-- Streaming at a pair of rates is the whole pass: for every stream in whole frames, zeros at its
end included, and every order of pushes and drains that keeps to the buffer, what was drained is the
whole pass over the stream, and the next frame reaches no further than the history. The products of
output indices and the input rate are those that fit 64 bits. -/
def StreamsAsWhole (srcRate dstRate : UInt32) : Prop :=
  ∀ (φ : Type) (zero : φ) (dot : FilterDot φ) (layout : ChannelLayout) (blockFrames : UInt32)
    (ops : List (StreamingResampler.Op φ)) (out : List φ) (r : StreamingResampler φ),
    (∀ samples, .push samples ∈ ops → layout.channelCount ∣ samples.length) →
    (StreamingResampler.configure zero srcRate.toNat dstRate.toNat layout blockFrames.toNat).run
      zero dot ops = some (out, r) →
    (∀ n < r.outIndex, n * srcRate.toNat < 2 ^ 64) →
    (∀ input pad, StreamingResampler.pushed ops = input ++ List.replicate pad zero →
      layout.channelCount ∣ input.length → ∀ silence,
        out = resampleAudio zero dot layout srcRate.toNat dstRate.toNat input r.outIndex silence) ∧
      (r.canProduce → r.outIndex * srcRate.toNat < 2 ^ 64 → r.Retained)

/-! ## Positions -/

/-- A position rounded to a phase once, in exact arithmetic. -/
def roundedCenter (dstRate posNum : ℕ) : ℕ := (32 * posNum + dstRate / 2) / (32 * dstRate)

theorem roundedCenter_mono (dstRate : ℕ) : Monotone (roundedCenter dstRate) := fun _ _ h =>
  Nat.div_le_div_right (Nat.add_le_add_right (Nat.mul_le_mul_left _ h) _)

/-- The rounded position is the quotient, or one more when the phase rounds up to a whole. -/
theorem roundedCenter_eq {dstRate : ℕ} (hpos : 0 < dstRate) (posNum : ℕ) :
    roundedCenter dstRate posNum = posNum / dstRate +
      if resamplerPhases ≤ (posNum % dstRate * resamplerPhases + dstRate / 2) / dstRate then 1
      else 0 := by
  have hsplit : 32 * posNum + dstRate / 2 =
      posNum % dstRate * 32 + dstRate / 2 + 32 * dstRate * (posNum / dstRate) := by
    have hdiv := Nat.div_add_mod posNum dstRate
    calc 32 * posNum + dstRate / 2
        = 32 * (dstRate * (posNum / dstRate) + posNum % dstRate) + dstRate / 2 := by rw [hdiv]
      _ = _ := by ring
  have hphase : (posNum % dstRate * 32 + dstRate / 2) / dstRate < 64 := by
    have hmod := Nat.mod_lt posNum hpos
    rw [Nat.div_lt_iff_lt_mul hpos]
    omega
  rw [roundedCenter, hsplit, Nat.add_mul_div_left _ _ (by omega), Nat.mul_comm 32 dstRate,
    ← Nat.div_div_eq_div_mul]
  rw [show resamplerPhases = 32 from rfl]
  generalize (posNum % dstRate * 32 + dstRate / 2) / dstRate = phase at hphase ⊢
  by_cases hup : 32 ≤ phase
  · rw [if_pos hup]
    omega
  · rw [if_neg hup]
    omega

/-- The center of a position. -/
theorem framePos_center (n srcRate dstRate : ℕ) :
    (framePos n srcRate dstRate).center =
      Int.bmod (n * srcRate % 2 ^ 64 / dstRate : ℕ) (2 ^ 64) +
        (if resamplerPhases ≤
          (n * srcRate % 2 ^ 64 % dstRate * resamplerPhases + dstRate / 2) / dstRate then 1
        else 0 : ℕ) := by
  rw [framePos]
  split
  case isTrue => rw [Int.natCast_one]
  case isFalse => rw [Int.natCast_zero, Int.add_zero]

/-- The wrap of a position only moves it back. -/
theorem framePos_center_le {dstRate : ℕ} (hpos : 0 < dstRate) (n srcRate : ℕ) :
    (framePos n srcRate dstRate).center ≤ roundedCenter dstRate (n * srcRate) := by
  have hwrap : roundedCenter dstRate (n * srcRate % 2 ^ 64) ≤ roundedCenter dstRate (n * srcRate) :=
    roundedCenter_mono _ (Nat.mod_le _ _)
  have hsigned (x : ℕ) : Int.bmod x (2 ^ 64) ≤ x := by
    rw [Int.bmod]
    split <;> omega
  rw [framePos_center]
  refine le_trans (Int.add_le_add_right (hsigned _) _) ?_
  rw [← Int.natCast_add, ← roundedCenter_eq hpos]
  exact Int.ofNat_le.mpr hwrap

/-- A position that fits its words is the rounded one. -/
theorem framePos_center_eq {n srcRate dstRate : ℕ} (hpos : 0 < dstRate)
    (hprod : n * srcRate < 2 ^ 64) (hquot : n * srcRate / dstRate < 2 ^ 63) :
    (framePos n srcRate dstRate).center = roundedCenter dstRate (n * srcRate) := by
  have hsigned : Int.bmod (n * srcRate / dstRate : ℕ) (2 ^ 64) = (n * srcRate / dstRate : ℕ) := by
    have hnonneg := Int.natCast_nonneg (n * srcRate / dstRate)
    have hlt : ((n * srcRate / dstRate : ℕ) : ℤ) < 2 ^ 63 := by exact_mod_cast hquot
    exact Int.bmod_eq_of_le (by omega) (by omega)
  rw [framePos_center, Nat.mod_eq_of_lt hprod, hsigned, ← Int.natCast_add, ← roundedCenter_eq hpos]

/-- The number of taps is even. -/
theorem PolyphaseBank.even_taps (bank : PolyphaseBank) : bank.taps % 2 = 0 := by
  cases bank with
  | frozen => rfl
  | decimation srcRate dstRate => exact Nat.mul_mod_right 2 _

namespace StreamingResampler

variable {φ : Type} {zero : φ} {dot : FilterDot φ} {srcRate dstRate channels : ℕ}
  {stream total : List φ} {r r' : StreamingResampler φ}

/-! ## Runs -/

/-- A resampler with the whole tap count, in step with what was pushed. -/
structure InStep (srcRate dstRate channels : ℕ) (r : StreamingResampler φ) (stream : List φ) :
    Prop where
  /-- The input rate. -/
  src_eq : r.srcRate = srcRate
  /-- The output rate. -/
  dst_eq : r.dstRate = dstRate
  /-- The channels. -/
  channels_eq : r.channels = channels
  /-- The bank. -/
  bank_eq : r.bank = polyphaseBank srcRate dstRate
  /-- The tap count is not cut. -/
  taps_eq : r.taps = (polyphaseBank srcRate dstRate).taps
  /-- The history is the end of what was pushed. -/
  holds : r.history.Holds channels stream
  /-- Nothing was discarded that an output to come reaches. -/
  reach : (r.history.base : ℤ) ≤
    max (0 : ℤ) ((roundedCenter dstRate (r.outIndex * srcRate) : ℕ) - ((r.taps / 2 : ℕ) - 1 : ℤ))
  /-- The support of the last output had come. -/
  drained : ∀ m, r.outIndex = m + 1 →
    (roundedCenter dstRate (m * srcRate) + r.taps / 2 : ℕ) < r.history.base + r.history.len
  /-- The count of frames fits its word. -/
  bounded : r.history.base + r.history.len < 2 ^ 63

variable (hsrc : 0 < srcRate) (hdst : 0 < dstRate) (hne : srcRate ≠ dstRate)

include hsrc hdst hne in
/-- The next position fits a signed word: with an output rate of one hertz, the support of the last
output is a whole input step further on than its position. -/
private theorem InStep.quot_lt (h : r.InStep srcRate dstRate channels stream)
    (hprod : r.outIndex * srcRate < 2 ^ 64) : r.outIndex * srcRate / dstRate < 2 ^ 63 := by
  rcases Nat.lt_or_ge 1 dstRate with hone | hone
  · calc r.outIndex * srcRate / dstRate
        ≤ r.outIndex * srcRate / 2 := Nat.div_le_div_left hone (by omega)
      _ < 2 ^ 63 := by omega
  · obtain rfl : dstRate = 1 := by omega
    rw [Nat.div_one]
    cases hn : r.outIndex with
    | zero => rw [Nat.zero_mul]; exact Nat.pow_pos (by omega)
    | succ m =>
      have hlast := h.drained m hn
      have hbounded := h.bounded
      have htaps : r.taps / 2 = 8 * srcRate := by
        rw [h.taps_eq, polyphaseBank, if_pos (by omega), PolyphaseBank.taps, resamplerTaps]
        omega
      have hcenter : roundedCenter 1 (m * srcRate) = m * srcRate := by
        rw [roundedCenter]
        omega
      rw [hcenter, htaps] at hlast
      rw [Nat.add_mul, Nat.one_mul]
      omega

include hsrc hdst hne in
/-- The next position is the rounded one. -/
private theorem InStep.nextPos_center (h : r.InStep srcRate dstRate channels stream)
    (hprod : r.outIndex * srcRate < 2 ^ 64) :
    r.nextPos.center = roundedCenter dstRate (r.outIndex * srcRate) := by
  rw [nextPos, h.src_eq, h.dst_eq]
  exact framePos_center_eq hdst hprod (h.quot_lt hsrc hdst hne hprod)

include hsrc hdst hne in
/-- What can be produced reaches no further than the history. -/
theorem InStep.retained (h : r.InStep srcRate dstRate channels stream)
    (hprod : r.outIndex * srcRate < 2 ^ 64) (hcan : r.canProduce) : r.Retained := by
  intro k hk hnonneg
  have hcenter := h.nextPos_center hsrc hdst hne hprod
  have hreach := h.reach
  rw [canProduce, Bool.and_eq_true, supportNewest] at hcan
  have hnewest := of_decide_eq_true hcan.2
  rw [supportOldest, hcenter] at hnonneg ⊢
  rw [hcenter] at hnewest
  constructor
  · -- the oldest tap is not before what was kept for it
    rcases le_max_iff.mp hreach with hzero | hoffset <;> omega
  · omega

include hsrc hdst hne in
/-- A frame is produced as the whole pass produces it. -/
theorem InStep.produce (h : r.InStep srcRate dstRate channels stream)
    (hprod : r.outIndex * srcRate < 2 ^ 64) (hcan : r.canProduce) (rest : List φ) :
    (r.produce zero dot).1 =
        wholeFrame zero dot channels srcRate dstRate (stream ++ rest) r.outIndex ∧
      (r.produce zero dot).2.InStep srcRate dstRate channels stream := by
  have hretained := h.retained hsrc hdst hne hprod hcan
  have hcenter := h.nextPos_center hsrc hdst hne hprod
  have heven := (polyphaseBank srcRate dstRate).even_taps
  rw [← h.taps_eq] at heven
  constructor
  · rw [StreamingResampler.produce, wholeFrame, macFrame, macFrame, h.channels_eq, h.bank_eq, ← h.taps_eq]
    have hpos : framePos r.outIndex srcRate dstRate = r.nextPos := by
      rw [nextPos, h.src_eq, h.dst_eq]
    rw [hpos]
    apply List.map_congr_left
    intro c hc
    congr 1
    apply List.map_congr_left
    intro k hk
    have htap := hretained k (List.mem_range.mp hk)
    have hlt : supportOldest r.nextPos r.taps + k < r.history.base + r.history.len := by
      by_cases hneg : supportOldest r.nextPos r.taps + k < 0
      · omega
      · exact (htap (by omega)).2
    rw [h.holds.read_eq zero (List.mem_range.mp hc) (fun hnn => (htap hnn).1) hlt]
    exact (streamRead_append zero rest h.holds.length hlt (List.mem_range.mp hc)).symm
  · rw [canProduce, Bool.and_eq_true, supportNewest, hcenter] at hcan
    refine ⟨h.src_eq, h.dst_eq, h.channels_eq, h.bank_eq, h.taps_eq, h.holds, ?_, ?_, h.bounded⟩
    · have hmono : roundedCenter dstRate (r.outIndex * srcRate) ≤
          roundedCenter dstRate ((r.outIndex + 1) * srcRate) :=
        roundedCenter_mono _ (Nat.mul_le_mul_right _ (Nat.le_succ _))
      refine le_trans h.reach (max_le_max le_rfl ?_)
      show _ ≤ ((roundedCenter dstRate ((r.outIndex + 1) * srcRate) : ℕ) : ℤ) - _
      exact Int.sub_le_sub_right (by exact_mod_cast hmono) _
    · intro m hm
      obtain rfl : r.outIndex = m := Nat.succ.inj hm
      have hnewest := of_decide_eq_true hcan.2
      show _ < r.history.base + r.history.len
      have htaps : (StreamingResampler.produce zero dot r).2.taps = r.taps := rfl
      rw [htaps]
      omega

include hdst in
/-- The compaction keeps what outputs to come reach, also when the next position wraps. -/
private theorem InStep.compact (h : r.InStep srcRate dstRate channels stream) :
    r.compact.Holds channels stream ∧
      r.compact.base + r.compact.len = r.history.base + r.history.len ∧
      (r.compact.base : ℤ) ≤ max (0 : ℤ)
        ((roundedCenter dstRate (r.outIndex * srcRate) : ℕ) - ((r.taps / 2 : ℕ) - 1 : ℤ)) := by
  have hcenter : r.nextPos.center ≤ roundedCenter dstRate (r.outIndex * srcRate) := by
    rw [nextPos, h.src_eq, h.dst_eq]
    exact framePos_center_le hdst _ _
  rw [StreamingResampler.compact]
  split
  case isFalse => exact ⟨h.holds, rfl, h.reach⟩
  case isTrue hdrop =>
    rw [supportOldest, h.channels_eq] at *
    have hle : (min (r.nextPos.center - ((r.taps / 2 : ℕ) - 1 : ℤ) - r.history.base)
        r.history.len).toNat ≤ r.history.len := by omega
    refine ⟨h.holds.discard hle, ?_, ?_⟩
    · show r.history.base + _ + (r.history.len - _) = _
      omega
    · apply le_max_of_le_right
      show ((r.history.base + _ : ℕ) : ℤ) ≤ _
      omega

include hdst in
/-- A push keeps a resampler in step. -/
theorem InStep.pushInput (h : r.InStep srcRate dstRate channels stream) (hpos : 0 < channels)
    {samples : List φ} (hdvd : channels ∣ samples.length)
    (hpush : r.pushInput samples = some r') :
    r'.InStep srcRate dstRate channels (stream ++ samples) ∧ r'.outIndex = r.outIndex := by
  obtain ⟨frames, hframes⟩ := hdvd
  rw [Nat.mul_comm] at hframes
  rw [StreamingResampler.pushInput, h.channels_eq, hframes, Nat.mul_div_cancel _ hpos] at hpush
  split at hpush
  case isTrue hzero =>
    -- no frame, and so no sample
    rw [hzero, Nat.zero_mul] at hframes
    obtain rfl := Option.some.inj hpush
    obtain rfl := List.eq_nil_of_length_eq_zero hframes
    rw [List.append_nil]
    exact ⟨h, rfl⟩
  case isFalse =>
    obtain ⟨hholds, hcount, hreach⟩ := h.compact hdst
    obtain ⟨history, happ, hpush⟩ := Option.bind_eq_some_iff.mp hpush
    split at hpush
    case isFalse => cases hpush
    case isTrue hbounded =>
      obtain rfl := Option.some.inj hpush
      have hnext := hholds.append hpos hframes happ
      have hbase : history.base = r.compact.base ∧ r.compact.len ≤ history.len := by
        rw [StreamWindow.append] at happ
        split at happ
        case isTrue =>
          obtain rfl := Option.some.inj happ
          exact ⟨rfl, Nat.le_add_right _ _⟩
        case isFalse => cases happ
      refine ⟨⟨h.src_eq, h.dst_eq, rfl, h.bank_eq, h.taps_eq, hnext, ?_, ?_, hbounded⟩, rfl⟩
      · show ((history.base : ℕ) : ℤ) ≤ _
        rw [hbase.1]
        exact hreach
      · intro m hm
        have hlast := h.drained m hm
        show roundedCenter dstRate (m * srcRate) + r.taps / 2 < history.base + history.len
        omega

/-- The frames of the whole pass from one on. -/
private abbrev wholeFrames (zero : φ) (dot : FilterDot φ) (channels srcRate dstRate : ℕ)
    (total : List φ) (first count : ℕ) : List φ :=
  (List.range' first count).flatMap (wholeFrame zero dot channels srcRate dstRate total)

private theorem wholeFrames_append (first count count' : ℕ) :
    wholeFrames zero dot channels srcRate dstRate total first count ++
        wholeFrames zero dot channels srcRate dstRate total (first + count) count' =
      wholeFrames zero dot channels srcRate dstRate total first (count + count') := by
  rw [wholeFrames, wholeFrames, wholeFrames, ← List.flatMap_append, List.range'_append_1]

/-- A drain gives as many frames as are wanted, at most. -/
theorem drain_outIndex_le_add (want : ℕ) (r : StreamingResampler φ) :
    (drain zero dot want r).2.outIndex ≤ r.outIndex + want := by
  induction want generalizing r with
  | zero => exact le_rfl
  | succ want ih =>
    rw [StreamingResampler.drain]
    split
    case isTrue =>
      calc _ ≤ (r.produce zero dot).2.outIndex + want := ih (r.produce zero dot).2
        _ = r.outIndex + (want + 1) := by show r.outIndex + 1 + want = _; omega
    case isFalse => exact Nat.le_add_right _ _

/-- Drains only go on. -/
private theorem drain_outIndex_le (want : ℕ) (r : StreamingResampler φ) :
    r.outIndex ≤ (drain zero dot want r).2.outIndex := by
  induction want generalizing r with
  | zero => exact le_rfl
  | succ want ih =>
    rw [StreamingResampler.drain]
    split
    case isTrue => exact le_trans (Nat.le_succ _) (ih (r.produce zero dot).2)
    case isFalse => exact le_rfl

/-- A drain gives a frame when one can be produced. -/
theorem lt_drain_outIndex {want : ℕ} (hwant : 0 < want) (hcan : r.canProduce) :
    r.outIndex < (drain zero dot want r).2.outIndex := by
  obtain ⟨n, rfl⟩ := Nat.exists_eq_add_one_of_ne_zero hwant.ne'
  rw [StreamingResampler.drain, if_pos hcan]
  exact lt_of_lt_of_le (Nat.lt_succ_self _) (drain_outIndex_le n (r.produce zero dot).2)

include hsrc hdst hne in
/-- A drain gives the next frames of the whole pass. -/
theorem InStep.drain (h : r.InStep srcRate dstRate channels stream) (want : ℕ) (rest : List φ)
    (hprod : ∀ n < (drain zero dot want r).2.outIndex, n * srcRate < 2 ^ 64) :
    (drain zero dot want r).2.InStep srcRate dstRate channels stream ∧
      ∃ count, (drain zero dot want r).2.outIndex = r.outIndex + count ∧
        (drain zero dot want r).1 =
          wholeFrames zero dot channels srcRate dstRate (stream ++ rest) r.outIndex count := by
  induction want generalizing r with
  | zero => exact ⟨h, 0, rfl, rfl⟩
  | succ want ih =>
    rw [StreamingResampler.drain] at hprod ⊢
    split at hprod
    case isFalse hcan =>
      rw [if_neg hcan]
      exact ⟨h, 0, rfl, rfl⟩
    case isTrue hcan =>
      rw [if_pos hcan]
      have hthis : r.outIndex * srcRate < 2 ^ 64 :=
        hprod _ (drain_outIndex_le want (r.produce zero dot).2)
      obtain ⟨hframe, hnext⟩ := h.produce hsrc hdst hne hthis hcan rest
      obtain ⟨hlast, count, hcount, hframes⟩ := ih hnext hprod
      refine ⟨hlast, count + 1, ?_, ?_⟩
      · rw [hcount]
        show r.outIndex + 1 + count = _
        omega
      · show (r.produce zero dot).1 ++ (StreamingResampler.drain zero dot want _).1 = _
        rw [hframe, hframes]
        show _ = List.flatMap _ (List.range' r.outIndex (count + 1))
        rw [List.range'_succ, List.flatMap_cons]
        rfl

/-- Runs only go on. -/
private theorem run_outIndex_le {ops : List (Op φ)} {out : List φ}
    (hrun : run zero dot ops r = some (out, r')) : r.outIndex ≤ r'.outIndex := by
  induction ops generalizing r out with
  | nil =>
    obtain ⟨-, rfl⟩ := Prod.mk.inj (Option.some.inj hrun)
    exact le_rfl
  | cons op ops ih =>
    cases op with
    | push samples =>
      obtain ⟨next, hpush, hrun⟩ := Option.bind_eq_some_iff.mp hrun
      have hsame : next.outIndex = r.outIndex := by
        rw [StreamingResampler.pushInput] at hpush
        split at hpush
        case isTrue => rw [Option.some.inj hpush]
        case isFalse =>
          obtain ⟨history, -, hpush⟩ := Option.bind_eq_some_iff.mp hpush
          split at hpush
          case isTrue => rw [← Option.some.inj hpush]
          case isFalse => cases hpush
      exact hsame ▸ ih hrun
    | drain want =>
      obtain ⟨rest, hops, hout⟩ := Option.bind_eq_some_iff.mp hrun
      obtain ⟨-, rfl⟩ := Prod.mk.inj (Option.some.inj hout)
      exact le_trans (drain_outIndex_le want r) (ih hops)

include hsrc hdst hne in
/-- A run keeps a resampler in step, and gives the next frames of the whole pass. -/
theorem InStep.run (h : r.InStep srcRate dstRate channels stream) (hpos : 0 < channels)
    {ops : List (Op φ)} (hblocks : ∀ samples, .push samples ∈ ops → channels ∣ samples.length)
    {out : List φ} (hrun : run zero dot ops r = some (out, r'))
    (hprod : ∀ n < r'.outIndex, n * srcRate < 2 ^ 64) :
    r'.InStep srcRate dstRate channels (stream ++ pushed ops) ∧
      ∃ count, r'.outIndex = r.outIndex + count ∧
        out = wholeFrames zero dot channels srcRate dstRate (stream ++ pushed ops) r.outIndex
          count := by
  induction ops generalizing r stream out with
  | nil =>
    obtain ⟨rfl, rfl⟩ := Prod.mk.inj (Option.some.inj hrun)
    rw [pushed, List.append_nil]
    exact ⟨h, 0, rfl, rfl⟩
  | cons op ops ih =>
    have hrest : ∀ samples, .push samples ∈ ops → channels ∣ samples.length := fun samples hs =>
      hblocks samples (List.mem_cons_of_mem _ hs)
    cases op with
    | push samples =>
      obtain ⟨next, hpush, hrun⟩ := Option.bind_eq_some_iff.mp hrun
      obtain ⟨hnext, hsame⟩ := h.pushInput hdst hpos (hblocks samples List.mem_cons_self) hpush
      rw [pushed, ← List.append_assoc, ← hsame]
      exact ih hnext hrest hrun
    | drain want =>
      obtain ⟨rest, hops, hout⟩ := Option.bind_eq_some_iff.mp hrun
      obtain ⟨rfl, rfl⟩ := Prod.mk.inj (Option.some.inj hout)
      have hbelow : ∀ n < (StreamingResampler.drain zero dot want r).2.outIndex,
          n * srcRate < 2 ^ 64 := fun n hn => hprod n (lt_of_lt_of_le hn (run_outIndex_le hops))
      obtain ⟨hnext, count, hcount, hframes⟩ :=
        h.drain hsrc hdst hne want (pushed ops) hbelow
      obtain ⟨hlast, count', hcount', hframes'⟩ := ih hnext hrest hops
      refine ⟨hlast, count + count', by omega, ?_⟩
      show (StreamingResampler.drain zero dot want r).1 ++ rest.1 = _
      rw [hframes, hframes', hcount]
      exact wholeFrames_append r.outIndex count count'

/-- A resampler that was just configured is in step, when its tap count is not cut. -/
theorem inStep_configure (zero : φ) (srcRate dstRate : ℕ) (layout : ChannelLayout)
    (blockFrames : ℕ) (hfits : (polyphaseBank srcRate dstRate).taps < 2 ^ 32) :
    (configure zero srcRate dstRate layout blockFrames).InStep srcRate dstRate layout.channelCount
      [] where
  src_eq := rfl
  dst_eq := rfl
  channels_eq := rfl
  bank_eq := rfl
  taps_eq := Nat.mod_eq_of_lt hfits
  holds := StreamWindow.holds_fresh _
  reach := le_max_left _ _
  drained := nofun
  bounded := Nat.pow_pos (by omega)

/-- Half the taps of a bank reach further than an output frame is long. -/
theorem src_le_taps (srcRate : ℕ) {dstRate : ℕ} (hdst : 0 < dstRate) :
    srcRate ≤ (polyphaseBank srcRate dstRate).taps / 2 * dstRate := by
  rw [polyphaseBank]
  split
  case isTrue hlt =>
    have htaps : (PolyphaseBank.decimation srcRate dstRate).taps / 2 =
        (8 * srcRate + dstRate - 1) / dstRate := by
      rw [PolyphaseBank.taps, Nat.mul_div_cancel_left _ (by decide : 0 < 2)]
      rfl
    have hdiv := Nat.div_add_mod (8 * srcRate + dstRate - 1) dstRate
    have hmod := Nat.mod_lt (8 * srcRate + dstRate - 1) hdst
    rw [htaps, Nat.mul_comm]
    omega
  case isFalse hge =>
    show srcRate ≤ 8 * dstRate
    omega

include hsrc hdst hne in
/-- What has come reaches the next output frame; and when the frame cannot be produced, no more has
come than half the taps behind it. -/
theorem InStep.received_bounds (h : r.InStep srcRate dstRate channels stream)
    (hprod : r.outIndex * srcRate < 2 ^ 64) :
    r.outIndex * srcRate ≤ (r.history.base + r.history.len) * dstRate ∧
      (r.canProduce = false → (r.history.base + r.history.len) * dstRate ≤
        r.outIndex * srcRate + (r.taps / 2 + 1) * dstRate) := by
  have hround (posNum : ℕ) : roundedCenter dstRate posNum * dstRate ≤ posNum + dstRate ∧
      posNum < (roundedCenter dstRate posNum + 1) * dstRate := by
    have hdiv := Nat.div_add_mod (32 * posNum + dstRate / 2) (32 * dstRate)
    have hmod := Nat.mod_lt (32 * posNum + dstRate / 2) (show 0 < 32 * dstRate by omega)
    have hmul : 32 * dstRate * roundedCenter dstRate posNum =
        32 * (roundedCenter dstRate posNum * dstRate) := by ring
    rw [← roundedCenter, hmul] at hdiv
    rw [Nat.add_mul, Nat.one_mul]
    omega
  constructor
  · cases hout : r.outIndex with
    | zero => rw [Nat.zero_mul]; exact Nat.zero_le _
    | succ m =>
      -- the support of the frame before had come
      have hlast := h.drained m hout
      have hreach : srcRate ≤ r.taps / 2 * dstRate := by
        rw [h.taps_eq]
        exact src_le_taps srcRate hdst
      calc (m + 1) * srcRate = m * srcRate + srcRate := by ring
        _ ≤ (roundedCenter dstRate (m * srcRate) + 1) * dstRate + r.taps / 2 * dstRate :=
          Nat.add_le_add (hround _).2.le hreach
        _ = (roundedCenter dstRate (m * srcRate) + r.taps / 2 + 1) * dstRate := by ring
        _ ≤ (r.history.base + r.history.len) * dstRate := Nat.mul_le_mul_right _ hlast
  · intro hcan
    have hcenter := h.nextPos_center hsrc hdst hne hprod
    have heven := (polyphaseBank srcRate dstRate).even_taps
    rw [← h.taps_eq] at heven
    rw [canProduce, Bool.and_eq_false_iff] at hcan
    have hnewest : ¬ (supportNewest r.nextPos r.taps < r.history.base + r.history.len) := by
      rcases hcan with hzero | hnewest
      · rw [h.dst_eq, decide_eq_false_iff_not, not_not] at hzero
        omega
      · exact of_decide_eq_false hnewest
    rw [supportNewest, hcenter] at hnewest
    have hle : r.history.base + r.history.len ≤
        roundedCenter dstRate (r.outIndex * srcRate) + r.taps / 2 := by omega
    calc (r.history.base + r.history.len) * dstRate
        ≤ (roundedCenter dstRate (r.outIndex * srcRate) + r.taps / 2) * dstRate :=
          Nat.mul_le_mul_right _ hle
      _ = roundedCenter dstRate (r.outIndex * srcRate) * dstRate + r.taps / 2 * dstRate := by ring
      _ ≤ r.outIndex * srcRate + dstRate + r.taps / 2 * dstRate :=
          Nat.add_le_add_right (hround _).1 _
      _ = _ := by ring

/-- A resampler that is reset is at the start of a stream. -/
theorem InStep.reset (h : r.InStep srcRate dstRate channels stream) :
    r.reset.InStep srcRate dstRate channels [] where
  src_eq := h.src_eq
  dst_eq := h.dst_eq
  channels_eq := h.channels_eq
  bank_eq := h.bank_eq
  taps_eq := h.taps_eq
  holds := StreamWindow.holds_fresh _
  reach := le_max_left _ _
  drained := nofun
  bounded := Nat.pow_pos (by omega)

end StreamingResampler

/-! ## Rates -/

/-- With a tap count that fits its word, streaming is the whole pass. -/
private theorem streamsAsWhole_of_fits {srcRate dstRate : UInt32} (hsrc : 0 < srcRate)
    (hdst : 0 < dstRate) (hne : srcRate ≠ dstRate)
    (hfits : (polyphaseBank srcRate.toNat dstRate.toNat).taps < 2 ^ 32) :
    StreamsAsWhole srcRate dstRate := by
  intro φ zero dot layout blockFrames ops out r hblocks hrun hprod
  have hsrc : 0 < srcRate.toNat := UInt32.lt_iff_toNat_lt.mp hsrc
  have hdst : 0 < dstRate.toNat := UInt32.lt_iff_toNat_lt.mp hdst
  have hne : srcRate.toNat ≠ dstRate.toNat := fun heq => hne (UInt32.toNat_inj.mp heq)
  have hpos : 0 < layout.channelCount := by cases layout <;> decide
  have hstart := StreamingResampler.inStep_configure zero srcRate.toNat dstRate.toNat layout
    blockFrames.toNat hfits
  obtain ⟨hend, count, hcount, rfl⟩ := hstart.run hsrc hdst hne hpos hblocks hrun hprod
  refine ⟨fun input pad hinput hdvd silence => ?_, fun hcan hnext =>
    hend.retained hsrc hdst hne hnext hcan⟩
  have hcount : r.outIndex = count := hcount.trans (Nat.zero_add count)
  rw [resampleAudio, if_neg (by omega), hcount, List.nil_append, hinput, List.range_eq_range']
  show List.flatMap _ _ = _
  congr 1
  funext n
  rw [wholeFrame, wholeFrame, macFrame, macFrame]
  apply List.map_congr_left
  intro c hc
  congr 1
  apply List.map_congr_left
  intro k hk
  exact streamRead_append_zeros zero input hdvd pad _ (List.mem_range.mp hc)

/-- The first output frame is at the start of the stream. -/
private theorem framePos_zero_center (srcRate : ℕ) {dstRate : ℕ} (hpos : 0 < dstRate) :
    (framePos 0 srcRate dstRate).center = 0 := by
  rw [framePos_center_eq hpos (by omega) (by rw [Nat.zero_mul, Nat.zero_div]; omega)]
  have hzero : roundedCenter dstRate (0 * srcRate) = 0 := by
    rw [roundedCenter, Nat.zero_mul]
    exact Nat.div_eq_of_lt (by omega)
  rw [hzero, Int.natCast_zero]

/-- With a tap count that is cut, the first frame already takes another number of taps. -/
private theorem not_streamsAsWhole {srcRate dstRate : UInt32} (hsrc : 0 < srcRate)
    (hdst : 0 < dstRate) (hne : srcRate ≠ dstRate)
    (hcut : 2 ^ 32 ≤ (polyphaseBank srcRate.toNat dstRate.toNat).taps) :
    ¬ StreamsAsWhole srcRate dstRate := by
  intro h
  have hsrc : 0 < srcRate.toNat := UInt32.lt_iff_toNat_lt.mp hsrc
  have hdst : 0 < dstRate.toNat := UInt32.lt_iff_toNat_lt.mp hdst
  have hne : srcRate.toNat ≠ dstRate.toNat := fun heq => hne (UInt32.toNat_inj.mp heq)
  have heven := (polyphaseBank srcRate.toNat dstRate.toNat).even_taps
  generalize hbank : polyphaseBank srcRate.toNat dstRate.toNat = bank at hcut heven
  -- a filter that counts its taps, a block size for a large buffer, and silence for half the taps
  let dot : FilterDot ℕ := fun _ _ taps => taps.length
  let taps := bank.taps % 2 ^ 32
  have htaps : taps < 2 ^ 32 := Nat.mod_lt _ (by omega)
  let blockFrames : UInt32 := UInt32.ofNat (2 ^ 32 - 1 - 2 * taps % 2 ^ 32)
  let samples : List ℕ := List.replicate (taps / 2 + 1) 0
  let r := StreamingResampler.configure 0 srcRate.toNat dstRate.toNat .mono blockFrames.toNat
  have hcapacity : (blockFrames.toNat + 2 * taps) % 2 ^ 32 = 2 ^ 32 - 1 := by
    have hblock : blockFrames.toNat = 2 ^ 32 - 1 - 2 * taps % 2 ^ 32 :=
      UInt32.toNat_ofNat_of_lt' (by show _ < 2 ^ 32; omega)
    omega
  have hrtaps : r.taps = taps := by
    show (polyphaseBank srcRate.toNat dstRate.toNat).taps % 2 ^ 32 = _
    rw [hbank]
  have hbuffer : r.history.buffer.length = 2 ^ 32 - 1 := by
    show (List.replicate _ 0).length = _
    rw [List.length_replicate]
    show (blockFrames.toNat + 2 * r.taps) % 2 ^ 32 * 1 = _
    rw [hrtaps, hcapacity, Nat.mul_one]
  have hsamples : samples.length = taps / 2 + 1 := List.length_replicate
  have hroom : 0 * 1 + samples.length ≤ r.history.buffer.length := by omega
  have happ : r.compact.append 1 samples = some
      { r.history with
        buffer := r.history.buffer.take (0 * 1) ++ samples ++
          r.history.buffer.drop (0 * 1 + samples.length)
        len := 0 + samples.length / 1 } := if_pos hroom
  have hpush : r.pushInput samples = some { r with
      history :=
        { r.history with
          buffer := r.history.buffer.take (0 * 1) ++ samples ++
            r.history.buffer.drop (0 * 1 + samples.length)
          len := 0 + samples.length / 1 } } := by
    rw [StreamingResampler.pushInput, if_neg (by show ¬ samples.length / 1 = 0; omega)]
    refine Option.bind_eq_some_iff.mpr ⟨_, happ, if_pos ?_⟩
    show 0 + (0 + samples.length / 1) < 2 ^ 63
    omega
  generalize hpushed : ({ r with history := _ } : StreamingResampler ℕ) = r₁ at hpush
  have hcan : r₁.canProduce := by
    subst hpushed
    rw [StreamingResampler.canProduce, Bool.and_eq_true]
    refine ⟨decide_eq_true (by show dstRate.toNat ≠ 0; omega), decide_eq_true ?_⟩
    show (framePos 0 srcRate.toNat dstRate.toNat).center + ((r.taps : ℤ) - 1) -
      ((r.taps / 2 : ℕ) - 1) < ((0 : ℕ) : ℤ) + ((0 + samples.length / 1 : ℕ) : ℤ)
    rw [framePos_zero_center _ hdst, hrtaps]
    omega
  have hdrain : StreamingResampler.drain 0 dot 1 r₁ = r₁.produce 0 dot := by
    rw [StreamingResampler.drain, if_pos hcan]
    show ((r₁.produce 0 dot).1 ++ [], (r₁.produce 0 dot).2) = _
    rw [List.append_nil]
  have hindex : (r₁.produce 0 dot).2.outIndex = 1 := by
    subst hpushed
    rfl
  -- one sample each, which is the number of taps
  have hstream : (r₁.produce 0 dot).1 = [taps] := by
    subst hpushed
    show [(List.map _ (List.range r.taps)).length] = _
    rw [List.length_map, List.length_range, hrtaps]
  generalize r₁.produce 0 dot = frame at hdrain hindex hstream
  obtain ⟨out, r₂⟩ := frame
  obtain rfl : out = [taps] := hstream
  have hrun : r.run 0 dot [.push samples, .drain 1] = some ([taps], r₂) := by
    show (r.pushInput samples).bind (fun r => StreamingResampler.run 0 dot [.drain 1] r) = _
    rw [hpush]
    show some ((StreamingResampler.drain 0 dot 1 r₁).1 ++ [],
      (StreamingResampler.drain 0 dot 1 r₁).2) = _
    rw [List.append_nil, hdrain]
  obtain ⟨hwhole, -⟩ := h ℕ 0 dot .mono blockFrames [.push samples, .drain 1] _ _
    (fun s _ => Nat.one_dvd _) hrun (fun n hn => by
      obtain rfl : n = 0 := by rw [show r₂.outIndex = 1 from hindex] at hn; omega
      omega)
  have hout := hwhole samples 0 (by
    rw [StreamingResampler.pushed, StreamingResampler.pushed, StreamingResampler.pushed,
      List.replicate_zero]) (Nat.one_dvd _) []
  have hone : resampleAudio 0 dot .mono srcRate.toNat dstRate.toNat samples 1 [] =
      [bank.taps] := by
    rw [resampleAudio, if_neg (by omega)]
    show [(List.map _ (List.range (polyphaseBank srcRate.toNat dstRate.toNat).taps)).length] = _
    rw [List.length_map, List.length_range, hbank]
  rw [show r₂.outIndex = 1 from hindex, hone] at hout
  have heq := (List.cons.inj hout).1
  omega

/-- Streaming at two distinct rates is the whole pass exactly when the number of filter taps, which
grows with the ratio of the rates when the rate is lowered, fits the 32 bits it is kept in. -/
theorem streamsAsWhole_iff (srcRate dstRate : UInt32) (hsrc : 0 < srcRate) (hdst : 0 < dstRate)
    (hne : srcRate ≠ dstRate) :
    StreamsAsWhole srcRate dstRate ↔
      (polyphaseBank srcRate.toNat dstRate.toNat).taps < 2 ^ 32 := by
  constructor
  · intro h
    by_contra hcut
    exact not_streamsAsWhole hsrc hdst hne (Nat.le_of_not_lt hcut) h
  · exact streamsAsWhole_of_fits hsrc hdst hne

/-- From 44100 to 48000 samples a second. -/
theorem streamsAsWhole_iff_upsampling :
    StreamsAsWhole 44100 48000 ↔ (polyphaseBank 44100 48000).taps < 2 ^ 32 :=
  streamsAsWhole_iff 44100 48000 (by decide) (by decide) (by decide)

/-- From 2^28 samples a second to one, the filter has 2^32 taps, and the streaming one none. -/
theorem not_streamsAsWhole_cut : ¬ StreamsAsWhole 268435456 1 :=
  not_streamsAsWhole (by decide) (by decide) (by decide) (by decide +kernel)

end ArbitraryComposer
