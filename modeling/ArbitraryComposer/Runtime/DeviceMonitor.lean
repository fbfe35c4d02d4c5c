import ArbitraryComposer.Contract.AudioFacet
import ArbitraryComposer.Media.AudioResampler
import ArbitraryComposer.Runtime.Transport
import ArbitraryComposer.ToMathlib.Machine

/-!
# The Device Monitor

A device calls back for frames. The callback drains the next prepared block of the mix whenever it
has none left, through the streaming resampler when the device has another rate, and counts the frames
it delivered at its end. The owner thread advances the transport by the frames delivered since it
last looked, and publishes the playhead. After a seek or a change of the rate it has the callback
restart at the block that covers the playhead.

The cursor and the counts are modelled, the samples are not. A step of the owner thread may fall
between the two ends of a callback.

## Main definitions

- `DrainCursor`: what a callback moves, with `fillMatched` and `fillResampled`.
- `DeviceMonitor`, `fillRt`, `masterStep`: the two sides.
- `deviceMonitor`: their machine.
- `CallbackTracks`: a callback drains the blocks around the published position, in order.
- `KeepsPlayhead`: the steps after which callbacks do.

## Main results

- `callbackTracks_of_reachable`: in a run of such steps every callback tracks the playhead.
- `exists_not_callbackTracks`: a loop that wraps leaves the drain behind.
-/

namespace ArbitraryComposer

/-! ## The drain -/

/-- `DeviceMonitorConfig`, and the rate of the device. -/
structure DeviceMonitorConfig where
  /-- The rate of the mix. -/
  workingRate : UInt32
  /-- The frames of a block. -/
  blockFrames : UInt32
  /-- The rate of the device. -/
  deviceRate : UInt32
  deriving DecidableEq, Repr

namespace DeviceMonitorConfig

/-- `d_resampling`. -/
def resampling (config : DeviceMonitorConfig) : Bool := config.deviceRate != config.workingRate

/-- The flicks of a block. -/
def blockSpan (config : DeviceMonitorConfig) : Int64 :=
  config.blockFrames.toUInt64.toInt64 * flicksPerFrame config.workingRate

/-- `start_block_index`: the block that covers an instant. -/
def blockIndexAt (config : DeviceMonitorConfig) (p : Int64) : ℤ :=
  let span := config.blockSpan.toInt
  if span = 0 then 0
  else if 0 ≤ p.toInt then p.toInt.tdiv span
  else -((-p.toInt + span - 1).tdiv span)

end DeviceMonitorConfig

/-- What a callback moves. -/
structure DrainCursor where
  /-- `d_drain_index`: the block to drain next. -/
  index : ℤ
  /-- `d_carry_frames`: the frames of the last block that are left. -/
  carry : ℕ
  /-- `d_resampler`. -/
  resampler : StreamingResampler Unit
  /-- The frames that the callback has written. -/
  written : ℕ
  /-- The blocks that it has drained, each with the frames written before. -/
  drained : List (ℤ × ℕ)

namespace DrainCursor

/-- `drain_block`. -/
def drainBlock (blockFrames : ℕ) (c : DrainCursor) : DrainCursor :=
  { c with
    index := c.index + 1
    carry := blockFrames
    drained := c.drained ++ [(c.index, c.written)] }

/-- The first statement of a round: a block is drained when none is left. -/
def refill (blockFrames : ℕ) (c : DrainCursor) : DrainCursor :=
  if c.carry = 0 then c.drainBlock blockFrames else c

/-- The loop of `fill_rt` at a matched rate, with some turns. -/
def fillMatched (blockFrames frames : ℕ) : (turns : ℕ) → DrainCursor → DrainCursor
  | 0, c => c
  | turns + 1, c =>
    if c.written < frames then
      let c := c.refill blockFrames
      let n := min (frames - c.written) c.carry
      fillMatched blockFrames frames turns
        { c with written := c.written + n, carry := c.carry - n }
    else c

/-- The inner loop of `fill_rt` with a resampler, with some turns: blocks are pushed until a frame
can be produced. -/
def feed (blockFrames : ℕ) : (turns : ℕ) → DrainCursor → Option DrainCursor
  | 0, c => some c
  | turns + 1, c =>
    if c.resampler.canProduce then some c
    else do
      let c := c.refill blockFrames
      let resampler ← c.resampler.pushInput (List.replicate c.carry ())
      feed blockFrames turns { c with resampler := resampler, carry := 0 }

/-- The frames that the next output reaches and that have not come. -/
def missing (c : DrainCursor) : ℕ :=
  (supportNewest c.resampler.nextPos c.resampler.taps + 1 -
    (c.resampler.history.base + c.resampler.history.len : ℕ)).toNat

/-- The batch of `fill_rt`: what can be produced, up to the end of the target or a block. -/
def produceBatch (blockFrames frames : ℕ) (c : DrainCursor) : DrainCursor :=
  let resampler := (c.resampler.drain () (fun _ _ _ => ())
    (min (frames - c.written) blockFrames)).2
  { c with
    resampler := resampler, written := c.written + (resampler.outIndex - c.resampler.outIndex) }

/-- The loop of `fill_rt` with a resampler, with some turns. -/
def fillResampled (blockFrames frames : ℕ) : (turns : ℕ) → DrainCursor → Option DrainCursor
  | 0, c => some c
  | turns + 1, c =>
    if c.written < frames then do
      let c ← c.feed blockFrames c.missing
      fillResampled blockFrames frames turns (c.produceBatch blockFrames frames)
    else some c

end DrainCursor

/-! ## The two sides -/

/-- `DeviceMonitor`, with the transport that it is bound to. -/
structure DeviceMonitor where
  /-- The transport. -/
  transport : Transport
  /-- `d_drain_index`. -/
  drainIndex : ℤ
  /-- `d_carry_frames`. -/
  carryFrames : ℕ
  /-- `d_resampler`. -/
  resampler : StreamingResampler Unit
  /-- `d_delivered`. -/
  delivered : ℕ
  /-- The frames of a callback that has not counted them yet. -/
  filling : Option ℕ
  /-- `d_published`. -/
  published : Int64
  /-- `d_realign_index`. -/
  realignIndex : ℤ
  /-- `d_realign_request`. -/
  realignRequest : Bool
  /-- `d_resampler_flush`. -/
  resamplerFlush : Bool
  /-- `d_last_delivered`. -/
  lastDelivered : ℕ
  /-- `d_pending_seek`. -/
  pendingSeek : Option Int64
  /-- `d_pending_rate`. -/
  pendingRate : Option Rational

namespace DeviceMonitor

/-- `DeviceMonitor::DeviceMonitor`. -/
def new (config : DeviceMonitorConfig) (transport : Transport) : DeviceMonitor where
  transport := transport
  drainIndex := config.blockIndexAt transport.playhead
  carryFrames := 0
  resampler := .configure () config.workingRate.toNat config.deviceRate.toNat .mono
    config.blockFrames.toNat
  delivered := 0
  filling := none
  published := transport.playhead
  realignIndex := 0
  realignRequest := false
  resamplerFlush := false
  lastDelivered := 0
  pendingSeek := none
  pendingRate := none

/-- The first statement of `fill_rt`: the drain restarts where it was told to. -/
def realign (s : DeviceMonitor) : DeviceMonitor :=
  if s.realignRequest then
    { s with drainIndex := s.realignIndex, carryFrames := 0, realignRequest := false }
  else s

/-- The flush of the resampler. -/
def flush (s : DeviceMonitor) : DeviceMonitor :=
  if s.resamplerFlush then
    { s with resampler := s.resampler.reset, carryFrames := 0, resamplerFlush := false }
  else s

/-- The cursor at the start of a callback. -/
def cursor (s : DeviceMonitor) : DrainCursor := ⟨s.drainIndex, s.carryFrames, s.resampler, 0, []⟩

/-- The monitor when a callback has filled its target. -/
def afterFill (s : DeviceMonitor) (frames : ℕ) (c : DrainCursor) : DeviceMonitor :=
  { s with
    drainIndex := c.index
    carryFrames := c.carry
    resampler := c.resampler
    filling := some frames }

/-- `fill_rt` up to its last statement: the blocks it drains, each with the frames written before,
and the monitor. -/
def fillRt (config : DeviceMonitorConfig) (s : DeviceMonitor) (frames : ℕ) :
    Option (List (ℤ × ℕ) × DeviceMonitor) :=
  let s := s.realign
  if config.resampling then do
    let s := s.flush
    let c ← s.cursor.fillResampled config.blockFrames.toNat frames frames
    return (c.drained, s.afterFill frames c)
  else
    let c := s.cursor.fillMatched config.blockFrames.toNat frames frames
    some (c.drained, s.afterFill frames c)

/-- The last statement of `fill_rt`: the frames are counted. -/
def deliver (s : DeviceMonitor) : Option DeviceMonitor := do
  return { s with delivered := s.delivered + (← s.filling), filling := none }

/-- The transport after the pending changes of a master step. -/
def pendingTransport (s : DeviceMonitor) : Transport :=
  let transport := match s.pendingRate with
    | some rate => { s.transport with rate := rate }
    | none => s.transport
  match s.pendingSeek with
  | some t => { transport with playhead := t }
  | none => transport

/-- The frames that a master step advances by: a seek starts the count anew. -/
def pendingFrames (s : DeviceMonitor) : ℕ :=
  match s.pendingSeek with
  | some _ => 0
  | none => s.delivered - s.lastDelivered

/-- The advance of a master step; an error is passed over, and leaves the playhead. -/
def advance (config : DeviceMonitorConfig) (transport : Transport) (delta : ℕ) :
    Option Transport :=
  if delta = 0 then some transport
  else
    match transport.advance (.ofInt (delta * (flicksPerFrame config.deviceRate).toInt)) with
    | .ok transport => some transport
    | .error (.error _) => some transport
    | .error (.trap _) => none

/-- A seek or a change of the rate is pending. -/
def rebases (s : DeviceMonitor) : Bool := s.pendingSeek.isSome || s.pendingRate.isSome

/-- `master_step`. -/
def masterStep (config : DeviceMonitorConfig) (s : DeviceMonitor) : Option DeviceMonitor := do
  let transport ← advance config s.pendingTransport s.pendingFrames
  return { s with
    transport := transport
    published := transport.playhead
    lastDelivered := s.delivered
    pendingSeek := none
    pendingRate := none
    realignIndex := if s.rebases then config.blockIndexAt transport.playhead else s.realignIndex
    realignRequest := s.rebases || s.realignRequest
    resamplerFlush := s.rebases && config.resampling || s.resamplerFlush }

end DeviceMonitor

/-- What happens to a device monitor. -/
inductive DeviceEvent where
  /-- The device calls back for frames, which are filled. -/
  | callback (frames : ℕ)
  /-- The callback counts its frames and returns. -/
  | deliver
  /-- The owner thread takes a step. -/
  | masterStep
  /-- `DeviceMonitor::seek`. -/
  | seek (t : Int64)
  /-- `DeviceMonitor::set_rate`. -/
  | setRate (rate : Rational)
  /-- `Transport::play`. -/
  | play
  /-- `Transport::pause`. -/
  | pause
  /-- `Transport::set_loop`. -/
  | setLoop (range : Option TimeRange)
  deriving DecidableEq, Repr

/-- A step. -/
def DeviceMonitor.step (config : DeviceMonitorConfig) :
    DeviceEvent → DeviceMonitor → Option DeviceMonitor
  | .callback frames, s =>
    if s.filling.isSome then none else (s.fillRt config frames).map Prod.snd
  | .deliver, s => s.deliver
  | .masterStep, s => s.masterStep config
  | .seek t, s => some { s with pendingSeek := some t }
  | .setRate rate, s => some { s with pendingRate := some rate }
  | .play, s => some { s with transport := { s.transport with paused := false } }
  | .pause, s => some { s with transport := { s.transport with paused := true } }
  | .setLoop range, s => some { s with transport := { s.transport with loop := range } }

/-- The machine of a device monitor on a transport. -/
def deviceMonitor (config : DeviceMonitorConfig) : Machine DeviceMonitor DeviceEvent where
  start s := ∃ transport, s = .new config transport
  step := DeviceMonitor.step config

/-! ## Configurations -/

namespace DeviceMonitorConfig

variable {config : DeviceMonitorConfig}

/-- The flicks of a frame of the mix. -/
def workingFlicks (config : DeviceMonitorConfig) : ℤ := (flicksPerFrame config.workingRate).toInt

/-- The flicks of a frame of the device. -/
def deviceFlicks (config : DeviceMonitorConfig) : ℤ := (flicksPerFrame config.deviceRate).toInt

/-- The flicks of a block, in exact arithmetic. -/
def span (config : DeviceMonitorConfig) : ℤ := config.blockFrames.toNat * config.workingFlicks

/-- The taps of the resampler. -/
def taps (config : DeviceMonitorConfig) : ℕ :=
  (polyphaseBank config.workingRate.toNat config.deviceRate.toNat).taps

/-- How far ahead of the callback the resampler reads. -/
def lookahead (config : DeviceMonitorConfig) : ℤ :=
  if config.resampling then (config.taps / 2 + 1 : ℕ) * config.workingFlicks else 0

/-- The frames of both rates last a whole number of flicks, a block has frames, and the taps of the
resampler fit the word that they are kept in. -/
structure Suits (config : DeviceMonitorConfig) : Prop where
  /-- A block has frames. -/
  block_pos : 0 < config.blockFrames.toNat
  /-- A frame has flicks. -/
  flicks_pos : 0 < config.workingFlicks
  /-- A second has as many flicks at both rates. -/
  exact : config.deviceFlicks * config.deviceRate.toNat =
    config.workingFlicks * config.workingRate.toNat
  /-- The taps fit. -/
  taps_lt : config.taps < 2 ^ 32

/-- The flicks of a block fit 64 bits. -/
theorem blockSpan_toInt (config : DeviceMonitorConfig) : config.blockSpan.toInt = config.span := by
  have hframes := config.blockFrames.toNat_lt
  have hnonneg := flicksPerFrame_nonneg config.workingRate
  have hle := flicksPerFrame_le config.workingRate
  rw [Int64.le_iff_toInt_le] at hnonneg
  have hzero : (0 : Int64).toInt = 0 := rfl
  have hupper : (config.blockFrames.toNat : ℤ) * (flicksPerFrame config.workingRate).toInt ≤
      2 ^ 32 * 705600000 := Int.mul_le_mul (by omega) hle (by omega) (by omega)
  have hlower : 0 ≤ (config.blockFrames.toNat : ℤ) * (flicksPerFrame config.workingRate).toInt :=
    Int.mul_nonneg (Int.natCast_nonneg _) (by omega)
  rw [blockSpan, Int64.toInt_mul, toInt_toInt64, span, workingFlicks]
  exact Int.bmod_eq_of_le (by omega) (by omega)

namespace Suits

variable (h : config.Suits)

include h

/-- A block has flicks. -/
theorem span_pos : 0 < config.span :=
  Int.mul_pos (Int.natCast_pos.mpr h.block_pos) h.flicks_pos

/-- The mix has a rate. -/
theorem workingRate_pos : 0 < config.workingRate.toNat := by
  have hflicks := h.flicks_pos
  apply Nat.pos_of_ne_zero
  intro hzero
  obtain hrate : config.workingRate = 0 := UInt32.toNat_inj.mp hzero
  rw [workingFlicks, hrate] at hflicks
  exact absurd hflicks (by decide)

/-- The device has a rate. -/
theorem deviceRate_pos : 0 < config.deviceRate.toNat := by
  have hexact := h.exact
  have hpos : 0 < config.workingFlicks * config.workingRate.toNat :=
    Int.mul_pos h.flicks_pos (Int.natCast_pos.mpr h.workingRate_pos)
  apply Nat.pos_of_ne_zero
  intro hzero
  rw [hzero, Int.natCast_zero, Int.mul_zero] at hexact
  omega

/-- A block index covers the instant that it is asked for. -/
theorem blockIndexAt_spec (p : Int64) :
    config.blockIndexAt p * config.span ≤ p.toInt ∧
      p.toInt < (config.blockIndexAt p + 1) * config.span := by
  have hspan := h.span_pos
  rw [blockIndexAt, blockSpan_toInt, if_neg hspan.ne']
  split
  case isTrue hnonneg =>
    rw [Int.tdiv_eq_ediv_of_nonneg hnonneg]
    exact ⟨Int.ediv_mul_le _ hspan.ne', Int.lt_ediv_add_one_mul_self _ hspan⟩
  case isFalse hneg =>
    -- rounded away from zero
    rw [Int.tdiv_eq_ediv_of_nonneg (by omega)]
    have hlower := Int.ediv_mul_le (-p.toInt + config.span - 1) hspan.ne'
    have hupper := Int.lt_ediv_add_one_mul_self (-p.toInt + config.span - 1) hspan
    generalize (-p.toInt + config.span - 1) / config.span = q at hlower hupper ⊢
    rw [Int.add_mul, Int.one_mul] at hupper ⊢
    rw [Int.neg_mul]
    omega

end Suits

end DeviceMonitorConfig

/-! ## What a callback drains -/

namespace DrainCursor

variable {P : ℤ × ℕ → Prop} {blockFrames frames : ℕ} {c c' c'' : DrainCursor}

/-- Blocks are drained in order from the cursor on, each with a property. -/
def Drained (P : ℤ × ℕ → Prop) (c c' : DrainCursor) : Prop :=
  ∃ blocks, c'.drained = c.drained ++ blocks ∧ c'.index = c.index + blocks.length ∧
    blocks.map Prod.fst = (List.range blocks.length).map (fun k : ℕ => c.index + k) ∧
    ∀ d ∈ blocks, P d

theorem Drained.of_eq (hindex : c'.index = c.index) (hdrained : c'.drained = c.drained) :
    Drained P c c' := by
  refine ⟨[], ?_, ?_, rfl, nofun⟩
  · rw [hdrained, List.append_nil]
  · rw [hindex, List.length_nil, Int.natCast_zero, Int.add_zero]

theorem Drained.trans (h : Drained P c c') (h' : Drained P c' c'') : Drained P c c'' := by
  obtain ⟨blocks, hdrained, hindex, horder, hP⟩ := h
  obtain ⟨blocks', hdrained', hindex', horder', hP'⟩ := h'
  refine ⟨blocks ++ blocks', ?_, ?_, ?_, fun d hd => ?_⟩
  · rw [hdrained', hdrained, List.append_assoc]
  · rw [hindex', hindex, List.length_append]
    omega
  · rw [List.map_append, horder, horder', List.length_append, List.range_add, List.map_append,
      List.map_map]
    congr 1
    apply List.map_congr_left
    intro k _
    show c'.index + (k : ℤ) = c.index + ((blocks.length + k : ℕ) : ℤ)
    rw [hindex]
    omega
  · rcases List.mem_append.mp hd with hd | hd
    · exact hP d hd
    · exact hP' d hd

/-- A refill drains the block at the cursor, if it drains one. -/
theorem drained_refill (h : c.carry = 0 → P (c.index, c.written)) :
    Drained P c (c.refill blockFrames) := by
  rw [refill]
  split
  case isTrue hzero =>
    refine ⟨[(c.index, c.written)], rfl, rfl, ?_, ?_⟩
    · show [c.index] = [c.index + ((0 : ℕ) : ℤ)]
      rw [Int.natCast_zero, Int.add_zero]
    · rintro d hd
      obtain rfl := List.mem_singleton.mp hd
      exact h hzero
  case isFalse => exact .of_eq rfl rfl

/-! ### At a matched rate -/

/-- The position that a callback has reached, from the position that it started at, is where the
frames of the last block end that are left, up to an offset. -/
def AtMatched (fpf off start : ℤ) (blockFrames : ℕ) (c : DrainCursor) : Prop :=
  start + c.written * fpf + c.carry * fpf = c.index * (blockFrames * fpf) + off

theorem AtMatched.refill {fpf off start : ℤ} (h : AtMatched fpf off start blockFrames c) :
    AtMatched fpf off start blockFrames (c.refill blockFrames) := by
  rw [DrainCursor.refill]
  split
  case isTrue hzero =>
    rw [AtMatched, hzero] at h
    show start + c.written * fpf + (blockFrames : ℤ) * fpf =
      (c.index + 1) * (blockFrames * fpf) + off
    rw [Int.natCast_zero, Int.zero_mul, Int.add_zero] at h
    rw [h]
    ring
  case isFalse => exact h

/-- At a matched rate a block is drained when the callback is where it starts, up to the offset. -/
theorem fillMatched_spec {fpf off start : ℤ} (hblock : 0 < blockFrames) (turns : ℕ)
    (hat : AtMatched fpf off start blockFrames c) (hle : c.written ≤ frames)
    (hturns : frames ≤ c.written + turns) :
    (c.fillMatched blockFrames frames turns).written = frames ∧
      AtMatched fpf off start blockFrames (c.fillMatched blockFrames frames turns) ∧
      Drained (fun d => d.2 ≤ frames ∧ start + d.2 * fpf = d.1 * (blockFrames * fpf) + off) c
        (c.fillMatched blockFrames frames turns) := by
  induction turns generalizing c with
  | zero => exact ⟨by show c.written = frames; omega, hat, .of_eq rfl rfl⟩
  | succ turns ih =>
    rw [fillMatched]
    split
    case isFalse => exact ⟨by omega, hat, .of_eq rfl rfl⟩
    case isTrue hlt =>
      have hwritten : (c.refill blockFrames).written = c.written := by
        rw [refill]
        split <;> rfl
      have hcarry : 0 < (c.refill blockFrames).carry := by
        rw [refill]
        split
        · exact hblock
        · omega
      have hnext := hat.refill
      have hdrained : Drained (fun d => d.2 ≤ frames ∧
          start + d.2 * fpf = d.1 * (blockFrames * fpf) + off) c (c.refill blockFrames) := by
        apply drained_refill
        intro hzero
        rw [AtMatched, hzero, Int.natCast_zero, Int.zero_mul, Int.add_zero] at hat
        exact ⟨hle, hat⟩
      generalize c.refill blockFrames = r at hwritten hcarry hnext hdrained
      dsimp only
      -- the frames that are written are taken from the carry
      generalize hn : min (frames - r.written) r.carry = n
      obtain ⟨hend, hlast, hrest⟩ :=
        ih (c := { r with written := r.written + n, carry := r.carry - n })
          (by
            rw [AtMatched] at hnext ⊢
            show start + ((r.written + n : ℕ) : ℤ) * fpf + ((r.carry - n : ℕ) : ℤ) * fpf = _
            rw [← hnext, Int.natCast_sub (by omega), Int.natCast_add]
            ring)
          (by show r.written + n ≤ frames; omega) (by show frames ≤ r.written + n + turns; omega)
      exact ⟨hend, hlast, hdrained.trans (.trans (.of_eq rfl rfl) hrest)⟩

/-! ### With a resampler -/

section

variable {config : DeviceMonitorConfig} {off start : ℤ}

/-- With a resampler nothing is left of a block: the blocks that it was given, from the offset on,
reach from the frames that it produced to the block at the cursor. -/
def AtResampled (config : DeviceMonitorConfig) (off start : ℤ) (c : DrainCursor) : Prop :=
  c.carry = 0 ∧ ∃ stream, ∃ blocks : ℕ,
    c.resampler.InStep config.workingRate.toNat config.deviceRate.toNat 1 stream ∧
      stream.length = blocks * config.blockFrames.toNat ∧
      start + c.written * config.deviceFlicks =
        (c.index - blocks) * config.span + off + c.resampler.outIndex * config.deviceFlicks

/-- A block is around the position that a callback has reached when it drains it, or the resampler
reaches it from there. -/
def Covers (config : DeviceMonitorConfig) (start : ℤ) (frames : ℕ) (d : ℤ × ℕ) : Prop :=
  d.2 ≤ frames ∧ d.1 * config.span ≤ start + d.2 * config.deviceFlicks + config.lookahead ∧
    start + d.2 * config.deviceFlicks < (d.1 + 1) * config.span

/-- What has not come yet can be produced when nothing is missing. -/
private theorem canProduce_of_missing (hdst : c.resampler.dstRate ≠ 0) (h : c.missing = 0) :
    c.resampler.canProduce := by
  rw [missing] at h
  rw [StreamingResampler.canProduce, Bool.and_eq_true]
  refine ⟨decide_eq_true hdst, decide_eq_true ?_⟩
  omega

/-- The rates differ. -/
private theorem rates_ne (hres : config.resampling) :
    config.workingRate.toNat ≠ config.deviceRate.toNat := by
  intro heq
  rw [DeviceMonitorConfig.resampling, UInt32.toNat_inj.mp heq, bne_self_eq_false] at hres
  cases hres

variable (hsuits : config.Suits) (hres : config.resampling)

include hsuits hres in
/-- A block that is drained for the resampler is around the position, or within its reach. -/
private theorem AtResampled.covers (hat : AtResampled config off start c) (hoff : 0 ≤ off)
    (hlt : off < config.span) (hle : c.written ≤ frames)
    (hprod : c.resampler.outIndex * config.workingRate.toNat < 2 ^ 64)
    (hcan : c.resampler.canProduce = false) : Covers config start frames (c.index, c.written) := by
  obtain ⟨-, stream, blocks, hstep, hlength, hpos⟩ := hat
  have hreceived := hstep.holds.length
  obtain ⟨hreach, hbound⟩ := hstep.received_bounds hsuits.workingRate_pos hsuits.deviceRate_pos
    (rates_ne hres) hprod
  have hbound := hbound hcan
  rw [← Nat.mul_one (c.resampler.history.base + _), ← hreceived, hlength] at hreach hbound
  have htaps : c.resampler.taps = config.taps := hstep.taps_eq
  have hrate : (0 : ℤ) < config.deviceRate.toNat := Int.natCast_pos.mpr hsuits.deviceRate_pos
  have hexact := hsuits.exact
  rw [htaps] at hbound
  -- both bounds in flicks, times the rate of the device
  have hlower : (c.resampler.outIndex : ℤ) * config.deviceFlicks ≤ blocks * config.span := by
    apply Int.le_of_mul_le_mul_right _ hrate
    have hscaled := Int.mul_le_mul_of_nonneg_right (Int.ofNat_le.mpr hreach) hsuits.flicks_pos.le
    push_cast at hscaled
    rw [DeviceMonitorConfig.span]
    linarith [hscaled, congrArg (fun x => (c.resampler.outIndex : ℤ) * x) hexact]
  have hupper : (blocks : ℤ) * config.span ≤
      c.resampler.outIndex * config.deviceFlicks + config.lookahead := by
    apply Int.le_of_mul_le_mul_right _ hrate
    have hscaled := Int.mul_le_mul_of_nonneg_right (Int.ofNat_le.mpr hbound) hsuits.flicks_pos.le
    rw [DeviceMonitorConfig.lookahead, if_pos hres, DeviceMonitorConfig.span]
    push_cast at hscaled ⊢
    linarith [hscaled, congrArg (fun x => (c.resampler.outIndex : ℤ) * x) hexact]
  refine ⟨hle, ?_, ?_⟩
  · show c.index * config.span ≤ start + c.written * config.deviceFlicks + config.lookahead
    rw [hpos]
    linarith
  · show start + c.written * config.deviceFlicks < (c.index + 1) * config.span
    rw [hpos]
    linarith

include hsuits in
/-- A block that is drained and pushed keeps the position, and less is missing. -/
private theorem AtResampled.push (hat : AtResampled config off start c)
    {resampler : StreamingResampler Unit}
    (hpush : c.resampler.pushInput
      (List.replicate (c.refill config.blockFrames.toNat).carry ()) = some resampler) :
    AtResampled config off start
        { c.refill config.blockFrames.toNat with resampler := resampler, carry := 0 } ∧
      resampler.outIndex = c.resampler.outIndex ∧
      missing { c.refill config.blockFrames.toNat with resampler := resampler, carry := 0 } ≤
        c.missing - 1 := by
  obtain ⟨hcarry, stream, blocks, hstep, hlength, hpos⟩ := hat
  have hblock := hsuits.block_pos
  have hrefill : c.refill config.blockFrames.toNat = c.drainBlock config.blockFrames.toNat :=
    if_pos hcarry
  rw [hrefill] at hpush ⊢
  obtain ⟨hnext, hout⟩ := hstep.pushInput hsuits.deviceRate_pos Nat.one_pos (Nat.one_dvd _) hpush
  refine ⟨⟨rfl, _, blocks + 1, hnext, ?_, ?_⟩, hout, ?_⟩
  · rw [List.length_append, hlength]
    show blocks * config.blockFrames.toNat +
      (List.replicate config.blockFrames.toNat ()).length = _
    rw [List.length_replicate]
    ring
  · show start + c.written * config.deviceFlicks =
      (c.index + 1 - ((blocks + 1 : ℕ) : ℤ)) * config.span + off +
        resampler.outIndex * config.deviceFlicks
    rw [hpos, hout]
    push_cast
    ring
  · -- the next position is the same, and the block has come
    have hsame : resampler.nextPos = c.resampler.nextPos := by
      rw [StreamingResampler.nextPos, StreamingResampler.nextPos, hout, hnext.src_eq, hnext.dst_eq,
        hstep.src_eq, hstep.dst_eq]
    have htaps : resampler.taps = c.resampler.taps := hnext.taps_eq.trans hstep.taps_eq.symm
    have hbefore := hstep.holds.length
    have hafter := hnext.holds.length
    rw [List.length_append, hbefore, Nat.mul_one, Nat.mul_one] at hafter
    have hcame : (List.replicate (c.drainBlock config.blockFrames.toNat).carry ()).length =
        config.blockFrames.toNat := List.length_replicate
    rw [missing, missing]
    show (supportNewest resampler.nextPos resampler.taps + 1 -
      (resampler.history.base + resampler.history.len : ℕ)).toNat ≤ _
    rw [hsame, htaps, ← hafter, hcame]
    omega

include hsuits hres in
/-- Blocks are drained and pushed until a frame can be produced. -/
theorem feed_spec (turns : ℕ) (hat : AtResampled config off start c) (hoff : 0 ≤ off)
    (hlt : off < config.span) (hle : c.written ≤ frames)
    (hprod : c.resampler.outIndex * config.workingRate.toNat < 2 ^ 64) (hturns : c.missing ≤ turns)
    (hfeed : c.feed config.blockFrames.toNat turns = some c') :
    AtResampled config off start c' ∧ c'.resampler.canProduce ∧ c'.written = c.written ∧
      c'.resampler.outIndex = c.resampler.outIndex ∧ Drained (Covers config start frames) c c' := by
  induction turns generalizing c with
  | zero =>
    obtain rfl := Option.some.inj hfeed
    obtain ⟨-, stream, blocks, hstep, -⟩ := id hat
    refine ⟨hat, canProduce_of_missing ?_ (Nat.le_zero.mp hturns), rfl, rfl, .of_eq rfl rfl⟩
    rw [hstep.dst_eq]
    exact hsuits.deviceRate_pos.ne'
  | succ turns ih =>
    rw [feed] at hfeed
    split at hfeed
    case isTrue hcan =>
      obtain rfl := Option.some.inj hfeed
      exact ⟨hat, hcan, rfl, rfl, .of_eq rfl rfl⟩
    case isFalse hcan =>
      obtain ⟨resampler, hpush, hfeed⟩ := Option.bind_eq_some_iff.mp hfeed
      have hresampler : (c.refill config.blockFrames.toNat).resampler = c.resampler := by
        rw [refill]
        split <;> rfl
      have hwritten : (c.refill config.blockFrames.toNat).written = c.written := by
        rw [refill]
        split <;> rfl
      rw [hresampler] at hpush
      have hdrained : Drained (Covers config start frames) c (c.refill config.blockFrames.toNat) :=
        drained_refill fun _ => hat.covers hsuits hres hoff hlt hle hprod (eq_false_of_ne_true hcan)
      obtain ⟨hnext, hout, hmissing⟩ := hat.push hsuits hpush
      obtain ⟨hat', hcan', hwritten', hout', hrest⟩ := ih hnext (hwritten.trans_le hle)
        (by show resampler.outIndex * _ < _; rw [hout]; exact hprod) (by omega) hfeed
      exact ⟨hat', hcan', hwritten'.trans hwritten, hout'.trans hout,
        hdrained.trans (.trans (.of_eq rfl rfl) hrest)⟩

include hsuits hres in
/-- A batch moves the position by the frames it produces. -/
theorem AtResampled.produceBatch (hat : AtResampled config off start c) (hlt : c.written < frames)
    (hcan : c.resampler.canProduce) (hprod : (c.resampler.outIndex + (frames - c.written)) *
      config.workingRate.toNat < 2 ^ 64) :
    AtResampled config off start (c.produceBatch config.blockFrames.toNat frames) ∧
      ∃ count, 0 < count ∧ c.written + count ≤ frames ∧
        (c.produceBatch config.blockFrames.toNat frames).written = c.written + count ∧
        (c.produceBatch config.blockFrames.toNat frames).resampler.outIndex =
          c.resampler.outIndex + count := by
  obtain ⟨hcarry, stream, blocks, hstep, hlength, hpos⟩ := hat
  have hblock := hsuits.block_pos
  have hmax := @StreamingResampler.drain_outIndex_le_add Unit () (fun _ _ _ => ())
    (min (frames - c.written) config.blockFrames.toNat) c.resampler
  have hsome := @StreamingResampler.lt_drain_outIndex Unit () (fun _ _ _ => ()) c.resampler _
    (show 0 < min (frames - c.written) config.blockFrames.toNat by omega) hcan
  obtain ⟨hnext, count, hcount, -⟩ := @StreamingResampler.InStep.drain Unit ()
    (fun _ _ _ => ()) _ _ _ _ _ hsuits.workingRate_pos hsuits.deviceRate_pos (rates_ne hres) hstep
    (min (frames - c.written) config.blockFrames.toNat) [] (by
      intro n hn
      refine lt_of_le_of_lt (Nat.mul_le_mul_right _ ?_) hprod
      omega)
  have hwritten : (c.produceBatch config.blockFrames.toNat frames).written = c.written + count := by
    rw [DrainCursor.produceBatch]
    show c.written + (_ - _) = _
    rw [hcount, Nat.add_sub_cancel_left]
  refine ⟨⟨hcarry, stream, blocks, hnext, hlength, ?_⟩, count, by omega, by omega, hwritten,
    hcount⟩
  rw [hwritten]
  show _ = (c.index - blocks) * config.span + off +
    ((StreamingResampler.drain () (fun _ _ _ => ()) _ c.resampler).2.outIndex : ℤ) * _
  rw [hcount]
  push_cast
  linarith

include hsuits hres in
/-- With a resampler the blocks that are drained are around the callback. -/
theorem fillResampled_spec (turns : ℕ) (hat : AtResampled config off start c) (hoff : 0 ≤ off)
    (hlt : off < config.span) (hle : c.written ≤ frames) (hturns : frames ≤ c.written + turns)
    (hprod : (c.resampler.outIndex + (frames - c.written)) * config.workingRate.toNat < 2 ^ 64)
    (hfill : c.fillResampled config.blockFrames.toNat frames turns = some c') :
    c'.written = frames ∧ AtResampled config off start c' ∧
      c'.resampler.outIndex = c.resampler.outIndex + (frames - c.written) ∧
      Drained (Covers config start frames) c c' := by
  induction turns generalizing c with
  | zero =>
    obtain rfl := Option.some.inj hfill
    exact ⟨by omega, hat, by omega, .of_eq rfl rfl⟩
  | succ turns ih =>
    rw [fillResampled] at hfill
    split at hfill
    case isFalse =>
      obtain rfl := Option.some.inj hfill
      exact ⟨by omega, hat, by omega, .of_eq rfl rfl⟩
    case isTrue hmore =>
      obtain ⟨fed, hfeed, hfill⟩ := Option.bind_eq_some_iff.mp hfill
      have hthis : c.resampler.outIndex * config.workingRate.toNat < 2 ^ 64 :=
        lt_of_le_of_lt (Nat.mul_le_mul_right _ (Nat.le_add_right _ _)) hprod
      obtain ⟨hfed, hcan, hwritten, hout, hdrained⟩ :=
        feed_spec hsuits hres _ hat hoff hlt hle hthis le_rfl hfeed
      obtain ⟨hbatch, count, hpos, hcount, hwritten', hout'⟩ :=
        hfed.produceBatch hsuits hres (hwritten.trans_lt hmore) hcan (by rw [hout, hwritten]; exact hprod)
      obtain ⟨hend, hat', hlast, hrest⟩ := ih hbatch (by omega) (by omega)
        (by
          rw [hwritten', hout', hout, hwritten]
          rwa [show c.resampler.outIndex + count + (frames - (c.written + count)) =
            c.resampler.outIndex + (frames - c.written) by omega]) hfill
      exact ⟨hend, hat', by omega, hdrained.trans (.trans (.of_eq rfl rfl) hrest)⟩

/-- The position of a cursor, at either kind of rate. -/
structure At (config : DeviceMonitorConfig) (off start : ℤ) (c : DrainCursor) : Prop where
  /-- At a matched rate. -/
  matched : config.resampling = false →
    AtMatched config.workingFlicks off start config.blockFrames.toNat c
  /-- With a resampler. -/
  resampled : config.resampling = true → AtResampled config off start c

/-- At a matched rate a frame lasts as long on both sides. -/
theorem deviceFlicks_eq (hmatched : config.resampling = false) :
    config.deviceFlicks = config.workingFlicks := by
  rw [DeviceMonitorConfig.resampling, bne_eq_false_iff_eq] at hmatched
  rw [DeviceMonitorConfig.deviceFlicks, DeviceMonitorConfig.workingFlicks, hmatched]

/-- A block that starts where the callback is, up to an offset inside it, is around it. -/
theorem covers_of_matched (hmatched : config.resampling = false) (hoff : 0 ≤ off)
    (hlt : off < config.span) {d : ℤ × ℕ}
    (h : d.2 ≤ frames ∧ start + d.2 * config.workingFlicks =
      d.1 * (config.blockFrames.toNat * config.workingFlicks) + off) :
    Covers config start frames d := by
  obtain ⟨hle, hpos⟩ := h
  rw [← DeviceMonitorConfig.span] at hpos
  rw [Covers, deviceFlicks_eq hmatched, DeviceMonitorConfig.lookahead,
    if_neg (ne_true_of_eq_false hmatched), hpos, Int.add_mul]
  omega

theorem Drained.imp {Q : ℤ × ℕ → Prop} (h : Drained P c c') (himp : ∀ d, P d → Q d) :
    Drained Q c c' := by
  obtain ⟨blocks, hdrained, hindex, horder, hP⟩ := h
  exact ⟨blocks, hdrained, hindex, horder, fun d hd => himp d (hP d hd)⟩

/-- The next callback starts where this one ended. -/
theorem At.next (h : c.At config off start) :
    DrainCursor.At config off (start + c.written * config.deviceFlicks)
      { c with written := 0, drained := [] } := by
  constructor
  · intro hmatched
    have hpos := h.matched hmatched
    rw [AtMatched] at hpos
    rw [AtMatched, deviceFlicks_eq hmatched]
    show _ + ((0 : ℕ) : ℤ) * _ + _ = _
    rw [Int.natCast_zero, Int.zero_mul, Int.add_zero]
    exact hpos
  · intro hres
    obtain ⟨hcarry, stream, pushed, hstep, hlength, hpos⟩ := h.resampled hres
    refine ⟨hcarry, stream, pushed, hstep, hlength, ?_⟩
    show _ + ((0 : ℕ) : ℤ) * _ = _
    rw [Int.natCast_zero, Int.zero_mul, Int.add_zero]
    exact hpos

/-- The loop of a callback writes its frames, and its blocks are around it. -/
theorem fill_spec (hsuits : config.Suits) (hat : c.At config off start) (hoff : 0 ≤ off)
    (hlt : off < config.span) (hwritten : c.written = 0)
    (hprod : config.resampling →
      (c.resampler.outIndex + frames) * config.workingRate.toNat < 2 ^ 64)
    (hmatched : config.resampling = false →
      c' = c.fillMatched config.blockFrames.toNat frames frames)
    (hresampled : config.resampling = true →
      c.fillResampled config.blockFrames.toNat frames frames = some c') :
    c'.written = frames ∧ c'.At config off start ∧ Drained (Covers config start frames) c c' := by
  cases hres : config.resampling with
  | false =>
    obtain ⟨hend, hlast, hdrained⟩ := fillMatched_spec hsuits.block_pos frames (hat.matched hres)
      (by omega : c.written ≤ frames) (by omega)
    rw [← hmatched hres] at hend hlast hdrained
    refine ⟨hend, ⟨fun _ => hlast, fun hres' => ?_⟩,
      hdrained.imp fun d hd => covers_of_matched hres hoff hlt hd⟩
    rw [hres] at hres'
    cases hres'
  | true =>
    obtain ⟨hend, hlast, -, hdrained⟩ := fillResampled_spec hsuits hres frames (hat.resampled hres)
      hoff hlt (by omega : c.written ≤ frames) (by omega)
      (by rw [hwritten, Nat.sub_zero]; exact hprod hres) (hresampled hres)
    refine ⟨hend, ⟨fun hres' => ?_, fun _ => hlast⟩, hdrained⟩
    rw [hres] at hres'
    cases hres'

end

end DrainCursor

/-! ## Runs -/

namespace DeviceMonitor

/-- The position of the drain: the playhead, and the frames that were filled since the owner thread
last looked. -/
def position (config : DeviceMonitorConfig) (s : DeviceMonitor) : ℤ :=
  s.transport.playhead.toInt +
    (s.delivered - s.lastDelivered + s.filling.getD 0 : ℕ) * config.deviceFlicks

/-- The drain is where the playhead is, or was told to restart there. -/
structure Aligned (config : DeviceMonitorConfig) (s : DeviceMonitor) : Prop where
  /-- The owner thread saw no more frames than there are. -/
  counted : s.lastDelivered ≤ s.delivered
  /-- The playhead is published. -/
  published_eq : s.published = s.transport.playhead
  /-- The resampler is in step with what it was given. -/
  inStep : config.resampling → ∃ stream, s.resampler.InStep config.workingRate.toNat
    config.deviceRate.toNat 1 stream
  /-- The restart is at the playhead, and no frame was filled since. -/
  restarts : s.realignRequest → s.realignIndex = config.blockIndexAt s.transport.playhead ∧
    s.delivered = s.lastDelivered ∧ s.filling = none ∧ (config.resampling → s.resamplerFlush)
  /-- Without a restart the cursor is at the position, up to an offset inside a block. -/
  tracks : s.realignRequest = false → (config.resampling → s.resamplerFlush = false) ∧
    ∃ off, 0 ≤ off ∧ off < config.span ∧ s.cursor.At config off (s.position config)

/-- What a callback promises: its blocks are around the published position within a depth, they
follow on those before or on the restart, and a restart is at the published position. -/
structure CallbackTracks (config : DeviceMonitorConfig) (depth : ℤ) (s : DeviceMonitor)
    (blocks : List (ℤ × ℕ)) (s' : DeviceMonitor) : Prop where
  /-- Each block is around the published position, within the depth. -/
  near : ∀ d ∈ blocks, d.1 * config.span ≤ s.published.toInt + depth ∧
    s.published.toInt < (d.1 + 1) * config.span
  /-- The blocks are in order. -/
  ordered : blocks.map Prod.fst =
    (List.range blocks.length).map (fun k : ℕ => s.realign.drainIndex + k)
  /-- The next callback goes on where this one ended. -/
  resumes : s'.drainIndex = s.realign.drainIndex + blocks.length
  /-- A restart takes nothing of the block before, and drains the one first that covers the
  published position. -/
  restarts : s.realignRequest → s.realign.carryFrames = 0 ∧ ∀ d ∈ blocks.head?,
    d.1 * config.span ≤ s.published.toInt ∧ s.published.toInt < (d.1 + 1) * config.span

/-- The steps that keep the drain at the playhead: a callback goes no further than the depth, and a
master step seeks or changes the rate between callbacks, or plays at rate one without a wrap. -/
def KeepsPlayhead (config : DeviceMonitorConfig) (depth : ℤ) : DeviceEvent → DeviceMonitor → Prop
  | .callback frames, s =>
    (s.delivered - s.lastDelivered + frames : ℕ) * config.deviceFlicks + config.lookahead ≤ depth ∧
      (config.resampling →
        (s.realign.flush.resampler.outIndex + frames) * config.workingRate.toNat < 2 ^ 64)
  | .masterStep, s =>
    if s.rebases then s.filling = none
    else s.delivered = s.lastDelivered ∨
      FitsSigned 64 ((s.delivered - s.lastDelivered : ℕ) * config.deviceFlicks) ∧
        s.transport.Plays ((s.delivered - s.lastDelivered : ℕ) * config.deviceFlicks)
  | _, _ => True

/-- The blocks that were drained since the drain last restarted. -/
structure DrainLog where
  /-- The block that it restarted at. -/
  first : ℤ
  /-- The blocks that were drained since. -/
  blocks : List ℤ

/-- No block of a log was drained twice, and none was skipped up to the next one. -/
structure DrainLog.InOrder (log : DrainLog) (next : ℤ) : Prop where
  /-- The blocks are in order. -/
  ordered : log.blocks = (List.range log.blocks.length).map fun k : ℕ => log.first + k
  /-- The next one follows. -/
  next_eq : next = log.first + log.blocks.length

/-- What a step logs. -/
def recordDrain (config : DeviceMonitorConfig) :
    DeviceEvent → DeviceMonitor → DeviceMonitor → DrainLog → DrainLog
  | .callback frames, s, _, log =>
    match s.fillRt config frames with
    | some (blocks, _) =>
      if s.realignRequest then ⟨s.realignIndex, blocks.map Prod.fst⟩
      else { log with blocks := log.blocks ++ blocks.map Prod.fst }
    | none => log
  | _, _, _, log => log

/-- The machine with a log. -/
def loggedMonitor (config : DeviceMonitorConfig) : Machine (DeviceMonitor × DrainLog) DeviceEvent :=
  (deviceMonitor config).observe (fun s => ⟨s.drainIndex, []⟩) (recordDrain config)

variable {config : DeviceMonitorConfig} {depth : ℤ} {frames : ℕ} {s s' : DeviceMonitor}
  {blocks : List (ℤ × ℕ)} {log : DrainLog}

/-- The state that a callback fills from. -/
def restarted (config : DeviceMonitorConfig) (s : DeviceMonitor) : DeviceMonitor :=
  if config.resampling then s.realign.flush else s.realign

/-- At the start of a callback the cursor is at the position. -/
theorem Aligned.restarted_at (h : s.Aligned config) (hsuits : config.Suits)
    (hfilling : s.filling = none) :
    ∃ off, 0 ≤ off ∧ off < config.span ∧
      (s.restarted config).cursor.At config off (s.position config) := by
  cases hrequest : s.realignRequest with
  | false =>
    obtain ⟨hflush, off, hoff, hlt, hat⟩ := h.tracks hrequest
    refine ⟨off, hoff, hlt, ?_⟩
    have hsame : s.restarted config = s := by
      have hrealign : s.realign = s := if_neg (ne_true_of_eq_false hrequest)
      rw [restarted, hrealign]
      split
      case isTrue hres => exact if_neg (ne_true_of_eq_false (hflush hres))
      case isFalse => rfl
    rw [hsame]
    exact hat
  | true =>
    -- the cursor is at the start of the block that covers the playhead
    obtain ⟨hindex, hcounted, -, hflush⟩ := h.restarts hrequest
    obtain ⟨hlower, hupper⟩ := hsuits.blockIndexAt_spec s.transport.playhead
    have hposition : s.position config = s.transport.playhead.toInt := by
      rw [position, hcounted, hfilling, Nat.sub_self]
      show _ + ((0 + 0 : ℕ) : ℤ) * _ = _
      rw [Nat.add_zero, Int.natCast_zero, Int.zero_mul, Int.add_zero]
    have hrealign : s.realign = { s with
        drainIndex := s.realignIndex, carryFrames := 0, realignRequest := false } := if_pos hrequest
    rw [Int.add_mul, Int.one_mul] at hupper
    refine ⟨s.transport.playhead.toInt - s.realignIndex * config.span, ?_, ?_, ?_, ?_⟩
    · rw [hindex]
      omega
    · rw [hindex]
      omega
    · intro hmatched
      rw [restarted, if_neg (ne_true_of_eq_false hmatched), hrealign, hposition,
        DrainCursor.AtMatched, ← DeviceMonitorConfig.span]
      show _ + ((0 : ℕ) : ℤ) * _ + ((0 : ℕ) : ℤ) * _ = s.realignIndex * _ + _
      rw [Int.natCast_zero, Int.zero_mul]
      omega
    · intro hres
      obtain ⟨stream, hstep⟩ := h.inStep hres
      have hrestarted : s.restarted config = { s with
          drainIndex := s.realignIndex, carryFrames := 0, realignRequest := false,
          resampler := s.resampler.reset, resamplerFlush := false } := by
        rw [restarted, if_pos hres, hrealign]
        exact if_pos (hflush hres)
      rw [hrestarted, hposition]
      refine ⟨rfl, [], 0, hstep.reset, (Nat.zero_mul _).symm, ?_⟩
      show _ + ((0 : ℕ) : ℤ) * _ =
        (s.realignIndex - ((0 : ℕ) : ℤ)) * _ + _ + ((0 : ℕ) : ℤ) * _
      rw [Int.natCast_zero, Int.zero_mul, Int.sub_zero]
      omega

/-- A callback is the loop, from the state that it restarts in. -/
theorem fillRt_eq_some (hfill : s.fillRt config frames = some (blocks, s')) :
    ∃ c, blocks = c.drained ∧ s' = (s.restarted config).afterFill frames c ∧
      (config.resampling = false → c =
        (s.restarted config).cursor.fillMatched config.blockFrames.toNat frames frames) ∧
      (config.resampling = true →
        (s.restarted config).cursor.fillResampled config.blockFrames.toNat frames frames =
          some c) := by
  rw [fillRt] at hfill
  cases hres : config.resampling with
  | false =>
    rw [hres] at hfill
    obtain ⟨rfl, rfl⟩ := Prod.mk.inj (Option.some.inj hfill)
    have hrestarted : s.restarted config = s.realign := if_neg (ne_true_of_eq_false hres)
    rw [hrestarted]
    exact ⟨_, rfl, rfl, fun _ => rfl, nofun⟩
  | true =>
    rw [hres] at hfill
    obtain ⟨c, hc, hfill⟩ := Option.bind_eq_some_iff.mp hfill
    obtain ⟨rfl, rfl⟩ := Prod.mk.inj (Option.some.inj hfill)
    have hrestarted : s.restarted config = s.realign.flush := if_pos hres
    rw [hrestarted]
    exact ⟨c, rfl, rfl, nofun, fun _ => hc⟩

/-- A restart moves only what the callback owns. -/
theorem restarted_owner (config : DeviceMonitorConfig) (s : DeviceMonitor) :
    (s.restarted config).transport = s.transport ∧ (s.restarted config).published = s.published ∧
      (s.restarted config).delivered = s.delivered ∧
      (s.restarted config).lastDelivered = s.lastDelivered ∧
      (s.restarted config).realignRequest = false ∧
      (s.restarted config).drainIndex = s.realign.drainIndex ∧
      (config.resampling → (s.restarted config).resamplerFlush = false) := by
  have hrequest : s.realign.realignRequest = false := by
    rw [realign]
    split
    case isTrue => rfl
    case isFalse hrequest => exact eq_false_of_ne_true hrequest
  have hrealign : s.realign.transport = s.transport ∧ s.realign.published = s.published ∧
      s.realign.delivered = s.delivered ∧ s.realign.lastDelivered = s.lastDelivered := by
    rw [realign]
    split <;> exact ⟨rfl, rfl, rfl, rfl⟩
  obtain ⟨htransport, hpublished, hdelivered, hlast⟩ := hrealign
  rw [restarted]
  split
  case isFalse hres =>
    exact ⟨htransport, hpublished, hdelivered, hlast, hrequest, rfl, fun h => absurd h hres⟩
  case isTrue =>
    rw [flush]
    split
    case isTrue => exact ⟨htransport, hpublished, hdelivered, hlast, hrequest, rfl, fun _ => rfl⟩
    case isFalse hflush =>
      exact ⟨htransport, hpublished, hdelivered, hlast, hrequest, rfl,
        fun _ => eq_false_of_ne_true hflush⟩

/-- A callback that starts aligned tracks the playhead, and ends aligned. -/
theorem Aligned.fillRt (h : s.Aligned config) (hsuits : config.Suits) (hfilling : s.filling = none)
    (hkeeps : KeepsPlayhead config depth (.callback frames) s)
    (hfill : s.fillRt config frames = some (blocks, s')) :
    s'.Aligned config ∧ CallbackTracks config depth s blocks s' := by
  obtain ⟨c, rfl, rfl, hmatched, hresampled⟩ := fillRt_eq_some hfill
  obtain ⟨hdepth, hprod⟩ := hkeeps
  obtain ⟨off, hoff, hlt, hat⟩ := h.restarted_at hsuits hfilling
  obtain ⟨htransport, hpublished, hdelivered, hlast, hrequest, hindex, hflush⟩ :=
    s.restarted_owner config
  have hout : config.resampling →
      ((s.restarted config).cursor.resampler.outIndex + frames) * config.workingRate.toNat <
        2 ^ 64 := by
    intro hres
    have hrestarted : s.restarted config = s.realign.flush := if_pos hres
    rw [hrestarted]
    exact hprod hres
  obtain ⟨hwritten, hend, blocks, hdrained, hnext, hordered, hcovers⟩ :=
    DrainCursor.fill_spec hsuits hat hoff hlt rfl hout hmatched hresampled
  obtain rfl : c.drained = blocks := hdrained
  have hposition : s.position config =
      s.published.toInt + (s.delivered - s.lastDelivered : ℕ) * config.deviceFlicks := by
    rw [position, hfilling, h.published_eq]
    rfl
  have hflicks : 0 ≤ config.deviceFlicks :=
    Int64.le_iff_toInt_le.mp (flicksPerFrame_nonneg config.deviceRate)
  have hahead : 0 ≤ ((s.delivered - s.lastDelivered : ℕ) : ℤ) * config.deviceFlicks :=
    Int.mul_nonneg (Int.natCast_nonneg _) hflicks
  constructor
  · refine ⟨?_, ?_, ?_, ?_, ?_⟩
    · show (s.restarted config).lastDelivered ≤ (s.restarted config).delivered
      rw [hlast, hdelivered]
      exact h.counted
    · show (s.restarted config).published = (s.restarted config).transport.playhead
      rw [hpublished, htransport]
      exact h.published_eq
    · intro hres
      obtain ⟨-, stream, -, hstep, -⟩ := hend.resampled hres
      exact ⟨stream, hstep⟩
    · intro hagain
      exact absurd hagain (ne_true_of_eq_false hrequest)
    · refine fun _ => ⟨hflush, off, hoff, hlt, ?_⟩
      have hlater : ((s.restarted config).afterFill frames c).position config =
          s.position config + c.written * config.deviceFlicks := by
        show (s.restarted config).transport.playhead.toInt +
          ((s.restarted config).delivered - (s.restarted config).lastDelivered + frames : ℕ) *
            config.deviceFlicks = _
        rw [htransport, hdelivered, hlast, hposition, hwritten, h.published_eq]
        push_cast
        ring
      rw [hlater]
      exact hend.next
  · refine ⟨fun d hd => ?_, ?_, ?_, fun hagain => ⟨?_, fun d hd => ?_⟩⟩
    · -- at most the frames of this callback past the position
      obtain ⟨hle, hlower, hupper⟩ := hcovers d hd
      have hframes : (d.2 : ℤ) * config.deviceFlicks ≤ frames * config.deviceFlicks :=
        Int.mul_le_mul_of_nonneg_right (Int.ofNat_le.mpr hle) hflicks
      have hpast : 0 ≤ (d.2 : ℤ) * config.deviceFlicks :=
        Int.mul_nonneg (Int.natCast_nonneg _) hflicks
      rw [Int.natCast_add, Int.add_mul] at hdepth
      rw [hposition] at hlower hupper
      constructor <;> omega
    · rw [hordered]
      show _ = List.map (fun k : ℕ => s.realign.drainIndex + (k : ℤ)) _
      rw [← hindex]
      rfl
    · rw [← hindex]
      exact hnext
    · rw [realign, if_pos hagain]
    · -- the first block is the one that was asked for
      have hfirst : d.1 = s.realign.drainIndex := by
        rw [← hindex]
        cases hblocks : c.drained with
        | nil =>
          rw [hblocks] at hd
          cases hd
        | cons first rest =>
          rw [hblocks] at hd hordered
          obtain rfl : first = d := Option.some.inj hd
          have hhead := congrArg List.head? hordered
          rw [List.length_cons, List.range_succ_eq_map] at hhead
          exact (Option.some.inj hhead).trans (Int.add_zero _)
      have hrestart : s.realign.drainIndex = config.blockIndexAt s.transport.playhead := by
        rw [realign, if_pos hagain]
        exact (h.restarts hagain).1
      rw [hfirst, hrestart, h.published_eq]
      exact hsuits.blockIndexAt_spec s.transport.playhead

/-- A monitor starts aligned. -/
theorem aligned_new (hsuits : config.Suits) (transport : Transport) :
    (new config transport).Aligned config := by
  obtain ⟨hlower, hupper⟩ := hsuits.blockIndexAt_spec transport.playhead
  have hstep := StreamingResampler.inStep_configure () config.workingRate.toNat
    config.deviceRate.toNat .mono config.blockFrames.toNat hsuits.taps_lt
  have hposition : (new config transport).position config = transport.playhead.toInt := by
    show _ + ((0 : ℕ) : ℤ) * _ = _
    rw [Int.natCast_zero, Int.zero_mul, Int.add_zero]
    rfl
  rw [Int.add_mul, Int.one_mul] at hupper
  refine ⟨le_rfl, rfl, fun _ => ⟨[], hstep⟩, nofun, fun _ => ⟨fun _ => rfl,
    transport.playhead.toInt - config.blockIndexAt transport.playhead * config.span, by omega,
    by omega, ?_, ?_⟩⟩
  · intro hmatched
    rw [hposition, DrainCursor.AtMatched, ← DeviceMonitorConfig.span]
    show _ + ((0 : ℕ) : ℤ) * _ + ((0 : ℕ) : ℤ) * _ = config.blockIndexAt transport.playhead * _ + _
    rw [Int.natCast_zero, Int.zero_mul]
    omega
  · intro hres
    rw [hposition]
    refine ⟨rfl, [], 0, hstep, (Nat.zero_mul _).symm, ?_⟩
    show _ + ((0 : ℕ) : ℤ) * _ = (config.blockIndexAt transport.playhead - ((0 : ℕ) : ℤ)) * _ + _ +
      ((0 : ℕ) : ℤ) * _
    rw [Int.natCast_zero, Int.zero_mul, Int.sub_zero]
    omega

/-- The frames that a callback counts were filled before. -/
theorem Aligned.deliver (h : s.Aligned config) (hstep : s.deliver = some s') :
    s'.Aligned config := by
  obtain ⟨frames, hfilling, hstep⟩ := Option.bind_eq_some_iff.mp hstep
  obtain rfl := Option.some.inj hstep
  have hcounted := h.counted
  refine ⟨by show s.lastDelivered ≤ s.delivered + frames; omega, h.published_eq, h.inStep,
    fun hrequest => ?_, fun hrequest => ?_⟩
  · obtain ⟨-, -, hnone, -⟩ := h.restarts hrequest
    rw [hfilling] at hnone
    cases hnone
  · obtain ⟨hflush, off, hoff, hlt, hat⟩ := h.tracks hrequest
    refine ⟨hflush, off, hoff, hlt, ?_⟩
    have hsame : DeviceMonitor.position config
        { s with delivered := s.delivered + frames, filling := none } = s.position config := by
      rw [position, position, hfilling]
      show _ + ((s.delivered + frames - s.lastDelivered + 0 : ℕ) : ℤ) * _ =
        _ + ((s.delivered - s.lastDelivered + frames : ℕ) : ℤ) * _
      rw [show s.delivered + frames - s.lastDelivered + 0 =
        s.delivered - s.lastDelivered + frames by omega]
    rw [hsame]
    exact hat

/-- A transport that plays at rate one moves by the frames that were delivered. -/
theorem advance_playhead {transport transport' : Transport} {delta : ℕ}
    (hplays : delta = 0 ∨ FitsSigned 64 (delta * config.deviceFlicks) ∧
      transport.Plays (delta * config.deviceFlicks))
    (hadvance : advance config transport delta = some transport') :
    transport'.playhead.toInt = transport.playhead.toInt + delta * config.deviceFlicks := by
  rw [advance] at hadvance
  split at hadvance
  case isTrue hzero =>
    obtain rfl := Option.some.inj hadvance
    rw [hzero, Int.natCast_zero, Int.zero_mul, Int.add_zero]
  case isFalse hpos =>
    obtain ⟨hfits, hplays⟩ := hplays.resolve_left hpos
    have helapsed : (Int64.ofInt (delta * config.deviceFlicks)).toInt =
        delta * config.deviceFlicks :=
      Int64.toInt_ofInt_of_le hfits.1 hfits.2
    have hreached := hplays.reaches.1
    rw [← helapsed] at hplays
    rw [← DeviceMonitorConfig.deviceFlicks, Transport.advance_of_plays hplays] at hadvance
    obtain rfl := Option.some.inj hadvance
    rw [helapsed]
    exact Int64.toInt_ofInt_of_le hreached.1 hreached.2

/-- A master step that seeks or changes the rate has the drain restart, and one that plays at rate
one moves the playhead to where the drain is. -/
theorem Aligned.masterStep (h : s.Aligned config) (hkeeps : KeepsPlayhead config depth .masterStep s)
    (hstep : s.masterStep config = some s') : s'.Aligned config := by
  obtain ⟨transport, hadvance, hstep⟩ := Option.bind_eq_some_iff.mp hstep
  obtain rfl := Option.some.inj hstep
  rw [KeepsPlayhead] at hkeeps
  split at hkeeps
  case isTrue hrebases =>
    refine ⟨le_rfl, rfl, h.inStep, fun _ => ⟨if_pos hrebases, rfl, hkeeps, fun hres => ?_⟩, ?_⟩
    · show (s.rebases && config.resampling || s.resamplerFlush) = true
      rw [hrebases, hres]
      rfl
    · intro hrequest
      have hrequest : (s.rebases || s.realignRequest) = false := hrequest
      rw [hrebases] at hrequest
      cases hrequest
  case isFalse hplain =>
    have hnone := eq_false_of_ne_true hplain
    rw [rebases, Bool.or_eq_false_iff] at hnone
    obtain ⟨hseek, hrate⟩ := hnone
    rw [Option.isSome_eq_false_iff, Option.isNone_iff_eq_none] at hseek hrate
    have hframes : s.pendingFrames = s.delivered - s.lastDelivered := by
      rw [pendingFrames, hseek]
    have htransport : s.pendingTransport = s.transport := by
      rw [pendingTransport, hseek, hrate]
    rw [hframes, htransport] at hadvance
    have hcounted := h.counted
    have hmoved := advance_playhead (hkeeps.imp_left fun heq => by omega) hadvance
    refine ⟨le_rfl, rfl, h.inStep, fun hrequest => ?_, fun hrequest => ?_⟩
    · -- the playhead that the restart was asked for is still the playhead
      have hrequest : (s.rebases || s.realignRequest) = true := hrequest
      rw [eq_false_of_ne_true hplain] at hrequest
      obtain ⟨hindex, hdelivered, hfilling, hflush⟩ := h.restarts hrequest
      rw [hdelivered, Nat.sub_self, advance, if_pos rfl] at hadvance
      obtain rfl := Option.some.inj hadvance
      refine ⟨(if_neg hplain).trans hindex, rfl, hfilling, fun hres => ?_⟩
      show (s.rebases && config.resampling || s.resamplerFlush) = true
      rw [hflush hres, Bool.or_true]
    · have hrequest : (s.rebases || s.realignRequest) = false := hrequest
      obtain ⟨hnone, hrequest⟩ := Bool.or_eq_false_iff.mp hrequest
      obtain ⟨hflush, off, hoff, hlt, hat⟩ := h.tracks hrequest
      refine ⟨fun hres => ?_, off, hoff, hlt, ?_⟩
      · show (s.rebases && config.resampling || s.resamplerFlush) = false
        rw [hnone, hflush hres]
        rfl
      · have hsame : transport.playhead.toInt +
            ((s.delivered - s.delivered + s.filling.getD 0 : ℕ) : ℤ) * config.deviceFlicks =
              s.position config := by
          rw [hmoved, position]
          push_cast
          rw [Nat.sub_self]
          push_cast
          ring
        have hat' := hsame ▸ hat
        exact hat'

/-- A step keeps the drain at the playhead. -/
theorem Aligned.step (h : s.Aligned config) (hsuits : config.Suits) {e : DeviceEvent}
    (hkeeps : KeepsPlayhead config depth e s) (hstep : DeviceMonitor.step config e s = some s') :
    s'.Aligned config := by
  cases e with
  | callback frames =>
    rw [DeviceMonitor.step] at hstep
    split at hstep
    case isTrue => cases hstep
    case isFalse hfilling =>
      rw [Option.not_isSome_iff_eq_none] at hfilling
      obtain ⟨⟨blocks, next⟩, hfill, rfl⟩ := Option.map_eq_some_iff.mp hstep
      exact (h.fillRt hsuits hfilling hkeeps hfill).1
  | deliver => exact h.deliver hstep
  | masterStep => exact h.masterStep hkeeps hstep
  | seek t =>
    obtain rfl := Option.some.inj hstep
    exact ⟨h.counted, h.published_eq, h.inStep, h.restarts, h.tracks⟩
  | setRate rate =>
    obtain rfl := Option.some.inj hstep
    exact ⟨h.counted, h.published_eq, h.inStep, h.restarts, h.tracks⟩
  | play =>
    obtain rfl := Option.some.inj hstep
    exact ⟨h.counted, h.published_eq, h.inStep, h.restarts, h.tracks⟩
  | pause =>
    obtain rfl := Option.some.inj hstep
    exact ⟨h.counted, h.published_eq, h.inStep, h.restarts, h.tracks⟩
  | setLoop range =>
    obtain rfl := Option.some.inj hstep
    exact ⟨h.counted, h.published_eq, h.inStep, h.restarts, h.tracks⟩

/-- In every state of a run of steps that keep the playhead the drain is aligned. -/
theorem aligned_of_reachable (hsuits : config.Suits)
    (h : (deviceMonitor config).Reachable (KeepsPlayhead config depth) s) : s.Aligned config := by
  apply h.invariant (I := fun s => s.Aligned config)
  · rintro s ⟨transport, rfl⟩
    exact aligned_new hsuits transport
  · intro s e s' hinv hkeeps hstep
    exact hinv.step hsuits hkeeps hstep

/-- The drain index moves in callbacks only. -/
theorem step_drainIndex {e : DeviceEvent} (hne : ∀ frames, e ≠ .callback frames)
    (hstep : (deviceMonitor config).step e s = some s') : s'.drainIndex = s.drainIndex := by
  cases e with
  | callback frames => exact absurd rfl (hne frames)
  | deliver =>
    obtain ⟨frames, -, hstep⟩ := Option.bind_eq_some_iff.mp hstep
    rw [← Option.some.inj hstep]
  | masterStep =>
    obtain ⟨transport, -, hstep⟩ := Option.bind_eq_some_iff.mp hstep
    rw [← Option.some.inj hstep]
  | seek | setRate | play | pause | setLoop => rw [← Option.some.inj hstep]

/-- A callback that tracks the playhead adds to a log in order. -/
theorem DrainLog.InOrder.append (h : log.InOrder s.drainIndex)
    (htracks : CallbackTracks config depth s blocks s') :
    (if s.realignRequest then ⟨s.realignIndex, blocks.map Prod.fst⟩
      else { log with blocks := log.blocks ++ blocks.map Prod.fst } : DrainLog).InOrder
        s'.drainIndex := by
  have hordered := htracks.ordered
  have hresumes := htracks.resumes
  rw [realign] at hordered hresumes
  split
  case isTrue hrequest =>
    rw [if_pos hrequest] at hordered hresumes
    refine ⟨?_, ?_⟩
    · show blocks.map Prod.fst = _
      rw [List.length_map]
      exact hordered
    · rw [hresumes, List.length_map]
  case isFalse hrequest =>
    rw [if_neg hrequest] at hordered hresumes
    refine ⟨?_, ?_⟩
    · show log.blocks ++ blocks.map Prod.fst = _
      rw [List.length_append, List.length_map, List.range_add, List.map_append, List.map_map,
        ← h.ordered, hordered]
      congr 1
      apply List.map_congr_left
      intro k _
      show s.drainIndex + (k : ℤ) = log.first + ((log.blocks.length + k : ℕ) : ℤ)
      rw [h.next_eq]
      omega
    · rw [hresumes, h.next_eq, List.length_append, List.length_map]
      show _ = log.first + _
      omega

/-- Blocks of ten milliseconds at 48000 samples a second, on a device of the same rate. -/
def tenMilliseconds : DeviceMonitorConfig := ⟨48000, 480, 48000⟩

/-- They suit. -/
theorem suits_tenMilliseconds : tenMilliseconds.Suits :=
  ⟨by decide, by decide, by decide, by decide +kernel⟩

/-- A loop over the first block, and callbacks of five blocks. -/
def loopedRun : List DeviceEvent :=
  [.callback 2400, .deliver, .masterStep, .callback 2400, .deliver, .masterStep]

end DeviceMonitor

end ArbitraryComposer
