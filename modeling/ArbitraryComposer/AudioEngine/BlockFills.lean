import ArbitraryComposer.AudioEngine.Residency
import ArbitraryComposer.ToMathlib.Machine

/-!
# Filling the Block Cache

The pump renders the blocks that the lookahead wants and keeps each under its key; a pull is answered
with such a block. The key names the frame that a window starts at, not the window. Two windows of
one key are the same exactly when they start at the same place within a frame.

## Main definitions

- `AudioRenderer`: what contents render, with what the contract promises of an exact answer.
- `fillAndInsert`, `blockRuns`: the pump's fills and the evictions, in any order.
- `CacheTransparent`: no pull is answered with other samples than its content renders for it.

## Main results

- `frameWindow_eq_iff`: which windows of one frame index are the same.
- `cacheTransparent_iff`: for which wants and pulls the cache is transparent.
-/

namespace ArbitraryComposer

/-! ## Windows of one frame index -/

/-- The quotient of two numbers of a fixed width, when the divisor is positive. -/
private theorem toInt_div_of_pos {a b : Int64} (hb : 0 < b.toInt) :
    (a / b).toInt = a.toInt.tdiv b.toInt := by
  have hlo := a.le_toInt
  have hhi := a.toInt_lt
  have habs : (a.toInt.tdiv b.toInt).natAbs ≤ a.toInt.natAbs := by
    rw [Int.natAbs_tdiv]
    exact Nat.div_le_self _ _
  -- a negative number has a quotient that is not positive, so the quotient does not overflow
  have hsign : a.toInt ≤ 0 → a.toInt.tdiv b.toInt ≤ 0 := fun h => by
    have hneg : 0 ≤ (-a.toInt).tdiv b.toInt := Int.tdiv_nonneg (by omega) (by omega)
    rw [Int.neg_tdiv] at hneg
    omega
  rw [Int64.toInt_div, Int.bmod_eq_of_le (by omega) (by omega)]

/-- A start is made of its frame and of its place within the frame. -/
theorem start_eq_of_frameIndex {s t : Int64} {rate : UInt32}
    (hindex : frameIndex s rate = frameIndex t rate)
    (hplace : s % flicksPerFrame rate = t % flicksPerFrame rate) : s = t := by
  have hnonneg := flicksPerFrame_nonneg rate
  rw [frameIndex, frameIndex] at hindex
  apply Int64.toInt_inj.mp
  have hplace := congrArg Int64.toInt hplace
  rw [Int64.toInt_mod, Int64.toInt_mod] at hplace
  split at hindex
  case isTrue hzero =>
    -- a frame without flicks: the place is the start itself
    have hzero : (flicksPerFrame rate).toInt = 0 := by
      rw [Int64.le_antisymm hzero hnonneg]
      rfl
    rwa [hzero, Int.tmod_zero, Int.tmod_zero] at hplace
  case isFalse hpos =>
    have hpos : 0 < (flicksPerFrame rate).toInt := by
      rw [Int64.not_le, Int64.lt_iff_toInt_lt] at hpos
      exact hpos
    have hindex := congrArg Int64.toInt hindex
    rw [toInt_div_of_pos hpos, toInt_div_of_pos hpos] at hindex
    rw [← Int.mul_tdiv_add_tmod s.toInt (flicksPerFrame rate).toInt, hindex, hplace,
      Int.mul_tdiv_add_tmod]

/-- Two windows of one frame index and as many frames are the same exactly when they start at the
same place within a frame. -/
theorem frameWindow_eq_iff {s t : Int64} {frames rate : UInt32}
    (hindex : frameIndex s rate = frameIndex t rate) :
    frameWindow s frames rate = frameWindow t frames rate ↔
      s % flicksPerFrame rate = t % flicksPerFrame rate := by
  constructor
  · intro h
    rw [show s = t from congrArg TimeRange.start h]
  · intro h
    rw [start_eq_of_frameIndex hindex h]

/-! ## Fills -/

/-- The request that the pump renders a want with. -/
def PrefetchWant.request {φ : Type} (want : PrefetchWant φ) : AudioRequest φ where
  window := want.window
  sampleRate := want.rate
  layout := want.layout
  frames := want.frames
  exactness := .bestEffort
  snapshot := {}
  spatial := want.spatial

/-- Two requests for the same signal: they differ in how exact the answer has to be and in what
state is pinned, at most. -/
def AudioRequest.SameSignal {φ : Type} (r r' : AudioRequest φ) : Prop :=
  r' = { r with exactness := r'.exactness, snapshot := r'.snapshot }

/-- What contents render while they do not change. -/
structure AudioRenderer (κ φ : Type) where
  /-- `AudioFacet::render_audio`: what the completion is settled with, none for a failure, and the
  samples of the target. -/
  render : κ → AudioRequest φ → Option AudioResult × List φ
  /-- The target has a sample for every frame and channel. -/
  length_render : ∀ content r,
    (render content r).2.length = r.frames.toNat * r.layout.channelCount
  /-- An exact answer at the asked rate is the content's signal, which depends neither on the wanted
  exactness nor on the pinned state. -/
  faithful : ∀ content r r', r.SameSignal r' → (render content r).1 = some ⟨r.sampleRate, true⟩ →
    render content r' = render content r

section

variable {κ φ : Type}

/-- What a want is rendered to: what its completion is settled with, and the staging buffer. -/
def renderWant (A : SampleArith φ) (resolve : ObjectId → Option κ) (R : AudioRenderer κ φ)
    (want : PrefetchWant φ) : Option AudioResult × List φ :=
  match resolve want.content with
  | some content => R.render content want.request
  | none => (none, List.replicate (want.frames.toNat * want.layout.channelCount) A.zero)

/-- The block that is kept for a want. One that failed is kept as inexact. -/
def filledBlock (A : SampleArith φ) (resolve : ObjectId → Option κ) (R : AudioRenderer κ φ)
    (want : PrefetchWant φ) : AudioBlockValue φ where
  samples := (renderWant A resolve R want).2
  frames := want.frames
  layout := want.layout
  rate := want.rate
  result := (renderWant A resolve R want).1.getD ⟨want.rate, false⟩

/-- `LookaheadPump::fill_and_insert`, for one want. -/
def fillAndInsert (A : SampleArith φ) (resolve : ObjectId → Option κ) (R : AudioRenderer κ φ)
    (blocks : BlockCache φ) (want : PrefetchWant φ) : BlockCache φ :=
  Function.update blocks want.key (some (filledBlock A resolve R want))

/-- An exact block is what the content of the want answered. -/
theorem render_of_exact {A : SampleArith φ} {resolve : ObjectId → Option κ}
    {R : AudioRenderer κ φ} {want : PrefetchWant φ}
    (hexact : (filledBlock A resolve R want).result.exact = true) :
    ∃ content, resolve want.content = some content ∧ R.render content want.request =
      (some (filledBlock A resolve R want).result, (filledBlock A resolve R want).samples) := by
  simp only [filledBlock] at hexact ⊢
  cases hsettled : (renderWant A resolve R want).1 with
  | none =>
    rw [hsettled] at hexact
    cases hexact
  | some result =>
    cases hresolve : resolve want.content with
    | none =>
      rw [renderWant, hresolve] at hsettled
      cases hsettled
    | some content =>
      refine ⟨content, rfl, ?_⟩
      have hrender : renderWant A resolve R want = R.render content want.request := by
        rw [renderWant, hresolve]
      rw [← hrender]
      exact Prod.ext hsettled rfl

/-- What happens to the block cache. -/
inductive BlockEvent (φ : Type) where
  /-- The pump renders a want and keeps the block. -/
  | fill (want : PrefetchWant φ)
  /-- A block is dropped, for the budget or because of damage. -/
  | drop (key : BlockKey)

/-- The block cache from its creation on. -/
def blockRuns (A : SampleArith φ) (resolve : ObjectId → Option κ) (R : AudioRenderer κ φ) :
    Machine (BlockCache φ) (BlockEvent φ) where
  start blocks := blocks = fun _ => none
  step
    | .fill want, blocks => some (fillAndInsert A resolve R blocks want)
    | .drop key, blocks => some (Function.update blocks key none)

/-- The wants that are filled are among some. -/
def FillsOnly (warmed : Set (PrefetchWant φ)) : BlockEvent φ → BlockCache φ → Prop
  | .fill want, _ => want ∈ warmed
  | .drop _, _ => True

namespace LookaheadRingConfig

/-- A ring wants a block: the one that `contribution_key` names, or that of a native rate. -/
def MayWant (A : SampleArith φ) (ring : LookaheadRingConfig κ φ) (want : PrefetchWant φ) : Prop :=
  ∃ c, want = ring.makeWant A c ∨ ∃ rate, ring.nativeRerequestWant A c rate = some want

/-- Every want is a window of frames, and is kept under the frame that it starts at. -/
theorem MayWant.spec {A : SampleArith φ} {ring : LookaheadRingConfig κ φ} {want : PrefetchWant φ}
    (h : ring.MayWant A want) :
    want.key = ⟨want.content, ring.contribution want.content,
        frameIndex want.window.start want.rate, want.rate, spatialContextDigest A want.spatial⟩ ∧
      want.window = frameWindow want.window.start want.frames want.rate := by
  obtain ⟨c, rfl | ⟨rate, h⟩⟩ := h
  · refine ⟨?_, rfl⟩
    rw [← wantIndex_eq_frameIndex]
    rfl
  · rw [nativeRerequestWant] at h
    split at h
    case isTrue => cases h
    case isFalse =>
      obtain rfl := Option.some.inj h
      refine ⟨?_, rfl⟩
      rw [← wantIndex_eq_frameIndex]
      rfl

end LookaheadRingConfig

/-! ## Transparency -/

/-- A resident block holds what a content renders for a want that was filled. -/
def HoldsFills (resolve : ObjectId → Option κ) (R : AudioRenderer κ φ)
    (warmed : Set (PrefetchWant φ)) (blocks : BlockCache φ) : Prop :=
  ∀ key value, blocks key = some value → ∃ want ∈ warmed, want.key = key ∧
    value.frames = want.frames ∧ value.layout = want.layout ∧
    (value.result.exact = true → ∃ content, resolve want.content = some content ∧
      R.render content want.request = (some value.result, value.samples))

/-- A fill keeps a block of what was rendered, and all others. -/
theorem HoldsFills.fill {A : SampleArith φ} {resolve : ObjectId → Option κ}
    {R : AudioRenderer κ φ} {warmed : Set (PrefetchWant φ)} {blocks : BlockCache φ}
    (h : HoldsFills resolve R warmed blocks) {want : PrefetchWant φ} (hwant : want ∈ warmed) :
    HoldsFills resolve R warmed (fillAndInsert A resolve R blocks want) := by
  intro key value hvalue
  rw [fillAndInsert] at hvalue
  by_cases hkey : key = want.key
  · rw [hkey, Function.update_self] at hvalue
    obtain rfl := Option.some.inj hvalue
    exact ⟨want, hwant, hkey.symm, rfl, rfl, render_of_exact⟩
  · rw [Function.update_of_ne hkey] at hvalue
    exact h key value hvalue

/-- Every resident block of a run is one that was filled. -/
theorem holdsFills_of_reachable {A : SampleArith φ} {resolve : ObjectId → Option κ}
    {R : AudioRenderer κ φ} {warmed : Set (PrefetchWant φ)} {blocks : BlockCache φ}
    (h : (blockRuns A resolve R).Reachable (FillsOnly warmed) blocks) :
    HoldsFills resolve R warmed blocks := by
  apply h.invariant
  · rintro blocks rfl key value hvalue
    cases hvalue
  · intro blocks event blocks' hinv hallowed hstep
    cases event with
    | fill want =>
      obtain rfl := Option.some.inj hstep
      exact hinv.fill hallowed
    | drop key =>
      obtain rfl := Option.some.inj hstep
      intro key' value hvalue
      by_cases hkey : key' = key
      · rw [hkey, Function.update_self] at hvalue
        cases hvalue
      · rw [Function.update_of_ne hkey] at hvalue
        exact hinv key' value hvalue

variable [DecidableEq κ] [Fintype κ]

/-- Whatever contents render and whatever was filled and dropped before, a pull that is answered
with a block is given the samples that its content renders for it. -/
def CacheTransparent (A : SampleArith φ) (resolve : ObjectId → Option κ) (config : PullConfig κ)
    (warmed : Set (PrefetchWant φ)) (pulled : Set (κ × AudioRequest φ)) : Prop :=
  ∀ (R : AudioRenderer κ φ) (blocks : BlockCache φ),
    (blockRuns A resolve R).Reachable (FillsOnly warmed) blocks →
    ∀ p ∈ pulled, ∀ value, config.hit A blocks p.1 p.2 = some value →
      value.deliver A = (R.render p.1 p.2).2

/-- A block that was filled for a want and that a pull is answered with has the window, the spatial
context and the content of the pull. -/
def KeysSeparate (A : SampleArith φ) (resolve : ObjectId → Option κ) (config : PullConfig κ)
    (warmed : Set (PrefetchWant φ)) (pulled : Set (κ × AudioRequest φ)) : Prop :=
  ∀ want ∈ warmed, ∀ p ∈ pulled, ∀ content, resolve want.content = some content →
    want.key = config.key A p.1 p.2 → want.frames = p.2.frames → want.layout = p.2.layout →
    want.frames ≠ 0 → content = p.1 ∧ want.spatial = p.2.spatial ∧
      want.window.start % flicksPerFrame want.rate =
        p.2.window.start % flicksPerFrame p.2.sampleRate

variable {A : SampleArith φ} {ring : LookaheadRingConfig κ φ} {resolve : ObjectId → Option κ}
  {config : PullConfig κ} {warmed : Set (PrefetchWant φ)} {pulled : Set (κ × AudioRequest φ)}

/-- A want and a pull of one key have the same window exactly when they start at the same place
within a frame. -/
theorem window_eq_iff_of_key {want : PrefetchWant φ} {p : κ × AudioRequest φ}
    (hwant : ring.MayWant A want)
    (hp : p.2.window = frameWindow p.2.window.start p.2.frames p.2.sampleRate)
    (hkey : want.key = config.key A p.1 p.2) (hframes : want.frames = p.2.frames) :
    want.window = p.2.window ↔ want.window.start % flicksPerFrame want.rate =
      p.2.window.start % flicksPerFrame p.2.sampleRate := by
  obtain ⟨hspec, hwindow⟩ := hwant.spec
  rw [hspec, PullConfig.key] at hkey
  obtain ⟨-, -, hindex, hrate, -⟩ := BlockKey.mk.inj hkey
  rw [audioBlockIndex_eq, hrate] at hindex
  have hiff : frameWindow want.window.start p.2.frames p.2.sampleRate =
      frameWindow p.2.window.start p.2.frames p.2.sampleRate ↔ _ := frameWindow_eq_iff hindex
  rw [hrate, ← hiff, ← hp, ← hframes, ← hrate, ← hwindow]

/-- Separate keys make the cache transparent. -/
theorem cacheTransparent_of_keysSeparate (hwarmed : ∀ want ∈ warmed, ring.MayWant A want)
    (hpulled : ∀ p ∈ pulled,
      p.2.window = frameWindow p.2.window.start p.2.frames p.2.sampleRate)
    (h : KeysSeparate A resolve config warmed pulled) :
    CacheTransparent A resolve config warmed pulled := by
  intro R blocks hreachable p hp value hhit
  obtain ⟨hvalue, hserves⟩ := Option.filter_eq_some_iff.mp hhit
  simp only [AudioBlockValue.serves, Bool.and_eq_true, beq_iff_eq] at hserves
  obtain ⟨⟨⟨hexact, hrate⟩, hframes⟩, hlayout⟩ := hserves
  obtain ⟨want, hwant, hkey, hwantFrames, hwantLayout, hrendered⟩ :=
    holdsFills_of_reachable hreachable _ _ hvalue
  obtain ⟨content, hresolve, hrender⟩ := hrendered hexact
  -- the block is as long as the target, so all of it is delivered
  have hlength : value.samples.length = value.frames.toNat * value.layout.channelCount := by
    have := R.length_render content want.request
    rwa [hrender, show want.request.frames = want.frames from rfl,
      show want.request.layout = want.layout from rfl, ← hwantFrames, ← hwantLayout] at this
  have hdeliver : value.deliver A = value.samples := by
    rw [AudioBlockValue.deliver, if_pos (Nat.le_of_eq hlength.symm), ← hlength, List.take_length]
  rw [hdeliver]
  by_cases hzero : want.frames = 0
  · have hnil : ∀ {l : List φ} {n : ℕ}, l.length = (0 : UInt32).toNat * n → l = [] := fun h =>
      List.eq_nil_of_length_eq_zero (by rw [h]; exact Nat.zero_mul _)
    have htarget := R.length_render p.1 p.2
    rw [← hframes, hwantFrames, hzero] at htarget
    rw [hwantFrames, hzero] at hlength
    rw [hnil hlength, hnil htarget]
  · obtain ⟨rfl, hspatial, hplace⟩ := h want hwant p hp content hresolve hkey
      (hwantFrames.symm.trans hframes) (hwantLayout.symm.trans hlayout) hzero
    have hwindow := (window_eq_iff_of_key (hwarmed want hwant) (hpulled p hp) hkey
      (hwantFrames.symm.trans hframes)).mpr hplace
    have hwantRate : want.rate = p.2.sampleRate := by
      rw [(hwarmed want hwant).spec.1] at hkey
      exact congrArg BlockKey.rate hkey
    -- the want asked for the signal that is pulled
    have hsame : want.request.SameSignal p.2 := by
      obtain ⟨content, window, rate, layout, frames, exactness, snapshot, spatial⟩ := p
      simp only [AudioRequest.SameSignal, PrefetchWant.request]
      rw [hwindow, hwantRate, hspatial, ← hwantLayout, hlayout, ← hwantFrames, hframes]
    have hresult : (R.render p.1 want.request).1 = some ⟨want.request.sampleRate, true⟩ := by
      rw [hrender, show want.request.sampleRate = p.2.sampleRate from hwantRate, ← hrate, ← hexact]
    rw [R.faithful _ _ _ hsame hresult, hrender]

open Classical in
/-- One content sounds in one window and one spatial context, and everything else is silent. -/
noncomputable def soundsOnce (A : SampleArith φ) (content : κ) (window : TimeRange)
    (spatial : Option (Spatialization φ)) : AudioRenderer κ φ where
  render c r := (some ⟨r.sampleRate, true⟩,
    List.replicate (r.frames.toNat * r.layout.channelCount)
      (if c = content ∧ r.window = window ∧ r.spatial = spatial then A.one else A.zero))
  length_render _ _ := List.length_replicate
  faithful _ r r' hsame _ := by rw [show r' = _ from hsame]

omit [DecidableEq κ] [Fintype κ] in
/-- Nothing is delivered as something else, when there is a sample to tell. -/
private theorem replicate_ne (hne : A.zero ≠ A.one) {frames : UInt32} (hframes : frames ≠ 0)
    (layout : ChannelLayout) :
    List.replicate (frames.toNat * layout.channelCount) A.one ≠
      List.replicate (frames.toNat * layout.channelCount) A.zero := by
  intro h
  have hpos : 0 < frames.toNat * layout.channelCount := by
    apply Nat.mul_pos
    · exact Nat.pos_of_ne_zero fun h => hframes (UInt32.toNat_inj.mp h)
    · cases layout <;> decide
  obtain ⟨-, hn | h⟩ := List.replicate_inj.mp h
  · omega
  · exact hne h.symm

/-- A transparent cache has separate keys: a content that sounds in one window only tells. -/
theorem keysSeparate_of_cacheTransparent (hne : A.zero ≠ A.one)
    (hwarmed : ∀ want ∈ warmed, ring.MayWant A want)
    (hpulled : ∀ p ∈ pulled,
      p.2.window = frameWindow p.2.window.start p.2.frames p.2.sampleRate)
    (h : CacheTransparent A resolve config warmed pulled) :
    KeysSeparate A resolve config warmed pulled := by
  intro want hwant p hp content hresolve hkey hframes hlayout hzero
  have hwantRate : want.rate = p.2.sampleRate := by
    rw [(hwarmed want hwant).spec.1] at hkey
    exact congrArg BlockKey.rate hkey
  let R := soundsOnce A content want.window want.spatial
  let blocks := fillAndInsert A resolve R (fun _ => none) want
  have hreachable : (blockRuns A resolve R).Reachable (FillsOnly warmed) blocks :=
    .step (.fill want) (.start rfl) hwant rfl
  have hrendered : renderWant A resolve R want = (some ⟨want.rate, true⟩,
      List.replicate (want.frames.toNat * want.layout.channelCount) A.one) := by
    rw [renderWant, hresolve]
    exact Prod.ext rfl (congrArg (List.replicate _) (if_pos ⟨rfl, rfl, rfl⟩))
  have hblock : blocks (config.key A p.1 p.2) = some (filledBlock A resolve R want) := by
    rw [← hkey]
    exact Function.update_self ..
  have hserves : (filledBlock A resolve R want).serves p.2 = true := by
    simp [AudioBlockValue.serves, filledBlock, hrendered, hwantRate, hframes, hlayout]
  have hhit : config.hit A blocks p.1 p.2 = some (filledBlock A resolve R want) := by
    rw [PullConfig.hit, hblock, Option.filter_some, if_pos hserves]
  have hdelivered := h R blocks hreachable p hp _ hhit
  have hdeliver : (filledBlock A resolve R want).deliver A =
      List.replicate (want.frames.toNat * want.layout.channelCount) A.one := by
    simp [AudioBlockValue.deliver, filledBlock, hrendered]
  rw [hdeliver] at hdelivered
  -- the content sounds for the want, so it sounds for the pull
  by_contra hdiffers
  have hsilent : (R.render p.1 p.2).2 =
      List.replicate (p.2.frames.toNat * p.2.layout.channelCount) A.zero := by
    apply congrArg (List.replicate _)
    apply if_neg
    rintro ⟨hcontent, hwindow, hspatial⟩
    exact hdiffers ⟨hcontent.symm, hspatial.symm, (window_eq_iff_of_key (hwarmed want hwant)
      (hpulled p hp) hkey hframes).mp hwindow.symm⟩
  rw [hsilent, ← hframes, ← hlayout] at hdelivered
  exact replicate_ne hne hzero want.layout hdelivered

/-- The cache is transparent if and only if a want and a pull of one key, as many frames and the same
channels are for one content in one spatial context, and start at the same place within a frame. -/
theorem cacheTransparent_iff (hne : A.zero ≠ A.one)
    (hwarmed : ∀ want ∈ warmed, ring.MayWant A want)
    (hpulled : ∀ p ∈ pulled,
      p.2.window = frameWindow p.2.window.start p.2.frames p.2.sampleRate) :
    CacheTransparent A resolve config warmed pulled ↔
      KeysSeparate A resolve config warmed pulled :=
  ⟨keysSeparate_of_cacheTransparent hne hwarmed hpulled,
    cacheTransparent_of_keysSeparate hwarmed hpulled⟩

end

/-! ## A tone between two frames -/

/-- A frame of the tone. -/
def toneAt (start : Int64) : Contribution Double := ⟨6, 48000, .stereo, 1, start, none, []⟩

/-- The want for a frame of the tone. -/
def toneWant (start : Int64) : PrefetchWant Double :=
  (nestedToneRing 4).makeWant doubleSamples (toneAt start)

/-- The ring may want a frame of the tone. -/
theorem mayWant_toneWant (start : Int64) :
    (nestedToneRing 4).MayWant doubleSamples (toneWant start) :=
  ⟨toneAt start, .inl rfl⟩

/-- A frame of the tone is kept for a pull of that frame. -/
theorem cacheTransparent_iff_tone :
    CacheTransparent doubleSamples (nestedToneRing 4).audio.resolve nestedTonePulls
      {toneWant 14700} {(.tone, (toneAt 14700).request)} := by
  have hwarmed : ∀ want ∈ ({toneWant 14700} : Set (PrefetchWant Double)),
      (nestedToneRing 4).MayWant doubleSamples want := by
    rintro want rfl
    exact mayWant_toneWant _
  apply (cacheTransparent_iff (by decide) hwarmed ?_).mpr
  · rintro want rfl p rfl content hresolve - - - -
    exact ⟨Option.some.inj hresolve.symm, rfl, rfl⟩
  · rintro p rfl
    rfl

/-- A frame that starts a flick later, or one that starts a flick before zero, is under the key of
the frame at zero, and is answered with it. -/
theorem not_cacheTransparent_offGrid :
    ¬ CacheTransparent doubleSamples (nestedToneRing 4).audio.resolve nestedTonePulls
        {toneWant 0} {(.tone, (toneAt 1).request)} ∧
      ¬ CacheTransparent doubleSamples (nestedToneRing 4).audio.resolve nestedTonePulls
        {toneWant 0} {(.tone, (toneAt (-1)).request)} := by
  have hseparate : ∀ start, CacheTransparent doubleSamples (nestedToneRing 4).audio.resolve
      nestedTonePulls {toneWant 0} {(.tone, (toneAt start).request)} →
      KeysSeparate doubleSamples (nestedToneRing 4).audio.resolve nestedTonePulls {toneWant 0}
        {(.tone, (toneAt start).request)} := by
    intro start
    have hwarmed : ∀ want ∈ ({toneWant 0} : Set (PrefetchWant Double)),
        (nestedToneRing 4).MayWant doubleSamples want := by
      rintro want rfl
      exact mayWant_toneWant _
    apply keysSeparate_of_cacheTransparent (by decide) hwarmed
    rintro p rfl
    rfl
  refine ⟨fun h => ?_, fun h => ?_⟩
  · have hplace := (hseparate _ h _ rfl _ rfl .tone rfl (by decide +kernel) rfl rfl
      (by decide)).2.2
    exact absurd hplace (by decide)
  · have hplace := (hseparate _ h _ rfl _ rfl .tone rfl (by decide +kernel) rfl rfl
      (by decide)).2.2
    exact absurd hplace (by decide)

end ArbitraryComposer
