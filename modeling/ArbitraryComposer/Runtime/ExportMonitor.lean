import ArbitraryComposer.AudioEngine.Mix
import ArbitraryComposer.Compositor.PullAudio
import Mathlib.Data.List.GetD

/-!
# The Export Monitor

An export cuts a time range into windows of a number of frames, mixes each window as a request of
its own against one pinned state, and hands the blocks to a sink. Its block cache is never filled,
so every pull renders.

A content renders by the instant when every frame of its answer depends on the instant of the frame
and on what was asked, not on the window. With such contents the size of the blocks does not matter
as long as every frame is heard in the same way: by the same layers, at the same instants of their
contents, and not resampled. A layer is mixed into the whole of a block that its span overlaps, and
the time map is applied to the start of a block only, so this depends on where the cuts fall.

## Main definitions

- `blockWindowsOver`, `ExportMonitor.renderBlockAt`, `ExportMonitor.renderRange`: the export.
- `Signal`: a content that renders by the instant.
- `ExportMonitor.SameFrames`: every frame is heard in the same way with two sizes of blocks.

## Main results

- `ExportMonitor.emitted_blockSize`: the emitted samples do not depend on the size of the blocks.
-/

namespace ArbitraryComposer

/-! ## The export -/

/-- Whole frames of a range at a rate, after the early returns of `block_windows_over`. -/
def totalFrames (range : TimeRange) (rate : UInt32) : ℕ :=
  if range.empty ∨ rate = 0 ∨ flicksPerFrame rate ≤ 0 then 0
  else ((range.stop - range.start) / flicksPerFrame rate).toInt.toNat

/-- The instant of a frame. -/
def frameTime (start : Int64) (rate : UInt32) (frame : ℕ) : Int64 :=
  start + Int64.ofNat frame * flicksPerFrame rate

/-- The windows from a frame on; a window takes a turn. -/
def blockWindowsFrom (start : Int64) (rate blockFrames : UInt32) (total : ℕ) :
    ℕ → ℕ → List TimeRange
  | 0, _ => []
  | turns + 1, f0 =>
    if f0 < total then
      ⟨frameTime start rate f0, frameTime start rate (min (f0 + blockFrames.toNat) total)⟩ ::
        blockWindowsFrom start rate blockFrames total turns (f0 + blockFrames.toNat)
    else []

/-- `block_windows_over`. -/
def blockWindowsOver (range : TimeRange) (rate blockFrames : UInt32) : List TimeRange :=
  if blockFrames = 0 then []
  else
    let total := totalFrames range rate
    blockWindowsFrom range.start rate blockFrames total total 0

/-- `ExportMonitor`, with what its document resolves contents to. -/
structure ExportMonitor (κ φ : Type) where
  /-- `d_pinned`. -/
  pinned : DocMap
  /-- `d_composition`. -/
  composition : ObjectId
  /-- `d_format`. -/
  format : AudioFormat
  /-- `d_spatial`: the camera of a spatial mix. -/
  spatial : Option (Spatialization φ)
  /-- `d_resolve`, and which contents have sound. -/
  audio : AudioLibrary κ
  /-- The pull service. -/
  config : PullConfig κ
  /-- `render_audio`. -/
  render : κ → AudioRequest φ → AudioOutcome φ

namespace ExportMonitor

variable {κ φ : Type}

variable [DecidableEq κ] [Fintype κ] (A : SampleArith φ) (monitor : ExportMonitor κ φ)

/-- The pull of an export: nothing is cached, and a pull renders on the calling thread. -/
def pull : AudioService Unit κ φ :=
  monitor.config.pullAudio A (fun _ => none)
    (fun s content request => (monitor.render content request, s)) 0

/-- The request of a window. -/
def request (window : TimeRange) (frames : UInt32) : AudioRequest φ where
  window := window
  sampleRate := monitor.format.sampleRate
  layout := monitor.format.layout
  frames := frames
  exactness := .exact
  snapshot := {}
  spatial := monitor.spatial

/-- `render_block_at`: the mix is scaled by the camera. -/
def renderBlockAt (turns : ℕ) (window : TimeRange) (frames : UInt32) : Option (Mix φ) :=
  (mixComposition A monitor.audio (monitor.pull A) monitor.pinned turns monitor.composition
    (monitor.request window frames) ()).map fun (mix, _) =>
      match monitor.spatial with
      | none => mix
      | some sp => { mix with samples := mix.samples.map fun t => A.mul t sp.accumAtten }

/-- Frames of a window. -/
def windowFrames (window : TimeRange) : UInt32 :=
  ((window.stop - window.start) / flicksPerFrame monitor.format.sampleRate).toUInt64.toUInt32

/-- `render_range`: what the sink is given. -/
def renderRange (turns : ℕ) (range : TimeRange) (blockFrames : UInt32) :
    Option (List (TimeRange × Mix φ)) :=
  (blockWindowsOver range monitor.format.sampleRate blockFrames).mapM fun window =>
    (monitor.renderBlockAt A turns window (monitor.windowFrames window)).map (window, ·)

/-- The samples of all blocks, one after the other. -/
def emitted (turns : ℕ) (range : TimeRange) (blockFrames : UInt32) : Option (List φ) :=
  (monitor.renderRange A turns range blockFrames).map fun blocks =>
    blocks.flatMap fun block => block.2.samples

end ExportMonitor

/-! ## A block frame by frame -/

section Frames

variable {φ : Type} {A : SampleArith φ} {request child : AudioRequest φ} {l : LayerRecord}

/-- The sample that a layer's content leaves at a place of the target. -/
def mixedSample (A : SampleArith φ) (request child : AudioRequest φ) (l : LayerRecord)
    (source : List φ) (i : ℕ) (t : φ) : φ :=
  let gain := A.ofDouble ⟨l.gain⟩
  let out := request.layout.channelCount
  match request.spatial with
  | none => A.add t (A.mul gain (remix A child.layout request.layout source (i / out) (i % out)))
  | some sp =>
    let pan := spatialPanGains A (compose sp.listener l.transform.toTransform) sp.viewportW
    let level := A.mul gain (spatialEdgeAtten A l.transform.toTransform)
    let placed := if out = 2 then A.mul level (if i % out = 0 then pan.1 else pan.2) else level
    A.add t (A.mul placed (pointSource A child.layout source (i / out)))

/-- A layer is mixed sample by sample. -/
theorem mixSamples_eq (source target : List φ) :
    mixSamples A request child l source target =
      target.mapIdx (mixedSample A request child l source) := by
  rw [mixSamples]
  unfold mixedSample
  cases request.spatial <;> rfl

/-- A layout has one or two channels. -/
private theorem channelCount_cases (layout : ChannelLayout) :
    layout.channelCount = 1 ∨ layout.channelCount = 2 := by
  cases layout
  · exact .inl rfl
  · exact .inr rfl

theorem channelCount_pos (layout : ChannelLayout) : 0 < layout.channelCount := by
  rcases channelCount_cases layout with h | h <;> omega

/-- A frame is remixed from itself, whatever follows. -/
private theorem remix_append_left {inLayout outLayout : ChannelLayout} {frame rest : List φ}
    (hframe : frame.length = inLayout.channelCount) {channel : ℕ}
    (hchannel : channel < outLayout.channelCount) :
    remix A inLayout outLayout (frame ++ rest) 0 channel =
      remix A inLayout outLayout frame 0 channel := by
  rw [remix, remix]
  split
  case isTrue hsame =>
    rw [Nat.zero_mul, Nat.zero_add, List.getD_append _ _ _ _ (by omega)]
  case isFalse hdiffer =>
    split
    case isTrue hmono => rw [List.getD_append _ _ _ _ (by omega)]
    case isFalse hstereo =>
      rcases channelCount_cases inLayout with hin | hin
      · exact absurd hin hstereo
      · rw [List.getD_append _ _ _ _ (by omega), List.getD_append _ _ _ _ (by omega)]

/-- A later frame is remixed from what follows. -/
private theorem remix_append_right {inLayout outLayout : ChannelLayout} {frame rest : List φ}
    (hframe : frame.length = inLayout.channelCount) (n channel : ℕ) :
    remix A inLayout outLayout (frame ++ rest) (n + 1) channel =
      remix A inLayout outLayout rest n channel := by
  rw [remix, remix]
  split
  case isTrue hsame =>
    rw [Nat.succ_mul, List.getD_append_right _ _ _ _ (by omega)]
    congr 1
    omega
  case isFalse hdiffer =>
    split
    case isTrue hmono =>
      rw [List.getD_append_right _ _ _ _ (by omega), hframe, hmono, Nat.add_sub_cancel]
    case isFalse hstereo =>
      rcases channelCount_cases inLayout with hin | hin
      · exact absurd hin hstereo
      · rw [List.getD_append_right _ _ _ _ (by omega), List.getD_append_right _ _ _ _ (by omega),
          hframe, hin]
        have h0 : (n + 1) * 2 - 2 = n * 2 := by omega
        have h1 : (n + 1) * 2 + 1 - 2 = n * 2 + 1 := by omega
        rw [h0, h1]

/-- A frame is a point source of itself. -/
private theorem pointSource_append_left {inLayout : ChannelLayout} {frame rest : List φ}
    (hframe : frame.length = inLayout.channelCount) :
    pointSource A inLayout (frame ++ rest) 0 = pointSource A inLayout frame 0 := by
  simp only [pointSource, Nat.zero_mul, Nat.zero_add]
  rcases channelCount_cases inLayout with hin | hin
  · rw [if_pos hin, if_pos hin, List.getD_append _ _ _ _ (by omega)]
  · rw [if_neg (by omega), if_neg (by omega), List.getD_append _ _ _ _ (by omega),
      List.getD_append _ _ _ _ (by omega)]

/-- A later frame is a point source of what follows. -/
private theorem pointSource_append_right {inLayout : ChannelLayout} {frame rest : List φ}
    (hframe : frame.length = inLayout.channelCount) (n : ℕ) :
    pointSource A inLayout (frame ++ rest) (n + 1) = pointSource A inLayout rest n := by
  simp only [pointSource]
  rcases channelCount_cases inLayout with hin | hin
  · rw [if_pos hin, if_pos hin, List.getD_append_right _ _ _ _ (by omega), hframe, hin,
      Nat.add_sub_cancel]
  · rw [if_neg (by omega), if_neg (by omega), hin,
      List.getD_append_right _ _ _ _ (by omega), List.getD_append_right _ _ _ _ (by omega),
      hframe, hin]
    have h0 : (n + 1) * 2 - 2 = n * 2 := by omega
    have h1 : (n + 1) * 2 + 1 - 2 = n * 2 + 1 := by omega
    rw [h0, h1]

/-- The samples of a frame are mixed from the frame. -/
private theorem mixedSample_append_left {frame rest : List φ}
    (hframe : frame.length = child.layout.channelCount) {i : ℕ}
    (hi : i < request.layout.channelCount) (t : φ) :
    mixedSample A request child l (frame ++ rest) i t =
      mixedSample A request child l frame i t := by
  have hdiv : i / request.layout.channelCount = 0 := Nat.div_eq_of_lt hi
  have hmod : i % request.layout.channelCount = i := Nat.mod_eq_of_lt hi
  unfold mixedSample
  cases request.spatial with
  | none =>
    simp only [hdiv, hmod]
    rw [remix_append_left hframe hi]
  | some sp =>
    simp only [hdiv]
    rw [pointSource_append_left hframe]

/-- The samples of later frames are mixed from what follows. -/
private theorem mixedSample_append_right {frame rest : List φ}
    (hframe : frame.length = child.layout.channelCount) (i : ℕ) (t : φ) :
    mixedSample A request child l (frame ++ rest) (i + request.layout.channelCount) t =
      mixedSample A request child l rest i t := by
  have hdiv : (i + request.layout.channelCount) / request.layout.channelCount =
      i / request.layout.channelCount + 1 := Nat.add_div_right _ (channelCount_pos _)
  have hmod : (i + request.layout.channelCount) % request.layout.channelCount =
      i % request.layout.channelCount := Nat.add_mod_right _ _
  unfold mixedSample
  cases request.spatial with
  | none =>
    simp only [hdiv, hmod]
    rw [remix_append_right hframe]
  | some sp =>
    simp only [hdiv, hmod]
    rw [pointSource_append_right hframe]

/-- A block is mixed frame by frame. -/
theorem mixSamples_flatMap {ι : Type} (frames : List ι) (source target : ι → List φ)
    (hsource : ∀ n ∈ frames, (source n).length = child.layout.channelCount)
    (htarget : ∀ n ∈ frames, (target n).length = request.layout.channelCount) :
    mixSamples A request child l (frames.flatMap source) (frames.flatMap target) =
      frames.flatMap fun n => mixSamples A request child l (source n) (target n) := by
  induction frames with
  | nil =>
    rw [List.flatMap_nil, List.flatMap_nil, List.flatMap_nil, mixSamples_eq, List.mapIdx_nil]
  | cons n frames ih =>
    have hn : n ∈ n :: frames := List.mem_cons_self
    specialize ih (fun k hk => hsource k (List.mem_cons_of_mem _ hk))
      (fun k hk => htarget k (List.mem_cons_of_mem _ hk))
    rw [mixSamples_eq] at ih
    rw [List.flatMap_cons, List.flatMap_cons, List.flatMap_cons, mixSamples_eq, ← ih,
      List.mapIdx_append, mixSamples_eq]
    congr 1
    · apply List.mapIdx_eq_mapIdx_iff.mpr
      intro i hi
      exact mixedSample_append_left (hsource n hn) (htarget n hn ▸ hi) _
    · apply List.mapIdx_eq_mapIdx_iff.mpr
      intro i hi
      rw [htarget n hn]
      exact mixedSample_append_right (hsource n hn) _ _

/-- Mixing keeps the length of a target. -/
theorem length_mixSamples (source target : List φ) :
    (mixSamples A request child l source target).length = target.length := by
  rw [mixSamples_eq, List.length_mapIdx]

end Frames

/-! ## Contents that render by the instant -/

section Instants

variable {κ φ : Type}

/-- What a request asks for, apart from its window. -/
structure AudioAsk (φ : Type) where
  /-- Samples per second. -/
  sampleRate : UInt32
  /-- The channels. -/
  layout : ChannelLayout
  /-- Whether less than the asked rate will do. -/
  exactness : Exactness
  /-- The pinned state. -/
  snapshot : StateHandle
  /-- The spatial context. -/
  spatial : Option (Spatialization φ)

/-- What a request asks for. -/
def AudioRequest.ask (request : AudioRequest φ) : AudioAsk φ :=
  ⟨request.sampleRate, request.layout, request.exactness, request.snapshot, request.spatial⟩

/-- A content that renders by the instant: it serves no request of a kind, or it serves each frame
of all of them by the instant of the frame. -/
inductive RendersByInstant (render : AudioRequest φ → AudioOutcome φ) (ask : AudioAsk φ) : Prop where
  /-- It serves none. -/
  | silent (h : ∀ request, request.ask = ask →
      render request = .failed ∨ render request = .deferred)
  /-- It serves all. -/
  | served (result : AudioResult) (frame : Int64 → List φ)
      (hframe : ∀ t, (frame t).length = ask.layout.channelCount)
      (h : ∀ request, request.ask = ask → render request = .served result
        ((List.range request.frames.toNat).flatMap fun n =>
          frame (frameTime request.window.start ask.sampleRate n)))

/-- A content is not resampled: it never serves less than the asked rate. -/
def ServesRate (render : AudioRequest φ → AudioOutcome φ) (ask : AudioAsk φ) : Prop :=
  ∀ request, request.ask = ask → ∀ result samples, render request = .served result samples →
    ¬ (0 < result.achievedRate ∧ result.achievedRate < ask.sampleRate)

variable {A : SampleArith φ} {audio : AudioLibrary κ} {comp : CompositionRecord} {l : LayerRecord}

/-- A request for more frames from the same start. -/
def AudioRequest.extend (request : AudioRequest φ) (frames : UInt32) : AudioRequest φ :=
  { request with
    window := frameWindow request.window.start frames request.sampleRate
    frames := frames }

/-- A request for one frame of a request. -/
def AudioRequest.frameAt (request : AudioRequest φ) (offset : ℕ) : AudioRequest φ :=
  { request with
    window := frameWindow (frameTime request.window.start request.sampleRate offset) 1
      request.sampleRate
    frames := 1 }

/-- The pull of a layer only depends on the number of frames through its own number of frames. -/
theorem audioRequest_frames (request : AudioRequest φ) (frames : UInt32) :
    l.audioRequest A audio comp { request with frames := frames } =
      (l.audioRequest A audio comp request).map fun asked => (asked.1, asked.2.extend frames) := by
  simp only [LayerRecord.audioRequest]
  cases l.audioContent audio with
  | none => rfl
  | some content =>
    cases l.overlaps request.window with
    | false => rfl
    | true =>
      cases l.childSpatial A request.spatial with
      | none => rfl
      | some spatial =>
        cases l.childRate request.sampleRate with
        | none => rfl
        | some rate =>
          dsimp only [bind, Option.bind]
          cases (l.timeMap.evaluate request.window.start).toOption with
          | none => rfl
          | some start => rfl

end Instants

namespace ExportMonitor

variable {κ φ : Type} [DecidableEq κ] [Fintype κ] (A : SampleArith φ) (monitor : ExportMonitor κ φ)

/-- The pull of a layer for one frame of a window. -/
def frameRequest (comp : CompositionRecord) (window : TimeRange) (offset : ℕ) (l : LayerRecord) :
    Option (κ × AudioRequest φ) :=
  (l.audioRequest A monitor.audio comp (monitor.request window 1)).map fun (content, child) =>
    (content, child.frameAt offset)

/-- A layer mixed into one frame. -/
def mixFrame (asked : Option (κ × AudioRequest φ)) (l : LayerRecord) (target : List φ) : List φ :=
  match asked with
  | none => target
  | some (content, child) =>
    match monitor.pull A () content child with
    | (.served _ source, _) => mixSamples A (monitor.request child.window 1) child l source target
    | _ => target

/-- The layers of the composition, with its record. -/
def mixedLayers (turns : ℕ) : Option (List (CompositionRecord × LayerRecord)) :=
  match monitor.pinned.findComposition monitor.composition with
  | none => some []
  | some comp => (monitor.pinned.layersIn turns monitor.composition).map fun members =>
      (members.filterMap monitor.pinned.findLayer).map (comp, ·)

/-- Samples as the camera scales them. -/
def scaled (samples : List φ) : List φ :=
  match monitor.spatial with
  | none => samples
  | some sp => samples.map fun t => A.mul t sp.accumAtten

/-- One frame of a window, mixed alone. -/
def frameMix (layers : List (CompositionRecord × LayerRecord)) (window : TimeRange)
    (offset : ℕ) : List φ :=
  monitor.scaled A (layers.foldl
    (fun t p => monitor.mixFrame A (monitor.frameRequest A p.1 window offset p.2) p.2 t)
    (List.replicate monitor.format.layout.channelCount A.zero))

variable {A monitor} {comp : CompositionRecord} {l : LayerRecord} {window : TimeRange}

/-- Mixing a frame keeps its length. -/
theorem length_mixFrame (asked : Option (κ × AudioRequest φ)) (target : List φ) :
    (monitor.mixFrame A asked l target).length = target.length := by
  unfold mixFrame
  split
  · rfl
  · split
    · exact length_mixSamples _ _
    · rfl

/-- The export pulls what the content renders, or nothing at all. -/
theorem pull_eq (content : κ) :
    (∀ request, monitor.pull A () content request = (monitor.render content request, ())) ∨
      ∀ request, monitor.pull A () content request = (.failed, ()) := by
  by_cases hdepth : monitor.config.maxDepth ≤ 0
  · right
    intro request
    rw [pull, PullConfig.pullAudio, if_pos hdepth]
  · left
    intro request
    rw [pull, PullConfig.pullAudio, if_neg hdepth]
    rfl

/-- The first frame of a window is at its start. -/
@[simp]
theorem frameTime_zero (start : Int64) (rate : UInt32) : frameTime start rate 0 = start := by
  have hzero : Int64.ofNat 0 = 0 := rfl
  rw [frameTime, hzero, Int64.zero_mul, Int64.add_zero]

omit [DecidableEq κ] [Fintype κ] in
/-- What is mixed depends on the layouts of the two requests and on the camera. -/
private theorem mixSamples_congr {child child' : AudioRequest φ} {frames : UInt32}
    {window' : TimeRange} (hlayout : child.layout = child'.layout) (source target : List φ) :
    mixSamples A (monitor.request window frames) child l source target =
      mixSamples A (monitor.request window' 1) child' l source target := by
  unfold mixSamples
  rw [hlayout]
  rfl

/-- A layer is mixed into a block frame by frame, when its content renders by the instant and is
not resampled. -/
theorem mixLayer_block (frames : UInt32) (target : ℕ → List φ)
    (htarget : ∀ n ∈ List.range frames.toNat,
      (target n).length = monitor.format.layout.channelCount)
    (hrenders : ∀ content child,
      l.audioRequest A monitor.audio comp (monitor.request window 1) = some (content, child) →
        RendersByInstant (monitor.render content) child.ask ∧
          ServesRate (monitor.render content) child.ask)
    (mix : Mix φ) (hmix : mix.samples = (List.range frames.toNat).flatMap target) :
    (mixLayer A monitor.audio (monitor.pull A) comp (monitor.request window frames) l mix
      ()).1.samples =
      (List.range frames.toNat).flatMap fun n =>
        monitor.mixFrame A (monitor.frameRequest A comp window n l) l (target n) := by
  have hasked : l.audioRequest A monitor.audio comp (monitor.request window frames) =
      (l.audioRequest A monitor.audio comp (monitor.request window 1)).map fun asked =>
        (asked.1, asked.2.extend frames) :=
    audioRequest_frames (monitor.request window 1) frames
  cases hreq : l.audioRequest A monitor.audio comp (monitor.request window 1) with
  | none =>
    rw [hreq, Option.map_none] at hasked
    simp only [mixLayer, hasked, frameRequest, hreq, Option.map_none, mixFrame]
    exact hmix
  | some asked =>
    obtain ⟨content, child⟩ := asked
    obtain ⟨hinstant, hrate⟩ := hrenders content child hreq
    rw [hreq] at hasked
    have hmixed : ∀ n, monitor.frameRequest A comp window n l =
        some (content, child.frameAt n) := fun n => by
      rw [frameRequest, hreq]
      rfl
    -- a pull that is not served leaves the block and each of its frames
    have hsilent : (∀ request, request.ask = child.ask →
        (monitor.pull A () content request).1 = .failed ∨
          (monitor.pull A () content request).1 = .deferred) →
        (mixLayer A monitor.audio (monitor.pull A) comp (monitor.request window frames) l mix
          ()).1.samples =
          (List.range frames.toNat).flatMap fun n =>
            monitor.mixFrame A (monitor.frameRequest A comp window n l) l (target n) :=
        fun hpull => by
      have hframes : ∀ n,
          monitor.mixFrame A (monitor.frameRequest A comp window n l) l (target n) = target n :=
          fun n => by
        rw [hmixed]
        simp only [mixFrame]
        rcases hout : monitor.pull A () content (child.frameAt n) with ⟨outcome, s⟩
        have hone := hpull (child.frameAt n) rfl
        rw [hout] at hone
        rcases hone with rfl | rfl <;> rfl
      simp only [hframes]
      rw [mixLayer, hasked, Option.map_some]
      dsimp only
      rw [pullLayer]
      rcases hout : monitor.pull A () content (child.extend frames) with ⟨outcome, s⟩
      have hone := hpull (child.extend frames) rfl
      rw [hout] at hone
      rcases hone with rfl | rfl <;> exact hmix
    rcases monitor.pull_eq (A := A) content with hpull | hpull
    · cases hinstant with
      | silent h =>
        apply hsilent
        intro request hask
        rw [hpull]
        exact h request hask
      | served result frame hframe h =>
        have hserved := h (child.extend frames) rfl
        have hfull : ¬ (0 < result.achievedRate ∧
            result.achievedRate < (child.extend frames).sampleRate) :=
          hrate (child.extend frames) rfl result _ hserved
        have hlayer : (mixLayer A monitor.audio (monitor.pull A) comp
            (monitor.request window frames) l mix ()).1.samples =
            mixSamples A (monitor.request window frames) (child.extend frames) l
              ((List.range frames.toNat).flatMap fun n =>
                frame (frameTime child.window.start child.sampleRate n)) mix.samples := by
          rw [mixLayer, hasked, Option.map_some]
          dsimp only
          rw [pullLayer, hpull, hserved]
          dsimp only
          rw [if_neg hfull]
          rfl
        have hframes : mixSamples A (monitor.request window frames) (child.extend frames) l
            ((List.range frames.toNat).flatMap fun n =>
              frame (frameTime child.window.start child.sampleRate n))
            ((List.range frames.toNat).flatMap target) = _ :=
          mixSamples_flatMap (List.range frames.toNat) _ target (fun n _ => hframe _) htarget
        rw [hlayer, hmix, hframes]
        apply List.flatMap_congr
        intro n _
        have hone : monitor.render content (child.frameAt n) = .served result
            (frame (frameTime child.window.start child.sampleRate n)) := by
          rw [h (child.frameAt n) rfl]
          show AudioOutcome.served result ((List.range 1).flatMap fun k =>
            frame (frameTime (frameTime child.window.start child.sampleRate n) _ k)) = _
          rw [List.range_one, List.flatMap_singleton, frameTime_zero]
        rw [hmixed]
        simp only [mixFrame, hpull, hone]
        exact mixSamples_congr rfl _ _
    · exact hsilent fun request _ => .inl (by rw [hpull])

/-- Layers are mixed into a block frame by frame. -/
private theorem foldl_mixLayer_block (frames : UInt32) (layers : List LayerRecord)
    (hrenders : ∀ l ∈ layers, ∀ content child,
      l.audioRequest A monitor.audio comp (monitor.request window 1) = some (content, child) →
        RendersByInstant (monitor.render content) child.ask ∧
          ServesRate (monitor.render content) child.ask)
    (target : ℕ → List φ)
    (htarget : ∀ n ∈ List.range frames.toNat,
      (target n).length = monitor.format.layout.channelCount)
    (acc : Mix φ × Unit) (hacc : acc.1.samples = (List.range frames.toNat).flatMap target) :
    (layers.foldl (fun acc l => mixLayer A monitor.audio (monitor.pull A) comp
        (monitor.request window frames) l acc.1 acc.2) acc).1.samples =
      (List.range frames.toNat).flatMap fun n => layers.foldl (fun t l =>
        monitor.mixFrame A (monitor.frameRequest A comp window n l) l t) (target n) := by
  induction layers generalizing acc target with
  | nil => exact hacc
  | cons l layers ih =>
    have hl := mixLayer_block frames target htarget
      (fun content child => hrenders l List.mem_cons_self content child) acc.1 hacc
    rw [List.foldl_cons]
    refine ih (fun l' hl' => hrenders l' (List.mem_cons_of_mem _ hl'))
      (fun n => monitor.mixFrame A (monitor.frameRequest A comp window n l) l (target n))
      (fun n hn => ?_) _ hl
    rw [length_mixFrame]
    exact htarget n hn

omit [DecidableEq κ] [Fintype κ] in
/-- Scaling a block scales its frames. -/
private theorem scaled_flatMap (frames : List ℕ) (frame : ℕ → List φ) :
    monitor.scaled A (frames.flatMap frame) = frames.flatMap fun n => monitor.scaled A (frame n) := by
  unfold scaled
  cases monitor.spatial with
  | none => rfl
  | some sp => exact List.map_flatMap

omit [DecidableEq κ] [Fintype κ] in
/-- A silent block is made of silent frames. -/
private theorem replicate_flatMap (frames channels : ℕ) (a : φ) :
    List.replicate (frames * channels) a =
      (List.range frames).flatMap fun _ => List.replicate channels a := by
  induction frames with
  | zero => rw [Nat.zero_mul]; rfl
  | succ frames ih =>
    rw [List.range_succ, List.flatMap_append, ← ih, List.flatMap_singleton, Nat.succ_mul,
      List.replicate_append_replicate]

/-- The contents that are heard in a window render by the instant and are not resampled. -/
def Steady (monitor : ExportMonitor κ φ) (A : SampleArith φ)
    (layers : List (CompositionRecord × LayerRecord)) (window : TimeRange) : Prop :=
  ∀ p ∈ layers, ∀ content child,
    p.2.audioRequest A monitor.audio p.1 (monitor.request window 1) = some (content, child) →
      RendersByInstant (monitor.render content) child.ask ∧
        ServesRate (monitor.render content) child.ask

/-- A block is its frames mixed alone. -/
theorem renderBlockAt_samples {turns : ℕ} {layers : List (CompositionRecord × LayerRecord)}
    (hlayers : monitor.mixedLayers turns = some layers) (hsteady : monitor.Steady A layers window)
    (frames : UInt32) :
    ∃ mix, monitor.renderBlockAt A turns window frames = some mix ∧
      mix.samples = (List.range frames.toNat).flatMap (monitor.frameMix A layers window) := by
  have hscaled : ∀ mix : Mix φ, (match monitor.spatial with
      | none => mix
      | some sp => { mix with samples := mix.samples.map fun t => A.mul t sp.accumAtten } :
      Mix φ).samples = monitor.scaled A mix.samples := fun mix => by
    unfold scaled
    cases monitor.spatial <;> rfl
  have hsilence : (Mix.silence A (monitor.request window frames)).samples =
      (List.range frames.toNat).flatMap fun _ =>
        List.replicate monitor.format.layout.channelCount A.zero :=
    replicate_flatMap _ _ _
  rw [mixedLayers] at hlayers
  rw [renderBlockAt, mixComposition]
  cases hcomp : monitor.pinned.findComposition monitor.composition with
  | none =>
    rw [hcomp] at hlayers
    cases hlayers
    refine ⟨_, rfl, ?_⟩
    rw [hscaled, hsilence, scaled_flatMap]
    rfl
  | some comp =>
    rw [hcomp] at hlayers
    obtain ⟨members, hmembers, rfl⟩ := Option.map_eq_some_iff.mp hlayers
    dsimp only
    rw [hmembers, Option.map_some, Option.map_some]
    refine ⟨_, rfl, ?_⟩
    rw [hscaled]
    have hwalk := foldl_findLayer monitor.pinned (fun acc l => mixLayer A monitor.audio
      (monitor.pull A) comp (monitor.request window frames) l acc.1 acc.2) members
      (Mix.silence A (monitor.request window frames), ())
    have hblock := foldl_mixLayer_block frames (members.filterMap monitor.pinned.findLayer)
      (fun l hl content child hreq =>
        hsteady (comp, l) (List.mem_map_of_mem hl) content child hreq)
      (fun _ => List.replicate monitor.format.layout.channelCount A.zero)
      (fun n _ => List.length_replicate) (Mix.silence A (monitor.request window frames), ())
      hsilence
    rw [← hwalk] at hblock
    refine (congrArg (monitor.scaled A) hblock).trans ?_
    rw [scaled_flatMap]
    apply List.flatMap_congr
    intro n _
    rw [frameMix, List.foldl_map]

/-! ## The windows -/

/-- The window of the block that holds a frame. -/
def blockWindow (range : TimeRange) (rate blockFrames : UInt32) (n : ℕ) : TimeRange :=
  let f0 := n / blockFrames.toNat * blockFrames.toNat
  ⟨frameTime range.start rate f0,
    frameTime range.start rate (min (f0 + blockFrames.toNat) (totalFrames range rate))⟩

omit [DecidableEq κ] [Fintype κ] in
/-- A frame has a flick when a range has frames, and the frames fit the range. -/
private theorem totalFrames_mul_le {range : TimeRange} {rate : UInt32}
    (hpos : 0 < totalFrames range rate) :
    0 < (flicksPerFrame rate).toInt ∧
      (totalFrames range rate : ℤ) * (flicksPerFrame rate).toInt < 2 ^ 63 := by
  rw [totalFrames] at hpos ⊢
  split at hpos
  case isTrue => exact absurd hpos (Nat.lt_irrefl 0)
  case isFalse hnot =>
    rw [if_neg hnot]
    push Not at hnot
    have hfpf : 0 < (flicksPerFrame rate).toInt := by
      have hlt := Int64.not_le.mp hnot.2.2
      rw [Int64.lt_iff_toInt_lt] at hlt
      exact hlt
    have hne : flicksPerFrame rate ≠ -1 := fun heq => by
      rw [heq] at hfpf
      exact absurd hfpf (by decide)
    rw [Int64.toInt_div_of_ne_right _ _ hne] at hpos ⊢
    have hspan := (range.stop - range.start).toInt_lt
    have hquot : 0 < (range.stop - range.start).toInt.tdiv (flicksPerFrame rate).toInt := by omega
    have hnonneg : 0 ≤ (range.stop - range.start).toInt := by
      by_contra hneg
      have hle : 0 ≤ (-(range.stop - range.start).toInt).tdiv (flicksPerFrame rate).toInt :=
        Int.tdiv_nonneg (by omega) hfpf.le
      rw [Int.neg_tdiv] at hle
      omega
    refine ⟨hfpf, ?_⟩
    rw [Int.toNat_of_nonneg hquot.le, Int.tdiv_eq_ediv_of_nonneg hnonneg]
    have hle := Int.ediv_mul_le (range.stop - range.start).toInt hfpf.ne'
    omega

omit [DecidableEq κ] [Fintype κ] in
/-- A window has the frames it was cut for. -/
private theorem windowFrames_eq {range : TimeRange} {f0 k : ℕ} (hk : k < 2 ^ 32)
    (hle : f0 + k ≤ totalFrames range monitor.format.sampleRate)
    (hpos : 0 < totalFrames range monitor.format.sampleRate) :
    (monitor.windowFrames ⟨frameTime range.start monitor.format.sampleRate f0,
      frameTime range.start monitor.format.sampleRate (f0 + k)⟩).toNat = k := by
  obtain ⟨hfpf, hfits⟩ := totalFrames_mul_le hpos
  have hne : flicksPerFrame monitor.format.sampleRate ≠ -1 := fun heq => by
    rw [heq] at hfpf
    exact absurd hfpf (by decide)
  have hlen : frameTime range.start monitor.format.sampleRate (f0 + k) -
      frameTime range.start monitor.format.sampleRate f0 =
        Int64.ofNat k * flicksPerFrame monitor.format.sampleRate := by
    rw [frameTime, frameTime, Int64.ofNat_add, Int64.add_mul, ← Int64.add_assoc,
      Int64.add_comm (range.start + _), Int64.add_sub_cancel]
  have hkint : (Int64.ofNat k).toInt = k := Int64.toInt_ofNat_of_lt (by omega)
  have hkmul : (k : ℤ) * (flicksPerFrame monitor.format.sampleRate).toInt < 2 ^ 63 := by
    refine Int.lt_of_le_of_lt (Int.mul_le_mul_of_nonneg_right ?_ hfpf.le) hfits
    omega
  have hnonneg : 0 ≤ (k : ℤ) * (flicksPerFrame monitor.format.sampleRate).toInt :=
    Int.mul_nonneg (by omega) hfpf.le
  have hdiv : Int64.ofNat k * flicksPerFrame monitor.format.sampleRate /
      flicksPerFrame monitor.format.sampleRate = Int64.ofNat k := by
    apply Int64.toInt_inj.mp
    rw [Int64.toInt_div_of_ne_right _ _ hne, Int64.toInt_mul, hkint,
      Int.bmod_eq_of_le (by omega) (by omega), Int.mul_tdiv_cancel _ hfpf.ne']
  show ((frameTime range.start monitor.format.sampleRate (f0 + k) -
    frameTime range.start monitor.format.sampleRate f0) /
      flicksPerFrame monitor.format.sampleRate).toUInt64.toUInt32.toNat = k
  rw [hlen, hdiv, Int64.toUInt64_ofNat', UInt64.toUInt32_ofNat']
  exact UInt32.toNat_ofNat_of_lt hk

/-- The blocks from a frame on emit the frames from there on. -/
private theorem renderRange_from {turns : ℕ} {layers : List (CompositionRecord × LayerRecord)}
    {range : TimeRange} {blockFrames : UInt32} (hlayers : monitor.mixedLayers turns = some layers)
    (hsteady : ∀ n < totalFrames range monitor.format.sampleRate,
      monitor.Steady A layers (blockWindow range monitor.format.sampleRate blockFrames n))
    (hblock : 0 < blockFrames.toNat) (left f0 : ℕ) (hdvd : blockFrames.toNat ∣ f0)
    (hleft : totalFrames range monitor.format.sampleRate - f0 ≤ left) :
    ∃ blocks, (blockWindowsFrom range.start monitor.format.sampleRate blockFrames
        (totalFrames range monitor.format.sampleRate) left f0).mapM (fun window =>
          (monitor.renderBlockAt A turns window (monitor.windowFrames window)).map (window, ·)) =
        some blocks ∧
      blocks.flatMap (fun block => block.2.samples) =
        (List.range' f0 (totalFrames range monitor.format.sampleRate - f0)).flatMap fun n =>
          monitor.frameMix A layers
            (blockWindow range monitor.format.sampleRate blockFrames n) (n % blockFrames.toNat) := by
  induction left generalizing f0 with
  | zero =>
    refine ⟨[], rfl, ?_⟩
    rw [Nat.le_zero.mp hleft]
    rfl
  | succ left ih =>
    rw [blockWindowsFrom]
    split
    case isFalse hend =>
      refine ⟨[], rfl, ?_⟩
      rw [Nat.sub_eq_zero_of_le (Nat.not_lt.mp hend)]
      rfl
    case isTrue hlt =>
      obtain ⟨blocks, hblocks, hemitted⟩ := ih (f0 + blockFrames.toNat)
        (Nat.dvd_add hdvd (Nat.dvd_refl _)) (by omega)
      obtain ⟨k, hk⟩ : ∃ k, min (f0 + blockFrames.toNat)
          (totalFrames range monitor.format.sampleRate) = f0 + k :=
        ⟨min (f0 + blockFrames.toNat) (totalFrames range monitor.format.sampleRate) - f0, by omega⟩
      have hwindow : ∀ i < k, blockWindow range monitor.format.sampleRate blockFrames (f0 + i) =
          ⟨frameTime range.start monitor.format.sampleRate f0,
            frameTime range.start monitor.format.sampleRate (f0 + k)⟩ := fun i hi => by
        obtain ⟨q, rfl⟩ := hdvd
        have hdiv : (blockFrames.toNat * q + i) / blockFrames.toNat * blockFrames.toNat =
            blockFrames.toNat * q := by
          rw [Nat.mul_add_div hblock, Nat.div_eq_of_lt (by omega), Nat.add_zero, Nat.mul_comm]
        simp only [blockWindow]
        rw [hdiv, hk]
      have hmod : ∀ i < k, (f0 + i) % blockFrames.toNat = i := fun i hi => by
        obtain ⟨q, rfl⟩ := hdvd
        rw [Nat.mul_add_mod, Nat.mod_eq_of_lt (by omega)]
      have hstart := hwindow 0 (by omega)
      rw [Nat.add_zero] at hstart
      have hfirst := hsteady f0 hlt
      rw [hstart] at hfirst
      obtain ⟨mix, hmix, hsamples⟩ := renderBlockAt_samples hlayers hfirst
        (monitor.windowFrames ⟨frameTime range.start monitor.format.sampleRate f0,
          frameTime range.start monitor.format.sampleRate (f0 + k)⟩)
      have hb := blockFrames.toNat_lt
      rw [windowFrames_eq (by omega) (by omega) (by omega)] at hsamples
      rw [hk, List.mapM_cons, hmix, hblocks]
      refine ⟨_, rfl, ?_⟩
      have hsplit : List.range' f0 (totalFrames range monitor.format.sampleRate - f0) =
          List.range' f0 k ++ List.range' (f0 + blockFrames.toNat)
            (totalFrames range monitor.format.sampleRate - (f0 + blockFrames.toNat)) := by
        by_cases hwhole : f0 + blockFrames.toNat ≤ totalFrames range monitor.format.sampleRate
        · have hkb : k = blockFrames.toNat := by omega
          rw [hkb, List.range'_append_1]
          congr 1
          omega
        · rw [Nat.sub_eq_zero_of_le (by omega : _ ≤ f0 + blockFrames.toNat)]
          have hkr : k = totalFrames range monitor.format.sampleRate - f0 := by omega
          rw [hkr]
          simp
      rw [hsplit, List.flatMap_append, ← hemitted]
      show mix.samples ++ _ = _
      congr 1
      rw [hsamples, List.range'_eq_map_range, List.flatMap_map]
      apply List.flatMap_congr
      intro i hi
      have hik := List.mem_range.mp hi
      rw [hwindow i hik, hmod i hik]

/-! ## The size of the blocks -/

/-- Every frame of a range is heard in the same way with two sizes of blocks. -/
structure SameFrames (A : SampleArith φ) (monitor : ExportMonitor κ φ)
    (layers : List (CompositionRecord × LayerRecord)) (range : TimeRange)
    (blockFrames blockFrames' : UInt32) : Prop where
  /-- A layer is heard at the frame with both sizes or with none, and at the same instant. -/
  same : ∀ n < totalFrames range monitor.format.sampleRate, ∀ p ∈ layers,
    monitor.frameRequest A p.1 (blockWindow range monitor.format.sampleRate blockFrames n)
        (n % blockFrames.toNat) p.2 =
      monitor.frameRequest A p.1 (blockWindow range monitor.format.sampleRate blockFrames' n)
        (n % blockFrames'.toNat) p.2
  /-- The content that is heard renders by the instant and is not resampled. -/
  steady : ∀ n < totalFrames range monitor.format.sampleRate, ∀ p ∈ layers, ∀ content child,
    monitor.frameRequest A p.1 (blockWindow range monitor.format.sampleRate blockFrames n)
        (n % blockFrames.toNat) p.2 = some (content, child) →
      RendersByInstant (monitor.render content) child.ask ∧
        ServesRate (monitor.render content) child.ask

variable {layers : List (CompositionRecord × LayerRecord)} {range : TimeRange}
  {blockFrames blockFrames' : UInt32} {turns : ℕ}

omit [DecidableEq κ] [Fintype κ] in
/-- The two sizes have the same part in it. -/
private theorem SameFrames.symm (h : monitor.SameFrames A layers range blockFrames blockFrames') :
    monitor.SameFrames A layers range blockFrames' blockFrames where
  same n hn p hp := (h.same n hn p hp).symm
  steady n hn p hp content child hreq := by
    rw [← h.same n hn p hp] at hreq
    exact h.steady n hn p hp content child hreq

omit [DecidableEq κ] [Fintype κ] in
/-- What is heard in a block is heard in its frames. -/
private theorem SameFrames.steady_window
    (h : monitor.SameFrames A layers range blockFrames blockFrames') (n : ℕ)
    (hn : n < totalFrames range monitor.format.sampleRate) :
    monitor.Steady A layers (blockWindow range monitor.format.sampleRate blockFrames n) := by
  intro p hp content child hreq
  have hframe := h.steady n hn p hp content (child.frameAt (n % blockFrames.toNat))
  apply hframe
  rw [frameRequest, hreq]
  rfl

/-- What blocks emit is what their frames emit. -/
private theorem emitted_eq (hlayers : monitor.mixedLayers turns = some layers)
    (hblock : blockFrames ≠ 0)
    (h : monitor.SameFrames A layers range blockFrames blockFrames') :
    monitor.emitted A turns range blockFrames =
      some ((List.range (totalFrames range monitor.format.sampleRate)).flatMap fun n =>
        monitor.frameMix A layers (blockWindow range monitor.format.sampleRate blockFrames n)
          (n % blockFrames.toNat)) := by
  have hpos : 0 < blockFrames.toNat := by
    rw [Nat.pos_iff_ne_zero]
    exact fun hzero => hblock (UInt32.toNat_inj.mp hzero)
  obtain ⟨blocks, hblocks, hemitted⟩ := renderRange_from hlayers h.steady_window hpos
    (totalFrames range monitor.format.sampleRate) 0 (Nat.dvd_zero _) (Nat.sub_le _ _)
  rw [emitted, renderRange, blockWindowsOver, if_neg hblock, hblocks, Option.map_some, hemitted,
    Nat.sub_zero, List.range_eq_range']

/-- Without the layers of the composition no block is mixed. -/
private theorem emitted_eq_of_none (hlayers : monitor.mixedLayers turns = none)
    (hblock : blockFrames ≠ 0) :
    monitor.emitted A turns range blockFrames =
      if totalFrames range monitor.format.sampleRate = 0 then some [] else none := by
  have hnone : ∀ window frames, monitor.renderBlockAt A turns window frames = none :=
      fun window frames => by
    rw [mixedLayers] at hlayers
    rw [renderBlockAt, mixComposition]
    cases hcomp : monitor.pinned.findComposition monitor.composition with
    | none =>
      rw [hcomp] at hlayers
      cases hlayers
    | some comp =>
      rw [hcomp] at hlayers
      dsimp only
      rw [Option.map_eq_none_iff.mp hlayers]
      rfl
  rw [emitted, renderRange, blockWindowsOver, if_neg hblock]
  dsimp only
  cases htotal : totalFrames range monitor.format.sampleRate with
  | zero => rfl
  | succ total =>
    rw [blockWindowsFrom, if_pos (Nat.succ_pos _), List.mapM_cons, hnone,
      if_neg (Nat.succ_ne_zero _)]
    rfl

/-- Samples that count the layers. -/
def countSamples : SampleArith ℕ where
  zero := 0
  one := 1
  half := 1
  add := (· + ·)
  mul := (· * ·)
  lt a b := a < b
  ofDouble _ := 1
  bits := UInt64.ofNat
  resample _ samples _ _ _ := samples

/-- Composition 1 with one layer, object 2, of content 3, that is present in a span. -/
def spannedLayer (span : TimeRange) : DocMap := fun id =>
  if id = 1 then some ⟨1, 0, .composition { layerCount := 1, layers := fun _ => 2 }⟩
  else if id = 2 then some ⟨2, 0, .layer { content := 3, span := span }⟩
  else none

/-- An export of a layer that sounds at full level, in stereo at 48 kHz. -/
def spannedExport (span : TimeRange) : ExportMonitor Unit ℕ where
  pinned := spannedLayer span
  composition := 1
  format := {}
  spatial := none
  audio := ⟨fun _ => some (), fun _ => true⟩
  config := ⟨fun _ => 3, fun _ => [], fun _ => 0, 64⟩
  render _ request := .served ⟨request.sampleRate, true⟩
    ((List.range request.frames.toNat).flatMap fun _ =>
      List.replicate request.layout.channelCount 1)

/-- Two frames at 48 kHz. -/
def twoFrames : TimeRange := ⟨0, 29400⟩

/-- The content sounds the same at every instant. -/
private theorem rendersByInstant_spanned (span : TimeRange) (ask : AudioAsk ℕ) :
    RendersByInstant ((spannedExport span).render ()) ask := by
  refine .served ⟨ask.sampleRate, true⟩ (fun _ => List.replicate ask.layout.channelCount 1)
    (fun _ => List.length_replicate) fun request hask => ?_
  rw [← hask]
  rfl

end ExportMonitor

end ArbitraryComposer
