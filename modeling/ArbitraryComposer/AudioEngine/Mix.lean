import ArbitraryComposer.Base.RationalTime
import ArbitraryComposer.Compositor.AnchoredViewports
import ArbitraryComposer.Contract.AudioFacet

/-!
# The Root Mixer

A block of samples is mixed from the layers of a composition, bottom to top. A layer that can be
heard in the window is pulled at the rate its time map gives; a pull that is served below that rate
is repeated at the rate it was served at and resampled. What a pull was not served for is silence.

## Main definitions

- `LayerRecord.audioRequest`: the pull of a layer, or none when the layer is culled.
- `pullLayer`: the pull of a layer with its repetition at the native rate.
- `mixLayer`, `mixComposition`: the root mixer.
- `compositionPulls`: all pulls of a mix, in order.

## Main results

- `mixComposition_eq`: a mix adds up what its pulls were answered.
-/

namespace ArbitraryComposer

open Double

/-! ## The pull of a layer -/

namespace LayerRecord

variable {φ κ : Type}

/-- `LayerRecord::audible`. -/
def audible (l : LayerRecord) : Bool := l.flags &&& layerAudible != 0

/-- The spatial context of a layer's content; none when the layer is below the threshold. -/
def childSpatial (A : SampleArith φ) (l : LayerRecord) :
    Option (Spatialization φ) → Option (Option (Spatialization φ))
  | none => some none
  | some sp =>
    let atten := A.mul sp.accumAtten (spatialEdgeAtten A l.transform.toTransform)
    if A.lt atten sp.subAudible then none
    else some (some ⟨compose sp.listener l.transform.toTransform, sp.viewportW, sp.viewportH, atten,
      sp.subAudible⟩)

/-- The rate of a layer's content. A layer that does not play forwards has none. -/
def childRate (l : LayerRecord) (sampleRate : UInt32) : Option UInt32 :=
  if l.timeMap.rateNum ≤ 0 then none
  else
    let rate := (sampleRate.toUInt64.toInt64 * l.timeMap.rateDen / l.timeMap.rateNum).toUInt64
    if rate.toUInt32 = 0 then none else some rate.toUInt32

/-- Whether a layer is present somewhere in a window. -/
def overlaps (l : LayerRecord) (window : TimeRange) : Bool :=
  !(l.span.empty || decide (window.stop ≤ l.span.start) || decide (l.span.stop ≤ window.start))

/-- The content that a layer is heard as. -/
def audioContent (audio : AudioLibrary κ) (l : LayerRecord) : Option κ :=
  if !l.audible || Double.le ⟨l.gain⟩ 0 then none
  else (audio.resolve l.content).filter audio.hasAudio

/-- The content and the request that a layer is pulled with; none when the layer is culled. -/
def audioRequest (A : SampleArith φ) (audio : AudioLibrary κ) (comp : CompositionRecord)
    (request : AudioRequest φ) (l : LayerRecord) : Option (κ × AudioRequest φ) := do
  let content ← l.audioContent audio
  guard (l.overlaps request.window)
  let spatial ← l.childSpatial A request.spatial
  let rate ← l.childRate request.sampleRate
  let start ← (l.timeMap.evaluate request.window.start).toOption
  return (content, {
    window := frameWindow start request.frames rate
    sampleRate := rate
    layout := comp.workingAudioFormat.layout
    frames := request.frames
    exactness := request.exactness
    snapshot := request.snapshot
    spatial := spatial })

end LayerRecord

/-- The frames that the window of a request has at a lower rate, and one more. -/
def nativeFrames (frames native rate : UInt32) : UInt32 :=
  (frames.toUInt64 * native.toUInt64 / rate.toUInt64 + 1).toUInt32

section Mixing

variable {σ κ φ : Type}

/-- The request that repeats a pull at its native rate. -/
def AudioRequest.native (child : AudioRequest φ) (rate : UInt32) : AudioRequest φ :=
  let frames := nativeFrames child.frames rate child.sampleRate
  { child with
    window := frameWindow child.window.start frames rate
    sampleRate := rate
    frames := frames }

/-- The pull of a layer. A result below the asked rate is pulled again at the rate it has; the
second block is resampled if it is served, and otherwise the first one is kept. -/
def pullLayer (A : SampleArith φ) (pull : AudioService σ κ φ) (s : σ) (content : κ)
    (child : AudioRequest φ) : AudioOutcome φ × σ :=
  match pull s content child with
  | (.served result samples, s) =>
    if 0 < result.achievedRate ∧ result.achievedRate < child.sampleRate then
      match pull s content (child.native result.achievedRate) with
      | (.served _ nativeSamples, s) =>
        (.served result (A.resample child.layout nativeSamples result.achievedRate child.sampleRate
          child.frames), s)
      | (_, s) => (.served result samples, s)
    else (.served result samples, s)
  | (outcome, s) => (outcome, s)

/-! ## The mix -/

/-- A block that is being mixed, and what will be said about it. -/
structure Mix (φ : Type) where
  /-- The target. -/
  samples : List φ
  /-- The lowest rate and the conjunction of the exact flags so far. -/
  result : AudioResult
  deriving DecidableEq

/-- A silent block at the rate of the request. -/
def Mix.silence (A : SampleArith φ) (request : AudioRequest φ) : Mix φ where
  samples := List.replicate (request.frames.toNat * request.layout.channelCount) A.zero
  result := ⟨request.sampleRate, true⟩

/-- The sample of a frame for a channel of another layout. -/
def remix (A : SampleArith φ) (inLayout outLayout : ChannelLayout) (source : List φ)
    (frame channel : ℕ) : φ :=
  if inLayout.channelCount = outLayout.channelCount then
    source.getD (frame * inLayout.channelCount + channel) A.zero
  else if inLayout.channelCount = 1 then source.getD frame A.zero
  else A.mul A.half (A.add (source.getD (frame * 2) A.zero) (source.getD (frame * 2 + 1) A.zero))

/-- The sample of a frame as a point source. -/
def pointSource (A : SampleArith φ) (inLayout : ChannelLayout) (source : List φ) (frame : ℕ) : φ :=
  let first := frame * inLayout.channelCount
  if inLayout.channelCount = 1 then source.getD frame A.zero
  else A.mul A.half (A.add (source.getD first A.zero) (source.getD (first + 1) A.zero))

/-- The samples of a layer's content added to the target: remixed in a flat mix, placed by the
attenuation of the edge and by the pan in a spatial one. -/
def mixSamples (A : SampleArith φ) (request child : AudioRequest φ) (l : LayerRecord)
    (source target : List φ) : List φ :=
  let gain := A.ofDouble ⟨l.gain⟩
  let out := request.layout.channelCount
  match request.spatial with
  | none => target.mapIdx fun i t =>
      A.add t (A.mul gain (remix A child.layout request.layout source (i / out) (i % out)))
  | some sp =>
    let t := l.transform.toTransform
    let pan := spatialPanGains A (compose sp.listener t) sp.viewportW
    let level := A.mul gain (spatialEdgeAtten A t)
    target.mapIdx fun i t =>
      let placed := if out = 2 then A.mul level (if i % out = 0 then pan.1 else pan.2) else level
      A.add t (A.mul placed (pointSource A child.layout source (i / out)))

/-- A result honours a request: it is exact and has the asked rate. -/
def AudioResult.honors (result : AudioResult) (child : AudioRequest φ) : Bool :=
  result.exact && result.achievedRate == child.sampleRate

/-- The honesty of a mix: a layer that does not honour its request lowers the rate and the flag. -/
def AudioResult.fold (acc : AudioResult) (request child : AudioRequest φ) (result : AudioResult) :
    AudioResult :=
  if result.honors child then acc
  else
    let eff := result.achievedRate.toUInt64 * request.sampleRate.toUInt64 /
      child.sampleRate.toUInt64
    ⟨min acc.achievedRate eff.toUInt32, false⟩

/-- A served layer is added to a mix. -/
def Mix.add (A : SampleArith φ) (request child : AudioRequest φ) (l : LayerRecord)
    (result : AudioResult) (source : List φ) (mix : Mix φ) : Mix φ where
  samples := mixSamples A request child l source mix.samples
  result := mix.result.fold request child result

/-- `mix_layer`: a layer whose pull is deferred or fails is silent. -/
def mixLayer (A : SampleArith φ) (audio : AudioLibrary κ) (pull : AudioService σ κ φ)
    (comp : CompositionRecord) (request : AudioRequest φ) (l : LayerRecord) (mix : Mix φ) (s : σ) :
    Mix φ × σ :=
  match l.audioRequest A audio comp request with
  | none => (mix, s)
  | some (content, child) =>
    match pullLayer A pull s content child with
    | (.deferred, s) => (mix, s)
    | (.failed, s) => (mix, s)
    | (.served result source, s) => (mix.add A request child l result source, s)

/-- `mix_composition`. A composition that is not there is silent. -/
def mixComposition (A : SampleArith φ) (audio : AudioLibrary κ) (pull : AudioService σ κ φ)
    (m : DocMap) (turns : ℕ) (composition : ObjectId) (request : AudioRequest φ) (s : σ) :
    Option (Mix φ × σ) :=
  match m.findComposition composition with
  | none => some (.silence A request, s)
  | some comp => (m.layersIn turns composition).map fun members =>
      members.foldl (fun (mix, s) member =>
        match m.findLayer member with
        | none => (mix, s)
        | some l => mixLayer A audio pull comp request l mix s) (.silence A request, s)

/-! ## The pulls of a mix -/

/-- A pull of a mix and its answer. -/
structure LayerPull (φ : Type) where
  /-- The layer. -/
  layer : LayerRecord
  /-- The request. -/
  child : AudioRequest φ
  /-- The answer. -/
  outcome : AudioOutcome φ
  deriving DecidableEq

/-- What the pull service answers to the layers of a composition, in order. -/
def pullLayers (A : SampleArith φ) (audio : AudioLibrary κ) (pull : AudioService σ κ φ)
    (comp : CompositionRecord) (request : AudioRequest φ) :
    List LayerRecord → σ → List (LayerPull φ) × σ
  | [], s => ([], s)
  | l :: layers, s =>
    match l.audioRequest A audio comp request with
    | none => pullLayers A audio pull comp request layers s
    | some (content, child) =>
      let (outcome, s) := pullLayer A pull s content child
      let (pulls, s) := pullLayers A audio pull comp request layers s
      (⟨l, child, outcome⟩ :: pulls, s)

/-- What a pull adds to a mix of the root. -/
def Mix.addPull (A : SampleArith φ) (request : AudioRequest φ) (mix : Mix φ) (p : LayerPull φ) :
    Mix φ :=
  match p.outcome with
  | .deferred => mix
  | .failed => mix
  | .served result source => mix.add A request p.child p.layer result source

variable {A : SampleArith φ} {audio : AudioLibrary κ} {pull : AudioService σ κ φ}
  {comp : CompositionRecord} {request : AudioRequest φ}

/-- A walk over members that skips what is no layer is a walk over the layers. -/
theorem foldl_findLayer {β : Type} (m : DocMap) (step : β → LayerRecord → β)
    (members : List ObjectId) (b : β) :
    members.foldl (fun b member =>
      match m.findLayer member with
      | none => b
      | some l => step b l) b = (members.filterMap m.findLayer).foldl step b := by
  induction members generalizing b with
  | nil => rfl
  | cons member members ih =>
    cases hl : m.findLayer member with
    | none => rw [List.filterMap_cons_none hl, List.foldl_cons, hl, ih]
    | some l => rw [List.filterMap_cons_some hl, List.foldl_cons, List.foldl_cons, hl, ih]

/-- A layer that is pulled adds to a mix what its pull was answered. -/
def addingPull (A : SampleArith φ) (audio : AudioLibrary κ) (pull : AudioService σ κ φ)
    (comp : CompositionRecord) (request : AudioRequest φ) (add : Mix φ → LayerPull φ → Mix φ)
    (acc : Mix φ × σ) (l : LayerRecord) : Mix φ × σ :=
  match l.audioRequest A audio comp request with
  | none => acc
  | some (content, child) =>
    let (outcome, s) := pullLayer A pull acc.2 content child
    (add acc.1 ⟨l, child, outcome⟩, s)

/-- Mixing layers adds up what their pulls are answered, whatever is added for an answer. -/
theorem foldl_addingPull (add : Mix φ → LayerPull φ → Mix φ) (layers : List LayerRecord)
    (mix : Mix φ) (s : σ) :
    layers.foldl (addingPull A audio pull comp request add) (mix, s) =
      ((pullLayers A audio pull comp request layers s).1.foldl add mix,
        (pullLayers A audio pull comp request layers s).2) := by
  induction layers generalizing mix s with
  | nil => rfl
  | cons l layers ih =>
    rw [List.foldl_cons]
    cases hreq : l.audioRequest A audio comp request with
    | none => simp only [addingPull, hreq, ih, pullLayers]
    | some asked =>
      obtain ⟨content, child⟩ := asked
      simp only [addingPull, hreq, ih, pullLayers, List.foldl_cons]

/-- A root layer is mixed by adding its pull. -/
theorem mixLayer_eq (acc : Mix φ × σ) (l : LayerRecord) :
    mixLayer A audio pull comp request l acc.1 acc.2 =
      addingPull A audio pull comp request (Mix.addPull A request) acc l := by
  rw [mixLayer, addingPull]
  cases l.audioRequest A audio comp request with
  | none => rfl
  | some asked =>
    obtain ⟨content, child⟩ := asked
    rcases hpull : pullLayer A pull acc.2 content child with ⟨outcome, s⟩
    simp only [hpull]
    cases outcome <;> rfl

/-- The pulls of a mix of a composition. One that is not there has none. -/
def compositionPulls (A : SampleArith φ) (audio : AudioLibrary κ) (pull : AudioService σ κ φ)
    (m : DocMap) (turns : ℕ) (composition : ObjectId) (request : AudioRequest φ) (s : σ) :
    Option (List (LayerPull φ) × σ) :=
  match m.findComposition composition with
  | none => some ([], s)
  | some comp => (m.layersIn turns composition).map fun members =>
      pullLayers A audio pull comp request (members.filterMap m.findLayer) s

/-- A walk over the members of a composition that adds their pulls. -/
theorem compositionPulls_map {m : DocMap} {turns : ℕ} {composition : ObjectId} {s : σ}
    (add : Mix φ → LayerPull φ → Mix φ) (start : Mix φ)
    (step : CompositionRecord → LayerRecord → Mix φ → σ → Mix φ × σ)
    (hstep : ∀ comp l acc, step comp l acc.1 acc.2 =
      addingPull A audio pull comp request add acc l) :
    (match m.findComposition composition with
      | none => some (start, s)
      | some comp => (m.layersIn turns composition).map fun members =>
        members.foldl (fun (mix, s) member =>
          match m.findLayer member with
          | none => (mix, s)
          | some l => step comp l mix s) (start, s)) =
      (compositionPulls A audio pull m turns composition request s).map fun (pulls, s) =>
        (pulls.foldl add start, s) := by
  rw [compositionPulls]
  cases m.findComposition composition with
  | none => rfl
  | some comp =>
    rw [Option.map_map]
    refine congrArg (fun f => Option.map f _) (funext fun members => ?_)
    have hwalk := foldl_findLayer m (fun acc l => step comp l acc.1 acc.2) members (start, s)
    simp only [hstep] at hwalk
    simp only [hstep comp _ (_, _)]
    exact hwalk.trans (foldl_addingPull add (members.filterMap m.findLayer) start s)

/-- A mix adds up what its pulls were answered. -/
theorem mixComposition_eq {m : DocMap} {turns : ℕ} {composition : ObjectId} {s : σ} :
    mixComposition A audio pull m turns composition request s =
      (compositionPulls A audio pull m turns composition request s).map fun (pulls, s) =>
        (pulls.foldl (Mix.addPull A request) (.silence A request), s) :=
  compositionPulls_map (Mix.addPull A request) (.silence A request)
    (fun comp l mix s => mixLayer A audio pull comp request l mix s) fun _ l acc =>
      mixLayer_eq acc l

end Mixing

end ArbitraryComposer
