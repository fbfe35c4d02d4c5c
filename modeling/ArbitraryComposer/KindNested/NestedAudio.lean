import ArbitraryComposer.AudioEngine.Mix

/-!
# The Nested Mixer

A content that nests a composition mixes the samples of its layers with a second copy of the root
mixer. The copies differ in one thing: a layer whose pull is not settled makes the nested block
inexact and leaves the root block as it is. A pull that fails is silence to both.

## Main definitions

- `NestedContent.renderAudio`: the nested mixer.
- `MixersAgree`: two mixes of one request are the same, and claim nothing that is missing.

## Main results

- `mixers_agree_iff`: the pull answers on which the mixers agree.
- `not_mixersAgree_deferred`: one deferred layer on which they do not.
-/

namespace ArbitraryComposer

open Double

section Mixing

variable {σ κ φ : Type}

/-- `NestedContent`, as its audio facet uses it. -/
structure NestedContent (σ κ φ : Type) where
  /-- The bound version, if there is one. -/
  doc : Option DocMap
  /-- The bound pull service, if there is one. -/
  pull : Option (AudioService σ κ φ)
  /-- The composition. -/
  child : ObjectId
  /-- `ContentResolver`. -/
  resolver : AudioLibrary κ

/-- `NestedContent::mix_child_layer`: a layer whose pull fails is silent, and so is one whose pull
is deferred, which also makes the block inexact. -/
def mixChildLayer (A : SampleArith φ) (audio : AudioLibrary κ) (pull : AudioService σ κ φ)
    (comp : CompositionRecord) (request : AudioRequest φ) (l : LayerRecord) (mix : Mix φ) (s : σ) :
    Mix φ × σ :=
  match l.audioRequest A audio comp request with
  | none => (mix, s)
  | some (content, child) =>
    match pullLayer A pull s content child with
    | (.deferred, s) => ({ mix with result := { mix.result with exact := false } }, s)
    | (.failed, s) => (mix, s)
    | (.served result source, s) => (mix.add A request child l result source, s)

/-- `NestedAudioFacet::render_audio`. -/
def NestedContent.renderAudio (A : SampleArith φ) (nested : NestedContent σ κ φ) (turns : ℕ)
    (request : AudioRequest φ) (s : σ) : Option (Mix φ × σ) :=
  match nested.doc, nested.pull with
  | some m, some pull =>
    match m.findComposition nested.child with
    | none => some (.silence A request, s)
    | some comp => (m.layersIn turns nested.child).map fun members =>
        members.foldl (fun (mix, s) member =>
          match m.findLayer member with
          | none => (mix, s)
          | some l => mixChildLayer A nested.resolver pull comp request l mix s)
          (.silence A request, s)
  | _, _ => some (.silence A request, s)

/-! ## Its pulls -/

/-- What a pull adds to a mix of a nested composition. -/
def Mix.addChildPull (A : SampleArith φ) (request : AudioRequest φ) (mix : Mix φ)
    (p : LayerPull φ) : Mix φ :=
  match p.outcome with
  | .deferred => { mix with result := { mix.result with exact := false } }
  | .failed => mix
  | .served result source => mix.add A request p.child p.layer result source

variable {A : SampleArith φ} {audio : AudioLibrary κ} {pull : AudioService σ κ φ}
  {comp : CompositionRecord} {request : AudioRequest φ}

/-- A child layer is mixed by adding its pull. -/
theorem mixChildLayer_eq (acc : Mix φ × σ) (l : LayerRecord) :
    mixChildLayer A audio pull comp request l acc.1 acc.2 =
      addingPull A audio pull comp request (Mix.addChildPull A request) acc l := by
  rw [mixChildLayer, addingPull]
  cases l.audioRequest A audio comp request with
  | none => rfl
  | some asked =>
    obtain ⟨content, child⟩ := asked
    rcases hpull : pullLayer A pull acc.2 content child with ⟨outcome, s⟩
    simp only [hpull]
    cases outcome <;> rfl

/-- The nested mixer makes the pulls of the root mixer and adds up what they were answered. -/
theorem NestedContent.renderAudio_eq {m : DocMap} {turns : ℕ} {composition : ObjectId} {s : σ} :
    NestedContent.renderAudio A ⟨some m, some pull, composition, audio⟩ turns request s =
      (compositionPulls A audio pull m turns composition request s).map fun (pulls, s) =>
        (pulls.foldl (Mix.addChildPull A request) (.silence A request), s) :=
  compositionPulls_map (Mix.addChildPull A request) (.silence A request)
    (fun comp l mix s => mixChildLayer A audio pull comp request l mix s) fun _ l acc =>
      mixChildLayer_eq acc l

/-! ## The two mixers -/

namespace LayerPull

/-- The pull was not settled. -/
def deferred (p : LayerPull φ) : Bool :=
  match p.outcome with
  | .deferred => true
  | _ => false

/-- The pull was not served. -/
def missing (p : LayerPull φ) : Bool :=
  match p.outcome with
  | .served _ _ => false
  | _ => true

/-- The pull was served with a block that is not exact or not at the asked rate. -/
def dishonors (p : LayerPull φ) : Bool :=
  match p.outcome with
  | .served result _ => !result.honors p.child
  | _ => false

end LayerPull

/-- Two mixes of one request have the same samples, rate and flag, and if something is missing
neither of them is exact. -/
structure MixersAgree (missing : Bool) (root nested : Mix φ) : Prop where
  /-- The samples are the same. -/
  samples : root.samples = nested.samples
  /-- The achieved rate is the same. -/
  achieved : root.result.achievedRate = nested.result.achievedRate
  /-- The exact flag is the same. -/
  exact : root.result.exact = nested.result.exact
  /-- A mix that misses something is not exact. -/
  honest : missing = true → root.result.exact = false ∧ nested.result.exact = false

/-- A result that is added lowers the flag unless it honours its request. -/
private theorem AudioResult.exact_fold (acc result : AudioResult) (child : AudioRequest φ) :
    (acc.fold request child result).exact = (acc.exact && result.honors child) := by
  rw [AudioResult.fold]
  cases result.honors child with
  | true => rw [if_pos rfl, Bool.and_true]
  | false => simp

/-- The two copies differ by the flag only, and the flags differ by the deferred pulls. -/
theorem foldl_addPull (pulls : List (LayerPull φ)) {root nested : Mix φ}
    (hsamples : root.samples = nested.samples)
    (hachieved : root.result.achievedRate = nested.result.achievedRate) :
    let root' := pulls.foldl (Mix.addPull A request) root
    let nested' := pulls.foldl (Mix.addChildPull A request) nested
    (root'.samples = nested'.samples ∧ root'.result.achievedRate = nested'.result.achievedRate) ∧
      root'.result.exact = (root.result.exact && !pulls.any LayerPull.dishonors) ∧
      nested'.result.exact =
        (nested.result.exact && !pulls.any LayerPull.dishonors &&
          !pulls.any LayerPull.deferred) := by
  induction pulls generalizing root nested with
  | nil => simp [hsamples, hachieved]
  | cons p pulls ih =>
    obtain ⟨l, child, outcome⟩ := p
    cases outcome with
    | deferred =>
      -- only the flag of the nested block is lowered
      simpa [LayerPull.dishonors, LayerPull.deferred, Mix.addPull, Mix.addChildPull] using
        @ih root { nested with result := { nested.result with exact := false } } hsamples hachieved
    | failed =>
      simpa [LayerPull.dishonors, LayerPull.deferred, Mix.addPull, Mix.addChildPull] using
        ih hsamples hachieved
    | served result source =>
      have hrate : (root.result.fold request child result).achievedRate =
          (nested.result.fold request child result).achievedRate := by
        rw [AudioResult.fold, AudioResult.fold]
        split
        · exact hachieved
        · rw [hachieved]
      have hmixed := @ih (root.add A request child l result source)
        (nested.add A request child l result source)
        (congrArg (mixSamples A request child l source) hsamples) hrate
      simpa [LayerPull.dishonors, LayerPull.deferred, Mix.addPull, Mix.addChildPull, Mix.add,
        AudioResult.exact_fold, Bool.and_assoc] using hmixed

/-- The flags agree when what is deferred is also reported by a served layer. -/
private theorem mixersAgree_iff (pulls : List (LayerPull φ)) {missing : Bool}
    (hmissing : pulls.any LayerPull.deferred = true → missing = true) :
    MixersAgree missing (pulls.foldl (Mix.addPull A request) (.silence A request))
        (pulls.foldl (Mix.addChildPull A request) (.silence A request)) ↔
      (missing = true → pulls.any LayerPull.dishonors = true) := by
  obtain ⟨⟨hsamples, hachieved⟩, hroot, hnested⟩ := @foldl_addPull φ A request pulls
    (.silence A request) (.silence A request) rfl rfl
  have hexact : (Mix.silence A request).result.exact = true := rfl
  rw [hexact, Bool.true_and] at hroot hnested
  constructor
  · intro h hmiss
    obtain ⟨hfalse, -⟩ := h.honest hmiss
    rw [hroot] at hfalse
    simpa using hfalse
  · intro h
    refine ⟨hsamples, hachieved, ?_, fun hmiss => ?_⟩
    · rw [hroot, hnested]
      cases hdeferred : pulls.any LayerPull.deferred with
      | false => simp
      | true => simp [h (hmissing hdeferred)]
    · rw [hroot, hnested, h hmiss]
      exact ⟨rfl, rfl⟩

/-- A composition is mixed as the root and as the child of a nesting content. The samples and the
achieved rate are always the same. The flags are the same, and no block with a deferred layer is
exact, if and only if a deferred layer always comes with a layer that is served below its request;
if what fails counts as missing too, then if and only if a layer that is not served does. -/
theorem mixers_agree_iff {m : DocMap} {turns : ℕ} {composition : ObjectId} {s s' : σ}
    {pulls : List (LayerPull φ)}
    (hpulls : compositionPulls A audio pull m turns composition request s = some (pulls, s')) :
    ∃ root nested,
      mixComposition A audio pull m turns composition request s = some (root, s') ∧
      NestedContent.renderAudio A ⟨some m, some pull, composition, audio⟩ turns request s =
        some (nested, s') ∧
      (root.samples = nested.samples ∧ root.result.achievedRate = nested.result.achievedRate) ∧
      (MixersAgree (pulls.any LayerPull.deferred) root nested ↔
        (pulls.any LayerPull.deferred = true → pulls.any LayerPull.dishonors = true)) ∧
      (MixersAgree (pulls.any LayerPull.missing) root nested ↔
        (pulls.any LayerPull.missing = true → pulls.any LayerPull.dishonors = true)) := by
  refine ⟨_, _, by rw [mixComposition_eq, hpulls]; rfl,
    by rw [NestedContent.renderAudio_eq, hpulls]; rfl, (foldl_addPull pulls rfl rfl).1,
    mixersAgree_iff pulls id, mixersAgree_iff pulls fun hdeferred => ?_⟩
  obtain ⟨p, hp, hdeferred⟩ := List.any_eq_true.mp hdeferred
  refine List.any_eq_true.mpr ⟨p, hp, ?_⟩
  rcases p with ⟨l, child, outcome⟩
  cases outcome with
  | deferred => rfl
  | failed => cases hdeferred
  | served result source => cases hdeferred

end Mixing

/-! ## One layer -/

/-- Samples in double precision. -/
def doubleSamples : SampleArith Double where
  zero := 0
  one := 1
  half := 1 / ofInt 2
  add := Double.add
  mul := Double.mul
  lt := Double.lt
  ofDouble := id
  bits := Double.bits
  resample := fun _ samples _ _ _ => samples

/-- Composition 1 with one layer, object 2, of content 3. -/
def soundLayer : DocMap := fun id =>
  if id = 1 then some ⟨1, 0, .composition { layerCount := 1, layers := fun _ => 2 }⟩
  else if id = 2 then some ⟨2, 0, .layer { content := 3 }⟩
  else none

/-- A content with sound. -/
def oneSound : AudioLibrary Unit := ⟨fun _ => some (), fun _ => true⟩

/-- A flat request for one frame. -/
def oneFrame : AudioRequest Double :=
  ⟨frameWindow 0 1 48000, 48000, .mono, 1, .bestEffort, {}, none⟩

/-- A service that serves full level at the asked rate. -/
def fullLevel : AudioService Unit Unit Double := fun s _ request =>
  (.served ⟨request.sampleRate, true⟩
    (List.replicate (request.frames.toNat * request.layout.channelCount) 1), s)

/-- A service that defers every pull. -/
def deferAll : AudioService Unit Unit Double := fun s _ _ => (.deferred, s)

/-- A served layer: the mixers agree. -/
theorem mixers_agree_iff_served : ∃ root nested,
    mixComposition doubleSamples oneSound fullLevel soundLayer 1 1 oneFrame () = some (root, ()) ∧
    NestedContent.renderAudio doubleSamples ⟨some soundLayer, some fullLevel, 1, oneSound⟩ 1 oneFrame
      () = some (nested, ()) ∧ MixersAgree false root nested := by
  have hpulls : ∃ pulls,
      compositionPulls doubleSamples oneSound fullLevel soundLayer 1 1 oneFrame () =
        some (pulls, ()) ∧ pulls.any LayerPull.missing = false := by
    have hmap : (compositionPulls doubleSamples oneSound fullLevel soundLayer 1 1 oneFrame ()).map
        (fun p => p.1.any LayerPull.missing) = some false := by decide +kernel
    obtain ⟨⟨pulls, s⟩, hpulls, hmissing⟩ := Option.map_eq_some_iff.mp hmap
    exact ⟨pulls, hpulls, hmissing⟩
  obtain ⟨pulls, hpulls, hmissing⟩ := hpulls
  obtain ⟨root, nested, hroot, hnested, -, -, hagree⟩ := mixers_agree_iff hpulls
  rw [hmissing] at hagree
  exact ⟨root, nested, hroot, hnested, hagree.mpr nofun⟩

/-- A deferred layer: the root block is silent and exact, the nested one is silent and not exact. -/
theorem not_mixersAgree_deferred : ∃ root nested,
    mixComposition doubleSamples oneSound deferAll soundLayer 1 1 oneFrame () = some (root, ()) ∧
    NestedContent.renderAudio doubleSamples ⟨some soundLayer, some deferAll, 1, oneSound⟩ 1 oneFrame
      () = some (nested, ()) ∧
    (compositionPulls doubleSamples oneSound deferAll soundLayer 1 1 oneFrame ()).map
      (fun p => p.1.any LayerPull.deferred) = some true ∧
    (root.result.exact = true ∧ nested.result.exact = false) ∧ ¬ MixersAgree true root nested := by
  refine ⟨⟨[0], ⟨48000, true⟩⟩, ⟨[0], ⟨48000, false⟩⟩, by decide +kernel, by decide +kernel,
    by decide +kernel, ⟨rfl, rfl⟩, fun h => ?_⟩
  cases h.exact

end ArbitraryComposer
