import ArbitraryComposer.AudioEngine.Lookahead
import ArbitraryComposer.KindNested.NestedAudio

/-!
# What the Lookahead Warms

The blocks that the lookahead wants are compared with the blocks that the pulls of the mixer probe.
The two descents go over the same contributors, with the same requests. They differ in the revision
of an operator, which the lookahead takes to be the operator's own and the pull sums over all that
the operator reaches; and in the blocks that count, which are all residents to the lookahead and
only those that answer the request to the pull.

## Main definitions

- `LookaheadRingConfig.mixerPulls`: the pulls of the mixers for a block of the mix.
- `LookaheadRingConfig.Wired`: the ring and the pull service are set up for each other.
- `WarmsWhatIsProbed`: the lookahead wants what is probed and is ready when it is there.

## Main results

- `warmsWhatIsProbed_iff`: when the lookahead warms what is probed.
- `not_warmsWhatIsProbed_nested`: a nested tone on which it does not.
-/

namespace ArbitraryComposer

namespace LookaheadRingConfig

variable {κ φ : Type} (A : SampleArith φ) (ring : LookaheadRingConfig κ φ)

/-! ## The two descents -/

/-- The pulls below a layer, given those of a nested composition. -/
def pullsBelow (child : κ → Option ObjectId)
    (below : ObjectId → AudioRequest φ → List (κ × AudioRequest φ)) (p : κ × AudioRequest φ) :
    List (κ × AudioRequest φ) :=
  match child p.1 with
  | none => []
  | some composition => below composition p.2

/-- The pulls of the mixers for a request: those of the layers, and below a layer those of the
composition its content nests, where `levels` is the recursion budget that is left. -/
def mixerPulls (child : κ → Option ObjectId) :
    ℕ → ObjectId → AudioRequest φ → List (κ × AudioRequest φ)
  | 0, _, _ => []
  | levels + 1, composition, request =>
    match ring.layers composition with
    | none => []
    | some (comp, layers) => layers.flatMap fun l =>
      match l.audioRequest A ring.audio comp request with
      | none => []
      | some p => p :: pullsBelow child (mixerPulls child levels) p

/-- The pulls of the mixers for a block of the mix. -/
def blockPulls (child : κ → Option ObjectId) (index : Int64) : List (κ × AudioRequest φ) :=
  ring.mixerPulls A child ring.maxDepth ring.composition (ring.blockRequest index)

/-- The ring and the pull service are set up for each other: contents have the ids they are resolved
from, the contributions are the same, what nests in what is known, and the budgets are the same. -/
structure Wired (config : PullConfig κ) (child : κ → Option ObjectId) : Prop where
  /-- A content has the id it is resolved from. -/
  idOf : ∀ id content, ring.audio.resolve id = some content → config.idOf content = id
  /-- The contributions are one map. -/
  contribution : ∀ content, config.contribution content = ring.contribution (config.idOf content)
  /-- The ring knows the composition that a content nests. -/
  nested : ∀ id content, ring.audio.resolve id = some content →
    ring.nestedComposition id = child content
  /-- The budget is shared. -/
  maxDepth : config.maxDepth = ring.maxDepth

/-- The spatial context at a listener and an attenuation. -/
def contextAt (accumAtten : φ) (listener : Transform) : Option (Spatialization φ) :=
  ring.spatial.map fun sp => { sp with listener := listener, accumAtten := accumAtten }

variable {A ring}

/-- The ring has the spatial context of a layer's content. -/
theorem childSpatial_contextAt (accumAtten : φ) (listener : Transform) (l : LayerRecord) :
    l.childSpatial A (ring.contextAt accumAtten listener) =
        (ring.edgeContext A accumAtten listener l).map (·.2.2) ∧
      ∀ atten child spatial, ring.edgeContext A accumAtten listener l =
        some (atten, child, spatial) → spatial = ring.contextAt atten child := by
  rw [contextAt, edgeContext]
  cases hspatial : ring.spatial with
  | none =>
    refine ⟨rfl, fun atten child spatial h => ?_⟩
    cases h
    rw [contextAt, hspatial]
    rfl
  | some sp =>
    simp only [Option.map_some, LayerRecord.childSpatial]
    split
    · exact ⟨rfl, nofun⟩
    · refine ⟨rfl, fun atten child spatial h => ?_⟩
      cases h
      rw [contextAt, hspatial]
      rfl

/-- The content that a layer is heard as is the content it is bound to. -/
theorem resolve_of_audioContent {audio : AudioLibrary κ} {l : LayerRecord} {content : κ}
    (h : l.audioContent audio = some content) : audio.resolve l.content = some content := by
  rw [LayerRecord.audioContent] at h
  split at h
  · cases h
  · exact (Option.filter_eq_some_iff.mp h).1

/-- A layer is culled by the mixer and by the ring, or it is pulled by the one with the request that
the other makes for it. -/
theorem contribute_eq {nested : ObjectId → UInt32 → Int64 → φ → Transform → List (Contribution φ)}
    {comp : CompositionRecord} {request : AudioRequest φ} {accumAtten : φ} {listener : Transform}
    (hwindow : request.window =
      frameWindow request.window.start request.frames request.sampleRate)
    (hframes : request.frames = ring.blockFrames)
    (hexactness : request.exactness = .bestEffort) (hsnapshot : request.snapshot = {})
    (hspatial : request.spatial = ring.contextAt accumAtten listener) (l : LayerRecord) :
    (l.audioRequest A ring.audio comp request = none ∧
        ring.contribute A nested comp request.sampleRate request.window.start accumAtten listener l =
          none) ∨
      ∃ content c atten child,
        l.audioRequest A ring.audio comp request = some (content, c.request) ∧
        ring.contribute A nested comp request.sampleRate request.window.start accumAtten listener l =
          some c ∧
        ring.audio.resolve c.content = some content ∧ c.frames = ring.blockFrames ∧
        c.spatial = ring.contextAt atten child ∧
        c.children = match ring.nestedComposition c.content with
          | none => []
          | some composition => nested composition c.rate c.windowStart atten child := by
  have hoverlaps : l.overlaps (frameWindow request.window.start ring.blockFrames
      request.sampleRate) = l.overlaps request.window := by
    rw [← hframes, ← hwindow]
  obtain ⟨hctx, hctxAt⟩ := @childSpatial_contextAt κ φ A ring accumAtten listener l
  simp only [LayerRecord.audioRequest, contribute, hoverlaps, hspatial, hctx]
  cases hcontent : l.audioContent ring.audio with
  | none => exact .inl ⟨rfl, rfl⟩
  | some content =>
  cases l.overlaps request.window with
  | false => exact .inl ⟨rfl, rfl⟩
  | true =>
  cases hedge : ring.edgeContext A accumAtten listener l with
  | none => exact .inl ⟨rfl, rfl⟩
  | some edge =>
  obtain ⟨atten, child, spatial⟩ := edge
  cases l.childRate request.sampleRate with
  | none => exact .inl ⟨rfl, rfl⟩
  | some rate =>
  cases (l.timeMap.evaluate request.window.start).toOption with
  | none => exact .inl ⟨rfl, rfl⟩
  | some start =>
    refine .inr ⟨content, _, atten, child, ?_, rfl, resolve_of_audioContent hcontent, rfl,
      hctxAt _ _ _ hedge, rfl⟩
    simp [Contribution.request, hframes, hexactness, hsnapshot]

/-- A pull of the mixer is the request for a contributor. -/
def Pulled (ring : LookaheadRingConfig κ φ) (p : κ × AudioRequest φ) (c : Contribution φ) : Prop :=
  ring.audio.resolve c.content = some p.1 ∧ p.2 = c.request

/-- A request that the ring could make: a whole block, under a context of the ring. -/
structure Fits (ring : LookaheadRingConfig κ φ) (request : AudioRequest φ) (accumAtten : φ)
    (listener : Transform) : Prop where
  /-- The window is that of the frames. -/
  window : request.window = frameWindow request.window.start request.frames request.sampleRate
  /-- The frames are those of a block. -/
  frames : request.frames = ring.blockFrames
  /-- Less than the asked rate will do. -/
  exactness : request.exactness = .bestEffort
  /-- No state is pinned. -/
  snapshot : request.snapshot = {}
  /-- The context is that of the place. -/
  spatial : request.spatial = ring.contextAt accumAtten listener

/-- The two descents go over the same requests for a number of layers, if they do below them. -/
theorem forall₂_layers {child : κ → Option ObjectId}
    {below : ObjectId → AudioRequest φ → List (κ × AudioRequest φ)}
    {nested : ObjectId → UInt32 → Int64 → φ → Transform → List (Contribution φ)}
    (hnested : ∀ id content, ring.audio.resolve id = some content →
      ring.nestedComposition id = child content)
    (hbelow : ∀ composition asked atten listener, ring.Fits asked atten listener →
      List.Forall₂ ring.Pulled (below composition asked) (Contribution.closureAll
        (nested composition asked.sampleRate asked.window.start atten listener)))
    {comp : CompositionRecord} {request : AudioRequest φ} {accumAtten : φ} {listener : Transform}
    (hfits : ring.Fits request accumAtten listener) (layers : List LayerRecord) :
    List.Forall₂ ring.Pulled
      (layers.flatMap fun l =>
        match l.audioRequest A ring.audio comp request with
        | none => []
        | some p => p :: pullsBelow child below p)
      (Contribution.closureAll (layers.filterMap (ring.contribute A nested comp request.sampleRate
        request.window.start accumAtten listener))) := by
  induction layers with
  | nil => exact .nil
  | cons l layers ih =>
    rw [List.flatMap_cons]
    rcases contribute_eq hfits.window hfits.frames hfits.exactness hfits.snapshot hfits.spatial l with
      ⟨hpull, hcontribute⟩ | ⟨content, c, atten, inner, hpull, hcontribute, hresolve, hframes, hspatial,
        hchildren⟩
    · rw [hpull, List.filterMap_cons_none hcontribute]
      exact ih
    · rw [hpull, List.filterMap_cons_some hcontribute, Contribution.closureAll,
        Contribution.closure_eq]
      refine List.rel_append (.cons ⟨hresolve, rfl⟩ ?_) ih
      rw [hchildren, hnested _ _ hresolve, pullsBelow]
      cases child content with
      | none => exact .nil
      | some composition =>
        exact hbelow composition c.request atten inner ⟨rfl, hframes, rfl, rfl, hspatial⟩

/-- The two descents go over the same requests, in the same order. -/
theorem forall₂_mixerPulls {child : κ → Option ObjectId}
    (hnested : ∀ id content, ring.audio.resolve id = some content →
      ring.nestedComposition id = child content)
    (levels : ℕ) (composition : ObjectId) (request : AudioRequest φ) (accumAtten : φ)
    (listener : Transform) (hfits : ring.Fits request accumAtten listener) :
    List.Forall₂ ring.Pulled (ring.mixerPulls A child (levels + 1) composition request)
      (Contribution.closureAll (ring.descend A levels composition request.sampleRate
        request.window.start accumAtten listener)) := by
  induction levels generalizing composition request accumAtten listener with
  | zero =>
    rw [mixerPulls, descend, descendWith]
    cases ring.layers composition with
    | none => exact .nil
    | some found =>
      obtain ⟨comp, layers⟩ := found
      -- the budget is spent: neither descent goes below these layers
      have hbelow : ∀ composition asked atten listener, ring.Fits asked atten listener →
          List.Forall₂ ring.Pulled (ring.mixerPulls A child 0 composition asked)
            (Contribution.closureAll []) := fun _ _ _ _ _ => .nil
      exact forall₂_layers hnested hbelow hfits layers
  | succ levels ih =>
    rw [mixerPulls, descend, descendWith]
    cases ring.layers composition with
    | none => exact .nil
    | some found =>
      obtain ⟨comp, layers⟩ := found
      exact forall₂_layers hnested ih hfits layers

/-! ## Keys -/

/-- All contributors to a block of the mix. -/
def contributors (A : SampleArith φ) (ring : LookaheadRingConfig κ φ) (index : Int64) :
    List (Contribution φ) :=
  Contribution.closureAll (ring.contributionsFor A index)

/-- The request for a block of the mix is one that the ring could make. -/
theorem fits_blockRequest (A : SampleArith φ) (ring : LookaheadRingConfig κ φ) (index : Int64) :
    ring.Fits (ring.blockRequest index) (ring.seedAtten A) ring.seedListener := by
  refine ⟨rfl, rfl, rfl, rfl, ?_⟩
  change ring.spatial = _
  rw [contextAt, seedAtten, seedListener]
  cases ring.spatial <;> rfl

/-- The pulls for a block of the mix are the requests for its contributors. -/
theorem forall₂_blockPulls {child : κ → Option ObjectId}
    (hnested : ∀ id content, ring.audio.resolve id = some content →
      ring.nestedComposition id = child content) (index : Int64) (hdepth : 0 < ring.maxDepth) :
    List.Forall₂ ring.Pulled (ring.blockPulls A child index) (ring.contributors A index) := by
  obtain ⟨levels, hlevels⟩ : ∃ levels, ring.maxDepth = levels + 1 := ⟨ring.maxDepth - 1, by omega⟩
  rw [blockPulls, contributors, contributionsFor, hlevels, Nat.add_sub_cancel]
  exact forall₂_mixerPulls hnested levels ring.composition (ring.blockRequest index) _ _
    (fits_blockRequest A ring index)

/-- The pull of a layer of the root is the request for a contributor at the top. -/
theorem exists_pulled_of_layer {comp : CompositionRecord} {layers : List LayerRecord}
    (hlayers : ring.layers ring.composition = some (comp, layers)) (index : Int64)
    {l : LayerRecord} (hl : l ∈ layers) {p : κ × AudioRequest φ}
    (hp : l.audioRequest A ring.audio comp (ring.blockRequest index) = some p) :
    ∃ c ∈ ring.contributionsFor A index, ring.Pulled p c := by
  obtain ⟨nested, hnested⟩ : ∃ nested, ring.descend A (ring.maxDepth - 1) =
      ring.descendWith A nested := by
    cases ring.maxDepth - 1 with
    | zero => exact ⟨_, rfl⟩
    | succ levels => exact ⟨_, rfl⟩
  obtain ⟨hwindow, hframes, hexactness, hsnapshot, hspatial⟩ := fits_blockRequest A ring index
  rcases @contribute_eq κ φ A ring nested comp (ring.blockRequest index) _ _ hwindow hframes
    hexactness hsnapshot hspatial l with
    ⟨hnone, -⟩ | ⟨content, c, atten, inner, hpull, hcontribute, hresolve, -⟩
  · rw [hnone] at hp
    cases hp
  · obtain rfl := Option.some.inj (hpull.symm.trans hp)
    refine ⟨c, ?_, hresolve, rfl⟩
    rw [contributionsFor, hnested, descendWith, hlayers]
    exact List.mem_filterMap.mpr ⟨l, hl, hcontribute⟩

/-- The ring and the pull service find the same frame. -/
theorem audioBlockIndex_request (c : Contribution φ) :
    audioBlockIndex c.request = wantIndex c.windowStart c.rate := by
  rw [audioBlockIndex_eq, wantIndex_eq_frameIndex]
  rfl

/-! ## Residents -/

/-- Whether a contributor is warm does not depend on what is wanted already. -/
theorem collectWants_fst (blocks : BlockCache φ) (c : Contribution φ) (w : Wants φ) :
    (ring.collectWants A blocks c w).1 =
      (blocks (ring.contributionKey A c)).any fun value =>
        (ring.nativeRerequestWant A c value.result.achievedRate).all fun native =>
          (blocks native.key).isSome := by
  obtain ⟨content, rate, layout, frames, windowStart, spatial, children⟩ := c
  rw [collectWants]
  simp only
  cases blocks (ring.contributionKey A ⟨content, rate, layout, frames, windowStart, spatial,
    children⟩) with
  | none => rfl
  | some value =>
    simp only [Option.any_some]
    cases ring.nativeRerequestWant A ⟨content, rate, layout, frames, windowStart, spatial, children⟩
      value.result.achievedRate with
    | none => rfl
    | some native =>
      simp only [Option.all_some]
      cases (blocks native.key).isSome <;> rfl

/-- Contributors are warm when each of them is. -/
theorem collectAll_fst (blocks : BlockCache φ) (cs : List (Contribution φ)) (w : Wants φ) :
    (ring.collectAll A blocks cs w).1 =
      cs.all fun c => (ring.collectWants A blocks c {}).1 := by
  induction cs generalizing w with
  | nil => rfl
  | cons c cs ih =>
    rw [collectAll, List.all_cons, ← ih (ring.collectWants A blocks c w).2, collectWants_fst,
      ← collectWants_fst blocks c w]

/-- A resident that the ring accepts and the pull rejects: it does not answer the request, and its
native block, if it has one, is resident. -/
def Misjudged (A : SampleArith φ) (ring : LookaheadRingConfig κ φ) (blocks : BlockCache φ)
    (c : Contribution φ) (value : AudioBlockValue φ) : Prop :=
  value.serves c.request = false ∧
    ∀ native ∈ ring.nativeRerequestWant A c value.result.achievedRate, (blocks native.key).isSome

/-- Pulls that are answered at their rate are made once and leave the service as it is. -/
theorem pullLayers_of_hits {σ : Type} {pull : AudioService σ κ φ} {comp : CompositionRecord}
    {request : AudioRequest φ} {s : σ} (layers : List LayerRecord)
    (hhits : ∀ l ∈ layers, ∀ p, l.audioRequest A ring.audio comp request = some p →
      ∃ result samples, result.achievedRate = p.2.sampleRate ∧
        pull s p.1 p.2 = (.served result samples, s)) :
    (pullLayers A ring.audio pull comp request layers s).2 = s ∧
      (pullLayers A ring.audio pull comp request layers s).1.any LayerPull.missing = false := by
  induction layers with
  | nil => exact ⟨rfl, rfl⟩
  | cons l layers ih =>
    have ih := ih fun l hl => hhits l (List.mem_cons_of_mem _ hl)
    cases hreq : l.audioRequest A ring.audio comp request with
    | none =>
      rw [pullLayers, hreq]
      exact ih
    | some p =>
      obtain ⟨result, samples, hrate, hpull⟩ := hhits l List.mem_cons_self p hreq
      have hlayer : pullLayer A pull s p.1 p.2 = (.served result samples, s) := by
        rw [pullLayer, hpull]
        simp only [hrate, UInt32.lt_irrefl, and_false, if_false]
      obtain ⟨content, asked⟩ := p
      simp only [pullLayers, hreq, hlayer, List.any_cons, ih, LayerPull.missing, Bool.or_false,
        and_self]

/-! ## Operators -/

variable [DecidableEq κ] [Fintype κ] {config : PullConfig κ} {child : κ → Option ObjectId}

/-- A content that is no operator, and an operator whose sum is its own contribution, is cached
under its own contribution. -/
def OwnRevision (config : PullConfig κ) (content : κ) : Prop :=
  isOperator config.inputs content = true →
    aggregateRevision config.inputs config.contribution (some content) = config.contribution content

/-- The revision of a pull is the content's own contribution. -/
theorem revision_eq_iff (content : κ) :
    config.revision content = config.contribution content ↔ OwnRevision config content := by
  rw [PullConfig.revision, OwnRevision]
  by_cases hop : isOperator config.inputs content = true
  · rw [if_pos hop]
    exact ⟨fun h _ => h, fun h => h hop⟩
  · rw [if_neg hop]
    exact ⟨fun _ h => absurd h hop, fun _ => rfl⟩

/-- The key of a contributor is probed by its pull, unless its content is an operator. -/
theorem key_of_pulled (hwired : ring.Wired config child) {p : κ × AudioRequest φ}
    {c : Contribution φ} (hpulled : ring.Pulled p c) :
    config.key A p.1 p.2 =
      { ring.contributionKey A c with revision := config.revision p.1 } ∧
    (ring.contributionKey A c).content = config.idOf p.1 ∧
    (ring.contributionKey A c).revision = config.contribution p.1 := by
  obtain ⟨hresolve, hrequest⟩ := hpulled
  have hid := hwired.idOf _ _ hresolve
  refine ⟨?_, hid.symm, ?_⟩
  · rw [PullConfig.key, hrequest, hid, audioBlockIndex_request]
    rfl
  · rw [hwired.contribution, hid]
    rfl

/-- The key of a contributor whose content is cached under its own contribution. -/
theorem key_eq_contributionKey (hwired : ring.Wired config child) {p : κ × AudioRequest φ}
    {c : Contribution φ} (hpulled : ring.Pulled p c) (hown : OwnRevision config p.1) :
    config.key A p.1 p.2 = ring.contributionKey A c := by
  obtain ⟨hkey, -, hrevision⟩ := @key_of_pulled κ φ A ring _ _ config child hwired p c hpulled
  rw [hkey, (revision_eq_iff p.1).mpr hown, ← hrevision]

/-- The native block of a contributor is the one that its second pull probes. -/
theorem nativeRerequestWant_eq (hwired : ring.Wired config child) {p : κ × AudioRequest φ}
    {c : Contribution φ} (hpulled : ring.Pulled p c) (hown : OwnRevision config p.1)
    (rate : UInt32) :
    (ring.nativeRerequestWant A c rate).map (fun want => (want.key, want.window)) =
      if rate ≠ 0 ∧ rate < p.2.sampleRate then
        some (config.key A p.1 (p.2.native rate), (p.2.native rate).window)
      else none := by
  obtain ⟨hresolve, hrequest⟩ := hpulled
  have hid := hwired.idOf _ _ hresolve
  have hrate : p.2.sampleRate = c.rate := by rw [hrequest]; rfl
  rw [nativeRerequestWant, hrate]
  by_cases h : rate = 0 ∨ c.rate ≤ rate
  · rw [if_pos h, if_neg (by rw [not_and_or, not_not, UInt32.not_lt]; exact h)]
    rfl
  · rw [if_neg h, if_pos (by rw [not_or, UInt32.not_le] at h; exact h)]
    have hindex := @audioBlockIndex_request φ { c with rate := rate }
    have hkey : config.key A p.1 (p.2.native rate) = ⟨c.content, ring.contribution c.content,
        wantIndex c.windowStart rate, rate, spatialContextDigest A c.spatial⟩ := by
      rw [PullConfig.key, hid, (revision_eq_iff p.1).mpr hown, hwired.contribution, hid, ← hindex,
        hrequest]
      rfl
    rw [hkey, hrequest]
    rfl

/-- The ring accepts the residents that the pull accepts, unless it misjudges the resident. -/
theorem collectWants_eq_hit_iff (hwired : ring.Wired config child) {blocks : BlockCache φ}
    {p : κ × AudioRequest φ} {c : Contribution φ} (hpulled : ring.Pulled p c)
    (hown : OwnRevision config p.1) :
    (ring.collectWants A blocks c {}).1 = (config.hit A blocks p.1 p.2).isSome ↔
      ∀ value ∈ blocks (ring.contributionKey A c), ¬ Misjudged A ring blocks c value := by
  rw [collectWants_fst, PullConfig.hit, key_eq_contributionKey hwired hpulled hown, hpulled.2]
  cases hvalue : blocks (ring.contributionKey A c) with
  | none => simp
  | some value =>
    simp only [Option.any_some, Option.mem_some_iff, forall_eq', Misjudged, not_and]
    cases hserves : value.serves c.request with
    | true =>
      -- a block that answers the request has its rate, so the mix pulls no second one
      have hnative : ring.nativeRerequestWant A c value.result.achievedRate = none := by
        simp only [AudioBlockValue.serves, Bool.and_eq_true, beq_iff_eq] at hserves
        rw [nativeRerequestWant, hserves.1.1.2, if_pos (.inr (UInt32.le_refl _))]
      rw [hnative]
      simp [hserves]
    | false =>
      rw [Option.filter_some, if_neg (by rw [hserves]; exact Bool.false_ne_true)]
      cases ring.nativeRerequestWant A c value.result.achievedRate <;> simp

end LookaheadRingConfig

/-! ## The two descents warm and probe the same -/

section Warms

open LookaheadRingConfig

variable {κ φ : Type} [DecidableEq κ] [Fintype κ]

/-- For a block of the mix and a block cache, the lookahead warms exactly what the mixer probes. -/
structure WarmsWhatIsProbed (A : SampleArith φ) (ring : LookaheadRingConfig κ φ)
    (config : PullConfig κ) (child : κ → Option ObjectId) (blocks : BlockCache φ) (index : Int64) :
    Prop where
  /-- The keys and windows that are wanted are those that the pulls probe. -/
  keys : {x | ∃ c ∈ ring.contributors A index,
      x = ((ring.makeWant A c).key, (ring.makeWant A c).window)} =
    {x | ∃ p ∈ ring.blockPulls A child index, x = (config.key A p.1 p.2, p.2.window)}
  /-- The same for the second pulls, at any rate that a block may have. -/
  nativeKeys : ∀ rate, {x | ∃ c ∈ ring.contributors A index,
      ∃ want ∈ ring.nativeRerequestWant A c rate, x = (want.key, want.window)} =
    {x | ∃ p ∈ ring.blockPulls A child index, (rate ≠ 0 ∧ rate < p.2.sampleRate) ∧
      x = (config.key A p.1 (p.2.native rate), (p.2.native rate).window)}
  /-- A contributor is warm exactly when its pull hits. -/
  readiness : ∀ c ∈ ring.contributors A index, ∀ content,
    ring.audio.resolve c.content = some content →
      (ring.collectWants A blocks c {}).1 = (config.hit A blocks content c.request).isSome
  /-- In the mix of a block that is ready, every pull hits: none is dispatched, deferred or
  failed. -/
  noSilence : ring.blockReady A blocks index = true →
    ∀ (σ : Type) (dispatch : AudioService σ κ φ) (s s' : σ) (pulls : List (LayerPull φ)),
      compositionPulls A ring.audio (config.pullAudio A blocks dispatch 0) ring.doc ring.turns
        ring.composition (ring.blockRequest index) s = some (pulls, s') →
      s' = s ∧ pulls.any LayerPull.missing = false

variable {A : SampleArith φ} {ring : LookaheadRingConfig κ φ} {config : PullConfig κ}
  {child : κ → Option ObjectId} {blocks : BlockCache φ} {index : Int64}

omit [DecidableEq κ] [Fintype κ] in
/-- A relation between lists gives every element of one a partner in the other. -/
private theorem exists_pulled {ps : List (κ × AudioRequest φ)} {cs : List (Contribution φ)}
    (h : List.Forall₂ ring.Pulled ps cs) :
    (∀ p ∈ ps, ∃ c ∈ cs, ring.Pulled p c) ∧ ∀ c ∈ cs, ∃ p ∈ ps, ring.Pulled p c := by
  induction h with
  | nil => exact ⟨nofun, nofun⟩
  | cons hpc _ ih =>
    obtain ⟨hps, hcs⟩ := ih
    refine ⟨fun p hp => ?_, fun c hc => ?_⟩
    · rcases List.mem_cons.mp hp with rfl | hp
      · exact ⟨_, List.mem_cons_self, hpc⟩
      · obtain ⟨c, hc, h⟩ := hps p hp
        exact ⟨c, List.mem_cons_of_mem _ hc, h⟩
    · rcases List.mem_cons.mp hc with rfl | hc
      · exact ⟨_, List.mem_cons_self, hpc⟩
      · obtain ⟨p, hp, h⟩ := hcs c hc
        exact ⟨p, List.mem_cons_of_mem _ hp, h⟩

/-- In the mix of a block whose contributors are warm when their pulls hit, every pull of the root
hits. -/
private theorem noSilence_of_readiness (hwired : ring.Wired config child)
    (hdepth : ring.contributionsFor A index ≠ [] → 0 < ring.maxDepth)
    (hreadiness : ∀ c ∈ ring.contributionsFor A index, ∀ content,
      ring.audio.resolve c.content = some content →
        (ring.collectWants A blocks c {}).1 = (config.hit A blocks content c.request).isSome)
    (hready : ring.blockReady A blocks index = true) {σ : Type} {dispatch : AudioService σ κ φ}
    {s s' : σ} {pulls : List (LayerPull φ)}
    (hpulls : compositionPulls A ring.audio (config.pullAudio A blocks dispatch 0) ring.doc
      ring.turns ring.composition (ring.blockRequest index) s = some (pulls, s')) :
    s' = s ∧ pulls.any LayerPull.missing = false := by
  rw [blockReady, collectAll_fst, List.all_eq_true] at hready
  rw [compositionPulls] at hpulls
  cases hcomp : ring.doc.findComposition ring.composition with
  | none =>
    rw [hcomp] at hpulls
    cases hpulls
    exact ⟨rfl, rfl⟩
  | some comp =>
    rw [hcomp] at hpulls
    obtain ⟨members, hmembers, hpulls⟩ := Option.map_eq_some_iff.mp hpulls
    have hlayers : ring.layers ring.composition =
        some (comp, members.filterMap ring.doc.findLayer) := by
      rw [layers, hcomp]
      simp [hmembers]
    suffices hhits : _ by
      obtain ⟨hstate, hserved⟩ := @pullLayers_of_hits κ φ A ring σ
        (config.pullAudio A blocks dispatch 0) comp (ring.blockRequest index) s
        (members.filterMap ring.doc.findLayer) hhits
      rw [hpulls] at hstate hserved
      exact ⟨hstate, hserved⟩
    -- the pull of a layer is that of a warm contributor, so it hits at its own rate
    intro l hl p hp
    obtain ⟨c, hc, hresolve, hrequest⟩ := exists_pulled_of_layer hlayers index hl hp
    have hhit := hreadiness c hc p.1 hresolve
    rw [hready c hc, ← hrequest] at hhit
    obtain ⟨value, hvalue⟩ := Option.isSome_iff_exists.mp hhit.symm
    have hserves := (Option.filter_eq_some_iff.mp hvalue).2
    simp only [AudioBlockValue.serves, Bool.and_eq_true, beq_iff_eq] at hserves
    refine ⟨value.result, value.deliver A, hserves.1.1.2, ?_⟩
    have hbudget : ¬ config.maxDepth ≤ 0 := by
      rw [hwired.maxDepth]
      exact Nat.not_le.mpr (hdepth (List.ne_nil_of_mem hc))
    rw [PullConfig.pullAudio, if_neg hbudget, hvalue]

omit [DecidableEq κ] [Fintype κ] in
/-- Without contributors at the top there are none. -/
private theorem contributors_eq_nil (h : ring.contributionsFor A index = []) :
    ring.contributors A index = [] := by
  rw [contributors, h, Contribution.closureAll]

omit [DecidableEq κ] [Fintype κ] in
/-- A contributor at the top is a contributor. -/
private theorem mem_contributors {c : Contribution φ} (hc : c ∈ ring.contributionsFor A index) :
    c ∈ ring.contributors A index := by
  rw [contributors]
  generalize ring.contributionsFor A index = cs at hc ⊢
  induction cs with
  | nil => cases hc
  | cons d cs ih =>
    rw [Contribution.closureAll, Contribution.closure_eq]
    rcases List.mem_cons.mp hc with rfl | hc
    · exact List.mem_cons_self
    · exact List.mem_append_right _ (ih hc)

/-- Keys that agree as sets agree for every content, as they name it. -/
private theorem ownRevision_of_keys (hwired : ring.Wired config child)
    (hpulled : List.Forall₂ ring.Pulled (ring.blockPulls A child index)
      (ring.contributors A index))
    (hkeys : {x | ∃ c ∈ ring.contributors A index,
        x = ((ring.makeWant A c).key, (ring.makeWant A c).window)} =
      {x | ∃ p ∈ ring.blockPulls A child index, x = (config.key A p.1 p.2, p.2.window)})
    {p : κ × AudioRequest φ} (hp : p ∈ ring.blockPulls A child index) :
    OwnRevision config p.1 := by
  obtain ⟨hps, hcs⟩ := exists_pulled hpulled
  obtain ⟨c, hc, hpc⟩ := hps p hp
  have hmem : ((ring.makeWant A c).key, (ring.makeWant A c).window) ∈
      {x | ∃ p ∈ ring.blockPulls A child index, x = (config.key A p.1 p.2, p.2.window)} :=
    hkeys ▸ ⟨c, hc, rfl⟩
  obtain ⟨q, hq, heq⟩ := hmem
  obtain ⟨hkey, -⟩ := Prod.mk.inj heq
  obtain ⟨d, -, hqd⟩ := hps q hq
  obtain ⟨-, hcontent, hrevision⟩ := @key_of_pulled κ φ A ring _ _ config child hwired p c hpc
  obtain ⟨hprobe, hcontent', -⟩ := @key_of_pulled κ φ A ring _ _ config child hwired q d hqd
  change ring.contributionKey A c = _ at hkey
  -- the probe that finds the block of the content is a probe for the content
  have hids : config.idOf p.1 = config.idOf q.1 := by
    rw [← hcontent, hkey, hprobe, ← hcontent']
  have hsame : p.1 = q.1 := by
    have hresolve := hpc.1
    have hresolve' := hqd.1
    rw [← hwired.idOf _ _ hresolve, hids, hwired.idOf _ _ hresolve', hresolve'] at hresolve
    exact (Option.some.inj hresolve).symm
  rw [← revision_eq_iff, ← hrevision, hkey, hprobe, hsame]

/-- The lookahead warms exactly what the mixer probes, if and only if three things hold: the budget
admits a layer, if there is one to be heard; every operator that is heard has the same sum as it has
a contribution; and no resident is accepted that does not answer the request. -/
theorem warmsWhatIsProbed_iff (hwired : ring.Wired config child) :
    WarmsWhatIsProbed A ring config child blocks index ↔
      (ring.contributionsFor A index ≠ [] → 0 < ring.maxDepth) ∧
      (∀ p ∈ ring.blockPulls A child index, OwnRevision config p.1) ∧
      ∀ c ∈ ring.contributors A index, ∀ value ∈ blocks (ring.contributionKey A c),
        ¬ Misjudged A ring blocks c value := by
  have hpairs : 0 < ring.maxDepth → List.Forall₂ ring.Pulled (ring.blockPulls A child index)
      (ring.contributors A index) := forall₂_blockPulls hwired.nested index
  have hzero : ring.maxDepth = 0 → ring.blockPulls A child index = [] := fun h => by
    rw [blockPulls, h, mixerPulls]
  constructor
  · intro h
    have hdepth : ring.contributionsFor A index ≠ [] → 0 < ring.maxDepth := by
      intro hne
      obtain ⟨c, hc⟩ := List.exists_mem_of_ne_nil _ hne
      have hc := mem_contributors hc
      have hmem : ((ring.makeWant A c).key, (ring.makeWant A c).window) ∈
          {x | ∃ p ∈ ring.blockPulls A child index, x = (config.key A p.1 p.2, p.2.window)} :=
        h.keys ▸ ⟨c, hc, rfl⟩
      obtain ⟨p, hp, -⟩ := hmem
      by_contra hdepth
      rw [hzero (by omega)] at hp
      cases hp
    have hown : ∀ p ∈ ring.blockPulls A child index, OwnRevision config p.1 := by
      intro p hp
      have hdepth : 0 < ring.maxDepth := by
        by_contra hdepth
        rw [hzero (by omega)] at hp
        cases hp
      exact ownRevision_of_keys hwired (hpairs hdepth) h.keys hp
    refine ⟨hdepth, hown, fun c hc => ?_⟩
    have hne : ring.contributionsFor A index ≠ [] := fun hnil => by
      rw [contributors_eq_nil hnil] at hc
      cases hc
    obtain ⟨p, hp, hpc⟩ := (exists_pulled (hpairs (hdepth hne))).2 c hc
    refine (collectWants_eq_hit_iff hwired hpc (hown p hp)).mp ?_
    rw [h.readiness c hc p.1 hpc.1, hpc.2]
  · rintro ⟨hdepth, hown, hresidents⟩
    have hpulled : List.Forall₂ ring.Pulled (ring.blockPulls A child index)
        (ring.contributors A index) := by
      rcases Nat.eq_zero_or_pos ring.maxDepth with hmax | hmax
      · have hnil : ring.contributionsFor A index = [] := by
          by_contra hne
          exact absurd (hdepth hne) (by omega)
        rw [hzero hmax, contributors_eq_nil hnil]
        exact .nil
      · exact hpairs hmax
    obtain ⟨hps, hcs⟩ := exists_pulled hpulled
    have hreadiness : ∀ c ∈ ring.contributors A index, ∀ content,
        ring.audio.resolve c.content = some content →
          (ring.collectWants A blocks c {}).1 =
            (config.hit A blocks content c.request).isSome := by
      intro c hc content hcontent
      obtain ⟨p, hp, hpc⟩ := hcs c hc
      obtain rfl := Option.some.inj (hpc.1.symm.trans hcontent)
      rw [← hpc.2]
      exact (collectWants_eq_hit_iff hwired hpc (hown p hp)).mpr (hresidents c hc)
    have hkey : ∀ p ∈ ring.blockPulls A child index, ∀ c, ring.Pulled p c →
        ((ring.makeWant A c).key, (ring.makeWant A c).window) =
          (config.key A p.1 p.2, p.2.window) := by
      intro p hp c hpc
      rw [key_eq_contributionKey hwired hpc (hown p hp), hpc.2]
      rfl
    refine ⟨?_, fun rate => ?_, hreadiness, fun hready σ dispatch s s' pulls hrun => ?_⟩
    · ext x
      constructor
      · rintro ⟨c, hc, rfl⟩
        obtain ⟨p, hp, hpc⟩ := hcs c hc
        exact ⟨p, hp, hkey p hp c hpc⟩
      · rintro ⟨p, hp, rfl⟩
        obtain ⟨c, hc, hpc⟩ := hps p hp
        exact ⟨c, hc, (hkey p hp c hpc).symm⟩
    · ext x
      constructor
      · rintro ⟨c, hc, want, hwant, rfl⟩
        obtain ⟨p, hp, hpc⟩ := hcs c hc
        have hnative := @nativeRerequestWant_eq κ φ A ring _ _ config child hwired p c hpc
          (hown p hp) rate
        rw [Option.mem_def.mp hwant, Option.map_some] at hnative
        split at hnative
        case isTrue hbelow => exact ⟨p, hp, hbelow, Option.some.inj hnative⟩
        case isFalse => cases hnative
      · rintro ⟨p, hp, hbelow, rfl⟩
        obtain ⟨c, hc, hpc⟩ := hps p hp
        have hnative := @nativeRerequestWant_eq κ φ A ring _ _ config child hwired p c hpc
          (hown p hp) rate
        rw [if_pos hbelow] at hnative
        obtain ⟨want, hwant, heq⟩ := Option.map_eq_some_iff.mp hnative
        exact ⟨c, hc, want, hwant, heq.symm⟩
    · refine noSilence_of_readiness hwired hdepth (fun c hc => hreadiness c ?_) hready hrun
      exact mem_contributors hc

end Warms

/-! ## A nested tone -/

/-- Composition 4 with one layer of a tone, content 6, nested by content 3 in the only layer of
composition 1. -/
def nestedToneDoc : DocMap := fun id =>
  if id = 1 then some ⟨1, 0, .composition { layerCount := 1, layers := fun _ => 2 }⟩
  else if id = 2 then some ⟨2, 0, .layer { content := 3 }⟩
  else if id = 4 then some ⟨4, 0, .composition { layerCount := 1, layers := fun _ => 5 }⟩
  else if id = 5 then some ⟨5, 0, .layer { content := 6 }⟩
  else none

/-- The nesting content and the tone. -/
inductive NestedTone where
  | nesting
  | tone
  deriving DecidableEq

/-- There are two contents. -/
instance NestedTone.fintype : Fintype NestedTone :=
  ⟨{.nesting, .tone}, fun content => by cases content <;> decide⟩

/-- The contributions 7 of the nesting content and 5 of the tone. -/
def nestedToneContribution (id : ObjectId) : UInt64 := if id = 3 then 7 else if id = 6 then 5 else 0

/-- A ring over one of the compositions, in flat blocks of one frame. -/
def nestedToneRing (composition : ObjectId) : LookaheadRingConfig NestedTone Double where
  doc := nestedToneDoc
  turns := 1
  composition := composition
  audio := ⟨fun id => if id = 3 then some .nesting else if id = 6 then some .tone else none,
    fun _ => true⟩
  sampleRate := 48000
  layout := .stereo
  blockFrames := 1
  contribution := nestedToneContribution
  spatial := none
  nestedComposition := fun id => if id = 3 then some 4 else none
  maxDepth := 64

/-- The composition that is nested. -/
def NestedTone.child : NestedTone → Option ObjectId
  | .nesting => some 4
  | .tone => none

/-- The pull service that the ring is set up for. -/
def nestedTonePulls : PullConfig NestedTone where
  idOf := fun
    | .nesting => 3
    | .tone => 6
  inputs := fun
    | .nesting => [some .tone]
    | .tone => []
  contribution := fun
    | .nesting => 7
    | .tone => 5
  maxDepth := 64

/-- The ring and the service are set up for each other. -/
theorem wired_nestedTone (composition : ObjectId) :
    (nestedToneRing composition).Wired nestedTonePulls NestedTone.child := by
  have hresolve : ∀ id content, (nestedToneRing composition).audio.resolve id = some content →
      id = 3 ∧ content = .nesting ∨ id = 6 ∧ content = .tone := by
    intro id content h
    change (if id = 3 then some NestedTone.nesting else if id = 6 then some .tone else none) =
      some content at h
    split at h
    · exact .inl ⟨‹_›, (Option.some.inj h).symm⟩
    · split at h
      · exact .inr ⟨‹_›, (Option.some.inj h).symm⟩
      · cases h
  refine ⟨fun id content h => ?_, fun content => by cases content <;> rfl,
    fun id content h => ?_, rfl⟩
  · rcases hresolve id content h with ⟨rfl, rfl⟩ | ⟨rfl, rfl⟩ <;> rfl
  · rcases hresolve id content h with ⟨rfl, rfl⟩ | ⟨rfl, rfl⟩ <;> rfl

/-- With an empty cache the lookahead of the tone alone wants the block that is probed. -/
theorem warmsWhatIsProbed_iff_tone :
    WarmsWhatIsProbed doubleSamples (nestedToneRing 4) nestedTonePulls NestedTone.child
      (fun _ => none) 0 := by
  have hleaves : ((nestedToneRing 4).blockPulls doubleSamples NestedTone.child 0).all
      (fun p => !isOperator nestedTonePulls.inputs p.1) = true := by decide +kernel
  refine (warmsWhatIsProbed_iff (wired_nestedTone 4)).mpr ⟨fun _ => by decide, fun p hp hop => ?_,
    nofun⟩
  have hleaf := List.all_eq_true.mp hleaves p hp
  rw [hop] at hleaf
  cases hleaf

/-- The cache that the lookahead of the nested tone has warmed. -/
def warmedCache : BlockCache Double := fun key =>
  if key = ⟨3, 7, 0, 48000, 0⟩ ∨ key = ⟨6, 5, 0, 48000, 0⟩ then
    some ⟨[1, 1], 1, .stereo, 48000, ⟨48000, true⟩⟩
  else none

/-- The lookahead of the nested tone is ready, and the pull of the nesting content misses: it is
probed under the sum over the nesting content and the tone. -/
theorem not_warmsWhatIsProbed_nested :
    (nestedToneRing 1).blockReady doubleSamples warmedCache 0 = true ∧
      (compositionPulls doubleSamples (nestedToneRing 1).audio
        (nestedTonePulls.pullAudio doubleSamples warmedCache (fun s _ _ => (.deferred, s)) 0)
        nestedToneDoc 1 1 ((nestedToneRing 1).blockRequest 0) ()).map
          (fun run => run.1.any LayerPull.missing) = some true ∧
      ¬ WarmsWhatIsProbed doubleSamples (nestedToneRing 1) nestedTonePulls NestedTone.child
        warmedCache 0 := by
  have hready : (nestedToneRing 1).blockReady doubleSamples warmedCache 0 = true := by
    decide +kernel
  have hmissing : (compositionPulls doubleSamples (nestedToneRing 1).audio
      (nestedTonePulls.pullAudio doubleSamples warmedCache (fun s _ _ => (.deferred, s)) 0)
      nestedToneDoc 1 1 ((nestedToneRing 1).blockRequest 0) ()).map
        (fun run => run.1.any LayerPull.missing) = some true := by
    decide +kernel
  refine ⟨hready, hmissing, fun h => ?_⟩
  obtain ⟨⟨pulls, s⟩, hrun, hany⟩ := Option.map_eq_some_iff.mp hmissing
  obtain ⟨-, hnone⟩ := h.noSilence hready Unit _ _ _ _ hrun
  rw [hany] at hnone
  cases hnone

end ArbitraryComposer
