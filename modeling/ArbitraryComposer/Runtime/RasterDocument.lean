import ArbitraryComposer.Runtime.CodecRaster.Correctness
import ArbitraryComposer.ToMathlib.Machine

/-!
# Sessions of a Document with Raster Layers

Runs of loads, edits and saves of one document. A save opens with its context, runs the codec
of one content after the other, and ends in a document text, or fails at the first content
that does. Contents come into being fresh or by a load, which is followed by the parameters-only
run of the codec that recovers unknown fields.

## Main definitions

- `RasterDocument`: the session, the save under way and the texts saved so far.
- `rasterDocument`: the machine of a document.
- `RasterEvent.LoadReadsBack`: the side condition of a load that keeps the memo honest.

## Main results

- `RasterDocument.step_inv`, `RasterDocument.reachable_inv`: the invariant.
-/

namespace ArbitraryComposer

open Exec

/-- What a save has listed: its context and the blob names of its contents. -/
structure SavedText where
  /-- The context of the save. -/
  ctx : SaveContext
  /-- The names listed so far. -/
  blobs : List String
  deriving DecidableEq

/-- A document being edited, loaded into and saved. -/
structure RasterDocument where
  /-- Contents, pools, memo and sinks. -/
  session : RasterSession
  /-- The save under way. -/
  saving : Option SavedText
  /-- The texts of the saves that returned success. -/
  texts : List SavedText

/-- A step of a document session. -/
inductive RasterEvent where
  /-- A fresh content over the given tiles. -/
  | create (c width height edge : ℕ) (tiles : List (List (List UInt32)))
  /-- A content is read from a document at `baseUri`. -/
  | load (c : ℕ) (baseUri : String) (storage : PixelFormat) (input : RasterInput)
  /-- The writer thread edits a content. -/
  | edit (e : WriterEdit)
  /-- A save begins. -/
  | beginSave (baseUri : String) (sink : Option ℕ) (storage : PixelFormat)
  /-- The running save comes to the content `c`; `schedule` is what the writer thread does
  meanwhile. -/
  | savePass (c : ℕ) (schedule : List (List WriterEdit))
  /-- Every content has been saved. -/
  | finishSave

section Programs

variable (prims : BlobPrimitives) (resolveUri : String → String → String)

/-- `RasterStore::build`: the first version of a fresh content. -/
def createContent (c width height edge : ℕ) (tiles : List (List (List UInt32))) :
    SessionExec Unit := do
  let table ← onWorld (onPool c (buildTable writerThread width height edge tiles))
  setContent c ⟨[some table], 0⟩

/-- The context of the parameters-only run that follows a load. -/
def paramsContext (baseUri : String) (storage : PixelFormat) : SaveContext :=
  ⟨baseUri, none, storage, true⟩

/-- `content_body_from_json` of the raster kind: the load, then the parameters-only run, whose
failure is not an error. -/
def readContent (c : ℕ) (baseUri : String) (storage : PixelFormat) (input : RasterInput) :
    SessionExec Unit := do
  deserializeRaster prims c storage input
  attempt (serializeRaster prims resolveUri c (paramsContext baseUri storage))

/-- One step of a document. A content is created once, and one save is under way at a time;
what stops the program has no next state. -/
def RasterDocument.step (e : RasterEvent) (d : RasterDocument) : Option RasterDocument :=
  match e with
  | .create c width height edge tiles =>
    if (d.session.contents c).versions = [] then
      ((createContent c width height edge tiles).run d.session).state?.map
        fun s => { d with session := s }
    else
      none
  | .load c baseUri storage input =>
    if (d.session.contents c).versions = [] then
      ((readContent prims resolveUri c baseUri storage input).run d.session).state?.map
        fun s => { d with session := s }
    else
      none
  | .edit e => ((applyEdit e).run d.session).state?.map fun s => { d with session := s }
  | .beginSave baseUri sink storage =>
    if d.saving.isNone then
      some { d with saving := some ⟨⟨baseUri, sink, storage, false⟩, []⟩ }
    else
      none
  | .savePass c schedule =>
    match d.saving with
    | none => none
    | some text =>
      match (serializeRaster prims resolveUri c text.ctx).run { d.session with schedule } with
      | .ok params s =>
        some { d with session := s, saving := some ⟨text.ctx, text.blobs ++ params.blobs⟩ }
      | .error _ s => some { d with session := s, saving := none }
      | .fault _ => none
  | .finishSave => d.saving.map fun text => { d with saving := none, texts := text :: d.texts }

/-- A document without contents, over any chunk sources and any sinks. -/
def RasterDocument.IsStart (d : RasterDocument) : Prop :=
  (∀ c, ∃ source, d.session.world.pool c = BigBlockPool.init source) ∧
    d.session.world.tiles = RasterTileStore.init ∧
    (∀ c, (d.session.contents c).versions = []) ∧ d.saving = none ∧ d.texts = []

/-- The machine of a document. -/
def rasterDocument : Machine RasterDocument RasterEvent where
  start := RasterDocument.IsStart
  step := RasterDocument.step prims resolveUri

end Programs

/-! ## The invariant of every session -/

variable {prims : BlobPrimitives} {resolveUri : String → String → String} {R : Prop}
  {d d' : RasterDocument} {s s' : RasterSession} {c : ℕ}

theorem createContent_spec {width height edge : ℕ} {tiles : List (List (List UInt32))}
    (h : s.Inv prims R) (hfresh : (s.contents c).versions = []) :
    wp (createContent c width height edge tiles) (fun _ s' => s'.Inv prims R ∧ s'.sinks = s.sinks)
      (fun _ _ => False) poolFault s := by
  have hslots : (s.contents c).slots = 0 := by rw [RasterContent.slots, hfresh]; rfl
  have hown := h.owned c
  simp only [hslots, add_zero] at hown
  simp only [createContent, onWorld, onPool, setContent, wp_bind, wp_zoom]
  refine wp_imp (buildTable_spec hown) (fun table p hp => ?_) fun _ _ h => h
  refine ⟨h.setPool ?_ hp.2.1, rfl⟩
  simpa [RasterContent.slots, add_comm] using hp.1

/-- A load and the parameters-only run after it keep the invariant and every blob. -/
theorem readContent_spec {baseUri : String} {storage : PixelFormat} {input : RasterInput}
    (h : s.Inv prims R) (hfresh : (s.contents c).versions = [])
    (hrb : R → input.ReadsBack prims storage) :
    wp (readContent prims resolveUri c baseUri storage input)
      (fun _ s' => s'.Inv prims R ∧ SinksGrow s.sinks s'.sinks)
      (fun _ s' => s'.Inv prims R ∧ SinksGrow s.sinks s'.sinks) poolFault s := by
  simp only [readContent, wp_bind, wp_attempt]
  refine wp_imp (deserializeRaster_spec h hfresh hrb) (fun _ s₁ h₁ => ?_) fun _ s₁ h₁ => ?_
  · rw [← h₁.2.1]
    exact wp_imp (serializeRaster_spec h₁.1) (fun _ _ h₂ => ⟨h₂.1, h₂.2.1⟩) fun _ _ h₂ => h₂
  · rw [h₁]
    exact ⟨h, .refl⟩

theorem RasterSession.Inv.withSchedule (h : s.Inv prims R) (schedule : List (List WriterEdit)) :
    RasterSession.Inv prims R { s with schedule } :=
  ⟨h.owned, h.honest⟩

theorem RasterDocument.IsStart.inv (h : d.IsStart) : d.session.Inv prims R := by
  obtain ⟨hpool, htiles, hcontents, -⟩ := h
  refine ⟨fun c => ?_, fun _ e he => ?_⟩
  · obtain ⟨source, hsource⟩ := hpool c
    have hslots : (d.session.contents c).slots = 0 := by rw [RasterContent.slots, hcontents]; rfl
    simp only [hsource, htiles, hslots]
    exact BigBlockPool.owned_init source
  · rw [htiles] at he
    cases he

/-- The load reads blobs that read back. -/
def RasterEvent.LoadReadsBack (prims : BlobPrimitives) : RasterEvent → Prop
  | .load _ _ storage input => input.ReadsBack prims storage
  | _ => True

instance : ∀ e : RasterEvent, Decidable (e.LoadReadsBack prims)
  | .load _ _ storage input => inferInstanceAs (Decidable (input.ReadsBack prims storage))
  | .create .. | .edit _ | .beginSave .. | .savePass .. | .finishSave => .isTrue trivial

/-- What a step does to a session: the invariant is kept, and no sink loses a blob. -/
def RasterSession.Advances (prims : BlobPrimitives) (R : Prop) (s s' : RasterSession) : Prop :=
  s'.Inv prims R ∧ SinksGrow s.sinks s'.sinks

/-- A step advances the session. -/
theorem RasterDocument.step_inv {e : RasterEvent} (h : d.session.Inv prims R)
    (hrb : R → e.LoadReadsBack prims) (hs : d.step prims resolveUri e = some d') :
    d.session.Advances prims R d'.session := by
  cases e with
  | create c width height edge tiles =>
    simp only [step] at hs
    split at hs
    · rename_i hfresh
      obtain ⟨s', hrun, rfl⟩ := Option.map_eq_some_iff.mp hs
      refine of_wp_state (P := d.session.Advances prims R) (wp_imp (createContent_spec h hfresh) (fun _ s' h' => ?_) ?_) hrun
      · exact ⟨h'.1, by rw [h'.2]; exact .refl⟩
      · exact fun _ _ h => h.elim
    · cases hs
  | load c baseUri storage input =>
    simp only [step] at hs
    split at hs
    · rename_i hfresh
      obtain ⟨s', hrun, rfl⟩ := Option.map_eq_some_iff.mp hs
      exact of_wp_state (P := d.session.Advances prims R) (readContent_spec h hfresh hrb) hrun
    · cases hs
  | edit e =>
    obtain ⟨s', hrun, rfl⟩ := Option.map_eq_some_iff.mp hs
    refine of_wp_state (P := d.session.Advances prims R) (wp_imp (applyEdit_spec e h) (fun _ s' h' => ?_) ?_) hrun
    · exact ⟨h'.1, by rw [h'.2.sinks_eq]; exact .refl⟩
    · exact fun _ _ h => h.elim
  | beginSave baseUri sink storage =>
    simp only [step] at hs
    split at hs
    · cases hs
      exact ⟨h, .refl⟩
    · cases hs
  | savePass c schedule =>
    simp only [step] at hs
    split at hs
    · cases hs
    · have hstart := h.withSchedule schedule
      split at hs
      · rename_i hrun
        cases hs
        have h' := of_wp_ok (serializeRaster_spec hstart) hrun
        exact ⟨h'.1, h'.2.1⟩
      · rename_i hrun
        cases hs
        have h' := of_wp_error (serializeRaster_spec hstart) hrun
        exact ⟨h'.1, h'.2⟩
      · cases hs
  | finishSave =>
    obtain ⟨text, -, rfl⟩ := Option.map_eq_some_iff.mp hs
    exact ⟨h, .refl⟩

/-- Every session state reached satisfies the invariant. -/
theorem RasterDocument.reachable_inv {allowed : RasterEvent → RasterDocument → Prop}
    (h : (rasterDocument prims resolveUri).Reachable allowed d)
    (hrb : R → ∀ e d, allowed e d → e.LoadReadsBack prims) : d.session.Inv prims R :=
  h.invariant (fun _ => IsStart.inv) fun _ e _ hi ha hs =>
    (step_inv hi (fun hR => hrb hR e _ ha) hs).1

end ArbitraryComposer
