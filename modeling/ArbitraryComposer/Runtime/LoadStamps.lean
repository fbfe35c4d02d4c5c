import ArbitraryComposer.Model.Publication
import ArbitraryComposer.Runtime.FailedLoad

/-!
# The Stamps of a Load

The sink of a load commits every content at a revision of its own, and the baseline is then
published as revision zero again. So the record of a content keeps a stamp that the counter reaches
a second time. Only a text without contents is loaded with stamps that are sound cache keys.

## Main definitions

- `hasContents`: whether a layer of the root composition has a content.
- `loadedModel`: the runs of edits after a load.

## Main results

- `load_stamps_sound`: the stamps after a load without contents.
- `not_load_stamps_sound`: one content is enough.
-/

namespace ArbitraryComposer

open Exec

variable {κ : Type}

/-- A layer of the root composition has a content. -/
def hasContents (parsed : Option Json) : Bool :=
  match parseDocument parsed with
  | .error _ => false
  | .ok text => ((text.find "composition").bind fun body =>
      (parseLayers body).findSome? LayerData.contentBody).isSome

/-- A document that was loaded into, as a model with the record of what the load published. -/
def LoadingDocument.published (d : LoadingDocument κ) : Model × Publications :=
  (d.model, ⟨d.history, fun _ => none, []⟩)

/-- What happens to a new document after a load that was accepted. -/
def loadedModel (cfg : LoadConfig κ) (parsed : Option Json) (baseUri : String)
    (assets : Option AssetSource) : Machine (Model × Publications) ModelEvent where
  start p := ∃ d d' : LoadingDocument κ, d.IsFresh ∧
    (loadDocument cfg parsed baseUri assets).run d = .ok () d' ∧ p = d'.published
  step := publicationModel.step

/-! ## The load -/

section

variable {cfg : LoadConfig κ} {parsed : Option Json} {baseUri : String}
  {assets : Option AssetSource}

/-- The records, the working state and the stamps of a model fit what it published. -/
structure SoundlyStamped (p : Model × Publications) : Prop where
  /-- The model keeps its invariant. -/
  inv : p.1.Inv
  /-- Its drafts fit their bases. -/
  wf : p.1.session.Wf
  /-- Its stamps are in order. -/
  stamped : p.1.session.Stamped p.2

/-- A baseline on a new document. -/
theorem loadBaseline_stamped {d : LoadingDocument κ} (hd : d.IsFresh) (thread : ℕ)
    (ms : List Mutator) :
    wp (onModel (loadBaseline thread ms))
      (fun _ d' => SoundlyStamped d'.rejournaled.published) (fun _ _ => True) (fun _ => True)
      (d.seeded assets baseUri) := by
  have hstart := Session.Stamped.of_isStart hd.model
  have hwf : (d.seeded assets baseUri).model.session.Wf := by
    obtain ⟨_, _, _, _, _, _, _, -, hmodel⟩ := hd.model
    refine ⟨?_, ?_, ?_⟩ <;> intro o ho <;>
    · simp [LoadingDocument.seeded, Model.session, hmodel, Model.init] at ho
  have hcurrent : (d.seeded assets baseUri).model.session.current = 0 := by
    obtain ⟨_, _, _, _, _, _, _, -, hmodel⟩ := hd.model
    show d.model.current = 0
    rw [hmodel]
    rfl
  simp only [onModel, wp_zoom]
  refine wp_mono (Model.loadBaseline_spec hd.inv) (fun _ m hm => ?_) (fun _ _ _ => trivial)
    fun _ _ => trivial
  obtain ⟨⟨hinv, hstep⟩, -⟩ := hm
  have hempty : (d.seeded assets baseUri).model.session.Stamped ⟨[], fun _ => none, []⟩ :=
    hstart.congr false rfl
  have hstamped := hempty.step_of_inOrder (e := .loadBaseline thread ms) hwf hcurrent hstep
  refine ⟨⟨hinv.owned, hinv.version_isMap, hinv.transaction_isMap, hinv.holders, hinv.current_eq,
    hinv.cursor_le⟩, ?_, ?_⟩
  · have hwf' := hstep.wf hwf
    exact ⟨hwf'.base_le, hwf'.base_eq, hwf'.framed⟩
  · refine hstamped.congr true ?_
    show ((d.seeded assets baseUri).withModel m).history = _
    have hhistory : (d.seeded assets baseUri).history = [] := hd.history
    unfold LoadingDocument.withModel
    by_cases hsame : m.current = (d.seeded assets baseUri).model.current
    · rw [if_pos hsame, Session.record_of_eq hsame]
      exact hhistory
    · rw [if_neg hsame, Session.record_of_ne hsame, hhistory]

/-- A read of a text without contents. -/
theorem readDocument_stamped (hcontents : hasContents parsed = false) {d : LoadingDocument κ}
    (hd : d.IsFresh) :
    wp (readDocument cfg parsed (String.ofList (normalizeUri baseUri.toList)) 1)
      (fun _ d' => SoundlyStamped d'.rejournaled.published) (fun _ _ => True) (fun _ => True)
      (d.seeded assets baseUri) := by
  unfold readDocument
  rw [wp_bind]
  refine wp_orThrow (fun text htext => ?_) fun _ _ => trivial
  rw [wp_bind]
  refine wp_orThrow (fun format _ => ?_) fun _ _ => trivial
  rw [wp_bind]
  have hfirst : (text.find "composition").bind (firstContent text) = none := by
    rw [hasContents, htext] at hcontents
    cases hbody : text.find "composition" with
    | none => rfl
    | some body =>
      simp only [hbody, Option.bind_some, Option.isSome_eq_false_iff, Option.isNone_iff_eq_none]
        at hcontents
      simp [firstContent, hcontents]
  refine wp_imp (resolveGraph_first (returns_loadReference cfg _ _)
    (evolves_loadReference cfg _ _) text hd.blank hd.requests rfl) (fun graph d' hd' => ?_)
    fun _ _ _ => trivial
  have hstays : textStays cfg assets (String.ofList (normalizeUri baseUri.toList)) text = false := by
    unfold textStays
    rw [hfirst]
    split <;> rfl
  rw [hstays] at hd'
  obtain rfl : d' = d.seeded assets baseUri := hd'
  rw [wp_bind, wp_gets]
  dsimp only
  rw [wp_bind]
  exact wp_imp (loadBaseline_stamped hd cfg.thread _) (fun _ _ h => h) fun _ _ _ => trivial

/-! ## Runs after the load -/

theorem SoundlyStamped.of_start {p : Model × Publications}
    (hcontents : hasContents parsed = false)
    (h : (loadedModel cfg parsed baseUri assets).start p) : SoundlyStamped p := by
  obtain ⟨d, d', hd, hload, rfl⟩ := h
  have hread : wp (readDocument cfg parsed (String.ofList (normalizeUri baseUri.toList)) 1)
      (fun _ d' => SoundlyStamped d'.rejournaled.published) (fun _ _ => True) (fun _ => True)
      (d.seeded assets baseUri) := readDocument_stamped hcontents hd
  exact of_wp_ok (wp_loadDocument hd (Q := fun _ d' => SoundlyStamped d'.published)
    (E := fun _ _ => True) hread) hload

theorem SoundlyStamped.step {p p' : Model × Publications} {e : ModelEvent} (h : SoundlyStamped p)
    (ha : p.1.session.InOrder e) (hs : publicationModel.step e p = some p') :
    SoundlyStamped p' := by
  obtain ⟨hstep, hrecord⟩ := Machine.observe_step_eq_some.mp hs
  obtain ⟨hinv, hsession⟩ := Model.step_spec h.inv hstep
  refine ⟨hinv, hsession.wf h.wf, ?_⟩
  rw [hrecord]
  exact h.stamped.step_of_inOrder h.wf ha hsession

/-- The load of a text without contents leaves every stamp at or below the revision, and no later
edit that commits on the current version makes a stamp an object had with another record. -/
theorem load_stamps_sound (cfg : LoadConfig κ) {parsed : Option Json}
    (hcontents : hasContents parsed = false) (baseUri : String) (assets : Option AssetSource)
    {p : Model × Publications}
    (h : (loadedModel cfg parsed baseUri assets).Reachable
      (fun e p => p.1.session.InOrder e) p) :
    (∀ k r, p.1.session.map k = some r → r.revision ≤ p.1.session.revision) ∧
      ∀ v ∈ p.2.maps, ∀ v' ∈ p.2.maps, ∀ k r r', v k = some r → v' k = some r' →
        r.revision = r'.revision → r = r' := by
  have hsound := h.invariant (I := SoundlyStamped) (fun _ => .of_start hcontents)
    fun _ _ _ hp ha hs => hp.step ha hs
  refine ⟨fun k r hr => hsound.stamped.stamp_le k r (hsound.stamped.map_occurs k r hr), ?_⟩
  exact fun v hv v' hv' k r r' hr hr' =>
    hsound.stamped.sound k r r' ⟨v, hv, hr⟩ ⟨v', hv', hr'⟩

end

/-! ## A text without layers, and one with a layer -/

/-- A composition without layers. -/
def emptyText : Json := .object [("arbc", .object [("format", .integer 1)]),
  ("composition", .object [])]

/-- A composition with one layer. -/
def solidText : Json := .object [("arbc", .object [("format", .integer 1)]),
  ("composition", .object [("layers", .array [.object [("kind", .string "solid")]])])]

/-- A composition is added to what was loaded. -/
def addedRun : List ModelEvent := [.transact, .mutate 0 0 (.addComposition 1 1), .commit 0]

/-- A state after a load is found by executing the load and the events. -/
private theorem exists_loaded (parsed : Option Json) (events : List ModelEvent)
    (q : Model × Publications → Bool)
    (h : (match (loadDocument solidOnly parsed "" none).run newDocument with
      | .ok _ d' =>
        decide ((loadedModel solidOnly parsed "" none).RunAllowed
          (fun e p => p.1.session.InOrder e) events d'.published) &&
            ((loadedModel solidOnly parsed "" none).run events d'.published).any q
      | _ => false) = true) :
    ∃ p, (loadedModel solidOnly parsed "" none).Reachable (fun e p => p.1.session.InOrder e) p ∧
      q p = true := by
  split at h
  case h_1 d' hload =>
    obtain ⟨ha, hq⟩ := Bool.and_eq_true_iff.mp h
    have hstart : (loadedModel solidOnly parsed "" none).start d'.published :=
      ⟨newDocument, d', newDocument_isFresh, hload, rfl⟩
    exact Machine.exists_reachable _ events q hstart (of_decide_eq_true ha) hq
  case h_2 => cases h

theorem load_stamps_sound_addedRun : ∃ p, (loadedModel solidOnly (some emptyText) "" none).Reachable
    (fun e p => p.1.session.InOrder e) p ∧ p.1.session.revision = 1 ∧
      (∀ k r, p.1.session.map k = some r → r.revision ≤ p.1.session.revision) ∧
      ∀ v ∈ p.2.maps, ∀ v' ∈ p.2.maps, ∀ k r r', v k = some r → v' k = some r' →
        r.revision = r'.revision → r = r' := by
  obtain ⟨p, hp, hrevision⟩ := exists_loaded (some emptyText) addedRun
    (fun p => p.1.session.revision == 1) (by decide +kernel)
  have hcontents : hasContents (some emptyText) = false := by decide +kernel
  exact ⟨p, hp, beq_iff_eq.mp hrevision, load_stamps_sound solidOnly hcontents "" none hp⟩

/-- The content of a layer has a stamp above the revision right after the load. -/
theorem not_load_stamps_sound : ¬ ∀ (parsed : Option Json) (p : Model × Publications),
    (loadedModel solidOnly parsed "" none).Reachable (fun e p => p.1.session.InOrder e) p →
      ∀ k r, p.1.session.map k = some r → r.revision ≤ p.1.session.revision := by
  intro h
  obtain ⟨p, hp, hq⟩ := exists_loaded (some solidText) [] (fun p =>
    (p.1.session.map 2).any fun r => decide (p.1.session.revision < r.revision))
    (by decide +kernel)
  obtain ⟨r, hr, hlt⟩ := (Option.any_eq_true _ _).mp hq
  exact absurd (h _ p hp 2 r hr) (Nat.not_le_of_lt (of_decide_eq_true hlt))

end ArbitraryComposer
