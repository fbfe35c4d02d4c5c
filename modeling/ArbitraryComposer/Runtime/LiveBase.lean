import ArbitraryComposer.KindRaster.RasterVersions
import ArbitraryComposer.Model.LiveState

/-!
# The Live Base of a Raster

A raster paints on a live base of its own and tells the document afterwards: a paint interns the
new tiles as a version, sets that version as the state of the content in a transaction, and moves
the base to it at once. What becomes of the transaction does not reach the base; only undo and
redo, which restore the state they lead to, move it again.

The calls that an event makes on the state sink are one list of `retain` and then one of `release`:
only a mutator retains, and it retains before it can give up a record of a content. A paint is any
function of the tiles; `RasterContent::resample` is one that may decline.

## Main definitions

- `LiveBase`: the model, the versions of the raster and its base.
- `LiveBaseEvent`, `liveBase`: what happens to them, and the machine of all runs.
- `LiveBase.Counted`: the versions are counted for the records that name them.
- `LiveBase.Follows`: the base is where the history says.
- `LiveBase.Orderly`: the events that do not part the base from the document.

## Main results

- `followsDocument`: in runs of orderly events the raster follows the document.
- `not_followsDocument`: a transaction that painted and is aborted leaves the base behind.
-/

namespace ArbitraryComposer

open Exec Arena

variable {τ : Type}

/-- A raster that is attached to a model. -/
structure LiveBase (τ : Type) where
  /-- The model and its journal. -/
  model : Model
  /-- The versions of the raster's tiles. -/
  versions : VersionTable τ
  /-- `d_base`. -/
  base : StateHandle
  /-- Whether the content of the raster has been added. -/
  added : Bool

/-- What happens to a raster and its model. -/
inductive LiveBaseEvent (τ : Type) where
  /-- An event of the model. -/
  | model (e : ModelEvent)
  /-- The content of the raster is added in a transaction, with the state it captures. -/
  | add (t i : ℕ) (kind : UInt64)
  /-- `RasterContent::paint` in a transaction; the new tiles are those of the function. -/
  | paint (t i : ℕ) (f : τ → τ)

namespace LiveBase

/-- The handles of one content in the calls that are new, in the order of the calls. -/
def callsTo (self : ObjectId) (old new : List (ObjectId × StateHandle)) : List StateHandle :=
  ((new.take (new.length - old.length)).reverse.filter fun p => p.1 = self).map Prod.snd

/-- The model has taken a step, and the raster the calls on its versions. -/
def after (self : ObjectId) (s : LiveBase τ) (m : Model) : LiveBase τ :=
  { s with
    model := m
    versions := s.versions.calls (callsTo self s.model.retains m.retains)
      (callsTo self s.model.releases m.releases) }

/-- `RasterContent::restore`. -/
def restore (s : LiveBase τ) (h : StateHandle) : LiveBase τ :=
  match s.versions.resolve h with
  | some table => { s with base := h, versions := s.versions.setBase (some table) }
  | none => s

/-- The loop over the restore sink after a navigation. -/
def restoreAll (self : ObjectId) (side : ContentStateEdit → StateHandle) (s : LiveBase τ)
    (contents : List ContentStateEdit) : LiveBase τ :=
  contents.foldl (fun s ce => if ce.object = self then s.restore (side ce) else s) s

/-- The raster after an event of the model; an undo or a redo that published restores. -/
def follow (self : ObjectId) (e : ModelEvent) (s : LiveBase τ) (m : Model) : LiveBase τ :=
  let s' := s.after self m
  let journal := s.model.journal
  if m.current = s.model.current then
    s'
  else
    match e with
    | .undo _ =>
      match journal.entries[journal.cursor - 1]? with
      | some stored => s'.restoreAll self ContentStateEdit.before stored.entry.contents
      | none => s'
    | .redo _ =>
      match journal.entries[journal.cursor]? with
      | some stored => s'.restoreAll self ContentStateEdit.after stored.entry.contents
      | none => s'
    | _ => s'

/-- The tiles that are painted on: those of the base, or the base table. -/
def source (s : LiveBase τ) : Option τ := (s.versions.resolve s.base).or s.versions.baseTable

/-- The events of the model that others cause: the raster alone sets its state, and no baseline is
loaded. -/
def Foreign (self : ObjectId) : ModelEvent → Prop
  | .mutate _ _ (.setContentState c _) => c ≠ self
  | .loadBaseline _ _ => False
  | _ => True

instance (self : ObjectId) (e : ModelEvent) : Decidable (Foreign self e) := by
  unfold Foreign
  rcases e with _ | ⟨_, _, ⟨⟩⟩ <;> infer_instance

/-- `RasterContent::paint`: the version is interned and set as the state, and the base moves. -/
def paint (self : ObjectId) (t i : ℕ) (f : τ → τ) (s : LiveBase τ) : Option (LiveBase τ) := do
  let tiles ← s.source
  let (h, versions) := s.versions.intern (f tiles)
  let m ← docModel.step (.mutate t i (.setContentState self h)) s.model
  let s := ({ s with versions }).after self m
  pure { s with base := h, versions := s.versions.setBase (s.versions.resolve h) }

/-- The content of the raster is added under the next id, and its state is set. -/
def add (self : ObjectId) (t i : ℕ) (kind : UInt64) (s : LiveBase τ) : Option (LiveBase τ) := do
  let m ← docModel.step (.mutate t i (.addContent kind)) s.model
  let s := { s.after self m with added := true }
  let m ← docModel.step (.mutate t i (.setContentState self s.base)) s.model
  pure (s.after self m)

/-- What an event does. The id of the content is the one that adding it returned. -/
def step (self : ObjectId) : LiveBaseEvent τ → LiveBase τ → Option (LiveBase τ)
  | .model e, s =>
    if Foreign self e then (docModel.step e s.model).map (s.follow self e) else none
  | .add t i kind, s =>
    if s.added = false ∧ s.model.nextId = self then s.add self t i kind else none
  | .paint t i f, s => if s.added then s.paint self t i f else none

end LiveBase

/-- All runs of a raster and its model. -/
def liveBase (τ : Type) (self : ObjectId) : Machine (LiveBase τ) (LiveBaseEvent τ) where
  start s := s.model.IsStart ∧ s.added = false ∧
    ∃ table, s.versions = .build table ∧ s.base = ⟨0⟩
  step := LiveBase.step self

/-! ## Counts -/

/-- Calls of some kind are calls of a wider kind. -/
theorem Logged.mono {P Q : ObjectId × StateHandle → Prop} {A A' : Heap} (h : Logged P A A')
    (himp : ∀ p, P p → Q p) : Logged Q A A' := by
  obtain ⟨calls, hP, hmade, hretained, hzeroed⟩ := h
  exact ⟨calls, fun p hp => himp p (hP p hp), hmade, hretained, hzeroed⟩

namespace LiveBase

variable {self : ObjectId} {s s' : LiveBase τ} {m : Model} {h : StateHandle} {e : ModelEvent}

/-- The records in use that name a version of the raster. -/
def named (self : ObjectId) (m : Model) (h : StateHandle) : Finset (ℕ × ℕ) :=
  m.carriers fun p => p == (self, h)

/-- The versions are counted for the records in use that name them, and the base is the handle of
a slot whose tiles, as long as they are there, are the base table. -/
structure Counted (own : ObjectId) (s : LiveBase τ) : Prop where
  /-- The model is in a state of a run. -/
  reachable : docModel.Reachable Machine.anyEvent s.model
  /-- The slots are in order. -/
  wf : s.versions.Wf
  /-- A version is counted for every record that names it. -/
  counted : ∀ h, s.versions.refcount h = (named own s.model h).card
  /-- The base is a slot. -/
  base_hasState : s.base.hasState = true
  /-- The base table is that of the base. -/
  baseTable_eq : s.versions.resolve s.base ≠ none → s.versions.baseTable = s.versions.resolve s.base
  /-- Before the content is added nothing names a version, and the base is there. -/
  fresh : s.added = false → (∀ h, named own s.model h = ∅) ∧ s.versions.resolve s.base ≠ none

/-- A version that a record names has its tiles. -/
theorem Counted.resolve_ne_none (hs : s.Counted self) (hn : (named self s.model h).Nonempty) :
    s.versions.resolve h ≠ none := by
  intro hr
  have hcard := hs.counted h
  rw [hs.wf.refcount_eq_zero hr] at hcard
  exact (Finset.card_pos.mpr hn).ne hcard

/-- The calls that are new, one handle at a time. -/
private theorem count_callsTo {calls old : List (ObjectId × StateHandle)} :
    (callsTo self old (calls ++ old)).count h = calls.countP fun p => p == (self, h) := by
  have htake : (calls ++ old).take ((calls ++ old).length - old.length) = calls := by
    rw [List.length_append, Nat.add_sub_cancel, List.take_left]
  rw [callsTo, htake, List.count, List.countP_map, List.countP_filter, List.countP_reverse]
  refine List.countP_congr fun p _ => ?_
  simp only [Function.comp_apply, Bool.and_eq_true, beq_iff_eq, decide_eq_true_iff, Prod.ext_iff]
  exact and_comm

/-- A step of the model whose calls for the content are for versions that have tiles: the counts
stay right, and what a record still names keeps its tiles. -/
theorem Counted.after (hs : s.Counted self) (hstep : docModel.step e s.model = some m)
    (hlog : Logged (fun p => p.1 = self → s.versions.resolve p.2 ≠ none) s.model.arena m.arena)
    (hadded : s.added = false → Logged (fun p => p.1 ≠ self) s.model.arena m.arena) :
    (s.after self m).Counted self ∧ ∀ h, (named self m h).Nonempty →
      (s.after self m).versions.resolve h = s.versions.resolve h := by
  have hreach : docModel.Reachable Machine.anyEvent m := hs.reachable.step e trivial hstep
  obtain ⟨calls, hcalls, -, hretained, old, hzeroed⟩ := hlog
  have hretains : m.retains = calls ++ s.model.retains := hretained
  have hreleases : m.releases = old.filterMap Object.carried ++ s.model.releases := by
    rw [Model.releases, ← hzeroed, List.filterMap_append]
    rfl
  -- the calls for one handle are the change of the number of records that name it
  have hcount (h : StateHandle) : (named self s.model h).card +
      (callsTo self s.model.retains m.retains).count h =
        (callsTo self s.model.releases m.releases).count h + (named self m h).card := by
    have hold := Model.retains_eq hs.reachable fun p => p == (self, h)
    have hnew := Model.retains_eq hreach fun p => p == (self, h)
    rw [hretains, hreleases, List.countP_append, List.countP_append] at hnew
    rw [hretains, hreleases, count_callsTo, count_callsTo]
    unfold named
    omega
  have hthere : ∀ h ∈ callsTo self s.model.retains m.retains, s.versions.resolve h ≠ none := by
    intro h hh
    have hpos := List.count_pos_iff.mpr hh
    rw [hretains, count_callsTo, List.countP_pos_iff] at hpos
    obtain ⟨p, hp, heq⟩ := hpos
    obtain rfl := eq_of_beq heq
    exact hcalls _ hp rfl
  have hcovered (h : StateHandle) : (callsTo self s.model.releases m.releases).count h ≤
      s.versions.refcount h + (callsTo self s.model.retains m.retains).count h := by
    rw [hs.counted h]
    have := hcount h
    omega
  obtain ⟨hwf, hspec⟩ := VersionTable.calls_spec hs.wf hthere hcovered
  have hkeep (h : StateHandle) (hn : (named self m h).Nonempty) :
      (s.after self m).versions.resolve h = s.versions.resolve h := by
    refine (hspec h).2.trans (if_neg fun hc => ?_)
    rw [hs.counted h] at hc
    have := hcount h
    have := Finset.card_pos.mpr hn
    omega
  refine ⟨⟨hreach, hwf, fun h => ?_, hs.base_hasState, fun hbase => ?_, fun hnew => ?_⟩, hkeep⟩
  · show _ = (named self m h).card
    refine (hspec h).1.trans ?_
    rw [hs.counted h]
    have := hcount h
    omega
  · have hb := (hspec s.base).2
    have hbase : (s.versions.calls _ _).resolve s.base ≠ none := hbase
    show (s.versions.calls _ _).baseTable = (s.versions.calls _ _).resolve s.base
    rw [VersionTable.baseTable_calls]
    rw [hb] at hbase ⊢
    by_cases hc : s.base ∈ callsTo self s.model.releases m.releases ∧ s.versions.refcount s.base +
        (callsTo self s.model.retains m.retains).count s.base =
          (callsTo self s.model.releases m.releases).count s.base
    · rw [if_pos hc] at hbase
      exact absurd rfl hbase
    · rw [if_neg hc] at hbase ⊢
      exact hs.baseTable_eq hbase
  -- nothing is retained for the content, so nothing can be released for it
  · obtain ⟨hnone, hbase⟩ := hs.fresh hnew
    have hretain (h : StateHandle) : (callsTo self s.model.retains m.retains).count h = 0 := by
      obtain ⟨calls, hcalls, -, hretained, -⟩ := hadded hnew
      rw [show m.retains = calls ++ s.model.retains from hretained, count_callsTo,
        List.countP_eq_zero]
      intro p hp heq
      exact hcalls p hp (congrArg Prod.fst (eq_of_beq heq))
    have hzero (h : StateHandle) : (callsTo self s.model.releases m.releases).count h = 0 ∧
        (named self m h).card = 0 := by
      have := hcount h
      rw [hretain, hnone, Finset.card_empty] at this
      omega
    refine ⟨fun h => Finset.card_eq_zero.mp (hzero h).2, ?_⟩
    rw [show (s.after self m).versions.resolve (s.after self m).base = _ from (hspec s.base).2,
      if_neg fun hc => List.count_eq_zero.mp (hzero _).1 hc.1]
    exact hbase

/-- What the events of others call for. -/
theorem Counted.logged_foreign (hs : s.Counted self) (hf : Foreign self e)
    (hstep : docModel.step e s.model = some m) :
    Logged (fun p => p.1 = self → s.versions.resolve p.2 ≠ none) s.model.arena m.arena ∧
      (s.added = false → Logged (fun p => p.1 ≠ self) s.model.arena m.arena) := by
  have hinv := Model.reachable_inv hs.reachable
  have hkeyed := Model.keyed_of_reachable hs.reachable
  have hnone (hcalls : e.Calls fun _ => False) : Logged (fun _ => False) s.model.arena m.arena :=
    Model.logged_of_step hcalls hstep
  cases e with
  | mutate t i mu =>
    have hmu : ∀ st, mu ≠ .setContentState self st := by
      rintro st rfl
      exact hf rfl
    have hlog := Model.logged_edit hinv hstep hmu
    have hnamed {p : ObjectId × StateHandle} (hp : p.1 = self → ∃ d, s.model.session.draft? i =
        some d ∧ d.map.stateAt self = some p.2) (hself : p.1 = self) :
        (named self s.model p.2).Nonempty := by
      obtain ⟨d, hd, hst⟩ := hp hself
      exact hinv.nonempty_carriers_of_draft hkeyed hd hst
    refine ⟨hlog.mono fun p hp hself => hs.resolve_ne_none (hnamed hp hself), fun hadded => ?_⟩
    refine hlog.mono fun p hp hself => ?_
    have hne := hnamed hp hself
    rw [(hs.fresh hadded).1] at hne
    exact Finset.not_nonempty_empty hne
  | loadBaseline t ms => exact hf.elim
  | _ =>
    refine ⟨(hnone trivial).mono fun _ => False.elim, fun _ => ?_⟩
    exact (hnone trivial).mono fun _ => False.elim

/-- Moving the base to a version with tiles moves nothing else. -/
theorem Counted.restore (hs : s.Counted self) (h : StateHandle) :
    (s.restore h).Counted self ∧ (s.restore h).model = s.model ∧ (s.restore h).added = s.added ∧
      ∀ h', (s.restore h).versions.resolve h' = s.versions.resolve h' := by
  unfold LiveBase.restore
  split
  case h_1 table htable =>
    refine ⟨⟨hs.reachable, ⟨hs.wf.length_le, hs.wf.free_dead, hs.wf.nodup, hs.wf.dead⟩, hs.counted,
      VersionTable.hasState_of_resolve htable, fun _ => htable.symm, fun hadded => ?_⟩, rfl, rfl,
      fun _ => rfl⟩
    refine ⟨(hs.fresh hadded).1, ?_⟩
    show s.versions.resolve h ≠ none
    rw [htable]
    exact nofun
  case h_2 => exact ⟨hs, rfl, rfl, fun _ => rfl⟩

theorem Counted.restoreAll (hs : s.Counted self) (side : ContentStateEdit → StateHandle)
    (contents : List ContentStateEdit) : (s.restoreAll self side contents).Counted self ∧
      (s.restoreAll self side contents).model = s.model ∧
      (s.restoreAll self side contents).added = s.added ∧
      ∀ h, (s.restoreAll self side contents).versions.resolve h = s.versions.resolve h := by
  induction contents generalizing s with
  | nil => exact ⟨hs, rfl, rfl, fun _ => rfl⟩
  | cons ce contents ih =>
    rw [LiveBase.restoreAll, List.foldl_cons]
    by_cases hc : ce.object = self
    · rw [if_pos hc]
      obtain ⟨hs₁, hm₁, ha₁, hr₁⟩ := hs.restore (side ce)
      obtain ⟨hs₂, hm₂, ha₂, hr₂⟩ := ih hs₁
      exact ⟨hs₂, hm₂.trans hm₁, ha₂.trans ha₁, fun h => (hr₂ h).trans (hr₁ h)⟩
    · rw [if_neg hc]
      exact ih hs

/-- An event of the model: the base may move, and what a record still names keeps its tiles. -/
theorem Counted.follow (hs : s.Counted self) (hf : Foreign self e)
    (hstep : docModel.step e s.model = some m) : (s.follow self e m).Counted self ∧
      (s.follow self e m).model = m ∧ (s.follow self e m).added = s.added ∧
      ∀ h, (named self m h).Nonempty →
        (s.follow self e m).versions.resolve h = s.versions.resolve h := by
  obtain ⟨hlog, hadded⟩ := hs.logged_foreign hf hstep
  obtain ⟨hafter, hkeep⟩ := hs.after hstep hlog hadded
  have hrestore (side : ContentStateEdit → StateHandle) (contents : List ContentStateEdit) :
      ((s.after self m).restoreAll self side contents).Counted self ∧
      ((s.after self m).restoreAll self side contents).model = m ∧
      ((s.after self m).restoreAll self side contents).added = s.added ∧
      ∀ h, (named self m h).Nonempty → ((s.after self m).restoreAll self side
        contents).versions.resolve h = s.versions.resolve h := by
    obtain ⟨hs', hm', ha', hr'⟩ := hafter.restoreAll side contents
    exact ⟨hs', hm', ha', fun h hn => (hr' h).trans (hkeep h hn)⟩
  have hsame := And.intro hafter (And.intro (rfl : (s.after self m).model = m)
    (And.intro (rfl : (s.after self m).added = s.added) hkeep))
  unfold LiveBase.follow
  dsimp only
  split
  · exact hsame
  split
  · split
    · exact hrestore _ _
    · exact hsame
  · split
    · exact hrestore _ _
    · exact hsame
  · exact hsame

/-- A new version is interned, and the base moves to it. -/
private theorem Counted.intern (hs : s.Counted self) (hroom : s.versions.Roomy)
    (hadded : s.added = true) (tiles : τ) :
    Counted self { s with
      base := (s.versions.intern tiles).1
      versions := (s.versions.intern tiles).2.setBase (some tiles) } ∧
    (s.versions.intern tiles).2.resolve (s.versions.intern tiles).1 = some tiles ∧
    named self s.model (s.versions.intern tiles).1 = ∅ ∧
    ∀ h, h ≠ (s.versions.intern tiles).1 →
      (s.versions.intern tiles).2.resolve h = s.versions.resolve h := by
  obtain ⟨hwf, hnone, hver⟩ := VersionTable.intern_spec hs.wf hroom tiles
  generalize s.versions.intern tiles = r at hwf hnone hver ⊢
  obtain ⟨h, versions⟩ := r
  dsimp only at hwf hnone hver ⊢
  have hself := hver h
  rw [if_pos rfl] at hself
  have hresolve : versions.resolve h = some tiles := VersionTable.resolve_eq hself
  have hempty : named self s.model h = ∅ := by
    refine Finset.not_nonempty_iff_eq_empty.mp fun hn => ?_
    exact hs.resolve_ne_none hn hnone
  have hother {h' : StateHandle} (hne : h' ≠ h) :
      versions.version? h' = s.versions.version? h' := by
    rw [hver h', if_neg hne]
  refine ⟨⟨hs.reachable, ⟨hwf.length_le, hwf.free_dead, hwf.nodup, hwf.dead⟩, fun h' => ?_,
    VersionTable.hasState_of_resolve hresolve, fun _ => hresolve.symm, fun hf => ?_⟩, hresolve,
    hempty, fun h' hne => ?_⟩
  · show versions.refcount h' = _
    by_cases hne : h' = h
    · subst hne
      rw [VersionTable.refcount_eq hself, hempty]
      rfl
    · rw [VersionTable.refcount, hother hne]
      exact hs.counted h'
  · cases hf.symm.trans hadded
  · rw [VersionTable.resolve, hother hne]
    rfl

/-- The state is set to a version that has tiles. -/
private theorem Counted.set {t i : ℕ} (hs : s.Counted self) (hadded : s.added = true)
    (hh : s.versions.resolve h ≠ none)
    (hstep : docModel.step (.mutate t i (.setContentState self h)) s.model = some m) :
    (s.after self m).Counted self ∧ ∀ h', (named self m h').Nonempty →
      (s.after self m).versions.resolve h' = s.versions.resolve h' := by
  have hlog := Model.logged_setContentState (Model.reachable_inv hs.reachable) hstep
  refine hs.after hstep (hlog.mono fun p hp hself => ?_) fun hf => ?_
  · rw [hp hself]
    exact hh
  · cases hf.symm.trans hadded

/-- What a paint leaves: the base is the new version, set as the state. -/
theorem Counted.paint {t i : ℕ} {f : τ → τ} (hs : s.Counted self) (hroom : s.versions.Roomy)
    (hadded : s.added = true) (hstep : s.paint self t i f = some s') :
    s'.Counted self ∧ s'.added = true ∧
    (∃ tiles, s.source = some tiles ∧ s'.base = (s.versions.intern (f tiles)).1 ∧
      docModel.step (.mutate t i (.setContentState self s'.base)) s.model = some s'.model) ∧
    ∀ h, (named self s.model h).Nonempty → (named self s'.model h).Nonempty →
      s'.versions.resolve h = s.versions.resolve h := by
  obtain ⟨tiles, hsource, hstep⟩ := Option.bind_eq_some_iff.mp hstep
  obtain ⟨m, hm, hstep⟩ := Option.bind_eq_some_iff.mp hstep
  obtain rfl := Option.some.inj hstep
  obtain ⟨hs₁, hresolve, hempty, hother⟩ := hs.intern hroom hadded (f tiles)
  -- setting the base table before the transaction is told would come to the same
  obtain ⟨hafter, hkeep⟩ := hs₁.set hadded (by
    show (s.versions.intern (f tiles)).2.resolve (s.versions.intern (f tiles)).1 ≠ none
    rw [hresolve]
    exact nofun) hm
  have hcalls := (s.versions.intern (f tiles)).2.calls_setBase (some (f tiles))
    (callsTo self s.model.retains m.retains) (callsTo self s.model.releases m.releases)
  have hwf := hafter.wf
  have hcounted := hafter.counted
  change VersionTable.Wf (VersionTable.calls _ _ _) at hwf
  change ∀ h, (VersionTable.calls _ _ _).refcount h = _ at hcounted
  change ∀ h, _ → (VersionTable.calls _ _ _).resolve h = _ at hkeep
  rw [hcalls] at hwf hcounted hkeep
  refine ⟨⟨hafter.reachable, ⟨hwf.length_le, hwf.free_dead, hwf.nodup, hwf.dead⟩, hcounted,
    hs₁.base_hasState, fun _ => rfl, fun hf => ?_⟩, hadded, ⟨tiles, hsource, rfl, hm⟩,
    fun h hn hn' => ?_⟩
  · cases hf.symm.trans hadded
  · refine (hkeep h hn').trans (hother h ?_)
    rintro rfl
    rw [hempty] at hn
    exact Finset.not_nonempty_empty hn

/-- What adding the content leaves. -/
theorem Counted.add {t i : ℕ} {kind : UInt64} (hs : s.Counted self) (hadded : s.added = false)
    (hstep : s.add self t i kind = some s') :
    s'.Counted self ∧ s'.added = true ∧ s'.base = s.base ∧
    ∃ m, docModel.step (.mutate t i (.addContent kind)) s.model = some m ∧
      docModel.step (.mutate t i (.setContentState self s.base)) m = some s'.model := by
  obtain ⟨m, hm, hstep⟩ := Option.bind_eq_some_iff.mp hstep
  obtain ⟨m', hm', hstep⟩ := Option.bind_eq_some_iff.mp hstep
  obtain rfl := Option.some.inj hstep
  obtain ⟨hlog, hsilent⟩ := hs.logged_foreign (e := .mutate t i (.addContent kind)) trivial hm
  obtain ⟨hafter, -⟩ := hs.after hm hlog hsilent
  have hs₁ : Counted self { s.after self m with added := true } :=
    ⟨hafter.reachable, hafter.wf, hafter.counted, hafter.base_hasState, hafter.baseTable_eq, nofun⟩
  exact ⟨(hs₁.set rfl (hafter.fresh hadded).2 hm').1, rfl, rfl, m, hm, hm'⟩

/-! ## Where the base is -/

/-- An open transaction that may set the state was opened on the current version, and no other has
changed the state. -/
def Joins (self : ObjectId) (s : LiveBase τ) (i : ℕ) : Prop :=
  ∀ d ∈ s.model.session.draft? i, d.Pending →
    d.base = s.model.session.current ∧ s.model.session.Alone self i

/-- A transaction takes the version of a paint: it is open and has not failed, it has a state for
the content, and the allocator does not refuse the record. -/
def Takes (self : ObjectId) (t i : ℕ) (f : τ → τ) (s : LiveBase τ) : Prop :=
  (∃ d ∈ s.model.session.draft? i, d.Pending ∧ (d.map.stateAt self).isSome = true) ∧
  ∀ tiles ∈ s.source, ∀ m ∈ docModel.step
      (.mutate t i (.setContentState self (s.versions.intern (f tiles)).1)) s.model,
    ∀ d ∈ m.session.draft? i, d.status = none

/-- The events that do not part the base from the document. -/
def Orderly (self : ObjectId) (e : LiveBaseEvent τ) (s : LiveBase τ) : Prop :=
  match e with
  | .model e => s.model.session.Steady self e
  | .add _ i _ => s.Joins self i
  | .paint t i f => s.versions.Roomy ∧ s.Joins self i ∧ s.Takes self t i f

instance (self : ObjectId) (s : LiveBase τ) (i : ℕ) : Decidable (s.Joins self i) := by
  unfold Joins
  infer_instance

instance (self : ObjectId) (t i : ℕ) (f : τ → τ) (s : LiveBase τ) :
    Decidable (s.Takes self t i f) := by
  unfold Takes
  infer_instance

instance (self : ObjectId) (e : LiveBaseEvent τ) (s : LiveBase τ) :
    Decidable (Orderly self e s) := by
  unfold Orderly
  rcases e with ⟨⟩ <;> infer_instance

/-- The base is where the history says, and before the content is added the history is silent. -/
def Follows (self : ObjectId) (s : LiveBase τ) : Prop :=
  ∃ p, s.model.session.Live self s.base p ∧
    (s.added = false → p = .lost ∧ s.model.session.Silent self)

/-- Where the base is after the restore sink was told the contents of an entry. -/
private theorem base_restoreAll {side : ContentStateEdit → StateHandle}
    {contents : List ContentStateEdit} (hnodup : (contents.map ContentStateEdit.object).Nodup) :
    (editOf self contents = none → (s.restoreAll self side contents).base = s.base) ∧
    ∀ ce, editOf self contents = some ce → s.versions.resolve (side ce) ≠ none →
      (s.restoreAll self side contents).base = side ce := by
  have hnone {contents : List ContentStateEdit} (s : LiveBase τ)
      (h : editOf self contents = none) : s.restoreAll self side contents = s := by
    induction contents with
    | nil => rfl
    | cons ce rest ih =>
      rw [editOf_cons] at h
      split at h
      · cases h
      · rename_i hne
        rw [LiveBase.restoreAll, List.foldl_cons, if_neg hne]
        exact ih h
  refine ⟨fun h => by rw [hnone s h], fun ce h hr => ?_⟩
  induction contents with
  | nil => cases h
  | cons ce' rest ih =>
    rw [List.map_cons, List.nodup_cons] at hnodup
    rw [editOf_cons] at h
    rw [LiveBase.restoreAll, List.foldl_cons]
    split at h
    · rename_i hself
      obtain rfl := Option.some.inj h
      have hrest : editOf self rest = none := editOf_eq_none.mpr (hself ▸ hnodup.1)
      obtain ⟨table, htable⟩ := Option.ne_none_iff_exists'.mp hr
      rw [if_pos hself]
      refine (congrArg LiveBase.base (hnone _ hrest)).trans ?_
      rw [LiveBase.restore, htable]
    · rename_i hne
      rw [if_neg hne]
      exact ih hnodup.2 h

/-- A mutator of others leaves the base where it is. -/
private theorem Follows.mutate {t i : ℕ} {mu : Mutator} (h : s.Follows self)
    (hinv : s.model.Inv) (hf : Foreign self (.mutate t i mu))
    (hstep : docModel.step (.mutate t i mu) s.model = some m) {s' : LiveBase τ}
    (hs' : s'.model = m ∧ s'.base = s.base ∧ (s'.added = false → s.added = false)) :
    s'.Follows self := by
  obtain ⟨p, hlive, hfresh⟩ := h
  obtain ⟨rfl, hbase, hadded⟩ := hs'
  have hmu : ∀ st, mu ≠ .setContentState self st := by
    rintro st rfl
    exact hf rfl
  obtain hsame | ⟨d, d', hd, hstatus, hsession, hedit, hnotes, hstate⟩ :=
    Model.edit_cases hinv hstep hmu
  · rw [Follows, hsame, hbase]
    exact ⟨p, hlive, fun ha => hfresh (hadded ha)⟩
  · have hwf := (Model.step_spec hinv hstep).2.wf hlive.wf
    rw [hsession] at hwf
    rw [Follows, hsession, hbase]
    refine ⟨p, hlive.edit hd hedit hwf hnotes hstate, fun ha => ?_⟩
    obtain ⟨hlost, hsilent⟩ := hfresh (hadded ha)
    refine ⟨hlost, hsilent.setDraft ?_⟩
    rintro d'' ⟨⟩
    rw [hnotes.editOf_eq]
    exact hsilent.drafts d (Session.some_mem_of_draft? hd)

/-- The base goes where an entry leads. -/
private theorem fits_restoreAll {side : ContentStateEdit → StateHandle}
    {contents : List ContentStateEdit} {q : Standing} (hs : s.Counted self)
    (hnodup : (contents.map ContentStateEdit.object).Nodup)
    (hstate : s.model.session.map.stateAt self = q.state)
    (hkept : editOf self contents = none → q.Fits s.base)
    (hmoved : ∀ ce, editOf self contents = some ce → q = .held (side ce) ∨ q = .lost) :
    q.Fits (s.restoreAll self side contents).base := by
  obtain ⟨hstay, hmove⟩ := @base_restoreAll _ self s side contents hnodup
  cases hnoted : editOf self contents with
  | none =>
    rw [hstay hnoted]
    exact hkept hnoted
  | some ce =>
    rcases hmoved ce hnoted with rfl | rfl
    -- the version is there, since the new map names it
    · refine hmove ce hnoted (hs.resolve_ne_none ?_)
      exact (Model.reachable_inv hs.reachable).nonempty_carriers_of_map
        (Model.keyed_of_reachable hs.reachable) hstate
    · exact trivial

/-- The entry of a model's journal, as its session shows it. -/
private theorem exists_entry {k : ℕ} {stored : Stored ObjectRecord} {m : Model}
    (h : m.session.journal.entries[k]? = some stored) :
    ∃ stored', m.journal.entries[k]? = some stored' ∧
      stored'.entry.contents = stored.entry.contents := by
  rw [Model.session, Journal.map, List.getElem?_map] at h
  obtain ⟨stored', hstored, rfl⟩ := Option.map_eq_some_iff.mp h
  exact ⟨stored', hstored, rfl⟩

/-- An event of the model that keeps the live state of a content where the history says keeps the
base there. -/
theorem Follows.follow (h : s.Follows self) (hs : s.Counted self) (hf : Foreign self e)
    (ha : s.model.session.Steady self e) (hstep : docModel.step e s.model = some m) :
    (s.follow self e m).Follows self := by
  have hinv := Model.reachable_inv hs.reachable
  have hS := (Model.step_spec hinv hstep).2
  obtain ⟨hlog, hadded⟩ := hs.logged_foreign hf hstep
  obtain ⟨hafter, -⟩ := hs.after hstep hlog hadded
  have hstay (hmu : ∀ t i mu, e ≠ .mutate t i mu)
      (hnav : (∃ t, e = .undo t ∨ e = .redo t) → m.current = s.model.current) :
      (s.after self m).Follows self := by
    obtain ⟨p, hlive, hfresh⟩ := h
    obtain ⟨p', hlive', hlost⟩ := hlive.step ha hS hmu hnav
    exact ⟨p', hlive', fun hnew => ⟨hlost (hfresh hnew).1 (hfresh hnew).2,
      (hfresh hnew).2.step hS hmu⟩⟩
  unfold LiveBase.follow
  dsimp only
  cases e with
  | mutate t i mu =>
    have hsame : (s.after self m).Follows self := h.mutate hinv hf hstep ⟨rfl, rfl, id⟩
    split
    · exact hsame
    · exact hsame
  | undo t =>
    by_cases hcur : m.current = s.model.current
    · rw [if_pos hcur]
      exact hstay (fun _ _ _ => nofun) fun _ => hcur
    rw [if_neg hcur]
    obtain ⟨p, hlive, hfresh⟩ := h
    obtain ⟨k, stored, hk, hentry, hsession⟩ := hS.exists_of_undo hcur
    obtain ⟨p', hshift, hnodup, hstate, hlive'⟩ := hlive.undo ha hk hentry
    obtain ⟨stored', hentry', hcontents⟩ := exists_entry hentry
    rw [show s.model.journal.cursor - 1 = k by
      rw [show s.model.journal.cursor = k + 1 from hk, Nat.add_sub_cancel], hentry']
    dsimp only
    rw [hcontents]
    have hrestored := (hafter.restoreAll ContentStateEdit.before stored.entry.contents).2
    refine ⟨p', ?_, fun hnew => ?_⟩
    · rw [hrestored.1]
      show m.session.Live self _ p'
      rw [hsession]
      refine hlive' _ (fits_restoreAll hafter hnodup ?_ (fun hnone => ?_) fun ce hce => ?_)
      · show m.session.map.stateAt self = _
        rw [hsession]
        exact hstate
      · rw [hnone] at hshift
        exact hshift.fits_iff.mpr (hlive.settled ha)
      · rw [hce] at hshift
        exact hshift.1
    · rw [hrestored.2.1] at hnew
      obtain ⟨rfl, hsilent⟩ := hfresh hnew
      rw [hsilent.entries stored (List.mem_of_getElem? hentry)] at hshift
      rw [hrestored.1]
      exact ⟨hshift.eq_lost', hsilent.step hS fun _ _ _ => nofun⟩
  | redo t =>
    by_cases hcur : m.current = s.model.current
    · rw [if_pos hcur]
      exact hstay (fun _ _ _ => nofun) fun _ => hcur
    rw [if_neg hcur]
    obtain ⟨p, hlive, hfresh⟩ := h
    obtain ⟨stored, hentry, hsession⟩ := hS.exists_of_redo hcur
    obtain ⟨p', hshift, hnodup, hstate, hlive'⟩ := hlive.redo ha hentry
    obtain ⟨stored', hentry', hcontents⟩ := exists_entry hentry
    rw [show s.model.journal.entries[s.model.journal.cursor]? = some stored' from hentry']
    dsimp only
    rw [hcontents]
    have hrestored := (hafter.restoreAll ContentStateEdit.after stored.entry.contents).2
    refine ⟨p', ?_, fun hnew => ?_⟩
    · rw [hrestored.1]
      show m.session.Live self _ p'
      rw [hsession]
      refine hlive' _ (fits_restoreAll hafter hnodup ?_ (fun hnone => ?_) fun ce hce => ?_)
      · show m.session.map.stateAt self = _
        rw [hsession]
        exact hstate
      · rw [hnone] at hshift
        exact hshift.fits_iff.mp (hlive.settled ha)
      · rw [hce] at hshift
        exact hshift.2
    · rw [hrestored.2.1] at hnew
      obtain ⟨rfl, hsilent⟩ := hfresh hnew
      rw [hsilent.entries stored (List.mem_of_getElem? hentry)] at hshift
      rw [hrestored.1]
      exact ⟨hshift.eq_lost, hsilent.step hS fun _ _ _ => nofun⟩
  | _ =>
    split
    all_goals
      refine hstay (fun _ _ _ => nofun) fun hnav => ?_
      obtain ⟨_, h | h⟩ := hnav <;> cases h

/-- Adding the content with the base as its state. -/
theorem Follows.add {t i : ℕ} {kind : UInt64} (h : s.Follows self) (hs : s.Counted self)
    (hadded : s.added = false) (hjoins : s.Joins self i) (hstep : s.add self t i kind = some s') :
    s'.Follows self := by
  obtain ⟨hs', hadded', hbase, m, hm, hm'⟩ := hs.add hadded hstep
  have hinv := Model.reachable_inv hs.reachable
  obtain ⟨hinv₁, hS₁⟩ := Model.step_spec hinv hm
  have hf : Foreign self (.mutate t i (.addContent kind)) := trivial
  have hfollows : (s.after self m).Follows self := h.mutate hinv hf hm ⟨rfl, rfl, id⟩
  obtain ⟨p, hlive, hfresh⟩ := hfollows
  obtain ⟨rfl, hsilent⟩ := hfresh hadded
  have hlive : m.session.Live self s.base .lost := hlive
  have hsilent : m.session.Silent self := hsilent
  have hwf := (Model.step_spec hinv₁ hm').2.wf hlive.wf
  refine ⟨.lost, ?_, fun hf => absurd (hf.symm.trans hadded') nofun⟩
  rw [hbase]
  rcases Model.setContentState_cases hinv₁ hm' with ⟨-, -, -, hsession⟩ |
    ⟨d, d', hd, hstatus, hsession, hedit, ⟨hcontents, hsame⟩ | ⟨-, cr, hrecord, hcontents, hstate⟩⟩
  · rw [hsession]
    exact hlive
  · rw [hsession] at hwf ⊢
    refine hlive.edit hd hedit hwf ?_ fun hnone st hst => (hsame hnone).1.symm.trans hst
    rw [hcontents]
    exact .refl
  · rw [hsession] at hwf ⊢
    by_cases hopen : d.isOpen = true
    · obtain ⟨hcurrent, d₀, hd₀, hbase₀, hopen₀, hstatus₀⟩ := hS₁.exists_of_mutate hd
      obtain ⟨hon, -⟩ := hjoins d₀ hd₀ ⟨hopen₀.trans hopen, hstatus₀ hstatus⟩
      rw [if_pos hs.base_hasState] at hstate
      exact hlive.set hd hedit hwf hopen (hbase₀.symm.trans (hon.trans hcurrent.symm))
        (hsilent.alone i) hrecord hcontents hstate (Or.inl rfl)
    -- the transaction was closed before
    · refine hlive.setDraft hd hwf ?_ fun hn => absurd hn.1 hopen
      rintro d'' ⟨⟩ hopen'
      exact absurd (hedit.isOpen_eq.symm.trans hopen') hopen

/-- Painting in a transaction that takes the new version. -/
theorem Follows.paint {t i : ℕ} {f : τ → τ} (h : s.Follows self) (hs : s.Counted self)
    (hadded : s.added = true) (hroom : s.versions.Roomy) (hjoins : s.Joins self i)
    (htakes : s.Takes self t i f) (hstep : s.paint self t i f = some s') : s'.Follows self := by
  obtain ⟨hs', hadded', ⟨tiles, hsource, hbase, hm⟩, -⟩ := hs.paint hroom hadded hstep
  obtain ⟨p, hlive, -⟩ := h
  obtain ⟨⟨d₀, hd₀, hpending, hsome⟩, hclean⟩ := htakes
  have hinv := Model.reachable_inv hs.reachable
  have hwf := (Model.step_spec hinv hm).2.wf hlive.wf
  obtain ⟨hcurrent, halone⟩ := hjoins d₀ hd₀ hpending
  refine ⟨p, ?_, fun hf => absurd (hf.symm.trans hadded') nofun⟩
  rcases Model.setContentState_cases hinv hm with ⟨d, hd, hfailed, -⟩ |
    ⟨d, d', hd, hstatus, hsession, hedit, hcases⟩
  · obtain rfl := Option.some.inj (hd₀.symm.trans hd)
    exact absurd hpending.2 hfailed
  obtain rfl : d₀ = d := Option.some.inj (hd₀.symm.trans hd)
  have hstatus' : d'.status = none := by
    rw [hbase] at hm
    refine hclean tiles hsource _ hm d' ?_
    rw [hsession]
    exact Session.draft?_setDraft_self hd
  rw [hsession] at hwf ⊢
  rcases hcases with ⟨-, hnone⟩ | ⟨-, cr, hrecord, hcontents, hstate⟩
  -- the transaction has a record of the content
  · obtain ⟨st, hst⟩ := Option.isSome_iff_exists.mp hsome
    obtain ⟨r, hr, hr'⟩ := DocMap.stateAt_eq_some.mp hst
    obtain ⟨cr, has, -⟩ := ObjectRecord.state?_eq_some.mp hr'
    refine absurd ?_ ((hnone hstatus').2 cr)
    rw [DocMap.payloads_of_eq hr, has]
  · rw [if_pos hs'.base_hasState] at hstate
    exact hlive.set hd hedit hwf hpending.1 hcurrent halone hrecord hcontents hstate (Or.inr hsome)

/-- What an orderly event does. -/
theorem step_spec {e : LiveBaseEvent τ} (hs : s.Counted self) (h : s.Follows self)
    (ha : Orderly self e s) (hstep : LiveBase.step self e s = some s') :
    s'.Counted self ∧ s'.Follows self ∧
    ∀ h, (named self s.model h).Nonempty → (named self s'.model h).Nonempty →
      s'.versions.resolve h = s.versions.resolve h := by
  cases e with
  | model e =>
    simp only [LiveBase.step] at hstep
    split at hstep
    case isFalse => cases hstep
    case isTrue hf =>
      obtain ⟨m, hm, rfl⟩ := Option.map_eq_some_iff.mp hstep
      obtain ⟨hs', hmodel, -, hkeep⟩ := hs.follow hf hm
      exact ⟨hs', h.follow hs hf ha hm, fun h _ hn => hkeep h (hmodel ▸ hn)⟩
  | add t i kind =>
    simp only [LiveBase.step] at hstep
    split at hstep
    case isFalse => cases hstep
    case isTrue hadded =>
      obtain ⟨hs', -⟩ := hs.add hadded.1 hstep
      refine ⟨hs', h.add hs hadded.1 ha hstep, fun h hn => ?_⟩
      rw [(hs.fresh hadded.1).1] at hn
      exact absurd hn Finset.not_nonempty_empty
  | paint t i f =>
    obtain ⟨hroom, hjoins, htakes⟩ := ha
    simp only [LiveBase.step] at hstep
    split at hstep
    case isFalse => cases hstep
    case isTrue hadded =>
      obtain ⟨hs', -, -, hkeep⟩ := hs.paint hroom hadded hstep
      exact ⟨hs', h.paint hs hadded hroom hjoins htakes hstep, hkeep⟩

/-- A new raster and a new model. -/
theorem start_spec (h : (liveBase τ self).start s) : s.Counted self ∧ s.Follows self := by
  obtain ⟨model, versions, base, added⟩ := s
  obtain ⟨hstart, rfl, table, rfl, rfl⟩ := h
  have hnone (h : StateHandle) : named self model h = ∅ := by
    obtain ⟨_, _, _, _, _, _, _, -, rfl⟩ := hstart
    rfl
  refine ⟨⟨.start hstart, .build table, fun h => ?_, rfl, fun _ => ?_, fun _ => ⟨hnone, ?_⟩⟩,
    .lost, .of_isStart hstart, fun _ => ⟨rfl, .of_isStart hstart⟩⟩
  · rw [VersionTable.refcount_build, hnone]
    rfl
  · exact (VersionTable.resolve_build table).symm
  · rw [VersionTable.resolve_build]
    exact nofun

/-! ## The tiles that were recorded -/

/-- The machine that notes the tiles of every version when the first record names it. -/
def recordedBase (τ : Type) (self : ObjectId) :
    Machine (LiveBase τ × (StateHandle → Option τ)) (LiveBaseEvent τ) :=
  (liveBase τ self).observe (fun s => s.versions.resolve) fun _ s s' recorded h =>
    if (named self s.model h).Nonempty then recorded h else s'.versions.resolve h

/-- The raster follows the document. -/
structure FollowsDocument (own : ObjectId) (s : LiveBase τ)
    (recorded : StateHandle → Option τ) : Prop where
  /-- While no transaction is open the base and its table are those of the version that the
  published record names. -/
  base : s.model.session.Quiet → ∀ h, s.model.session.map.stateAt own = some h →
    s.base = h ∧ s.versions.baseTable = s.versions.resolve h ∧ s.versions.resolve h ≠ none
  /-- A version that a record in use names holds the tiles it held when it was recorded. -/
  kept : ∀ h, (named own s.model h).Nonempty →
    ∃ table, s.versions.resolve h = some table ∧ recorded h = some table
  /-- A slot that may be used again is named by no record in use. -/
  recycled : ∀ slot ∈ s.versions.free, named own s.model ⟨slot⟩ = ∅

/-- A base that is where the history says follows the document. -/
theorem Follows.matchesDocument {recorded : StateHandle → Option τ} (h : s.Follows self)
    (hs : s.Counted self) (hrecorded : ∀ h, (named self s.model h).Nonempty →
      recorded h = s.versions.resolve h) : FollowsDocument self s recorded := by
  obtain ⟨p, hlive, -⟩ := h
  refine ⟨fun hquiet h hh => ?_, fun h hn => ?_, fun slot hslot => ?_⟩
  · have hfits := hlive.settled hquiet.settled
    rw [Standing.eq_held_of_state (hlive.state.symm.trans hh)] at hfits
    obtain rfl : s.base = h := hfits
    have hresolve := hs.resolve_ne_none ((Model.reachable_inv hs.reachable).nonempty_carriers_of_map
      (Model.keyed_of_reachable hs.reachable) hh)
    exact ⟨rfl, hs.baseTable_eq hresolve, hresolve⟩
  · obtain ⟨table, htable⟩ := Option.ne_none_iff_exists'.mp (hs.resolve_ne_none hn)
    exact ⟨table, htable, (hrecorded h hn).trans htable⟩
  · refine Finset.not_nonempty_iff_eq_empty.mp fun hn => hs.resolve_ne_none hn ?_
    obtain ⟨table, htable⟩ := Option.ne_none_iff_exists'.mp (hs.resolve_ne_none hn)
    obtain ⟨ver, hver, hsome⟩ := Option.bind_eq_some_iff.mp htable
    have hdead := (VersionTable.version?_eq_some.mp hver).2.symm.trans (hs.wf.free_dead slot hslot)
    obtain rfl := Option.some.inj hdead
    cases hsome

end LiveBase

open LiveBase

/-- A raster of one number, beside a model that journals. -/
def freshBase : LiveBase ℕ := ⟨emptyModel, .build 7, ⟨0⟩, false⟩

theorem start_freshBase : (recordedBase ℕ 1).start (freshBase, freshBase.versions.resolve) :=
  ⟨⟨start_emptyModel, rfl, 7, rfl, rfl⟩, rfl⟩

/-- The raster is added and painted on, and the paint is undone. -/
def paintRun : List (LiveBaseEvent ℕ) :=
  [.model .transact, .add 0 0 7, .model (.commit 0), .model .transact, .paint 0 1 (· + 1),
    .model (.commit 1), .model (.undo 0)]

/-- The raster is added and painted on, and the transaction of the paint is aborted. -/
def abortedPaintRun : List (LiveBaseEvent ℕ) :=
  [.model .transact, .add 0 0 7, .model (.commit 0), .model .transact, .paint 0 1 (· + 1),
    .model (.abort 1)]

end ArbitraryComposer
