import ArbitraryComposer.Model.Undo
import ArbitraryComposer.ToMathlib.Stamps

/-!
# Publications

What a run has published. A record is stamped with the revision its transaction will publish, a
navigation binds old records again and a baseline stamps with zero, so a stamp names one record
of an object as long as the transaction that publishes it was opened on the newest revision.
Transactions that overlap are opened on the same revision and publish the same one twice; the
second drops what the first has written.

## Main definitions

- `Publications`, `publicationModel`: versions with the edits that should be in place.
- `Session.Serial`: the events that publish nothing behind the back of a transaction.
- `Session.NonOverlapping`: the events of transactions one after the other.

## Main results

- `no_lost_update`, `lost_update`: runs of serial events lose no update, others may.
- `stamps_sound`: the stamps of transactions one after the other are sound cache keys.
-/

namespace ArbitraryComposer

/-- What a run has published. -/
structure Publications where
  /-- The published versions and their revisions, newest first. -/
  published : List (ℕ × DocMap)
  /-- What a commit wrote, until a later commit or an undo changed the same object. -/
  written : ObjectId → Option (Option ObjectRecord)
  /-- For each entry of the journal, the records its objects had before the edit. -/
  origins : List (ObjectId → Option (Option ObjectRecord))

/-- The published maps, newest first. -/
def Publications.maps (p : Publications) : List DocMap := p.published.map Prod.snd

/-- The records the objects touched have in the version a draft was opened on. -/
def Draft.origin (d : Draft) (k : ObjectId) : Option (Option ObjectRecord) :=
  if k ∈ d.touched then some (d.baseMap k) else none

namespace Session

/-- What a publication wrote: a commit what it touched; what an undo changes is not asked for
any more. -/
def write (e : ModelEvent) (s : Session) (written : ObjectId → Option (Option ObjectRecord)) :
    ObjectId → Option (Option ObjectRecord) :=
  match e with
  | .commit i =>
    match s.draft? i with
    | some d => fun k => if k ∈ d.touched then some (d.map k) else written k
    | none => written
  | .undo _ =>
    match s.journal.entries[s.journal.cursor - 1]? with
    | some stored => fun k =>
      if k ∈ stored.entry.objects.map ObjectEdit.object then none else written k
    | none => written
  | _ => written

/-- The first record before an edit stays when entries coalesce. -/
def originate (e : ModelEvent) (s : Session)
    (origins : List (ObjectId → Option (Option ObjectRecord))) :
    List (ObjectId → Option (Option ObjectRecord)) :=
  match e with
  | .commit i =>
    match s.draft? i with
    | some d =>
      if s.journaled then
        s.journal.annotate d.entry (fun o k => (o k).or (d.origin k)) d.origin origins
      else
        origins
    | none => origins
  | _ => origins

/-- The record of a run. -/
def record (e : ModelEvent) (s s' : Session) (p : Publications) : Publications :=
  if s'.current = s.current then
    { p with origins := p.origins.drop (s.journal.entries.length - s'.journal.entries.length) }
  else
    { published := (s'.revision, s'.map) :: p.published
      written := s.write e p.written
      origins := s.originate e p.origins }

/-- Nothing is published behind the back of a transaction, and it is edited while it is open. -/
def Serial (e : ModelEvent) (s : Session) : Prop :=
  s.InOrder e ∧
  match e with
  | .mutate _ i _ => ∀ d ∈ s.draft? i, d.isOpen = true
  | _ => True

instance (e : ModelEvent) (s : Session) : Decidable (s.Serial e) := by
  unfold Serial
  rcases e with ⟨⟩ <;> infer_instance

/-- A transaction is opened when no other one can still be committed, and a baseline is loaded
before anything is published. -/
def NonOverlapping (e : ModelEvent) (s : Session) : Prop :=
  match e with
  | .transact => ∀ o ∈ s.drafts, ∀ d ∈ o, ¬ d.Pending
  | .loadBaseline _ _ => s.current = 0
  | _ => True

instance (e : ModelEvent) (s : Session) : Decidable (s.NonOverlapping e) := by
  unfold NonOverlapping
  rcases e with ⟨⟩ <;> infer_instance

end Session

/-- A model with the record of what it published. -/
def publicationModel : Machine (Model × Publications) ModelEvent :=
  docModel.observe (fun _ => ⟨[], fun _ => none, []⟩) fun e s s' =>
    Session.record e s.session s'.session

namespace Session

variable {s s' : Session} {p : Publications} {i : ℕ} {d : Draft} {e : ModelEvent}

theorem record_of_eq (h : s'.current = s.current) : record e s s' p =
    { p with origins := p.origins.drop (s.journal.entries.length - s'.journal.entries.length) } :=
  if_pos h

theorem record_of_ne (h : s'.current ≠ s.current) : record e s s' p =
    { published := (s'.revision, s'.map) :: p.published
      written := s.write e p.written
      origins := s.originate e p.origins } :=
  if_neg h

theorem record_of_succ (h : s'.current = s.current + 1) : record e s s' p =
    { published := (s'.revision, s'.map) :: p.published
      written := s.write e p.written
      origins := s.originate e p.origins } :=
  record_of_ne (h ▸ Nat.succ_ne_self _)

theorem record_setJournal (j : Journal ObjectRecord) : record e s { s with journal := j } p =
    { p with origins := p.origins.drop (s.journal.entries.length - j.entries.length) } :=
  record_of_eq rfl

/-- Drafts are not recorded. -/
theorem record_drafts (drafts : List (Option Draft)) :
    record e s { s with drafts := drafts } p = p := by
  have h : record e s { s with drafts := drafts } p =
      ⟨p.published, p.written,
        p.origins.drop (s.journal.entries.length - s.journal.entries.length)⟩ := record_of_eq rfl
  rw [h, Nat.sub_self, List.drop_zero]

theorem record_setDraft (o : Option Draft) : record e s (s.setDraft i o) p = p :=
  record_drafts _

theorem record_self : record e s s p = p := record_drafts s.drafts

/-! ## Stamps -/

/-- Every record in sight was published, or carries the stamp of a draft, and the stamps of the
published ones are sound. -/
structure Stamped (s : Session) (p : Publications) : Prop where
  /-- Every version but the first was published. -/
  length_eq : p.published.length = s.current
  /-- The stamps of published records are sound. -/
  sound : StampSound ObjectRecord.revision p.maps
  /-- No stamp is above the revision. -/
  stamp_le : ∀ k r, Occurs p.maps k r → r.revision ≤ s.revision
  /-- The records of the current map were published. -/
  map_occurs : ∀ k r, s.map k = some r → Occurs p.maps k r
  /-- The records a draft started from were published. -/
  base_occurs : ∀ d, some d ∈ s.drafts → ∀ k r, d.baseMap k = some r → Occurs p.maps k r
  /-- The records of a draft were published or carry its stamp. -/
  draft_occurs : ∀ d, some d ∈ s.drafts → ∀ k r, d.map k = some r →
    Occurs p.maps k r ∨ r.revision = d.publishRevision
  /-- The records of the journal were published. -/
  journal_occurs : ∀ stored ∈ s.journal.entries, stored.entry.All (Occurs p.maps)

/-- A version is published that has old records and those of one fresh stamp. -/
private theorem Stamped.publish {revision : ℕ} {map : DocMap} (h : s.Stamped p)
    (written : ObjectId → Option (Option ObjectRecord))
    (origins : List (ObjectId → Option (Option ObjectRecord)))
    (hmap : ∀ k r, map k = some r → Occurs p.maps k r ∨ r.revision = revision)
    (hfresh : (∀ k r, map k = some r → Occurs p.maps k r) ∨
      ∀ k r, Occurs p.maps k r → r.revision < revision)
    (hle : ∀ k r, Occurs p.maps k r → r.revision ≤ revision) :
    (s.publish revision map).Stamped ⟨(revision, map) :: p.published, written, origins⟩ := by
  have hsound : StampSound ObjectRecord.revision (map :: p.maps) := by
    rcases hfresh with hold | hfresh
    · exact h.sound.cons_old hold
    · exact h.sound.cons hmap hfresh
  refine ⟨?_, hsound, fun k r hr => ?_, fun k r hr => ?_, fun d hd k r hr => ?_,
    fun d hd k r hr => ?_, fun stored hs oe hoe r hr => ?_⟩
  · exact congrArg Nat.succ h.length_eq
  · rcases occurs_cons.mp hr with hr | hr
    · exact (hmap k r hr).elim (hle k r) le_of_eq
    · exact hle k r hr
  · exact occurs_cons.mpr (Or.inl hr)
  · exact (h.base_occurs d hd k r hr).cons
  · exact (h.draft_occurs d hd k r hr).imp_left Occurs.cons
  · exact (h.journal_occurs stored hs oe hoe r hr).cons

/-- A draft is replaced by one of the same base with old records and its own. -/
private theorem Stamped.setDraft {o : Option Draft} (h : s.Stamped p)
    (ho : ∀ d' ∈ o, (∀ k r, d'.baseMap k = some r → Occurs p.maps k r) ∧
      ∀ k r, d'.map k = some r → Occurs p.maps k r ∨ r.revision = d'.publishRevision) :
    (s.setDraft i o).Stamped p := by
  refine ⟨h.length_eq, h.sound, h.stamp_le, h.map_occurs, fun d hd => ?_, fun d hd => ?_,
    h.journal_occurs⟩ <;> rcases List.mem_or_eq_of_mem_set hd with hd | rfl
  · exact h.base_occurs d hd
  · exact (ho d rfl).1
  · exact h.draft_occurs d hd
  · exact (ho d rfl).2

private theorem Stamped.setJournal {j : Journal ObjectRecord} (h : s.Stamped p)
    (hj : ∀ stored ∈ j.entries, stored.entry.All (Occurs p.maps)) :
    ({ s with journal := j } : Session).Stamped p :=
  ⟨h.length_eq, h.sound, h.stamp_le, h.map_occurs, h.base_occurs, h.draft_occurs, hj⟩

private theorem Stamped.setRecord (h : s.Stamped p)
    (written : ObjectId → Option (Option ObjectRecord))
    (origins : List (ObjectId → Option (Option ObjectRecord))) : s.Stamped ⟨p.published, written, origins⟩ :=
  ⟨h.length_eq, h.sound, h.stamp_le, h.map_occurs, h.base_occurs, h.draft_occurs,
    h.journal_occurs⟩

/-- Old records are bound again. -/
private theorem Stamped.rebind {targets : List (ObjectId × Option ObjectRecord)}
    (h : s.Stamped p) (htargets : ∀ k r, (k, some r) ∈ targets → Occurs p.maps k r) :
    ∀ k r, rebindAll s.map targets k = some r → Occurs p.maps k r := by
  intro k r hr
  rcases rebindAll_apply s.map targets k with ⟨-, heq⟩ | ⟨o, ho, heq⟩
  · exact h.map_occurs k r (heq ▸ hr)
  · obtain rfl : o = some r := heq.symm.trans hr
    exact htargets k r ho

/-- The records before or after an entry of the journal were published. -/
private theorem Stamped.targets {stored : Stored ObjectRecord} (h : s.Stamped p)
    (hs : stored ∈ s.journal.entries) (k : ObjectId) (r : ObjectRecord) :
    ((k, some r) ∈ stored.entry.befores → Occurs p.maps k r) ∧
      ((k, some r) ∈ stored.entry.afters → Occurs p.maps k r) := by
  constructor <;> intro hm <;> obtain ⟨oe, hoe, heq⟩ := List.mem_map.mp hm
  · obtain ⟨rfl, hr⟩ := Prod.mk.inj heq
    refine h.journal_occurs stored hs oe hoe r (List.mem_append_left _ ?_)
    exact Option.mem_toList.mpr hr
  · obtain ⟨rfl, hr⟩ := Prod.mk.inj heq
    refine h.journal_occurs stored hs oe hoe r (List.mem_append_right _ ?_)
    exact Option.mem_toList.mpr hr

/-- The entry of a draft names records of its base and of its map. -/
private theorem Draft.entry_all {P : ObjectId → ObjectRecord → Prop}
    (hbase : ∀ k r, d.baseMap k = some r → P k r) (hmap : ∀ k r, d.map k = some r → P k r) :
    d.entry.All P := by
  intro oe hoe r hr
  obtain ⟨k, -, rfl⟩ := List.mem_map.mp hoe
  rcases List.mem_append.mp hr with hr | hr
  · exact hbase k r (Option.mem_toList.mp hr)
  · exact hmap k r (Option.mem_toList.mp hr)

/-- What may happen keeps the stamps when a transaction that publishes has a fresh one, and a
baseline comes first. -/
theorem Stamped.step (h : s.Stamped p) (hstep : Step e s s')
    (hcommit : ∀ i, e = .commit i → ∀ d ∈ s.draft? i, d.Pending →
      ∀ k r, Occurs p.maps k r → r.revision < d.publishRevision)
    (hload : ∀ t ms, e = .loadBaseline t ms → s.current = 0) : s'.Stamped (record e s s' p) := by
  cases hstep with
  | stay =>
    rw [record_self]
    exact h
  | transact =>
    rw [record_drafts]
    refine ⟨h.length_eq, h.sound, h.stamp_le, h.map_occurs, fun d hd => ?_, fun d hd => ?_,
      h.journal_occurs⟩ <;> rcases List.mem_append.mp hd with hd | hd
    · exact h.base_occurs d hd
    · obtain rfl : d = s.fork := by simpa using hd
      exact h.map_occurs
    · exact h.draft_occurs d hd
    · obtain rfl : d = s.fork := by simpa using hd
      exact fun k r hr => Or.inl (h.map_occurs k r hr)
  | @mutate _ _ _ _ d d' hd hedit =>
    have hmem := some_mem_of_draft? hd
    rw [record_setDraft]
    refine h.setDraft ?_
    rintro d'' ⟨⟩
    refine ⟨hedit.baseMap_eq ▸ h.base_occurs d hmem, fun k r hr => ?_⟩
    rw [hedit.publishRevision_eq]
    rcases hedit.stamped k r hr with hr | ⟨hr, -⟩
    · exact h.draft_occurs d hmem k r hr
    · exact Or.inr hr
  | @coalesce _ _ d key hd =>
    have hmem := some_mem_of_draft? hd
    rw [record_setDraft]
    refine h.setDraft ?_
    rintro d' ⟨⟩
    exact ⟨h.base_occurs d hmem, h.draft_occurs d hmem⟩
  | @fail _ _ d err hd =>
    have hmem := some_mem_of_draft? hd
    rw [record_setDraft]
    refine h.setDraft ?_
    rintro d' ⟨⟩
    exact ⟨h.base_occurs d hmem, h.draft_occurs d hmem⟩
  | @commit _ i d hd hpending =>
    have hmem := some_mem_of_draft? hd
    have hfresh := hcommit i rfl d hd hpending
    rw [record_of_succ rfl]
    have hclosed : (s.setDraft i (some (close d))).Stamped p := by
      refine h.setDraft ?_
      rintro d' ⟨⟩
      exact ⟨h.base_occurs d hmem, fun _ _ hr => nomatch hr⟩
    have hpublish := hclosed.publish (s.write (.commit i) p.written)
      (s.originate (.commit i) p.origins) (h.draft_occurs d hmem) (Or.inr hfresh)
      fun k r hr => (hfresh k r hr).le
    refine hpublish.setJournal ?_
    split
    · refine Journal.onCommit_forall hpublish.journal_occurs ?_ fun e he => he.merge ?_ <;>
        exact Draft.entry_all (fun k r hr => (h.base_occurs d hmem k r hr).cons)
          fun k r hr => occurs_cons.mpr (Or.inl hr)
    · exact hpublish.journal_occurs
  | @abort _ _ d hd =>
    have hmem := some_mem_of_draft? hd
    rw [record_setDraft]
    refine h.setDraft ?_
    rintro d' ⟨⟩
    exact ⟨h.base_occurs d hmem, fun _ _ hr => nomatch hr⟩
  | destroy hd =>
    rw [record_setDraft]
    refine h.setDraft ?_
    rintro d' ⟨⟩
  | undo stored hc he =>
    have hold := h.rebind fun k r => (h.targets (List.mem_of_getElem? he) k r).1
    rw [record_of_succ rfl]
    refine (h.publish _ _ (fun k r hr => Or.inl (hold k r hr)) (Or.inl hold)
      fun k r hr => ?_).setJournal fun stored hs oe hoe r hr => ?_
    · exact (h.stamp_le k r hr).trans (Nat.le_succ _)
    · exact (h.journal_occurs stored hs oe hoe r hr).cons
  | redo stored he =>
    have hold := h.rebind fun k r => (h.targets (List.mem_of_getElem? he) k r).2
    rw [record_of_succ rfl]
    refine (h.publish _ _ (fun k r hr => Or.inl (hold k r hr)) (Or.inl hold)
      fun k r hr => ?_).setJournal fun stored hs oe hoe r hr => ?_
    · exact (h.stamp_le k r hr).trans (Nat.le_succ _)
    · exact (h.journal_occurs stored hs oe hoe r hr).cons
  | setByteBudget _ bytes =>
    rw [record_setJournal]
    refine Stamped.setRecord (h.setJournal fun stored hs => ?_) _ _
    rw [Journal.setByteBudget, (Journal.trim_eq _).1] at hs
    exact h.journal_occurs stored (List.mem_of_mem_drop hs)
  | loadBaseline hm =>
    -- nothing was published, so every record is a new one
    have hnone : ∀ k r, ¬ Occurs p.maps k r := by
      have hlen := h.length_eq
      rw [hload _ _ rfl] at hlen
      intro k r hr
      rw [Publications.maps, List.length_eq_zero_iff.mp hlen] at hr
      exact not_occurs_nil hr
    rw [record_of_succ rfl]
    refine h.publish _ _ (fun k r hr => ?_) (Or.inr fun k r hr => absurd hr (hnone k r))
      fun k r hr => absurd hr (hnone k r)
    rcases hm k r hr with hr | ⟨hr, -⟩
    · exact absurd (h.map_occurs k r hr) (hnone k r)
    · exact Or.inr hr

/-- Only what was published is looked at, and whether commits are journaled is not. -/
theorem Stamped.congr {p' : Publications} (h : s.Stamped p) (journaled : Bool)
    (hp : p'.published = p.published) :
    ({ s with journaled := journaled } : Session).Stamped p' := by
  have hmaps : p'.maps = p.maps := congrArg (List.map Prod.snd) hp
  refine ⟨(congrArg List.length hp).trans h.length_eq, ?_, ?_, ?_, ?_, ?_, ?_⟩ <;> rw [hmaps]
  · exact h.sound
  · exact h.stamp_le
  · exact h.map_occurs
  · exact h.base_occurs
  · exact h.draft_occurs
  · exact h.journal_occurs

/-- What publishes nothing behind the back of a transaction keeps the stamps. -/
theorem Stamped.step_of_inOrder (h : s.Stamped p) (hwf : s.Wf) (ha : s.InOrder e)
    (hstep : Step e s s') : s'.Stamped (record e s s' p) := by
  refine h.step hstep ?_ ?_
  · rintro i rfl d hd hpending k r hr
    have hbase := ha d hd hpending
    rw [(hwf.base_eq d (some_mem_of_draft? hd) hbase).2]
    exact Nat.lt_succ_of_le (h.stamp_le k r hr)
  · rintro t ms rfl
    exact ha

/-- A new model has published nothing. -/
theorem Stamped.of_isStart {m : Model} (h : m.IsStart) :
    m.session.Stamped ⟨[], fun _ => none, []⟩ := by
  obtain ⟨_, _, _, _, _, _, _, -, rfl⟩ := h
  refine ⟨rfl, stampSound_nil, fun k r hr => absurd hr not_occurs_nil, fun k r hr => ?_,
    fun d hd => ?_, fun d hd => ?_, fun stored hs => ?_⟩
  · cases hr
  · cases hd
  · cases hd
  · cases hs

/-! ## Updates -/

/-- Revisions grow, and what was written is in the current map. -/
structure Kept (s : Session) (p : Publications) : Prop where
  /-- Stamps are in order. -/
  stamped : s.Stamped p
  /-- A revision is above all before it. -/
  revisions : p.published.Pairwise fun newer older => older.1 < newer.1
  /-- The current revision is the last one. -/
  revision_le : ∀ q ∈ p.published, q.1 ≤ s.revision
  /-- What was written is in place. -/
  written_eq : ∀ k v, p.written k = some v → s.map k = v
  /-- What can be redone was undone since it was written. -/
  undone : ∀ c stored, s.journal.cursor ≤ c → s.journal.entries[c]? = some stored →
    ∀ oe ∈ stored.entry.objects, p.written oe.object = none
  /-- Before the first publication nothing was written. -/
  fresh : s.current = 0 → ∀ k, p.written k = none
  /-- Without a sink nothing is journaled. -/
  unjournaled : s.journaled = false → s.journal.entries = []
  /-- A transaction that is closed has no edits. -/
  closed : ∀ d, some d ∈ s.drafts → d.isOpen = false → ∀ k, d.map k = none

/-- The published revisions stay in order under a larger one. -/
private theorem Kept.cons_revisions (h : s.Kept p) (map : DocMap) {revision : ℕ}
    (hlt : s.revision < revision) :
    ((revision, map) :: p.published).Pairwise (fun newer older => older.1 < newer.1) ∧
      ∀ q ∈ (revision, map) :: p.published, q.1 ≤ revision := by
  refine ⟨List.pairwise_cons.mpr ⟨fun q hq => ?_, h.revisions⟩, fun q hq => ?_⟩
  · exact (h.revision_le q hq).trans_lt hlt
  · rcases List.mem_cons.mp hq with rfl | hq
    · exact le_rfl
    · exact ((h.revision_le q hq).trans_lt hlt).le

/-- A draft that is replaced by an open one, or by one without edits. -/
private theorem Kept.setDraft {o : Option Draft} (h : s.Kept p) (hs : (s.setDraft i o).Stamped p)
    (ho : ∀ d' ∈ o, d'.isOpen = false → ∀ k, d'.map k = none) : (s.setDraft i o).Kept p := by
  refine ⟨hs, h.revisions, h.revision_le, h.written_eq, h.undone, h.fresh, h.unjournaled,
    fun d hd => ?_⟩
  rcases List.mem_or_eq_of_mem_set hd with hd | rfl
  · exact h.closed d hd
  · exact ho d rfl

/-- A commit on the current version keeps what was written and writes more. -/
private theorem Kept.commit (h : s.Kept p) (hwf : s.Wf) (hd : s.draft? i = some d)
    (hpending : d.Pending) (hbase : d.base = s.current)
    (hs : (s.commit i d).Stamped (record (.commit i) s (s.commit i d) p)) :
    (s.commit i d).Kept (record (.commit i) s (s.commit i d) p) := by
  have hmem := some_mem_of_draft? hd
  obtain ⟨hmap, hrevision⟩ := hwf.base_eq d hmem hbase
  have hframed := hwf.framed d hmem hpending.1
  have hwrite : s.write (.commit i) p.written =
      fun k => if k ∈ d.touched then some (d.map k) else p.written k := by
    rw [write, hd]
  rw [record_of_succ rfl, hwrite] at hs ⊢
  obtain ⟨hrevisions, hle⟩ := h.cons_revisions d.map
    (show s.revision < d.publishRevision by omega)
  refine ⟨hs, hrevisions, hle, fun k v hv => ?_, fun c stored hc hstored => ?_,
    fun h0 => absurd h0 (Nat.succ_ne_zero _), fun hj => ?_, fun d' hd' => ?_⟩
  · change (if k ∈ d.touched then some (d.map k) else p.written k) = some v at hv
    change d.map k = v
    split at hv
    · exact Option.some.inj hv
    · rename_i hk
      rw [hframed.frame k hk, hmap]
      exact h.written_eq k v hv
  · -- a commit leaves nothing to redo
    have hlt := (List.getElem?_eq_some_iff.mp hstored).1
    change (if s.journaled = true then (s.journal.onCommit d.entry).1 else s.journal).cursor ≤ c
      at hc
    change c < (if s.journaled = true then (s.journal.onCommit d.entry).1
      else s.journal).entries.length at hlt
    split at hc
    · rename_i hj
      rw [if_pos hj] at hlt
      have := Journal.onCommit_cursor_eq s.journal d.entry
      omega
    · rename_i hj
      rw [if_neg hj, h.unjournaled (by simpa using hj)] at hlt
      exact absurd hlt (Nat.not_lt_zero c)
  · have hj' : s.journaled = false := hj
    change (if s.journaled = true then (s.journal.onCommit d.entry).1 else s.journal).entries = []
    rw [hj', if_neg Bool.false_ne_true]
    exact h.unjournaled hj'
  · rcases List.mem_or_eq_of_mem_set hd' with hd' | heq
    · exact h.closed d' hd'
    · obtain rfl := Option.some.inj heq
      exact fun _ _ => rfl

/-- An object that is not bound again is as before. -/
private theorem rebindAll_of_not_mem {m : DocMap} {targets : List (ObjectId × Option ObjectRecord)}
    {k : ObjectId} (h : k ∉ targets.map Prod.fst) : rebindAll m targets k = m k := by
  rcases rebindAll_apply m targets k with ⟨-, heq⟩ | ⟨o, ho, -⟩
  · exact heq
  · exact absurd (List.mem_map_of_mem ho) h

/-- A new model has lost nothing. -/
theorem Kept.of_isStart {m : Model} (h : m.IsStart) : m.session.Kept ⟨[], fun _ => none, []⟩ := by
  have hs := Stamped.of_isStart h
  obtain ⟨_, _, _, _, _, _, _, -, rfl⟩ := h
  refine ⟨hs, .nil, fun q hq => ?_, fun k v hv => ?_, fun c stored _ hstored => ?_,
    fun _ _ => rfl, fun _ => rfl, fun d hd => ?_⟩
  · cases hq
  · cases hv
  · cases hstored
  · cases hd

/-- Serial events lose nothing. -/
theorem Kept.step (h : s.Kept p) (hwf : s.Wf) (ha : s.Serial e) (hstep : Step e s s') :
    s'.Kept (record e s s' p) := by
  have hs := h.stamped.step_of_inOrder hwf ha.1 hstep
  cases hstep with
  | stay =>
    rw [record_self]
    exact h
  | transact =>
    rw [record_drafts] at hs ⊢
    refine ⟨hs, h.revisions, h.revision_le, h.written_eq, h.undone, h.fresh, h.unjournaled,
      fun d hd hopen => ?_⟩
    rcases List.mem_append.mp hd with hd | hd
    · exact h.closed d hd hopen
    · obtain rfl : d = s.fork := by simpa using hd
      exact absurd hopen.symm Bool.false_ne_true
  | @mutate _ _ _ _ d d' hd hedit =>
    rw [record_setDraft] at hs ⊢
    refine h.setDraft hs ?_
    rintro d'' ⟨⟩ hclosed
    have hopen : d.isOpen = true := ha.2 d hd
    rw [hedit.isOpen_eq, hopen] at hclosed
    exact absurd hclosed.symm Bool.false_ne_true
  | @coalesce _ _ d key hd =>
    rw [record_setDraft] at hs ⊢
    refine h.setDraft hs ?_
    rintro d' ⟨⟩
    exact h.closed d (some_mem_of_draft? hd)
  | @fail _ _ d err hd =>
    rw [record_setDraft] at hs ⊢
    refine h.setDraft hs ?_
    rintro d' ⟨⟩
    exact h.closed d (some_mem_of_draft? hd)
  | @commit _ i d hd hpending => exact h.commit hwf hd hpending (ha.1 d hd hpending) hs
  | abort hd =>
    rw [record_setDraft] at hs ⊢
    refine h.setDraft hs ?_
    rintro d' ⟨⟩
    exact fun _ _ => rfl
  | destroy hd =>
    rw [record_setDraft] at hs ⊢
    refine h.setDraft hs ?_
    rintro d' ⟨⟩
  | @undo _ t c stored hc he =>
    have hwrite : s.write (.undo t) p.written = fun k =>
        if k ∈ stored.entry.objects.map ObjectEdit.object then none else p.written k := by
      rw [write, hc, Nat.add_sub_cancel, he]
    rw [record_of_succ rfl, hwrite] at hs ⊢
    obtain ⟨hrevisions, hle⟩ := h.cons_revisions _ (Nat.lt_succ_self s.revision)
    refine ⟨hs, hrevisions, hle, fun k v hv => ?_, fun c' stored' hc' hstored' oe hoe => ?_,
      fun h0 => absurd h0 (Nat.succ_ne_zero _), h.unjournaled, h.closed⟩
    · change (if k ∈ stored.entry.objects.map ObjectEdit.object then none else p.written k) =
        some v at hv
      split at hv
      · cases hv
      · rename_i hk
        refine (rebindAll_of_not_mem ?_).trans (h.written_eq k v hv)
        rwa [JournalEntry.befores, List.map_map]
    · change (if oe.object ∈ stored.entry.objects.map ObjectEdit.object then none
        else p.written oe.object) = none
      split
      · rfl
      · rename_i hk
        -- the entry undone now names the object, or one undone before does
        rcases Nat.eq_or_lt_of_le (show c ≤ c' from hc') with rfl | hlt
        · obtain rfl : stored = stored' := Option.some.inj (he.symm.trans hstored')
          exact absurd (List.mem_map_of_mem hoe) hk
        · exact h.undone c' stored' (by omega) hstored' oe hoe
  | @redo _ t stored he =>
    rw [record_of_succ rfl] at hs ⊢
    obtain ⟨hrevisions, hle⟩ := h.cons_revisions _ (Nat.lt_succ_self s.revision)
    refine ⟨hs, hrevisions, hle, fun k v hv => ?_, fun c' stored' hc' hstored' => ?_,
      fun h0 => absurd h0 (Nat.succ_ne_zero _), h.unjournaled, h.closed⟩
    · refine (rebindAll_of_not_mem fun hk => ?_).trans (h.written_eq k v hv)
      rw [JournalEntry.afters, List.map_map] at hk
      obtain ⟨oe, hoe, rfl⟩ := List.mem_map.mp hk
      have hnone : p.written oe.object = none := h.undone _ stored le_rfl he oe hoe
      have hsome : p.written oe.object = some v := hv
      rw [hnone] at hsome
      cases hsome
    · exact h.undone c' stored' ((Nat.le_succ _).trans hc') hstored'
  | setByteBudget _ bytes =>
    obtain ⟨hentries, hcursor, -⟩ := Journal.trim_eq { s.journal with budget := bytes }
    rw [record_setJournal] at hs ⊢
    refine ⟨hs, h.revisions, h.revision_le, h.written_eq, fun c stored hc hstored => ?_, h.fresh,
      fun hj => ?_, h.closed⟩
    · change (s.journal.setByteBudget bytes).1.cursor ≤ c at hc
      change (s.journal.setByteBudget bytes).1.entries[c]? = some stored at hstored
      rw [Journal.setByteBudget, hcursor] at hc
      rw [Journal.setByteBudget, hentries, List.getElem?_drop] at hstored
      exact h.undone _ stored (show s.journal.cursor ≤ _ by
        change s.journal.cursor - _ ≤ c at hc
        omega) hstored
    · change (s.journal.setByteBudget bytes).1.entries = []
      rw [Journal.setByteBudget, hentries, h.unjournaled hj, List.drop_nil]
  | @loadBaseline _ t ms m hm =>
    have h0 : s.current = 0 := ha.1
    have hpublished : p.published = [] := by
      rw [← List.length_eq_zero_iff, h.stamped.length_eq, h0]
    rw [record_of_succ rfl] at hs ⊢
    refine ⟨hs, ?_, fun q hq => ?_, fun k v hv => ?_, fun c stored hc hstored oe hoe => ?_,
      fun h0 => absurd h0 (Nat.succ_ne_zero _), h.unjournaled, h.closed⟩
    · change ((0, m) :: p.published).Pairwise _
      rw [hpublished]
      exact List.pairwise_singleton _ _
    · change q ∈ (0, m) :: p.published at hq
      rw [hpublished] at hq
      rw [List.mem_singleton.mp hq]
      exact le_rfl
    · change p.written k = some v at hv
      rw [h.fresh h0 k] at hv
      cases hv
    · exact h.fresh h0 oe.object

end Session

/-! ## Origins -/

/-- An entry leads away from the records noted for it. -/
structure JournalEntry.From (e : JournalEntry ObjectRecord)
    (o : ObjectId → Option (Option ObjectRecord)) : Prop where
  /-- An object is named once. -/
  nodup : (e.objects.map ObjectEdit.object).Nodup
  /-- The records are those before. -/
  before : ∀ oe ∈ e.objects, o oe.object = some oe.before
  /-- Nothing is noted for other objects. -/
  named : ∀ k v, o k = some v → k ∈ e.objects.map ObjectEdit.object

/-- Two entries merge into one that leads away from what the first leads away from, and the second
where the first has no say. -/
theorem JournalEntry.From.merge {e f : JournalEntry ObjectRecord}
    {o o' : ObjectId → Option (Option ObjectRecord)} (he : e.From o) (hf : f.From o') :
    (mergeEntry e f).1.From fun k => (o k).or (o' k) := by
  have hmany : ∀ (follow base : List (ObjectEdit ObjectRecord)),
      (base.map ObjectEdit.object).Nodup →
      (∀ oe ∈ base, (o oe.object).or (o' oe.object) = some oe.before) →
      (∀ k v, o k = some v → k ∈ base.map ObjectEdit.object) →
      (∀ oe ∈ follow, o' oe.object = some oe.before) →
      ((mergeObjects base follow).1.map ObjectEdit.object).Nodup ∧
      (∀ oe ∈ (mergeObjects base follow).1, (o oe.object).or (o' oe.object) = some oe.before) ∧
      ∀ k, k ∈ base.map ObjectEdit.object ∨ k ∈ follow.map ObjectEdit.object →
        k ∈ (mergeObjects base follow).1.map ObjectEdit.object := by
    intro follow
    induction follow with
    | nil => exact fun base hn hb _ _ => ⟨hn, hb, fun k hk => hk.resolve_right List.not_mem_nil⟩
    | cons fe follow ih =>
      intro base hn hb hnamed hfollow
      have hobjects := mergeObject_objects base fe
      have hmem : ∀ k, k ∈ base.map ObjectEdit.object ∨ k = fe.object →
          k ∈ (mergeObject base fe).1.map ObjectEdit.object := by
        intro k hk
        rw [hobjects]
        split
        · rename_i hfe
          exact hk.elim id fun heq => heq ▸ hfe
        · exact List.mem_append.mpr (hk.imp_right List.mem_singleton.mpr)
      have hn' : ((mergeObject base fe).1.map ObjectEdit.object).Nodup := by
        rw [hobjects]
        split
        · exact hn
        · exact hn.append (List.nodup_singleton _) (List.disjoint_singleton.mpr ‹_›)
      have hb' : ∀ oe ∈ (mergeObject base fe).1,
          (o oe.object).or (o' oe.object) = some oe.before := by
        intro oe hoe
        rcases mem_mergeObject hn hoe with ⟨hm, -⟩ | ⟨be, hm, -, rfl⟩ | ⟨hm, rfl⟩
        · exact hb oe hm
        · exact hb be hm
        · -- the first entry says nothing about the object
          have hnone : o oe.object = none := by
            rw [← Option.not_isSome_iff_eq_none, Option.isSome_iff_exists]
            exact fun ⟨v, hv⟩ => hm (hnamed _ v hv)
          rw [hnone, Option.none_or]
          exact hfollow oe List.mem_cons_self
      obtain ⟨hn'', hb'', hall⟩ := ih (mergeObject base fe).1 hn' hb'
        (fun k v hk => hmem k (Or.inl (hnamed k v hk)))
        fun oe hoe => hfollow oe (List.mem_cons_of_mem _ hoe)
      refine ⟨hn'', hb'', fun k hk => hall k ?_⟩
      rcases hk with hk | hk
      · exact Or.inl (hmem k (Or.inl hk))
      · rcases List.mem_cons.mp hk with hk | hk
        · exact Or.inl (hmem k (Or.inr hk))
        · exact Or.inr hk
  obtain ⟨hn, hb, hall⟩ := hmany f.objects e.objects he.nodup
    (fun oe hoe => by rw [he.before oe hoe, Option.some_or]) he.named hf.before
  refine ⟨hn, hb, fun k v hk => hall k ?_⟩
  rcases hok : o k with _ | v'
  · rw [hok, Option.none_or] at hk
    exact Or.inr (hf.named k v hk)
  · exact Or.inl (he.named k v' hok)

/-- The entry of a draft leads away from its base. -/
theorem Draft.Framed.from {d : Draft} (h : d.Framed) : d.entry.From d.origin := by
  have hobjects : d.entry.objects.map ObjectEdit.object = d.touched := by
    rw [Draft.entry, List.map_map]
    exact List.map_id _
  refine ⟨hobjects ▸ h.nodup, fun oe hoe => ?_, fun k v hk => ?_⟩
  · obtain ⟨k, hk, rfl⟩ := List.mem_map.mp hoe
    exact if_pos hk
  · rw [hobjects]
    rw [Draft.origin] at hk
    split at hk
    · assumption
    · cases hk

namespace Session

variable {s s' : Session} {p : Publications} {i : ℕ} {d : Draft} {e : ModelEvent}

/-- At most one transaction can still be committed, its stamp is fresh, and the records before each
entry are noted. -/
structure OneByOne (s : Session) (p : Publications) : Prop where
  /-- Stamps are in order. -/
  stamped : s.Stamped p
  /-- At most one transaction can be committed. -/
  single : ∀ i j d d', s.draft? i = some d → s.draft? j = some d' → d.Pending → d'.Pending → i = j
  /-- Its stamp is above all that were published. -/
  fresh : ∀ i d, s.draft? i = some d → d.Pending →
    ∀ k r, Occurs p.maps k r → r.revision < d.publishRevision
  /-- The records before each entry are noted. -/
  origins : List.Forall₂ JournalEntry.From (s.journal.entries.map Stored.entry) p.origins

/-- A draft is replaced by one that can be committed only if the old one could, and then with the
same stamp. -/
private theorem OneByOne.setDraft {o : Option Draft} (h : s.OneByOne p)
    (hs : (s.setDraft i o).Stamped p) (hd : s.draft? i = some d)
    (ho : ∀ d' ∈ o, d'.Pending → d.Pending ∧ d'.publishRevision = d.publishRevision) :
    (s.setDraft i o).OneByOne p := by
  have hdraft : ∀ j d', (s.setDraft i o).draft? j = some d' → d'.Pending →
      ∃ d'', s.draft? j = some d'' ∧ d''.Pending ∧ d'.publishRevision = d''.publishRevision := by
    intro j d' hd' hpending
    by_cases hij : i = j
    · subst hij
      have hlt : i < s.drafts.length := by
        rw [draft?, Option.join_eq_some_iff] at hd
        exact (List.getElem?_eq_some_iff.mp hd).1
      rw [draft?, Session.setDraft, List.getElem?_set_self hlt, Option.join_some] at hd'
      exact ⟨d, hd, ho d' hd' hpending⟩
    · rw [draft?, Session.setDraft, List.getElem?_set_ne hij] at hd'
      exact ⟨d', hd', hpending, rfl⟩
  refine ⟨hs, fun j j' d' d'' hd' hd'' hp' hp'' => ?_, fun j d' hd' hpending => ?_, h.origins⟩
  · obtain ⟨e, he, hpe, -⟩ := hdraft j d' hd' hp'
    obtain ⟨e', he', hpe', -⟩ := hdraft j' d'' hd'' hp''
    exact h.single j j' e e' he he' hpe hpe'
  · obtain ⟨d'', hd'', hp, heq⟩ := hdraft j d' hd' hpending
    rw [heq]
    exact h.fresh j d'' hd'' hp

/-- A version of old records is published. -/
private theorem OneByOne.publish {revision cursor : ℕ} {map : DocMap}
    {written : ObjectId → Option (Option ObjectRecord)} (h : s.OneByOne p)
    (hs : ({ s.publish revision map with journal := { s.journal with cursor := cursor } } :
      Session).Stamped ⟨(revision, map) :: p.published, written, p.origins⟩)
    (hmap : ∀ k r, map k = some r → Occurs p.maps k r) :
    ({ s.publish revision map with journal := { s.journal with cursor := cursor } } :
      Session).OneByOne ⟨(revision, map) :: p.published, written, p.origins⟩ := by
  refine ⟨hs, h.single, fun i d hd hpending k r hr => ?_, h.origins⟩
  rcases occurs_cons.mp hr with hr | hr
  · exact h.fresh i d hd hpending k r (hmap k r hr)
  · exact h.fresh i d hd hpending k r hr

/-- After a commit no transaction can be committed. -/
private theorem OneByOne.commit (h : s.OneByOne p) (hwf : s.Wf) (hd : s.draft? i = some d)
    (hpending : d.Pending) (hs : (s.commit i d).Stamped (record (.commit i) s (s.commit i d) p)) :
    (s.commit i d).OneByOne (record (.commit i) s (s.commit i d) p) := by
  have hnone : ∀ j d', (s.commit i d).draft? j = some d' → ¬ d'.Pending := by
    intro j d' hd' hpending'
    change (s.setDraft i (some (close d))).draft? j = some d' at hd'
    by_cases hij : i = j
    · subst hij
      have hlt : i < s.drafts.length := by
        rw [draft?, Option.join_eq_some_iff] at hd
        exact (List.getElem?_eq_some_iff.mp hd).1
      rw [draft?, Session.setDraft, List.getElem?_set_self hlt, Option.join_some] at hd'
      cases hd'
      exact Bool.false_ne_true hpending'.1
    · rw [draft?, Session.setDraft, List.getElem?_set_ne hij] at hd'
      exact hij (h.single i j d d' hd hd' hpending hpending')
  have hfrom := (hwf.framed d (some_mem_of_draft? hd) hpending.1).from
  refine ⟨hs, fun j _ d' _ hd' _ hp' => absurd hp' (hnone j d' hd'),
    fun j d' hd' hp' => absurd hp' (hnone j d' hd'), ?_⟩
  rw [record_of_succ rfl]
  change List.Forall₂ JournalEntry.From
    ((if s.journaled = true then (s.journal.onCommit d.entry).1 else s.journal).entries.map
      Stored.entry) (s.originate (.commit i) p.origins)
  rw [originate, hd]
  simp only
  split
  · exact Journal.onCommit_forall₂ h.origins hfrom fun e o he => he.merge hfrom
  · exact h.origins

/-- In a new model no transaction is open. -/
theorem OneByOne.of_isStart {m : Model} (h : m.IsStart) :
    m.session.OneByOne ⟨[], fun _ => none, []⟩ := by
  have hs := Stamped.of_isStart h
  obtain ⟨_, _, _, _, _, _, _, -, rfl⟩ := h
  refine ⟨hs, fun i j d d' hd => ?_, fun i d hd => ?_, .nil⟩
  · cases hd
  · cases hd

/-- The events of transactions one after the other. -/
theorem OneByOne.step (h : s.OneByOne p) (hwf : s.Wf) (ha : s.NonOverlapping e)
    (hstep : Step e s s') : s'.OneByOne (record e s s' p) := by
  have hs : s'.Stamped (record e s s' p) := by
    refine h.stamped.step hstep ?_ ?_
    · rintro i rfl d hd hpending
      exact h.fresh i d hd hpending
    · rintro t ms rfl
      exact ha
  cases hstep with
  | stay =>
    rw [record_self]
    exact h
  | transact =>
    have hnone : ∀ j d, s.draft? j = some d → ¬ d.Pending := fun j d hd =>
      ha (some d) (some_mem_of_draft? hd) d rfl
    have hdraft : ∀ j d, ({ s with drafts := s.drafts ++ [some s.fork] } : Session).draft? j =
        some d → d.Pending → j = s.drafts.length ∧ d = s.fork := by
      intro j d hd hpending
      rcases Nat.lt_trichotomy j s.drafts.length with hlt | rfl | hgt
      · rw [draft?, List.getElem?_append_left hlt] at hd
        exact absurd hpending (hnone j d hd)
      · rw [draft?, List.getElem?_concat_length, Option.join_some] at hd
        exact ⟨rfl, (Option.some.inj hd).symm⟩
      · rw [draft?, List.getElem?_eq_none (by simp; omega)] at hd
        cases hd
    rw [record_drafts] at hs ⊢
    refine ⟨hs, fun j j' d d' hd hd' hp hp' => ?_, fun j d hd hpending k r hr => ?_, h.origins⟩
    · exact (hdraft j d hd hp).1.trans (hdraft j' d' hd' hp').1.symm
    · rw [(hdraft j d hd hpending).2]
      exact Nat.lt_succ_of_le (h.stamped.stamp_le k r hr)
  | @mutate _ _ _ _ d d' hd hedit =>
    rw [record_setDraft] at hs ⊢
    refine h.setDraft hs hd ?_
    rintro d'' ⟨⟩ hp
    exact ⟨⟨hedit.isOpen_eq ▸ hp.1, hedit.status_eq⟩, hedit.publishRevision_eq⟩
  | coalesce key hd =>
    rw [record_setDraft] at hs ⊢
    refine h.setDraft hs hd ?_
    rintro d' ⟨⟩ hp
    exact ⟨hp, rfl⟩
  | fail err hd =>
    rw [record_setDraft] at hs ⊢
    refine h.setDraft hs hd ?_
    rintro d' ⟨⟩ hp
    exact nomatch hp.2
  | commit hd hpending => exact h.commit hwf hd hpending hs
  | abort hd =>
    rw [record_setDraft] at hs ⊢
    refine h.setDraft hs hd ?_
    rintro d' ⟨⟩ hp
    exact absurd hp.1 Bool.false_ne_true
  | destroy hd =>
    rw [record_setDraft] at hs ⊢
    refine h.setDraft hs hd ?_
    rintro d' ⟨⟩
  | undo stored hc he =>
    rw [record_of_succ rfl] at hs ⊢
    have htargets := h.stamped.targets (List.mem_of_getElem? he)
    exact h.publish hs (h.stamped.rebind fun k r => (htargets k r).1)
  | redo stored he =>
    rw [record_of_succ rfl] at hs ⊢
    have htargets := h.stamped.targets (List.mem_of_getElem? he)
    exact h.publish hs (h.stamped.rebind fun k r => (htargets k r).2)
  | setByteBudget _ bytes =>
    obtain ⟨hentries, -⟩ := Journal.trim_eq { s.journal with budget := bytes }
    rw [record_setJournal] at hs ⊢
    refine ⟨hs, h.single, h.fresh, ?_⟩
    change List.Forall₂ JournalEntry.From
      ((s.journal.setByteBudget bytes).1.entries.map Stored.entry) (p.origins.drop
        (Journal.trimCount { s.journal with budget := bytes }))
    rw [Journal.setByteBudget, hentries, List.map_drop]
    exact List.forall₂_drop _ h.origins
  | @loadBaseline _ t ms m hm =>
    have h0 : s.current = 0 := ha
    rw [record_of_succ rfl] at hs ⊢
    refine ⟨hs, h.single, fun i d hd hpending k r hr => ?_, h.origins⟩
    -- a transaction opened on the empty version publishes a revision above zero
    have hmem : some d ∈ s.drafts := some_mem_of_draft? hd
    have hrevision := (hwf.base_eq d hmem (by have := hwf.base_le d hmem; omega)).2
    rcases occurs_cons.mp hr with hr | hr
    · rcases hm k r hr with hr | ⟨hr, -⟩
      · exact h.fresh i d hd hpending k r (h.stamped.map_occurs k r hr)
      · omega
    · exact h.fresh i d hd hpending k r hr

/-- An undo that publishes binds what was noted for the entry again. -/
theorem OneByOne.of_undo {t : ℕ} (h : s.OneByOne p) (hstep : Step (.undo t) s s')
    (hne : s'.current ≠ s.current) : ∃ c o, s.journal.cursor = c + 1 ∧ p.origins[c]? = some o ∧
      ∀ k v, o k = some v → s'.map k = v := by
  cases hstep with
  | stay => exact absurd rfl hne
  | @undo _ t c stored hc he =>
    have hentry : (s.journal.entries.map Stored.entry)[c]? = some stored.entry := by
      rw [List.getElem?_map, he, Option.map_some]
    have hlt := (List.getElem?_eq_some_iff.mp hentry).1
    have hlt' : c < p.origins.length := h.origins.length_eq ▸ hlt
    have hfrom := h.origins.get hlt hlt'
    rw [List.get_eq_getElem, List.get_eq_getElem,
      (List.getElem?_eq_some_iff.mp hentry).2] at hfrom
    refine ⟨c, _, hc, List.getElem?_eq_getElem hlt', fun k v hk => ?_⟩
    change rebindAll s.map stored.entry.befores k = v
    rcases rebindAll_apply s.map stored.entry.befores k with ⟨hk', -⟩ | ⟨o, ho, heq⟩
    · rw [JournalEntry.befores, List.map_map] at hk'
      exact absurd (hfrom.named k v hk) hk'
    · obtain ⟨oe, hoe, hpair⟩ := List.mem_map.mp ho
      obtain ⟨rfl, rfl⟩ := Prod.mk.inj hpair
      exact heq.trans (Option.some.inj ((hfrom.before oe hoe).symm.trans hk))

end Session

/-! ## Runs -/

/-- Revisions grow, stamps are sound, and no update is lost. In every run of serial events each
revision is above all published before it, records of one object with one stamp are the same, and
what a commit wrote is in the current map until a later commit or an undo changes the same
objects. A transaction that is closed has no edits, so a commit that succeeds without publishing
has none to lose. -/
theorem no_lost_update {p : Model × Publications}
    (h : publicationModel.Reachable (fun e p => p.1.session.Serial e) p) :
    p.2.published.Pairwise (fun newer older => older.1 < newer.1) ∧
    (∀ v ∈ p.2.maps, ∀ v' ∈ p.2.maps, ∀ k r r', v k = some r → v' k = some r' →
      r.revision = r'.revision → r = r') ∧
    (∀ k v, p.2.written k = some v → p.1.session.map k = v) ∧
    ∀ d, some d ∈ p.1.session.drafts → d.isOpen = false → ∀ k, d.map k = none := by
  obtain ⟨-, -, hkept⟩ := Model.session_invariant (I := Session.Kept) h
    (fun _ hm => Session.Kept.of_isStart hm) fun e s s' l hwf hl ha hstep => hl.step hwf ha hstep
  exact ⟨hkept.revisions, fun v hv v' hv' k r r' hr hr' =>
    hkept.stamped.sound k r r' ⟨v, hv, hr⟩ ⟨v', hv', hr'⟩, hkept.written_eq, hkept.closed⟩

/-- Two compositions are added by two transactions one after the other. -/
def serialRun : List ModelEvent :=
  [.transact, .mutate 0 0 (.addComposition 1 1), .commit 0,
    .transact, .mutate 0 1 (.addComposition 1 1), .commit 1]

theorem no_lost_update_serialRun : ∃ p, publicationModel.Reachable
    (fun e p => p.1.session.Serial e) p ∧ p.2.published.map Prod.fst = [2, 1] ∧
      ∀ k v, p.2.written k = some v → p.1.session.map k = v := by
  obtain ⟨p, hp, hrevisions⟩ := Machine.exists_reachable (M := publicationModel)
    (fun e (p : Model × Publications) => p.1.session.Serial e) serialRun
    (fun p => p.2.published.map Prod.fst == [2, 1])
    (s := (emptyModel, ⟨[], fun _ => none, []⟩)) ⟨start_emptyModel, rfl⟩
    (by decide +kernel) (by decide +kernel)
  exact ⟨p, hp, beq_iff_eq.mp hrevisions, (no_lost_update hp).2.2.1⟩

/-- Two transactions are opened on the same version, and both add a composition. -/
def overlappingRun : List ModelEvent :=
  [.transact, .transact, .mutate 0 0 (.addComposition 1 1), .mutate 0 1 (.addComposition 1 1),
    .commit 0, .commit 1]

/-- The second commit publishes the revision of the first again, and the composition that the first
one added is gone. -/
theorem lost_update : ¬ ∀ p, publicationModel.Reachable Machine.anyEvent p →
    p.2.published.Pairwise (fun newer older => older.1 < newer.1) ∧
      ∀ k v, p.2.written k = some v → p.1.session.map k = v := by
  intro hall
  obtain ⟨p, hp, hlost⟩ := Machine.exists_reachable (M := publicationModel) Machine.anyEvent
    overlappingRun (fun p => p.2.published.map Prod.fst == [1, 1] &&
      p.2.written 1 != some (p.1.session.map 1) && (p.2.written 1).isSome)
    (s := (emptyModel, ⟨[], fun _ => none, []⟩)) ⟨start_emptyModel, rfl⟩
    (Machine.runAllowed_anyEvent _ _) (by decide +kernel)
  simp only [Bool.and_eq_true, bne_iff_ne, ne_eq] at hlost
  obtain ⟨v, hv⟩ := Option.isSome_iff_exists.mp hlost.2
  exact hlost.1.2 (hv.trans (congrArg some ((hall p hp).2 1 v hv).symm))

/-- Stamps are sound cache keys. In every run of transactions that do not overlap, two published
versions with equal stamps for an object have the same record, and an undo that publishes binds
the records its entry was noted to lead away from, stamps and all. -/
theorem stamps_sound {p : Model × Publications}
    (h : publicationModel.Reachable (fun e p => p.1.session.NonOverlapping e) p) :
    (∀ v ∈ p.2.maps, ∀ v' ∈ p.2.maps, ∀ k r r', v k = some r → v' k = some r' →
      r.revision = r'.revision → r = r') ∧
    ∀ t p', publicationModel.step (.undo t) p = some p' → p'.1.current ≠ p.1.current →
      ∃ c o, p.1.journal.cursor = c + 1 ∧ p.2.origins[c]? = some o ∧
        ∀ k v, o k = some v → p'.1.session.map k = v := by
  obtain ⟨hinv, -, hone⟩ := Model.session_invariant (I := Session.OneByOne) h
    (fun _ hm => Session.OneByOne.of_isStart hm)
    fun e s s' l hwf hl ha hstep => hl.step hwf ha hstep
  refine ⟨fun v hv v' hv' k r r' hr hr' =>
    hone.stamped.sound k r r' ⟨v, hv, hr⟩ ⟨v', hv', hr'⟩, fun t p' hp' hne => ?_⟩
  have hstep := (Model.step_spec hinv (Machine.observe_step_eq_some.mp hp').1).2
  exact hone.of_undo hstep hne

/-- A composition is added and the edit is undone. -/
def undoneRun : List ModelEvent :=
  [.transact, .mutate 0 0 (.addComposition 1 1), .commit 0, .undo 0, .transact,
    .mutate 0 1 (.addComposition 1 1), .commit 1]

theorem stamps_sound_undoneRun : ∃ p, publicationModel.Reachable
    (fun e p => p.1.session.NonOverlapping e) p ∧ p.2.published.map Prod.fst = [3, 2, 1] ∧
      ∀ v ∈ p.2.maps, ∀ v' ∈ p.2.maps, ∀ k r r', v k = some r → v' k = some r' →
        r.revision = r'.revision → r = r' := by
  obtain ⟨p, hp, hrevisions⟩ := Machine.exists_reachable (M := publicationModel)
    (fun e (p : Model × Publications) => p.1.session.NonOverlapping e) undoneRun
    (fun p => p.2.published.map Prod.fst == [3, 2, 1])
    (s := (emptyModel, ⟨[], fun _ => none, []⟩)) ⟨start_emptyModel, rfl⟩
    (by decide +kernel) (by decide +kernel)
  exact ⟨p, hp, beq_iff_eq.mp hrevisions, (stamps_sound hp).1⟩

end ArbitraryComposer
