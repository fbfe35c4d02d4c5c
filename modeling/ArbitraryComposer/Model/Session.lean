import ArbitraryComposer.Model.Model

/-!
# Editing Sessions

What a run of a model is about, without arena, slots and counts: a current map with a revision,
drafts forked from it, and a journal whose entries hold the records themselves. `Session.Step`
says what each event may do. It is a relation because an operation may be refused by the
allocator and because a mutator is described by its frame only.

## Main definitions

- `Draft`: a transaction as an edit of a map.
- `Session`: the current map, its drafts and its journal.
- `Session.Step`: what an event may do.
- `Session.InOrder`: the events that publish nothing behind the back of a transaction.

## Main results

- `Session.Step.wf`: in every run the drafts of the current version are edits of its map.
- `Session.Step.draft?_eq`: a draft changes in the events of its transaction only.
-/

namespace ArbitraryComposer

/-- A transaction as an edit of a map. -/
structure Draft where
  /-- The number of the version it was opened on. -/
  base : ℕ
  /-- The map of that version. -/
  baseMap : DocMap
  /-- The working map. -/
  map : DocMap
  /-- The revision it will publish. -/
  publishRevision : ℕ
  /-- The first error. -/
  status : Option PoolError
  /-- Not yet committed or aborted. -/
  isOpen : Bool
  /-- The objects touched. -/
  touched : List ObjectId
  /-- The content states changed. -/
  contents : List ContentStateEdit
  /-- The coalescing key. -/
  coalesceKey : UInt64

/-- Whether a commit of the draft would publish. -/
def Draft.Pending (d : Draft) : Prop := d.isOpen = true ∧ d.status = none

instance (d : Draft) : Decidable d.Pending := inferInstanceAs (Decidable (_ ∧ _))

/-- A draft differs from its base in what it touched, each object once. -/
structure Draft.Framed (d : Draft) : Prop where
  /-- An object is touched once. -/
  nodup : d.touched.Nodup
  /-- What is not touched is as in the base. -/
  frame : ∀ k ∉ d.touched, d.map k = d.baseMap k

/-- The journal entry of a draft. -/
def Draft.entry (d : Draft) : JournalEntry ObjectRecord :=
  ⟨d.coalesceKey, d.touched.map fun k => ⟨k, d.baseMap k, d.map k⟩, d.contents⟩

/-- What a mutator may do to a draft. -/
structure Draft.Edited (d d' : Draft) : Prop where
  /-- Nothing follows the first error. -/
  status_eq : d.status = none
  /-- The draft is opened on the same version. -/
  base_eq : d'.base = d.base
  /-- The base map is the same. -/
  baseMap_eq : d'.baseMap = d.baseMap
  /-- It will publish the same revision. -/
  publishRevision_eq : d'.publishRevision = d.publishRevision
  /-- It is still open, or still closed. -/
  isOpen_eq : d'.isOpen = d.isOpen
  /-- What was touched stays touched. -/
  touched_subset : d.touched ⊆ d'.touched
  /-- An object is touched once. -/
  nodup : d.touched.Nodup → d'.touched.Nodup
  /-- What is not touched did not change. -/
  frame : ∀ k ∉ d'.touched, d'.map k = d.map k
  /-- What changed is stamped. -/
  stamped : ∀ k r, d'.map k = some r →
    d.map k = some r ∨ r.revision = d.publishRevision ∧ r.id = k

/-- An edited draft still differs from its base in what it touched. -/
theorem Draft.Edited.framed {d d' : Draft} (h : d.Edited d') (hd : d.Framed) : d'.Framed := by
  refine ⟨h.nodup hd.nodup, fun k hk => ?_⟩
  rw [h.frame k hk, h.baseMap_eq]
  exact hd.frame k fun hk' => hk (h.touched_subset hk')

/-- A map with some objects bound again. -/
def rebindAll (m : DocMap) (targets : List (ObjectId × Option ObjectRecord)) : DocMap :=
  targets.foldl (fun m p => Function.update m p.1 p.2) m

/-- An object is bound to one of its targets, or as before if it has none. -/
theorem rebindAll_apply (m : DocMap) (targets : List (ObjectId × Option ObjectRecord))
    (k : ObjectId) : (k ∉ targets.map Prod.fst ∧ rebindAll m targets k = m k) ∨
      ∃ o, (k, o) ∈ targets ∧ rebindAll m targets k = o := by
  induction targets generalizing m with
  | nil => exact Or.inl ⟨List.not_mem_nil, rfl⟩
  | cons p targets ih =>
    rcases ih (Function.update m p.1 p.2) with ⟨hk, heq⟩ | ⟨o, ho, heq⟩
    · by_cases hkp : k = p.1
      · subst hkp
        rw [Function.update_self] at heq
        exact Or.inr ⟨p.2, List.mem_cons_self, heq⟩
      · rw [Function.update_of_ne hkp] at heq
        refine Or.inl ⟨fun hm => ?_, heq⟩
        rcases List.mem_cons.mp hm with hm | hm
        · exact hkp hm
        · exact hk hm
    · exact Or.inr ⟨o, List.mem_cons_of_mem p ho, heq⟩

/-- Binding the objects in which two maps differ turns one into the other. -/
theorem rebindAll_eq {m m' : DocMap} {targets : List (ObjectId × Option ObjectRecord)}
    (htargets : ∀ p ∈ targets, m' p.1 = p.2) (hframe : ∀ k ∉ targets.map Prod.fst, m k = m' k) :
    rebindAll m targets = m' := by
  funext k
  rcases rebindAll_apply m targets k with ⟨hk, heq⟩ | ⟨o, ho, heq⟩
  · exact heq.trans (hframe k hk)
  · exact heq.trans (htargets _ ho).symm

/-- A run of a model as its user sees it. -/
structure Session where
  /-- The number of the current version. -/
  current : ℕ
  /-- Its revision. -/
  revision : ℕ
  /-- Its map. -/
  map : DocMap
  /-- The transactions in the order they were opened. -/
  drafts : List (Option Draft)
  /-- Whether commits are journaled. -/
  journaled : Bool
  /-- The journal. -/
  journal : Journal ObjectRecord

namespace Session

/-- A draft not yet destroyed. -/
def draft? (s : Session) (i : ℕ) : Option Draft := s.drafts[i]?.join

/-- Replace a draft. -/
def setDraft (s : Session) (i : ℕ) (d : Option Draft) : Session :=
  { s with drafts := s.drafts.set i d }

/-- A draft of the current version. -/
def fork (s : Session) : Draft where
  base := s.current
  baseMap := s.map
  map := s.map
  publishRevision := s.revision + 1
  status := none
  isOpen := true
  touched := []
  contents := []
  coalesceKey := noCoalesce

/-- A new version is published. -/
def publish (s : Session) (revision : ℕ) (map : DocMap) : Session :=
  { s with current := s.current + 1, revision := revision, map := map }

/-- A draft that was published or given up. -/
def close (d : Draft) : Draft := { d with isOpen := false, map := fun _ => none }

/-- A draft is published, and its entry is journaled. -/
def commit (s : Session) (i : ℕ) (d : Draft) : Session :=
  { (s.setDraft i (some (close d))).publish d.publishRevision d.map with
    journal := if s.journaled then (s.journal.onCommit d.entry).1 else s.journal }

/-- A version with the records of some targets is published, and the cursor moves. -/
def navigate (s : Session) (targets : List (ObjectId × Option ObjectRecord)) (cursor : ℕ) :
    Session :=
  { s.publish (s.revision + 1) (rebindAll s.map targets) with
    journal := { s.journal with cursor := cursor } }

/-- What an event may do. -/
inductive Step : ModelEvent → Session → Session → Prop where
  /-- The operation was refused, or nothing a session shows has changed. -/
  | stay (e : ModelEvent) (s : Session) : Step e s s
  | transact (s : Session) : Step .transact s { s with drafts := s.drafts ++ [some s.fork] }
  | mutate {s : Session} {t i : ℕ} {m : Mutator} {d d' : Draft} (hd : s.draft? i = some d)
      (h : d.Edited d') : Step (.mutate t i m) s (s.setDraft i (some d'))
  | coalesce {s : Session} {i : ℕ} {d : Draft} (key : UInt64) (hd : s.draft? i = some d) :
      Step (.coalesce i key) s (s.setDraft i (some { d with coalesceKey := key }))
  | fail {s : Session} {i : ℕ} {d : Draft} (e : PoolError) (hd : s.draft? i = some d) :
      Step (.commit i) s (s.setDraft i (some { d with status := some e }))
  | commit {s : Session} {i : ℕ} {d : Draft} (hd : s.draft? i = some d) (h : d.Pending) :
      Step (.commit i) s (s.commit i d)
  | abort {s : Session} {i : ℕ} {d : Draft} (hd : s.draft? i = some d) :
      Step (.abort i) s (s.setDraft i (some { close d with touched := [], contents := [] }))
  | destroy {s : Session} {i : ℕ} {d : Draft} (hd : s.draft? i = some d) :
      Step (.destroy i) s (s.setDraft i none)
  | undo {s : Session} {t c : ℕ} (stored : Stored ObjectRecord) (hc : s.journal.cursor = c + 1)
      (he : s.journal.entries[c]? = some stored) :
      Step (.undo t) s (s.navigate stored.entry.befores c)
  | redo {s : Session} {t : ℕ} (stored : Stored ObjectRecord)
      (he : s.journal.entries[s.journal.cursor]? = some stored) :
      Step (.redo t) s (s.navigate stored.entry.afters (s.journal.cursor + 1))
  | setByteBudget (s : Session) (bytes : ℕ) : Step (.setByteBudget bytes) s
      { s with journal := (s.journal.setByteBudget bytes).1 }
  | loadBaseline {s : Session} {t : ℕ} {ms : List Mutator} {m : DocMap}
      (h : ∀ k r, m k = some r → s.map k = some r ∨ r.revision = 0 ∧ r.id = k) :
      Step (.loadBaseline t ms) s (s.publish 0 m)

/-- Nothing is published behind the back of a transaction: a commit is made on the current version,
and a baseline is loaded before anything is published. -/
def InOrder (e : ModelEvent) (s : Session) : Prop :=
  match e with
  | .commit i => ∀ d ∈ s.draft? i, d.Pending → d.base = s.current
  | .loadBaseline _ _ => s.current = 0
  | _ => True

instance (e : ModelEvent) (s : Session) : Decidable (s.InOrder e) := by
  unfold InOrder
  rcases e with ⟨⟩ <;> infer_instance

/-! ## Drafts -/

/-- The drafts of a session fit their base. -/
structure Wf (s : Session) : Prop where
  /-- A draft was opened on a version published already. -/
  base_le : ∀ d, some d ∈ s.drafts → d.base ≤ s.current
  /-- A draft of the current version was forked from the current map. -/
  base_eq : ∀ d, some d ∈ s.drafts → d.base = s.current →
    d.baseMap = s.map ∧ d.publishRevision = s.revision + 1
  /-- An open draft differs from its base in what it touched. -/
  framed : ∀ d, some d ∈ s.drafts → d.isOpen = true → d.Framed

variable {s s' : Session} {i : ℕ} {d : Draft} {o : Option Draft}

theorem some_mem_of_draft? (h : s.draft? i = some d) : some d ∈ s.drafts := by
  rw [draft?, Option.join_eq_some_iff] at h
  exact List.mem_of_getElem? h

/-- A draft found after one was replaced is the new one, or one of the others. -/
theorem draft?_setDraft {j : ℕ} (h : (s.setDraft i o).draft? j = some d) :
    (j = i ∧ o = some d) ∨ (j ≠ i ∧ s.draft? j = some d) := by
  by_cases hji : j = i
  · subst hji
    rw [draft?, setDraft, Option.join_eq_some_iff] at h
    have hlt : j < s.drafts.length := by
      have := (List.getElem?_eq_some_iff.mp h).1
      rwa [List.length_set] at this
    rw [List.getElem?_set_self hlt] at h
    exact Or.inl ⟨rfl, Option.some.inj h⟩
  · rw [draft?, setDraft, List.getElem?_set_ne (Ne.symm hji)] at h
    exact Or.inr ⟨hji, h⟩

theorem draft?_setDraft_self (h : s.draft? i = some d) : (s.setDraft i o).draft? i = o := by
  rw [draft?, Option.join_eq_some_iff] at h
  rw [draft?, setDraft, List.getElem?_set_self (List.getElem?_eq_some_iff.mp h).1]
  rfl

theorem draft?_setDraft_of_ne {j : ℕ} (hne : j ≠ i) : (s.setDraft i o).draft? j = s.draft? j := by
  rw [draft?, setDraft, List.getElem?_set_ne hne.symm]
  rfl

theorem Wf.setDraft (h : s.Wf) (hd : s.draft? i = some d)
    (ho : ∀ d' ∈ o, d'.base = d.base ∧ d'.baseMap = d.baseMap ∧
      d'.publishRevision = d.publishRevision ∧ (d'.isOpen = true → d'.Framed)) :
    (s.setDraft i o).Wf := by
  have hmem := some_mem_of_draft? hd
  refine ⟨fun d' hd' => ?_, fun d' hd' hbase => ?_, fun d' hd' hopen => ?_⟩ <;>
    rcases List.mem_or_eq_of_mem_set hd' with hd' | rfl
  · exact h.base_le d' hd'
  · rw [(ho d' rfl).1]
    exact h.base_le d hmem
  · exact h.base_eq d' hd' hbase
  · obtain ⟨hb, hm, hr, -⟩ := ho d' rfl
    rw [hm, hr]
    exact h.base_eq d hmem (hb ▸ hbase)
  · exact h.framed d' hd' hopen
  · exact (ho d' rfl).2.2.2 hopen

/-- After a publication no draft is one of the current version. -/
theorem Wf.publish (h : s.Wf) (revision : ℕ) (map : DocMap) : (s.publish revision map).Wf := by
  have hlt : ∀ d, some d ∈ s.drafts → d.base < s.current + 1 := fun d hd =>
    Nat.lt_succ_of_le (h.base_le d hd)
  exact ⟨fun d hd => (hlt d hd).le, fun d hd hbase => absurd hbase (hlt d hd).ne, h.framed⟩

theorem Wf.setJournal (h : s.Wf) (j : Journal ObjectRecord) : ({ s with journal := j } : Session).Wf :=
  ⟨h.base_le, h.base_eq, h.framed⟩

theorem framed_fork (s : Session) : s.fork.Framed := ⟨List.nodup_nil, fun _ _ => rfl⟩

/-- The events of one transaction. -/
def actsOn (i : ℕ) : ModelEvent → Bool
  | .mutate _ j _ | .coalesce j _ | .commit j | .abort j | .destroy j => i = j
  | _ => false

/-- Only the events of a transaction change its draft. -/
theorem Step.draft?_eq {e : ModelEvent} (h : Step e s s') (hd : s.draft? i = some d)
    (he : actsOn i e = false) : s'.draft? i = some d := by
  cases h with
  | transact =>
    rw [draft?, Option.join_eq_some_iff] at hd ⊢
    exact List.getElem?_append_left (List.getElem?_eq_some_iff.mp hd).1 ▸ hd
  | mutate | coalesce | fail | commit | abort | destroy =>
    exact (draft?_setDraft_of_ne (of_decide_eq_false he)).trans hd
  | stay | undo | redo | setByteBudget | loadBaseline => exact hd

theorem Step.wf {e : ModelEvent} (h : Step e s s') (hs : s.Wf) : s'.Wf := by
  cases h with
  | stay => exact hs
  | transact =>
    refine ⟨fun d hd => ?_, fun d hd hbase => ?_, fun d hd hopen => ?_⟩ <;>
      rcases List.mem_append.mp hd with hd | hd
    · exact hs.base_le d hd
    · obtain rfl : d = s.fork := by simpa using hd
      exact le_rfl
    · exact hs.base_eq d hd hbase
    · obtain rfl : d = s.fork := by simpa using hd
      exact ⟨rfl, rfl⟩
    · exact hs.framed d hd hopen
    · obtain rfl : d = s.fork := by simpa using hd
      exact framed_fork s
  | @mutate _ _ _ _ d d' hd hedit =>
    refine hs.setDraft hd ?_
    rintro d'' ⟨⟩
    refine ⟨hedit.base_eq, hedit.baseMap_eq, hedit.publishRevision_eq, fun hopen => ?_⟩
    exact hedit.framed (hs.framed d (some_mem_of_draft? hd) (hedit.isOpen_eq ▸ hopen))
  | @coalesce _ _ d key hd =>
    refine hs.setDraft hd ?_
    rintro d' ⟨⟩
    refine ⟨rfl, rfl, rfl, fun hopen => ?_⟩
    obtain ⟨hn, hf⟩ := hs.framed d (some_mem_of_draft? hd) hopen
    exact ⟨hn, hf⟩
  | @fail _ _ d e hd =>
    refine hs.setDraft hd ?_
    rintro d' ⟨⟩
    refine ⟨rfl, rfl, rfl, fun hopen => ?_⟩
    obtain ⟨hn, hf⟩ := hs.framed d (some_mem_of_draft? hd) hopen
    exact ⟨hn, hf⟩
  | @commit _ _ d hd hpending =>
    refine Wf.setJournal ((hs.setDraft hd ?_).publish _ _) _
    rintro d' ⟨⟩
    exact ⟨rfl, rfl, rfl, fun hopen => absurd hopen Bool.false_ne_true⟩
  | @abort _ _ d hd =>
    refine hs.setDraft hd ?_
    rintro d' ⟨⟩
    exact ⟨rfl, rfl, rfl, fun hopen => absurd hopen Bool.false_ne_true⟩
  | @destroy _ _ d hd =>
    refine hs.setDraft hd ?_
    rintro d' ⟨⟩
  | undo => exact (hs.publish _ _).setJournal _
  | redo => exact (hs.publish _ _).setJournal _
  | setByteBudget => exact hs.setJournal _
  | loadBaseline => exact hs.publish _ _

end Session

end ArbitraryComposer
