import ArbitraryComposer.Model.StateHistory

/-!
# The Live State Beside the History

A content that keeps a live state moves it when it is edited, before the transaction of the edit
is committed, and again when a navigation asks it to. Between the two the transaction that noted
the change is the only one that knows where the live state went; as long as it is left alone and
committed, the live state is where the history says.

## Main definitions

- `Draft.Notes`: a transaction that is open and changed the state.
- `Session.Live`: the live state is where the history says.
- `Session.Steady`: the events that do not part the two.

## Main results

- `Session.Live.edit`, `.set`, `.step`, `.undo`, `.redo`: what the events do to it.
-/

namespace ArbitraryComposer

/-- An open transaction that notes a change of a content's state. -/
def Draft.Notes (c : ObjectId) (d : Draft) : Prop :=
  d.isOpen = true ∧ (editOf c d.contents).isSome = true

instance (c : ObjectId) (d : Draft) : Decidable (d.Notes c) := inferInstanceAs (Decidable (_ ∧ _))

/-- An open transaction leads from the current standing of a content to one of its own, and when
it changed the state the live state is there. -/
structure Draft.Leads (c : ObjectId) (d : Draft) (p : Standing) (base : StateHandle) : Prop where
  /-- A content is noted once. -/
  nodup : (d.contents.map ContentStateEdit.object).Nodup
  /-- The standing it leads to. -/
  exists_standing : ∃ q, Standing.Shift (editOf c d.contents) p q ∧
    (d.status = none → d.map.stateAt c = q.state) ∧
    ((editOf c d.contents).isSome = true → q.Fits base)

namespace Session

/-- No transaction but perhaps one is open and changed the state. -/
def Alone (c : ObjectId) (s : Session) (i : ℕ) : Prop :=
  ∀ j < s.drafts.length, j ≠ i → ∀ d ∈ s.draft? j, ¬ d.Notes c

/-- No transaction is open that changed the state. -/
def Settled (c : ObjectId) (s : Session) : Prop :=
  ∀ j < s.drafts.length, ∀ d ∈ s.draft? j, ¬ d.Notes c

/-- No transaction is open. -/
def Quiet (s : Session) : Prop := ∀ j < s.drafts.length, ∀ d ∈ s.draft? j, d.isOpen = false

instance (c : ObjectId) (s : Session) (i : ℕ) : Decidable (s.Alone c i) := by
  unfold Alone
  infer_instance

instance (c : ObjectId) (s : Session) : Decidable (s.Settled c) := by
  unfold Settled
  infer_instance

instance (s : Session) : Decidable s.Quiet := by
  unfold Quiet
  infer_instance

/-- The live state of a content is where the history says. -/
structure Live (c : ObjectId) (s : Session) (base : StateHandle) (p : Standing) : Prop where
  /-- The drafts fit their base. -/
  wf : s.Wf
  /-- The costs are right. -/
  costed : s.journal.Costed
  /-- Without a sink nothing is journaled. -/
  unjournaled : s.journaled = false → s.journal.entries = []
  /-- The journal is a history of the current map and standing. -/
  tracks : ∃ trail, Tracks (JournalEntry.Moves c) (s.journal.entries.map Stored.entry) trail
    s.journal.cursor (s.map, p)
  /-- The standing is that of the current map. -/
  state : s.map.stateAt c = p.state
  /-- An open transaction on the current version leads from that standing. -/
  leads : ∀ i d, s.draft? i = some d → d.isOpen = true → d.base = s.current → d.Leads c p base
  /-- One that changed the state was opened on the current version. -/
  base_eq : ∀ i d, s.draft? i = some d → d.Notes c → d.base = s.current
  /-- There is at most one that changed the state. -/
  alone : ∀ i j d d', s.draft? i = some d → s.draft? j = some d' → d.Notes c → d'.Notes c → i = j
  /-- When there is none the live state is as the standing says. -/
  settled : s.Settled c → p.Fits base

/-- The events after which the live state is still where the history says. A transaction that
changed the state is committed on the version it was opened on before anything else is published,
or it is given up while the current map has no state for the content. -/
def Steady (c : ObjectId) (e : ModelEvent) (s : Session) : Prop :=
  match e with
  | .commit i => ∀ d ∈ s.draft? i, d.Pending → d.base = s.current ∧ s.Alone c i
  | .abort i | .destroy i => ∀ d ∈ s.draft? i, d.Notes c → s.map.stateAt c = none
  | .undo _ | .redo _ => s.Settled c
  | .setByteBudget bytes => s.journal.RedoFits bytes
  | .loadBaseline _ _ => False
  | _ => True

instance (c : ObjectId) (e : ModelEvent) (s : Session) : Decidable (s.Steady c e) := by
  unfold Steady
  rcases e with ⟨⟩ <;> infer_instance

/-- Neither the journal nor a transaction notes a change of a content's state. -/
structure Silent (c : ObjectId) (s : Session) : Prop where
  /-- No entry of the journal does. -/
  entries : ∀ stored ∈ s.journal.entries, editOf c stored.entry.contents = none
  /-- No transaction does. -/
  drafts : ∀ d, some d ∈ s.drafts → editOf c d.contents = none

variable {c : ObjectId} {s s' : Session} {i : ℕ} {d d' : Draft} {o : Option Draft}
  {base base' st : StateHandle} {p p' q : Standing} {e : ModelEvent}

theorem Alone.not_notes (h : s.Alone c i) {j : ℕ} (hne : j ≠ i) (hd : s.draft? j = some d) :
    ¬ d.Notes c :=
  h j (List.getElem?_eq_some_iff.mp (Option.join_eq_some_iff.mp hd)).1 hne d hd

theorem Settled.not_notes (h : s.Settled c) (hd : s.draft? i = some d) : ¬ d.Notes c :=
  h i (List.getElem?_eq_some_iff.mp (Option.join_eq_some_iff.mp hd)).1 d hd

/-- Where no transaction is open none changed the state. -/
theorem Quiet.settled (h : s.Quiet) : s.Settled c := by
  intro j hj d hd hnotes
  have hopen := hnotes.1
  rw [h j hj d hd] at hopen
  cases hopen

/-- A transaction that changed nothing and the others make all of them. -/
theorem Alone.settled (h : s.Alone c i) (hd : ∀ d ∈ s.draft? i, ¬ d.Notes c) : s.Settled c := by
  intro j hj d' hd'
  by_cases hne : j = i
  · subst hne
    exact hd d' hd'
  · exact h j hj hne d' hd'

end Session

/-! ## Transactions -/

/-- An edit that leaves the state and the change noted for it, or takes the record. -/
theorem Draft.Leads.edit {c : ObjectId} {d d' : Draft} {p : Standing} {base : StateHandle}
    (h : d.Leads c p base) (hstatus : d.status = none)
    (hnotes : Script.NotesApart c d.contents d'.contents)
    (hstate : d'.status = none → ∀ st, d'.map.stateAt c = some st → d.map.stateAt c = some st) :
    d'.Leads c p base := by
  obtain ⟨hnodup, q, hshift, hq, hfits⟩ := h
  refine ⟨hnotes.nodup hnodup, ?_⟩
  rw [hnotes.editOf_eq]
  by_cases hsame : d'.status = none → d'.map.stateAt c = q.state
  · exact ⟨q, hshift, hsame, hfits⟩
  -- the record went
  obtain ⟨hnone, hne⟩ := Classical.not_imp.mp hsame
  have hgone : d'.map.stateAt c = none := by
    cases hst : d'.map.stateAt c with
    | none => rfl
    | some st =>
      refine absurd ?_ hne
      rw [hst, ← hq hstatus, hstate hnone st hst]
  cases q with
  | held h =>
    cases hnoted : editOf c d.contents with
    | none =>
      rw [hnoted] at hshift
      rcases hshift with hp | ⟨_, -, hne⟩
      · exact ⟨.parked h, Or.inr ⟨h, hp.symm, rfl⟩, fun _ => hgone, nofun⟩
      · cases hne
    | some ce =>
      rw [hnoted] at hshift
      exact ⟨.lost, ⟨hshift.1, Or.inr rfl⟩, fun _ => hgone, fun _ => trivial⟩
  | parked h => exact absurd hgone hne
  | lost => exact absurd hgone hne

namespace Session

variable {c : ObjectId} {s s' : Session} {i : ℕ} {d d' : Draft} {o : Option Draft}
  {base base' st : StateHandle} {p p' q : Standing} {e : ModelEvent}

/-- A transaction is replaced by one that noted the same change and leads on as it did. -/
theorem Live.setDraft (h : s.Live c base p) (hd : s.draft? i = some d)
    (hwf : (s.setDraft i o).Wf)
    (ho : ∀ d' ∈ o, d'.isOpen = true → d.isOpen = true ∧ d'.base = d.base ∧
      editOf c d'.contents = editOf c d.contents ∧ (d.Leads c p base → d'.Leads c p base))
    (hleft : d.Notes c → (∃ d' ∈ o, d'.Notes c) ∨ p.Fits base) :
    (s.setDraft i o).Live c base p := by
  have hnotes {d' : Draft} (hd' : d' ∈ o) (hn : d'.Notes c) : d.Notes c := by
    obtain ⟨hopen, -, hedit, -⟩ := ho d' hd' hn.1
    exact ⟨hopen, hedit ▸ hn.2⟩
  refine ⟨hwf, h.costed, h.unjournaled, h.tracks, h.state, fun j d' hj hopen hbase => ?_,
    fun j d' hj hn => ?_, fun j k d₁ d₂ hj hk hn₁ hn₂ => ?_, fun hsettled => ?_⟩
  · obtain ⟨rfl, ho'⟩ | ⟨-, hj⟩ := draft?_setDraft hj
    · obtain ⟨hopen', hb, -, hleads⟩ := ho d' ho' hopen
      exact hleads (h.leads j d hd hopen' (hb ▸ hbase))
    · exact h.leads j d' hj hopen hbase
  · obtain ⟨rfl, ho'⟩ | ⟨-, hj⟩ := draft?_setDraft hj
    · obtain ⟨-, hb, -, -⟩ := ho d' ho' hn.1
      rw [hb]
      exact h.base_eq j d hd (hnotes ho' hn)
    · exact h.base_eq j d' hj hn
  · rcases draft?_setDraft hj with ⟨rfl, ho₁⟩ | ⟨-, hj₁⟩
    · rcases draft?_setDraft hk with ⟨rfl, -⟩ | ⟨-, hk₁⟩
      · rfl
      · exact h.alone j k d d₂ hd hk₁ (hnotes ho₁ hn₁) hn₂
    · rcases draft?_setDraft hk with ⟨rfl, ho₂⟩ | ⟨-, hk₁⟩
      · exact h.alone j k d₁ d hj₁ hd hn₁ (hnotes ho₂ hn₂)
      · exact h.alone j k d₁ d₂ hj₁ hk₁ hn₁ hn₂
  · by_cases hn : d.Notes c
    · rcases hleft hn with ⟨d', hd', hn'⟩ | hfits
      · have hself : (s.setDraft i o).draft? i = some d' := by
          rw [draft?_setDraft_self hd]
          exact hd'
        exact absurd hn' (hsettled.not_notes hself)
      · exact hfits
    · refine h.settled fun j hj d' hd' => ?_
      by_cases hji : j = i
      · subst hji
        obtain rfl : d = d' := Option.some.inj (hd.symm.trans hd')
        exact hn
      · rw [← draft?_setDraft_of_ne (o := o) hji] at hd'
        exact hsettled.not_notes hd'

/-- An edit leaves the state and the change noted for it, or it takes the record. -/
theorem Live.edit (h : s.Live c base p) (hd : s.draft? i = some d) (hedit : d.Edited d')
    (hwf : (s.setDraft i (some d')).Wf) (hnotes : Script.NotesApart c d.contents d'.contents)
    (hstate : d'.status = none → ∀ st, d'.map.stateAt c = some st → d.map.stateAt c = some st) :
    (s.setDraft i (some d')).Live c base p := by
  refine h.setDraft hd hwf ?_ fun hn => Or.inl ⟨d', rfl, hedit.isOpen_eq ▸ hn.1, ?_⟩
  · rintro d'' ⟨⟩ hopen
    exact ⟨hedit.isOpen_eq ▸ hopen, hedit.base_eq, hnotes.editOf_eq,
      fun hleads => hleads.edit hedit.status_eq hnotes hstate⟩
  · rw [hnotes.editOf_eq]
    exact hn.2

/-- The transaction of a mutator stays on its version. -/
theorem Step.exists_of_mutate {t i : ℕ} {mu : Mutator} (h : Step (.mutate t i mu) s s')
    (hd' : s'.draft? i = some d') : s'.current = s.current ∧ ∃ d, s.draft? i = some d ∧
      d.base = d'.base ∧ d.isOpen = d'.isOpen ∧ (d'.status = none → d.status = none) := by
  cases h with
  | stay => exact ⟨rfl, d', hd', rfl, rfl, id⟩
  | mutate hd hedit =>
    rw [draft?_setDraft_self hd] at hd'
    obtain rfl := Option.some.inj hd'
    exact ⟨rfl, _, hd, hedit.base_eq.symm, hedit.isOpen_eq.symm, fun _ => hedit.status_eq⟩

/-- The content sets its state in a transaction that leaves the others behind, and moves its live
state to it. -/
theorem Live.set {cr : ContentRecord} (h : s.Live c base p) (hd : s.draft? i = some d)
    (hedit : d.Edited d') (hwf : (s.setDraft i (some d')).Wf) (hopen : d.isOpen = true)
    (hbase : d.base = s.current) (halone : s.Alone c i)
    (hrecord : d.map.payloads c = some (.content cr))
    (hcontents : d'.contents = mergeContent d.contents ⟨c, cr.state, st⟩)
    (hstate : d'.map.stateAt c = some st)
    (hold : p = .lost ∨ (d.map.stateAt c).isSome = true) :
    (s.setDraft i (some d')).Live c st p := by
  have hopen' : d'.isOpen = true := hedit.isOpen_eq ▸ hopen
  have hedits : editOf c d'.contents =
      Standing.mergeEdit (editOf c d.contents) (some ⟨c, cr.state, st⟩) := by
    rw [hcontents, editOf_mergeContent, if_pos rfl]
  have hnotes : d'.Notes c := by
    refine ⟨hopen', ?_⟩
    rw [hedits]
    cases editOf c d.contents <;> rfl
  have hself : (s.setDraft i (some d')).draft? i = some d' := draft?_setDraft_self hd
  have hleads : d'.Leads c p st := by
    obtain ⟨hnodup, q, hshift, hq, -⟩ := h.leads i d hd hopen hbase
    refine ⟨?_, .held st, ?_, fun _ => hstate, fun _ => rfl⟩
    · rw [hcontents]
      exact nodup_mergeContent hnodup
    rw [hedits]
    cases hnoted : editOf c d.contents with
    | some ce =>
      rw [hnoted] at hshift
      exact ⟨hshift.1, Or.inl rfl⟩
    | none =>
      refine ⟨?_, Or.inl rfl⟩
      rcases hold with hlost | hsome
      · exact Or.inr hlost
      -- the record found carries the handle of the standing
      · obtain ⟨st', hst'⟩ := Option.isSome_iff_exists.mp hsome
        obtain ⟨r, hr, hr'⟩ := DocMap.stateAt_eq_some.mp hst'
        obtain ⟨cr', has, rfl, -⟩ := ObjectRecord.state?_eq_some.mp hr'
        rw [DocMap.payloads_of_eq hr, has] at hrecord
        obtain rfl : cr' = cr := by injection hrecord with hrecord; injection hrecord
        rw [hnoted, Standing.eq_held_of_state ((hq hedit.status_eq).symm.trans hst')] at hshift
        rcases hshift with hp | ⟨_, -, hne⟩
        · exact Or.inl hp.symm
        · cases hne
  have hothers {j : ℕ} {d₁ : Draft} (hj : (s.setDraft i (some d')).draft? j = some d₁)
      (hn : d₁.Notes c) : j = i := by
    by_contra hne
    rw [draft?_setDraft_of_ne hne] at hj
    exact halone.not_notes hne hj hn
  refine ⟨hwf, h.costed, h.unjournaled, h.tracks, h.state, fun j d₁ hj hopen₁ hbase₁ => ?_,
    fun j d₁ hj hn => ?_, fun j k d₁ d₂ hj hk hn₁ hn₂ => ?_, fun hsettled => ?_⟩
  · by_cases hne : j = i
    · subst hne
      obtain rfl : d' = d₁ := Option.some.inj (hself.symm.trans hj)
      exact hleads
    · rw [draft?_setDraft_of_ne hne] at hj
      obtain ⟨hnodup, q, hshift, hq, -⟩ := h.leads j d₁ hj hopen₁ hbase₁
      exact ⟨hnodup, q, hshift, hq, fun hn => absurd ⟨hopen₁, hn⟩ (halone.not_notes hne hj)⟩
  · obtain rfl := hothers hj hn
    obtain rfl : d' = d₁ := Option.some.inj (hself.symm.trans hj)
    exact hedit.base_eq.trans hbase
  · rw [hothers hj hn₁, hothers hk hn₂]
  · exact absurd hnotes (hsettled.not_notes hself)

/-! ## Publications -/

/-- A version is published while no transaction is open that changed the state. -/
private theorem Live.publish {revision : ℕ} {map : DocMap} {j : Journal ObjectRecord}
    (hwf : s.Wf) (hsettled : s.Settled c) (hcosted : j.Costed)
    (hunjournaled : s.journaled = false → j.entries = [])
    (htracks : ∃ trail, Tracks (JournalEntry.Moves c) (j.entries.map Stored.entry) trail j.cursor
      (map, p)) (hstate : map.stateAt c = p.state) (hfits : p.Fits base) :
    ({ s.publish revision map with journal := j } : Session).Live c base p := by
  refine ⟨(hwf.publish revision map).setJournal j, hcosted, hunjournaled, htracks, hstate,
    fun k d hd _ hbase => ?_, fun k d hd hn => ?_, fun k l d d' hd _ hn _ => ?_, fun _ => hfits⟩
  · have hle := hwf.base_le d (some_mem_of_draft? hd)
    exact absurd hbase (Nat.lt_succ_of_le hle).ne
  · exact absurd hn (hsettled.not_notes (i := k) hd)
  · exact absurd hn (hsettled.not_notes (i := k) hd)

/-- A commit of the transaction that changed the state, or of any when there is none. -/
theorem Live.commit (h : s.Live c base p) (hd : s.draft? i = some d) (hpending : d.Pending)
    (hbase : d.base = s.current) (halone : s.Alone c i) : ∃ p', (s.commit i d).Live c base p' ∧
      (p = .lost → editOf c d.contents = none → p' = .lost) := by
  have hmem := some_mem_of_draft? hd
  obtain ⟨hnodup, q, hshift, hstate, hfits⟩ := h.leads i d hd hpending.1 hbase
  have hq := hstate hpending.2
  have hqfits : q.Fits base := by
    cases hnoted : editOf c d.contents with
    | some ce => exact hfits (by rw [hnoted]; rfl)
    | none =>
      have hsettled : s.Settled c := halone.settled fun d' hd' hn => by
        obtain rfl : d = d' := Option.some.inj (hd.symm.trans hd')
        rw [Draft.Notes, hnoted] at hn
        exact Bool.false_ne_true hn.2
      rw [hnoted] at hshift
      exact hshift.fits_iff.mp (h.settled hsettled)
  have hmoves : d.entry.Moves c (s.map, p) (d.map, q) := by
    refine ⟨?_, hshift, hnodup, h.state, hq⟩
    rw [← (h.wf.base_eq d hmem hbase).1]
    exact (h.wf.framed d hmem hpending.1).spans
  have hclosed : (s.setDraft i (some (close d))).Settled c := by
    intro j _ d' hd' hn
    obtain ⟨rfl, ho⟩ | ⟨hne, hj⟩ := draft?_setDraft hd'
    · obtain rfl := Option.some.inj ho
      exact Bool.false_ne_true hn.1
    · exact halone.not_notes hne hj hn
  have hwf : (s.setDraft i (some (close d))).Wf := by
    refine h.wf.setDraft hd ?_
    rintro d' ⟨⟩
    exact ⟨rfl, rfl, rfl, fun hopen => absurd hopen Bool.false_ne_true⟩
  obtain ⟨trail, htracks⟩ := h.tracks
  cases hj : s.journaled with
  | false =>
    -- the journal is empty and stays so
    have hnil := h.unjournaled hj
    refine ⟨q, ?_, fun hlost hnone => ?_⟩
    · rw [Session.commit, hj, if_neg Bool.false_ne_true]
      refine Live.publish hwf hclosed h.costed h.unjournaled ⟨trail, ?_⟩ hq hqfits
      rw [hnil] at htracks ⊢
      exact htracks.of_nil _
    · rw [hlost, hnone] at hshift
      exact hshift.eq_lost
  | true =>
    obtain ⟨trail', ⟨m, q'⟩, ⟨rfl, hstate', heq⟩, htracks'⟩ := Journal.exists_tracks_onCommit
      (P := fun x => x.1 = d.map ∧ x.2.state = q.state ∧ (x.2 = q ∨ x.2 = .lost)) htracks hmoves
      ⟨rfl, rfl, Or.inl rfl⟩ fun e₀ b he₀ => by
        obtain ⟨q', hq', heq⟩ := he₀.merge hmoves
        exact ⟨(d.map, q'), hq', rfl, hq'.after.symm.trans hq, heq⟩
    refine ⟨q', ?_, fun hlost hnone => ?_⟩
    · rw [Session.commit, hj, if_pos rfl]
      refine Live.publish hwf hclosed (Journal.onCommit_costed h.costed d.entry)
        (fun hf => absurd (hj.symm.trans hf) (by simp)) ⟨trail', htracks'⟩ (hq.trans hstate'.symm) ?_
      rcases heq with rfl | rfl
      · exact hqfits
      · exact trivial
    · rw [hlost, hnone] at hshift
      rw [hshift.eq_lost, or_self] at heq
      exact heq

/-- An undo leads to the standing before its entry, and moves the live state there. -/
theorem Live.undo {k : ℕ} {stored : Stored ObjectRecord} (h : s.Live c base p)
    (hsettled : s.Settled c) (hk : s.journal.cursor = k + 1)
    (hentry : s.journal.entries[k]? = some stored) :
    ∃ p', Standing.Shift (editOf c stored.entry.contents) p' p ∧
      (stored.entry.contents.map ContentStateEdit.object).Nodup ∧
      (rebindAll s.map stored.entry.befores).stateAt c = p'.state ∧
      ∀ base', p'.Fits base' → (s.navigate stored.entry.befores k).Live c base' p' := by
  obtain ⟨trail, htracks⟩ := h.tracks
  rw [hk] at htracks
  obtain ⟨a, ha, hmoves, hp⟩ := htracks.exists_left (e := stored.entry) (by
    rw [List.getElem?_map, hentry]
    rfl)
  have hmap : rebindAll s.map stored.entry.befores = a.1.1 := by
    have hback := hmoves.spans.rebind_befores
    rwa [hp] at hback
  have hstate : (rebindAll s.map stored.entry.befores).stateAt c = a.1.2.state := by
    rw [hmap]
    exact hmoves.before
  refine ⟨a.1.2, ?_, hmoves.nodup, hstate, fun base' hfits => ?_⟩
  · have hshift := hmoves.shift
    rwa [hp] at hshift
  · refine Live.publish h.wf hsettled h.costed h.unjournaled ⟨trail, ?_⟩ hstate hfits
    rw [hmap]
    exact htracks.undo ha

/-- A redo leads to the standing after its entry. -/
theorem Live.redo {stored : Stored ObjectRecord} (h : s.Live c base p) (hsettled : s.Settled c)
    (hentry : s.journal.entries[s.journal.cursor]? = some stored) :
    ∃ p', Standing.Shift (editOf c stored.entry.contents) p p' ∧
      (stored.entry.contents.map ContentStateEdit.object).Nodup ∧
      (rebindAll s.map stored.entry.afters).stateAt c = p'.state ∧
      ∀ base', p'.Fits base' →
        (s.navigate stored.entry.afters (s.journal.cursor + 1)).Live c base' p' := by
  obtain ⟨trail, htracks⟩ := h.tracks
  obtain ⟨a, ha, hmoves, hp⟩ := htracks.exists_right (e := stored.entry) (by
    rw [List.getElem?_map, hentry]
    rfl)
  have hmap : rebindAll s.map stored.entry.afters = a.2.1 := by
    have hforth := hmoves.spans.rebind_afters
    rwa [hp] at hforth
  have hstate : (rebindAll s.map stored.entry.afters).stateAt c = a.2.2.state := by
    rw [hmap]
    exact hmoves.after
  refine ⟨a.2.2, ?_, hmoves.nodup, hstate, fun base' hfits => ?_⟩
  · have hshift := hmoves.shift
    rwa [hp] at hshift
  · refine Live.publish h.wf hsettled h.costed h.unjournaled ⟨trail, ?_⟩ hstate hfits
    rw [hmap]
    exact htracks.redo ha

/-- An undo that publishes goes over the entry below the cursor. -/
theorem Step.exists_of_undo {t : ℕ} (h : Step (.undo t) s s') (hne : s'.current ≠ s.current) :
    ∃ k stored, s.journal.cursor = k + 1 ∧ s.journal.entries[k]? = some stored ∧
      s' = s.navigate stored.entry.befores k := by
  cases h with
  | stay => exact absurd rfl hne
  | undo stored hk hentry => exact ⟨_, stored, hk, hentry, rfl⟩

/-- A redo that publishes goes over the entry at the cursor. -/
theorem Step.exists_of_redo {t : ℕ} (h : Step (.redo t) s s') (hne : s'.current ≠ s.current) :
    ∃ stored, s.journal.entries[s.journal.cursor]? = some stored ∧
      s' = s.navigate stored.entry.afters (s.journal.cursor + 1) := by
  cases h with
  | stay => exact absurd rfl hne
  | redo stored hentry => exact ⟨stored, hentry, rfl⟩

/-- A transaction is given up. -/
private theorem Live.close (h : s.Live c base p) (hd : s.draft? i = some d)
    (hwf : (s.setDraft i o).Wf) (ho : ∀ d' ∈ o, d'.isOpen = false)
    (hgone : d.Notes c → s.map.stateAt c = none) : (s.setDraft i o).Live c base p := by
  refine h.setDraft hd hwf (fun d' hd' hopen => ?_) fun hn => Or.inr ?_
  · rw [ho d' hd'] at hopen
    cases hopen
  -- the transaction added the content, which has no standing without it
  · obtain ⟨-, q, hshift, -, -⟩ := h.leads i d hd hn.1 (h.base_eq i d hd hn)
    obtain ⟨ce, hce⟩ := Option.isSome_iff_exists.mp hn.2
    have hstate := h.state.symm.trans (hgone hn)
    rw [hce] at hshift
    rcases hshift.1 with rfl | rfl
    · cases hstate
    · exact trivial

/-- A transaction is opened. -/
private theorem Live.transact (h : s.Live c base p)
    (hwf : ({ s with drafts := s.drafts ++ [some s.fork] } : Session).Wf) :
    ({ s with drafts := s.drafts ++ [some s.fork] } : Session).Live c base p := by
  have hfind {j : ℕ} {d : Draft} (hj : ({ s with drafts := s.drafts ++ [some s.fork] } :
      Session).draft? j = some d) : s.draft? j = some d ∨ d = s.fork := by
    rcases Nat.lt_or_ge j s.drafts.length with hlt | hge
    · rw [draft?, List.getElem?_append_left hlt] at hj
      exact Or.inl hj
    · have hmem := List.mem_of_getElem? (Option.join_eq_some_iff.mp hj)
      rw [draft?, List.getElem?_append_right hge] at hj
      have hlast := List.mem_of_getElem? (Option.join_eq_some_iff.mp hj)
      exact Or.inr (Option.some.inj (List.mem_singleton.mp hlast))
  have hfork : ¬ s.fork.Notes c := fun hn => Bool.false_ne_true hn.2
  have hold {j : ℕ} {d : Draft} (hj : ({ s with drafts := s.drafts ++ [some s.fork] } :
      Session).draft? j = some d) (hn : d.Notes c) : s.draft? j = some d :=
    (hfind hj).resolve_right fun heq => hfork (heq ▸ hn)
  refine ⟨hwf, h.costed, h.unjournaled, h.tracks, h.state, fun j d hj hopen hbase => ?_,
    fun j d hj hn => h.base_eq j d (hold hj hn) hn,
    fun j k d d' hj hk hn hn' => h.alone j k d d' (hold hj hn) (hold hk hn') hn hn',
    fun hsettled => h.settled fun j hlt d hj => ?_⟩
  · rcases hfind hj with hj | rfl
    · exact h.leads j d hj hopen hbase
    · exact ⟨List.nodup_nil, p, .refl p, fun _ => h.state, fun hn => absurd hn Bool.false_ne_true⟩
  · refine hsettled.not_notes (i := j) ?_
    rw [draft?, List.getElem?_append_left hlt]
    exact hj

/-- Events other than mutators and navigation leave the live state where it is. -/
theorem Live.step (h : s.Live c base p) (ha : s.Steady c e) (hstep : Step e s s')
    (hmutate : ∀ t i mu, e ≠ .mutate t i mu)
    (hnavigate : (∃ t, e = .undo t ∨ e = .redo t) → s'.current = s.current) :
    ∃ p', s'.Live c base p' ∧ (p = .lost → s.Silent c → p' = .lost) := by
  have hwf := hstep.wf h.wf
  cases hstep with
  | stay => exact ⟨p, h, fun hlost _ => hlost⟩
  | transact => exact ⟨p, h.transact hwf, fun hlost _ => hlost⟩
  | mutate => exact absurd rfl (hmutate _ _ _)
  | coalesce key hd =>
    refine ⟨p, h.setDraft hd hwf ?_ fun hn => Or.inl ⟨_, rfl, hn⟩, fun hlost _ => hlost⟩
    rintro d' ⟨⟩ hopen
    exact ⟨hopen, rfl, rfl, fun hleads => ⟨hleads.nodup, hleads.exists_standing⟩⟩
  | fail err hd =>
    refine ⟨p, h.setDraft hd hwf ?_ fun hn => Or.inl ⟨_, rfl, hn⟩, fun hlost _ => hlost⟩
    rintro d' ⟨⟩ hopen
    refine ⟨hopen, rfl, rfl, fun hleads => ⟨hleads.nodup, ?_⟩⟩
    obtain ⟨q, hshift, -, hfits⟩ := hleads.exists_standing
    exact ⟨q, hshift, nofun, hfits⟩
  | commit hd hpending =>
    obtain ⟨hbase, halone⟩ := ha _ hd hpending
    obtain ⟨p', hp', hlost⟩ := h.commit hd hpending hbase halone
    exact ⟨p', hp', fun hp hsilent => hlost hp (hsilent.drafts _ (some_mem_of_draft? hd))⟩
  | abort hd =>
    refine ⟨p, h.close hd hwf ?_ (ha _ hd), fun hlost _ => hlost⟩
    rintro d' ⟨⟩
    rfl
  | destroy hd =>
    refine ⟨p, h.close hd hwf ?_ (ha _ hd), fun hlost _ => hlost⟩
    rintro d' ⟨⟩
  | undo => exact absurd (hnavigate ⟨_, Or.inl rfl⟩) (Nat.succ_ne_self _)
  | redo => exact absurd (hnavigate ⟨_, Or.inr rfl⟩) (Nat.succ_ne_self _)
  | setByteBudget _ bytes =>
    refine ⟨p, ?_, fun hlost _ => hlost⟩
    have hle := Journal.trimCount_le_cursor h.costed ha
    obtain ⟨hentries, hcursor, -⟩ := Journal.trim_eq { s.journal with budget := bytes }
    obtain ⟨trail, htracks⟩ := h.tracks
    refine ⟨hwf, Journal.trim_costed h.costed, fun hj => ?_,
      ⟨trail.drop (Journal.trimCount { s.journal with budget := bytes }), ?_⟩, h.state, h.leads,
      h.base_eq, h.alone, h.settled⟩
    · show (s.journal.setByteBudget bytes).1.entries = []
      rw [Journal.setByteBudget, hentries, h.unjournaled hj, List.drop_nil]
    · show Tracks _ ((s.journal.setByteBudget bytes).1.entries.map Stored.entry) _
        (s.journal.setByteBudget bytes).1.cursor (s.map, p)
      rw [Journal.setByteBudget, hentries, hcursor, List.map_drop]
      exact htracks.drop hle
  | loadBaseline => exact ha.elim

/-! ## A content that is not there yet -/

/-- Changes of other contents are merged. -/
private theorem editOf_foldl_mergeContent_of_none {contents follow : List ContentStateEdit}
    (h : editOf c contents = none) (hf : editOf c follow = none) :
    editOf c (follow.foldl mergeContent contents) = none := by
  induction follow generalizing contents with
  | nil => exact h
  | cons ce follow ih =>
    rw [editOf_cons] at hf
    split at hf
    · cases hf
    · rename_i hne
      refine ih ?_ hf
      rw [editOf_mergeContent, if_neg hne]
      exact h

theorem Silent.setDraft (h : s.Silent c) (ho : ∀ d ∈ o, editOf c d.contents = none) :
    (s.setDraft i o).Silent c := by
  refine ⟨h.entries, fun d hd => ?_⟩
  rcases List.mem_or_eq_of_mem_set hd with hd | rfl
  · exact h.drafts d hd
  · exact ho d rfl

/-- In silence no transaction changed the state. -/
theorem Silent.alone (h : s.Silent c) (i : ℕ) : s.Alone c i := by
  intro j _ _ d hd hn
  rw [Draft.Notes, h.drafts d (some_mem_of_draft? hd)] at hn
  exact Bool.false_ne_true hn.2

/-- Only a mutator may break the silence. -/
theorem Silent.step (h : s.Silent c) (hstep : Step e s s')
    (hmutate : ∀ t i mu, e ≠ .mutate t i mu) : s'.Silent c := by
  cases hstep with
  | stay => exact h
  | transact =>
    refine ⟨h.entries, fun d hd => ?_⟩
    rcases List.mem_append.mp hd with hd | hd
    · exact h.drafts d hd
    · obtain rfl : d = s.fork := by simpa using hd
      rfl
  | mutate => exact absurd rfl (hmutate _ _ _)
  | @coalesce _ _ d key hd =>
    refine h.setDraft ?_
    rintro d' ⟨⟩
    exact h.drafts d (some_mem_of_draft? hd)
  | @fail _ _ d err hd =>
    refine h.setDraft ?_
    rintro d' ⟨⟩
    exact h.drafts d (some_mem_of_draft? hd)
  | @commit _ i d hd hpending =>
    have hnone := h.drafts d (some_mem_of_draft? hd)
    have hclosed := h.setDraft (i := i) (o := some (close d)) (by
      rintro d' ⟨⟩
      exact hnone)
    refine ⟨?_, hclosed.drafts⟩
    dsimp only [Session.commit]
    split
    · exact Journal.onCommit_forall (P := fun e => editOf c e.contents = none) h.entries hnone
        fun e he => editOf_foldl_mergeContent_of_none he hnone
    · exact h.entries
  | abort hd =>
    refine h.setDraft ?_
    rintro d' ⟨⟩
    rfl
  | destroy hd =>
    refine h.setDraft ?_
    rintro d' ⟨⟩
  | undo => exact ⟨h.entries, h.drafts⟩
  | redo => exact ⟨h.entries, h.drafts⟩
  | setByteBudget _ bytes =>
    refine ⟨fun stored hs => ?_, h.drafts⟩
    have hs : stored ∈ (s.journal.setByteBudget bytes).1.entries := hs
    rw [Journal.setByteBudget, Journal.trim_eq _ |>.1] at hs
    exact h.entries stored (List.mem_of_mem_drop hs)
  | loadBaseline => exact ⟨h.entries, h.drafts⟩

/-- A new model has no history. -/
theorem Live.of_isStart {m : Model} (h : m.IsStart) : m.session.Live c base .lost := by
  obtain ⟨_, _, _, _, _, _, _, -, rfl⟩ := h
  refine ⟨⟨nofun, nofun, nofun⟩, rfl, fun _ => rfl, ⟨[], .nil⟩, rfl, nofun, nofun, nofun,
    fun _ => trivial⟩

theorem Silent.of_isStart {m : Model} (h : m.IsStart) : m.session.Silent c := by
  obtain ⟨_, _, _, _, _, _, _, -, rfl⟩ := h
  exact ⟨nofun, nofun⟩

end Session

end ArbitraryComposer
