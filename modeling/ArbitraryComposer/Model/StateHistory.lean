import ArbitraryComposer.Model.ContentStates
import ArbitraryComposer.Model.Shadow

/-!
# The History of a Content's State

A content keeps a live state of its own beside the handle its record carries. At every place in the
history the record carries a handle, or is gone but was not edited, or is gone and with it what the
live state was. An entry that notes a change of the state says where the live state goes when it is
taken back or made again; any other entry leaves it where it is.

## Main definitions

- `DocMap.stateAt`: the handle the record of a content carries.
- `Standing`, `Standing.Shift`: a place in the history, and what an entry does to it.
- `JournalEntry.Moves`: an entry leads from one map and standing to another.
- `DocMap.Keyed`, `Session.Keyed`: records are filed under their id.

## Main results

- `Standing.Shift.trans`, `JournalEntry.Moves.merge`: entries that coalesce.
- `Model.setContentState_cases`: what `set_content_state` does to a draft.
- `Model.edit_cases`: what every other mutator does to the state of a content.
-/

namespace ArbitraryComposer

open Exec Arena

/-! ## The handle of a record -/

/-- The handle a record carries. -/
def ObjectRecord.state? (r : ObjectRecord) : Option StateHandle :=
  (Object.record r).carried.map Prod.snd

/-- The handle the record of a content carries. -/
def DocMap.stateAt (m : DocMap) (c : ObjectId) : Option StateHandle :=
  (m c).bind ObjectRecord.state?

section

variable {r : ObjectRecord} {h : StateHandle} {c : ObjectId} {m : DocMap} {key : ObjectId}

theorem ObjectRecord.state?_eq_some :
    r.state? = some h ↔ ∃ cr, r.as = .content cr ∧ cr.state = h ∧ h.hasState = true := by
  obtain ⟨id, revision, as⟩ := r
  cases as with
  | content cr =>
    simp only [state?, Object.carried, Payload.content.injEq, exists_eq_left']
    by_cases hs : cr.state.hasState = true
    · rw [if_pos hs]
      exact ⟨by rintro ⟨⟩; exact ⟨rfl, hs⟩, by rintro ⟨rfl, -⟩; rfl⟩
    · rw [if_neg hs]
      exact ⟨by rintro ⟨⟩, by rintro ⟨rfl, hs'⟩; exact absurd hs' hs⟩
  | _ => exact ⟨by rintro ⟨⟩, by rintro ⟨cr, ⟨⟩, -⟩⟩

theorem ObjectRecord.state?_content (id : ObjectId) (revision : ℕ) (cr : ContentRecord) :
    ObjectRecord.state? ⟨id, revision, .content cr⟩ =
      if cr.state.hasState then some cr.state else none := by
  show Option.map Prod.snd (if cr.state.hasState then some (id, cr.state) else none) = _
  split <;> rfl

/-- A record carries its handle under its own id. -/
theorem ObjectRecord.carried_of_state? (hr : r.state? = some h) :
    (Object.record r).carried = some (r.id, h) := by
  obtain ⟨cr, has, rfl, hs⟩ := state?_eq_some.mp hr
  rw [Object.carried, has]
  exact if_pos hs

theorem DocMap.stateAt_eq_some : m.stateAt c = some h ↔ ∃ r, m c = some r ∧ r.state? = some h :=
  Option.bind_eq_some_iff

/-- Another record is put or erased. -/
theorem DocMap.stateAt_update_of_ne (hne : key ≠ c) (o : Option ObjectRecord) :
    DocMap.stateAt (Function.update m key o) c = m.stateAt c := by
  rw [stateAt, Function.update_of_ne hne.symm, stateAt]

theorem DocMap.stateAt_update_self (o : Option ObjectRecord) :
    DocMap.stateAt (Function.update m c o) c = o.bind ObjectRecord.state? := by
  rw [stateAt, Function.update_self]

end

/-! ## Records are filed under their id -/

/-- Records are filed under their id. -/
def DocMap.Keyed (m : DocMap) : Prop := ∀ k r, m k = some r → r.id = k

/-- So are those of a session. -/
structure Session.Keyed (s : Session) : Prop where
  /-- The records of the current map. -/
  current : s.map.Keyed
  /-- The records of the drafts. -/
  drafts : ∀ d, some d ∈ s.drafts → d.baseMap.Keyed ∧ d.map.Keyed
  /-- The records of the journal. -/
  entries : ∀ stored ∈ s.journal.entries, stored.entry.All fun k r => r.id = k

namespace Session

variable {s s' : Session} {i : ℕ} {d : Draft} {o : Option Draft}

/-- Records that are bound again are filed under the id they were filed under. -/
private theorem keyed_rebindAll {m : DocMap} {targets : List (ObjectId × Option ObjectRecord)}
    (hm : m.Keyed) (ht : ∀ p ∈ targets, ∀ r ∈ p.2, r.id = p.1) : (rebindAll m targets).Keyed := by
  intro k r hr
  rcases rebindAll_apply m targets k with ⟨-, heq⟩ | ⟨o, ho, heq⟩
  · exact hm k r (heq ▸ hr)
  · exact ht (k, o) ho r (heq ▸ hr)

/-- A draft is replaced. -/
private theorem Keyed.setDraft (h : s.Keyed) (ho : ∀ d ∈ o, d.baseMap.Keyed ∧ d.map.Keyed) :
    (s.setDraft i o).Keyed := by
  refine ⟨h.current, fun d hd => ?_, h.entries⟩
  rcases List.mem_or_eq_of_mem_set hd with hd | rfl
  · exact h.drafts d hd
  · exact ho d rfl

/-- The entry of a draft names records of its two maps. -/
private theorem Keyed.entry (h : s.Keyed) (hd : some d ∈ s.drafts) :
    d.entry.All fun k r => r.id = k := by
  intro oe hoe r hr
  obtain ⟨k, -, rfl⟩ := List.mem_map.mp hoe
  rcases List.mem_append.mp hr with hr | hr
  · exact (h.drafts d hd).1 k r (Option.mem_toList.mp hr)
  · exact (h.drafts d hd).2 k r (Option.mem_toList.mp hr)

/-- The targets of an entry are filed under their id. -/
private theorem forall_targets {e : JournalEntry ObjectRecord}
    (h : e.All fun k r => r.id = k) : (∀ p ∈ e.befores, ∀ r ∈ p.2, r.id = p.1) ∧
      ∀ p ∈ e.afters, ∀ r ∈ p.2, r.id = p.1 := by
  constructor <;> intro p hp r hr <;> obtain ⟨oe, hoe, rfl⟩ := List.mem_map.mp hp
  · exact h oe hoe r (List.mem_append_left _ (Option.mem_toList.mpr hr))
  · exact h oe hoe r (List.mem_append_right _ (Option.mem_toList.mpr hr))

/-- Every event keeps records filed under their id. -/
theorem Keyed.step {e : ModelEvent} (h : s.Keyed) (hstep : Step e s s') : s'.Keyed := by
  have nothing : DocMap.Keyed fun _ => none := fun k r hr => nomatch hr
  cases hstep with
  | stay => exact h
  | transact =>
    refine ⟨h.current, fun d hd => ?_, h.entries⟩
    rcases List.mem_append.mp hd with hd | hd
    · exact h.drafts d hd
    · obtain rfl : d = s.fork := by simpa using hd
      exact ⟨h.current, h.current⟩
  | @mutate _ _ _ _ d d' hd hedit =>
    obtain ⟨hbase, hmap⟩ := h.drafts d (some_mem_of_draft? hd)
    refine h.setDraft ?_
    rintro d'' ⟨⟩
    refine ⟨hedit.baseMap_eq ▸ hbase, fun k r hr => ?_⟩
    rcases hedit.stamped k r hr with hold | ⟨-, hid⟩
    · exact hmap k r hold
    · exact hid
  | @coalesce _ _ d key hd =>
    exact h.setDraft (by rintro d' ⟨⟩; exact h.drafts d (some_mem_of_draft? hd))
  | @fail _ _ d e hd =>
    exact h.setDraft (by rintro d' ⟨⟩; exact h.drafts d (some_mem_of_draft? hd))
  | @commit _ i d hd hp =>
    have hmem := some_mem_of_draft? hd
    have hclosed := h.setDraft (i := i) (o := some (close d)) (by
      rintro d' ⟨⟩
      exact ⟨(h.drafts d hmem).1, nothing⟩)
    refine ⟨(h.drafts d hmem).2, hclosed.drafts, ?_⟩
    dsimp only [Session.commit]
    split
    · exact Journal.onCommit_forall h.entries (h.entry hmem) fun e he => he.merge (h.entry hmem)
    · exact h.entries
  | abort hd =>
    refine h.setDraft ?_
    rintro d' ⟨⟩
    exact ⟨(h.drafts _ (some_mem_of_draft? hd)).1, nothing⟩
  | destroy hd => exact h.setDraft (by rintro d' ⟨⟩)
  | undo stored _ he =>
    have hall := h.entries stored (List.mem_of_getElem? he)
    exact ⟨keyed_rebindAll h.current (forall_targets hall).1, h.drafts, h.entries⟩
  | redo stored he =>
    have hall := h.entries stored (List.mem_of_getElem? he)
    exact ⟨keyed_rebindAll h.current (forall_targets hall).2, h.drafts, h.entries⟩
  | setByteBudget _ bytes =>
    refine ⟨h.current, h.drafts, fun stored hs => ?_⟩
    have hs : stored ∈ (s.journal.setByteBudget bytes).1.entries := hs
    rw [Journal.setByteBudget, Journal.trim_eq _ |>.1] at hs
    exact h.entries stored (List.mem_of_mem_drop hs)
  | loadBaseline hm =>
    refine ⟨fun k r hr => ?_, h.drafts, h.entries⟩
    rcases hm k r hr with hold | ⟨-, hid⟩
    · exact h.current k r hold
    · exact hid

end Session

/-- Records are filed under their id in every run. -/
theorem Model.keyed_of_reachable {s : Model} {allowed : ModelEvent → Model → Prop}
    (h : docModel.Reachable allowed s) : s.session.Keyed := by
  have hI : s.Inv ∧ s.session.Keyed := by
    apply h.invariant (I := fun s : Model => s.Inv ∧ s.session.Keyed)
    · intro s hs
      refine ⟨hs.inv, ?_⟩
      obtain ⟨_, _, _, _, _, _, _, -, rfl⟩ := hs
      refine ⟨?_, ?_, ?_⟩
      · rintro k r ⟨⟩
      · rintro d ⟨⟩
      · rintro stored ⟨⟩
    · intro s e s' ⟨hinv, hkeyed⟩ _ hs
      obtain ⟨hinv', hstep⟩ := Model.step_spec hinv hs
      exact ⟨hinv', hkeyed.step hstep⟩
  exact hI.2

/-! ## Standings -/

/-- What a place in the history says about the record of a content and its live state. -/
inductive Standing where
  /-- The record carries a handle, and the live state is that one. -/
  | held (h : StateHandle)
  /-- The record is gone, and the live state is the one it carried. -/
  | parked (h : StateHandle)
  /-- No record carries a handle, and nothing is said of the live state. -/
  | lost
  deriving DecidableEq

namespace Standing

variable {p q q' : Standing} {o o' : Option ContentStateEdit} {base h : StateHandle}

/-- The handle the record carries. -/
def state : Standing → Option StateHandle
  | held h => some h
  | parked _ | lost => none

/-- The live state is as a standing says. -/
def Fits : Standing → StateHandle → Prop
  | held h, base | parked h, base => base = h
  | lost, _ => True

theorem eq_held_of_state (hp : p.state = some h) : p = held h := by
  cases p with
  | held h' =>
    cases hp
    rfl
  | parked h' => cases hp
  | lost => cases hp

/-- An entry leads from one standing to another: when it notes no change of the state, the record
may only go, and otherwise the standings around it are those it notes. -/
def Shift : Option ContentStateEdit → Standing → Standing → Prop
  | none, p, q => q = p ∨ ∃ h, p = held h ∧ q = parked h
  | some ce, p, q => (p = held ce.before ∨ p = lost) ∧ (q = held ce.after ∨ q = lost)

theorem Shift.refl (p : Standing) : Shift none p p := Or.inl rfl

/-- Where no change is noted the live state fits both sides. -/
theorem Shift.fits_iff (hs : Shift none p q) : p.Fits base ↔ q.Fits base := by
  obtain rfl | ⟨h, rfl, rfl⟩ := hs
  · exact Iff.rfl
  · exact Iff.rfl

/-- The first state before and the last state after. -/
def mergeEdit : Option ContentStateEdit → Option ContentStateEdit → Option ContentStateEdit
  | none, o => o
  | some ce, none => some ce
  | some ce, some ce' => some { ce with after := ce'.after }

/-- Two entries lead from the first standing to the last, or where no record carries a handle the
live state is lost. -/
theorem Shift.trans (h : Shift o p q) (h' : Shift o' q q') :
    ∃ q'', Shift (mergeEdit o o') p q'' ∧ q''.state = q'.state ∧ (q'' = q' ∨ q'' = lost) := by
  cases o with
  | none =>
    cases o' with
    | none =>
      refine ⟨q', ?_, rfl, Or.inl rfl⟩
      obtain rfl | ⟨h₁, rfl, rfl⟩ := h
      · exact h'
      · obtain rfl | ⟨_, hne, -⟩ := h'
        · exact Or.inr ⟨h₁, rfl, rfl⟩
        · cases hne
    | some ce =>
      obtain ⟨hq, hq'⟩ := h'
      refine ⟨q', ⟨?_, hq'⟩, rfl, Or.inl rfl⟩
      obtain rfl | ⟨h₁, rfl, rfl⟩ := h
      · exact hq
      · rcases hq with hq | hq <;> cases hq
  | some ce =>
    obtain ⟨hp, hq⟩ := h
    cases o' with
    | none =>
      obtain rfl | ⟨h₁, rfl, rfl⟩ := h'
      · exact ⟨q', ⟨hp, hq⟩, rfl, Or.inl rfl⟩
      -- the entry that noted the change now ends where the record is gone
      · exact ⟨lost, ⟨hp, Or.inr rfl⟩, rfl, Or.inr rfl⟩
    | some ce' => exact ⟨q', ⟨hp, h'.2⟩, rfl, Or.inl rfl⟩

/-- From nowhere an entry that notes no change leads nowhere. -/
theorem Shift.eq_lost (h : Shift none lost q) : q = lost := by
  obtain rfl | ⟨_, hne, -⟩ := h
  · rfl
  · cases hne

/-- And nowhere it comes from nowhere. -/
theorem Shift.eq_lost' (h : Shift none p lost) : p = lost := by
  obtain rfl | ⟨_, -, hne⟩ := h
  · rfl
  · cases hne

end Standing

/-! ## Changes of the state -/

/-- The change of a content's state that a list notes. -/
def editOf (c : ObjectId) (contents : List ContentStateEdit) : Option ContentStateEdit :=
  contents.find? fun ce => ce.object = c

section

variable {c : ObjectId} {contents follow : List ContentStateEdit} {e : ContentStateEdit}

theorem editOf_cons (ce : ContentStateEdit) :
    editOf c (ce :: contents) = if ce.object = c then some ce else editOf c contents := by
  rw [editOf, List.find?_cons]
  by_cases hc : ce.object = c
  · rw [if_pos hc, decide_eq_true hc]
  · rw [if_neg hc, decide_eq_false hc]
    rfl

theorem editOf_eq_none : editOf c contents = none ↔ c ∉ contents.map ContentStateEdit.object := by
  rw [editOf, List.find?_eq_none, List.mem_map, not_exists]
  refine forall_congr' fun ce => ?_
  rw [decide_eq_true_iff, not_and]

theorem editOf_mergeContent : editOf c (mergeContent contents e) =
    if e.object = c then Standing.mergeEdit (editOf c contents) (some e)
    else editOf c contents := by
  induction contents with
  | nil => exact editOf_cons e
  | cons ce rest ih =>
    simp only [mergeContent]
    split
    · rename_i heq
      rw [editOf_cons, editOf_cons]
      by_cases hc : ce.object = c
      · rw [if_pos hc, if_pos hc, if_pos (heq.symm.trans hc)]
        rfl
      · rw [if_neg hc, if_neg hc, if_neg fun he => hc (heq.trans he)]
    · rename_i hne
      rw [editOf_cons, editOf_cons, ih]
      by_cases hc : ce.object = c
      · rw [if_pos hc, if_pos hc, if_neg fun he => hne (hc.trans he.symm)]
      · rw [if_neg hc, if_neg hc]

/-- Merging notes each content once. -/
theorem nodup_mergeContent (h : (contents.map ContentStateEdit.object).Nodup) :
    ((mergeContent contents e).map ContentStateEdit.object).Nodup := by
  have hmem (rest : List ContentStateEdit) :
      ∀ x ∈ (mergeContent rest e).map ContentStateEdit.object,
        x ∈ rest.map ContentStateEdit.object ∨ x = e.object := by
    induction rest with
    | nil => simp [mergeContent]
    | cons ce rest ih =>
      simp only [mergeContent]
      split
      · intro x hx
        exact Or.inl hx
      · intro x hx
        rcases List.mem_cons.mp hx with rfl | hx
        · exact Or.inl List.mem_cons_self
        · exact (ih x hx).imp_left (List.mem_cons_of_mem _)
  induction contents with
  | nil => exact List.nodup_singleton _
  | cons ce rest ih =>
    rw [List.map_cons, List.nodup_cons] at h
    simp only [mergeContent]
    split
    · exact List.nodup_cons.mpr h
    · rename_i hne
      refine List.nodup_cons.mpr ⟨fun hc => ?_, ih h.2⟩
      exact (hmem rest _ hc).elim h.1 hne

theorem editOf_foldl_mergeContent (h : (follow.map ContentStateEdit.object).Nodup) :
    editOf c (follow.foldl mergeContent contents) =
      Standing.mergeEdit (editOf c contents) (editOf c follow) := by
  induction follow generalizing contents with
  | nil =>
    show editOf c contents = Standing.mergeEdit (editOf c contents) none
    cases editOf c contents <;> rfl
  | cons e follow ih =>
    rw [List.map_cons, List.nodup_cons] at h
    rw [List.foldl_cons, ih h.2, editOf_mergeContent, editOf_cons]
    by_cases hc : e.object = c
    · have hnone : editOf c follow = none := editOf_eq_none.mpr (hc ▸ h.1)
      rw [if_pos hc, if_pos hc, hnone]
      cases editOf c contents <;> rfl
    · rw [if_neg hc, if_neg hc]

theorem nodup_foldl_mergeContent (h : (contents.map ContentStateEdit.object).Nodup) :
    ((follow.foldl mergeContent contents).map ContentStateEdit.object).Nodup := by
  induction follow generalizing contents with
  | nil => exact h
  | cons e follow ih => exact ih (nodup_mergeContent h)

end

/-! ## Entries -/

/-- An entry leads from one map and standing of a content to another. -/
structure JournalEntry.Moves (c : ObjectId) (e : JournalEntry ObjectRecord)
    (a b : DocMap × Standing) : Prop where
  /-- It leads from map to map. -/
  spans : e.Spans a.1 b.1
  /-- And from standing to standing. -/
  shift : Standing.Shift (editOf c e.contents) a.2 b.2
  /-- It notes a content once. -/
  nodup : (e.contents.map ContentStateEdit.object).Nodup
  /-- The standing before is that of the map. -/
  before : a.1.stateAt c = a.2.state
  /-- So is the standing after. -/
  after : b.1.stateAt c = b.2.state

/-- Entries that coalesce lead all the way. -/
theorem JournalEntry.Moves.merge {c : ObjectId} {e f : JournalEntry ObjectRecord}
    {a b : DocMap × Standing} {m : DocMap} {q : Standing} (h : e.Moves c a b)
    (hf : f.Moves c b (m, q)) :
    ∃ q', (mergeEntry e f).1.Moves c a (m, q') ∧ (q' = q ∨ q' = Standing.lost) := by
  obtain ⟨q', hshift, hstate, heq⟩ := h.shift.trans hf.shift
  refine ⟨q', ⟨h.spans.merge hf.spans, ?_, nodup_foldl_mergeContent h.nodup, h.before,
    hf.after.trans hstate.symm⟩, heq⟩
  show Standing.Shift (editOf c (f.contents.foldl mergeContent e.contents)) a.2 q'
  rw [editOf_foldl_mergeContent hf.nodup]
  exact hshift

/-- A commit extends a history by an entry that leads on, or by one merged into the newest. -/
theorem Journal.exists_tracks_onCommit {ρ M : Type} {spans : JournalEntry ρ → M → M → Prop}
    {P : M → Prop} {j : Journal ρ} {entry : JournalEntry ρ} {trail : List (M × M)} {m m' : M}
    (h : Tracks spans (j.entries.map Stored.entry) trail j.cursor m)
    (hpush : spans entry m m') (hP : P m')
    (hmerge : ∀ e₀ b, spans e₀ b m → ∃ m'', spans (mergeEntry e₀ entry).1 b m'' ∧ P m'') :
    ∃ trail' m'', P m'' ∧ Tracks spans ((j.onCommit entry).1.entries.map Stored.entry) trail'
      (j.onCommit entry).1.cursor m'' := by
  -- first the journal before the trim
  have hextend : ∃ (trail' : List (M × M)) (m'' : M), P m'' ∧ Tracks spans
      (j.extendAt entry.coalesceKey (fun e => (mergeEntry e entry).1) entry
        (j.entries.map Stored.entry)) trail'
      (j.extendAt entry.coalesceKey (fun e => (mergeEntry e entry).1) entry
        (j.entries.map Stored.entry)).length m'' := by
    unfold Journal.extendAt
    cases htip : j.coalesceTip entry.coalesceKey with
    | none => exact ⟨_, m', hP, h.push hpush⟩
    | some tip =>
      obtain ⟨hlast, hcursor, -⟩ := Journal.getLast?_of_coalesceTip htip
      have hlast' : (j.entries.map Stored.entry).getLast? = some tip.entry := by
        rw [List.getLast?_map, hlast, Option.map_some]
      rw [hcursor, ← List.length_map (f := Stored.entry)] at h
      obtain ⟨a, -, hlead, hbelow⟩ := h.below_last hlast'
      obtain ⟨m'', hm'', hP'⟩ := hmerge tip.entry a.1 hlead
      have hpushed := hbelow.push hm''
      rw [← List.dropLast_eq_take] at hpushed
      simp only [hlast', Option.map_some, Option.toList_some]
      exact ⟨_, m'', hP', hpushed⟩
  obtain ⟨trail', m'', hP', htracks⟩ := hextend
  obtain ⟨k, hk, hentries, -, hcursor⟩ := j.onCommit_annotate entry (fun a : JournalEntry ρ =>
    (mergeEntry a entry).1) entry (l := j.entries.map Stored.entry) rfl
  refine ⟨trail'.drop k, m'', hP', ?_⟩
  rw [hentries, hcursor]
  exact htracks.drop hk

/-! ## What the mutators do to a state -/

namespace Script

variable {α : Type} {t stamp : ℕ} {c : ObjectId} {m : DocMap} {n : ObjectId}
  {P : ObjectId → Payload → Bool → Prop} {N : ContentStateEdit → Prop} {G : StateHandle → Prop}

/-- A content has at the end a handle it had at first or one that was put for it. -/
theorem Ops.ensures_state {x : Script α} (h : x.Ops P N)
    (hput : ∀ cr retains, P c (.content cr) retains → cr.state.hasState = true → G cr.state)
    (hm : ∀ st, m.stateAt c = some st → G st) :
    x.Ensures stamp (fun _ m' _ => ∀ st, m'.stateAt c = some st → G st) m n := by
  induction x generalizing m n with
  | done a => exact hm
  | allocateId k ih => exact fun _ => ih _ (h _) hm
  | lookup key k ih => exact ih _ (h _) hm
  | chain kind head k ih => exact fun l _ => ih l (h l) hm
  | put key as retains k ih =>
    refine ih h.2 fun st hst => ?_
    by_cases hkey : key = c
    · subst hkey
      rw [DocMap.stateAt_update_self, Option.bind_some] at hst
      obtain ⟨cr, rfl, rfl, hstate⟩ := ObjectRecord.state?_eq_some.mp hst
      exact hput cr retains h.1 hstate
    · rw [DocMap.stateAt_update_of_ne hkey] at hst
      exact hm st hst
  | erase key k ih =>
    refine ih h fun st hst => ?_
    by_cases hkey : key = c
    · subst hkey
      rw [DocMap.stateAt_update_self] at hst
      cases hst
    · rw [DocMap.stateAt_update_of_ne hkey] at hst
      exact hm st hst
  | noteState e k ih => exact ih h.2 hm

/-- So it is when the first lookup finds what the map has. -/
theorem OpsOn.ensures_state {x : Script α} (h : x.OpsOn (fun key r => r = m.payloads key) P N)
    (hput : ∀ cr retains, P c (.content cr) retains → cr.state.hasState = true → G cr.state)
    (hm : ∀ st, m.stateAt c = some st → G st) :
    x.Ensures stamp (fun _ m' _ => ∀ st, m'.stateAt c = some st → G st) m n := by
  cases x with
  | lookup key k => exact (h _ rfl).ensures_state hput hm
  | _ => exact Ops.ensures_state (N := N) h hput hm

/-- A list of changes has the change of a content as before, and still notes a content once. -/
structure NotesApart (c : ObjectId) (l l' : List ContentStateEdit) : Prop where
  /-- The change of the content. -/
  editOf_eq : editOf c l' = editOf c l
  /-- A content is noted once. -/
  nodup : (l.map ContentStateEdit.object).Nodup → (l'.map ContentStateEdit.object).Nodup

theorem NotesApart.refl {l : List ContentStateEdit} : NotesApart c l l := ⟨rfl, id⟩

instance : IsPreorder (List ContentStateEdit) (NotesApart c) where
  refl _ := .refl
  trans _ _ _ h h' := ⟨h'.editOf_eq.trans h.editOf_eq, fun hn => h'.nodup (h.nodup hn)⟩

private theorem keeps_contents_onArena {γ : Type} (y : HeapExec γ) :
    Keeps Working.contents (onArena y) := keeps_zoom _ fun _ _ => rfl

private theorem keeps_contents_rebind (next : Option ℕ) (key : ObjectId) :
    Keeps Working.contents (rebind next key) := by
  have hassign : Keeps Working.contents (assignRoot next) :=
    keeps_bind (keeps_gets _) fun _ => keeps_bind (keeps_modify fun _ => rfl) fun _ =>
      keeps_contents_onArena _
  refine keeps_bind hassign fun _ => keeps_modify fun w => ?_
  split <;> rfl

private theorem keeps_contents_putRecord (key : ObjectId) (as : Payload) (retains : Bool) :
    Keeps Working.contents (putRecord t stamp key as retains) := by
  refine keeps_bind (keeps_contents_onArena _) fun record => keeps_ensuring ?_ ?_
  · refine keeps_bind (keeps_contents_onArena _) fun _ => keeps_bind (keeps_gets _) fun _ => ?_
    exact keeps_bind (keeps_contents_onArena _) fun _ => keeps_contents_rebind _ _
  · exact keeps_contents_onArena _

private theorem keeps_contents_eraseRecord (key : ObjectId) :
    Keeps Working.contents (eraseRecord t key) :=
  keeps_bind (keeps_gets _) fun _ =>
    keeps_bind (keeps_contents_onArena _) fun _ => keeps_contents_rebind _ _

private theorem keeps_contents_takeId : Keeps Working.contents takeId :=
  keeps_bind (keeps_gets _) fun _ => keeps_bind (keeps_modify fun _ => rfl) fun _ =>
    keeps_bind (keeps_assert _ _) fun _ => keeps_pure _

/-- A program that keeps the changes noted. -/
private theorem apart_of_keeps {γ : Type} {x : WorkingExec γ} (h : Keeps Working.contents x) :
    Evolves (Order.Preimage Working.contents (NotesApart c)) x := by
  intro w w' hw
  show NotesApart c w.contents w'.contents
  rw [h w w' hw]
  exact .refl

/-- A script that notes no change of a content leaves the one noted before. -/
theorem Ops.apart {x : Script α} (h : x.Ops P fun e => e.object ≠ c) :
    Evolves (Order.Preimage Working.contents (NotesApart c)) (x.interp t stamp) := by
  induction x with
  | done a => exact evolves_pure a
  | allocateId k ih =>
    exact evolves_bind (apart_of_keeps keeps_contents_takeId) fun id => ih id (h id)
  | lookup key k ih =>
    refine evolves_bind (evolves_gets _) fun root => ?_
    exact evolves_bind (apart_of_keeps (keeps_contents_onArena _)) fun r => ih _ (h _)
  | chain kind head k ih =>
    refine evolves_bind (evolves_gets _) fun root => ?_
    exact evolves_bind (apart_of_keeps (keeps_contents_onArena _)) fun l => ih l (h l)
  | put key as retains k ih =>
    exact evolves_bind (apart_of_keeps (keeps_contents_putRecord _ _ _)) fun _ => ih h.2
  | erase key k ih =>
    exact evolves_bind (apart_of_keeps (keeps_contents_eraseRecord _)) fun _ => ih h
  | noteState e k ih =>
    refine evolves_bind (evolves_modify fun w => ?_) fun _ => ih h.2
    refine ⟨?_, nodup_mergeContent⟩
    rw [editOf_mergeContent, if_neg h.1]

/-- What `set_content_state` does with what it finds. -/
private def stateWrites (c : ObjectId) (st : StateHandle) : Option Payload → Script Unit
  | some (.content cr) => do
    setRetained c (.content { cr with state := st })
    noteState ⟨c, cr.state, st⟩ (done ())
  | _ => pure ()

/-- `set_content_state` notes the change of the record that it finds. -/
private theorem setContentState_interp {st : StateHandle} {w : Working}
    {rest : Multiset (View × ℕ)} (hok : w.Ok rest) :
    wp ((Mutator.setContentState c st).script.interp t stamp)
      (fun _ w' => (∃ cr, w.map.payloads c = some (.content cr) ∧
          w'.contents = mergeContent w.contents ⟨c, cr.state, st⟩) ∨
        (∀ cr, w.map.payloads c ≠ some (.content cr)) ∧ w'.contents = w.contents)
      (fun _ w' => w'.contents = w.contents) (fun _ => True) w := by
  show wp (Script.interp t stamp (.lookup c _)) _ _ _ w
  rw [interp, wp_bind, wp_gets, wp_bind, onArena, wp_zoom]
  refine wp_imp (findRecord_spec (E := fun _ _ => False) hok.owned hok.isMap)
    (fun r A hA => ?_) fun _ _ hE => hE.elim
  obtain ⟨rfl, rfl⟩ := hA
  change wp (Script.interp t stamp ((stateWrites c st (w.map.payloads c)).bind _)) _ _ _ w
  cases hr : w.map.payloads c with
  | none => exact Or.inr ⟨by simp, rfl⟩
  | some as =>
    cases as with
    | content cr =>
      show wp (Script.interp t stamp (.put c _ true (.noteState _ (.done _)))) _ _ _ w
      rw [interp, wp_bind]
      refine wp_imp ((keeps_contents_putRecord _ _ _).wp w) (fun _ w₁ hw₁ => ?_) fun _ _ hE => hE
      refine Or.inl ⟨cr, rfl, ?_⟩
      show mergeContent w₁.contents _ = _
      rw [hw₁]
    | _ => exact Or.inr ⟨by simp, rfl⟩

/-- `set_content_state` changes the handle of a content record, and of nothing else. -/
private theorem ensures_setContentState_state (st : StateHandle) :
    (Mutator.setContentState c st).script.Ensures stamp (fun _ m' _ =>
      (∀ cr, m.payloads c = some (.content cr) →
        m'.stateAt c = if st.hasState then some st else none) ∧
      ((∀ cr, m.payloads c ≠ some (.content cr)) → m' = m)) m n := by
  change Script.Ensures stamp _ ((stateWrites c st (m.payloads c)).bind _) m n
  cases hr : m.payloads c with
  | none => exact ⟨by simp, fun _ => rfl⟩
  | some as =>
    cases as with
    | content cr =>
      refine ⟨fun _ _ => ?_, fun hnone => absurd rfl (hnone cr)⟩
      rw [DocMap.stateAt_update_self, Option.bind_some]
      exact ObjectRecord.state?_content c stamp { cr with state := st }
    | _ => exact ⟨by simp, fun _ => rfl⟩

end Script

namespace Model

open Script

variable {s s' : Model} {t i : ℕ} {c : ObjectId} {mu : Mutator} {txn : Transaction}

/-- The outcome of a script is the status of the transaction that runs it. -/
def EndsWith {α : Type} (r : Outcome Working PoolError Fault α) (status : Option PoolError)
    (w : Working) : Prop :=
  match status with
  | none => ∃ a, r = .ok a w
  | some e => r = .error e w

theorem EndsWith.state?_eq {α : Type} {r : Outcome Working PoolError Fault α}
    {status : Option PoolError} {w : Working} (h : EndsWith r status w) : r.state? = some w := by
  cases status with
  | none =>
    obtain ⟨a, rfl⟩ := h
    rfl
  | some e =>
    obtain rfl : r = .error e w := h
    rfl

/-- What a mutator does: nothing after the first error of its transaction, and otherwise it runs
its script on the working tree. -/
theorem mutate_cases (hs : docModel.step (.mutate t i mu) s = some s') :
    ∃ txn, s.transaction? i = some txn ∧ (txn.status ≠ none ∧ s' = s ∨
      txn.status = none ∧ ∃ (w : Working) (status : Option PoolError),
        EndsWith (mu.script.interp t txn.publishRevision
          ⟨s.arena, s.nextId, txn.root, txn.touched, txn.contents⟩) status w ∧
        s' = ({ s with arena := w.arena, nextId := w.nextId } : Model).setTransaction i
          (some { txn with
            root := w.root, touched := w.touched, contents := w.contents, status })) := by
  apply of_wp_state (P := fun s' => ∃ txn, s.transaction? i = some txn ∧ (_ ∧ s' = s ∨
    _ ∧ ∃ (w : Working) (status : Option PoolError), _ ∧ s' = _)) (F := fun _ => True) ?_ hs
  simp only [exec, mutate, wp_bind]
  refine wp_transaction trivial fun txn ht => wp_ite (fun herr => ?_) fun herr => ?_
  · refine ⟨txn, ht, Or.inl ⟨fun hnone => ?_, rfl⟩⟩
    rw [hnone] at herr
    cases herr
  have hstatus := Option.not_isSome_iff_eq_none.mp herr
  rw [wp_bind]
  unfold wp runScript
  cases hrun : mu.script.interp t txn.publishRevision
      ⟨s.arena, s.nextId, txn.root, txn.touched, txn.contents⟩ with
  | ok a w => exact ⟨txn, ht, Or.inr ⟨hstatus, w, none, ⟨a, hrun⟩, rfl⟩⟩
  | error e w => exact ⟨txn, ht, Or.inr ⟨hstatus, w, some e, hrun, rfl⟩⟩
  | fault f => exact trivial

/-- The draft of the transaction before and after a mutator that ran. -/
private theorem exists_draft_of_mutate (h : s.Inv)
    (hs : docModel.step (.mutate t i mu) s = some s') :
    (∃ d, s.session.draft? i = some d ∧ d.status ≠ none ∧ s'.session = s.session) ∨
    ∃ (txn : Transaction) (w : Working) (status : Option PoolError) (d' : Draft),
      s.transaction? i = some txn ∧ txn.status = none ∧
      EndsWith (mu.script.interp t txn.publishRevision
        ⟨s.arena, s.nextId, txn.root, txn.touched, txn.contents⟩) status w ∧
      s'.session = s.session.setDraft i (some d') ∧ (s.draft txn).Edited d' ∧
      d'.contents = w.contents ∧ d'.status = status ∧
      (status = none → ∃ a, ∀ R,
        mu.script.Ensures txn.publishRevision R (docMap s.arena txn.root) s.nextId →
          R a d'.map s'.nextId) := by
  obtain ⟨txn, ht, ⟨hfailed, rfl⟩ | ⟨hstatus, w, status, hrun, hs'⟩⟩ := mutate_cases hs
  · exact Or.inl ⟨_, draft?_session ht, hfailed, rfl⟩
  obtain ⟨d', hsession, hedit, hens⟩ :=
    (mutated_of_step h hs).2 (s.draft txn) (draft?_session ht) hstatus
  have hlt := (List.getElem?_eq_some_iff.mp (getElem?_of_transaction? ht)).1
  have ht' : s'.transaction? i = some { txn with
      root := w.root, touched := w.touched, contents := w.contents, status } := by
    rw [hs', transaction?, setTransaction, List.getElem?_set_self hlt]
    rfl
  have hd' : s'.session.draft? i = some d' := by
    rw [hsession, Session.draft?, Session.setDraft, List.getElem?_set_self]
    · rfl
    · rw [session, List.length_map]
      exact hlt
  obtain rfl : s'.draft _ = d' := Option.some.inj ((draft?_session ht').symm.trans hd')
  exact Or.inr ⟨txn, w, status, _, ht, hstatus, hrun, hsession, hedit, rfl, rfl, hens⟩

/-- The working tree of a transaction is in order. -/
theorem Inv.ok_working (h : s.Inv) (ht : s.transaction? i = some txn) :
    ∃ rest, (⟨s.arena, s.nextId, txn.root, txn.touched, txn.contents⟩ : Working).Ok rest := by
  have howned := h.owned
  rw [zero_add, heldRefs_eq ht] at howned
  exact ⟨_, howned, h.transaction_isMap txn (some_mem_of_transaction? ht)⟩

/-- A mutator that does not set the state of a content leaves the state and the change noted for
it, or the record goes. -/
theorem edit_cases (h : s.Inv) (hs : docModel.step (.mutate t i mu) s = some s')
    (hmu : ∀ st, mu ≠ .setContentState c st) : s'.session = s.session ∨
    ∃ d d', s.session.draft? i = some d ∧ d.status = none ∧
      s'.session = s.session.setDraft i (some d') ∧ d.Edited d' ∧
      NotesApart c d.contents d'.contents ∧
      (d'.status = none → ∀ st, d'.map.stateAt c = some st → d.map.stateAt c = some st) := by
  obtain ⟨_, -, -, heq⟩ |
      ⟨txn, w, status, d', ht, hstatus, hrun, hsession, hedit, hcontents, rfl, hens⟩ :=
    exists_draft_of_mutate h hs
  · exact Or.inl heq
  refine Or.inr ⟨s.draft txn, d', draft?_session ht, hstatus, hsession, hedit, ?_, fun hnone => ?_⟩
  · have hops : mu.script.Ops (fun _ _ _ => True) fun e => e.object ≠ c := by
      refine (mu.opsOn_script ⟨fun _ _ _ => trivial, fun _ _ _ _ _ => trivial⟩ ?_).ops
      rintro id after rfl _ _
      refine ⟨trivial, ?_⟩
      rintro (rfl : id = c)
      exact hmu after rfl
    rw [hcontents]
    have hapart : Evolves (Order.Preimage Working.contents (NotesApart c))
        (mu.script.interp t txn.publishRevision) := hops.apart
    exact hapart ⟨s.arena, s.nextId, txn.root, txn.touched, txn.contents⟩ w hrun.state?_eq
  · obtain ⟨a, hens⟩ := hens hnone
    have hops : mu.script.OpsOn (fun key r => r = (s.draft txn).map.payloads key)
        (fun key as _ => ∀ cr, key = c → as = .content cr → cr.state.hasState = true →
          (s.draft txn).map.stateAt c = some cr.state) (fun _ => True) := by
      refine mu.opsOn_script ⟨fun key as has cr _ hcr hstate => ?_,
        fun id cr cr' hfound hsame cr'' hid hcr hstate => ?_⟩ ?_
      · rw [hcr] at has
        rw [show cr.state.hasState = false from has] at hstate
        cases hstate
      -- the copy carries the handle of the record found
      · obtain rfl := Payload.content.inj hcr
        obtain ⟨r, hr, has⟩ := Option.map_eq_some_iff.mp (hid ▸ hfound.symm)
        rw [hsame] at hstate ⊢
        exact DocMap.stateAt_eq_some.mpr
          ⟨r, hr, ObjectRecord.state?_eq_some.mpr ⟨cr, has, rfl, hstate⟩⟩
      · rintro id after rfl cr _
        refine ⟨fun _ hid => ?_, trivial⟩
        rw [hid] at hmu
        exact absurd rfl (hmu after)
    exact hens _ (hops.ensures_state (fun cr _ hcr => hcr cr rfl rfl) fun st hst => hst)

/-- `set_content_state` notes the change and leaves the record with the new state, or it was
refused or found no content and notes nothing. -/
theorem setContentState_cases {st : StateHandle} (h : s.Inv)
    (hs : docModel.step (.mutate t i (.setContentState c st)) s = some s') :
    (∃ d, s.session.draft? i = some d ∧ d.status ≠ none ∧ s'.session = s.session) ∨
    ∃ d d', s.session.draft? i = some d ∧ d.status = none ∧
      s'.session = s.session.setDraft i (some d') ∧ d.Edited d' ∧
      (d'.contents = d.contents ∧ (d'.status = none → d'.map.stateAt c = d.map.stateAt c ∧
          ∀ cr, d.map.payloads c ≠ some (.content cr)) ∨
        d'.status = none ∧ ∃ cr, d.map.payloads c = some (.content cr) ∧
          d'.contents = mergeContent d.contents ⟨c, cr.state, st⟩ ∧
          d'.map.stateAt c = if st.hasState then some st else none) := by
  obtain hfailed | ⟨txn, w, status, d', ht, hstatus, hrun, hsession, hedit, hcontents, rfl, hens⟩ :=
    exists_draft_of_mutate h hs
  · exact Or.inl hfailed
  refine Or.inr ⟨s.draft txn, d', draft?_session ht, hstatus, hsession, hedit, ?_⟩
  obtain ⟨rest, hok⟩ := h.ok_working ht
  have hinterp := @setContentState_interp t txn.publishRevision c st _ _ hok
  cases hd' : d'.status with
  | some e =>
    rw [hd'] at hrun
    have hsame := of_wp_error hinterp (show _ = Outcome.error e w from hrun)
    exact Or.inl ⟨hcontents.trans hsame, nofun⟩
  | none =>
    rw [hd'] at hrun
    obtain ⟨a, hrun⟩ := hrun
    obtain ⟨_, hens⟩ := hens hd'
    obtain ⟨hset, hkept⟩ := hens _ (ensures_setContentState_state st)
    obtain ⟨cr, hcr, hnoted⟩ | ⟨hnone, hsame⟩ := of_wp_ok hinterp hrun
    · exact Or.inr ⟨rfl, cr, hcr, hcontents.trans hnoted, hset cr hcr⟩
    · refine Or.inl ⟨hcontents.trans hsame, fun _ => ⟨?_, hnone⟩⟩
      rw [hkept hnone]
      rfl

/-! ## Handles named and handles retained -/

/-- A handle that a map names is carried by a record in use. -/
private theorem Inv.nonempty_carriers {root : Option ℕ} {st : StateHandle} (h : s.Inv)
    (hmap : IsMap s.arena root) (hkeyed : (docMap s.arena root).Keyed)
    (hst : (docMap s.arena root).stateAt c = some st) :
    (s.carriers fun p => p == (c, st)).Nonempty := by
  obtain ⟨r, hr, hstate⟩ := DocMap.stateAt_eq_some.mp hst
  obtain ⟨k, hlive, hrec⟩ := exists_live_of_docMap hmap (0 + s.heldRefs) hr
  have hsound := h.owned.sound
  have hcell := (hlive.names hsound).exists_record
  rw [hrec] at hcell
  refine ⟨_, mem_carriers.mpr ⟨hlive.count_ne_zero hsound, _, hcell, ?_⟩⟩
  rw [Object.carries, ObjectRecord.carried_of_state? hstate, hkeyed c r hr]
  exact beq_self_eq_true _

/-- So is one that the current map names. -/
theorem Inv.nonempty_carriers_of_map {st : StateHandle} (h : s.Inv) (hkeyed : s.session.Keyed)
    (hst : s.session.map.stateAt c = some st) : (s.carriers fun p => p == (c, st)).Nonempty :=
  h.nonempty_carriers (h.mapAt_isMap List.mem_cons_self) hkeyed.current hst

/-- So is one that a draft names. -/
theorem Inv.nonempty_carriers_of_draft {st : StateHandle} {d : Draft} (h : s.Inv)
    (hkeyed : s.session.Keyed) (hd : s.session.draft? i = some d)
    (hst : d.map.stateAt c = some st) : (s.carriers fun p => p == (c, st)).Nonempty := by
  have hmem := Session.some_mem_of_draft? hd
  obtain ⟨o, ho, heq⟩ := List.mem_map.mp hmem
  obtain ⟨txn, rfl, rfl⟩ := Option.map_eq_some_iff.mp heq
  exact h.nonempty_carriers (h.transaction_isMap txn ho) (hkeyed.drafts _ hmem).2 hst

/-- A mutator calls for what its operations ask for. -/
private theorem logged_of_opsOn {P : ObjectId × StateHandle → Prop} {N : ContentStateEdit → Prop}
    (h : s.Inv) (hs : docModel.step (.mutate t i mu) s = some s')
    (hops : ∀ d, s.session.draft? i = some d →
      mu.script.OpsOn (fun key r => r = d.map.payloads key) (CallsFor P) N) :
    Logged P s.arena s'.arena := by
  obtain ⟨txn, ht, ⟨-, rfl⟩ | ⟨-, w, status, hrun, rfl⟩⟩ := mutate_cases hs
  · exact .refl
  obtain ⟨rest, hok⟩ := h.ok_working ht
  exact of_wp_state (P := fun w => Logged P s.arena w.arena)
    ((hops _ (draft?_session ht)).logged hok) hrun.state?_eq

/-- A mutator that does not set the state of a content retains for it only the handle that the
draft names. -/
theorem logged_edit (h : s.Inv) (hs : docModel.step (.mutate t i mu) s = some s')
    (hmu : ∀ st, mu ≠ .setContentState c st) :
    Logged (fun p => p.1 = c → ∃ d, s.session.draft? i = some d ∧ d.map.stateAt c = some p.2)
      s.arena s'.arena := by
  refine logged_of_opsOn (N := fun _ => True) h hs fun d hd => mu.opsOn_script
    ⟨fun key as has => callsFor_stateless has _, fun id cr cr' hfound hsame => ?_⟩ ?_
  · rintro _ ⟨⟩ hstate
    refine ⟨rfl, ?_⟩
    rintro (rfl : id = c)
    obtain ⟨r, hr, has⟩ := Option.map_eq_some_iff.mp hfound.symm
    refine ⟨d, hd, DocMap.stateAt_eq_some.mpr ⟨r, hr, ?_⟩⟩
    rw [hsame] at hstate
    exact ObjectRecord.state?_eq_some.mpr ⟨cr, has, hsame.symm, hsame ▸ hstate⟩
  · rintro id after rfl cr _
    refine ⟨?_, trivial⟩
    rintro _ ⟨⟩ hstate
    refine ⟨rfl, ?_⟩
    rintro (rfl : id = c)
    exact absurd rfl (hmu after)

/-- `set_content_state` retains the handle it sets. -/
theorem logged_setContentState {st : StateHandle} (h : s.Inv)
    (hs : docModel.step (.mutate t i (.setContentState c st)) s = some s') :
    Logged (fun p => p.1 = c → p.2 = st) s.arena s'.arena := by
  refine logged_of_opsOn (N := fun _ => True) h hs fun d hd => ?_
  change OpsOn _ _ _ (Mutator.script.void (setContentState c st))
  refine OpsOn.void (opsOn_find_bind fun r hr => ?_)
  split
  · refine (ops_setRetained ?_).bind fun _ => ⟨trivial, trivial⟩
    rintro _ ⟨⟩ hstate
    exact ⟨rfl, fun _ => rfl⟩
  · exact trivial

end Model

end ArbitraryComposer
