import ArbitraryComposer.Model.Refinement
import ArbitraryComposer.ToMathlib.EditHistory

/-!
# Undo and Redo

The entries of the journal, the cursor and the current map are a linear edit history as long as
every commit is made on the current version and no budget drops an entry that is not applied.
Then undo and redo lead exactly to the maps that were current around the entry. A smaller budget
set below the tip drops entries that are still to be redone, and the next redo skips them.

## Main definitions

- `JournalEntry.Spans`: an entry leads from one map to another.
- `Trail`, `undoModel`: the maps around each entry, and the model with this record of its run.
- `Model.KeepsHistory`: the events that keep the history exact.

## Main results

- `undo_exact`: in runs of such events the journal is exact.
- `undo_inexact`: in other runs it is not.
-/

namespace ArbitraryComposer

/-! ## Entries and maps -/

/-- An entry leads from one map to another: it names the objects in which they differ, each once,
with the records on both sides. -/
structure JournalEntry.Spans (e : JournalEntry ObjectRecord) (m m' : DocMap) : Prop where
  /-- An object is named once. -/
  nodup : (e.objects.map ObjectEdit.object).Nodup
  /-- The record before. -/
  before : ∀ oe ∈ e.objects, m oe.object = oe.before
  /-- The record after. -/
  after : ∀ oe ∈ e.objects, m' oe.object = oe.after
  /-- Other objects are the same. -/
  frame : ∀ k ∉ e.objects.map ObjectEdit.object, m k = m' k

namespace JournalEntry.Spans

variable {e e' : JournalEntry ObjectRecord} {m m' m'' : DocMap}

/-- Binding the records before leads back. -/
theorem rebind_befores (h : e.Spans m m') : rebindAll m' e.befores = m := by
  refine rebindAll_eq (fun p hp => ?_) fun k hk => ?_
  · obtain ⟨oe, hoe, rfl⟩ := List.mem_map.mp hp
    exact h.before oe hoe
  · rw [befores, List.map_map] at hk
    exact (h.frame k hk).symm

/-- Binding the records after leads forward. -/
theorem rebind_afters (h : e.Spans m m') : rebindAll m e.afters = m' := by
  refine rebindAll_eq (fun p hp => ?_) fun k hk => ?_
  · obtain ⟨oe, hoe, rfl⟩ := List.mem_map.mp hp
    exact h.after oe hoe
  · rw [afters, List.map_map] at hk
    exact h.frame k hk

end JournalEntry.Spans

/-- Merging one edit keeps the objects, or adds the new one. -/
theorem mergeObject_objects (objects : List (ObjectEdit ObjectRecord))
    (fe : ObjectEdit ObjectRecord) : (mergeObject objects fe).1.map ObjectEdit.object =
      if fe.object ∈ objects.map ObjectEdit.object then objects.map ObjectEdit.object
      else objects.map ObjectEdit.object ++ [fe.object] := by
  induction objects with
  | nil => rfl
  | cons be rest ih =>
    by_cases h : be.object = fe.object
    · simp only [mergeObject, List.map_cons, h, List.mem_cons, true_or, if_true]
    · have hne : ¬ fe.object = be.object := fun heq => h heq.symm
      simp only [mergeObject, if_neg h, List.map_cons, ih, List.mem_cons, hne, false_or]
      split <;> rfl

/-- A merged edit is the old one with the later record after, or the new one. -/
theorem mem_mergeObject {objects : List (ObjectEdit ObjectRecord)}
    {fe oe : ObjectEdit ObjectRecord} (hn : (objects.map ObjectEdit.object).Nodup)
    (h : oe ∈ (mergeObject objects fe).1) :
    (oe ∈ objects ∧ oe.object ≠ fe.object) ∨
      (∃ be ∈ objects, be.object = fe.object ∧ oe = { be with after := fe.after }) ∨
      (fe.object ∉ objects.map ObjectEdit.object ∧ oe = fe) := by
  induction objects with
  | nil => exact Or.inr (Or.inr ⟨List.not_mem_nil, List.mem_singleton.mp h⟩)
  | cons be rest ih =>
    rw [List.map_cons, List.nodup_cons] at hn
    by_cases hb : be.object = fe.object
    · simp only [mergeObject, if_pos hb] at h
      rcases List.mem_cons.mp h with rfl | h
      · exact Or.inr (Or.inl ⟨be, List.mem_cons_self, hb, rfl⟩)
      · refine Or.inl ⟨List.mem_cons_of_mem _ h, fun heq => hn.1 ?_⟩
        rw [hb, ← heq]
        exact List.mem_map_of_mem h
    · simp only [mergeObject, if_neg hb] at h
      rcases List.mem_cons.mp h with rfl | h
      · exact Or.inl ⟨List.mem_cons_self, hb⟩
      · rcases ih hn.2 h with ⟨hm, hne⟩ | ⟨be', hm, hobj, rfl⟩ | ⟨hm, rfl⟩
        · exact Or.inl ⟨List.mem_cons_of_mem _ hm, hne⟩
        · exact Or.inr (Or.inl ⟨be', List.mem_cons_of_mem _ hm, hobj, rfl⟩)
        · refine Or.inr (Or.inr ⟨fun hc => ?_, rfl⟩)
          rcases List.mem_cons.mp hc with hc | hc
          · exact hb hc.symm
          · exact hm hc

/-- One edit merged into an entry. -/
private theorem spans_mergeObject {e : JournalEntry ObjectRecord} {fe : ObjectEdit ObjectRecord}
    {m m' : DocMap} (h : e.Spans m m') (hfe : m' fe.object = fe.before) :
    JournalEntry.Spans { e with objects := (mergeObject e.objects fe).1 } m
      (Function.update m' fe.object fe.after) where
  nodup := by
    change ((mergeObject e.objects fe).1.map ObjectEdit.object).Nodup
    rw [mergeObject_objects]
    split
    · exact h.nodup
    · exact h.nodup.append (List.nodup_singleton _) (List.disjoint_singleton.mpr ‹_›)
  before oe hoe := by
    rcases mem_mergeObject h.nodup hoe with ⟨hm, -⟩ | ⟨be, hm, -, rfl⟩ | ⟨hm, rfl⟩
    · exact h.before oe hm
    · exact h.before be hm
    · exact (h.frame _ hm).trans hfe
  after oe hoe := by
    rcases mem_mergeObject h.nodup hoe with ⟨hm, hne⟩ | ⟨be, hm, hobj, rfl⟩ | ⟨hm, rfl⟩
    · rw [Function.update_of_ne hne]
      exact h.after oe hm
    · change Function.update m' fe.object fe.after be.object = fe.after
      rw [hobj, Function.update_self]
    · rw [Function.update_self]
  frame k hk := by
    change k ∉ (mergeObject e.objects fe).1.map ObjectEdit.object at hk
    rw [mergeObject_objects] at hk
    have hne : k ≠ fe.object := by
      rintro rfl
      split at hk
      · exact hk ‹_›
      · exact hk (List.mem_append_right _ (List.mem_singleton_self _))
    have hk' : k ∉ e.objects.map ObjectEdit.object := fun hc => by
      split at hk
      · exact hk hc
      · exact hk (List.mem_append_left _ hc)
    rw [Function.update_of_ne hne, h.frame k hk']

/-- A merged entry leads all the way. -/
theorem JournalEntry.Spans.merge {e f : JournalEntry ObjectRecord} {m m' m'' : DocMap}
    (h : e.Spans m m') (hf : f.Spans m' m'') : (mergeEntry e f).1.Spans m m'' := by
  have hmerge : ∀ (follow : List (ObjectEdit ObjectRecord)) (e : JournalEntry ObjectRecord)
      (m' : DocMap), e.Spans m m' →
      JournalEntry.Spans ⟨0, follow, []⟩ m' m'' →
      JournalEntry.Spans { e with objects := (mergeObjects e.objects follow).1 } m m'' := by
    intro follow
    induction follow with
    | nil =>
      intro e m' h hf
      have hm : m' = m'' := funext fun k => hf.frame k List.not_mem_nil
      exact hm ▸ h
    | cons fe follow ih =>
      intro e m' h hf
      have hnodup := hf.nodup
      rw [List.map_cons, List.nodup_cons] at hnodup
      have hne : ∀ oe ∈ follow, oe.object ≠ fe.object := fun oe hoe heq =>
        hnodup.1 (heq ▸ List.mem_map_of_mem hoe)
      refine ih { e with objects := (mergeObject e.objects fe).1 } _
        (spans_mergeObject h (hf.before fe List.mem_cons_self))
        ⟨hnodup.2, fun oe hoe => ?_, fun oe hoe => ?_, fun k hk => ?_⟩
      · rw [Function.update_of_ne (hne oe hoe)]
        exact hf.before oe (List.mem_cons_of_mem _ hoe)
      · exact hf.after oe (List.mem_cons_of_mem _ hoe)
      · by_cases hkf : k = fe.object
        · subst hkf
          rw [Function.update_self]
          exact (hf.after fe List.mem_cons_self).symm
        · rw [Function.update_of_ne hkf]
          refine hf.frame k fun hm => ?_
          rcases List.mem_cons.mp hm with hm | hm
          · exact hkf hm
          · exact hk hm
  have hmerged := hmerge f.objects e m' h ⟨hf.nodup, hf.before, hf.after, hf.frame⟩
  exact ⟨hmerged.nodup, hmerged.before, hmerged.after, hmerged.frame⟩

/-- The entry of a draft leads from its base to its map. -/
theorem Draft.Framed.spans {d : Draft} (h : d.Framed) : d.entry.Spans d.baseMap d.map := by
  have hobjects : d.entry.objects.map ObjectEdit.object = d.touched := by
    rw [Draft.entry, List.map_map]
    exact List.map_id _
  refine ⟨hobjects ▸ h.nodup, fun oe hoe => ?_, fun oe hoe => ?_, fun k hk => ?_⟩
  · obtain ⟨k, -, rfl⟩ := List.mem_map.mp hoe
    rfl
  · obtain ⟨k, -, rfl⟩ := List.mem_map.mp hoe
    rfl
  · rw [hobjects] at hk
    exact (h.frame k hk).symm

/-! ## Runs -/

/-- The maps before and after each entry of the journal, oldest first. -/
abbrev Trail : Type := List (DocMap × DocMap)

namespace Session

/-- The record of a run: a commit that is journaled notes the map that was current and the map it
published; one that coalesces changes the map after the newest entry. -/
def trail (e : ModelEvent) (s s' : Session) (trail : Trail) : Trail :=
  match e with
  | .commit i =>
    match s.draft? i with
    | some d =>
      if s.journaled = true ∧ s'.current ≠ s.current then
        s.journal.annotate d.entry (fun a => (a.1, s'.map)) (s.map, s'.map) trail
      else
        trail
    | none => trail
  | .setByteBudget _ => trail.drop (s.journal.entries.length - s'.journal.entries.length)
  | _ => trail

/-- The events that keep the history exact: a commit is made on the current version, a budget
leaves what can be redone in the journal, and a baseline is loaded before anything is
published. -/
def KeepsHistory (e : ModelEvent) (s : Session) : Prop :=
  match e with
  | .commit i => ∀ d ∈ s.draft? i, d.Pending → d.base = s.current
  | .setByteBudget bytes => s.journal.RedoFits bytes
  | .loadBaseline _ _ => s.current = 0
  | _ => True

instance (e : ModelEvent) (s : Session) : Decidable (s.KeepsHistory e) := by
  unfold KeepsHistory
  rcases e with ⟨⟩ <;> infer_instance

/-- The map the entries below the cursor give, applied in order to the history base. -/
def replayed (s : Session) (trail : Trail) : DocMap :=
  ((s.journal.entries.map Stored.entry).take s.journal.cursor).foldl
    (fun m e => rebindAll m e.afters) (historyBase trail s.map)

/-- The journal is a history of the current map. -/
structure Exact (s : Session) (trail : Trail) : Prop where
  /-- The entries lead to the map and away from it. -/
  tracks : Tracks JournalEntry.Spans (s.journal.entries.map Stored.entry) trail s.journal.cursor
    s.map
  /-- The costs are right. -/
  costed : s.journal.Costed
  /-- Before the first publication nothing is journaled. -/
  fresh : s.current = 0 → s.journal.entries = []
  /-- Without a sink nothing is journaled. -/
  unjournaled : s.journaled = false → s.journal.entries = []

end Session

/-- A model with the record of its run. -/
def undoModel : Machine (Model × Trail) ModelEvent :=
  docModel.observe (fun _ => []) fun e s s' => Session.trail e s.session s'.session

namespace Session

variable {s s' : Session} {trail : Trail} {i : ℕ} {d : Draft}

/-- A commit on the current version extends the history. -/
private theorem Exact.commit (h : s.Exact trail) (hwf : s.Wf) (hd : s.draft? i = some d)
    (hpending : d.Pending) (hbase : d.base = s.current) (hj : s.journaled = true) :
    (s.commit i d).Exact (s.journal.annotate d.entry (fun a => (a.1, d.map)) (s.map, d.map)
      trail) := by
  have hmem := some_mem_of_draft? hd
  have hspans : d.entry.Spans s.map d.map := by
    rw [← (hwf.base_eq d hmem hbase).1]
    exact (hwf.framed d hmem hpending.1).spans
  -- first the journal before the trim
  have hextend : Tracks JournalEntry.Spans (s.journal.extendAt d.entry.coalesceKey
      (fun e => (mergeEntry e d.entry).1) d.entry (s.journal.entries.map Stored.entry))
      (s.journal.extendAt d.entry.coalesceKey (fun a => (a.1, d.map)) (s.map, d.map) trail)
      (s.journal.extendAt d.entry.coalesceKey (fun e => (mergeEntry e d.entry).1) d.entry
        (s.journal.entries.map Stored.entry)).length d.map := by
    have htracks := h.tracks
    unfold Journal.extendAt
    cases htip : s.journal.coalesceTip d.entry.coalesceKey with
    | none => exact htracks.push hspans
    | some tip =>
      obtain ⟨hlast, hcursor, -⟩ := Journal.getLast?_of_coalesceTip htip
      have hlast' : (s.journal.entries.map Stored.entry).getLast? = some tip.entry := by
        rw [List.getLast?_map, hlast, Option.map_some]
      rw [hcursor, ← List.length_map (f := Stored.entry)] at htracks
      simp only [hlast', Option.map_some, Option.toList_some]
      exact htracks.merge hlast' fun m hm => hm.merge hspans
  obtain ⟨k, hk, hentries, hannotate, hcursor⟩ := s.journal.onCommit_annotate d.entry
    (fun a : DocMap × DocMap => (a.1, d.map)) (s.map, d.map) hextend.length_eq
  have hjournal : (s.commit i d).journal = (s.journal.onCommit d.entry).1 := by
    rw [Session.commit, if_pos hj]
  refine ⟨?_, ?_, fun h0 => absurd h0 (Nat.succ_ne_zero _), fun hj' => ?_⟩
  · rw [hjournal, hentries, hannotate, hcursor]
    exact hextend.drop hk
  · rw [hjournal]
    exact Journal.onCommit_costed h.costed d.entry
  · exact absurd hj (by rw [show s.journaled = false from hj']; exact Bool.false_ne_true)

/-- An empty journal fits every map. -/
private theorem Exact.tracks_of_nil (h : s.Exact trail) (hnil : s.journal.entries = [])
    (m : DocMap) : Tracks JournalEntry.Spans (s.journal.entries.map Stored.entry) trail
      s.journal.cursor m := by
  have htracks := h.tracks
  rw [hnil] at htracks ⊢
  exact htracks.of_nil m

/-- Where nothing happens nothing is noted. -/
theorem trail_self (e : ModelEvent) (s : Session) (l : Trail) :
    Session.trail e s s l = l := by
  cases e with
  | commit i =>
    simp only [Session.trail, ne_eq, not_true_eq_false, and_false, if_false]
    split <;> rfl
  | setByteBudget bytes => rw [Session.trail, Nat.sub_self, List.drop_zero]
  | _ => rfl

/-- The events that keep the history exact do. -/
theorem Exact.step {e : ModelEvent} (h : s.Exact trail) (hwf : s.Wf) (ha : s.KeepsHistory e)
    (hstep : Step e s s') : s'.Exact (Session.trail e s s' trail) := by
  cases hstep with
  | stay =>
    rw [trail_self]
    exact h
  | transact => exact ⟨h.tracks, h.costed, h.fresh, h.unjournaled⟩
  | mutate hd hedit => exact ⟨h.tracks, h.costed, h.fresh, h.unjournaled⟩
  | coalesce key hd => exact ⟨h.tracks, h.costed, h.fresh, h.unjournaled⟩
  | @fail _ i d err hd =>
    have hsame : Session.trail (.commit i) s (s.setDraft i (some { d with status := some err }))
        trail = trail := by
      rw [Session.trail, hd]
      exact if_neg fun hc => hc.2 rfl
    rw [hsame]
    exact ⟨h.tracks, h.costed, h.fresh, h.unjournaled⟩
  | @commit _ i d hd hpending =>
    have hbase := ha d hd hpending
    have hne : (s.commit i d).current ≠ s.current := Nat.succ_ne_self _
    rw [Session.trail, hd]
    cases hj : s.journaled with
    | true =>
      simp only [true_and, if_pos hne]
      exact h.commit hwf hd hpending hbase hj
    | false =>
      simp only [Bool.false_eq_true, false_and, if_false]
      -- the journal is empty and stays so
      have hnil := h.unjournaled hj
      have hjournal : (s.commit i d).journal = s.journal := by
        rw [Session.commit, hj]
        rfl
      refine ⟨?_, hjournal ▸ h.costed, fun h0 => absurd h0 (Nat.succ_ne_zero _), fun _ => ?_⟩
      · rw [hjournal]
        exact h.tracks_of_nil hnil _
      · rw [hjournal]
        exact hnil
  | abort hd => exact ⟨h.tracks, h.costed, h.fresh, h.unjournaled⟩
  | destroy hd => exact ⟨h.tracks, h.costed, h.fresh, h.unjournaled⟩
  | @undo _ t c stored hc he =>
    have hentry : (s.journal.entries.map Stored.entry)[c]? = some stored.entry := by
      rw [List.getElem?_map, he, Option.map_some]
    have htracks := h.tracks
    rw [hc] at htracks
    obtain ⟨a, ha, hspans, hmap⟩ := htracks.exists_left hentry
    have hnav : rebindAll s.map stored.entry.befores = a.1 := by
      rw [← hmap]
      exact hspans.rebind_befores
    refine ⟨?_, h.costed, fun h0 => absurd h0 (Nat.succ_ne_zero _), h.unjournaled⟩
    change Tracks _ _ trail c (rebindAll s.map stored.entry.befores)
    rw [hnav]
    exact htracks.undo ha
  | @redo _ t stored he =>
    have hentry : (s.journal.entries.map Stored.entry)[s.journal.cursor]? = some stored.entry := by
      rw [List.getElem?_map, he, Option.map_some]
    obtain ⟨a, ha, hspans, hmap⟩ := h.tracks.exists_right hentry
    have hnav : rebindAll s.map stored.entry.afters = a.2 := by
      rw [← hmap]
      exact hspans.rebind_afters
    refine ⟨?_, h.costed, fun h0 => absurd h0 (Nat.succ_ne_zero _), h.unjournaled⟩
    change Tracks _ _ trail (s.journal.cursor + 1) (rebindAll s.map stored.entry.afters)
    rw [hnav]
    exact h.tracks.redo ha
  | setByteBudget _ bytes =>
    have hle := Journal.trimCount_le_cursor h.costed ha
    obtain ⟨hentries, hcursor, -⟩ :=
      Journal.trim_eq { s.journal with budget := bytes }
    have hnil : ∀ hs : s.journal.entries = [], (s.journal.setByteBudget bytes).1.entries = [] := by
      intro hs
      rw [Journal.setByteBudget, hentries, hs, List.drop_nil]
    refine ⟨?_, Journal.trim_costed h.costed, fun h0 => hnil (h.fresh h0),
      fun hj => hnil (h.unjournaled hj)⟩
    change Tracks _ ((s.journal.setByteBudget bytes).1.entries.map Stored.entry)
      (trail.drop (Journal.trimCount { s.journal with budget := bytes }))
      (s.journal.setByteBudget bytes).1.cursor s.map
    rw [Journal.setByteBudget, hentries, hcursor, List.map_drop]
    exact h.tracks.drop hle
  | loadBaseline hm =>
    have h0 : s.current = 0 := ha
    have hnil := h.fresh h0
    exact ⟨h.tracks_of_nil hnil _, h.costed, fun h0 => absurd h0 (Nat.succ_ne_zero _),
      fun _ => hnil⟩

/-- A new model has no history. -/
theorem Exact.of_isStart {s : Model} (h : s.IsStart) : s.session.Exact [] := by
  obtain ⟨_, _, _, _, _, _, _, -, rfl⟩ := h
  exact ⟨.nil, rfl, fun _ => rfl, fun _ => rfl⟩

/-- An undo that published went over the entry below the cursor. -/
theorem Exact.of_undo {t : ℕ} (h : s.Exact trail) (hstep : Step (.undo t) s s')
    (hne : s'.current ≠ s.current) : ∃ c a, s.journal.cursor = c + 1 ∧ trail[c]? = some a ∧
      s.map = a.2 ∧ s'.map = a.1 ∧ s'.journal.cursor = c := by
  cases hstep with
  | stay => exact absurd rfl hne
  | @undo _ t c stored hc he =>
    have hentry : (s.journal.entries.map Stored.entry)[c]? = some stored.entry := by
      rw [List.getElem?_map, he, Option.map_some]
    have htracks := h.tracks
    rw [hc] at htracks
    obtain ⟨a, ha, hspans, hmap⟩ := htracks.exists_left hentry
    refine ⟨c, a, hc, ha, hmap.symm, ?_, rfl⟩
    change rebindAll s.map stored.entry.befores = a.1
    rw [← hmap]
    exact hspans.rebind_befores

/-- A redo that published went over the entry at the cursor. -/
theorem Exact.of_redo {t : ℕ} (h : s.Exact trail) (hstep : Step (.redo t) s s')
    (hne : s'.current ≠ s.current) : ∃ a, trail[s.journal.cursor]? = some a ∧
      s.map = a.1 ∧ s'.map = a.2 ∧ s'.journal.cursor = s.journal.cursor + 1 := by
  cases hstep with
  | stay => exact absurd rfl hne
  | @redo _ t stored he =>
    have hentry : (s.journal.entries.map Stored.entry)[s.journal.cursor]? = some stored.entry := by
      rw [List.getElem?_map, he, Option.map_some]
    obtain ⟨a, ha, hspans, hmap⟩ := h.tracks.exists_right hentry
    refine ⟨a, ha, hmap.symm, ?_, rfl⟩
    change rebindAll s.map stored.entry.afters = a.2
    rw [← hmap]
    exact hspans.rebind_afters

end Session

/-- Undo and redo are exact. In every run that keeps its history the map is what the entries
below the cursor give, applied in order to the history base; an undo that publishes leads from
the map its entry published to the map that was current before it; a redo that publishes leads
back; and neither skips an entry. -/
theorem undo_exact {p : Model × Trail}
    (h : undoModel.Reachable (fun e p => p.1.session.KeepsHistory e) p) :
    p.1.session.map = p.1.session.replayed p.2 ∧
    (∀ t p', undoModel.step (.undo t) p = some p' → p'.1.current ≠ p.1.current →
      ∃ c a, p.1.journal.cursor = c + 1 ∧ p.2[c]? = some a ∧ p.1.session.map = a.2 ∧
        p'.1.session.map = a.1 ∧ p'.1.journal.cursor = c) ∧
    (∀ t p', undoModel.step (.redo t) p = some p' → p'.1.current ≠ p.1.current →
      ∃ a, p.2[p.1.journal.cursor]? = some a ∧ p.1.session.map = a.1 ∧
        p'.1.session.map = a.2 ∧ p'.1.journal.cursor = p.1.journal.cursor + 1) := by
  obtain ⟨hinv, -, hexact⟩ := Model.session_invariant (I := Session.Exact) h
    (fun s hs => Session.Exact.of_isStart hs) fun e s s' l hwf hl ha hstep =>
      hl.step hwf ha hstep
  refine ⟨?_, fun t p' hp' hne => ?_, fun t p' hp' hne => ?_⟩
  · exact (hexact.tracks.foldl_eq fun _ _ _ hspans => hspans.rebind_afters).symm
  · have hstep := (Model.step_spec hinv (Machine.observe_step_eq_some.mp hp').1).2
    exact hexact.of_undo hstep hne
  · have hstep := (Model.step_spec hinv (Machine.observe_step_eq_some.mp hp').1).2
    exact hexact.of_redo hstep hne

/-- A composition is added, and the edit is undone and redone. -/
def undoRun : List ModelEvent :=
  [.transact, .mutate 0 0 (.addComposition 1 1), .commit 0, .undo 0, .redo 0]

theorem undo_exact_undoRun : ∃ p, undoModel.Reachable
    (fun e p => p.1.session.KeepsHistory e) p ∧ p.1.journal.cursor = 1 ∧
      p.1.session.map = p.1.session.replayed p.2 := by
  obtain ⟨p, hp, hcursor⟩ := Machine.exists_reachable (M := undoModel)
    (fun e (p : Model × Trail) => p.1.session.KeepsHistory e) undoRun
    (fun p => p.1.journal.cursor == 1) (s := (emptyModel, [])) ⟨start_emptyModel, rfl⟩
    (by decide +kernel) (by decide +kernel)
  exact ⟨p, hp, beq_iff_eq.mp hcursor, (undo_exact hp).1⟩

/-- Two edits are undone, and then the byte budget is set to nothing. -/
def budgetRun : List ModelEvent :=
  [.transact, .mutate 0 0 (.addComposition 1 1), .commit 0,
    .transact, .mutate 0 1 (.addComposition 1 1), .commit 1, .undo 0, .undo 0, .setByteBudget 0]

/-- The first edit went from the journal while it was still to be redone, so that the second
starts from a map that is not the current one. -/
theorem undo_inexact : ¬ ∀ p : Model × Trail, undoModel.Reachable
    (fun e p => p.1.session.InOrder e) p → p.1.session.map = p.1.session.replayed p.2 := by
  intro hexact
  obtain ⟨p, hp, hdiffers⟩ := Machine.exists_reachable (M := undoModel)
    (fun e (p : Model × Trail) => p.1.session.InOrder e) budgetRun
    (fun p => p.1.session.map 1 != p.1.session.replayed p.2 1) (s := (emptyModel, []))
    ⟨start_emptyModel, rfl⟩ (by decide +kernel) (by decide +kernel)
  rw [hexact p hp] at hdiffers
  simp at hdiffers

end ArbitraryComposer
