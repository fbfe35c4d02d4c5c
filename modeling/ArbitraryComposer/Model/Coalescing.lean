import ArbitraryComposer.Model.CommitDamage
import ArbitraryComposer.Model.Undo
import ArbitraryComposer.ToMathlib.DoubleOrder

/-!
# Coalesced Entries

A commit with the key of the newest entry merges its entry into that one. The merged entry keeps
the records before of the first and takes the records after of the second, object by object. It
does to every map what the two do one after the other, as long as each of them names an object
once, and a transaction notes an object once. What either damages stays damaged.

## Main definitions

- `JournalEntry.NamesOnce`: no object is named twice.
- `Damage.Covers`: one damage covers another.

## Main results

- `rebindAll_befores_mergeEntry`, `rebindAll_afters_mergeEntry`: what a merged entry does to a map.
- `exists_covers_addAllDamage`: gathered damage covers what was gathered.
- `coalesce_undoEquivalent`: in every run, a commit that coalesces leaves such an entry.
-/

namespace ArbitraryComposer

/-! ## Binding objects again -/

section Rebind

variable {m : DocMap} {targets : List (ObjectId × Option ObjectRecord)} {k : ObjectId}
  {o : Option ObjectRecord}

theorem rebindAll_append (m : DocMap) (targets targets' : List (ObjectId × Option ObjectRecord)) :
    rebindAll m (targets ++ targets') = rebindAll (rebindAll m targets) targets' :=
  List.foldl_append ..

/-- What an object was bound to before does not matter when it is bound again. -/
theorem rebindAll_update_of_mem (h : k ∈ targets.map Prod.fst) :
    rebindAll (Function.update m k o) targets = rebindAll m targets := by
  induction targets generalizing m with
  | nil => exact absurd h List.not_mem_nil
  | cons p targets ih =>
    show rebindAll (Function.update (Function.update m k o) p.1 p.2) targets =
      rebindAll (Function.update m p.1 p.2) targets
    by_cases hkp : k = p.1
    · rw [hkp, Function.update_idem]
    · rw [Function.update_comm hkp]
      exact ih ((List.mem_cons.mp h).resolve_left hkp)

/-- An object that is not bound again can as well be bound last. -/
theorem rebindAll_update_of_not_mem (h : k ∉ targets.map Prod.fst) :
    rebindAll (Function.update m k o) targets = Function.update (rebindAll m targets) k o := by
  induction targets generalizing m with
  | nil => rfl
  | cons p targets ih =>
    have hkp : k ≠ p.1 := fun heq => h (heq ▸ List.mem_cons_self)
    have hk : k ∉ targets.map Prod.fst := fun hmem => h (List.mem_cons_of_mem _ hmem)
    show rebindAll (Function.update (Function.update m k o) p.1 p.2) targets = _
    rw [Function.update_comm hkp]
    exact ih hk

end Rebind

/-! ## Merged entries -/

/-- No object is named twice. -/
def JournalEntry.NamesOnce (e : JournalEntry ObjectRecord) : Prop :=
  (e.objects.map ObjectEdit.object).Nodup

section Merge

variable {objects follow : List (ObjectEdit ObjectRecord)} {fe : ObjectEdit ObjectRecord}

/-- The records before, with their objects. -/
private def targetsBefore (objects : List (ObjectEdit ObjectRecord)) :
    List (ObjectId × Option ObjectRecord) := objects.map fun oe => (oe.object, oe.before)

/-- The records after, with their objects. -/
private def targetsAfter (objects : List (ObjectEdit ObjectRecord)) :
    List (ObjectId × Option ObjectRecord) := objects.map fun oe => (oe.object, oe.after)

private theorem fst_targetsBefore (objects : List (ObjectEdit ObjectRecord)) :
    (targetsBefore objects).map Prod.fst = objects.map ObjectEdit.object := by
  rw [targetsBefore, List.map_map]
  rfl

private theorem fst_targetsAfter (objects : List (ObjectEdit ObjectRecord)) :
    (targetsAfter objects).map Prod.fst = objects.map ObjectEdit.object := by
  rw [targetsAfter, List.map_map]
  rfl

/-- An object that the entry names keeps its record before; another one is appended. -/
private theorem targetsBefore_mergeObject (objects : List (ObjectEdit ObjectRecord))
    (fe : ObjectEdit ObjectRecord) : targetsBefore (mergeObject objects fe).1 =
      if fe.object ∈ objects.map ObjectEdit.object then targetsBefore objects
      else targetsBefore objects ++ [(fe.object, fe.before)] := by
  induction objects with
  | nil => rfl
  | cons be rest ih =>
    by_cases h : be.object = fe.object
    · have hmem : fe.object ∈ (be :: rest).map ObjectEdit.object :=
        List.mem_map.mpr ⟨be, List.mem_cons_self, h⟩
      rw [if_pos hmem, mergeObject, if_pos h]
      rfl
    · have hne : ¬ fe.object = be.object := fun heq => h heq.symm
      simp only [mergeObject, if_neg h, List.map_cons, List.mem_cons, hne, false_or]
      change (be.object, be.before) :: targetsBefore (mergeObject rest fe).1 = _
      rw [ih]
      split <;> rfl

/-- The earlier record before wins. -/
private theorem rebind_before_mergeObject (m : DocMap) :
    rebindAll m (targetsBefore (mergeObject objects fe).1) =
      rebindAll (Function.update m fe.object fe.before) (targetsBefore objects) := by
  rw [targetsBefore_mergeObject]
  split
  case isTrue hmem =>
    rw [rebindAll_update_of_mem]
    rwa [fst_targetsBefore]
  case isFalse hmem =>
    rw [rebindAll_append, rebindAll_update_of_not_mem]
    · rfl
    · rwa [fst_targetsBefore]

/-- The later record after wins, where no object is named twice. -/
private theorem rebind_after_mergeObject (hn : (objects.map ObjectEdit.object).Nodup) (m : DocMap) :
    rebindAll m (targetsAfter (mergeObject objects fe).1) =
      Function.update (rebindAll m (targetsAfter objects)) fe.object fe.after := by
  induction objects generalizing m with
  | nil => rfl
  | cons be rest ih =>
    obtain ⟨hbe, hn⟩ := List.nodup_cons.mp hn
    by_cases h : be.object = fe.object
    · simp only [mergeObject, if_pos h]
      have hrest : fe.object ∉ (targetsAfter rest).map Prod.fst := by
        rw [fst_targetsAfter, ← h]
        exact hbe
      show rebindAll (Function.update m be.object fe.after) (targetsAfter rest) =
        Function.update (rebindAll (Function.update m be.object be.after) (targetsAfter rest))
          fe.object fe.after
      rw [h, rebindAll_update_of_not_mem hrest, rebindAll_update_of_not_mem hrest,
        Function.update_idem]
    · simp only [mergeObject, if_neg h]
      exact ih hn _

/-- One edit more or less leaves no object named twice. -/
private theorem nodup_mergeObject (hn : (objects.map ObjectEdit.object).Nodup) :
    ((mergeObject objects fe).1.map ObjectEdit.object).Nodup := by
  rw [mergeObject_objects]
  split
  · exact hn
  · exact hn.append (List.nodup_singleton _) (List.disjoint_singleton.mpr ‹_›)

private theorem rebind_before_mergeObjects (hn : (follow.map ObjectEdit.object).Nodup)
    (m : DocMap) :
    rebindAll m (targetsBefore (mergeObjects objects follow).1) =
      rebindAll (rebindAll m (targetsBefore follow)) (targetsBefore objects) := by
  induction follow generalizing objects m with
  | nil => rfl
  | cons fe follow ih =>
    obtain ⟨hfe, hn⟩ := List.nodup_cons.mp hn
    simp only [mergeObjects]
    rw [ih hn, rebind_before_mergeObject]
    congr 1
    refine (rebindAll_update_of_not_mem ?_).symm
    rwa [fst_targetsBefore]

private theorem rebind_after_mergeObjects (hn : (objects.map ObjectEdit.object).Nodup)
    (m : DocMap) :
    rebindAll m (targetsAfter (mergeObjects objects follow).1) =
      rebindAll (rebindAll m (targetsAfter objects)) (targetsAfter follow) := by
  induction follow generalizing objects with
  | nil => rfl
  | cons fe follow ih =>
    simp only [mergeObjects]
    rw [ih (nodup_mergeObject hn), rebind_after_mergeObject hn]
    rfl

private theorem nodup_mergeObjects (hn : (objects.map ObjectEdit.object).Nodup) :
    ((mergeObjects objects follow).1.map ObjectEdit.object).Nodup := by
  induction follow generalizing objects with
  | nil => exact hn
  | cons fe follow ih => exact ih (nodup_mergeObject hn)

variable {e f : JournalEntry ObjectRecord}

/-- To undo a merged entry is to undo the second one and then the first. -/
theorem rebindAll_befores_mergeEntry (hf : f.NamesOnce) (m : DocMap) :
    rebindAll m (mergeEntry e f).1.befores = rebindAll (rebindAll m f.befores) e.befores :=
  rebind_before_mergeObjects hf m

/-- To redo a merged entry is to redo the first one and then the second. -/
theorem rebindAll_afters_mergeEntry (he : e.NamesOnce) (m : DocMap) :
    rebindAll m (mergeEntry e f).1.afters = rebindAll (rebindAll m e.afters) f.afters :=
  rebind_after_mergeObjects he m

/-- A merged entry names no object twice. -/
theorem JournalEntry.NamesOnce.merge (he : e.NamesOnce) : (mergeEntry e f).1.NamesOnce :=
  nodup_mergeObjects he

/-- The entry of a draft names no object twice. -/
theorem Draft.Framed.namesOnce {d : Draft} (h : d.Framed) : d.entry.NamesOnce := by
  have hobjects : d.entry.objects.map ObjectEdit.object = d.touched := by
    rw [Draft.entry, List.map_map]
    exact List.map_id _
  rw [JournalEntry.NamesOnce, hobjects]
  exact h.nodup

end Merge

/-! ## Gathered damage -/

/-- A point of a rectangle. -/
def DeviceRect.Holds (r : DeviceRect) (x y : Double) : Prop :=
  (r.x0.le x = true ∧ x.lt r.x1 = true) ∧ r.y0.le y = true ∧ y.lt r.y1 = true

/-- One damage covers another: the object is the same, and the rectangle and the range contain
those of the other. -/
structure Damage.Covers (c d : Damage Double) : Prop where
  /-- The object is the same. -/
  object : c.object = d.object
  /-- The rectangle contains the other. -/
  rect : ∀ x y, DeviceRect.Holds d.rect x y → DeviceRect.Holds c.rect x y
  /-- The range contains the other. -/
  range : ∀ t, d.range.contains t = true → c.range.contains t = true

section Covers

variable {c d e : Damage Double} {set more : List (Damage Double)}

theorem Damage.Covers.refl (d : Damage Double) : d.Covers d :=
  ⟨rfl, fun _ _ h => h, fun _ h => h⟩

theorem Damage.Covers.trans (h : c.Covers d) (h' : d.Covers e) : c.Covers e :=
  ⟨h.object.trans h'.object, fun x y hxy => h.rect x y (h'.rect x y hxy),
    fun t ht => h.range t (h'.range t ht)⟩

/-- A rectangle that is not empty has two sides. -/
theorem DeviceRect.not_empty_iff {r : DeviceRect} :
    r.empty = false ↔ r.x0.lt r.x1 = true ∧ r.y0.lt r.y1 = true := by
  simp [DeviceRect.empty]

/-- A rectangle with a point is not empty. -/
theorem DeviceRect.Holds.not_empty {r : DeviceRect} {x y : Double} (h : r.Holds x y) :
    r.empty = false := by
  obtain ⟨⟨hx0, hx1⟩, hy0, hy1⟩ := h
  exact not_empty_iff.mpr ⟨Double.lt_of_le_of_lt hx0 hx1, Double.lt_of_le_of_lt hy0 hy1⟩

/-- A union has the points of both rectangles. -/
theorem DeviceRect.holds_union {r s : DeviceRect} {x y : Double} (h : r.Holds x y ∨ s.Holds x y) :
    (DeviceRect.union r s).Holds x y := by
  unfold DeviceRect.union
  split
  case isTrue hr =>
    refine h.resolve_left fun h => ?_
    rw [h.not_empty] at hr
    exact Bool.false_ne_true hr
  case isFalse hr =>
    split
    case isTrue hs =>
      refine h.resolve_right fun h => ?_
      rw [h.not_empty] at hs
      exact Bool.false_ne_true hs
    case isFalse hs =>
      -- no side of a rectangle that is not empty is not a number
      obtain ⟨hrx, hry⟩ := not_empty_iff.mp ((Bool.not_eq_true _).mp hr)
      obtain ⟨hsx, hsy⟩ := not_empty_iff.mp ((Bool.not_eq_true _).mp hs)
      obtain ⟨hr0, hr1, -⟩ := Double.lt_iff.mp hrx
      obtain ⟨hr2, hr3, -⟩ := Double.lt_iff.mp hry
      obtain ⟨hs0, hs1, -⟩ := Double.lt_iff.mp hsx
      obtain ⟨hs2, hs3, -⟩ := Double.lt_iff.mp hsy
      unfold Holds at h ⊢
      rw [Double.min_le_iff hr0 hs0, Double.min_le_iff hr2 hs2, Double.lt_max_iff hr1 hs1,
        Double.lt_max_iff hr3 hs3]
      tauto

private theorem contains_iff {r : TimeRange} {t : Int64} :
    r.contains t = true ↔ r.start.toInt ≤ t.toInt ∧ t.toInt < r.stop.toInt := by
  rw [TimeRange.contains, decide_eq_true_iff, Int64.le_iff_toInt_le, Int64.lt_iff_toInt_lt]

private theorem toInt_min (a b : Int64) : (min a b).toInt = min a.toInt b.toInt := by
  show (if a ≤ b then a else b).toInt = _
  split
  case isTrue h =>
    rw [Int64.le_iff_toInt_le] at h
    omega
  case isFalse h =>
    rw [Int64.le_iff_toInt_le] at h
    omega

private theorem toInt_max (a b : Int64) : (max a b).toInt = max a.toInt b.toInt := by
  show (if a ≤ b then b else a).toInt = _
  split
  case isTrue h =>
    rw [Int64.le_iff_toInt_le] at h
    omega
  case isFalse h =>
    rw [Int64.le_iff_toInt_le] at h
    omega

/-- A union has the instants of both ranges. -/
theorem contains_rangeUnion {a b : TimeRange} {t : Int64}
    (h : a.contains t = true ∨ b.contains t = true) : (rangeUnion a b).contains t = true := by
  have hsome : ∀ {r : TimeRange}, r.contains t = true → ¬ r.empty = true := by
    intro r hr hempty
    rw [TimeRange.empty, decide_eq_true_iff, Int64.le_iff_toInt_le] at hempty
    rw [contains_iff] at hr
    omega
  unfold rangeUnion
  split
  case isTrue ha => exact h.resolve_left fun h => hsome h ha
  case isFalse =>
    split
    case isTrue hb => exact h.resolve_right fun h => hsome h hb
    case isFalse =>
      rw [contains_iff, contains_iff] at h
      rw [contains_iff, toInt_min, toInt_max]
      omega

/-- Two damages as one cover the first. -/
theorem Damage.covers_merge_left (e d : Damage Double) : (e.merge d).Covers e :=
  ⟨rfl, fun _ _ h => DeviceRect.holds_union (Or.inl h), fun _ h => contains_rangeUnion (Or.inl h)⟩

/-- Two damages to one object as one cover the second. -/
theorem Damage.covers_merge_right (h : e.object = d.object) : (e.merge d).Covers d :=
  ⟨h, fun _ _ h => DeviceRect.holds_union (Or.inr h), fun _ h => contains_rangeUnion (Or.inr h)⟩

/-- What was gathered stays covered. -/
theorem exists_covers_addDamage (h : d ∈ set ∨ d = e) : ∃ c ∈ addDamage set e, c.Covers d := by
  induction set with
  | nil =>
    obtain rfl := h.resolve_left List.not_mem_nil
    exact ⟨d, List.mem_singleton_self d, .refl d⟩
  | cons b set ih =>
    unfold addDamage
    split
    case isTrue hobject =>
      rcases h with h | rfl
      · rcases List.mem_cons.mp h with rfl | h
        · exact ⟨_, List.mem_cons_self, d.covers_merge_left e⟩
        · exact ⟨d, List.mem_cons_of_mem _ h, .refl d⟩
      · exact ⟨_, List.mem_cons_self, Damage.covers_merge_right hobject⟩
    case isFalse =>
      by_cases hb : d = b
      · exact ⟨b, List.mem_cons_self, hb ▸ .refl d⟩
      · obtain ⟨c, hc, hcovers⟩ := ih (h.imp_left fun h => (List.mem_cons.mp h).resolve_left hb)
        exact ⟨c, List.mem_cons_of_mem _ hc, hcovers⟩

/-- Gathered damage covers all that was gathered. -/
theorem exists_covers_addAllDamage (h : d ∈ set ∨ d ∈ more) :
    ∃ c ∈ addAllDamage set more, c.Covers d := by
  induction more generalizing set d with
  | nil => exact ⟨d, h.resolve_right List.not_mem_nil, .refl d⟩
  | cons e more ih =>
    by_cases hmore : d ∈ more
    · exact ih (Or.inr hmore)
    · have hset : d ∈ set ∨ d = e :=
        h.imp_right fun h => (List.mem_cons.mp h).resolve_right hmore
      obtain ⟨c, hc, hcd⟩ := exists_covers_addDamage hset
      obtain ⟨c', hc', hcc⟩ := ih (Or.inl hc)
      exact ⟨c', hc', hcc.trans hcd⟩

end Covers

/-! ## Runs -/

namespace DamagedModel

variable {p p' : DamagedModel} {e : DamageEvent} {i : ℕ} {d : Draft}

/-- Every entry of the journal has its damage and names no object twice. -/
def Journaled (p : DamagedModel) : Prop :=
  List.Forall₂ (fun e _ => e.NamesOnce) (p.model.session.journal.entries.map Stored.entry)
    p.entries

/-- A commit that was seen published its draft. -/
theorem Covered.step_commit {s' : Model} (h : p.Covered)
    (hs : docModel.step (.commit i) p.model = some s')
    (hd : p.model.session.draft? i = some d)
    (hpublished : s'.session.current ≠ p.model.session.current) :
    d.Framed ∧ s'.session = p.model.session.commit i d := by
  have hstep := (Model.step_spec h.inv hs).2
  generalize s'.session = b at hstep hpublished ⊢
  have hwf := h.wf
  generalize p.model.session = a at hstep hpublished hd hwf ⊢
  cases hstep with
  | stay => exact absurd rfl hpublished
  | fail => exact absurd rfl hpublished
  | @commit _ _ d' hd' hpending =>
    obtain rfl : d = d' := Option.some.inj (hd.symm.trans hd')
    exact ⟨hwf.framed d (Session.some_mem_of_draft? hd) hpending.1, rfl⟩

/-- The damage beside the entries after an event, as its sessions tell. -/
private def entriesAfter (e : ModelEvent) (s s' : Session) (gathered : ℕ → Gathered)
    (entries : List (List (Damage Double))) : List (List (Damage Double)) :=
  match e with
  | .commit i =>
    match s.draft? i with
    | some d =>
      if s'.current = s.current then entries
      else if s.journaled then
        s.journal.annotate d.entry (addAllDamage · (gathered i).damage) (gathered i).damage entries
      else entries
    | none => entries
  | .setByteBudget _ => entries.drop (s.journal.entries.length - s'.journal.entries.length)
  | _ => entries

private theorem follow_entries (p : DamagedModel) (s' : Model) (e : ModelEvent) :
    (p.follow s' e).entries =
      entriesAfter e p.model.session s'.session p.gathered p.entries := by
  cases e with
  | commit i =>
    simp only [follow, entriesAfter]
    cases p.model.session.draft? i with
    | none => rfl
    | some d =>
      dsimp only
      by_cases hcurrent : s'.current = p.model.current
      · rw [if_pos hcurrent]
        exact (if_pos hcurrent).symm
      · rw [if_neg hcurrent]
        exact (if_neg hcurrent).symm
  | setByteBudget bytes =>
    have hlength : ∀ s : Model, s.session.journal.entries.length = s.journal.entries.length :=
      fun s => List.length_map _
    simp only [follow, entriesAfter, hlength]
  | mutate t i mu =>
    simp only [follow, entriesAfter]
    split <;> rfl
  | abort i =>
    simp only [follow, entriesAfter]
    split <;> rfl
  | undo t =>
    simp only [follow, entriesAfter]
    split <;> rfl
  | redo t =>
    simp only [follow, entriesAfter]
    split <;> rfl
  | loadBaseline t ms =>
    simp only [follow, entriesAfter]
    split
    · split <;> rfl
    · rfl
  | _ => rfl

/-- What a session does to its journal keeps the damage beside its entry. -/
private theorem forall₂_entriesAfter {s s' : Session} {e : ModelEvent} {gathered : ℕ → Gathered}
    {entries : List (List (Damage Double))} (hstep : Session.Step e s s') (hwf : s.Wf)
    (h : List.Forall₂ (fun e _ => e.NamesOnce) (s.journal.entries.map Stored.entry) entries) :
    List.Forall₂ (fun e _ => e.NamesOnce) (s'.journal.entries.map Stored.entry)
      (entriesAfter e s s' gathered entries) := by
  cases hstep with
  | stay =>
    cases e with
    | commit i =>
      simp only [entriesAfter, if_true]
      split <;> exact h
    | setByteBudget bytes =>
      rw [entriesAfter, Nat.sub_self, List.drop_zero]
      exact h
    | _ => exact h
  | @fail _ i d err hd =>
    rw [entriesAfter, hd]
    dsimp only
    rw [if_pos (show (s.setDraft i (some { d with status := some err })).current = s.current
      from rfl)]
    exact h
  | @commit _ i d hd hpending =>
    have hne : (s.commit i d).current ≠ s.current := Nat.succ_ne_self _
    rw [entriesAfter, hd]
    dsimp only
    rw [if_neg hne]
    cases hj : s.journaled with
    | true =>
      have hjournal : (s.commit i d).journal = (s.journal.onCommit d.entry).1 := by
        rw [Session.commit, hj]
        rfl
      rw [hjournal, if_pos rfl]
      have hnew := (hwf.framed d (Session.some_mem_of_draft? hd) hpending.1).namesOnce
      exact Journal.onCommit_forall₂ h hnew fun e _ he => he.merge
    | false =>
      have hjournal : (s.commit i d).journal = s.journal := by
        rw [Session.commit, hj]
        rfl
      rw [hjournal, if_neg Bool.false_ne_true]
      exact h
  | setByteBudget _ bytes =>
    change List.Forall₂ _ ((s.journal.setByteBudget bytes).1.entries.map Stored.entry)
      (entries.drop (Journal.trimCount { s.journal with budget := bytes }))
    rw [Journal.setByteBudget, (Journal.trim_eq { s.journal with budget := bytes }).1,
      List.map_drop]
    exact List.forall₂_drop _ h
  | transact => exact h
  | mutate => exact h
  | coalesce => exact h
  | abort => exact h
  | destroy => exact h
  | undo => exact h
  | redo => exact h
  | loadBaseline => exact h

/-- Every step keeps the damage beside its entry. -/
theorem Journaled.step (hj : p.Journaled) (h : p.Covered)
    (hs : damagedModel.step e p = some p') : p'.Journaled := by
  cases e with
  | addDamage j c =>
    simp only [damagedModel] at hs
    split at hs
    · cases hs
      exact hj
    · cases hs
  | model e =>
    obtain ⟨s', hs', rfl⟩ := Option.map_eq_some_iff.mp hs
    have hstep := (Model.step_spec h.inv hs').2
    show List.Forall₂ _ (s'.session.journal.entries.map Stored.entry) (p.follow s' e).entries
    rw [follow_entries]
    exact forall₂_entriesAfter hstep h.wf hj

/-- In every run the damage is kept beside its entry. -/
theorem journaled {allowed : DamageEvent → DamagedModel → Prop}
    (h : damagedModel.Reachable allowed p) : p.Journaled := by
  induction h with
  | start h =>
    obtain ⟨⟨_, _, _, _, _, _, _, -, hmodel⟩, -, hentries, -⟩ := h
    rw [Journaled, hentries, hmodel]
    exact .nil
  | step e h ha hs ih => exact ih.step (covered h) hs

/-- A place of the journal and of the damage beside it. -/
theorem Journaled.exists_damage (h : p.Journaled) {c : ℕ} {entry : JournalEntry ObjectRecord}
    (he : (p.model.session.journal.entries.map Stored.entry)[c]? = some entry) :
    ∃ damage, p.entries[c]? = some damage := by
  have hlt := (List.getElem?_eq_some_iff.mp he).1
  rw [h.length_eq] at hlt
  exact ⟨_, List.getElem?_eq_getElem hlt⟩

/-- An undo that was seen binds the records before again, and hands out the damage. -/
theorem Covered.step_undo (h : p.Covered) (hj : p.Journaled) {t : ℕ}
    (hs : damagedModel.step (.model (.undo t)) p = some p')
    (hpublished : p'.model.session.current ≠ p.model.session.current) :
    ∃ c entry damage, p.model.session.journal.cursor = c + 1 ∧
      (p.model.session.journal.entries.map Stored.entry)[c]? = some entry ∧
      p.entries[c]? = some damage ∧
      p'.model.session.map = rebindAll p.model.session.map entry.befores ∧
      p'.model.session.journal = { p.model.session.journal with cursor := c } ∧
      p'.entries = p.entries ∧ p'.flushed = p.flushed ++ [damage] := by
  obtain ⟨s', hs', rfl⟩ := Option.map_eq_some_iff.mp hs
  have hstep := (Model.step_spec h.inv hs').2
  have hentries := follow_entries p s' (.undo t)
  have hflushed : (p.follow s' (.undo t)).flushed =
      p.flushed ++ [(p.entries[s'.session.journal.cursor]?).getD []] := by
    rw [follow]
    exact congrArg flushed (if_neg hpublished)
  change s'.session.current ≠ _ at hpublished
  have hdamage : ∀ {c : ℕ} {entry : JournalEntry ObjectRecord},
      (p.model.session.journal.entries.map Stored.entry)[c]? = some entry →
        ∃ damage, p.entries[c]? = some damage := hj.exists_damage
  show ∃ c entry damage, p.model.session.journal.cursor = c + 1 ∧
      (p.model.session.journal.entries.map Stored.entry)[c]? = some entry ∧
      p.entries[c]? = some damage ∧ s'.session.map = rebindAll p.model.session.map entry.befores ∧
      s'.session.journal = { p.model.session.journal with cursor := c } ∧
      (p.follow s' (.undo t)).entries = p.entries ∧
      (p.follow s' (.undo t)).flushed = p.flushed ++ [damage]
  rw [hentries, hflushed]
  generalize s'.session = b at hstep hpublished ⊢
  generalize p.model.session = a at hstep hpublished hdamage ⊢
  cases hstep with
  | stay => exact absurd rfl hpublished
  | @undo _ _ c stored hc he =>
    have hentry : (a.journal.entries.map Stored.entry)[c]? = some stored.entry := by
      rw [List.getElem?_map, he, Option.map_some]
    obtain ⟨damage, hget⟩ := hdamage hentry
    refine ⟨c, stored.entry, damage, hc, hentry, hget, rfl, rfl, rfl, ?_⟩
    change p.flushed ++ [(p.entries[c]?).getD []] = _
    rw [hget]
    rfl

/-- A redo that was seen binds the records after again, and hands out the damage. -/
theorem Covered.step_redo (h : p.Covered) (hj : p.Journaled) {t : ℕ}
    (hs : damagedModel.step (.model (.redo t)) p = some p')
    (hpublished : p'.model.session.current ≠ p.model.session.current) :
    ∃ entry damage,
      (p.model.session.journal.entries.map Stored.entry)[p.model.session.journal.cursor]? =
        some entry ∧
      p.entries[p.model.session.journal.cursor]? = some damage ∧
      p'.model.session.map = rebindAll p.model.session.map entry.afters ∧
      p'.flushed = p.flushed ++ [damage] := by
  obtain ⟨s', hs', rfl⟩ := Option.map_eq_some_iff.mp hs
  have hstep := (Model.step_spec h.inv hs').2
  have hflushed : (p.follow s' (.redo t)).flushed =
      p.flushed ++ [(p.entries[p.model.session.journal.cursor]?).getD []] := by
    rw [follow]
    exact congrArg flushed (if_neg hpublished)
  change s'.session.current ≠ _ at hpublished
  have hdamage : ∀ {c : ℕ} {entry : JournalEntry ObjectRecord},
      (p.model.session.journal.entries.map Stored.entry)[c]? = some entry →
        ∃ damage, p.entries[c]? = some damage := hj.exists_damage
  show ∃ entry damage,
      (p.model.session.journal.entries.map Stored.entry)[p.model.session.journal.cursor]? =
        some entry ∧
      p.entries[p.model.session.journal.cursor]? = some damage ∧
      s'.session.map = rebindAll p.model.session.map entry.afters ∧
      (p.follow s' (.redo t)).flushed = p.flushed ++ [damage]
  rw [hflushed]
  generalize s'.session = b at hstep hpublished ⊢
  generalize p.model.session = a at hstep hpublished hdamage ⊢
  cases hstep with
  | stay => exact absurd rfl hpublished
  | redo stored he =>
    have hentry : (a.journal.entries.map Stored.entry)[a.journal.cursor]? = some stored.entry := by
      rw [List.getElem?_map, he, Option.map_some]
    obtain ⟨damage, hget⟩ := hdamage hentry
    refine ⟨stored.entry, damage, hentry, hget, rfl, ?_⟩
    rw [hget]
    rfl

end DamagedModel

/-- After a commit that coalesces the newest entry is the merged one, and what is kept beside it
was merged as well. -/
theorem Journal.onCommit_coalesced {α : Type} {j : Journal ObjectRecord}
    {entry : JournalEntry ObjectRecord} {tip : Stored ObjectRecord} {l : List α} (merge : α → α)
    (new : α) (htip : j.coalesceTip entry.coalesceKey = some tip)
    (hlength : l.length = j.entries.length) :
    ∃ c a, l.getLast? = some a ∧ (j.onCommit entry).1.cursor = c + 1 ∧
      ((j.onCommit entry).1.entries.map Stored.entry)[c]? = some (mergeEntry tip.entry entry).1 ∧
      (j.annotate entry merge new l)[c]? = some (merge a) := by
  obtain ⟨hlast, -⟩ := getLast?_of_coalesceTip htip
  have hne : j.entries ≠ [] := fun hnil => by simp [hnil] at hlast
  have hpos := List.length_pos_iff.mpr hne
  obtain ⟨a, ha⟩ : ∃ a, l.getLast? = some a :=
    ⟨_, List.getLast?_eq_some_getLast (List.ne_nil_of_length_pos (by omega))⟩
  -- the lists before the trim
  have hentries : j.extendAt entry.coalesceKey (fun e => (mergeEntry e entry).1) entry
      (j.entries.map Stored.entry) =
        (j.entries.map Stored.entry).dropLast ++ [(mergeEntry tip.entry entry).1] := by
    simp [extendAt, htip, List.getLast?_map, hlast]
  have hl : j.extendAt entry.coalesceKey merge new l = l.dropLast ++ [merge a] := by
    simp [extendAt, htip, ha]
  obtain ⟨k, -, hdrop, hdrop', hcursor⟩ := j.onCommit_annotate entry merge new (l := l) (by
    rw [hentries, hl]
    simp [hlength])
  rw [hentries] at hdrop hcursor
  rw [hl] at hdrop'
  have hsome : (j.onCommit entry).1.entries ≠ [] := by
    obtain ⟨j', hj', -, hne', -⟩ := j.onCommit_eq entry
    obtain ⟨htrim, -, hlt, -⟩ := j'.trim_eq
    have hcount := hlt hne'
    rw [hj', htrim]
    exact List.ne_nil_of_length_pos (by rw [List.length_drop]; omega)
  have hlt : k < j.entries.length := by
    have hcount := congrArg List.length hdrop
    have hsome := List.length_pos_iff.mpr hsome
    simp only [List.length_map, List.length_drop, List.length_append, List.length_dropLast,
      List.length_singleton] at hcount
    omega
  refine ⟨j.entries.length - 1 - k, a, ha, ?_, ?_, ?_⟩
  · rw [hcursor]
    simp only [List.length_append, List.length_dropLast, List.length_map, List.length_singleton]
    omega
  · rw [hdrop, List.getElem?_drop, show k + (j.entries.length - 1 - k) = j.entries.length - 1 by
      omega, List.getElem?_append_right (by simp)]
    simp
  · rw [hdrop', List.getElem?_drop, show k + (j.entries.length - 1 - k) = l.length - 1 by
      omega, List.getElem?_append_right (by simp)]
    simp

/-- Coalescing is equivalent to two undo steps. In every run, when a commit merges its entry into
the newest one, undoing the merged entry does to every map what undoing the second and then the
first does, redoing it does what redoing both in order does, and its damage covers that of both.
The next undo does so to the current map, and the redo after it, and both hand out the damage. -/
theorem coalesce_undoEquivalent {p p' : DamagedModel} {i : ℕ} {d : Draft}
    {tip : Stored ObjectRecord} (h : damagedModel.Reachable Machine.anyEvent p)
    (hd : p.model.session.draft? i = some d) (hjournaled : p.model.session.journaled = true)
    (htip : p.model.session.journal.coalesceTip d.coalesceKey = some tip)
    (hs : damagedModel.step (.model (.commit i)) p = some p')
    (hpublished : p'.model.session.current ≠ p.model.session.current) :
    ∃ c merged before damage, p'.model.session.journal.cursor = c + 1 ∧
      (p'.model.session.journal.entries.map Stored.entry)[c]? = some merged ∧
      p.entries.getLast? = some before ∧ p'.entries[c]? = some damage ∧
      (∀ m, rebindAll m merged.befores =
        rebindAll (rebindAll m d.entry.befores) tip.entry.befores) ∧
      (∀ m, rebindAll m merged.afters =
        rebindAll (rebindAll m tip.entry.afters) d.entry.afters) ∧
      (∀ b, b ∈ before ∨ b ∈ (p.gathered i).damage → ∃ b' ∈ damage, b'.Covers b) ∧
      ∀ t p'', damagedModel.step (.model (.undo t)) p' = some p'' →
        p''.model.session.current ≠ p'.model.session.current →
        p''.model.session.map = rebindAll (rebindAll p'.model.session.map d.entry.befores)
          tip.entry.befores ∧ p''.flushed = p'.flushed ++ [damage] ∧
        ∀ t p''', damagedModel.step (.model (.redo t)) p'' = some p''' →
          p'''.model.session.current ≠ p''.model.session.current →
          p'''.model.session.map = rebindAll (rebindAll p''.model.session.map tip.entry.afters)
            d.entry.afters ∧ p'''.flushed = p''.flushed ++ [damage] := by
  have hcovered := DamagedModel.covered h
  have hbeside := DamagedModel.journaled h
  have hreach' := Machine.Reachable.step _ h trivial hs
  have hcovered' := DamagedModel.covered hreach'
  have hbeside' := DamagedModel.journaled hreach'
  obtain ⟨s', hs', rfl⟩ := Option.map_eq_some_iff.mp hs
  obtain ⟨hframed, hsession⟩ := hcovered.step_commit hs' hd hpublished
  have hjournal : s'.session.journal = (p.model.session.journal.onCommit d.entry).1 := by
    rw [hsession, Session.commit, hjournaled]
    rfl
  have hentries : (p.follow s' (.commit i)).entries = p.model.session.journal.annotate d.entry
      (addAllDamage · (p.gathered i).damage) (p.gathered i).damage p.entries := by
    rw [DamagedModel.follow_entries, DamagedModel.entriesAfter, hd]
    dsimp only
    rw [if_neg hpublished, if_pos hjournaled]
  obtain ⟨c, before, hbefore, hcursor, hentry, hdamage⟩ := Journal.onCommit_coalesced
    (addAllDamage · (p.gathered i).damage) (p.gathered i).damage
    (show Journal.coalesceTip _ d.entry.coalesceKey = some tip from htip)
    ((List.length_map Stored.entry).symm.trans hbeside.length_eq).symm
  rw [← hjournal] at hcursor hentry
  rw [← hentries] at hdamage
  have htipOnce : tip.entry.NamesOnce := by
    have hall := (List.forall₂_and_left _ _).mp (hbeside.imp fun e _ he =>
      (⟨he, trivial⟩ : e.NamesOnce ∧ True))
    exact hall.1 _ (List.mem_map_of_mem
      (List.mem_of_getLast? (Journal.getLast?_of_coalesceTip htip).1))
  have hundo := rebindAll_befores_mergeEntry (e := tip.entry) hframed.namesOnce
  have hredo := rebindAll_afters_mergeEntry (f := d.entry) htipOnce
  refine ⟨c, _, before, _, hcursor, hentry, hbefore, hdamage, hundo, hredo,
    fun b hb => exists_covers_addAllDamage hb, fun t p'' hp'' hne => ?_⟩
  obtain ⟨c', entry, damage, hcursor', hentry', hdamage', hmap, hjournal', hentries', hflushed⟩ :=
    hcovered'.step_undo hbeside' hp'' hne
  obtain rfl : c = c' := Nat.succ.inj (hcursor.symm.trans hcursor')
  obtain rfl := Option.some.inj (hentry.symm.trans hentry')
  obtain rfl := Option.some.inj (hdamage.symm.trans hdamage')
  refine ⟨hmap.trans (hundo _), hflushed, fun t p''' hp''' hne => ?_⟩
  have hreach'' := Machine.Reachable.step _ hreach' trivial hp''
  obtain ⟨entry, damage, hentry'', hdamage'', hmap, hflushed⟩ :=
    (DamagedModel.covered hreach'').step_redo (DamagedModel.journaled hreach'') hp''' hne
  rw [hjournal'] at hentry'' hdamage''
  rw [hentries'] at hdamage''
  obtain rfl := Option.some.inj (hentry.symm.trans hentry'')
  obtain rfl := Option.some.inj (hdamage.symm.trans hdamage'')
  exact ⟨hmap.trans (hredo _), hflushed⟩

/-- An object is created and removed again in two transactions of one gesture, the second of which
is still open. -/
def gestureRun : List DamageEvent :=
  [.model .transact, .model (.coalesce 0 1), .model (.mutate 0 0 (.addComposition 1 1)),
    .model (.commit 0), .model .transact, .model (.coalesce 1 1), .model (.mutate 0 1 (.remove 1))]

/-- Whether the commit of the second transaction coalesces and is seen. -/
def gestureCoalesces (p : DamagedModel) : Bool :=
  match p.model.session.draft? 1 with
  | some d =>
    p.model.session.journaled && (p.model.session.journal.coalesceTip d.coalesceKey).isSome &&
      (damagedModel.step (.model (.commit 1)) p).any fun p' =>
        p'.model.session.current != p.model.session.current
  | none => false

theorem coalesce_undoEquivalent_gestureRun : ∃ p p' : DamagedModel, ∃ d tip merged,
    damagedModel.step (.model (.commit 1)) p = some p' ∧ p.model.session.draft? 1 = some d ∧
    p.model.session.journal.coalesceTip d.coalesceKey = some tip ∧
    merged ∈ p'.model.session.journal.entries.map Stored.entry ∧
    ∀ m, rebindAll m merged.befores =
      rebindAll (rebindAll m d.entry.befores) tip.entry.befores := by
  obtain ⟨p, hp, hcoalesces⟩ := Machine.exists_reachable (M := damagedModel) Machine.anyEvent
    gestureRun gestureCoalesces (start_ofModel start_emptyModel)
    (Machine.runAllowed_anyEvent _ _) (by decide +kernel)
  unfold gestureCoalesces at hcoalesces
  split at hcoalesces
  case h_2 => cases hcoalesces
  case h_1 d hd =>
    simp only [Bool.and_eq_true, Option.any_eq_true, Option.isSome_iff_exists] at hcoalesces
    obtain ⟨⟨hjournaled, tip, htip⟩, p', hs, hne⟩ := hcoalesces
    obtain ⟨c, merged, -, -, -, hmerged, -, -, hundo, -⟩ :=
      coalesce_undoEquivalent hp hd hjournaled htip hs (bne_iff_ne.mp hne)
    exact ⟨p, p', d, tip, merged, hs, hd, htip, List.mem_of_getElem? hmerged, hundo⟩

end ArbitraryComposer
