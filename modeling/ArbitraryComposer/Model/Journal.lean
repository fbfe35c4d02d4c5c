import ArbitraryComposer.Model.Records
import Mathlib.Tactic.Abel

/-!
# The Undo Journal

The journal keeps the entries of committed transactions, a cursor that separates the applied
ones from those that can be redone, and a budget on their cost. An entry holds references to the
records before and after each edit. The code is generic in what a reference is; the counts that a
step takes and gives back are in the order the source copies and destroys its references.

## Main definitions

- `JournalEntry`, `Journal`: entries and the journal.
- `RefEffect`: a reference copied or destroyed.
- `mergeEntry`: `coalesce_entries`.
- `Journal.trim`, `Journal.onCommit`, `Journal.setByteBudget`: the steps that change entries.

## Main results

- `Journal.trim_settles`, `Journal.onCommit_settles`: no reference is lost.
- `Journal.map_trim`, `Journal.map_onCommit`: the steps do not look at the references.
-/

namespace ArbitraryComposer

/-- `ObjectEdit`: the records of one object before and after an entry. -/
structure ObjectEdit (ρ : Type) where
  /-- The object. -/
  object : ObjectId
  /-- Its record before, unless it was added. -/
  before : Option ρ
  /-- Its record after, unless it was removed. -/
  after : Option ρ
  deriving DecidableEq

/-- `ContentStateEdit`. -/
structure ContentStateEdit where
  /-- The content. -/
  object : ObjectId
  /-- Its state before. -/
  before : StateHandle
  /-- Its state after. -/
  after : StateHandle
  deriving DecidableEq

/-- `JournalEntry`. -/
structure JournalEntry (ρ : Type) where
  /-- Commits with one nonzero key coalesce. -/
  coalesceKey : UInt64
  /-- The objects touched. -/
  objects : List (ObjectEdit ρ)
  /-- The content states changed. -/
  contents : List ContentStateEdit
  deriving DecidableEq

/-- `Journal::Stored`. -/
structure Stored (ρ : Type) where
  /-- The entry. -/
  entry : JournalEntry ρ
  /-- Its cost. -/
  cost : ℕ
  deriving DecidableEq

/-- `Journal`. -/
structure Journal (ρ : Type) where
  /-- The budget. -/
  budget : ℕ
  /-- The cost of a content state, zero when no function is registered. -/
  stateCost : ObjectId → StateHandle → ℕ
  /-- The entries, oldest first. -/
  entries : List (Stored ρ)
  /-- The number of applied entries. -/
  cursor : ℕ
  /-- The cost of all entries. -/
  totalCost : ℕ

/-- A reference is copied or destroyed. -/
inductive RefEffect (ρ : Type) where
  /-- The copy constructor. -/
  | copy (r : ρ)
  /-- The destructor. -/
  | drop (r : ρ)
  deriving DecidableEq

/-- `k_no_coalesce`. -/
def noCoalesce : UInt64 := 0

/-- `k_no_budget`. -/
def noBudget : ℕ := 2 ^ 64 - 1

/-- `sizeof(ObjectRecord)`. -/
def objectRecordSize : ℕ := 152

section

variable {ρ : Type}

/-- The references of an edit. -/
def ObjectEdit.refs (e : ObjectEdit ρ) : List ρ := e.before.toList ++ e.after.toList

/-- The references of an entry, in the order they are destroyed. -/
def JournalEntry.refs (e : JournalEntry ρ) : List ρ := e.objects.flatMap ObjectEdit.refs

/-- The references of the entries of a journal. -/
def Journal.refs (j : Journal ρ) : List ρ := j.entries.flatMap fun s => s.entry.refs

/-- The loop of `coalesce_entries` over the objects of the first entry. -/
def mergeObject : List (ObjectEdit ρ) → ObjectEdit ρ → List (ObjectEdit ρ) × List (RefEffect ρ)
  | [], fe => ([fe], fe.refs.map .copy)
  | be :: rest, fe =>
    if be.object = fe.object then
      ({ be with after := fe.after } :: rest,
        fe.after.toList.map .copy ++ be.after.toList.map .drop)
    else
      let (rest, effects) := mergeObject rest fe
      (be :: rest, effects)

/-- The objects of the second entry, one after the other. -/
def mergeObjects : List (ObjectEdit ρ) → List (ObjectEdit ρ) →
    List (ObjectEdit ρ) × List (RefEffect ρ)
  | base, [] => (base, [])
  | base, fe :: follow =>
    let (base, effects) := mergeObject base fe
    let (base, effects') := mergeObjects base follow
    (base, effects ++ effects')

/-- The first edit's *before* and the last edit's *after*. -/
def mergeContent : List ContentStateEdit → ContentStateEdit → List ContentStateEdit
  | [], fc => [fc]
  | bc :: rest, fc =>
    if bc.object = fc.object then { bc with after := fc.after } :: rest
    else bc :: mergeContent rest fc

/-- `coalesce_entries`. -/
def mergeEntry (base follow : JournalEntry ρ) : JournalEntry ρ × List (RefEffect ρ) :=
  let (objects, effects) := mergeObjects base.objects follow.objects
  ({ base with objects := objects, contents := follow.contents.foldl mergeContent base.contents },
    effects)

/-- Every record an entry names for an object satisfies a predicate. -/
def JournalEntry.All (P : ObjectId → ρ → Prop) (e : JournalEntry ρ) : Prop :=
  ∀ oe ∈ e.objects, ∀ r ∈ oe.refs, P oe.object r

/-- The records of a merged entry are those of the two. -/
theorem JournalEntry.All.merge {P : ObjectId → ρ → Prop} {e f : JournalEntry ρ} (he : e.All P)
    (hf : f.All P) : (mergeEntry e f).1.All P := by
  have hone : ∀ (objects : List (ObjectEdit ρ)) (fe : ObjectEdit ρ),
      (∀ oe ∈ objects, ∀ r ∈ oe.refs, P oe.object r) → (∀ r ∈ fe.refs, P fe.object r) →
      ∀ oe ∈ (mergeObject objects fe).1, ∀ r ∈ oe.refs, P oe.object r := by
    intro objects fe hobjects hfe
    induction objects with
    | nil =>
      intro oe hoe
      rw [List.mem_singleton.mp hoe]
      exact hfe
    | cons be rest ih =>
      have hrest : ∀ oe ∈ rest, ∀ r ∈ oe.refs, P oe.object r := fun oe hoe =>
        hobjects oe (List.mem_cons_of_mem _ hoe)
      have hbe := hobjects be List.mem_cons_self
      simp only [mergeObject]
      split
      · rename_i heq
        intro oe hoe r hr
        rcases List.mem_cons.mp hoe with rfl | hoe
        · rcases List.mem_append.mp hr with hr | hr
          · exact hbe r (List.mem_append_left _ hr)
          · exact heq ▸ hfe r (List.mem_append_right _ hr)
        · exact hrest oe hoe r hr
      · intro oe hoe
        rcases List.mem_cons.mp hoe with rfl | hoe
        · exact hbe
        · exact ih hrest oe hoe
  have hmany : ∀ (follow base : List (ObjectEdit ρ)),
      (∀ oe ∈ base, ∀ r ∈ oe.refs, P oe.object r) →
      (∀ oe ∈ follow, ∀ r ∈ oe.refs, P oe.object r) →
      ∀ oe ∈ (mergeObjects base follow).1, ∀ r ∈ oe.refs, P oe.object r := by
    intro follow
    induction follow with
    | nil => exact fun base hbase _ => hbase
    | cons fe follow ih =>
      exact fun base hbase hfollow => ih _
        (hone base fe hbase (hfollow fe List.mem_cons_self))
        fun oe hoe => hfollow oe (List.mem_cons_of_mem _ hoe)
  exact hmany f.objects e.objects he hf

namespace Journal

/-- `Journal::entry_cost`. -/
def entryCost (j : Journal ρ) (e : JournalEntry ρ) : ℕ :=
  (e.objects.map fun oe => (if oe.before.isSome then objectRecordSize else 0) +
    if oe.after.isSome then objectRecordSize else 0).sum +
  (e.contents.map fun ce => j.stateCost ce.object ce.before + j.stateCost ce.object ce.after).sum

/-- The loop of `Journal::trim`: drop entries from the front, never below one. -/
def trimLoop (budget : ℕ) : List (Stored ρ) → ℕ → ℕ → List (Stored ρ) × ℕ × ℕ × List (RefEffect ρ)
  | front :: next :: rest, cursor, total =>
    if budget < total then
      let (entries, cursor, total, effects) :=
        trimLoop budget (next :: rest) (cursor - 1) (total - front.cost)
      (entries, cursor, total, front.entry.refs.map .drop ++ effects)
    else
      (front :: next :: rest, cursor, total, [])
  | entries, cursor, total => (entries, cursor, total, [])

/-- `Journal::trim`. -/
def trim (j : Journal ρ) : Journal ρ × List (RefEffect ρ) :=
  let (entries, cursor, total, effects) := trimLoop j.budget j.entries j.cursor j.totalCost
  ({ j with entries := entries, cursor := cursor, totalCost := total }, effects)

/-- `Journal::set_byte_budget`. -/
def setByteBudget (j : Journal ρ) (bytes : ℕ) : Journal ρ × List (RefEffect ρ) :=
  trim { j with budget := bytes }

/-- The newest entry, when a commit with this key coalesces into it. -/
def coalesceTip (j : Journal ρ) (key : UInt64) : Option (Stored ρ) :=
  if key ≠ noCoalesce ∧ j.cursor = j.entries.length then
    j.entries.getLast?.filter fun tip => tip.entry.coalesceKey = key
  else
    none

/-- The coalescing branch of `Journal::on_commit`. -/
def coalesce (j : Journal ρ) (tip : Stored ρ) (entry : JournalEntry ρ) :
    Journal ρ × List (RefEffect ρ) :=
  let (merged, effects) := mergeEntry tip.entry entry
  let cost := j.entryCost merged
  let (j, effects') := trim { j with
    entries := j.entries.dropLast ++ [⟨merged, cost⟩]
    totalCost := j.totalCost - tip.cost + cost }
  -- the entry passed by value is destroyed last
  (j, effects ++ effects' ++ entry.refs.map .drop)

/-- The other branch: the redo tail is dropped, the entry becomes the newest. -/
def push (j : Journal ρ) (entry : JournalEntry ρ) : Journal ρ × List (RefEffect ρ) :=
  let tail := j.entries.drop j.cursor
  let cost := j.entryCost entry
  let entries := j.entries.take j.cursor ++ [⟨entry, cost⟩]
  let (j, effects) := trim { j with
    entries := entries
    cursor := entries.length
    totalCost := j.totalCost - (tail.map Stored.cost).sum + cost }
  (j, (tail.flatMap fun s => s.entry.refs).map .drop ++ effects)

/-- `Journal::on_commit`. -/
def onCommit (j : Journal ρ) (entry : JournalEntry ρ) : Journal ρ × List (RefEffect ρ) :=
  match j.coalesceTip entry.coalesceKey with
  | some tip => j.coalesce tip entry
  | none => j.push entry

end Journal

end

/-! ## References -/

/-- Executing the effects turns the references held at first into those held at last; what is
copied or destroyed is held at that moment. -/
inductive Settles {ρ : Type} : Multiset ρ → List (RefEffect ρ) → Multiset ρ → Prop where
  | nil (held : Multiset ρ) : Settles held [] held
  | copy {held held' : Multiset ρ} {r : ρ} {effects : List (RefEffect ρ)} (hr : r ∈ held)
      (h : Settles (r ::ₘ held) effects held') : Settles held (.copy r :: effects) held'
  | drop {held held' : Multiset ρ} {r : ρ} {effects : List (RefEffect ρ)}
      (h : Settles held effects held') : Settles (r ::ₘ held) (.drop r :: effects) held'

section

variable {ρ : Type} {held held' held'' : Multiset ρ} {effects effects' : List (RefEffect ρ)}
  {rs : List ρ} {j : Journal ρ} {entry : JournalEntry ρ}

theorem Settles.append (h : Settles held effects held') (h' : Settles held' effects' held'') :
    Settles held (effects ++ effects') held'' := by
  induction h with
  | nil => exact h'
  | copy hr _ ih => exact .copy hr (ih h')
  | drop _ ih => exact .drop (ih h')

theorem Settles.drops (rs : List ρ) (held : Multiset ρ) :
    Settles ((rs : Multiset ρ) + held) (rs.map .drop) held := by
  induction rs with
  | nil =>
    rw [Multiset.coe_nil, zero_add]
    exact .nil held
  | cons r rs ih =>
    rw [← Multiset.cons_coe, Multiset.cons_add]
    exact .drop ih

theorem Settles.copies (h : ∀ r ∈ rs, r ∈ held) :
    Settles held (rs.map .copy) ((rs : Multiset ρ) + held) := by
  induction rs generalizing held with
  | nil =>
    rw [Multiset.coe_nil, zero_add]
    exact .nil held
  | cons r rs ih =>
    rw [← Multiset.cons_coe, Multiset.cons_add, ← Multiset.add_cons]
    refine .copy (h r List.mem_cons_self) (ih fun r' hr' => ?_)
    exact Multiset.mem_cons_of_mem (h r' (List.mem_cons_of_mem r hr'))

/-- The references of a list of edits. -/
private def editRefs (objects : List (ObjectEdit ρ)) : Multiset ρ :=
  (objects.flatMap ObjectEdit.refs : List ρ)

private theorem editRefs_cons (e : ObjectEdit ρ) (objects : List (ObjectEdit ρ)) :
    editRefs (e :: objects) = (e.before.toList : Multiset ρ) +
      ((e.after.toList : Multiset ρ) + editRefs objects) := by
  simp only [editRefs, List.flatMap_cons, ObjectEdit.refs, ← Multiset.coe_add, add_assoc]

/-- Merging an edit copies its references and gives the replaced one back. -/
private theorem mergeObject_settles {objects : List (ObjectEdit ρ)} {fe : ObjectEdit ρ}
    (h : ∀ r ∈ fe.refs, r ∈ held) :
    Settles (editRefs objects + held) (mergeObject objects fe).2
      (editRefs (mergeObject objects fe).1 + held) := by
  induction objects generalizing held with
  | nil =>
    have hnil : editRefs ([] : List (ObjectEdit ρ)) = 0 := rfl
    have hone : editRefs [fe] = (fe.refs : Multiset ρ) := by
      simp only [editRefs, List.flatMap_cons, List.flatMap_nil, List.append_nil]
    rw [hnil, zero_add, mergeObject, hone]
    exact .copies h
  | cons be rest ih =>
    by_cases hobj : be.object = fe.object
    · simp only [mergeObject, if_pos hobj, editRefs_cons]
      have hafter : ∀ r ∈ fe.after.toList, r ∈ (be.before.toList : Multiset ρ) +
          ((be.after.toList : Multiset ρ) + editRefs rest) + held := fun r hr =>
        Multiset.mem_add.mpr (Or.inr (h r (List.mem_append_right _ hr)))
      refine (Settles.copies hafter).append ?_
      have hdrop := Settles.drops be.after.toList ((be.before.toList : Multiset ρ) +
        ((fe.after.toList : Multiset ρ) + editRefs rest) + held)
      convert hdrop using 1
      abel
    · simp only [mergeObject, if_neg hobj, editRefs_cons]
      have hmem : ∀ r ∈ fe.refs, r ∈ (be.before.toList : Multiset ρ) +
          (be.after.toList : Multiset ρ) + held := fun r hr =>
        Multiset.mem_add.mpr (Or.inr (h r hr))
      have hih := ih hmem
      convert hih using 1 <;> abel

private theorem mergeObjects_settles {base follow : List (ObjectEdit ρ)}
    (h : ∀ fe ∈ follow, ∀ r ∈ fe.refs, r ∈ held) :
    Settles (editRefs base + held) (mergeObjects base follow).2
      (editRefs (mergeObjects base follow).1 + held) := by
  induction follow generalizing base with
  | nil => exact .nil _
  | cons fe follow ih =>
    refine (mergeObject_settles (h fe List.mem_cons_self)).append ?_
    exact ih fun fe' hfe' => h fe' (List.mem_cons_of_mem fe hfe')

/-- Coalescing leaves the references of the second entry with their owner. -/
private theorem mergeEntry_settles (base : JournalEntry ρ) {follow : JournalEntry ρ}
    (h : ∀ r ∈ follow.refs, r ∈ held) :
    Settles ((base.refs : Multiset ρ) + held) (mergeEntry base follow).2
      (((mergeEntry base follow).1.refs : Multiset ρ) + held) :=
  mergeObjects_settles fun fe hfe r hr => h r (List.mem_flatMap.mpr ⟨fe, hfe, hr⟩)

namespace Journal

/-- The references of a list of stored entries. -/
private def storedRefs (entries : List (Stored ρ)) : Multiset ρ :=
  (entries.flatMap fun s => s.entry.refs : List ρ)

private theorem trimLoop_settles {budget : ℕ} {entries : List (Stored ρ)} {cursor total : ℕ} :
    Settles (storedRefs entries + held) (trimLoop budget entries cursor total).2.2.2
      (storedRefs (trimLoop budget entries cursor total).1 + held) := by
  induction entries generalizing cursor total with
  | nil => exact .nil _
  | cons front rest ih =>
    cases rest with
    | nil => exact .nil _
    | cons next rest =>
      unfold trimLoop
      split
      · refine Settles.append ?_ ih
        have hsplit : storedRefs (front :: next :: rest) =
            (front.entry.refs : Multiset ρ) + storedRefs (next :: rest) := by
          rw [storedRefs, List.flatMap_cons, ← Multiset.coe_add, storedRefs]
        rw [hsplit, add_assoc]
        exact .drops _ _
      · exact .nil _

/-- A trim gives back the references of the entries it drops. -/
theorem trim_settles (j : Journal ρ) (held : Multiset ρ) :
    Settles ((j.refs : Multiset ρ) + held) j.trim.2 ((j.trim.1.refs : Multiset ρ) + held) :=
  trimLoop_settles

theorem setByteBudget_settles (j : Journal ρ) (bytes : ℕ) (held : Multiset ρ) :
    Settles ((j.refs : Multiset ρ) + held) (j.setByteBudget bytes).2
      (((j.setByteBudget bytes).1.refs : Multiset ρ) + held) :=
  trim_settles { j with budget := bytes } held

theorem getLast?_of_coalesceTip {key : UInt64} {tip : Stored ρ}
    (h : j.coalesceTip key = some tip) : j.entries.getLast? = some tip ∧
      j.cursor = j.entries.length ∧ tip.entry.coalesceKey = key ∧ key ≠ noCoalesce := by
  unfold coalesceTip at h
  split at h
  · rename_i hk
    obtain ⟨hlast, hkey⟩ := Option.filter_eq_some_iff.mp h
    exact ⟨hlast, hk.2, by simpa using hkey, hk.1⟩
  · cases h

/-- A commit passes the references of its entry to the journal, or gives them back. -/
theorem onCommit_settles (j : Journal ρ) (entry : JournalEntry ρ) (held : Multiset ρ) :
    Settles ((j.refs : Multiset ρ) + ((entry.refs : Multiset ρ) + held)) (j.onCommit entry).2
      (((j.onCommit entry).1.refs : Multiset ρ) + held) := by
  unfold onCommit
  split
  · rename_i tip htip
    obtain ⟨hlast, -⟩ := getLast?_of_coalesceTip htip
    have hentries : j.entries = j.entries.dropLast ++ [tip] :=
      (List.dropLast_append_getLast? tip hlast).symm
    simp only [coalesce]
    set merged := mergeEntry tip.entry entry with hmerged
    set j' : Journal ρ := { j with
      entries := j.entries.dropLast ++ [⟨merged.1, j.entryCost merged.1⟩]
      totalCost := j.totalCost - tip.cost + j.entryCost merged.1 } with hj'
    have hrefs : (j.refs : Multiset ρ) = (tip.entry.refs : Multiset ρ) +
        storedRefs j.entries.dropLast := by
      rw [refs, hentries, List.flatMap_append, ← Multiset.coe_add, add_comm, storedRefs,
        ← hentries]
      simp
    have hrefs' : (j'.refs : Multiset ρ) = (merged.1.refs : Multiset ρ) +
        storedRefs j.entries.dropLast := by
      rw [refs, hj', List.flatMap_append, ← Multiset.coe_add, add_comm, storedRefs]
      simp
    rw [List.append_assoc]
    have hmem : ∀ r ∈ entry.refs,
        r ∈ storedRefs j.entries.dropLast + ((entry.refs : Multiset ρ) + held) := fun r hr =>
      Multiset.mem_add.mpr (Or.inr (Multiset.mem_add.mpr (Or.inl hr)))
    have hmerge := mergeEntry_settles tip.entry hmem
    rw [← hmerged, ← add_assoc (tip.entry.refs : Multiset ρ), ← hrefs,
      ← add_assoc (merged.1.refs : Multiset ρ), ← hrefs'] at hmerge
    refine hmerge.append ((trim_settles j' _).append ?_)
    rw [add_left_comm]
    exact .drops _ _
  · simp only [push]
    set tail := j.entries.drop j.cursor with htail
    set kept := j.entries.take j.cursor ++ [⟨entry, j.entryCost entry⟩] with hkept
    have hrefs : (j.refs : Multiset ρ) = storedRefs tail +
        storedRefs (j.entries.take j.cursor) := by
      rw [refs, ← List.take_append_drop j.cursor j.entries, List.flatMap_append,
        ← Multiset.coe_add, add_comm, storedRefs, storedRefs, List.take_append_drop]
    have hrefs' : storedRefs kept =
        storedRefs (j.entries.take j.cursor) + (entry.refs : Multiset ρ) := by
      rw [storedRefs, hkept, List.flatMap_append, ← Multiset.coe_add, storedRefs]
      simp
    rw [hrefs, add_assoc, ← add_assoc (storedRefs (j.entries.take j.cursor)),
      ← hrefs']
    exact (Settles.drops _ _).append (trim_settles (ρ := ρ) ⟨j.budget, j.stateCost, kept, _, _⟩ held)

/-! ## What a step does to the list of entries -/

private theorem trimLoop_eq_drop (budget : ℕ) (entries : List (Stored ρ)) (cursor total : ℕ) :
    ∃ k, (entries ≠ [] → k < entries.length) ∧
      (trimLoop budget entries cursor total).1 = entries.drop k ∧
      (trimLoop budget entries cursor total).2.1 = cursor - k := by
  induction entries generalizing cursor total with
  | nil => exact ⟨0, by simp, rfl, rfl⟩
  | cons front rest ih =>
    cases rest with
    | nil => exact ⟨0, by simp, rfl, rfl⟩
    | cons next rest =>
      unfold trimLoop
      split
      · obtain ⟨k, hk, hentries, hcursor⟩ := ih (cursor - 1) (total - front.cost)
        have hlt := hk (List.cons_ne_nil _ _)
        refine ⟨k + 1, fun _ => by simpa using hlt, ?_, ?_⟩
        · simpa using hentries
        · simp only [hcursor]
          omega
      · exact ⟨0, by simp, rfl, rfl⟩

/-- The number of entries a trim drops from the front. -/
def trimCount (j : Journal ρ) : ℕ := j.entries.length - j.trim.1.entries.length

/-- A trim drops entries from the front, but not all of them, and moves the cursor by as many. -/
theorem trim_eq (j : Journal ρ) : j.trim.1.entries = j.entries.drop j.trimCount ∧
    j.trim.1.cursor = j.cursor - j.trimCount ∧ (j.entries ≠ [] → j.trimCount < j.entries.length) ∧
    j.trim.1.budget = j.budget ∧ j.trim.1.stateCost = j.stateCost := by
  obtain ⟨k, hk, hentries, hcursor⟩ :=
    trimLoop_eq_drop j.budget j.entries j.cursor j.totalCost
  have hentries' : j.trim.1.entries = j.entries.drop k := hentries
  have hcount : j.trimCount = k ∨ j.entries = [] := by
    by_cases hnil : j.entries = []
    · exact Or.inr hnil
    · have := hk hnil
      left
      rw [trimCount, hentries', List.length_drop]
      omega
  rcases hcount with hcount | hnil
  · exact ⟨hcount ▸ hentries', hcount ▸ hcursor, hcount ▸ hk, rfl, rfl⟩
  · have hzero : j.trimCount = 0 := by rw [trimCount, hnil, List.length_nil, Nat.zero_sub]
    refine ⟨?_, ?_, fun hne => absurd hnil hne, rfl, rfl⟩
    · rw [hentries', hnil, List.drop_nil, List.drop_nil]
    · rw [hzero, Nat.sub_zero]
      simp only [trim, hnil, trimLoop]

/-- The list before the trim of a commit, entry by entry: a coalescing commit merges into the
last place, another drops the redo tail and appends. -/
def extendAt {α : Type} (j : Journal ρ) (key : UInt64) (merge : α → α) (new : α) (l : List α) :
    List α :=
  match j.coalesceTip key with
  | some _ => l.dropLast ++ (l.getLast?.map merge).toList
  | none => l.take j.cursor ++ [new]

/-- A list kept beside the entries of a journal through a commit. -/
def annotate {α : Type} (j : Journal ρ) (entry : JournalEntry ρ) (merge : α → α) (new : α)
    (l : List α) : List α :=
  let l' := j.extendAt entry.coalesceKey merge new l
  l'.drop (l'.length - (j.onCommit entry).1.entries.length)

/-- A commit extends the entries and trims them; the cursor is at the end. -/
theorem onCommit_eq (j : Journal ρ) (entry : JournalEntry ρ) :
    ∃ (j' : Journal ρ), (j.onCommit entry).1 = j'.trim.1 ∧
      j'.cursor = j'.entries.length ∧ j'.entries ≠ [] ∧ j'.entries.map Stored.entry =
        j.extendAt entry.coalesceKey (fun e => (mergeEntry e entry).1) entry
          (j.entries.map Stored.entry) := by
  unfold onCommit extendAt
  cases htip : j.coalesceTip entry.coalesceKey with
  | some tip =>
    obtain ⟨hlast, hcursor, -⟩ := getLast?_of_coalesceTip htip
    have hne : j.entries ≠ [] := fun hnil => by simp [hnil] at hlast
    refine ⟨_, rfl, ?_, List.append_ne_nil_of_right_ne_nil _ (List.cons_ne_nil _ _), ?_⟩
    · have hpos := List.length_pos_iff.mpr hne
      simp only [List.length_append, List.length_dropLast, List.length_singleton]
      omega
    · simp only [List.map_append, List.map_dropLast, List.map_cons, List.map_nil,
        List.getLast?_map, hlast, Option.map_some, Option.toList_some]
      rfl
  | none =>
    refine ⟨_, rfl, rfl, List.append_ne_nil_of_right_ne_nil _ (List.cons_ne_nil _ _), ?_⟩
    simp only [List.map_append, List.map_take, List.map_cons, List.map_nil]

/-- A list kept beside the entries loses the same places in the trim. -/
theorem onCommit_annotate {α : Type} (j : Journal ρ) (entry : JournalEntry ρ) (merge : α → α)
    (new : α) {l : List α} (hl : (j.extendAt entry.coalesceKey merge new l).length =
      (j.extendAt entry.coalesceKey (fun e => (mergeEntry e entry).1) entry
        (j.entries.map Stored.entry)).length) :
    ∃ k ≤ (j.extendAt entry.coalesceKey (fun e => (mergeEntry e entry).1) entry
        (j.entries.map Stored.entry)).length,
      (j.onCommit entry).1.entries.map Stored.entry =
        (j.extendAt entry.coalesceKey (fun e => (mergeEntry e entry).1) entry
          (j.entries.map Stored.entry)).drop k ∧
      j.annotate entry merge new l = (j.extendAt entry.coalesceKey merge new l).drop k ∧
      (j.onCommit entry).1.cursor = (j.extendAt entry.coalesceKey
        (fun e => (mergeEntry e entry).1) entry (j.entries.map Stored.entry)).length - k := by
  obtain ⟨j', hj', hcursor, hne, hentries⟩ := j.onCommit_eq entry
  obtain ⟨htrim, htcursor, hlt, -⟩ := j'.trim_eq
  have hk := hlt hne
  rw [← hentries, List.length_map] at hl ⊢
  refine ⟨j'.trimCount, hk.le, ?_, ?_, ?_⟩
  · rw [hj', htrim, List.map_drop]
  · rw [annotate, hj', htrim, List.length_drop, hl]
    congr 1
    omega
  · rw [hj', htcursor, hcursor]

/-- The last elements of two related lists are changed alike. -/
private theorem forall₂_changeLast {α β : Type} {R : α → β → Prop} {f : α → α} {g : β → β}
    {l : List α} {l' : List β} (h : List.Forall₂ R l l')
    (hfg : ∀ a b, R a b → R (f a) (g b)) : List.Forall₂ R
      (l.dropLast ++ (l.getLast?.map f).toList) (l'.dropLast ++ (l'.getLast?.map g).toList) := by
  induction h with
  | nil => exact .nil
  | cons hab hrest ih =>
    cases hrest with
    | nil => exact .cons (hfg _ _ hab) .nil
    | cons hab' hrest =>
      rw [List.dropLast_cons_cons, List.dropLast_cons_cons, List.getLast?_cons_cons,
        List.getLast?_cons_cons]
      exact .cons hab ih

/-- A list kept beside the entries stays related to them through a commit. -/
theorem onCommit_forall₂ {α : Type} {j : Journal ρ} {entry : JournalEntry ρ}
    {R : JournalEntry ρ → α → Prop} {merge : α → α} {new : α} {l : List α}
    (h : List.Forall₂ R (j.entries.map Stored.entry) l) (hnew : R entry new)
    (hmerge : ∀ e a, R e a → R (mergeEntry e entry).1 (merge a)) :
    List.Forall₂ R ((j.onCommit entry).1.entries.map Stored.entry)
      (j.annotate entry merge new l) := by
  have hextend : List.Forall₂ R (j.extendAt entry.coalesceKey (fun e => (mergeEntry e entry).1)
      entry (j.entries.map Stored.entry)) (j.extendAt entry.coalesceKey merge new l) := by
    unfold extendAt
    split
    · exact forall₂_changeLast h hmerge
    · exact List.rel_append (List.forall₂_take _ h) (.cons hnew .nil)
  obtain ⟨k, -, hentries, hannotate, -⟩ := j.onCommit_annotate entry merge new
    hextend.length_eq.symm
  rw [hentries, hannotate]
  exact List.forall₂_drop _ hextend

/-- Two lists kept beside the entries stay related. -/
theorem forall₂_annotate {α β : Type} {R : α → β → Prop} {merge : α → α} {merge' : β → β}
    {new : α} {new' : β} {l : List α} {l' : List β} (j : Journal ρ) (entry : JournalEntry ρ)
    (h : List.Forall₂ R l l') (hnew : R new new') (hmerge : ∀ a b, R a b → R (merge a) (merge' b)) :
    List.Forall₂ R (j.annotate entry merge new l) (j.annotate entry merge' new' l') := by
  have hextend : List.Forall₂ R (j.extendAt entry.coalesceKey merge new l)
      (j.extendAt entry.coalesceKey merge' new' l') := by
    unfold extendAt
    split
    · exact forall₂_changeLast h hmerge
    · exact List.rel_append (List.forall₂_take _ h) (.cons hnew .nil)
  simp only [annotate, hextend.length_eq]
  exact List.forall₂_drop _ hextend

theorem trim_cursor_le {j : Journal ρ} (h : j.cursor ≤ j.entries.length) :
    j.trim.1.cursor ≤ j.trim.1.entries.length := by
  obtain ⟨hentries, hcursor, -⟩ := j.trim_eq
  rw [hentries, hcursor, List.length_drop]
  omega

/-- After a commit there is nothing to redo. -/
theorem onCommit_cursor_eq (j : Journal ρ) (entry : JournalEntry ρ) :
    (j.onCommit entry).1.cursor = (j.onCommit entry).1.entries.length := by
  obtain ⟨j', hj', hcursor, -, -⟩ := j.onCommit_eq entry
  obtain ⟨hentries, htrim, -⟩ := j'.trim_eq
  rw [hj', hentries, htrim, hcursor, List.length_drop]

/-- The cursor stays within the journal. -/
theorem onCommit_cursor_le (j : Journal ρ) (entry : JournalEntry ρ) :
    (j.onCommit entry).1.cursor ≤ (j.onCommit entry).1.entries.length :=
  (j.onCommit_cursor_eq entry).le

/-- What holds of the entries and the new one holds of the entries after a commit, if merging
keeps it. -/
theorem onCommit_forall {j : Journal ρ} {entry : JournalEntry ρ} {P : JournalEntry ρ → Prop}
    (h : ∀ s ∈ j.entries, P s.entry) (hentry : P entry)
    (hmerge : ∀ e, P e → P (mergeEntry e entry).1) : ∀ s ∈ (j.onCommit entry).1.entries,
      P s.entry := by
  obtain ⟨j', hj', -, -, hextend⟩ := j.onCommit_eq entry
  have hold : ∀ e ∈ j.entries.map Stored.entry, P e := by
    intro e he
    obtain ⟨s, hs, rfl⟩ := List.mem_map.mp he
    exact h s hs
  intro s hs
  rw [hj', j'.trim_eq.1] at hs
  have hmem := List.mem_map_of_mem (f := Stored.entry) (List.mem_of_mem_drop hs)
  rw [hextend, extendAt] at hmem
  split at hmem <;> rcases List.mem_append.mp hmem with hmem | hmem
  · exact hold _ (List.mem_of_mem_dropLast hmem)
  · rw [Option.mem_toList] at hmem
    obtain ⟨e, he, heq⟩ := Option.map_eq_some_iff.mp hmem
    rw [← heq]
    exact hmerge e (hold e (List.mem_of_getLast? he))
  · exact hold _ (List.mem_of_mem_take hmem)
  · rw [List.mem_singleton.mp hmem]
    exact hentry

/-! ## Costs -/

/-- The total is the sum of the costs of the entries. -/
def Costed (j : Journal ρ) : Prop := j.totalCost = (j.entries.map Stored.cost).sum

/-- The entries that can be redone fit a budget, or there is at most one. -/
def RedoFits (j : Journal ρ) (bytes : ℕ) : Prop :=
  (j.entries.drop j.cursor).length ≤ 1 ∨ ((j.entries.drop j.cursor).map Stored.cost).sum ≤ bytes

instance (j : Journal ρ) (bytes : ℕ) : Decidable (j.RedoFits bytes) :=
  inferInstanceAs (Decidable (_ ∨ _))

/-- The loop drops an entry only while two are left that exceed the budget, and it keeps the
total right. -/
private theorem trimLoop_cost (budget : ℕ) (entries : List (Stored ρ)) (cursor total : ℕ)
    (h : total = (entries.map Stored.cost).sum) :
    (trimLoop budget entries cursor total).2.2.1 =
        ((trimLoop budget entries cursor total).1.map Stored.cost).sum ∧
      ∀ i, (entries.drop i).length ≤ 1 ∨ ((entries.drop i).map Stored.cost).sum ≤ budget →
        entries.length ≤ (trimLoop budget entries cursor total).1.length + i := by
  induction entries generalizing cursor total with
  | nil => exact ⟨h, fun i _ => by simp [trimLoop]⟩
  | cons front rest ih =>
    cases rest with
    | nil => exact ⟨h, fun i _ => by simp [trimLoop]⟩
    | cons next rest =>
      unfold trimLoop
      split
      · rename_i hlt
        have htotal : total - front.cost = ((next :: rest).map Stored.cost).sum := by
          rw [h, List.map_cons, List.sum_cons]
          omega
        obtain ⟨hcost, hdrop⟩ := ih (cursor - 1) (total - front.cost) htotal
        refine ⟨hcost, fun i hi => ?_⟩
        cases i with
        | zero =>
          rw [List.drop_zero, ← h] at hi
          rcases hi with hi | hi
          · simp at hi
          · omega
        | succ i =>
          have := hdrop i (by simpa using hi)
          simp only [List.length_cons] at this ⊢
          omega
      · exact ⟨h, fun i _ => by simp⟩

theorem trim_costed {j : Journal ρ} (h : j.Costed) : j.trim.1.Costed :=
  (trimLoop_cost j.budget j.entries j.cursor j.totalCost h).1

/-- A budget that the entries from the cursor on fit drops only applied entries. -/
theorem trimCount_le_cursor {j : Journal ρ} {bytes : ℕ} (h : j.Costed) (hfits : j.RedoFits bytes) :
    trimCount { j with budget := bytes } ≤ j.cursor := by
  have hle := (trimLoop_cost bytes j.entries j.cursor j.totalCost h).2 j.cursor hfits
  unfold trimCount
  change j.entries.length - (trimLoop bytes j.entries j.cursor j.totalCost).1.length ≤ j.cursor
  omega

theorem onCommit_costed {j : Journal ρ} (h : j.Costed) (entry : JournalEntry ρ) :
    (j.onCommit entry).1.Costed := by
  unfold onCommit
  split
  · rename_i tip htip
    obtain ⟨hlast, -⟩ := getLast?_of_coalesceTip htip
    refine trim_costed ?_
    have hentries : j.entries = j.entries.dropLast ++ [tip] :=
      (List.dropLast_append_getLast? tip hlast).symm
    have htotal : j.totalCost = (j.entries.dropLast.map Stored.cost).sum + tip.cost := by
      rw [h, ← List.sum_singleton (x := tip.cost), ← List.sum_append, ← List.map_singleton,
        ← List.map_append, ← hentries]
    simp only [Costed, List.map_append, List.sum_append, List.map_cons, List.map_nil,
      List.sum_cons, List.sum_nil]
    omega
  · refine trim_costed ?_
    have hsplit : (j.entries.map Stored.cost).sum =
        ((j.entries.take j.cursor).map Stored.cost).sum +
          ((j.entries.drop j.cursor).map Stored.cost).sum := by
      rw [← List.sum_append, ← List.map_append, List.take_append_drop]
    have htotal : j.totalCost = _ := h.trans hsplit
    simp only [Costed, List.map_append, List.sum_append, List.map_cons, List.map_nil,
      List.sum_cons, List.sum_nil]
    omega

/-- The total is right, and within the budget unless one entry alone is left. -/
def Accounted (j : Journal ρ) : Prop :=
  j.Costed ∧ (j.entries.length ≤ 1 ∨ j.totalCost ≤ j.budget)

private theorem trimLoop_within (budget : ℕ) (entries : List (Stored ρ)) (cursor total : ℕ) :
    (trimLoop budget entries cursor total).1.length ≤ 1 ∨
      (trimLoop budget entries cursor total).2.2.1 ≤ budget := by
  induction entries generalizing cursor total with
  | nil => exact .inl (Nat.zero_le _)
  | cons front rest ih =>
    cases rest with
    | nil => exact .inl le_rfl
    | cons next rest =>
      unfold trimLoop
      split
      case isTrue => exact ih _ _
      case isFalse hle => exact .inr (Nat.le_of_not_lt hle)

theorem trim_accounted {j : Journal ρ} (h : j.Costed) : j.trim.1.Accounted :=
  ⟨trim_costed h, trimLoop_within ..⟩

theorem onCommit_accounted {j : Journal ρ} (h : j.Costed) (entry : JournalEntry ρ) :
    (j.onCommit entry).1.Accounted := by
  obtain ⟨j', hj', -⟩ := j.onCommit_eq entry
  refine ⟨onCommit_costed h entry, ?_⟩
  rw [hj']
  exact trimLoop_within ..

end Journal

end

/-! ## Renaming the references -/

section

variable {ρ ρ' : Type} (f : ρ → ρ')

/-- The edit with other references. -/
def ObjectEdit.map (e : ObjectEdit ρ) : ObjectEdit ρ' :=
  ⟨e.object, e.before.map f, e.after.map f⟩

/-- The entry with other references. -/
def JournalEntry.map (e : JournalEntry ρ) : JournalEntry ρ' :=
  ⟨e.coalesceKey, e.objects.map (ObjectEdit.map f), e.contents⟩

/-- The stored entry with other references. -/
def Stored.map (s : Stored ρ) : Stored ρ' := ⟨s.entry.map f, s.cost⟩

/-- The journal with other references. -/
def Journal.map (j : Journal ρ) : Journal ρ' :=
  ⟨j.budget, j.stateCost, j.entries.map (Stored.map f), j.cursor, j.totalCost⟩

private theorem mergeObject_map (objects : List (ObjectEdit ρ)) (fe : ObjectEdit ρ) :
    (mergeObject (objects.map (ObjectEdit.map f)) (fe.map f)).1 =
      (mergeObject objects fe).1.map (ObjectEdit.map f) := by
  induction objects with
  | nil => rfl
  | cons be rest ih =>
    by_cases h : be.object = fe.object
    · have h' : (be.map f).object = (fe.map f).object := h
      simp only [List.map_cons, mergeObject, if_pos h, if_pos h']
      rfl
    · have h' : ¬ (be.map f).object = (fe.map f).object := h
      simp only [List.map_cons, mergeObject, if_neg h, if_neg h', ih]

private theorem mergeObjects_map (base follow : List (ObjectEdit ρ)) :
    (mergeObjects (base.map (ObjectEdit.map f)) (follow.map (ObjectEdit.map f))).1 =
      (mergeObjects base follow).1.map (ObjectEdit.map f) := by
  induction follow generalizing base with
  | nil => rfl
  | cons fe follow ih =>
    simp only [List.map_cons, mergeObjects, mergeObject_map]
    exact ih _

/-- Coalescing does not look at the references. -/
theorem mergeEntry_map (base follow : JournalEntry ρ) :
    (mergeEntry (base.map f) (follow.map f)).1 = (mergeEntry base follow).1.map f := by
  simp only [mergeEntry, JournalEntry.map, mergeObjects_map]

/-- Only the references of an entry matter for a renaming. -/
theorem JournalEntry.map_congr {g : ρ → ρ'} {e : JournalEntry ρ} (h : ∀ r ∈ e.refs, f r = g r) :
    e.map f = e.map g := by
  have hopt : ∀ {o : Option ρ}, (∀ r ∈ o.toList, f r = g r) → o.map f = o.map g := by
    rintro (_ | r) hr
    · rfl
    · exact congrArg some (hr r (List.mem_singleton_self r))
  have hobjects : e.objects.map (ObjectEdit.map f) = e.objects.map (ObjectEdit.map g) := by
    refine List.map_congr_left fun oe he => ?_
    have hr : ∀ r ∈ oe.refs, f r = g r := fun r hr => h r (List.mem_flatMap.mpr ⟨oe, he, hr⟩)
    rw [ObjectEdit.map, hopt fun r hm => hr r (List.mem_append_left _ hm),
      hopt fun r hm => hr r (List.mem_append_right _ hm), ObjectEdit.map]
  rw [JournalEntry.map, hobjects, JournalEntry.map]

/-- Only the references of a journal matter for a renaming. -/
theorem Journal.map_congr {g : ρ → ρ'} {j : Journal ρ} (h : ∀ r ∈ j.refs, f r = g r) :
    j.map f = j.map g := by
  have hentries : j.entries.map (Stored.map f) = j.entries.map (Stored.map g) := by
    refine List.map_congr_left fun s hs => ?_
    rw [Stored.map, JournalEntry.map_congr f fun r hr => h r (List.mem_flatMap.mpr ⟨s, hs, hr⟩),
      Stored.map]
  rw [Journal.map, hentries, Journal.map]

namespace Journal

theorem entryCost_map (j : Journal ρ) (e : JournalEntry ρ) :
    (j.map f).entryCost (e.map f) = j.entryCost e := by
  simp only [entryCost, JournalEntry.map, List.map_map, Journal.map]
  congr 2
  refine List.map_congr_left fun oe _ => ?_
  simp [ObjectEdit.map]

private theorem trimLoop_map (budget : ℕ) (entries : List (Stored ρ)) (cursor total : ℕ) :
    (trimLoop budget (entries.map (Stored.map f)) cursor total).1 =
        (trimLoop budget entries cursor total).1.map (Stored.map f) ∧
      (trimLoop budget (entries.map (Stored.map f)) cursor total).2.1 =
        (trimLoop budget entries cursor total).2.1 ∧
      (trimLoop budget (entries.map (Stored.map f)) cursor total).2.2.1 =
        (trimLoop budget entries cursor total).2.2.1 := by
  induction entries generalizing cursor total with
  | nil => exact ⟨rfl, rfl, rfl⟩
  | cons front rest ih =>
    cases rest with
    | nil => exact ⟨rfl, rfl, rfl⟩
    | cons next rest =>
      have ih' := ih (cursor - 1) (total - front.cost)
      simp only [List.map_cons, trimLoop] at ih' ⊢
      split
      · exact ih'
      · exact ⟨rfl, rfl, rfl⟩

/-- A trim does not look at the references. -/
theorem map_trim (j : Journal ρ) : (j.map f).trim.1 = j.trim.1.map f := by
  obtain ⟨h₁, h₂, h₃⟩ := trimLoop_map f j.budget j.entries j.cursor j.totalCost
  simp only [trim, Journal.map, h₁, h₂, h₃]

theorem map_setByteBudget (j : Journal ρ) (bytes : ℕ) :
    ((j.map f).setByteBudget bytes).1 = (j.setByteBudget bytes).1.map f :=
  map_trim f { j with budget := bytes }

private theorem coalesceTip_map (j : Journal ρ) (key : UInt64) :
    (j.map f).coalesceTip key = (j.coalesceTip key).map (Stored.map f) := by
  simp only [coalesceTip, Journal.map, List.length_map]
  split
  · rw [List.getLast?_map]
    cases j.entries.getLast? with
    | none => rfl
    | some tip =>
      by_cases h : tip.entry.coalesceKey = key
      · simp [Stored.map, JournalEntry.map, h, Option.filter]
      · simp [Stored.map, JournalEntry.map, h, Option.filter]
  · rfl

/-- What a commit does to the journal does not look at the references. -/
theorem map_onCommit (j : Journal ρ) (entry : JournalEntry ρ) :
    ((j.map f).onCommit (entry.map f)).1 = (j.onCommit entry).1.map f := by
  have hkey : (entry.map f).coalesceKey = entry.coalesceKey := rfl
  simp only [onCommit, hkey, coalesceTip_map]
  cases j.coalesceTip entry.coalesceKey with
  | some tip =>
    simp only [Option.map_some, coalesce, ← map_trim]
    congr 2
    have hcost : (j.map f).entryCost (mergeEntry (tip.entry.map f) (entry.map f)).1 =
        j.entryCost (mergeEntry tip.entry entry).1 := by
      rw [mergeEntry_map, entryCost_map]
    simp only [Stored.map]
    rw [hcost, mergeEntry_map]
    simp only [Journal.map, List.map_append, List.map_dropLast]
    rfl
  | none =>
    simp only [Option.map_none, push, ← map_trim]
    congr 2
    simp only [entryCost_map]
    simp only [Journal.map, List.map_append, List.map_take, List.map_drop, List.map_map,
      List.length_append, List.length_map, List.length_take]
    rfl

end Journal

end

end ArbitraryComposer
