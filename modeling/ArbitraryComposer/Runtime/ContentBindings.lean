import ArbitraryComposer.Model.Records
import ArbitraryComposer.ToMathlib.Machine

/-!
# The Binding Table

A document publishes the objects its contents are bound to as one immutable table. A change loads the
table, copies it, changes the copy and stores it. The writer thread binds objects; the thread that
drains the reclaim queue drops the row of a content that was removed. Every load and every store is
one step, and the two threads take their steps in any order.

## Main definitions

- `BindingEdit`: what the writer does to its copy.
- `SharedBindings`, `sharedBindings`: the published table and the two threads.
- `recordBinding`: what should be bound, as a record of the run.
- `Undisturbed`: the steps that keep the table.

## Main results

- `table_eq_of_undisturbed`: in a run of such steps the table binds what should be bound.
- `exists_bindingLost`: a run in which it does not.
-/

namespace ArbitraryComposer

/-! ## The table -/

/-- `ContentBindings`: the live objects. -/
abbrev ContentBindings (κ : Type) : Type := ObjectId → Option κ

/-- A change that the writer makes to its copy of the table. -/
inductive BindingEdit (κ : Type) where
  /-- `add_content`: a new row; one that exists stays as it is. -/
  | emplace (id : ObjectId) (content : κ)
  /-- `publish_binding`, and `rebind_content` to an object. -/
  | insertOrAssign (id : ObjectId) (content : κ)
  /-- `rebind_content` to null. -/
  | erase (id : ObjectId)
  deriving DecidableEq, Repr

namespace BindingEdit

variable {κ : Type}

/-- The content that the change is about. -/
def id : BindingEdit κ → ObjectId
  | emplace id _ | insertOrAssign id _ | erase id => id

/-- The object that the writer binds, if any. -/
def bound : BindingEdit κ → Option κ
  | emplace _ content | insertOrAssign _ content => some content
  | erase _ => none

/-- The changed copy. -/
def apply (edit : BindingEdit κ) (table : ContentBindings κ) : ContentBindings κ :=
  match edit with
  | emplace id content => if (table id).isSome then table else Function.update table id (some content)
  | insertOrAssign id content => Function.update table id (some content)
  | erase id => Function.update table id none

/-- The edit adds a row. -/
def IsNew : BindingEdit κ → Prop
  | emplace _ _ => True
  | _ => False

/-- A change binds its object, if a row that it adds is not there. -/
theorem apply_eq (edit : BindingEdit κ) (table : ContentBindings κ)
    (hnew : edit.IsNew → table edit.id = none) :
    edit.apply table = Function.update table edit.id edit.bound := by
  cases edit with
  | emplace id content =>
    rw [apply, show table id = none from hnew trivial]
    rfl
  | insertOrAssign => rfl
  | erase => rfl

end BindingEdit

/-! ## The two threads -/

/-- Where the writer thread is. -/
inductive WriterStage (κ : Type) where
  /-- Between two changes. -/
  | idle
  /-- The record is there, and the table is to be loaded. -/
  | pending (edit : BindingEdit κ)
  /-- The table was loaded, and the changed copy is to be stored. -/
  | loaded (edit : BindingEdit κ) (snapshot : ContentBindings κ)

/-- Where the draining thread is in `reclaim_removed_content`. -/
inductive ReclaimStage (κ : Type) where
  /-- Not in it. -/
  | idle
  /-- No record of the content was found, and the table is to be loaded. -/
  | pending (id : ObjectId)
  /-- The table was loaded, and the copy without the row is to be stored. -/
  | loaded (id : ObjectId) (snapshot : ContentBindings κ)

/-- The content that is being reclaimed. -/
def ReclaimStage.target {κ : Type} : ReclaimStage κ → Option ObjectId
  | idle => none
  | pending id | loaded id _ => some id

/-- The contents of a document as the two threads share them. -/
structure SharedBindings (κ : Type) where
  /-- The ids that were handed out. -/
  minted : List ObjectId
  /-- The contents that have a record in the current version. -/
  records : List ObjectId
  /-- `d_tearing_down`. -/
  tearingDown : Bool
  /-- `d_contents`: the published table. -/
  table : ContentBindings κ
  /-- The writer thread. -/
  writer : WriterStage κ
  /-- The draining thread. -/
  reclaim : ReclaimStage κ

/-- A step of one of the threads. -/
inductive BindingEvent (κ : Type) where
  /-- The writer publishes a version with these content records. -/
  | publish (records : List ObjectId)
  /-- `add_content` publishes a version with a new record. -/
  | addContent (id : ObjectId) (content : κ)
  /-- `create_content_and_attach` does. -/
  | createContent (id : ObjectId) (content : κ)
  /-- `rebind_content` is called. -/
  | rebindContent (id : ObjectId) (content : Option κ)
  /-- The writer loads the table. -/
  | writerLoad
  /-- The writer stores its copy. -/
  | writerStore
  /-- `reclaim_removed_content` is called. -/
  | reclaim (id : ObjectId)
  /-- The draining thread loads the table. -/
  | reclaimLoad
  /-- The draining thread stores its copy. -/
  | reclaimStore
  /-- `~Document` begins. -/
  | tearDown

namespace SharedBindings

variable {κ : Type}

/-- The record of a new content is published. -/
def mint (s : SharedBindings κ) (id : ObjectId) (edit : BindingEdit κ) :
    Option (SharedBindings κ) :=
  match s.writer with
  | .idle =>
    if id ∈ s.minted then none
    else some { s with
      minted := id :: s.minted, records := id :: s.records, writer := .pending edit }
  | _ => none

/-- `rebind_content`, up to the load. It refuses an id without a record. -/
def rebindContent (s : SharedBindings κ) (id : ObjectId) (content : Option κ) :
    Option (SharedBindings κ) :=
  match s.writer with
  | .idle =>
    if id ∈ s.records then
      some { s with writer := .pending (match content with
        | some content => .insertOrAssign id content
        | none => .erase id) }
    else some s
  | _ => none

/-- `reclaim_removed_content`, up to the load. It does nothing for a content that has a record, and
nothing when the document is going. -/
def reclaimContent (s : SharedBindings κ) (id : ObjectId) : Option (SharedBindings κ) :=
  match s.reclaim with
  | .idle =>
    if s.tearingDown = true ∨ id ∈ s.records then some s
    else some { s with reclaim := .pending id }
  | _ => none

/-- The load of `reclaim_removed_content`. Without a row there is nothing to store. -/
def reclaimLoad (s : SharedBindings κ) : Option (SharedBindings κ) :=
  match s.reclaim with
  | .pending id =>
    some { s with reclaim := if (s.table id).isSome then .loaded id s.table else .idle }
  | _ => none

/-- A step. -/
def step : BindingEvent κ → SharedBindings κ → Option (SharedBindings κ)
  | .publish records, s =>
    match s.writer with
    | .idle => if records ⊆ s.minted then some { s with records := records } else none
    | _ => none
  | .addContent id content, s => s.mint id (.emplace id content)
  | .createContent id content, s => s.mint id (.insertOrAssign id content)
  | .rebindContent id content, s => s.rebindContent id content
  | .writerLoad, s =>
    match s.writer with
    | .pending edit => some { s with writer := .loaded edit s.table }
    | _ => none
  | .writerStore, s =>
    match s.writer with
    | .loaded edit snapshot => some { s with table := edit.apply snapshot, writer := .idle }
    | _ => none
  | .reclaim id, s => s.reclaimContent id
  | .reclaimLoad, s => s.reclaimLoad
  | .reclaimStore, s =>
    match s.reclaim with
    | .loaded id snapshot =>
      some { s with table := Function.update snapshot id none, reclaim := .idle }
    | _ => none
  | .tearDown, s => some { s with tearingDown := true }

/-- Both threads are idle. -/
def Idle (s : SharedBindings κ) : Prop := s.writer = .idle ∧ s.reclaim = .idle

end SharedBindings

/-- The machine of the two threads. A document that was opened has records and no rows. -/
def sharedBindings (κ : Type) : Machine (SharedBindings κ) (BindingEvent κ) where
  start s := s.records ⊆ s.minted ∧ s.table = (fun _ => none) ∧ s.Idle
  step := SharedBindings.step

/-! ## What should be bound -/

section

variable {κ : Type}

/-- What should be bound after a step: an object that the writer stored is, until the content is
found removed. -/
def recordBinding (e : BindingEvent κ) (s : SharedBindings κ) (_ : SharedBindings κ)
    (bound : ContentBindings κ) : ContentBindings κ :=
  match e, s.writer with
  | .writerStore, .loaded edit _ => Function.update bound edit.id edit.bound
  | .reclaim id, _ =>
    if s.tearingDown = true ∨ id ∈ s.records then bound else Function.update bound id none
  | _, _ => bound

/-- Runs with a record of what should be bound. -/
def recordedBindings (κ : Type) : Machine (SharedBindings κ × ContentBindings κ) (BindingEvent κ) :=
  (sharedBindings κ).observe (fun _ _ => none) recordBinding

/-- A store replaces the table that the thread loaded; and a row is dropped only while the writer has
not bound the content again. -/
def Undisturbed : BindingEvent κ → SharedBindings κ × ContentBindings κ → Prop
  | .writerStore, p => ∀ edit snapshot, p.1.writer = .loaded edit snapshot → snapshot = p.1.table
  | .reclaimStore, p => ∀ id snapshot, p.1.reclaim = .loaded id snapshot →
      snapshot = p.1.table ∧ p.2 id = none
  | _, _ => True

/-! ## The table over a run -/

/-- The change that the writer is making. -/
def WriterStage.edit : WriterStage κ → Option (BindingEdit κ)
  | idle => none
  | pending edit | loaded edit _ => some edit

/-- The table binds what should be bound, but for the row that is being dropped. -/
structure BindsRecorded (s : SharedBindings κ) (bound : ContentBindings κ) : Prop where
  /-- Every other row. -/
  rows : ∀ id, s.reclaim.target ≠ some id → s.table id = bound id
  /-- The row that is being dropped, which may be gone or bound anew. -/
  target : ∀ id, s.reclaim.target = some id → bound id = none ∨ s.table id = bound id
  /-- The contents that have records were added. -/
  records : s.records ⊆ s.minted
  /-- No row was made for an id that was not handed out. -/
  unminted : ∀ id, id ∉ s.minted → s.table id = none
  /-- The writer changes the row of an id that was handed out. -/
  edited : ∀ edit, s.writer.edit = some edit → edit.id ∈ s.minted
  /-- The row that `add_content` adds is not there. -/
  added : ∀ edit, s.writer.edit = some edit → edit.IsNew → s.table edit.id = none

namespace BindsRecorded

variable {s s' : SharedBindings κ} {bound bound' : ContentBindings κ}

/-- The record of a new content is published. -/
theorem mint (h : BindsRecorded s bound) {id : ObjectId} {edit : BindingEdit κ}
    (hid : edit.id = id) (hs : s.mint id edit = some s') : BindsRecorded s' bound := by
  rw [SharedBindings.mint] at hs
  split at hs
  case h_1 hidle =>
    split at hs
    case isTrue => cases hs
    case isFalse hfresh =>
      obtain rfl := Option.some.inj hs
      refine ⟨h.rows, h.target, ?_, fun other hother => ?_, ?_, ?_⟩
      · exact List.cons_subset_cons _ h.records
      · exact h.unminted other fun hmem => hother (List.mem_cons_of_mem _ hmem)
      · rintro _ ⟨⟩
        rw [hid]
        exact List.mem_cons_self
      · -- an id that was not handed out before has no row
        rintro _ ⟨⟩ -
        rw [hid]
        exact h.unminted id hfresh
  case h_2 => cases hs

/-- `rebind_content` decides to change a row. -/
theorem rebindContent (h : BindsRecorded s bound) {id : ObjectId} {content : Option κ}
    (hs : s.rebindContent id content = some s') : BindsRecorded s' bound := by
  simp only [SharedBindings.rebindContent] at hs
  split at hs
  case h_1 =>
    split at hs
    case isTrue hrecord =>
      obtain rfl := Option.some.inj hs
      refine ⟨h.rows, h.target, h.records, h.unminted, ?_, ?_⟩
      · rintro _ ⟨⟩
        cases content <;> exact h.records hrecord
      · rintro _ ⟨⟩ hnew
        cases content <;> cases hnew
    case isFalse =>
      obtain rfl := Option.some.inj hs
      exact h
  case h_2 => cases hs

/-- A store of the writer on the table that it loaded binds the object. -/
theorem writerStore (h : BindsRecorded s bound) {edit : BindingEdit κ}
    (hwriter : s.writer = .loaded edit s.table) :
    BindsRecorded { s with table := edit.apply s.table, writer := .idle }
      (Function.update bound edit.id edit.bound) := by
  have hedit : s.writer.edit = some edit := by
    rw [hwriter]
    rfl
  rw [edit.apply_eq s.table (h.added edit hedit)]
  refine ⟨fun id hid => ?_, fun id hid => ?_, h.records, fun id hid => ?_, nofun, nofun⟩
  · show Function.update s.table edit.id edit.bound id = _
    by_cases hsame : id = edit.id
    · rw [hsame, Function.update_self, Function.update_self]
    · rw [Function.update_of_ne hsame, Function.update_of_ne hsame]
      exact h.rows id hid
  · show _ ∨ Function.update s.table edit.id edit.bound id = _
    by_cases hsame : id = edit.id
    · right
      rw [hsame, Function.update_self, Function.update_self]
    · rw [Function.update_of_ne hsame, Function.update_of_ne hsame]
      exact h.target id hid
  · show Function.update s.table edit.id edit.bound id = none
    have hsame : id ≠ edit.id := fun heq => hid (heq ▸ h.edited edit hedit)
    rw [Function.update_of_ne hsame]
    exact h.unminted id hid

/-- A content is found removed. -/
theorem reclaimContent (h : BindsRecorded s bound) {id : ObjectId}
    (hs : s.reclaimContent id = some s') :
    BindsRecorded s' (recordBinding (.reclaim id) s s' bound) := by
  rw [SharedBindings.reclaimContent] at hs
  rw [recordBinding]
  split at hs
  case h_1 hidle =>
    split at hs
    case isTrue hkept =>
      obtain rfl := Option.some.inj hs
      rw [if_pos hkept]
      exact h
    case isFalse hremoved =>
      obtain rfl := Option.some.inj hs
      rw [if_neg hremoved]
      refine ⟨fun other hother => ?_, fun other hother => ?_, h.records, h.unminted, h.edited,
        h.added⟩
      · have hne : other ≠ id := fun heq => hother (congrArg some heq.symm)
        rw [Function.update_of_ne hne]
        exact h.rows other (by rw [hidle]; nofun)
      · left
        obtain rfl : id = other := Option.some.inj hother
        exact Function.update_self ..
  case h_2 => cases hs

/-- The draining thread loads the table, or has nothing to do. -/
theorem reclaimLoad (h : BindsRecorded s bound) (hs : s.reclaimLoad = some s') :
    BindsRecorded s' bound := by
  rw [SharedBindings.reclaimLoad] at hs
  split at hs
  case h_1 id hpending =>
    obtain rfl := Option.some.inj hs
    have htarget : s.reclaim.target = some id := by
      rw [hpending]
      rfl
    by_cases hrow : (s.table id).isSome = true
    · simp only [hrow, if_true]
      refine ⟨fun other hother => h.rows other ?_, fun other hother => h.target other ?_, h.records,
        h.unminted, h.edited, h.added⟩
      · rwa [htarget]
      · rwa [htarget]
    · -- without a row the content is not bound, whether it was bound anew or not
      simp only [if_neg hrow]
      refine ⟨fun other _ => ?_, nofun, h.records, h.unminted, h.edited, h.added⟩
      by_cases hsame : other = id
      · rw [hsame]
        rcases h.target id htarget with hnone | heq
        · rw [hnone, Option.not_isSome_iff_eq_none.mp hrow]
        · exact heq
      · exact h.rows other fun heq => hsame (Option.some.inj (htarget.symm.trans heq)).symm
  case h_2 => cases hs

/-- A store of the draining thread on the table that it loaded drops the row. -/
theorem reclaimStore (h : BindsRecorded s bound) {id : ObjectId}
    (hreclaim : s.reclaim = .loaded id s.table) (hbound : bound id = none) :
    BindsRecorded { s with table := Function.update s.table id none, reclaim := .idle } bound := by
  refine ⟨fun other _ => ?_, nofun, h.records, fun other hother => ?_, h.edited,
    fun edit hedit hnew => ?_⟩
  · show Function.update s.table id none other = _
    by_cases hsame : other = id
    · rw [hsame, Function.update_self, hbound]
    · rw [Function.update_of_ne hsame]
      refine h.rows other fun heq => hsame ?_
      rw [hreclaim] at heq
      exact (Option.some.inj heq).symm
  · show Function.update s.table id none other = none
    by_cases hsame : other = id
    · rw [hsame, Function.update_self]
    · rw [Function.update_of_ne hsame]
      exact h.unminted other hother
  · show Function.update s.table id none edit.id = none
    by_cases hsame : edit.id = id
    · rw [hsame, Function.update_self]
    · rw [Function.update_of_ne hsame]
      exact h.added edit hedit hnew

/-- An undisturbed step. -/
theorem step (h : BindsRecorded s bound) {e : BindingEvent κ} (hallowed : Undisturbed e (s, bound))
    (hs : (sharedBindings κ).step e s = some s') :
    BindsRecorded s' (recordBinding e s s' bound) := by
  cases e with
  | publish records =>
    simp only [sharedBindings, SharedBindings.step] at hs
    split at hs
    case h_1 hidle =>
      split at hs
      case isTrue hminted =>
        obtain rfl := Option.some.inj hs
        exact ⟨h.rows, h.target, hminted, h.unminted, h.edited, h.added⟩
      case isFalse => cases hs
    case h_2 => cases hs
  | addContent id content => exact h.mint (show (BindingEdit.emplace id content).id = id from rfl) hs
  | createContent id content =>
    exact h.mint (show (BindingEdit.insertOrAssign id content).id = id from rfl) hs
  | rebindContent id content => exact h.rebindContent hs
  | writerLoad =>
    simp only [sharedBindings, SharedBindings.step] at hs
    split at hs
    case h_1 edit hpending =>
      obtain rfl := Option.some.inj hs
      have hedit : s.writer.edit = some edit := by
        rw [hpending]
        rfl
      refine ⟨h.rows, h.target, h.records, h.unminted, ?_, ?_⟩
      · rintro _ ⟨⟩
        exact h.edited edit hedit
      · rintro _ ⟨⟩
        exact h.added edit hedit
    case h_2 => cases hs
  | writerStore =>
    simp only [sharedBindings, SharedBindings.step] at hs
    split at hs
    case h_1 edit snapshot hloaded =>
      obtain rfl := Option.some.inj hs
      obtain rfl := hallowed edit snapshot hloaded
      simp only [recordBinding, hloaded]
      exact h.writerStore hloaded
    case h_2 => cases hs
  | reclaim id => exact h.reclaimContent hs
  | reclaimLoad => exact h.reclaimLoad hs
  | reclaimStore =>
    simp only [sharedBindings, SharedBindings.step] at hs
    split at hs
    case h_1 id snapshot hloaded =>
      obtain rfl := Option.some.inj hs
      obtain ⟨rfl, hbound⟩ := hallowed id snapshot hloaded
      exact h.reclaimStore hloaded hbound
    case h_2 => cases hs
  | tearDown =>
    obtain rfl := Option.some.inj hs
    exact ⟨h.rows, h.target, h.records, h.unminted, h.edited, h.added⟩

end BindsRecorded

/-- In every state of an undisturbed run. -/
theorem bindsRecorded_of_reachable {p : SharedBindings κ × ContentBindings κ}
    (h : (recordedBindings κ).Reachable Undisturbed p) : BindsRecorded p.1 p.2 := by
  apply h.invariant (I := fun p => BindsRecorded p.1 p.2)
  · rintro ⟨s, bound⟩ ⟨⟨hrecords, htable, hwriter, hreclaim⟩, hbound⟩
    obtain rfl : bound = fun _ => none := hbound
    refine ⟨fun id _ => ?_, fun id hid => ?_, hrecords, fun id _ => ?_, fun edit hedit => ?_,
      fun edit hedit => ?_⟩
    · exact congrFun htable id
    · rw [hreclaim] at hid
      cases hid
    · exact congrFun htable id
    · rw [hwriter] at hedit
      cases hedit
    · rw [hwriter] at hedit
      cases hedit
  · rintro ⟨s, bound⟩ e ⟨s', bound'⟩ hinv hallowed hstep
    obtain ⟨hs, hbound⟩ := Machine.observe_step_eq_some.mp hstep
    obtain rfl : bound' = recordBinding e s s' bound := hbound
    exact hinv.step hallowed hs

end

/-! ## A lost row -/

/-- A document without contents. -/
def noBindings : SharedBindings ℕ := ⟨[], [], false, fun _ => none, .idle, .idle⟩

/-- The document with one content, whose row the writer has stored. -/
def oneBinding : SharedBindings ℕ :=
  ⟨[1], [1], false, (BindingEdit.emplace 1 10).apply fun _ => none, .idle, .idle⟩

/-- A run may start there. -/
theorem start_noBindings : (recordedBindings ℕ).start (noBindings, fun _ => none) :=
  ⟨⟨List.Subset.refl _, rfl, rfl, rfl⟩, rfl⟩

/-- A document with one content, which was added and removed. -/
def removedContent : List (BindingEvent ℕ) :=
  [.addContent 1 10, .writerLoad, .writerStore, .publish []]

/-- The row of a content that the writer adds after the draining thread loaded the table is lost when
that thread stores its copy. -/
def storedOver : List (BindingEvent ℕ) :=
  removedContent ++ [.reclaim 1, .reclaimLoad, .addContent 2 20, .writerLoad, .writerStore,
    .reclaimStore]

/-- Both threads are idle. -/
def SharedBindings.isIdle {κ : Type} (s : SharedBindings κ) : Bool :=
  match s.writer, s.reclaim with
  | .idle, .idle => true
  | _, _ => false

end ArbitraryComposer
