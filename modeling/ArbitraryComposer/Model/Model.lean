import ArbitraryComposer.Model.Transaction
import ArbitraryComposer.ToMathlib.Machine

/-!
# The Versioned Model

A model publishes versions one after the other. A transaction forks the current version, edits
its own tree and publishes it; undo and redo publish a version in which the records of a journal
entry are bound again. A version stays until the last handle on it goes: the current version, a
pin, or the base of a transaction. Reading a version through a pin touches no count.

The damage of transactions is kept beside the model, in `CommitDamage`. Names and the views
published for other threads are not modelled. The journal is the commit sink of the model, or none
is installed.

## Main definitions

- `Model`: the arena, versions, pins, transactions and the journal.
- `commit`, `navigate`, `loadBaseline`: the three ways a version is published.
- `ModelEvent`, `exec`, `docModel`: the machine of all runs.
-/

namespace ArbitraryComposer

open Exec Arena

/-- `DocRoot`: a published version. -/
structure DocRoot where
  /-- The root of its map. -/
  root : Option ℕ
  /-- The document revision. -/
  revision : ℕ
  deriving DecidableEq, Repr

/-- `Model::Transaction`. -/
structure Transaction where
  /-- The version it was opened on, which it pins. -/
  base : ℕ
  /-- The working root. -/
  root : Option ℕ
  /-- The revision it will publish, and the stamp of the records it makes. -/
  publishRevision : ℕ
  /-- The first error, which is sticky. -/
  status : Option PoolError := none
  /-- Not yet committed or aborted. -/
  isOpen : Bool := true
  /-- The objects touched, in order. -/
  touched : List ObjectId := []
  /-- The content states changed. -/
  contents : List ContentStateEdit := []
  /-- The coalescing key. -/
  coalesceKey : UInt64 := noCoalesce
  deriving DecidableEq

/-- `Model`, with its journal. -/
structure Model where
  /-- The arena. -/
  arena : Heap
  /-- The next id. -/
  nextId : ObjectId
  /-- The versions in the order of publication; `none` once the last handle went. -/
  versions : List (Option DocRoot)
  /-- The current version. -/
  current : ℕ
  /-- The versions pinned, once for each pin. -/
  pins : List ℕ
  /-- The transactions in the order they were opened; `none` once destroyed. -/
  transactions : List (Option Transaction)
  /-- Whether the journal is installed as the commit sink. -/
  journaled : Bool
  /-- The journal. -/
  journal : Journal ℕ

/-- Programs of the model. -/
abbrev ModelExec (α : Type) : Type := Exec Model PoolError Fault α

/-- An operation on the arena of a model. -/
def onHeap {α : Type} (x : HeapExec α) : ModelExec α :=
  zoom Model.arena (fun A s => { s with arena := A }) id x

namespace Model

/-- A version some handle is on. -/
def version? (s : Model) (v : ℕ) : Option DocRoot := s.versions[v]?.join

/-- A transaction not yet destroyed. -/
def transaction? (s : Model) (i : ℕ) : Option Transaction := s.transactions[i]?.join

/-- The versions the `DocStatePtr`s are on. -/
def holders (s : Model) : List ℕ :=
  s.current :: (s.pins ++ s.transactions.filterMap fun t => t.map Transaction.base)

/-- Replace a transaction. -/
def setTransaction (s : Model) (i : ℕ) (t : Option Transaction) : Model :=
  { s with transactions := s.transactions.set i t }

end Model

/-- A `DocStatePtr` on a version went; the last one destroys the version. -/
def dropVersion (v : ℕ) : ModelExec Unit := do
  let s ← gets fun s => s
  match s.version? v with
  | some d =>
    if v ∈ s.holders then
      pure ()
    else
      modify fun s => { s with versions := s.versions.set v none }
      onHeap (releaseRoot d.root)
  | none => pure ()

/-- The store to `d_current`. -/
def publish (d : DocRoot) : ModelExec Unit := do
  let old ← gets Model.current
  modify fun s => { s with versions := s.versions ++ [some d], current := s.versions.length }
  dropVersion old

/-- The current version. -/
def currentVersion : ModelExec DocRoot := do
  let s ← gets fun s => s
  expect (s.version? s.current) .emptyDeref

/-- A transaction its owner has. -/
def transaction (i : ℕ) : ModelExec Transaction := do
  let s ← gets fun s => s
  expect (s.transaction? i) .misuse

/-- The copy of a root handle. -/
def copyRoot (root : Option ℕ) : HeapExec Unit :=
  forEach root.toList fun i => copyRef (.nodes, i)

/-- `Model::transact`. -/
def beginTransaction : ModelExec Unit := do
  let d ← currentVersion
  onHeap (copyRoot d.root)
  modify fun s => { s with transactions := s.transactions ++
    [some { base := s.current, root := d.root, publishRevision := d.revision + 1 }] }

/-- Run a script on a working tree; an error value is returned with the tree it left. -/
def runScript {α : Type} (t stamp : ℕ) (x : Script α) (root : Option ℕ) (touched : List ObjectId)
    (contents : List ContentStateEdit) : ModelExec (Working × Option PoolError) := fun s =>
  match x.interp t stamp ⟨s.arena, s.nextId, root, touched, contents⟩ with
  | .ok _ w => .ok (w, none) { s with arena := w.arena, nextId := w.nextId }
  | .error e w => .ok (w, some e) { s with arena := w.arena, nextId := w.nextId }
  | .fault f => .fault f

/-- A mutator of a transaction: nothing after the first error. -/
def mutate (t i : ℕ) (m : Mutator) : ModelExec Unit := do
  let txn ← transaction i
  if txn.status.isSome then
    pure ()
  else
    let (w, status) ← runScript t txn.publishRevision m.script txn.root txn.touched txn.contents
    modify fun s => s.setTransaction i (some { txn with
      root := w.root, touched := w.touched, contents := w.contents, status := status })

/-- `Transaction::coalesce`. -/
def setCoalesceKey (i : ℕ) (key : UInt64) : ModelExec Unit := do
  let txn ← transaction i
  modify fun s => s.setTransaction i (some { txn with coalesceKey := key })

/-- `Transaction::abort`. -/
def abortTransaction (i : ℕ) : ModelExec Unit := do
  let txn ← transaction i
  if txn.isOpen then
    modify fun s => s.setTransaction i (some { txn with
      isOpen := false, root := none, touched := [], contents := [] })
    onHeap (releaseRoot txn.root)
  else
    pure ()

/-- The destructor of a transaction. -/
def destroyTransaction (i : ℕ) : ModelExec Unit := do
  let txn ← transaction i
  modify fun s => s.setTransaction i none
  onHeap (releaseRoot txn.root)
  dropVersion txn.base

/-! ## Commit -/

/-- Drop record references in order. -/
def releaseRecords (records : List ℕ) : HeapExec Unit :=
  forEach records fun i => release (.records, i)

/-- `hamt_lookup` and `resolve`. -/
def resolveIn (root : Option ℕ) (key : ObjectId) : HeapExec (Option ℕ) := do
  match ← hamtLookup root key with
  | some i =>
    retain (.records, i)
    pure (some i)
  | none => pure none

/-- The edit of one object. -/
def buildEdit (base root : Option ℕ) (key : ObjectId) : HeapExec (ObjectEdit ℕ) := do
  let before ← resolveIn base key
  let after ← onError (resolveIn root key) (releaseRecords before.toList)
  pure ⟨key, before, after⟩

/-- The edits of the touched objects; an error drops those made so far. -/
def buildEdits (base root : Option ℕ) :
    List ObjectId → List (ObjectEdit ℕ) → HeapExec (List (ObjectEdit ℕ))
  | [], edits => pure edits
  | key :: keys, edits => do
    let e ← onError (buildEdit base root key) (releaseRecords (edits.flatMap ObjectEdit.refs))
    buildEdits base root keys (edits ++ [e])

/-- A reference of a journal entry is copied or destroyed. -/
def execEffect : RefEffect ℕ → HeapExec Unit
  | .copy i => copyRef (.records, i)
  | .drop i => release (.records, i)

/-- `Journal::on_commit` or a trim: the new journal, and the references it moved. -/
def updateJournal (f : Journal ℕ → Journal ℕ × List (RefEffect ℕ)) : ModelExec Unit := do
  let j ← gets Model.journal
  modify fun s => { s with journal := (f j).1 }
  onHeap (forEach (f j).2 execEffect)

/-- The publishing part of `Transaction::commit`. -/
def publishTransaction (i : ℕ) (txn : Transaction) : ModelExec Unit := do
  modify fun s => s.setTransaction i (some { txn with root := none, isOpen := false })
  publish ⟨txn.root, txn.publishRevision⟩

/-- The journal entry of a transaction; a refused count sets the status. -/
def buildEntry (i : ℕ) (txn : Transaction) : ModelExec (JournalEntry ℕ) := do
  let s ← gets fun s => s
  let base ← expect (s.version? txn.base) .emptyDeref
  let objects ← onError (onHeap (buildEdits base.root txn.root txn.touched []))
    (modify fun s => s.setTransaction i (some { txn with status := some .capacityExhausted }))
  pure ⟨txn.coalesceKey, objects, txn.contents⟩

/-- `Transaction::commit`. -/
def commit (i : ℕ) : ModelExec Unit := do
  let txn ← transaction i
  match txn.status with
  | some e => throw e
  | none =>
    if txn.isOpen then
      let journaled ← gets Model.journaled
      if journaled then
        let entry ← buildEntry i txn
        publishTransaction i txn
        updateJournal fun j => j.onCommit entry
      else
        publishTransaction i txn
    else
      pure ()

/-! ## Navigation -/

/-- One step of `Model::navigate`: the object is bound to the target record again, or erased. -/
def navigateStep (t : ℕ) (root : Option ℕ) (key : ObjectId) (target : Option ℕ) :
    HeapExec (Option ℕ) :=
  match target with
  | some record => do return some (← hamtInsert t root key record)
  | none => hamtErase t root key

/-- The loop of `Model::navigate`. -/
def navigateLoop (t : ℕ) : Option ℕ → List (ObjectId × Option ℕ) → HeapExec (Option ℕ)
  | root, [] => pure root
  | root, (key, target) :: rest => do
    let next ← onError (navigateStep t root key target) (releaseRoot root)
    releaseRoot root
    navigateLoop t next rest

/-- `Model::navigate`, with the targets of the direction. -/
def navigate (t : ℕ) (targets : List (ObjectId × Option ℕ)) : ModelExec Unit := do
  let d ← currentVersion
  onHeap (copyRoot d.root)
  let root ← onHeap (navigateLoop t d.root targets)
  publish ⟨root, d.revision + 1⟩

/-- The targets of an undo. -/
def JournalEntry.befores {ρ : Type} (e : JournalEntry ρ) : List (ObjectId × Option ρ) :=
  e.objects.map fun oe => (oe.object, oe.before)

/-- The targets of a redo. -/
def JournalEntry.afters {ρ : Type} (e : JournalEntry ρ) : List (ObjectId × Option ρ) :=
  e.objects.map fun oe => (oe.object, oe.after)

/-- Move the cursor of the journal. -/
def setCursor (cursor : ℕ) : ModelExec Unit :=
  modify fun s => { s with journal := { s.journal with cursor := cursor } }

/-- `Journal::undo`. -/
def undo (t : ℕ) : ModelExec Unit := do
  let j ← gets Model.journal
  if j.cursor = 0 then
    pure ()
  else
    let stored ← expect j.entries[j.cursor - 1]? .emptyDeref
    navigate t stored.entry.befores
    setCursor (j.cursor - 1)

/-- `Journal::redo`. -/
def redo (t : ℕ) : ModelExec Unit := do
  let j ← gets Model.journal
  match j.entries[j.cursor]? with
  | some stored =>
    navigate t stored.entry.afters
    setCursor (j.cursor + 1)
  | none => pure ()

/-! ## The rest of the interface -/

/-- Mutators one after the other; the transaction `load_baseline` hands to its argument. -/
def Script.sequence : List Mutator → Script Unit
  | [] => .done ()
  | m :: ms => do
    let _ ← m.script
    Script.sequence ms

/-- `Model::load_baseline`: the records are stamped and the version is published as revision
zero, and the journal is not told. -/
def loadBaseline (t : ℕ) (ms : List Mutator) : ModelExec Unit := do
  let d ← currentVersion
  onHeap (copyRoot d.root)
  let (w, status) ← runScript t 0 (Script.sequence ms) d.root [] []
  match status with
  | some e =>
    onHeap (releaseRoot w.root)
    throw e
  | none => publish ⟨w.root, 0⟩

/-- `Model::current`, kept by a reader. -/
def pin : ModelExec Unit := modify fun s => { s with pins := s.current :: s.pins }

/-- A reader drops a version. -/
def unpin (v : ℕ) : ModelExec Unit := do
  let s ← gets fun s => s
  assert (v ∈ s.pins) .misuse
  modify fun s => { s with pins := s.pins.erase v }
  dropVersion v

/-- `Model::allocate_id`. -/
def allocateId : ModelExec ObjectId :=
  zoom (fun s => ⟨s.arena, s.nextId, none, [], []⟩) (fun w s => { s with nextId := w.nextId }) id
    takeId

/-- What happens to a model; `t` is the thread that asks the allocator. -/
inductive ModelEvent where
  /-- `Model::transact`. -/
  | transact
  /-- A mutator of a transaction. -/
  | mutate (t i : ℕ) (m : Mutator)
  /-- `Transaction::coalesce`. -/
  | coalesce (i : ℕ) (key : UInt64)
  /-- `Transaction::commit`. -/
  | commit (i : ℕ)
  /-- `Transaction::abort`. -/
  | abort (i : ℕ)
  /-- The destructor of a transaction. -/
  | destroy (i : ℕ)
  /-- `Journal::undo`. -/
  | undo (t : ℕ)
  /-- `Journal::redo`. -/
  | redo (t : ℕ)
  /-- `Journal::set_byte_budget`. -/
  | setByteBudget (bytes : ℕ)
  /-- `Model::load_baseline`. -/
  | loadBaseline (t : ℕ) (ms : List Mutator)
  /-- `Model::current`. -/
  | pin
  /-- The end of a pin. -/
  | unpin (v : ℕ)
  /-- `Model::allocate_id`. -/
  | allocateId
  /-- `Model::drain`. -/
  | drain (t : ℕ)

/-- The code an event runs. -/
def exec : ModelEvent → ModelExec Unit
  | .transact => beginTransaction
  | .mutate t i m => mutate t i m
  | .coalesce i key => setCoalesceKey i key
  | .commit i => commit i
  | .abort i => abortTransaction i
  | .destroy i => destroyTransaction i
  | .undo t => undo t
  | .redo t => redo t
  | .setByteBudget bytes => updateJournal fun j => j.setByteBudget bytes
  | .loadBaseline t ms => loadBaseline t ms
  | .pin => pin
  | .unpin v => unpin v
  | .allocateId => do
    let _ ← allocateId
  | .drain t => onHeap (drain t drainOrder)

/-- A new model: the empty version is published as revision zero. -/
def Model.init (arena : Heap) (journaled : Bool) (budget : ℕ)
    (stateCost : ObjectId → StateHandle → ℕ) : Model where
  arena := arena
  nextId := 1
  versions := [some ⟨none, 0⟩]
  current := 0
  pins := []
  transactions := []
  journaled := journaled
  journal := { budget, stateCost, entries := [], cursor := 0, totalCost := 0 }

/-- A new model on an arena that has handed out nothing. -/
def Model.IsStart (s : Model) : Prop :=
  ∃ storeOf chunkBits source fence journaled budget stateCost,
    (∀ f ∈ fence, f.quarantine = []) ∧
    s = .init (Arena.init storeOf chunkBits source fence) journaled budget stateCost

/-- A new journaled model on an arena that refuses nothing. -/
def emptyModel : Model :=
  .init (Arena.init (fun _ => 0) (fun _ => 2) (fun _ => ⟨fun _ => none, 0⟩) none) true noBudget
    fun _ _ => 0

/-- All runs of a model. An error value leaves the state the operation unwound to. -/
def docModel : Machine Model ModelEvent where
  start := Model.IsStart
  step e s := ((exec e).run s).state?

theorem start_emptyModel : docModel.start emptyModel :=
  ⟨_, _, _, none, _, _, _, by simp, rfl⟩

end ArbitraryComposer
