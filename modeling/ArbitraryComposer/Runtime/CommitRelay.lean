import ArbitraryComposer.Model.Journal
import ArbitraryComposer.ToMathlib.Machine

/-!
# The Commit Relay and the Housekeeping Cadence

The model hands the entry of every commit to one sink. A document installs a relay there, which
hands the entry to the journal and then tells the housekeeper, whose cadence drains the reclaim
queue and commits a checkpoint after every so many transactions. While a load or an arrival
installs contents, a scope detaches the sink, so that those commits are not journaled; scopes nest.

A commit that fails hands nothing to the sink and is no event here.

## Main definitions

- `Housekeeper`, `afterCommit`, `commitNow`: the cadence.
- `HousekeptDocument`, `document`: the machine of scopes, commits and housekeeping.
- `CommitRelayed`, `Relayed`: what a commit owes the journal and the housekeeper.
- `Clear`: no commit follows the end of a scope.

## Main results

- `relayed_iff`: commits are relayed in exactly the runs in which none follows the end of a scope.
-/

namespace ArbitraryComposer

/-! ## Housekeeping -/

/-- The cadence of `HousekeepingConfig`. The tick interval of a document is never set. -/
structure HousekeepingConfig where
  /-- Whether every commit drains the reclaim queue. -/
  drainBetweenTransactions : Bool := true
  /-- The number of transactions between checkpoints. -/
  checkpointEveryNTransactions : Option ℕ := none
  deriving DecidableEq, Repr

/-- `DocumentHousekeepingConfig`. -/
structure DocumentHousekeepingConfig where
  /-- Whether every commit drains the reclaim queue. -/
  drainBetweenTransactions : Bool := true
  /-- The number of transactions between checkpoints, zero for never. -/
  checkpointEveryNTransactions : ℕ := 0
  deriving DecidableEq, Repr

/-- `Document::policy_for`. -/
def policyFor (config : DocumentHousekeepingConfig) (workspaceBacked : Bool) :
    HousekeepingConfig where
  drainBetweenTransactions := config.drainBetweenTransactions
  checkpointEveryNTransactions :=
    if workspaceBacked ∧ 0 < config.checkpointEveryNTransactions then
      some config.checkpointEveryNTransactions
    else
      none

/-- `Housekeeper`. -/
structure Housekeeper where
  /-- The cadence. -/
  config : HousekeepingConfig
  /-- Whether the document has a workspace file. -/
  checkpointable : Bool
  /-- Calls of `after_commit`. -/
  transactionsSeen : ℕ := 0
  /-- Transactions since the last checkpoint. -/
  transactionsSinceCheckpoint : ℕ := 0
  /-- Drains issued. -/
  drainsRun : ℕ := 0
  /-- Checkpoints committed. -/
  checkpointsCommitted : ℕ := 0
  deriving DecidableEq, Repr

namespace Housekeeper

/-- `Housekeeper::commit_now`, with the outcome of the checkpoint: whether there was no error. -/
def commitNow (h : Housekeeper) (written : Bool) : Bool × Housekeeper :=
  if written then
    (true, { h with
      checkpointsCommitted := h.checkpointsCommitted + 1
      transactionsSinceCheckpoint := 0 })
  else
    (false, h)

/-- `Housekeeper::drain_and_quiesce`. -/
def drain (h : Housekeeper) : Housekeeper := { h with drainsRun := h.drainsRun + 1 }

/-- The transaction count has reached the cadence. -/
def due (h : Housekeeper) : Bool :=
  h.checkpointable && h.config.checkpointEveryNTransactions.any (· ≤ h.transactionsSinceCheckpoint)

/-- The drain of `Housekeeper::after_commit`, and the transaction it counts. -/
def noteTransaction (h : Housekeeper) : Housekeeper :=
  let h := if h.config.drainBetweenTransactions then h.drain else h
  { h with
    transactionsSeen := h.transactionsSeen + 1
    transactionsSinceCheckpoint := h.transactionsSinceCheckpoint + 1 }

/-- `Housekeeper::after_commit`. -/
def afterCommit (h : Housekeeper) (written : Bool) : Bool × Housekeeper :=
  let h := h.noteTransaction
  if h.due then h.commitNow written else (true, h)

/-- `Housekeeper::request_checkpoint`. -/
def requestCheckpoint (h : Housekeeper) (written : Bool) : Bool × Housekeeper :=
  if h.checkpointable then h.commitNow written else (true, h)

variable {h : Housekeeper} {written : Bool}

/-- A checkpoint resets the count and nothing else of the cadence. -/
theorem commitNow_spec : (h.commitNow written).1 = written ∧
    (h.commitNow written).2.config = h.config ∧
    (h.commitNow written).2.checkpointable = h.checkpointable ∧
    (h.commitNow written).2.transactionsSeen = h.transactionsSeen ∧
    (h.commitNow written).2.drainsRun = h.drainsRun ∧
    (written = true → (h.commitNow written).2.transactionsSinceCheckpoint = 0) ∧
    (written = false → (h.commitNow written).2 = h) := by
  unfold commitNow
  cases written <;> simp

theorem noteTransaction_spec : h.noteTransaction.config = h.config ∧
    h.noteTransaction.checkpointable = h.checkpointable ∧
    h.noteTransaction.transactionsSeen = h.transactionsSeen + 1 ∧
    h.noteTransaction.drainsRun =
      h.drainsRun + if h.config.drainBetweenTransactions then 1 else 0 := by
  unfold noteTransaction drain
  split <;> exact ⟨rfl, rfl, rfl, rfl⟩

/-- `after_commit` counts the transaction and drains. -/
theorem afterCommit_spec : (h.afterCommit written).2.config = h.config ∧
    (h.afterCommit written).2.checkpointable = h.checkpointable ∧
    (h.afterCommit written).2.transactionsSeen = h.transactionsSeen + 1 ∧
    (h.afterCommit written).2.drainsRun =
      h.drainsRun + if h.config.drainBetweenTransactions then 1 else 0 := by
  obtain ⟨h1, h2, h3, h4⟩ := noteTransaction_spec (h := h)
  unfold afterCommit
  simp only
  split
  · obtain ⟨-, h5, h6, h7, h8, -⟩ := @commitNow_spec h.noteTransaction written
    exact ⟨h5.trans h1, h6.trans h2, h7.trans h3, h8.trans h4⟩
  · exact ⟨h1, h2, h3, h4⟩

/-- The cadence of a document is never zero. -/
def Regular (h : Housekeeper) : Prop := h.config.checkpointEveryNTransactions ≠ some 0

/-- Right after a checkpoint none is due. -/
theorem not_due_of_zero (hreg : h.Regular) (h0 : h.transactionsSinceCheckpoint = 0) :
    h.due = false := by
  unfold due
  rw [h0]
  cases hn : h.config.checkpointEveryNTransactions with
  | none => simp
  | some n =>
    have : n ≠ 0 := fun h0 => hreg (h0 ▸ hn)
    simp [this]

theorem due_requestCheckpoint (hreg : h.Regular) (hdue : h.due = false) :
    (h.requestCheckpoint written).2.due = false := by
  unfold requestCheckpoint
  split
  · obtain ⟨-, hconfig, -, -, -, hzero, hsame⟩ := @commitNow_spec h written
    cases written with
    | false => rwa [hsame rfl]
    | true =>
      refine not_due_of_zero ?_ (hzero rfl)
      rw [Regular, hconfig]
      exact hreg
  · exact hdue

theorem requestCheckpoint_spec : (h.requestCheckpoint written).2.config = h.config ∧
    (h.requestCheckpoint written).2.transactionsSeen = h.transactionsSeen ∧
    (h.requestCheckpoint written).2.drainsRun = h.drainsRun := by
  unfold requestCheckpoint
  split
  · obtain ⟨-, hconfig, -, hseen, hdrains, -⟩ := @commitNow_spec h written
    exact ⟨hconfig, hseen, hdrains⟩
  · exact ⟨rfl, rfl, rfl⟩

/-- After a commit that reports no error, no checkpoint is due: one was written when the count
reached the cadence. -/
theorem not_due_afterCommit (hreg : h.Regular) (hok : (h.afterCommit written).1 = true) :
    (h.afterCommit written).2.due = false := by
  unfold afterCommit at hok ⊢
  simp only at hok ⊢
  split at hok
  · rename_i hdue
    obtain ⟨hw, hconfig, -, -, -, hzero, -⟩ :=
      @commitNow_spec h.noteTransaction written
    rw [if_pos hdue]
    refine not_due_of_zero ?_ (hzero (hw.symm.trans hok))
    rw [Regular, hconfig, noteTransaction_spec.1]
    exact hreg
  · rename_i hdue
    rw [if_neg hdue]
    exact Bool.eq_false_iff.mpr hdue

end Housekeeper

/-! ## The document -/

/-- What the model hands its commits to. -/
inductive CommitSink where
  /-- The relay of the document. -/
  | relay
  /-- The journal itself. -/
  | journal
  deriving DecidableEq, Repr

/-- The commit side of a document. What the journal was handed is read by nothing. -/
structure HousekeptDocument (ρ : Type) where
  /-- The commit sink of the model. -/
  commitSink : Option CommitSink
  /-- `d_settling`: an install is going on. -/
  installing : Bool
  /-- The open install scopes, innermost first, with the mark each of them found. -/
  scopes : List Bool
  /-- The journal. -/
  journal : Journal ρ
  /-- The entries the journal was handed, oldest first. -/
  journaled : List (JournalEntry ρ)
  /-- The housekeeper. -/
  housekeeping : Housekeeper
  /-- `d_last_checkpoint_error`: the checkpoint of the last commit failed. -/
  checkpointError : Bool

namespace HousekeptDocument

variable {ρ : Type}

/-- `Document::Document`. -/
def new (config : DocumentHousekeepingConfig) (workspaceBacked : Bool) (journal : Journal ρ) :
    HousekeptDocument ρ where
  commitSink := some .relay
  installing := false
  scopes := []
  journal := journal
  journaled := []
  housekeeping := { config := policyFor config workspaceBacked, checkpointable := workspaceBacked }
  checkpointError := false

/-- `InstallScope::InstallScope`. -/
def enterScope (D : HousekeptDocument ρ) : HousekeptDocument ρ :=
  { D with commitSink := none, installing := true, scopes := D.installing :: D.scopes }

/-- `InstallScope::~InstallScope`. -/
def leaveScope (D : HousekeptDocument ρ) : Option (HousekeptDocument ρ) :=
  match D.scopes with
  | wasInstalling :: scopes =>
    some { D with commitSink := some .journal, installing := wasInstalling, scopes := scopes }
  | [] => none

/-- `Journal::on_commit`. -/
def journalCommit (D : HousekeptDocument ρ) (entry : JournalEntry ρ) : HousekeptDocument ρ :=
  { D with journal := (D.journal.onCommit entry).1, journaled := D.journaled ++ [entry] }

/-- `CommitRelay::on_commit`. -/
def relayCommit (D : HousekeptDocument ρ) (entry : JournalEntry ρ) (written : Bool) :
    HousekeptDocument ρ :=
  let D := D.journalCommit entry
  let (kept, housekeeping) := D.housekeeping.afterCommit written
  { D with housekeeping := housekeeping, checkpointError := !kept }

/-- The end of `Transaction::commit`: the entry goes to the sink, if there is one. -/
def commit (D : HousekeptDocument ρ) (entry : JournalEntry ρ) (written : Bool) :
    HousekeptDocument ρ :=
  match D.commitSink with
  | some .relay => D.relayCommit entry written
  | some .journal => D.journalCommit entry
  | none => D

end HousekeptDocument

/-- What happens to a document. -/
inductive DocumentEvent (ρ : Type) where
  /-- A load, a settle or an external install begins. -/
  | enter
  /-- The innermost of them ends. -/
  | leave
  /-- A transaction commits; the outcome of a checkpoint, if one is made. -/
  | commit (entry : JournalEntry ρ) (written : Bool)
  /-- The cursor of the journal moves by undo or redo. -/
  | moveCursor (cursor : ℕ)
  /-- The background thread drains. -/
  | drain
  /-- The host asks for a checkpoint, with its outcome. -/
  | requestCheckpoint (written : Bool)

variable {ρ : Type}

/-- A step of a document. -/
def HousekeptDocument.step : DocumentEvent ρ → HousekeptDocument ρ → Option (HousekeptDocument ρ)
  | .enter, D => some D.enterScope
  | .leave, D => D.leaveScope
  | .commit entry written, D => some (D.commit entry written)
  | .moveCursor cursor, D =>
    if cursor ≤ D.journal.entries.length then
      some { D with journal := { D.journal with cursor := cursor } }
    else
      none
  | .drain, D => some { D with housekeeping := D.housekeeping.drain }
  | .requestCheckpoint written, D =>
    some { D with housekeeping := (D.housekeeping.requestCheckpoint written).2 }

/-- The machine of a document. -/
def document : Machine (HousekeptDocument ρ) (DocumentEvent ρ) where
  start D := ∃ config workspaceBacked journal, D = .new config workspaceBacked journal
  step := HousekeptDocument.step

/-! ## What a commit owes -/

/-- The journal took exactly one entry: the newest one of its entries is the given one, or the
newest one it had with the given one merged into it, and nothing but the oldest entries went. -/
def Journal.Takes (j : Journal ρ) (entry : JournalEntry ρ) (j' : Journal ρ) : Prop :=
  ∃ k, j'.entries.map Stored.entry =
      (j.extendAt entry.coalesceKey (fun e => (mergeEntry e entry).1) entry
        (j.entries.map Stored.entry)).drop k ∧
    j'.entries ≠ [] ∧ j'.cursor = j'.entries.length

theorem Journal.takes_onCommit (j : Journal ρ) (entry : JournalEntry ρ) :
    j.Takes entry (j.onCommit entry).1 := by
  obtain ⟨j', hj', hcursor, hne, hentries⟩ := j.onCommit_eq entry
  obtain ⟨htrim, htcursor, hlt, -⟩ := j'.trim_eq
  have hk := hlt hne
  have hlen : j'.trim.1.entries.length = j'.entries.length - j'.trimCount := by
    rw [htrim, List.length_drop]
  refine ⟨j'.trimCount, ?_, ?_, ?_⟩
  · rw [hj', htrim, ← hentries, List.map_drop]
  · rw [hj', ← List.length_pos_iff, hlen]
    omega
  · rw [hj', htcursor, hlen, hcursor]

/-- A commit made by an install is not journaled; any other commit is journaled once and counted by
the housekeeper. -/
def CommitRelayed (D : HousekeptDocument ρ) (entry : JournalEntry ρ) (written : Bool)
    (D' : HousekeptDocument ρ) : Prop :=
  if D.scopes = [] then
    D.journal.Takes entry D'.journal ∧ D'.journaled = D.journaled ++ [entry] ∧
      D'.housekeeping = (D.housekeeping.afterCommit written).2
  else
    D'.journal = D.journal ∧ D'.journaled = D.journaled

/-- A step relays the commit it makes. -/
def RelaysCommit : DocumentEvent ρ → HousekeptDocument ρ → Prop
  | .commit entry written, D => CommitRelayed D entry written (D.commit entry written)
  | _, _ => True

/-- The commits of a run that no install makes, from a number of open scopes on. -/
def hostCommits : List (DocumentEvent ρ) → ℕ → ℕ
  | [], _ => 0
  | .enter :: es, depth => hostCommits es (depth + 1)
  | .leave :: es, depth => hostCommits es (depth - 1)
  | .commit _ _ :: es, depth => (if depth = 0 then 1 else 0) + hostCommits es depth
  | _ :: es, depth => hostCommits es depth

/-- The commits of a run are relayed, and the cadence follows: the housekeeper saw every commit that
no install made, drained after each of them if it should, and wrote a checkpoint whenever the count
reached the cadence, unless the last one failed. -/
structure Relayed (es : List (DocumentEvent ρ)) (D D' : HousekeptDocument ρ) : Prop where
  /-- Every commit. -/
  commits : document.RunAllowed RelaysCommit es D
  /-- The housekeeper saw them. -/
  seen : D'.housekeeping.transactionsSeen =
    D.housekeeping.transactionsSeen + hostCommits es D.scopes.length
  /-- Each of them was followed by a drain. -/
  drained : D.housekeeping.config.drainBetweenTransactions = true →
    D.housekeeping.drainsRun + hostCommits es D.scopes.length ≤ D'.housekeeping.drainsRun
  /-- No checkpoint is due. -/
  checkpointed : D'.housekeeping.due = false ∨ D'.checkpointError = true

/-- Whether the last scope that was entered or left was left, after one more event. -/
def scopeLeft : DocumentEvent ρ → Bool → Bool
  | .enter, _ => false
  | .leave, _ => true
  | _, left => left

/-- An event is a commit. -/
def DocumentEvent.isCommit : DocumentEvent ρ → Bool
  | .commit _ _ => true
  | _ => false

/-- No commit of a run follows the end of a scope, unless another scope was entered since. -/
def Clear : List (DocumentEvent ρ) → Bool → Prop
  | [], _ => True
  | e :: es, left => (e.isCommit = true → left = false) ∧ Clear es (scopeLeft e left)

/-! ## The sink over a run -/

namespace HousekeptDocument

variable {D D' : HousekeptDocument ρ} {e : DocumentEvent ρ} {left : Bool}

/-- Which sink is installed: the end of a scope leaves the journal, whatever was there before. -/
structure Inv (D : HousekeptDocument ρ) (left : Bool) : Prop where
  /-- The sink. -/
  sink_eq : D.commitSink =
    if left then some .journal else if D.scopes = [] then some .relay else none
  /-- The cadence is never zero. -/
  regular : D.housekeeping.Regular

theorem inv_new (config : DocumentHousekeepingConfig) (workspaceBacked : Bool)
    (journal : Journal ρ) : (new config workspaceBacked journal).Inv false where
  sink_eq := rfl
  regular := by
    intro h0
    change (if _ then some _ else none) = some 0 at h0
    split at h0
    · rename_i h
      rw [Option.some.inj h0] at h
      exact absurd h.2 (lt_irrefl 0)
    · cases h0

/-- A commit changes neither the sink nor the scopes, and keeps the cadence. -/
private theorem commit_frame (D : HousekeptDocument ρ) (entry : JournalEntry ρ) (written : Bool) :
    (D.commit entry written).commitSink = D.commitSink ∧
      (D.commit entry written).scopes = D.scopes ∧
      (D.commit entry written).housekeeping.config = D.housekeeping.config := by
  unfold commit
  split
  · exact ⟨rfl, rfl, Housekeeper.afterCommit_spec.1⟩
  · exact ⟨rfl, rfl, rfl⟩
  · exact ⟨rfl, rfl, rfl⟩

theorem Inv.step (h : D.Inv left) (hs : D.step e = some D') : D'.Inv (scopeLeft e left) := by
  cases e with
  | enter =>
    cases hs
    exact ⟨rfl, h.regular⟩
  | leave =>
    -- the destructor installs the journal, whatever the constructor detached
    change D.leaveScope = some D' at hs
    unfold leaveScope at hs
    split at hs
    · cases hs
      exact ⟨rfl, h.regular⟩
    · cases hs
  | commit entry written =>
    cases hs
    obtain ⟨hsink, hscopes, hconfig⟩ := D.commit_frame entry written
    refine ⟨?_, ?_⟩
    · rw [hsink, hscopes]
      exact h.sink_eq
    · rw [Housekeeper.Regular, hconfig]
      exact h.regular
  | moveCursor cursor =>
    obtain ⟨-, heq⟩ := Option.ite_none_right_eq_some.mp hs
    cases heq
    exact ⟨h.sink_eq, h.regular⟩
  | drain =>
    cases hs
    exact ⟨h.sink_eq, h.regular⟩
  | requestCheckpoint written =>
    cases hs
    refine ⟨h.sink_eq, ?_⟩
    rw [Housekeeper.Regular, Housekeeper.requestCheckpoint_spec.1]
    exact h.regular

/-- A commit is relayed exactly when it does not follow the end of a scope. -/
theorem Inv.relaysCommit_iff (h : D.Inv left) (entry : JournalEntry ρ) (written : Bool) :
    CommitRelayed D entry written (D.commit entry written) ↔ left = false := by
  have hsink := h.sink_eq
  cases left with
  | true =>
    -- the journal alone is told: it journals an install, or the housekeeper misses a host
    have hcommit : D.commit entry written = D.journalCommit entry := by
      unfold commit
      rw [hsink]
      rfl
    refine iff_of_false (fun hrel => ?_) Bool.noConfusion
    rw [hcommit, CommitRelayed] at hrel
    split at hrel
    · obtain ⟨-, -, hseen⟩ := hrel
      have hcount := (@Housekeeper.afterCommit_spec D.housekeeping written).2.2.1
      rw [← hseen] at hcount
      exact absurd hcount (Nat.succ_ne_self _).symm
    · exact absurd (congrArg List.length hrel.2) (by simp [journalCommit])
  | false =>
    refine iff_of_true ?_ rfl
    rw [if_neg Bool.false_ne_true] at hsink
    rw [CommitRelayed]
    split
    · rename_i hscopes
      have hcommit : D.commit entry written = D.relayCommit entry written := by
        unfold commit
        rw [hsink, if_pos hscopes]
      rw [hcommit]
      exact ⟨D.journal.takes_onCommit entry, rfl, rfl⟩
    · rename_i hscopes
      have hcommit : D.commit entry written = D := by
        unfold commit
        rw [hsink, if_neg hscopes]
      rw [hcommit]
      exact ⟨rfl, rfl⟩

/-- The commits of a run are relayed exactly when none of them follows the end of a scope. -/
theorem Inv.runAllowed_iff {es : List (DocumentEvent ρ)} (h : D.Inv left)
    (hrun : document.run es D = some D') :
    document.RunAllowed RelaysCommit es D ↔ Clear es left := by
  induction es generalizing D left with
  | nil => exact iff_of_true trivial trivial
  | cons e es ih =>
    obtain ⟨t, ht, hrun⟩ := Option.bind_eq_some_iff.mp hrun
    have htail := ih (h.step ht) hrun
    refine and_congr ?_ ⟨fun hall => htail.mp (hall t ht), fun hclear t' ht' => ?_⟩
    · cases e with
      | commit entry written =>
        exact (h.relaysCommit_iff entry written).trans ⟨fun hl _ => hl, fun hl => hl rfl⟩
      | enter => exact iff_of_true trivial fun hc => by cases hc
      | leave => exact iff_of_true trivial fun hc => by cases hc
      | moveCursor cursor => exact iff_of_true trivial fun hc => by cases hc
      | drain => exact iff_of_true trivial fun hc => by cases hc
      | requestCheckpoint written => exact iff_of_true trivial fun hc => by cases hc
    · rw [Option.some.inj (ht'.symm.trans ht)]
      exact htail.mpr hclear

/-! ## The cadence over a run -/

/-- The checkpoint is not due, or the last commit could not write it. -/
def OnTime (D : HousekeptDocument ρ) : Prop :=
  D.housekeeping.due = false ∨ D.checkpointError = true

/-- What an event adds to the commits the housekeeper saw. -/
private def seenBy (D : HousekeptDocument ρ) : DocumentEvent ρ → ℕ
  | .commit _ _ => if D.scopes = [] then 1 else 0
  | _ => 0

/-- One event of a run in which no commit follows the end of a scope. -/
private theorem Inv.step_cadence (h : D.Inv left) (hs : D.step e = some D')
    (hclear : e.isCommit = true → left = false) (hdue : D.OnTime) :
    D'.OnTime ∧
      D'.housekeeping.config = D.housekeeping.config ∧
      D'.housekeeping.transactionsSeen = D.housekeeping.transactionsSeen + D.seenBy e ∧
      (D.housekeeping.config.drainBetweenTransactions = true →
        D.housekeeping.drainsRun + D.seenBy e ≤ D'.housekeeping.drainsRun) := by
  cases e with
  | enter =>
    cases hs
    exact ⟨hdue, rfl, rfl, fun _ => le_rfl⟩
  | leave =>
    change D.leaveScope = some D' at hs
    unfold leaveScope at hs
    split at hs
    · cases hs
      exact ⟨hdue, rfl, rfl, fun _ => le_rfl⟩
    · cases hs
  | commit entry written =>
    cases hs
    have hsink := h.sink_eq
    rw [hclear rfl, if_neg Bool.false_ne_true] at hsink
    by_cases hscopes : D.scopes = []
    · have hcommit : D.commit entry written = D.relayCommit entry written := by
        unfold commit
        rw [hsink, if_pos hscopes]
      obtain ⟨hconfig, -, hseen, hdrains⟩ :=
        @Housekeeper.afterCommit_spec D.housekeeping written
      rw [hcommit, seenBy, if_pos hscopes]
      refine ⟨?_, hconfig, hseen, fun hdrain => ?_⟩
      · -- the relay records whether the checkpoint of this commit failed
        cases hkept : (D.housekeeping.afterCommit written).1 with
        | true => exact .inl (Housekeeper.not_due_afterCommit h.regular hkept)
        | false =>
          refine .inr ?_
          change (!(D.housekeeping.afterCommit written).1) = true
          rw [hkept]
          rfl
      · change _ ≤ (D.housekeeping.afterCommit written).2.drainsRun
        rw [hdrains, if_pos hdrain]
    · have hcommit : D.commit entry written = D := by
        unfold commit
        rw [hsink, if_neg hscopes]
      rw [hcommit, seenBy, if_neg hscopes]
      exact ⟨hdue, rfl, rfl, fun _ => le_rfl⟩
  | moveCursor cursor =>
    obtain ⟨-, heq⟩ := Option.ite_none_right_eq_some.mp hs
    cases heq
    exact ⟨hdue, rfl, rfl, fun _ => le_rfl⟩
  | drain =>
    cases hs
    exact ⟨hdue, rfl, rfl, fun _ => Nat.le_succ _⟩
  | requestCheckpoint written =>
    cases hs
    obtain ⟨hconfig, hseen, hdrains⟩ :=
      @Housekeeper.requestCheckpoint_spec D.housekeeping written
    exact ⟨hdue.imp_left (Housekeeper.due_requestCheckpoint h.regular), hconfig, hseen,
      fun _ => hdrains.ge⟩

/-- The commits that the rest of a run adds. -/
private theorem hostCommits_cons (hs : D.step e = some D') (es : List (DocumentEvent ρ)) :
    hostCommits (e :: es) D.scopes.length = D.seenBy e + hostCommits es D'.scopes.length := by
  cases e with
  | enter =>
    cases hs
    exact (Nat.zero_add _).symm
  | leave =>
    change D.leaveScope = some D' at hs
    unfold leaveScope at hs
    split at hs
    · rename_i heq
      cases hs
      rw [heq]
      exact (Nat.zero_add _).symm
    · cases hs
  | commit entry written =>
    cases hs
    rw [hostCommits, (D.commit_frame entry written).2.1, seenBy]
    simp only [List.length_eq_zero_iff]
  | moveCursor cursor =>
    obtain ⟨-, heq⟩ := Option.ite_none_right_eq_some.mp hs
    cases heq
    exact (Nat.zero_add _).symm
  | drain =>
    cases hs
    exact (Nat.zero_add _).symm
  | requestCheckpoint written =>
    cases hs
    exact (Nat.zero_add _).symm

/-- The cadence over a run in which no commit follows the end of a scope. -/
private theorem Inv.run_cadence {es : List (DocumentEvent ρ)} (h : D.Inv left)
    (hrun : document.run es D = some D') (hclear : Clear es left) (hdue : D.OnTime) :
    D'.OnTime ∧
      D'.housekeeping.transactionsSeen =
        D.housekeeping.transactionsSeen + hostCommits es D.scopes.length ∧
      (D.housekeeping.config.drainBetweenTransactions = true →
        D.housekeeping.drainsRun + hostCommits es D.scopes.length ≤ D'.housekeeping.drainsRun) := by
  induction es generalizing D left with
  | nil =>
    cases hrun
    exact ⟨hdue, rfl, fun _ => le_rfl⟩
  | cons e es ih =>
    obtain ⟨t, ht, hrun⟩ := Option.bind_eq_some_iff.mp hrun
    obtain ⟨hdue₁, hconfig, hseen, hdrains⟩ := h.step_cadence ht hclear.1 hdue
    obtain ⟨hdue₂, hseen₂, hdrains₂⟩ := ih (h.step ht) hrun hclear.2 hdue₁
    rw [hostCommits_cons ht]
    refine ⟨hdue₂, by omega, fun hdrain => ?_⟩
    have h1 := hdrains hdrain
    have h2 := hdrains₂ (hconfig ▸ hdrain)
    omega

end HousekeptDocument

open HousekeptDocument

/-- In a run of a document from its construction, every commit is relayed, and the cadence follows,
exactly when no commit is made after an install ended, unless another install began since. -/
theorem relayed_iff {D D' : HousekeptDocument ρ} {es : List (DocumentEvent ρ)}
    (hstart : document.start D) (hrun : document.run es D = some D') :
    Relayed es D D' ↔ Clear es false := by
  obtain ⟨config, workspaceBacked, journal, rfl⟩ := hstart
  have hinv := inv_new config workspaceBacked journal
  have hiff := hinv.runAllowed_iff hrun
  refine ⟨fun h => hiff.mp h.commits, fun hclear => ?_⟩
  have hdue : OnTime (.new config workspaceBacked journal) :=
    .inl (Housekeeper.not_due_of_zero hinv.regular rfl)
  obtain ⟨hdue', hseen, hdrained⟩ := hinv.run_cadence hrun hclear hdue
  exact ⟨hiff.mpr hclear, hseen, hdrained, hdue'⟩

/-- A document with a workspace file that checkpoints after every transaction. -/
def everyTransaction : HousekeptDocument ℕ :=
  .new { checkpointEveryNTransactions := 1 } true
    { budget := noBudget, stateCost := fun _ _ => 0, entries := [], cursor := 0, totalCost := 0 }

/-- The entry of a commit that adds one object. -/
def additionEntry (object : ObjectId) : JournalEntry ℕ :=
  { coalesceKey := noCoalesce, objects := [⟨object, none, some 0⟩], contents := [] }

/-- A host commits, and then a load commits. -/
def commitThenLoad : List (DocumentEvent ℕ) :=
  [.commit (additionEntry 1) true, .enter, .commit (additionEntry 2) true, .leave]

/-- The host's commit is journaled and followed by a checkpoint, the load's is not journaled. -/
theorem relayed_iff_commitThenLoad : ∃ D',
    document.run commitThenLoad everyTransaction = some D' ∧
      D'.journaled = [additionEntry 1] ∧ D'.housekeeping.checkpointsCommitted = 1 ∧
      Relayed commitThenLoad everyTransaction D' := by
  refine ⟨_, rfl, rfl, rfl, (relayed_iff ⟨_, _, _, rfl⟩ rfl).mpr ?_⟩
  simp [Clear, commitThenLoad, scopeLeft, DocumentEvent.isCommit]

/-- After a load the housekeeper misses the commit of a host; within a load, after an arrival was
settled, the journal takes the commit of the load. -/
theorem not_relayed_after_load :
    (∃ D', document.run [.enter, .leave, .commit (additionEntry 1) true] everyTransaction =
        some D' ∧ ¬ Relayed [.enter, .leave, .commit (additionEntry 1) true] everyTransaction D' ∧
        D'.housekeeping.transactionsSeen = 0) ∧
      ∃ D', document.run [.enter, .enter, .leave, .commit (additionEntry 1) true]
          everyTransaction = some D' ∧
        ¬ Relayed [.enter, .enter, .leave, .commit (additionEntry 1) true] everyTransaction D' ∧
        D'.scopes ≠ [] ∧ D'.journaled ≠ [] := by
  have hinv : everyTransaction.Inv false := inv_new _ _ _
  refine ⟨⟨_, rfl, fun h => ?_, rfl⟩, ⟨_, rfl, fun h => ?_, by decide, by decide⟩⟩
  · have hclear := (hinv.runAllowed_iff rfl).mp h.commits
    exact Bool.noConfusion (hclear.2.2.1 rfl)
  · have hclear := (hinv.runAllowed_iff rfl).mp h.commits
    exact Bool.noConfusion (hclear.2.2.2.1 rfl)

end ArbitraryComposer
