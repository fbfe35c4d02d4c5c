import ArbitraryComposer.Runtime.TileFanOut
import ArbitraryComposer.Runtime.PoolSoundness
import ArbitraryComposer.ToMathlib.FairRun

/-!
# A Fan-Out on a Worker Pool

`TileEncodeDispatch::run` and `TileDecodeDispatch` hand jobs to the work lane of a pool that others
use and stop as they like. The thread parks until the pool has settled something since it last
looked, or is stopped, and then looks at the next job again. So once the pool is stopped the thread
does not park any more.

A job is settled once the pool counts it as completed. A stopped pool refuses what is handed over,
and its workers drop what is queued when they next look for a task.

## Main definitions

- `FanPool`: the pool, its settle generation, and the thread.
- `FanPool.step`, `FanPool.machine`: all interleavings with the workers and the other users.
- `FanPool.GoesOn`: the steps of threads that do not only look again.
- `FanPool.Taken`: an item that a stop cannot lose.
- `FanPool.EndsWell`: what a fan-out owes its caller.
-/

namespace ArbitraryComposer

/-- Where the thread of a fan-out stands. -/
inductive FanPoint where
  /-- It has not read the settle generation yet. -/
  | entering
  /-- It stages items, and looks at the next when the window has no room. -/
  | filling
  /-- It is between the critical sections of `submit_work`. -/
  | submitting
  /-- It runs the job itself: the pool has no workers. -/
  | inlining
  /-- It is inside `wait_completions`. -/
  | parked
  /-- It has stopped at a result. -/
  | aborted
  /-- It is inside the wait of `drain_owner`. -/
  | draining
  /-- It has returned. -/
  | returned
  deriving DecidableEq, Repr

/-- A pool and the thread of a fan-out on it. -/
structure FanPool (F In V Out S : Type) where
  /-- The pool. -/
  pool : WorkerPool
  /-- `d_settle_gen`. -/
  settleGen : ℕ
  /-- `drained_gen` of the cursor. -/
  drainedGen : ℕ
  /-- Where the thread stands. -/
  point : FanPoint
  /-- The next item to stage. -/
  dispatched : ℕ
  /-- The next item to take back. -/
  reaped : ℕ
  /-- What staging reads and changes. -/
  staging : F
  /-- What taking back reads and changes. -/
  sink : S
  /-- What staging made of the items. -/
  slots : List (Except V In)

/-- What happens. -/
inductive FanPoolEvent where
  /-- The thread reads the settle generation. -/
  | enter
  /-- It stages the next item and begins to submit it. -/
  | stage
  /-- It goes on with its submit, the `k`-th under way. -/
  | pass (k : ℕ)
  /-- The job it has run itself is done. -/
  | back
  /-- It looks at the next item, and takes it back or parks. -/
  | look
  /-- `wait_completions` returns. -/
  | wake
  /-- It begins to drain. -/
  | drain
  /-- It returns. -/
  | leave
  /-- A worker, or another user of the pool. -/
  | pool (e : PoolEvent)
  /-- Someone pokes the pool. -/
  | poke
  deriving DecidableEq, Repr

/-- The job of item `j`. -/
def fanJob (owner j : ℕ) : PoolTask := ⟨j, none, owner⟩

/-- An event of the pool that is not for the thread of a fan-out to take. -/
def PoolEvent.ofOthers (owner : ℕ) (p : WorkerPool) : PoolEvent → Bool
  | .submit t => t.owner ≠ owner
  | .enqueue k => (p.admitting[k]?).all fun t => t.owner ≠ owner
  | .drain o => o ≠ owner
  | _ => true

/-- How far an event of the pool moves the settle generation. -/
def PoolEvent.settles : PoolEvent → ℕ
  | .finish _ true => 1
  | .settle _ => 1
  | _ => 0

namespace FanPool

variable {F In V Out S : Type}

section Steps

variable (P : FanOut F In V Out S) (serialize : ℕ → Bool) (owner : ℕ)

/-- The window has room for an item that has not been staged. -/
def HasRoom (st : FanPool F In V Out S) : Prop :=
  st.dispatched < P.count ∧ st.dispatched - st.reaped < P.window

instance (st : FanPool F In V Out S) : Decidable (HasRoom P st) := by
  unfold HasRoom
  infer_instance

/-- `WorkCompletion::settled`. -/
def Settled (st : FanPool F In V Out S) (j : ℕ) : Prop := fanJob owner j ∈ st.pool.completed

instance (st : FanPool F In V Out S) (j : ℕ) : Decidable (st.Settled owner j) := by
  unfold Settled
  infer_instance

/-- Stage the next item and begin to submit it. -/
def stageNext (st : FanPool F In V Out S) : FanPool F In V Out S :=
  match P.stage st.staging st.dispatched with
  | (.error v, staging) =>
    { st with
      dispatched := st.dispatched + 1
      staging := staging
      slots := st.slots ++ [.error v] }
  | (.ok input, staging) =>
    { st with
      pool := st.pool.admitTask (fanJob owner st.dispatched)
      -- a stopped pool refuses: the submit returns at once
      point := if st.pool.stop then .filling else .submitting
      dispatched := st.dispatched + 1
      staging := staging
      slots := st.slots ++ [.ok input] }

/-- Take a result, and stop or go on. -/
def reapNext (result : Except V Out) (st : FanPool F In V Out S) : FanPool F In V Out S :=
  let (sink, goOn) := P.reap st.sink st.reaped result
  { st with
    point := if goOn then .filling else .aborted
    reaped := st.reaped + 1
    sink := sink }

/-- Look at the next item: it was declined, or it is settled, or the thread parks. -/
def lookNext (st : FanPool F In V Out S) : Option (FanPool F In V Out S) :=
  match st.slots[st.reaped]? with
  | none => none
  | some (.error v) => some (reapNext P (.error v) st)
  | some (.ok input) =>
    if st.Settled owner st.reaped then some (reapNext P (.ok (P.work input)) st)
    else some { st with point := .parked }

/-- The effect of an event. -/
def step (e : FanPoolEvent) (st : FanPool F In V Out S) : Option (FanPool F In V Out S) :=
  match e with
  | .enter =>
    if st.point = .entering then some { st with point := .filling, drainedGen := st.settleGen }
    else none
  | .stage =>
    if st.point = .filling ∧ HasRoom P st then some (stageNext P owner st) else none
  | .pass k =>
    if st.point = .submitting ∧ st.pool.admitting[k]? = some (fanJob owner (st.dispatched - 1)) then
      (st.pool.step serialize (.enqueue k)).map fun pool =>
        { st with
          pool := pool
          point := if pool.workerCount = 0 then .inlining else .filling }
    else none
  | .back =>
    if st.point = .inlining ∧
        fanJob owner (st.dispatched - 1) ∉ st.pool.held PoolThread.holding? then
      some { st with point := .filling }
    else none
  | .look => if st.point = .filling ∧ ¬ HasRoom P st then lookNext P owner st else none
  | .wake =>
    if st.point = .parked ∧ (st.pool.stop = true ∨ st.settleGen ≠ st.drainedGen) then
      some { st with point := .filling, drainedGen := st.settleGen }
    else none
  | .drain =>
    if st.point = .aborted then
      some { st with pool := st.pool.drainOwner owner, point := .draining }
    else none
  | .leave =>
    if st.point = .filling ∧ st.reaped = P.count ∨
        st.point = .draining ∧ st.pool.outstanding owner = 0 then
      some { st with point := .returned }
    else none
  | .pool e =>
    if e.ofOthers owner st.pool then
      (st.pool.step serialize e).map fun pool =>
        { st with pool := pool, settleGen := st.settleGen + e.settles }
    else none
  | .poke => some { st with settleGen := st.settleGen + 1 }

end Steps

/-- A new pool, and nothing staged. -/
def start (workerCount : ℕ) (f : F) (s : S) : FanPool F In V Out S where
  pool := .init workerCount
  settleGen := 0
  drainedGen := 0
  point := .entering
  dispatched := 0
  reaped := 0
  staging := f
  sink := s
  slots := []

/-- All interleavings of a fan-out with the workers and the other users of a pool. -/
def machine (P : FanOut F In V Out S) (serialize : ℕ → Bool) (owner workerCount : ℕ) (f : F)
    (s : S) : Machine (FanPool F In V Out S) FanPoolEvent where
  start st := st = start workerCount f s
  step := step P serialize owner

section Promise

variable (P : FanOut F In V Out S) (owner : ℕ) (f : F) (s : S)

/-- The next item was declined, or it is settled. -/
def Ready (st : FanPool F In V Out S) : Prop :=
  (∃ v, st.slots[st.reaped]? = some (.error v)) ∨ st.Settled owner st.reaped

instance (st : FanPool F In V Out S) : Decidable (st.Ready owner) :=
  match hslot : st.slots[st.reaped]? with
  | some (.error v) => .isTrue (Or.inl ⟨v, hslot⟩)
  | none | some (.ok _) => decidable_of_iff (st.Settled owner st.reaped)
      ⟨Or.inr, fun h => h.resolve_left fun ⟨v, hv⟩ => by rw [hslot] at hv; cases hv⟩

/-- A thread does a step that brings it on. A fan-out that looks at a job which is not settled, or
returns from its wait to look at one, does not; nor do the others when they hand in tasks, drain
theirs, or stop the pool. -/
def GoesOn (e : FanPoolEvent) (st : FanPool F In V Out S) : Prop :=
  match e with
  | .enter | .stage | .pass _ | .back | .drain | .leave => True
  | .look | .wake => st.Ready owner
  | .pool e => e.ofThread = true
  | .poke => False

/-- An event hands a task of another user to the pool. -/
def HandsIn : FanPoolEvent → Prop
  | .pool (.submit _) => True
  | _ => False

/-- Nothing before item `j` stops the fan-out, so it takes `j` back. -/
def TakesBack (j : ℕ) : Prop := j < P.count ∧ (P.sinkAt f s j).2 = true

/-- A stop does not lose item `j`: no job is needed for it, or a thread has its job, or has been
through with it, or will run it itself. -/
def Taken (st : FanPool F In V Out S) (j : ℕ) : Prop :=
  (∃ v, P.staged f j = .error v) ∨ fanJob owner j ∈ st.pool.held PoolThread.unreturned? ∨
    st.Settled owner j ∨ st.pool.workerCount = 0 ∧ fanJob owner j ∈ st.pool.admitting

/-- What a fan-out owes its caller at its end. -/
structure EndsWell (st : FanPool F In V Out S) : Prop where
  /-- It has returned. -/
  returned : st.point = .returned
  /-- All jobs it handed out are settled, or a result stopped it with an error. -/
  settled_or_error : (∀ j < st.dispatched, (P.staged f j).isOk = true → st.Settled owner j) ∨
    (P.sinkAt f s st.reaped).2 = false
  /-- None of its jobs is under way, queued, or with a thread. -/
  quiet : ∀ t ∈ st.pool.pending, t.owner ≠ owner

end Promise

end FanPool

end ArbitraryComposer
