import ArbitraryComposer.ToMathlib.Machine
import ArbitraryComposer.ToMathlib.Tally

/-!
# The Worker Pool

Threads submit renders and work jobs to a pool; its workers run them. The renders of a content that
is not thread safe pass a gate: one of them is admitted, the others are parked, and a thread that has
finished with the admitted one hands the gate to the next. A pool without workers runs a task on the
thread that submits it.

One event is one critical section of the code, or a render; a thread that waits takes its step once
its condition holds. The queues of the gates are one list, and the queue of a content is its part of
it; each counter of the pool is the length of the list of the tasks it counted.

## Main definitions

- `WorkerPool`: queues, gates, threads and counters.
- `drainOwner`, `abandonQueued`: how queued tasks are dropped.
- `PoolEvent`, `workerPool`: the machine of all interleavings.
-/

namespace ArbitraryComposer

open List (tally)

/-- `RenderTask` or `WorkTask`. -/
structure PoolTask where
  /-- Which task. -/
  id : ℕ
  /-- The content to render; none for a work job. -/
  content : Option ℕ
  /-- The tag of the submitter. -/
  owner : ℕ
  deriving DecidableEq, Repr

/-- Where a thread that runs tasks stands. -/
inductive PoolThread where
  /-- A worker looks for a task. -/
  | waiting
  /-- It has returned. -/
  | exited
  /-- It has a task and has not begun it. -/
  | popped (t : PoolTask)
  /-- It is inside the render or the job. -/
  | rendering (t : PoolTask)
  /-- The render has returned, and the owner still waits for it. -/
  | counted (t : PoolTask)
  /-- The owner does not wait for it any more, and the gate is still held. -/
  | released (t : PoolTask)
  deriving DecidableEq, Repr

namespace PoolThread

/-- The task that has not returned from its render. -/
def unreturned? : PoolThread → Option PoolTask
  | popped t | rendering t => some t
  | _ => none

/-- The task that its owner waits for. -/
def outstanding? : PoolThread → Option PoolTask
  | popped t | rendering t | counted t => some t
  | _ => none

/-- The task whose gate is held. -/
def holding? : PoolThread → Option PoolTask
  | popped t | rendering t | counted t | released t => some t
  | _ => none

/-- The task that is about to begin. -/
def popped? : PoolThread → Option PoolTask
  | popped t => some t
  | _ => none

/-- The task that is inside its render. -/
def rendering? : PoolThread → Option PoolTask
  | rendering t => some t
  | _ => none

end PoolThread

/-- `WorkerPool`. -/
structure WorkerPool where
  /-- `worker_count`; zero runs tasks on the submitting threads. -/
  workerCount : ℕ
  /-- `d_ready`. -/
  ready : List PoolTask
  /-- `d_work_ready`. -/
  workReady : List PoolTask
  /-- The parked renders of all gates. -/
  parked : List PoolTask
  /-- The contents with an entry in `d_serial`; an entry is active as long as it is there. -/
  active : ℕ → Bool
  /-- `d_outstanding`. -/
  outstanding : ℕ → ℕ
  /-- `d_stop`. -/
  stop : Bool
  /-- The workers, or the submitting threads that run a task. -/
  threads : List PoolThread
  /-- The submits between their two critical sections. -/
  admitting : List PoolTask
  /-- The tasks `d_submitted` counted. -/
  submitted : List PoolTask
  /-- The tasks `d_completed` counted. -/
  completed : List PoolTask
  /-- The tasks `d_dropped` counted, with the owner that was drained; none at a stop. -/
  dropped : List (PoolTask × Option ℕ)
  /-- The renders that returned before they were settled. -/
  unsettled : List PoolTask
  /-- The tasks in the order they came to the queues. -/
  enqueued : List PoolTask
  /-- The tasks in the order they began. -/
  started : List PoolTask

namespace WorkerPool

/-- A new pool. -/
def init (workerCount : ℕ) : WorkerPool where
  workerCount := workerCount
  ready := []
  workReady := []
  parked := []
  active _ := false
  outstanding _ := 0
  stop := false
  threads := List.replicate workerCount .waiting
  admitting := []
  submitted := []
  completed := []
  dropped := []
  unsettled := []
  enqueued := []
  started := []

/-! ## Accounting -/

/-- `claim_outstanding`. -/
def claimOutstanding (owner : ℕ) (p : WorkerPool) : WorkerPool :=
  { p with outstanding := Function.update p.outstanding owner (p.outstanding owner + 1) }

/-- `release_outstanding`. -/
def releaseOutstanding (owner : ℕ) (p : WorkerPool) : WorkerPool :=
  { p with outstanding := Function.update p.outstanding owner (p.outstanding owner - 1) }

/-- `drop_queued` of one task after the other, for the drain of an owner or for a stop. -/
def dropQueued (cause : Option ℕ) : List PoolTask → WorkerPool → WorkerPool
  | [], p => p
  | t :: ts, p =>
    dropQueued cause ts
      (releaseOutstanding t.owner { p with dropped := p.dropped ++ [(t, cause)] })

/-- `abandon_queued`. -/
def abandonQueued (p : WorkerPool) : WorkerPool :=
  dropQueued none (p.ready ++ p.parked ++ p.workReady)
    { p with ready := [], parked := [], workReady := [] }

/-! ## Gates -/

section Gates

variable (serialize : ℕ → Bool)

/-- The gate a task passes. -/
def gate (t : PoolTask) : Option ℕ := t.content.filter serialize

end Gates

/-- The next parked render of a content. -/
def front (c : ℕ) (p : WorkerPool) : Option PoolTask := p.parked.find? (·.content = some c)

/-- The next parked render of a content leaves its queue. -/
def popFront (c : ℕ) (p : WorkerPool) : WorkerPool :=
  { p with parked := p.parked.eraseP (·.content = some c) }

/-- The entry of a content goes. -/
def closeGate (c : ℕ) (p : WorkerPool) : WorkerPool :=
  { p with active := Function.update p.active c false }

/-- A gate whose holder was dropped goes to the next parked render, or its entry goes. -/
def handOn (c : ℕ) (p : WorkerPool) : WorkerPool :=
  if p.active c then
    match p.front c with
    | some t => { p.popFront c with ready := p.ready ++ [t] }
    | none => p.closeGate c
  else p

/-- The parked tasks of an owner are dropped. -/
def purgeParked (owner : ℕ) (p : WorkerPool) : WorkerPool :=
  dropQueued (some owner) (p.parked.filter (·.owner = owner))
    { p with parked := p.parked.filter fun t => !decide (t.owner = owner) }

/-- The ready tasks of an owner are dropped. -/
def purgeReady (owner : ℕ) (p : WorkerPool) : WorkerPool :=
  dropQueued (some owner) (p.ready.filter (·.owner = owner))
    { p with ready := p.ready.filter fun t => !decide (t.owner = owner) }

/-- The work jobs of an owner are dropped. -/
def purgeWork (owner : ℕ) (p : WorkerPool) : WorkerPool :=
  dropQueued (some owner) (p.workReady.filter (·.owner = owner))
    { p with workReady := p.workReady.filter fun t => !decide (t.owner = owner) }

/-- The gates that ready tasks of an owner hold: their contents have an entry. -/
def orphanedGates (owner : ℕ) (p : WorkerPool) : List ℕ :=
  (p.ready.filter (·.owner = owner)).filterMap fun t => t.content.filter p.active

/-- `drain_owner`, up to its wait. -/
def drainOwner (owner : ℕ) (p : WorkerPool) : WorkerPool :=
  let p₁ := p.purgeParked owner
  ((p₁.orphanedGates owner).foldl (fun p c => p.handOn c) (p₁.purgeReady owner)).purgeWork owner

/-! ## Steps -/

/-- A thread moves. -/
def setThread (i : ℕ) (th : PoolThread) (p : WorkerPool) : WorkerPool :=
  { p with threads := p.threads.set i th }

/-- The first critical section of `submit` and `submit_work`. -/
def admitTask (t : PoolTask) (p : WorkerPool) : WorkerPool :=
  if p.stop then p
  else claimOutstanding t.owner
    { p with submitted := p.submitted ++ [t], admitting := p.admitting ++ [t] }

section Steps

variable (serialize : ℕ → Bool)

/-- A task that may run goes to the workers, or it is run by the thread that submits it. -/
def dispatch (t : PoolTask) (p : WorkerPool) : WorkerPool :=
  if p.workerCount = 0 then { p with threads := p.threads ++ [.popped t] }
  else if t.content.isSome then { p with ready := p.ready ++ [t] }
  else { p with workReady := p.workReady ++ [t] }

/-- The second critical section of `submit`, `submit_inline` and `submit_work`. -/
def enqueue (t : PoolTask) (p : WorkerPool) : WorkerPool :=
  match gate serialize t with
  | none => p.dispatch t
  | some c =>
    if p.active c then { p with parked := p.parked ++ [t] }
    else dispatch t { p with active := Function.update p.active c true }

/-- A worker takes a task, renders first; at a stop it drops what is queued and returns. -/
def take (i : ℕ) (p : WorkerPool) : Option WorkerPool :=
  if p.stop then some (p.abandonQueued.setThread i .exited)
  else
    match p.ready, p.workReady with
    | t :: rest, _ => some ({ p with ready := rest }.setThread i (.popped t))
    | [], t :: rest => some ({ p with workReady := rest }.setThread i (.popped t))
    | [], [] => none

/-- What a thread does after a task: a worker looks for the next. -/
def afterTask (p : WorkerPool) : PoolThread := if p.workerCount = 0 then .exited else .waiting

/-- A thread that is done with a task hands its gate on: a worker to the ready queue, a submitting
thread to itself. -/
def releaseGate (i : ℕ) (t : PoolTask) (p : WorkerPool) : WorkerPool :=
  match gate serialize t with
  | none => p.setThread i p.afterTask
  | some c =>
    match p.front c with
    | none => (p.closeGate c).setThread i p.afterTask
    | some next =>
      if p.workerCount = 0 then (p.popFront c).setThread i (.popped next)
      else { p.popFront c with ready := p.ready ++ [next] }.setThread i .waiting

end Steps

end WorkerPool

/-- What happens to a pool. -/
inductive PoolEvent where
  /-- A thread submits a task and is admitted. -/
  | submit (t : PoolTask)
  /-- The `k`-th submit under way goes on. -/
  | enqueue (k : ℕ)
  /-- Worker `i` takes a task, or sees the stop. -/
  | take (i : ℕ)
  /-- Thread `i` begins its task. -/
  | start (i : ℕ)
  /-- The task of thread `i` returns, settled or not. -/
  | finish (i : ℕ) (settled : Bool)
  /-- A render that has returned is settled by someone else, who pokes the pool. -/
  | settle (k : ℕ)
  /-- Thread `i` releases the claim of its task. -/
  | release (i : ℕ)
  /-- Thread `i` releases the gate of its task. -/
  | releaseGate (i : ℕ)
  /-- A submitter begins to drain its tasks. -/
  | drain (owner : ℕ)
  /-- `request_stop`. -/
  | requestStop
  deriving DecidableEq, Repr

/-- The effect of an event. A work job is always settled. -/
def WorkerPool.step (serialize : ℕ → Bool) (e : PoolEvent) (p : WorkerPool) : Option WorkerPool :=
  match e with
  | .submit t => some (p.admitTask t)
  | .enqueue k =>
    p.admitting[k]?.map fun t =>
      enqueue serialize t { p with
        admitting := p.admitting.eraseIdx k
        enqueued := p.enqueued ++ [t] }
  | .take i =>
    match p.threads[i]? with
    | some .waiting => p.take i
    | _ => none
  | .start i =>
    match p.threads[i]? with
    | some (.popped t) => some ({ p with started := p.started ++ [t] }.setThread i (.rendering t))
    | _ => none
  | .finish i settled =>
    match p.threads[i]? with
    | some (.rendering t) =>
      if settled then some ({ p with completed := p.completed ++ [t] }.setThread i (.counted t))
      else if t.content.isSome then
        some ({ p with unsettled := p.unsettled ++ [t] }.setThread i (.counted t))
      else none
    | _ => none
  | .settle k => p.unsettled[k]?.map fun _ => { p with unsettled := p.unsettled.eraseIdx k }
  | .release i =>
    match p.threads[i]? with
    | some (.counted t) => some ((p.releaseOutstanding t.owner).setThread i (.released t))
    | _ => none
  | .releaseGate i =>
    match p.threads[i]? with
    | some (.released t) => some (p.releaseGate serialize i t)
    | _ => none
  | .drain owner => some (p.drainOwner owner)
  | .requestStop => some { p with stop := true }

/-- All interleavings of a pool. -/
def workerPool (serialize : ℕ → Bool) (workerCount : ℕ) : Machine WorkerPool PoolEvent where
  start p := p = .init workerCount
  step := WorkerPool.step serialize

end ArbitraryComposer
