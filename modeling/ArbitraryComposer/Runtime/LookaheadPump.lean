import ArbitraryComposer.Base.RationalTime
import ArbitraryComposer.Compositor.OperatorGraph
import ArbitraryComposer.ToMathlib.Machine
import ArbitraryComposer.ToMathlib.Tally

/-!
# The Lookahead Pump

A loop thread keeps a ring of mixed blocks ahead of the playhead. Other threads leave notifications
and wake it; a tick takes what was left, applies it to the ring, and fills blocks on a pool of audio
workers, round by round, until the ring wants nothing. A flush waits for a tick. A contributor
settles the completion of its fill inside its render or later, on a thread of its own.

One event is one critical section of the code, a wait that returns, or a render. What the ring wants
after a prime is arbitrary. A pool without workers renders on the loop thread: its one thread stands
for the loop, which goes on when the pool is idle.

## Main definitions

- `FillPool`: the audio workers.
- `LookaheadPump`, `lookaheadPump`: the loop, the callers and the pool.
- `PumpRecord`, `recordedPump`: what was notified, and what ticks took.
-/

namespace ArbitraryComposer

/-! ## The pool -/

/-- A fill that was submitted: an `AudioTask` and its completion. -/
structure Fill where
  /-- The contributor; none where the content does not resolve. -/
  content : Option ℕ
  /-- The completion is settled, with a result or an error. -/
  settled : Bool
  deriving DecidableEq

/-- Where a thread that runs fills stands. -/
inductive FillThread where
  /-- It looks for a fill. -/
  | idle
  /-- It is inside the render. -/
  | rendering (f : ℕ)
  /-- The render has returned settled; the pool is not poked yet. -/
  | poking (f : ℕ)
  /-- The gate of the content is still held. -/
  | releasing (f : ℕ)
  deriving DecidableEq

/-- The fill a thread holds. -/
def FillThread.held : FillThread → Option ℕ
  | .idle => none
  | .rendering f | .poking f | .releasing f => some f

/-- `AudioWorkerPool`, with the fills of the pump. -/
structure FillPool where
  /-- `worker_count` is zero. -/
  inlined : Bool
  /-- The contents that `serialize_predicate` picks. -/
  serialized : Option ℕ → Bool
  /-- All fills that were submitted. -/
  fills : List Fill
  /-- `d_ready`. -/
  ready : List ℕ
  /-- The parked fills of all gates. -/
  parked : List ℕ
  /-- The contents whose gate is active. -/
  active : Option ℕ → Bool
  /-- The workers; without workers, the loop thread. -/
  threads : List FillThread
  /-- The fills whose render returned before they were settled. -/
  detached : List ℕ
  /-- `d_stop`. -/
  stop : Bool
  /-- `d_settle_gen`. -/
  settleGen : ℕ
  /-- `d_drained_gen`. -/
  drainedGen : ℕ

namespace FillPool

variable (P : FillPool)

/-- A new pool. -/
def new (workerCount : ℕ) (serialized : Option ℕ → Bool) : FillPool where
  inlined := workerCount = 0
  serialized := serialized
  fills := []
  ready := []
  parked := []
  active _ := false
  threads := List.replicate (max workerCount 1) .idle
  detached := []
  stop := false
  settleGen := 0
  drainedGen := 0

/-- The content whose gate a fill passes; none when its content is thread safe. -/
def gate (f : ℕ) : Option (Option ℕ) :=
  match P.fills[f]? with
  | some fill => if P.serialized fill.content then some fill.content else none
  | none => none

/-- Whether the completion of a fill is settled. -/
def settled (f : ℕ) : Bool := P.fills[f]?.all Fill.settled

/-- Whether the pool has nothing to do. -/
def quiet : Bool := P.ready.isEmpty && P.threads.all (· == .idle)

/-- A fill passes its gate or is parked at it. -/
def enqueue (f : ℕ) : FillPool :=
  match P.gate f with
  | none => { P with ready := P.ready ++ [f] }
  | some c =>
    if P.active c then { P with parked := P.parked ++ [f] }
    else { P with
      active := fun c' => if c' = c then true else P.active c'
      ready := P.ready ++ [f] }

/-- `submit`: a stopped pool refuses the fill and leaves its completion unsettled. -/
def submit (content : Option ℕ) : FillPool :=
  let recorded := { P with fills := P.fills ++ [⟨content, false⟩] }
  if P.stop then recorded else recorded.enqueue P.fills.length

/-- `poke`. -/
def poke : FillPool := { P with settleGen := P.settleGen + 1 }

/-- The completion of a fill is settled by its contributor or by `run_task`. -/
def settle (f : ℕ) : Option FillPool :=
  match P.fills[f]? with
  | some fill =>
    if (.rendering f ∈ P.threads ∨ f ∈ P.detached) ∧ fill.settled = false then
      some { P with fills := P.fills.set f { fill with settled := true } }
    else none
  | none => none

/-- A gate is handed to the next parked fill, or given up. -/
def release (f : ℕ) : FillPool :=
  match P.gate f with
  | none => P
  | some c =>
    match P.parked.find? fun g => P.gate g = some c with
    | some next => { P with
        ready := P.ready ++ [next]
        parked := P.parked.eraseP fun g => P.gate g = some c }
    | none => { P with active := fun c' => if c' = c then false else P.active c' }

/-- The next step of a thread of the pool: `run` and `run_task`. -/
def threadStep (w : ℕ) : Option FillPool :=
  match P.threads[w]? with
  | none => none
  | some .idle =>
    match P.ready with
    | [] => none
    | f :: ready =>
      if P.stop && !P.inlined then none
      else some { P with ready := ready, threads := P.threads.set w (.rendering f) }
  | some (.rendering f) =>
    if P.settled f then some { P with threads := P.threads.set w (.poking f) }
    else some { P with
      threads := P.threads.set w (.releasing f)
      detached := f :: P.detached }
  | some (.poking f) => some { P.poke with threads := P.threads.set w (.releasing f) }
  | some (.releasing f) => some { P.release f with threads := P.threads.set w .idle }

end FillPool

/-! ## The pump -/

/-- What other threads notify the pump of. -/
inductive PumpNotice (σ : Type) where
  /-- `notify_damage`. -/
  | damage (range : TimeRange)
  /-- `notify_transport_change`. -/
  | transport
  /-- `set_spatial`. -/
  | spatial (seed : σ)
  deriving DecidableEq

/-- What is left for the next tick. -/
structure PumpFlags (σ : Type) where
  /-- `d_transport_changed`. -/
  transport : Bool
  /-- `d_pending_spatial`, while `d_spatial_pending` is set. -/
  spatial : Option σ
  /-- `d_pending_damage`. -/
  damage : List TimeRange
  deriving DecidableEq

namespace PumpFlags

variable {σ : Type}

/-- Nothing is left. -/
def empty : PumpFlags σ := ⟨false, none, []⟩

/-- A notification is left. -/
def add (flags : PumpFlags σ) : PumpNotice σ → PumpFlags σ
  | .damage range => { flags with damage := flags.damage ++ [range] }
  | .transport => { flags with transport := true }
  | .spatial seed => { flags with spatial := some seed }

/-- Notifications are left one after the other. -/
def addAll (flags : PumpFlags σ) (notices : List (PumpNotice σ)) : PumpFlags σ :=
  notices.foldl add flags

end PumpFlags

/-- A call on the ring that applies a notification. -/
inductive RingCall (σ : Type) where
  /-- `set_spatial`. -/
  | setSpatial (seed : σ)
  /-- `invalidate`. -/
  | invalidate (range : TimeRange)
  /-- `reprime`. -/
  | reprime
  deriving DecidableEq

/-- The calls that a tick makes as it takes what was left. -/
def PumpFlags.takeCalls {σ : Type} (flags : PumpFlags σ) : List (RingCall σ) :=
  (flags.spatial.map .setSpatial).toList

/-- The calls of the first round of a tick. -/
def PumpFlags.roundCalls {σ : Type} (flags : PumpFlags σ) : List (RingCall σ) :=
  flags.damage.map .invalidate ++ if flags.transport then [.reprime] else []

/-- Where the loop stands, with its locals. -/
inductive PumpLoop (σ : Type) where
  /-- It waits to be woken. -/
  | parked
  /-- It was woken and has taken nothing yet. -/
  | woken
  /-- Before the ring is primed in a round. -/
  | priming (work : PumpFlags σ) (round : ℕ)
  /-- It submits what the ring wants. -/
  | submitting (round : ℕ) (fills : List ℕ) (wants : List (Option ℕ))
  /-- Before it looks whether all fills have settled. -/
  | checking (round : ℕ) (fills : List ℕ)
  /-- It waits for completions. -/
  | waiting (round : ℕ) (fills : List ℕ)
  /-- Before it inserts what was rendered. -/
  | inserting (round : ℕ) (fills : List ℕ)
  /-- The tick is done and not counted yet. -/
  | ticked
  /-- The loop thread has ended. -/
  | exited
  deriving DecidableEq

/-- The fills of a round, whose buffers are alive. -/
def PumpLoop.fills {σ : Type} : PumpLoop σ → List ℕ
  | .submitting _ fills _ | .checking _ fills | .waiting _ fills | .inserting _ fills => fills
  | _ => []

/-- A tick has taken what was left and is not counted yet. -/
def PumpLoop.inTick {σ : Type} : PumpLoop σ → Bool
  | .parked | .woken | .exited => false
  | _ => true

/-- The rounds of a tick at most. -/
def maxRounds : ℕ := 8

/-- `LookaheadPump`, its callers and its pool. -/
structure LookaheadPump (σ : Type) where
  /-- `d_stop`. -/
  stop : Bool
  /-- `d_poke`. -/
  poke : Bool
  /-- What is left for the next tick. -/
  flags : PumpFlags σ
  /-- `d_ticks`. -/
  ticks : ℕ
  /-- The loop. -/
  loop : PumpLoop σ
  /-- The callers inside `flush`, with their targets. -/
  flushing : ℕ → Option ℕ
  /-- The calls on the ring that applied notifications, in order. -/
  calls : List (RingCall σ)
  /-- The audio workers. -/
  pool : FillPool

/-- What can happen next. -/
inductive PumpEvent (σ : Type) where
  /-- Another thread notifies the pump. -/
  | notify (notice : PumpNotice σ)
  /-- Another thread calls `poke`. -/
  | poke
  /-- Another thread calls `flush`. -/
  | flush (caller : ℕ)
  /-- A `flush` returns. -/
  | flushReturn (caller : ℕ)
  /-- Another thread calls `request_stop`. -/
  | requestStop
  /-- The wait of the loop ends. -/
  | wake
  /-- The tick takes what was left. -/
  | take
  /-- The ring is primed and says what it wants. -/
  | prime (wants : List (Option ℕ))
  /-- The loop submits its next fill, or has none left. -/
  | submit
  /-- The loop looks whether all fills have settled. -/
  | check
  /-- `wait_completions` returns. -/
  | waitReturn
  /-- The loop inserts what was rendered. -/
  | insert
  /-- The tick is counted. -/
  | publish
  /-- A thread of the pool makes its next step. -/
  | thread (w : ℕ)
  /-- A contributor settles a fill. -/
  | settle (f : ℕ)
  /-- Some settler pokes the pool. -/
  | poolPoke
  /-- The pool is stopped. -/
  | poolStop
  deriving DecidableEq

namespace LookaheadPump

variable {σ : Type} (s : LookaheadPump σ)

/-- A new pump. -/
def new (workerCount : ℕ) (serialized : Option ℕ → Bool) : LookaheadPump σ where
  stop := false
  poke := false
  flags := .empty
  ticks := 0
  loop := .parked
  flushing _ := none
  calls := []
  pool := .new workerCount serialized

/-- The loop is not inside a render of its own. -/
def free : Bool := !s.pool.inlined || s.pool.quiet

/-- The body of the loop, without the pool's steps. -/
def loopStep : PumpEvent σ → Option (LookaheadPump σ)
  | .wake =>
    match s.loop with
    | .parked =>
      some (if s.stop then { s with loop := .exited } else { s with loop := .woken, poke := false })
    | _ => none
  | .take =>
    match s.loop with
    | .woken =>
      some { s with
        loop := .priming s.flags 0
        flags := .empty
        calls := s.calls ++ s.flags.takeCalls }
    | _ => none
  | .prime wants =>
    match s.loop with
    | .priming work round =>
      some { s with
        loop := if wants = [] then .ticked else .submitting round [] wants
        calls := if round = 0 then s.calls ++ work.roundCalls else s.calls }
    | _ => none
  | .submit =>
    match s.loop with
    | .submitting round fills [] =>
      if s.free then some { s with loop := .checking round fills } else none
    | .submitting round fills (content :: wants) =>
      if s.free then
        some { s with
          loop := .submitting round (fills ++ [s.pool.fills.length]) wants
          pool := s.pool.submit content }
      else none
    | _ => none
  | .check =>
    match s.loop with
    | .checking round fills =>
      some { s with
        loop := if fills.all s.pool.settled then .inserting round fills else .waiting round fills }
    | _ => none
  | .waitReturn =>
    match s.loop with
    | .waiting round fills =>
      if s.pool.stop ∨ s.pool.settleGen ≠ s.pool.drainedGen then
        some { s with
          loop := .checking round fills
          pool := { s.pool with drainedGen := s.pool.settleGen } }
      else none
    | _ => none
  | .insert =>
    match s.loop with
    | .inserting round _ =>
      some { s with
        loop := if round + 1 < maxRounds then .priming .empty (round + 1) else .ticked }
    | _ => none
  | .publish =>
    match s.loop with
    | .ticked => some { s with loop := .parked, ticks := s.ticks + 1 }
    | _ => none
  | _ => none

end LookaheadPump

/-- The pump, its callers and its pool. -/
def lookaheadPump (σ : Type) : Machine (LookaheadPump σ) (PumpEvent σ) where
  start s := ∃ workerCount serialized, s = .new workerCount serialized
  step
    | .notify notice, s => some { s with flags := s.flags.add notice, poke := true }
    | .poke, s => some { s with poke := true }
    | .flush caller, s =>
      if s.flushing caller = none then
        some { s with
          poke := true
          flushing := fun c => if c = caller then some (s.ticks + 1) else s.flushing c }
      else none
    | .flushReturn caller, s =>
      match s.flushing caller with
      | some target =>
        if s.stop ∨ target ≤ s.ticks then
          some { s with flushing := fun c => if c = caller then none else s.flushing c }
        else none
      | none => none
    | .requestStop, s => some { s with stop := true }
    | .thread w, s => (s.pool.threadStep w).map fun P => { s with pool := P }
    | .settle f, s => (s.pool.settle f).map fun P => { s with pool := P }
    | .poolPoke, s => some { s with pool := s.pool.poke }
    | .poolStop, s => some { s with pool := { s.pool with stop := true } }
    | e, s => s.loopStep e

/-! ## The history of the pump -/

/-- A flush that returned before a stop. -/
structure FlushReturn where
  /-- The ticks that had begun when it was called. -/
  begun : ℕ
  /-- The notifications that had been made when it was called. -/
  notices : ℕ
  /-- The ticks that were done when it returned. -/
  done : ℕ
  deriving DecidableEq

/-- The history of a pump. -/
structure PumpRecord (σ : Type) where
  /-- The notifications, in order. -/
  notices : List (PumpNotice σ)
  /-- What the ticks took, in order. -/
  taken : List (List (PumpNotice σ))
  /-- What no tick has taken. -/
  left : List (PumpNotice σ)
  /-- The ticks that had begun, and the notifications that had been made, when a flush was called. -/
  called : ℕ → ℕ × ℕ
  /-- The flushes that returned before a stop. -/
  returned : List FlushReturn

/-- Nothing has happened. -/
def PumpRecord.new (σ : Type) : PumpRecord σ := ⟨[], [], [], fun _ => (0, 0), []⟩

/-- What a step adds to the history. -/
def PumpRecord.update {σ : Type} (e : PumpEvent σ) (s : LookaheadPump σ) (r : PumpRecord σ) :
    PumpRecord σ :=
  match e with
  | .notify notice => { r with notices := r.notices ++ [notice], left := r.left ++ [notice] }
  | .take => { r with taken := r.taken ++ [r.left], left := [] }
  | .flush caller =>
    { r with called := fun c =>
        if c = caller then (r.taken.length, r.notices.length) else r.called c }
  | .flushReturn caller =>
    if s.stop then r
    else { r with returned :=
      ⟨(r.called caller).1, (r.called caller).2, s.ticks⟩ :: r.returned }
  | _ => r

/-- The pump with its history. -/
def recordedPump (σ : Type) :
    Machine (LookaheadPump σ × PumpRecord σ) (PumpEvent σ) :=
  (lookaheadPump σ).observe (fun _ => .new σ) fun e s _ r => r.update e s

end ArbitraryComposer
