import ArbitraryComposer.Runtime.FillPool
import Mathlib.Data.Prod.Lex

/-!
# What the Lookahead Pump Promises

Each notification is applied by one tick; a flush that returns has waited for a tick that began
after it was called; a tick ends; and no fill writes into a buffer that is gone.

The first and the last hold of every run. A flush that is called while a tick runs returns with that
tick. A tick waits for ever for a fill that is settled after its render has returned, since nothing
pokes the pool then, and it spins when the pool refuses its fills.

## Main definitions

- `PumpAllowed`: no flush during a tick, no unsettled render, no pool stopped early.
- `PumpPromise`: what the pump promises in a state.

## Main results

- `recordedPump_promise`: the promises hold in every run of allowed steps.
-/

namespace ArbitraryComposer

/-! ## The steps of the pump -/

section Steps

variable {σ : Type} {s s' : LookaheadPump σ} {e : PumpEvent σ}

/-- What an event does, branch by branch. -/
inductive PumpMove (s : LookaheadPump σ) : PumpEvent σ → LookaheadPump σ → Prop where
  /-- A notification is left for the next tick. -/
  | notify (notice : PumpNotice σ) :
    PumpMove s (.notify notice) { s with flags := s.flags.add notice, poke := true }
  /-- The loop is woken. -/
  | poke : PumpMove s .poke { s with poke := true }
  /-- A caller waits for the next count. -/
  | flush (caller : ℕ) (hfree : s.flushing caller = none) :
    PumpMove s (.flush caller) { s with
      poke := true
      flushing := fun c => if c = caller then some (s.ticks + 1) else s.flushing c }
  /-- The count a caller waits for is reached, or the pump is stopped. -/
  | flushReturn (caller target : ℕ) (hcaller : s.flushing caller = some target)
      (hdone : s.stop = true ∨ target ≤ s.ticks) :
    PumpMove s (.flushReturn caller) { s with
      flushing := fun c => if c = caller then none else s.flushing c }
  /-- The pump is stopped. -/
  | requestStop : PumpMove s .requestStop { s with stop := true }
  /-- The loop sees the stop. -/
  | quit (hloop : s.loop = .parked) (hstop : s.stop = true) :
    PumpMove s .wake { s with loop := .exited }
  /-- The loop begins another turn. -/
  | wake (hloop : s.loop = .parked) (hstop : s.stop = false) :
    PumpMove s .wake { s with loop := .woken, poke := false }
  /-- A tick takes what was left. -/
  | take (hloop : s.loop = .woken) :
    PumpMove s .take { s with
      loop := .priming s.flags 0
      flags := .empty
      calls := s.calls ++ s.flags.takeCalls }
  /-- The ring wants nothing, or some fills. -/
  | prime (work : PumpFlags σ) (round : ℕ) (wants : List (Option ℕ))
      (hloop : s.loop = .priming work round) :
    PumpMove s (.prime wants) { s with
      loop := if wants = [] then .ticked else .submitting round [] wants
      calls := if round = 0 then s.calls ++ work.roundCalls else s.calls }
  /-- All fills are submitted. -/
  | submitted (round : ℕ) (fills : List ℕ) (hloop : s.loop = .submitting round fills []) :
    PumpMove s .submit { s with loop := .checking round fills }
  /-- A fill is submitted. -/
  | submit (round : ℕ) (fills : List ℕ) (content : Option ℕ) (wants : List (Option ℕ))
      (hloop : s.loop = .submitting round fills (content :: wants)) :
    PumpMove s .submit { s with
      loop := .submitting round (fills ++ [s.pool.fills.length]) wants
      pool := s.pool.submit content }
  /-- All fills have settled. -/
  | settled (round : ℕ) (fills : List ℕ) (hloop : s.loop = .checking round fills)
      (hall : ∀ f ∈ fills, s.pool.settled f = true) :
    PumpMove s .check { s with loop := .inserting round fills }
  /-- Some fill has not settled. -/
  | wait (round : ℕ) (fills : List ℕ) (hloop : s.loop = .checking round fills)
      (hopen : ∃ f ∈ fills, s.pool.settled f = false) :
    PumpMove s .check { s with loop := .waiting round fills }
  /-- The wait ends. -/
  | waitReturn (round : ℕ) (fills : List ℕ) (hloop : s.loop = .waiting round fills)
      (hpoked : s.pool.stop = true ∨ s.pool.settleGen ≠ s.pool.drainedGen) :
    PumpMove s .waitReturn { s with
      loop := .checking round fills
      pool := { s.pool with drainedGen := s.pool.settleGen } }
  /-- Another round begins, or the tick is done. -/
  | insert (round : ℕ) (fills : List ℕ) (hloop : s.loop = .inserting round fills) :
    PumpMove s .insert { s with
      loop := if round + 1 < maxRounds then .priming .empty (round + 1) else .ticked }
  /-- The tick is counted. -/
  | publish (hloop : s.loop = .ticked) :
    PumpMove s .publish { s with loop := .parked, ticks := s.ticks + 1 }
  /-- A thread of the pool goes on. -/
  | thread (w : ℕ) (P : FillPool) (hstep : s.pool.threadStep w = some P) :
    PumpMove s (.thread w) { s with pool := P }
  /-- A fill is settled. -/
  | settle (f : ℕ) (P : FillPool) (hstep : s.pool.settle f = some P) :
    PumpMove s (.settle f) { s with pool := P }
  /-- The pool is poked. -/
  | poolPoke : PumpMove s .poolPoke { s with pool := s.pool.poke }
  /-- The pool is stopped. -/
  | poolStop : PumpMove s .poolStop { s with pool := { s.pool with stop := true } }

/-- Every step is one of the branches. -/
theorem pumpMove_of_step (hs : (lookaheadPump σ).step e s = some s') : PumpMove s e s' := by
  cases e with
  | notify notice =>
    cases hs
    exact .notify notice
  | poke =>
    cases hs
    exact .poke
  | flush caller =>
    rw [lookaheadPump] at hs
    dsimp only at hs
    split at hs
    case isTrue hfree =>
      cases hs
      exact .flush caller hfree
    case isFalse => cases hs
  | flushReturn caller =>
    rw [lookaheadPump] at hs
    dsimp only at hs
    split at hs
    · rename_i target hcaller
      split at hs
      case isTrue hdone =>
        cases hs
        exact .flushReturn caller target hcaller hdone
      case isFalse => cases hs
    · cases hs
  | requestStop =>
    cases hs
    exact .requestStop
  | wake =>
    change s.loopStep .wake = some s' at hs
    rw [LookaheadPump.loopStep] at hs
    split at hs
    · rename_i hloop
      by_cases hstop : s.stop = true
      · rw [if_pos hstop] at hs
        cases hs
        exact .quit hloop hstop
      · rw [if_neg hstop] at hs
        cases hs
        exact .wake hloop (Bool.eq_false_iff.mpr hstop)
    · cases hs
  | take =>
    change s.loopStep .take = some s' at hs
    rw [LookaheadPump.loopStep] at hs
    split at hs
    · rename_i hloop
      cases hs
      exact .take hloop
    · cases hs
  | prime wants =>
    change s.loopStep (.prime wants) = some s' at hs
    rw [LookaheadPump.loopStep] at hs
    split at hs
    · rename_i work round hloop
      cases hs
      exact .prime work round wants hloop
    · cases hs
  | submit =>
    change s.loopStep .submit = some s' at hs
    rw [LookaheadPump.loopStep] at hs
    split at hs
    · rename_i round fills hloop
      split at hs
      · cases hs
        exact .submitted round fills hloop
      · cases hs
    · rename_i round fills content wants hloop
      split at hs
      · cases hs
        exact .submit round fills content wants hloop
      · cases hs
    · cases hs
  | check =>
    change s.loopStep .check = some s' at hs
    rw [LookaheadPump.loopStep] at hs
    split at hs
    · rename_i round fills hloop
      cases hall : fills.all s.pool.settled with
      | true =>
        rw [hall, if_pos rfl] at hs
        cases hs
        exact .settled round fills hloop (List.all_eq_true.mp hall)
      | false =>
        rw [hall, if_neg Bool.false_ne_true] at hs
        cases hs
        obtain ⟨f, hf, hopen⟩ := List.all_eq_false.mp hall
        exact .wait round fills hloop ⟨f, hf, Bool.eq_false_iff.mpr hopen⟩
    · cases hs
  | waitReturn =>
    change s.loopStep .waitReturn = some s' at hs
    rw [LookaheadPump.loopStep] at hs
    split at hs
    · rename_i round fills hloop
      split at hs
      case isTrue hpoked =>
        cases hs
        exact .waitReturn round fills hloop hpoked
      case isFalse => cases hs
    · cases hs
  | insert =>
    change s.loopStep .insert = some s' at hs
    rw [LookaheadPump.loopStep] at hs
    split at hs
    · rename_i round fills hloop
      cases hs
      exact .insert round fills hloop
    · cases hs
  | publish =>
    change s.loopStep .publish = some s' at hs
    rw [LookaheadPump.loopStep] at hs
    split at hs
    · rename_i hloop
      cases hs
      exact .publish hloop
    · cases hs
  | thread w =>
    obtain ⟨P, hstep, rfl⟩ := Option.map_eq_some_iff.mp hs
    exact .thread w P hstep
  | settle f =>
    obtain ⟨P, hstep, rfl⟩ := Option.map_eq_some_iff.mp hs
    exact .settle f P hstep
  | poolPoke =>
    cases hs
    exact .poolPoke
  | poolStop =>
    cases hs
    exact .poolStop

/-! ## The buffers of the fills -/

/-- The fills that the loop waits for. -/
def PumpLoop.awaited : PumpLoop σ → List ℕ
  | .submitting _ fills _ | .checking _ fills | .waiting _ fills => fills
  | _ => []

/-- What the loop waits for has a buffer. -/
theorem PumpLoop.fills_of_awaited {loop : PumpLoop σ} {f : ℕ} (h : f ∈ loop.awaited) :
    f ∈ loop.fills := by
  cases loop with
  | submitting round fills wants => exact h
  | checking round fills => exact h
  | waiting round fills => exact h
  | parked | woken | priming work round | inserting round fills | ticked | exited => cases h

/-- The loop waits for every fill that is not settled. -/
def LookaheadPump.Awaits (s : LookaheadPump σ) : Prop :=
  ∀ f, s.pool.Unsettled f → f ∈ s.loop.awaited

/-- A fill of a longer list is an old one or the last. -/
private theorem unsettled_concat {P Q : FillPool} {f : ℕ} {fill : Fill}
    (hfills : Q.fills = P.fills ++ [fill]) (hf : Q.Unsettled f) :
    P.Unsettled f ∨ f = P.fills.length := by
  obtain ⟨other, hother, hopen⟩ := hf
  rw [hfills] at hother
  by_cases hlt : f < P.fills.length
  · rw [List.getElem?_append_left hlt] at hother
    exact .inl ⟨other, hother, hopen⟩
  · have hle := (List.getElem?_eq_some_iff.mp hother).1
    rw [List.length_append, List.length_singleton] at hle
    exact .inr (by omega)

/-- A step of a thread settles nothing. -/
private theorem fills_threadStep {P Q : FillPool} {w : ℕ} (hs : P.threadStep w = some Q) :
    Q.fills = P.fills := by
  rcases FillPool.threadStep_cases hs with ⟨f, ready, -, -, rfl⟩ | ⟨f, -, -, rfl⟩ |
    ⟨f, -, -, rfl⟩ | ⟨f, -, rfl⟩ | ⟨f, -, rfl⟩
  · rfl
  · rfl
  · rfl
  · rfl
  · rcases P.release_cases f with ⟨-, h⟩ | ⟨c, next, -, -, h⟩ | ⟨c, -, -, h⟩ <;> rw [h]

/-- A submission records one fill. -/
private theorem fills_submit (P : FillPool) (content : Option ℕ) :
    (P.submit content).fills = P.fills ++ [⟨content, false⟩] := by
  rw [FillPool.submit]
  split
  · rfl
  · rcases FillPool.enqueue_cases ({ P with fills := P.fills ++ [⟨content, false⟩] } : FillPool)
      P.fills.length with ⟨-, h⟩ | ⟨c, -, -, h⟩ | ⟨c, -, -, h⟩ <;> rw [h]

/-- No step leaves a fill behind that is not settled. -/
theorem LookaheadPump.Awaits.step (h : s.Awaits) (hs : PumpMove s e s') : s'.Awaits := by
  cases hs with
  | notify | poke | flush | flushReturn | requestStop | poolPoke | poolStop => exact h
  | quit hloop =>
    rw [Awaits, hloop] at h
    exact h
  | wake hloop =>
    rw [Awaits, hloop] at h
    exact h
  | take hloop =>
    rw [Awaits, hloop] at h
    exact h
  | prime work round wants hloop =>
    intro f hf
    have hmem := h f hf
    rw [hloop] at hmem
    cases hmem
  | submitted round fills hloop =>
    rw [Awaits, hloop] at h
    exact h
  | submit round fills content wants hloop =>
    intro f hf
    rcases unsettled_concat (fills_submit s.pool content) hf with hold | rfl
    · have hmem := h f hold
      rw [hloop] at hmem
      exact List.mem_append_left _ hmem
    · exact List.mem_append_right _ (List.mem_singleton.mpr rfl)
  | settled round fills hloop hall =>
    intro f hf
    have hmem := h f hf
    rw [hloop] at hmem
    exact absurd ((hall f hmem).symm.trans (FillPool.settled_eq_false_iff.mpr hf)) nofun
  | wait round fills hloop =>
    rw [Awaits, hloop] at h
    exact h
  | waitReturn round fills hloop =>
    rw [Awaits, hloop] at h
    exact h
  | insert round fills hloop =>
    intro f hf
    have hmem := h f hf
    rw [hloop] at hmem
    cases hmem
  | publish hloop =>
    rw [Awaits, hloop] at h
    exact h
  | thread w P hstep =>
    intro f hf
    apply h f
    obtain ⟨fill, hfill, hopen⟩ := hf
    exact ⟨fill, fills_threadStep hstep ▸ hfill, hopen⟩
  | settle f P hstep =>
    intro g hg
    obtain ⟨fill, hfill, -, -, rfl⟩ := FillPool.settle_cases hstep
    exact h g (FillPool.unsettled_settle hfill hg).1

/-! ## The end of a tick -/

/-- No flush is called while a tick runs, a contributor settles a fill before its render returns,
and the pool is stopped after the loop has ended. -/
def PumpAllowed : PumpEvent σ → LookaheadPump σ → Prop
  | .flush _, s => s.loop.inTick = false
  | .thread w, s => ∀ f, s.pool.threads[w]? = some (.rendering f) → s.pool.settled f = true
  | .poolStop, s => s.loop = .exited
  | _, _ => True

/-- A fill that a thread is about to settle or has settled and not poked for. -/
def FillPool.Busy (P : FillPool) (f : ℕ) : Prop :=
  P.Unsettled f ∨ .rendering f ∈ P.threads ∨ .poking f ∈ P.threads

/-- What holds of a pump in every run of allowed steps. -/
structure LookaheadPump.Steady (s : LookaheadPump σ) : Prop where
  /-- The pool is sound. -/
  pool : s.pool.Sound
  /-- The pool is stopped last. -/
  running : s.loop ≠ .exited → s.pool.stop = false
  /-- What the loop waits for is still to be poked for. -/
  waits : ∀ round fills, s.loop = .waiting round fills →
    s.pool.settleGen = s.pool.drainedGen → ∃ f, s.pool.Busy f

/-- A thread pokes for the fill it settled. -/
private theorem busy_threadStep {P Q : FillPool} {w : ℕ} (hP : P.Sound)
    (hs : P.threadStep w = some Q) (hgen : Q.settleGen = Q.drainedGen)
    (hsettled : ∀ f, P.threads[w]? = some (.rendering f) → P.settled f = true)
    (hbusy : P.settleGen = P.drainedGen → ∃ f, P.Busy f) : ∃ f, Q.Busy f := by
  have hfills := fills_threadStep hs
  have hopen : ∀ f, P.Unsettled f → Q.Unsettled f := fun f ⟨fill, hfill, h⟩ =>
    ⟨fill, hfills ▸ hfill, h⟩
  rcases FillPool.threadStep_cases hs with ⟨f, ready, hw, -, rfl⟩ | ⟨f, hw, -, rfl⟩ |
    ⟨f, hw, hf, rfl⟩ | ⟨f, hw, rfl⟩ | ⟨f, hw, rfl⟩
  · exact ⟨f, .inr (.inl (FillPool.mem_set_self hw))⟩
  · exact ⟨f, .inr (.inr (FillPool.mem_set_self hw))⟩
  · exact absurd ((hsettled f hw).symm.trans hf) nofun
  · have hgen' : P.settleGen + 1 = P.drainedGen := hgen
    have hdrained := hP.drained
    omega
  · have hgens : P.settleGen = P.drainedGen := by
      rcases P.release_cases f with ⟨-, h⟩ | ⟨c, next, -, -, h⟩ | ⟨c, -, -, h⟩ <;>
      · rw [h] at hgen
        exact hgen
    obtain ⟨g, hg | hg | hg⟩ := hbusy hgens
    · exact ⟨g, .inl (hopen g hg)⟩
    · exact ⟨g, .inr (.inl (FillPool.mem_set_thread hw hg nofun))⟩
    · exact ⟨g, .inr (.inr (FillPool.mem_set_thread hw hg nofun))⟩

/-- An allowed step keeps a pump steady. -/
theorem LookaheadPump.Steady.step (h : s.Steady) (ha : PumpAllowed e s) (hs : PumpMove s e s') :
    s'.Steady := by
  cases hs with
  | notify | poke | flush | flushReturn | requestStop => exact ⟨h.pool, h.running, h.waits⟩
  | quit hloop => exact ⟨h.pool, fun hne => absurd rfl hne, nofun⟩
  | wake hloop => exact ⟨h.pool, fun _ => h.running (by rw [hloop]; nofun), nofun⟩
  | take hloop => exact ⟨h.pool, fun _ => h.running (by rw [hloop]; nofun), nofun⟩
  | prime work round wants hloop =>
    refine ⟨h.pool, fun _ => h.running (by rw [hloop]; nofun), fun round' fills hwait => ?_⟩
    dsimp only at hwait
    split at hwait <;> cases hwait
  | submitted round fills hloop =>
    exact ⟨h.pool, fun _ => h.running (by rw [hloop]; nofun), nofun⟩
  | submit round fills content wants hloop =>
    have hstop := h.running (by rw [hloop]; nofun)
    refine ⟨h.pool.submit hstop content, fun _ => ?_, nofun⟩
    show (s.pool.submit content).stop = false
    rw [FillPool.submit_eq hstop]
    rcases FillPool.enqueue_cases ({ s.pool with fills := s.pool.fills ++ [⟨content, false⟩] } :
      FillPool) s.pool.fills.length with ⟨-, hq⟩ | ⟨c, -, -, hq⟩ | ⟨c, -, -, hq⟩ <;>
    · rw [hq]
      exact hstop
  | settled round fills hloop =>
    exact ⟨h.pool, fun _ => h.running (by rw [hloop]; nofun), nofun⟩
  | wait round fills hloop hopen =>
    refine ⟨h.pool, fun _ => h.running (by rw [hloop]; nofun), fun _ _ _ _ => ?_⟩
    obtain ⟨f, -, hf⟩ := hopen
    exact ⟨f, .inl (FillPool.settled_eq_false_iff.mp hf)⟩
  | waitReturn round fills hloop =>
    refine ⟨⟨h.pool.manned, h.pool.placed, h.pool.parked, h.pool.active, h.pool.attached,
      Nat.le_refl _⟩, fun _ => h.running (by rw [hloop]; nofun), nofun⟩
  | insert round fills hloop =>
    refine ⟨h.pool, fun _ => h.running (by rw [hloop]; nofun), fun round' fills' hwait => ?_⟩
    dsimp only at hwait
    split at hwait <;> cases hwait
  | publish hloop => exact ⟨h.pool, fun _ => h.running (by rw [hloop]; nofun), nofun⟩
  | thread w P hstep =>
    refine ⟨h.pool.threadStep hstep ha, fun hne => ?_, fun round fills hwait hgen =>
      busy_threadStep h.pool hstep hgen ha (h.waits round fills hwait)⟩
    have hstop := h.running hne
    rcases FillPool.threadStep_cases hstep with ⟨f, ready, -, -, rfl⟩ | ⟨f, -, -, rfl⟩ |
      ⟨f, -, -, rfl⟩ | ⟨f, -, rfl⟩ | ⟨f, -, rfl⟩
    · exact hstop
    · exact hstop
    · exact hstop
    · exact hstop
    · rcases s.pool.release_cases f with ⟨-, hq⟩ | ⟨c, next, -, -, hq⟩ | ⟨c, -, -, hq⟩ <;>
      · rw [hq]
        exact hstop
  | settle f P hstep =>
    obtain ⟨fill, hfill, -, hrender, rfl⟩ := FillPool.settle_cases hstep
    refine ⟨h.pool.settle hstep, h.running, fun round fills hwait hgen => ?_⟩
    rcases hrender with hrender | hdetached
    · exact ⟨f, .inr (.inl hrender)⟩
    · rw [h.pool.attached] at hdetached
      cases hdetached
  | poolPoke =>
    refine ⟨⟨h.pool.manned, h.pool.placed, h.pool.parked, h.pool.active, h.pool.attached,
      Nat.le_succ_of_le h.pool.drained⟩, h.running, fun _ _ _ hgen => ?_⟩
    have hgen' : s.pool.settleGen + 1 = s.pool.drainedGen := hgen
    have hdrained := h.pool.drained
    omega
  | poolStop =>
    refine ⟨⟨h.pool.manned, h.pool.placed, h.pool.parked, h.pool.active, h.pool.attached,
      h.pool.drained⟩, fun hne => absurd ha hne, h.waits⟩

/-- The events of a tick: those of the loop, of the pool's threads and of the contributors. -/
def PumpEvent.ofTick : PumpEvent σ → Bool
  | .prime _ | .submit | .check | .waitReturn | .insert | .publish | .thread _ | .settle _ => true
  | _ => false

/-- The calls of other threads. -/
def PumpEvent.ofCaller : PumpEvent σ → Bool
  | .notify _ | .poke | .flush _ | .flushReturn _ | .requestStop => true
  | _ => false

/-- Another thread calls the pump. -/
def CallerStep (s t : LookaheadPump σ) : Prop :=
  ∃ e, e.ofCaller = true ∧ PumpAllowed e s ∧ (lookaheadPump σ).step e s = some t

/-- A tick goes on, after any calls of other threads. -/
def TickStep (t s : LookaheadPump σ) : Prop :=
  s.loop.inTick = true ∧ ∃ u e, Relation.ReflTransGen CallerStep s u ∧ e.ofTick = true ∧
    PumpAllowed e u ∧ (lookaheadPump σ).step e u = some t

/-- The rounds that a tick has left. -/
def PumpLoop.rank : PumpLoop σ → ℕ
  | .parked | .woken | .exited => 0
  | .ticked => 1
  | .priming _ round => 2 * (maxRounds - round) + 3
  | .submitting round _ _ | .checking round _ | .waiting round _ | .inserting round _ =>
    2 * (maxRounds - round) + 2

/-- The steps that the loop has left in a round, and the fills it submits. -/
def PumpLoop.work : PumpLoop σ → ℕ
  | .submitting _ _ wants => 12 * wants.length + 5
  | .checking _ _ => 2
  | .waiting _ _ => 1
  | _ => 0

/-- What a tick has left. -/
def LookaheadPump.remaining (s : LookaheadPump σ) : ℕ ×ₗ ℕ :=
  toLex (s.loop.rank, s.loop.work + s.pool.work)

/-- A step within a round is work done. -/
private theorem remaining_lt_of_work (hrank : s'.loop.rank = s.loop.rank)
    (hwork : s'.loop.work + s'.pool.work < s.loop.work + s.pool.work) :
    s'.remaining < s.remaining :=
  Prod.Lex.toLex_lt_toLex.mpr (.inr ⟨hrank, hwork⟩)

/-- Another round is a smaller rank. -/
private theorem remaining_lt_of_rank (hrank : s'.loop.rank < s.loop.rank) :
    s'.remaining < s.remaining :=
  Prod.Lex.toLex_lt_toLex.mpr (.inl hrank)

/-- A step of a tick leaves less. -/
theorem remaining_lt (h : s.Steady) (he : e.ofTick = true) (hs : PumpMove s e s') :
    s'.remaining < s.remaining := by
  cases hs with
  | notify | poke | flush | flushReturn | requestStop | quit | wake | take | poolPoke
  | poolStop => cases he
  | prime work round wants hloop =>
    apply remaining_lt_of_rank
    rw [hloop]
    show (if wants = [] then PumpLoop.ticked else .submitting round [] wants : PumpLoop σ).rank <
      2 * (maxRounds - round) + 3
    split
    · show 1 < _
      omega
    · exact Nat.lt_succ_self _
  | submitted round fills hloop =>
    apply remaining_lt_of_work (by rw [hloop]; rfl)
    rw [hloop]
    show 2 + s.pool.work < 5 + s.pool.work
    omega
  | submit round fills content wants hloop =>
    apply remaining_lt_of_work (by rw [hloop]; rfl)
    have hwork := FillPool.work_submit (h.running (by rw [hloop]; nofun)) content
    rw [hloop]
    show 12 * wants.length + 5 + (s.pool.submit content).work <
      12 * (wants.length + 1) + 5 + s.pool.work
    omega
  | settled round fills hloop =>
    apply remaining_lt_of_work (by rw [hloop]; rfl)
    rw [hloop]
    show 0 + s.pool.work < 2 + s.pool.work
    omega
  | wait round fills hloop =>
    apply remaining_lt_of_work (by rw [hloop]; rfl)
    rw [hloop]
    show 1 + s.pool.work < 2 + s.pool.work
    omega
  | waitReturn round fills hloop hpoked =>
    apply remaining_lt_of_work (by rw [hloop]; rfl)
    have hgen : s.pool.settleGen ≠ s.pool.drainedGen := by
      rcases hpoked with hstop | hgen
      · exact absurd ((h.running (by rw [hloop]; nofun)).symm.trans hstop) nofun
      · exact hgen
    rw [hloop]
    show 2 + ({ s.pool with drainedGen := s.pool.settleGen } : FillPool).work < 1 + s.pool.work
    simp only [FillPool.work, FillPool.unseen, if_neg hgen, if_true]
    omega
  | insert round fills hloop =>
    apply remaining_lt_of_rank
    rw [hloop]
    show (if round + 1 < maxRounds then PumpLoop.priming .empty (round + 1) else .ticked :
      PumpLoop σ).rank < 2 * (maxRounds - round) + 2
    split
    · show 2 * (maxRounds - (round + 1)) + 3 < _
      omega
    · show 1 < _
      omega
  | publish hloop =>
    apply remaining_lt_of_rank
    rw [hloop]
    exact Nat.one_pos
  | thread w P hstep =>
    exact remaining_lt_of_work rfl (Nat.add_lt_add_left (FillPool.work_threadStep hstep) _)
  | settle f P hstep =>
    exact remaining_lt_of_work rfl (Nat.add_lt_add_left (FillPool.work_settle hstep) _)

/-- A call of another thread moves neither the loop nor the pool. -/
theorem callerStep_frame {t : LookaheadPump σ} (h : CallerStep s t) :
    t.loop = s.loop ∧ t.pool = s.pool := by
  obtain ⟨e, he, -, hs⟩ := h
  cases pumpMove_of_step hs with
  | notify | poke | flush | flushReturn | requestStop => exact ⟨rfl, rfl⟩
  | quit | wake | take | prime | submitted | submit | settled | wait | waitReturn | insert
  | publish | thread | settle | poolPoke | poolStop => cases he

/-- Calls of other threads move neither the loop nor the pool. -/
theorem callerSteps_frame {t : LookaheadPump σ} (h : Relation.ReflTransGen CallerStep s t) :
    t.loop = s.loop ∧ t.pool = s.pool := by
  induction h with
  | refl => exact ⟨rfl, rfl⟩
  | tail _ hstep ih =>
    obtain ⟨hloop, hpool⟩ := callerStep_frame hstep
    exact ⟨hloop.trans ih.1, hpool.trans ih.2⟩

/-- A pump is as steady as its loop and its pool. -/
private theorem Steady.congr {t : LookaheadPump σ} (h : s.Steady)
    (hframe : t.loop = s.loop ∧ t.pool = s.pool) : t.Steady := by
  obtain ⟨hloop, hpool⟩ := hframe
  refine ⟨hpool ▸ h.pool, ?_, ?_⟩
  · rw [hloop, hpool]
    exact h.running
  · rw [hloop, hpool]
    exact h.waits

/-- A tick ends: its steps leave less and less. -/
theorem acc_tickStep (h : s.Steady) : Acc TickStep s := by
  obtain ⟨m, hm⟩ : ∃ m, m = s.remaining := ⟨_, rfl⟩
  induction m using WellFoundedLT.induction generalizing s with
  | ind m ih =>
    refine Acc.intro s fun t ht => ?_
    obtain ⟨-, u, e, hcalls, he, ha, hs⟩ := ht
    have hframe := callerSteps_frame hcalls
    have hu := Steady.congr h hframe
    have hmove := pumpMove_of_step hs
    have hlt := remaining_lt hu he hmove
    have hremaining : u.remaining = s.remaining := by
      rw [LookaheadPump.remaining, hframe.1, hframe.2, LookaheadPump.remaining]
    exact ih _ (hm ▸ hremaining ▸ hlt) (hu.step ha hmove) rfl

/-- A busy pool is not quiet, or a fill is parked at a held gate. -/
private theorem quiet_of_busy {P : FillPool} {f : ℕ} (hP : P.Sound) (hf : P.Busy f) :
    P.quiet = false := by
  rw [Bool.eq_false_iff]
  intro hquiet
  rw [FillPool.quiet, Bool.and_eq_true, List.isEmpty_iff, List.all_eq_true] at hquiet
  obtain ⟨hready, hidle⟩ := hquiet
  have hheld : ∀ t ∈ P.threads, t = .idle := fun t ht => beq_iff_eq.mp (hidle t ht)
  rcases hf with hopen | hrender | hpoke
  · rcases hP.placed f hopen with hmem | hparked | hrender
    · rw [hready] at hmem
      cases hmem
    · obtain ⟨c, -, hactive⟩ := hP.parked f hparked
      obtain ⟨g, -, hmem | ⟨t, ht, hg⟩⟩ := hP.active c hactive
      · rw [hready] at hmem
        cases hmem
      · rw [hheld t ht] at hg
        cases hg
    · cases hheld _ hrender
  · cases hheld _ hrender
  · cases hheld _ hpoke

/-- Some event of a tick can happen while it runs. -/
theorem exists_tickStep (h : s.Steady) (htick : s.loop.inTick = true) : ∃ t, TickStep t s := by
  have hgo : ∀ e, e.ofTick = true → PumpAllowed e s →
      ((lookaheadPump σ).step e s).isSome = true → ∃ t, TickStep t s := fun e he ha hs => by
    obtain ⟨t, ht⟩ := Option.isSome_iff_exists.mp hs
    exact ⟨t, htick, s, e, .refl, he, ha, ht⟩
  have hpool : s.pool.stop = false → s.pool.quiet = false → ∃ t, TickStep t s :=
      fun hstop hbusy => by
    rcases h.pool.moves hstop hbusy with ⟨w, P, hstep, hsettled⟩ | ⟨f, P, hstep⟩
    · exact hgo (.thread w) rfl hsettled (by simp [lookaheadPump, hstep])
    · exact hgo (.settle f) rfl trivial (by simp [lookaheadPump, hstep])
  have hstop : s.pool.stop = false := h.running fun hloop => by
    rw [hloop] at htick
    cases htick
  cases hloop : s.loop with
  | parked | woken | exited =>
    rw [hloop] at htick
    cases htick
  | priming work round =>
    refine hgo (.prime []) rfl trivial ?_
    show (s.loopStep (.prime [])).isSome = true
    rw [LookaheadPump.loopStep, hloop]
    rfl
  | submitting round fills wants =>
    cases hfree : s.free with
    | false =>
      rw [LookaheadPump.free, Bool.or_eq_false_iff] at hfree
      exact hpool hstop hfree.2
    | true =>
      refine hgo .submit rfl trivial ?_
      show (s.loopStep .submit).isSome = true
      rw [LookaheadPump.loopStep, hloop]
      cases wants with
      | nil =>
        dsimp only
        rw [if_pos hfree]
        rfl
      | cons content wants =>
        dsimp only
        rw [if_pos hfree]
        rfl
  | checking round fills =>
    refine hgo .check rfl trivial ?_
    show (s.loopStep .check).isSome = true
    rw [LookaheadPump.loopStep, hloop]
    rfl
  | waiting round fills =>
    by_cases hgen : s.pool.settleGen = s.pool.drainedGen
    · obtain ⟨f, hf⟩ := h.waits round fills hloop hgen
      exact hpool hstop (quiet_of_busy h.pool hf)
    · refine hgo .waitReturn rfl trivial ?_
      show (s.loopStep .waitReturn).isSome = true
      rw [LookaheadPump.loopStep, hloop]
      dsimp only
      rw [if_pos (.inr hgen)]
      rfl
  | inserting round fills =>
    refine hgo .insert rfl trivial ?_
    show (s.loopStep .insert).isSome = true
    rw [LookaheadPump.loopStep, hloop]
    rfl
  | ticked =>
    refine hgo .publish rfl trivial ?_
    show (s.loopStep .publish).isSome = true
    rw [LookaheadPump.loopStep, hloop]
    rfl

end Steps

/-! ## What ticks apply -/

section Notices

variable {σ : Type}

/-- The damage that is notified. -/
def PumpNotice.range? : PumpNotice σ → Option TimeRange
  | .damage range => some range
  | _ => none

/-- The listener that is notified. -/
def PumpNotice.seed? : PumpNotice σ → Option σ
  | .spatial seed => some seed
  | _ => none

/-- A change of the transport is notified. -/
def PumpNotice.isTransport : PumpNotice σ → Bool
  | .transport => true
  | _ => false

/-- The calls on the ring that apply notifications: the last listener, every damage in order, and
one prime from nothing for any changes of the transport. -/
def noticeCalls (notices : List (PumpNotice σ)) : List (RingCall σ) :=
  ((notices.filterMap PumpNotice.seed?).getLast?.map .setSpatial).toList ++
    ((notices.filterMap PumpNotice.range?).map .invalidate ++
      if notices.any PumpNotice.isTransport then [.reprime] else [])

/-- What is left after some notifications. -/
private theorem addAll_eq (flags : PumpFlags σ) (notices : List (PumpNotice σ)) :
    flags.addAll notices =
      ⟨flags.transport || notices.any PumpNotice.isTransport,
        (notices.filterMap PumpNotice.seed?).getLast?.or flags.spatial,
        flags.damage ++ notices.filterMap PumpNotice.range?⟩ := by
  induction notices generalizing flags with
  | nil =>
    rw [PumpFlags.addAll, List.foldl_nil, List.any_nil, Bool.or_false, List.filterMap_nil,
      List.filterMap_nil, List.append_nil]
    rfl
  | cons notice notices ih =>
    rw [PumpFlags.addAll, List.foldl_cons]
    refine (ih (flags.add notice)).trans ?_
    cases notice with
    | damage range =>
      simp [PumpFlags.add, PumpNotice.isTransport, PumpNotice.seed?, PumpNotice.range?]
    | transport =>
      simp [PumpFlags.add, PumpNotice.isTransport, PumpNotice.seed?, PumpNotice.range?,
        List.filterMap_cons]
    | spatial seed =>
      simp only [PumpFlags.add, PumpNotice.isTransport, PumpNotice.seed?, PumpNotice.range?,
        List.any_cons, Bool.false_or, List.filterMap_cons, List.getLast?_cons]
      cases (notices.filterMap PumpNotice.seed?).getLast? with
      | none => rfl
      | some seed' => rfl

/-- A tick applies what was left for it. -/
theorem calls_addAll (notices : List (PumpNotice σ)) :
    (PumpFlags.empty.addAll notices).takeCalls ++ (PumpFlags.empty.addAll notices).roundCalls =
      noticeCalls notices := by
  rw [addAll_eq, PumpFlags.empty, PumpFlags.takeCalls, PumpFlags.roundCalls, noticeCalls,
    Option.or_none, Bool.false_or, List.nil_append]

/-- What the ring was called with, while the loop stands where it does. -/
def Applied (s : LookaheadPump σ) (r : PumpRecord σ) : Prop :=
  match s.loop with
  | .priming work 0 => ∃ before last, r.taken = before ++ [last] ∧
      work = PumpFlags.empty.addAll last ∧
      s.calls = before.flatMap noticeCalls ++ work.takeCalls
  | _ => s.calls = r.taken.flatMap noticeCalls

/-- What was notified is what ticks took and what is left. -/
structure PumpKept (s : LookaheadPump σ) (r : PumpRecord σ) : Prop where
  /-- Nothing is lost and nothing is taken twice. -/
  partition : r.notices = r.taken.flatten ++ r.left
  /-- The next tick takes what is left. -/
  flags : s.flags = PumpFlags.empty.addAll r.left
  /-- Ticks apply what they took. -/
  applied : Applied s r
  /-- The ticks that took something are those that are counted and the one that runs. -/
  counted : r.taken.length = s.ticks + if s.loop.inTick then 1 else 0

/-- A new pump has kept everything. -/
theorem PumpKept.new (workerCount : ℕ) (serialized : Option ℕ → Bool) :
    PumpKept (LookaheadPump.new workerCount serialized : LookaheadPump σ) (.new σ) :=
  ⟨rfl, rfl, rfl, rfl⟩

variable {s s' : LookaheadPump σ} {r : PumpRecord σ} {e : PumpEvent σ}

/-- The ring was called for every tick that took something. -/
private theorem PumpKept.calls_eq (h : PumpKept s r) (hloop : ∀ work, s.loop ≠ .priming work 0) :
    s.calls = r.taken.flatMap noticeCalls := by
  have happlied := h.applied
  rw [Applied] at happlied
  split at happlied
  · rename_i work hpriming
    exact absurd hpriming (hloop work)
  · exact happlied

/-- The loop goes on, and no tick begins or ends. -/
private theorem PumpKept.advance {loop : PumpLoop σ} {pool : FillPool} (h : PumpKept s r)
    (hfrom : ∀ work, s.loop ≠ .priming work 0) (hto : ∀ work, loop ≠ .priming work 0)
    (htick : loop.inTick = s.loop.inTick) :
    PumpKept { s with loop := loop, pool := pool } r := by
  refine ⟨h.partition, h.flags, ?_, ?_⟩
  · rw [Applied]
    split
    · rename_i work hpriming
      exact absurd hpriming (hto work)
    · exact h.calls_eq hfrom
  · show r.taken.length = s.ticks + if loop.inTick then 1 else 0
    rw [htick]
    exact h.counted

/-- Nothing is lost by a step, and nothing is applied twice. -/
theorem PumpKept.step (h : PumpKept s r) (hs : PumpMove s e s') : PumpKept s' (r.update e s) := by
  cases hs with
  | notify notice =>
    refine ⟨?_, ?_, h.applied, h.counted⟩
    · show r.notices ++ [notice] = r.taken.flatten ++ (r.left ++ [notice])
      rw [h.partition, List.append_assoc]
    · show s.flags.add notice = PumpFlags.empty.addAll (r.left ++ [notice])
      rw [PumpFlags.addAll, List.foldl_concat, h.flags]
      rfl
  | flushReturn caller target =>
    have hframe : (r.update (.flushReturn caller) s).notices = r.notices ∧
        (r.update (.flushReturn caller) s).taken = r.taken ∧
        (r.update (.flushReturn caller) s).left = r.left := by
      rw [PumpRecord.update]
      split <;> exact ⟨rfl, rfl, rfl⟩
    obtain ⟨hnotices, htaken, hleft⟩ := hframe
    refine ⟨?_, ?_, ?_, ?_⟩
    · rw [hnotices, htaken, hleft]
      exact h.partition
    · rw [hleft]
      exact h.flags
    · have happlied := h.applied
      rw [Applied] at happlied ⊢
      rwa [htaken]
    · rw [htaken]
      exact h.counted
  | poke | flush | requestStop | thread | settle | poolPoke | poolStop =>
    exact ⟨h.partition, h.flags, h.applied, h.counted⟩
  | quit hloop =>
    exact h.advance (by rw [hloop]; nofun) nofun (by rw [hloop]; rfl)
  | wake hloop =>
    have hwoken : PumpKept { s with loop := .woken, pool := s.pool } _ :=
      h.advance (by rw [hloop]; nofun) nofun (by rw [hloop]; rfl)
    exact ⟨hwoken.partition, hwoken.flags, hwoken.applied, hwoken.counted⟩
  | take hloop =>
    have hcalls := h.calls_eq (by rw [hloop]; nofun)
    have hcounted := h.counted
    rw [hloop] at hcounted
    refine ⟨?_, rfl, ?_, ?_⟩
    · show r.notices = (r.taken ++ [r.left]).flatten ++ []
      rw [h.partition, List.flatten_append, List.flatten_singleton, List.append_nil]
    · refine ⟨r.taken, r.left, rfl, h.flags, ?_⟩
      show s.calls ++ s.flags.takeCalls = r.taken.flatMap noticeCalls ++ s.flags.takeCalls
      rw [hcalls]
    · show (r.taken ++ [r.left]).length = s.ticks + 1
      rw [List.length_append, hcounted]
      rfl
  | prime work round wants hloop =>
    have hcounted := h.counted
    rw [hloop] at hcounted
    refine ⟨h.partition, h.flags, ?_, ?_⟩
    · have happlied := h.applied
      rw [Applied, hloop] at happlied
      have hcalls : (if round = 0 then s.calls ++ work.roundCalls else s.calls) =
          r.taken.flatMap noticeCalls := by
        cases round with
        | zero =>
          obtain ⟨before, last, htaken, hwork, hcalls⟩ := happlied
          rw [if_pos rfl, hcalls, htaken, List.flatMap_append, List.flatMap_singleton,
            List.append_assoc, hwork, calls_addAll]
        | succ round => exact happlied
      show Applied _ r
      by_cases hwants : wants = []
      · simpa only [Applied, if_pos hwants] using hcalls
      · simpa only [Applied, if_neg hwants] using hcalls
    · show r.taken.length = s.ticks +
        if (if wants = [] then PumpLoop.ticked else .submitting round [] wants : PumpLoop σ).inTick
          then 1 else 0
      by_cases hwants : wants = []
      · rw [if_pos hwants]
        exact hcounted
      · rw [if_neg hwants]
        exact hcounted
  | submitted round fills hloop =>
    exact h.advance (by rw [hloop]; nofun) nofun (by rw [hloop]; rfl)
  | submit round fills content wants hloop =>
    exact h.advance (by rw [hloop]; nofun) nofun (by rw [hloop]; rfl)
  | settled round fills hloop =>
    exact h.advance (by rw [hloop]; nofun) nofun (by rw [hloop]; rfl)
  | wait round fills hloop =>
    exact h.advance (by rw [hloop]; nofun) nofun (by rw [hloop]; rfl)
  | waitReturn round fills hloop =>
    exact h.advance (by rw [hloop]; nofun) nofun (by rw [hloop]; rfl)
  | insert round fills hloop =>
    refine h.advance (by rw [hloop]; nofun) (fun work => ?_) ?_
    · split
      · nofun
      · nofun
    · rw [hloop]
      split <;> rfl
  | publish hloop =>
    have hcalls := h.calls_eq (by rw [hloop]; nofun)
    have hcounted := h.counted
    rw [hloop] at hcounted
    exact ⟨h.partition, h.flags, hcalls, hcounted⟩

/-! ### Flushes -/

/-- A flush was called after some ticks had begun and some notifications had been made: the next
tick takes those that are left of them. -/
structure Heard (r : PumpRecord σ) (begun notices : ℕ) : Prop where
  /-- These ticks have begun. -/
  begun_le : begun ≤ r.taken.length
  /-- These notifications have been made. -/
  notices_le : notices ≤ r.notices.length
  /-- The next tick has taken them. -/
  taken : begun < r.taken.length → notices ≤ (r.taken.take (begun + 1)).flatten.length

/-- What a flush is heard by stays when notifications are made. -/
private theorem Heard.notify {begun notices : ℕ} (h : Heard r begun notices)
    (notice : PumpNotice σ) : Heard (r.update (.notify notice) s) begun notices where
  begun_le := h.begun_le
  notices_le := by
    show notices ≤ (r.notices ++ [notice]).length
    rw [List.length_append]
    exact Nat.le_add_right_of_le h.notices_le
  taken := h.taken

/-- The next tick hears a flush. -/
private theorem Heard.take {begun notices : ℕ} (h : Heard r begun notices)
    (hpartition : r.notices = r.taken.flatten ++ r.left) :
    Heard (r.update .take s) begun notices where
  begun_le := by
    show begun ≤ (r.taken ++ [r.left]).length
    rw [List.length_append]
    exact Nat.le_add_right_of_le h.begun_le
  notices_le := h.notices_le
  taken _ := by
    show notices ≤ ((r.taken ++ [r.left]).take (begun + 1)).flatten.length
    by_cases hlt : begun < r.taken.length
    · rw [List.take_append_of_le_length hlt]
      exact h.taken hlt
    · have hbegun : begun = r.taken.length := Nat.le_antisymm h.begun_le (Nat.not_lt.mp hlt)
      have hall : (r.taken ++ [r.left]).take (begun + 1) = r.taken ++ [r.left] := by
        apply List.take_of_length_le
        rw [List.length_append, hbegun]
        exact Nat.le_refl _
      have hle := h.notices_le
      rw [hpartition] at hle
      rwa [hall, List.flatten_append, List.flatten_singleton]

/-- What flushes were promised. -/
structure Flushed (s : LookaheadPump σ) (r : PumpRecord σ) : Prop where
  /-- A caller waits for the end of the next tick. -/
  flushing : ∀ caller target, s.flushing caller = some target →
    target = (r.called caller).1 + 1 ∧ Heard r (r.called caller).1 (r.called caller).2
  /-- A flush returns after a tick that began after it was called. -/
  returned : ∀ x ∈ r.returned, x.begun < x.done ∧ x.done ≤ r.taken.length ∧
    x.notices ≤ (r.taken.take x.done).flatten.length

/-- A new pump has been flushed by nobody. -/
theorem Flushed.new (workerCount : ℕ) (serialized : Option ℕ → Bool) :
    Flushed (LookaheadPump.new workerCount serialized : LookaheadPump σ) (.new σ) :=
  ⟨nofun, nofun⟩

/-- What has been taken is taken. -/
private theorem flatten_take_le {n m : ℕ} (h : n ≤ m) (l : List (List (PumpNotice σ))) :
    (l.take n).flatten.length ≤ (l.take m).flatten.length := by
  have hshort := List.take_prefix_take_left (l := l) h
  exact (hshort.flatten).length_le

/-- An allowed step keeps what flushes were promised. -/
theorem Flushed.step (h : Flushed s r) (hkept : PumpKept s r) (ha : PumpAllowed e s)
    (hs : PumpMove s e s') : Flushed s' (r.update e s) := by
  cases hs with
  | notify notice =>
    refine ⟨fun caller target hcaller => ?_, h.returned⟩
    obtain ⟨htarget, hheard⟩ := h.flushing caller target hcaller
    exact ⟨htarget, hheard.notify notice⟩
  | take hloop =>
    refine ⟨fun caller target hcaller => ?_, fun x hx => ?_⟩
    · obtain ⟨htarget, hheard⟩ := h.flushing caller target hcaller
      exact ⟨htarget, hheard.take hkept.partition⟩
    · obtain ⟨hlt, hle, hnotices⟩ := h.returned x hx
      refine ⟨hlt, ?_, ?_⟩
      · show x.done ≤ (r.taken ++ [r.left]).length
        rw [List.length_append]
        exact Nat.le_add_right_of_le hle
      · show x.notices ≤ ((r.taken ++ [r.left]).take x.done).flatten.length
        rwa [List.take_append_of_le_length hle]
  | flush caller hfree =>
    -- no tick runs, so the ticks that have begun are those that are counted
    have hcounted := hkept.counted
    have htick : s.loop.inTick = false := ha
    rw [htick] at hcounted
    have hticks : r.taken.length = s.ticks := hcounted
    refine ⟨fun c target hc => ?_, h.returned⟩
    have hc' : (if c = caller then some (s.ticks + 1) else s.flushing c) = some target := hc
    show target = (if c = caller then (r.taken.length, r.notices.length) else r.called c).1 + 1 ∧
      Heard _ (if c = caller then (r.taken.length, r.notices.length) else r.called c).1
        (if c = caller then (r.taken.length, r.notices.length) else r.called c).2
    by_cases hcc : c = caller
    · rw [if_pos hcc] at hc' ⊢
      cases hc'
      exact ⟨by rw [hticks], Nat.le_refl _, Nat.le_refl _, fun hlt => absurd hlt (Nat.lt_irrefl _)⟩
    · rw [if_neg hcc] at hc' ⊢
      obtain ⟨htarget, hheard⟩ := h.flushing c target hc'
      exact ⟨htarget, hheard.begun_le, hheard.notices_le, hheard.taken⟩
  | flushReturn caller target hcaller hdone =>
    have hflushing : ∀ c target, (if c = caller then none else s.flushing c) = some target →
        target = (r.called c).1 + 1 ∧ Heard r (r.called c).1 (r.called c).2 := fun c target hc => by
      by_cases hcc : c = caller
      · rw [if_pos hcc] at hc
        cases hc
      · rw [if_neg hcc] at hc
        exact h.flushing c target hc
    rw [PumpRecord.update]
    split
    case isTrue => exact ⟨hflushing, h.returned⟩
    case isFalse hstop =>
      refine ⟨fun c target hc => ?_, fun x hx => ?_⟩
      · obtain ⟨htarget, hheard⟩ := hflushing c target hc
        exact ⟨htarget, hheard.begun_le, hheard.notices_le, hheard.taken⟩
      · rcases List.mem_cons.mp hx with rfl | hx
        · obtain ⟨htarget, hheard⟩ := h.flushing caller target hcaller
          have hticks : target ≤ s.ticks := hdone.resolve_left hstop
          have hcounted := hkept.counted
          have hlt : (r.called caller).1 < s.ticks := by omega
          refine ⟨hlt, by show s.ticks ≤ r.taken.length; omega, ?_⟩
          calc (r.called caller).2
              ≤ (r.taken.take ((r.called caller).1 + 1)).flatten.length := by
                apply hheard.taken
                omega
            _ ≤ (r.taken.take s.ticks).flatten.length := flatten_take_le hlt _
        · exact h.returned x hx
  | poke | requestStop | quit | wake | prime | submitted | submit | settled | wait | waitReturn
  | insert | publish | thread | settle | poolPoke | poolStop =>
    refine ⟨fun caller target hcaller => ?_, h.returned⟩
    obtain ⟨htarget, hheard⟩ := h.flushing caller target hcaller
    exact ⟨htarget, hheard.begun_le, hheard.notices_le, hheard.taken⟩

end Notices

/-! ## The promises -/

section Promises

variable {σ : Type} {p : LookaheadPump σ × PumpRecord σ}

/-- What the pump promises in a state that a run has reached. -/
structure PumpPromise (p : LookaheadPump σ × PumpRecord σ) : Prop where
  /-- A notification is in what one tick took, or no tick has taken it. -/
  partition : p.2.notices = p.2.taken.flatten ++ p.2.left
  /-- The ring is called once for all that a tick took, before the tick ends. -/
  applied : ∃ rest, p.1.calls ++ rest = p.2.taken.flatMap noticeCalls ∧
    (p.1.loop.inTick = false → rest = [])
  /-- When a flush returned before a stop, a tick that began after it was called was done, and the
  ticks that were done had taken every notification made before the call. -/
  flushed : ∀ x ∈ p.2.returned, x.begun < x.done ∧
    x.notices ≤ (p.2.taken.take x.done).flatten.length
  /-- A tick does not go on for ever, whatever other threads call. -/
  ends : Acc TickStep p.1
  /-- A tick does not get stuck. -/
  moves : p.1.loop.inTick = true → ∃ t, TickStep t p.1
  /-- The loop of a stopped pump ends after its tick. -/
  stops : p.1.stop = true → p.1.loop = .parked →
    (lookaheadPump σ).step .wake p.1 = some { p.1 with loop := .exited }
  /-- A fill that is not settled has a buffer. -/
  alive : ∀ f, p.1.pool.Unsettled f → f ∈ p.1.loop.fills

/-- What the promises follow from. -/
structure PumpInv (p : LookaheadPump σ × PumpRecord σ) : Prop where
  /-- The pump is steady. -/
  steady : p.1.Steady
  /-- The loop waits for every fill that is not settled. -/
  awaits : p.1.Awaits
  /-- No notification is lost or doubled. -/
  kept : PumpKept p.1 p.2
  /-- Flushes are heard. -/
  flushed : Flushed p.1 p.2

/-- The start of a recorded run. -/
theorem start_newPump (workerCount : ℕ) (serialized : Option ℕ → Bool) :
    (recordedPump σ).start (.new workerCount serialized, .new σ) :=
  ⟨⟨workerCount, serialized, rfl⟩, rfl⟩

/-- Nothing is promised that a run of allowed steps does not keep. -/
theorem reachable_pumpInv
    (h : (recordedPump σ).Reachable (fun e p => PumpAllowed e p.1) p) : PumpInv p := by
  apply h.invariant
  · rintro ⟨s, r⟩ ⟨⟨workerCount, serialized, hs⟩, hr⟩
    obtain rfl : s = .new workerCount serialized := hs
    obtain rfl : r = .new σ := hr
    refine ⟨⟨.new workerCount serialized, fun _ => rfl, nofun⟩, fun f hf => ?_,
      .new workerCount serialized, .new workerCount serialized⟩
    obtain ⟨fill, hfill, -⟩ := hf
    cases hfill
  · rintro ⟨s, r⟩ e ⟨s', r'⟩ hinv ha hs
    obtain ⟨hstep, hr⟩ := Machine.observe_step_eq_some.mp hs
    have hmove := pumpMove_of_step hstep
    obtain rfl : r' = r.update e s := hr
    exact ⟨hinv.steady.step ha hmove, hinv.awaits.step hmove, hinv.kept.step hmove,
      hinv.flushed.step hinv.kept ha hmove⟩

/-- What the ring is still to be called with. -/
private theorem applied_rest {s : LookaheadPump σ} {r : PumpRecord σ} (h : Applied s r) :
    ∃ rest, s.calls ++ rest = r.taken.flatMap noticeCalls ∧
      (s.loop.inTick = false → rest = []) := by
  rw [Applied] at h
  split at h
  · rename_i work hloop
    obtain ⟨before, last, htaken, hwork, hcalls⟩ := h
    refine ⟨work.roundCalls, ?_, fun htick => ?_⟩
    · rw [hcalls, htaken, List.flatMap_append, List.flatMap_singleton, List.append_assoc, hwork,
        calls_addAll]
    · rw [hloop] at htick
      cases htick
  · exact ⟨[], by rw [List.append_nil, h], fun _ => rfl⟩

/-- The pump keeps its promises in every run in which no flush is called while a tick runs, every
contributor settles a fill before its render returns, and the pool is stopped after the pump. -/
theorem recordedPump_promise
    (h : (recordedPump σ).Reachable (fun e p => PumpAllowed e p.1) p) : PumpPromise p := by
  have hinv := reachable_pumpInv h
  refine ⟨hinv.kept.partition, applied_rest hinv.kept.applied, fun x hx => ?_,
    acc_tickStep hinv.steady, exists_tickStep hinv.steady, fun hstop hloop => ?_,
    fun f hf => PumpLoop.fills_of_awaited (hinv.awaits f hf)⟩
  · obtain ⟨hlt, -, hnotices⟩ := hinv.flushed.returned x hx
    exact ⟨hlt, hnotices⟩
  · show p.1.loopStep .wake = _
    rw [LookaheadPump.loopStep, hloop]
    dsimp only
    rw [if_pos hstop]

instance [DecidableEq σ] (e : PumpEvent σ) (s : LookaheadPump σ) :
    Decidable (PumpAllowed e s) :=
  match e with
  | .flush _ => inferInstanceAs (Decidable (s.loop.inTick = false))
  | .thread w =>
    match hw : s.pool.threads[w]? with
    | some (.rendering f) =>
      decidable_of_iff (s.pool.settled f = true) (by simp [PumpAllowed, hw])
    | some .idle => .isTrue (by simp [PumpAllowed, hw])
    | some (.poking _) => .isTrue (by simp [PumpAllowed, hw])
    | some (.releasing _) => .isTrue (by simp [PumpAllowed, hw])
    | none => .isTrue (by simp [PumpAllowed, hw])
  | .poolStop => inferInstanceAs (Decidable (s.loop = .exited))
  | .notify _ | .poke | .flushReturn _ | .requestStop | .wake | .take | .prime _ | .submit | .check
  | .waitReturn | .insert | .publish | .settle _ | .poolPoke => .isTrue trivial

/-- A tick that begins after a flush was called, with one fill. -/
def flushedRun : List (PumpEvent ℕ) :=
  [.notify .transport, .flush 0, .wake, .take, .prime [some 3], .submit, .submit, .check, .thread 0,
    .settle 0, .thread 0, .thread 0, .waitReturn, .check, .insert, .prime [], .publish,
    .flushReturn 0]

/-- A flush that is called after a tick took what was left. -/
def missedRun : List (PumpEvent ℕ) :=
  [.wake, .take, .notify .transport, .flush 0, .prime [], .publish, .flushReturn 0]

/-- A tick that begins after a flush was called applies what was notified before. -/
theorem recordedPump_promise_flushedRun :
    ∃ p, (recordedPump ℕ).Reachable (fun e p => PumpAllowed e p.1) p ∧
      (p.2.returned = [⟨0, 1, 1⟩] ∧ p.1.calls = [.reprime]) ∧ PumpPromise p := by
  obtain ⟨p, hp, hrun⟩ := Machine.exists_reachable (M := recordedPump ℕ)
    (fun e p => PumpAllowed e p.1) flushedRun
    (fun p : LookaheadPump ℕ × PumpRecord ℕ =>
      decide (p.2.returned = [⟨0, 1, 1⟩] ∧ p.1.calls = [.reprime]))
    (start_newPump 1 fun _ => true) (by decide +kernel) (by decide +kernel)
  exact ⟨p, hp, of_decide_eq_true hrun, recordedPump_promise hp⟩

/-- A flush that is called while a tick runs returns before what was notified is applied. -/
theorem not_recordedPump_promise :
    ¬ ∀ p, (recordedPump ℕ).Reachable Machine.anyEvent p → PumpPromise p := by
  intro h
  obtain ⟨p, hp, hrun⟩ := Machine.exists_reachable (M := recordedPump ℕ)
    Machine.anyEvent missedRun
    (fun p : LookaheadPump ℕ × PumpRecord ℕ => decide (p.2.returned = [⟨1, 1, 1⟩]))
    (start_newPump 0 fun _ => false) (Machine.runAllowed_anyEvent _ _) (by decide +kernel)
  have hreturned : p.2.returned = [⟨1, 1, 1⟩] := of_decide_eq_true hrun
  have hflushed := (h p hp).flushed ⟨1, 1, 1⟩ (by rw [hreturned]; exact List.mem_singleton.mpr rfl)
  exact absurd hflushed.1 (Nat.lt_irrefl 1)

end Promises

end ArbitraryComposer
