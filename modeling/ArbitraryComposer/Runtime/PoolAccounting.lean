import ArbitraryComposer.Runtime.WorkerPool

/-!
# The Accounts of the Worker Pool

Every submitted task is in one place: between the two sections of its submit, in a queue, with a
thread, among the completed, or among the dropped. The claims of an owner are its tasks that are not
in the last two. Both are equations of tallies, kept while a task is in hand between two places.

## Main definitions

- `Orderly`: no render is settled after it has returned, and no stop meets a submit under way.
- `WorkerPool.Ledger`: the accounts.

## Main results

- `WorkerPool.init_ledger`, `WorkerPool.Ledger.step`: orderly events keep the accounts.
-/

namespace ArbitraryComposer

open List (tally tally_nil tally_cons tally_append)

/-- No render is settled after it has returned, and no stop meets a submit under way. -/
def Orderly (e : PoolEvent) (p : WorkerPool) : Prop :=
  match e with
  | .finish _ settled => settled = true
  | .requestStop => p.admitting = []
  | _ => True

instance (e : PoolEvent) (p : WorkerPool) : Decidable (Orderly e p) := by
  unfold Orderly
  rcases e with ⟨⟩ <;> infer_instance

namespace WorkerPool

/-- The weight of the tasks of an owner. -/
def ownedBy (owner : ℕ) (t : PoolTask) : ℕ := if t.owner = owner then 1 else 0

/-- The tasks that threads have. -/
def held (g : PoolThread → Option PoolTask) (p : WorkerPool) : List PoolTask :=
  p.threads.filterMap g

/-- The queued tasks. -/
def queued (p : WorkerPool) : List PoolTask := p.ready ++ p.workReady ++ p.parked

/-! ## The ledger -/

/-- The weight of the tasks in hand, under way, queued, and with threads. -/
def weigh (f : PoolTask → ℕ) (g : PoolThread → Option PoolTask) (hand : List PoolTask)
    (p : WorkerPool) : ℕ :=
  tally f hand + tally f p.admitting + tally f p.queued + tally f (p.held g)

/-- Every submitted task is in one place, and the claims of an owner are its tasks that are neither
completed nor dropped; `hand` holds tasks that are being moved. -/
structure LedgerWith (hand : List PoolTask) (p : WorkerPool) : Prop where
  /-- Every submitted task is in one place. -/
  places : ∀ f, tally f p.submitted = weigh f PoolThread.unreturned? hand p +
    tally f p.completed + tally f (p.dropped.map Prod.fst)
  /-- The claims of an owner. -/
  claims : ∀ o, p.outstanding o = weigh (ownedBy o) PoolThread.outstanding? hand p
  /-- A drain drops the tasks of its owner. -/
  own_drops : ∀ t o, (t, some o) ∈ p.dropped → t.owner = o
  /-- Every render was settled when it returned. -/
  settled : p.unsettled = []

/-- The ledger between two critical sections. -/
def Ledger (p : WorkerPool) : Prop := p.LedgerWith []

section Ledger

variable {p p' : WorkerPool} {hand hand' : List PoolTask} {t : PoolTask} {i : ℕ}

theorem init_ledger (workerCount : ℕ) : (init workerCount).Ledger := by
  have hheld : ∀ g, g .waiting = none → (init workerCount).held g = [] := fun g hg => by
    simp [held, init, hg]
  refine ⟨fun f => ?_, fun o => ?_, nofun, rfl⟩
  · rw [weigh, hheld _ rfl]
    rfl
  · rw [weigh, hheld _ rfl]
    rfl

theorem held_setThread (g : PoolThread → Option PoolTask) (th : PoolThread) {th' : PoolThread}
    (h : p.threads[i]? = some th') (f : PoolTask → ℕ) :
    tally f (g th').toList + tally f ((p.setThread i th).held g) =
      tally f (g th).toList + tally f (p.held g) :=
  List.tally_filterMap_set h th f

/-- Tasks that only move keep the ledger. -/
theorem LedgerWith.move (h : p.LedgerWith hand) (hweigh : ∀ f g, weigh f g hand' p' = weigh f g hand p)
    (hsubmitted : p'.submitted = p.submitted) (hcompleted : p'.completed = p.completed)
    (hdropped : p'.dropped = p.dropped) (hunsettled : p'.unsettled = p.unsettled)
    (houtstanding : p'.outstanding = p.outstanding) : p'.LedgerWith hand' := by
  refine ⟨fun f => ?_, fun o => ?_, ?_, ?_⟩
  · rw [hsubmitted, hcompleted, hdropped, hweigh]
    exact h.places f
  · rw [houtstanding, hweigh]
    exact h.claims o
  · rw [hdropped]
    exact h.own_drops
  · rw [hunsettled]
    exact h.settled

theorem dropQueued_threads (cause : Option ℕ) (ts : List PoolTask) (p : WorkerPool) :
    (WorkerPool.dropQueued cause ts p).threads = p.threads := by
  induction ts generalizing p with
  | nil => rfl
  | cons t ts ih => exact ih _

/-- Dropping tasks closes their claims. -/
theorem LedgerWith.dropQueued {cause : Option ℕ} {ts : List PoolTask}
    (h : p.LedgerWith (ts ++ hand)) (hcause : ∀ o ∈ cause, ∀ t ∈ ts, t.owner = o) :
    (WorkerPool.dropQueued cause ts p).LedgerWith hand := by
  induction ts generalizing p with
  | nil => exact h
  | cons t ts ih =>
    refine ih ⟨fun f => ?_, fun o => ?_, fun t' o ht' => ?_, h.settled⟩
      fun o ho t' ht' => hcause o ho t' (List.mem_cons_of_mem _ ht')
    · have hf := h.places f
      show tally f p.submitted = _ + tally f p.admitting + tally f p.queued +
        tally f (p.held _) + tally f p.completed + tally f ((p.dropped ++ [(t, cause)]).map _)
      simp only [weigh, List.cons_append, tally_cons, List.map_append, List.map_cons, List.map_nil,
        tally_append, tally_nil] at hf ⊢
      omega
    · have ho := h.claims o
      show Function.update p.outstanding t.owner (p.outstanding t.owner - 1) o = _ +
        tally _ p.admitting + tally _ p.queued + tally _ (p.held _)
      simp only [weigh, List.cons_append, tally_cons] at ho
      by_cases howner : t.owner = o
      · subst howner
        rw [Function.update_self]
        simp only [ownedBy, if_pos] at ho ⊢
        omega
      · rw [Function.update_of_ne (Ne.symm howner)]
        simp only [ownedBy, if_neg howner] at ho ⊢
        omega
    · rcases List.mem_append.mp ht' with ht' | ht'
      · exact h.own_drops t' o ht'
      · obtain ⟨rfl, hcause'⟩ := Prod.mk.inj (List.mem_singleton.mp ht')
        exact hcause o (hcause' ▸ rfl) t' List.mem_cons_self

theorem Ledger.abandonQueued (h : p.Ledger) : p.abandonQueued.Ledger := by
  refine LedgerWith.dropQueued (h.move (fun f g => ?_) rfl rfl rfl rfl rfl) nofun
  show tally f (p.ready ++ p.parked ++ p.workReady ++ []) + tally f p.admitting + 0 +
    tally f (p.held g) = _
  simp only [weigh, queued, tally_append, tally_nil]
  omega

theorem Ledger.handOn (c : ℕ) (h : p.Ledger) : (p.handOn c).Ledger := by
  unfold WorkerPool.handOn
  split
  case isFalse => exact h
  case isTrue =>
    cases hfront : p.front c with
    | none => exact h.move (fun _ _ => rfl) rfl rfl rfl rfl rfl
    | some t =>
      refine h.move (fun f g => ?_) rfl rfl rfl rfl rfl
      have hleft := List.tally_eraseP hfront f
      show 0 + tally f p.admitting +
        tally f (p.ready ++ [t] ++ p.workReady ++ p.parked.eraseP _) + tally f (p.held g) = _
      simp only [weigh, queued, tally_append, tally_cons, tally_nil] at hleft ⊢
      omega

section Purge

variable (owner : ℕ)

private theorem owned_of_mem_filter (l : List PoolTask) : ∀ o ∈ some owner,
    ∀ t ∈ l.filter (·.owner = owner), t.owner = o := by
  rintro o ⟨⟩ t ht
  exact of_decide_eq_true (List.mem_filter.mp ht).2

private theorem tally_filter_owner (f : PoolTask → ℕ) (l : List PoolTask) :
    tally f (l.filter (·.owner = owner)) + tally f (l.filter fun t => !decide (t.owner = owner)) =
      tally f l :=
  List.tally_filter_add f (fun t => decide (t.owner = owner)) l

theorem Ledger.purgeParked (h : p.Ledger) : (p.purgeParked owner).Ledger := by
  refine LedgerWith.dropQueued (h.move (fun f g => ?_) rfl rfl rfl rfl rfl)
    (owned_of_mem_filter owner _)
  have hf := tally_filter_owner owner f p.parked
  show tally f (_ ++ []) + tally f p.admitting + tally f (p.ready ++ p.workReady ++ _) +
    tally f (p.held g) = _
  simp only [weigh, queued, tally_append, tally_nil] at hf ⊢
  omega

theorem Ledger.purgeReady (h : p.Ledger) : (p.purgeReady owner).Ledger := by
  refine LedgerWith.dropQueued (h.move (fun f g => ?_) rfl rfl rfl rfl rfl)
    (owned_of_mem_filter owner _)
  have hf := tally_filter_owner owner f p.ready
  show tally f (_ ++ []) + tally f p.admitting + tally f (_ ++ p.workReady ++ p.parked) +
    tally f (p.held g) = _
  simp only [weigh, queued, tally_append, tally_nil] at hf ⊢
  omega

theorem Ledger.purgeWork (h : p.Ledger) : (p.purgeWork owner).Ledger := by
  refine LedgerWith.dropQueued (h.move (fun f g => ?_) rfl rfl rfl rfl rfl)
    (owned_of_mem_filter owner _)
  have hf := tally_filter_owner owner f p.workReady
  show tally f (_ ++ []) + tally f p.admitting + tally f (p.ready ++ _ ++ p.parked) +
    tally f (p.held g) = _
  simp only [weigh, queued, tally_append, tally_nil] at hf ⊢
  omega

theorem Ledger.handOnAll (orphaned : List ℕ) (h : p.Ledger) :
    (orphaned.foldl (fun p c => p.handOn c) p).Ledger := by
  induction orphaned generalizing p with
  | nil => exact h
  | cons c rest ih => exact ih (h.handOn c)

theorem Ledger.drainOwner (h : p.Ledger) : (p.drainOwner owner).Ledger :=
  ((h.purgeParked owner).purgeReady owner |>.handOnAll _).purgeWork owner

end Purge

/-! ### The ledger along a step -/

theorem Ledger.admitTask (t : PoolTask) (h : p.Ledger) : (p.admitTask t).Ledger := by
  unfold WorkerPool.admitTask
  split
  case isTrue => exact h
  case isFalse =>
    refine ⟨fun f => ?_, fun o => ?_, h.own_drops, h.settled⟩
    · have hf := h.places f
      show tally f (p.submitted ++ [t]) = 0 + tally f (p.admitting ++ [t]) + tally f p.queued +
        tally f (p.held _) + tally f p.completed + tally f (p.dropped.map _)
      simp only [weigh, tally_append, tally_cons, tally_nil] at hf ⊢
      omega
    · have ho := h.claims o
      show Function.update p.outstanding t.owner (p.outstanding t.owner + 1) o =
        0 + tally _ (p.admitting ++ [t]) + tally _ p.queued + tally _ (p.held _)
      simp only [weigh, tally_append, tally_cons, tally_nil] at ho ⊢
      by_cases howner : t.owner = o
      · subst howner
        rw [Function.update_self]
        simp only [ownedBy, if_pos] at ho ⊢
        omega
      · rw [Function.update_of_ne (Ne.symm howner)]
        simp only [ownedBy, if_neg howner] at ho ⊢
        omega

theorem LedgerWith.dispatch (h : p.LedgerWith [t]) : (p.dispatch t).Ledger := by
  unfold WorkerPool.dispatch
  split
  case isTrue =>
    have hheld : ∀ f g, tally f ((p.threads ++ [PoolThread.popped t]).filterMap g) =
        tally f (p.held g) + tally f (g (.popped t)).toList := fun f g => by
      rw [List.filterMap_append, tally_append, held]
      cases hg : g (.popped t) <;> simp [hg]
    refine ⟨fun f => ?_, fun o => ?_, h.own_drops, h.settled⟩
    · have hf := h.places f
      show tally f p.submitted = 0 + tally f p.admitting + tally f p.queued +
        tally f ((p.threads ++ [PoolThread.popped t]).filterMap _) + _ + _
      rw [hheld]
      simp only [weigh, PoolThread.unreturned?, Option.toList_some, tally_cons, tally_nil] at hf ⊢
      omega
    · have ho := h.claims o
      show p.outstanding o = 0 + tally _ p.admitting + tally _ p.queued +
        tally _ ((p.threads ++ [PoolThread.popped t]).filterMap _)
      rw [hheld]
      simp only [weigh, PoolThread.outstanding?, Option.toList_some, tally_cons, tally_nil]
        at ho ⊢
      omega
  case isFalse =>
    split
    case isTrue =>
      refine h.move (fun f g => ?_) rfl rfl rfl rfl rfl
      show 0 + tally f p.admitting + tally f (p.ready ++ [t] ++ p.workReady ++ p.parked) +
        tally f (p.held g) = _
      simp only [weigh, queued, tally_append, tally_cons, tally_nil]
      omega
    case isFalse =>
      refine h.move (fun f g => ?_) rfl rfl rfl rfl rfl
      show 0 + tally f p.admitting + tally f (p.ready ++ (p.workReady ++ [t]) ++ p.parked) +
        tally f (p.held g) = _
      simp only [weigh, queued, tally_append, tally_cons, tally_nil]
      omega

theorem LedgerWith.enqueue (serialize : ℕ → Bool) (h : p.LedgerWith [t]) :
    (p.enqueue serialize t).Ledger := by
  unfold WorkerPool.enqueue
  split
  · exact h.dispatch
  · split
    · refine h.move (fun f g => ?_) rfl rfl rfl rfl rfl
      show 0 + tally f p.admitting + tally f (p.ready ++ p.workReady ++ (p.parked ++ [t])) +
        tally f (p.held g) = _
      simp only [weigh, queued, tally_append, tally_cons, tally_nil]
      omega
    · exact LedgerWith.dispatch (h.move (fun _ _ => rfl) rfl rfl rfl rfl rfl)

/-- A thread that moves takes the task that it gets out of a hand. -/
theorem LedgerWith.setThread {th th' : PoolThread} (h : p.LedgerWith hand)
    (hi : p.threads[i]? = some th')
    (hhand : ∀ f, tally f hand + tally f th'.unreturned?.toList =
      tally f hand' + tally f th.unreturned?.toList)
    (hhand' : ∀ f, tally f hand + tally f th'.outstanding?.toList =
      tally f hand' + tally f th.outstanding?.toList) :
    (p.setThread i th).LedgerWith hand' := by
  refine ⟨fun f => ?_, fun o => ?_, h.own_drops, h.settled⟩
  · have hf := h.places f
    have hheld := held_setThread PoolThread.unreturned? th hi f
    have hmoved := hhand f
    show tally f p.submitted = _ + tally f p.admitting + tally f p.queued + _ +
      tally f p.completed + tally f (p.dropped.map _)
    simp only [weigh] at hf
    omega
  · have ho := h.claims o
    have hheld := held_setThread PoolThread.outstanding? th hi (ownedBy o)
    have hmoved := hhand' (ownedBy o)
    show p.outstanding o = _ + tally _ p.admitting + tally _ p.queued + _
    simp only [weigh] at ho
    omega

theorem Ledger.take (h : p.Ledger) (hi : p.threads[i]? = some .waiting)
    (hp : p.take i = some p') : p'.Ledger := by
  unfold WorkerPool.take at hp
  split at hp
  case isTrue =>
    obtain rfl := Option.some.inj hp
    have hi' : p.abandonQueued.threads[i]? = some .waiting := by
      rw [WorkerPool.abandonQueued, dropQueued_threads]
      exact hi
    exact LedgerWith.setThread h.abandonQueued hi' (fun _ => rfl) fun _ => rfl
  case isFalse =>
    split at hp
    case h_1 t rest hready =>
      obtain rfl := Option.some.inj hp
      have hhand : ({ p with ready := rest } : WorkerPool).LedgerWith [t] := by
        refine h.move (fun f g => ?_) rfl rfl rfl rfl rfl
        show tally f [t] + tally f p.admitting + tally f (rest ++ p.workReady ++ p.parked) +
          tally f (p.held g) = _
        simp only [weigh, queued, hready, tally_append, tally_cons, tally_nil]
        omega
      exact hhand.setThread hi (fun _ => Nat.add_comm _ _) fun _ => Nat.add_comm _ _
    case h_2 t rest hready hwork =>
      obtain rfl := Option.some.inj hp
      have hhand : ({ p with workReady := rest } : WorkerPool).LedgerWith [t] := by
        refine h.move (fun f g => ?_) rfl rfl rfl rfl rfl
        show tally f [t] + tally f p.admitting + tally f (p.ready ++ rest ++ p.parked) +
          tally f (p.held g) = _
        simp only [weigh, queued, hwork, tally_append, tally_cons, tally_nil]
        omega
      exact hhand.setThread hi (fun _ => Nat.add_comm _ _) fun _ => Nat.add_comm _ _
    case h_3 => cases hp

theorem Ledger.finish (h : p.Ledger) (hi : p.threads[i]? = some (.rendering t)) :
    ({ p with completed := p.completed ++ [t] }.setThread i (.counted t)).Ledger := by
  refine ⟨fun f => ?_, fun o => ?_, h.own_drops, h.settled⟩
  · have hf := h.places f
    have hheld := held_setThread PoolThread.unreturned? (.counted t) hi f
    show tally f p.submitted = 0 + tally f p.admitting + tally f p.queued +
      tally f ((p.setThread i (.counted t)).held _) + tally f (p.completed ++ [t]) +
      tally f (p.dropped.map _)
    simp only [weigh, PoolThread.unreturned?, Option.toList_some, Option.toList_none, tally_append,
      tally_cons, tally_nil] at hf hheld ⊢
    omega
  · have ho := h.claims o
    have hheld := held_setThread PoolThread.outstanding? (.counted t) hi (ownedBy o)
    show p.outstanding o = 0 + tally _ p.admitting + tally _ p.queued +
      tally _ ((p.setThread i (.counted t)).held _)
    simp only [weigh, PoolThread.outstanding?, Option.toList_some, tally_cons, tally_nil]
      at ho hheld ⊢
    omega

theorem Ledger.release (h : p.Ledger) (hi : p.threads[i]? = some (.counted t)) :
    ((p.releaseOutstanding t.owner).setThread i (.released t)).Ledger := by
  refine ⟨fun f => ?_, fun o => ?_, h.own_drops, h.settled⟩
  · have hf := h.places f
    have hheld := held_setThread PoolThread.unreturned? (.released t) hi f
    show tally f p.submitted = 0 + tally f p.admitting + tally f p.queued +
      tally f ((p.setThread i (.released t)).held _) + tally f p.completed +
      tally f (p.dropped.map _)
    simp only [weigh, PoolThread.unreturned?, Option.toList_none, tally_nil] at hf hheld ⊢
    omega
  · have ho := h.claims o
    have hheld := held_setThread PoolThread.outstanding? (.released t) hi (ownedBy o)
    show Function.update p.outstanding t.owner (p.outstanding t.owner - 1) o =
      0 + tally _ p.admitting + tally _ p.queued +
        tally _ ((p.setThread i (.released t)).held _)
    simp only [weigh, PoolThread.outstanding?, Option.toList_some, Option.toList_none, tally_cons,
      tally_nil] at ho hheld ⊢
    by_cases howner : t.owner = o
    · subst howner
      rw [Function.update_self]
      simp only [ownedBy, if_pos] at ho hheld ⊢
      omega
    · rw [Function.update_of_ne (Ne.symm howner)]
      simp only [ownedBy, if_neg howner] at ho hheld ⊢
      omega

theorem afterTask_cases (p : WorkerPool) : p.afterTask = .exited ∨ p.afterTask = .waiting := by
  unfold afterTask
  split
  · exact Or.inl rfl
  · exact Or.inr rfl

theorem Ledger.releaseGate (serialize : ℕ → Bool) (h : p.Ledger)
    (hi : p.threads[i]? = some (.released t)) : (p.releaseGate serialize i t).Ledger := by
  have hafter : ∀ q : WorkerPool, q.Ledger → q.threads = p.threads →
      (q.setThread i p.afterTask).Ledger := fun q hq hthreads => by
    refine LedgerWith.setThread hq (hthreads ▸ hi) (fun f => ?_) fun f => ?_ <;>
      rcases p.afterTask_cases with hafter | hafter <;> rw [hafter] <;> rfl
  unfold WorkerPool.releaseGate
  split
  case h_1 => exact hafter p h rfl
  case h_2 c _ =>
    split
    case h_1 =>
      exact hafter (p.closeGate c) (h.move (fun _ _ => rfl) rfl rfl rfl rfl rfl) rfl
    case h_2 next hfront =>
      have hleft := List.tally_eraseP hfront
      split
      case isTrue =>
        have hhand : (p.popFront c).LedgerWith [next] := by
          refine h.move (fun f g => ?_) rfl rfl rfl rfl rfl
          have hf := hleft f
          show tally f [next] + tally f p.admitting +
            tally f (p.ready ++ p.workReady ++ p.parked.eraseP _) + tally f (p.held g) = _
          simp only [weigh, queued, tally_append, tally_cons, tally_nil] at hf ⊢
          omega
        exact hhand.setThread hi (fun _ => Nat.add_comm _ _) fun _ => Nat.add_comm _ _
      case isFalse =>
        have hhand : ({ p.popFront c with ready := p.ready ++ [next] } : WorkerPool).Ledger := by
          refine h.move (fun f g => ?_) rfl rfl rfl rfl rfl
          have hf := hleft f
          show 0 + tally f p.admitting +
            tally f (p.ready ++ [next] ++ p.workReady ++ p.parked.eraseP _) +
            tally f (p.held g) = _
          simp only [weigh, queued, tally_append, tally_cons, tally_nil] at hf ⊢
          omega
        exact LedgerWith.setThread hhand hi (fun _ => rfl) fun _ => rfl

/-- Every orderly event keeps the ledger. -/
theorem Ledger.step {serialize : ℕ → Bool} {e : PoolEvent} (h : p.Ledger) (ha : Orderly e p)
    (hs : WorkerPool.step serialize e p = some p') : p'.Ledger := by
  cases e with
  | submit t =>
    obtain rfl := Option.some.inj hs
    exact h.admitTask t
  | enqueue k =>
    obtain ⟨t, ht, rfl⟩ := Option.map_eq_some_iff.mp hs
    refine LedgerWith.enqueue serialize (h.move (fun f g => ?_) rfl rfl rfl rfl rfl)
    have hf := List.tally_eraseIdx ht f
    show tally f [t] + tally f (p.admitting.eraseIdx k) + tally f p.queued + tally f (p.held g) = _
    simp only [weigh, tally_cons, tally_nil] at hf ⊢
    omega
  | take i =>
    simp only [WorkerPool.step] at hs
    split at hs
    · exact h.take ‹_› hs
    · cases hs
  | start i =>
    simp only [WorkerPool.step] at hs
    split at hs
    · rename_i t hi
      obtain rfl := Option.some.inj hs
      have hstarted : ({ p with started := p.started ++ [t] } : WorkerPool).Ledger :=
        h.move (fun _ _ => rfl) rfl rfl rfl rfl rfl
      exact LedgerWith.setThread hstarted hi (fun _ => rfl) fun _ => rfl
    · cases hs
  | finish i settled =>
    obtain rfl : settled = true := ha
    simp only [WorkerPool.step] at hs
    split at hs
    · obtain rfl := Option.some.inj hs
      exact h.finish ‹_›
    · cases hs
  | settle k =>
    obtain ⟨t, ht, -⟩ := Option.map_eq_some_iff.mp hs
    rw [h.settled] at ht
    cases ht
  | release i =>
    simp only [WorkerPool.step] at hs
    split at hs
    · obtain rfl := Option.some.inj hs
      exact h.release ‹_›
    · cases hs
  | releaseGate i =>
    simp only [WorkerPool.step] at hs
    split at hs
    · obtain rfl := Option.some.inj hs
      exact h.releaseGate serialize ‹_›
    · cases hs
  | drain owner =>
    obtain rfl := Option.some.inj hs
    exact h.drainOwner owner
  | requestStop =>
    obtain rfl := Option.some.inj hs
    exact h.move (fun _ _ => rfl) rfl rfl rfl rfl rfl

end Ledger

end WorkerPool

end ArbitraryComposer
