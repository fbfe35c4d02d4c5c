import ArbitraryComposer.Runtime.FanOutPool
import ArbitraryComposer.Runtime.PoolMoves

/-!
# When a Fan-Out on a Pool Ends

A fan-out waits for the jobs of the items it takes back. As long as each of them runs, it comes to
its end, whatever the others do with the pool. A stop is the one event that loses a job which a
fan-out waits for: from then on its wait returns at once, and it looks at the job for ever.

## Main definitions

- `FanPool.Inv`: what a run keeps.
- `FanPool.left`: what is left to do.

## Main results

- `FanPool.inv_of_reachable`: the invariant.
- `FanPool.Inv.goes_on`: before its end, a thread can go on.
- `FanPool.taken_of_step`: what a stop loses stays lost.
- `fanOut_endsWell_iff`: when a fan-out ends.
-/

namespace ArbitraryComposer

/-! ## Where an event leaves the tasks of others -/

namespace WorkerPool

variable {p p' : WorkerPool} {e : PoolEvent} {t : PoolTask} {owner i : ℕ}

theorem Moved.workerCount_eq (hm : p.Moved e p') : p'.workerCount = p.workerCount := by
  cases hm <;> rfl

theorem Moved.stop_of_stop (hm : p.Moved e p') (hstop : p.stop = true) : p'.stop = true := by
  cases hm <;> first | exact hstop | rfl

/-- Only a stop stops a pool. -/
theorem Moved.stop_eq (hm : p.Moved e p') (he : e ≠ .requestStop) : p'.stop = p.stop := by
  cases hm <;> first | rfl | exact absurd rfl he

/-- Completed tasks stay so. -/
theorem Moved.completed_sublist (hm : p.Moved e p') : p.completed.Sublist p'.completed := by
  cases hm with
  | finished => exact List.sublist_append_left _ _
  | _ => exact List.Sublist.refl _

/-- Dropped tasks stay so. -/
theorem Moved.dropped_sublist (hm : p.Moved e p') : p.dropped.Sublist p'.dropped := by
  cases hm with
  | exited => exact List.sublist_append_left _ _
  | drained => exact List.sublist_append_left _ _
  | _ => exact List.Sublist.refl _

/-- Others do not submit tasks of an owner. -/
theorem Moved.count_submitted (hm : p.Moved e p') (he : e.ofOthers owner p = true)
    (ht : t.owner = owner) : p'.submitted.count t = p.submitted.count t := by
  cases hm with
  | admitted t' hstop outstanding =>
    have hne : t ∉ [t'] := fun hmem => by
      obtain rfl := List.mem_singleton.mp hmem
      exact of_decide_eq_true he ht
    show (p.submitted ++ [t']).count t = _
    rw [List.count_append, List.count_eq_zero_of_not_mem hne]
    rfl
  | _ => rfl

/-- A submit of an owner that is under way is not of the others. -/
theorem owner_ne_of_ofOthers {k : ℕ} (hk : p.admitting[k]? = some t)
    (he : PoolEvent.ofOthers owner p (.enqueue k) = true) : t.owner ≠ owner := by
  simp only [PoolEvent.ofOthers, hk, Option.all_some] at he
  exact of_decide_eq_true he

/-- Others leave the submits of an owner alone. -/
theorem Moved.mem_admitting (hm : p.Moved e p') (he : e.ofOthers owner p = true)
    (ht : t.owner = owner) : t ∈ p'.admitting ↔ t ∈ p.admitting := by
  have herase : ∀ {k : ℕ} {t' : PoolTask}, p.admitting[k]? = some t' → t'.owner ≠ owner →
      (t ∈ p.admitting.eraseIdx k ↔ t ∈ p.admitting) := fun hk hne => by
    rename_i k t'
    have hcount := List.tally_eraseIdx hk fun x => if x = t then 1 else 0
    have hnot : ¬ t' = t := fun heq => hne (heq ▸ ht)
    rw [List.tally_ite_eq_count, List.tally_ite_eq_count, if_neg hnot, Nat.zero_add] at hcount
    rw [← List.count_pos_iff, ← List.count_pos_iff, hcount]
  cases hm with
  | admitted t' hstop outstanding =>
    have hne : t ∉ [t'] := fun hmem => by
      obtain rfl := List.mem_singleton.mp hmem
      exact of_decide_eq_true he ht
    exact List.mem_append.trans ⟨fun h => h.resolve_right hne, Or.inl⟩
  | inlined k t' hk | readied k t' hk | workReadied k t' hk | parked k t' hk =>
    exact herase hk (owner_ne_of_ofOthers hk he)
  | _ => exact Iff.rfl

/-- Others do not queue tasks of an owner. -/
theorem Moved.mem_queued (hm : p.Moved e p') (he : e.ofOthers owner p = true)
    (ht : t.owner = owner) (hmem : t ∈ p'.queued) : t ∈ p.queued := by
  have hqueued : ∀ {ready workReady parked : List PoolTask},
      (∀ x ∈ ready ++ parked, x = t → x ∈ p.ready ++ p.parked) →
      (∀ x ∈ workReady, x = t → x ∈ p.workReady) →
      t ∈ ready ++ workReady ++ parked → t ∈ p.queued := fun hrenders hwork hmem => by
    have hback : ∀ x ∈ p.ready ++ p.parked, x ∈ p.queued := fun x hx => by
      rcases List.mem_append.mp hx with hx | hx
      · exact List.mem_append_left _ (List.mem_append_left _ hx)
      · exact List.mem_append_right _ hx
    rcases List.mem_append.mp hmem with hmem | hmem
    · rcases List.mem_append.mp hmem with hmem | hmem
      · exact hback t (hrenders t (List.mem_append_left _ hmem) rfl)
      · exact List.mem_append_left _ (List.mem_append_right _ (hwork t hmem rfl))
    · exact hback t (hrenders t (List.mem_append_right _ hmem) rfl)
  have hnew : ∀ {k : ℕ} {t' : PoolTask}, p.admitting[k]? = some t' →
      PoolEvent.ofOthers owner p (.enqueue k) = true → ∀ {l : List PoolTask}, ∀ x ∈ l ++ [t'],
      x = t → x ∈ l := fun hk he l x hx hxt => by
    refine (List.mem_append.mp hx).resolve_right fun hx => ?_
    obtain rfl := List.mem_singleton.mp hx
    exact owner_ne_of_ofOthers hk he (hxt ▸ ht)
  cases hm with
  | readied k t' hk =>
    refine hqueued (fun x hx hxt => ?_) (fun x hx _ => hx) hmem
    rcases List.mem_append.mp hx with hx | hx
    · exact List.mem_append_left _ (hnew hk he x hx hxt)
    · exact List.mem_append_right _ hx
  | workReadied k t' hk => exact hqueued (fun x hx _ => hx) (hnew hk he) hmem
  | parked k t' hk =>
    refine hqueued (fun x hx hxt => ?_) (fun x hx _ => hx) hmem
    rcases List.mem_append.mp hx with hx | hx
    · exact List.mem_append_left _ hx
    · exact List.mem_append_right _ (hnew hk he x hx hxt)
  | exited => cases hmem
  | tookRender i hi hstop t' rest hready =>
    refine hqueued (fun x hx _ => ?_) (fun x hx _ => hx) hmem
    rw [hready]
    exact List.mem_cons_of_mem _ hx
  | tookWork i hi hstop t' rest hwork =>
    refine hqueued (fun x hx _ => hx) (fun x hx _ => ?_) hmem
    rw [hwork]
    exact List.mem_cons_of_mem _ hx
  | inlinedNext i t' hi hw c next hfront =>
    refine hqueued (fun x hx _ => ?_) (fun x hx _ => hx) hmem
    rcases List.mem_append.mp hx with hx | hx
    · exact List.mem_append_left _ hx
    · exact List.mem_append_right _ (List.mem_of_mem_eraseP hx)
  | readiedNext i t' hi hw c next hfront =>
    refine hqueued (fun x hx _ => ?_) (fun x hx _ => hx) hmem
    rcases List.mem_append.mp hx with hx | hx
    · rcases List.mem_append.mp hx with hx | hx
      · exact List.mem_append_left _ hx
      · obtain rfl := List.mem_singleton.mp hx
        exact List.mem_append_right _ (List.mem_of_find?_eq_some hfront)
    · exact List.mem_append_right _ (List.mem_of_mem_eraseP hx)
  | drained o active outstanding ready parked drops hdrops hperm =>
    exact hqueued (fun x hx _ => (List.mem_filter.mp (hperm.mem_iff.mp hx)).1)
      (fun x hx _ => (List.mem_filter.mp hx).1) hmem
  | _ => exact hmem

/-- Others do not drain the tasks of an owner. -/
theorem Moved.mem_dropped (hm : p.Moved e p') (he : e.ofOthers owner p = true)
    (hmem : (t, some owner) ∈ p'.dropped) : (t, some owner) ∈ p.dropped := by
  cases hm with
  | exited i hi hstop outstanding drops hdrops =>
    refine (List.mem_append.mp hmem).resolve_right fun h => ?_
    cases hdrops _ h
  | drained o active outstanding ready parked drops hdrops hperm =>
    refine (List.mem_append.mp hmem).resolve_right fun h => ?_
    exact of_decide_eq_true he (Option.some.inj (hdrops _ h)).symm
  | _ => exact hmem

/-- A thread that moves keeps the tasks of the other threads. -/
theorem mem_held_of_set {g : PoolThread → Option PoolTask} {th th' : PoolThread}
    (hi : p.threads[i]? = some th) (hne : g th ≠ some t) (hmem : t ∈ p.held g) :
    t ∈ (p.threads.set i th').filterMap g := by
  have hcount := List.tally_filterMap_set hi (g := g) th' fun x => if x = t then 1 else 0
  simp only [List.tally_ite_eq_count] at hcount
  have hnone : (g th).toList.count t = 0 := List.count_eq_zero_of_not_mem fun h =>
    hne (Option.mem_toList.mp h)
  have hpos : 0 < (p.threads.filterMap g).count t := List.count_pos_iff.mpr hmem
  refine List.count_pos_iff.mp ?_
  omega

/-- It brings in the task it gets. -/
theorem mem_held_of_mem_set {g : PoolThread → Option PoolTask} {th : PoolThread}
    (hi : p.threads[i]? = some th) (th' : PoolThread) (hnew : g th' ≠ some t)
    (hmem : t ∈ (p.threads.set i th').filterMap g) : t ∈ p.held g := by
  have hcount := List.tally_filterMap_set hi (g := g) th' fun x => if x = t then 1 else 0
  simp only [List.tally_ite_eq_count] at hcount
  have hnone : (g th').toList.count t = 0 := List.count_eq_zero_of_not_mem fun h =>
    hnew (Option.mem_toList.mp h)
  have hpos : 0 < ((p.threads.set i th').filterMap g).count t := List.count_pos_iff.mpr hmem
  by_contra hnot
  have hout : (p.threads.filterMap g).count t = 0 := List.count_eq_zero_of_not_mem hnot
  have hold : (g th).toList.count t = 0 := List.count_eq_zero_of_not_mem fun h =>
    hnot (List.mem_filterMap.mpr ⟨th, List.mem_of_getElem? hi, Option.mem_toList.mp h⟩)
  omega

theorem getElem?_set_held {g : PoolThread → Option PoolTask} {th th' : PoolThread}
    (hi : p.threads[i]? = some th) (hth' : g th' = some t) :
    t ∈ (p.threads.set i th').filterMap g := by
  refine List.mem_filterMap.mpr ⟨th', ?_, hth'⟩
  have hlt := (List.getElem?_eq_some_iff.mp hi).1
  exact List.mem_iff_getElem?.mpr ⟨i, by rw [List.getElem?_set_self hlt]⟩

/-- A job that a thread has stays with it until it is completed. -/
theorem Moved.mem_held (hm : p.Moved e p') (ht : t.content = none)
    (hmem : t ∈ p.held PoolThread.unreturned?) :
    t ∈ p'.held PoolThread.unreturned? ∨ t ∈ p'.completed := by
  cases hm with
  | inlined k t' hk hw active =>
    refine Or.inl ?_
    show t ∈ (p.threads ++ [PoolThread.popped t']).filterMap _
    rw [List.filterMap_append]
    exact List.mem_append_left _ hmem
  | exited i hi => exact Or.inl (mem_held_of_set hi nofun hmem)
  | tookRender i hi => exact Or.inl (mem_held_of_set hi nofun hmem)
  | tookWork i hi => exact Or.inl (mem_held_of_set hi nofun hmem)
  | started i t' hi =>
    by_cases heq : t' = t
    · subst heq
      exact Or.inl (getElem?_set_held hi rfl)
    · exact Or.inl (mem_held_of_set hi (fun h => heq (Option.some.inj h)) hmem)
  | finished i t' hi =>
    by_cases heq : t' = t
    · subst heq
      exact Or.inr (List.mem_append_right _ (List.mem_singleton_self t'))
    · exact Or.inl (mem_held_of_set hi (fun h => heq (Option.some.inj h)) hmem)
  | returned i t' hi ht' =>
    refine Or.inl (mem_held_of_set hi (fun h => ?_) hmem)
    obtain rfl := Option.some.inj h
    exact ht' ht
  | released i t' hi => exact Or.inl (mem_held_of_set hi nofun hmem)
  | done i t' hi => exact Or.inl (mem_held_of_set hi nofun hmem)
  | inlinedNext i t' hi => exact Or.inl (mem_held_of_set hi nofun hmem)
  | readiedNext i t' hi => exact Or.inl (mem_held_of_set hi nofun hmem)
  | _ => exact Or.inl hmem

/-- After a stop a thread has no job that it did not have, unless it runs its own. -/
theorem Moved.held_of_stop (hm : p.Moved e p') (hcrew : p.Crew) (hstop : p.stop = true)
    (ht : t.content = none) (hmem : t ∈ p'.held PoolThread.unreturned?) :
    t ∈ p.held PoolThread.unreturned? ∨ p.workerCount = 0 ∧ t ∈ p.admitting := by
  cases hm with
  | inlined k t' hk hw active =>
    have hmem : t ∈ (p.threads ++ [PoolThread.popped t']).filterMap PoolThread.unreturned? := hmem
    rw [List.filterMap_append] at hmem
    rcases List.mem_append.mp hmem with hmem | hmem
    · exact Or.inl hmem
    · obtain rfl : t = t' := List.mem_singleton.mp hmem
      exact Or.inr ⟨hw, List.mem_of_getElem? hk⟩
  | exited i hi => exact Or.inl (mem_held_of_mem_set hi .exited nofun hmem)
  | tookRender i hi hrunning =>
    rw [hstop] at hrunning
    cases hrunning
  | tookWork i hi hrunning =>
    rw [hstop] at hrunning
    cases hrunning
  | started i t' hi =>
    by_cases heq : t' = t
    · subst heq
      exact Or.inl (List.mem_filterMap.mpr ⟨_, List.mem_of_getElem? hi, rfl⟩)
    · exact Or.inl (mem_held_of_mem_set hi (.rendering t') (fun h => heq (Option.some.inj h)) hmem)
  | finished i t' hi => exact Or.inl (mem_held_of_mem_set hi (.counted t') nofun hmem)
  | returned i t' hi => exact Or.inl (mem_held_of_mem_set hi (.counted t') nofun hmem)
  | released i t' hi => exact Or.inl (mem_held_of_mem_set hi (.released t') nofun hmem)
  | done i t' hi =>
    refine Or.inl (mem_held_of_mem_set hi p.afterTask (fun h => ?_) hmem)
    rcases p.afterTask_cases with hafter | hafter <;> rw [hafter] at h <;> cases h
  | inlinedNext i t' hi hw c next hfront =>
    refine Or.inl (mem_held_of_mem_set hi (.popped next) (fun h => ?_) hmem)
    obtain rfl := Option.some.inj h
    exact renders_of_front hcrew hfront next List.mem_cons_self ht
  | readiedNext i t' hi => exact Or.inl (mem_held_of_mem_set hi .waiting nofun hmem)
  | _ => exact Or.inl hmem

/-- A task is completed by the thread that has it. -/
theorem Moved.completed_iff (hm : p.Moved e p') (hmem : t ∈ p'.completed) :
    t ∈ p.completed ∨ t ∈ p.held PoolThread.unreturned? := by
  cases hm with
  | finished i t' hi =>
    rcases List.mem_append.mp hmem with hmem | hmem
    · exact Or.inl hmem
    · obtain rfl := List.mem_singleton.mp hmem
      exact Or.inr (List.mem_filterMap.mpr ⟨_, List.mem_of_getElem? hi, rfl⟩)
  | _ => exact Or.inl hmem

/-- A stopped pool admits nothing. -/
theorem Moved.admitting_of_stop (hm : p.Moved e p') (hstop : p.stop = true)
    (hmem : t ∈ p'.admitting) : t ∈ p.admitting := by
  cases hm with
  | admitted t' hrunning =>
    rw [hstop] at hrunning
    cases hrunning
  | inlined k t' hk => exact List.mem_of_mem_eraseIdx hmem
  | readied k t' hk => exact List.mem_of_mem_eraseIdx hmem
  | workReadied k t' hk => exact List.mem_of_mem_eraseIdx hmem
  | parked k t' hk => exact List.mem_of_mem_eraseIdx hmem
  | _ => exact hmem

/-- A submit of a job, which its thread runs itself, stays under way until the thread has it. -/
theorem Moved.inlined_of_mem_admitting (hm : p.Moved e p') (hw : p.workerCount = 0)
    (ht : t.content = none) (hmem : t ∈ p.admitting) :
    t ∈ p'.admitting ∨ t ∈ p'.held PoolThread.unreturned? := by
  have herase : ∀ {k : ℕ} {t' : PoolTask}, p.admitting[k]? = some t' → t' ≠ t →
      t ∈ p.admitting.eraseIdx k := fun hk hne => by
    have hcount := List.tally_eraseIdx hk fun x => if x = t then 1 else 0
    rw [List.tally_ite_eq_count, List.tally_ite_eq_count, if_neg hne, Nat.zero_add] at hcount
    rwa [← List.count_pos_iff, hcount, List.count_pos_iff]
  have hrender : ∀ {t' : PoolTask}, t'.content ≠ none → t' ≠ t := fun hne heq => hne (heq ▸ ht)
  cases hm with
  | admitted => exact Or.inl (List.mem_append_left _ hmem)
  | inlined k t' hk =>
    by_cases heq : t' = t
    · subst heq
      refine Or.inr ?_
      show t' ∈ (p.threads ++ [PoolThread.popped t']).filterMap _
      rw [List.filterMap_append]
      exact List.mem_append_right _ (List.mem_singleton_self t')
    · exact Or.inl (herase hk heq)
  | readied k t' hk ht' => exact Or.inl (herase hk (hrender ht'))
  | workReadied k t' hk hworkers => exact absurd hw hworkers
  | parked k t' hk ht' => exact Or.inl (herase hk (hrender ht'))
  | _ => exact Or.inl hmem

end WorkerPool

namespace FanPool

variable {F In V Out S : Type} {P : FanOut F In V Out S} {serialize : ℕ → Bool} {owner : ℕ} {f : F}
  {s : S} {st st' : FanPool F In V Out S} {j : ℕ}

/-! ## What a run keeps -/

/-- What taking back has come to where the thread stands. -/
def PointOk (P : FanOut F In V Out S) (st : FanPool F In V Out S) (goOn : Bool) : Prop :=
  match st.point with
  | .aborted | .draining => goOn = false
  | .returned => goOn = true → st.reaped = P.count
  | _ => goOn = true

/-- What a run keeps. -/
structure Inv (P : FanOut F In V Out S) (owner : ℕ) (f : F) (s : S) (st : FanPool F In V Out S) :
    Prop where
  /-- The accounts of the pool. -/
  accounts : st.pool.Accounts
  /-- Its workers and lanes. -/
  crew : st.pool.Crew
  /-- No item is taken back before it is staged. -/
  reaped_le : st.reaped ≤ st.dispatched
  /-- Only items are staged. -/
  dispatched_le : st.dispatched ≤ P.count
  /-- What was staged. -/
  slots : ∀ j, st.slots[j]? = if j < st.dispatched then some (P.staged f j) else none
  /-- Staging is in order. -/
  staging : st.staging = P.stagingAt f st.dispatched
  /-- Taking back is in order. -/
  sink : ∃ goOn, P.sinkAt f s st.reaped = (st.sink, goOn) ∧ PointOk P st goOn
  /-- Jobs that were taken back are settled. -/
  settled : ∀ j < st.reaped, (P.staged f j).isOk = true → st.Settled owner j
  /-- The tasks it submits are jobs of items. -/
  own : ∀ t ∈ st.pool.submitted, t.owner = owner →
    ∃ j < st.dispatched, (P.staged f j).isOk = true ∧ t = fanJob owner j
  /-- Each once. -/
  once : ∀ j, st.pool.submitted.count (fanJob owner j) ≤ 1
  /-- Until the pool is stopped, it takes all of them. -/
  handed : st.pool.stop = false → ∀ j < st.dispatched, (P.staged f j).isOk = true →
    fanJob owner j ∈ st.pool.submitted
  /-- The submit that is under way. -/
  admitting : ∀ t ∈ st.pool.admitting, t.owner = owner →
    st.point = .submitting ∧ t = fanJob owner (st.dispatched - 1)
  /-- A thread inside its submit has one. -/
  submitting : st.point = .submitting → fanJob owner (st.dispatched - 1) ∈ st.pool.admitting
  /-- Its jobs are drained at the end only. -/
  drains : ∀ t, (t, some owner) ∈ st.pool.dropped → st.point = .draining ∨ st.point = .returned
  /-- And then none is queued. -/
  drained : st.point = .draining → ∀ t ∈ st.pool.queued, t.owner ≠ owner
  /-- At the end none is left. -/
  quiet : st.point = .returned → ∀ t ∈ st.pool.pending, t.owner ≠ owner
  /-- A thread parks for an item that was staged. -/
  parked : st.point = .parked → st.reaped < st.dispatched
  /-- The cursor is not ahead. -/
  drainedGen_le : st.drainedGen ≤ st.settleGen
  /-- No wake is lost: when the item is ready, the generation has moved. -/
  wakes : st.point = .parked → st.Ready owner → st.drainedGen < st.settleGen

theorem inv_start (workerCount : ℕ) : (start workerCount f s).Inv P owner f s where
  accounts := WorkerPool.init_accounts workerCount
  crew := WorkerPool.init_crew workerCount
  reaped_le := Nat.le_refl 0
  dispatched_le := Nat.zero_le _
  slots _ := rfl
  staging := rfl
  sink := ⟨true, rfl, rfl⟩
  settled := nofun
  own := nofun
  once _ := Nat.zero_le 1
  handed _ := nofun
  admitting := nofun
  submitting := nofun
  drains := nofun
  drained := nofun
  quiet := nofun
  parked := nofun
  drainedGen_le := Nat.le_refl 0
  wakes := nofun

/-! ### The others -/

theorem content_fanJob (owner j : ℕ) : (fanJob owner j).content = none := rfl

theorem Settled.moved {e : PoolEvent} {pool : WorkerPool} (hm : st.pool.Moved e pool)
    (h : st.Settled owner j) : fanJob owner j ∈ pool.completed :=
  hm.completed_sublist.subset h

/-- A job is completed where the generation moves. -/
theorem settles_of_completed {e : PoolEvent} {pool : WorkerPool} (hm : st.pool.Moved e pool)
    (hnot : ¬ st.Settled owner j) (h : fanJob owner j ∈ pool.completed) : e.settles = 1 := by
  cases hm with
  | finished => rfl
  | _ => exact absurd h hnot

/-- A task of an owner that is left after an event of the others was there before. -/
theorem mem_pending_of_moved {e : PoolEvent} {pool : WorkerPool} (h : st.Inv P owner f s)
    (hm : st.pool.Moved e pool) (haccounts : pool.Accounts) (he : e.ofOthers owner st.pool = true)
    {t : PoolTask} (ht : t.content = none) (howner : t.owner = owner) (hmem : t ∈ pool.pending) :
    t ∈ st.pool.pending := by
  have hbefore := h.accounts.once ht
  have hafter := haccounts.once ht
  have hcompleted := hm.completed_sublist.count_le t
  have hdropped := (hm.dropped_sublist.map Prod.fst).count_le t
  have hsubmitted := hm.count_submitted he howner
  have hpos : 0 < pool.pending.count t := List.count_pos_iff.mpr hmem
  refine List.count_pos_iff.mp ?_
  omega

/-- What the others do keeps the invariant. -/
theorem Inv.others {e : PoolEvent} {pool : WorkerPool} (h : st.Inv P owner f s)
    (he : e.ofOthers owner st.pool = true) (hs : st.pool.step serialize e = some pool) :
    ({ st with pool := pool, settleGen := st.settleGen + e.settles } :
      FanPool F In V Out S).Inv P owner f s := by
  have hm := WorkerPool.moved_of_step hs
  have haccounts := h.accounts.step hs
  have hown : ∀ t, t.owner = owner → (t ∈ pool.submitted ↔ t ∈ st.pool.submitted) := fun t ht => by
    rw [← List.count_pos_iff, ← List.count_pos_iff, hm.count_submitted he ht]
  refine ⟨haccounts, h.crew.moved hm, h.reaped_le, h.dispatched_le, h.slots, h.staging, h.sink,
    fun j hj hok => (h.settled j hj hok).moved hm, fun t ht howner => ?_, fun j => ?_,
    fun hstop j hj hok => ?_, fun t ht howner => ?_, fun hpoint => ?_, fun t ht => ?_,
    fun hpoint t ht howner => ?_, fun hpoint t ht howner => ?_, h.parked,
    Nat.le_add_right_of_le h.drainedGen_le, fun hpoint hready => ?_⟩
  · exact h.own t ((hown t howner).mp ht) howner
  · rw [hm.count_submitted he rfl]
    exact h.once j
  · refine (hown _ rfl).mpr (h.handed ?_ j hj hok)
    exact Bool.eq_false_iff.mpr fun hstopped =>
      Bool.eq_false_iff.mp hstop (hm.stop_of_stop hstopped)
  · exact h.admitting t ((hm.mem_admitting he howner).mp ht) howner
  · exact (hm.mem_admitting he rfl).mpr (h.submitting hpoint)
  · exact h.drains t (hm.mem_dropped he ht)
  · exact h.drained hpoint t (hm.mem_queued he howner ht) howner
  · -- a task of the fan-out is one of its jobs
    obtain ⟨j, -, -, rfl⟩ := h.own t ((hown t howner).mp (haccounts.mem_submitted ht)) howner
    exact h.quiet hpoint _ (mem_pending_of_moved h hm haccounts he rfl rfl ht) rfl
  · rcases hready with ⟨v, hv⟩ | hcompleted
    · exact Nat.lt_of_lt_of_le (h.wakes hpoint (Or.inl ⟨v, hv⟩)) (Nat.le_add_right _ _)
    · by_cases hbefore : st.Settled owner st.reaped
      · exact Nat.lt_of_lt_of_le (h.wakes hpoint (Or.inr hbefore)) (Nat.le_add_right _ _)
      · show st.drainedGen < st.settleGen + e.settles
        rw [settles_of_completed hm hbefore hcompleted]
        exact Nat.lt_succ_of_le h.drainedGen_le

/-! ### The thread -/

theorem Inv.length (h : st.Inv P owner f s) : st.slots.length = st.dispatched := by
  have hend := h.slots st.dispatched
  rw [if_neg (Nat.lt_irrefl _)] at hend
  refine Nat.le_antisymm (List.getElem?_eq_none_iff.mp hend) (Nat.le_of_not_lt fun hlt => ?_)
  have hnext := h.slots st.slots.length
  rw [if_pos hlt, List.getElem?_eq_none (Nat.le_refl _)] at hnext
  cases hnext

theorem Inv.slots_append (h : st.Inv P owner f s) (j : ℕ) :
    (st.slots ++ [P.staged f st.dispatched])[j]? =
      if j < st.dispatched + 1 then some (P.staged f j) else none := by
  rcases Nat.lt_trichotomy j st.dispatched with hlt | rfl | hgt
  · rw [List.getElem?_append_left (h.length ▸ hlt), h.slots, if_pos hlt, if_pos (by omega)]
  · rw [List.getElem?_append_right (Nat.le_of_eq h.length), h.length, Nat.sub_self,
      if_pos (Nat.lt_succ_self _)]
    rfl
  · rw [if_neg (by omega), List.getElem?_eq_none_iff, List.length_append, h.length]
    exact hgt

theorem stagingAt_succ (h : st.Inv P owner f s) {staged : Except V In} {staging : F}
    (hstage : P.stage st.staging st.dispatched = (staged, staging)) :
    staging = P.stagingAt f (st.dispatched + 1) ∧ staged = P.staged f st.dispatched := by
  rw [h.staging] at hstage
  exact ⟨(congrArg Prod.snd hstage).symm, (congrArg Prod.fst hstage).symm⟩

/-- A thread that fills has nothing under way. -/
theorem Inv.not_admitting (h : st.Inv P owner f s) (hpoint : st.point ≠ .submitting) :
    ∀ t ∈ st.pool.admitting, t.owner ≠ owner := fun t ht howner =>
  hpoint (h.admitting t ht howner).1

/-- A thread that goes on to fill keeps the invariant. -/
theorem Inv.fill {gen : ℕ} (h : st.Inv P owner f s)
    (hpoint : st.point = .entering ∨ st.point = .inlining ∨ st.point = .parked)
    (hgen : gen ≤ st.settleGen) :
    ({ st with point := .filling, drainedGen := gen } : FanPool F In V Out S).Inv P owner f s := by
  obtain ⟨goOn, hsinkAt, hok⟩ := h.sink
  obtain ⟨rfl, hsubmitting, hdraining, hreturned⟩ : goOn = true ∧ st.point ≠ .submitting ∧
      st.point ≠ .draining ∧ st.point ≠ .returned := by
    rw [PointOk] at hok
    rcases hpoint with heq | heq | heq <;> rw [heq] at hok ⊢ <;> exact ⟨hok, nofun, nofun, nofun⟩
  exact ⟨h.accounts, h.crew, h.reaped_le, h.dispatched_le, h.slots, h.staging,
    ⟨true, hsinkAt, rfl⟩, h.settled, h.own, h.once, h.handed,
    fun t ht howner => absurd howner (h.not_admitting hsubmitting t ht), nofun,
    fun t ht => (h.drains t ht).elim (absurd · hdraining) (absurd · hreturned), nofun, nofun,
    nofun, hgen, nofun⟩

theorem Inv.stage (h : st.Inv P owner f s) (hpoint : st.point = .filling) (hroom : HasRoom P st) :
    (stageNext P owner st).Inv P owner f s := by
  obtain ⟨goOn, hsinkAt, hok⟩ := h.sink
  rw [PointOk, hpoint] at hok
  obtain rfl : goOn = true := hok
  have hnone := h.not_admitting (hpoint ▸ nofun)
  have hundrained : ∀ t, (t, some owner) ∉ st.pool.dropped := fun t ht => by
    rcases h.drains t ht with heq | heq <;> rw [hpoint] at heq <;> cases heq
  unfold stageNext
  split
  case h_1 v staging hstage =>
    obtain ⟨rfl, hstaged⟩ := stagingAt_succ h hstage
    have hslots := h.slots_append
    rw [← hstaged] at hslots
    refine ⟨h.accounts, h.crew, Nat.le_succ_of_le h.reaped_le, hroom.1, hslots, rfl,
      ⟨true, hsinkAt, by rw [PointOk, hpoint]⟩, h.settled, fun t ht howner => ?_, h.once,
      fun hstop j hj hok => ?_, fun t ht howner => absurd howner (hnone t ht),
      fun heq => absurd (hpoint.symm.trans heq) nofun, fun t ht => absurd ht (hundrained t),
      fun heq => absurd (hpoint.symm.trans heq) nofun,
      fun heq => absurd (hpoint.symm.trans heq) nofun,
      fun heq => absurd (hpoint.symm.trans heq) nofun, h.drainedGen_le,
      fun heq => absurd (hpoint.symm.trans heq) nofun⟩
    · obtain ⟨j, hj, hok, heq⟩ := h.own t ht howner
      exact ⟨j, Nat.lt_succ_of_lt hj, hok, heq⟩
    · rcases Nat.lt_succ_iff_lt_or_eq.mp hj with hj | rfl
      · exact h.handed hstop j hj hok
      · rw [← hstaged] at hok
        cases hok
  case h_2 input staging hstage =>
    obtain ⟨rfl, hstaged⟩ := stagingAt_succ h hstage
    have hslots := h.slots_append
    rw [← hstaged] at hslots
    have hs : st.pool.step (fun _ => false) (.submit (fanJob owner st.dispatched)) =
        some (st.pool.admitTask (fanJob owner st.dispatched)) := rfl
    have hm := WorkerPool.moved_of_step hs
    by_cases hstop : st.pool.stop = true
    · -- the pool refuses
      have hsame : st.pool.admitTask (fanJob owner st.dispatched) = st.pool := if_pos hstop
      rw [hsame, if_pos hstop]
      refine ⟨h.accounts, h.crew, Nat.le_succ_of_le h.reaped_le, hroom.1, hslots, rfl,
        ⟨true, hsinkAt, rfl⟩, h.settled, fun t ht howner => ?_, h.once,
        fun hrunning => absurd (hstop.symm.trans hrunning) Bool.noConfusion,
        fun t ht howner => absurd howner (hnone t ht), nofun,
        fun t ht => absurd ht (hundrained t), nofun, nofun, nofun, h.drainedGen_le, nofun⟩
      obtain ⟨j, hj, hok, heq⟩ := h.own t ht howner
      exact ⟨j, Nat.lt_succ_of_lt hj, hok, heq⟩
    · have hadmitted : st.pool.admitTask (fanJob owner st.dispatched) =
          WorkerPool.claimOutstanding owner { st.pool with
            submitted := st.pool.submitted ++ [fanJob owner st.dispatched]
            admitting := st.pool.admitting ++ [fanJob owner st.dispatched] } := if_neg hstop
      have hfresh : fanJob owner st.dispatched ∉ st.pool.submitted := fun hmem => by
        obtain ⟨j, hj, -, heq⟩ := h.own _ hmem rfl
        exact absurd (congrArg PoolTask.id heq) (Nat.ne_of_gt hj)
      have hcrew := h.crew.moved hm
      have haccounts := h.accounts.step hs
      rw [if_neg hstop]
      rw [hadmitted] at hcrew haccounts ⊢
      refine ⟨haccounts, hcrew, Nat.le_succ_of_le h.reaped_le, hroom.1, hslots, rfl,
        ⟨true, hsinkAt, rfl⟩, h.settled, fun t ht howner => ?_, fun j => ?_,
        fun _ j hj hok => ?_, fun t ht howner => ⟨rfl, ?_⟩,
        fun _ => List.mem_append_right _ (List.mem_singleton_self _),
        fun t ht => absurd ht (hundrained t), nofun, nofun, nofun, h.drainedGen_le, nofun⟩
      · rcases List.mem_append.mp ht with ht | ht
        · obtain ⟨j, hj, hok, heq⟩ := h.own t ht howner
          exact ⟨j, Nat.lt_succ_of_lt hj, hok, heq⟩
        · exact ⟨st.dispatched, Nat.lt_succ_self _, hstaged ▸ rfl, List.mem_singleton.mp ht⟩
      · show (st.pool.submitted ++ [fanJob owner st.dispatched]).count (fanJob owner j) ≤ 1
        rw [List.count_append]
        by_cases heq : fanJob owner j = fanJob owner st.dispatched
        · refine Nat.le_of_eq ?_
          rw [heq, List.count_eq_zero_of_not_mem hfresh, List.count_singleton_self]
        · rw [List.count_eq_zero_of_not_mem fun hmem => heq (List.mem_singleton.mp hmem)]
          exact h.once j
      · rcases Nat.lt_succ_iff_lt_or_eq.mp hj with hj | rfl
        · exact List.mem_append_left _ (h.handed (Bool.eq_false_iff.mpr hstop) j hj hok)
        · exact List.mem_append_right _ (List.mem_singleton_self _)
      · rcases List.mem_append.mp ht with ht | ht
        · exact absurd howner (hnone t ht)
        · exact List.mem_singleton.mp ht

theorem count_fanJob_admitting (h : st.Inv P owner f s) (j : ℕ) :
    st.pool.admitting.count (fanJob owner j) ≤ 1 := by
  have honce := h.accounts.once (content_fanJob owner j)
  have hsubmitted := h.once j
  have hpending : st.pool.admitting.count (fanJob owner j) ≤
      st.pool.pending.count (fanJob owner j) := by
    rw [WorkerPool.pending, List.count_append, List.count_append]
    omega
  omega

theorem Inv.pass {k : ℕ} {pool : WorkerPool} (h : st.Inv P owner f s)
    (hpoint : st.point = .submitting)
    (hk : st.pool.admitting[k]? = some (fanJob owner (st.dispatched - 1)))
    (hs : st.pool.step serialize (.enqueue k) = some pool) :
    ({ st with
      pool := pool
      point := if pool.workerCount = 0 then .inlining else .filling } :
        FanPool F In V Out S).Inv P owner f s := by
  obtain ⟨goOn, hsinkAt, hok⟩ := h.sink
  rw [PointOk, hpoint] at hok
  obtain rfl : goOn = true := hok
  have hm := WorkerPool.moved_of_step hs
  -- the submit under way leaves none
  have hadmitting : pool.admitting = st.pool.admitting.eraseIdx k ∧
      pool.submitted = st.pool.submitted ∧ pool.completed = st.pool.completed ∧
      pool.dropped = st.pool.dropped ∧ pool.stop = st.pool.stop := by
    cases hm <;> exact ⟨rfl, rfl, rfl, rfl, rfl⟩
  obtain ⟨hadmitting, hsubmitted, hcompleted, hdropped, hstop⟩ := hadmitting
  have hnone : ∀ t ∈ pool.admitting, t.owner ≠ owner := fun t ht howner => by
    rw [hadmitting] at ht
    obtain ⟨-, rfl⟩ := h.admitting t (List.mem_of_mem_eraseIdx ht) howner
    have hcount := List.tally_eraseIdx hk fun x =>
      if x = fanJob owner (st.dispatched - 1) then 1 else 0
    rw [if_pos rfl, List.tally_ite_eq_count, List.tally_ite_eq_count] at hcount
    have hone := count_fanJob_admitting h (st.dispatched - 1)
    have hpos := List.count_pos_iff.mpr ht
    omega
  have hnew : ∀ b : Bool, PointOk P { st with
      pool := pool
      point := if pool.workerCount = 0 then .inlining else .filling } true := fun _ => by
    unfold PointOk
    by_cases hw : pool.workerCount = 0
    · rw [if_pos hw]
    · rw [if_neg hw]
  have hpoints : ∀ point : FanPoint, point ≠ .inlining → point ≠ .filling →
      (if pool.workerCount = 0 then FanPoint.inlining else .filling) ≠ point :=
    fun point hinlining hfilling heq => by
      split at heq
      · exact hinlining heq.symm
      · exact hfilling heq.symm
  refine ⟨h.accounts.step hs, h.crew.moved hm, h.reaped_le, h.dispatched_le, h.slots, h.staging,
    ⟨true, hsinkAt, hnew true⟩, fun j hj hok => (h.settled j hj hok).moved hm, fun t ht => ?_,
    fun j => ?_, fun hrunning j hj hok => ?_, fun t ht howner => absurd howner (hnone t ht),
    fun heq => absurd heq (hpoints _ (by simp) (by simp)), fun t ht => ?_,
    fun heq => absurd heq (hpoints _ (by simp) (by simp)), fun heq => absurd heq (hpoints _ (by simp) (by simp)),
    fun heq => absurd heq (hpoints _ (by simp) (by simp)), h.drainedGen_le,
    fun heq => absurd heq (hpoints _ (by simp) (by simp))⟩
  · exact h.own t (hsubmitted ▸ ht)
  · show pool.submitted.count _ ≤ 1
    rw [hsubmitted]
    exact h.once j
  · show _ ∈ pool.submitted
    rw [hsubmitted]
    exact h.handed (hstop ▸ hrunning) j hj hok
  · have ht : (t, some owner) ∈ pool.dropped := ht
    rw [hdropped] at ht
    rcases h.drains t ht with heq | heq <;> rw [hpoint] at heq <;> cases heq

theorem Inv.reap {result : Except V Out} (h : st.Inv P owner f s) (hpoint : st.point = .filling)
    (hlt : st.reaped < st.dispatched) (hresult : result = (P.staged f st.reaped).map P.work)
    (hsettled : (P.staged f st.reaped).isOk = true → st.Settled owner st.reaped) :
    (reapNext P result st).Inv P owner f s := by
  obtain ⟨goOn, hsinkAt, hok⟩ := h.sink
  rw [PointOk, hpoint] at hok
  obtain rfl : goOn = true := hok
  have hnone := h.not_admitting (by simp [hpoint])
  have hnext : P.sinkAt f s (st.reaped + 1) = P.reap st.sink st.reaped result := by
    rw [FanOut.sinkAt, hsinkAt, hresult]
  unfold reapNext
  cases hreap : P.reap st.sink st.reaped result with
  | mk sink goOn =>
    have hpoints : ∀ point : FanPoint, point ≠ .filling → point ≠ .aborted →
        (if goOn = true then FanPoint.filling else .aborted) ≠ point :=
      fun point hfilling haborted heq => by
        split at heq
        · exact hfilling heq.symm
        · exact haborted heq.symm
    have hnew : PointOk P { st with
        point := if goOn then .filling else .aborted
        reaped := st.reaped + 1
        sink := sink } goOn := by
      cases goOn <;> rfl
    refine ⟨h.accounts, h.crew, hlt, h.dispatched_le, h.slots, h.staging,
      ⟨goOn, hnext.trans hreap, hnew⟩, fun j hj hok => ?_, h.own, h.once, h.handed,
      fun t ht howner => absurd howner (hnone t ht),
      fun heq => absurd heq (hpoints _ (by simp) (by simp)), fun t ht => ?_,
      fun heq => absurd heq (hpoints _ (by simp) (by simp)),
      fun heq => absurd heq (hpoints _ (by simp) (by simp)),
      fun heq => absurd heq (hpoints _ (by simp) (by simp)), h.drainedGen_le,
      fun heq => absurd heq (hpoints _ (by simp) (by simp))⟩
    · rcases Nat.lt_succ_iff_lt_or_eq.mp hj with hj | rfl
      · exact h.settled j hj hok
      · exact hsettled hok
    · rcases h.drains t ht with heq | heq <;> rw [hpoint] at heq <;> cases heq

theorem Inv.slot_eq {staged : Except V In} (h : st.Inv P owner f s)
    (hslot : st.slots[st.reaped]? = some staged) :
    st.reaped < st.dispatched ∧ staged = P.staged f st.reaped := by
  rw [h.slots] at hslot
  split at hslot
  case isTrue hlt => exact ⟨hlt, (Option.some.inj hslot).symm⟩
  case isFalse => cases hslot

theorem Inv.look (h : st.Inv P owner f s) (hpoint : st.point = .filling)
    (hs : lookNext P owner st = some st') : st'.Inv P owner f s := by
  obtain ⟨goOn, hsinkAt, hok⟩ := h.sink
  rw [PointOk, hpoint] at hok
  obtain rfl : goOn = true := hok
  have hnone := h.not_admitting (hpoint ▸ nofun)
  unfold lookNext at hs
  split at hs
  case h_1 => cases hs
  case h_2 v hslot =>
    obtain rfl := Option.some.inj hs
    obtain ⟨hlt, heq⟩ := h.slot_eq hslot
    refine h.reap hpoint hlt (by rw [← heq]; rfl) fun hok => ?_
    rw [← heq] at hok
    cases hok
  case h_3 input hslot =>
    obtain ⟨hlt, heq⟩ := h.slot_eq hslot
    split at hs
    case isTrue hsettled =>
      obtain rfl := Option.some.inj hs
      exact h.reap hpoint hlt (by rw [← heq]; rfl) fun _ => hsettled
    case isFalse hsettled =>
      obtain rfl := Option.some.inj hs
      refine ⟨h.accounts, h.crew, h.reaped_le, h.dispatched_le, h.slots, h.staging,
        ⟨true, hsinkAt, rfl⟩, h.settled, h.own, h.once, h.handed,
        fun t ht howner => absurd howner (hnone t ht), nofun, fun t ht => ?_, nofun, nofun,
        fun _ => hlt, h.drainedGen_le, fun _ hready => ?_⟩
      · rcases h.drains t ht with heq | heq <;> rw [hpoint] at heq <;> cases heq
      · rcases hready with ⟨v, hv⟩ | hready
        · have hv : st.slots[st.reaped]? = some (.error v) := hv
          rw [hslot] at hv
          cases hv
        · exact absurd hready hsettled

theorem Inv.drain (h : st.Inv P owner f s) (hpoint : st.point = .aborted) :
    ({ st with pool := st.pool.drainOwner owner, point := .draining } :
      FanPool F In V Out S).Inv P owner f s := by
  obtain ⟨goOn, hsinkAt, hok⟩ := h.sink
  rw [PointOk, hpoint] at hok
  obtain rfl : goOn = false := hok
  have hnone := h.not_admitting (hpoint ▸ nofun)
  have hs : st.pool.step (fun _ => false) (.drain owner) = some (st.pool.drainOwner owner) := rfl
  have hcrew := h.crew.moved (WorkerPool.moved_of_step hs)
  have haccounts := h.accounts.step hs
  obtain ⟨active, outstanding, ready, workReady, parked, drops, heq, hperm, rfl, -⟩ :=
    st.pool.drainOwner_frame owner
  rw [heq] at hcrew haccounts ⊢
  refine ⟨haccounts, hcrew, h.reaped_le, h.dispatched_le, h.slots, h.staging,
    ⟨false, hsinkAt, rfl⟩, h.settled, h.own, h.once, h.handed,
    fun t ht howner => absurd howner (hnone t ht), nofun, fun _ _ => Or.inl rfl,
    fun _ t ht howner => ?_, nofun, nofun, h.drainedGen_le, nofun⟩
  have hkept : ∀ {l : List PoolTask}, t ∉ l.filter fun t => !decide (t.owner = owner) :=
    fun ht => by
      have hne := (List.mem_filter.mp ht).2
      rw [decide_eq_true howner] at hne
      cases hne
  rcases List.mem_append.mp ht with ht | ht
  · rcases List.mem_append.mp ht with ht | ht
    · exact hkept (hperm.mem_iff.mp (List.mem_append_left _ ht))
    · exact hkept ht
  · exact hkept (hperm.mem_iff.mp (List.mem_append_right _ ht))

/-- When all items are taken back, no job is left. -/
theorem Inv.quiet_of_reaped (h : st.Inv P owner f s) (hreaped : st.reaped = P.count) :
    ∀ t ∈ st.pool.pending, t.owner ≠ owner := by
  intro t ht howner
  obtain ⟨j, hj, hok, rfl⟩ := h.own t (h.accounts.mem_submitted ht) howner
  have honce := h.accounts.once (content_fanJob owner j)
  have hsubmitted := h.once j
  have hpos := List.count_pos_iff.mpr ht
  have hcompleted : st.pool.completed.count (fanJob owner j) = 0 := by omega
  have hdispatched := h.dispatched_le
  exact List.count_eq_zero.mp hcompleted (h.settled j (by omega) hok)

theorem Inv.leave (h : st.Inv P owner f s)
    (hleave : st.point = .filling ∧ st.reaped = P.count ∨
      st.point = .draining ∧ st.pool.outstanding owner = 0) :
    ({ st with point := .returned } : FanPool F In V Out S).Inv P owner f s := by
  obtain ⟨goOn, hsinkAt, hok⟩ := h.sink
  have hpoint : st.point ≠ .submitting := by
    rcases hleave with ⟨heq, -⟩ | ⟨heq, -⟩ <;> rw [heq] <;> exact nofun
  refine ⟨h.accounts, h.crew, h.reaped_le, h.dispatched_le, h.slots, h.staging,
    ⟨goOn, hsinkAt, fun hgoOn => ?_⟩, h.settled, h.own, h.once, h.handed,
    fun t ht howner => absurd howner (h.not_admitting hpoint t ht), nofun,
    fun _ _ => Or.inr rfl, nofun, fun _ t ht => ?_, nofun, h.drainedGen_le, nofun⟩
  · rcases hleave with ⟨-, hreaped⟩ | ⟨heq, -⟩
    · exact hreaped
    · rw [PointOk, heq] at hok
      rw [hgoOn] at hok
      cases hok
  · rcases hleave with ⟨-, hreaped⟩ | ⟨-, hnone⟩
    · exact h.quiet_of_reaped hreaped t ht
    · -- what is pending is unfinished
      refine h.accounts.quiet hnone t ?_
      rcases List.mem_append.mp ht with ht | ht
      · exact List.mem_append_left _ ht
      · refine List.mem_append_right _ ?_
        obtain ⟨th, hth, heq⟩ := List.mem_filterMap.mp ht
        refine List.mem_filterMap.mpr ⟨th, hth, ?_⟩
        cases th <;> first | exact heq | cases heq

/-- Every step keeps the invariant. -/
theorem Inv.step {e : FanPoolEvent} (h : st.Inv P owner f s)
    (hs : FanPool.step P serialize owner e st = some st') : st'.Inv P owner f s := by
  cases e with
  | enter =>
    obtain ⟨hpoint, ⟨⟩⟩ := Option.ite_none_right_eq_some.mp hs
    exact h.fill (Or.inl hpoint) (Nat.le_refl _)
  | stage =>
    obtain ⟨hpoint, ⟨⟩⟩ := Option.ite_none_right_eq_some.mp hs
    exact h.stage hpoint.1 hpoint.2
  | pass k =>
    obtain ⟨hpoint, hs⟩ := Option.ite_none_right_eq_some.mp hs
    obtain ⟨pool, hpool, rfl⟩ := Option.map_eq_some_iff.mp hs
    exact h.pass hpoint.1 hpoint.2 hpool
  | back =>
    obtain ⟨hpoint, ⟨⟩⟩ := Option.ite_none_right_eq_some.mp hs
    exact h.fill (Or.inr (Or.inl hpoint.1)) h.drainedGen_le
  | look =>
    obtain ⟨hpoint, hs⟩ := Option.ite_none_right_eq_some.mp hs
    exact h.look hpoint.1 hs
  | wake =>
    obtain ⟨hpoint, ⟨⟩⟩ := Option.ite_none_right_eq_some.mp hs
    exact h.fill (Or.inr (Or.inr hpoint.1)) (Nat.le_refl _)
  | drain =>
    obtain ⟨hpoint, ⟨⟩⟩ := Option.ite_none_right_eq_some.mp hs
    exact h.drain hpoint
  | leave =>
    obtain ⟨hpoint, ⟨⟩⟩ := Option.ite_none_right_eq_some.mp hs
    exact h.leave hpoint
  | pool e =>
    obtain ⟨he, hs⟩ := Option.ite_none_right_eq_some.mp hs
    obtain ⟨pool, hpool, rfl⟩ := Option.map_eq_some_iff.mp hs
    exact h.others he hpool
  | poke =>
    obtain rfl := Option.some.inj hs
    exact ⟨h.accounts, h.crew, h.reaped_le, h.dispatched_le, h.slots, h.staging, h.sink, h.settled,
      h.own, h.once, h.handed, h.admitting, h.submitting, h.drains, h.drained, h.quiet, h.parked,
      Nat.le_succ_of_le h.drainedGen_le,
      fun hpoint hready => Nat.lt_succ_of_lt (h.wakes hpoint hready)⟩

theorem inv_of_reachable {workerCount : ℕ} {allowed : FanPoolEvent → FanPool F In V Out S → Prop}
    (h : (machine P serialize owner workerCount f s).Reachable allowed st) :
    st.Inv P owner f s := by
  refine h.invariant ?_ fun st e st' hinv _ hs => hinv.step hs
  rintro _ rfl
  exact inv_start workerCount

/-! ## What a stop cannot lose -/

/-- A step leaves the pool alone, or it is an event of the pool; only a stop stops it. -/
theorem pool_moved {e : FanPoolEvent} (hs : FanPool.step P serialize owner e st = some st') :
    (st'.pool = st.pool ∨ ∃ e', st.pool.Moved e' st'.pool) ∧
      (st'.pool.stop = true → st.pool.stop = true ∨ e = .pool .requestStop) := by
  have hpool : ∀ {e' : PoolEvent} {pool : WorkerPool}, st.pool.Moved e' pool →
      e' ≠ .requestStop → pool.stop = true → st.pool.stop = true ∨ e = .pool .requestStop :=
    fun hm hne hstop => Or.inl ((hm.stop_eq hne).symm.trans hstop)
  cases e with
  | enter | back | wake | leave =>
    obtain ⟨-, ⟨⟩⟩ := Option.ite_none_right_eq_some.mp hs
    exact ⟨Or.inl rfl, Or.inl⟩
  | stage =>
    obtain ⟨-, ⟨⟩⟩ := Option.ite_none_right_eq_some.mp hs
    unfold stageNext
    split
    case h_1 => exact ⟨Or.inl rfl, Or.inl⟩
    case h_2 =>
      have hm := WorkerPool.moved_of_step (show st.pool.step (fun _ => false)
        (.submit (fanJob owner st.dispatched)) = some _ from rfl)
      exact ⟨Or.inr ⟨_, hm⟩, hpool hm nofun⟩
  | pass k =>
    obtain ⟨-, hs⟩ := Option.ite_none_right_eq_some.mp hs
    obtain ⟨pool, hstep, rfl⟩ := Option.map_eq_some_iff.mp hs
    have hm := WorkerPool.moved_of_step hstep
    exact ⟨Or.inr ⟨_, hm⟩, hpool hm nofun⟩
  | look =>
    obtain ⟨-, hs⟩ := Option.ite_none_right_eq_some.mp hs
    have hsame : st'.pool = st.pool := by
      unfold lookNext at hs
      split at hs
      case h_1 => cases hs
      case h_2 =>
        obtain rfl := Option.some.inj hs
        rfl
      case h_3 =>
        split at hs <;> obtain rfl := Option.some.inj hs <;> rfl
    rw [hsame]
    exact ⟨Or.inl rfl, Or.inl⟩
  | drain =>
    obtain ⟨-, ⟨⟩⟩ := Option.ite_none_right_eq_some.mp hs
    have hm := WorkerPool.moved_of_step (show st.pool.step (fun _ => false)
      (.drain owner) = some _ from rfl)
    exact ⟨Or.inr ⟨_, hm⟩, hpool hm nofun⟩
  | pool e =>
    obtain ⟨-, hs⟩ := Option.ite_none_right_eq_some.mp hs
    obtain ⟨pool, hstep, rfl⟩ := Option.map_eq_some_iff.mp hs
    have hm := WorkerPool.moved_of_step hstep
    refine ⟨Or.inr ⟨_, hm⟩, fun hstop => ?_⟩
    by_cases he : e = .requestStop
    · exact Or.inr (by rw [he])
    · exact hpool hm he hstop
  | poke =>
    obtain rfl := Option.some.inj hs
    exact ⟨Or.inl rfl, Or.inl⟩

/-- What a stop cannot lose stays so. -/
theorem Taken.step {e : FanPoolEvent} (h : st.Taken P owner f j)
    (hs : FanPool.step P serialize owner e st = some st') : st'.Taken P owner f j := by
  rcases (pool_moved hs).1 with hsame | ⟨e', hm⟩
  · unfold Taken Settled at h ⊢
    rwa [hsame]
  · rcases h with hnone | hheld | hsettled | ⟨hw, hadmitting⟩
    · exact Or.inl hnone
    · exact Or.inr ((hm.mem_held rfl hheld).imp_right Or.inl)
    · exact Or.inr (Or.inr (Or.inl (hsettled.moved hm)))
    · rcases hm.inlined_of_mem_admitting hw rfl hadmitting with hadmitting | hheld
      · exact Or.inr (Or.inr (Or.inr ⟨hm.workerCount_eq.trans hw, hadmitting⟩))
      · exact Or.inr (Or.inl hheld)

/-- What a stop loses stays lost. -/
theorem taken_of_step {e : FanPoolEvent} (hinv : st.Inv P owner f s) (hstop : st.pool.stop = true)
    (hs : FanPool.step P serialize owner e st = some st') (h : st'.Taken P owner f j) :
    st.Taken P owner f j := by
  rcases (pool_moved hs).1 with hsame | ⟨e', hm⟩
  · unfold Taken Settled at h ⊢
    rwa [← hsame]
  · have hheld : fanJob owner j ∈ st'.pool.held PoolThread.unreturned? →
        st.Taken P owner f j := fun hheld => by
      rcases hm.held_of_stop hinv.crew hstop rfl hheld with hheld | hadmitting
      · exact Or.inr (Or.inl hheld)
      · exact Or.inr (Or.inr (Or.inr hadmitting))
    rcases h with hnone | h | hsettled | ⟨hw, hadmitting⟩
    · exact Or.inl hnone
    · exact hheld h
    · rcases hm.completed_iff hsettled with hsettled | h
      · exact Or.inr (Or.inr (Or.inl hsettled))
      · exact Or.inr (Or.inl h)
    · exact Or.inr (Or.inr (Or.inr
        ⟨hm.workerCount_eq.symm.trans hw, hm.admitting_of_stop hstop hadmitting⟩))

theorem takesBack_le {k : ℕ} (h : TakesBack P f s j) (hk : k ≤ j) :
    (P.sinkAt f s k).2 = true := by
  by_contra hfalse
  have hstopped := FanOut.sinkAt_of_stopped (Bool.eq_false_iff.mpr hfalse) (j - k)
  rw [Nat.add_sub_cancel' hk] at hstopped
  exact hfalse (hstopped ▸ h.2)

/-- At the end of a fan-out nothing it takes back can be lost. -/
theorem Inv.taken_of_returned (h : st.Inv P owner f s) (hpoint : st.point = .returned)
    (hj : TakesBack P f s j) : st.Taken P owner f j := by
  obtain ⟨goOn, hsinkAt, hok⟩ := h.sink
  rw [PointOk, hpoint] at hok
  have hlt : j < st.reaped := by
    by_contra hle
    have hgoOn := takesBack_le hj (Nat.le_of_not_lt hle)
    rw [hsinkAt] at hgoOn
    have hcount := hok hgoOn
    have hbound := hj.1
    omega
  cases hstaged : P.staged f j with
  | error v => exact Or.inl ⟨v, hstaged⟩
  | ok input => exact Or.inr (Or.inr (Or.inl (h.settled j hlt (by rw [hstaged]; rfl))))

/-! ## Before its end a thread can go on -/

theorem ofOthers_of_ofThread {e : PoolEvent} {p : WorkerPool} (he : e.ofThread = true)
    (hne : ∀ k, e ≠ .enqueue k) : e.ofOthers owner p = true := by
  cases e <;> first | rfl | exact absurd rfl (hne _) | cases he

/-- A thread of the pool goes on. -/
theorem goes_on_of_pool (h : ∃ e : PoolEvent, e.ofThread = true ∧
    (st.pool.step serialize e).isSome ∧ ∀ k, e ≠ .enqueue k) :
    ∃ e, st.GoesOn owner e ∧ (FanPool.step P serialize owner e st).isSome := by
  obtain ⟨e, he, hsome, hne⟩ := h
  refine ⟨.pool e, he, ?_⟩
  rw [FanPool.step, if_pos (ofOthers_of_ofThread he hne), Option.isSome_map]
  exact hsome

theorem goes_on_of_held {g : PoolThread → Option PoolTask} {t : PoolTask}
    (hg : ∀ th t, g th = some t → th.holding? = some t) (ht : t ∈ st.pool.held g) :
    ∃ e, st.GoesOn owner e ∧ (FanPool.step P serialize owner e st).isSome := by
  obtain ⟨th, hth, heq⟩ := List.mem_filterMap.mp ht
  obtain ⟨i, hi⟩ := List.mem_iff_getElem?.mp hth
  exact goes_on_of_pool (WorkerPool.thread_goes_on serialize hi (hg th t heq))

theorem holding_of_unreturned (th : PoolThread) (t : PoolTask) (h : th.unreturned? = some t) :
    th.holding? = some t := by
  cases th <;> first | exact h | cases h

theorem holding_of_outstanding (th : PoolThread) (t : PoolTask) (h : th.outstanding? = some t) :
    th.holding? = some t := by
  cases th <;> first | exact h | cases h

/-- While the next item is not ready, a thread of the pool can go on. -/
theorem Inv.awaited_goes_on (h : st.Inv P owner f s) (hlt : st.reaped < st.dispatched)
    (hpoint : st.point = .filling ∨ st.point = .parked) (hready : ¬ st.Ready owner)
    (hsafe : st.pool.stop = true → st.Taken P owner f st.reaped) :
    ∃ e, st.GoesOn owner e ∧ (FanPool.step P serialize owner e st).isSome := by
  have hslot := h.slots st.reaped
  rw [if_pos hlt] at hslot
  have hstaged : ∀ v, P.staged f st.reaped ≠ .error v := fun v heq =>
    hready (Or.inl ⟨v, by rw [hslot, heq]⟩)
  have hsubmitting : st.point ≠ .submitting := by
    rcases hpoint with heq | heq <;> rw [heq] <;> exact nofun
  by_cases hstop : st.pool.stop = true
  · rcases hsafe hstop with ⟨v, hv⟩ | hheld | hsettled | ⟨-, hadmitting⟩
    · exact absurd hv (hstaged v)
    · exact goes_on_of_held holding_of_unreturned hheld
    · exact absurd (Or.inr hsettled) hready
    · exact absurd rfl (h.not_admitting hsubmitting _ hadmitting)
  · have hok : (P.staged f st.reaped).isOk = true := by
      cases heq : P.staged f st.reaped with
      | error v => exact absurd heq (hstaged v)
      | ok input => rfl
    have hsubmitted := h.handed (Bool.eq_false_iff.mpr hstop) st.reaped hlt hok
    have honce := h.accounts.once (content_fanJob owner st.reaped)
    have hpos := List.count_pos_iff.mpr hsubmitted
    have hcompleted : st.pool.completed.count (fanJob owner st.reaped) = 0 :=
      List.count_eq_zero_of_not_mem fun hmem => hready (Or.inr hmem)
    have hdropped : (st.pool.dropped.map Prod.fst).count (fanJob owner st.reaped) = 0 := by
      refine List.count_eq_zero_of_not_mem fun hmem => ?_
      obtain ⟨⟨t, cause⟩, hmem, rfl⟩ := List.mem_map.mp hmem
      cases cause with
      | none => exact hstop (h.crew.stop_of_dropped _ hmem)
      | some o =>
        obtain rfl : owner = o := h.accounts.own_drops hmem
        rcases h.drains _ hmem with heq | heq <;> rcases hpoint with hpoint | hpoint <;>
          rw [hpoint] at heq <;> cases heq
    have hpending : fanJob owner st.reaped ∈ st.pool.pending :=
      List.count_pos_iff.mp (by omega)
    rcases List.mem_append.mp hpending with hpending | hheld
    · rcases List.mem_append.mp hpending with hadmitting | hqueued
      · exact absurd rfl (h.not_admitting hsubmitting _ hadmitting)
      · -- a job is in the lane of jobs
        refine goes_on_of_pool (h.crew.worker_goes_on serialize (Bool.eq_false_iff.mpr hstop)
          (t := fanJob owner st.reaped) ?_)
        rcases List.mem_append.mp hqueued with hqueued | hparked
        · rcases List.mem_append.mp hqueued with hqueued | hqueued
          · exact absurd rfl (h.crew.renders _ (List.mem_append_left _ hqueued))
          · exact hqueued
        · exact absurd rfl (h.crew.renders _ (List.mem_append_right _ hparked))
    · exact goes_on_of_held holding_of_unreturned hheld

/-- Before the end a thread can go on, unless a stop has lost an item. -/
theorem Inv.goes_on (h : st.Inv P owner f s) (hpoint : st.point ≠ .returned)
    (hsafe : st.pool.stop = true → ∀ j, TakesBack P f s j → st.Taken P owner f j) :
    ∃ e, st.GoesOn owner e ∧ (FanPool.step P serialize owner e st).isSome := by
  obtain ⟨goOn, hsinkAt, hok⟩ := h.sink
  cases heq : st.point with
  | entering => exact ⟨.enter, trivial, by rw [FanPool.step, if_pos heq]; rfl⟩
  | filling =>
    rw [PointOk, heq] at hok
    obtain rfl : goOn = true := hok
    by_cases hroom : HasRoom P st
    · exact ⟨.stage, trivial, by rw [FanPool.step, if_pos ⟨heq, hroom⟩]; rfl⟩
    by_cases hcount : st.reaped = P.count
    · exact ⟨.leave, trivial, by rw [FanPool.step, if_pos (Or.inl ⟨heq, hcount⟩)]; rfl⟩
    have hle := h.reaped_le
    have hdispatched := h.dispatched_le
    have hlt : st.reaped < st.dispatched := by
      by_contra hnot
      refine hroom ⟨by omega, ?_⟩
      have hwindow := P.window_pos
      omega
    by_cases hready : st.Ready owner
    · refine ⟨.look, hready, ?_⟩
      rw [FanPool.step, if_pos ⟨heq, hroom⟩, lookNext, h.slots, if_pos hlt]
      cases P.staged f st.reaped with
      | error v => rfl
      | ok input =>
        dsimp only
        split <;> rfl
    · refine h.awaited_goes_on hlt (Or.inl heq) hready fun hstop => hsafe hstop _ ⟨?_, ?_⟩
      · omega
      · rw [hsinkAt]
  | submitting =>
    obtain ⟨k, hk⟩ := List.mem_iff_getElem?.mp (h.submitting heq)
    refine ⟨.pass k, trivial, ?_⟩
    rw [FanPool.step, if_pos ⟨heq, hk⟩, Option.isSome_map, WorkerPool.step, Option.isSome_map, hk]
    rfl
  | inlining =>
    by_cases hheld : fanJob owner (st.dispatched - 1) ∈ st.pool.held PoolThread.holding?
    · exact goes_on_of_held (fun _ _ => id) hheld
    · exact ⟨.back, trivial, by rw [FanPool.step, if_pos ⟨heq, hheld⟩]; rfl⟩
  | parked =>
    rw [PointOk, heq] at hok
    obtain rfl : goOn = true := hok
    have hlt := h.parked heq
    have hdispatched := h.dispatched_le
    by_cases hready : st.Ready owner
    · refine ⟨.wake, hready, ?_⟩
      have hgen := h.wakes heq hready
      rw [FanPool.step, if_pos ⟨heq, Or.inr (Nat.ne_of_gt hgen)⟩]
      rfl
    · refine h.awaited_goes_on hlt (Or.inr heq) hready fun hstop => hsafe hstop _ ⟨?_, ?_⟩
      · omega
      · rw [hsinkAt]
  | aborted => exact ⟨.drain, trivial, by rw [FanPool.step, if_pos heq]; rfl⟩
  | draining =>
    by_cases hnone : st.pool.outstanding owner = 0
    · exact ⟨.leave, trivial, by rw [FanPool.step, if_pos (Or.inr ⟨heq, hnone⟩)]; rfl⟩
    · obtain ⟨t, ht, howner⟩ := h.accounts.exists_unfinished hnone
      rcases List.mem_append.mp ht with ht | hheld
      · rcases List.mem_append.mp ht with hadmitting | hqueued
        · exact absurd howner (h.not_admitting (by simp [heq]) t hadmitting)
        · exact absurd howner (h.drained heq t hqueued)
      · exact goes_on_of_held holding_of_outstanding hheld
  | returned => exact absurd heq hpoint

/-! ## What is left to do -/

/-- The steps that the thread has left at a point, with the next item ready or not. -/
def pointLeft (ready : Prop) [Decidable ready] : FanPoint → ℕ
  | .entering => 9
  | .submitting => 8
  | .inlining => 7
  | .parked => 6
  | .filling => if ready then 5 else 6
  | .aborted => 2
  | .draining => 1
  | .returned => 0

/-- The steps that the threads have left. A staged item takes up to six steps of the pool. -/
def left (P : FanOut F In V Out S) (owner : ℕ) (st : FanPool F In V Out S) : ℕ :=
  st.pool.effort + 12 * (P.count - st.dispatched) + 3 * (P.count - st.reaped) +
    pointLeft (st.Ready owner) st.point

theorem pointLeft_filling (ready : Prop) [Decidable ready] :
    5 ≤ pointLeft ready .filling ∧ pointLeft ready .filling ≤ 6 := by
  rw [pointLeft]
  split <;> decide

/-- An item that is ready stays so. -/
theorem pointLeft_le {ready ready' : Prop} [Decidable ready] [Decidable ready']
    (h : ready → ready') (point : FanPoint) : pointLeft ready' point ≤ pointLeft ready point := by
  cases point with
  | filling =>
    rw [pointLeft, pointLeft]
    by_cases hready : ready
    · exact Nat.le_of_eq ((if_pos (h hready)).trans (if_pos hready).symm)
    · rw [if_neg hready]
      split <;> decide
  | _ => exact Nat.le_refl _

/-- A thread of the fan-out that goes on lessens what is left. -/
theorem Inv.left_of_thread {e : FanPoolEvent} (h : st.Inv P owner f s)
    (hs : FanPool.step P serialize owner e st = some st') (he : ∀ e', e ≠ .pool e')
    (hpoke : e ≠ .poke) : st'.left P owner ≤ st.left P owner ∧
      (st.GoesOn owner e → st'.left P owner < st.left P owner) := by
  have hdispatched := h.dispatched_le
  have hreaped := h.reaped_le
  -- a step that lessens what is left, whoever does it
  have hless : st'.left P owner < st.left P owner → st'.left P owner ≤ st.left P owner ∧
      (st.GoesOn owner e → st'.left P owner < st.left P owner) :=
    fun hlt => ⟨Nat.le_of_lt hlt, fun _ => hlt⟩
  cases e with
  | enter =>
    obtain ⟨hpoint, ⟨⟩⟩ := Option.ite_none_right_eq_some.mp hs
    refine hless ?_
    have hafter := pointLeft_filling (({ st with point := .filling, drainedGen := st.settleGen } :
      FanPool F In V Out S).Ready owner)
    rw [left, left, hpoint]
    simp only [pointLeft] at hafter ⊢
    omega
  | stage =>
    obtain ⟨hpoint, ⟨⟩⟩ := Option.ite_none_right_eq_some.mp hs
    obtain ⟨hpoint, hroom, -⟩ := hpoint
    refine hless ?_
    have hbefore := pointLeft_filling (st.Ready owner)
    have heffort := WorkerPool.effort_of_moved (WorkerPool.moved_of_step (show
      st.pool.step (fun _ => false) (.submit (fanJob owner st.dispatched)) = some _ from rfl))
    have hafter : (stageNext P owner st).pool.effort +
        pointLeft ((stageNext P owner st).Ready owner) (stageNext P owner st).point ≤
          st.pool.effort + 6 + 8 ∧
        (stageNext P owner st).dispatched = st.dispatched + 1 ∧
        (stageNext P owner st).reaped = st.reaped := by
      unfold stageNext
      split
      case h_1 v staging hstage =>
        refine ⟨?_, rfl, rfl⟩
        dsimp only
        rw [hpoint]
        refine Nat.le_trans (Nat.add_le_add_left (pointLeft_filling _).2 _) ?_
        omega
      case h_2 input staging hstage =>
        refine ⟨Nat.add_le_add (Nat.le_trans (Nat.le_add_right _ _) heffort) ?_, rfl, rfl⟩
        dsimp only
        split
        case isTrue => exact Nat.le_trans (pointLeft_filling _).2 (by decide)
        case isFalse => exact Nat.le_refl _
    obtain ⟨hafter, hnext, hsame⟩ := hafter
    rw [left, left, hnext, hsame, hpoint]
    omega
  | pass k =>
    obtain ⟨hpoint, hs⟩ := Option.ite_none_right_eq_some.mp hs
    obtain ⟨pool, hstep, rfl⟩ := Option.map_eq_some_iff.mp hs
    refine hless ?_
    have heffort := WorkerPool.effort_of_moved (WorkerPool.moved_of_step hstep)
    have hafter : ∀ ready : Prop, ∀ _ : Decidable ready,
        pointLeft ready (if pool.workerCount = 0 then .inlining else .filling) ≤ 7 :=
      fun ready _ => by
        split
        case isTrue => exact Nat.le_refl _
        case isFalse => exact Nat.le_trans (pointLeft_filling _).2 (by decide)
    have hafter := hafter (({ st with
      pool := pool
      point := if pool.workerCount = 0 then .inlining else .filling } :
      FanPool F In V Out S).Ready owner) inferInstance
    rw [left, left, hpoint.1]
    have heffort : pool.effort + 1 ≤ st.pool.effort := heffort
    dsimp only at hafter ⊢
    rw [pointLeft]
    omega
  | back =>
    obtain ⟨hpoint, ⟨⟩⟩ := Option.ite_none_right_eq_some.mp hs
    refine hless ?_
    have hafter := pointLeft_filling (({ st with point := .filling } :
      FanPool F In V Out S).Ready owner)
    rw [left, left, hpoint.1]
    simp only [pointLeft] at hafter ⊢
    omega
  | look =>
    obtain ⟨hpoint, hs⟩ := Option.ite_none_right_eq_some.mp hs
    have hbefore := pointLeft_filling (st.Ready owner)
    have hreap : ∀ result, st.reaped < st.dispatched → st.Ready owner →
        (reapNext P result st).left P owner < st.left P owner := fun result hlt hready => by
      have hafter : ∀ ready : Prop, ∀ _ : Decidable ready,
          pointLeft ready (reapNext P result st).point ≤ 6 := fun ready _ => by
        show pointLeft ready (if (P.reap st.sink st.reaped result).2 then .filling
          else .aborted) ≤ 6
        split
        case isTrue => exact (pointLeft_filling _).2
        case isFalse => exact Nat.le_of_ble_eq_true rfl
      rw [left, left, hpoint.1]
      refine Nat.lt_of_le_of_lt (Nat.add_le_add_left (hafter _ _) _) ?_
      show st.pool.effort + 12 * (P.count - st.dispatched) +
        3 * (P.count - (st.reaped + 1)) + 6 < _
      omega
    unfold lookNext at hs
    split at hs
    case h_1 => cases hs
    case h_2 v hslot =>
      obtain rfl := Option.some.inj hs
      exact hless (hreap _ (h.slot_eq hslot).1 (Or.inl ⟨v, hslot⟩))
    case h_3 input hslot =>
      split at hs
      case isTrue hsettled =>
        obtain rfl := Option.some.inj hs
        exact hless (hreap _ (h.slot_eq hslot).1 (Or.inr hsettled))
      case isFalse hsettled =>
        obtain rfl := Option.some.inj hs
        have hready : ¬ st.Ready owner := by
          rintro (⟨v, hv⟩ | hready)
          · rw [hslot] at hv
            cases hv
          · exact hsettled hready
        refine ⟨?_, fun hgoes => absurd hgoes hready⟩
        rw [left, left, hpoint.1]
        show _ + 6 ≤ _ + if st.Ready owner then 5 else 6
        exact Nat.le_of_eq (congrArg _ (if_neg hready).symm)
  | wake =>
    obtain ⟨hpoint, ⟨⟩⟩ := Option.ite_none_right_eq_some.mp hs
    have hafter := pointLeft_filling (st.Ready owner)
    refine ⟨?_, fun hready => ?_⟩
    · rw [left, left, hpoint.1]
      exact Nat.add_le_add_left hafter.2 _
    · rw [left, left, hpoint.1]
      show _ + (if st.Ready owner then 5 else 6) < _ + 6
      rw [if_pos (show st.Ready owner from hready)]
      exact Nat.lt_succ_self _
  | drain =>
    obtain ⟨hpoint, ⟨⟩⟩ := Option.ite_none_right_eq_some.mp hs
    refine hless ?_
    have heffort := WorkerPool.effort_of_moved (WorkerPool.moved_of_step (show
      st.pool.step (fun _ => false) (.drain owner) = some _ from rfl))
    have heffort : (st.pool.drainOwner owner).effort ≤ st.pool.effort := heffort
    rw [left, left, hpoint]
    simp only [pointLeft]
    omega
  | leave =>
    obtain ⟨hpoint, ⟨⟩⟩ := Option.ite_none_right_eq_some.mp hs
    refine hless ?_
    have hbefore := pointLeft_filling (st.Ready owner)
    rw [left, left]
    rcases hpoint with ⟨hpoint, -⟩ | ⟨hpoint, -⟩
    · rw [hpoint]
      exact Nat.add_lt_add_left (Nat.lt_of_lt_of_le (Nat.zero_lt_succ 4) hbefore.1) _
    · rw [hpoint]
      exact Nat.lt_succ_self _
  | pool e => exact absurd rfl (he e)
  | poke => exact absurd rfl hpoke

/-- A thread that goes on lessens what is left, and only what is handed in adds to it. -/
theorem Inv.left_of_step {e : FanPoolEvent} (h : st.Inv P owner f s)
    (hs : FanPool.step P serialize owner e st = some st') (hin : ¬ HandsIn e) :
    st'.left P owner ≤ st.left P owner ∧
      (st.GoesOn owner e → st'.left P owner < st.left P owner) := by
  cases e with
  | pool e =>
    obtain ⟨he, hs⟩ := Option.ite_none_right_eq_some.mp hs
    obtain ⟨pool, hstep, rfl⟩ := Option.map_eq_some_iff.mp hs
    have hm := WorkerPool.moved_of_step hstep
    have heffort := WorkerPool.effort_of_moved hm
    have hpointLeft : pointLeft (({ st with
        pool := pool
        settleGen := st.settleGen + e.settles } : FanPool F In V Out S).Ready owner) st.point ≤
          pointLeft (st.Ready owner) st.point :=
      pointLeft_le (fun hready => hready.imp_right fun hsettled => hsettled.moved hm) _
    have hnone : WorkerPool.brings e = 0 := by
      cases e <;> first | rfl | exact absurd trivial hin
    rw [hnone] at heffort
    refine ⟨?_, fun hgoes => ?_⟩
    · rw [left, left]
      dsimp only at hpointLeft ⊢
      omega
    · rw [if_pos (show e.ofThread = true from hgoes)] at heffort
      rw [left, left]
      dsimp only at hpointLeft ⊢
      omega
  | poke =>
    obtain rfl := Option.some.inj hs
    exact ⟨Nat.le_refl _, fun hgoes => nomatch hgoes⟩
  | enter | stage | pass _ | back | look | wake | drain | leave =>
    exact h.left_of_thread hs nofun nofun

/-! ## When a fan-out ends -/

/-- A fan-out that has returned has ended well. -/
theorem Inv.endsWell (h : st.Inv P owner f s) (hpoint : st.point = .returned) :
    st.EndsWell P owner f s := by
  refine ⟨hpoint, ?_, h.quiet hpoint⟩
  obtain ⟨goOn, hsinkAt, hok⟩ := h.sink
  rw [PointOk, hpoint] at hok
  cases goOn with
  | false => exact Or.inr (by rw [hsinkAt])
  | true =>
    refine Or.inl fun j hj => h.settled j ?_
    have hcount := hok rfl
    have hdispatched := h.dispatched_le
    omega

/-- A fan-out that is lost at a stop never returns. -/
theorem not_returned_of_lost {workerCount : ℕ}
    (r : (machine P serialize owner workerCount f s).InfiniteRun) {n m : ℕ} (hle : n ≤ m)
    (hstop : (r.states n).pool.stop = true) (hj : TakesBack P f s j)
    (hlost : ¬ (r.states n).Taken P owner f j) : (r.states m).point ≠ .returned := by
  have hkept := r.keep (n := n) (m := m)
    (I := fun st => st.Inv P owner f s ∧ st.pool.stop = true ∧ ¬ st.Taken P owner f j)
    (fun e st st' ⟨hinv, hstop, hlost⟩ hs => ⟨hinv.step hs, ?_, fun htaken =>
      hlost (taken_of_step hinv hstop hs htaken)⟩) hle
    ⟨inv_of_reachable (r.reachable_anyEvent n), hstop,
      hlost⟩
  · obtain ⟨hinv, -, hlost⟩ := hkept
    exact fun hpoint => hlost (hinv.taken_of_returned hpoint hj)
  · rcases (pool_moved hs).1 with hsame | ⟨e', hm⟩
    · rwa [hsame]
    · exact hm.stop_of_stop hstop

/-- The next state after a stop. -/
theorem eq_of_requestStop (P : FanOut F In V Out S) (serialize : ℕ → Bool) (owner : ℕ)
    (hs : FanPool.step P serialize owner (.pool .requestStop) st = some st') :
    st' = { st with pool := { st.pool with stop := true } } :=
  (Option.some.inj hs).symm

/-- A fan-out that has returned does nothing more. -/
theorem returned_of_step {e : FanPoolEvent} (hpoint : st.point = .returned)
    (hs : FanPool.step P serialize owner e st = some st') : st'.point = .returned := by
  have hnot : ∀ point : FanPoint, point ≠ .returned → st.point ≠ point := fun point hne heq =>
    hne (heq.symm.trans hpoint)
  have hno : ∀ {c : Prop} [Decidable c] {x : Option (FanPool F In V Out S)}, ¬ c →
      (if c then x else none) = some st' → st'.point = .returned := fun hc h => by
    rw [if_neg hc] at h
    cases h
  cases e with
  | enter => exact hno (hnot .entering nofun) hs
  | stage => exact hno (fun h => hnot .filling nofun h.1) hs
  | pass k => exact hno (fun h => hnot .submitting nofun h.1) hs
  | back => exact hno (fun h => hnot .inlining nofun h.1) hs
  | look => exact hno (fun h => hnot .filling nofun h.1) hs
  | wake => exact hno (fun h => hnot .parked nofun h.1) hs
  | drain => exact hno (hnot .aborted nofun) hs
  | leave =>
    simp only [FanPool.step] at hs
    split at hs
    case isTrue =>
      obtain rfl := Option.some.inj hs
      rfl
    case isFalse => cases hs
  | pool e =>
    simp only [FanPool.step] at hs
    split at hs
    case isTrue =>
      obtain ⟨pool, -, rfl⟩ := Option.map_eq_some_iff.mp hs
      exact hpoint
    case isFalse => cases hs
  | poke =>
    obtain rfl := Option.some.inj hs
    exact hpoint

/-- A second stop changes nothing. -/
theorem step_requestStop_of_stop (P : FanOut F In V Out S) (serialize : ℕ → Bool) (owner : ℕ)
    (hstop : st.pool.stop = true) :
    FanPool.step P serialize owner (.pool .requestStop) st = some st := by
  obtain ⟨pool, settleGen, drainedGen, point, dispatched, reaped, staging, sink, slots⟩ := st
  obtain ⟨workerCount, ready, workReady, parked, active, outstanding, stop, threads, admitting,
    submitted, completed, dropped, unsettled, enqueued, started⟩ := pool
  obtain rfl : stop = true := hstop
  rfl

/-- When no thread is with a task, none can go on for a fan-out that has returned, or that waits for
an item which is not ready. -/
theorem not_goes_on (hpoint : st.point = .returned ∨ st.point = .parked)
    (hready : st.point = .parked → ¬ st.Ready owner) (hadmitting : st.pool.admitting = [])
    (hthreads : ∀ th ∈ st.pool.threads, th = .exited) (e : FanPoolEvent)
    (hgoes : st.GoesOn owner e) : FanPool.step P serialize owner e st = none := by
  have hnot : ∀ point : FanPoint, point ≠ .returned → point ≠ .parked → st.point ≠ point :=
    fun point hreturned hparked heq => by
      rcases hpoint with hpoint | hpoint
      · exact hreturned (heq.symm.trans hpoint)
      · exact hparked (heq.symm.trans hpoint)
  cases e with
  | enter => exact if_neg (hnot .entering nofun nofun)
  | stage => exact if_neg fun h => hnot .filling nofun nofun h.1
  | pass k => exact if_neg fun h => hnot .submitting nofun nofun h.1
  | back => exact if_neg fun h => hnot .inlining nofun nofun h.1
  | look => exact if_neg fun h => hnot .filling nofun nofun h.1
  | wake => exact if_neg fun h => hready h.1 hgoes
  | drain => exact if_neg (hnot .aborted nofun nofun)
  | leave =>
    exact if_neg fun h => h.elim (fun h => hnot .filling nofun nofun h.1)
      fun h => hnot .draining nofun nofun h.1
  | pool e =>
    have hnone : st.pool.step serialize e = none := by
      cases e with
      | enqueue k =>
        rw [WorkerPool.step, hadmitting]
        rfl
      | take i | start i | finish i _ | release i | releaseGate i =>
        rw [WorkerPool.step]
        cases hi : st.pool.threads[i]? with
        | none => rfl
        | some th =>
          obtain rfl := hthreads th (List.mem_of_getElem? hi)
          rfl
      | submit _ | settle _ | drain _ | requestStop => cases hgoes
    rw [FanPool.step, hnone]
    split <;> rfl
  | poke => cases hgoes

end FanPool

open FanPool

/-- While the others hand in finitely many tasks and threads that can go on do, a fan-out ends,
and ends well, if and only if no stop comes before each item it takes back is taken. -/
theorem fanOut_endsWell_iff {F In V Out S : Type} (P : FanOut F In V Out S) (serialize : ℕ → Bool)
    (owner workerCount : ℕ) (f : F) (s : S)
    (r : (FanPool.machine P serialize owner workerCount f s).InfiniteRun)
    (hfair : r.Fair fun e st => st.GoesOn owner e)
    (hfinite : ∃ N, ∀ n ≥ N, ¬ HandsIn (r.events n)) :
    (∃ n, (r.states n).EndsWell P owner f s) ↔
      ∀ n, r.events n = .pool .requestStop →
        ∀ j, TakesBack P f s j → (r.states n).Taken P owner f j := by
  have hinv : ∀ n, (r.states n).Inv P owner f s := fun n =>
    inv_of_reachable (r.reachable_anyEvent n)
  constructor
  · rintro ⟨m, hm⟩ n hn j hj
    by_contra hlost
    have hnext := r.step n
    rw [hn] at hnext
    rcases Nat.lt_or_ge n m with hlt | hge
    · -- the stop loses the item, and the fan-out does not return after it
      have heq := eq_of_requestStop P serialize owner hnext
      have hstop : (r.states (n + 1)).pool.stop = true := by rw [heq]
      have hstill : ¬ (r.states (n + 1)).Taken P owner f j := fun htaken => by
        rw [heq] at htaken
        exact hlost htaken
      exact not_returned_of_lost r hlt hstop hj hstill hm.returned
    · -- it has returned before
      have hreturned := r.keep (I := fun st => st.point = .returned)
        (fun e st st' hpoint hs => returned_of_step hpoint hs) hge hm.returned
      exact hlost ((hinv n).taken_of_returned hreturned hj)
  · intro hstops
    have hsafe : ∀ n, (r.states n).pool.stop = true →
        ∀ j, TakesBack P f s j → (r.states n).Taken P owner f j := by
      intro n
      induction n with
      | zero =>
        intro hstop
        rw [r.start] at hstop
        cases hstop
      | succ n ih =>
        intro hstop j hj
        have htaken : (r.states n).Taken P owner f j := by
          rcases (pool_moved (r.step n)).2 hstop with hstop | hevent
          · exact ih hstop j hj
          · exact hstops n hevent j hj
        exact htaken.step (r.step n)
    obtain ⟨N, hN⟩ := hfinite
    obtain ⟨n, hn⟩ := r.eventually hfair (fun st => st.point = .returned)
      (m := FanPool.left P owner) (N := N)
      (fun n hn => ((hinv n).left_of_step (r.step n) (hN n hn)).1)
      (fun n hn => ((hinv n).left_of_step (r.step n) (hN n hn)).2)
      (fun n _ hpoint => (hinv n).goes_on hpoint (hsafe n))
    exact ⟨n, (hinv n).endsWell hn⟩

/-- One item, which a worker is needed for. -/
def oneItem : FanOut Unit Unit Unit Unit Unit where
  count := 1
  window := 1
  window_pos := Nat.one_pos
  stage _ _ := (.ok (), ())
  work := id
  reap _ _ _ := ((), true)

/-- The events of a fan-out whose worker has run its job before the pool is stopped. -/
def jobThenStop : List FanPoolEvent :=
  [.enter, .stage, .pass 0, .pool (.take 0), .look, .pool (.start 0), .pool (.finish 0 true), .wake,
    .look, .leave, .pool (.release 0), .pool (.releaseGate 0), .pool .requestStop, .pool (.take 0)]

/-- The pool is stopped before the job is submitted. -/
def stopThenJob : List FanPoolEvent :=
  [.pool .requestStop, .pool (.take 0), .enter, .stage, .look]

/-- A fan-out of one item on a pool with one worker. -/
abbrev oneItemMachine : Machine (FanPool Unit Unit Unit Unit Unit) FanPoolEvent :=
  FanPool.machine oneItem (fun _ => false) 0 1 () ()

/-- A stopped pool whose workers have returned, and a fan-out that no thread brings on. -/
def IsStuck (st : FanPool Unit Unit Unit Unit Unit) : Prop :=
  st.pool.stop = true ∧ st.pool.admitting = [] ∧ (∀ th ∈ st.pool.threads, th = .exited) ∧
    (st.point = .returned ∨ st.point = .parked) ∧ (st.point = .parked → ¬ st.Ready 0)

instance (st : FanPool Unit Unit Unit Unit Unit) : Decidable (IsStuck st) := by
  unfold IsStuck
  infer_instance

/-- A run that ends stuck goes on for ever, fairly, with more stops. -/
theorem exists_fairRun {es : List FanPoolEvent} {st : FanPool Unit Unit Unit Unit Unit}
    (hrun : oneItemMachine.run es (FanPool.start 1 () ()) = some st) (hstuck : IsStuck st) :
    ∃ r : oneItemMachine.InfiniteRun, r.Fair (fun e st => st.GoesOn 0 e) ∧
      (∃ N, ∀ n ≥ N, ¬ HandsIn (r.events n)) ∧ r.states es.length = st := by
  obtain ⟨hstop, hadmitting, hthreads, hpoint, hready⟩ := hstuck
  have hlast : oneItemMachine.step (.pool .requestStop) st = some st :=
    step_requestStop_of_stop oneItem (fun _ => false) 0 hstop
  refine ⟨Machine.InfiniteRun.loop (.pool .requestStop) rfl hrun hlast,
    Machine.InfiniteRun.loop_fair rfl hrun hlast (not_goes_on hpoint hready hadmitting hthreads),
    ⟨es.length, fun n hn hin => ?_⟩, Machine.InfiniteRun.statesOf_length hrun (Nat.le_refl _)⟩
  have hevent : es.getD n (.pool .requestStop) = .pool .requestStop := by
    rw [List.getD_eq_getElem?_getD, List.getElem?_eq_none hn]
    rfl
  have hin : HandsIn (es.getD n (.pool .requestStop)) := hin
  rw [hevent] at hin
  exact hin

/-- With a worker that runs the job in time, the fan-out ends, and the stop comes after. -/
theorem fanOut_endsWell_jobThenStop : ∃ r : oneItemMachine.InfiniteRun,
    (∃ n, (r.states n).EndsWell oneItem 0 () ()) ∧
      ∀ n, r.events n = .pool .requestStop →
        ∀ j, TakesBack oneItem () () j → (r.states n).Taken oneItem 0 () j := by
  obtain ⟨st, hrun, hst⟩ := (Option.any_eq_true _ _).mp (show
    (oneItemMachine.run jobThenStop (FanPool.start 1 () ())).any
      (fun st => decide (IsStuck st ∧ st.point = .returned)) = true by decide +kernel)
  obtain ⟨hstuck, hpoint⟩ := of_decide_eq_true hst
  obtain ⟨r, hfair, hfinite, hlast⟩ := exists_fairRun hrun hstuck
  have hends : ∃ n, (r.states n).EndsWell oneItem 0 () () := by
    refine ⟨jobThenStop.length, Inv.endsWell ?_ (hlast ▸ hpoint)⟩
    exact inv_of_reachable (r.reachable_anyEvent _)
  exact ⟨r, hends, (fanOut_endsWell_iff oneItem _ 0 1 () () r hfair hfinite).mp hends⟩

/-- A pool that was stopped before the submit refuses the job, and the fan-out looks for ever. -/
theorem not_fanOut_endsWell : ¬ ∀ (P : FanOut Unit Unit Unit Unit Unit) (serialize : ℕ → Bool)
    (owner workerCount : ℕ) (r : (FanPool.machine P serialize owner workerCount () ()).InfiniteRun),
    r.Fair (fun e st => st.GoesOn owner e) → (∃ N, ∀ n ≥ N, ¬ HandsIn (r.events n)) →
      ∃ n, (r.states n).EndsWell P owner () () := by
  intro hall
  obtain ⟨st, hrun, hst⟩ := (Option.any_eq_true _ _).mp (show
    (oneItemMachine.run stopThenJob (FanPool.start 1 () ())).any
      (fun st => decide (IsStuck st ∧ st.pool.threads = [.exited] ∧ st.pool.completed = [] ∧
        st.pool.workerCount = 1)) = true by decide +kernel)
  obtain ⟨hstuck, hthreads, hcompleted, hworkers⟩ := of_decide_eq_true hst
  obtain ⟨r, hfair, hfinite, hlast⟩ := exists_fairRun hrun hstuck
  obtain ⟨n, hn⟩ := hall oneItem _ 0 1 r hfair hfinite
  have hlost : ¬ (r.states stopThenJob.length).Taken oneItem 0 () 0 := by
    rw [hlast]
    rintro (⟨v, hv⟩ | hheld | hsettled | ⟨hw, -⟩)
    · cases hv
    · rw [WorkerPool.held, hthreads] at hheld
      cases hheld
    · rw [Settled, hcompleted] at hsettled
      cases hsettled
    · rw [hworkers] at hw
      cases hw
  have hstop : (r.states stopThenJob.length).pool.stop = true := by
    rw [hlast]
    exact hstuck.1
  -- it stays returned, so it has returned after the stop too
  have hreturned := r.keep (I := fun st => st.point = .returned)
    (fun e st st' hpoint hs => returned_of_step hpoint hs)
    (Nat.le_add_right n stopThenJob.length) hn.returned
  exact not_returned_of_lost r (Nat.le_add_left stopThenJob.length n) hstop
    ⟨Nat.one_pos, rfl⟩ hlost hreturned

end ArbitraryComposer
