import ArbitraryComposer.Runtime.PoolSoundness

/-!
# What an Event Does to a Pool

Any event of a pool, orderly or not, adds a task to the pool, moves one on, or drops some. The forms
it can take are listed once, and what holds in every run is read off the list.

## Main definitions

- `WorkerPool.Moved`: the forms an event can take.
- `WorkerPool.Crew`: what holds of the workers, the lanes and the drops of a pool.
- `WorkerPool.Accounts`: the accounts of a pool whose renders may be settled late.
- `WorkerPool.effort`: the steps that the threads of a pool have left.

## Main results

- `WorkerPool.moved_of_step`: every event takes one of the forms.
- `WorkerPool.Crew.step`, `WorkerPool.Accounts.step`: both hold in every run.
- `WorkerPool.effort_of_moved`: threads lessen what is left.
-/

namespace ArbitraryComposer

open List (tally tally_nil tally_cons tally_append)

namespace WorkerPool

variable {p p' : WorkerPool} {t : PoolTask} {i k : ℕ}

/-! ## Frames -/

/-- A drop changes the claims, and counts what it drops. -/
theorem dropQueued_frame (cause : Option ℕ) (ts : List PoolTask) (p : WorkerPool) :
    ∃ outstanding, dropQueued cause ts p =
      { p with outstanding := outstanding, dropped := p.dropped ++ ts.map (·, cause) } := by
  induction ts generalizing p with
  | nil => exact ⟨p.outstanding, by rw [List.map_nil, List.append_nil]; rfl⟩
  | cons t ts ih =>
    obtain ⟨outstanding, heq⟩ := ih (releaseOutstanding t.owner
      { p with dropped := p.dropped ++ [(t, cause)] })
    refine ⟨outstanding, heq.trans ?_⟩
    rw [releaseOutstanding, List.append_assoc]
    rfl

/-- A gate that is handed on makes a parked task ready. -/
theorem handOn_frame (c : ℕ) (p : WorkerPool) :
    ∃ active ready parked, p.handOn c =
      { p with active := active, ready := ready, parked := parked } ∧
      (ready ++ parked).Perm (p.ready ++ p.parked) := by
  unfold handOn
  split
  case isFalse => exact ⟨_, _, _, rfl, .refl _⟩
  case isTrue =>
    cases hfront : p.front c with
    | none => exact ⟨_, _, _, rfl, .refl _⟩
    | some t =>
      refine ⟨_, _, _, rfl, List.perm_iff_count.mpr fun x => ?_⟩
      have hleft := List.tally_eraseP hfront fun y => if y = x then 1 else 0
      simp only [List.tally_ite_eq_count] at hleft
      rw [List.count_append, List.count_append, List.count_append, List.count_singleton]
      by_cases hx : t = x
      · rw [if_pos hx] at hleft
        rw [if_pos (beq_iff_eq.mpr hx)]
        show _ + (p.parked.eraseP _).count x = _
        omega
      · rw [if_neg hx] at hleft
        rw [if_neg (beq_iff_eq.not.mpr hx)]
        show _ + (p.parked.eraseP _).count x = _
        omega

theorem handOnAll_frame (orphans : List ℕ) (p : WorkerPool) :
    ∃ active ready parked, orphans.foldl (fun p c => p.handOn c) p =
      { p with active := active, ready := ready, parked := parked } ∧
      (ready ++ parked).Perm (p.ready ++ p.parked) := by
  induction orphans generalizing p with
  | nil => exact ⟨_, _, _, rfl, .refl _⟩
  | cons c rest ih =>
    obtain ⟨active, ready, parked, heq, hperm⟩ := handOn_frame c p
    obtain ⟨active', ready', parked', heq', hperm'⟩ := ih (p.handOn c)
    rw [heq] at heq' hperm'
    exact ⟨active', ready', parked', by rw [List.foldl_cons, heq, heq'], hperm'.trans hperm⟩

/-- A drain leaves the queued tasks of the others, and drops tasks for its owner. -/
theorem drainOwner_frame (owner : ℕ) (p : WorkerPool) :
    ∃ active outstanding ready workReady parked drops, p.drainOwner owner =
      { p with
        active := active
        outstanding := outstanding
        ready := ready
        workReady := workReady
        parked := parked
        dropped := p.dropped ++ drops } ∧
      (ready ++ parked).Perm ((p.ready ++ p.parked).filter fun t => !decide (t.owner = owner)) ∧
      workReady = p.workReady.filter (fun t => !decide (t.owner = owner)) ∧
      ∀ d ∈ drops, d.2 = some owner := by
  unfold drainOwner purgeParked purgeReady purgeWork
  dsimp only
  obtain ⟨out₁, heq₁⟩ := dropQueued_frame (some owner) (p.parked.filter (·.owner = owner))
    { p with parked := p.parked.filter fun t => !decide (t.owner = owner) }
  rw [heq₁]
  obtain ⟨out₂, heq₂⟩ := dropQueued_frame (some owner) (p.ready.filter (·.owner = owner))
    { p with
      outstanding := out₁
      parked := p.parked.filter fun t => !decide (t.owner = owner)
      dropped := p.dropped ++ (p.parked.filter (·.owner = owner)).map (·, some owner)
      ready := p.ready.filter fun t => !decide (t.owner = owner) }
  dsimp only at heq₂ ⊢
  rw [heq₂]
  obtain ⟨active, ready, parked, heq₃, hperm⟩ := handOnAll_frame
    (orphanedGates owner { p with
      outstanding := out₁
      parked := p.parked.filter fun t => !decide (t.owner = owner)
      dropped := p.dropped ++ (p.parked.filter (·.owner = owner)).map (·, some owner) })
    { p with
      outstanding := out₂
      parked := p.parked.filter fun t => !decide (t.owner = owner)
      dropped := p.dropped ++ (p.parked.filter (·.owner = owner)).map (·, some owner) ++
        (p.ready.filter (·.owner = owner)).map (·, some owner)
      ready := p.ready.filter fun t => !decide (t.owner = owner) }
  rw [heq₃]
  obtain ⟨out₄, heq₄⟩ := dropQueued_frame (some owner) (p.workReady.filter (·.owner = owner))
    { p with
      outstanding := out₂
      active := active
      ready := ready
      parked := parked
      dropped := p.dropped ++ (p.parked.filter (·.owner = owner)).map (·, some owner) ++
        (p.ready.filter (·.owner = owner)).map (·, some owner)
      workReady := p.workReady.filter fun t => !decide (t.owner = owner) }
  dsimp only at heq₄ ⊢
  rw [heq₄]
  refine ⟨active, out₄, ready, _, parked, _, by rw [List.append_assoc, List.append_assoc], ?_, rfl,
    ?_⟩
  · rw [List.filter_append]
    exact hperm
  · have hmap : ∀ l : List PoolTask, ∀ d ∈ l.map (·, some owner), d.2 = some owner :=
      fun l d hd => by
        obtain ⟨t, -, rfl⟩ := List.mem_map.mp hd
        rfl
    intro d hd
    rcases List.mem_append.mp hd with hd | hd
    · exact hmap _ d hd
    rcases List.mem_append.mp hd with hd | hd
    · exact hmap _ d hd
    · exact hmap _ d hd

theorem abandonQueued_frame (p : WorkerPool) :
    ∃ outstanding drops, p.abandonQueued =
      { p with
        ready := []
        parked := []
        workReady := []
        outstanding := outstanding
        dropped := p.dropped ++ drops } ∧ ∀ d ∈ drops, d.2 = none := by
  obtain ⟨outstanding, heq⟩ := dropQueued_frame none (p.ready ++ p.parked ++ p.workReady)
    { p with ready := [], parked := [], workReady := [] }
  refine ⟨outstanding, _, heq, fun d hd => ?_⟩
  obtain ⟨t, -, rfl⟩ := List.mem_map.mp hd
  rfl

/-! ## The forms of an event -/

/-- The forms an event can take. Claims, gates and the order of tasks are left open. -/
inductive Moved (p : WorkerPool) : PoolEvent → WorkerPool → Prop where
  /-- A stopped pool refuses a task. -/
  | refused (t : PoolTask) (hstop : p.stop = true) : Moved p (.submit t) p
  /-- A task is admitted. -/
  | admitted (t : PoolTask) (hstop : p.stop = false) (outstanding : ℕ → ℕ) :
    Moved p (.submit t) { p with
      outstanding := outstanding
      submitted := p.submitted ++ [t]
      admitting := p.admitting ++ [t] }
  /-- The submitting thread has the task itself. -/
  | inlined (k : ℕ) (t : PoolTask) (hk : p.admitting[k]? = some t) (hw : p.workerCount = 0)
    (active : ℕ → Bool) : Moved p (.enqueue k) { p with
      admitting := p.admitting.eraseIdx k
      enqueued := p.enqueued ++ [t]
      active := active
      threads := p.threads ++ [.popped t] }
  /-- A render is ready. -/
  | readied (k : ℕ) (t : PoolTask) (hk : p.admitting[k]? = some t) (ht : t.content ≠ none)
    (active : ℕ → Bool) : Moved p (.enqueue k) { p with
      admitting := p.admitting.eraseIdx k
      enqueued := p.enqueued ++ [t]
      active := active
      ready := p.ready ++ [t] }
  /-- A job is ready. -/
  | workReadied (k : ℕ) (t : PoolTask) (hk : p.admitting[k]? = some t) (hw : p.workerCount ≠ 0)
    (active : ℕ → Bool) : Moved p (.enqueue k) { p with
      admitting := p.admitting.eraseIdx k
      enqueued := p.enqueued ++ [t]
      active := active
      workReady := p.workReady ++ [t] }
  /-- A render is parked. -/
  | parked (k : ℕ) (t : PoolTask) (hk : p.admitting[k]? = some t) (ht : t.content ≠ none) :
    Moved p (.enqueue k) { p with
      admitting := p.admitting.eraseIdx k
      enqueued := p.enqueued ++ [t]
      parked := p.parked ++ [t] }
  /-- A worker sees the stop. -/
  | exited (i : ℕ) (hi : p.threads[i]? = some .waiting) (hstop : p.stop = true)
    (outstanding : ℕ → ℕ) (drops : List (PoolTask × Option ℕ)) (hdrops : ∀ d ∈ drops, d.2 = none) :
    Moved p (.take i) { p with
      ready := []
      parked := []
      workReady := []
      outstanding := outstanding
      dropped := p.dropped ++ drops
      threads := p.threads.set i .exited }
  /-- A worker takes a render. -/
  | tookRender (i : ℕ) (hi : p.threads[i]? = some .waiting) (hstop : p.stop = false)
    (t : PoolTask) (rest : List PoolTask) (hready : p.ready = t :: rest) :
    Moved p (.take i) { p with ready := rest, threads := p.threads.set i (.popped t) }
  /-- A worker takes a job. -/
  | tookWork (i : ℕ) (hi : p.threads[i]? = some .waiting) (hstop : p.stop = false)
    (t : PoolTask) (rest : List PoolTask) (hwork : p.workReady = t :: rest) :
    Moved p (.take i) { p with workReady := rest, threads := p.threads.set i (.popped t) }
  /-- A thread begins its task. -/
  | started (i : ℕ) (t : PoolTask) (hi : p.threads[i]? = some (.popped t)) :
    Moved p (.start i) { p with
      started := p.started ++ [t]
      threads := p.threads.set i (.rendering t) }
  /-- A task returns settled. -/
  | finished (i : ℕ) (t : PoolTask) (hi : p.threads[i]? = some (.rendering t)) :
    Moved p (.finish i true) { p with
      completed := p.completed ++ [t]
      threads := p.threads.set i (.counted t) }
  /-- A render returns before it is settled. -/
  | returned (i : ℕ) (t : PoolTask) (hi : p.threads[i]? = some (.rendering t))
    (ht : t.content ≠ none) : Moved p (.finish i false) { p with
      unsettled := p.unsettled ++ [t]
      threads := p.threads.set i (.counted t) }
  /-- A render is settled late. -/
  | settled (k : ℕ) : Moved p (.settle k) { p with unsettled := p.unsettled.eraseIdx k }
  /-- A claim is released. -/
  | released (i : ℕ) (t : PoolTask) (hi : p.threads[i]? = some (.counted t))
    (outstanding : ℕ → ℕ) : Moved p (.release i) { p with
      outstanding := outstanding
      threads := p.threads.set i (.released t) }
  /-- A thread is done with its task. -/
  | done (i : ℕ) (t : PoolTask) (hi : p.threads[i]? = some (.released t)) (active : ℕ → Bool) :
    Moved p (.releaseGate i) { p with
      active := active
      threads := p.threads.set i p.afterTask }
  /-- It goes on with a parked task, as the pool has no workers. -/
  | inlinedNext (i : ℕ) (t : PoolTask) (hi : p.threads[i]? = some (.released t))
    (hw : p.workerCount = 0) (c : ℕ) (next : PoolTask) (hfront : p.front c = some next) :
    Moved p (.releaseGate i) { p with
      parked := p.parked.eraseP (·.content = some c)
      threads := p.threads.set i (.popped next) }
  /-- It makes a parked task ready. -/
  | readiedNext (i : ℕ) (t : PoolTask) (hi : p.threads[i]? = some (.released t))
    (hw : p.workerCount ≠ 0) (c : ℕ) (next : PoolTask) (hfront : p.front c = some next) :
    Moved p (.releaseGate i) { p with
      parked := p.parked.eraseP (·.content = some c)
      ready := p.ready ++ [next]
      threads := p.threads.set i .waiting }
  /-- The tasks of an owner are dropped. -/
  | drained (o : ℕ) (active : ℕ → Bool) (outstanding : ℕ → ℕ) (ready parked : List PoolTask)
    (drops : List (PoolTask × Option ℕ)) (hdrops : ∀ d ∈ drops, d.2 = some o)
    (hperm : (ready ++ parked).Perm
      ((p.ready ++ p.parked).filter fun t => !decide (t.owner = o))) :
    Moved p (.drain o) { p with
      active := active
      outstanding := outstanding
      ready := ready
      workReady := p.workReady.filter fun t => !decide (t.owner = o)
      parked := parked
      dropped := p.dropped ++ drops }
  /-- The pool is stopped. -/
  | stopped : Moved p .requestStop { p with stop := true }

theorem moved_dispatch (hk : p.admitting[k]? = some t) (active : ℕ → Bool) :
    p.Moved (.enqueue k) (dispatch t { p with
      admitting := p.admitting.eraseIdx k
      enqueued := p.enqueued ++ [t]
      active := active }) := by
  unfold dispatch
  split
  case isTrue hw => exact .inlined k t hk hw active
  case isFalse hw =>
    split
    case isTrue hsome => exact .readied k t hk (Option.isSome_iff_ne_none.mp hsome) active
    case isFalse => exact .workReadied k t hk hw active

theorem moved_enqueue (serialize : ℕ → Bool) (hk : p.admitting[k]? = some t) :
    p.Moved (.enqueue k) (enqueue serialize t { p with
      admitting := p.admitting.eraseIdx k
      enqueued := p.enqueued ++ [t] }) := by
  unfold enqueue
  split
  case h_1 => exact moved_dispatch hk p.active
  case h_2 c hgate =>
    split
    case isTrue =>
      refine .parked k t hk fun hnone => ?_
      rw [gate, hnone] at hgate
      cases hgate
    case isFalse => exact moved_dispatch hk _

theorem moved_take (hi : p.threads[i]? = some .waiting) (hp : p.take i = some p') :
    p.Moved (.take i) p' := by
  unfold take at hp
  split at hp
  case isTrue hstop =>
    obtain rfl := Option.some.inj hp
    obtain ⟨outstanding, drops, heq, hdrops⟩ := p.abandonQueued_frame
    rw [heq]
    exact .exited i hi hstop outstanding drops hdrops
  case isFalse hstop =>
    have hstop := Bool.eq_false_iff.mpr hstop
    split at hp
    case h_1 t rest hready =>
      obtain rfl := Option.some.inj hp
      exact .tookRender i hi hstop t rest hready
    case h_2 t rest _ hwork =>
      obtain rfl := Option.some.inj hp
      exact .tookWork i hi hstop t rest hwork
    case h_3 => cases hp

theorem moved_releaseGate (serialize : ℕ → Bool) (hi : p.threads[i]? = some (.released t)) :
    p.Moved (.releaseGate i) (p.releaseGate serialize i t) := by
  unfold releaseGate
  split
  case h_1 => exact .done i t hi p.active
  case h_2 c _ =>
    split
    case h_1 => exact .done i t hi _
    case h_2 next hfront =>
      split
      case isTrue hw => exact .inlinedNext i t hi hw c next hfront
      case isFalse hw => exact .readiedNext i t hi hw c next hfront

/-- Every event takes one of the forms. -/
theorem moved_of_step {serialize : ℕ → Bool} {e : PoolEvent}
    (hs : WorkerPool.step serialize e p = some p') : p.Moved e p' := by
  cases e with
  | submit t =>
    obtain rfl := Option.some.inj hs
    unfold admitTask
    split
    case isTrue hstop => exact .refused t hstop
    case isFalse hstop => exact .admitted t (Bool.eq_false_iff.mpr hstop) _
  | enqueue k =>
    obtain ⟨t, ht, rfl⟩ := Option.map_eq_some_iff.mp hs
    exact moved_enqueue serialize ht
  | take i =>
    simp only [WorkerPool.step] at hs
    split at hs
    · exact moved_take ‹_› hs
    · cases hs
  | start i =>
    simp only [WorkerPool.step] at hs
    split at hs
    · obtain rfl := Option.some.inj hs
      exact .started i _ ‹_›
    · cases hs
  | finish i settled =>
    simp only [WorkerPool.step] at hs
    split at hs
    · split at hs
      case isTrue htrue =>
        obtain rfl := htrue
        obtain rfl := Option.some.inj hs
        exact .finished i _ ‹_›
      case isFalse hfalse =>
        split at hs
        case isTrue hsome =>
          obtain rfl := Bool.eq_false_iff.mpr hfalse
          obtain rfl := Option.some.inj hs
          exact .returned i _ ‹_› (Option.isSome_iff_ne_none.mp hsome)
        case isFalse => cases hs
    · cases hs
  | settle k =>
    obtain ⟨t, -, rfl⟩ := Option.map_eq_some_iff.mp hs
    exact .settled k
  | release i =>
    simp only [WorkerPool.step] at hs
    split at hs
    · obtain rfl := Option.some.inj hs
      exact .released i _ ‹_› _
    · cases hs
  | releaseGate i =>
    simp only [WorkerPool.step] at hs
    split at hs
    · obtain rfl := Option.some.inj hs
      exact moved_releaseGate serialize ‹_›
    · cases hs
  | drain owner =>
    obtain rfl := Option.some.inj hs
    obtain ⟨active, outstanding, ready, workReady, parked, drops, heq, hperm, rfl, hdrops⟩ :=
      p.drainOwner_frame owner
    rw [heq]
    exact .drained owner active outstanding ready parked drops hdrops hperm
  | requestStop =>
    obtain rfl := Option.some.inj hs
    exact .stopped

/-! ## Workers, lanes and drops -/

/-- What holds of the workers, the lanes and the drops of a pool. -/
structure Crew (p : WorkerPool) : Prop where
  /-- A pool with workers has threads. -/
  manned : p.workerCount ≠ 0 → p.threads ≠ []
  /-- A worker returns at a stop. -/
  stop_of_exited : p.workerCount ≠ 0 → .exited ∈ p.threads → p.stop = true
  /-- A pool without workers queues no job. -/
  unmanned : p.workerCount = 0 → p.workReady = []
  /-- Only renders pass the lane of renders and its gates. -/
  renders : ∀ t ∈ p.ready ++ p.parked, t.content ≠ none
  /-- Without a drain tasks are dropped at a stop. -/
  stop_of_dropped : ∀ t, (t, none) ∈ p.dropped → p.stop = true

theorem init_crew (workerCount : ℕ) : (init workerCount).Crew := by
  refine ⟨fun hw hnone => ?_, fun _ hexited => ?_, fun _ => rfl, nofun, nofun⟩
  · have hlength := congrArg List.length hnone
    rw [init, List.length_replicate] at hlength
    exact hw hlength
  · cases List.eq_of_mem_replicate hexited

theorem set_ne_nil {l : List PoolThread} {th : PoolThread} (h : l ≠ []) : l.set i th ≠ [] :=
  fun hnil => h (List.length_eq_zero_iff.mp (by rw [← List.length_set, hnil]; rfl))

theorem renders_of_front {c : ℕ} {next : PoolTask} (h : p.Crew) (hfront : p.front c = some next) :
    ∀ t ∈ next :: (p.ready ++ p.parked.eraseP (·.content = some c)), t.content ≠ none := by
  intro t ht
  rcases List.mem_cons.mp ht with rfl | ht
  · exact h.renders _ (List.mem_append_right _ (List.mem_of_find?_eq_some hfront))
  · rcases List.mem_append.mp ht with ht | ht
    · exact h.renders t (List.mem_append_left _ ht)
    · exact h.renders t (List.mem_append_right _ (List.mem_of_mem_eraseP ht))

/-- An event that leaves the lanes and the drops alone keeps the crew. -/
theorem Crew.move {th : PoolThread} (h : p.Crew) (hcount : p'.workerCount = p.workerCount)
    (hstop : p'.stop = p.stop) (hthreads : p'.threads = p.threads.set i th)
    (hth : p.workerCount ≠ 0 → th ≠ .exited) (hwork : p'.workReady = p.workReady)
    (hrenders : ∀ t ∈ p'.ready ++ p'.parked, t.content ≠ none) (hdropped : p'.dropped = p.dropped) :
    p'.Crew := by
  refine ⟨fun hw => ?_, fun hw hexited => ?_, fun hw => ?_, hrenders, fun t ht => ?_⟩
  · rw [hthreads]
    exact set_ne_nil (h.manned (hcount ▸ hw))
  · rw [hthreads] at hexited
    rw [hcount] at hw
    rcases List.mem_or_eq_of_mem_set hexited with hexited | heq
    · exact hstop.trans (h.stop_of_exited hw hexited)
    · exact absurd heq.symm (hth hw)
  · rw [hwork]
    exact h.unmanned (hcount ▸ hw)
  · rw [hdropped] at ht
    exact hstop.trans (h.stop_of_dropped t ht)

theorem Crew.moved {e : PoolEvent} (h : p.Crew) (hm : p.Moved e p') : p'.Crew := by
  have hrender : ∀ {t : PoolTask}, t.content ≠ none → ∀ l : List PoolTask,
      (∀ x ∈ l, x.content ≠ none) → ∀ x ∈ l ++ [t], x.content ≠ none := fun {t} ht l hl x hx => by
    rcases List.mem_append.mp hx with hx | hx
    · exact hl x hx
    · obtain rfl := List.mem_singleton.mp hx
      exact ht
  cases hm with
  | refused t hstop => exact h
  | admitted t hstop outstanding =>
    exact ⟨h.manned, h.stop_of_exited, h.unmanned, h.renders, h.stop_of_dropped⟩
  | inlined k t hk hw active =>
    exact ⟨fun hw' => absurd hw hw', fun hw' => absurd hw hw', h.unmanned, h.renders,
      h.stop_of_dropped⟩
  | readied k t hk ht active =>
    refine ⟨h.manned, h.stop_of_exited, h.unmanned, fun x hx => ?_, h.stop_of_dropped⟩
    rcases List.mem_append.mp hx with hx | hx
    · exact hrender ht _ (fun y hy => h.renders y (List.mem_append_left _ hy)) x hx
    · exact h.renders x (List.mem_append_right _ hx)
  | workReadied k t hk hw active =>
    exact ⟨h.manned, h.stop_of_exited, fun hw' => absurd hw' hw, h.renders, h.stop_of_dropped⟩
  | parked k t hk ht =>
    refine ⟨h.manned, h.stop_of_exited, h.unmanned, fun x hx => ?_, h.stop_of_dropped⟩
    refine hrender ht _ h.renders x ?_
    rwa [List.append_assoc]
  | exited i hi hstop outstanding drops hdrops =>
    refine ⟨fun hw => set_ne_nil (h.manned hw), fun _ _ => hstop, fun _ => rfl, nofun,
      fun _ _ => hstop⟩
  | tookRender i hi hstop t rest hready =>
    refine h.move rfl rfl rfl (fun _ => PoolThread.noConfusion) rfl (fun x hx => ?_) rfl
    refine h.renders x ?_
    rw [hready]
    exact List.mem_cons_of_mem _ hx
  | tookWork i hi hstop t rest hwork =>
    refine ⟨fun hw => set_ne_nil (h.manned hw), fun hw hexited => ?_, fun hw => ?_, h.renders,
      h.stop_of_dropped⟩
    · exact h.stop_of_exited hw (exited_of_set PoolThread.noConfusion hexited)
    · rw [h.unmanned hw] at hwork
      cases hwork
  | started i t hi => exact h.move rfl rfl rfl (fun _ => PoolThread.noConfusion) rfl h.renders rfl
  | finished i t hi => exact h.move rfl rfl rfl (fun _ => PoolThread.noConfusion) rfl h.renders rfl
  | returned i t hi ht =>
    exact h.move rfl rfl rfl (fun _ => PoolThread.noConfusion) rfl h.renders rfl
  | settled k => exact ⟨h.manned, h.stop_of_exited, h.unmanned, h.renders, h.stop_of_dropped⟩
  | released i t hi outstanding =>
    exact h.move rfl rfl rfl (fun _ => PoolThread.noConfusion) rfl h.renders rfl
  | done i t hi active =>
    refine h.move rfl rfl rfl (fun hw => ?_) rfl h.renders rfl
    rw [afterTask_of_workers hw]
    exact PoolThread.noConfusion
  | inlinedNext i t hi hw c next hfront =>
    exact h.move rfl rfl rfl (fun _ => PoolThread.noConfusion) rfl
      (fun x hx => renders_of_front h hfront x (List.mem_cons_of_mem _ hx)) rfl
  | readiedNext i t hi hw c next hfront =>
    refine h.move rfl rfl rfl (fun _ => PoolThread.noConfusion) rfl (fun x hx => ?_) rfl
    refine renders_of_front h hfront x ?_
    rw [List.append_assoc] at hx
    rcases List.mem_append.mp hx with hx | hx
    · exact List.mem_cons_of_mem _ (List.mem_append_left _ hx)
    · rcases List.mem_cons.mp hx with rfl | hx
      · exact List.mem_cons_self
      · exact List.mem_cons_of_mem _ (List.mem_append_right _ hx)
  | drained o active outstanding ready parked drops hdrops hperm =>
    refine ⟨h.manned, h.stop_of_exited, fun hw => ?_, fun x hx => ?_, fun t ht => ?_⟩
    · show p.workReady.filter _ = []
      rw [h.unmanned hw, List.filter_nil]
    · exact h.renders x (List.mem_filter.mp (hperm.mem_iff.mp hx)).1
    · rcases List.mem_append.mp ht with ht | ht
      · exact h.stop_of_dropped t ht
      · cases hdrops _ ht
  | stopped => exact ⟨h.manned, fun _ _ => rfl, h.unmanned, h.renders, fun _ _ => rfl⟩

/-! ## What is left to do -/

/-- The steps that a thread has left. -/
def threadLeft : PoolThread → ℕ
  | .exited => 0
  | .waiting => 1
  | .released _ => 2
  | .counted _ => 3
  | .rendering _ => 4
  | .popped _ => 5

/-- The steps that the threads of a pool have left. -/
def effort (p : WorkerPool) : ℕ :=
  6 * p.admitting.length + 5 * (p.ready ++ p.workReady ++ p.parked).length +
    tally threadLeft p.threads

/-- The steps that a task brings. -/
def brings : PoolEvent → ℕ
  | .submit _ => 6
  | _ => 0

/-- The steps that an event adds at most, and those that it takes at least. -/
theorem effort_of_moved {e : PoolEvent} (hm : p.Moved e p') :
    p'.effort + (if e.ofThread = true then 1 else 0) ≤ p.effort + brings e := by
  have hthread : ∀ {i : ℕ} {th : PoolThread}, p.threads[i]? = some th → ∀ th',
      threadLeft th + tally threadLeft (p.threads.set i th') =
        threadLeft th' + tally threadLeft p.threads := fun hi th' => List.tally_set hi th' _
  have hadmitting : ∀ {k : ℕ} {t : PoolTask}, p.admitting[k]? = some t →
      1 + (p.admitting.eraseIdx k).length = p.admitting.length := fun hk => by
    have := List.tally_eraseIdx hk fun _ => 1
    rwa [List.tally_one, List.tally_one] at this
  have hparked : ∀ {c : ℕ} {next : PoolTask}, p.front c = some next →
      1 + (p.parked.eraseP (·.content = some c)).length = p.parked.length := fun hfront => by
    have := List.tally_eraseP hfront fun _ => 1
    rwa [List.tally_one, List.tally_one] at this
  cases hm with
  | refused t hstop => exact Nat.le_add_right _ _
  | admitted t hstop outstanding =>
    simp only [effort, List.length_append, List.length_singleton, PoolEvent.ofThread, brings,
      Bool.false_eq_true, if_false]
    omega
  | inlined k t hk hw active =>
    have hk := hadmitting hk
    simp only [effort, List.length_append, tally_append, tally_cons, tally_nil, threadLeft,
      PoolEvent.ofThread, if_true]
    omega
  | readied k t hk ht active | workReadied k t hk hw active | parked k t hk ht =>
    have hk := hadmitting hk
    simp only [effort, List.length_append, List.length_singleton, PoolEvent.ofThread, if_true]
    omega
  | exited i hi hstop outstanding drops hdrops =>
    have hi := hthread hi .exited
    simp only [effort, List.length_append, List.length_nil, threadLeft, PoolEvent.ofThread,
      if_true] at hi ⊢
    omega
  | tookRender i hi hstop t rest hready =>
    have hi := hthread hi (.popped t)
    simp only [effort, List.length_append, hready, List.length_cons, threadLeft,
      PoolEvent.ofThread, if_true] at hi ⊢
    omega
  | tookWork i hi hstop t rest hwork =>
    have hi := hthread hi (.popped t)
    simp only [effort, List.length_append, hwork, List.length_cons, threadLeft,
      PoolEvent.ofThread, if_true] at hi ⊢
    omega
  | started i t hi =>
    have hi := hthread hi (.rendering t)
    simp only [effort, threadLeft, PoolEvent.ofThread, if_true] at hi ⊢
    omega
  | finished i t hi =>
    have hi := hthread hi (.counted t)
    simp only [effort, threadLeft, PoolEvent.ofThread, if_true] at hi ⊢
    omega
  | returned i t hi ht =>
    have hi := hthread hi (.counted t)
    simp only [effort, threadLeft, PoolEvent.ofThread, if_true] at hi ⊢
    omega
  | settled k => exact Nat.le_refl _
  | released i t hi outstanding =>
    have hi := hthread hi (.released t)
    simp only [effort, threadLeft, PoolEvent.ofThread, if_true] at hi ⊢
    omega
  | done i t hi active =>
    have hi := hthread hi p.afterTask
    have hafter : threadLeft p.afterTask ≤ 1 := by
      rcases p.afterTask_cases with h | h <;> rw [h] <;> decide
    have hreleased : threadLeft (.released t) = 2 := rfl
    simp only [effort, PoolEvent.ofThread, if_true]
    omega
  | inlinedNext i t hi hw c next hfront =>
    have hi := hthread hi (.popped next)
    have hfront := hparked hfront
    simp only [effort, List.length_append, threadLeft, PoolEvent.ofThread, if_true] at hi ⊢
    omega
  | readiedNext i t hi hw c next hfront =>
    have hi := hthread hi .waiting
    have hfront := hparked hfront
    simp only [effort, List.length_append, List.length_singleton, threadLeft, PoolEvent.ofThread,
      if_true] at hi ⊢
    omega
  | drained o active outstanding ready parked drops hdrops hperm =>
    have hlength := hperm.length_eq.trans_le (List.length_filter_le _ _)
    have hwork := List.length_filter_le (fun t => !decide (t.owner = o)) p.workReady
    simp only [List.length_append] at hlength
    simp only [effort, List.length_append, PoolEvent.ofThread, Bool.false_eq_true, if_false]
    omega
  | stopped => exact Nat.le_refl _

/-! ## Threads that can go on -/

/-- A thread with a task can go on. -/
theorem thread_goes_on (serialize : ℕ → Bool) {th : PoolThread} (hi : p.threads[i]? = some th)
    (hth : th.holding? = some t) :
    ∃ e : PoolEvent, e.ofThread = true ∧ (WorkerPool.step serialize e p).isSome ∧
      ∀ k, e ≠ .enqueue k := by
  cases th with
  | waiting => cases hth
  | exited => cases hth
  | popped t => exact ⟨.start i, rfl, by simp only [WorkerPool.step, hi, Option.isSome], by simp⟩
  | rendering t =>
    exact ⟨.finish i true, rfl, by simp only [WorkerPool.step, hi, if_true, Option.isSome], by simp⟩
  | counted t => exact ⟨.release i, rfl, by simp only [WorkerPool.step, hi, Option.isSome], by simp⟩
  | released t =>
    exact ⟨.releaseGate i, rfl, by simp only [WorkerPool.step, hi, Option.isSome], by simp⟩

/-- While a job is queued and the pool is not stopped, a thread can go on. -/
theorem Crew.worker_goes_on (serialize : ℕ → Bool) (h : p.Crew) (hstop : p.stop = false)
    (ht : t ∈ p.workReady) :
    ∃ e : PoolEvent, e.ofThread = true ∧ (WorkerPool.step serialize e p).isSome ∧
      ∀ k, e ≠ .enqueue k := by
  have hw : p.workerCount ≠ 0 := fun hw => by
    rw [h.unmanned hw] at ht
    cases ht
  obtain ⟨th, hth⟩ := List.exists_mem_of_ne_nil _ (h.manned hw)
  obtain ⟨i, hi⟩ := List.mem_iff_getElem?.mp hth
  cases hholding : th.holding? with
  | some held => exact thread_goes_on serialize hi hholding
  | none =>
    cases th with
    | exited =>
      have hstopped := h.stop_of_exited hw hth
      rw [hstop] at hstopped
      cases hstopped
    | waiting =>
      refine ⟨.take i, rfl, ?_, nofun⟩
      rw [WorkerPool.step, hi]
      dsimp only
      rw [take, hstop, if_neg Bool.false_ne_true]
      split
      case h_1 => rfl
      case h_2 => rfl
      case h_3 hnone =>
        rw [hnone] at ht
        cases ht
    | popped _ | rendering _ | counted _ | released _ => cases hholding

/-! ## Accounts of any run -/

/-- The pool that had counted these tasks as completed, and waits for no render. -/
def countedAs (c : List PoolTask) (p : WorkerPool) : WorkerPool :=
  { p with completed := c, unsettled := [] }

/-- The accounts of a pool whose renders may be settled late: when a render is counted as it
returns, the ledger holds. Jobs are counted so anyway. -/
structure Accounts (p : WorkerPool) : Prop where
  /-- The ledger holds, and the jobs that are counted are the same. -/
  ledger : ∃ c, (p.countedAs c).Ledger ∧
    ∀ t : PoolTask, t.content = none → c.count t = p.completed.count t

theorem init_accounts (workerCount : ℕ) : (init workerCount).Accounts :=
  ⟨[], init_ledger workerCount, fun _ _ => rfl⟩

section CountedAs

variable (c : List PoolTask)

theorem dropQueued_countedAs (cause : Option ℕ) (ts : List PoolTask) (p : WorkerPool) :
    dropQueued cause ts (p.countedAs c) = (dropQueued cause ts p).countedAs c := by
  induction ts generalizing p with
  | nil => rfl
  | cons t ts ih =>
    exact ih (releaseOutstanding t.owner { p with dropped := p.dropped ++ [(t, cause)] })

theorem dispatch_countedAs (t : PoolTask) (p : WorkerPool) :
    dispatch t (p.countedAs c) = (dispatch t p).countedAs c := by
  unfold dispatch
  by_cases hw : p.workerCount = 0
  · rw [if_pos hw, if_pos (show (p.countedAs c).workerCount = 0 from hw)]
    rfl
  · rw [if_neg hw, if_neg (show ¬ (p.countedAs c).workerCount = 0 from hw)]
    split <;> rfl

theorem enqueue_countedAs (serialize : ℕ → Bool) (t : PoolTask) (p : WorkerPool) :
    enqueue serialize t (p.countedAs c) = (enqueue serialize t p).countedAs c := by
  unfold enqueue
  cases gate serialize t with
  | none => exact dispatch_countedAs c t p
  | some content =>
    dsimp only
    by_cases hactive : p.active content = true
    · rw [if_pos hactive, if_pos (show (p.countedAs c).active content = true from hactive)]
      rfl
    · rw [if_neg hactive, if_neg (show ¬ (p.countedAs c).active content = true from hactive)]
      exact dispatch_countedAs c t { p with active := Function.update p.active content true }

theorem take_countedAs (i : ℕ) (p : WorkerPool) :
    (p.countedAs c).take i = (p.take i).map (countedAs c) := by
  unfold take
  by_cases hstop : p.stop = true
  · rw [if_pos hstop, if_pos (show (p.countedAs c).stop = true from hstop)]
    exact congrArg (fun q : WorkerPool => some (q.setThread i .exited))
      (dropQueued_countedAs c none _ { p with ready := [], parked := [], workReady := [] })
  · rw [if_neg hstop, if_neg (show ¬ (p.countedAs c).stop = true from hstop)]
    rw [show (p.countedAs c).ready = p.ready from rfl,
      show (p.countedAs c).workReady = p.workReady from rfl]
    cases p.ready with
    | cons t rest => rfl
    | nil => cases p.workReady <;> rfl

theorem releaseGate_countedAs (serialize : ℕ → Bool) (i : ℕ) (t : PoolTask) (p : WorkerPool) :
    (p.countedAs c).releaseGate serialize i t = (p.releaseGate serialize i t).countedAs c := by
  unfold releaseGate
  cases gate serialize t with
  | none => rfl
  | some content =>
    dsimp only
    rw [show (p.countedAs c).front content = p.front content from rfl]
    cases p.front content with
    | none => rfl
    | some next =>
      dsimp only
      rw [show (p.countedAs c).workerCount = p.workerCount from rfl]
      split <;> rfl

theorem handOn_countedAs (content : ℕ) (p : WorkerPool) :
    (p.countedAs c).handOn content = (p.handOn content).countedAs c := by
  unfold handOn
  by_cases hactive : p.active content = true
  · rw [if_pos hactive, if_pos (show (p.countedAs c).active content = true from hactive)]
    rw [show (p.countedAs c).front content = p.front content from rfl]
    cases p.front content <;> rfl
  · rw [if_neg hactive, if_neg (show ¬ (p.countedAs c).active content = true from hactive)]

theorem handOnAll_countedAs (orphans : List ℕ) (p : WorkerPool) :
    orphans.foldl (fun p content => p.handOn content) (p.countedAs c) =
      (orphans.foldl (fun p content => p.handOn content) p).countedAs c := by
  induction orphans generalizing p with
  | nil => rfl
  | cons content rest ih =>
    rw [List.foldl_cons, List.foldl_cons, handOn_countedAs]
    exact ih _

theorem drainOwner_countedAs (owner : ℕ) (p : WorkerPool) :
    (p.countedAs c).drainOwner owner = (p.drainOwner owner).countedAs c := by
  have hparked : (p.countedAs c).purgeParked owner = (p.purgeParked owner).countedAs c :=
    dropQueued_countedAs c _ _ { p with parked := _ }
  have hready : ∀ q : WorkerPool, (q.countedAs c).purgeReady owner =
      (q.purgeReady owner).countedAs c := fun q =>
    dropQueued_countedAs c _ _ { q with ready := _ }
  have hwork : ∀ q : WorkerPool, (q.countedAs c).purgeWork owner =
      (q.purgeWork owner).countedAs c := fun q =>
    dropQueued_countedAs c _ _ { q with workReady := _ }
  unfold drainOwner
  dsimp only
  rw [hparked, hready, handOnAll_countedAs, hwork]
  rfl

end CountedAs

/-- Every event keeps the accounts. -/
theorem Accounts.step {serialize : ℕ → Bool} {e : PoolEvent} (h : p.Accounts)
    (hs : WorkerPool.step serialize e p = some p') : p'.Accounts := by
  obtain ⟨c, hledger, hcount⟩ := h
  -- what a pool that counts renders as they return does instead
  have hstep : ∀ e', Orderly e' (p.countedAs c) →
      WorkerPool.step serialize e' (p.countedAs c) = some (p'.countedAs c) →
      p'.completed = p.completed → p'.Accounts := fun e' ha hs' hcompleted =>
    ⟨c, hledger.step ha hs', by rwa [hcompleted]⟩
  have hm := moved_of_step hs
  cases e with
  | submit t =>
    refine hstep (.submit t) trivial ?_ (by cases hm <;> rfl)
    obtain rfl := Option.some.inj hs
    show some ((p.countedAs c).admitTask t) = _
    rw [admitTask, admitTask]
    by_cases hstop : p.stop = true
    · rw [if_pos hstop, if_pos (show (p.countedAs c).stop = true from hstop)]
    · rw [if_neg hstop, if_neg (show ¬ (p.countedAs c).stop = true from hstop)]
      rfl
  | enqueue k =>
    refine hstep (.enqueue k) trivial ?_ (by cases hm <;> rfl)
    obtain ⟨t, ht, rfl⟩ := Option.map_eq_some_iff.mp hs
    show (p.admitting[k]?).map _ = _
    rw [ht]
    exact congrArg some (enqueue_countedAs c serialize t { p with
      admitting := p.admitting.eraseIdx k
      enqueued := p.enqueued ++ [t] })
  | take i =>
    refine hstep (.take i) trivial ?_ (by cases hm <;> rfl)
    simp only [WorkerPool.step] at hs
    have hi : p.threads[i]? = some .waiting := by
      split at hs
      case h_1 hi => exact hi
      case h_2 => cases hs
    rw [hi] at hs
    have htake : p.take i = some p' := hs
    rw [WorkerPool.step, show (p.countedAs c).threads[i]? = some .waiting from hi]
    dsimp only
    rw [take_countedAs, htake]
    rfl
  | start i =>
    refine hstep (.start i) trivial ?_ (by cases hm; rfl)
    cases hm with
    | started i t hi =>
      rw [WorkerPool.step, show (p.countedAs c).threads[i]? = some (.popped t) from hi]
      rfl
  | finish i settled =>
    -- a render that is not settled is counted as it returns
    have hfinish : ∀ t, p.threads[i]? = some (.rendering t) → p'.countedAs (c ++ [t]) =
        { p.countedAs c with completed := c ++ [t] }.setThread i (.counted t) →
        (p'.countedAs (c ++ [t])).Ledger := fun t hi heq => by
      rw [heq]
      exact Ledger.finish hledger hi
    cases hm with
    | finished i t hi =>
      refine ⟨c ++ [t], hfinish t hi rfl, fun x hx => ?_⟩
      show (c ++ [t]).count x = (p.completed ++ [t]).count x
      rw [List.count_append, List.count_append, hcount x hx]
    | returned i t hi ht =>
      refine ⟨c ++ [t], hfinish t hi rfl, fun x hx => ?_⟩
      have hne : x ∉ [t] := fun hmem => by
        obtain rfl := List.mem_singleton.mp hmem
        exact ht hx
      rw [List.count_append, List.count_eq_zero_of_not_mem hne]
      exact hcount x hx
  | settle k =>
    cases hm with
    | settled => exact ⟨c, hledger, hcount⟩
  | release i =>
    refine hstep (.release i) trivial ?_ (by cases hm; rfl)
    simp only [WorkerPool.step] at hs
    obtain ⟨t, hi⟩ : ∃ t, p.threads[i]? = some (.counted t) := by
      split at hs
      case h_1 t hi => exact ⟨t, hi⟩
      case h_2 => cases hs
    rw [hi] at hs
    obtain rfl := Option.some.inj hs
    rw [WorkerPool.step, show (p.countedAs c).threads[i]? = some (.counted t) from hi]
    rfl
  | releaseGate i =>
    refine hstep (.releaseGate i) trivial ?_ (by cases hm <;> rfl)
    simp only [WorkerPool.step] at hs
    obtain ⟨t, hi⟩ : ∃ t, p.threads[i]? = some (.released t) := by
      split at hs
      case h_1 t hi => exact ⟨t, hi⟩
      case h_2 => cases hs
    rw [hi] at hs
    obtain rfl := Option.some.inj hs
    rw [WorkerPool.step, show (p.countedAs c).threads[i]? = some (.released t) from hi]
    exact congrArg some (releaseGate_countedAs c serialize i _ p)
  | drain owner =>
    refine hstep (.drain owner) trivial ?_ (by cases hm; rfl)
    obtain rfl := Option.some.inj hs
    exact congrArg some (drainOwner_countedAs c owner p)
  | requestStop =>
    cases hm with
    | stopped => exact ⟨c, hledger.move (fun _ _ => rfl) rfl rfl rfl rfl rfl, hcount⟩

/-- A submitted job is under way, queued, with a thread, completed, or dropped, and only one of
these. -/
theorem Accounts.once (h : p.Accounts) (ht : t.content = none) :
    p.submitted.count t = p.pending.count t + p.completed.count t +
      (p.dropped.map Prod.fst).count t := by
  obtain ⟨c, hledger, hcount⟩ := h
  have honce := hledger.once t
  rw [← hcount t ht]
  exact honce

/-- A pending task was submitted. -/
theorem Accounts.mem_submitted (h : p.Accounts) (ht : t ∈ p.pending) : t ∈ p.submitted := by
  obtain ⟨c, hledger, -⟩ := h
  have honce := hledger.once t
  have hpos : 0 < (p.countedAs c).pending.count t := List.count_pos_iff.mpr ht
  refine List.count_pos_iff.mp ?_
  show 0 < (p.countedAs c).submitted.count t
  omega

/-- An owner without claims has no task that somebody may still work on. -/
theorem Accounts.quiet (h : p.Accounts) {o : ℕ} (ho : p.outstanding o = 0) :
    ∀ t ∈ p.unfinished, t.owner ≠ o := by
  obtain ⟨c, hledger, -⟩ := h
  exact hledger.drained ho

/-- An owner with claims has one. -/
theorem Accounts.exists_unfinished (h : p.Accounts) {o : ℕ} (ho : p.outstanding o ≠ 0) :
    ∃ t ∈ p.unfinished, t.owner = o := by
  obtain ⟨c, hledger, -⟩ := h
  by_contra hnone
  refine ho ?_
  have hclaims : p.outstanding o = tally (ownedBy o) p.unfinished := by
    refine (hledger.claims o).trans ?_
    rw [unfinished, tally_append, tally_append, weigh, tally_nil, Nat.zero_add]
    rfl
  rw [hclaims, List.tally_eq_zero_iff]
  intro t ht
  rw [ownedBy, if_neg]
  exact fun howner => hnone ⟨t, ht, howner⟩

/-- A drain drops the tasks of its owner. -/
theorem Accounts.own_drops (h : p.Accounts) {o : ℕ} (ht : (t, some o) ∈ p.dropped) :
    t.owner = o := by
  obtain ⟨c, hledger, -⟩ := h
  exact hledger.own_drops t o ht

end WorkerPool

end ArbitraryComposer
