import ArbitraryComposer.Runtime.PoolGates

/-!
# Soundness of the Worker Pool

Two more facts hold along a run: a stop that meets no submit under way leaves none, and a worker that
has returned has emptied the queues. With the accounts and the gates they say what a pool owes its
submitters.

## Main definitions

- `WorkerPool.Phases`: what a stop and a worker that has returned leave.
- `WorkerPool.Quiescent`: no thread can go on.
- `PoolSound`: what a pool owes its submitters.

## Main results

- `pool_sound`: orderly runs of a pool are sound.
- `not_pool_sound`: a render that is settled after it has returned is never counted.
-/

namespace ArbitraryComposer

open List (tally tally_nil tally_cons tally_append)

namespace WorkerPool

/-! ## Phases -/

/-- What a stop and a worker that has returned leave. -/
structure Phases (p : WorkerPool) : Prop where
  /-- After a stop no submit is under way. -/
  shut : p.stop = true → p.admitting = []
  /-- Workers neither come nor go. -/
  crew : p.workerCount ≠ 0 → p.threads.length = p.workerCount
  /-- A worker returns at a stop, and leaves empty queues. -/
  abandoned : p.workerCount ≠ 0 → .exited ∈ p.threads →
    p.stop = true ∧ p.ready = [] ∧ p.workReady = [] ∧ p.parked = []
  /-- Without workers nothing is ready. -/
  inlined : p.workerCount = 0 → p.ready = [] ∧ p.workReady = []

section Phases

variable {p p' : WorkerPool} {t : PoolTask} {i : ℕ}

theorem init_phases (workerCount : ℕ) : (init workerCount).Phases := by
  refine ⟨nofun, fun _ => List.length_replicate, fun _ hexited => ?_, fun _ => ⟨rfl, rfl⟩⟩
  cases List.eq_of_mem_replicate hexited

/-- A step that lets no worker return keeps the phases when it fills no queue of a pool whose
workers have returned, or that has none. -/
theorem Phases.keep (h : p.Phases) (hcount : p'.workerCount = p.workerCount)
    (hstop : p'.stop = p.stop) (hadmitting : p.admitting = [] → p'.admitting = [])
    (hcrew : p.workerCount ≠ 0 → p'.threads.length = p.threads.length)
    (hexited : p.workerCount ≠ 0 → .exited ∈ p'.threads → .exited ∈ p.threads)
    (hempty : p.stop = true → p.ready = [] → p.workReady = [] → p.parked = [] →
      p'.ready = [] ∧ p'.workReady = [] ∧ p'.parked = [])
    (hinlined : p.workerCount = 0 → p.ready = [] → p.workReady = [] →
      p'.ready = [] ∧ p'.workReady = []) : p'.Phases := by
  refine ⟨fun hs => hadmitting (h.shut (hstop ▸ hs)), fun hw => ?_, fun hw he => ?_, fun hw => ?_⟩
  · rw [hcount] at hw ⊢
    exact (hcrew hw).trans (h.crew hw)
  · rw [hcount] at hw
    obtain ⟨hs, hready, hwork, hparked⟩ := h.abandoned hw (hexited hw he)
    exact ⟨hstop.trans hs, hempty hs hready hwork hparked⟩
  · rw [hcount] at hw
    obtain ⟨hready, hwork⟩ := h.inlined hw
    exact hinlined hw hready hwork

/-- A drop changes the accounts only. -/
theorem dropQueued_eq (cause : Option ℕ) (ts : List PoolTask) (p : WorkerPool) :
    ∃ outstanding dropped, WorkerPool.dropQueued cause ts p =
      { p with outstanding := outstanding, dropped := dropped } := by
  induction ts generalizing p with
  | nil => exact ⟨_, _, rfl⟩
  | cons t ts ih => exact ih _

theorem exited_of_set {th : PoolThread} (hth : th ≠ .exited)
    (h : .exited ∈ (p.setThread i th).threads) : .exited ∈ p.threads := by
  rcases List.mem_or_eq_of_mem_set h with h | h
  · exact h
  · exact absurd h.symm hth

/-- A thread moves, and does not return. -/
theorem Phases.setThread {th : PoolThread} (h : p.Phases)
    (hth : p.workerCount ≠ 0 → th ≠ .exited) : (p.setThread i th).Phases :=
  h.keep rfl rfl id (fun _ => List.length_set) (fun hw => exited_of_set (hth hw))
    (fun _ hr hw hp => ⟨hr, hw, hp⟩) fun _ hr hw => ⟨hr, hw⟩

theorem Phases.enqueue {serialize : ℕ → Bool} (h : p.Phases) (hstop : p.stop = false)
    (admitting enqueued : List PoolTask) :
    (WorkerPool.enqueue serialize t
      { p with admitting := admitting, enqueued := enqueued }).Phases := by
  -- Before a stop only the last two facts say anything, and the third says that none returned.
  have hdispatch : ∀ q : WorkerPool, q.Phases → q.stop = false → (q.dispatch t).Phases :=
    fun q hq hs => by
      unfold WorkerPool.dispatch
      split_ifs with hw
      · exact ⟨fun h' => absurd (hs.symm.trans h') Bool.noConfusion, fun h' => absurd hw h',
          fun h' => absurd hw h', hq.inlined⟩
      · exact ⟨hq.shut, hq.crew, fun h' he => absurd (hs.symm.trans (hq.abandoned h' he).1)
          Bool.noConfusion, fun h' => absurd h' hw⟩
      · exact ⟨hq.shut, hq.crew, fun h' he => absurd (hs.symm.trans (hq.abandoned h' he).1)
          Bool.noConfusion, fun h' => absurd h' hw⟩
  have hopen : ∀ active parked, ({ p with
      admitting := admitting
      enqueued := enqueued
      active := active
      parked := parked } : WorkerPool).Phases := fun active parked =>
    ⟨fun h' => absurd (hstop.symm.trans h') Bool.noConfusion, h.crew,
      fun h' he => absurd (hstop.symm.trans (h.abandoned h' he).1) Bool.noConfusion, h.inlined⟩
  unfold WorkerPool.enqueue
  split
  · exact hdispatch _ (hopen _ _) hstop
  · split_ifs
    · exact hopen _ _
    · exact hdispatch _ (hopen _ _) hstop

theorem Phases.take (h : p.Phases) (hp : p.take i = some p') : p'.Phases := by
  unfold WorkerPool.take at hp
  split at hp
  case isTrue hstop =>
    obtain rfl := Option.some.inj hp
    unfold WorkerPool.abandonQueued
    obtain ⟨outstanding, dropped, heq⟩ := dropQueued_eq none (p.ready ++ p.parked ++ p.workReady)
      { p with ready := [], parked := [], workReady := [] }
    rw [heq]
    exact ⟨h.shut, fun hw => List.length_set.trans (h.crew hw), fun _ _ => ⟨hstop, rfl, rfl, rfl⟩,
      fun _ => ⟨rfl, rfl⟩⟩
  case isFalse hstop =>
    split at hp
    case h_1 t rest hready =>
      obtain rfl := Option.some.inj hp
      have hq : ({ p with ready := rest } : WorkerPool).Phases :=
        h.keep rfl rfl id (fun _ => rfl) (fun _ => id) (fun hs => absurd hs hstop)
          fun _ hr => absurd (hready.symm.trans hr) (List.cons_ne_nil _ _)
      exact hq.setThread fun _ => PoolThread.noConfusion
    case h_2 t rest _ hwork =>
      obtain rfl := Option.some.inj hp
      have hq : ({ p with workReady := rest } : WorkerPool).Phases :=
        h.keep rfl rfl id (fun _ => rfl) (fun _ => id) (fun hs => absurd hs hstop)
          fun _ _ hw => absurd (hwork.symm.trans hw) (List.cons_ne_nil _ _)
      exact hq.setThread fun _ => PoolThread.noConfusion
    case h_3 => cases hp

theorem afterTask_of_workers (h : p.workerCount ≠ 0) : p.afterTask = .waiting := if_neg h

theorem Phases.releaseGate {serialize : ℕ → Bool} (h : p.Phases) :
    (p.releaseGate serialize i t).Phases := by
  have hafter : p.workerCount ≠ 0 → p.afterTask ≠ .exited := fun hw => by
    rw [afterTask_of_workers hw]
    exact PoolThread.noConfusion
  unfold WorkerPool.releaseGate
  split
  case h_1 => exact h.setThread hafter
  case h_2 c _ =>
    split
    case h_1 =>
      exact Phases.setThread (p := p.closeGate c) ⟨h.shut, h.crew, h.abandoned, h.inlined⟩ hafter
    case h_2 next hfront =>
      -- Somebody was parked, so no worker has returned.
      have hparked : p.parked ≠ [] := fun hnil => by
        rw [WorkerPool.front, hnil] at hfront
        cases hfront
      split_ifs with hw
      · have hq : (p.popFront c).Phases := h.keep rfl rfl id (fun _ => rfl) (fun _ => id)
          (fun _ _ _ hp => absurd hp hparked) fun _ hr hw => ⟨hr, hw⟩
        exact hq.setThread fun hw' => absurd hw hw'
      · have hq : ({ p.popFront c with ready := p.ready ++ [next] } : WorkerPool).Phases :=
          h.keep rfl rfl id (fun _ => rfl) (fun _ => id) (fun _ _ _ hp => absurd hp hparked)
            fun hw' => absurd hw' hw
        exact hq.setThread fun _ => PoolThread.noConfusion

section Drain

variable (owner : ℕ)

theorem Phases.purgeParked (h : p.Phases) : (p.purgeParked owner).Phases := by
  unfold WorkerPool.purgeParked
  obtain ⟨outstanding, dropped, heq⟩ := dropQueued_eq (some owner)
    (p.parked.filter (·.owner = owner))
    { p with parked := p.parked.filter fun t => !decide (t.owner = owner) }
  rw [heq]
  refine h.keep rfl rfl id (fun _ => rfl) (fun _ => id) (fun _ hr hw hp => ⟨hr, hw, ?_⟩)
    fun _ hr hw => ⟨hr, hw⟩
  show p.parked.filter _ = []
  rw [hp, List.filter_nil]

theorem Phases.purgeReady (h : p.Phases) : (p.purgeReady owner).Phases := by
  unfold WorkerPool.purgeReady
  obtain ⟨outstanding, dropped, heq⟩ := dropQueued_eq (some owner)
    (p.ready.filter (·.owner = owner))
    { p with ready := p.ready.filter fun t => !decide (t.owner = owner) }
  rw [heq]
  have hready : p.ready = [] → (p.ready.filter fun t => !decide (t.owner = owner)) = [] :=
    fun hr => by rw [hr, List.filter_nil]
  exact h.keep rfl rfl id (fun _ => rfl) (fun _ => id) (fun _ hr hw hp => ⟨hready hr, hw, hp⟩)
    fun _ hr hw => ⟨hready hr, hw⟩

theorem Phases.purgeWork (h : p.Phases) : (p.purgeWork owner).Phases := by
  unfold WorkerPool.purgeWork
  obtain ⟨outstanding, dropped, heq⟩ := dropQueued_eq (some owner)
    (p.workReady.filter (·.owner = owner))
    { p with workReady := p.workReady.filter fun t => !decide (t.owner = owner) }
  rw [heq]
  have hwork : p.workReady = [] → (p.workReady.filter fun t => !decide (t.owner = owner)) = [] :=
    fun hw => by rw [hw, List.filter_nil]
  exact h.keep rfl rfl id (fun _ => rfl) (fun _ => id) (fun _ hr hw hp => ⟨hr, hwork hw, hp⟩)
    fun _ hr hw => ⟨hr, hwork hw⟩

/-- A gate that is handed on makes a parked render ready, which a pool with workers may have. -/
theorem Phases.handOn (h : p.Phases) (hworkers : p.workerCount ≠ 0) (c : ℕ) :
    (p.handOn c).Phases ∧ (p.handOn c).workerCount ≠ 0 := by
  unfold WorkerPool.handOn
  split
  case isFalse => exact ⟨h, hworkers⟩
  case isTrue =>
    cases hfront : p.front c with
    | none => exact ⟨⟨h.shut, h.crew, h.abandoned, h.inlined⟩, hworkers⟩
    | some t =>
      have hparked : p.parked ≠ [] := fun hnil => by
        rw [WorkerPool.front, hnil] at hfront
        cases hfront
      exact ⟨h.keep rfl rfl id (fun _ => rfl) (fun _ => id) (fun _ _ _ hp => absurd hp hparked)
        fun hw => absurd hw hworkers, hworkers⟩

theorem Phases.handOnAll {orphans : List ℕ} (h : p.Phases)
    (horphans : p.workerCount = 0 → orphans = []) :
    (orphans.foldl (fun p c => p.handOn c) p).Phases := by
  induction orphans generalizing p with
  | nil => exact h
  | cons c rest ih =>
    have hworkers : p.workerCount ≠ 0 := fun hw => List.cons_ne_nil _ _ (horphans hw)
    obtain ⟨hhanded, hworkers'⟩ := h.handOn hworkers c
    exact ih hhanded fun hw => absurd hw hworkers'

theorem Phases.drainOwner (h : p.Phases) : (p.drainOwner owner).Phases := by
  have hparked := h.purgeParked owner
  refine ((hparked.purgeReady owner).handOnAll fun hw => ?_).purgeWork owner
  -- Without workers nothing is ready, and no gate is orphaned.
  have hcount : (p.purgeParked owner).workerCount = 0 := by
    rw [← hw, WorkerPool.purgeReady]
    obtain ⟨outstanding, dropped, heq⟩ := dropQueued_eq (some owner)
      ((p.purgeParked owner).ready.filter (·.owner = owner))
      { p.purgeParked owner with
        ready := (p.purgeParked owner).ready.filter fun t => !decide (t.owner = owner) }
    rw [heq]
  rw [WorkerPool.orphanedGates, (hparked.inlined hcount).1]
  rfl

end Drain

/-- Every orderly event keeps the phases. -/
theorem Phases.step {serialize : ℕ → Bool} {e : PoolEvent} (h : p.Phases) (ha : Orderly e p)
    (hs : WorkerPool.step serialize e p = some p') : p'.Phases := by
  cases e with
  | submit t =>
    obtain rfl := Option.some.inj hs
    unfold WorkerPool.admitTask
    split
    case isTrue => exact h
    case isFalse hstop =>
      exact ⟨fun h' => absurd h' hstop, h.crew, fun hw he => absurd (h.abandoned hw he).1 hstop,
        h.inlined⟩
  | enqueue k =>
    obtain ⟨t, ht, rfl⟩ := Option.map_eq_some_iff.mp hs
    refine h.enqueue (Bool.eq_false_iff.mpr fun hstop => ?_) _ _
    rw [h.shut hstop] at ht
    cases ht
  | take i =>
    simp only [WorkerPool.step] at hs
    split at hs
    · exact h.take hs
    · cases hs
  | start i =>
    simp only [WorkerPool.step] at hs
    split at hs
    · obtain rfl := Option.some.inj hs
      exact Phases.setThread (p := { p with started := _ })
        ⟨h.shut, h.crew, h.abandoned, h.inlined⟩ fun _ => PoolThread.noConfusion
    · cases hs
  | finish i settled =>
    obtain rfl : settled = true := ha
    simp only [WorkerPool.step] at hs
    split at hs
    · obtain rfl := Option.some.inj hs
      exact Phases.setThread (p := { p with completed := _ })
        ⟨h.shut, h.crew, h.abandoned, h.inlined⟩ fun _ => PoolThread.noConfusion
    · cases hs
  | settle k =>
    obtain ⟨t, -, rfl⟩ := Option.map_eq_some_iff.mp hs
    exact ⟨h.shut, h.crew, h.abandoned, h.inlined⟩
  | release i =>
    simp only [WorkerPool.step] at hs
    split at hs
    · obtain rfl := Option.some.inj hs
      exact Phases.setThread (p := p.releaseOutstanding _)
        ⟨h.shut, h.crew, h.abandoned, h.inlined⟩ fun _ => PoolThread.noConfusion
    · cases hs
  | releaseGate i =>
    simp only [WorkerPool.step] at hs
    split at hs
    · obtain rfl := Option.some.inj hs
      exact h.releaseGate
    · cases hs
  | drain owner =>
    obtain rfl := Option.some.inj hs
    exact h.drainOwner owner
  | requestStop =>
    obtain rfl := Option.some.inj hs
    have hnone : p.admitting = [] := ha
    exact ⟨fun _ => hnone, h.crew, fun hw he => ⟨rfl, (h.abandoned hw he).2⟩, h.inlined⟩

end Phases

/-! ## What a run keeps -/

section Runs

variable {serialize : ℕ → Bool} {p : WorkerPool}

theorem reachable_kept {workerCount : ℕ}
    (h : (workerPool serialize workerCount).Reachable Orderly p) :
    p.Ledger ∧ p.Gates serialize ∧ p.Phases := by
  refine h.invariant (I := fun p => p.Ledger ∧ p.Gates serialize ∧ p.Phases) ?_ ?_
  · rintro _ rfl
    exact ⟨init_ledger workerCount, init_gates workerCount, init_phases workerCount⟩
  · rintro p e p' ⟨hledger, hgates, hphases⟩ ha hs
    exact ⟨hledger.step ha hs, hgates.step hphases.shut hs, hphases.step ha hs⟩

end Runs

end WorkerPool

/-! ## What a pool owes its submitters -/

/-- What the threads of a pool do; submitters, settlers and a stop come from outside. -/
def PoolEvent.ofThread : PoolEvent → Bool
  | .enqueue _ | .take _ | .start _ | .finish _ _ | .release _ | .releaseGate _ => true
  | .submit _ | .settle _ | .drain _ | .requestStop => false

namespace WorkerPool

/-- No thread can go on. -/
def Quiescent (serialize : ℕ → Bool) (p : WorkerPool) : Prop :=
  ∀ e : PoolEvent, e.ofThread = true → WorkerPool.step serialize e p = none

/-- The tasks that have not returned from their render: under way, queued, with threads. -/
def pending (p : WorkerPool) : List PoolTask :=
  p.admitting ++ p.queued ++ p.held PoolThread.unreturned?

/-- The tasks that somebody may still work on for their owner. -/
def unfinished (p : WorkerPool) : List PoolTask :=
  p.admitting ++ p.queued ++ p.held PoolThread.outstanding?

end WorkerPool

/-- What a pool owes its submitters. -/
structure PoolSound (serialize : ℕ → Bool) (p : WorkerPool) : Prop where
  /-- One render of a content that is not thread safe runs at a time. -/
  serialised : ∀ c, serialize c = true →
    (WorkerPool.ofContent c (p.held PoolThread.rendering?)).length ≤ 1
  /-- Its renders begin in the order in which they were submitted. -/
  in_order : ∀ c, serialize c = true →
    (WorkerPool.ofContent c p.started).Sublist (WorkerPool.ofContent c p.enqueued)
  /-- Every submitted task is pending, not settled yet, completed, or dropped, and only one of
  these. -/
  once : ∀ t, p.submitted.count t = p.pending.count t + p.unsettled.count t +
    p.completed.count t + (p.dropped.map Prod.fst).count t
  /-- An owner without claims has no task that is queued or runs; a drain waits for this. -/
  drained : ∀ o, p.outstanding o = 0 → ∀ t ∈ p.unfinished, t.owner ≠ o
  /-- A drain drops tasks of its owner. -/
  own_drops : ∀ t o, (t, some o) ∈ p.dropped → t.owner = o
  /-- The gate that a parked task waits at is held. -/
  gates_held : ∀ t ∈ p.parked, ∃ c, t.content = some c ∧
    ∃ t' ∈ p.ready ++ p.held PoolThread.holding?, t'.content = some c
  /-- When no thread can go on, every submitted task has been completed or dropped. -/
  settled_all : p.Quiescent serialize → p.submitted.Perm (p.completed ++ p.dropped.map Prod.fst)
  /-- And the counters agree. -/
  balanced : p.Quiescent serialize → p.submitted.length = p.completed.length + p.dropped.length

namespace WorkerPool

section Sound

variable {serialize : ℕ → Bool} {p : WorkerPool} {c : ℕ}

theorem Gates.serialised (h : p.Gates serialize) (hc : serialize c = true) :
    (ofContent c (p.held PoolThread.rendering?)).length ≤ 1 := by
  have hle : tally (within c fun _ => 1) (p.held PoolThread.rendering?) ≤
      tally (within c fun _ => 1) (p.held PoolThread.holding?) := by
    refine List.tally_filterMap_le (fun th t hth => ?_) p.threads _
    cases th <;> first | exact hth | cases hth
  have hone := (h.gateAt hc).holders_le_one
  unfold holders load at hone
  rw [length_ofContent]
  omega

theorem Gates.in_order (h : p.Gates serialize) (hc : serialize c = true) :
    (ofContent c p.started).Sublist (ofContent c p.enqueued) := by
  obtain ⟨ahead, -, horder⟩ := (h.gateAt hc).in_order
  rw [List.append_assoc] at horder
  exact (List.sublist_append_left _ _).trans horder

theorem Gates.held_of_parked (h : p.Gates serialize) {t : PoolTask} (ht : t ∈ p.parked) :
    ∃ c, t.content = some c ∧
      ∃ t' ∈ p.ready ++ p.held PoolThread.holding?, t'.content = some c := by
  obtain ⟨c, hcontent, hserialize⟩ := h.parked_serialize t ht
  refine ⟨c, hcontent, ?_⟩
  have hparked : ofContent c p.parked ≠ [] :=
    List.ne_nil_of_mem (List.mem_filter.mpr ⟨ht, by simpa using hcontent⟩)
  apply exists_of_tally_within
  rw [tally_append]
  exact fun hnone => (h.gateAt hserialize).parked_held hparked hnone

/-- A pending task is counted once among the submitted. -/
theorem Ledger.once (h : p.Ledger) (t : PoolTask) :
    p.submitted.count t = p.pending.count t + p.unsettled.count t + p.completed.count t +
      (p.dropped.map Prod.fst).count t := by
  have hplaces := h.places fun x => if x = t then 1 else 0
  simp only [weigh, tally_nil, List.tally_ite_eq_count] at hplaces
  rw [pending, h.settled, List.count_append, List.count_append, List.count_nil]
  omega

theorem Ledger.drained (h : p.Ledger) {o : ℕ} (ho : p.outstanding o = 0) :
    ∀ t ∈ p.unfinished, t.owner ≠ o := by
  have hclaims := h.claims o
  rw [ho] at hclaims
  have hnone : tally (ownedBy o) p.unfinished = 0 := by
    rw [unfinished, tally_append, tally_append]
    unfold weigh at hclaims
    omega
  intro t ht howner
  have := List.tally_eq_zero_iff.mp hnone t ht
  rw [ownedBy, if_pos howner] at this
  cases this

/-- When no thread can go on, nothing is under way, queued, or with a thread. -/
theorem pending_of_quiescent (hgates : p.Gates serialize) (hphases : p.Phases)
    (hq : p.Quiescent serialize) : p.pending = [] := by
  have hadmitting : p.admitting = [] := by
    refine List.eq_nil_iff_forall_not_mem.mpr fun t ht => ?_
    obtain ⟨k, hk⟩ := List.mem_iff_getElem?.mp ht
    have := hq (.enqueue k) rfl
    rw [WorkerPool.step, hk] at this
    cases this
  -- A thread that has a task can go on.
  have hidle : ∀ th ∈ p.threads, th = .exited ∨
      th = .waiting ∧ p.ready = [] ∧ p.workReady = [] := fun th hth => by
    obtain ⟨i, hi⟩ := List.mem_iff_getElem?.mp hth
    cases th with
    | exited => exact Or.inl rfl
    | waiting =>
      have := hq (.take i) rfl
      simp only [WorkerPool.step, hi, take] at this
      split_ifs at this
      split at this
      case h_1 => cases this
      case h_2 => cases this
      case h_3 hready hwork => exact Or.inr ⟨rfl, hready, hwork⟩
    | popped t =>
      have := hq (.start i) rfl
      simp only [WorkerPool.step, hi] at this
      cases this
    | rendering t =>
      have := hq (.finish i true) rfl
      simp only [WorkerPool.step, hi, if_true] at this
      cases this
    | counted t =>
      have := hq (.release i) rfl
      simp only [WorkerPool.step, hi] at this
      cases this
    | released t =>
      have := hq (.releaseGate i) rfl
      simp only [WorkerPool.step, hi] at this
      cases this
  have hheld : ∀ g : PoolThread → Option PoolTask, g .exited = none → g .waiting = none →
      p.held g = [] := fun g he hw => by
    refine List.filterMap_eq_nil_iff.mpr fun th hth => ?_
    rcases hidle th hth with rfl | ⟨rfl, -⟩
    · exact he
    · exact hw
  have hqueues : p.ready = [] ∧ p.workReady = [] := by
    by_cases hw : p.workerCount = 0
    · exact hphases.inlined hw
    · obtain ⟨th, hth⟩ : ∃ th, th ∈ p.threads := List.exists_mem_of_length_pos
        ((hphases.crew hw).symm ▸ Nat.pos_of_ne_zero hw)
      rcases hidle th hth with rfl | ⟨-, hready, hwork⟩
      · obtain ⟨-, hready, hwork, -⟩ := hphases.abandoned hw hth
        exact ⟨hready, hwork⟩
      · exact ⟨hready, hwork⟩
  -- Nobody holds a gate, so nobody is parked.
  have hparked : p.parked = [] := by
    refine List.eq_nil_iff_forall_not_mem.mpr fun t ht => ?_
    obtain ⟨c, -, t', ht', -⟩ := hgates.held_of_parked ht
    rw [hqueues.1, hheld PoolThread.holding? rfl rfl] at ht'
    cases ht'
  rw [pending, queued, hadmitting, hqueues.1, hqueues.2, hparked,
    hheld PoolThread.unreturned? rfl rfl]
  rfl

theorem settled_all_of_quiescent (hledger : p.Ledger) (hgates : p.Gates serialize)
    (hphases : p.Phases) (hq : p.Quiescent serialize) :
    p.submitted.Perm (p.completed ++ p.dropped.map Prod.fst) := by
  refine List.perm_iff_count.mpr fun t => ?_
  rw [hledger.once, pending_of_quiescent hgates hphases hq, hledger.settled, List.count_append,
    List.count_nil, Nat.zero_add]

end Sound

end WorkerPool

/-- In a run in which every render is settled when it returns, and no stop meets a submit under way,
a pool keeps what it owes its submitters. -/
theorem pool_sound (serialize : ℕ → Bool) (workerCount : ℕ) (p : WorkerPool)
    (h : (workerPool serialize workerCount).Reachable Orderly p) : PoolSound serialize p := by
  obtain ⟨hledger, hgates, hphases⟩ := WorkerPool.reachable_kept h
  have hall := WorkerPool.settled_all_of_quiescent hledger hgates hphases
  refine ⟨fun c => hgates.serialised, fun c => hgates.in_order, hledger.once,
    fun o => hledger.drained, hledger.own_drops, fun t => hgates.held_of_parked, hall,
    fun hq => ?_⟩
  have hlength := (hall hq).length_eq
  rwa [List.length_append, List.length_map] at hlength

/-- A render of content 0. -/
def someRender (id owner : ℕ) : PoolTask := { id, content := some 0, owner }

/-- One worker completes a render, is handed the next, and drops a third at the stop. -/
theorem pool_sound_workerRun : ∃ p, (p.started.length = 2 ∧ p.dropped.length = 1) ∧
    PoolSound (fun _ => true) p := by
  obtain ⟨p, hp, hrun⟩ := Machine.exists_reachable (M := workerPool (fun _ => true) 1) Orderly
    [.submit (someRender 0 0), .enqueue 0, .submit (someRender 1 1), .enqueue 0,
      .submit (someRender 2 0), .enqueue 0, .take 0, .start 0, .finish 0 true, .release 0,
      .releaseGate 0, .take 0, .start 0, .finish 0 true, .release 0, .requestStop, .releaseGate 0,
      .take 0]
    (fun p : WorkerPool => p.started.length = 2 ∧ p.dropped.length = 1) rfl (by decide +kernel)
    (by decide +kernel)
  exact ⟨p, of_decide_eq_true hrun, pool_sound _ 1 p hp⟩

/-- A render that is settled after it has returned is never counted. -/
theorem not_pool_sound : ¬ ∀ serialize workerCount p,
    (workerPool serialize workerCount).Reachable Machine.anyEvent p → PoolSound serialize p := by
  intro hall
  obtain ⟨p, hp, hrun⟩ := Machine.exists_reachable (M := workerPool (fun _ => true) 1)
    Machine.anyEvent
    [.submit (someRender 0 0), .enqueue 0, .take 0, .start 0, .finish 0 false, .release 0,
      .releaseGate 0, .settle 0]
    (fun p : WorkerPool => p.submitted.count (someRender 0 0) = 1 ∧ p.pending = [] ∧
      p.unsettled = [] ∧ p.completed = [] ∧ p.dropped = [])
    rfl (Machine.runAllowed_anyEvent _ _) (by decide +kernel)
  obtain ⟨hsubmitted, hpending, hunsettled, hcompleted, hdropped⟩ := of_decide_eq_true hrun
  have honce := (hall _ 1 p hp).once (someRender 0 0)
  rw [hsubmitted, hpending, hunsettled, hcompleted, hdropped] at honce
  cases honce

end ArbitraryComposer
