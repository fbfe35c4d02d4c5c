import ArbitraryComposer.Runtime.PoolAccounting
import Mathlib.Data.List.Nodup

/-!
# The Gates of the Worker Pool

The renders of a content that is not thread safe pass its gate. At most one task holds the gate, and
renders are parked only while a task does, so each of them is handed the gate in its turn. A drain
drops the holder of a gate first and hands the gate on afterwards; in between the gate is orphaned.

A gate is followed through its own tasks only: those that hold it, the one that is about to begin,
and those that are parked.

## Main definitions

- `WorkerPool.GateAt`: the invariant of one gate.
- `WorkerPool.Gates`: the invariant of all gates.

## Main results

- `WorkerPool.init_gates`, `WorkerPool.Gates.step`: every event keeps the gates.
-/

namespace ArbitraryComposer

open List (tally tally_nil tally_cons tally_append)

namespace WorkerPool

/-- A weight of the renders of a content; other tasks weigh nothing. -/
def within (c : ℕ) (f : PoolTask → ℕ) (t : PoolTask) : ℕ := if t.content = some c then f t else 0

/-- The renders of a content in a list. -/
def ofContent (c : ℕ) (l : List PoolTask) : List PoolTask := l.filter (·.content = some c)

/-- The weight of the renders of a content that are ready or with threads. -/
def load (g : PoolThread → Option PoolTask) (c : ℕ) (f : PoolTask → ℕ) (p : WorkerPool) : ℕ :=
  tally (within c f) p.ready + tally (within c f) (p.held g)

/-- How many tasks hold the gate of a content. -/
def holders (c : ℕ) (p : WorkerPool) : ℕ := load PoolThread.holding? c (fun _ => 1) p

/-- The gate of a content. An orphaned gate is held by no task, and a drain is about to hand it
on. -/
structure GateAt (c : ℕ) (orphan : Prop) (p : WorkerPool) : Prop where
  /-- At most one task holds the gate, and its entry is there then. -/
  holders_le : holders c p ≤ if p.active c then 1 else 0
  /-- An orphaned gate has an entry and no holder. -/
  orphaned : orphan → p.active c = true ∧ holders c p = 0
  /-- Before a stop the gate is held while it has an entry. -/
  active_held : p.stop = false → p.active c = true → holders c p = 0 → orphan
  /-- The gate is held while renders are parked. -/
  parked_held : ofContent c p.parked ≠ [] → holders c p = 0 → orphan
  /-- The renders that have begun, the one that is about to, and the parked ones came in this
  order. -/
  in_order : ∃ ahead, (∀ f, tally f ahead = load PoolThread.popped? c f p) ∧
    (ofContent c p.started ++ ahead ++ ofContent c p.parked).Sublist (ofContent c p.enqueued)

section Weights

variable {c : ℕ} {t : PoolTask} {f : PoolTask → ℕ}

theorem within_of_eq (h : t.content = some c) : within c f t = f t := if_pos h

theorem within_of_ne (h : t.content ≠ some c) : within c f t = 0 := if_neg h

@[simp]
theorem ofContent_append (c : ℕ) (l l' : List PoolTask) :
    ofContent c (l ++ l') = ofContent c l ++ ofContent c l' :=
  List.filter_append l l'

theorem ofContent_of_eq (h : t.content = some c) : ofContent c [t] = [t] := by
  rw [ofContent, List.filter_cons_of_pos (by simpa using h), List.filter_nil]

theorem ofContent_of_ne (h : t.content ≠ some c) : ofContent c [t] = [] := by
  rw [ofContent, List.filter_cons_of_neg (by simpa using h), List.filter_nil]

theorem tally_within (c : ℕ) (f : PoolTask → ℕ) (l : List PoolTask) :
    tally (within c f) l = tally f (ofContent c l) := by
  induction l with
  | nil => rfl
  | cons t l ih =>
    rw [tally_cons, ih, ← List.singleton_append, ofContent_append, tally_append]
    by_cases h : t.content = some c
    · rw [within_of_eq h, ofContent_of_eq h, tally_cons, tally_nil, Nat.add_zero]
    · rw [within_of_ne h, ofContent_of_ne h, tally_nil]

theorem length_ofContent (c : ℕ) (l : List PoolTask) :
    (ofContent c l).length = tally (within c fun _ => 1) l := by
  rw [tally_within, List.tally_one]

/-- Renders that are not there have no weight. -/
theorem tally_within_eq_zero {l : List PoolTask} (h : tally (within c fun _ => 1) l = 0)
    (f : PoolTask → ℕ) : tally (within c f) l = 0 := by
  rw [tally_within, List.length_eq_zero_iff.mp ((length_ofContent c l).trans h), tally_nil]

theorem tally_within_pos {l : List PoolTask} (ht : t ∈ l) (hc : t.content = some c) :
    0 < tally (within c fun _ => 1) l := by
  rw [← length_ofContent]
  exact List.length_pos_of_mem (List.mem_filter.mpr ⟨ht, by simpa using hc⟩)

theorem exists_of_tally_within {l : List PoolTask} (h : tally (within c fun _ => 1) l ≠ 0) :
    ∃ t ∈ l, t.content = some c := by
  obtain ⟨t, ht⟩ := List.exists_mem_of_length_pos
    (Nat.pos_of_ne_zero ((length_ofContent c l).trans_ne h))
  exact ⟨t, List.mem_of_mem_filter ht, by simpa using List.of_mem_filter ht⟩

end Weights

section Gates

variable {serialize : ℕ → Bool} {p p' : WorkerPool} {t : PoolTask} {c i : ℕ} {orphan : Prop}

theorem load_setThread {th' : PoolThread} (h : p.threads[i]? = some th') (th : PoolThread)
    (g : PoolThread → Option PoolTask) (c : ℕ) (f : PoolTask → ℕ) :
    tally (within c f) (g th').toList + load g c f (p.setThread i th) =
      tally (within c f) (g th).toList + load g c f p := by
  have hheld := held_setThread g th h (within c f)
  show _ + (tally _ p.ready + _) = _ + (tally _ p.ready + _)
  omega

/-- A load of no tasks has no weight. -/
theorem load_eq_zero {g : PoolThread → Option PoolTask} (h : load g c (fun _ => 1) p = 0)
    (f : PoolTask → ℕ) : load g c f p = 0 := by
  obtain ⟨hready, hheld⟩ := Nat.add_eq_zero_iff.mp h
  rw [load, tally_within_eq_zero hready, tally_within_eq_zero hheld]

/-- The task that is about to begin holds the gate. -/
theorem load_popped_le (c : ℕ) (p : WorkerPool) :
    load PoolThread.popped? c (fun _ => 1) p ≤ holders c p := by
  refine Nat.add_le_add_left (List.tally_filterMap_le (fun th t h => ?_) p.threads _) _
  cases th <;> first | exact h | cases h

theorem GateAt.holders_le_one (h : p.GateAt c orphan) : holders c p ≤ 1 := by
  refine Nat.le_trans h.holders_le ?_
  split <;> decide

/-- At most one task is about to begin. -/
theorem ahead_length {ahead : List PoolTask}
    (hahead : ∀ f, tally f ahead = load PoolThread.popped? c f p) :
    ahead.length ≤ holders c p := by
  rw [← List.tally_one, hahead]
  exact load_popped_le c p

/-- A gate that nobody holds has no task that is about to begin. -/
theorem GateAt.in_order_of_holders (h : p.GateAt c orphan) (hnone : holders c p = 0) :
    (ofContent c p.started ++ ofContent c p.parked).Sublist (ofContent c p.enqueued) := by
  obtain ⟨ahead, hahead, horder⟩ := h.in_order
  have hlen := ahead_length hahead
  obtain rfl : ahead = [] := List.length_eq_zero_iff.mp (by omega)
  simpa using horder

/-- A render that leaves without a trace takes its place in the order with it. -/
theorem GateAt.in_order_of_rest (h : p.GateAt c orphan) {rest : List PoolTask}
    (hrest : ∀ f, load PoolThread.popped? c f p =
      load PoolThread.popped? c f p' + tally (within c f) rest)
    (hstarted : p'.started = p.started)
    (hparked : (ofContent c p'.parked).Sublist (ofContent c p.parked))
    (hcame : p'.enqueued = p.enqueued) :
    ∃ ahead, (∀ f, tally f ahead = load PoolThread.popped? c f p') ∧
      (ofContent c p'.started ++ ahead ++ ofContent c p'.parked).Sublist
        (ofContent c p'.enqueued) := by
  obtain ⟨ahead, hahead, horder⟩ := h.in_order
  have hlen := Nat.le_trans (ahead_length hahead) h.holders_le_one
  rw [hstarted, hcame]
  by_cases hnone : tally (within c fun _ => 1) rest = 0
  · refine ⟨ahead, fun f => ?_, ((List.Sublist.refl _).append hparked).trans horder⟩
    rw [hahead, hrest, tally_within_eq_zero hnone, Nat.add_zero]
  · -- The one that was about to begin has left.
    have hone := hahead fun _ => 1
    rw [List.tally_one, hrest] at hone
    have hleft : load PoolThread.popped? c (fun _ => 1) p' = 0 := by omega
    refine ⟨[], fun f => ?_, List.Sublist.trans ?_ horder⟩
    · rw [load_eq_zero hleft, tally_nil]
    · rw [List.append_nil]
      exact (List.sublist_append_left _ _).append hparked

/-- A step that moves no task of a content keeps its gate. -/
theorem GateAt.keep (h : p.GateAt c orphan) (hactive : p'.active c = p.active c)
    (hstop : p'.stop = false → p.stop = false)
    (hheld : holders c p' = holders c p)
    (hahead : ∀ f, load PoolThread.popped? c f p' = load PoolThread.popped? c f p)
    (hstarted : ofContent c p'.started = ofContent c p.started)
    (hparked : (ofContent c p'.parked).Sublist (ofContent c p.parked))
    (hcame : ofContent c p'.enqueued = ofContent c p.enqueued) : p'.GateAt c orphan := by
  refine ⟨?_, fun ho => ?_, fun hs ha hn => ?_, fun hp hn => ?_, ?_⟩
  · rw [hheld, hactive]
    exact h.holders_le
  · rw [hheld, hactive]
    exact h.orphaned ho
  · exact h.active_held (hstop hs) (hactive ▸ ha) (hheld ▸ hn)
  · refine h.parked_held (fun hnil => hp ?_) (hheld ▸ hn)
    rw [hnil] at hparked
    exact List.sublist_nil.mp hparked
  · obtain ⟨ahead, hload, horder⟩ := h.in_order
    refine ⟨ahead, fun f => (hload f).trans (hahead f).symm, ?_⟩
    rw [hstarted, hcame]
    exact ((List.Sublist.refl _).append hparked).trans horder

/-! ### Tasks that pass a gate -/

/-- A closed gate has no holder. -/
theorem GateAt.holders_eq_zero (h : p.GateAt c orphan) (hclosed : p.active c = false) :
    holders c p = 0 := by
  have hle := h.holders_le
  rw [hclosed] at hle
  exact Nat.le_zero.mp hle

/-- A gate that is neither held nor orphaned has no parked renders. -/
theorem GateAt.parked_eq_nil (h : p.GateAt c False) (hnone : holders c p = 0) :
    ofContent c p.parked = [] := by
  by_contra hparked
  exact h.parked_held hparked hnone

/-- A render passes an open gate. -/
theorem GateAt.enter (h : p.GateAt c False) (hopen : p.active c = false)
    (hc : t.content = some c) (hactive : p'.active c = true)
    (hheld : holders c p' = 1 + holders c p)
    (hload : ∀ f, load PoolThread.popped? c f p' = f t + load PoolThread.popped? c f p)
    (hstarted : p'.started = p.started) (hparked : p'.parked = p.parked)
    (hcame : p'.enqueued = p.enqueued ++ [t]) : p'.GateAt c False := by
  have hnone := h.holders_eq_zero hopen
  have hpopped : load PoolThread.popped? c (fun _ => 1) p = 0 :=
    Nat.le_zero.mp (hnone ▸ load_popped_le c p)
  have horder := h.in_order_of_holders hnone
  refine ⟨?_, False.elim, fun _ _ hn => ?_, fun _ hn => ?_, [t], fun f => ?_, ?_⟩
  · rw [hheld, hnone, hactive]
    exact Nat.le_refl _
  · omega
  · omega
  · rw [hload, load_eq_zero hpopped, tally_cons, tally_nil]
  · rw [h.parked_eq_nil hnone, List.append_nil] at horder
    rw [hstarted, hparked, hcame, h.parked_eq_nil hnone, List.append_nil, ofContent_append,
      ofContent_of_eq hc]
    exact horder.append (List.Sublist.refl _)

/-- A render is parked behind its gate. -/
theorem GateAt.park (h : p.GateAt c False) (hstop : p.stop = false) (hactive : p.active c = true)
    (hc : t.content = some c) (admitting : List PoolTask) :
    ({ p with
      admitting := admitting
      enqueued := p.enqueued ++ [t]
      parked := p.parked ++ [t] } : WorkerPool).GateAt c False := by
  obtain ⟨ahead, hload, horder⟩ := h.in_order
  refine ⟨h.holders_le, False.elim, h.active_held, fun _ => h.active_held hstop hactive, ahead,
    hload, ?_⟩
  show (ofContent c p.started ++ ahead ++ ofContent c (p.parked ++ [t])).Sublist
    (ofContent c (p.enqueued ++ [t]))
  rw [ofContent_append, ofContent_append, ofContent_of_eq hc, ← List.append_assoc]
  exact horder.append (List.Sublist.refl _)

/-- A render begins. -/
theorem GateAt.start (h : p.GateAt c orphan) (hi : p.threads[i]? = some (.popped t)) :
    ({ p with started := p.started ++ [t] }.setThread i (.rendering t)).GateAt c orphan := by
  have hset : ∀ g f, tally (within c f) (g (.popped t)).toList + load g c f
        ({ p with started := p.started ++ [t] }.setThread i (.rendering t)) =
      tally (within c f) (g (.rendering t)).toList + load g c f p :=
    fun g f => load_setThread (p := { p with started := p.started ++ [t] }) hi (.rendering t) g c f
  have hheld := Nat.add_left_cancel (hset PoolThread.holding? fun _ => 1)
  have hbegun := fun f => hset PoolThread.popped? f
  simp only [PoolThread.popped?, Option.toList_some, Option.toList_none, tally_cons, tally_nil,
    Nat.add_zero, Nat.zero_add] at hbegun
  by_cases hc : t.content = some c
  · obtain ⟨ahead, hload, horder⟩ := h.in_order
    have hlen := Nat.le_trans (ahead_length hload) h.holders_le_one
    obtain ⟨rfl, hrest⟩ := List.eq_singleton_of_tally hlen fun f =>
      (hload f).trans ((hbegun f).symm.trans (congrArg (· + _) (within_of_eq hc)))
    refine ⟨?_, fun ho => ⟨(h.orphaned ho).1, hheld.trans (h.orphaned ho).2⟩,
      fun hs ha hn => h.active_held hs ha (hheld.symm.trans hn),
      fun hp hn => h.parked_held hp (hheld.symm.trans hn), [], fun f => (hrest f).symm, ?_⟩
    · exact Nat.le_trans (Nat.le_of_eq hheld) h.holders_le
    · show (ofContent c (p.started ++ [t]) ++ [] ++ ofContent c p.parked).Sublist
        (ofContent c p.enqueued)
      rwa [ofContent_append, ofContent_of_eq hc, List.append_nil]
  · refine h.keep rfl id hheld (fun f => ?_) ?_ (List.Sublist.refl _) rfl
    · rw [← hbegun f, within_of_ne hc, Nat.zero_add]
    · show ofContent c (p.started ++ [t]) = _
      rw [ofContent_append, ofContent_of_ne hc, List.append_nil]

/-- The next parked render is handed a gate that has an entry and no task that is about to
begin. -/
theorem GateAt.handOver (h : p.GateAt c orphan) (hactive : p.active c = true)
    (hnone : load PoolThread.popped? c (fun _ => 1) p = 0) (hfront : p.front c = some t)
    (hactive' : p'.active = p.active) (hheld : holders c p' = 1)
    (hload : ∀ f, load PoolThread.popped? c f p' = f t + load PoolThread.popped? c f p)
    (hstarted : p'.started = p.started) (hparked : p'.parked = (p.popFront c).parked)
    (hcame : p'.enqueued = p.enqueued) : p'.GateAt c False := by
  obtain ⟨ahead, hahead, horder⟩ := h.in_order
  have hone := hahead fun _ => 1
  rw [hnone, List.tally_one] at hone
  obtain rfl := List.length_eq_zero_iff.mp hone
  refine ⟨?_, False.elim, fun _ _ hn => ?_, fun _ hn => ?_, [t], fun f => ?_, ?_⟩
  · rw [hheld, hactive', hactive]
    exact Nat.le_refl _
  · omega
  · omega
  · rw [hload, load_eq_zero hnone, tally_cons, tally_nil]
  · have hnext : ofContent c p.parked = t :: ofContent c (p.popFront c).parked :=
      List.filter_eq_cons_of_find? hfront
    rw [hnext, List.append_nil] at horder
    rwa [hstarted, hparked, hcame, List.append_assoc, List.singleton_append]

/-- A gate that nobody waits at goes with its holder. -/
theorem GateAt.shut (h : p.GateAt c orphan) (hfront : p.front c = none)
    (hactive : p'.active c = false) (hheld : holders c p' = 0)
    (hnone : load PoolThread.popped? c (fun _ => 1) p' = 0)
    (hstarted : p'.started = p.started) (hparked : p'.parked = p.parked)
    (hcame : p'.enqueued = p.enqueued) : p'.GateAt c False := by
  obtain ⟨ahead, -, horder⟩ := h.in_order
  have hnil : ofContent c p.parked = [] := List.filter_eq_nil_iff.mpr (List.find?_eq_none.mp hfront)
  refine ⟨?_, False.elim, fun _ ha _ => ?_, fun hp _ => ?_, [], fun f => ?_, ?_⟩
  · rw [hheld]
    exact Nat.zero_le _
  · exact Bool.false_ne_true (hactive.symm.trans ha)
  · exact hp (hparked ▸ hnil)
  · rw [load_eq_zero hnone, tally_nil]
  · rw [hstarted, hparked, hcame, List.append_nil]
    exact ((List.sublist_append_left _ _).append (List.Sublist.refl _)).trans horder

/-- While a thread is at the end of a render, no other of its content is about to begin. -/
theorem GateAt.of_released (h : p.GateAt c orphan) (hi : p.threads[i]? = some (.released t))
    (hc : t.content = some c) : p.active c = true ∧ holders c p = 1 ∧
      load PoolThread.popped? c (fun _ => 1) p = 0 := by
  have hheld : 1 + holders c (p.setThread i .exited) = holders c p := by
    have hset := load_setThread hi .exited PoolThread.holding? c fun _ => 1
    simpa only [PoolThread.holding?, Option.toList_some, Option.toList_none, tally_cons, tally_nil,
      within_of_eq hc, Nat.add_zero, Nat.zero_add, holders] using hset
  have hpopped := load_setThread hi .exited PoolThread.popped? c fun _ => 1
  have hle := load_popped_le c (p.setThread i .exited)
  have hone := h.holders_le_one
  refine ⟨?_, by omega, ?_⟩
  · by_contra hclosed
    have := h.holders_eq_zero (by simpa using hclosed)
    omega
  · have := Nat.add_left_cancel hpopped
    omega

/-- The holder of a gate leaves, and the gate is orphaned. -/
theorem GateAt.leave (h : p.GateAt c orphan) {rest : List PoolTask}
    (hrest : ∀ g f, load g c f p = load g c f p' + tally (within c f) rest)
    (hleft : tally (within c fun _ => 1) rest ≠ 0) (hactive : p'.active = p.active)
    (hstarted : p'.started = p.started) (hparked : p'.parked = p.parked)
    (hcame : p'.enqueued = p.enqueued) : p'.GateAt c True := by
  have hheld : holders c p = holders c p' + _ := hrest PoolThread.holding? fun _ => 1
  have hone := h.holders_le_one
  refine ⟨by omega, fun _ => ⟨?_, by omega⟩, fun _ _ _ => trivial, fun _ _ => trivial, ?_⟩
  · by_contra hclosed
    have := h.holders_eq_zero (by simpa [hactive] using hclosed)
    omega
  · exact h.in_order_of_rest (hrest PoolThread.popped?) hstarted
      (hparked ▸ List.Sublist.refl _) hcame

/-! ### All gates -/

/-- The gates of a pool, some of which are orphaned. Entries and parked renders are of contents that
are not thread safe. -/
structure GatesWith (serialize : ℕ → Bool) (orphans : List ℕ) (p : WorkerPool) : Prop where
  /-- Only a content that is not thread safe has an entry. -/
  active_serialize : ∀ c, p.active c = true → serialize c = true
  /-- Only its renders are parked. -/
  parked_serialize : ∀ t ∈ p.parked, ∃ c, t.content = some c ∧ serialize c = true
  /-- A job has no content. -/
  work_content : ∀ t ∈ p.workReady, t.content = none
  /-- A gate is orphaned once. -/
  nodup : orphans.Nodup
  /-- Each gate. -/
  gate : ∀ c, serialize c = true → p.GateAt c (c ∈ orphans)

/-- The gates between two critical sections. -/
def Gates (serialize : ℕ → Bool) (p : WorkerPool) : Prop := p.GatesWith serialize []

theorem Gates.gateAt (h : p.Gates serialize) (hc : serialize c = true) : p.GateAt c False := by
  simpa only [List.not_mem_nil] using h.gate c hc

theorem Gates.of_gateAt (hactive : ∀ c, p.active c = true → serialize c = true)
    (hparked : ∀ t ∈ p.parked, ∃ c, t.content = some c ∧ serialize c = true)
    (hwork : ∀ t ∈ p.workReady, t.content = none)
    (hgate : ∀ c, serialize c = true → p.GateAt c False) : p.Gates serialize :=
  ⟨hactive, hparked, hwork, List.nodup_nil, fun c hc => by
    simpa only [List.not_mem_nil] using hgate c hc⟩

theorem gate_eq_none (h : WorkerPool.gate serialize t = none) (hc : serialize c = true) :
    t.content ≠ some c := by
  intro ht
  rw [WorkerPool.gate, ht, Option.filter_some, if_pos hc] at h
  cases h

theorem gate_eq_some (h : WorkerPool.gate serialize t = some c) :
    t.content = some c ∧ serialize c = true :=
  Option.filter_eq_some_iff.mp h

theorem init_gates (workerCount : ℕ) : (init workerCount).Gates serialize := by
  have hload : ∀ g c f, g .waiting = none → load g c f (init workerCount) = 0 := fun g c f hg => by
    simp [load, held, init, hg]
  refine Gates.of_gateAt (by simp [init]) (by simp [init]) (by simp [init]) fun c _ =>
    ⟨Nat.le_of_eq (hload _ c _ rfl), False.elim, by simp [init], fun h => absurd rfl h, [],
      fun f => ?_,
      List.Sublist.refl _⟩
  exact (hload _ c f rfl).symm

/-- Dropping tasks that are in no queue changes no gate. -/
theorem GatesWith.dropQueued {orphans : List ℕ} (cause : Option ℕ) (ts : List PoolTask)
    (h : p.GatesWith serialize orphans) :
    (WorkerPool.dropQueued cause ts p).GatesWith serialize orphans := by
  induction ts generalizing p with
  | nil => exact h
  | cons t ts ih =>
    refine ih ⟨h.active_serialize, h.parked_serialize, h.work_content, h.nodup, fun c hc => ?_⟩
    have hgate := h.gate c hc
    exact ⟨hgate.holders_le, hgate.orphaned, hgate.active_held, hgate.parked_held, hgate.in_order⟩

section Drain

variable (owner : ℕ)

theorem Gates.purgeParked (h : p.Gates serialize) : (p.purgeParked owner).Gates serialize := by
  refine GatesWith.dropQueued _ _ (Gates.of_gateAt h.active_serialize (fun t ht => ?_)
    h.work_content fun c hc => ?_)
  · exact h.parked_serialize t (List.mem_of_mem_filter ht)
  · exact (h.gateAt hc).keep rfl id rfl (fun _ => rfl) rfl (List.filter_sublist.filter _) rfl

theorem Gates.purgeWork (h : p.Gates serialize) : (p.purgeWork owner).Gates serialize := by
  refine GatesWith.dropQueued _ _ (Gates.of_gateAt h.active_serialize h.parked_serialize
    (fun t ht => h.work_content t (List.mem_of_mem_filter ht)) fun c hc => ?_)
  exact (h.gateAt hc).keep rfl id rfl (fun _ => rfl) rfl (List.Sublist.refl _) rfl

theorem mem_orphanedGates : c ∈ p.orphanedGates owner ↔
    ∃ t ∈ p.ready, t.owner = owner ∧ t.content = some c ∧ p.active c = true := by
  simp [orphanedGates, List.mem_filterMap, Option.filter_eq_some_iff, and_assoc]

theorem count_orphanedGates_le (c : ℕ) (p : WorkerPool) : (p.orphanedGates owner).count c ≤
    tally (within c fun _ => 1) (p.ready.filter (·.owner = owner)) := by
  unfold orphanedGates
  induction p.ready.filter (·.owner = owner) with
  | nil => exact Nat.le_refl _
  | cons t l ih =>
    rw [List.filterMap_cons, tally_cons]
    split
    case h_1 => exact Nat.le_trans ih (Nat.le_add_left _ _)
    case h_2 c' hc' =>
      rw [List.count_cons]
      by_cases hc : c' = c
      · have hcontent := (Option.filter_eq_some_iff.mp (hc ▸ hc')).1
        rw [within_of_eq hcontent, if_pos (by simpa using hc)]
        omega
      · rw [if_neg (by simpa using hc)]
        omega

/-- The ready tasks of an owner leave their gates behind. -/
theorem Gates.purgeReady (h : p.Gates serialize) :
    (p.purgeReady owner).GatesWith serialize (p.orphanedGates owner) := by
  refine GatesWith.dropQueued _ _ ⟨h.active_serialize, h.parked_serialize, h.work_content, ?_, fun c hc => ?_⟩
  · refine List.nodup_iff_count_le_one.mpr fun c => ?_
    by_cases hactive : p.active c = true
    · -- The tasks that leave are among the holders, of which there is one.
      have hcount := count_orphanedGates_le owner c p
      have hsplit := List.tally_filter_add (within c fun _ => 1)
        (fun t => decide (t.owner = owner)) p.ready
      have hone := (h.gateAt (h.active_serialize c hactive)).holders_le_one
      unfold holders load at hone
      omega
    · rw [List.count_eq_zero.mpr fun hmem => ?_]
      · exact Nat.zero_le _
      · obtain ⟨t, -, -, -, hc⟩ := (mem_orphanedGates owner).mp hmem
        exact hactive hc
  · have hgate := h.gateAt hc
    have hrest : ∀ g f, load g c f p =
        load g c f { p with ready := p.ready.filter fun t => !decide (t.owner = owner) } +
          tally (within c f) (p.ready.filter (·.owner = owner)) := fun g f => by
      have hsplit := List.tally_filter_add (within c f) (fun t => decide (t.owner = owner)) p.ready
      show tally _ p.ready + tally _ (p.held g) =
        tally _ (p.ready.filter fun t => !decide (t.owner = owner)) + tally _ (p.held g) + _
      omega
    by_cases hleft : tally (within c fun _ => 1) (p.ready.filter (·.owner = owner)) = 0
    · have hkeep := fun g f => (hrest g f).trans
        (congrArg (_ + ·) (tally_within_eq_zero hleft f))
      have hnot : c ∉ p.orphanedGates owner := fun hmem => by
        obtain ⟨t, ht, howner, hcontent, -⟩ := (mem_orphanedGates owner).mp hmem
        have hmem : t ∈ p.ready.filter (·.owner = owner) := List.mem_filter.mpr
          ⟨ht, decide_eq_true howner⟩
        have := tally_within_pos hmem hcontent
        omega
      simp only [hnot]
      exact hgate.keep rfl id (hkeep _ _).symm (fun f => (hkeep _ f).symm) rfl
        (List.Sublist.refl _) rfl
    · have hmem : c ∈ p.orphanedGates owner := by
        obtain ⟨t, ht, hcontent⟩ := exists_of_tally_within hleft
        obtain ⟨ht, howner⟩ := List.mem_filter.mp ht
        refine (mem_orphanedGates owner).mpr ⟨t, ht, of_decide_eq_true howner, hcontent, ?_⟩
        by_contra hclosed
        have hnone := hgate.holders_eq_zero (by simpa using hclosed)
        have := tally_within_pos ht hcontent
        unfold holders load at hnone
        omega
      simp only [hmem]
      exact hgate.leave hrest hleft rfl rfl rfl rfl

theorem front_eq_some (h : p.front c = some t) : t.content = some c ∧ t ∈ p.parked :=
  ⟨by simpa using List.find?_some h, List.mem_of_find?_eq_some h⟩

/-- Who is handed a gate leaves the queue of no other. -/
theorem ofContent_popFront {c' : ℕ} (h : c' ≠ c) :
    ofContent c' (p.popFront c).parked = ofContent c' p.parked := by
  refine List.filter_eraseP_of_disjoint (fun t ht => ?_) p.parked
  simp only [decide_eq_true_eq, decide_eq_false_iff_not] at ht ⊢
  exact fun hc => h (Option.some.inj (ht.symm.trans hc))

/-- An orphaned gate is handed on. -/
theorem GatesWith.handOn {orphans : List ℕ} (h : p.GatesWith serialize (c :: orphans)) :
    (p.handOn c).GatesWith serialize orphans := by
  obtain ⟨hnotin, hnodup⟩ := List.nodup_cons.mp h.nodup
  -- Another gate does not notice.
  have hother : ∀ c' (q : WorkerPool), c' ≠ c → serialize c' = true →
      (∀ orphan, p.GateAt c' orphan → q.GateAt c' orphan) → q.GateAt c' (c' ∈ orphans) :=
    fun c' q hne hc' hkeep => by
      have hgate := hkeep _ (h.gate c' hc')
      simpa only [List.mem_cons, hne, false_or] using hgate
  unfold WorkerPool.handOn
  split
  case isFalse hclosed =>
    refine ⟨h.active_serialize, h.parked_serialize, h.work_content, hnodup, fun c' hc' => ?_⟩
    refine hother c' p (fun heq => hclosed ?_) hc' fun _ hgate => hgate
    exact heq ▸ ((h.gate c' hc').orphaned (heq ▸ List.mem_cons_self)).1
  case isTrue hactive =>
    have hc := h.active_serialize c hactive
    have hgate := h.gate c hc
    have hnone := (hgate.orphaned List.mem_cons_self).2
    have hpopped : load PoolThread.popped? c (fun _ => 1) p = 0 :=
      Nat.le_zero.mp (hnone ▸ load_popped_le c p)
    cases hfront : p.front c with
    | none =>
      refine ⟨fun c' hc' => ?_, h.parked_serialize, h.work_content, hnodup, fun c' hc' => ?_⟩
      · by_cases heq : c' = c
        · exact heq ▸ hc
        · exact h.active_serialize c' ((Function.update_of_ne heq _ _).symm.trans hc')
      · by_cases heq : c' = c
        · subst heq
          simp only [hnotin]
          exact hgate.shut hfront (Function.update_self _ _ _) hnone hpopped rfl rfl rfl
        · refine hother c' _ heq hc' fun _ hgate => ?_
          exact hgate.keep (Function.update_of_ne heq _ _) id rfl (fun _ => rfl) rfl
            (List.Sublist.refl _) rfl
    | some t =>
      obtain ⟨ht, htmem⟩ := front_eq_some hfront
      have hload : ∀ g c' f, load g c' f { p.popFront c with ready := p.ready ++ [t] } =
          within c' f t + load g c' f p := fun g c' f => by
        show tally _ (p.ready ++ [t]) + tally _ (p.held g) =
          _ + (tally _ p.ready + tally _ (p.held g))
        rw [tally_append, tally_cons, tally_nil]
        omega
      refine ⟨h.active_serialize, fun t' ht' => ?_, h.work_content, hnodup, fun c' hc' => ?_⟩
      · exact h.parked_serialize t' (List.mem_of_mem_eraseP ht')
      · by_cases heq : c' = c
        · subst heq
          simp only [hnotin]
          refine hgate.handOver hactive hpopped hfront rfl ?_ (fun f => ?_) rfl rfl rfl
          · exact (hload _ _ _).trans (by rw [within_of_eq ht, ← holders, hnone])
          · rw [hload, within_of_eq ht]
        · have hne : t.content ≠ some c' := fun h' => heq (Option.some.inj (h'.symm.trans ht))
          refine hother c' _ heq hc' fun _ hgate => hgate.keep rfl id ?_ (fun f => ?_) rfl ?_ rfl
          · exact (hload _ _ _).trans (by rw [within_of_ne hne, Nat.zero_add, holders])
          · rw [hload, within_of_ne hne, Nat.zero_add]
          · show (ofContent c' (p.popFront c).parked).Sublist _
            rw [ofContent_popFront heq]

theorem GatesWith.handOnAll {orphans : List ℕ} (h : p.GatesWith serialize orphans) :
    (orphans.foldl (fun p c => p.handOn c) p).Gates serialize := by
  induction orphans generalizing p with
  | nil => exact h
  | cons c rest ih => exact ih h.handOn

theorem Gates.drainOwner (h : p.Gates serialize) : (p.drainOwner owner).Gates serialize :=
  ((h.purgeParked owner).purgeReady owner).handOnAll.purgeWork owner

end Drain

/-! ### The gates along a step -/

/-- A task that goes to the workers, or to the thread that submits it. -/
theorem load_dispatch {g : PoolThread → Option PoolTask} (hg : g (.popped t) = some t) (c : ℕ)
    (f : PoolTask → ℕ) : load g c f (p.dispatch t) = within c f t + load g c f p := by
  unfold WorkerPool.dispatch
  split
  case isTrue =>
    show tally _ p.ready + tally _ ((p.threads ++ [PoolThread.popped t]).filterMap g) = _
    rw [List.filterMap_append, tally_append, List.filterMap_cons_some hg, List.filterMap_nil,
      tally_cons, tally_nil, load, held]
    omega
  case isFalse =>
    split
    case isTrue =>
      show tally _ (p.ready ++ [t]) + tally _ (p.held g) = _
      rw [tally_append, tally_cons, tally_nil, load]
      omega
    case isFalse hwork =>
      have hne : t.content ≠ some c := fun hc => hwork (hc ▸ rfl)
      rw [within_of_ne hne, Nat.zero_add]
      rfl

@[simp]
theorem dispatch_active (t : PoolTask) (p : WorkerPool) : (p.dispatch t).active = p.active := by
  unfold WorkerPool.dispatch
  split_ifs <;> rfl

@[simp]
theorem dispatch_stop (t : PoolTask) (p : WorkerPool) : (p.dispatch t).stop = p.stop := by
  unfold WorkerPool.dispatch
  split_ifs <;> rfl

@[simp]
theorem dispatch_parked (t : PoolTask) (p : WorkerPool) : (p.dispatch t).parked = p.parked := by
  unfold WorkerPool.dispatch
  split_ifs <;> rfl

@[simp]
theorem dispatch_started (t : PoolTask) (p : WorkerPool) :
    (p.dispatch t).started = p.started := by
  unfold WorkerPool.dispatch
  split_ifs <;> rfl

@[simp]
theorem dispatch_enqueued (t : PoolTask) (p : WorkerPool) :
    (p.dispatch t).enqueued = p.enqueued := by
  unfold WorkerPool.dispatch
  split_ifs <;> rfl

/-- Only a job is queued with the jobs. -/
theorem dispatch_work (h : ∀ t ∈ p.workReady, t.content = none) :
    ∀ t' ∈ (p.dispatch t).workReady, t'.content = none := by
  unfold WorkerPool.dispatch
  split_ifs with _ hwork
  · exact h
  · exact h
  · intro t' ht'
    rcases List.mem_append.mp ht' with ht' | ht'
    · exact h t' ht'
    · rw [List.mem_singleton.mp ht']
      simpa using hwork

/-- A dispatched task of another content is not seen at a gate. -/
theorem GateAt.dispatch_other (h : p.GateAt c orphan) (hne : t.content ≠ some c) :
    (p.dispatch t).GateAt c orphan := by
  refine h.keep (by rw [dispatch_active]) (by rw [dispatch_stop]; exact id) ?_ (fun f => ?_)
    (by rw [dispatch_started]) (by rw [dispatch_parked]) (by rw [dispatch_enqueued])
  · rw [holders, load_dispatch rfl, within_of_ne hne, Nat.zero_add, holders]
  · rw [load_dispatch rfl, within_of_ne hne, Nat.zero_add]

theorem Gates.enqueue (h : p.Gates serialize) (hstop : p.stop = false) (t : PoolTask)
    (admitting : List PoolTask) :
    (WorkerPool.enqueue serialize t { p with
      admitting := admitting
      enqueued := p.enqueued ++ [t] }).Gates serialize := by
  -- The entry in the log is not seen at the gate of another content.
  have hcame : ∀ c, serialize c = true → t.content ≠ some c → ∀ active parked,
      active c = p.active c → ofContent c parked = ofContent c p.parked →
      ({ p with
        admitting := admitting
        enqueued := p.enqueued ++ [t]
        active := active
        parked := parked } : WorkerPool).GateAt c False :=
    fun c hc hne active parked hactive hparked => by
      refine (h.gateAt hc).keep hactive id rfl (fun _ => rfl) rfl (hparked ▸ List.Sublist.refl _) ?_
      show ofContent c (p.enqueued ++ [t]) = _
      rw [ofContent_append, ofContent_of_ne hne, List.append_nil]
  unfold WorkerPool.enqueue
  split
  case h_1 hnone =>
    refine Gates.of_gateAt ?_ ?_ (dispatch_work h.work_content) fun c hc => ?_
    · rw [dispatch_active]
      exact h.active_serialize
    · rw [dispatch_parked]
      exact h.parked_serialize
    · have hne := gate_eq_none hnone hc
      exact (hcame c hc hne _ _ rfl rfl).dispatch_other hne
  case h_2 c' hsome =>
    obtain ⟨hcontent, hserialize⟩ := gate_eq_some hsome
    have hne : ∀ c, c ≠ c' → t.content ≠ some c :=
      fun c heq h' => heq (Option.some.inj (h'.symm.trans hcontent))
    split
    case isTrue hactive =>
      refine Gates.of_gateAt h.active_serialize (fun t' ht' => ?_) h.work_content fun c hc => ?_
      · rcases List.mem_append.mp ht' with ht' | ht'
        · exact h.parked_serialize t' ht'
        · exact ⟨c', List.mem_singleton.mp ht' ▸ hcontent, hserialize⟩
      · by_cases heq : c = c'
        · subst heq
          exact (h.gateAt hc).park hstop hactive hcontent admitting
        · refine hcame c hc (hne c heq) _ _ rfl ?_
          rw [ofContent_append, ofContent_of_ne (hne c heq), List.append_nil]
    case isFalse hclosed =>
      refine Gates.of_gateAt (fun c hc => ?_) ?_ (dispatch_work h.work_content) fun c hc => ?_
      · rw [dispatch_active] at hc
        by_cases heq : c = c'
        · exact heq ▸ hserialize
        · exact h.active_serialize c ((Function.update_of_ne heq _ _).symm.trans hc)
      · rw [dispatch_parked]
        exact h.parked_serialize
      · by_cases heq : c = c'
        · subst heq
          refine (h.gateAt hc).enter (by simpa using hclosed) hcontent ?_ ?_ (fun f => ?_)
            (dispatch_started _ _) (dispatch_parked _ _) (dispatch_enqueued _ _)
          · rw [dispatch_active]
            exact Function.update_self _ _ _
          · rw [holders, load_dispatch rfl, within_of_eq hcontent]
            rfl
          · rw [load_dispatch rfl, within_of_eq hcontent]
            rfl
        · have hgate := hcame c hc (hne c heq) _ p.parked (Function.update_of_ne heq true p.active)
            rfl
          exact hgate.dispatch_other (hne c heq)

/-- A thread that keeps its gate. -/
theorem GateAt.setThread {th th' : PoolThread} (h : p.GateAt c orphan)
    (hi : p.threads[i]? = some th')
    (hheld : ∀ f, tally (within c f) th.holding?.toList = tally (within c f) th'.holding?.toList)
    (hpopped : ∀ f, tally (within c f) th.popped?.toList =
      tally (within c f) th'.popped?.toList) : (p.setThread i th).GateAt c orphan := by
  refine h.keep rfl id ?_ (fun f => ?_) rfl (List.Sublist.refl _) rfl
  · have hset := load_setThread hi th PoolThread.holding? c fun _ => 1
    rw [hheld] at hset
    exact Nat.add_left_cancel hset
  · have hset := load_setThread hi th PoolThread.popped? c f
    rw [hpopped] at hset
    exact Nat.add_left_cancel hset

theorem Gates.setThread {th th' : PoolThread} (h : p.Gates serialize)
    (hi : p.threads[i]? = some th') (hheld : th.holding? = th'.holding?)
    (hpopped : th.popped? = th'.popped?) : (p.setThread i th).Gates serialize :=
  Gates.of_gateAt h.active_serialize h.parked_serialize h.work_content fun _ hc =>
    (h.gateAt hc).setThread hi (fun _ => by rw [hheld]) fun _ => by rw [hpopped]

/-- A stop empties all queues. The entries of the gates stay. -/
theorem Gates.abandonQueued (h : p.Gates serialize) (hstop : p.stop = true) :
    p.abandonQueued.Gates serialize := by
  refine GatesWith.dropQueued _ _ (Gates.of_gateAt h.active_serialize nofun nofun fun c hc => ?_)
  have hgate := h.gateAt hc
  refine ⟨Nat.le_trans (Nat.add_le_add_right (Nat.zero_le _) _) hgate.holders_le, False.elim,
    fun hs => ?_, fun hp => absurd rfl hp, ?_⟩
  · exact absurd (hstop.symm.trans hs) Bool.noConfusion
  · have hrest : ∀ f, load PoolThread.popped? c f p =
        load PoolThread.popped? c f { p with ready := [], parked := [], workReady := [] } +
          tally (within c f) p.ready := fun f => by
      show tally _ p.ready + tally _ (p.held _) = 0 + tally _ (p.held _) + tally _ p.ready
      omega
    exact hgate.in_order_of_rest hrest rfl (List.nil_sublist _) rfl

theorem Gates.take (h : p.Gates serialize) (hi : p.threads[i]? = some .waiting)
    (hp : p.take i = some p') : p'.Gates serialize := by
  unfold WorkerPool.take at hp
  split at hp
  case isTrue hstop =>
    obtain rfl := Option.some.inj hp
    have hi' : p.abandonQueued.threads[i]? = some .waiting := by
      rw [WorkerPool.abandonQueued, dropQueued_threads]
      exact hi
    exact (h.abandonQueued hstop).setThread hi' rfl rfl
  case isFalse =>
    split at hp
    case h_1 t rest hready =>
      obtain rfl := Option.some.inj hp
      have hload : ∀ g : PoolThread → Option PoolTask, g .waiting = none → g (.popped t) = some t →
          ∀ c f, load g c f ({ p with ready := rest }.setThread i (.popped t)) = load g c f p :=
        fun g hw ht c f => by
          have hset := load_setThread (p := { p with ready := rest }) hi (.popped t) g c f
          rw [hw, ht, Option.toList_none, Option.toList_some, tally_cons, tally_nil] at hset
          have hcons : load g c f p = within c f t + load g c f { p with ready := rest } := by
            rw [load, hready, tally_cons, Nat.add_assoc]
            rfl
          omega
      exact Gates.of_gateAt h.active_serialize h.parked_serialize h.work_content fun c hc =>
        (h.gateAt hc).keep rfl id (hload _ rfl rfl c _) (hload _ rfl rfl c) rfl
          (List.Sublist.refl _) rfl
    case h_2 t rest hready hwork =>
      obtain rfl := Option.some.inj hp
      have hrest : ∀ t' ∈ rest, t'.content = none := fun t' ht' =>
        h.work_content t' (hwork ▸ List.mem_cons_of_mem _ ht')
      have hjob : t.content = none := h.work_content t (hwork ▸ List.mem_cons_self)
      have hload : ∀ g : PoolThread → Option PoolTask, g .waiting = none → g (.popped t) = some t →
          ∀ c f, load g c f ({ p with workReady := rest }.setThread i (.popped t)) =
            load g c f p := fun g hw ht c f => by
        have hset := load_setThread (p := { p with workReady := rest }) hi (.popped t) g c f
        have hne : t.content ≠ some c := by simp [hjob]
        rw [hw, ht, Option.toList_none, Option.toList_some, tally_cons, tally_nil,
          within_of_ne hne] at hset
        exact Nat.add_left_cancel hset
      exact Gates.of_gateAt h.active_serialize h.parked_serialize hrest fun c hc =>
        (h.gateAt hc).keep rfl id (hload _ rfl rfl c _) (hload _ rfl rfl c) rfl
          (List.Sublist.refl _) rfl
    case h_3 => cases hp

/-- A thread that is done with a task hands on the gate of the task and no other. -/
theorem Gates.releaseGate (h : p.Gates serialize) (hi : p.threads[i]? = some (.released t)) :
    (p.releaseGate serialize i t).Gates serialize := by
  have hafter : p.afterTask.holding? = none ∧ p.afterTask.popped? = none := by
    rcases p.afterTask_cases with hafter | hafter <;> rw [hafter] <;> exact ⟨rfl, rfl⟩
  -- The gate of another content does not see the thread.
  have hother : ∀ c (q : WorkerPool) th, t.content ≠ some c → q.threads[i]? = some (.released t) →
      (∀ f, tally (within c f) th.holding?.toList = 0) →
      (∀ f, tally (within c f) th.popped?.toList = 0) →
      q.GateAt c False → (q.setThread i th).GateAt c False :=
    fun c q th hne hi hheld hpopped hgate => by
      refine hgate.setThread hi (fun f => ?_) hpopped
      show _ = tally (within c f) [t]
      rw [hheld, tally_cons, within_of_ne hne, tally_nil]
  unfold WorkerPool.releaseGate
  split
  case h_1 hnone =>
    refine Gates.of_gateAt h.active_serialize h.parked_serialize h.work_content fun c hc => ?_
    exact hother c p _ (gate_eq_none hnone hc) hi (fun _ => by rw [hafter.1]; rfl)
      (fun _ => by rw [hafter.2]; rfl) (h.gateAt hc)
  case h_2 c' hsome =>
    obtain ⟨hcontent, hserialize⟩ := gate_eq_some hsome
    obtain ⟨hactive, hone, hpopped⟩ := (h.gateAt hserialize).of_released hi hcontent
    have hne : ∀ c, c ≠ c' → t.content ≠ some c :=
      fun c heq h' => heq (Option.some.inj (h'.symm.trans hcontent))
    split
    case h_1 hfront =>
      refine Gates.of_gateAt (fun c hc => ?_) h.parked_serialize h.work_content fun c hc => ?_
      · by_cases heq : c = c'
        · exact heq ▸ hserialize
        · exact h.active_serialize c ((Function.update_of_ne heq _ _).symm.trans hc)
      · by_cases heq : c = c'
        · subst heq
          have hset := fun g f => load_setThread (p := p.closeGate c) hi p.afterTask g c f
          refine (h.gateAt hc).shut hfront (Function.update_self _ _ _) ?_ ?_ rfl rfl rfl
          · have hheld := hset PoolThread.holding? fun _ => 1
            rw [hafter.1, PoolThread.holding?, Option.toList_some, tally_cons, tally_nil,
              within_of_eq hcontent, Option.toList_none, tally_nil] at hheld
            have : load PoolThread.holding? c (fun _ => 1) (p.closeGate c) = 1 := hone
            unfold holders
            omega
          · have hbegun := hset PoolThread.popped? fun _ => 1
            rw [hafter.2] at hbegun
            exact (Nat.add_left_cancel hbegun).trans hpopped
        · refine hother c (p.closeGate c') _ (hne c heq) hi (fun _ => by rw [hafter.1]; rfl)
            (fun _ => by rw [hafter.2]; rfl) ?_
          exact (h.gateAt hc).keep (Function.update_of_ne heq _ _) id rfl (fun _ => rfl) rfl
            (List.Sublist.refl _) rfl
    case h_2 next hfront =>
      obtain ⟨hnext, hmem⟩ := front_eq_some hfront
      have hnext' : ∀ c, c ≠ c' → next.content ≠ some c :=
        fun c heq h' => heq (Option.some.inj (h'.symm.trans hnext))
      have hparked : ∀ t' ∈ (p.popFront c').parked, ∃ c, t'.content = some c ∧ serialize c = true :=
        fun t' ht' => h.parked_serialize t' (List.mem_of_mem_eraseP ht')
      have hpop : ∀ c, c ≠ c' → serialize c = true → (p.popFront c').GateAt c False :=
        fun c heq hc => (h.gateAt hc).keep rfl id rfl (fun _ => rfl) rfl
          (by rw [ofContent_popFront heq]) rfl
      split
      case isTrue =>
        refine Gates.of_gateAt h.active_serialize hparked h.work_content fun c hc => ?_
        by_cases heq : c = c'
        · subst heq
          have hset := fun g f => load_setThread (p := p.popFront c) hi (.popped next) g c f
          refine (h.gateAt hc).handOver hactive hpopped hfront rfl ?_ (fun f => ?_) rfl rfl rfl
          · have hheld := hset PoolThread.holding? fun _ => 1
            simp only [PoolThread.holding?, Option.toList_some, tally_cons, tally_nil,
              within_of_eq hcontent, within_of_eq hnext] at hheld
            exact (Nat.add_left_cancel hheld).trans hone
          · have hbegun := hset PoolThread.popped? f
            simp only [PoolThread.popped?, Option.toList_some, Option.toList_none, tally_cons,
              tally_nil, within_of_eq hnext, Nat.zero_add, Nat.add_zero] at hbegun
            exact hbegun
        · refine hother c (p.popFront c') _ (hne c heq) hi (fun f => ?_) (fun f => ?_)
            (hpop c heq hc)
          · exact (tally_cons _ _ _).trans (by rw [within_of_ne (hnext' c heq), tally_nil])
          · exact (tally_cons _ _ _).trans (by rw [within_of_ne (hnext' c heq), tally_nil])
      case isFalse =>
        have hready : ∀ g c f, load g c f { p.popFront c' with ready := p.ready ++ [next] } =
            within c f next + load g c f p := fun g c f => by
          show tally _ (p.ready ++ [next]) + tally _ (p.held g) =
            _ + (tally _ p.ready + tally _ (p.held g))
          rw [tally_append, tally_cons, tally_nil]
          omega
        refine Gates.of_gateAt h.active_serialize hparked h.work_content fun c hc => ?_
        by_cases heq : c = c'
        · subst heq
          have hset := fun g f => load_setThread
            (p := { p.popFront c with ready := p.ready ++ [next] }) hi .waiting g c f
          refine (h.gateAt hc).handOver hactive hpopped hfront rfl ?_ (fun f => ?_) rfl rfl rfl
          · have hheld := hset PoolThread.holding? fun _ => 1
            rw [hready] at hheld
            simp only [PoolThread.holding?, Option.toList_some, Option.toList_none, tally_cons,
              tally_nil, within_of_eq hcontent, within_of_eq hnext, Nat.zero_add] at hheld
            exact (Nat.add_left_cancel hheld).trans hone
          · have hbegun := hset PoolThread.popped? f
            rw [hready] at hbegun
            simp only [PoolThread.popped?, Option.toList_none, tally_nil, within_of_eq hnext,
              Nat.zero_add] at hbegun
            exact hbegun
        · refine hother c _ _ (hne c heq) hi (fun _ => rfl) (fun _ => rfl) ?_
          refine (hpop c heq hc).keep rfl id ?_ (fun f => ?_) rfl (List.Sublist.refl _) rfl
          · rw [holders, hready, within_of_ne (hnext' c heq), Nat.zero_add]
            rfl
          · rw [hready, within_of_ne (hnext' c heq), Nat.zero_add]
            rfl

/-- Every event keeps the gates, when no submit is under way at a stop. -/
theorem Gates.step {e : PoolEvent} (h : p.Gates serialize)
    (hshut : p.stop = true → p.admitting = [])
    (hs : WorkerPool.step serialize e p = some p') : p'.Gates serialize := by
  -- Fields that no gate sees.
  have hbeside : ∀ q : WorkerPool, q.active = p.active → (q.stop = false → p.stop = false) →
      q.ready = p.ready → q.workReady = p.workReady → q.parked = p.parked →
      q.threads = p.threads → q.started = p.started → q.enqueued = p.enqueued →
      q.Gates serialize := fun q ha hst hr hw hp ht hb hc => by
    have hload : ∀ g c f, load g c f q = load g c f p := fun g c f => by
      rw [load, load, held, held, hr, ht]
    refine Gates.of_gateAt (ha ▸ h.active_serialize) (hp ▸ h.parked_serialize)
      (hw ▸ h.work_content) fun c hserialize => ?_
    exact (h.gateAt hserialize).keep (by rw [ha]) hst (hload _ _ _) (hload _ _) (by rw [hb])
      (by rw [hp]) (by rw [hc])
  cases e with
  | submit t =>
    obtain rfl := Option.some.inj hs
    unfold WorkerPool.admitTask
    split
    · exact h
    · exact hbeside _ rfl id rfl rfl rfl rfl rfl rfl
  | enqueue k =>
    obtain ⟨t, ht, rfl⟩ := Option.map_eq_some_iff.mp hs
    refine h.enqueue (Bool.eq_false_iff.mpr fun hstop => ?_) t _
    rw [hshut hstop] at ht
    cases ht
  | take i =>
    simp only [WorkerPool.step] at hs
    split at hs
    · exact h.take ‹_› hs
    · cases hs
  | start i =>
    simp only [WorkerPool.step] at hs
    split at hs
    · obtain rfl := Option.some.inj hs
      exact Gates.of_gateAt h.active_serialize h.parked_serialize h.work_content fun c hc =>
        (h.gateAt hc).start ‹_›
    · cases hs
  | finish i settled =>
    simp only [WorkerPool.step] at hs
    split at hs
    · rename_i t hi
      split_ifs at hs
      · obtain rfl := Option.some.inj hs
        exact Gates.setThread (hbeside _ rfl id rfl rfl rfl rfl rfl rfl) hi rfl rfl
      · obtain rfl := Option.some.inj hs
        exact Gates.setThread (hbeside _ rfl id rfl rfl rfl rfl rfl rfl) hi rfl rfl
    · cases hs
  | settle k =>
    obtain ⟨t, -, rfl⟩ := Option.map_eq_some_iff.mp hs
    exact hbeside _ rfl id rfl rfl rfl rfl rfl rfl
  | release i =>
    simp only [WorkerPool.step] at hs
    split at hs
    · rename_i t hi
      obtain rfl := Option.some.inj hs
      exact Gates.setThread (hbeside (p.releaseOutstanding t.owner) rfl id rfl rfl rfl rfl rfl rfl)
        hi rfl rfl
    · cases hs
  | releaseGate i =>
    simp only [WorkerPool.step] at hs
    split at hs
    · obtain rfl := Option.some.inj hs
      exact h.releaseGate ‹_›
    · cases hs
  | drain owner =>
    obtain rfl := Option.some.inj hs
    exact h.drainOwner owner
  | requestStop =>
    obtain rfl := Option.some.inj hs
    exact hbeside _ rfl (by simp) rfl rfl rfl rfl rfl rfl

end Gates

end WorkerPool

end ArbitraryComposer
