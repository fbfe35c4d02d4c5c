import ArbitraryComposer.ToMathlib.Machine
import ArbitraryComposer.ToMathlib.Tally

/-!
# Fanning Work out under a Window

A thread hands the items of a list to workers, at most a window of them ahead of the item it takes
back next, and takes the results back in the order of the list. It may stop at any result; it then
drops what no worker has begun and waits for the rest.

Every order in which workers begin and finish is a run. The thread's own part is in order, so its
results are those of doing the items one by one.

## Main definitions

- `FanOut`: what is done with an item.
- `FanOut.inline`: the items one by one.
- `FanState`, `FanOut.machine`: the thread, the slots of the items, and all interleavings.
- `FanOut.Sound`: what a run of a fan-out promises.

## Main results

- `FanOut.sound`: every run keeps the promise.
- `FanOut.length_run_le`: a run cannot go on for ever.
-/

namespace ArbitraryComposer

open List (tally tally_nil tally_cons tally_set)

/-- Items, and what is done with them. -/
structure FanOut (F In V Out S : Type) where
  /-- How many items there are. -/
  count : ℕ
  /-- How many of them may be outstanding. -/
  window : ℕ
  /-- One may. -/
  window_pos : 0 < window
  /-- What the thread does before it hands an item out; it may decline the item instead. -/
  stage : F → ℕ → Except V In × F
  /-- What a worker does. -/
  work : In → Out
  /-- What the thread does with a result, and whether it goes on. -/
  reap : S → ℕ → Except V Out → S × Bool

/-- Where an item stands. -/
inductive FanSlot (In V Out : Type) where
  /-- It has not been staged. -/
  | empty
  /-- It was declined. -/
  | declined (v : V)
  /-- It waits for a worker. -/
  | queued (input : In)
  /-- A worker is at it. -/
  | running (input : In)
  /-- Its result is there. -/
  | settled (out : Out)
  /-- Its result was taken. -/
  | reaped
  /-- It was dropped before a worker began it. -/
  | dropped
  deriving DecidableEq

namespace FanSlot

variable {In V Out : Type}

/-- A worker may still reach for what the item refers to. -/
def isLive : FanSlot In V Out → Bool
  | queued _ | running _ => true
  | _ => false

/-- The item was handed out, and its result has not been taken. -/
def isOutstanding : FanSlot In V Out → Bool
  | queued _ | running _ | settled _ => true
  | _ => false

/-- A drain drops what waits for a worker. -/
def purge : FanSlot In V Out → FanSlot In V Out
  | queued _ => dropped
  | slot => slot

/-- The steps that are left. -/
def stepsLeft : FanSlot In V Out → ℕ
  | empty => 4
  | queued _ => 3
  | running _ => 2
  | settled _ | declined _ => 1
  | reaped | dropped => 0

end FanSlot

/-- Where the thread stands. -/
inductive FanPhase where
  /-- It stages and takes back. -/
  | fanning
  /-- It has stopped at a result. -/
  | aborted
  /-- It has dropped what no worker has begun. -/
  | draining
  /-- It has returned. -/
  | returned
  deriving DecidableEq, Repr

/-- The steps that are left. -/
def FanPhase.stepsLeft : FanPhase → ℕ
  | fanning => 3
  | aborted => 2
  | draining => 1
  | returned => 0

/-- A run of a fan-out. -/
structure FanState (F In V Out S : Type) where
  /-- Where the thread stands. -/
  phase : FanPhase
  /-- The next item to stage. -/
  dispatched : ℕ
  /-- The next item to take back. -/
  reaped : ℕ
  /-- Items handed out and not taken back. -/
  inFlight : ℕ
  /-- The most there were. -/
  peak : ℕ
  /-- What staging reads and changes. -/
  staging : F
  /-- What taking back reads and changes. -/
  sink : S
  /-- The items. -/
  slots : List (FanSlot In V Out)

/-- What happens in a run. -/
inductive FanEvent where
  /-- The thread stages the next item. -/
  | dispatch
  /-- A worker begins item `j`. -/
  | start (j : ℕ)
  /-- A worker is done with item `j`. -/
  | finish (j : ℕ)
  /-- The thread takes the next result. -/
  | reap
  /-- The thread drops what no worker has begun. -/
  | drain
  /-- The thread returns. -/
  | leave
  deriving DecidableEq, Repr

namespace FanOut

variable {F In V Out S : Type}

section Steps

variable (P : FanOut F In V Out S)

/-- The window has room for an item that has not been staged. -/
def HasRoom (st : FanState F In V Out S) : Prop :=
  st.dispatched < P.count ∧ st.dispatched - st.reaped < P.window

instance (st : FanState F In V Out S) : Decidable (P.HasRoom st) := by
  unfold HasRoom
  infer_instance

/-- Stage the next item and hand it out. -/
def dispatch (st : FanState F In V Out S) : FanState F In V Out S :=
  match P.stage st.staging st.dispatched with
  | (.error v, staging) =>
    { st with
      dispatched := st.dispatched + 1
      staging := staging
      slots := st.slots.set st.dispatched (.declined v) }
  | (.ok input, staging) =>
    { st with
      dispatched := st.dispatched + 1
      inFlight := st.inFlight + 1
      peak := max st.peak (st.inFlight + 1)
      staging := staging
      slots := st.slots.set st.dispatched (.queued input) }

/-- Take a result, and stop or go on. -/
def reapNext (result : Except V Out) (st : FanState F In V Out S) : FanState F In V Out S :=
  let (sink, goOn) := P.reap st.sink st.reaped result
  { st with
    phase := if goOn then .fanning else .aborted
    reaped := st.reaped + 1
    sink := sink
    slots := st.slots.set st.reaped .reaped }

/-- The effect of an event. The thread waits for the item it takes back next, and for the items that
workers are at before it returns from a drain. -/
def step (e : FanEvent) (st : FanState F In V Out S) : Option (FanState F In V Out S) :=
  match e with
  | .dispatch => if st.phase = .fanning ∧ P.HasRoom st then some (P.dispatch st) else none
  | .start j =>
    match st.slots[j]? with
    | some (.queued input) => some { st with slots := st.slots.set j (.running input) }
    | _ => none
  | .finish j =>
    match st.slots[j]? with
    | some (.running input) => some { st with slots := st.slots.set j (.settled (P.work input)) }
    | _ => none
  | .reap =>
    if st.phase = .fanning ∧ ¬ P.HasRoom st then
      match st.slots[st.reaped]? with
      | some (.declined v) => some (P.reapNext (.error v) st)
      | some (.settled out) =>
        some (P.reapNext (.ok out) { st with inFlight := st.inFlight - 1 })
      | _ => none
    else none
  | .drain =>
    if st.phase = .aborted then
      some { st with
        phase := .draining
        inFlight := 0
        slots := st.slots.map FanSlot.purge }
    else none
  | .leave =>
    if st.phase = .fanning ∧ st.reaped = P.count ∨
        st.phase = .draining ∧ ∀ slot ∈ st.slots, slot.isLive = false then
      some { st with phase := .returned }
    else none

/-- Nothing has been staged. -/
def start (f : F) (s : S) : FanState F In V Out S where
  phase := .fanning
  dispatched := 0
  reaped := 0
  inFlight := 0
  peak := 0
  staging := f
  sink := s
  slots := List.replicate P.count .empty

/-- All interleavings of a fan-out. -/
def machine (f : F) (s : S) : Machine (FanState F In V Out S) FanEvent where
  start st := st = P.start f s
  step := P.step

/-! ## One by one -/

/-- Stage, work and take back `n` items from item `j` on, until a result stops it. -/
def inlineFrom : ℕ → ℕ → F → S → S × Bool
  | 0, _, _, s => (s, true)
  | n + 1, j, f, s =>
    let (staged, f') := P.stage f j
    match P.reap s j (staged.map P.work) with
    | (s', true) => inlineFrom n (j + 1) f' s'
    | (s', false) => (s', false)

/-- All items one by one. -/
def inline (f : F) (s : S) : S := (P.inlineFrom P.count 0 f s).1

/-- What staging has changed after `n` items. -/
def stagingAt (f : F) : ℕ → F
  | 0 => f
  | n + 1 => (P.stage (stagingAt f n) n).2

/-- What staging makes of an item. -/
def staged (f : F) (j : ℕ) : Except V In := (P.stage (P.stagingAt f j) j).1

/-- What taking back has changed after `n` items, and whether nothing has stopped it. -/
def sinkAt (f : F) (s : S) : ℕ → S × Bool
  | 0 => (s, true)
  | n + 1 =>
    match sinkAt f s n with
    | (s', true) => P.reap s' n ((P.staged f n).map P.work)
    | (s', false) => (s', false)

/-- How many of the first `n` items are handed out. -/
def handedOut (f : F) : ℕ → ℕ
  | 0 => 0
  | n + 1 => handedOut f n + if (P.staged f n).isOk then 1 else 0

end Steps

/-- What a run of a fan-out promises. -/
structure Sound (P : FanOut F In V Out S) (f : F) (s : S) (st : FanState F In V Out S) : Prop where
  /-- No more than a window of items is outstanding. -/
  bounded : st.slots.countP FanSlot.isOutstanding ≤ P.window
  /-- No more than a window ever was. -/
  peak_le : st.peak ≤ P.window
  /-- What the thread has taken back is what doing the items one by one gives, as far as it
  is. -/
  taken : st.sink = (P.sinkAt f s st.reaped).1
  /-- When it returns, it has all of it. -/
  result : st.phase = .returned → st.sink = P.inline f s
  /-- When it returns, no worker reaches for an item. -/
  quiet : st.phase = .returned → ∀ slot ∈ st.slots, slot.isLive = false
  /-- Until it returns something can happen. -/
  progress : st.phase ≠ .returned → ∃ e st', P.step e st = some st'

/-! ## What a run keeps -/

/-- What a slot says about its item. -/
def SlotOk (P : FanOut F In V Out S) (f : F) (st : FanState F In V Out S) (j : ℕ) :
    FanSlot In V Out → Prop
  | .empty => st.dispatched ≤ j
  | .declined v => st.reaped ≤ j ∧ j < st.dispatched ∧ P.staged f j = .error v
  | .queued input => st.reaped ≤ j ∧ j < st.dispatched ∧ P.staged f j = .ok input ∧
      (st.phase = .draining → False)
  | .running input => st.reaped ≤ j ∧ j < st.dispatched ∧ P.staged f j = .ok input
  | .settled out => st.reaped ≤ j ∧ j < st.dispatched ∧
      ∃ input, P.staged f j = .ok input ∧ out = P.work input
  | .reaped => j < st.reaped
  | .dropped => st.phase ≠ .fanning

/-- What taking back has come to in a phase. -/
def PhaseOk (P : FanOut F In V Out S) (st : FanState F In V Out S) (goOn : Bool) : Prop :=
  match st.phase with
  | .fanning => goOn = true
  | .aborted | .draining => goOn = false
  | .returned => (goOn = true → st.reaped = P.count) ∧
      ∀ slot ∈ st.slots, slot.isLive = false

/-- The invariant of a fan-out. -/
structure Inv (P : FanOut F In V Out S) (f : F) (s : S) (st : FanState F In V Out S) : Prop where
  /-- A slot for every item. -/
  length : st.slots.length = P.count
  /-- No item is taken back before it is staged. -/
  reaped_le : st.reaped ≤ st.dispatched
  /-- Only items are staged. -/
  dispatched_le : st.dispatched ≤ P.count
  /-- Staging is at most a window ahead. -/
  ahead_le : st.dispatched ≤ st.reaped + P.window
  /-- What the slots say. -/
  slot : ∀ j slot, st.slots[j]? = some slot → P.SlotOk f st j slot
  /-- Staging is in order. -/
  staging : st.staging = P.stagingAt f st.dispatched
  /-- Taking back is in order. -/
  sink : ∃ goOn, P.sinkAt f s st.reaped = (st.sink, goOn) ∧ P.PhaseOk st goOn
  /-- What is in flight was handed out and not taken back. -/
  in_flight : st.phase = .fanning →
    st.inFlight + P.handedOut f st.reaped = P.handedOut f st.dispatched
  /-- No more than a window was in flight. -/
  peak_le : st.peak ≤ P.window

section Invariant

variable {P : FanOut F In V Out S} {f : F} {s : S} {st st' : FanState F In V Out S} {j : ℕ}

theorem handedOut_le (P : FanOut F In V Out S) (f : F) (n k : ℕ) :
    P.handedOut f n ≤ P.handedOut f (n + k) ∧ P.handedOut f (n + k) ≤ P.handedOut f n + k := by
  induction k with
  | zero => exact ⟨Nat.le_refl _, Nat.le_refl _⟩
  | succ k ih =>
    rw [← Nat.add_assoc, handedOut]
    split <;> omega

theorem Inv.start (P : FanOut F In V Out S) (f : F) (s : S) : P.Inv f s (P.start f s) := by
  refine ⟨List.length_replicate, Nat.le_refl _, Nat.zero_le _, Nat.zero_le _, fun j slot hj => ?_,
    rfl, ⟨true, rfl, rfl⟩, fun _ => rfl, Nat.zero_le _⟩
  obtain rfl := List.eq_of_mem_replicate (List.mem_of_getElem? hj)
  exact Nat.zero_le _

/-- A slot that was set, or another. -/
theorem slot_of_set {slots : List (FanSlot In V Out)} {i : ℕ} {slot new : FanSlot In V Out}
    (h : (slots.set i new)[j]? = some slot) :
    j = i ∧ slot = new ∨ j ≠ i ∧ slots[j]? = some slot := by
  rw [List.getElem?_set] at h
  split_ifs at h with heq hlt
  · exact Or.inl ⟨heq.symm, (Option.some.inj h).symm⟩
  · exact Or.inr ⟨Ne.symm heq, h⟩

/-- What a slot says stays true while the thread goes on elsewhere. -/
theorem SlotOk.mono {slot : FanSlot In V Out} (h : P.SlotOk f st j slot)
    (hdispatched : st.dispatched ≤ st'.dispatched)
    (hdispatched' : st.dispatched ≤ j → st'.dispatched ≤ j)
    (hreaped : st.reaped ≤ st'.reaped) (hreaped' : st.reaped ≤ j → st'.reaped ≤ j)
    (hdraining : st'.phase = .draining → st.phase = .draining)
    (hfanning : st'.phase = .fanning → st.phase = .fanning) : P.SlotOk f st' j slot := by
  cases slot with
  | empty => exact hdispatched' h
  | declined v => exact ⟨hreaped' h.1, Nat.lt_of_lt_of_le h.2.1 hdispatched, h.2.2⟩
  | queued input =>
    exact ⟨hreaped' h.1, Nat.lt_of_lt_of_le h.2.1 hdispatched, h.2.2.1,
      fun hd => h.2.2.2 (hdraining hd)⟩
  | running input => exact ⟨hreaped' h.1, Nat.lt_of_lt_of_le h.2.1 hdispatched, h.2.2⟩
  | settled out => exact ⟨hreaped' h.1, Nat.lt_of_lt_of_le h.2.1 hdispatched, h.2.2⟩
  | reaped => exact Nat.lt_of_lt_of_le h hreaped
  | dropped => exact fun hp => h (hfanning hp)

/-- No more than a window is in flight. -/
theorem Inv.inFlight_le (h : P.Inv f s st) (hphase : st.phase = .fanning) :
    st.inFlight ≤ st.dispatched - st.reaped := by
  have hflight := h.in_flight hphase
  have hle := handedOut_le P f st.reaped (st.dispatched - st.reaped)
  have heq : st.reaped + (st.dispatched - st.reaped) = st.dispatched :=
    Nat.add_sub_cancel' h.reaped_le
  rw [heq] at hle
  omega

theorem Inv.dispatch (h : P.Inv f s st) (hphase : st.phase = .fanning) (hroom : P.HasRoom st) :
    P.Inv f s (P.dispatch st) := by
  obtain ⟨hcount, hwindow⟩ := hroom
  have hreaped := h.reaped_le
  obtain ⟨goOn, hsink, hgoOn⟩ := h.sink
  have hflight := h.in_flight hphase
  have hle := h.inFlight_le hphase
  -- The other slots see the next item staged.
  have hother : ∀ (st' : FanState F In V Out S), st'.dispatched = st.dispatched + 1 →
      st'.reaped = st.reaped → st'.phase = st.phase → ∀ j slot, j ≠ st.dispatched →
      st.slots[j]? = some slot → P.SlotOk f st' j slot :=
    fun st' hd hr hp j slot hne hj => by
      refine (h.slot j slot hj).mono (by omega) (by omega) (by omega) (by omega) ?_ ?_
      · exact fun hd => hp ▸ hd
      · exact fun hf => hp ▸ hf
  have hphaseOk : ∀ st' : FanState F In V Out S, st'.phase = st.phase → P.PhaseOk st' goOn :=
    fun st' hp => by
      unfold PhaseOk at hgoOn ⊢
      rw [hphase] at hgoOn
      rw [hp, hphase]
      exact hgoOn
  unfold FanOut.dispatch
  split
  case h_1 v staging hstage =>
    have hstaged : P.staged f st.dispatched = .error v := by
      rw [staged, ← h.staging, hstage]
    refine ⟨List.length_set.trans h.length, Nat.le_succ_of_le hreaped, hcount,
      by show st.dispatched + 1 ≤ st.reaped + P.window; omega, fun j slot hj => ?_, ?_,
      ⟨goOn, hsink, hphaseOk _ rfl⟩, fun _ => ?_, h.peak_le⟩
    · rcases slot_of_set hj with ⟨rfl, rfl⟩ | ⟨hne, hj⟩
      · exact ⟨hreaped, Nat.lt_succ_self _, hstaged⟩
      · apply hother _ ?_ ?_ ?_ j slot hne hj <;> rfl
    · show staging = (P.stage (P.stagingAt f st.dispatched) st.dispatched).2
      rw [← h.staging, hstage]
    · show st.inFlight + P.handedOut f st.reaped = P.handedOut f (st.dispatched + 1)
      rw [handedOut, hstaged, hflight]
      rfl
  case h_2 input staging hstage =>
    have hstaged : P.staged f st.dispatched = .ok input := by
      rw [staged, ← h.staging, hstage]
    refine ⟨List.length_set.trans h.length, Nat.le_succ_of_le hreaped, hcount,
      by show st.dispatched + 1 ≤ st.reaped + P.window; omega, fun j slot hj => ?_, ?_,
      ⟨goOn, hsink, hphaseOk _ rfl⟩, fun _ => ?_, ?_⟩
    · rcases slot_of_set hj with ⟨rfl, rfl⟩ | ⟨hne, hj⟩
      · refine ⟨hreaped, Nat.lt_succ_self _, hstaged, fun hd => ?_⟩
        rw [show st.phase = .draining from hd] at hphase
        cases hphase
      · apply hother _ ?_ ?_ ?_ j slot hne hj <;> rfl
    · show staging = (P.stage (P.stagingAt f st.dispatched) st.dispatched).2
      rw [← h.staging, hstage]
    · show st.inFlight + 1 + P.handedOut f st.reaped = P.handedOut f (st.dispatched + 1)
      rw [handedOut, hstaged]
      show _ = _ + 1
      omega
    · have := h.peak_le
      show max st.peak (st.inFlight + 1) ≤ P.window
      omega

/-- A worker moves an item on; the thread does not notice. -/
theorem Inv.work {slot new : FanSlot In V Out} (h : P.Inv f s st)
    (hj : st.slots[j]? = some slot) (hlive : slot.isLive = true)
    (hnew : P.SlotOk f st j slot → P.SlotOk f { st with slots := st.slots.set j new } j new) :
    P.Inv f s { st with slots := st.slots.set j new } := by
  obtain ⟨goOn, hsink, hgoOn⟩ := h.sink
  refine ⟨List.length_set.trans h.length, h.reaped_le, h.dispatched_le, h.ahead_le,
    fun i slot' hi => ?_, h.staging, ⟨goOn, hsink, ?_⟩, h.in_flight, h.peak_le⟩
  · rcases slot_of_set hi with ⟨rfl, rfl⟩ | ⟨-, hi⟩
    · exact hnew (h.slot i slot hj)
    · exact (h.slot i slot' hi).mono (Nat.le_refl _) id (Nat.le_refl _) id id id
  · -- The thread has not returned while an item is live.
    unfold PhaseOk at hgoOn ⊢
    cases hphase : st.phase with
    | fanning => simpa only [hphase] using hgoOn
    | aborted => simpa only [hphase] using hgoOn
    | draining => simpa only [hphase] using hgoOn
    | returned =>
      simp only [hphase] at hgoOn
      have := hgoOn.2 slot (List.mem_of_getElem? hj)
      rw [hlive] at this
      cases this

/-- The thread takes the result of the next item. -/
theorem Inv.reapNext {result : Except V Out} (h : P.Inv f s st) (hphase : st.phase = .fanning)
    (hresult : result = (P.staged f st.reaped).map P.work) (hlt : st.reaped < st.dispatched)
    {inFlight : ℕ} (hflight : inFlight + P.handedOut f (st.reaped + 1) =
      P.handedOut f st.dispatched) :
    P.Inv f s (P.reapNext result { st with inFlight := inFlight }) := by
  obtain ⟨goOn, hsink, hgoOn⟩ := h.sink
  obtain rfl : goOn = true := by
    unfold PhaseOk at hgoOn
    rw [hphase] at hgoOn
    exact hgoOn
  have hnext : P.sinkAt f s (st.reaped + 1) = P.reap st.sink st.reaped result := by
    rw [sinkAt, hsink, hresult]
  have hahead := h.ahead_le
  unfold FanOut.reapNext
  cases hreap : P.reap st.sink st.reaped result with
  | mk sink goOn =>
    refine ⟨List.length_set.trans h.length, hlt, h.dispatched_le,
      by show st.dispatched ≤ st.reaped + 1 + P.window; omega, fun j slot hj => ?_, h.staging,
      ⟨goOn, hnext.trans hreap, ?_⟩, fun _ => hflight, h.peak_le⟩
    · rcases slot_of_set hj with ⟨rfl, rfl⟩ | ⟨hne, hj⟩
      · exact Nat.lt_succ_self _
      · refine (h.slot j slot hj).mono (Nat.le_refl _) id (Nat.le_succ _) (fun hle => ?_)
          (fun hd => ?_) fun _ => hphase
        · exact Nat.lt_of_le_of_ne hle (Ne.symm hne)
        · revert hd
          cases goOn <;> exact nofun
    · unfold PhaseOk
      cases goOn <;> rfl

/-- What no worker has begun is dropped. -/
theorem Inv.drain (h : P.Inv f s st) (hphase : st.phase = .aborted) :
    P.Inv f s { st with
      phase := .draining
      inFlight := 0
      slots := st.slots.map FanSlot.purge } := by
  obtain ⟨goOn, hsink, hgoOn⟩ := h.sink
  refine ⟨(List.length_map _).trans h.length, h.reaped_le, h.dispatched_le, h.ahead_le,
    fun j slot hj => ?_, h.staging, ⟨goOn, hsink, ?_⟩, nofun, h.peak_le⟩
  · rw [List.getElem?_map] at hj
    obtain ⟨old, hold, rfl⟩ := Option.map_eq_some_iff.mp hj
    have hok := h.slot j old hold
    cases old with
    | queued input => exact FanPhase.noConfusion
    | dropped => exact FanPhase.noConfusion
    | empty | declined v | running input | settled out | reaped => exact hok
  · unfold PhaseOk at hgoOn
    rw [hphase] at hgoOn
    exact hgoOn

/-- Every event keeps the invariant. -/
theorem Inv.step {e : FanEvent} (h : P.Inv f s st) (hs : P.step e st = some st') :
    P.Inv f s st' := by
  cases e with
  | dispatch =>
    simp only [FanOut.step] at hs
    split_ifs at hs with hphase
    obtain rfl := Option.some.inj hs
    exact h.dispatch hphase.1 hphase.2
  | start j =>
    simp only [FanOut.step] at hs
    split at hs
    case h_1 input hj =>
      obtain rfl := Option.some.inj hs
      exact h.work hj rfl fun hok => ⟨hok.1, hok.2.1, hok.2.2.1⟩
    case h_2 => cases hs
  | finish j =>
    simp only [FanOut.step] at hs
    split at hs
    case h_1 input hj =>
      obtain rfl := Option.some.inj hs
      exact h.work hj rfl fun hok => ⟨hok.1, hok.2.1, input, hok.2.2, rfl⟩
    case h_2 => cases hs
  | reap =>
    simp only [FanOut.step] at hs
    split_ifs at hs with hphase
    have hflight := h.in_flight hphase.1
    split at hs
    case h_1 v hj =>
      obtain rfl := Option.some.inj hs
      obtain ⟨-, hlt, hstaged⟩ := h.slot _ _ hj
      refine h.reapNext hphase.1 (by rw [hstaged]; rfl) hlt ?_
      rw [handedOut, hstaged]
      exact hflight
    case h_2 out hj =>
      obtain rfl := Option.some.inj hs
      obtain ⟨-, hlt, input, hstaged, rfl⟩ := h.slot _ _ hj
      refine h.reapNext hphase.1 (by rw [hstaged]; rfl) hlt ?_
      -- The item was handed out, so something is in flight.
      have hnext : P.handedOut f (st.reaped + 1) = P.handedOut f st.reaped + 1 := by
        rw [handedOut, hstaged]
        rfl
      have hle := (handedOut_le P f (st.reaped + 1) (st.dispatched - (st.reaped + 1))).1
      rw [Nat.add_sub_cancel' hlt] at hle
      omega
    case h_3 => cases hs
  | drain =>
    simp only [FanOut.step] at hs
    split_ifs at hs with hphase
    obtain rfl := Option.some.inj hs
    exact h.drain hphase
  | leave =>
    simp only [FanOut.step] at hs
    split_ifs at hs with hphase
    obtain rfl := Option.some.inj hs
    obtain ⟨goOn, hsink, hgoOn⟩ := h.sink
    refine ⟨h.length, h.reaped_le, h.dispatched_le, h.ahead_le, fun j slot hj => ?_, h.staging,
      ⟨goOn, hsink, ?_⟩, nofun, h.peak_le⟩
    · exact (h.slot j slot hj).mono (Nat.le_refl _) id (Nat.le_refl _) id nofun nofun
    · rcases hphase with ⟨hphase, hall⟩ | ⟨hphase, hquiet⟩
      · refine ⟨fun _ => hall, fun slot hslot => ?_⟩
        -- Every item has been taken back.
        obtain ⟨j, hj⟩ := List.mem_iff_getElem?.mp hslot
        have hlt : j < P.count := h.length ▸ (List.getElem?_eq_some_iff.mp hj).1
        have hok := h.slot j slot hj
        cases slot with
        | queued input => exact absurd hok.1 (by omega)
        | running input => exact absurd hok.1 (by omega)
        | empty | declined v | settled out | reaped | dropped => rfl
      · unfold PhaseOk at hgoOn
        rw [hphase] at hgoOn
        exact ⟨fun hgo => absurd (hgoOn.symm.trans hgo) Bool.noConfusion, hquiet⟩

/-! ## What a run promises -/

/-- Elements that pass a test and stand between two places. -/
theorem countP_le_of_window {q : FanSlot In V Out → Bool} {slots : List (FanSlot In V Out)}
    {a b : ℕ} (h : ∀ j slot, slots[j]? = some slot → q slot = true → a ≤ j ∧ j < b) :
    slots.countP q ≤ b - a := by
  induction slots generalizing a b with
  | nil => exact Nat.zero_le _
  | cons slot slots ih =>
    have htail := ih (a := a - 1) (b := b - 1) fun j slot' hj hq => by
      have := h (j + 1) slot' hj hq
      omega
    rw [List.countP_cons]
    split
    case isTrue hq =>
      have := h 0 slot rfl hq
      omega
    case isFalse => omega

/-- Once a result has stopped the thread, nothing is taken back any more. -/
theorem sinkAt_of_stopped (h : (P.sinkAt f s j).2 = false) (k : ℕ) :
    P.sinkAt f s (j + k) = P.sinkAt f s j := by
  induction k with
  | zero => rfl
  | succ k ih =>
    rw [← Nat.add_assoc, sinkAt, ih]
    cases hsink : P.sinkAt f s j with
    | mk sink goOn =>
      rw [hsink] at h
      obtain rfl : goOn = false := h
      rfl

theorem inlineFrom_succ (P : FanOut F In V Out S) {f : F} {s s' : S} {goOn : Bool} (n j : ℕ)
    (hreap : P.reap s j ((P.stage f j).1.map P.work) = (s', goOn)) :
    P.inlineFrom (n + 1) j f s =
      if goOn then P.inlineFrom n (j + 1) (P.stage f j).2 s' else (s', false) := by
  rw [inlineFrom]
  simp only [hreap]
  cases goOn <;> rfl

theorem inlineFrom_eq (P : FanOut F In V Out S) (f : F) (s : S) (n : ℕ) {s' : S}
    (h : P.sinkAt f s j = (s', true)) :
    P.inlineFrom n j (P.stagingAt f j) s' = P.sinkAt f s (j + n) := by
  induction n generalizing j s' with
  | zero => exact h.symm
  | succ n ih =>
    have hnext : P.sinkAt f s (j + 1) = P.reap s' j ((P.staged f j).map P.work) := by
      rw [sinkAt, h]
    rw [show j + (n + 1) = j + 1 + n by omega]
    cases hreap : P.reap s' j ((P.staged f j).map P.work) with
    | mk s'' goOn =>
      rw [hreap] at hnext
      rw [P.inlineFrom_succ n j hreap]
      cases goOn with
      | true => exact ih hnext
      | false =>
        rw [sinkAt_of_stopped (by rw [hnext]), hnext]
        rfl

/-- Items one by one come to what taking all of them back comes to. -/
theorem inline_eq (P : FanOut F In V Out S) (f : F) (s : S) :
    P.inline f s = (P.sinkAt f s P.count).1 := by
  have h := P.inlineFrom_eq f s P.count (j := 0) rfl
  rw [Nat.zero_add] at h
  exact congrArg Prod.fst h

theorem Inv.result (h : P.Inv f s st) (hphase : st.phase = .returned) :
    st.sink = P.inline f s := by
  obtain ⟨goOn, hsink, hgoOn⟩ := h.sink
  unfold PhaseOk at hgoOn
  rw [hphase] at hgoOn
  rw [inline_eq]
  cases goOn with
  | true => rw [← hgoOn.1 rfl, hsink]
  | false =>
    have hle := Nat.le_trans h.reaped_le h.dispatched_le
    have hstopped := sinkAt_of_stopped (P := P) (f := f) (s := s) (j := st.reaped)
      (by rw [hsink]) (P.count - st.reaped)
    rw [Nat.add_sub_cancel' hle] at hstopped
    rw [hstopped, hsink]

/-- While the thread has not returned, it or a worker can go on. -/
theorem Inv.progress (h : P.Inv f s st) (hphase : st.phase ≠ .returned) :
    ∃ e st', P.step e st = some st' := by
  -- A live item can be worked on.
  have hlive : ∀ j (slot : FanSlot In V Out), st.slots[j]? = some slot → slot.isLive = true →
      ∃ e st', P.step e st = some st' := fun j slot hj hslot => by
    cases slot with
    | queued input =>
      exact ⟨.start j, { st with slots := st.slots.set j (.running input) },
        by rw [FanOut.step, hj]⟩
    | running input =>
      exact ⟨.finish j, { st with slots := st.slots.set j (.settled (P.work input)) },
        by rw [FanOut.step, hj]⟩
    | empty | declined v | settled out | reaped | dropped => cases hslot
  cases hp : st.phase with
  | returned => exact absurd hp hphase
  | aborted => exact ⟨.drain, _, if_pos hp⟩
  | draining =>
    by_cases hquiet : ∀ slot ∈ st.slots, slot.isLive = false
    · exact ⟨.leave, _, if_pos (Or.inr ⟨hp, hquiet⟩)⟩
    · push Not at hquiet
      obtain ⟨slot, hslot, hne⟩ := hquiet
      obtain ⟨j, hj⟩ := List.mem_iff_getElem?.mp hslot
      exact hlive j slot hj (by simpa using hne)
  | fanning =>
    by_cases hroom : P.HasRoom st
    · exact ⟨.dispatch, _, if_pos ⟨hp, hroom⟩⟩
    · by_cases hall : st.reaped = P.count
      · exact ⟨.leave, _, if_pos (Or.inl ⟨hp, hall⟩)⟩
      · -- The next item is staged: the window has room for one.
        have hwindow := P.window_pos
        have hle := h.reaped_le
        have hcount := h.dispatched_le
        have hlt : st.reaped < st.dispatched := by
          by_contra hge
          exact hroom ⟨by omega, by omega⟩
        obtain ⟨slot, hj⟩ : ∃ slot, st.slots[st.reaped]? = some slot :=
          ⟨_, List.getElem?_eq_getElem (by rw [h.length]; omega)⟩
        have hok := h.slot _ _ hj
        cases slot with
        | queued input => exact hlive _ _ hj rfl
        | running input => exact hlive _ _ hj rfl
        | declined v => exact ⟨.reap, _, by simp only [FanOut.step, hp, hroom, hj]; rfl⟩
        | settled out => exact ⟨.reap, _, by simp only [FanOut.step, hp, hroom, hj]; rfl⟩
        | empty => exact absurd hok (by show ¬ st.dispatched ≤ st.reaped; omega)
        | reaped => exact absurd hok (Nat.lt_irrefl _)
        | dropped => exact absurd hp hok

theorem Inv.sound (h : P.Inv f s st) : P.Sound f s st := by
  refine ⟨?_, h.peak_le, ?_, h.result, fun hphase => ?_, h.progress⟩
  · refine Nat.le_trans (countP_le_of_window fun j slot hj hout => ?_)
      (show st.dispatched - st.reaped ≤ P.window by have := h.ahead_le; omega)
    have hok := h.slot j slot hj
    cases slot with
    | queued input => exact ⟨hok.1, hok.2.1⟩
    | running input => exact ⟨hok.1, hok.2.1⟩
    | settled out => exact ⟨hok.1, hok.2.1⟩
    | empty | declined v | reaped | dropped => cases hout
  · obtain ⟨goOn, hsink, -⟩ := h.sink
    rw [hsink]
  · obtain ⟨goOn, -, hgoOn⟩ := h.sink
    unfold PhaseOk at hgoOn
    rw [hphase] at hgoOn
    exact hgoOn.2

end Invariant

/-- Every run of a fan-out keeps its promise. -/
theorem sound (P : FanOut F In V Out S) (f : F) (s : S) {st : FanState F In V Out S}
    (h : (P.machine f s).Reachable Machine.anyEvent st) : P.Sound f s st := by
  have hinv := Machine.Reachable.invariant (I := fun st => P.Inv f s st) h
    (fun _ hst => hst ▸ Inv.start P f s) fun _ _ _ h _ hs => h.step hs
  exact hinv.sound

/-! ## A run ends -/

/-- The steps that are left. -/
def stepsLeft (st : FanState F In V Out S) : ℕ :=
  tally FanSlot.stepsLeft st.slots + st.phase.stepsLeft

theorem tally_set_lt {slots : List (FanSlot In V Out)} {j : ℕ} {slot : FanSlot In V Out}
    (hj : slots[j]? = some slot) (new : FanSlot In V Out) (hlt : new.stepsLeft < slot.stepsLeft) :
    tally FanSlot.stepsLeft (slots.set j new) < tally FanSlot.stepsLeft slots := by
  have := tally_set hj new FanSlot.stepsLeft
  omega

theorem Inv.stepsLeft_lt {P : FanOut F In V Out S} {f : F} {s : S} {st st' : FanState F In V Out S}
    {e : FanEvent} (h : P.Inv f s st) (hs : P.step e st = some st') :
    stepsLeft st' < stepsLeft st := by
  cases e with
  | dispatch =>
    simp only [FanOut.step] at hs
    split_ifs at hs with hphase
    obtain ⟨hphase, hcount, -⟩ := hphase
    obtain rfl := Option.some.inj hs
    -- The next item has not been staged.
    have hempty : st.slots[st.dispatched]? = some .empty := by
      obtain ⟨slot, hj⟩ : ∃ slot, st.slots[st.dispatched]? = some slot :=
        ⟨_, List.getElem?_eq_getElem (h.length.symm ▸ hcount)⟩
      have hok := h.slot _ _ hj
      cases slot with
      | empty => exact hj
      | declined v => exact absurd hok.2.1 (Nat.lt_irrefl _)
      | queued input => exact absurd hok.2.1 (Nat.lt_irrefl _)
      | running input => exact absurd hok.2.1 (Nat.lt_irrefl _)
      | settled out => exact absurd hok.2.1 (Nat.lt_irrefl _)
      | reaped => exact absurd (Nat.lt_of_lt_of_le hok h.reaped_le) (Nat.lt_irrefl _)
      | dropped => exact absurd hphase hok
    unfold FanOut.dispatch
    split
    case h_1 v staging _ =>
      exact Nat.add_lt_add_right (tally_set_lt hempty (.declined v) (by simp [FanSlot.stepsLeft])) _
    case h_2 input staging _ =>
      exact Nat.add_lt_add_right (tally_set_lt hempty (.queued input) (by simp [FanSlot.stepsLeft])) _
  | start j =>
    simp only [FanOut.step] at hs
    split at hs
    case h_1 input hj =>
      obtain rfl := Option.some.inj hs
      exact Nat.add_lt_add_right (tally_set_lt hj (.running input) (by simp [FanSlot.stepsLeft])) _
    case h_2 => cases hs
  | finish j =>
    simp only [FanOut.step] at hs
    split at hs
    case h_1 input hj =>
      obtain rfl := Option.some.inj hs
      exact Nat.add_lt_add_right (tally_set_lt hj (.settled _) (by simp [FanSlot.stepsLeft])) _
    case h_2 => cases hs
  | reap =>
    simp only [FanOut.step] at hs
    split_ifs at hs with hphase
    have hnext : ∀ (st' : FanState F In V Out S) result, st'.phase = .fanning →
        stepsLeft (P.reapNext result st') ≤ tally FanSlot.stepsLeft (st'.slots.set st'.reaped .reaped) +
          FanPhase.stepsLeft .fanning := fun st' result hp => by
      unfold stepsLeft FanOut.reapNext
      refine Nat.add_le_add_left ?_ _
      show FanPhase.stepsLeft (if _ then _ else _) ≤ _
      split <;> decide
    split at hs
    case h_1 v hj =>
      obtain rfl := Option.some.inj hs
      refine Nat.lt_of_le_of_lt (hnext _ _ hphase.1) ?_
      rw [stepsLeft, hphase.1]
      exact Nat.add_lt_add_right (tally_set_lt hj .reaped (by simp [FanSlot.stepsLeft])) _
    case h_2 out hj =>
      obtain rfl := Option.some.inj hs
      refine Nat.lt_of_le_of_lt (hnext _ _ hphase.1) ?_
      rw [stepsLeft, hphase.1]
      exact Nat.add_lt_add_right (tally_set_lt hj .reaped (by simp [FanSlot.stepsLeft])) _
    case h_3 => cases hs
  | drain =>
    simp only [FanOut.step] at hs
    split_ifs at hs with hphase
    obtain rfl := Option.some.inj hs
    refine Nat.add_lt_add_of_le_of_lt (List.tally_map_le (fun slot => ?_) _) ?_
    · cases slot with
      | queued input => exact Nat.zero_le _
      | empty | declined v | running input | settled out | reaped | dropped => exact Nat.le_refl _
    · rw [hphase]
      show 1 < 2
      decide
  | leave =>
    simp only [FanOut.step] at hs
    split_ifs at hs with hphase
    obtain rfl := Option.some.inj hs
    refine Nat.add_lt_add_left ?_ _
    rcases hphase with ⟨hphase, -⟩ | ⟨hphase, -⟩ <;> rw [hphase] <;> exact Nat.succ_pos _

/-- A run of a fan-out is short: after it, nothing can happen any more. -/
theorem length_run_le (P : FanOut F In V Out S) (f : F) (s : S) {es : List FanEvent}
    {st : FanState F In V Out S} (hrun : (P.machine f s).run es (P.start f s) = some st) :
    es.length ≤ 4 * P.count + 3 := by
  have hle := Machine.length_run_le (I := fun st => P.Inv f s st) (m := stepsLeft)
    (fun _ _ _ h hs => ⟨h.step hs, h.stepsLeft_lt hs⟩) (Inv.start P f s) hrun
  have hstart : stepsLeft (P.start f s) = 4 * P.count + 3 := by
    have htally : ∀ n, tally FanSlot.stepsLeft
        (List.replicate n (.empty : FanSlot In V Out)) = 4 * n := fun n => by
      induction n with
      | zero => rfl
      | succ n ih =>
        rw [List.replicate_succ, tally_cons, ih]
        show 4 + 4 * n = 4 * (n + 1)
        omega
    rw [stepsLeft, FanOut.start, htally]
    rfl
  omega

end FanOut

end ArbitraryComposer
