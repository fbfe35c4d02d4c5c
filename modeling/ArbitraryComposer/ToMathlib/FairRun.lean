import ArbitraryComposer.ToMathlib.Machine

/-!
# Infinite Runs and What They Come to

An infinite run is fair when its threads do not wait for ever while one of them could go on. Where
every such step lessens a measure, and the environment adds to the measure finitely often, a fair
run comes to any goal short of which some thread can go on.

## Main definitions

- `Machine.InfiniteRun`: the states and events of a run that never stops.
- `Machine.InfiniteRun.Fair`: threads that can go on do.

## Main results

- `Machine.InfiniteRun.reachable`: its states are reachable.
- `Machine.InfiniteRun.eventually`: a fair run comes to its goal.
- `Machine.InfiniteRun.loop`: a run that ends in an event that changes nothing goes on for ever.
-/

namespace Machine

variable {σ ι : Type} {M : Machine σ ι} {allowed : ι → σ → Prop}

/-- The states and events of a run that never stops. -/
structure InfiniteRun (M : Machine σ ι) where
  /-- The state before each event. -/
  states : ℕ → σ
  /-- The events. -/
  events : ℕ → ι
  /-- It starts in a start state. -/
  start : M.start (states 0)
  /-- Every event leads to the next state. -/
  step : ∀ n, M.step (events n) (states n) = some (states (n + 1))

namespace InfiniteRun

/-- While a thread can go on, not only the environment acts. -/
def Fair (r : M.InfiniteRun) (goesOn : ι → σ → Prop) : Prop :=
  ∀ N, (∀ n ≥ N, ∃ e, goesOn e (r.states n) ∧ (M.step e (r.states n)).isSome) →
    ∃ n ≥ N, goesOn (r.events n) (r.states n)

/-- The states of an infinite run are reachable. -/
theorem reachable (r : M.InfiniteRun) (h : ∀ n, allowed (r.events n) (r.states n)) (n : ℕ) :
    M.Reachable allowed (r.states n) := by
  induction n with
  | zero => exact .start r.start
  | succ n ih => exact ih.step (r.events n) (h n) (r.step n)

/-- They are reachable by any events. -/
theorem reachable_anyEvent (r : M.InfiniteRun) (n : ℕ) : M.Reachable anyEvent (r.states n) :=
  r.reachable (fun _ => trivial) n

/-- What a step keeps, later states have. -/
theorem keep (r : M.InfiniteRun) {I : σ → Prop}
    (hstep : ∀ e s s', I s → M.step e s = some s' → I s') {n m : ℕ} (hle : n ≤ m)
    (h : I (r.states n)) : I (r.states m) := by
  induction hle with
  | refl => exact h
  | step _ ih => exact hstep _ _ _ ih (r.step _)

/-- From some event on the measure does not grow, every thread that goes on lessens it, and short of
the goal a thread can go on. So a fair run comes to the goal. -/
theorem eventually (r : M.InfiniteRun) {goesOn : ι → σ → Prop} (hfair : r.Fair goesOn)
    (goal : σ → Prop) {m : σ → ℕ} {N : ℕ}
    (hle : ∀ n ≥ N, m (r.states (n + 1)) ≤ m (r.states n))
    (hlt : ∀ n ≥ N, goesOn (r.events n) (r.states n) → m (r.states (n + 1)) < m (r.states n))
    (hgoal : ∀ n ≥ N, ¬ goal (r.states n) →
      ∃ e, goesOn e (r.states n) ∧ (M.step e (r.states n)).isSome) :
    ∃ n, goal (r.states n) := by
  by_contra hnever
  have hnever : ∀ n, ¬ goal (r.states n) := fun n hn => hnever ⟨n, hn⟩
  have hdown : ∀ n k, n ≥ N → m (r.states (n + k)) ≤ m (r.states n) := fun n k hn => by
    induction k with
    | zero => exact Nat.le_refl _
    | succ k ih => exact Nat.le_trans (hle (n + k) (Nat.le_add_right_of_le hn)) ih
  -- the measure falls below every bound, so there is none
  have hfall : ∀ b n, n ≥ N → m (r.states n) ≤ b → False := by
    intro b
    induction b with
    | zero =>
      intro n hn hb
      obtain ⟨k, hk, hgoes⟩ := hfair n fun k hk => hgoal k (Nat.le_trans hn hk) (hnever k)
      have hlt := hlt k (Nat.le_trans hn hk) hgoes
      have hdown := hdown n (k - n) hn
      rw [Nat.add_sub_cancel' hk] at hdown
      omega
    | succ b ih =>
      intro n hn hb
      obtain ⟨k, hk, hgoes⟩ := hfair n fun k hk => hgoal k (Nat.le_trans hn hk) (hnever k)
      have hlt := hlt k (Nat.le_trans hn hk) hgoes
      have hdown := hdown n (k - n) hn
      rw [Nat.add_sub_cancel' hk] at hdown
      exact ih (k + 1) (Nat.le_trans hn (Nat.le_succ_of_le hk)) (by omega)
  exact hfall _ N (Nat.le_refl N) (Nat.le_refl _)

/-! ## Runs that end in a loop -/

/-- The states of a list of events, and after it the last one. -/
def statesOf (M : Machine σ ι) : List ι → σ → ℕ → σ
  | [], s, _ => s
  | _ :: _, s, 0 => s
  | e :: es, s, n + 1 =>
    match M.step e s with
    | some s' => statesOf M es s' n
    | none => s

/-- The events of a list, and after it the same one for ever. -/
def eventsOf (es : List ι) (last : ι) (n : ℕ) : ι := es.getD n last

theorem statesOf_length {es : List ι} {s s' : σ} (hrun : M.run es s = some s') {n : ℕ}
    (hn : es.length ≤ n) : statesOf M es s n = s' := by
  induction es generalizing s n with
  | nil => exact Option.some.inj hrun
  | cons e es ih =>
    obtain ⟨t, ht, hrun⟩ := Option.bind_eq_some_iff.mp hrun
    cases n with
    | zero => cases hn
    | succ n =>
      rw [statesOf, ht]
      exact ih hrun (Nat.le_of_succ_le_succ hn)

theorem step_statesOf {es : List ι} {s s' : σ} {last : ι} (hrun : M.run es s = some s')
    (hlast : M.step last s' = some s') (n : ℕ) :
    M.step (eventsOf es last n) (statesOf M es s n) = some (statesOf M es s (n + 1)) := by
  induction es generalizing s n with
  | nil =>
    obtain rfl := Option.some.inj hrun
    exact hlast
  | cons e es ih =>
    obtain ⟨t, ht, hrun⟩ := Option.bind_eq_some_iff.mp hrun
    cases n with
    | zero =>
      show M.step e s = some (statesOf M (e :: es) s 1)
      rw [statesOf, ht]
      cases es <;> rfl
    | succ n =>
      show M.step (eventsOf es last n) (statesOf M (e :: es) s (n + 1)) =
        some (statesOf M (e :: es) s (n + 1 + 1))
      rw [statesOf, statesOf, ht]
      exact ih hrun n

/-- A run whose last event changes nothing goes on for ever. -/
def loop {es : List ι} {s s' : σ} (last : ι) (hstart : M.start s) (hrun : M.run es s = some s')
    (hlast : M.step last s' = some s') : M.InfiniteRun where
  states := statesOf M es s
  events := eventsOf es last
  start := by
    cases es with
    | nil => exact hstart
    | cons e es => exact hstart
  step := step_statesOf hrun hlast

/-- It is fair when no thread can go on from where it ends. -/
theorem loop_fair {es : List ι} {s s' : σ} {last : ι} {goesOn : ι → σ → Prop} (hstart : M.start s)
    (hrun : M.run es s = some s') (hlast : M.step last s' = some s')
    (hquiet : ∀ e, goesOn e s' → M.step e s' = none) :
    (loop last hstart hrun hlast).Fair goesOn := by
  intro N hgoes
  obtain ⟨e, he, hsome⟩ := hgoes (N + es.length) (Nat.le_add_right _ _)
  have hend : (loop last hstart hrun hlast).states (N + es.length) = s' :=
    statesOf_length hrun (Nat.le_add_left _ _)
  rw [hend] at he hsome
  rw [hquiet e he] at hsome
  cases hsome

end InfiniteRun

end Machine
