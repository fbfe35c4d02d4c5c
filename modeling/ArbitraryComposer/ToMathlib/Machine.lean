import Mathlib.Data.Nat.Notation
import Mathlib.Data.Option.Basic

/-!
# Deterministic Machines Driven by Events

A machine has start states and a partial step function; `none` is a step that cannot be taken
or that stops the program. Its reachable states are those of runs whose every step is allowed
by a side condition on the event and the state before it.

## Main definitions

- `Machine`: start states and the step function.
- `Machine.Reachable`: the states of runs whose steps are all allowed.
- `Machine.run`: execute a list of events.
- `Machine.observe`: the machine with a record of its run.

## Main results

- `Machine.Reachable.invariant`: the rule of invariants.
- `Machine.length_run_le`: a measure that every step lessens bounds the length of runs.
- `Machine.reachable_of_run`, `Machine.exists_reachable`: executing allowed events reaches.
-/

/-- Start states and a partial step function. -/
structure Machine (σ ι : Type) where
  /-- The states a run may start in. -/
  start : σ → Prop
  /-- The effect of an event; `none` when the event cannot happen or stops the program. -/
  step : ι → σ → Option σ

namespace Machine

variable {σ ι : Type} {M : Machine σ ι} {allowed allowed' : ι → σ → Prop} {s s' : σ}

/-- The states of runs in which every event is allowed in the state it happens in. -/
inductive Reachable (M : Machine σ ι) (allowed : ι → σ → Prop) : σ → Prop where
  | start {s : σ} (h : M.start s) : Reachable M allowed s
  | step {s s' : σ} (e : ι) (h : Reachable M allowed s) (ha : allowed e s)
      (hs : M.step e s = some s') : Reachable M allowed s'

/-- Every event is allowed. -/
def anyEvent (_ : ι) (_ : σ) : Prop := True

instance (e : ι) (s : σ) : Decidable (anyEvent e s) := .isTrue trivial

/-- What holds at the start and is kept by every allowed step holds in every reachable
state. -/
theorem Reachable.invariant {I : σ → Prop} (h : M.Reachable allowed s)
    (hstart : ∀ s, M.start s → I s)
    (hstep : ∀ s e s', I s → allowed e s → M.step e s = some s' → I s') : I s := by
  induction h with
  | start h => exact hstart _ h
  | step e _ ha hs ih => exact hstep _ e _ ih ha hs

/-- Fewer allowed events reach fewer states. -/
theorem Reachable.mono (h : M.Reachable allowed s) (himp : ∀ e s, allowed e s → allowed' e s) :
    M.Reachable allowed' s := by
  induction h with
  | start h => exact .start h
  | step e _ ha hs ih => exact .step e ih (himp _ _ ha) hs

/-- Execute a list of events. -/
def run (M : Machine σ ι) : List ι → σ → Option σ
  | [], s => some s
  | e :: es, s => (M.step e s).bind (M.run es)

/-- Every event of a list is allowed where it happens. -/
def RunAllowed (M : Machine σ ι) (allowed : ι → σ → Prop) : List ι → σ → Prop
  | [], _ => True
  | e :: es, s => allowed e s ∧ ∀ s', M.step e s = some s' → RunAllowed M allowed es s'

/-- Where every step keeps an invariant and lessens a measure, a run is no longer than the measure
of its start. -/
theorem length_run_le {I : σ → Prop} {m : σ → ℕ} {es : List ι}
    (hstep : ∀ e s s', I s → M.step e s = some s' → I s' ∧ m s' < m s) (hs : I s)
    (hrun : M.run es s = some s') : es.length + m s' ≤ m s := by
  induction es generalizing s with
  | nil =>
    cases hrun
    exact Nat.le_of_eq (Nat.zero_add _)
  | cons e es ih =>
    obtain ⟨t, ht, hrun⟩ := Option.bind_eq_some_iff.mp hrun
    obtain ⟨hI, hlt⟩ := hstep e s t hs ht
    have hle := ih hI hrun
    rw [List.length_cons]
    omega

/-- With no side condition every list of events is allowed. -/
theorem runAllowed_anyEvent (es : List ι) (s : σ) : M.RunAllowed anyEvent es s := by
  induction es generalizing s with
  | nil => trivial
  | cons e es ih => exact ⟨trivial, fun s' _ => ih s'⟩

/-- Executing allowed events from a reachable state reaches. -/
theorem reachable_of_run {es : List ι} (h : M.Reachable allowed s)
    (ha : M.RunAllowed allowed es s) (hrun : M.run es s = some s') :
    M.Reachable allowed s' := by
  induction es generalizing s with
  | nil =>
    cases hrun
    exact h
  | cons e es ih =>
    obtain ⟨t, ht, hrun⟩ := Option.bind_eq_some_iff.mp hrun
    exact ih (h.step e ha.1 ht) (ha.2 t ht) hrun

/-- Whether a list of events is allowed is decided by executing it. -/
instance decidableRunAllowed [∀ e s, Decidable (allowed e s)] :
    ∀ (es : List ι) (s : σ), Decidable (M.RunAllowed allowed es s)
  | [], _ => .isTrue trivial
  | e :: es, s =>
    match hs : M.step e s with
    | none => decidable_of_iff (allowed e s) (by simp [RunAllowed, hs])
    | some s' =>
      have := decidableRunAllowed es s'
      decidable_of_iff (allowed e s ∧ M.RunAllowed allowed es s') (by simp [RunAllowed, hs])

/-- A state with a property is reachable when executing allowed events leads to one. -/
theorem exists_reachable (allowed : ι → σ → Prop) (es : List ι) (p : σ → Bool)
    (hstart : M.start s) (ha : M.RunAllowed allowed es s) (hp : (M.run es s).any p = true) :
    ∃ s', M.Reachable allowed s' ∧ p s' = true := by
  obtain ⟨s', hrun, hp⟩ := (Option.any_eq_true _ _).mp hp
  exact ⟨s', reachable_of_run (.start hstart) ha hrun, hp⟩

/-! ## Observers -/

/-- The machine that also keeps a record of its run, which its steps do not read. -/
def observe {κ : Type} (M : Machine σ ι) (init : σ → κ) (update : ι → σ → σ → κ → κ) :
    Machine (σ × κ) ι where
  start p := M.start p.1 ∧ p.2 = init p.1
  step e p := (M.step e p.1).map fun s => (s, update e p.1 s p.2)

variable {κ : Type} {init : σ → κ} {update : ι → σ → σ → κ → κ}

theorem observe_step_eq_some {e : ι} {p p' : σ × κ} :
    (M.observe init update).step e p = some p' ↔
      M.step e p.1 = some p'.1 ∧ p'.2 = update e p.1 p'.1 p.2 := by
  simp only [observe, Option.map_eq_some_iff]
  constructor
  · rintro ⟨s, hs, rfl⟩
    exact ⟨hs, rfl⟩
  · rintro ⟨hs, h⟩
    exact ⟨p'.1, hs, Prod.ext rfl h.symm⟩

/-- An observed run is a run. -/
theorem Reachable.of_observe {p : σ × κ}
    (h : (M.observe init update).Reachable (fun e p => allowed e p.1) p) :
    M.Reachable allowed p.1 := by
  induction h with
  | start h => exact .start h.1
  | step e _ ha hs ih => exact ih.step e ha (observe_step_eq_some.mp hs).1

end Machine
