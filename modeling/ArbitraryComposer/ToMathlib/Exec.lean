import Mathlib.Order.Defs.Unbundled

/-!
# Programs with State, Error Values and Failed Assertions

A shallow embedding of imperative code that reports recoverable failures as values and stops
at a violated assertion. An error value keeps the state reached when it was returned, so that
the unwinding a caller performs acts on the partially updated state; a fault has no state.

The weakest precondition `Exec.wp` is total: a program that reaches a fault satisfies it only
if the fault itself is allowed.

## Main definitions

- `Outcome`: how a run of a program ends.
- `Exec`: state-passing programs with error values and faults.
- `Exec.ensuring`: run a clean-up action on both the normal and the error exit.
- `Exec.onError`: run a clean-up action on the error exit only.
- `Exec.wp`: weakest precondition for the three kinds of exit.

## Main results

- `Exec.wp_bind`, `Exec.wp_pure`, `Exec.wp_ensuring`: the rules of the constructs.
- `Exec.wp_forEach`: the invariant rule of a loop over a list.
- `Exec.Returns` and its rules: programs that never return an error value.
- `Exec.Keeps` and its rules: a part of the state that every exit leaves as it was.
-/

/-- How a run ends: normally with a value, with an error value, or at a failed assertion. -/
inductive Outcome (σ ε φ α : Type) where
  /-- The program returned `a` in state `s`. -/
  | ok (a : α) (s : σ)
  /-- The program returned the error value `e` in state `s`. -/
  | error (e : ε) (s : σ)
  /-- An assertion failed; nothing after it runs. -/
  | fault (f : φ)

/-- The state a run that reached no fault ends in. -/
def Outcome.state? {σ ε φ α : Type} : Outcome σ ε φ α → Option σ
  | .ok _ s => some s
  | .error _ s => some s
  | .fault _ => none

/-- A program over the state `σ`, with error values in `ε` and assertion failures in `φ`. -/
def Exec (σ ε φ α : Type) : Type := σ → Outcome σ ε φ α

namespace Exec

variable {σ ε φ α β : Type}

/-- Run a program from a state. -/
def run (x : Exec σ ε φ α) (s : σ) : Outcome σ ε φ α := x s

/-- Return a value without touching the state. -/
protected def pure (a : α) : Exec σ ε φ α := fun s => .ok a s

/-- Sequencing: an error value or a fault of the first program ends the whole. -/
protected def bind (x : Exec σ ε φ α) (f : α → Exec σ ε φ β) : Exec σ ε φ β := fun s =>
  match x s with
  | .ok a s' => f a s'
  | .error e s' => .error e s'
  | .fault g => .fault g

instance : Monad (Exec σ ε φ) where
  pure := Exec.pure
  bind := Exec.bind

/-- Return an error value. -/
def throw (e : ε) : Exec σ ε φ α := fun s => .error e s

/-- Stop at a failed assertion. -/
def fault (g : φ) : Exec σ ε φ α := fun _ => .fault g

/-- Read a component of the state. -/
def gets (f : σ → α) : Exec σ ε φ α := fun s => .ok (f s) s

/-- Update the state. -/
def modify (f : σ → σ) : Exec σ ε φ Unit := fun s => .ok () (f s)

/-- Stop at `g` unless the condition holds. -/
def assert (p : Prop) [Decidable p] (g : φ) : Exec σ ε φ Unit :=
  if p then Exec.pure () else fault g

/-- The value of an optional read, or the fault `g`. -/
def expect (o : Option α) (g : φ) : Exec σ ε φ α :=
  match o with
  | some a => Exec.pure a
  | none => fault g

/-- The value of a check, or its error. -/
def orThrow (r : Except ε α) : Exec σ ε φ α :=
  match r with
  | .ok a => Exec.pure a
  | .error e => throw e

/-- Run `x`, then `fin` whether `x` returned a value or an error. -/
def ensuring (x : Exec σ ε φ α) (fin : Exec σ ε φ Unit) : Exec σ ε φ α := fun s =>
  match x s with
  | .ok a s' => Exec.bind fin (fun _ => Exec.pure a) s'
  | .error e s' => Exec.bind fin (fun _ => throw e) s'
  | .fault g => .fault g

/-- Run `x`, then `fin` if it returned an error. -/
def onError (x : Exec σ ε φ α) (fin : Exec σ ε φ Unit) : Exec σ ε φ α := fun s =>
  match x s with
  | .ok a s' => .ok a s'
  | .error e s' => Exec.bind fin (fun _ => throw e) s'
  | .fault g => .fault g

/-- Run `x` and go on after an error value as after a value. -/
def attempt (x : Exec σ ε φ α) : Exec σ ε φ Unit := fun s =>
  match x s with
  | .ok _ s' => .ok () s'
  | .error _ s' => .ok () s'
  | .fault g => .fault g

/-- Run `x` and return how it ended. -/
def result (x : Exec σ ε φ α) : Exec σ ε φ (Except ε α) := fun s =>
  match x s with
  | .ok a s' => .ok (.ok a) s'
  | .error e s' => .ok (.error e) s'
  | .fault g => .fault g

/-- Run a program on a part of the state, with its error values translated. -/
def zoom {τ δ : Type} (get : σ → τ) (set : τ → σ → σ) (err : δ → ε) (x : Exec τ δ φ α) :
    Exec σ ε φ α := fun s =>
  match x (get s) with
  | .ok a t => .ok a (set t s)
  | .error e t => .error (err e) (set t s)
  | .fault g => .fault g

/-- The program of a state function that may refuse with an error value. -/
def ofExcept (f : σ → Except ε α × σ) : Exec σ ε φ α := fun s =>
  match f s with
  | (.ok a, s') => .ok a s'
  | (.error e, s') => .error e s'

/-- The program of a state function that may fail an assertion. -/
def ofOption (f : σ → Option σ) (g : φ) : Exec σ ε φ Unit := fun s =>
  match f s with
  | some s' => .ok () s'
  | none => .fault g

/-- Weakest precondition: a run from `s` ends in `Q` when it returns a value, in `E` when it
returns an error value, and at a fault allowed by `F`. -/
def wp (x : Exec σ ε φ α) (Q : α → σ → Prop) (E : ε → σ → Prop) (F : φ → Prop) (s : σ) : Prop :=
  match x s with
  | .ok a s' => Q a s'
  | .error e s' => E e s'
  | .fault g => F g

variable {Q : α → σ → Prop} {E : ε → σ → Prop} {F : φ → Prop} {s : σ}

@[simp]
theorem wp_pure (a : α) : wp (pure a : Exec σ ε φ α) Q E F s ↔ Q a s := Iff.rfl

@[simp]
theorem wp_pure' (a : α) : wp (Exec.pure a : Exec σ ε φ α) Q E F s ↔ Q a s := Iff.rfl

@[simp]
theorem wp_bind (x : Exec σ ε φ β) (f : β → Exec σ ε φ α) :
    wp (x >>= f) Q E F s ↔ wp x (fun b s' => wp (f b) Q E F s') E F s := by
  change wp (Exec.bind x f) Q E F s ↔ _
  unfold wp Exec.bind
  cases x s <;> rfl

@[simp]
theorem wp_fault (g : φ) : wp (fault g : Exec σ ε φ α) Q E F s ↔ F g := Iff.rfl

@[simp]
theorem wp_gets (f : σ → α) : wp (gets f : Exec σ ε φ α) Q E F s ↔ Q (f s) s := Iff.rfl

@[simp]
theorem wp_modify (f : σ → σ) {Q : Unit → σ → Prop} :
    wp (modify f : Exec σ ε φ Unit) Q E F s ↔ Q () (f s) := Iff.rfl

theorem wp_assert (p : Prop) [Decidable p] (g : φ) {Q : Unit → σ → Prop} :
    wp (assert p g : Exec σ ε φ Unit) Q E F s ↔ (p ∧ Q () s) ∨ (¬ p ∧ F g) := by
  unfold assert
  split <;> simp [*]

theorem wp_expect_some {o : Option α} {a : α} (g : φ) (h : o = some a) :
    wp (expect o g : Exec σ ε φ α) Q E F s ↔ Q a s := by
  subst h
  rfl

theorem wp_orThrow {r : Except ε α} (hok : ∀ a, r = .ok a → Q a s)
    (herror : ∀ e, r = .error e → E e s) : wp (orThrow r : Exec σ ε φ α) Q E F s := by
  cases r with
  | ok a => exact hok a rfl
  | error e => exact herror e rfl

@[simp]
theorem wp_ensuring (x : Exec σ ε φ α) (fin : Exec σ ε φ Unit) :
    wp (ensuring x fin) Q E F s ↔
      wp x (fun a s' => wp fin (fun _ s'' => Q a s'') E F s')
        (fun e s' => wp fin (fun _ s'' => E e s'') E F s') F s := by
  unfold wp ensuring
  cases x s with
  | ok a s' =>
    change wp (Exec.bind fin fun _ => Exec.pure a) Q E F s' ↔ _
    exact wp_bind fin (fun _ => (pure a : Exec σ ε φ α))
  | error e s' =>
    change wp (Exec.bind fin fun _ => throw e) Q E F s' ↔ _
    exact wp_bind fin (fun _ => (throw e : Exec σ ε φ α))
  | fault g => rfl

@[simp]
theorem wp_onError (x : Exec σ ε φ α) (fin : Exec σ ε φ Unit) :
    wp (onError x fin) Q E F s ↔
      wp x Q (fun e s' => wp fin (fun _ s'' => E e s'') E F s') F s := by
  unfold wp onError
  cases x s with
  | ok a s' => rfl
  | error e s' =>
    change wp (Exec.bind fin fun _ => throw e) Q E F s' ↔ _
    exact wp_bind fin (fun _ => (throw e : Exec σ ε φ α))
  | fault g => rfl

@[simp]
theorem wp_attempt (x : Exec σ ε φ α) {Q : Unit → σ → Prop} :
    wp (attempt x) Q E F s ↔ wp x (fun _ s' => Q () s') (fun _ s' => Q () s') F s := by
  unfold wp attempt
  cases x s <;> rfl

@[simp]
theorem wp_zoom {τ δ : Type} (get : σ → τ) (set : τ → σ → σ) (err : δ → ε) (x : Exec τ δ φ α) :
    wp (zoom get set err x) Q E F s ↔
      wp x (fun a t => Q a (set t s)) (fun e t => E (err e) (set t s)) F (get s) := by
  unfold wp zoom
  cases x (get s) <;> rfl

theorem wp_ofOption (f : σ → Option σ) (g : φ) {Q : Unit → σ → Prop} :
    wp (ofOption f g : Exec σ ε φ Unit) Q E F s ↔
      (∀ s', f s = some s' → Q () s') ∧ (f s = none → F g) := by
  unfold wp ofOption
  cases h : f s <;> simp

theorem wp_ofExcept (f : σ → Except ε α × σ) :
    wp (ofExcept f : Exec σ ε φ α) Q E F s ↔
      (∀ a s', f s = (.ok a, s') → Q a s') ∧ (∀ e s', f s = (.error e, s') → E e s') := by
  unfold wp ofExcept
  rcases h : f s with ⟨r | r, s'⟩ <;> simp

/-- A conditional program. -/
theorem wp_ite {p : Prop} [Decidable p] {x y : Exec σ ε φ α} (hx : p → wp x Q E F s)
    (hy : ¬ p → wp y Q E F s) : wp (if p then x else y) Q E F s := by
  split
  · exact hx ‹_›
  · exact hy ‹_›

/-- The rule of consequence. -/
theorem wp_mono {x : Exec σ ε φ α} {P : α → σ → Prop} {D : ε → σ → Prop} {G : φ → Prop}
    (h : wp x P D G s) (hQ : ∀ a s', P a s' → Q a s') (hE : ∀ e s', D e s' → E e s')
    (hF : ∀ g, G g → F g) : wp x Q E F s := by
  unfold wp at *
  cases hx : x s with
  | ok a s' => exact hQ a s' (by simpa [hx] using h)
  | error e s' => exact hE e s' (by simpa [hx] using h)
  | fault g => exact hF g (by simpa [hx] using h)

/-- Consequence with the same set of allowed faults. -/
theorem wp_imp {x : Exec σ ε φ α} {P : α → σ → Prop} {D : ε → σ → Prop}
    (h : wp x P D F s) (hQ : ∀ a s', P a s' → Q a s') (hE : ∀ e s', D e s' → E e s') :
    wp x Q E F s :=
  wp_mono h hQ hE fun _ hg => hg

/-- A run that is known. -/
theorem wp_of_run {x : Exec σ ε φ α} {a : α} {s' : σ} (h : x s = .ok a s') (hQ : Q a s') :
    wp x Q E F s := by
  unfold wp
  rw [h]
  exact hQ

/-- A program whose exits all satisfy the postcondition. -/
theorem wp_of_forall {x : Exec σ ε φ α} (hQ : ∀ a s', Q a s') (hE : ∀ e s', E e s') :
    wp x Q E (fun _ => True) s := by
  unfold wp
  cases x s with
  | ok a s' => exact hQ a s'
  | error e s' => exact hE e s'
  | fault g => trivial

/-- What a run that returned a value satisfies. -/
theorem of_wp_ok {x : Exec σ ε φ α} {a : α} {s' : σ} (h : wp x Q E F s)
    (hx : x.run s = .ok a s') : Q a s' := by
  unfold wp at h
  rw [show x s = .ok a s' from hx] at h
  exact h

/-- What a run that returned an error value satisfies. -/
theorem of_wp_error {x : Exec σ ε φ α} {e : ε} {s' : σ} (h : wp x Q E F s)
    (hx : x.run s = .error e s') : E e s' := by
  unfold wp at h
  rw [show x s = .error e s' from hx] at h
  exact h

/-- What the state a run ends in satisfies, whichever way it ended. -/
theorem of_wp_state {P : σ → Prop} {x : Exec σ ε φ α} {s' : σ}
    (h : wp x (fun _ s' => P s') (fun _ s' => P s') F s) (hx : (x.run s).state? = some s') :
    P s' := by
  unfold wp at h
  unfold run at hx
  cases hr : x s with
  | ok a t =>
    rw [hr] at h hx
    cases hx
    exact h
  | error e t =>
    rw [hr] at h hx
    cases hx
    exact h
  | fault g =>
    rw [hr] at hx
    cases hx

/-- Run `body` on every element of a list in order. -/
def forEach {ι : Type} : List ι → (ι → Exec σ ε φ Unit) → Exec σ ε φ Unit
  | [], _ => pure ()
  | i :: is, body => do
    body i
    forEach is body

/-- The invariant rule of a loop over a list: `I` is indexed by what is still to be visited. -/
theorem wp_forEach {ι : Type} {I : List ι → σ → Prop} {body : ι → Exec σ ε φ Unit}
    {is : List ι} (hI : I is s)
    (hstep : ∀ i rest s', I (i :: rest) s' → wp (body i) (fun _ s'' => I rest s'') E F s') :
    wp (forEach is body) (fun _ s' => I [] s') E F s := by
  induction is generalizing s with
  | nil => exact hI
  | cons i rest ih =>
    simp only [forEach, wp_bind]
    exact wp_imp (hstep i rest s hI) (fun _ s' h => ih h) fun _ _ h => h

/-! ## Relations along a program -/

/-- Every exit of a program is related to the state that it started in. -/
def Evolves (R : σ → σ → Prop) (x : Exec σ ε φ α) : Prop :=
  ∀ s s', (x.run s).state? = some s' → R s s'

section Evolves

variable {R : σ → σ → Prop}

theorem evolves_fault (g : φ) : Evolves R (fault g : Exec σ ε φ α) := by
  rintro s s' ⟨⟩

theorem evolves_modify {g : σ → σ} (h : ∀ s, R s (g s)) :
    Evolves R (modify g : Exec σ ε φ Unit) := by
  rintro s s' ⟨⟩
  exact h s

theorem evolves_ite {p : Prop} [Decidable p] {x y : Exec σ ε φ α} (hx : Evolves R x)
    (hy : Evolves R y) : Evolves R (if p then x else y) := by
  split
  · exact hx
  · exact hy

/-- What a program does to a part of the state. -/
theorem evolves_zoom {ρ δ : Type} {get : σ → ρ} {set : ρ → σ → σ} {err : δ → ε}
    {T : ρ → ρ → Prop} {x : Exec ρ δ φ α} (hx : Evolves T x)
    (h : ∀ s t, T (get s) t → R s (set t s)) : Evolves R (zoom get set err x) := by
  intro s s' hs
  change ((zoom get set err x) s).state? = some s' at hs
  unfold zoom at hs
  cases hr : x (get s) with
  | ok a t =>
    rw [hr] at hs
    cases hs
    exact h s t (hx _ t (by rw [run, hr]; rfl))
  | error e t =>
    rw [hr] at hs
    cases hs
    exact h s t (hx _ t (by rw [run, hr]; rfl))
  | fault g =>
    rw [hr] at hs
    cases hs

/-- How a program evolves, as a specification. -/
theorem Evolves.wp {x : Exec σ ε φ α} (hx : Evolves R x) (s : σ) :
    wp x (fun _ s' => R s s') (fun _ s' => R s s') (fun _ => True) s := by
  unfold Exec.wp
  cases hr : x s with
  | ok a t => exact hx s t (by rw [run, hr]; rfl)
  | error e t => exact hx s t (by rw [run, hr]; rfl)
  | fault g => trivial

/-- A specification of every run, as a relation. -/
theorem evolves_of_wp {x : Exec σ ε φ α}
    (h : ∀ s, Exec.wp x (fun _ s' => R s s') (fun _ s' => R s s') (fun _ => True) s) :
    Evolves R x :=
  fun s _ hs => of_wp_state (h s) hs

variable [IsPreorder σ R]

theorem evolves_pure (a : α) : Evolves R (pure a : Exec σ ε φ α) := by
  rintro s s' ⟨⟩
  exact refl_of R s

theorem evolves_gets (g : σ → α) : Evolves R (gets g : Exec σ ε φ α) := by
  rintro s s' ⟨⟩
  exact refl_of R s

theorem evolves_throw (e : ε) : Evolves R (throw e : Exec σ ε φ α) := by
  rintro s s' ⟨⟩
  exact refl_of R s

theorem evolves_assert (p : Prop) [Decidable p] (g : φ) :
    Evolves R (assert p g : Exec σ ε φ Unit) := by
  unfold assert
  split
  · exact evolves_pure ()
  · exact evolves_fault g

theorem evolves_expect (o : Option α) (g : φ) : Evolves R (expect o g : Exec σ ε φ α) := by
  cases o with
  | none => exact evolves_fault g
  | some a => exact evolves_pure a

theorem evolves_orThrow (r : Except ε α) : Evolves R (orThrow r : Exec σ ε φ α) := by
  cases r with
  | ok a => exact evolves_pure a
  | error e => exact evolves_throw e

theorem evolves_bind {x : Exec σ ε φ α} {g : α → Exec σ ε φ β} (hx : Evolves R x)
    (hg : ∀ a, Evolves R (g a)) : Evolves R (x >>= g) := by
  intro s s' h
  change ((Exec.bind x g) s).state? = some s' at h
  unfold Exec.bind at h
  cases hr : x s with
  | ok a t =>
    rw [hr] at h
    exact trans_of R (hx s t (by rw [run, hr]; rfl)) (hg a t s' h)
  | error e t =>
    rw [hr] at h
    cases h
    exact hx s _ (by rw [run, hr]; rfl)
  | fault g =>
    rw [hr] at h
    cases h

theorem evolves_onError {x : Exec σ ε φ α} {fin : Exec σ ε φ Unit} (hx : Evolves R x)
    (hfin : Evolves R fin) : Evolves R (onError x fin) := by
  intro s s' h
  change ((onError x fin) s).state? = some s' at h
  unfold onError at h
  cases hr : x s with
  | ok a t =>
    rw [hr] at h
    cases h
    exact hx s _ (by rw [run, hr]; rfl)
  | error e t =>
    rw [hr] at h
    exact trans_of R (hx s t (by rw [run, hr]; rfl))
      (evolves_bind hfin (fun _ => evolves_throw e) t s' h)
  | fault g =>
    rw [hr] at h
    cases h

theorem evolves_ensuring {x : Exec σ ε φ α} {fin : Exec σ ε φ Unit} (hx : Evolves R x)
    (hfin : Evolves R fin) : Evolves R (ensuring x fin) := by
  intro s s' h
  change ((ensuring x fin) s).state? = some s' at h
  unfold ensuring at h
  cases hr : x s with
  | ok a t =>
    rw [hr] at h
    exact trans_of R (hx s t (by rw [run, hr]; rfl))
      (evolves_bind hfin (fun _ => evolves_pure a) t s' h)
  | error e t =>
    rw [hr] at h
    exact trans_of R (hx s t (by rw [run, hr]; rfl))
      (evolves_bind hfin (fun _ => evolves_throw e) t s' h)
  | fault g =>
    rw [hr] at h
    cases h

omit [IsPreorder σ R] in
theorem evolves_result {x : Exec σ ε φ α} (hx : Evolves R x) : Evolves R (result x) := by
  intro s s' h
  refine hx s s' ?_
  change ((result x) s).state? = some s' at h
  unfold result at h
  unfold run
  cases hr : x s with
  | ok a t => rwa [hr] at h
  | error e t => rwa [hr] at h
  | fault g => rwa [hr] at h

theorem evolves_forEach {ι : Type} {body : ι → Exec σ ε φ Unit} (h : ∀ i, Evolves R (body i))
    (l : List ι) : Evolves R (forEach l body) := by
  induction l with
  | nil => exact evolves_pure ()
  | cons i rest ih => exact evolves_bind (h i) fun _ => ih

end Evolves

/-! ## Programs that never return an error value -/

/-- No run of the program ends with an error value. -/
def Returns (x : Exec σ ε φ α) : Prop := ∀ s e s', x.run s ≠ .error e s'

section Returns

theorem returns_pure (a : α) : Returns (pure a : Exec σ ε φ α) := nofun

theorem returns_gets (g : σ → α) : Returns (gets g : Exec σ ε φ α) := nofun

theorem returns_modify (g : σ → σ) : Returns (modify g : Exec σ ε φ Unit) := nofun

theorem returns_fault (g : φ) : Returns (fault g : Exec σ ε φ α) := nofun

theorem returns_assert (p : Prop) [Decidable p] (g : φ) :
    Returns (assert p g : Exec σ ε φ Unit) := by
  unfold assert
  split
  · exact returns_pure ()
  · exact returns_fault g

theorem returns_bind {x : Exec σ ε φ α} {g : α → Exec σ ε φ β} (hx : Returns x)
    (hg : ∀ a, Returns (g a)) : Returns (x >>= g) := by
  intro s e s' h
  change (Exec.bind x g) s = .error e s' at h
  unfold Exec.bind at h
  cases hr : x s with
  | ok a t =>
    rw [hr] at h
    exact hg a t e s' h
  | error e' t => exact hx s e' t hr
  | fault g =>
    rw [hr] at h
    cases h

theorem returns_ite {p : Prop} [Decidable p] {x y : Exec σ ε φ α} (hx : Returns x)
    (hy : Returns y) : Returns (if p then x else y) := by
  split
  · exact hx
  · exact hy

theorem returns_attempt (x : Exec σ ε φ α) : Returns (attempt x) := by
  intro s e s' h
  change attempt x s = .error e s' at h
  unfold attempt at h
  cases hr : x s <;> rw [hr] at h <;> cases h

theorem returns_result (x : Exec σ ε φ α) : Returns (result x) := by
  intro s e s' h
  change result x s = .error e s' at h
  unfold result at h
  cases hr : x s <;> rw [hr] at h <;> cases h

theorem returns_zoom {ρ δ : Type} {get : σ → ρ} {set : ρ → σ → σ} {err : δ → ε}
    {x : Exec ρ δ φ α} (hx : Returns x) : Returns (zoom get set err x) := by
  intro s e s' h
  change zoom get set err x s = .error e s' at h
  unfold zoom at h
  cases hr : x (get s) with
  | ok a t =>
    rw [hr] at h
    cases h
  | error e' t => exact hx _ e' t hr
  | fault g =>
    rw [hr] at h
    cases h

theorem returns_forEach {ι : Type} {body : ι → Exec σ ε φ Unit} (h : ∀ i, Returns (body i))
    (l : List ι) : Returns (forEach l body) := by
  induction l with
  | nil => exact returns_pure ()
  | cons i rest ih => exact returns_bind (h i) fun _ => ih

/-- The error exit of a program that never returns an error value is of no account. -/
theorem Returns.wp {x : Exec σ ε φ α} (hx : Returns x) {D : ε → σ → Prop}
    (h : wp x Q D F s) : wp x Q E F s := by
  unfold Exec.wp at h ⊢
  cases hr : x s with
  | ok a t =>
    rw [hr] at h
    exact h
  | error e t => exact absurd hr (hx s e t)
  | fault g =>
    rw [hr] at h
    exact h

end Returns

/-! ## Parts of the state that stay -/

/-- Every exit of a program leaves a part of the state as it was. -/
def Keeps {τ : Type} (f : σ → τ) (x : Exec σ ε φ α) : Prop :=
  ∀ s s', (x.run s).state? = some s' → f s' = f s

section Keeps

variable {τ : Type} {f : σ → τ}

/-- The states that agree in a part. -/
private theorem isPreorder_agree (f : σ → τ) : IsPreorder σ fun s s' => f s' = f s where
  refl _ := rfl
  trans _ _ _ h h' := h'.trans h

theorem keeps_pure (a : α) : Keeps f (pure a : Exec σ ε φ α) :=
  have := isPreorder_agree f
  evolves_pure a

theorem keeps_gets (g : σ → α) : Keeps f (gets g : Exec σ ε φ α) :=
  have := isPreorder_agree f
  evolves_gets g

theorem keeps_throw (e : ε) : Keeps f (throw e : Exec σ ε φ α) :=
  have := isPreorder_agree f
  evolves_throw e

theorem keeps_modify {g : σ → σ} (h : ∀ s, f (g s) = f s) :
    Keeps f (modify g : Exec σ ε φ Unit) := evolves_modify h

theorem keeps_assert (p : Prop) [Decidable p] (g : φ) :
    Keeps f (assert p g : Exec σ ε φ Unit) :=
  have := isPreorder_agree f
  evolves_assert p g

theorem keeps_expect (o : Option α) (g : φ) : Keeps f (expect o g : Exec σ ε φ α) :=
  have := isPreorder_agree f
  evolves_expect o g

theorem keeps_bind {x : Exec σ ε φ α} {g : α → Exec σ ε φ β} (hx : Keeps f x)
    (hg : ∀ a, Keeps f (g a)) : Keeps f (x >>= g) :=
  have := isPreorder_agree f
  evolves_bind hx hg

theorem keeps_ite {p : Prop} [Decidable p] {x y : Exec σ ε φ α} (hx : Keeps f x)
    (hy : Keeps f y) : Keeps f (if p then x else y) := evolves_ite hx hy

theorem keeps_onError {x : Exec σ ε φ α} {fin : Exec σ ε φ Unit} (hx : Keeps f x)
    (hfin : Keeps f fin) : Keeps f (onError x fin) :=
  have := isPreorder_agree f
  evolves_onError hx hfin

theorem keeps_zoom {ρ δ : Type} {get : σ → ρ} {set : ρ → σ → σ} {err : δ → ε}
    (x : Exec ρ δ φ α) (h : ∀ t s, f (set t s) = f s) : Keeps f (zoom get set err x) :=
  evolves_zoom (T := fun _ _ => True) (fun _ _ _ => trivial) fun s t _ => h t s

theorem keeps_ensuring {x : Exec σ ε φ α} {fin : Exec σ ε φ Unit} (hx : Keeps f x)
    (hfin : Keeps f fin) : Keeps f (ensuring x fin) :=
  have := isPreorder_agree f
  evolves_ensuring hx hfin

/-- What a program keeps, as a specification. -/
theorem Keeps.wp {x : Exec σ ε φ α} (hx : Keeps f x) (s : σ) :
    wp x (fun _ s' => f s' = f s) (fun _ s' => f s' = f s) (fun _ => True) s := Evolves.wp hx s

/-- What a program keeps may be added to what is known of its exits with a value. -/
theorem wp_keeps {x : Exec σ ε φ α} (hx : Keeps f x) (h : wp x Q E F s) :
    wp x (fun a s' => Q a s' ∧ f s' = f s) E F s := by
  unfold wp at h ⊢
  cases hr : x s with
  | ok a t =>
    rw [hr] at h
    exact ⟨h, hx s t (by rw [run, hr]; rfl)⟩
  | error e t =>
    rw [hr] at h
    exact h
  | fault g =>
    rw [hr] at h
    exact h

end Keeps

end Exec
