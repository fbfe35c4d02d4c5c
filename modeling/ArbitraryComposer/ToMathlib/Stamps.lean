import Mathlib.Order.Nat
import Mathlib.Data.List.Basic

/-!
# Stamped Versions

Versions of a keyed collection of records, each record with a stamp. The stamp is a sound cache
key when no stamp of a key belongs to two records.

## Main definitions

- `Occurs`: some version has the record under the key.
- `StampSound`: equal stamps of a key mean equal records.

## Main results

- `StampSound.cons`: a version that keeps records or mints them with a fresh stamp.
-/

variable {κ ρ : Type} {stamp : ρ → ℕ} {vs : List (κ → Option ρ)} {v : κ → Option ρ} {n : ℕ}

/-- Some version has the record under the key. -/
def Occurs (vs : List (κ → Option ρ)) (k : κ) (r : ρ) : Prop := ∃ v ∈ vs, v k = some r

/-- Equal stamps of a key mean equal records. -/
def StampSound (stamp : ρ → ℕ) (vs : List (κ → Option ρ)) : Prop :=
  ∀ k r r', Occurs vs k r → Occurs vs k r' → stamp r = stamp r' → r = r'

theorem occurs_cons {k : κ} {r : ρ} : Occurs (v :: vs) k r ↔ v k = some r ∨ Occurs vs k r := by
  simp [Occurs]

theorem Occurs.cons {k : κ} {r : ρ} (h : Occurs vs k r) : Occurs (v :: vs) k r :=
  occurs_cons.mpr (Or.inr h)

theorem not_occurs_nil {k : κ} {r : ρ} : ¬ Occurs [] k r := by
  simp [Occurs]

theorem stampSound_nil : StampSound stamp ([] : List (κ → Option ρ)) :=
  fun _ _ _ h => absurd h not_occurs_nil

/-- A version whose records occur already, or have a stamp above all that do. -/
theorem StampSound.cons (h : StampSound stamp vs)
    (hv : ∀ k r, v k = some r → Occurs vs k r ∨ stamp r = n)
    (hn : ∀ k r, Occurs vs k r → stamp r < n) : StampSound stamp (v :: vs) := by
  have hcases : ∀ k r, Occurs (v :: vs) k r → Occurs vs k r ∨ v k = some r ∧ stamp r = n := by
    intro k r hr
    rcases occurs_cons.mp hr with hr | hr
    · exact (hv k r hr).imp_right fun hs => ⟨hr, hs⟩
    · exact Or.inl hr
  intro k r r' hr hr' hs
  rcases hcases k r hr with hr | ⟨hr, hrn⟩ <;> rcases hcases k r' hr' with hr' | ⟨hr', hrn'⟩
  · exact h k r r' hr hr' hs
  · -- a fresh stamp is not the stamp of an old record
    have := hn k r hr
    omega
  · have := hn k r' hr'
    omega
  · exact Option.some.inj (hr.symm.trans hr')

/-- A version made of records that occur already. -/
theorem StampSound.cons_old (h : StampSound stamp vs)
    (hv : ∀ k r, v k = some r → Occurs vs k r) : StampSound stamp (v :: vs) := by
  have hcases : ∀ k r, Occurs (v :: vs) k r → Occurs vs k r := fun k r hr =>
    (occurs_cons.mp hr).elim (hv k r) id
  exact fun k r r' hr hr' => h k r r' (hcases k r hr) (hcases k r' hr')
