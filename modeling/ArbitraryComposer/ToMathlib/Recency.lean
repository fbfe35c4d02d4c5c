import Mathlib.Data.List.Basic

/-!
# Recency

A list of uses, newest first. Who is stamped with the number of uses so far at every use is ordered
by these stamps as by its last use.

## Main definitions

- `List.Stamp`: a stamp that is the number of uses up to the last one of an element.

## Main results

- `List.Stamp.self`, `List.Stamp.cons`: what a use does to the stamps.
- `List.Stamp.lt_of_le`: an older stamp is that of an older use.
-/

namespace List

variable {α : Type*} [BEq α] [LawfulBEq α] {uses : List α} {a b : α} {r r' : ℕ}

/-- The stamp counts the uses up to the last one of an element. -/
structure Stamp (uses : List α) (a : α) (r : ℕ) : Prop where
  /-- The element was used. -/
  mem : a ∈ uses
  /-- The later uses and the stamp are all uses. -/
  add_idxOf : r + uses.idxOf a = uses.length

/-- The newest use has the newest stamp. -/
theorem Stamp.self (uses : List α) (a : α) : Stamp (a :: uses) a (uses.length + 1) where
  mem := mem_cons_self
  add_idxOf := by rw [idxOf_cons_self, length_cons, Nat.add_zero]

/-- A use of another element leaves a stamp as it is. -/
theorem Stamp.cons (h : Stamp uses a r) (hne : a ≠ b) : Stamp (b :: uses) a r where
  mem := mem_cons_of_mem b h.mem
  add_idxOf := by
    have hadd := h.add_idxOf
    rw [idxOf_cons_ne _ hne.symm, length_cons]
    omega

/-- An older stamp is that of an older use. -/
theorem Stamp.lt_of_le (h : Stamp uses a r) (h' : Stamp uses b r') (hne : a ≠ b) (hle : r ≤ r') :
    uses.idxOf b < uses.idxOf a := by
  have hadd := h.add_idxOf
  have hadd' := h'.add_idxOf
  have hplace : uses.idxOf a ≠ uses.idxOf b := fun heq => hne ((idxOf_inj h.mem).mp heq)
  omega

end List
