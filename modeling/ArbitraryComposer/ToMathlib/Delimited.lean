import Mathlib.Data.List.Basic

/-!
# Delimited fields

A list is cut at the first delimiter. What was put together from fields and delimiters comes apart
into the same fields when these hold no delimiter, and only then.

## Main definitions

- `List.cutAt`: what comes before the first delimiter, and what comes after it.

## Main results

- `List.cutAt_append`: a field without delimiters is cut off.
- `List.cutAt_eq_some`: what is cut off is a field without delimiters.
-/

namespace List

variable {α : Type*} [DecidableEq α] {d : α} {l field rest : List α}

/-- What comes before the first delimiter, and what comes after it. -/
def cutAt (d : α) : List α → Option (List α × List α)
  | [] => none
  | a :: l => if a = d then some ([], l) else (cutAt d l).map fun p => (a :: p.1, p.2)

/-- A field without delimiters is cut off. -/
theorem cutAt_append (h : d ∉ field) (rest : List α) :
    cutAt d (field ++ d :: rest) = some (field, rest) := by
  induction field with
  | nil =>
    rw [nil_append, cutAt]
    exact if_pos rfl
  | cons a field ih =>
    have hne : a ≠ d := fun heq => h (heq ▸ mem_cons_self)
    have hrest : d ∉ field := fun hmem => h (mem_cons_of_mem a hmem)
    rw [cons_append, cutAt, if_neg hne, ih hrest]
    rfl

/-- What is cut off is a field without delimiters. -/
theorem cutAt_eq_some (h : cutAt d l = some (field, rest)) :
    l = field ++ d :: rest ∧ d ∉ field := by
  induction l generalizing field with
  | nil => cases h
  | cons a l ih =>
    rw [cutAt] at h
    split at h
    case isTrue heq =>
      obtain ⟨rfl, rfl⟩ := Prod.mk.inj (Option.some.inj h)
      exact ⟨by rw [nil_append, heq], not_mem_nil⟩
    case isFalse hne =>
      obtain ⟨⟨field', rest'⟩, hcut, heq⟩ := Option.map_eq_some_iff.mp h
      obtain ⟨rfl, rfl⟩ := Prod.mk.inj heq
      obtain ⟨hl, hmem⟩ := ih hcut
      refine ⟨by rw [hl, cons_append], fun hd => ?_⟩
      rcases mem_cons.mp hd with heq' | hd
      · exact hne heq'.symm
      · exact hmem hd

end List
