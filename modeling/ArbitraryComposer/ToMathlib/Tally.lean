import Mathlib.Algebra.BigOperators.Group.List.Basic
import Mathlib.Algebra.GroupWithZero.Nat

/-!
# Tallies

The tally of a list is the sum of a weight over its elements. With the weight of one element it is a
count, with the weight of a class it counts the class, and an equation of tallies for every weight
says that elements moved from one list to another and none was lost or doubled.

## Main definitions

- `List.tally`: the sum of a weight over a list.

## Main results

- `List.tally_filter_add`, `List.tally_eraseP`, `List.tally_eraseIdx`: what leaves a list.
- `List.tally_filterMap_set`: what a slot of a list holds.
- `List.eq_singleton_of_tally`: a short list of a known weight.
-/

namespace List

variable {α β : Type*} {f : α → ℕ} {l l' : List α}

/-- The sum of a weight over a list. -/
def tally (f : α → ℕ) (l : List α) : ℕ := (l.map f).sum

@[simp]
theorem tally_nil (f : α → ℕ) : tally f [] = 0 := rfl

@[simp]
theorem tally_cons (f : α → ℕ) (a : α) (l : List α) : tally f (a :: l) = f a + tally f l := by
  rw [tally, map_cons, sum_cons, tally]

@[simp]
theorem tally_append (f : α → ℕ) (l l' : List α) :
    tally f (l ++ l') = tally f l + tally f l' := by
  rw [tally, map_append, sum_append, tally, tally]

/-- A list is what passes a test and what does not. -/
theorem tally_filter_add (f : α → ℕ) (p : α → Bool) (l : List α) :
    tally f (l.filter p) + tally f (l.filter fun a => !p a) = tally f l := by
  induction l with
  | nil => rfl
  | cons a l ih =>
    cases h : p a
    · simp only [filter_cons, h, tally_cons, Bool.not_false, if_true, Bool.false_eq_true, if_false]
      omega
    · simp only [filter_cons, h, tally_cons, Bool.not_true, if_true, Bool.false_eq_true, if_false]
      omega

/-- The first element that passes a test leaves. -/
theorem tally_eraseP {p : α → Bool} {a : α} (h : l.find? p = some a) (f : α → ℕ) :
    f a + tally f (l.eraseP p) = tally f l := by
  induction l with
  | nil => cases h
  | cons b l ih =>
    rw [find?_cons] at h
    cases hb : p b
    · rw [hb] at h
      rw [eraseP_cons_of_neg (by simp [hb]), tally_cons, tally_cons, ← ih h]
      omega
    · rw [hb] at h
      obtain rfl := Option.some.inj h
      rw [eraseP_cons_of_pos hb, tally_cons]

/-- An element at a place leaves. -/
theorem tally_eraseIdx {i : ℕ} {a : α} (h : l[i]? = some a) (f : α → ℕ) :
    f a + tally f (l.eraseIdx i) = tally f l := by
  induction l generalizing i with
  | nil => cases h
  | cons b l ih =>
    cases i with
    | zero =>
      obtain rfl : b = a := Option.some.inj h
      rw [eraseIdx_cons_zero, tally_cons]
    | succ i =>
      have h' : l[i]? = some a := h
      rw [eraseIdx_cons_succ, tally_cons, tally_cons, ← ih h']
      omega

/-- A slot of a list takes another content. -/
theorem tally_filterMap_set {g : β → Option α} {s : List β} {i : ℕ} {b : β} (h : s[i]? = some b)
    (b' : β) (f : α → ℕ) :
    tally f (g b).toList + tally f ((s.set i b').filterMap g) =
      tally f (g b').toList + tally f (s.filterMap g) := by
  induction s generalizing i with
  | nil => cases h
  | cons c s ih =>
    have hcons : ∀ x (r : List β), tally f ((x :: r).filterMap g) =
        tally f (g x).toList + tally f (r.filterMap g) := fun x r => by
      rw [filterMap_cons]
      cases g x with
      | none => simp
      | some a => simp
    cases i with
    | zero =>
      obtain rfl : c = b := Option.some.inj h
      rw [set_cons_zero, hcons, hcons]
      omega
    | succ i =>
      have hi := ih (show s[i]? = some b from h)
      rw [set_cons_succ, hcons, hcons]
      omega

/-- An element of a list takes another's place. -/
theorem tally_set {i : ℕ} {a : α} (h : l[i]? = some a) (b : α) (f : α → ℕ) :
    f a + tally f (l.set i b) = f b + tally f l := by
  have hset := tally_filterMap_set (g := some) h b f
  simpa only [Option.toList_some, tally_cons, tally_nil, Nat.add_zero, filterMap_some] using hset

/-- Elements that become lighter. -/
theorem tally_map_le {g : α → α} (h : ∀ a, f (g a) ≤ f a) (l : List α) :
    tally f (l.map g) ≤ tally f l := by
  induction l with
  | nil => exact Nat.le_refl _
  | cons a l ih =>
    rw [map_cons, tally_cons, tally_cons]
    exact Nat.add_le_add (h a) ih

/-- The tally of the weight of one element is its count. -/
theorem tally_ite_eq_count [DecidableEq α] (a : α) (l : List α) :
    tally (fun x => if x = a then 1 else 0) l = l.count a := by
  induction l with
  | nil => rfl
  | cons b l ih =>
    rw [tally_cons, ih, count_cons]
    by_cases h : b = a
    · simp [h, add_comm]
    · simp [h]

/-- A tally of more elements. -/
theorem tally_filterMap_le {g h : β → Option α} (hle : ∀ b a, g b = some a → h b = some a)
    (s : List β) (f : α → ℕ) : tally f (s.filterMap g) ≤ tally f (s.filterMap h) := by
  induction s with
  | nil => exact Nat.le_refl _
  | cons b s ih =>
    cases hb : g b with
    | none =>
      rw [filterMap_cons_none hb]
      cases hh : h b with
      | none => rwa [filterMap_cons_none hh]
      | some a =>
        rw [filterMap_cons_some hh, tally_cons]
        exact Nat.le_trans ih (Nat.le_add_left _ _)
    | some a =>
      rw [filterMap_cons_some hb, filterMap_cons_some (hle b a hb), tally_cons, tally_cons]
      exact Nat.add_le_add_left ih _

/-- A list of at most one element that weighs at least as much as an element is that element. -/
theorem eq_singleton_of_tally [DecidableEq α] {a : α} {x : (α → ℕ) → ℕ} (hl : l.length ≤ 1)
    (h : ∀ f, tally f l = f a + x f) : l = [a] ∧ ∀ f, x f = 0 := by
  match l, hl with
  | [], _ =>
    have hone := h fun _ => 1
    rw [tally_nil] at hone
    omega
  | [b], _ =>
    have ha := h fun y => if y = a then 1 else 0
    rw [tally_cons, tally_nil, if_pos rfl] at ha
    obtain rfl : b = a := by
      by_contra hne
      rw [if_neg hne] at ha
      omega
    refine ⟨rfl, fun f => ?_⟩
    have hf := h f
    rw [tally_cons, tally_nil] at hf
    omega

/-- The first element of a class leads the class. -/
theorem filter_eq_cons_of_find? {p : α → Bool} {a : α} (h : l.find? p = some a) :
    l.filter p = a :: (l.eraseP p).filter p := by
  induction l with
  | nil => cases h
  | cons b l ih =>
    rw [find?_cons] at h
    cases hb : p b
    · rw [hb] at h
      rw [eraseP_cons_of_neg (by simp [hb]), filter_cons_of_neg (by simp [hb]),
        filter_cons_of_neg (by simp [hb]), ih h]
    · rw [hb] at h
      obtain rfl := Option.some.inj h
      rw [eraseP_cons_of_pos hb, filter_cons_of_pos hb]

/-- What leaves from one class does not leave from another. -/
theorem filter_eraseP_of_disjoint {p q : α → Bool} (h : ∀ a, q a = true → p a = false)
    (l : List α) : (l.eraseP p).filter q = l.filter q := by
  induction l with
  | nil => rfl
  | cons b l ih =>
    cases hp : p b
    · rw [eraseP_cons_of_neg (by simp [hp]), filter_cons, filter_cons, ih]
    · have hq : q b = false := by
        cases hq : q b
        · rfl
        · exact absurd ((h b hq).symm.trans hp) Bool.false_ne_true
      rw [eraseP_cons_of_pos hp, filter_cons_of_neg (by simp [hq])]

/-- A tally without weight. -/
theorem tally_eq_zero_iff : tally f l = 0 ↔ ∀ a ∈ l, f a = 0 := by
  induction l with
  | nil => simp
  | cons a l ih => simp [ih]

/-- The tally of the constant weight is the length. -/
theorem tally_one (l : List α) : tally (fun _ => 1) l = l.length := by
  induction l with
  | nil => rfl
  | cons a l ih =>
    rw [tally_cons, ih, length_cons]
    omega

end List
