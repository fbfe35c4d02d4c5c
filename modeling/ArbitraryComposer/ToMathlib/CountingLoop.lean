import ArbitraryComposer.ToMathlib.CheckedInt
import Mathlib.Data.List.Nodup

/-!
# Counting Loops

A loop counts a signed variable up, and its body may stop the program. The variable is counted past
the last value before the loop ends, so a loop that goes up to the last value of its type traps.

Such loops often collect: what they have so far are the elements of a growing set, each once.

## Main definitions

- `Checked.Returns`: a program returns a value with a property.
- `countUp`, `forUpTo`: the loop.
- `List.Enumerates`: a list has the elements of a set, each once.

## Main results

- `forUpTo_returns`, `foldlM_returns`: the rules of loops, by an invariant.
- `forUpTo_collects`, `foldlM_collects`: the rules of loops that collect, by what a round adds.
- `exists_of_forUpTo`, `exists_of_foldlM`: what a loop that returned has carried out.
-/

/-! ## Programs that return -/

namespace Checked

variable {ε α β σ : Type} {P Q : α → Prop} {R : β → Prop} {x : Checked ε α}

/-- A program returns a value with a property. -/
def Returns (x : Checked ε α) (P : α → Prop) : Prop := ∃ a, x = .ok a ∧ P a

theorem returns_ok {a : α} (h : P a) : Returns (ε := ε) (.ok a) P := ⟨a, rfl, h⟩

theorem Returns.mono (h : x.Returns P) (himp : ∀ a, P a → Q a) : x.Returns Q := by
  obtain ⟨a, hx, ha⟩ := h
  exact ⟨a, hx, himp a ha⟩

/-- The rule of sequencing. -/
theorem Returns.bind {f : α → Checked ε β} (h : x.Returns P) (hf : ∀ a, P a → (f a).Returns R) :
    Returns (x >>= f) R := by
  obtain ⟨a, rfl, ha⟩ := h
  exact hf a ha

/-- A sequence that returned has returned from both parts. -/
theorem exists_of_bind {f : α → Checked ε β} {b : β} (h : x >>= f = .ok b) :
    ∃ a, x = .ok a ∧ f a = .ok b := by
  cases x with
  | ok a => exact ⟨a, rfl, h⟩
  | error e => cases h

/-- A fold over a list returns when every step keeps an invariant of what was folded before. -/
theorem foldlM_returns {f : σ → α → Checked ε σ} (I : List α → σ → Prop) {l : List α} {s : σ}
    (hs : I [] s) (hstep : ∀ before a s, a ∈ l → I before s → (f s a).Returns (I (before ++ [a]))) :
    Returns (l.foldlM f s) (I l) := by
  -- the invariant is generalized to the part of the list that is done
  suffices hall : ∀ rest before s, (∀ a ∈ rest, a ∈ l) → I before s →
      Returns (rest.foldlM f s) (I (before ++ rest)) from hall l [] s (fun _ => id) hs
  intro rest
  induction rest with
  | nil =>
    intro before s _ hI
    exact returns_ok (by simpa using hI)
  | cons a rest ih =>
    intro before s hmem hI
    rw [List.foldlM_cons]
    refine (hstep before a s (hmem a List.mem_cons_self) hI).bind fun s' hI' => ?_
    have hrest := ih (before ++ [a]) s' (fun b hb => hmem b (List.mem_cons_of_mem a hb)) hI'
    simpa using hrest

/-- A fold collects what its steps collect. -/
theorem foldlM_collects {ι : Type} {f : σ → α → Checked ε σ} (I : Set ι → σ → Prop) (F : α → Set ι)
    {l : List α} {s : σ} {S : Set ι} (hs : I S s)
    (hstep : ∀ a S s, a ∈ l → I S s → (f s a).Returns (I (S ∪ F a))) :
    Returns (l.foldlM f s) (I {i | i ∈ S ∨ ∃ a ∈ l, i ∈ F a}) := by
  refine foldlM_returns (fun before => I {i | i ∈ S ∨ ∃ a ∈ before, i ∈ F a}) ?_ ?_
  · simpa using hs
  · intro before a s ha hI
    refine (hstep a _ s ha hI).mono fun s' hI' => ?_
    convert hI' using 1
    ext i
    simp only [Set.mem_union, Set.mem_ofPred_eq, List.mem_append, List.mem_singleton, or_and_right,
      exists_or, exists_eq_left, or_assoc]

/-- A fold that returned has carried out every step. -/
theorem exists_of_foldlM {f : σ → α → Checked ε σ} {l : List α} {s t : σ}
    (h : l.foldlM f s = .ok t) {a : α} (ha : a ∈ l) : ∃ s' t', f s' a = .ok t' := by
  induction l generalizing s with
  | nil => simp at ha
  | cons b l ih =>
    rw [List.foldlM_cons] at h
    obtain ⟨s', hb, hl⟩ := exists_of_bind h
    rcases List.mem_cons.mp ha with rfl | ha
    · exact ⟨s, s', hb⟩
    · exact ih hl ha

end Checked

/-! ## The loop -/

section Loop

variable {ε σ : Type} {bits : ℕ}

/-- A loop that has a number of rounds to go. -/
def countUp (bits : ℕ) (body : ℤ → σ → Checked ε σ) : ℕ → ℤ → σ → Checked ε σ
  | 0, _, s => .ok s
  | n + 1, x, s => do
    let s ← body x s
    let x ← signed bits (x + 1)
    countUp bits body n x s

/-- `for (x = first; x <= last; ++x)`, in a signed type. -/
def forUpTo (bits : ℕ) (first last : ℤ) (body : ℤ → σ → Checked ε σ) (s : σ) : Checked ε σ :=
  countUp bits body (last + 1 - first).toNat first s

theorem signed_eq_ok_iff {x y : ℤ} :
    signed (ε := ε) bits x = .ok y ↔ FitsSigned bits x ∧ y = x := by
  unfold signed
  split
  case isTrue hfits => simp [hfits, eq_comm]
  case isFalse hfits => simp [hfits]

variable {body : ℤ → σ → Checked ε σ}

/-- A loop returns when every round keeps an invariant and what it counts to fits. -/
theorem forUpTo_returns (I : ℤ → σ → Prop) {first last : ℤ} {s : σ} (hs : I first s)
    (hstep : ∀ x s, first ≤ x → x ≤ last → I x s → (body x s).Returns (I (x + 1)))
    (hfits : ∀ x, first ≤ x → x ≤ last → FitsSigned bits (x + 1)) :
    Checked.Returns (forUpTo bits first last body s) (I (max first (last + 1))) := by
  suffices hall : ∀ (n : ℕ) x s, first ≤ x → x + n = max first (last + 1) → I x s →
      Checked.Returns (countUp bits body n x s) (I (max first (last + 1))) from
    hall _ first s le_rfl (by omega) hs
  intro n
  induction n with
  | zero =>
    intro x s _ hx hI
    rw [Nat.cast_zero, add_zero] at hx
    exact Checked.returns_ok (hx ▸ hI)
  | succ n ih =>
    intro x s hfirst hx hI
    have hlast : x ≤ last := by omega
    refine (hstep x s hfirst hlast hI).bind fun s' hI' => ?_
    rw [signed_eq_ok (hfits x hfirst hlast)]
    exact ih (x + 1) s' (by omega) (by omega) hI'

/-- A loop collects what its rounds collect. -/
theorem forUpTo_collects {ι : Type} (I : Set ι → σ → Prop) (F : ℤ → Set ι) {first last : ℤ} {s : σ}
    {S : Set ι} (hs : I S s)
    (hstep : ∀ x S s, first ≤ x → x ≤ last → I S s → (body x s).Returns (I (S ∪ F x)))
    (hfits : ∀ x, first ≤ x → x ≤ last → FitsSigned bits (x + 1)) :
    Checked.Returns (forUpTo bits first last body s)
      (I {i | i ∈ S ∨ ∃ x, first ≤ x ∧ x ≤ last ∧ i ∈ F x}) := by
  -- before a round, the rounds of the smaller values are done
  let J : ℤ → σ → Prop := fun x => I {i | i ∈ S ∨ ∃ y, first ≤ y ∧ y < x ∧ i ∈ F y}
  have hfirst : J first s := by
    convert hs using 1
    ext i
    simp only [Set.mem_ofPred_eq, or_iff_left_iff_imp]
    rintro ⟨y, hfirst, hlt, -⟩
    omega
  have hround : ∀ x s, first ≤ x → x ≤ last → J x s → (body x s).Returns (J (x + 1)) := by
    intro x s hfirst hlast hI
    refine (hstep x _ s hfirst hlast hI).mono fun s' hI' => ?_
    convert hI' using 1
    ext i
    simp only [Set.mem_union, Set.mem_ofPred_eq, or_assoc]
    refine or_congr_right ⟨?_, ?_⟩
    · rintro ⟨y, hy, hlt, hi⟩
      rcases (Int.lt_add_one_iff.mp hlt).eq_or_lt with rfl | hlt
      · exact Or.inr hi
      · exact Or.inl ⟨y, hy, hlt, hi⟩
    · rintro (⟨y, hy, hlt, hi⟩ | hi)
      · exact ⟨y, hy, by omega, hi⟩
      · exact ⟨x, hfirst, by omega, hi⟩
  refine (forUpTo_returns J hfirst hround hfits).mono fun s' hI => ?_
  convert hI using 1
  ext i
  simp only [Set.mem_ofPred_eq, lt_max_iff, Int.lt_add_one_iff]
  refine or_congr_right (exists_congr fun y => and_congr_right fun hfirst => ?_)
  rw [or_iff_right (by omega)]

/-- A loop that returned has carried out every round, and what it counted to fits. -/
theorem exists_of_forUpTo {first last : ℤ} {s t : σ} (h : forUpTo bits first last body s = .ok t)
    {x : ℤ} (hfirst : first ≤ x) (hlast : x ≤ last) :
    FitsSigned bits (x + 1) ∧ ∃ s' t', body x s' = .ok t' := by
  suffices hall : ∀ (n : ℕ) y s, countUp bits body n y s = .ok t → y ≤ x → x < y + n →
      FitsSigned bits (x + 1) ∧ ∃ s' t', body x s' = .ok t' from
    hall _ first s h hfirst (by omega)
  intro n
  induction n with
  | zero =>
    intro y s _ hy hx
    omega
  | succ n ih =>
    intro y s hrun hy hx
    obtain ⟨s', hbody, hrest⟩ := Checked.exists_of_bind hrun
    obtain ⟨y', hnext, hrest⟩ := Checked.exists_of_bind hrest
    obtain ⟨hfits, rfl⟩ := signed_eq_ok_iff.mp hnext
    rcases hy.eq_or_lt with rfl | hy
    · exact ⟨hfits, s, s', hbody⟩
    · exact ih (y + 1) s' hrest (by omega) (by omega)

end Loop

/-! ## Collecting -/

namespace List

variable {α : Type*} {l : List α} {S T : Set α} {a : α}

/-- A list has the elements of a set, each of them once. -/
structure Enumerates (l : List α) (S : Set α) : Prop where
  /-- No element comes twice. -/
  nodup : l.Nodup
  /-- The elements are those of the set. -/
  mem_iff : ∀ a, a ∈ l ↔ a ∈ S

theorem enumerates_nil (h : ∀ a, a ∉ S) : ([] : List α).Enumerates S :=
  ⟨nodup_nil, fun a => by simp [h a]⟩

theorem Enumerates.congr (h : l.Enumerates S) (hST : ∀ a, a ∈ S ↔ a ∈ T) : l.Enumerates T :=
  ⟨h.nodup, fun a => (h.mem_iff a).trans (hST a)⟩

/-- An element that is not in the set is added at the end. -/
theorem Enumerates.concat (h : l.Enumerates S) (ha : a ∉ S) :
    (l ++ [a]).Enumerates (insert a S) := by
  refine ⟨?_, fun b => ?_⟩
  · refine nodup_append.mpr ⟨h.nodup, by simp, ?_⟩
    rintro b hb c hc rfl
    rw [mem_singleton] at hc
    exact ha (hc ▸ (h.mem_iff b).mp hb)
  · simp [h.mem_iff, or_comm]

end List
