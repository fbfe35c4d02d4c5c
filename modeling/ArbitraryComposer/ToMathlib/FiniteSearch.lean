import Mathlib.Data.Fintype.Card

/-!
# Searches That End

A recursive search over a relation enters a node once for every path to it. On finitely many
nodes it ends exactly when no node on a path is on a cycle. The search itself is written with a
number of turns; the lemmas on `List.mapM` are what such a definition needs for its recursive
calls.

## Main results

- `acc_iff_no_cycle`: accessibility in a finite relation.
- `List.mapM_eq_some_iff`, `List.exists_mapM_eq_some`: partial maps that succeed.
-/

open Relation

section

variable {α : Type*} {r : α → α → Prop} {a : α}

/-- Below an accessible node no node reaches itself. -/
theorem not_transGen_of_acc (acc : Acc (fun x y => r y x) a) : ¬ TransGen r a a := by
  induction acc with
  | intro a _ ih =>
    intro cycle
    obtain ⟨b, first, rest⟩ := TransGen.head'_iff.mp cycle
    exact ih b first (.tail' rest first)

/-- What is reached from an accessible node is accessible. -/
theorem acc_of_reflTransGen {b : α} (acc : Acc (fun x y => r y x) a) (path : ReflTransGen r a b) :
    Acc (fun x y => r y x) b := by
  induction path with
  | refl => exact acc
  | tail _ last ih => exact ih.inv last

/-- In a finite relation a node is accessible exactly when no node reached from it is on a
cycle. -/
theorem acc_iff_no_cycle [Finite α] :
    Acc (fun x y => r y x) a ↔ ∀ b, ReflTransGen r a b → ¬ TransGen r b b := by
  constructor
  · intro acc b path
    exact not_transGen_of_acc (acc_of_reflTransGen acc path)
  · intro acyclic
    -- among the nodes reached, being reached is a strict order
    let below : α → α → Prop := fun x y => ReflTransGen r a y ∧ TransGen r y x
    have trans : IsTrans α below :=
      ⟨fun x y z ⟨_, hxy⟩ ⟨hz, hyz⟩ => ⟨hz, hyz.trans hxy⟩⟩
    have irrefl : Std.Irrefl below := ⟨fun x ⟨hx, cycle⟩ => acyclic x hx cycle⟩
    have reached (b : α) (acc : Acc below b) (path : ReflTransGen r a b) :
        Acc (fun x y => r y x) b := by
      induction acc with
      | intro b _ ih => exact ⟨b, fun c step => ih c ⟨path, .single step⟩ (path.tail step)⟩
    exact reached a ((Finite.wellFounded_of_trans_of_irrefl below).apply a) .refl

end

namespace List

variable {α β : Type*} {f g : α → Option β}

/-- A partial map succeeds on a list when it does on each element. -/
theorem mapM_eq_some_iff {l : List α} {rs : List β} :
    l.mapM f = some rs ↔ Forall₂ (fun x r => f x = some r) l rs := by
  induction l generalizing rs with
  | nil =>
    rw [mapM_nil, forall₂_nil_left_iff]
    constructor
    · intro h
      exact (Option.some.inj h).symm
    · rintro rfl
      rfl
  | cons x l ih =>
    rw [mapM_cons, forall₂_cons_left_iff]
    constructor
    · intro h
      obtain ⟨r, hr, h⟩ := Option.bind_eq_some_iff.mp h
      obtain ⟨rest, hrest, h⟩ := Option.bind_eq_some_iff.mp h
      exact ⟨r, rest, hr, ih.mp hrest, (Option.some.inj h).symm⟩
    · rintro ⟨r, rest, hr, hrest, rfl⟩
      rw [hr, ih.mpr hrest]
      rfl

/-- A partial map that succeeds maps to its results. -/
theorem map_eq_of_mapM {l : List α} {rs : List β} (h : l.mapM f = some rs) :
    l.map f = rs.map some := by
  induction mapM_eq_some_iff.mp h with
  | nil => rfl
  | cons hr hrest ih => rw [map_cons, map_cons, hr, ih (mapM_eq_some_iff.mpr hrest)]

/-- A partial map that succeeds on each element succeeds. -/
theorem exists_mapM_eq_some {l : List α} (h : ∀ x ∈ l, ∃ r, f x = some r) :
    ∃ rs, l.mapM f = some rs := by
  induction l with
  | nil => exact ⟨[], rfl⟩
  | cons x l ih =>
    obtain ⟨r, hr⟩ := h x mem_cons_self
    obtain ⟨rs, hrs⟩ := ih fun y hy => h y (mem_cons_of_mem x hy)
    exact ⟨r :: rs, mapM_eq_some_iff.mpr (.cons hr (mapM_eq_some_iff.mp hrs))⟩

/-- A partial map that extends one that succeeds has the same results. -/
theorem mapM_mono {l : List α} {rs : List β} (h : l.mapM f = some rs)
    (ext : ∀ x r, f x = some r → g x = some r) : l.mapM g = some rs :=
  mapM_eq_some_iff.mpr ((mapM_eq_some_iff.mp h).imp ext)

/-- The results of a partial map are those of the elements. -/
theorem mem_mapM {l : List α} {rs : List β} (h : l.mapM f = some rs) {r : β} :
    r ∈ rs ↔ ∃ x ∈ l, f x = some r := by
  induction mapM_eq_some_iff.mp h with
  | nil => simp
  | @cons x r' l rs hx rest ih =>
    rw [mem_cons, ih (mapM_eq_some_iff.mpr rest)]
    constructor
    · rintro (rfl | ⟨y, hy, hr⟩)
      · exact ⟨x, mem_cons_self, hx⟩
      · exact ⟨y, mem_cons_of_mem x hy, hr⟩
    · rintro ⟨y, hy, hr⟩
      rcases mem_cons.mp hy with rfl | hy
      · exact .inl (Option.some.inj (hr.symm.trans hx))
      · exact .inr ⟨y, hy, hr⟩

/-- On the elements of a list where a partial map succeeds, it has a result. -/
theorem exists_of_mapM_eq_some {l : List α} {rs : List β} (h : l.mapM f = some rs) {x : α}
    (hx : x ∈ l) : ∃ r, f x = some r ∧ r ∈ rs := by
  induction mapM_eq_some_iff.mp h with
  | nil => exact absurd hx not_mem_nil
  | @cons y r l rs hy rest ih =>
    rcases mem_cons.mp hx with rfl | hx
    · exact ⟨r, hy, mem_cons_self⟩
    · obtain ⟨r', hr', mem⟩ := ih (mapM_eq_some_iff.mpr rest) hx
      exact ⟨r', hr', mem_cons_of_mem r mem⟩

end List
