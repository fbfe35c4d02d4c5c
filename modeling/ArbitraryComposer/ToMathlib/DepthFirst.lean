import Mathlib.Data.Fintype.Card

/-!
# Depth-First Walks with an Action

A walk that enters a node before it looks at the edges out of it, so entering may change what these
edges are. On finitely many nodes it enters every node that can be reached, each of them once, with
as many levels of recursion as there are nodes.

## Main definitions

- `depthFirst`, `depthFirstAll`: the walk from a node, and from several.
- `Walked`: what a walk has done.

## Main results

- `depthFirstAll_spec`: a walk enters the reachable nodes once.
-/

open Relation

section

variable {α σ : Type*} [DecidableEq α]

/-- A walk from a node: the nodes that were visited, the last one first, and a state. -/
def depthFirst (enter : α → σ → σ) (next : α → σ → List (Option α)) :
    ℕ → Option α → List α × σ → List α × σ
  | _, none, w => w
  | 0, some _, w => w
  | levels + 1, some node, w =>
    if node ∈ w.1 then w
    else
      (next node (enter node w.2)).foldl (fun w input => depthFirst enter next levels input w)
        (node :: w.1, enter node w.2)

/-- A walk from several nodes. -/
def depthFirstAll (enter : α → σ → σ) (next : α → σ → List (Option α)) (levels : ℕ)
    (roots : List (Option α)) (w : List α × σ) : List α × σ :=
  roots.foldl (fun w root => depthFirst enter next levels root w) w

variable {enter : α → σ → σ} {next : α → σ → List (Option α)} {edges : α → List (Option α)}

/-- What a walk has done: it entered fresh nodes, each reached from where it began, and has walked
every edge out of them. -/
structure Walked (enter : α → σ → σ) (edges : α → List (Option α)) (roots : List (Option α))
    (w w' : List α × σ) (fresh : List α) : Prop where
  /-- The nodes were visited. -/
  visited : w'.1 = fresh ++ w.1
  /-- They were entered, the last of the list first. -/
  entered : w'.2 = fresh.foldr enter w.2
  /-- Nothing is visited twice. -/
  nodup : w'.1.Nodup
  /-- They are reached from the roots. -/
  reached : ∀ x ∈ fresh, ∃ r, some r ∈ roots ∧ ReflTransGen (fun a b => some b ∈ edges a) r x
  /-- The edges out of them are walked. -/
  closed : ∀ x ∈ fresh, ∀ y, some y ∈ edges x → y ∈ w'.1
  /-- The roots are visited. -/
  roots : ∀ r, some r ∈ roots → r ∈ w'.1

variable {w : List α × σ} {I : σ → Prop}

omit [DecidableEq α] in
/-- A walk over some edges, from what it does over each. -/
private theorem foldl_walked {visit : Option α → List α × σ → List α × σ} {bound : ℕ}
    (hvisit : ∀ root (w : List α × σ), w.1.Nodup → bound ≤ w.1.length → I w.2 →
      ∃ fresh, Walked enter edges [root] w (visit root w) fresh ∧ I (visit root w).2)
    (roots : List (Option α)) (hnodup : w.1.Nodup) (hbound : bound ≤ w.1.length) (hI : I w.2) :
    ∃ fresh, Walked enter edges roots w (roots.foldl (fun w root => visit root w) w) fresh ∧
      I (roots.foldl (fun w root => visit root w) w).2 := by
  induction roots generalizing w with
  | nil => exact ⟨[], ⟨rfl, rfl, hnodup, nofun, nofun, nofun⟩, hI⟩
  | cons root roots ih =>
    obtain ⟨first, hfirst, hI'⟩ := hvisit root w hnodup hbound hI
    have hbound' : bound ≤ (visit root w).1.length := by
      rw [hfirst.visited, List.length_append]
      omega
    obtain ⟨rest, hrest, hI''⟩ := ih hfirst.nodup hbound' hI'
    rw [List.foldl_cons]
    refine ⟨rest ++ first, ⟨?_, ?_, hrest.nodup, ?_, ?_, ?_⟩, hI''⟩
    · rw [hrest.visited, hfirst.visited, List.append_assoc]
    · rw [hrest.entered, hfirst.entered, List.foldr_append]
    · intro x hx
      rcases List.mem_append.mp hx with hx | hx
      · obtain ⟨r, hr, hpath⟩ := hrest.reached x hx
        exact ⟨r, List.mem_cons_of_mem _ hr, hpath⟩
      · obtain ⟨r, hr, hpath⟩ := hfirst.reached x hx
        exact ⟨r, List.mem_cons.mpr (Or.inl (List.mem_singleton.mp hr)), hpath⟩
    · intro x hx y hy
      rcases List.mem_append.mp hx with hx | hx
      · exact hrest.closed x hx y hy
      · rw [hrest.visited]
        exact List.mem_append_right _ (hfirst.closed x hx y hy)
    · intro r hr
      rcases List.mem_cons.mp hr with hr | hr
      · rw [hrest.visited]
        exact List.mem_append_right _ (hfirst.roots r (List.mem_singleton.mpr hr))
      · exact hrest.roots r hr

variable [Fintype α]

/-- A walk from one node, with a level for every node that was not visited. -/
theorem depthFirst_spec (hnext : ∀ node s, I s → next node (enter node s) = edges node)
    (henter : ∀ node s, I s → I (enter node s)) (levels : ℕ) (root : Option α)
    (hnodup : w.1.Nodup) (hlevels : Fintype.card α ≤ levels + w.1.length) (hI : I w.2) :
    ∃ fresh, Walked enter edges [root] w (depthFirst enter next levels root w) fresh ∧
      I (depthFirst enter next levels root w).2 := by
  induction levels generalizing root w with
  | zero =>
    -- without a level left every node was visited
    have hall : ∀ x : α, x ∈ w.1 := by
      have huniv : w.1.toFinset = Finset.univ := by
        apply Finset.eq_univ_of_card
        have hcard := List.toFinset_card_of_nodup hnodup
        have hle := Finset.card_le_univ w.1.toFinset
        omega
      intro x
      exact List.mem_toFinset.mp (huniv ▸ Finset.mem_univ x)
    cases root with
    | none => exact ⟨[], ⟨rfl, rfl, hnodup, nofun, nofun, fun r _ => hall r⟩, hI⟩
    | some node => exact ⟨[], ⟨rfl, rfl, hnodup, nofun, nofun, fun r _ => hall r⟩, hI⟩
  | succ levels ih =>
    cases root with
    | none =>
      refine ⟨[], ⟨rfl, rfl, hnodup, nofun, nofun, fun r hr => ?_⟩, hI⟩
      cases List.mem_singleton.mp hr
    | some node =>
      rw [depthFirst]
      split
      case isTrue hmem =>
        refine ⟨[], ⟨rfl, rfl, hnodup, nofun, nofun, fun r hr => ?_⟩, hI⟩
        cases List.mem_singleton.mp hr
        exact hmem
      case isFalse hmem =>
        rw [hnext node w.2 hI]
        have hvisit : ∀ root (w : List α × σ), w.1.Nodup →
            Fintype.card α - levels ≤ w.1.length → I w.2 →
              ∃ fresh, Walked enter edges [root] w (depthFirst enter next levels root w) fresh ∧
                I (depthFirst enter next levels root w).2 :=
          fun root w hnodup hbound hI => ih root hnodup (by omega) hI
        have hnodup' : (node :: w.1).Nodup := List.nodup_cons.mpr ⟨hmem, hnodup⟩
        have hbound' : Fintype.card α - levels ≤ (node :: w.1).length := by
          rw [List.length_cons]
          omega
        obtain ⟨fresh, hwalked, hI'⟩ := foldl_walked hvisit (edges node)
          (w := (node :: w.1, enter node w.2)) hnodup' hbound' (henter node w.2 hI)
        refine ⟨fresh ++ [node], ⟨?_, ?_, hwalked.nodup, ?_, ?_, ?_⟩, hI'⟩
        · rw [hwalked.visited, List.append_assoc]
          rfl
        · rw [hwalked.entered, List.foldr_append]
          rfl
        · intro x hx
          rcases List.mem_append.mp hx with hx | hx
          · obtain ⟨r, hr, hpath⟩ := hwalked.reached x hx
            exact ⟨node, List.mem_singleton_self _, .head hr hpath⟩
          · rw [List.mem_singleton.mp hx]
            exact ⟨node, List.mem_singleton_self _, .refl⟩
        · intro x hx y hy
          rcases List.mem_append.mp hx with hx | hx
          · exact hwalked.closed x hx y hy
          · rw [List.mem_singleton.mp hx] at hy
            exact hwalked.roots y hy
        · intro r hr
          cases List.mem_singleton.mp hr
          rw [hwalked.visited]
          exact List.mem_append_right _ List.mem_cons_self

/-- A walk from several nodes enters exactly what is reached from them. -/
theorem depthFirstAll_spec (hnext : ∀ node s, I s → next node (enter node s) = edges node)
    (henter : ∀ node s, I s → I (enter node s)) (roots : List (Option α)) {s : σ} (hI : I s) :
    ∃ order : List α, order.Nodup ∧
      (∀ x, x ∈ order ↔
        ∃ r, some r ∈ roots ∧ ReflTransGen (fun a b => some b ∈ edges a) r x) ∧
      depthFirstAll enter next (Fintype.card α) roots ([], s) = (order, order.foldr enter s) := by
  obtain ⟨fresh, hwalked, -⟩ := foldl_walked
    (fun root w hnodup _ hI => depthFirst_spec hnext henter (Fintype.card α) root hnodup
      (Nat.le_add_right _ _) hI) roots (w := ([], s)) List.nodup_nil (Nat.zero_le _) hI
  have hvisited : (depthFirstAll enter next (Fintype.card α) roots ([], s)).1 = fresh := by
    rw [depthFirstAll, hwalked.visited, List.append_nil]
  refine ⟨fresh, hvisited ▸ hwalked.nodup, fun x => ⟨hwalked.reached x, ?_⟩,
    Prod.ext hvisited hwalked.entered⟩
  rintro ⟨r, hr, hpath⟩
  induction hpath with
  | refl => exact hvisited ▸ hwalked.roots r hr
  | tail _ hedge ih => exact hvisited ▸ hwalked.closed _ ih _ hedge

end
