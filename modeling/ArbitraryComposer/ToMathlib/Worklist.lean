import Mathlib.Data.Finset.Card

/-!
# Worklist Traversals

A traversal that takes nodes off a stack and pushes what it has not seen yet. In a finite set that
it does not leave it takes every node that can be reached, each of them once, in no more turns than
there are nodes.

## Main definitions

- `pushNew`, `visit`: the traversal, with a number of turns.

## Main results

- `nodup_visit`, `mem_visit_iff`: it takes each reachable node once.
- `visit_of_le`: it has ended after as many turns as there are nodes.
-/

open Relation

section

variable {α : Type*} [DecidableEq α]

/-- Pushes the nodes that are not marked yet and marks them. -/
def pushNew : List α → List α × List α → List α × List α
  | [], state => state
  | y :: ys, (stack, marked) =>
    if y ∈ marked then pushNew ys (stack, marked) else pushNew ys (y :: stack, y :: marked)

/-- The nodes that a traversal takes off its stack, in order, in so many turns. -/
def visit (next : α → List α) : ℕ → List α → List α → List α
  | 0, _, _ => []
  | _ + 1, [], _ => []
  | turns + 1, node :: stack, marked =>
    let (stack, marked) := pushNew (next node) (stack, marked)
    node :: visit next turns stack marked

variable {next : α → List α} {stack marked : List α}

/-- What is pushed was not marked, and all that was offered is marked. -/
theorem pushNew_eq (ys : List α) (hmarked : marked.Nodup) :
    ∃ fresh, pushNew ys (stack, marked) = (fresh ++ stack, fresh ++ marked) ∧
      (fresh ++ marked).Nodup ∧ (∀ y ∈ fresh, y ∈ ys) ∧ ∀ y ∈ ys, y ∈ fresh ++ marked := by
  induction ys generalizing stack marked with
  | nil => exact ⟨[], rfl, hmarked, nofun, nofun⟩
  | cons y ys ih =>
    rw [pushNew]
    by_cases hy : y ∈ marked
    · obtain ⟨fresh, heq, hnodup, hsub, hall⟩ := @ih stack marked hmarked
      rw [if_pos hy]
      refine ⟨fresh, heq, hnodup, fun z hz => List.mem_cons_of_mem _ (hsub z hz), ?_⟩
      intro z hz
      rcases List.mem_cons.mp hz with rfl | hz
      · exact List.mem_append_right _ hy
      · exact hall z hz
    · obtain ⟨fresh, heq, hnodup, hsub, hall⟩ :=
        @ih (y :: stack) (y :: marked) (List.nodup_cons.mpr ⟨hy, hmarked⟩)
      rw [if_neg hy]
      refine ⟨fresh ++ [y], by simpa using heq, by simpa using hnodup, ?_, ?_⟩
      · intro z hz
        rcases List.mem_append.mp hz with hz | hz
        · exact List.mem_cons_of_mem _ (hsub z hz)
        · exact List.mem_singleton.mp hz ▸ List.mem_cons_self
      · intro z hz
        have hz : z ∈ fresh ++ y :: marked := by
          rcases List.mem_cons.mp hz with rfl | hz
          · exact List.mem_append_right _ List.mem_cons_self
          · exact hall z hz
        simpa using hz

/-- What is taken is reached from the stack. -/
theorem exists_of_mem_visit (turns : ℕ) (hmarked : marked.Nodup) {x : α}
    (hx : x ∈ visit next turns stack marked) :
    ∃ y ∈ stack, ReflTransGen (fun a b => b ∈ next a) y x := by
  induction turns generalizing stack marked with
  | zero => cases hx
  | succ turns ih =>
    cases stack with
    | nil => cases hx
    | cons node stack =>
      obtain ⟨fresh, heq, hnodup, hsub, -⟩ := @pushNew_eq α _ stack marked (next node) hmarked
      rw [visit, heq] at hx
      rcases List.mem_cons.mp hx with rfl | hx
      · exact ⟨x, List.mem_cons_self, .refl⟩
      · obtain ⟨y, hy, hpath⟩ := ih hnodup hx
        rcases List.mem_append.mp hy with hy | hy
        · exact ⟨node, List.mem_cons_self, .head (hsub y hy) hpath⟩
        · exact ⟨y, List.mem_cons_of_mem _ hy, hpath⟩

/-- No node is taken twice. What is taken was on the stack or was not marked. -/
theorem nodup_visit (turns : ℕ) (hstack : stack.Nodup) (hmarked : marked.Nodup)
    (hsub : ∀ x ∈ stack, x ∈ marked) :
    (visit next turns stack marked).Nodup ∧
      ∀ x ∈ visit next turns stack marked, x ∈ stack ∨ x ∉ marked := by
  induction turns generalizing stack marked with
  | zero => exact ⟨.nil, nofun⟩
  | succ turns ih =>
    cases stack with
    | nil => exact ⟨.nil, nofun⟩
    | cons node stack =>
      obtain ⟨fresh, heq, hnodup, -, -⟩ := @pushNew_eq α _ stack marked (next node) hmarked
      obtain ⟨hnode, hstack⟩ := List.nodup_cons.mp hstack
      have hdisjoint : ∀ x ∈ marked, x ∉ fresh := fun x hx hfresh =>
        (List.nodup_append.mp hnodup).2.2 x hfresh x hx rfl
      have hstack' : (fresh ++ stack).Nodup :=
        List.nodup_append.mpr ⟨(List.nodup_append.mp hnodup).1, hstack, fun x hx y hy heq =>
          hdisjoint y (hsub y (List.mem_cons_of_mem _ hy)) (heq ▸ hx)⟩
      have hsub' : ∀ x ∈ fresh ++ stack, x ∈ fresh ++ marked := fun x hx =>
        (List.mem_append.mp hx).elim (List.mem_append_left _) fun hx =>
          List.mem_append_right _ (hsub x (List.mem_cons_of_mem _ hx))
      obtain ⟨hout, htaken⟩ := ih hstack' hnodup hsub'
      rw [visit, heq]
      refine ⟨List.nodup_cons.mpr ⟨fun hmem => ?_, hout⟩, fun x hx => ?_⟩
      · -- the node is marked, so it was not pushed again, and it is on the stack only once
        have hnodeMarked := hsub node List.mem_cons_self
        rcases htaken node hmem with h | h
        · rcases List.mem_append.mp h with h | h
          · exact hdisjoint node hnodeMarked h
          · exact hnode h
        · exact h (List.mem_append_right _ hnodeMarked)
      · rcases List.mem_cons.mp hx with rfl | hx
        · exact .inl List.mem_cons_self
        · rcases htaken x hx with h | h
          · rcases List.mem_append.mp h with h | h
            · exact .inr fun hmem => hdisjoint x hmem h
            · exact .inl (List.mem_cons_of_mem _ h)
          · exact .inr fun hmem => h (List.mem_append_right _ hmem)

section

variable {nodes : Finset α} (hclosed : ∀ x ∈ nodes, ∀ y ∈ next x, y ∈ nodes)

include hclosed

omit [DecidableEq α] in
/-- What is marked after a turn is a node. -/
private theorem marked_subset {node : α} {fresh : List α} (hnode : node ∈ nodes)
    (hfresh : ∀ y ∈ fresh, y ∈ next node) (hsub : marked ⊆ nodes.toList) :
    fresh ++ marked ⊆ nodes.toList := fun x hx => by
  rcases List.mem_append.mp hx with hx | hx
  · exact Finset.mem_toList.mpr (hclosed node hnode x (hfresh x hx))
  · exact hsub hx

/-- With a turn for each node that is not marked or on the stack, all of the stack is taken, and
what is marked or taken is closed. -/
theorem visit_closed (turns : ℕ) (hmarked : marked.Nodup) (hsub : marked ⊆ nodes.toList)
    (hstack : stack ⊆ marked) (hturns : nodes.card + stack.length ≤ turns + marked.length)
    (hdone : ∀ x ∈ marked, x ∉ stack → ∀ y ∈ next x, y ∈ marked) :
    (∀ x ∈ stack, x ∈ visit next turns stack marked) ∧
      ∀ x, x ∈ marked ∨ x ∈ visit next turns stack marked →
        ∀ y ∈ next x, y ∈ marked ∨ y ∈ visit next turns stack marked := by
  have hcard : marked.length ≤ nodes.card := nodes.length_toList ▸ (hmarked.subperm hsub).length_le
  induction turns generalizing stack marked with
  | zero =>
    obtain rfl : stack = [] := List.eq_nil_of_length_eq_zero (by omega)
    refine ⟨nofun, fun x hx y hy => .inl (hdone x ?_ nofun y hy)⟩
    exact hx.elim id nofun
  | succ turns ih =>
    cases stack with
    | nil =>
      refine ⟨nofun, fun x hx y hy => .inl (hdone x ?_ nofun y hy)⟩
      exact hx.elim id nofun
    | cons node stack =>
      obtain ⟨fresh, heq, hnodup, hfresh, hall⟩ := @pushNew_eq α _ stack marked (next node) hmarked
      have hnode := Finset.mem_toList.mp (hsub (hstack List.mem_cons_self))
      have hsub' := marked_subset hclosed hnode hfresh hsub
      have hstack' : fresh ++ stack ⊆ fresh ++ marked := fun x hx =>
        List.mem_append.mpr ((List.mem_append.mp hx).imp_right fun hx =>
          hstack (List.mem_cons_of_mem _ hx))
      have hdone' : ∀ x ∈ fresh ++ marked, x ∉ fresh ++ stack → ∀ y ∈ next x,
          y ∈ fresh ++ marked := by
        intro x hx hout y hy
        rw [List.mem_append, not_or] at hout
        by_cases hnode : x = node
        · exact hall y (hnode ▸ hy)
        · have hx : x ∈ marked := (List.mem_append.mp hx).resolve_left hout.1
          have hx' : x ∉ node :: stack := by
            rw [List.mem_cons, not_or]
            exact ⟨hnode, hout.2⟩
          exact List.mem_append_right _ (hdone x hx hx' y hy)
      simp only [List.length_cons] at hturns
      obtain ⟨htaken, hends⟩ := ih hnodup hsub' hstack'
        (by simp only [List.length_append]; omega) hdone'
        (nodes.length_toList ▸ (hnodup.subperm hsub').length_le)
      rw [visit, heq]
      have hiff : ∀ x, x ∈ marked ∨ x ∈ node :: visit next turns (fresh ++ stack) (fresh ++ marked) ↔
          x = node ∨ x ∈ fresh ++ marked ∨ x ∈ visit next turns (fresh ++ stack) (fresh ++ marked) := by
        intro x
        have hfresh : x ∈ fresh → x ∈ visit next turns (fresh ++ stack) (fresh ++ marked) :=
          fun hx => htaken x (List.mem_append_left _ hx)
        rw [List.mem_cons, List.mem_append]
        tauto
      refine ⟨fun x hx => ?_, fun x hx y hy => (hiff y).mpr (.inr ?_)⟩
      · rcases List.mem_cons.mp hx with rfl | hx
        · exact List.mem_cons_self
        · exact List.mem_cons_of_mem _ (htaken x (List.mem_append_right _ hx))
      · rcases (hiff x).mp hx with rfl | hx
        · exact .inl (hall y hy)
        · exact hends x hx y hy

/-- More turns than there are nodes to take change nothing: the stack is empty. -/
theorem visit_of_le {turns turns' : ℕ} (hmarked : marked.Nodup) (hsub : marked ⊆ nodes.toList)
    (hstack : stack ⊆ marked) (hturns : nodes.card + stack.length ≤ turns + marked.length)
    (hle : turns ≤ turns') : visit next turns' stack marked = visit next turns stack marked := by
  have hcard : marked.length ≤ nodes.card := nodes.length_toList ▸ (hmarked.subperm hsub).length_le
  induction turns generalizing stack marked turns' with
  | zero =>
    obtain rfl : stack = [] := List.eq_nil_of_length_eq_zero (by omega)
    cases turns' with
    | zero => rfl
    | succ turns' => rfl
  | succ turns ih =>
    obtain ⟨turns', rfl⟩ : ∃ n, turns' = n + 1 := ⟨turns' - 1, by omega⟩
    cases stack with
    | nil => rfl
    | cons node stack =>
      obtain ⟨fresh, heq, hnodup, hfresh, -⟩ := @pushNew_eq α _ stack marked (next node) hmarked
      have hnode := Finset.mem_toList.mp (hsub (hstack List.mem_cons_self))
      have hsub' := marked_subset hclosed hnode hfresh hsub
      have hstack' : fresh ++ stack ⊆ fresh ++ marked := fun x hx =>
        List.mem_append.mpr ((List.mem_append.mp hx).imp_right fun hx =>
          hstack (List.mem_cons_of_mem _ hx))
      simp only [List.length_cons] at hturns
      rw [visit, visit, heq]
      dsimp only
      rw [ih hnodup hsub' hstack' (by simp only [List.length_append]; omega)
        (Nat.le_of_succ_le_succ hle) (nodes.length_toList ▸ (hnodup.subperm hsub').length_le)]

/-- A traversal from one node takes what the node reaches. -/
theorem mem_visit_iff {root : α} {turns : ℕ} (hroot : root ∈ nodes) (hturns : nodes.card ≤ turns)
    (x : α) : x ∈ visit next turns [root] [root] ↔
      ReflTransGen (fun a b => b ∈ next a) root x := by
  constructor
  · intro hx
    obtain ⟨y, hy, hpath⟩ := exists_of_mem_visit _ (List.nodup_singleton root) hx
    rwa [List.mem_singleton.mp hy] at hpath
  · intro hpath
    obtain ⟨htaken, hends⟩ := visit_closed hclosed turns (List.nodup_singleton root)
      (by simpa using hroot) (List.Subset.refl _) (Nat.add_le_add_right hturns 1)
      fun x hx hout => absurd hx hout
    have hmem : x ∈ [root] ∨ x ∈ visit next turns [root] [root] := by
      induction hpath with
      | refl => exact .inl List.mem_cons_self
      | tail _ hstep ih => exact hends _ ih _ hstep
    refine hmem.elim (fun hx => ?_) id
    exact List.mem_singleton.mp hx ▸ htaken root List.mem_cons_self

end

end
