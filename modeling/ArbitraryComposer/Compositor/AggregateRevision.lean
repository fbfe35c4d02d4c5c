import ArbitraryComposer.ToMathlib.Worklist
import Mathlib.Algebra.BigOperators.Group.Finset.Basic
import Mathlib.Data.List.ReduceOption
import Mathlib.Data.UInt

/-!
# Aggregate Revisions

What an operator shows depends on all contents it reaches through its inputs, so it is cached under
a revision that sums over them. Each contribution is mixed before it is summed.

## Main definitions

- `mix64`: the mixer.
- `isOperator`, `aggregateRevision`: the sum over the contents that an operator reaches.

- `Reaches`: the contents that a content reaches through its inputs.
- `SummedOnce`: what the sum is and what it depends on.

## Main results

- `aggregateRevision_eq`: each content that is reached is summed once.
- `aggregateRevision_summedOnce`: the sum depends on each content reached, and on nothing else.
-/

namespace ArbitraryComposer

/-- `mix64`. -/
def mix64 (x : UInt64) : UInt64 :=
  let x := x ^^^ (x >>> (30 : UInt64))
  let x := x * 0xBF58476D1CE4E5B9
  let x := x ^^^ (x >>> (27 : UInt64))
  let x := x * 0x94D049BB133111EB
  x ^^^ (x >>> (31 : UInt64))

section

variable {κ : Type*}

/-- `is_operator`: the content has inputs, bound or not. -/
def isOperator (inputs : κ → List (Option κ)) (content : κ) : Bool := !(inputs content).isEmpty

variable [DecidableEq κ] [Fintype κ]

/-- `aggregate_revision`. -/
def aggregateRevision (inputs : κ → List (Option κ)) (contribution : κ → UInt64)
    (root : Option κ) : UInt64 :=
  match root with
  | none => 0
  | some root =>
    (visit (fun node => (inputs node).reduceOption) (Fintype.card κ) [root] [root]).foldl
      (fun acc node => acc + mix64 (contribution node)) 0

/-- The sum is over the contents that the root reaches, each of them once. -/
theorem aggregateRevision_eq (inputs : κ → List (Option κ)) (contribution : κ → UInt64) (root : κ) :
    ∃ order : List κ, order.Nodup ∧
      (∀ x, x ∈ order ↔ Relation.ReflTransGen (fun a b => some b ∈ inputs a) root x) ∧
      aggregateRevision inputs contribution (some root) =
        order.foldl (fun acc node => acc + mix64 (contribution node)) 0 := by
  refine ⟨_, (nodup_visit _ (List.nodup_singleton root) (List.nodup_singleton root)
    fun _ => id).1, fun x => ?_, rfl⟩
  refine (mem_visit_iff (fun _ _ _ _ => Finset.mem_univ _) (Finset.mem_univ root) le_rfl x).trans ?_
  simp only [List.reduceOption_mem_iff]

/-- A content is reached from another through inputs. -/
def Reaches (inputs : κ → List (Option κ)) : κ → κ → Prop :=
  Relation.ReflTransGen fun a b => some b ∈ inputs a

omit [Fintype κ] in
/-- The order in which contents are summed does not matter. -/
private theorem foldl_mix64 (contribution : κ → UInt64) {order : List κ} (hnodup : order.Nodup) :
    order.foldl (fun acc node => acc + mix64 (contribution node)) 0 =
      ∑ x ∈ order.toFinset, mix64 (contribution x) := by
  rw [List.sum_toFinset _ hnodup, List.sum_eq_foldl, List.foldl_map]

/-- The sum over the contents that are reached. -/
theorem aggregateRevision_eq_sum (inputs : κ → List (Option κ)) (contribution : κ → UInt64)
    (root : κ) {reached : Finset κ} (hreached : ∀ x, x ∈ reached ↔ Reaches inputs root x) :
    aggregateRevision inputs contribution (some root) =
      ∑ x ∈ reached, mix64 (contribution x) := by
  obtain ⟨order, hnodup, horder, hsum⟩ := aggregateRevision_eq inputs contribution root
  have hset : order.toFinset = reached := by
    ext x
    rw [List.mem_toFinset, horder, hreached]
    rfl
  rw [hsum, foldl_mix64 contribution hnodup, hset]

/-- What `aggregate_revision` of a content is and what it depends on. -/
structure SummedOnce (inputs : κ → List (Option κ)) (contribution : κ → UInt64) (root : κ) :
    Prop where
  /-- The stack is empty after as many turns as there are contents. -/
  ends : ∀ turns, Fintype.card κ ≤ turns →
    visit (fun node => (inputs node).reduceOption) turns [root] [root] =
      visit (fun node => (inputs node).reduceOption) (Fintype.card κ) [root] [root]
  /-- Every content that is reached is summed once. -/
  sum : ∃ reached : Finset κ, (∀ x, x ∈ reached ↔ Reaches inputs root x) ∧
    aggregateRevision inputs contribution (some root) = ∑ x ∈ reached, mix64 (contribution x)
  /-- The order of the inputs, slots without a content and repeated inputs do not matter. -/
  edges : ∀ inputs' : κ → List (Option κ), (∀ a b, some b ∈ inputs' a ↔ some b ∈ inputs a) →
    aggregateRevision inputs' contribution (some root) =
      aggregateRevision inputs contribution (some root)
  /-- Another mixed contribution of one content that is reached is another sum. -/
  sensitive : ∀ x stamp, Reaches inputs root x → mix64 stamp ≠ mix64 (contribution x) →
    aggregateRevision inputs (Function.update contribution x stamp) (some root) ≠
      aggregateRevision inputs contribution (some root)

/-- The aggregate revision sums each content that is reached once. -/
theorem aggregateRevision_summedOnce (inputs : κ → List (Option κ)) (contribution : κ → UInt64)
    (root : κ) : SummedOnce inputs contribution root := by
  obtain ⟨order, hnodup, horder, -⟩ := aggregateRevision_eq inputs contribution root
  have hreached : ∀ x, x ∈ order.toFinset ↔ Reaches inputs root x := fun x => by
    rw [List.mem_toFinset, horder]
    rfl
  refine ⟨fun turns hturns => ?_, ⟨order.toFinset, hreached,
    aggregateRevision_eq_sum inputs contribution root hreached⟩, fun inputs' hedges => ?_,
    fun x stamp hx hne heq => ?_⟩
  · exact visit_of_le (fun _ _ _ _ => Finset.mem_univ _) (List.nodup_singleton root) (by simp)
      (List.Subset.refl _) le_rfl hturns
  · have hsame : Reaches inputs' = Reaches inputs := by
      have hrel : (fun a b => some b ∈ inputs' a) = fun a b => some b ∈ inputs a := by
        ext a b
        exact hedges a b
      rw [Reaches, Reaches, hrel]
    rw [aggregateRevision_eq_sum inputs contribution root hreached]
    apply aggregateRevision_eq_sum
    rwa [hsame]
  · -- all other contributions cancel
    have hmem : x ∈ order.toFinset := (hreached x).mpr hx
    rw [aggregateRevision_eq_sum inputs _ root hreached,
      aggregateRevision_eq_sum inputs contribution root hreached,
      ← Finset.add_sum_erase _ _ hmem,
      ← Finset.add_sum_erase _ (fun x => mix64 (contribution x)) hmem] at heq
    have hrest : ∑ y ∈ order.toFinset.erase x, mix64 (Function.update contribution x stamp y) =
        ∑ y ∈ order.toFinset.erase x, mix64 (contribution y) := by
      apply Finset.sum_congr rfl
      intro y hy
      rw [Function.update_of_ne (Finset.ne_of_mem_erase hy)]
    rw [hrest, Function.update_self] at heq
    exact hne (add_right_cancel heq)

end

end ArbitraryComposer
