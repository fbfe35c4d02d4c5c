import ArbitraryComposer.Model.Refinement

/-!
# Reference Counts Are Exact

In every run of a model the count of a slot is the number of edges to it from the nodes in the
arena plus the number of handles outside, and once the reclamation queue is drained what is in
the arena is what the handles reach.

## Main definitions

- `Model.externalRefs`: the handles outside the arena.

## Main results

- `counts_exact`: the counts and the live slots of every reachable model.
-/

namespace ArbitraryComposer

open Exec Arena

namespace Model

/-- The references held outside the arena. A version somebody is on (the current one, a pinned
one, the base of a transaction) holds one on its root, however many handles there are on it;
a transaction holds one on its working root, and the journal one on each record it names. -/
def externalRefs (s : Model) : Multiset (View × ℕ) :=
  (∑ v ∈ s.holders.toFinset, rootRefs (s.versionAt v).root) +
    (rootsRefs Transaction.root s.transactions + recordRefs s.journal.refs)

/-- The references of a list by position. -/
private theorem rootsRefs_eq_sum {α : Type} (root : α → Option ℕ) (l : List (Option α)) :
    rootsRefs root l =
      ∑ i ∈ Finset.range l.length, (l[i]?.join).elim 0 fun a => rootRefs (root a) := by
  induction l using List.reverseRecOn with
  | nil => rfl
  | append_singleton l o ih =>
    rw [rootsRefs_append, List.length_append, List.length_singleton, Finset.sum_range_succ, ih,
      add_comm]
    congr 1
    · refine Finset.sum_congr rfl fun i hi => ?_
      rw [List.getElem?_append_left (Finset.mem_range.mp hi)]
    · rw [List.getElem?_concat_length, Option.join_some]

/-- The versions that are there are the ones with a handle, so no other reference is held. -/
theorem Inv.heldRefs_eq_externalRefs {s : Model} (h : s.Inv) : s.heldRefs = s.externalRefs := by
  have hversion : ∀ v, (s.version? v).isSome = true ↔ v ∈ s.holders := fun v => by
    have hv := h.holders v
    rwa [or_iff_left List.not_mem_nil] at hv
  have hsum : rootsRefs DocRoot.root s.versions =
      ∑ v ∈ s.holders.toFinset, rootRefs (s.versionAt v).root := by
    rw [rootsRefs_eq_sum]
    symm
    refine (Finset.sum_congr rfl fun v hv => ?_).trans (Finset.sum_subset (fun v hv => ?_)
      fun v _ hv => ?_)
    · obtain ⟨d, hd⟩ := h.exists_version (List.mem_toFinset.mp hv)
      have hd' : s.versions[v]?.join = some d := hd
      rw [versionAt_eq hd, hd', Option.elim_some]
    · obtain ⟨d, hd⟩ := h.exists_version (List.mem_toFinset.mp hv)
      rw [version?, Option.join_eq_some_iff] at hd
      exact Finset.mem_range.mpr (List.getElem?_eq_some_iff.mp hd).1
    · have hnone : s.versions[v]?.join = none := by
        rw [List.mem_toFinset, ← hversion, Option.not_isSome_iff_eq_none] at hv
        exact hv
      rw [hnone, Option.elim_none]
  rw [heldRefs, externalRefs, hsum]

end Model

/-- Reference counts are exact. In every state reached, whatever was refused on the way: an
event stops only at one of the named assertions or at a call on something its caller does not
have, so no slot is used or released that is not live; the count of every slot in the arena is
the number of edges from the nodes there plus the number of references outside; every slot below
a high-water mark is in exactly one place; a drain returns with an empty queue; and when the
queue is empty, a slot is live exactly when a reference outside reaches it. -/
theorem counts_exact {s : Model} (h : docModel.Reachable Machine.anyEvent s) :
    (∀ e f, (exec e).run s = .fault f → Stops f ∨ f = .misuse) ∧
    (∀ slot ∈ s.arena.cells, s.arena.count slot =
      s.arena.graph.inDegree slot + (s.externalRefs.map s.arena.slot).count slot) ∧
    s.arena.Placed 0 ∧
    (∀ t, ∃ s', docModel.step (.drain t) s = some s' ∧ ∀ v, s'.arena.pending v = []) ∧
    ((∀ v, s.arena.pending v = []) → ∀ slot, slot ∈ s.arena.cells ↔
      s.arena.graph.Reachable (s.externalRefs.map s.arena.slot) slot) := by
  have hinv := Model.reachable_inv h
  have howned := hinv.owned
  rw [zero_add, hinv.heldRefs_eq_externalRefs] at howned
  refine ⟨fun e f hf => ?_, fun slot hslot => ?_, howned.placed, fun t => ?_,
    fun hdrained slot => howned.mem_iff_reachable hdrained⟩
  · have hspec := Model.exec_spec e hinv
    unfold Model.Runs wp at hspec
    rw [show exec e s = .fault f from hf] at hspec
    exact hspec
  · exact howned.sound.exact.count_eq slot (Finmap.mem_keys.mpr hslot)
  · have hspec := drain_spec (t := t) drainOrder (E := fun _ _ => False)
      (F := fun _ => False) howned
    unfold wp at hspec
    simp only [docModel, exec, run, onHeap, zoom]
    cases hrun : drain t drainOrder s.arena with
    | ok _ A =>
      rw [hrun] at hspec
      refine ⟨_, rfl, fun v => hspec.2.2 v ?_⟩
      cases v <;> simp [drainOrder]
    | error _ A =>
      rw [hrun] at hspec
      exact hspec.elim
    | fault f =>
      rw [hrun] at hspec
      exact hspec.elim

/-- A composition is committed and undone, and the queue is drained. -/
def sampleRun : List ModelEvent :=
  [.transact, .mutate 0 0 (.addComposition 1 1), .commit 0, .undo 0, .destroy 0, .drain 0]

theorem counts_exact_sampleRun : ∃ s, docModel.Reachable Machine.anyEvent s ∧
    s.arena.cells.keys.card = 1 ∧ ∀ slot, slot ∈ s.arena.cells ↔
      s.arena.graph.Reachable (s.externalRefs.map s.arena.slot) slot := by
  obtain ⟨s, hs, hp⟩ := Machine.exists_reachable Machine.anyEvent sampleRun
    (fun s : Model => s.arena.cells.keys.card == 1 && s.arena.pending .nodes == [] &&
      s.arena.pending .records == []) start_emptyModel (Machine.runAllowed_anyEvent _ _)
    (by decide +kernel)
  simp only [Bool.and_eq_true, beq_iff_eq] at hp
  refine ⟨s, hs, hp.1.1, (counts_exact hs).2.2.2.2 fun v => ?_⟩
  cases v
  · exact hp.1.2
  · exact hp.2

end ArbitraryComposer
