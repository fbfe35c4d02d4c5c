import Mathlib.Algebra.Order.BigOperators.Group.Finset
import Mathlib.Data.Finset.Max

/-!
# Reference-Counted Graphs

A finite directed multigraph whose nodes carry a stored count, as a reference-counting
allocator keeps it. The counts are exact when each one equals the number of edges into the node plus
the number of references to it that are held outside.

## Main definitions

- `RefGraph`: nodes, out-edges and stored counts.
- `RefGraph.inDegree`: the number of edges into a node.
- `RefGraph.Exact`: the stored counts are exact for the outside references `held`.
- `RefGraph.Ranked`: some rank decreases along every edge, so there is no cycle.
- `RefGraph.Reachable`: reachable from an outside reference.

## Main results

- `RefGraph.Exact.create`, `.retain`, `.release`, `.link`, `.remove`: counts stay exact.
- `RefGraph.Exact.mem_nodes_iff_reachable`: then nodes are reachable.
-/

/-- A finite graph with a stored count for every node. -/
structure RefGraph (A : Type) where
  /-- The nodes present. -/
  nodes : Finset A
  /-- The references stored in a node, with multiplicity. -/
  out : A → Multiset A
  /-- The stored count of a node. -/
  count : A → ℕ

namespace RefGraph

variable {A : Type} [DecidableEq A] {G : RefGraph A} {held : Multiset A} {a b : A}

/-- The number of edges into `a` from the nodes present. -/
def inDegree (G : RefGraph A) (a : A) : ℕ := ∑ b ∈ G.nodes, (G.out b).count a

/-- The stored counts are exact, and no reference dangles. -/
structure Exact (G : RefGraph A) (held : Multiset A) : Prop where
  /-- A stored reference names a node that is present. -/
  out_mem : ∀ b ∈ G.nodes, ∀ a ∈ G.out b, a ∈ G.nodes
  /-- An outside reference names a node that is present. -/
  held_mem : ∀ a ∈ held, a ∈ G.nodes
  /-- A count is the number of edges in plus the number of outside references. -/
  count_eq : ∀ a ∈ G.nodes, G.count a = G.inDegree a + held.count a

/-- Some rank decreases along every edge. -/
def Ranked (G : RefGraph A) : Prop :=
  ∃ rank : A → ℕ, ∀ a ∈ G.nodes, ∀ b ∈ G.out a, rank b < rank a

/-- `a` stores a reference to `b`. -/
def Edge (G : RefGraph A) (a b : A) : Prop := a ∈ G.nodes ∧ b ∈ G.out a

/-- Some outside reference leads to `a`. -/
def Reachable (G : RefGraph A) (held : Multiset A) (a : A) : Prop :=
  ∃ r ∈ held, Relation.ReflTransGen G.Edge r a

/-! ## Operations -/

/-- Add a node without out-edges, counted once. -/
def create (G : RefGraph A) (a : A) : RefGraph A where
  nodes := insert a G.nodes
  out := Function.update G.out a 0
  count := Function.update G.count a 1

/-- Set the stored count of a node. -/
def setCount (G : RefGraph A) (a : A) (n : ℕ) : RefGraph A :=
  { G with count := Function.update G.count a n }

/-- Store a reference to `b` in `a`. -/
def link (G : RefGraph A) (a b : A) : RefGraph A :=
  { G with out := Function.update G.out a (b ::ₘ G.out a) }

/-- Remove a node together with its out-edges. -/
def remove (G : RefGraph A) (a : A) : RefGraph A :=
  { G with nodes := G.nodes.erase a }

theorem inDegree_setCount (n : ℕ) : (G.setCount a n).inDegree b = G.inDegree b := rfl

theorem inDegree_create (ha : a ∉ G.nodes) : (G.create a).inDegree b = G.inDegree b := by
  unfold inDegree create
  rw [Finset.sum_insert ha]
  simp only [Function.update_self, Multiset.count_zero, zero_add]
  refine Finset.sum_congr rfl fun c hc => ?_
  rw [Function.update_of_ne (ne_of_mem_of_not_mem hc ha)]

theorem inDegree_link {c : A} (ha : a ∈ G.nodes) :
    (G.link a b).inDegree c = G.inDegree c + if c = b then 1 else 0 := by
  unfold inDegree link
  simp only
  rw [← Finset.add_sum_erase _ _ ha, ← Finset.add_sum_erase _ (fun x => (G.out x).count c) ha]
  have hrest : ∑ x ∈ G.nodes.erase a,
      (Function.update G.out a (b ::ₘ G.out a) x).count c =
      ∑ x ∈ G.nodes.erase a, (G.out x).count c := by
    refine Finset.sum_congr rfl fun x hx => ?_
    rw [Function.update_of_ne (Finset.ne_of_mem_erase hx)]
  rw [hrest, Function.update_self, Multiset.count_cons]
  omega

theorem inDegree_remove (ha : a ∈ G.nodes) :
    (G.remove a).inDegree b + (G.out a).count b = G.inDegree b := by
  unfold inDegree remove
  rw [← Finset.add_sum_erase _ _ ha]
  exact Nat.add_comm _ _

/-! ## Exactness under each operation -/

namespace Exact

/-- Exactness only depends on what is stored in the nodes present. -/
theorem congr {G' : RefGraph A} (h : G.Exact held) (hn : G'.nodes = G.nodes)
    (ho : ∀ a ∈ G.nodes, G'.out a = G.out a) (hc : ∀ a ∈ G.nodes, G'.count a = G.count a) :
    G'.Exact held where
  out_mem b hb a ha := by
    rw [hn] at hb ⊢
    exact h.out_mem b hb a (ho b hb ▸ ha)
  held_mem a ha := hn ▸ h.held_mem a ha
  count_eq a ha := by
    rw [hn] at ha
    have hdeg : G'.inDegree a = G.inDegree a := by
      unfold inDegree
      rw [hn]
      exact Finset.sum_congr rfl fun b hb => by rw [ho b hb]
    rw [hc a ha, h.count_eq a ha, hdeg]

/-- A node nothing stores and nobody holds has count zero, and conversely. -/
theorem count_eq_zero_iff (h : G.Exact held) (ha : a ∈ G.nodes) :
    G.count a = 0 ↔ (∀ b ∈ G.nodes, a ∉ G.out b) ∧ a ∉ held := by
  rw [h.count_eq a ha, Nat.add_eq_zero_iff, Multiset.count_eq_zero]
  simp only [inDegree, Finset.sum_eq_zero_iff, Multiset.count_eq_zero]

/-- What is reachable is counted. -/
theorem count_ne_zero (h : G.Exact held) (hr : G.Reachable held a) : G.count a ≠ 0 := by
  obtain ⟨b, hb, hpath⟩ := hr
  intro h0
  rcases hpath.cases_tail with rfl | ⟨c, -, hc, hout⟩
  · exact ((h.count_eq_zero_iff (h.held_mem _ hb)).mp h0).2 hb
  · exact ((h.count_eq_zero_iff (h.out_mem c hc _ hout)).mp h0).1 c hc hout

/-- A held node is counted. -/
theorem count_pos (h : G.Exact (a ::ₘ held)) : 0 < G.count a := by
  have ha := h.held_mem a (Multiset.mem_cons_self a held)
  rw [h.count_eq a ha, Multiset.count_cons_self]
  omega

/-- Creating a node hands out the one reference to it. -/
theorem create (h : G.Exact held) (ha : a ∉ G.nodes) : (G.create a).Exact (a ::ₘ held) where
  out_mem := by
    intro b hb c hc
    by_cases hba : b = a
    · subst hba
      simp [RefGraph.create] at hc
    · simp only [RefGraph.create, Finset.mem_insert, hba, false_or] at hb
      simp only [RefGraph.create, Function.update_of_ne hba] at hc
      exact Finset.mem_insert_of_mem (h.out_mem b hb c hc)
  held_mem := by
    intro c hc
    rcases Multiset.mem_cons.mp hc with rfl | hc
    · exact Finset.mem_insert_self c G.nodes
    · exact Finset.mem_insert_of_mem (h.held_mem c hc)
  count_eq := by
    intro c hc
    rw [inDegree_create ha]
    by_cases hca : c = a
    · subst hca
      have hin : G.inDegree c = 0 :=
        Finset.sum_eq_zero fun b hb =>
          Multiset.count_eq_zero.mpr fun hc' => ha (h.out_mem b hb c hc')
      have hheld : held.count c = 0 :=
        Multiset.count_eq_zero.mpr fun hc' => ha (h.held_mem c hc')
      simp [RefGraph.create, hin, hheld]
    · simp only [RefGraph.create, Finset.mem_insert, hca, false_or] at hc
      simp only [RefGraph.create, Function.update_of_ne hca, Multiset.count_cons_of_ne hca]
      exact h.count_eq c hc

/-- Taking a count hands out one more reference. -/
theorem retain (h : G.Exact held) (ha : a ∈ G.nodes) :
    (G.setCount a (G.count a + 1)).Exact (a ::ₘ held) where
  out_mem := h.out_mem
  held_mem := by
    intro c hc
    rcases Multiset.mem_cons.mp hc with rfl | hc
    · exact ha
    · exact h.held_mem c hc
  count_eq := by
    intro c hc
    rw [inDegree_setCount, Multiset.count_cons]
    by_cases hca : c = a
    · subst hca
      simp [setCount, h.count_eq c hc]
      omega
    · simp [setCount, hca, h.count_eq c hc]

/-- Giving a count back consumes a reference. -/
theorem release (h : G.Exact (a ::ₘ held)) :
    (G.setCount a (G.count a - 1)).Exact held where
  out_mem := h.out_mem
  held_mem := fun c hc => h.held_mem c (Multiset.mem_cons_of_mem hc)
  count_eq := by
    intro c hc
    have hcount := h.count_eq c hc
    rw [inDegree_setCount]
    by_cases hca : c = a
    · subst hca
      rw [Multiset.count_cons_self] at hcount
      simp only [setCount, Function.update_self]
      omega
    · rw [Multiset.count_cons_of_ne hca] at hcount
      simpa only [setCount, Function.update_of_ne hca] using hcount

/-- Storing a held reference in a node moves it from outside into the graph. -/
theorem link (h : G.Exact (b ::ₘ held)) (ha : a ∈ G.nodes) : (G.link a b).Exact held where
  out_mem := by
    intro c hc d hd
    by_cases hca : c = a
    · subst hca
      simp only [RefGraph.link, Function.update_self, Multiset.mem_cons] at hd
      rcases hd with rfl | hd
      · exact h.held_mem d (Multiset.mem_cons_self d held)
      · exact h.out_mem c hc d hd
    · simp only [RefGraph.link, Function.update_of_ne hca] at hd
      exact h.out_mem c hc d hd
  held_mem := fun c hc => h.held_mem c (Multiset.mem_cons_of_mem hc)
  count_eq := by
    intro c hc
    have hcount := h.count_eq c hc
    rw [inDegree_link ha]
    rw [Multiset.count_cons] at hcount
    change G.count c = _
    omega

/-- Removing a node nothing refers to turns the references it stored into outside ones. -/
theorem remove (h : G.Exact held) (ha : a ∈ G.nodes) (h0 : G.count a = 0) :
    (G.remove a).Exact (G.out a + held) := by
  obtain ⟨hin, hheld⟩ := (h.count_eq_zero_iff ha).mp h0
  refine ⟨?_, ?_, ?_⟩
  · intro b hb c hc
    have hb' := Finset.mem_of_mem_erase hb
    exact Finset.mem_erase.mpr
      ⟨fun hca => hin b hb' (by rwa [← hca]), h.out_mem b hb' c hc⟩
  · intro c hc
    rcases Multiset.mem_add.mp hc with hc | hc
    · exact Finset.mem_erase.mpr ⟨fun hca => hin a ha (hca ▸ hc), h.out_mem a ha c hc⟩
    · exact Finset.mem_erase.mpr ⟨fun hca => hheld (hca ▸ hc), h.held_mem c hc⟩
  · intro c hc
    have hcount := h.count_eq c (Finset.mem_of_mem_erase hc)
    have hdeg := inDegree_remove (b := c) ha
    rw [Multiset.count_add]
    change G.count c = _
    omega

/-- When nothing waits for reclamation, the nodes present are the reachable ones. -/
theorem mem_nodes_iff_reachable (h : G.Exact held) (hr : G.Ranked)
    (hpos : ∀ a ∈ G.nodes, G.count a ≠ 0) : a ∈ G.nodes ↔ G.Reachable held a := by
  constructor
  · obtain ⟨rank, hrank⟩ := hr
    by_contra hcon
    push Not at hcon
    obtain ⟨ha, hna⟩ := hcon
    -- among the unreachable nodes take one of largest rank: its parent is unreachable too
    classical
    let lost := G.nodes.filter fun c => ¬ G.Reachable held c
    have hlost : lost.Nonempty := ⟨a, Finset.mem_filter.mpr ⟨ha, hna⟩⟩
    obtain ⟨c, hc, hmax⟩ := lost.exists_max_image rank hlost
    obtain ⟨hcn, hcr⟩ := Finset.mem_filter.mp hc
    have hparent : ∃ b ∈ G.nodes, c ∈ G.out b := by
      by_contra hno
      push Not at hno
      refine hpos c hcn ((h.count_eq_zero_iff hcn).mpr ⟨hno, fun hheld => hcr ?_⟩)
      exact ⟨c, hheld, Relation.ReflTransGen.refl⟩
    obtain ⟨b, hb, hcb⟩ := hparent
    have hbr : ¬ G.Reachable held b := fun ⟨r, hr, hrb⟩ => hcr ⟨r, hr, hrb.tail ⟨hb, hcb⟩⟩
    have hle := hmax b (Finset.mem_filter.mpr ⟨hb, hbr⟩)
    have hlt := hrank b hb c hcb
    omega
  · rintro ⟨r, hr, hra⟩
    induction hra with
    | refl => exact h.held_mem r hr
    | tail _ hstep _ => exact h.out_mem _ hstep.1 _ hstep.2

end Exact

/-! ## Ranks -/

omit [DecidableEq A] in
theorem Ranked.congr {G' : RefGraph A} (h : G.Ranked) (hn : G'.nodes ⊆ G.nodes)
    (ho : ∀ a ∈ G'.nodes, G'.out a = G.out a) : G'.Ranked := by
  obtain ⟨rank, hrank⟩ := h
  exact ⟨rank, fun a ha b hb => hrank a (hn ha) b (ho a ha ▸ hb)⟩

theorem Ranked.create (h : G.Ranked) (ha : a ∉ G.nodes) : (G.create a).Ranked := by
  obtain ⟨rank, hrank⟩ := h
  refine ⟨rank, fun b hb c hc => ?_⟩
  by_cases hba : b = a
  · subst hba
    simp [RefGraph.create] at hc
  · simp only [RefGraph.create, Finset.mem_insert, hba, false_or] at hb
    simp only [RefGraph.create, Function.update_of_ne hba] at hc
    exact hrank b hb c hc

/-- A node nothing refers to may store a reference to any other node. -/
theorem Ranked.link (h : G.Ranked) (hab : b ≠ a) (hin : ∀ c ∈ G.nodes, a ∉ G.out c) :
    (G.link a b).Ranked := by
  obtain ⟨rank, hrank⟩ := h
  refine ⟨Function.update rank a (max (rank a) (rank b + 1)), fun c hc d hd => ?_⟩
  by_cases hca : c = a
  · subst hca
    simp only [RefGraph.link, Function.update_self, Multiset.mem_cons] at hd
    rw [Function.update_self]
    rcases hd with rfl | hd
    · rw [Function.update_of_ne hab]
      omega
    · have hdc : d ≠ c := fun heq => hin c hc (heq ▸ hd)
      have := hrank c hc d hd
      rw [Function.update_of_ne hdc]
      omega
  · simp only [RefGraph.link, Function.update_of_ne hca] at hd
    have hda : d ≠ a := fun heq => hin c hc (heq ▸ hd)
    rw [Function.update_of_ne hca, Function.update_of_ne hda]
    exact hrank c hc d hd

theorem Ranked.remove (h : G.Ranked) : (G.remove a).Ranked := by
  obtain ⟨rank, hrank⟩ := h
  exact ⟨rank, fun b hb => hrank b (Finset.mem_of_mem_erase hb)⟩

end RefGraph
