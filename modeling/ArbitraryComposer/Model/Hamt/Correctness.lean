import ArbitraryComposer.Model.Hamt.Nodes

/-!
# The Persistent Map Is a Finite Map

A node slot represents a trie, and the operations of the map change one binding of it. They
only add nodes and move counts, so whatever another root represents stays represented.

## Main definitions

- `Represents`, `RepresentsRoot`: the trie below a slot, and the one below a root.
- `Built`, `Undone`: the two exits of an operation.

## Main results

- `hamtInsert_spec`, `hamtErase_spec`: one binding changes, and on an error nothing does.
- `hamtLookup_spec`, `leafWalk_spec`: what the readers return.
- `RepresentsRoot.extends`, `.preserves`: a held root represents what it represented.
-/

set_option linter.unusedSectionVars false

namespace ArbitraryComposer

open Exec Arena SlabType

/-- The tries of document versions: ids to record slots. -/
abbrev DocTrie : Type := Trie hamtArity ObjectId ℕ

/-- The trie below a node slot. -/
def Represents (A : Heap) : ℕ → DocTrie → Prop
  | _, .empty => False
  | i, .leaf k r => ∃ n, A.cells.lookup (A.slot (.nodes, i)) = some (.node n) ∧
      n.isLeaf = true ∧ n.key = k ∧ n.record = r
  | i, .branch child => ∃ n, A.cells.lookup (A.slot (.nodes, i)) = some (.node n) ∧
      n.isLeaf = false ∧
      ∀ d, (∃ c, n.child? d = some c ∧ Represents A c (child d)) ∨
        n.child? d = none ∧ child d = .empty

/-- The trie below a root; no root is the empty map. -/
def RepresentsRoot (A : Heap) (root : Option ℕ) (tr : DocTrie) : Prop :=
  match root with
  | none => tr = .empty
  | some i => Represents A i tr

/-- A node was built that the caller holds, and the trie below it satisfies `P`. -/
def Built (A : Heap) (held : Multiset (View × ℕ)) (P : DocTrie → Prop) (i : ℕ) (A' : Heap) :
    Prop :=
  A'.Owned ((.nodes, i) ::ₘ held) ∧ A.Extends A' ∧ ∃ tr, Represents A' i tr ∧ P tr

/-- A root was built that the caller holds. -/
def BuiltRoot (A : Heap) (held : Multiset (View × ℕ)) (P : DocTrie → Prop) (root : Option ℕ)
    (A' : Heap) : Prop :=
  A'.Owned (Multiset.ofList (root.toList.map fun i => (View.nodes, i)) + held) ∧ A.Extends A' ∧
    ∃ tr, RepresentsRoot A' root tr ∧ P tr

/-- Nothing the caller holds has changed. -/
def Undone (A : Heap) (held : Multiset (View × ℕ)) (_ : PoolError) (A' : Heap) : Prop :=
  A'.Owned held ∧ A.Extends A'

section

variable {A A₁ A' : Heap} {held : Multiset (View × ℕ)} {i t : ℕ} {n : HamtNode}
  {tr : DocTrie} {root : Option ℕ} {F : Fault → Prop} {key : ObjectId} {record : ℕ}

/-! ## What a slot represents -/

theorem Represents.lookup (h : Represents A i tr) :
    ∃ n, A.cells.lookup (A.slot (.nodes, i)) = some (.node n) := by
  cases tr with
  | empty => exact h.elim
  | leaf k r => exact ⟨_, h.choose_spec.1⟩
  | branch child => exact ⟨_, h.choose_spec.1⟩

/-- A slot that holds a leaf represents that leaf. -/
theorem Represents.of_isLeaf (h : Represents A i tr)
    (hl : A.cells.lookup (A.slot (.nodes, i)) = some (.node n)) (hleaf : n.isLeaf = true) :
    tr = .leaf n.key n.record := by
  cases tr with
  | empty => exact h.elim
  | leaf k r =>
    obtain ⟨n', hl', -, rfl, rfl⟩ := h
    rw [hl] at hl'
    cases hl'
    rfl
  | branch child =>
    obtain ⟨n', hl', hleaf', -⟩ := h
    rw [hl] at hl'
    cases hl'
    rw [hleaf] at hleaf'
    cases hleaf'

/-- A slot that holds a branch represents a branch over what its children represent. -/
theorem Represents.of_isBranch (h : Represents A i tr)
    (hl : A.cells.lookup (A.slot (.nodes, i)) = some (.node n)) (hleaf : n.isLeaf = false) :
    ∃ child, tr = .branch child ∧ ∀ d, RepresentsRoot A (n.child? d) (child d) := by
  cases tr with
  | empty => exact h.elim
  | leaf k r =>
    obtain ⟨n', hl', hleaf', -⟩ := h
    rw [hl] at hl'
    cases hl'
    rw [hleaf] at hleaf'
    cases hleaf'
  | branch child =>
    obtain ⟨n', hl', -, hchild⟩ := h
    rw [hl] at hl'
    cases hl'
    refine ⟨child, rfl, fun d => ?_⟩
    rcases hchild d with ⟨c, hc, hrep⟩ | ⟨hc, hempty⟩
    · rw [hc]
      exact hrep
    · rw [hc]
      exact hempty

theorem represents_leaf (hl : A.cells.lookup (A.slot (.nodes, i)) = some (.node n))
    (hleaf : n.isLeaf = true) : Represents A i (.leaf n.key n.record) :=
  ⟨n, hl, hleaf, rfl, rfl⟩

theorem represents_branch {child : Fin hamtArity → DocTrie}
    (hl : A.cells.lookup (A.slot (.nodes, i)) = some (.node n)) (hleaf : n.isLeaf = false)
    (hchild : ∀ d, RepresentsRoot A (n.child? d) (child d)) : Represents A i (.branch child) := by
  refine ⟨n, hl, hleaf, fun d => ?_⟩
  have h := hchild d
  cases hc : n.child? d with
  | none =>
    rw [hc] at h
    exact Or.inr ⟨rfl, h⟩
  | some c =>
    rw [hc] at h
    exact Or.inl ⟨c, rfl, h⟩

/-- Adding objects changes nothing below a slot. -/
theorem Represents.extends (h : Represents A i tr) (hext : A.Extends A') :
    Represents A' i tr := by
  induction tr generalizing i with
  | empty => exact h
  | leaf k r =>
    obtain ⟨n, hl, hrest⟩ := h
    exact ⟨n, by rw [hext.slot_eq]; exact hext.lookup_eq _ _ hl, hrest⟩
  | branch child ih =>
    obtain ⟨n, hl, hleaf, hchild⟩ := h
    refine ⟨n, by rw [hext.slot_eq]; exact hext.lookup_eq _ _ hl, hleaf, fun d => ?_⟩
    rcases hchild d with ⟨c, hc, hrep⟩ | hnone
    · exact Or.inl ⟨c, hc, ih d hrep⟩
    · exact Or.inr hnone

theorem RepresentsRoot.extends (h : RepresentsRoot A root tr) (hext : A.Extends A') :
    RepresentsRoot A' root tr := by
  cases root with
  | none => exact h
  | some i => exact Represents.extends h hext

/-- A drain changes nothing below a slot that a held reference reaches. -/
theorem Represents.preserves (h : Represents A i tr) (hp : A.Preserves held A')
    (hr : A.graph.Reachable (held.map A.slot) (A.slot (.nodes, i))) : Represents A' i tr := by
  have hslot : ∀ r : View × ℕ, A'.slot r = A.slot r := fun r => by
    rw [slot, hp.storeOf_eq, slot]
  induction tr generalizing i with
  | empty => exact h
  | leaf k r =>
    obtain ⟨n, hl, hrest⟩ := h
    exact ⟨n, by rw [hslot, hp.lookup_eq _ hr]; exact hl, hrest⟩
  | branch child ih =>
    obtain ⟨n, hl, hleaf, hchild⟩ := h
    refine ⟨n, by rw [hslot, hp.lookup_eq _ hr]; exact hl, hleaf, fun d => ?_⟩
    rcases hchild d with ⟨c, hc, hrep⟩ | hnone
    · refine Or.inl ⟨c, hc, ih d hrep ?_⟩
      obtain ⟨top, htop, hpath⟩ := hr
      refine ⟨top, htop, hpath.tail ⟨Finmap.mem_keys.mpr (Finmap.mem_of_lookup_eq_some hl), ?_⟩⟩
      change A.slot (.nodes, c) ∈
        (((A.cells.lookup (A.slot (.nodes, i))).elim [] edges).map A.slot : List (ℕ × ℕ))
      rw [hl]
      exact List.mem_map_of_mem (HamtNode.mem_edges hleaf hc)
    · exact Or.inr hnone

theorem RepresentsRoot.preserves (h : RepresentsRoot A root tr) (hp : A.Preserves held A')
    (hr : ∀ i ∈ root, (View.nodes, i) ∈ held) : RepresentsRoot A' root tr := by
  cases root with
  | none => exact h
  | some i =>
    exact Represents.preserves h hp
      ⟨_, Multiset.mem_map_of_mem A.slot (hr i rfl), Relation.ReflTransGen.refl⟩

/-! ## Insertion -/

/-- A child the caller holds becomes a child of a new branch and is dropped. -/
theorem graft_spec {base : Option HamtNode} {d : Fin hamtArity} {c : ℕ}
    (h : A.Owned ((.nodes, c) ::ₘ held))
    (hlive : ∀ n ∈ base, ∀ e c', n.child? e = some c' → A.Live held (.nodes, c')) :
    wp (ensuring (branchWithChild t base d c) (release (.nodes, c)))
      (fun i A' => A'.Owned ((.nodes, i) ::ₘ held) ∧ A.Extends A' ∧
        ∃ n, A'.cells.lookup (A'.slot (.nodes, i)) = some (.node n) ∧ n.isLeaf = false ∧
          ∀ e, n.child? e = if e = d then some c else base.bind (·.child? e))
      (Undone A held) F A := by
  have hlive' : ∀ n ∈ base, ∀ e c', n.child? e = some c' →
      A.Live ((.nodes, c) ::ₘ held) (.nodes, c') := fun n hn e c' hc =>
    (hlive n hn e c' hc).extends .refl (Multiset.subset_cons _ _)
  rw [wp_ensuring]
  refine wp_imp (branchWithChild_spec h (Multiset.mem_cons_self _ _) hlive')
    (fun i A₁ hA₁ => ?_) fun _ A₁ hA₁ => ?_
  · obtain ⟨n, b, hleaf, hchild⟩ := hA₁
    have howned : A₁.Owned ((.nodes, c) ::ₘ (.nodes, i) ::ₘ held) := by
      rw [Multiset.cons_swap]
      exact b.owned
    refine wp_imp (release_owned howned) (fun _ A₂ hA₂ => ?_) fun _ _ hE => hE
    obtain ⟨howned₂, hsame, -⟩ := hA₂
    refine ⟨howned₂, b.ext.trans hsame.extends, n, ?_, hleaf, hchild⟩
    rw [hsame.slot_eq, hsame.cells_eq]
    exact b.lookup
  · obtain ⟨howned, hext⟩ := hA₁
    exact wp_imp (release_owned howned)
      (fun _ A₂ hA₂ => ⟨hA₂.1, hext.trans hA₂.2.1.extends⟩) fun _ _ hE => hE

/-- A node is live when a held reference or a live parent names it. -/
theorem live_child {d : Fin hamtArity} {c : ℕ}
    (hl : A.cells.lookup (A.slot (.nodes, i)) = some (.node n)) (hleaf : n.isLeaf = false)
    (hc : n.child? d = some c) : A.Live held (.nodes, c) :=
  Or.inr ⟨_, _, hl, HamtNode.mem_edges hleaf hc⟩

/-- `split` builds the branches that tell two keys apart. -/
theorem split_spec {k' : ObjectId} {r' : ℕ} (hr : (View.records, record) ∈ held) (hne : k' ≠ key) :
    ∀ {fuel l : ℕ} {A : Heap}, A.Owned held → A.Live held (.nodes, i) →
      Represents A i (.leaf k' r') → (∀ j < l, hamtDigit k' j = hamtDigit key j) →
      l + fuel = hamtMaxDepth + 1 →
      wp (split t i k' key record fuel l)
        (Built A held fun tr => tr = Trie.splitAt hamtDigit k' r' key record fuel l)
        (Undone A held) F A := by
  -- keys that agree at every level would be equal
  have hlevel : ∀ {l : ℕ}, (∀ j < l, hamtDigit k' j = hamtDigit key j) → l < hamtMaxDepth := by
    intro l hagree
    by_contra hl
    exact hne (hamtDigit_injective fun j hj => hagree j (by omega))
  intro fuel
  induction fuel with
  | zero =>
    intro l A _ _ _ hagree hfuel
    have := hlevel hagree
    omega
  | succ fuel ih =>
    intro l A h hlive hrep hagree hfuel
    have hl := hlevel hagree
    simp only [split]
    refine wp_ite (fun hd => ?_) fun hd => ?_
    · -- still the same digit: one more level below a branch with a single child
      rw [wp_bind]
      have hagree' : ∀ j < l + 1, hamtDigit k' j = hamtDigit key j := fun j hj => by
        rcases Nat.lt_succ_iff_lt_or_eq.mp hj with hj | rfl
        · exact hagree j hj
        · exact hd
      refine wp_imp (ih h hlive hrep hagree' (by omega)) (fun inner A₁ hA₁ => ?_) fun _ _ hE => hE
      obtain ⟨howned, hext, tr, htr, rfl⟩ := hA₁
      refine wp_imp (graft_spec howned (fun _ hn => absurd hn (by simp))) (fun j A₂ hA₂ => ?_)
        fun _ _ hE => ⟨hE.1, hext.trans hE.2⟩
      obtain ⟨howned₂, hext₂, n, hln, hleaf, hchild⟩ := hA₂
      refine ⟨howned₂, hext.trans hext₂, _, represents_branch hln hleaf (fun e => ?_),
        by rw [Trie.splitAt, if_pos hd]⟩
      rw [hchild, hd]
      by_cases he : e = hamtDigit key l
      · subst he
        rw [if_pos rfl, Function.update_self]
        exact htr.extends hext₂
      · rw [if_neg he, Function.update_of_ne he]
        rfl
    · -- the digits differ: a branch with both leaves
      rw [wp_bind]
      refine wp_imp (makeLeaf_spec h hr) (fun leaf A₁ b₁ => ?_) fun _ _ hE => hE
      rw [wp_ensuring]
      have hleafrep : Represents A₁ leaf (.leaf key record) := represents_leaf b₁.lookup rfl
      refine wp_mono (P := fun branch A₂ => ∃ n, Building A₁ A₂ ((.nodes, leaf) ::ₘ held)
        branch n ∧ n.isLeaf = false ∧ ∀ e, n.child? e = if e = hamtDigit k' l then some i else
          if e = hamtDigit key l then some leaf else none)
        (D := Undone A₁ ((.nodes, leaf) ::ₘ held)) (G := F) ?_
        (fun branch A₂ hA₂ => ?_) (fun _ A₂ hA₂ => ?_) fun _ hF => hF
      · rw [wp_bind]
        refine wp_imp (branchWithChild_spec b₁.owned (Multiset.mem_cons_self _ _)
          (fun _ hn => absurd hn (by simp))) (fun branch A₂ hA₂ => ?_) fun _ _ hE => hE
        obtain ⟨n, b₂, hleaf, hchild⟩ := hA₂
        have hnone : n.child? (hamtDigit k' l) = none := by
          rw [hchild, if_neg hd]
          rfl
        have hlive₁ : A₁.Live ((.nodes, leaf) ::ₘ held) (.nodes, i) :=
          hlive.extends b₁.ext (Multiset.subset_cons _ _)
        rw [wp_onError, wp_bind]
        refine wp_imp (b₂.adopt b₁.owned hlive₁ (HamtNode.edges_setChild_setBit hleaf hnone))
          (fun _ A₃ b₃ => ⟨_, b₃, hleaf, fun e => ?_⟩) fun _ A₃ hE => ?_
        · rw [HamtNode.child?_setBit, HamtNode.child?_setChild hnone, hchild]
          by_cases he : e = hamtDigit k' l
          · rw [if_pos he, if_pos he]
            simp [HamtNode.setChild]
          · rw [if_neg he, if_neg he]
            rfl
        · subst hE
          exact wp_imp b₂.discard (fun _ _ hA => hA) fun _ _ hE => hE
      · obtain ⟨n, b₂, hleaf, hchild⟩ := hA₂
        have howned : A₂.Owned ((.nodes, leaf) ::ₘ (.nodes, branch) ::ₘ held) := by
          rw [Multiset.cons_swap]
          exact b₂.owned
        refine wp_imp (release_owned howned) (fun _ A₃ hA₃ => ?_) fun _ _ hE => hE
        obtain ⟨howned₃, hsame, -⟩ := hA₃
        have hext : A₁.Extends A₃ := b₂.ext.trans hsame.extends
        have hln : A₃.cells.lookup (A₃.slot (.nodes, branch)) = some (.node n) := by
          rw [hsame.slot_eq, hsame.cells_eq]
          exact b₂.lookup
        refine ⟨howned₃, b₁.ext.trans hext, _, represents_branch hln hleaf (fun e => ?_),
          by rw [Trie.splitAt, if_neg hd]⟩
        rw [hchild]
        by_cases he : e = hamtDigit k' l
        · rw [if_pos he, he, Function.update_self]
          exact hrep.extends (b₁.ext.trans hext)
        · rw [if_neg he, Function.update_of_ne he]
          by_cases he' : e = hamtDigit key l
          · rw [if_pos he', he', Function.update_self]
            exact hleafrep.extends hext
          · rw [if_neg he', Function.update_of_ne he']
            rfl
      · exact wp_imp (release_owned hA₂.1)
          (fun _ A₃ hA₃ => ⟨hA₃.1, b₁.ext.trans (hA₂.2.trans hA₃.2.1.extends)⟩) fun _ _ hE => hE

/-- The keys below a child share the digits of the path to it. -/
private theorem agree_child {child : Fin hamtArity → DocTrie} {l : ℕ}
    (hrouted : (Trie.branch child).Routed hamtDigit hamtMaxDepth l)
    (hagree : ∀ p ∈ (Trie.branch child).leaves, ∀ j < l, hamtDigit p.1 j = hamtDigit key j) :
    ∀ p ∈ (child (hamtDigit key l)).leaves, ∀ j < l + 1, hamtDigit p.1 j = hamtDigit key j := by
  intro p hp j hj
  rcases Nat.lt_succ_iff_lt_or_eq.mp hj with hj | rfl
  · exact hagree p (List.mem_flatMap.mpr ⟨_, List.mem_finRange _, hp⟩) j hj
  · exact (hrouted.2 _).2 p hp

/-- A replaced child of a branch: the new branch represents the trie with that child. -/
private theorem represents_update {child : Fin hamtArity → DocTrie} {m : HamtNode}
    {d : Fin hamtArity} {c : ℕ}
    (hchild : ∀ e, RepresentsRoot A (n.child? e) (child e)) (hext : A.Extends A')
    (hl : A'.cells.lookup (A'.slot (.nodes, i)) = some (.node m)) (hleaf : m.isLeaf = false)
    (hm : ∀ e, m.child? e = if e = d then some c else n.child? e) (htr : Represents A' c tr) :
    Represents A' i (.branch (Function.update child d tr)) := by
  refine represents_branch hl hleaf fun e => ?_
  rw [hm]
  by_cases he : e = d
  · subst he
    rw [if_pos rfl, Function.update_self]
    exact htr
  · rw [if_neg he, Function.update_of_ne he]
    exact (hchild e).extends hext

/-- `insert_rec` binds the key below a node. -/
theorem insertRec_spec (hr : (View.records, record) ∈ held) :
    ∀ {fuel l i : ℕ} {A : Heap} {tr : DocTrie}, A.Owned held → A.Live held (.nodes, i) →
      Represents A i tr → tr.Routed hamtDigit hamtMaxDepth l →
      (∀ p ∈ tr.leaves, ∀ j < l, hamtDigit p.1 j = hamtDigit key j) →
      l + fuel = hamtMaxDepth + 1 → l ≤ hamtMaxDepth →
      wp (insertRec t key record fuel i l)
        (Built A held fun tr' => tr' = tr.insertAt hamtDigit key record fuel l)
        (Undone A held) F A := by
  intro fuel
  induction fuel with
  | zero =>
    intro l i A tr _ _ _ _ _ hfuel hl
    omega
  | succ fuel ih =>
    intro l i A tr h hlive hrep hrouted hagree hfuel hl
    obtain ⟨n, hln⟩ := hrep.lookup
    simp only [insertRec, wp_bind]
    refine wp_peekNode hln ?_
    refine wp_ite (fun hleaf => ?_) fun hleaf => ?_
    · have htr := hrep.of_isLeaf hln hleaf
      subst htr
      refine wp_ite (fun hkey => ?_) fun hkey => ?_
      · -- the binding is replaced; the old leaf stays in the old trie
        refine wp_imp (makeLeaf_spec h hr) (fun j A₁ b => ?_) fun _ _ hE => hE
        refine ⟨b.owned, b.ext, _, represents_leaf b.lookup rfl, ?_⟩
        rw [Trie.insertAt, if_pos hkey]
      · rw [Trie.insertAt, if_neg hkey]
        exact split_spec hr hkey h hlive hrep (hagree _ (List.mem_singleton_self _)) hfuel
    · rw [Bool.not_eq_true] at hleaf
      obtain ⟨child, rfl, hchild⟩ := hrep.of_isBranch hln hleaf
      have hlt : l < hamtMaxDepth := hrouted.1
      have hsiblings : ∀ A₁ : Heap, A.Extends A₁ → ∀ m ∈ some n, ∀ e c', m.child? e = some c' →
          A₁.Live held (.nodes, c') := by
        rintro A₁ hext m ⟨⟩ e c' hc
        exact (live_child hln hleaf hc).extends hext (Multiset.Subset.refl _)
      -- what remains once the new child is there: a copy of this branch that holds it
      have hgraft : ∀ (c : ℕ) (A₁ : Heap) (tr' : DocTrie), A₁.Owned ((.nodes, c) ::ₘ held) →
          A.Extends A₁ → Represents A₁ c tr' →
          tr' = (child (hamtDigit key l)).insertAt hamtDigit key record fuel (l + 1) →
          wp (ensuring (branchWithChild t (some n) (hamtDigit key l) c) (release (.nodes, c)))
            (Built A held fun tr'' => tr'' = Trie.insertAt hamtDigit key record (fuel + 1) l
              (.branch child)) (Undone A held) F A₁ := by
        intro c A₁ tr' howned hext htr' hinsert
        refine wp_imp (graft_spec howned (hsiblings A₁ hext)) (fun j A₂ hA₂ => ?_)
          fun _ _ hE => ⟨hE.1, hext.trans hE.2⟩
        obtain ⟨howned₂, hext₂, m, hlm, hleaf', hm⟩ := hA₂
        exact ⟨howned₂, hext.trans hext₂, _, represents_update hchild (hext.trans hext₂) hlm
          hleaf' hm (htr'.extends hext₂), by rw [Trie.insertAt, hinsert]⟩
      refine wp_ite (fun hbit => ?_) fun hbit => ?_
      · have hc : n.child? (hamtDigit key l) = some (n.children (hamtDigit key l)) :=
          HamtNode.child?_eq_some.mpr ⟨hbit, rfl⟩
        have hsub := hchild (hamtDigit key l)
        rw [hc] at hsub
        rw [wp_bind]
        refine wp_imp (ih h (live_child hln hleaf hc) hsub hrouted.of_branch
          (agree_child hrouted hagree) (by omega) (by omega)) (fun c A₁ hA₁ => ?_)
          fun _ _ hE => hE
        obtain ⟨howned, hext, tr', htr', hinsert⟩ := hA₁
        exact hgraft c A₁ tr' howned hext htr' hinsert
      · have hc : n.child? (hamtDigit key l) = none :=
          HamtNode.child?_eq_none.mpr (Bool.eq_false_iff.mpr hbit)
        have hsub := hchild (hamtDigit key l)
        rw [hc] at hsub
        rw [wp_bind]
        refine wp_imp (makeLeaf_spec h hr) (fun c A₁ b => ?_) fun _ _ hE => hE
        refine hgraft c A₁ _ b.owned b.ext (represents_leaf b.lookup rfl) ?_
        rw [show child (hamtDigit key l) = .empty from hsub, Trie.insertAt_empty]

/-- `hamt_insert` is the insertion of tries; on an error nothing changes. -/
theorem hamtInsert_insertAt (h : A.Owned held) (hr : (View.records, record) ∈ held)
    (hroot : ∀ i ∈ root, (View.nodes, i) ∈ held) (hrep : RepresentsRoot A root tr)
    (hrouted : tr.Routed hamtDigit hamtMaxDepth 0) :
    wp (hamtInsert t root key record)
      (Built A held fun tr' => tr' = tr.insertAt hamtDigit key record (hamtMaxDepth + 1) 0)
      (Undone A held) F A := by
  cases root with
  | none =>
    obtain rfl : tr = .empty := hrep
    refine wp_imp (makeLeaf_spec h hr) (fun j A₁ b => ?_) fun _ _ hE => hE
    exact ⟨b.owned, b.ext, _, represents_leaf b.lookup rfl, Trie.insertAt_empty.symm⟩
  | some i =>
    exact insertRec_spec hr h (Or.inl (hroot i rfl)) hrep hrouted
      (fun _ _ j hj => absurd hj (Nat.not_lt_zero j)) rfl (Nat.zero_le _)

/-- Keys differ at some level. -/
theorem exists_hamtDigit_ne {k : ObjectId} (h : k ≠ key) :
    ∃ p, 0 ≤ p ∧ p < hamtMaxDepth ∧ hamtDigit k p ≠ hamtDigit key p := by
  by_contra hall
  refine h (hamtDigit_injective fun j hj => ?_)
  by_contra hne
  exact hall ⟨j, Nat.zero_le j, hj, hne⟩

/-- `hamt_insert` binds one key and changes no other binding; on an error nothing changes. -/
theorem hamtInsert_spec (h : A.Owned held) (hr : (View.records, record) ∈ held)
    (hroot : ∀ i ∈ root, (View.nodes, i) ∈ held) (hrep : RepresentsRoot A root tr)
    (hrouted : tr.Routed hamtDigit hamtMaxDepth 0) :
    wp (hamtInsert t root key record)
      (Built A held fun tr' =>
        Trie.Rebinds hamtDigit hamtMaxDepth 0 tr tr' key (some record))
      (Undone A held) F A := by
  refine wp_imp (hamtInsert_insertAt h hr hroot hrep hrouted) (fun i A' hA' => ?_) fun _ _ hE => hE
  obtain ⟨howned, hext, tr', hrep', rfl⟩ := hA'
  exact ⟨howned, hext, _, hrep', Trie.rebinds_insertAt hrouted (by omega)
    fun k _ hne => exists_hamtDigit_ne hne⟩

/-! ## Erasure -/

/-- A live node is shared. -/
theorem shareNode_spec (h : A.Owned held) (hlive : A.Live held (.nodes, i)) :
    wp (shareNode i) (fun j A' => j = i ∧ A'.Owned ((.nodes, i) ::ₘ held) ∧ A.Extends A')
      (Undone A held) F A := by
  simp only [shareNode, wp_bind]
  refine wp_imp (retain_owned h hlive) (fun _ A' hA' => ?_) fun _ A' hE => ?_
  · exact ⟨rfl, hA'.1, hA'.2.1.extends⟩
  · subst hE
    exact ⟨h, .refl⟩

/-- A subtree without the key is shared as it is. -/
private theorem shareAbsent_spec {tr' : DocTrie} {l : ℕ} (h : A.Owned held)
    (hlive : A.Live held (.nodes, i))
    (hrep : Represents A i tr) (herase : tr = tr'.eraseAt hamtDigit key l) :
    wp (do return some (← shareNode i) : HeapExec (Option ℕ))
      (BuiltRoot A held fun tr'' => tr'' = tr'.eraseAt hamtDigit key l) (Undone A held) F A := by
  rw [wp_bind]
  refine wp_imp (shareNode_spec h hlive) (fun j A' hA' => ?_) fun _ _ hE => hE
  obtain ⟨rfl, howned, hext⟩ := hA'
  exact ⟨by simpa using howned, hext, tr, hrep.extends hext, herase⟩

/-- The set digits without one of them. -/
theorem mem_setDigits_clear {b : BitVec hamtArity} {d e : Fin hamtArity} :
    e ∈ setDigits (b &&& ~~~ BitVec.twoPow hamtArity d) ↔ b.getLsb e = true ∧ e ≠ d := by
  rw [mem_setDigits]
  have hval : e ≠ d ↔ e.val ≠ d.val := not_congr Fin.ext_iff
  rw [hval]
  simp [BitVec.getLsb_eq_getElem, BitVec.getElem_twoPow]

/-- A node slot stands for something. -/
theorem Represents.isEmpty_eq (h : Represents A i tr) : tr.isEmpty = false := by
  cases tr with
  | empty => exact h.elim
  | leaf k r => rfl
  | branch child => rfl

/-- A leaf stands for a leaf. -/
theorem Represents.isLeaf_eq (h : Represents A i tr)
    (hl : A.cells.lookup (A.slot (.nodes, i)) = some (.node n)) : tr.isLeaf = n.isLeaf := by
  cases hleaf : n.isLeaf with
  | true =>
    rw [h.of_isLeaf hl hleaf]
    rfl
  | false =>
    obtain ⟨child, rfl, -⟩ := h.of_isBranch hl hleaf
    rfl

/-- The children that are left are those whose bit is. -/
theorem present_update {child : Fin hamtArity → DocTrie} {d : Fin hamtArity}
    (hchild : ∀ e, RepresentsRoot A (n.child? e) (child e)) :
    Trie.present (Function.update child d .empty) =
      setDigits (n.bitmap &&& ~~~ BitVec.twoPow hamtArity d) := by
  refine List.filter_congr fun e _ => ?_
  rw [Bool.eq_iff_iff, Bool.not_eq_true',
    ← List.mem_filter.trans (and_iff_right (List.mem_finRange e)),
    show List.filter _ _ = setDigits (n.bitmap &&& ~~~ BitVec.twoPow hamtArity d) from rfl,
    mem_setDigits_clear]
  by_cases he : e = d
  · subst he
    simp [Trie.isEmpty]
  · rw [Function.update_of_ne he, and_iff_left he]
    have hrep := hchild e
    cases hc : n.child? e with
    | none =>
      rw [hc] at hrep
      rw [show child e = .empty from hrep, HamtNode.child?_eq_none.mp hc]
      simp [Trie.isEmpty]
    | some c =>
      rw [hc] at hrep
      exact iff_of_true (Represents.isEmpty_eq hrep) (HamtNode.child?_eq_some.mp hc).1

/-- `erase_rec` removes the binding of the key below a node. -/
theorem eraseRec_spec :
    ∀ {fuel l i : ℕ} {A : Heap} {tr : DocTrie}, A.Owned held → A.Live held (.nodes, i) →
      Represents A i tr → tr.Routed hamtDigit hamtMaxDepth l →
      l + fuel = hamtMaxDepth + 1 → l ≤ hamtMaxDepth →
      wp (eraseRec t key fuel i l)
        (BuiltRoot A held fun tr' => tr' = tr.eraseAt hamtDigit key l)
        (Undone A held) F A := by
  intro fuel
  induction fuel with
  | zero =>
    intro l i A tr _ _ _ _ hfuel hl
    omega
  | succ fuel ih =>
    intro l i A tr h hlive hrep hrouted hfuel hl
    obtain ⟨n, hln⟩ := hrep.lookup
    simp only [eraseRec, wp_bind]
    refine wp_peekNode hln ?_
    refine wp_ite (fun hleaf => ?_) fun hleaf => ?_
    · have htr := hrep.of_isLeaf hln hleaf
      subst htr
      refine wp_ite (fun hkey => ?_) fun hkey => ?_
      · exact ⟨by simpa using h, .refl, .empty, rfl, by rw [Trie.eraseAt, if_pos hkey]⟩
      · refine shareAbsent_spec h hlive hrep ?_
        rw [Trie.eraseAt, if_neg hkey]
    · rw [Bool.not_eq_true] at hleaf
      obtain ⟨child, rfl, hchild⟩ := hrep.of_isBranch hln hleaf
      have hlt : l < hamtMaxDepth := hrouted.1
      set d := hamtDigit key l with hd
      refine wp_ite (fun hbit => ?_) fun hbit => ?_
      swap
      · -- absent under this branch
        have hc : n.child? d = none :=
          HamtNode.child?_eq_none.mpr (Bool.eq_false_iff.mpr hbit)
        have hsub := hchild d
        rw [hc] at hsub
        refine shareAbsent_spec h hlive hrep ?_
        rw [Trie.eraseAt, ← hd, show child d = .empty from hsub,
          if_pos (show (Trie.empty : DocTrie).isEmpty = true from rfl)]
      have hc : n.child? d = some (n.children d) := HamtNode.child?_eq_some.mpr ⟨hbit, rfl⟩
      have hsub := hchild d
      rw [hc] at hsub
      rw [wp_bind]
      refine wp_imp (ih h (live_child hln hleaf hc) hsub hrouted.of_branch (by omega) (by omega))
        (fun sub A₁ hA₁ => ?_) fun _ _ hE => hE
      obtain ⟨howned, hext, tr', htr', herase⟩ := hA₁
      have hlive₁ : ∀ e c, n.child? e = some c → A₁.Live held (.nodes, c) := fun e c hc =>
        (live_child hln hleaf hc).extends hext (Multiset.Subset.refl _)
      -- the child is not empty, so the removal goes on below it
      have hbelow : (Trie.branch child).eraseAt hamtDigit key l =
          if tr'.isEmpty then Trie.joined (Function.update child d .empty)
          else .branch (Function.update child d tr') := by
        rw [Trie.eraseAt, ← hd,
          if_neg (by rw [Represents.isEmpty_eq hsub]; exact Bool.false_ne_true),
          herase]
      cases sub with
      | some c =>
        simp only
        have howned : A₁.Owned ((.nodes, c) ::ₘ held) := by simpa using howned
        have hsome : ∀ m ∈ some n, ∀ e c', m.child? e = some c' → A₁.Live held (.nodes, c') := by
          rintro m ⟨⟩
          exact hlive₁
        simp only [wp_ensuring, wp_bind, wp_pure]
        have hgraft := graft_spec (t := t) (d := d) (F := F) howned hsome
        rw [wp_ensuring] at hgraft
        refine wp_imp hgraft (fun j A₂ hA₂ => wp_imp hA₂ (fun _ A₃ hA₃ => ?_) fun _ A₃ hE => ?_)
          fun _ A₂ hA₂ => wp_imp hA₂ (fun _ A₃ hE => ?_) fun _ A₃ hE => ?_
        · obtain ⟨howned₃, hext₃, m, hlm, hleaf', hm⟩ := hA₃
          refine ⟨by simpa using howned₃, hext.trans hext₃, .branch (Function.update child d tr'),
            ?_, ?_⟩
          · exact represents_update hchild (hext.trans hext₃) hlm hleaf' hm
              (Represents.extends htr' hext₃)
          · rw [hbelow, if_neg (by rw [Represents.isEmpty_eq htr']; exact Bool.false_ne_true)]
        all_goals exact ⟨hE.1, hext.trans hE.2⟩
      | none =>
        simp only
        have howned : A₁.Owned held := by simpa using howned
        obtain rfl : tr' = .empty := htr'
        rw [if_pos (show (Trie.empty : DocTrie).isEmpty = true from rfl)] at hbelow
        have hpresent := present_update (d := d) hchild
        -- a copy of the branch without the emptied child
        have hwithout : Trie.joined (Function.update child d .empty) =
              .branch (Function.update child d .empty) →
            wp (do return some (← branchWithoutChild t n d) : HeapExec (Option ℕ))
              (BuiltRoot A held fun tr' => tr' = (Trie.branch child).eraseAt hamtDigit key l)
              (Undone A held) F A₁ := by
          intro hjoined
          rw [wp_bind]
          refine wp_imp (branchWithoutChild_spec howned hlive₁) (fun j A₂ hA₂ => ?_)
            fun _ _ hE => ⟨hE.1, hext.trans hE.2⟩
          obtain ⟨m, b, hleaf', hm⟩ := hA₂
          refine ⟨by simpa using b.owned, hext.trans b.ext,
            .branch (Function.update child d .empty),
            represents_branch b.lookup hleaf' (fun e => ?_), by rw [hbelow, hjoined]⟩
          rw [hm]
          by_cases he : e = d
          · rw [if_pos he, he, Function.update_self]
            rfl
          · rw [if_neg he, Function.update_of_ne he]
            exact (hchild e).extends (hext.trans b.ext)
        split
        case h_1 hnil =>
          refine ⟨by simpa using howned, hext, .empty, rfl, ?_⟩
          rw [hbelow, Trie.joined, hpresent, hnil]
        case h_2 only hone =>
          obtain ⟨hbit', hne⟩ := mem_setDigits_clear.mp
            (show only ∈ setDigits _ from hone ▸ List.mem_singleton_self only)
          have hc' : n.child? only = some (n.children only) :=
            HamtNode.child?_eq_some.mpr ⟨hbit', rfl⟩
          have hrep' := hchild only
          rw [hc'] at hrep'
          have hrep₁ : Represents A₁ (n.children only) (child only) :=
            Represents.extends hrep' hext
          obtain ⟨m, hlm⟩ := hrep₁.lookup
          have hjoined : Trie.joined (Function.update child d .empty) =
              if (child only).isLeaf then child only
              else .branch (Function.update child d .empty) := by
            rw [Trie.joined, hpresent, hone]
            simp only [Function.update_of_ne hne]
          rw [hrep₁.isLeaf_eq hlm] at hjoined
          rw [wp_bind]
          refine wp_peekNode hlm (wp_ite (fun hm => ?_) fun hm => hwithout ?_)
          · -- a single leaf is left: it takes the place of the branch
            rw [if_pos hm] at hjoined
            refine wp_imp (shareAbsent_spec howned (hlive₁ _ _ hc') hrep₁
              (hjoined.symm.trans hbelow.symm)) (fun r A₂ hA₂ => ?_)
              fun _ _ hE => ⟨hE.1, hext.trans hE.2⟩
            exact ⟨hA₂.1, hext.trans hA₂.2.1, hA₂.2.2⟩
          · rw [hjoined, if_neg hm]
        case h_3 hnil hone =>
          refine hwithout ?_
          unfold Trie.joined
          rw [hpresent]
          split
          case h_1 h => exact absurd h hnil
          case h_2 only h => exact absurd h (hone only)
          case h_3 => rfl

/-- `hamt_erase` is the removal of tries; on an error nothing changes. -/
theorem hamtErase_eraseAt (h : A.Owned held) (hroot : ∀ i ∈ root, (View.nodes, i) ∈ held)
    (hrep : RepresentsRoot A root tr) (hrouted : tr.Routed hamtDigit hamtMaxDepth 0) :
    wp (hamtErase t root key)
      (BuiltRoot A held fun tr' => tr' = tr.eraseAt hamtDigit key 0) (Undone A held) F A := by
  cases root with
  | none =>
    obtain rfl : tr = .empty := hrep
    exact ⟨by simpa using h, .refl, .empty, rfl, rfl⟩
  | some i =>
    exact eraseRec_spec h (Or.inl (hroot i rfl)) hrep hrouted rfl (Nat.zero_le _)

/-- `hamt_erase` removes one binding and changes no other; on an error nothing changes. -/
theorem hamtErase_spec (h : A.Owned held) (hroot : ∀ i ∈ root, (View.nodes, i) ∈ held)
    (hrep : RepresentsRoot A root tr) (hrouted : tr.Routed hamtDigit hamtMaxDepth 0) :
    wp (hamtErase t root key)
      (BuiltRoot A held fun tr' => Trie.Rebinds hamtDigit hamtMaxDepth 0 tr tr' key none)
      (Undone A held) F A := by
  refine wp_imp (hamtErase_eraseAt h hroot hrep hrouted) (fun i A' hA' => ?_) fun _ _ hE => hE
  obtain ⟨howned, hext, tr', hrep', rfl⟩ := hA'
  exact ⟨howned, hext, _, hrep', Trie.rebinds_eraseAt hrouted⟩

/-! ## Reading -/

/-- `hamt_lookup` returns the binding of the key. -/
theorem hamtLookup_spec (key : ObjectId) {E : PoolError → Heap → Prop}
    (hrep : RepresentsRoot A root tr) (hrouted : tr.Routed hamtDigit hamtMaxDepth 0) :
    wp (hamtLookup root key)
      (fun r A' => r = tr.lookup hamtDigit key 0 ∧ A' = A) E F A := by
  have hrec : ∀ {fuel l i : ℕ} {tr : DocTrie}, Represents A i tr →
      tr.Routed hamtDigit hamtMaxDepth l → l + fuel = hamtMaxDepth + 1 → l ≤ hamtMaxDepth →
      wp (lookupRec key fuel i l)
        (fun r A' => r = tr.lookup hamtDigit key l ∧ A' = A) E F A := by
    intro fuel
    induction fuel with
    | zero =>
      intro l i tr _ _ hfuel hl
      omega
    | succ fuel ih =>
      intro l i tr hrep hrouted hfuel hl
      obtain ⟨n, hln⟩ := hrep.lookup
      simp only [lookupRec, wp_bind]
      refine wp_peekNode hln (wp_ite (fun hleaf => ?_) fun hleaf => ?_)
      · rw [hrep.of_isLeaf hln hleaf, Trie.lookup_leaf]
        refine ⟨?_, rfl⟩
        by_cases hk : n.key = key
        · rw [if_pos hk, if_pos hk.symm]
        · rw [if_neg hk, if_neg (Ne.symm hk)]
      · rw [Bool.not_eq_true] at hleaf
        obtain ⟨child, rfl, hchild⟩ := hrep.of_isBranch hln hleaf
        have hlt : l < hamtMaxDepth := hrouted.1
        have hsub := hchild (hamtDigit key l)
        rw [Trie.lookup_branch]
        refine wp_ite (fun hbit => ?_) fun hbit => ?_
        · rw [HamtNode.child?_eq_some.mpr ⟨hbit, rfl⟩] at hsub
          exact ih hsub hrouted.of_branch (by omega) (by omega)
        · rw [HamtNode.child?_eq_none.mpr (Bool.eq_false_iff.mpr hbit)] at hsub
          rw [show child (hamtDigit key l) = .empty from hsub, Trie.lookup_empty]
          exact ⟨rfl, rfl⟩
  cases root with
  | none =>
    obtain rfl : tr = .empty := hrep
    exact ⟨Trie.lookup_empty.symm, rfl⟩
  | some i => exact hrec hrep hrouted rfl (Nat.zero_le _)

/-- The children of a branch are visited in the order of their digits. -/
private theorem leaves_branch {child : Fin hamtArity → DocTrie}
    (hchild : ∀ d, RepresentsRoot A (n.child? d) (child d)) :
    (Trie.branch child).leaves = (setDigits n.bitmap).flatMap fun d => (child d).leaves := by
  rw [Trie.leaves, setDigits]
  induction List.finRange hamtArity with
  | nil => rfl
  | cons d ds ih =>
    by_cases hbit : n.bitmap.getLsb d = true
    · rw [List.filter_cons_of_pos hbit, List.flatMap_cons, List.flatMap_cons, ih]
    · have hsub := hchild d
      rw [HamtNode.child?_eq_none.mpr (Bool.eq_false_iff.mpr hbit)] at hsub
      rw [List.filter_cons_of_neg hbit, List.flatMap_cons, ih,
        show child d = .empty from hsub]
      rfl

/-- The walk returns the bindings in digit order. -/
theorem leafWalk_spec {E : PoolError → Heap → Prop} (hrep : RepresentsRoot A root tr)
    (hrouted : tr.Routed hamtDigit hamtMaxDepth 0) :
    wp (leafWalk root) (fun out A' => out = tr.leaves ∧ A' = A) E F A := by
  have hrec : ∀ {fuel l i : ℕ} {tr : DocTrie} {out : List (ObjectId × ℕ)}, Represents A i tr →
      tr.Routed hamtDigit hamtMaxDepth l → l + fuel = hamtMaxDepth + 1 → l ≤ hamtMaxDepth →
      wp (collectLeaves fuel i out)
        (fun out' A' => out' = out ++ tr.leaves ∧ A' = A) E F A := by
    intro fuel
    induction fuel with
    | zero =>
      intro l i tr out _ _ hfuel hl
      omega
    | succ fuel ih =>
      intro l i tr out hrep hrouted hfuel hl
      obtain ⟨n, hln⟩ := hrep.lookup
      simp only [collectLeaves, wp_bind]
      refine wp_peekNode hln (wp_ite (fun hleaf => ?_) fun hleaf => ?_)
      · rw [hrep.of_isLeaf hln hleaf]
        exact ⟨rfl, rfl⟩
      · rw [Bool.not_eq_true] at hleaf
        obtain ⟨child, rfl, hchild⟩ := hrep.of_isBranch hln hleaf
        have hlt : l < hamtMaxDepth := hrouted.1
        rw [leaves_branch hchild]
        -- the loop over the digits that are left
        have hloop : ∀ (ds : List (Fin hamtArity)) (out : List (ObjectId × ℕ)),
            (∀ d ∈ ds, n.bitmap.getLsb d = true) →
            wp (ds.foldlM (fun out d => collectLeaves fuel (n.children d) out) out)
              (fun out' A' => out' = out ++ ds.flatMap (fun d => (child d).leaves) ∧ A' = A)
              E F A := by
          intro ds
          induction ds with
          | nil => exact fun out _ => ⟨by simp, rfl⟩
          | cons d ds ihds =>
            intro out hbits
            have hsub := hchild d
            rw [HamtNode.child?_eq_some.mpr ⟨hbits d List.mem_cons_self, rfl⟩] at hsub
            rw [List.foldlM_cons, wp_bind]
            refine wp_imp (ih hsub hrouted.of_branch (by omega) (by omega))
              (fun out₁ A₁ hA₁ => ?_) fun _ _ hE => hE
            obtain ⟨rfl, rfl⟩ := hA₁
            refine wp_imp (ihds _ fun e he => hbits e (List.mem_cons_of_mem d he))
              (fun out₂ A₂ hA₂ => ⟨?_, hA₂.2⟩) fun _ _ hE => hE
            rw [hA₂.1, List.flatMap_cons, List.append_assoc]
        exact hloop _ out fun d hd => mem_setDigits.mp hd
  cases root with
  | none =>
    obtain rfl : tr = .empty := hrep
    exact ⟨rfl, rfl⟩
  | some i =>
    exact wp_imp (hrec hrep hrouted rfl (Nat.zero_le _)) (fun out A' h => by simpa using h)
      fun _ _ hE => hE

end

end ArbitraryComposer
