import ArbitraryComposer.Model.Hamt
import ArbitraryComposer.ToMathlib.CanonicalTrie

/-!
# Building Nodes

What a new node of the persistent map is while it is built: its one count is held by the
builder, its edges are counted, and nothing that was there before is touched.

## Main definitions

- `Live`: a reference the writer may take a count on.
- `Building`: a new node in the hands of its builder.
- `Represents`: the trie below a node slot.

## Main results

- `hamtDigit_injective`: the digits of the first `hamtMaxDepth` levels determine a key.
- `makeLeaf_spec`, `branchWithChild_spec`, `branchWithoutChild_spec`: what is built.
-/

set_option linter.unusedSectionVars false

namespace ArbitraryComposer

open Exec Arena SlabType

/-! ## Digits -/

/-- The digits of the first `hamtMaxDepth` levels determine a key. -/
theorem hamtDigit_injective {k k' : ObjectId}
    (h : ∀ l < hamtMaxDepth, hamtDigit k l = hamtDigit k' l) : k = k' := by
  -- the low digits determine the key modulo a power of the arity
  have hmod : ∀ l ≤ hamtMaxDepth, k.toNat % 32 ^ l = k'.toNat % 32 ^ l := by
    intro l hl
    induction l with
    | zero => simp [Nat.mod_one]
    | succ l ih =>
      have hd := congrArg Fin.val (h l (by omega))
      simp only [hamtDigit, hamtBits, hamtArity, Nat.shiftRight_eq_div_pow] at hd
      have hpow : 2 ^ (5 * l) = 32 ^ l := by rw [Nat.pow_mul]
      rw [hpow] at hd
      rw [Nat.mod_pow_succ, Nat.mod_pow_succ, ih (by omega), hd]
  have hfull := hmod hamtMaxDepth le_rfl
  have hlt : (2 : ℕ) ^ 64 ≤ 32 ^ hamtMaxDepth := by decide
  have hk : k.toNat < 2 ^ 64 := k.toNat_lt
  have hk' : k'.toNat < 2 ^ 64 := k'.toNat_lt
  rw [Nat.mod_eq_of_lt (hk.trans_le hlt), Nat.mod_eq_of_lt (hk'.trans_le hlt)] at hfull
  exact UInt64.toNat_inj.mp hfull

/-! ## Children and edges -/

@[simp]
theorem mem_setDigits {b : BitVec hamtArity} {d : Fin hamtArity} :
    d ∈ setDigits b ↔ b.getLsb d = true := by
  simp [setDigits]

theorem nodup_setDigits (b : BitVec hamtArity) : (setDigits b).Nodup :=
  (List.nodup_finRange _).filter _

namespace HamtNode

theorem child?_eq_some {n : HamtNode} {d : Fin hamtArity} {c : ℕ} :
    n.child? d = some c ↔ n.bitmap.getLsb d = true ∧ n.children d = c := by
  unfold child?
  by_cases hb : n.bitmap.getLsb d = true
  · rw [if_pos hb, Option.some.injEq]
    exact ⟨fun h => ⟨hb, h⟩, fun h => h.2⟩
  · rw [if_neg hb]
    exact ⟨fun h => (Option.some_ne_none _ h.symm).elim, fun h => absurd h.1 hb⟩

theorem child?_eq_none {n : HamtNode} {d : Fin hamtArity} :
    n.child? d = none ↔ n.bitmap.getLsb d = false := by
  unfold child?
  by_cases hb : n.bitmap.getLsb d = true
  · rw [if_pos hb, hb]
    exact ⟨fun h => (Option.some_ne_none _ h).elim, fun h => by cases h⟩
  · rw [if_neg hb]
    exact ⟨fun _ => Bool.eq_false_iff.mpr hb, fun _ => rfl⟩

/-- A slot stored without its bit is no child. -/
theorem child?_setChild {n : HamtNode} {d : Fin hamtArity} {c : ℕ} (h : n.child? d = none)
    (e : Fin hamtArity) : (n.setChild d c).child? e = n.child? e := by
  rw [child?_eq_none] at h
  unfold child? setChild
  by_cases he : e = d
  · subst he
    rw [h, if_neg Bool.false_ne_true, if_neg Bool.false_ne_true]
  · simp only [Function.update_of_ne he]

theorem child?_setBit {n : HamtNode} {d : Fin hamtArity} (e : Fin hamtArity) :
    (n.setBit d).child? e = if e = d then some (n.children d) else n.child? e := by
  unfold child? setBit
  by_cases he : e = d
  · subst he
    simp [BitVec.getLsb_eq_getElem]
  · have hne : ¬ e.val = d.val := fun h => he (Fin.ext h)
    simp [BitVec.getLsb_eq_getElem, BitVec.getElem_twoPow, he, hne]

/-- The edges of a branch are its children. -/
theorem edges_eq {n : HamtNode} (h : n.isLeaf = false) : n.edges =
    (List.finRange hamtArity).filterMap fun d => (n.child? d).map fun c => (View.nodes, c) := by
  unfold edges setDigits
  rw [h, if_neg Bool.false_ne_true]
  induction List.finRange hamtArity with
  | nil => rfl
  | cons d ds ih =>
    unfold child? at ih ⊢
    by_cases hd : n.bitmap.getLsb d = true
    · rw [List.filter_cons_of_pos hd, List.map_cons, ih, List.filterMap_cons_some]
      rw [if_pos hd]
      rfl
    · rw [List.filter_cons_of_neg hd, ih, List.filterMap_cons_none]
      rw [if_neg hd]
      rfl

theorem mem_edges {n : HamtNode} (h : n.isLeaf = false) {d : Fin hamtArity} {c : ℕ}
    (hc : n.child? d = some c) : (View.nodes, c) ∈ n.edges := by
  rw [edges_eq h]
  exact List.mem_filterMap.mpr ⟨d, List.mem_finRange d, by rw [hc]; rfl⟩

end HamtNode

/-- One more element of a list is selected. -/
private theorem perm_filterMap_of_update {α β : Type} [DecidableEq α] {f g : α → Option β}
    {d : α} {b : β} {l : List α} (hl : l.Nodup) (hd : d ∈ l) (hf : f d = none)
    (hg : ∀ e, g e = if e = d then some b else f e) :
    (l.filterMap g).Perm (b :: l.filterMap f) := by
  induction l with
  | nil => simp at hd
  | cons e es ih =>
    obtain ⟨hne, hes⟩ := List.nodup_cons.mp hl
    by_cases he : e = d
    · subst he
      have hrest : es.filterMap g = es.filterMap f := by
        refine List.filterMap_congr fun x hx => ?_
        rw [hg, if_neg]
        rintro rfl
        exact hne hx
      rw [List.filterMap_cons_some (show g e = some b by rw [hg, if_pos rfl]),
        List.filterMap_cons_none hf, hrest]
    · have hd' : d ∈ es := (List.mem_cons.mp hd).resolve_left (Ne.symm he)
      have hge : g e = f e := by rw [hg, if_neg he]
      cases hfe : f e with
      | none =>
        rw [List.filterMap_cons_none (hge.trans hfe), List.filterMap_cons_none hfe]
        exact ih hes hd'
      | some x =>
        rw [List.filterMap_cons_some (hge.trans hfe), List.filterMap_cons_some hfe]
        exact ((ih hes hd').cons x).trans (List.Perm.swap b x _)

namespace HamtNode

/-- Setting the bit of a stored slot makes it an edge. -/
theorem edges_setBit {n : HamtNode} {d : Fin hamtArity} (hleaf : n.isLeaf = false)
    (h : n.child? d = none) :
    ((n.setBit d).edges : Multiset (View × ℕ)) =
      (View.nodes, n.children d) ::ₘ (n.edges : Multiset (View × ℕ)) := by
  rw [edges_eq (n := n.setBit d) hleaf, edges_eq hleaf, Multiset.cons_coe]
  refine Multiset.coe_eq_coe.mpr ?_
  refine perm_filterMap_of_update (List.nodup_finRange _) (List.mem_finRange d)
    (by rw [h]; rfl) fun e => ?_
  rw [child?_setBit]
  split <;> rfl

theorem edges_setChild {n : HamtNode} {d : Fin hamtArity} {c : ℕ} (hleaf : n.isLeaf = false)
    (h : n.child? d = none) : (n.setChild d c).edges = n.edges := by
  rw [edges_eq (n := n.setChild d c) hleaf, edges_eq hleaf]
  simp only [child?_setChild h]

/-- A child stored with its bit is a new edge. -/
theorem edges_setChild_setBit {n : HamtNode} {d : Fin hamtArity} {c : ℕ}
    (hleaf : n.isLeaf = false) (h : n.child? d = none) :
    (((n.setChild d c).setBit d).edges : Multiset (View × ℕ)) =
      (View.nodes, c) ::ₘ (n.edges : Multiset (View × ℕ)) := by
  have hc : (n.setChild d c).child? d = none := (child?_setChild h d).trans h
  rw [edges_setBit (n := n.setChild d c) hleaf hc, edges_setChild hleaf h]
  simp [setChild]

end HamtNode

/-! ## Nodes under construction -/

/-- A node created after `A₀`, with the one count on it in the builder's hands. -/
structure Building (A₀ A : Heap) (held : Multiset (View × ℕ)) (i : ℕ) (n : HamtNode) : Prop where
  /-- The builder holds the node. -/
  owned : A.Owned ((.nodes, i) ::ₘ held)
  /-- What was there before is unchanged. -/
  ext : A₀.Extends A
  /-- The node was not there before. -/
  fresh : A₀.slot (.nodes, i) ∉ A₀.cells
  /-- The node. -/
  lookup : A.cells.lookup (A.slot (.nodes, i)) = some (.node n)
  /-- Nobody else refers to it. -/
  once : A.count (A.slot (.nodes, i)) = 1

section

variable {A₀ A A' : Heap} {held : Multiset (View × ℕ)} {i t : ℕ} {n : HamtNode}
  {F : Fault → Prop}

theorem wp_peekNode {Q : HamtNode → Heap → Prop} {E : PoolError → Heap → Prop}
    (hl : A.cells.lookup (A.slot (.nodes, i)) = some (.node n)) (hQ : Q n A) :
    wp (peekNode i) Q E F A := by
  have hpeek : wp (peek (.nodes, i)) (fun o A' => o = .node n ∧ A' = A) E F A := by
    unfold wp peek
    simp only [hl]
    exact ⟨trivial, trivial⟩
  simp only [peekNode, wp_bind]
  refine wp_imp hpeek (fun o A' hA' => ?_) fun _ _ hE => hE
  obtain ⟨rfl, rfl⟩ := hA'
  exact hQ

theorem wp_updateNode {Q : Unit → Heap → Prop} {E : PoolError → Heap → Prop}
    {f : HamtNode → HamtNode} (hl : A.cells.lookup (A.slot (.nodes, i)) = some (.node n))
    (hQ : Q () (A.setCell (A.slot (.nodes, i)) (.node (f n)))) :
    wp (updateNode i f) Q E F A := by
  simp only [updateNode, wp_bind]
  exact wp_peekNode hl hQ

/-- A node is created empty. -/
theorem create_building (h : A.Owned held) :
    wp (create t (.node {})) (fun i A' => Building A A' held i {})
      (fun _ A' => A'.Owned held ∧ A.Extends A') F A := by
  have hedges : edges (Object.node {}) = [] := by decide
  refine wp_imp (create_spec h hedges) (fun i A' hA' => ?_) fun _ _ hE => hE
  obtain ⟨howned, hext, hl, hone, hfresh⟩ := hA'
  refine ⟨howned, hext, hfresh, ?_, ?_⟩
  · rw [hext.slot_eq]
    exact hl
  · rw [hext.slot_eq]
    exact hone

/-- The builder gives up: nothing it did can be seen. -/
theorem Building.discard {E : PoolError → Heap → Prop} (b : Building A₀ A held i n) :
    wp (release (.nodes, i)) (fun _ A' => A'.Owned held ∧ A₀.Extends A') E F A :=
  wp_imp (release_owned b.owned) (fun _ _ hA => ⟨hA.1, b.ext.trans hA.2.1.extends⟩)
    fun _ _ hE => hE

theorem Building.slot_eq {r : View × ℕ} (b : Building A₀ A held i n) : A.slot r = A₀.slot r :=
  b.ext.slot_eq

/-- Fields that are no edges are written. -/
theorem Building.rewrite (b : Building A₀ A held i n) (n' : HamtNode)
    (he : n'.edges = n.edges) :
    Building A₀ (A.setCell (A.slot (.nodes, i)) (.node n')) held i n' where
  owned := b.owned.rewrite b.lookup rfl rfl rfl he
  ext := b.ext.setCell (b.slot_eq ▸ b.fresh)
  fresh := b.fresh
  lookup := lookup_setCell.trans (if_pos rfl)
  once := b.once

/-- A count is taken and the slot it is for becomes an edge. -/
theorem Building.adopt {r : View × ℕ} {f : HamtNode → HamtNode} (b : Building A₀ A held i n)
    (h₀ : A₀.Owned held) (hr : A₀.Live held r)
    (he : ((f n).edges : Multiset (View × ℕ)) = r ::ₘ (n.edges : Multiset (View × ℕ))) :
    wp (ArbitraryComposer.adopt r i f) (fun _ A' => Building A₀ A' held i (f n))
      (fun _ A' => A' = A) F A := by
  have hlive : A.Live ((.nodes, i) ::ₘ held) r := hr.extends b.ext (Multiset.subset_cons _ _)
  have hne : A.slot (.nodes, i) ≠ A.slot r := by
    rw [b.slot_eq, b.slot_eq]
    intro heq
    exact b.fresh (heq ▸ (hr.names h₀.sound).mem)
  simp only [ArbitraryComposer.adopt, wp_bind]
  refine wp_imp (retain_owned b.owned hlive) (fun _ A₁ hA₁ => ?_) fun _ _ hE => hE
  obtain ⟨howned, hsame, hcount⟩ := hA₁
  have hslot : A₁.slot (.nodes, i) = A.slot (.nodes, i) := hsame.slot_eq
  have hl : A₁.cells.lookup (A₁.slot (.nodes, i)) = some (.node n) := by
    rw [hslot, hsame.cells_eq]
    exact b.lookup
  have hone : A₁.count (A₁.slot (.nodes, i)) = 1 := by
    rw [hslot, hcount _ hne]
    exact b.once
  refine wp_updateNode hl ⟨howned.link hone hl rfl rfl rfl he, ?_, b.fresh,
    lookup_setCell.trans (if_pos rfl), hone⟩
  refine (b.ext.trans hsame.extends).setCell ?_
  rw [hslot, b.slot_eq]
  exact b.fresh

/-- `make_leaf` builds a leaf that holds its own count on the record. -/
theorem makeLeaf_spec {key : ObjectId} {record : ℕ} (h : A.Owned held)
    (hr : (View.records, record) ∈ held) :
    wp (makeLeaf t key record)
      (fun i A' => Building A A' held i { isLeaf := true, key := key, record := record })
      (fun _ A' => A'.Owned held ∧ A.Extends A') F A := by
  simp only [makeLeaf, wp_bind, wp_onError]
  refine wp_imp (create_building h) (fun i A₁ b => ?_) fun _ _ hE => hE
  refine wp_imp (b.adopt h (Or.inl hr) rfl) (fun _ A₂ b₂ => b₂) fun _ _ hE => ?_
  subst hE
  exact b.discard

/-- The children of `base` other than `skip` are shared with a new branch. -/
theorem shareChildren_spec {base : Option HamtNode} {skip : Fin hamtArity}
    (b : Building A₀ A held i n) (h₀ : A₀.Owned held) (hleaf : n.isLeaf = false)
    (hbare : ∀ d, n.child? d = none)
    (hlive : ∀ m ∈ base, ∀ d c, m.child? d = some c → A₀.Live held (.nodes, c)) :
    wp (shareChildren base skip i)
      (fun _ A' => ∃ n', Building A₀ A' held i n' ∧ n'.isLeaf = false ∧
        ∀ d, n'.child? d = if d = skip then none else base.bind (·.child? d))
      (fun _ A' => ∃ n', Building A₀ A' held i n') F A := by
  rcases base with _ | base
  · exact ⟨n, b, hleaf, fun d => by rw [hbare]; split <;> rfl⟩
  have hlive := hlive base rfl
  simp only [shareChildren, Option.bind_some]
  -- what is left to visit is not yet a child
  let I : List (Fin hamtArity) → Heap → Prop := fun rest A' => rest.Nodup ∧
    (∀ d ∈ rest, base.bitmap.getLsb d = true) ∧
    ∃ n', Building A₀ A' held i n' ∧ n'.isLeaf = false ∧
      ∀ d, n'.child? d = if d = skip ∨ d ∈ rest then none else base.child? d
  have hI : I (setDigits base.bitmap) A := by
    refine ⟨nodup_setDigits _, fun d hd => mem_setDigits.mp hd, n, b, hleaf, fun d => ?_⟩
    rw [hbare]
    split
    · rfl
    · rename_i hd
      have hbit : ¬ base.bitmap.getLsb d = true := fun hb => hd (Or.inr (mem_setDigits.mpr hb))
      exact (HamtNode.child?_eq_none.mpr (Bool.eq_false_iff.mpr hbit)).symm
  refine wp_imp (wp_forEach (I := I) hI fun d rest A' hA' => ?_) (fun _ A' hA' => ?_)
    fun _ _ hE => hE
  · obtain ⟨hnodup, hbits, n', b', hleaf', hchild⟩ := hA'
    obtain ⟨hd, hnodup⟩ := List.nodup_cons.mp hnodup
    have hrest : ∀ e ∈ rest, base.bitmap.getLsb e = true :=
      fun e he => hbits e (List.mem_cons_of_mem d he)
    refine wp_ite (fun hskip => ?_) fun hskip => ?_
    · refine ⟨hnodup, hrest, n', b', hleaf', fun e => ?_⟩
      rw [hchild]
      simp only [List.mem_cons, ← hskip, or_self_left]
    · have hnone : n'.child? d = none := by
        rw [hchild, if_pos (Or.inr List.mem_cons_self)]
      have hbase : base.child? d = some (base.children d) :=
        HamtNode.child?_eq_some.mpr ⟨hbits d List.mem_cons_self, rfl⟩
      refine wp_imp (b'.adopt h₀ (hlive d _ hbase)
        (HamtNode.edges_setChild_setBit hleaf' hnone)) (fun _ A'' b'' => ?_) fun _ A'' hE => ?_
      · refine ⟨hnodup, hrest, _, b'', hleaf', fun e => ?_⟩
        rw [HamtNode.child?_setBit]
        by_cases he : e = d
        · subst he
          rw [if_pos rfl, if_neg (not_or.mpr ⟨hskip, hd⟩), hbase]
          simp [HamtNode.setChild]
        · rw [if_neg he, HamtNode.child?_setChild hnone, hchild]
          simp only [List.mem_cons, he, false_or]
      · exact hE ▸ ⟨n', b'⟩
  · obtain ⟨-, -, n', b', hleaf', hchild⟩ := hA'
    exact ⟨n', b', hleaf', fun d => by simpa using hchild d⟩

/-- `branch_with_child` builds a branch with the children of `base`, one of them replaced. -/
theorem branchWithChild_spec {base : Option HamtNode} {d : Fin hamtArity} {c : ℕ}
    (h : A.Owned held) (hc : (View.nodes, c) ∈ held)
    (hlive : ∀ n ∈ base, ∀ e c', n.child? e = some c' → A.Live held (.nodes, c')) :
    wp (branchWithChild t base d c)
      (fun i A' => ∃ n, Building A A' held i n ∧ n.isLeaf = false ∧
        ∀ e, n.child? e = if e = d then some c else base.bind (·.child? e))
      (fun _ A' => A'.Owned held ∧ A.Extends A') F A := by
  simp only [branchWithChild, wp_bind, wp_onError]
  refine wp_imp (create_building h) (fun i A₁ b => ?_) fun _ _ hE => hE
  -- a discarded node leaves no trace, wherever the building stopped
  have hdiscard : ∀ (A' : Heap), (∃ n, Building A A' held i n) →
      wp (release (.nodes, i)) (fun _ A'' => A''.Owned held ∧ A.Extends A'')
        (fun _ A'' => A''.Owned held ∧ A.Extends A'') F A' := by
    rintro A' ⟨n, b⟩
    exact b.discard
  have hbare : ∀ e, ({} : HamtNode).child? e = none := fun e => by
    rw [HamtNode.child?_eq_none]
    simp
  refine wp_imp (shareChildren_spec b h rfl hbare hlive) (fun _ A₂ hA₂ => ?_)
    fun _ A' hE => hdiscard A' hE
  obtain ⟨n, b₂, hleaf, hchild⟩ := hA₂
  have hnone : n.child? d = none := by rw [hchild, if_pos rfl]
  refine wp_updateNode b₂.lookup ?_
  have b₃ := b₂.rewrite (n.setChild d c) (HamtNode.edges_setChild hleaf hnone)
  have hnone₃ : (n.setChild d c).child? d = none := (HamtNode.child?_setChild hnone d).trans hnone
  have hedge := HamtNode.edges_setBit (n := n.setChild d c) hleaf hnone₃
  rw [show (n.setChild d c).children d = c from Function.update_self ..] at hedge
  refine wp_imp (b₃.adopt h (Or.inl hc) hedge) (fun _ A₄ b₄ => ?_) fun _ A' hE => ?_
  · refine ⟨_, b₄, hleaf, fun e => ?_⟩
    rw [HamtNode.child?_setBit, HamtNode.child?_setChild hnone, hchild]
    by_cases he : e = d
    · rw [if_pos he, if_pos he]
      simp [HamtNode.setChild]
    · simp only [if_neg he]
  · exact hdiscard A' (hE ▸ ⟨_, b₃⟩)

/-- `branch_without_child` builds a branch with the children of `base` but one. -/
theorem branchWithoutChild_spec {base : HamtNode} {skip : Fin hamtArity} (h : A.Owned held)
    (hlive : ∀ e c, base.child? e = some c → A.Live held (.nodes, c)) :
    wp (branchWithoutChild t base skip)
      (fun i A' => ∃ n, Building A A' held i n ∧ n.isLeaf = false ∧
        ∀ e, n.child? e = if e = skip then none else base.child? e)
      (fun _ A' => A'.Owned held ∧ A.Extends A') F A := by
  simp only [branchWithoutChild, wp_bind, wp_onError]
  refine wp_imp (create_building h) (fun i A₁ b => ?_) fun _ _ hE => hE
  have hbare : ∀ e, ({} : HamtNode).child? e = none := fun e => by
    rw [HamtNode.child?_eq_none]
    simp
  have hlive' : ∀ m ∈ some base, ∀ e c, m.child? e = some c → A.Live held (.nodes, c) := by
    rintro m ⟨⟩
    exact hlive
  refine wp_imp (shareChildren_spec b h rfl hbare hlive') (fun _ A₂ hA₂ => hA₂)
    fun _ A' hE => ?_
  obtain ⟨n, b'⟩ := hE
  exact b'.discard

end

end ArbitraryComposer
