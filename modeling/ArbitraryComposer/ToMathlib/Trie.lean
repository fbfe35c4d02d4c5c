import Mathlib.Data.List.FinRange

/-!
# Tries over Digit Strings

A trie routes a key through its branches by one digit a level, and stops at a leaf that holds
the whole key. Keys are arbitrary; `digit k l` is the digit of `k` at level `l`. Two tries may
have different shapes and bind the same keys, so what an algorithm on tries achieves is said by
`Trie.Rebinds`: one binding changed and no other.

## Main definitions

- `Trie`: empty, a leaf, or a branch with a child for each digit.
- `Trie.lookup`: follow the digits of a key.
- `Trie.leaves`: the bindings in the order of a walk.
- `Trie.Routed`: every leaf lies where the digits of its key lead.
- `Trie.Rebinds`: the binding of one key is changed, or removed.

## Main results

- `Trie.Routed.lookup_eq_some_iff`: a lookup finds exactly the leaves.
- `Trie.Rebinds.branch`, `.split`, `.collapse`: the shapes an insertion or a removal produces.
-/

/-- A trie with digits below `n`. -/
inductive Trie (n : ℕ) (κ α : Type) where
  /-- No binding. -/
  | empty
  /-- One binding. -/
  | leaf (k : κ) (a : α)
  /-- A child for each digit. -/
  | branch (child : Fin n → Trie n κ α)

namespace Trie

variable {n : ℕ} {κ α : Type} [DecidableEq κ]

/-- The value a key is bound to below level `l`. -/
def lookup (digit : κ → ℕ → Fin n) (k : κ) : ℕ → Trie n κ α → Option α
  | _, empty => none
  | _, leaf k' a => if k = k' then some a else none
  | l, branch child => lookup digit k (l + 1) (child (digit k l))

/-- The bindings in the order of a walk. -/
def leaves : Trie n κ α → List (κ × α)
  | empty => []
  | leaf k a => [(k, a)]
  | branch child => (List.finRange n).flatMap fun d => (child d).leaves

/-- Every leaf lies where the digits of its key lead, and branches lie above level `depth`. -/
def Routed (digit : κ → ℕ → Fin n) (depth : ℕ) : ℕ → Trie n κ α → Prop
  | _, empty => True
  | _, leaf _ _ => True
  | l, branch child => l < depth ∧
      ∀ d, Routed digit depth (l + 1) (child d) ∧ ∀ p ∈ (child d).leaves, digit p.1 l = d

/-- The binding of `k` becomes `o`, and every other binding is the same. -/
structure Rebinds (digit : κ → ℕ → Fin n) (depth l : ℕ) (t t' : Trie n κ α) (k : κ)
    (o : Option α) : Prop where
  /-- The new trie is routed. -/
  routed : t'.Routed digit depth l
  /-- Its lookups are those of the old one, with one binding changed. -/
  lookup_eq : ∀ k', t'.lookup digit k' l = if k' = k then o else t.lookup digit k' l

section

variable {digit : κ → ℕ → Fin n} {depth l : ℕ} {t t' : Trie n κ α} {k k' : κ} {a a' : α}
  {child : Fin n → Trie n κ α} {o : Option α}

@[simp]
theorem lookup_empty : (empty : Trie n κ α).lookup digit k l = none := by
  simp only [lookup]

theorem lookup_leaf : (leaf k' a : Trie n κ α).lookup digit k l = if k = k' then some a else none := by
  simp only [lookup]

theorem lookup_branch :
    (branch child).lookup digit k l = (child (digit k l)).lookup digit k (l + 1) := by
  simp only [lookup]

/-- A lookup finds exactly the leaves. -/
theorem Routed.lookup_eq_some_iff (h : t.Routed digit depth l) :
    t.lookup digit k l = some a ↔ (k, a) ∈ t.leaves := by
  induction t generalizing l with
  | empty => simp [leaves]
  | leaf k' a' =>
    simp only [lookup_leaf, leaves, List.mem_singleton, Prod.mk.injEq]
    by_cases hk : k = k'
    · simp [hk, eq_comm]
    · simp [hk]
  | branch child ih =>
    obtain ⟨-, hchild⟩ := h
    simp only [lookup_branch, leaves, List.mem_flatMap]
    rw [ih _ (hchild _).1]
    constructor
    · intro hm
      exact ⟨_, List.mem_finRange _, hm⟩
    · rintro ⟨d, -, hm⟩
      -- the leaf is below the child its own digit selects
      rwa [(hchild d).2 _ hm]

omit [DecidableEq κ] in
/-- A walk meets no key twice. -/
theorem Routed.nodup_keys (h : t.Routed digit depth l) : (t.leaves.map Prod.fst).Nodup := by
  induction t generalizing l with
  | empty => exact List.nodup_nil
  | leaf k a => exact List.nodup_singleton k
  | branch child ih =>
    obtain ⟨-, hchild⟩ := h
    rw [leaves, List.map_flatMap, List.nodup_flatMap]
    refine ⟨fun d _ => ih d (hchild d).1, ?_⟩
    refine (List.nodup_finRange n).imp fun {d e} hne => ?_
    -- a key below two children would have two digits
    intro k hkd hke
    obtain ⟨p, hp, rfl⟩ := List.mem_map.mp hkd
    obtain ⟨q, hq, hqp⟩ := List.mem_map.mp hke
    refine hne ?_
    rw [← (hchild d).2 p hp, ← (hchild e).2 q hq, hqp]

omit [DecidableEq κ] in
theorem Routed.of_branch {d : Fin n} (h : (branch child).Routed digit depth l) :
    (child d).Routed digit depth (l + 1) :=
  (h.2 d).1

/-! ## Changing one binding -/

/-- A key that is not bound can be removed by doing nothing. -/
theorem Rebinds.absent (h : t.Routed digit depth l) (hk : t.lookup digit k l = none) :
    Rebinds digit depth l t t k none := by
  refine ⟨h, fun k' => ?_⟩
  split
  · subst k'
    exact hk
  · rfl

/-- A leaf in an empty place. -/
theorem Rebinds.fresh : Rebinds digit depth l empty (leaf k a) k (some a) :=
  ⟨trivial, fun k' => by rw [lookup_leaf, lookup_empty]⟩

/-- The value in a leaf is replaced. -/
theorem Rebinds.replace : Rebinds digit depth l (leaf k a') (leaf k a) k (some a) := by
  refine ⟨trivial, fun k' => ?_⟩
  rw [lookup_leaf, lookup_leaf]
  split <;> rfl

/-- A leaf is removed. -/
theorem Rebinds.remove : Rebinds digit depth l (leaf k a) empty k none := by
  refine ⟨trivial, fun k' => ?_⟩
  rw [lookup_leaf, lookup_empty]
  split <;> rfl

/-- The keys bound after a change are the old ones and the new one. -/
theorem Rebinds.mem_leaves {p : κ × α} (h : Rebinds digit depth l t t' k o)
    (ht : t.Routed digit depth l) (hp : p ∈ t'.leaves) : p.1 = k ∨ p ∈ t.leaves := by
  have hl := h.routed.lookup_eq_some_iff.mpr hp
  rw [h.lookup_eq] at hl
  split at hl
  · exact Or.inl ‹_›
  · exact Or.inr (ht.lookup_eq_some_iff.mp hl)

/-- One child of a branch changes, the one the digit of the key selects. -/
theorem Rebinds.branch (hrouted : (Trie.branch child).Routed digit depth l)
    (h : Rebinds digit depth (l + 1) (child (digit k l)) t k o) :
    Rebinds digit depth l (.branch child)
      (.branch (Function.update child (digit k l) t)) k o := by
  refine ⟨⟨hrouted.1, fun d => ?_⟩, fun k' => ?_⟩
  · by_cases hd : d = digit k l
    · subst hd
      rw [Function.update_self]
      refine ⟨h.routed, fun p hp => ?_⟩
      rcases h.mem_leaves (hrouted.2 _).1 hp with hk | hp
      · rw [hk]
      · exact (hrouted.2 _).2 p hp
    · rw [Function.update_of_ne hd]
      exact hrouted.2 d
  · rw [lookup_branch, lookup_branch]
    by_cases hd : digit k' l = digit k l
    · rw [hd, Function.update_self, h.lookup_eq]
    · have hk : k' ≠ k := fun hk => hd (by rw [hk])
      rw [Function.update_of_ne hd, if_neg hk]

omit [DecidableEq κ] in
/-- A branch whose children are all empty. -/
theorem routed_bare (digit : κ → ℕ → Fin n) (hl : l < depth) :
    (branch fun _ => empty : Trie n κ α).Routed digit depth l :=
  ⟨hl, fun _ => ⟨trivial, fun _ hp => absurd hp List.not_mem_nil⟩⟩

/-- Two leaves that part at this level. -/
theorem Rebinds.split (hl : l < depth) (hd : digit k' l ≠ digit k l) :
    Rebinds digit depth l (leaf k' a')
      (.branch (Function.update (Function.update (fun _ => empty) (digit k l) (leaf k a))
        (digit k' l) (leaf k' a'))) k (some a) := by
  have hne : k' ≠ k := fun hk => hd (by rw [hk])
  -- insert the new key below a bare branch, then the old one
  have h₁ := Rebinds.branch (k := k) (routed_bare digit hl)
    (show Rebinds digit depth (l + 1) empty (leaf k a) k (some a) from Rebinds.fresh)
  have h₂ := Rebinds.branch (k := k') (t := leaf k' a') (o := some a') h₁.routed (by
    rw [Function.update_of_ne hd]
    exact Rebinds.fresh)
  refine ⟨h₂.routed, fun j => ?_⟩
  rw [h₂.lookup_eq, h₁.lookup_eq, lookup_leaf, lookup_branch, lookup_empty]
  by_cases hj : j = k'
  · rw [if_pos hj, if_neg (fun hk => hne (hj ▸ hk)), if_pos hj]
  · rw [if_neg hj, if_neg hj]

/-- Two leaves that part further down. -/
theorem Rebinds.descend (hl : l < depth) (hd : digit k' l = digit k l)
    (h : Rebinds digit depth (l + 1) (leaf k' a') t k o) :
    Rebinds digit depth l (leaf k' a')
      (.branch (Function.update (fun _ => empty) (digit k l) t)) k o := by
  have h₁ := Rebinds.branch (k := k') (t := leaf k' a') (o := some a')
    (routed_bare digit hl) Rebinds.fresh
  have h₂ := Rebinds.branch (k := k) (t := t) (o := o) h₁.routed (by
    rw [hd, Function.update_self]
    exact h)
  rw [hd] at h₁ h₂
  rw [Function.update_idem] at h₂
  refine ⟨h₂.routed, fun j => ?_⟩
  rw [h₂.lookup_eq, h₁.lookup_eq, lookup_leaf, lookup_branch, lookup_empty]

/-- The child that held the key became empty and only a leaf is left: it takes the place of
the branch. -/
theorem Rebinds.collapse {d : Fin n} (hrouted : (Trie.branch child).Routed digit depth l)
    (h : Rebinds digit depth (l + 1) (child (digit k l)) empty k none)
    (hd : child d = leaf k' a') (hne : d ≠ digit k l)
    (hother : ∀ e, e ≠ digit k l → e ≠ d → child e = empty) :
    Rebinds digit depth l (.branch child) (leaf k' a') k none := by
  have hroute : digit k' l = d := (hrouted.2 d).2 (k', a') (by simp [hd, leaves])
  have hup := Rebinds.branch hrouted h
  refine ⟨trivial, fun j => ?_⟩
  rw [← hup.lookup_eq, lookup_branch, lookup_leaf]
  by_cases hj : digit j l = d
  · rw [hj, Function.update_of_ne hne, hd, lookup_leaf]
  · have hjk : j ≠ k' := fun hjk => hj (hjk ▸ hroute)
    rw [if_neg hjk]
    by_cases hjd : digit j l = digit k l
    · rw [hjd, Function.update_self, lookup_empty]
    · rw [Function.update_of_ne hjd, hother _ hjd hj, lookup_empty]

/-- The child that held the key became empty and no other is left. -/
theorem Rebinds.vanish (hrouted : (Trie.branch child).Routed digit depth l)
    (h : Rebinds digit depth (l + 1) (child (digit k l)) empty k none)
    (hother : ∀ e, e ≠ digit k l → child e = empty) :
    Rebinds digit depth l (.branch child) empty k none := by
  have hup := Rebinds.branch hrouted h
  refine ⟨trivial, fun j => ?_⟩
  rw [← hup.lookup_eq, lookup_branch, lookup_empty]
  by_cases hj : digit j l = digit k l
  · rw [hj, Function.update_self, lookup_empty]
  · rw [Function.update_of_ne hj, hother _ hj, lookup_empty]

end

end Trie
