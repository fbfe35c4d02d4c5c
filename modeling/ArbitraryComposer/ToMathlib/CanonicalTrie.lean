import ArbitraryComposer.ToMathlib.Trie
import Mathlib.Algebra.BigOperators.Fin
import Mathlib.Algebra.Order.BigOperators.Group.Finset

/-!
# Insertion and Removal in Tries, and their Shapes

Insertion puts a leaf where the digits of its key lead. Where it meets the leaf of another key it
builds a branch for each further digit that the two keys share, and one that tells them apart.
Removal takes a leaf away. A branch whose child became empty, and that has only a leaf left,
becomes that leaf. A branch whose child became a leaf stays: removal does not look at it again.

A trie is canonical when every branch has two leaves or more below it; its shape then depends on
its keys alone. Insertion keeps a trie canonical. Removal does so unless at some level one other key
alone shares the digits up to there, and shares the next digit as well.

## Main definitions

- `Trie.insertAt`, `Trie.eraseAt`: the two operations.
- `Trie.shape`: a trie without its values.
- `Trie.Canonical`: every branch has two leaves below it.
- `Trie.Chained`: one other key alone shares the digits up to some level, and the next.

## Main results

- `Trie.rebinds_insertAt`, `Trie.rebinds_eraseAt`: the operations change one binding.
- `Trie.Canonical.insertAt`, `Trie.Canonical.eraseAt`: what they keep canonical.
- `Trie.Canonical.shape_eq`: canonical tries with the same keys have the same shape.
-/

namespace Trie

variable {n : ℕ} {κ α β : Type}

/-- Whether a trie is empty. -/
def isEmpty : Trie n κ α → Bool
  | empty => true
  | leaf _ _ => false
  | branch _ => false

/-- Whether a trie is a leaf. -/
def isLeaf : Trie n κ α → Bool
  | empty => false
  | leaf _ _ => true
  | branch _ => false

/-- The children that are not empty. -/
def present (child : Fin n → Trie n κ α) : List (Fin n) :=
  (List.finRange n).filter fun d => !(child d).isEmpty

/-- A branch one of whose children has become empty: nothing where no child is left, and the leaf
where a leaf is left alone. -/
def joined (child : Fin n → Trie n κ α) : Trie n κ α :=
  match present child with
  | [] => empty
  | [d] => if (child d).isLeaf then child d else branch child
  | _ => branch child

/-- The branches that tell two keys apart, of which the first is in the trie; there are so many
levels to go. -/
def splitAt (digit : κ → ℕ → Fin n) (k' : κ) (a' : α) (k : κ) (a : α) : ℕ → ℕ → Trie n κ α
  | 0, _ => leaf k a
  | fuel + 1, l =>
    if digit k' l = digit k l then
      branch (Function.update (fun _ => empty) (digit k l) (splitAt digit k' a' k a fuel (l + 1)))
    else
      branch (Function.update (Function.update (fun _ => empty) (digit k l) (leaf k a))
        (digit k' l) (leaf k' a'))

section

variable [DecidableEq κ]

/-- Bind a key below level `l`; there are so many levels to go. -/
def insertAt (digit : κ → ℕ → Fin n) (k : κ) (a : α) : ℕ → ℕ → Trie n κ α → Trie n κ α
  | _, _, empty => leaf k a
  | fuel, l, leaf k' a' => if k' = k then leaf k a else splitAt digit k' a' k a fuel l
  | 0, _, branch child => branch child
  | fuel + 1, l, branch child =>
    branch (Function.update child (digit k l)
      (insertAt digit k a fuel (l + 1) (child (digit k l))))

/-- Remove a key below level `l`. -/
def eraseAt (digit : κ → ℕ → Fin n) (k : κ) : ℕ → Trie n κ α → Trie n κ α
  | _, empty => empty
  | _, leaf k' a => if k' = k then empty else leaf k' a
  | l, branch child =>
    if (child (digit k l)).isEmpty then branch child
    else
      let rest := eraseAt digit k (l + 1) (child (digit k l))
      if rest.isEmpty then joined (Function.update child (digit k l) empty)
      else branch (Function.update child (digit k l) rest)

end

/-- A trie without its values. -/
def shape : Trie n κ α → Trie n κ Unit
  | empty => empty
  | leaf k _ => leaf k ()
  | branch child => branch fun d => (child d).shape

/-- Every branch has two leaves or more below it. -/
def Canonical : Trie n κ α → Prop
  | empty => True
  | leaf _ _ => True
  | branch child => 2 ≤ (branch child).leaves.length ∧ ∀ d, (child d).Canonical

/-- Every branch other than the trie itself has two leaves or more below it. -/
def CanonicalBelow : Trie n κ α → Prop
  | empty => True
  | leaf _ _ => True
  | branch child => ∀ d, (child d).Canonical

/-- Whether a trie is canonical can be computed. -/
instance decidableCanonical : (t : Trie n κ α) → Decidable t.Canonical
  | empty => .isTrue trivial
  | leaf _ _ => .isTrue trivial
  | branch child =>
    have := fun d => decidableCanonical (child d)
    inferInstanceAs (Decidable (2 ≤ (branch child).leaves.length ∧ ∀ d, (child d).Canonical))

instance : (t : Trie n κ α) → Decidable t.CanonicalBelow
  | empty => .isTrue trivial
  | leaf _ _ => .isTrue trivial
  | branch child => inferInstanceAs (Decidable (∀ d, (child d).Canonical))

/-- The keys of the leaves. -/
def keys (t : Trie n κ α) : List κ := t.leaves.map Prod.fst

/-- One other key alone shares the digits of a key up to some level, and it shares the next one,
too. -/
def Chained (digit : κ → ℕ → Fin n) (l depth : ℕ) (keys : List κ) (k : κ) : Prop :=
  ∃ p < depth, l ≤ p ∧ ∃ k' ∈ keys, k' ≠ k ∧ (∀ j < p + 1, digit k' j = digit k j) ∧
    ∀ k'' ∈ keys, k'' ≠ k → (∀ j < p, digit k'' j = digit k j) → k'' = k'

instance [DecidableEq κ] (digit : κ → ℕ → Fin n) (l depth : ℕ) (keys : List κ) (k : κ) :
    Decidable (Chained digit l depth keys k) := by
  unfold Chained
  infer_instance

section

variable {digit : κ → ℕ → Fin n} {depth l : ℕ} {t t' : Trie n κ α} {k k' : κ} {a a' : α}
  {child : Fin n → Trie n κ α}

theorem Canonical.below (h : t.Canonical) : t.CanonicalBelow := by
  cases t with
  | empty => exact trivial
  | leaf k a => exact trivial
  | branch child => exact h.2

/-- Whether a key is chained depends on which keys there are. -/
theorem Chained.congr {keys keys' : List κ} (h : Chained digit l depth keys k)
    (hmem : ∀ j, j ∈ keys ↔ j ∈ keys') : Chained digit l depth keys' k := by
  obtain ⟨p, hp, hlp, k', hk', hne, hagree, hone⟩ := h
  exact ⟨p, hp, hlp, k', (hmem k').mp hk', hne, hagree, fun k'' hk'' =>
    hone k'' ((hmem k'').mpr hk'')⟩

theorem eq_empty_of_isEmpty (h : t.isEmpty = true) : t = empty := by
  cases t with
  | empty => rfl
  | leaf k a => cases h
  | branch child => cases h

theorem mem_present {d : Fin n} : d ∈ present child ↔ (child d).isEmpty = false := by
  simp [present, List.mem_filter]

/-! ## Leaves -/

theorem mem_keys_branch (h : (branch child).Routed digit depth l) :
    k ∈ (child (digit k l)).keys ↔ k ∈ (branch child).keys := by
  constructor
  · intro hk
    obtain ⟨p, hp, rfl⟩ := List.mem_map.mp hk
    exact List.mem_map.mpr ⟨p, List.mem_flatMap.mpr ⟨_, List.mem_finRange _, hp⟩, rfl⟩
  · intro hk
    obtain ⟨p, hp, rfl⟩ := List.mem_map.mp hk
    obtain ⟨d, -, hp⟩ := List.mem_flatMap.mp hp
    rw [(h.2 d).2 p hp]
    exact List.mem_map_of_mem hp

theorem mem_keys_of_child {d : Fin n} (hk : k ∈ (child d).keys) : k ∈ (branch child).keys := by
  obtain ⟨p, hp, rfl⟩ := List.mem_map.mp hk
  exact List.mem_map.mpr ⟨p, List.mem_flatMap.mpr ⟨_, List.mem_finRange _, hp⟩, rfl⟩

/-- A branch has the leaves of its children. -/
theorem length_leaves_branch (child : Fin n → Trie n κ α) :
    (branch child).leaves.length = ∑ d, (child d).leaves.length := by
  rw [leaves, List.length_flatMap, ← List.ofFn_eq_map, List.sum_ofFn]

theorem length_leaves_le (child : Fin n → Trie n κ α) (d : Fin n) :
    (child d).leaves.length ≤ (branch child).leaves.length := by
  rw [length_leaves_branch]
  exact Finset.single_le_sum (f := fun d => (child d).leaves.length)
    (fun _ _ => Nat.zero_le _) (Finset.mem_univ d)

theorem length_leaves_add_le (child : Fin n → Trie n κ α) {d e : Fin n} (h : d ≠ e) :
    (child d).leaves.length + (child e).leaves.length ≤ (branch child).leaves.length := by
  rw [length_leaves_branch, ← Finset.sum_pair (f := fun d => (child d).leaves.length) h]
  exact Finset.sum_le_sum_of_subset (Finset.subset_univ _)

/-- Where another child has as many leaves, the branch has as many more. -/
theorem length_leaves_update (child : Fin n → Trie n κ α) (d : Fin n) (t : Trie n κ α) :
    (branch (Function.update child d t)).leaves.length + (child d).leaves.length =
      (branch child).leaves.length + t.leaves.length := by
  rw [length_leaves_branch, length_leaves_branch]
  have hrest : ∀ f : Fin n → Trie n κ α, ∑ e, (f e).leaves.length =
      (f d).leaves.length + ∑ e ∈ Finset.univ.erase d, (f e).leaves.length := fun f =>
    (Finset.add_sum_erase _ (fun e => (f e).leaves.length) (Finset.mem_univ d)).symm
  rw [hrest child, hrest (Function.update child d t), Function.update_self]
  have hsame : ∑ e ∈ Finset.univ.erase d, (Function.update child d t e).leaves.length =
      ∑ e ∈ Finset.univ.erase d, (child e).leaves.length := by
    refine Finset.sum_congr rfl fun e he => ?_
    rw [Function.update_of_ne (Finset.ne_of_mem_erase he)]
  rw [hsame]
  omega

/-- A canonical trie without leaves is empty. -/
theorem Canonical.length_leaves_pos (h : t.Canonical) (hne : t.isEmpty = false) :
    0 < t.leaves.length := by
  cases t with
  | empty => cases hne
  | leaf k a => exact Nat.one_pos
  | branch child => exact Nat.lt_of_lt_of_le (by omega) h.1

/-- A canonical trie with one leaf is that leaf. -/
theorem Canonical.isLeaf_of_length (h : t.Canonical) (hone : t.leaves.length = 1) :
    t.isLeaf = true := by
  cases t with
  | empty => cases hone
  | leaf k a => rfl
  | branch child =>
    have htwo := h.1
    omega

end

section

variable [DecidableEq κ] {digit : κ → ℕ → Fin n} {depth l : ℕ} {t t' : Trie n κ α} {k k' : κ}
  {a a' : α} {child : Fin n → Trie n κ α} {o : Option α}

/-! ## One binding changes -/

theorem Routed.mem_keys_iff (h : t.Routed digit depth l) :
    k ∈ t.keys ↔ ∃ a, t.lookup digit k l = some a := by
  constructor
  · intro hk
    obtain ⟨p, hp, rfl⟩ := List.mem_map.mp hk
    exact ⟨p.2, h.lookup_eq_some_iff.mpr hp⟩
  · rintro ⟨a, ha⟩
    exact List.mem_map.mpr ⟨(k, a), h.lookup_eq_some_iff.mp ha, rfl⟩

/-- Two keys that differ further down are told apart. -/
theorem rebinds_splitAt {fuel p : ℕ} (hl : l ≤ p) (hfuel : p < l + fuel) (hp : p < depth)
    (hne : digit k' p ≠ digit k p) :
    Rebinds digit depth l (leaf k' a') (splitAt digit k' a' k a fuel l) k (some a) := by
  induction fuel generalizing l with
  | zero => omega
  | succ fuel ih =>
    rw [splitAt]
    split
    case isTrue hd =>
      have hlt : l ≠ p := by
        rintro rfl
        exact hne hd
      exact Rebinds.descend (by omega) hd (ih (by omega) (by omega))
    case isFalse hd => exact Rebinds.split (by omega) hd

theorem insertAt_empty {fuel : ℕ} :
    (empty : Trie n κ α).insertAt digit k a fuel l = leaf k a := by
  cases fuel <;> rfl

/-- An insertion binds its key. -/
theorem rebinds_insertAt {fuel : ℕ} (h : t.Routed digit depth l) (hfuel : depth ≤ l + fuel)
    (hinj : ∀ k' ∈ t.keys, k' ≠ k → ∃ p, l ≤ p ∧ p < depth ∧ digit k' p ≠ digit k p) :
    Rebinds digit depth l t (t.insertAt digit k a fuel l) k (some a) := by
  induction t generalizing l fuel with
  | empty =>
    rw [insertAt_empty]
    exact Rebinds.fresh
  | leaf k' a' =>
    rw [insertAt]
    split
    case isTrue hk =>
      subst hk
      exact Rebinds.replace
    case isFalse hk =>
      obtain ⟨p, hl, hp, hne⟩ := hinj k' (List.mem_singleton_self k') hk
      exact rebinds_splitAt hl (by omega) hp hne
  | branch child ih =>
    have hl := h.1
    cases fuel with
    | zero => omega
    | succ fuel =>
      rw [insertAt]
      refine Rebinds.branch h (ih _ h.of_branch (by omega) fun k' hk' hne => ?_)
      obtain ⟨p, hlp, hp, hdiff⟩ := hinj k' (mem_keys_of_child hk') hne
      refine ⟨p, ?_, hp, hdiff⟩
      -- below this child all keys share the digit
      obtain ⟨q, hq, rfl⟩ := List.mem_map.mp hk'
      have hdigit := (h.2 _).2 q hq
      have hlt : l ≠ p := by
        rintro rfl
        exact hdiff hdigit
      omega

/-- A removal takes its key away. -/
theorem rebinds_eraseAt (h : t.Routed digit depth l) :
    Rebinds digit depth l t (t.eraseAt digit k l) k none := by
  induction t generalizing l with
  | empty => exact Rebinds.absent h lookup_empty
  | leaf k' a' =>
    rw [eraseAt]
    split
    case isTrue hk =>
      subst hk
      exact Rebinds.remove
    case isFalse hk =>
      refine Rebinds.absent h ?_
      rw [lookup_leaf, if_neg (Ne.symm hk)]
  | branch child ih =>
    rw [eraseAt]
    split
    case isTrue hempty =>
      refine Rebinds.absent h ?_
      rw [lookup_branch, eq_empty_of_isEmpty hempty, lookup_empty]
    case isFalse =>
      have hrest := ih (digit k l) h.of_branch
      dsimp only
      split
      case isFalse => exact hrest.branch h
      case isTrue hgone =>
        rw [eq_empty_of_isEmpty hgone] at hrest
        unfold joined
        split
        case h_1 hnone =>
          refine hrest.vanish h fun e he => ?_
          by_contra hne
          have hmem : e ∈ present (Function.update child (digit k l) empty) := by
            rw [mem_present, Function.update_of_ne he]
            exact Bool.eq_false_of_not_eq_true fun hempty => hne (eq_empty_of_isEmpty hempty)
          rw [hnone] at hmem
          cases hmem
        case h_2 d hone =>
          split
          case isFalse => exact hrest.branch h
          case isTrue hleaf =>
            have hd : d ≠ digit k l := by
              rintro rfl
              rw [Function.update_self] at hleaf
              cases hleaf
            rw [Function.update_of_ne hd] at hleaf ⊢
            cases hchild : child d with
            | empty =>
              rw [hchild] at hleaf
              cases hleaf
            | branch _ =>
              rw [hchild] at hleaf
              cases hleaf
            | leaf k' a' =>
              refine hrest.collapse h hchild hd fun e he hed => ?_
              by_contra hne
              have hmem : e ∈ present (Function.update child (digit k l) empty) := by
                rw [mem_present, Function.update_of_ne he]
                exact Bool.eq_false_of_not_eq_true fun hempty => hne (eq_empty_of_isEmpty hempty)
              rw [hone, List.mem_singleton] at hmem
              exact hed hmem
        case h_3 => exact hrest.branch h

/-- A key that is not there is removed by doing nothing. -/
theorem eraseAt_of_not_mem (hk : k ∉ t.keys) : t.eraseAt digit k l = t := by
  induction t generalizing l with
  | empty => rfl
  | leaf k' a' =>
    rw [eraseAt, if_neg]
    rintro rfl
    exact hk (List.mem_singleton_self _)
  | branch child ih =>
    rw [eraseAt]
    split
    case isTrue => rfl
    case isFalse hne =>
      have hrest : (child (digit k l)).eraseAt digit k (l + 1) = child (digit k l) :=
        ih _ fun hmem => hk (mem_keys_of_child hmem)
      dsimp only
      rw [hrest, if_neg hne, Function.update_eq_self]

theorem Rebinds.mem_keys_none {j : κ} (h : Rebinds digit depth l t t' k none)
    (ht : t.Routed digit depth l) : j ∈ t'.keys ↔ j ∈ t.keys ∧ j ≠ k := by
  rw [h.routed.mem_keys_iff, ht.mem_keys_iff, h.lookup_eq]
  by_cases hj : j = k
  · simp [hj]
  · simp [hj]

/-- One leaf goes. -/
theorem Rebinds.length_leaves_none (h : Rebinds digit depth l t t' k none)
    (ht : t.Routed digit depth l) (hk : k ∈ t.keys) :
    t'.leaves.length + 1 = t.leaves.length := by
  have hnodup := ht.nodup_keys
  have hperm : t'.keys.Perm (t.keys.erase k) := by
    refine (List.perm_ext_iff_of_nodup h.routed.nodup_keys (hnodup.erase k)).mpr fun j => ?_
    show j ∈ t'.keys ↔ _
    rw [h.mem_keys_none ht, List.Nodup.mem_erase_iff hnodup, and_comm]
    rfl
  have hlength := hperm.length_eq
  rw [List.length_erase_of_mem hk] at hlength
  have hpos := List.length_pos_of_mem hk
  simp only [keys, List.length_map] at hlength hpos
  omega

/-! ## Canonical tries -/

omit [DecidableEq κ] in
theorem canonical_update {d : Fin n} (hchild : ∀ e, (child e).Canonical) (ht : t.Canonical)
    (e : Fin n) : (Function.update child d t e).Canonical := by
  by_cases he : e = d
  · subst he
    rwa [Function.update_self]
  · rw [Function.update_of_ne he]
    exact hchild e

omit [DecidableEq κ] in
theorem length_leaves_bare : (branch fun _ => empty : Trie n κ α).leaves.length = 0 := by
  rw [length_leaves_branch]
  exact Finset.sum_eq_zero fun _ _ => rfl

omit [DecidableEq κ] in
/-- The branches that tell two keys apart have two leaves. -/
theorem canonical_splitAt {fuel p : ℕ} (hl : l ≤ p) (hfuel : p < l + fuel)
    (hne : digit k' p ≠ digit k p) :
    (splitAt digit k' a' k a fuel l).Canonical ∧
      (splitAt digit k' a' k a fuel l).leaves.length = 2 := by
  have hbare : ∀ e : Fin n, ((fun _ => empty : Fin n → Trie n κ α) e).Canonical := fun _ => trivial
  induction fuel generalizing l with
  | zero => omega
  | succ fuel ih =>
    rw [splitAt]
    split
    case isTrue hd =>
      have hlt : l ≠ p := by
        rintro rfl
        exact hne hd
      obtain ⟨hcanonical, htwo⟩ := ih (l := l + 1) (by omega) (by omega)
      have hlength := length_leaves_update (fun _ => empty) (digit k l)
        (splitAt digit k' a' k a fuel (l + 1))
      rw [length_leaves_bare, htwo] at hlength
      have hlength : (branch (Function.update (fun _ => empty) (digit k l)
          (splitAt digit k' a' k a fuel (l + 1)))).leaves.length = 2 := by
        simpa [leaves] using hlength
      exact ⟨⟨by omega, canonical_update hbare hcanonical⟩, hlength⟩
    case isFalse hd =>
      have hone := length_leaves_update (fun _ => empty) (digit k l) (leaf k a)
      have htwo := length_leaves_update (Function.update (fun _ => empty) (digit k l) (leaf k a))
        (digit k' l) (leaf k' a')
      rw [Function.update_of_ne hd] at htwo
      rw [length_leaves_bare] at hone
      simp only [leaves, List.length_singleton, List.length_nil] at hone htwo
      have hlength : (branch (Function.update (Function.update (fun _ => empty) (digit k l)
          (leaf k a)) (digit k' l) (leaf k' a'))).leaves.length = 2 := by
        simp only [leaves]
        omega
      exact ⟨⟨by omega, canonical_update (canonical_update hbare trivial) trivial⟩, hlength⟩

/-- An insertion keeps a trie canonical. -/
theorem Canonical.insertAt {fuel : ℕ} (h : t.Canonical) (hfuel : depth ≤ l + fuel)
    (hrouted : t.Routed digit depth l)
    (hinj : ∀ k' ∈ t.keys, k' ≠ k → ∃ p, l ≤ p ∧ p < depth ∧ digit k' p ≠ digit k p) :
    (t.insertAt digit k a fuel l).Canonical ∧
      t.leaves.length ≤ (t.insertAt digit k a fuel l).leaves.length := by
  induction t generalizing l fuel with
  | empty =>
    rw [insertAt_empty]
    exact ⟨trivial, Nat.zero_le _⟩
  | leaf k' a' =>
    rw [Trie.insertAt]
    split
    case isTrue => exact ⟨trivial, Nat.le_refl _⟩
    case isFalse hk =>
      obtain ⟨p, hl, hp, hne⟩ := hinj k' (List.mem_singleton_self k') hk
      obtain ⟨hcanonical, htwo⟩ : (splitAt digit k' a' k a fuel l).Canonical ∧
          (splitAt digit k' a' k a fuel l).leaves.length = 2 :=
        canonical_splitAt hl (by omega) hne
      exact ⟨hcanonical, by rw [htwo]; exact Nat.le_succ 1⟩
  | branch child ih =>
    cases fuel with
    | zero => exact ⟨h, Nat.le_refl _⟩
    | succ fuel =>
      rw [Trie.insertAt]
      obtain ⟨hcanonical, hle⟩ := @ih (digit k l) (l + 1) fuel (h.2 _) (by omega)
        hrouted.of_branch fun k' hk' hne => by
          obtain ⟨p, hlp, hp, hdiff⟩ := hinj k' (mem_keys_of_child hk') hne
          obtain ⟨q, hq, rfl⟩ := List.mem_map.mp hk'
          have hdigit := (hrouted.2 _).2 q hq
          have hlt : l ≠ p := by
            rintro rfl
            exact hdiff hdigit
          exact ⟨p, by omega, hp, hdiff⟩
      have hlength := length_leaves_update child (digit k l)
        ((child (digit k l)).insertAt digit k a fuel (l + 1))
      have htwo := h.1
      exact ⟨⟨by omega, canonical_update h.2 hcanonical⟩, by omega⟩

omit [DecidableEq κ] in
/-- What a branch that lost a child becomes is canonical. -/
theorem canonical_joined (h : ∀ d, (child d).Canonical) : (joined child).Canonical := by
  unfold joined
  split
  case h_1 => trivial
  case h_2 d hone =>
    split
    case isTrue => exact h d
    case isFalse hleaf =>
      -- the only child is a branch
      have hd : (child d).isEmpty = false :=
        mem_present.mp (by rw [hone]; exact List.mem_singleton_self d)
      have hpos := (h d).length_leaves_pos hd
      have hone' : (child d).leaves.length ≠ 1 := fun hone => hleaf ((h d).isLeaf_of_length hone)
      have hle := length_leaves_le child d
      exact ⟨by omega, h⟩
  case h_3 hnone hone =>
    obtain ⟨d, e, rest, hpresent⟩ : ∃ d e rest, present child = d :: e :: rest := by
      cases hp : present child with
      | nil => exact absurd hp hnone
      | cons d rest =>
        cases rest with
        | nil => exact absurd hp (hone d)
        | cons e rest => exact ⟨d, e, rest, rfl⟩
    have hnodup : (present child).Nodup := (List.nodup_finRange n).filter _
    rw [hpresent] at hnodup
    have hde : d ≠ e := fun hde => (List.nodup_cons.mp hnodup).1 (hde ▸ List.mem_cons_self ..)
    have hd := (h d).length_leaves_pos (mem_present.mp (by rw [hpresent]; simp))
    have he := (h e).length_leaves_pos (mem_present.mp (by rw [hpresent]; simp))
    have hle := length_leaves_add_le child hde
    exact ⟨by omega, h⟩

omit [DecidableEq κ] in
/-- The keys below a child that are chained are chained. -/
theorem Chained.of_child (hrouted : (branch child).Routed digit depth l)
    (h : Chained digit (l + 1) depth (child (digit k l)).keys k) :
    Chained digit l depth (branch child).keys k := by
  obtain ⟨p, hp, hlp, k', hk', hne, hagree, hone⟩ := h
  refine ⟨p, hp, by omega, k', mem_keys_of_child hk', hne, hagree, fun k'' hk'' hne'' hagree'' =>
    hone k'' ?_ hne'' hagree''⟩
  rw [← hagree'' l (by omega)]
  exact (mem_keys_branch hrouted).mpr hk''

/-- A removal keeps a trie canonical unless its key is chained. -/
theorem Canonical.eraseAt (h : t.Canonical) (hrouted : t.Routed digit depth l)
    (hagree : ∀ k' ∈ t.keys, ∀ j < l, digit k' j = digit k j)
    (hchained : ¬ Chained digit l depth t.keys k) : (t.eraseAt digit k l).Canonical := by
  by_cases hk : k ∈ t.keys
  case neg =>
    rw [eraseAt_of_not_mem hk]
    exact h
  induction t generalizing l with
  | empty => exact trivial
  | leaf k' a' =>
    rw [Trie.eraseAt]
    split <;> exact trivial
  | branch child ih =>
    have hkeys := (mem_keys_branch hrouted).mpr hk
    have hdigit : ∀ k' ∈ (child (digit k l)).keys, digit k' l = digit k l := by
      intro k' hk'
      obtain ⟨p, hp, rfl⟩ := List.mem_map.mp hk'
      exact (hrouted.2 _).2 p hp
    have hagree' : ∀ k' ∈ (child (digit k l)).keys, ∀ j < l + 1, digit k' j = digit k j := by
      intro k' hk' j hj
      rcases Nat.lt_succ_iff_lt_or_eq.mp hj with hj | rfl
      · exact hagree k' (mem_keys_of_child hk') j hj
      · exact hdigit k' hk'
    have hrest := ih (digit k l) (h.2 _) hrouted.of_branch hagree'
      (fun hchained' => hchained (hchained'.of_child hrouted)) hkeys
    rw [Trie.eraseAt]
    split
    case isTrue => exact h
    case isFalse =>
      dsimp only
      split
      case isTrue => exact canonical_joined (canonical_update h.2 trivial)
      case isFalse hne =>
        refine ⟨?_, canonical_update h.2 hrest⟩
        -- With two leaves in all, both below this child, the key would be chained.
        have hsub := (rebinds_eraseAt (k := k) hrouted.of_branch).length_leaves_none
          hrouted.of_branch hkeys
        have hpos := hrest.length_leaves_pos ((Bool.not_eq_true _).mp hne)
        have hlength := length_leaves_update child (digit k l)
          ((child (digit k l)).eraseAt digit k (l + 1))
        have hle := length_leaves_le child (digit k l)
        by_contra hlt
        refine hchained ⟨l, hrouted.1, Nat.le_refl l, ?_⟩
        obtain ⟨k', hk', hother⟩ : ∃ k' ∈ (child (digit k l)).keys, k' ≠ k := by
          have htwo : (child (digit k l)).keys.length = 2 := by
            rw [keys, List.length_map]
            omega
          obtain ⟨x, y, hxy⟩ := List.length_eq_two.mp htwo
          have hnodup : (child (digit k l)).keys.Nodup := hrouted.of_branch.nodup_keys
          rw [hxy] at hnodup ⊢
          by_cases hx : x = k
          · subst hx
            refine ⟨y, by simp, fun hy => ?_⟩
            subst hy
            simp at hnodup
          · exact ⟨x, by simp, hx⟩
        refine ⟨k', mem_keys_of_child hk', hother, hagree' k' hk', fun k'' hk'' hne'' _ => ?_⟩
        have htwo : (branch child).keys.length = 2 := by
          rw [keys, List.length_map]
          omega
        obtain ⟨x, y, hxy⟩ := List.length_eq_two.mp htwo
        have hmem := mem_keys_of_child hk'
        rw [hxy] at hk hk'' hmem
        simp only [List.mem_cons, List.not_mem_nil, or_false] at hk hk'' hmem
        rcases hk with rfl | rfl <;> rcases hk'' with rfl | rfl <;> rcases hmem with rfl | rfl <;>
          first | rfl | exact absurd rfl hne'' | exact absurd rfl hother

omit [DecidableEq κ] in
/-- A leaf is the only key of a trie with that one key. -/
theorem Canonical.eq_leaf (h : t.Canonical) (hrouted : t.Routed digit depth l)
    (hkeys : ∀ j, j ∈ t.keys ↔ j = k) : ∃ a, t = leaf k a := by
  cases t with
  | empty => exact absurd ((hkeys k).mpr rfl) List.not_mem_nil
  | leaf k' a =>
    obtain rfl := (hkeys k').mp (List.mem_singleton_self k')
    exact ⟨a, rfl⟩
  | branch child =>
    have hnodup : (branch child).keys.Nodup := hrouted.nodup_keys
    have hlength : (branch child).keys.length ≤ 1 := by
      have hsub : (branch child).keys ⊆ [k] := fun j hj => List.mem_singleton.mpr ((hkeys j).mp hj)
      exact (hnodup.subperm hsub).length_le
    rw [keys, List.length_map] at hlength
    have htwo := h.1
    omega

omit [DecidableEq κ] in
/-- Canonical tries with the same keys have the same shape. -/
theorem Canonical.shape_eq {t' : Trie n κ β} (h : t.Canonical) (h' : t'.Canonical)
    (hrouted : t.Routed digit depth l) (hrouted' : t'.Routed digit depth l)
    (hkeys : ∀ j, j ∈ t.keys ↔ j ∈ t'.keys) : t.shape = t'.shape := by
  induction t generalizing l t' with
  | empty =>
    cases t' with
    | empty => rfl
    | leaf k' a' => exact absurd ((hkeys k').mpr (List.mem_singleton_self k')) List.not_mem_nil
    | branch child' =>
      have hpos := h'.length_leaves_pos rfl
      obtain ⟨p, hp⟩ := List.exists_mem_of_length_pos hpos
      exact absurd ((hkeys p.1).mpr (List.mem_map_of_mem hp)) List.not_mem_nil
  | leaf k a =>
    obtain ⟨a', rfl⟩ := h'.eq_leaf (k := k) hrouted' fun j => by
      rw [← hkeys j]
      exact List.mem_singleton
    rfl
  | branch child ih =>
    cases t' with
    | empty =>
      obtain ⟨p, hp⟩ := List.exists_mem_of_length_pos (h.length_leaves_pos rfl)
      exact absurd ((hkeys p.1).mp (List.mem_map_of_mem hp)) List.not_mem_nil
    | leaf k' a' =>
      obtain ⟨a, ha⟩ := h.eq_leaf (k := k') hrouted fun j => by
        rw [hkeys j]
        exact List.mem_singleton
      cases ha
    | branch child' =>
      rw [shape, shape]
      congr 1
      funext d
      refine ih d (h.2 d) (h'.2 d) hrouted.of_branch hrouted'.of_branch fun j => ?_
      by_cases hd : digit j l = d
      · subst hd
        rw [mem_keys_branch hrouted, mem_keys_branch hrouted']
        exact hkeys j
      · -- a key below another child is below neither
        have hnot : j ∉ (child d).keys := by
          intro hj
          obtain ⟨p, hp, rfl⟩ := List.mem_map.mp hj
          exact hd ((hrouted.2 d).2 p hp)
        have hnot' : j ∉ (child' d).keys := by
          intro hj
          obtain ⟨p, hp, rfl⟩ := List.mem_map.mp hj
          exact hd ((hrouted'.2 d).2 p hp)
        exact iff_of_false hnot hnot'

end

end Trie
