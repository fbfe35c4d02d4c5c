import Mathlib.Data.List.GetD
import Mathlib.Data.Fintype.Card

/-!
# Chains in a Map

Lists stored in a map of records, each record naming the key of the next one. A chain is found
from its head only. A family of chains is linked when each runs to an end and no record is on
two of them, and this is kept when one chain is written anew from records that were on it or on
no chain.

## Main definitions

- `Complete`: the records from a head to the end of a chain.
- `links`: records that name each other in order.
- `Linked`: a family of complete and disjoint chains.

## Main results

- `Complete.unique`, `Complete.nodup`: a head has one chain, without repetition.
- `complete_links`: records written in order are a chain.
- `Linked.rewrite`: one chain is written anew.
-/

namespace Chains

variable {κ ρ ι : Type}

/-- The records from a head to a key that ends the chain; `p` says which records are on chains. -/
inductive Complete (stop : κ → Prop) (next : ρ → κ) (p : ρ → Prop) (m : κ → Option ρ) :
    κ → List (κ × ρ) → Prop
  /-- The head ends the chain. -/
  | stop {head : κ} : stop head → Complete stop next p m head []
  /-- The head has a record. -/
  | link {head : κ} {r : ρ} {rest : List (κ × ρ)} : ¬ stop head → m head = some r → p r →
      Complete stop next p m (next r) rest → Complete stop next p m head ((head, r) :: rest)

/-- The keys of a chain. -/
abbrev keys (l : List (κ × ρ)) : List κ := l.map Prod.fst

section

variable {stop : κ → Prop} {next : ρ → κ} {p : ρ → Prop} {m m' : κ → Option ρ} {head k : κ}
  {l l' : List (κ × ρ)}

/-- A head has one chain. -/
theorem Complete.unique (h : Complete stop next p m head l) (h' : Complete stop next p m head l') :
    l = l' := by
  induction h generalizing l' with
  | stop hs =>
    cases h' with
    | stop _ => rfl
    | link hs' _ _ _ => exact absurd hs hs'
  | @link head r rest hs hr _ _ ih =>
    cases h' with
    | stop hs' => exact absurd hs' hs
    | @link _ r' rest' _ hr' _ hrest' =>
      obtain rfl : r = r' := Option.some.inj (hr.symm.trans hr')
      rw [ih hrest']

/-- A chain is a chain of every map with the same records on it. -/
theorem Complete.congr (h : Complete stop next p m head l) (hm : ∀ k ∈ keys l, m' k = m k) :
    Complete stop next p m' head l := by
  induction h with
  | stop hs => exact .stop hs
  | link hs hr hp _ ih =>
    refine .link hs ((hm _ List.mem_cons_self).trans hr) hp (ih fun k hk => ?_)
    exact hm k (List.mem_cons_of_mem _ hk)

/-- What is on a chain is in the map. -/
theorem Complete.mem (h : Complete stop next p m head l) {q : κ × ρ} (hq : q ∈ l) :
    ¬ stop q.1 ∧ m q.1 = some q.2 ∧ p q.2 := by
  induction h with
  | stop _ => cases hq
  | link hs hr hp _ ih =>
    rcases List.mem_cons.mp hq with rfl | hq
    · exact ⟨hs, hr, hp⟩
    · exact ih hq

/-- A key on a chain is in the map. -/
theorem Complete.mem_keys (h : Complete stop next p m head l) (hk : k ∈ keys l) :
    ¬ stop k ∧ ∃ r, m k = some r ∧ p r ∧ (k, r) ∈ l := by
  obtain ⟨q, hq, rfl⟩ := List.mem_map.mp hk
  obtain ⟨hs, hr, hp⟩ := h.mem hq
  exact ⟨hs, q.2, hr, hp, hq⟩

/-- From each key of a chain on, the rest of it is a chain. -/
private theorem Complete.tail (h : Complete stop next p m head l) (hk : k ∈ keys l) :
    ∃ l', Complete stop next p m k l' ∧ l'.length ≤ l.length := by
  induction h with
  | stop _ => cases hk
  | @link head r rest hs hr hp hrest ih =>
    rcases List.mem_cons.mp hk with rfl | hk
    · exact ⟨_, .link hs hr hp hrest, le_rfl⟩
    · obtain ⟨l', hl', hle⟩ := ih hk
      exact ⟨l', hl', hle.trans (Nat.le_succ _)⟩

/-- A chain does not come back to a key. -/
theorem Complete.nodup (h : Complete stop next p m head l) : (keys l).Nodup := by
  induction h with
  | stop _ => exact List.nodup_nil
  | @link head r rest hs hr hp hrest ih =>
    refine List.nodup_cons.mpr ⟨fun hk => ?_, ih⟩
    -- otherwise the head would have a second, shorter chain
    obtain ⟨l', hl', hle⟩ := hrest.tail hk
    have heq := hl'.unique (.link hs hr hp hrest)
    rw [heq, List.length_cons] at hle
    omega

end

/-! ## Writing a chain -/

/-- Records under some keys, each naming the key of the next one; `fill` makes the record of a
position and the last one names `stop`. -/
def links (stop : κ) (fill : ℕ → κ → ρ) : List κ → List (κ × ρ)
  | [] => []
  | k :: ks => (k, fill 0 (ks.headD stop)) :: links stop (fun i => fill (i + 1)) ks

section

variable {stop : κ} {fill : ℕ → κ → ρ} {ks : List κ}

@[simp]
theorem keys_links : keys (links stop fill ks) = ks := by
  induction ks generalizing fill with
  | nil => rfl
  | cons k ks ih => exact congrArg (k :: ·) ih

@[simp]
theorem length_links : (links stop fill ks).length = ks.length := by
  rw [← List.length_map Prod.fst, show (links stop fill ks).map Prod.fst = ks from keys_links]

/-- The records are written under the keys. -/
theorem fst_mem_of_mem_links {q : κ × ρ} (hq : q ∈ links stop fill ks) : q.1 ∈ ks := by
  have hkey : q.1 ∈ keys (links stop fill ks) := List.mem_map_of_mem hq
  rwa [keys_links] at hkey

/-- The records position by position. -/
theorem links_eq_map : links stop fill ks = (List.range ks.length).map fun i =>
    (ks.getD i stop, fill i (ks.getD (i + 1) stop)) := by
  induction ks generalizing fill with
  | nil => rfl
  | cons k ks ih =>
    rw [links, ih, List.length_cons, List.range_succ_eq_map, List.map_cons, List.map_map]
    cases ks <;> rfl

/-- Records written in order are a chain. -/
theorem complete_links {isStop : κ → Prop} {next : ρ → κ} {p : ρ → Prop} {m : κ → Option ρ}
    (hstop : isStop stop) (hks : ∀ k ∈ ks, ¬ isStop k) (hfill : ∀ i k, next (fill i k) = k ∧ p (fill i k))
    (hm : ∀ q ∈ links stop fill ks, m q.1 = some q.2) :
    Complete isStop next p m (ks.headD stop) (links stop fill ks) := by
  induction ks generalizing fill with
  | nil => exact .stop hstop
  | cons k ks ih =>
    refine .link (hks k List.mem_cons_self) (hm _ List.mem_cons_self) (hfill 0 _).2 ?_
    rw [(hfill 0 _).1]
    exact ih (fun k hk => hks k (List.mem_cons_of_mem _ hk)) (fun i => hfill (i + 1))
      fun q hq => hm q (List.mem_cons_of_mem _ hq)

end

/-! ## Families of chains -/

/-- A family of complete chains, no record on two of them. -/
structure Linked (stop : κ → Prop) (next : ρ → κ) (p : ι → ρ → Prop) (m : κ → Option ρ)
    (head : ι → κ) (chains : ι → List (κ × ρ)) : Prop where
  /-- Each runs from its head to an end. -/
  complete : ∀ i, Complete stop next (p i) m (head i) (chains i)
  /-- No record is on two of them. -/
  disjoint : ∀ i j k, k ∈ keys (chains i) → k ∈ keys (chains j) → i = j

section

variable {stop : κ → Prop} {next : ρ → κ} {p : ι → ρ → Prop} {m m' : κ → Option ρ}
  {head head' : ι → κ} {chains : ι → List (κ × ρ)} {i : ι}

/-- The chains stay when their records and heads do. -/
theorem Linked.congr (h : Linked stop next p m head chains) (heads : ∀ i, head' i = head i)
    (frame : ∀ i, ∀ k ∈ keys (chains i), m' k = m k) : Linked stop next p m' head' chains where
  complete i := by
    rw [heads i]
    exact (h.complete i).congr (frame i)
  disjoint := h.disjoint

/-- One chain is written anew, from records that were on it or on no chain. -/
theorem Linked.rewrite [DecidableEq ι] (h : Linked stop next p m head chains)
    {new : List (κ × ρ)} (hnew : Complete stop next (p i) m' (head' i) new)
    (heads : ∀ j ≠ i, head' j = head j) (frame : ∀ j ≠ i, ∀ k ∈ keys (chains j), m' k = m k)
    (fresh : ∀ k ∈ keys new, k ∈ keys (chains i) ∨ ∀ j, k ∉ keys (chains j)) :
    Linked stop next p m' head' (Function.update chains i new) where
  complete j := by
    by_cases hj : j = i
    · subst hj
      rwa [Function.update_self]
    · rw [Function.update_of_ne hj, heads j hj]
      exact (h.complete j).congr (frame j hj)
  disjoint a b k ha hb := by
    -- a record of the new chain is on no other one
    have hother : ∀ j ≠ i, k ∈ keys new → k ∉ keys (chains j) := fun j hj hk hkj => by
      rcases fresh k hk with hold | hnone
      · exact hj (h.disjoint j i k hkj hold)
      · exact hnone j hkj
    by_cases hai : a = i <;> by_cases hbi : b = i
    · rw [hai, hbi]
    · subst hai
      rw [Function.update_self] at ha
      rw [Function.update_of_ne hbi] at hb
      exact absurd hb (hother b hbi ha)
    · subst hbi
      rw [Function.update_self] at hb
      rw [Function.update_of_ne hai] at ha
      exact absurd ha (hother a hai hb)
    · rw [Function.update_of_ne hai] at ha
      rw [Function.update_of_ne hbi] at hb
      exact h.disjoint a b k ha hb

end

end Chains
