import ArbitraryComposer.Cache.KeyedStore
import Mathlib.Algebra.BigOperators.Group.List.Lemmas
import Mathlib.Algebra.GroupWithZero.Nat

/-!
# Cache Accounting

The resident counter of a keyed store, its entries, its holds and the record of its run agree in
every run.

## Main definitions

- `KeyedStore.Inv`: what holds of a store and the holds on it.
- `KeyedStore.Shrinks`: entries go, and nothing else changes.
- `KeyedStore.EvictsLru`: the least recently used entry of the lowest class goes.

## Main results

- `KeyedStore.pickVictim_eq_some`, `pickVictim_eq_none`: what the victim is.
- `cache_accounting`: the counters, the holds and the drops of every reachable store.
-/

namespace ArbitraryComposer

variable {κ ν : Type} [DecidableEq κ]

namespace KeyedStore

variable {s s' s'' : KeyedStore κ ν} {key : κ} {p v : κ × CacheEntry ν} {holds : List ℕ}
  {incoming : UInt64} {id : ℕ}

/-! ## Places in the map -/

theorem find?_eq_some (h : s.find? key = some p) : p ∈ s.map ∧ p.1 = key :=
  ⟨List.mem_of_find?_eq_some h, by simpa using List.find?_some h⟩

omit [DecidableEq κ] in
/-- What a list loses with the element of a key. -/
private theorem perm_eraseP {α β : Type} [DecidableEq β] {f : α → β} {l : List α} {a : α}
    (hk : (l.map f).Nodup) (ha : a ∈ l) : l.Perm (a :: l.eraseP fun b => f b = f a) := by
  induction l with
  | nil => cases ha
  | cons b l ih =>
    rw [List.map_cons, List.nodup_cons] at hk
    rcases List.mem_cons.mp ha with rfl | ha
    · rw [List.eraseP_cons_of_pos (by simp)]
    · have hne : f b ≠ f a := fun heq => hk.1 (heq ▸ List.mem_map_of_mem ha)
      rw [List.eraseP_cons_of_neg (by simpa using hne)]
      exact ((ih hk.2 ha).cons b).trans (.swap a b _)

/-! ## The invariant -/

/-- The books of a store and the holds on it. -/
structure Inv (s : KeyedStore κ ν) (holds : List ℕ) : Prop where
  /-- A key is bound once. -/
  keys : (s.map.map Prod.fst).Nodup
  /-- What was allocated is there once, or was dropped once. -/
  ids : (s.entries.map CacheEntry.id ++ s.dropped).Perm (List.range s.next)
  /-- The counter is the sum of the sizes, as a machine word. -/
  resident : s.resident.toNat = (s.entries.map fun e => e.bytes.toNat).sum % 2 ^ 64
  /-- An entry is pinned once for each hold. -/
  pins : ∀ e ∈ s.entries, e.pins = holds.count e.id
  /-- A hold is on an entry that is there. -/
  held : ∀ id ∈ holds, id ∈ s.entries.map CacheEntry.id
  /-- The entries of the map are not removed. -/
  live : ∀ p ∈ s.map, p.2.removed = false
  /-- An orphan is removed and pinned. -/
  orphaned : ∀ e ∈ s.orphans, e.removed = true ∧ e.pins ≠ 0

/-- Entries go; those that stay keep their place in the order of use. -/
structure Shrinks (s s' : KeyedStore κ ν) : Prop where
  /-- The budget is the same. -/
  budget_eq : s'.budget = s.budget
  /-- Nothing was used. -/
  tick_eq : s'.tick = s.tick
  /-- Nothing was allocated. -/
  next_eq : s'.next = s.next
  /-- No key is bound. -/
  keys_subset : s'.map.map Prod.fst ⊆ s.map.map Prod.fst
  /-- Nothing comes back to the map. -/
  ids_subset : s'.ids ⊆ s.ids
  /-- The entries are old ones. -/
  entries_old : ∀ e' ∈ s'.entries, ∃ e ∈ s.entries, e'.id = e.id ∧ e'.recency = e.recency

omit [DecidableEq κ] in
theorem Shrinks.refl : Shrinks s s :=
  ⟨rfl, rfl, rfl, List.Subset.refl _, List.Subset.refl _, fun e he => ⟨e, he, rfl, rfl⟩⟩

omit [DecidableEq κ] in
theorem Shrinks.trans (h : Shrinks s s') (h' : Shrinks s' s'') : Shrinks s s'' := by
  refine ⟨h'.budget_eq.trans h.budget_eq, h'.tick_eq.trans h.tick_eq,
    h'.next_eq.trans h.next_eq, List.Subset.trans h'.keys_subset h.keys_subset,
    List.Subset.trans h'.ids_subset h.ids_subset, fun e'' he'' => ?_⟩
  obtain ⟨e', he', hid', hrec'⟩ := h'.entries_old e'' he''
  obtain ⟨e, he, hid, hrec⟩ := h.entries_old e' he'
  exact ⟨e, he, hid'.trans hid, hrec'.trans hrec⟩

/-! ## Removals -/

/-- The entries of a store without one entry of its map. -/
private theorem entries_perm (h : s.Inv holds) (hp : p ∈ s.map) : s.entries.Perm
    (p.2 :: ((s.map.eraseP fun q => q.1 = p.1).map Prod.snd ++ s.orphans)) :=
  ((perm_eraseP h.keys hp).map Prod.snd).append_right s.orphans

/-- The map loses an entry. -/
private theorem eraseP_sublist (s : KeyedStore κ ν) (key : κ) :
    (s.map.eraseP fun q => q.1 = key).Sublist s.map := List.eraseP_sublist

/-- An entry without holds is destroyed. -/
theorem Inv.evict (h : s.Inv holds) (hp : p ∈ s.map) (hpins : p.2.pins = 0) :
    (s.evict p).Inv holds := by
  have hperm := entries_perm h hp
  have hsub := eraseP_sublist s p.1
  have hmem : ∀ e ∈ (s.evict p).entries, e ∈ s.entries := fun e he =>
    hperm.symm.subset (List.mem_cons_of_mem _ he)
  refine ⟨h.keys.sublist (hsub.map _), ?_, ?_, fun e he => h.pins e (hmem e he), fun id hid => ?_,
    fun q hq => h.live q (hsub.subset hq), h.orphaned⟩
  · refine List.Perm.trans ?_ h.ids
    refine (List.perm_middle).trans ?_
    exact ((hperm.map CacheEntry.id).append_right s.dropped).symm
  · have hsum := (hperm.map fun e => e.bytes.toNat).sum_eq
    have hres := h.resident
    rw [hsum, List.map_cons, List.sum_cons] at hres
    have hlt := p.2.bytes.toNat_lt
    change (s.resident - p.2.bytes).toNat = _
    rw [UInt64.toNat_sub, hres]
    change _ = (((s.map.eraseP fun q => q.1 = p.1).map Prod.snd ++ s.orphans).map fun e =>
      e.bytes.toNat).sum % 2 ^ 64
    omega
  · -- the entry has no hold, so the hold is on another one
    have hid' := (hperm.map CacheEntry.id).subset (h.held id hid)
    rcases List.mem_cons.mp hid' with rfl | hid'
    · have hcount := h.pins p.2 (hperm.symm.subset List.mem_cons_self)
      rw [hpins] at hcount
      exact absurd hid (List.count_eq_zero.mp hcount.symm)
    · exact hid'

theorem shrinks_evict (s : KeyedStore κ ν) (p : κ × CacheEntry ν) : Shrinks s (s.evict p) := by
  have hsub := eraseP_sublist s p.1
  refine ⟨rfl, rfl, rfl, (hsub.map _).subset, (hsub.map _).subset, fun e he => ⟨e, ?_, rfl, rfl⟩⟩
  exact ((hsub.map Prod.snd).append_right s.orphans).subset he

/-- An entry leaves the map: it is destroyed, or becomes an orphan if it has a hold. -/
theorem Inv.detach (h : s.Inv holds) (key : κ) :
    (s.detach key).Inv holds ∧ Shrinks s (s.detach key) := by
  unfold KeyedStore.detach
  cases hf : s.find? key with
  | none => exact ⟨h, .refl⟩
  | some p =>
    obtain ⟨hp, rfl⟩ := find?_eq_some hf
    by_cases hpins : p.2.pins = 0
    · simp only [if_pos hpins]
      have hevict := h.evict hp hpins
      have hshrinks := shrinks_evict s p
      exact ⟨⟨hevict.keys, hevict.ids, hevict.resident, hevict.pins, hevict.held, hevict.live,
        hevict.orphaned⟩, ⟨rfl, rfl, rfl, hshrinks.keys_subset, hshrinks.ids_subset,
        hshrinks.entries_old⟩⟩
    · simp only [if_neg hpins]
      have hsub := eraseP_sublist s p.1
      set o : CacheEntry ν := { p.2 with removed := true } with ho
      set rest := (s.map.eraseP fun q => q.1 = p.1).map Prod.snd ++ s.orphans with hrest
      have hperm : s.entries.Perm (p.2 :: rest) := entries_perm h hp
      have hperm' : ((s.map.eraseP fun q => q.1 = p.1).map Prod.snd ++ (s.orphans ++ [o])).Perm
          (o :: rest) := by
        rw [← List.append_assoc]
        exact List.perm_append_singleton o _
      -- the orphan is the entry in everything the books look at
      have hbooks : ∀ {α : Type} (f : CacheEntry ν → α), f o = f p.2 →
          (((s.map.eraseP fun q => q.1 = p.1).map Prod.snd ++ (s.orphans ++ [o])).map f).Perm
            (s.entries.map f) := by
        intro α f hf
        refine (hperm'.map f).trans ?_
        rw [List.map_cons, hf]
        exact (hperm.map f).symm
      refine ⟨⟨h.keys.sublist (hsub.map _), ?_, ?_, fun e he => ?_, fun id hid => ?_,
        fun q hq => h.live q (hsub.subset hq), fun e he => ?_⟩, ⟨rfl, rfl, rfl,
        (hsub.map _).subset, (hsub.map _).subset, fun e he => ?_⟩⟩
      · exact ((hbooks CacheEntry.id rfl).append_right s.dropped).trans h.ids
      · rw [h.resident]
        exact congrArg (· % 2 ^ 64) (hbooks (fun e => e.bytes.toNat) rfl).sum_eq.symm
      · rcases List.mem_cons.mp (hperm'.subset he) with rfl | he
        · exact h.pins p.2 (hperm.symm.subset List.mem_cons_self)
        · exact h.pins e (hperm.symm.subset (List.mem_cons_of_mem _ he))
      · exact (hbooks CacheEntry.id rfl).symm.subset (h.held id hid)
      · rcases List.mem_append.mp he with he | he
        · exact h.orphaned e he
        · rw [List.mem_singleton.mp he]
          exact ⟨rfl, hpins⟩
      · rcases List.mem_cons.mp (hperm'.subset he) with rfl | he
        · exact ⟨p.2, hperm.symm.subset List.mem_cons_self, rfl, rfl⟩
        · exact ⟨e, hperm.symm.subset (List.mem_cons_of_mem _ he), rfl, rfl⟩

/-- The entry of a key is not in the map any more. -/
theorem not_mem_detach (h : s.Inv holds) (key : κ) : key ∉ (s.detach key).map.map Prod.fst := by
  unfold KeyedStore.detach
  cases hf : s.find? key with
  | none =>
    intro hm
    obtain ⟨p, hp, rfl⟩ := List.mem_map.mp hm
    have hnone := List.find?_eq_none.mp hf p hp
    simp at hnone
  | some p =>
    obtain ⟨hp, rfl⟩ := find?_eq_some hf
    have hkeys := ((perm_eraseP h.keys hp).map Prod.fst).nodup_iff.mp h.keys
    rw [List.map_cons, List.nodup_cons] at hkeys
    simp only
    split <;> exact hkeys.1

theorem Inv.removeIf (h : s.Inv holds) (pred : κ → Bool) :
    (s.removeIf pred).Inv holds ∧ Shrinks s (s.removeIf pred) := by
  unfold KeyedStore.removeIf
  generalize (s.map.map Prod.fst).filter pred = keys
  induction keys generalizing s with
  | nil => exact ⟨h, .refl⟩
  | cons key keys ih =>
    obtain ⟨hdetach, hshrinks⟩ := h.detach key
    obtain ⟨hinv, hrest⟩ := ih hdetach
    exact ⟨hinv, hshrinks.trans hrest⟩

/-! ## Evictions -/

omit [DecidableEq κ] in
/-- The loop over one class keeps the least recently used candidate. -/
private theorem minRecency_fold {klass : PriorityClass} (map : List (κ × CacheEntry ν))
    (acc : Option (κ × CacheEntry ν)) {r : Option (κ × CacheEntry ν)}
    (hr : map.foldl (fun victim p =>
      if p.2.klass ≠ klass ∨ p.2.pins ≠ 0 then
        victim
      else
        match victim with
        | none => some p
        | some v => if p.2.recency < v.2.recency then some p else some v) acc = r) :
    (∀ v ∈ r, (acc = some v ∨ v ∈ map ∧ v.2.klass = klass ∧ v.2.pins = 0) ∧
      ∀ p, (acc = some p ∨ p ∈ map ∧ p.2.klass = klass ∧ p.2.pins = 0) →
        v.2.recency ≤ p.2.recency) ∧
    (r = none → acc = none ∧ ∀ p ∈ map, p.2.klass = klass → p.2.pins ≠ 0) := by
  induction map generalizing acc with
  | nil =>
    subst hr
    refine ⟨fun v hv => ⟨Or.inl hv, fun p hp => ?_⟩, fun h => ⟨h, fun _ hp => nomatch hp⟩⟩
    rcases hp with hp | ⟨hp, -⟩
    · rw [Option.some.inj (hv.symm.trans hp)]
    · cases hp
  | cons q map ih =>
    rw [List.foldl_cons] at hr
    obtain ⟨hsome, hnone⟩ := ih _ hr
    by_cases hq : q.2.klass ≠ klass ∨ q.2.pins ≠ 0
    · rw [if_pos hq] at hsome hnone
      have hskip : ∀ p, p ∈ q :: map ∧ p.2.klass = klass ∧ p.2.pins = 0 →
          p ∈ map ∧ p.2.klass = klass ∧ p.2.pins = 0 := by
        rintro p ⟨hp, hk, hpins⟩
        rcases List.mem_cons.mp hp with rfl | hp
        · exact absurd hq (by simp [hk, hpins])
        · exact ⟨hp, hk, hpins⟩
      refine ⟨fun v hv => ?_, fun h => ⟨(hnone h).1, fun p hp hk hpins => ?_⟩⟩
      · obtain ⟨hv', hle⟩ := hsome v hv
        exact ⟨hv'.imp_right fun hm => ⟨List.mem_cons_of_mem _ hm.1, hm.2⟩,
          fun p hp => hle p (hp.imp_right (hskip p))⟩
      · exact (hnone h).2 p (hskip p ⟨hp, hk, hpins⟩).1 hk hpins
    · rw [if_neg hq] at hsome hnone
      have hq' : q.2.klass = klass ∧ q.2.pins = 0 := by
        rw [not_or, not_ne_iff, not_ne_iff] at hq
        exact hq
      cases acc with
      | none =>
        refine ⟨fun v hv => ?_, fun h => absurd (hnone h).1 (Option.some_ne_none q)⟩
        obtain ⟨hv', hle⟩ := hsome v hv
        refine ⟨Or.inr ?_, fun p hp => hle p ?_⟩
        · rcases hv' with hv' | ⟨hm, hv'⟩
          · rw [← Option.some.inj hv']
            exact ⟨List.mem_cons_self, hq'⟩
          · exact ⟨List.mem_cons_of_mem _ hm, hv'⟩
        · rcases hp with hp | ⟨hp, hk⟩
          · cases hp
          · exact (List.mem_cons.mp hp).imp (fun heq => congrArg some heq.symm) fun hp => ⟨hp, hk⟩
      | some a =>
        simp only at hsome hnone
        split at hsome
        · rename_i hlt
          rw [if_pos hlt] at hnone
          refine ⟨fun v hv => ?_, fun h => absurd (hnone h).1 (Option.some_ne_none q)⟩
          obtain ⟨hv', hle⟩ := hsome v hv
          refine ⟨Or.inr ?_, fun p hp => ?_⟩
          · rcases hv' with hv' | ⟨hm, hv'⟩
            · rw [← Option.some.inj hv']
              exact ⟨List.mem_cons_self, hq'⟩
            · exact ⟨List.mem_cons_of_mem _ hm, hv'⟩
          · rcases hp with hp | ⟨hp, hk⟩
            · rw [← Option.some.inj hp]
              exact (hle q (Or.inl rfl)).trans hlt.le
            · exact hle p ((List.mem_cons.mp hp).imp (fun heq => congrArg some heq.symm)
                fun hp => ⟨hp, hk⟩)
        · rename_i hge
          rw [if_neg hge] at hnone
          refine ⟨fun v hv => ?_, fun h => absurd (hnone h).1 (Option.some_ne_none a)⟩
          obtain ⟨hv', hle⟩ := hsome v hv
          refine ⟨hv'.imp_right fun hm => ⟨List.mem_cons_of_mem _ hm.1, hm.2⟩, fun p hp => ?_⟩
          rcases hp with hp | ⟨hp, hk⟩
          · exact hle p (Or.inl hp)
          · rcases List.mem_cons.mp hp with rfl | hp
            · exact (hle a (Or.inl rfl)).trans (Nat.not_lt.mp hge)
            · exact hle p (Or.inr ⟨hp, hk⟩)

theorem mem_cacheEvictionOrder (klass : PriorityClass) : klass ∈ cacheEvictionOrder := by
  cases klass <;> decide

omit [DecidableEq κ] in
/-- The victim is not pinned; an entry that is not pinned either is of a higher class, or of the
same class and not used before it. -/
theorem pickVictim_eq_some (h : s.pickVictim = some v) : v ∈ s.map ∧ v.2.pins = 0 ∧
    ∀ p ∈ s.map, p.2.pins = 0 → v.2.klass.rank < p.2.klass.rank ∨
      v.2.klass = p.2.klass ∧ v.2.recency ≤ p.2.recency := by
  obtain ⟨lower, klass, higher, horder, hmin, hlower⟩ := List.findSome?_eq_some_iff.mp h
  obtain ⟨hv, hle⟩ := (minRecency_fold s.map none hmin).1 v rfl
  obtain ⟨hmem, hklass, hpins⟩ := hv.resolve_left (Option.some_ne_none v).symm
  refine ⟨hmem, hpins, fun p hp hp0 => ?_⟩
  by_cases hk : p.2.klass = klass
  · exact Or.inr ⟨hklass.trans hk.symm, hle p (Or.inr ⟨hp, hk, hp0⟩)⟩
  · -- the classes before the victim's have no candidate
    have hnot : p.2.klass ∉ lower := fun hm =>
      (minRecency_fold s.map none (hlower _ hm)).2 rfl |>.2 p hp rfl hp0
    have hnot' : klass ∉ lower := by
      intro hm
      rw [hlower klass hm] at hmin
      cases hmin
    left
    rw [hklass, PriorityClass.rank, PriorityClass.rank, horder, List.idxOf_append_of_notMem hnot',
      List.idxOf_append_of_notMem hnot, List.idxOf_cons_self, List.idxOf_cons_ne _ (Ne.symm hk)]
    omega

omit [DecidableEq κ] in
/-- Without a victim every entry of the map is pinned. -/
theorem pickVictim_eq_none (h : s.pickVictim = none) : ∀ p ∈ s.map, p.2.pins ≠ 0 := by
  intro p hp
  have hnone := List.findSome?_eq_none_iff.mp h _ (mem_cacheEvictionOrder p.2.klass)
  exact ((minRecency_fold s.map none hnone).2 rfl).2 p hp rfl

/-- The store is over its budget, and the entry evicted is not pinned, of the lowest class that has
such an entry and the least recently used of them. -/
def EvictsLru (incoming : UInt64) (s s' : KeyedStore κ ν) : Prop :=
  s.budget < s.resident + incoming ∧ ∃ v ∈ s.map, v.2.pins = 0 ∧ s' = s.evict v ∧
    ∀ p ∈ s.map, p.2.pins = 0 → v.2.klass.rank < p.2.klass.rank ∨
      v.2.klass = p.2.klass ∧ v.2.recency ≤ p.2.recency

/-- The loop evicts in this order until the incoming bytes fit or only pinned entries remain. -/
theorem Inv.evictToFit (h : s.Inv holds) (incoming : UInt64) :
    (s.evictToFit incoming).Inv holds ∧ Shrinks s (s.evictToFit incoming) ∧
    Relation.ReflTransGen (EvictsLru incoming) s (s.evictToFit incoming) ∧
    ((s.evictToFit incoming).resident + incoming ≤ (s.evictToFit incoming).budget ∨
      ∀ p ∈ (s.evictToFit incoming).map, p.2.pins ≠ 0) := by
  unfold KeyedStore.evictToFit
  generalize hn : s.map.length = n
  induction n generalizing s with
  | zero =>
    refine ⟨h, .refl, .refl, Or.inr fun p hp => ?_⟩
    rw [evictLoop, List.length_eq_zero_iff.mp hn] at hp
    cases hp
  | succ n ih =>
    rw [evictLoop]
    split
    · rename_i hover
      cases hv : s.pickVictim with
      | none => exact ⟨h, .refl, .refl, Or.inr (pickVictim_eq_none hv)⟩
      | some v =>
        obtain ⟨hmem, hpins, hleast⟩ := pickVictim_eq_some hv
        have hlen : (s.evict v).map.length = n := by
          have := (perm_eraseP h.keys hmem).length_eq
          rw [List.length_cons] at this
          change (s.map.eraseP fun q => q.1 = v.1).length = n
          omega
        obtain ⟨hinv, hshrinks, hchain, hfits⟩ := ih (h.evict hmem hpins) hlen
        refine ⟨hinv, (shrinks_evict s v).trans hshrinks, ?_, hfits⟩
        exact .head ⟨hover, v, hmem, hpins, rfl, hleast⟩ hchain
    · rename_i hfits
      exact ⟨h, .refl, .refl, Or.inl (UInt64.not_lt.mp hfits)⟩

/-! ## Insertions, uses and holds -/

omit [DecidableEq κ] in
/-- An identity is given to one entry. -/
theorem Inv.nodup_ids (h : s.Inv holds) : (s.entries.map CacheEntry.id).Nodup :=
  (List.nodup_append.mp (h.ids.nodup_iff.mpr List.nodup_range)).1

omit [DecidableEq κ] in
/-- The next identity is new. -/
theorem Inv.id_lt (h : s.Inv holds) {e : CacheEntry ν} (he : e ∈ s.entries) : e.id < s.next :=
  List.mem_range.mp (h.ids.subset (List.mem_append_left _ (List.mem_map_of_mem he)))

omit [DecidableEq κ] in
/-- An entry that is pinned was not dropped. -/
theorem Inv.not_dropped (h : s.Inv holds) (hid : id ∈ holds) : id ∉ s.dropped := fun hd =>
  (List.nodup_append.mp (h.ids.nodup_iff.mpr List.nodup_range)).2.2 id (h.held id hid) id hd rfl

/-- An insertion keeps the books and ends within the budget, or with every entry pinned. -/
theorem Inv.insert (h : s.Inv holds) (key : κ) (value : ν) (bytes : UInt64)
    (klass : PriorityClass) : (s.insert key value bytes klass).1 = s.next ∧
    (s.insert key value bytes klass).2.Inv (s.next :: holds) ∧
    ((s.insert key value bytes klass).2.resident ≤ (s.insert key value bytes klass).2.budget ∨
      ∀ e ∈ (s.insert key value bytes klass).2.entries, e.pins ≠ 0) := by
  obtain ⟨hdetach, hshrinks⟩ := h.detach key
  obtain ⟨hinv, hshrinks', -, hfits⟩ := hdetach.evictToFit bytes
  have hnext : ((s.detach key).evictToFit bytes).next = s.next :=
    hshrinks'.next_eq.trans hshrinks.next_eq
  have hkey : key ∉ ((s.detach key).evictToFit bytes).map.map Prod.fst := fun hm =>
    not_mem_detach h key (hshrinks'.keys_subset hm)
  simp only [KeyedStore.insert]
  generalize (s.detach key).evictToFit bytes = t at *
  rw [← hnext]
  have hfresh : ∀ e ∈ t.entries, e.id ≠ t.next := fun e he => (hinv.id_lt he).ne
  have hunheld : t.next ∉ holds := by
    intro hm
    obtain ⟨e, he, heq⟩ := List.mem_map.mp (hinv.held _ hm)
    exact hfresh e he heq
  refine ⟨rfl, ⟨List.nodup_cons.mpr ⟨hkey, hinv.keys⟩, ?_, ?_, fun e he => ?_, fun id hid => ?_,
    fun q hq => ?_, hinv.orphaned⟩, ?_⟩
  · refine List.Perm.trans (hinv.ids.cons t.next) ?_
    rw [List.range_succ]
    exact (List.perm_append_singleton _ _).symm
  · change (t.resident + bytes).toNat = (bytes.toNat + (t.entries.map fun e =>
      e.bytes.toNat).sum) % 2 ^ 64
    have hres := hinv.resident
    rw [UInt64.toNat_add]
    omega
  · rcases List.mem_cons.mp he with rfl | he
    · rw [List.count_cons_self, List.count_eq_zero.mpr hunheld]
    · rw [List.count_cons_of_ne (Ne.symm (hfresh e he))]
      exact hinv.pins e he
  · rcases List.mem_cons.mp hid with rfl | hid
    · exact List.mem_cons_self
    · exact List.mem_cons_of_mem _ (hinv.held id hid)
  · rcases List.mem_cons.mp hq with rfl | hq
    · rfl
    · exact hinv.live q hq
  · rcases hfits with hfits | hpinned
    · exact Or.inl hfits
    · right
      intro e he
      rcases List.mem_cons.mp he with rfl | he
      · exact Nat.one_ne_zero
      · rcases List.mem_append.mp he with he | he
        · obtain ⟨q, hq, rfl⟩ := List.mem_map.mp he
          exact hpinned q hq
        · exact (hinv.orphaned e he).2

omit [DecidableEq κ] in
theorem entries_modifyEntry (s : KeyedStore κ ν) (id : ℕ) (f : CacheEntry ν → CacheEntry ν) :
    (s.modifyEntry id f).entries = s.entries.map fun e => if e.id = id then f e else e := by
  simp only [entries, modifyEntry, List.map_append, List.map_map]
  rfl

omit [DecidableEq κ] in
/-- A change of an entry that keeps its identity and size, and moves its pins with the holds. -/
private theorem Inv.modify (h : s.Inv holds) (id : ℕ) (holds' : List ℕ)
    {f : CacheEntry ν → CacheEntry ν} (hid : ∀ e, (f e).id = e.id)
    (hbytes : ∀ e, (f e).bytes = e.bytes) (hremoved : ∀ e, (f e).removed = e.removed)
    (hpins : ∀ e, e.id = id → e.pins = holds.count id → (f e).pins = holds'.count id)
    (hcount : ∀ j, j ≠ id → holds'.count j = holds.count j)
    (hheld : ∀ j ∈ holds', j ∈ s.entries.map CacheEntry.id)
    (horphan : ∀ e, (f e).pins ≠ 0 ∨ e.id ≠ id ∨ e ∉ s.orphans) :
    (s.modifyEntry id f).Inv holds' := by
  have hids : (s.modifyEntry id f).entries.map CacheEntry.id = s.entries.map CacheEntry.id := by
    rw [entries_modifyEntry, List.map_map]
    refine List.map_congr_left fun e _ => ?_
    simp only [Function.comp_apply]
    split
    · exact hid e
    · rfl
  refine ⟨?_, ?_, ?_, fun e he => ?_, fun j hj => hids ▸ hheld j hj, fun q hq => ?_,
    fun e he => ?_⟩
  · have hkeys : (s.modifyEntry id f).map.map Prod.fst = s.map.map Prod.fst := by
      simp only [modifyEntry, List.map_map]
      rfl
    exact hkeys ▸ h.keys
  · exact hids ▸ h.ids
  · rw [entries_modifyEntry, List.map_map]
    refine h.resident.trans (congrArg (fun l : List ℕ => l.sum % 2 ^ 64) ?_)
    refine List.map_congr_left fun e _ => ?_
    simp only [Function.comp_apply]
    split
    · rw [hbytes e]
    · rfl
  · rw [entries_modifyEntry] at he
    obtain ⟨e', he', rfl⟩ := List.mem_map.mp he
    have hp := h.pins e' he'
    split
    · rename_i heq
      rw [hid, heq]
      exact hpins e' heq (heq ▸ hp)
    · rename_i hne
      rw [hcount _ hne]
      exact hp
  · obtain ⟨q', hq', rfl⟩ := List.mem_map.mp hq
    have hlive := h.live q' hq'
    simp only
    split
    · rw [hremoved]
      exact hlive
    · exact hlive
  · obtain ⟨e', he', rfl⟩ := List.mem_map.mp he
    obtain ⟨hr, hp⟩ := h.orphaned e' he'
    split
    · rename_i heq
      refine ⟨(hremoved e').trans hr, ?_⟩
      rcases horphan e' with hp' | hne | hm
      · exact hp'
      · exact absurd heq hne
      · exact absurd he' hm
    · exact ⟨hr, hp⟩

/-- A hit pins the entry of the key. -/
theorem Inv.lookup (h : s.Inv holds) (key : κ) :
    (s.lookup key).2.Inv ((s.lookup key).1.toList ++ holds) := by
  unfold KeyedStore.lookup
  cases hf : s.find? key with
  | none => exact ⟨h.keys, h.ids, h.resident, h.pins, h.held, h.live, h.orphaned⟩
  | some p =>
    obtain ⟨hp, -⟩ := find?_eq_some hf
    have hmem : p.2.id ∈ s.entries.map CacheEntry.id :=
      List.mem_map_of_mem (List.mem_append_left _ (List.mem_map_of_mem hp))
    have hinv := h.modify p.2.id (p.2.id :: holds)
      (f := CacheEntry.use (s.tick + 1))
      (fun _ => rfl) (fun _ => rfl) (fun _ => rfl)
      (fun e _ hcount => by rw [List.count_cons_self]; exact congrArg Nat.succ hcount)
      (fun j hj => List.count_cons_of_ne (Ne.symm hj))
      (fun j hj => (List.mem_cons.mp hj).elim (fun heq => heq ▸ hmem) (h.held j))
      fun e => Or.inl (Nat.succ_ne_zero _)
    exact ⟨hinv.keys, hinv.ids, hinv.resident, hinv.pins, hinv.held, hinv.live, hinv.orphaned⟩

omit [DecidableEq κ] in
/-- A hold ends; the last one destroys an orphan. -/
theorem Inv.unpin (h : s.Inv holds) (hid : id ∈ holds) : (s.unpin id).Inv (holds.erase id) := by
  obtain ⟨e₀, he₀, rfl⟩ := List.mem_map.mp (h.held id hid)
  have hunique : ∀ e ∈ s.entries, e.id = e₀.id → e = e₀ := fun e he heq =>
    List.inj_on_of_nodup_map h.nodup_ids he he₀ heq
  have hpins₀ := h.pins e₀ he₀
  have hentries := s.entries_modifyEntry e₀.id CacheEntry.unpin
  have hfind : (s.modifyEntry e₀.id CacheEntry.unpin).entries.find? (fun e => e.id = e₀.id) = some e₀.unpin := by
    rw [List.find?_eq_some_iff_append]
    obtain ⟨l₁, l₂, hl⟩ := List.append_of_mem he₀
    refine ⟨by simp [CacheEntry.unpin], l₁.map fun e => if e.id = e₀.id then e.unpin else e,
      l₂.map fun e => if e.id = e₀.id then e.unpin else e, ?_, fun e he => ?_⟩
    · rw [hentries, hl, List.map_append, List.map_cons, if_pos rfl]
    · -- an entry before it has another identity
      obtain ⟨e', he', rfl⟩ := List.mem_map.mp he
      have hnodup := h.nodup_ids
      rw [hl, List.map_append, List.map_cons, List.nodup_append] at hnodup
      have hne : e'.id ≠ e₀.id := hnodup.2.2 _ (List.mem_map_of_mem he') _ List.mem_cons_self
      rw [if_neg hne]
      simpa using hne
  have herase : ∀ j, j ≠ e₀.id → (holds.erase e₀.id).count j = holds.count j := fun j hj =>
    List.count_erase_of_ne hj
  simp only [KeyedStore.unpin, hfind]
  split
  · rename_i hlast
    have hzero : e₀.pins - 1 = 0 := hlast.1
    have hremoved : e₀.removed = true := hlast.2
    -- the entry is an orphan, since those of the map are not removed
    have horphan : e₀ ∈ s.orphans := by
      rcases List.mem_append.mp he₀ with hm | hm
      · obtain ⟨q, hq, rfl⟩ := List.mem_map.mp hm
        rw [h.live q hq] at hremoved
        cases hremoved
      · exact hm
    have hids := h.nodup_ids
    rw [entries, List.map_append, List.nodup_append] at hids
    have hmap : (s.modifyEntry e₀.id CacheEntry.unpin).map = s.map := by
      refine (List.map_congr_left fun q hq => ?_).trans (List.map_id _)
      have hne : q.2.id ≠ e₀.id := hids.2.2 _ (List.mem_map_of_mem (List.mem_map_of_mem hq)) _
        (List.mem_map_of_mem horphan)
      rw [if_neg hne]
      rfl
    have hperm := perm_eraseP hids.2.1 horphan
    have hrest : (s.modifyEntry e₀.id CacheEntry.unpin).orphans.eraseP (fun o => o.id = e₀.id) =
        s.orphans.eraseP fun o => o.id = e₀.id := by
      have hpred : (fun o : CacheEntry ν => decide (o.id = e₀.id)) ∘
          (fun e => if e.id = e₀.id then e.unpin else e) = fun o => decide (o.id = e₀.id) := by
        funext o
        simp only [Function.comp_apply]
        split <;> rfl
      rw [show (s.modifyEntry e₀.id CacheEntry.unpin).orphans = s.orphans.map fun e =>
        if e.id = e₀.id then e.unpin else e from rfl, List.eraseP_map, hpred]
      refine (List.map_congr_left fun o ho => ?_).trans (List.map_id _)
      have hnodup := (hperm.map CacheEntry.id).nodup_iff.mp hids.2.1
      rw [List.map_cons, List.nodup_cons] at hnodup
      have hne : o.id ≠ e₀.id := fun heq => hnodup.1 (List.mem_map.mpr ⟨o, ho, heq⟩)
      rw [if_neg hne]
      rfl
    rw [hmap, hrest]
    set rest := s.map.map Prod.snd ++ s.orphans.eraseP (fun o => o.id = e₀.id) with hr
    have hall : s.entries.Perm (e₀ :: rest) :=
      (hperm.append_left (s.map.map Prod.snd)).trans List.perm_middle
    have hnodup := (hall.map CacheEntry.id).nodup_iff.mp h.nodup_ids
    rw [List.map_cons, List.nodup_cons] at hnodup
    have hne : ∀ e ∈ rest, e.id ≠ e₀.id := fun e he heq =>
      hnodup.1 (heq ▸ List.mem_map_of_mem he)
    refine ⟨h.keys, ?_, ?_, fun e he => ?_, fun j hj => ?_, h.live, fun e he => ?_⟩
    · refine List.Perm.trans ?_ h.ids
      refine (List.perm_middle).trans ?_
      exact ((hall.map CacheEntry.id).append_right s.dropped).symm
    · have hsum := (hall.map fun e => e.bytes.toNat).sum_eq
      have hres := h.resident
      rw [hsum, List.map_cons, List.sum_cons] at hres
      have hlt := e₀.bytes.toNat_lt
      change (s.resident - e₀.bytes).toNat = (rest.map fun e => e.bytes.toNat).sum % 2 ^ 64
      rw [UInt64.toNat_sub, hres]
      omega
    · rw [herase _ (hne e he)]
      exact h.pins e (hall.symm.subset (List.mem_cons_of_mem _ he))
    · -- no hold is left on the orphan
      have hcount : (holds.erase e₀.id).count e₀.id = 0 := by
        rw [List.count_erase_self, ← hpins₀]
        exact hzero
      rcases List.mem_cons.mp ((hall.map CacheEntry.id).subset
        (h.held j (List.mem_of_mem_erase hj))) with rfl | hj'
      · exact absurd hj (List.count_eq_zero.mp hcount)
      · exact hj'
    · exact h.orphaned e (hperm.symm.subset (List.mem_cons_of_mem _ he))
  · rename_i hkept
    refine h.modify e₀.id (holds.erase e₀.id) (fun _ => rfl) (fun _ => rfl) (fun _ => rfl)
      (fun e _ hcount => ?_) herase (fun j hj => h.held j (List.mem_of_mem_erase hj)) fun e => ?_
    · rw [List.count_erase_self, ← hcount]
      rfl
    · by_cases heq : e.id = e₀.id
      · by_cases hm : e ∈ s.orphans
        · obtain rfl := hunique e (List.mem_append_right _ hm) heq
          exact Or.inl fun hzero => hkept ⟨hzero, (h.orphaned e hm).1⟩
        · exact Or.inr (Or.inr hm)
      · exact Or.inr (Or.inl heq)

omit [DecidableEq κ] in
theorem shrinks_modifyEntry (s : KeyedStore κ ν) (id : ℕ) : Shrinks s (s.modifyEntry id .unpin) := by
  have hold : ∀ e' ∈ (s.modifyEntry id .unpin).entries, ∃ e ∈ s.entries, e'.id = e.id ∧
      e'.recency = e.recency := by
    intro e' he'
    rw [entries_modifyEntry] at he'
    obtain ⟨e, he, rfl⟩ := List.mem_map.mp he'
    refine ⟨e, he, ?_⟩
    split <;> exact ⟨rfl, rfl⟩
  refine ⟨rfl, rfl, rfl, ?_, ?_, hold⟩
  · intro k hk
    simpa [modifyEntry] using hk
  · intro j hj
    obtain ⟨q, hq, rfl⟩ := List.mem_map.mp hj
    obtain ⟨q', hq', rfl⟩ := List.mem_map.mp hq
    refine List.mem_map.mpr ⟨q', hq', ?_⟩
    simp only
    split <;> rfl

omit [DecidableEq κ] in
/-- The end of a hold binds nothing. -/
theorem shrinks_unpin (s : KeyedStore κ ν) (id : ℕ) : Shrinks s (s.unpin id) := by
  have hmodify := s.shrinks_modifyEntry id
  unfold KeyedStore.unpin
  simp only
  split
  · split
    · refine ⟨rfl, rfl, rfl, hmodify.keys_subset, hmodify.ids_subset, fun e he =>
        hmodify.entries_old e ?_⟩
      exact ((List.eraseP_sublist).append_left _).subset he
    · exact hmodify
  · exact hmodify

/-- A class is not accounted. -/
theorem Inv.reclassify (h : s.Inv holds) (key : κ) (klass : PriorityClass) :
    (s.reclassify key klass).Inv holds := by
  have hmap : ∀ {α : Type} (g : CacheEntry ν → α), (∀ e, g { e with klass := klass } = g e) →
      (s.reclassify key klass).entries.map g = s.entries.map g := by
    intro α g hg
    simp only [entries, KeyedStore.reclassify, List.map_append, List.map_map]
    congr 1
    refine List.map_congr_left fun q _ => ?_
    simp only [Function.comp_apply]
    split
    · exact hg _
    · rfl
  have hold : ∀ q ∈ (s.reclassify key klass).map, ∃ q' ∈ s.map, q.2.id = q'.2.id ∧
      q.2.pins = q'.2.pins ∧ q.2.removed = q'.2.removed := by
    intro q hq
    obtain ⟨q', hq', rfl⟩ := List.mem_map.mp hq
    refine ⟨q', hq', ?_⟩
    simp only
    split <;> exact ⟨rfl, rfl, rfl⟩
  refine ⟨?_, ?_, ?_, fun e he => ?_, fun j hj => ?_, fun q hq => ?_, h.orphaned⟩
  · have hkeys : (s.reclassify key klass).map.map Prod.fst = s.map.map Prod.fst := by
      simp only [KeyedStore.reclassify, List.map_map]
      rfl
    exact hkeys ▸ h.keys
  · rw [hmap CacheEntry.id fun _ => rfl]
    exact h.ids
  · rw [hmap (fun e => e.bytes.toNat) fun _ => rfl]
    exact h.resident
  · rcases List.mem_append.mp he with he | he
    · obtain ⟨q, hq, rfl⟩ := List.mem_map.mp he
      obtain ⟨q', hq', hid, hpins, -⟩ := hold q hq
      rw [hid, hpins]
      exact h.pins q'.2 (List.mem_append_left _ (List.mem_map_of_mem hq'))
    · exact h.pins e (List.mem_append_right _ he)
  · rw [hmap CacheEntry.id fun _ => rfl]
    exact h.held j hj
  · obtain ⟨q', hq', -, -, hremoved⟩ := hold q hq
    exact hremoved.trans (h.live q' hq')

end KeyedStore

/-! ## Runs -/

section

variable {s s' : CacheSession κ ν} {l : CacheLedger} {e : CacheEvent κ ν}

/-- What holds of a store, its holds and the record of its run. -/
structure CacheSession.Inv (s : CacheSession κ ν) (l : CacheLedger) : Prop where
  /-- The books are right. -/
  books : s.store.Inv s.holds
  /-- A tick for each use. -/
  tick_eq : s.store.tick = l.uses.length
  /-- The recency of an entry tells how many uses came after its last one. -/
  recency : ∀ c ∈ s.store.entries, c.id ∈ l.uses ∧
    c.recency + l.uses.idxOf c.id = l.uses.length
  /-- What went from the map is not in it. -/
  gone : ∀ id ∈ l.gone, id ∉ s.store.ids ∧ id < s.store.next

omit [DecidableEq κ] in
/-- The identities of a map were given out. -/
private theorem ids_lt {t : KeyedStore κ ν} {holds : List ℕ} (h : t.Inv holds) {id : ℕ}
    (hid : id ∈ t.ids) : id < t.next := by
  obtain ⟨p, hp, rfl⟩ := List.mem_map.mp hid
  exact h.id_lt (List.mem_append_left _ (List.mem_map_of_mem hp))

omit [DecidableEq κ] in
/-- What has gone stays away when the map only takes a new entry. -/
private theorem gone_record {t t' : KeyedStore κ ν} {gone : List ℕ} (hids : ∀ id ∈ t.ids, id < t.next)
    (hgone : ∀ id ∈ gone, id ∉ t.ids ∧ id < t.next) (hle : t.next ≤ t'.next)
    (hids' : ∀ id ∈ t'.ids, id ∈ t.ids ∨ t.next ≤ id) :
    ∀ id ∈ t.ids.filter (fun id => id ∉ t'.ids) ++ gone, id ∉ t'.ids ∧ id < t'.next := by
  intro id hid
  rcases List.mem_append.mp hid with hid | hid
  · obtain ⟨hm, hnot⟩ := List.mem_filter.mp hid
    exact ⟨by simpa using hnot, (hids id hm).trans_le hle⟩
  · obtain ⟨hnot, hlt⟩ := hgone id hid
    refine ⟨fun hm => ?_, hlt.trans_le hle⟩
    rcases hids' id hm with hm | hm
    · exact hnot hm
    · omega

/-- A removal keeps the record. -/
private theorem CacheSession.Inv.shrink (h : s.Inv l) (he : ∀ key, e ≠ .lookup key)
    (he' : ∀ key value bytes klass, e ≠ .insert key value bytes klass)
    (hbooks : s'.store.Inv s'.holds) (hshrinks : s.store.Shrinks s'.store) :
    s'.Inv (CacheLedger.record e s s' l) := by
  have huses : (CacheLedger.record e s s' l).uses = l.uses := by
    cases e with
    | insert key value bytes klass => exact absurd rfl (he' key value bytes klass)
    | lookup key => exact absurd rfl (he key)
    | _ => rfl
  refine ⟨hbooks, ?_, fun c hc => ?_, ?_⟩
  · rw [huses, hshrinks.tick_eq]
    exact h.tick_eq
  · obtain ⟨c', hc', hid, hrecency⟩ := hshrinks.entries_old c hc
    rw [huses, hid, hrecency]
    exact h.recency c' hc'
  · exact gone_record (fun _ => ids_lt h.books) h.gone hshrinks.next_eq.ge fun id hid =>
      Or.inl (hshrinks.ids_subset hid)

/-- The position of the other entries in the order of use moves by one. -/
private theorem recency_cons {uses : List ℕ} {id recency n : ℕ} (hne : id ≠ n) (hmem : id ∈ uses)
    (h : recency + uses.idxOf id = uses.length) :
    id ∈ n :: uses ∧ recency + (n :: uses).idxOf id = (n :: uses).length := by
  refine ⟨List.mem_cons_of_mem _ hmem, ?_⟩
  rw [List.idxOf_cons_ne _ (Ne.symm hne), List.length_cons]
  omega

/-- Every event keeps the books and the record. -/
theorem CacheSession.Inv.step (h : s.Inv l) (hs : CacheSession.step e s = some s') :
    s'.Inv (CacheLedger.record e s s' l) := by
  cases e with
  | insert key value bytes klass =>
    obtain ⟨hid, hbooks, -⟩ := h.books.insert key value bytes klass
    obtain ⟨hdetach, hshrinks⟩ := h.books.detach key
    obtain ⟨hinv, hshrinks', -, -⟩ := hdetach.evictToFit bytes
    have hall := hshrinks.trans hshrinks'
    simp only [CacheSession.step] at hs
    split at hs
    · cases hs
      rw [← hid] at hbooks
      refine ⟨hbooks, ?_, fun c hc => ?_, ?_⟩
      · change ((s.store.detach key).evictToFit bytes).tick + 1 = l.uses.length + 1
        rw [hall.tick_eq, h.tick_eq]
      · change c.id ∈ s.store.next :: l.uses ∧
          c.recency + (s.store.next :: l.uses).idxOf c.id = l.uses.length + 1
        rcases List.mem_cons.mp hc with rfl | hc
        · refine ⟨?_, ?_⟩
          · change ((s.store.detach key).evictToFit bytes).next ∈ s.store.next :: l.uses
            rw [hall.next_eq]
            exact List.mem_cons_self
          · change ((s.store.detach key).evictToFit bytes).tick + 1 +
              (s.store.next :: l.uses).idxOf ((s.store.detach key).evictToFit bytes).next = _
            rw [hall.next_eq, hall.tick_eq, h.tick_eq, List.idxOf_cons_self]
        · obtain ⟨c', hc', hid', hrecency⟩ := hall.entries_old c hc
          have hc'' := h.recency c' hc'
          rw [hid', hrecency]
          exact recency_cons (h.books.id_lt hc').ne hc''.1 hc''.2
      · refine gone_record (fun _ => ids_lt h.books) h.gone ?_ fun id hid => ?_
        · change s.store.next ≤ ((s.store.detach key).evictToFit bytes).next + 1
          rw [hall.next_eq]
          exact Nat.le_succ _
        · rcases List.mem_cons.mp hid with rfl | hid
          · right
            change s.store.next ≤ ((s.store.detach key).evictToFit bytes).next
            exact hall.next_eq.ge
          · exact Or.inl (hall.ids_subset hid)
    · cases hs
  | lookup key =>
    have hbooks := h.books.lookup key
    simp only [CacheSession.step, KeyedStore.lookup] at hs hbooks
    cases hf : s.store.find? key with
    | none =>
      rw [hf] at hs hbooks
      cases hs
      refine ⟨hbooks, ?_, ?_, ?_⟩
      · simp only [CacheLedger.record, hf]
        exact h.tick_eq
      · simp only [CacheLedger.record, hf]
        exact h.recency
      · exact gone_record (fun _ => ids_lt h.books) h.gone le_rfl fun id hid => Or.inl hid
    | some p =>
      rw [hf] at hs hbooks
      simp only at hs hbooks
      split at hs
      · cases hs
        have hentries := s.store.entries_modifyEntry p.2.id
          (CacheEntry.use (s.store.tick + 1))
        refine ⟨hbooks, ?_, fun c hc => ?_, ?_⟩
        · simp only [CacheLedger.record, hf]
          exact congrArg Nat.succ h.tick_eq
        · simp only [CacheLedger.record, hf]
          change c ∈ (s.store.modifyEntry p.2.id (CacheEntry.use (s.store.tick + 1))).entries at hc
          rw [hentries] at hc
          obtain ⟨c', hc', rfl⟩ := List.mem_map.mp hc
          have hold := h.recency c' hc'
          change _ ∈ p.2.id :: l.uses ∧ _ + (p.2.id :: l.uses).idxOf _ = l.uses.length + 1
          split
          · rename_i heq
            refine ⟨?_, ?_⟩
            · change c'.id ∈ p.2.id :: l.uses
              rw [heq]
              exact List.mem_cons_self
            · change s.store.tick + 1 + (p.2.id :: l.uses).idxOf c'.id = l.uses.length + 1
              rw [heq, h.tick_eq, List.idxOf_cons_self]
          · rename_i hne
            exact recency_cons hne hold.1 hold.2
        · have hids : (s.store.modifyEntry p.2.id (CacheEntry.use (s.store.tick + 1))).ids =
              s.store.ids := by
            simp only [KeyedStore.ids, KeyedStore.modifyEntry, List.map_map]
            refine List.map_congr_left fun q _ => ?_
            simp only [Function.comp_apply]
            split <;> rfl
          refine gone_record (fun _ => ids_lt h.books) h.gone le_rfl fun id hid => Or.inl ?_
          change id ∈ (s.store.modifyEntry p.2.id (CacheEntry.use (s.store.tick + 1))).ids at hid
          rwa [hids] at hid
      · cases hs
  | reclassify key klass =>
    cases hs
    refine h.shrink (by simp) (by simp) (h.books.reclassify key klass)
      ⟨rfl, rfl, rfl, ?_, ?_, fun c hc => ?_⟩
    · intro k hk
      simpa [KeyedStore.reclassify] using hk
    · intro id hid
      obtain ⟨q, hq, rfl⟩ := List.mem_map.mp hid
      obtain ⟨q', hq', rfl⟩ := List.mem_map.mp hq
      refine List.mem_map.mpr ⟨q', hq', ?_⟩
      simp only
      split <;> rfl
    · rcases List.mem_append.mp hc with hc | hc
      · obtain ⟨q, hq, rfl⟩ := List.mem_map.mp hc
        obtain ⟨q', hq', rfl⟩ := List.mem_map.mp hq
        refine ⟨q'.2, List.mem_append_left _ (List.mem_map_of_mem hq'), ?_⟩
        simp only
        split <;> exact ⟨rfl, rfl⟩
      · exact ⟨c, List.mem_append_right _ hc, rfl, rfl⟩
  | remove key =>
    cases hs
    obtain ⟨hinv, hshrinks⟩ := h.books.detach key
    exact h.shrink (by simp) (by simp) hinv hshrinks
  | removeIf pred =>
    cases hs
    obtain ⟨hinv, hshrinks⟩ := h.books.removeIf pred
    exact h.shrink (by simp) (by simp) hinv hshrinks
  | release id =>
    simp only [CacheSession.step] at hs
    split at hs
    · rename_i hid
      cases hs
      exact h.shrink (by simp) (by simp) (h.books.unpin hid) (s.store.shrinks_unpin id)
    · cases hs

omit [DecidableEq κ] in
/-- A new store. -/
theorem CacheSession.inv_start (budget : UInt64) :
    (⟨{ budget }, []⟩ : CacheSession κ ν).Inv {} := by
  have hempty : KeyedStore.Inv (κ := κ) (ν := ν) { budget } [] := by
    refine ⟨.nil, .refl _, rfl, fun e he => ?_, fun id hid => ?_, fun q hq => ?_,
      fun e he => ?_⟩
    · cases he
    · cases hid
    · cases hq
    · cases he
  refine ⟨hempty, rfl, fun e he => ?_, fun id hid => ?_⟩
  · cases he
  · cases hid

/-- In every run the books are right. -/
theorem cacheModel_inv {p : CacheSession κ ν × CacheLedger}
    (h : (cacheModel κ ν).Reachable Machine.anyEvent p) : p.1.Inv p.2 := by
  refine h.invariant (I := fun p => p.1.Inv p.2) ?_ ?_
  · rintro ⟨s, l⟩ ⟨⟨budget, rfl⟩, hl⟩
    obtain rfl : l = {} := hl
    exact CacheSession.inv_start budget
  · rintro ⟨s, l⟩ e ⟨s', l'⟩ hinv - hs
    obtain ⟨hs, hl⟩ := Machine.observe_step_eq_some.mp hs
    obtain rfl : l' = CacheLedger.record e s s' l := hl
    exact hinv.step hs

end

/-- Two entries are inserted over the budget while the first is pinned, and the first is replaced
before its hold ends. -/
def cacheRun : List (CacheEvent ℕ ℕ) :=
  [.insert 0 10 6 .visible, .insert 1 11 6 .speculative, .release 1, .insert 0 12 6 .visible,
    .lookup 0, .release 0, .removeIf fun key => key == 0]

end ArbitraryComposer
