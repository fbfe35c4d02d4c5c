import ArbitraryComposer.Pool.SlotStore
import ArbitraryComposer.ToMathlib.Machine
import Mathlib.Data.Finset.Basic
import Mathlib.Data.List.Pairwise

/-!
# The Slot Partition

Runs of one size class over any number of threads, with the release fence and the rebuilding of a
reopened file. Every slot below the high-water mark has one place: it is live, in one thread's
pool, in the global pool, or behind the fence.

The mark is a 32-bit number, and the check of the index space compares chunk numbers. With chunks of
4096 slots it never fails: the last slot is handed out, the mark returns to zero, and the store hands
out its first slot again.

## Main definitions

- `SlotStore.allocate32`: an allocation with the mark in its 32 bits.
- `slotMachine`: the runs.
- `SlotPlace`, `SlotRun.Sound`: the places of a slot and what the store promises of them.

## Main results

- `slotPartition_sound`: the promise is kept until the mark passes its last value.
-/

namespace ArbitraryComposer

/-- One past the largest value of `d_high_water`. -/
def markLimit : ℕ := 2 ^ 32

/-- `SlotStore::allocate` on thread `t`, with the mark in its 32 bits. -/
def SlotStore.allocate32 (s : SlotStore) (t : ℕ) : Except PoolError ℕ × SlotStore :=
  let (result, s) := s.allocate t
  (result, { s with highWater := s.highWater % markLimit })

/-- A store in use. -/
structure SlotRun where
  /-- The store. -/
  store : SlotStore
  /-- A release fence is installed. -/
  fenced : Bool
  /-- The slots that the fence holds back. -/
  quarantine : List ℕ
  /-- The slots handed out, or found in the file, and not released. -/
  live : Finset ℕ

/-- What happens to a store. -/
inductive SlotEvent where
  /-- `allocate` on a thread. -/
  | allocate (t : ℕ)
  /-- `release` on a thread. -/
  | release (t index : ℕ)
  /-- A `release` without a fence whose pool has not been spilled yet. -/
  | push (t index : ℕ)
  /-- The locked half of `push_free`, of a pool that filled a batch. -/
  | spill (t : ℕ)
  /-- The locked half of `allocate`, for a dry pool. -/
  | refill (t : ℕ)
  /-- The fence returns a slot with `free_now`. -/
  | returned (t index : ℕ)
  /-- `set_release_fence`. -/
  | setFence (installed : Bool)
  /-- `reserve_restored` on a store that handed out nothing. -/
  | reserveRestored (highWater : ℕ)
  /-- `finalize_restore` before any slot was returned. -/
  | finalizeRestore (live : List ℕ)

/-- The effect of an event. A release names a live slot, and a reopened file has at most as many
slots as its mark can say. -/
def slotStep : SlotEvent → SlotRun → Option SlotRun
  | .allocate t, r =>
    match r.store.allocate32 t with
    | (.ok index, store) => some { r with store, live := insert index r.live }
    | (.error _, store) => some { r with store }
  | .release t index, r =>
    if index ∈ r.live then
      let r := { r with store := r.store.dropLive, live := r.live.erase index }
      some <| if r.fenced then { r with quarantine := r.quarantine ++ [index] }
      else { r with store := r.store.freeNow t index }
    else none
  | .push t index, r =>
    if index ∈ r.live ∧ r.fenced = false then
      some { r with store := r.store.dropLive.pushLocal t index, live := r.live.erase index }
    else none
  | .spill t, r =>
    if freePoolBatch ≤ (r.store.localPool t).length then
      some { r with store := r.store.spillLocal t }
    else none
  | .refill t, r =>
    if r.store.localPool t = [] then
      some { r with store := (r.store.touchLocal t).refillFromGlobal t }
    else none
  | .returned t index, r =>
    if index ∈ r.quarantine then
      some { r with store := r.store.freeNow t index, quarantine := r.quarantine.erase index }
    else none
  | .setFence installed, r => some { r with fenced := installed }
  | .reserveRestored highWater, r =>
    if r.store.highWater = 0 ∧ r.live = ∅ ∧ highWater < markLimit then
      match r.store.reserveRestored highWater with
      | (.ok (), store) => some { r with store, live := .range highWater }
      | (.error _, store) => some { r with store }
    else none
  | .finalizeRestore live, r =>
    if (∀ t ∈ r.store.registered, r.store.localPool t = []) ∧ r.quarantine = [] then
      some { r with
        store := r.store.finalizeRestore live
        live := live.toFinset.filter (· < r.store.highWater) }
    else none

/-- The runs of a store. -/
def slotMachine (chunkBits : ℕ) (source : ChunkSource) : Machine SlotRun SlotEvent where
  start r := r = ⟨.init chunkBits source, false, [], ∅⟩
  step := slotStep

/-- Where a slot can be. -/
inductive SlotPlace where
  /-- Handed out. -/
  | live
  /-- In the pool of a thread. -/
  | localPool (t : ℕ)
  /-- In the global pool. -/
  | free
  /-- Behind the fence. -/
  | quarantine

namespace SlotRun

/-- A slot is in a place. -/
def At (r : SlotRun) (i : ℕ) : SlotPlace → Prop
  | .live => i ∈ r.live
  | .localPool t => i ∈ r.store.localPool t
  | .free => i ∈ r.store.free
  | .quarantine => i ∈ r.quarantine

/-- What a store promises of its slots. -/
structure Sound (r : SlotRun) : Prop where
  /-- A slot below the mark is in exactly one place. -/
  place : ∀ i < r.store.highWater, ∃! p, r.At i p
  /-- It is there once. -/
  once : r.store.free.Nodup ∧ r.quarantine.Nodup ∧ ∀ t, (r.store.localPool t).Nodup
  /-- A slot at or above the mark waits nowhere. -/
  above : ∀ i, r.store.highWater ≤ i →
    i ∉ r.store.free ∧ i ∉ r.quarantine ∧ ∀ t, i ∉ r.store.localPool t
  /-- An allocation hands out a slot that nobody has. -/
  fresh : ∀ t index store, r.store.allocate32 t = (.ok index, store) →
    index ∉ r.live ∧ index ∉ r.quarantine ∧ ∀ u ≠ t, index ∉ r.store.localPool u
  /-- A refused allocation leaves every list and the mark alone. -/
  refused : ∀ t e store, r.store.allocate32 t = (.error e, store) →
    store.free = r.store.free ∧ store.localPool = r.store.localPool ∧
      store.highWater = r.store.highWater

/-- How often a slot is held outside the pools. -/
def held (r : SlotRun) (i : ℕ) : ℕ := (if i ∈ r.live then 1 else 0) + r.quarantine.count i

/-- What every step keeps. -/
structure Kept (r : SlotRun) : Prop where
  /-- Every slot below the mark has one place. -/
  partition : r.store.Partition r.held
  /-- The mark did not wrap. -/
  mark : r.store.highWater < markLimit

end SlotRun

/-- The mark does not pass its last value: an allocation that finds every pool dry has a slot
left. -/
def MarkFits (e : SlotEvent) (r : SlotRun) : Prop :=
  ∀ t, e = .allocate t → r.store.upcoming t = [] → r.store.highWater + 1 < markLimit

namespace SlotRun

variable {r r' : SlotRun} {t index : ℕ}

/-- An allocation that fits is the one without a bound. -/
theorem allocate32_eq (hmark : r.store.highWater < markLimit) (hfits : MarkFits (.allocate t) r) :
    r.store.allocate32 t = r.store.allocate t := by
  have hlt : (r.store.allocate t).2.highWater < markLimit := by
    by_cases hdry : r.store.upcoming t = []
    · exact Nat.lt_of_le_of_lt SlotStore.highWater_allocate_le (hfits t rfl hdry)
    · rw [SlotStore.highWater_allocate_of_upcoming hdry]
      exact hmark
  unfold SlotStore.allocate32
  simp only [Nat.mod_eq_of_lt hlt]

/-- A live slot is held once. -/
private theorem Kept.held_of_live (h : r.Kept) (hi : index ∈ r.live) :
    r.held index = 1 ∧ r.quarantine.count index = 0 := by
  have hplace := h.partition.place index
  rw [held, if_pos hi] at hplace ⊢
  split at hplace <;> omega

/-- A slot behind the fence is held once. -/
private theorem Kept.held_of_quarantine (h : r.Kept) (hi : index ∈ r.quarantine) :
    r.held index = 1 ∧ index ∉ r.live ∧ r.quarantine.count index = 1 := by
  have hplace := h.partition.place index
  have hcount : 0 < r.quarantine.count index := List.count_pos_iff.mpr hi
  unfold held at hplace ⊢
  by_cases hlive : index ∈ r.live
  · rw [if_pos hlive] at hplace
    split at hplace <;> omega
  · rw [if_neg hlive] at hplace ⊢
    refine ⟨?_, hlive, ?_⟩ <;> split at hplace <;> omega

/-- What is held when a live slot goes elsewhere. -/
private theorem held_erase (hi : r.held index = 1) (hq : r.quarantine.count index = 0) (i : ℕ) :
    (if i ∈ r.live.erase index then 1 else 0) + r.quarantine.count i =
      Function.update r.held index 0 i := by
  by_cases hii : i = index
  · subst hii
    rw [Function.update_self, if_neg (Finset.notMem_erase _ _), hq]
  · rw [Function.update_of_ne hii, held]
    simp only [Finset.mem_erase, ne_eq, hii, not_false_eq_true, true_and]

/-- An allocation keeps the places. -/
private theorem Kept.allocate (h : r.Kept) (hfits : MarkFits (.allocate t) r)
    (hs : slotStep (.allocate t) r = some r') : r'.Kept := by
  have hmark : (r.store.allocate t).2.highWater < markLimit := by
    by_cases hdry : r.store.upcoming t = []
    · exact Nat.lt_of_le_of_lt SlotStore.highWater_allocate_le (hfits t rfl hdry)
    · rw [SlotStore.highWater_allocate_of_upcoming hdry]
      exact h.mark
  rw [slotStep, allocate32_eq h.mark hfits] at hs
  split at hs
  · rename_i index store hok
    obtain rfl := Option.some.inj hs
    obtain ⟨hheld, hpart, -⟩ := h.partition.allocate_ok hok
    rw [hok] at hmark
    refine ⟨hpart.congr fun i => ?_, hmark⟩
    unfold held at hheld ⊢
    dsimp only
    by_cases hii : i = index
    · subst hii
      rw [Function.update_self, if_pos (Finset.mem_insert_self _ _)]
      omega
    · rw [Function.update_of_ne hii]
      simp only [Finset.mem_insert, hii, false_or]
  · rename_i e store herror
    obtain rfl := Option.some.inj hs
    rw [herror] at hmark
    exact ⟨(h.partition.allocate_error herror).1, hmark⟩

/-- A release keeps the places. -/
private theorem Kept.release (h : r.Kept) (hs : slotStep (.release t index) r = some r') :
    r'.Kept := by
  obtain ⟨hlive, hs⟩ := Option.ite_none_right_eq_some.mp hs
  obtain ⟨hheld, hcount⟩ := h.held_of_live hlive
  obtain rfl := Option.some.inj hs
  dsimp only
  split
  · refine ⟨h.partition.dropLive.congr fun i => ?_, h.mark⟩
    -- the slot goes from the live ones behind the fence
    unfold held
    dsimp only
    rw [List.count_append, List.count_cons, List.count_nil]
    by_cases hii : i = index
    · subst hii
      rw [if_neg (Finset.notMem_erase _ _), if_pos hlive]
      simp only [BEq.rfl, if_true]
      omega
    · simp only [Finset.mem_erase, ne_eq, hii, not_false_eq_true, true_and, beq_iff_eq,
        Ne.symm hii, if_false, Nat.add_zero]
  · constructor
    · refine (h.partition.dropLive.freeNow hheld).congr fun i => ?_
      exact held_erase hheld hcount i
    · show (r.store.dropLive.freeNow t index).highWater < _
      rw [SlotStore.highWater_freeNow]
      exact h.mark

/-- The unlocked half of a release keeps the places. -/
private theorem Kept.push (h : r.Kept) (hs : slotStep (.push t index) r = some r') : r'.Kept := by
  obtain ⟨hlive, hs⟩ := Option.ite_none_right_eq_some.mp hs
  obtain ⟨hheld, hcount⟩ := h.held_of_live hlive.1
  obtain rfl := Option.some.inj hs
  constructor
  · refine (h.partition.dropLive.pushLocal hheld).congr fun i => ?_
    exact held_erase hheld hcount i
  · show (r.store.dropLive.pushLocal t index).highWater < _
    rw [SlotStore.highWater_pushLocal]
    exact h.mark

/-- What the fence returns goes to a pool. -/
private theorem Kept.returned (h : r.Kept) (hs : slotStep (.returned t index) r = some r') :
    r'.Kept := by
  obtain ⟨hq, hs⟩ := Option.ite_none_right_eq_some.mp hs
  obtain ⟨hheld, hlive, hcount⟩ := h.held_of_quarantine hq
  obtain rfl := Option.some.inj hs
  constructor
  · refine (h.partition.freeNow hheld).congr fun i => ?_
    unfold held
    dsimp only
    by_cases hii : i = index
    · subst hii
      rw [Function.update_self, if_neg hlive, List.count_erase_self, hcount]
    · rw [Function.update_of_ne hii, List.count_erase_of_ne hii]
  · show (r.store.freeNow t index).highWater < _
    rw [SlotStore.highWater_freeNow]
    exact h.mark

/-- A registered pool, or an empty one. -/
private theorem Kept.registered (h : r.Kept) (hne : r.store.localPool t ≠ []) :
    t ∈ r.store.registered := by
  by_contra hreg
  exact hne (h.partition.localPool_eq_nil t hreg)

/-- Rebuilding a file's store starts with every slot of the file in use. -/
private theorem Kept.reserveRestored {highWater : ℕ} (h : r.Kept)
    (hs : slotStep (.reserveRestored highWater) r = some r') : r'.Kept := by
  obtain ⟨hfresh, hs⟩ := Option.ite_none_right_eq_some.mp hs
  obtain ⟨hzero, hlive, hlimit⟩ := hfresh
  obtain ⟨hfree, hreg, hloc⟩ := SlotStore.reserveRestored_pools r.store highWater
  have hcount : ∀ i, (r.store.reserveRestored highWater).2.freeCount i = r.store.freeCount i := by
    intro i
    rw [SlotStore.freeCount_eq, SlotStore.freeCount_eq, hfree, hreg, hloc]
  have hnone : ∀ i, r.store.freeCount i = 0 ∧ r.quarantine.count i = 0 := by
    intro i
    have hplace := h.partition.place i
    rw [hzero, if_neg (Nat.not_lt_zero i), held, hlive, if_neg (Finset.notMem_empty i)] at hplace
    omega
  have hnodup : (r.store.reserveRestored highWater).2.registered.Nodup := by
    rw [hreg]
    exact h.partition.registered_nodup
  have hpools : ∀ u ∉ (r.store.reserveRestored highWater).2.registered,
      (r.store.reserveRestored highWater).2.localPool u = [] := by
    rw [hreg, hloc]
    exact h.partition.localPool_eq_nil
  split at hs
  · rename_i store hok
    obtain rfl := Option.some.inj hs
    have hmark : store.highWater = highWater := by
      have hmark := SlotStore.highWater_reserveRestored (congrArg Prod.fst hok)
      rwa [hok] at hmark
    rw [hok] at hcount hnodup hpools
    refine ⟨⟨fun i => ?_, hnodup, hpools⟩, Nat.lt_of_le_of_lt (Nat.le_of_eq hmark) hlimit⟩
    unfold held
    dsimp only
    rw [hcount, (hnone i).1, (hnone i).2, hmark, Nat.zero_add, Nat.add_zero]
    exact if_congr Finset.mem_range rfl rfl
  · rename_i e store herror
    obtain rfl := Option.some.inj hs
    have hmark : store.highWater = r.store.highWater := by
      have hmark := SlotStore.highWater_reserveRestored_error (congrArg Prod.fst herror)
      rwa [herror] at hmark
    rw [herror] at hcount hnodup hpools
    refine ⟨⟨fun i => ?_, hnodup, hpools⟩, Nat.lt_of_le_of_lt (Nat.le_of_eq hmark) h.mark⟩
    have hplace := h.partition.place i
    show store.freeCount i + r.held i = if i < store.highWater then 1 else 0
    rw [hcount, hmark]
    exact hplace

/-- Rebuilding a file's store ends with the slots in use that were found. -/
private theorem Kept.finalizeRestore {live : List ℕ} (h : r.Kept)
    (hs : slotStep (.finalizeRestore live) r = some r') : r'.Kept := by
  obtain ⟨hdry, hs⟩ := Option.ite_none_right_eq_some.mp hs
  obtain ⟨hlocal, hq⟩ := hdry
  obtain rfl := Option.some.inj hs
  have hloc : ∀ t, r.store.localPool t = [] := by
    intro t
    by_contra hne
    exact hne (hlocal t (h.registered hne))
  refine ⟨(SlotStore.partition_finalizeRestore_of_dry h.partition.registered_nodup
    hloc).congr fun i => ?_, h.mark⟩
  unfold held
  dsimp only
  rw [hq, List.count_nil, Nat.add_zero]
  exact if_congr (by rw [Finset.mem_filter, List.mem_toFinset]) rfl rfl

/-- Every step that fits keeps the places. -/
theorem Kept.step {e : SlotEvent} (h : r.Kept) (hfits : MarkFits e r)
    (hs : slotStep e r = some r') : r'.Kept := by
  cases e with
  | allocate t => exact h.allocate hfits hs
  | release t index => exact h.release hs
  | push t index => exact h.push hs
  | spill t =>
    obtain ⟨hfull, ⟨⟩⟩ := Option.ite_none_right_eq_some.mp hs
    have hreg : t ∈ r.store.registered := by
      apply h.registered
      intro hnil
      rw [hnil] at hfull
      exact absurd hfull (by decide)
    exact ⟨h.partition.spillLocal hreg, h.mark⟩
  | refill t =>
    obtain ⟨hdry, ⟨⟩⟩ := Option.ite_none_right_eq_some.mp hs
    refine ⟨(h.partition.touchLocal t).refillFromGlobal SlotStore.mem_registered_touchLocal, ?_⟩
    show (r.store.touchLocal t).highWater < _
    rw [SlotStore.highWater_touchLocal]
    exact h.mark
  | returned t index => exact h.returned hs
  | setFence installed =>
    obtain rfl := Option.some.inj hs
    exact ⟨h.partition, h.mark⟩
  | reserveRestored highWater => exact h.reserveRestored hs
  | finalizeRestore live => exact h.finalizeRestore hs

/-! ## Places -/

/-- A slot in a pool is counted. -/
private theorem mem_reusableSlots_of_localPool (h : r.store.Partition r.held) {i : ℕ}
    (hi : i ∈ r.store.localPool t) : i ∈ r.store.reusableSlots := by
  apply List.mem_append_right
  refine List.mem_flatMap.mpr ⟨t, ?_, hi⟩
  by_contra hreg
  rw [h.localPool_eq_nil t hreg] at hi
  cases hi

/-- No slot waits twice. -/
private theorem nodup_reusableSlots (h : r.store.Partition r.held) :
    r.store.reusableSlots.Nodup := by
  rw [List.nodup_iff_count_le_one]
  intro i
  have hplace := h.place i
  unfold SlotStore.freeCount at hplace
  split at hplace <;> omega

/-- A slot is in the pool of one thread. -/
private theorem localPool_unique (h : r.store.Partition r.held) {i u : ℕ}
    (ht : i ∈ r.store.localPool t) (hu : i ∈ r.store.localPool u) : t = u := by
  have hreg : ∀ v, i ∈ r.store.localPool v → v ∈ r.store.registered := by
    intro v hv
    by_contra hreg
    rw [h.localPool_eq_nil v hreg] at hv
    cases hv
  obtain ⟨-, hnodup, -⟩ := List.nodup_append.mp (nodup_reusableSlots h)
  obtain ⟨-, hpairs⟩ := List.nodup_flatMap.mp hnodup
  by_contra hne
  have : Std.Symm (Function.onFun List.Disjoint r.store.localPool) := ⟨fun _ _ hd => hd.symm⟩
  have hdisjoint := hpairs.forall (hreg t ht) (hreg u hu) hne
  exact hdisjoint ht hu

/-- A slot with one place counted is in exactly one place. -/
private theorem existsUnique_at (h : r.store.Partition r.held) {i : ℕ}
    (hi : i < r.store.highWater) : ∃! p, r.At i p := by
  have hplace := h.place i
  rw [if_pos hi, held] at hplace
  have hwaits : r.store.freeCount i = 0 ↔ i ∉ r.store.reusableSlots := List.count_eq_zero
  have hfence : r.quarantine.count i = 0 ↔ i ∉ r.quarantine := List.count_eq_zero
  have hlocal : ∀ t, i ∈ r.store.localPool t → r.store.freeCount i ≠ 0 := fun t ht h0 =>
    hwaits.mp h0 (mem_reusableSlots_of_localPool h ht)
  have hfree : i ∈ r.store.free → r.store.freeCount i ≠ 0 := fun hf h0 =>
    hwaits.mp h0 (List.mem_append_left _ hf)
  obtain ⟨-, -, hsplit⟩ := List.nodup_append.mp (nodup_reusableSlots h)
  have hapart : ∀ t, i ∈ r.store.localPool t → i ∉ r.store.free := by
    intro t ht hf
    refine hsplit i hf i (List.mem_flatMap.mpr ⟨t, ?_, ht⟩) rfl
    by_contra hreg
    rw [h.localPool_eq_nil t hreg] at ht
    cases ht
  by_cases hlive : i ∈ r.live
  · rw [if_pos hlive] at hplace
    refine ⟨.live, hlive, fun p hp => ?_⟩
    cases p with
    | live => rfl
    | localPool t => exact absurd (by omega) (hlocal t hp)
    | free => exact absurd (by omega) (hfree hp)
    | quarantine => exact absurd hp (hfence.mp (by omega))
  · rw [if_neg hlive] at hplace
    by_cases hq : i ∈ r.quarantine
    · have hcount : r.quarantine.count i ≠ 0 := fun h0 => hfence.mp h0 hq
      refine ⟨.quarantine, hq, fun p hp => ?_⟩
      cases p with
      | live => exact absurd hp hlive
      | localPool t => exact absurd (by omega) (hlocal t hp)
      | free => exact absurd (by omega) (hfree hp)
      | quarantine => rfl
    · have hwait : i ∈ r.store.reusableSlots := by
        by_contra hnot
        have h0 := hwaits.mpr hnot
        have hq0 := hfence.mpr hq
        omega
      rcases List.mem_append.mp hwait with hf | hl
      · refine ⟨.free, hf, fun p hp => ?_⟩
        cases p with
        | live => exact absurd hp hlive
        | localPool t => exact absurd hf (hapart t hp)
        | free => rfl
        | quarantine => exact absurd hp hq
      · obtain ⟨t, -, ht⟩ := List.mem_flatMap.mp hl
        refine ⟨.localPool t, ht, fun p hp => ?_⟩
        cases p with
        | live => exact absurd hp hlive
        | localPool u => rw [localPool_unique h hp ht]
        | free => exact absurd hp (hapart t ht)
        | quarantine => exact absurd hp hq

/-- What a state of the run promises. -/
theorem Kept.sound (h : r.Kept) : r.Sound where
  place _ hi := existsUnique_at h.partition hi
  once := by
    obtain ⟨hfree, hlocal, -⟩ := List.nodup_append.mp (nodup_reusableSlots h.partition)
    refine ⟨hfree, ?_, fun t => ?_⟩
    · rw [List.nodup_iff_count_le_one]
      intro i
      have hplace := h.partition.place i
      unfold held at hplace
      split at hplace <;> split at hplace <;> omega
    · by_cases hreg : t ∈ r.store.registered
      · exact (List.nodup_flatMap.mp hlocal).1 t hreg
      · rw [h.partition.localPool_eq_nil t hreg]
        exact List.nodup_nil
  above i hi := by
    have hplace := h.partition.place i
    rw [if_neg (Nat.not_lt.mpr hi), held] at hplace
    have hwaits : i ∉ r.store.reusableSlots := by
      apply List.count_eq_zero.mp
      show r.store.freeCount i = 0
      omega
    refine ⟨fun hf => hwaits (List.mem_append_left _ hf), ?_, fun t ht =>
      hwaits (mem_reusableSlots_of_localPool h.partition ht)⟩
    apply List.count_eq_zero.mp
    omega
  fresh t index store hok := by
    obtain ⟨hresult, -⟩ := Prod.mk.inj hok
    have hallocate : r.store.allocate t = (.ok index, (r.store.allocate t).2) :=
      Prod.ext hresult rfl
    obtain ⟨hheld, hpart, -⟩ := h.partition.allocate_ok hallocate
    have hplace := hpart.place index
    rw [Function.update_self] at hplace
    refine ⟨fun hlive => ?_, fun hq => ?_, fun u hu hmem => ?_⟩
    · rw [held, if_pos hlive] at hheld
      omega
    · have hcount : 0 < r.quarantine.count index := List.count_pos_iff.mpr hq
      unfold held at hheld
      omega
    · -- it would wait in the pool of another thread after the allocation too
      have hmem' : index ∈ (r.store.allocate t).2.localPool u := by
        rwa [SlotStore.localPool_allocate_of_ne hu]
      have hreg : u ∈ (r.store.allocate t).2.registered := by
        by_contra hreg
        rw [hpart.localPool_eq_nil u hreg] at hmem'
        cases hmem'
      have hcount : 0 < (r.store.allocate t).2.freeCount index :=
        List.count_pos_iff.mpr (List.mem_append_right _ (List.mem_flatMap.mpr ⟨u, hreg, hmem'⟩))
      split at hplace <;> omega
  refused t e store herror := by
    obtain ⟨hresult, hstore⟩ := Prod.mk.inj herror
    obtain ⟨hfree, hlocal, hmark⟩ := SlotStore.allocate_error_pools hresult
    obtain rfl := hstore
    refine ⟨hfree, hlocal, ?_⟩
    show (r.store.allocate t).2.highWater % markLimit = _
    rw [hmark, Nat.mod_eq_of_lt h.mark]

end SlotRun

/-! ## Small chunks -/

namespace SlotStore

variable {s s' : SlotStore} {t : ℕ}

/-- The limit on chunk numbers. -/
structure Bounded (s : SlotStore) (chunkBits : ℕ) : Prop where
  /-- The size of a chunk is fixed. -/
  bits : s.chunkBits = chunkBits
  /-- The mark lies in a chunk that may be published. -/
  mark : s.highWater ≤ maxChunks * 2 ^ chunkBits
  /-- So do the chunks that are. -/
  directory : ∀ n ∈ s.directory, n < maxChunks

variable {chunkBits : ℕ}

private theorem Bounded.touchLocal (h : s.Bounded chunkBits) (t : ℕ) :
    (s.touchLocal t).Bounded chunkBits := by
  unfold SlotStore.touchLocal
  split
  · exact h
  · exact ⟨h.bits, h.mark, h.directory⟩

private theorem Bounded.freeNow (h : s.Bounded chunkBits) (t index : ℕ) :
    (s.freeNow t index).Bounded chunkBits := by
  have htouch := h.touchLocal t
  unfold SlotStore.freeNow
  rw [pushFree_eq]
  split <;> exact ⟨htouch.bits, htouch.mark, htouch.directory⟩

/-- A slot below the limit lies in a chunk below it. -/
private theorem lt_of_shiftRight_lt {index : ℕ} (h : index >>> chunkBits < maxChunks) :
    index < maxChunks * 2 ^ chunkBits := by
  rw [Nat.shiftRight_eq_div_pow] at h
  exact (Nat.div_lt_iff_lt_mul (Nat.two_pow_pos chunkBits)).mp h

/-- Growing stays below the limit. -/
private theorem Bounded.grow (h : s.Bounded chunkBits) : s.grow.2.Bounded chunkBits := by
  obtain rfl := h.bits
  unfold SlotStore.grow
  dsimp only
  split
  case isTrue hboundary =>
    split
    case isTrue => exact h
    case isFalse hchunk =>
      have hlt := lt_of_shiftRight_lt (Nat.not_le.mp hchunk)
      split
      · exact ⟨rfl, h.mark, h.directory⟩
      · refine ⟨rfl, hlt, fun n hn => ?_⟩
        rcases Finset.mem_insert.mp hn with rfl | hn
        · exact Nat.not_le.mp hchunk
        · exact h.directory n hn
  case isFalse hinside =>
    refine ⟨rfl, ?_, h.directory⟩
    -- the limit itself is a chunk boundary
    have hne : s.highWater ≠ maxChunks * 2 ^ s.chunkBits := by
      intro heq
      rw [heq, Nat.mul_mod_left] at hinside
      exact hinside rfl
    exact Nat.lt_of_le_of_ne h.mark hne

private theorem Bounded.allocate32 (h : s.Bounded chunkBits) (t : ℕ) :
    (s.allocate32 t).2.Bounded chunkBits := by
  have hready : (s.readyLocal t).Bounded chunkBits := by
    have htouch := h.touchLocal t
    unfold readyLocal
    dsimp only
    split
    · exact ⟨htouch.bits, htouch.mark, htouch.directory⟩
    · exact htouch
  have hallocate : (s.allocate t).2.Bounded chunkBits := by
    unfold allocate
    dsimp only
    split
    · exact ⟨hready.bits, hready.mark, hready.directory⟩
    · exact hready.grow
  exact ⟨hallocate.bits, (Nat.mod_le _ _).trans hallocate.mark, hallocate.directory⟩

/-- Binding chunks stays below the limit, and binds all of them when it succeeds. -/
private theorem Bounded.bindChunks (ns : List ℕ) : ∀ {s : SlotStore}, s.Bounded chunkBits →
    (s.bindChunks ns).2.Bounded chunkBits ∧
      ((s.bindChunks ns).1 = .ok () → ∀ n ∈ ns, n < maxChunks) := by
  induction ns with
  | nil => exact fun h => ⟨h, fun _ _ hn => absurd hn List.not_mem_nil⟩
  | cons n ns ih =>
    intro s h
    unfold SlotStore.bindChunks
    split
    case isTrue hbound =>
      obtain ⟨hb, hall⟩ := ih h
      refine ⟨hb, fun hok m hm => ?_⟩
      rcases List.mem_cons.mp hm with rfl | hm
      · exact h.directory m hbound
      · exact hall hok m hm
    case isFalse =>
      split
      case isTrue => exact ⟨h, by simp⟩
      case isFalse hchunk =>
        split
        · exact ⟨⟨h.bits, h.mark, h.directory⟩, by simp⟩
        · rename_i source _
          have hpublished : Bounded
              { s with source := source, directory := insert n s.directory } chunkBits := by
            refine ⟨h.bits, h.mark, fun m hm => ?_⟩
            rcases Finset.mem_insert.mp hm with rfl | hm
            · exact Nat.not_le.mp hchunk
            · exact h.directory m hm
          obtain ⟨hb, hall⟩ := ih hpublished
          refine ⟨hb, fun hok m hm => ?_⟩
          rcases List.mem_cons.mp hm with rfl | hm
          · exact Nat.not_le.mp hchunk
          · exact hall hok m hm

private theorem Bounded.reserveRestored (h : s.Bounded chunkBits) (highWater : ℕ) :
    (s.reserveRestored highWater).2.Bounded chunkBits := by
  unfold SlotStore.reserveRestored
  split
  case isTrue => exact ⟨h.bits, Nat.zero_le _, h.directory⟩
  case isFalse hpos =>
    obtain ⟨hb, hall⟩ := h.bindChunks (List.range ((highWater - 1) >>> s.chunkBits + 1))
    dsimp only
    split
    · rename_i heq
      rw [heq] at hb
      exact hb
    · rename_i heq
      rw [heq] at hb hall
      have hlast := hall rfl ((highWater - 1) >>> s.chunkBits)
        (List.mem_range.mpr (Nat.lt_succ_self _))
      rw [h.bits] at hlast
      have hlt := lt_of_shiftRight_lt hlast
      refine ⟨hb.bits, ?_, hb.directory⟩
      show highWater ≤ _
      omega

end SlotStore

namespace SlotRun

variable {r r' : SlotRun} {chunkBits : ℕ} {e : SlotEvent}

/-- Every step stays below the limit on chunk numbers. -/
private theorem bounded_step (h : r.store.Bounded chunkBits) (hs : slotStep e r = some r') :
    r'.store.Bounded chunkBits := by
  cases e with
  | allocate t =>
    have hallocate := h.allocate32 t
    rw [slotStep] at hs
    split at hs
    · rename_i heq
      rw [heq] at hallocate
      cases hs
      exact hallocate
    · rename_i heq
      rw [heq] at hallocate
      cases hs
      exact hallocate
  | release t index =>
    obtain ⟨-, hs⟩ := Option.ite_none_right_eq_some.mp hs
    have hdrop : r.store.dropLive.Bounded chunkBits := ⟨h.bits, h.mark, h.directory⟩
    obtain rfl := Option.some.inj hs
    dsimp only
    split
    · exact hdrop
    · exact hdrop.freeNow t index
  | push t index =>
    obtain ⟨-, hs⟩ := Option.ite_none_right_eq_some.mp hs
    have hdrop : r.store.dropLive.Bounded chunkBits := ⟨h.bits, h.mark, h.directory⟩
    have htouch := hdrop.touchLocal t
    obtain rfl := Option.some.inj hs
    exact ⟨htouch.bits, htouch.mark, htouch.directory⟩
  | spill t =>
    obtain ⟨-, ⟨⟩⟩ := Option.ite_none_right_eq_some.mp hs
    exact ⟨h.bits, h.mark, h.directory⟩
  | refill t =>
    obtain ⟨-, hs⟩ := Option.ite_none_right_eq_some.mp hs
    have htouch := h.touchLocal t
    obtain rfl := Option.some.inj hs
    exact ⟨htouch.bits, htouch.mark, htouch.directory⟩
  | returned t index =>
    obtain ⟨-, ⟨⟩⟩ := Option.ite_none_right_eq_some.mp hs
    exact h.freeNow t index
  | setFence installed =>
    obtain rfl := Option.some.inj hs
    exact h
  | reserveRestored highWater =>
    have hreserved := h.reserveRestored highWater
    obtain ⟨-, hs⟩ := Option.ite_none_right_eq_some.mp hs
    split at hs
    · rename_i heq
      rw [heq] at hreserved
      obtain rfl := Option.some.inj hs
      exact hreserved
    · rename_i heq
      rw [heq] at hreserved
      obtain rfl := Option.some.inj hs
      exact hreserved
  | finalizeRestore live =>
    obtain ⟨-, ⟨⟩⟩ := Option.ite_none_right_eq_some.mp hs
    exact ⟨h.bits, h.mark, h.directory⟩

/-- With fewer than 4096 slots to a chunk the mark always fits. -/
private theorem markFits_of_bounded (hbits : chunkBits < 12) (h : r.store.Bounded chunkBits) :
    MarkFits e r := by
  intro _ _ _
  have hpow : 2 ^ chunkBits ≤ 2 ^ 11 := Nat.pow_le_pow_right (by decide) (by omega)
  have hle : maxChunks * 2 ^ chunkBits ≤ maxChunks * 2 ^ 11 := Nat.mul_le_mul_left _ hpow
  have hlimit : maxChunks * 2 ^ 11 + 1 < markLimit := by decide
  have hmark := h.mark
  omega

/-! ## The last slot -/

/-- A store whose source never refuses, filled from the start. -/
structure Filled (r : SlotRun) (chunkBits n : ℕ) : Prop where
  /-- The slots handed out. -/
  live : r.live = .range n
  /-- The mark, in its 32 bits. -/
  mark : r.store.highWater = n % markLimit
  /-- Nothing waits in the global pool. -/
  free : r.store.free = []
  /-- Nothing waits in a thread's pool. -/
  localPool : r.store.localPool = fun _ => []
  /-- The size of a chunk. -/
  bits : r.store.chunkBits = chunkBits
  /-- The source never refuses. -/
  source : r.store.source.refuses = fun _ => none

/-- A filled store hands out the slot at its mark. -/
private theorem Filled.allocate {n : ℕ} (h : r.Filled chunkBits n) (hbits : 12 ≤ chunkBits)
    (t : ℕ) : ∃ store, r.store.allocate32 t = (.ok (n % markLimit), store) ∧
      store.highWater = (n % markLimit + 1) % markLimit ∧ store.free = [] ∧
      store.localPool = (fun _ => []) ∧ store.chunkBits = chunkBits ∧
      store.source.refuses = fun _ => none := by
  have hlocal : r.store.localPool t = [] := by rw [h.localPool]
  obtain ⟨ready, hgrow, hfree, hloc, hmark, hsource, hready⟩ :=
    SlotStore.allocate_of_dry hlocal h.free
  have hchunk : ready.highWater >>> ready.chunkBits < maxChunks := by
    rw [hmark, h.mark, hready, h.bits, Nat.shiftRight_eq_div_pow]
    apply (Nat.div_lt_iff_lt_mul (Nat.two_pow_pos _)).mpr
    have hpow : 2 ^ 12 ≤ 2 ^ chunkBits := Nat.pow_le_pow_right (by decide) hbits
    have hlt : n % markLimit < markLimit := Nat.mod_lt _ (by decide)
    calc n % markLimit < maxChunks * 2 ^ 12 := hlt
      _ ≤ maxChunks * 2 ^ chunkBits := Nat.mul_le_mul_left _ hpow
  have hopen : ∀ k, ready.source.refuses k = none := by
    intro k
    rw [hsource, h.source]
  obtain ⟨hresult, hmark', hbits', hsource'⟩ := SlotStore.grow_of_unrefused hopen hchunk
  refine ⟨{ ready.grow.2 with highWater := ready.grow.2.highWater % markLimit }, ?_, ?_, ?_, ?_, ?_,
    ?_⟩
  · unfold SlotStore.allocate32
    rw [hgrow, ← h.mark, ← hmark, ← hresult]
  · show ready.grow.2.highWater % markLimit = _
    rw [hmark', hmark, h.mark]
  · show ready.grow.2.free = _
    rw [SlotStore.free_grow, hfree, h.free]
  · show ready.grow.2.localPool = _
    rw [SlotStore.localPool_grow, hloc, h.localPool]
  · exact hbits'.trans (hready.trans h.bits)
  · show ready.grow.2.source.refuses = _
    rw [hsource', hsource, h.source]

/-- Every slot of the index space is handed out once. -/
private theorem exists_filled (hbits : 12 ≤ chunkBits) (n : ℕ) (hn : n ≤ markLimit) :
    ∃ r, (slotMachine chunkBits ⟨fun _ => none, 0⟩).Reachable Machine.anyEvent r ∧
      r.Filled chunkBits n := by
  induction n with
  | zero => exact ⟨_, .start rfl, ⟨rfl, rfl, rfl, rfl, rfl, rfl⟩⟩
  | succ n ih =>
    obtain ⟨r, hr, hfilled⟩ := ih (Nat.le_of_succ_le hn)
    obtain ⟨store, hallocate, hmark, hfree, hloc, hbits', hsource⟩ := hfilled.allocate hbits 0
    rw [Nat.mod_eq_of_lt hn] at hallocate hmark
    have hs : slotStep (.allocate 0) r = some { r with store, live := insert n r.live } := by
      rw [slotStep, hallocate]
    refine ⟨_, hr.step (.allocate 0) trivial hs, ?_, hmark, hfree, hloc, hbits', hsource⟩
    show insert n r.live = _
    rw [hfilled.live, Finset.range_add_one]

/-- With at least 4096 slots to a chunk, a store that handed out its whole index space hands out
a slot in use. -/
theorem exists_reused (hbits : 12 ≤ chunkBits) :
    ∃ r, (slotMachine chunkBits ⟨fun _ => none, 0⟩).Reachable Machine.anyEvent r ∧
      ∃ t index store, r.store.allocate32 t = (.ok index, store) ∧ index ∈ r.live := by
  obtain ⟨r, hr, hfilled⟩ := exists_filled hbits markLimit (Nat.le_refl _)
  obtain ⟨store, hallocate, -⟩ := hfilled.allocate hbits 0
  refine ⟨r, hr, 0, _, store, hallocate, ?_⟩
  rw [hfilled.live, Finset.mem_range]
  exact Nat.mod_lt _ (by decide)

/-- A start of the runs keeps what every step keeps. -/
private theorem kept_start (source : ChunkSource) :
    Kept ⟨.init chunkBits source, false, [], ∅⟩ := by
  refine ⟨(SlotStore.partition_init chunkBits source).congr fun i => ?_,
    (by decide : 0 < markLimit)⟩
  rw [held, if_neg (Finset.notMem_empty i), List.count_nil]

end SlotRun

/-- The slots of a store keep their places. As long as the mark does not pass its last value,
every slot below it is in exactly one place, none at or above it waits anywhere, an allocation
hands out a slot that nobody has, and a refused one changes nothing. The mark never passes its last
value just when a chunk has fewer than 4096 slots. -/
theorem slotPartition_sound (chunkBits : ℕ) :
    (∀ source r, (slotMachine chunkBits source).Reachable MarkFits r → r.Sound) ∧
      ((∀ source r, (slotMachine chunkBits source).Reachable Machine.anyEvent r → r.Sound) ↔
        chunkBits < 12) := by
  constructor
  · intro source r hr
    have hkept : r.Kept := by
      apply hr.invariant
      · rintro r rfl
        exact SlotRun.kept_start source
      · intro r e r' h hfits hs
        exact h.step hfits hs
    exact hkept.sound
  · constructor
    · intro hsound
      by_contra hbits
      obtain ⟨r, hr, t, index, store, hallocate, hlive⟩ :=
        SlotRun.exists_reused (Nat.not_lt.mp hbits)
      exact ((hsound _ r hr).fresh t index store hallocate).1 hlive
    · intro hbits source r hr
      have hkept : r.Kept ∧ r.store.Bounded chunkBits := by
        apply hr.invariant (I := fun r => r.Kept ∧ r.store.Bounded chunkBits)
        · rintro r rfl
          exact ⟨SlotRun.kept_start source, rfl, Nat.zero_le _, fun n hn =>
            absurd hn (Finset.notMem_empty n)⟩
        · intro r e r' h _ hs
          exact ⟨h.1.step (SlotRun.markFits_of_bounded hbits h.2) hs,
            SlotRun.bounded_step h.2 hs⟩
      exact hkept.1.sound

/-- A store with small chunks after two allocations and a release behind the fence. -/
theorem slotPartition_sound_fenced :
    ∃ r, (slotMachine 3 ⟨fun _ => none, 0⟩).Reachable Machine.anyEvent r ∧ r.Sound ∧
      r.store.highWater = 2 ∧ r.quarantine = [0] := by
  obtain ⟨r, hr, hp⟩ := Machine.exists_reachable (M := slotMachine 3 ⟨fun _ => none, 0⟩)
    Machine.anyEvent [.allocate 0, .allocate 0, .setFence true, .release 1 0]
    (fun r : SlotRun => decide (r.store.highWater = 2 ∧ r.quarantine = [0])) rfl
    (Machine.runAllowed_anyEvent _ _) (by decide +kernel)
  exact ⟨r, hr, (slotPartition_sound 3).2.mpr (by decide) _ r hr, of_decide_eq_true hp⟩

/-- A store of 16-byte slots hands out its first slot again while it is in use. -/
theorem not_slotPartition_sound :
    ¬ ∀ source r, (slotMachine (defaultChunkBits 16) source).Reachable Machine.anyEvent r →
      r.Sound := by
  intro hsound
  have hbits : 12 ≤ defaultChunkBits 16 := by decide
  obtain ⟨r, hr, t, index, store, hallocate, hlive⟩ := SlotRun.exists_reused hbits
  exact ((hsound _ r hr).fresh t index store hallocate).1 hlive

end ArbitraryComposer
