import ArbitraryComposer.Pool.RefStore

/-!
# Reclamation

What a zero count leads to. The object stays in its slot until a drain: then its destructor
releases the references the object stores, which may push more objects on the reclaim stacks,
and the slot is returned to the allocator, or waits behind the fence of a durable document.

## Main definitions

- `reclaim`: destroy one object.
- `drainPending`, `drain`: empty the reclaim stack of a view, and those of all views.

## Main results

- `Arena.reclaim_spec`: the counts stay exact, and no object a held reference reaches changes.
- `Arena.drain_spec`: a drain leaves nothing that waits for reclamation.
-/

set_option linter.unusedSectionVars false

namespace ArbitraryComposer

open Exec SlabType

variable {V O : Type} [DecidableEq V] [SlabType O V]

/-- `SlotStore::release`: behind a fence the slot is quarantined, otherwise it is free. -/
def releaseSlot (t : ℕ) (s : ℕ × ℕ) : ArenaExec V O Unit := modify fun A =>
  let store := (A.stores s.1).dropLive
  match A.fence with
  | some fence =>
    { A.setStore s.1 store with
      fence := some { fence with quarantine := fence.quarantine ++ [⟨s.1, s.2, fence.epoch⟩] } }
  | none => A.setStore s.1 (store.freeNow t s.2)

/-- `RefStore::reclaim`: the destructor, then the return of the slot. -/
def reclaim (t : ℕ) (r : V × ℕ) : ArenaExec V O Unit := do
  let o ← peek r
  let s ← gets fun A => A.slot r
  modify fun A => { A with cells := A.cells.erase s }
  forEach (edges o) release
  releaseSlot t s

/-- `RefStore::drain_pending`: detach the stack of a view and reclaim what was on it. -/
def drainPending (t : ℕ) (v : V) : ArenaExec V O Bool := do
  let batch ← gets fun A => A.pending v
  if batch.isEmpty then
    pure false
  else
    modify fun A => { A with pending := Function.update A.pending v [] }
    forEach batch fun i => reclaim t (v, i)
    pure true

/-- One pass of `ReclamationQueue::drain` over the registered views. -/
def drainPass (t : ℕ) : List V → ArenaExec V O Bool
  | [] => pure false
  | v :: vs => do
    let progressed ← drainPending t v
    let rest ← drainPass t vs
    pure (progressed || rest)

/-- Passes until one makes no progress. -/
def drainLoop (t : ℕ) (views : List V) : ℕ → ArenaExec V O Unit
  | 0 => fault .depthExceeded
  | fuel + 1 => do
    if ← drainPass t views then
      drainLoop t views fuel
    else
      pure ()

/-- `ReclamationQueue::drain`. A pass that makes progress destroys an object, so the number of
objects bounds the passes. -/
def drain (t : ℕ) (views : List V) : ArenaExec V O Unit := do
  let n ← gets fun A => A.cells.keys.card
  drainLoop t views (n + 1)

namespace Arena

variable {A A' : Arena V O} {batch : List (V × ℕ)} {held : Multiset (V × ℕ)}
  {extra : Multiset (ℕ × ℕ)} {r : V × ℕ} {o : O} {t : ℕ}

/-- Taking an object out of its slot puts the slot in transit. -/
private theorem Placed.eraseCell {s : ℕ × ℕ} (h : A.Placed extra) (hs : s ∈ A.cells) :
    Placed { A with cells := A.cells.erase s } (s ::ₘ extra) := by
  intro c
  refine (h c).congr fun i => ?_
  simp only [heldAt, Finmap.mem_erase, Multiset.count_cons]
  by_cases hi : (c, i) = s
  · rw [if_neg (fun hc => hc.1 hi), if_pos hi, if_pos (hi ▸ hs)]
    omega
  · simp [hi]

/-- A slot in transit is returned. -/
private theorem Placed.releaseSlot {s : ℕ × ℕ} {E : PoolError → Arena V O → Prop}
    {F : Fault → Prop} (h : A.Placed (s ::ₘ extra)) :
    wp (ArbitraryComposer.releaseSlot t s)
      (fun _ A' => A'.Placed extra ∧ A'.cells = A.cells ∧ A'.count = A.count ∧
        A'.pending = A.pending ∧ A'.storeOf = A.storeOf ∧ A'.made = A.made ∧
        A'.zeroed = A.zeroed) E F A := by
  obtain ⟨c, i⟩ := s
  simp only [ArbitraryComposer.releaseSlot, wp_modify]
  split
  · rename_i fence hf
    refine ⟨?_, rfl, rfl, rfl, rfl, rfl, rfl⟩
    -- the slot moves from transit to the quarantine
    have hplace : ∀ c' i', heldAt { A.setStore c (A.stores c).dropLive with
        fence := some { fence with
          quarantine := fence.quarantine ++ [⟨c, i, fence.epoch⟩] } } extra c' i' =
        A.heldAt ((c, i) ::ₘ extra) c' i' := by
      intro c' i'
      simp only [heldAt, hf, Option.elim_some, Multiset.count_cons, List.map_append,
        List.count_append, List.map_cons, List.map_nil, List.count_cons, List.count_nil,
        beq_iff_eq, eq_comm (a := (c, i)), setStore]
      omega
    refine h.of_setStore rfl (fun c' i' _ => hplace c' i') ?_
    exact (h c).dropLive.congr fun i' => hplace c i'
  · refine ⟨?_, rfl, rfl, rfl, rfl, rfl, rfl⟩
    rename_i hf
    have hplace : ∀ c' i',
        heldAt (A.setStore c ((A.stores c).dropLive.freeNow t i)) extra c' i' +
          (if (c', i') = (c, i) then 1 else 0) = A.heldAt ((c, i) ::ₘ extra) c' i' := by
      intro c' i'
      change A.heldAt extra c' i' + _ = _
      simp only [heldAt, Multiset.count_cons]
      omega
    refine h.of_setStore rfl (fun c' i' hc' => ?_) ?_
    · have := hplace c' i'
      rwa [if_neg (fun heq => hc' (Prod.ext_iff.mp heq).1)] at this
    · have hone : A.heldAt ((c, i) ::ₘ extra) c i = 1 := by
        have hle := ((h c).place i)
        have hge : 1 ≤ A.heldAt ((c, i) ::ₘ extra) c i := by
          simp only [heldAt, Multiset.count_cons_self]
          omega
        split at hle <;> omega
      refine ((h c).dropLive.freeNow hone).congr fun i' => ?_
      have := hplace c i'
      by_cases hi : i' = i
      · subst hi
        rw [hone, if_pos rfl] at this
        rw [Function.update_self]
        omega
      · rw [if_neg (fun heq => hi (Prod.ext_iff.mp heq).2)] at this
        rwa [Function.update_of_ne hi]

/-! ## Destroying objects -/

/-- An object that waits for reclamation leaves its slot; the references it stored are held by
its destructor. -/
private theorem Sound.eraseCell (h : A.Sound (r :: batch) held)
    (hl : A.cells.lookup (A.slot r) = some o) (h0 : A.count (A.slot r) = 0) :
    Sound { A with cells := A.cells.erase (A.slot r) } batch
      ((edges o : Multiset (V × ℕ)) + held) := by
  have hkey : A.slot r ∈ A.graph.nodes := Finmap.mem_keys.mpr (Finmap.mem_of_lookup_eq_some hl)
  obtain ⟨hin, hheld⟩ := (h.exact.count_eq_zero_iff hkey).mp h0
  set A' : Arena V O := { A with cells := A.cells.erase (A.slot r) } with hA'
  have hlook : ∀ s, A'.cells.lookup s =
      if s = A.slot r then none else A.cells.lookup s := by
    intro s
    split
    · subst s
      exact Finmap.lookup_erase _ _
    · exact Finmap.lookup_erase_ne ‹_›
  have hsome : ∀ s o', A'.cells.lookup s = some o' →
      s ≠ A.slot r ∧ A.cells.lookup s = some o' := by
    intro s o' hs
    rw [hlook] at hs
    split at hs
    · cases hs
    · exact ⟨‹_›, hs⟩
  have hnames : ∀ r', A.slot r' ≠ A.slot r → (A'.Names r' ↔ A.Names r') := by
    intro r' hne
    rw [Names, show A'.slot r' = A.slot r' from rfl, hlook, if_neg hne, Names]
  have hrNames : A.Names r := by
    by_contra hn
    have := h.waiting r
    rw [List.count_cons_self, if_neg (fun hc => hn hc.1)] at this
    omega
  have hkeys : A'.graph.nodes = (A.graph.remove (A.slot r)).nodes := by
    ext a
    simp only [graph, hA', RefGraph.remove, Finmap.mem_keys, Finmap.mem_erase, Finset.mem_erase]
  have hout : ∀ a ∈ (A.graph.remove (A.slot r)).nodes,
      A'.graph.out a = (A.graph.remove (A.slot r)).out a := by
    intro a ha
    change (((A'.cells.lookup a).elim [] edges).map A.slot : List (ℕ × ℕ)) = A.graph.out a
    rw [hlook, if_neg (Finset.ne_of_mem_erase ha)]
    rfl
  have hedge : ∀ r' ∈ edges o, A'.Names r' := by
    intro r' hr'
    have hmem : A.slot r' ∈ A.graph.out (A.slot r) := by
      change _ ∈ (((A.cells.lookup (A.slot r)).elim [] edges).map A.slot : List (ℕ × ℕ))
      rw [hl]
      exact List.mem_map_of_mem hr'
    exact (hnames r' fun heq => hin _ hkey (heq ▸ hmem)).mpr (h.edge_names _ _ hl r' hr')
  constructor
  · intro s o' hs
    exact h.cell_slot s o' (hsome s o' hs).2
  · intro s o' hs r' hr'
    obtain ⟨-, hs⟩ := hsome s o' hs
    have hnode : s ∈ A.graph.nodes := Finmap.mem_keys.mpr (Finmap.mem_of_lookup_eq_some hs)
    have hmem : A.slot r' ∈ A.graph.out s := by
      change _ ∈ (((A.cells.lookup s).elim [] edges).map A.slot : List (ℕ × ℕ))
      rw [hs]
      exact List.mem_map_of_mem hr'
    exact (hnames r' fun heq => hin s hnode (heq ▸ hmem)).mpr (h.edge_names s o' hs r' hr')
  · intro r' hr'
    rcases Multiset.mem_add.mp hr' with hr' | hr'
    · exact hedge r' hr'
    · exact (hnames r' fun heq => hheld (heq ▸ Multiset.mem_map_of_mem A.slot hr')).mpr
        (h.held_names r' hr')
  · rw [Multiset.map_add, Multiset.map_coe]
    have hexact := h.exact.remove hkey h0
    rw [show A.graph.out (A.slot r) = (((edges o).map A.slot : List (ℕ × ℕ)) : Multiset _) by
      simp only [graph, hl, Option.elim_some]] at hexact
    exact hexact.congr hkeys hout fun _ _ => rfl
  · exact h.ranked.remove.congr hkeys.le fun a ha => hout a (hkeys ▸ ha)
  · intro r'
    have hw := h.waiting r'
    change batch.count r' + (A.pending r'.1).count r'.2 =
      if A'.Names r' ∧ A.count (A.slot r') = 0 then 1 else 0
    by_cases heq : A.slot r' = A.slot r
    · have hn' : ¬ A'.Names r' := fun hn => by
        rw [Names, show A'.slot r' = A.slot r' from rfl, hlook, if_pos heq] at hn
        cases hn
      rw [if_neg (fun hc => hn' hc.1)]
      by_cases hrr : r' = r
      · subst hrr
        rw [List.count_cons_self, if_pos ⟨hrNames, h0⟩] at hw
        omega
      · rw [List.count_cons_of_ne (Ne.symm hrr),
          if_neg (fun hc => hrr (hc.1.eq_of_slot_eq hrNames heq))] at hw
        exact hw
    · have hrr : r ≠ r' := fun hrr => heq (hrr ▸ rfl)
      rw [List.count_cons_of_ne hrr] at hw
      simp only [hnames r' heq]
      exact hw
  · exact h.books.trans (congrArg _ (live_eraseCell hrNames.mem h0).symm)

/-- What waits for reclamation is an object nothing refers to. -/
theorem Sound.of_waiting (h : A.Sound (r :: batch) held) :
    A.Names r ∧ A.count (A.slot r) = 0 := by
  by_contra hn
  have := h.waiting r
  rw [List.count_cons_self, if_neg hn] at this
  omega

/-- No held reference reaches an object that waits for reclamation. -/
theorem Sound.not_reachable (h : A.Sound batch held) (hr : A.Names r)
    (h0 : A.count (A.slot r) = 0) : ¬ A.graph.Reachable (held.map A.slot) (A.slot r) := by
  obtain ⟨hin, hheld⟩ := (h.exact.count_eq_zero_iff (Sound.mem_keys_of_names hr)).mp h0
  rintro ⟨root, hroot, hpath⟩
  cases hpath with
  | refl => exact hheld hroot
  | tail _ hedge => exact hin _ hedge.1 hedge.2

/-- One object is destroyed and its slot returned; nothing a held reference reaches changes. -/
theorem reclaim_spec {E : PoolError → Arena V O → Prop} {F : Fault → Prop}
    (h : A.Sound (r :: batch) held) (hp : A.Placed 0) :
    wp (reclaim t r) (fun _ A' => A'.Sound batch held ∧ A'.Placed 0 ∧ A.Preserves held A' ∧
      A'.cells = A.cells.erase (A.slot r)) E F A := by
  obtain ⟨hr, h0⟩ := h.of_waiting
  obtain ⟨o, ho, -⟩ := hr.exists_lookup
  have hpeek : wp (peek r) (fun o' A' => o' = o ∧ A' = A) E F A := by
    unfold wp peek
    simp only [ho]
    exact ⟨trivial, trivial⟩
  simp only [reclaim, wp_bind, wp_gets, wp_modify]
  refine wp_imp hpeek (fun o' A' hA' => ?_) fun _ _ hE => hE
  obtain ⟨rfl, rfl⟩ := hA'
  have herase := h.eraseCell ho h0
  refine wp_imp (releases_spec herase) (fun _ A₁ hA₁ => ?_) fun _ _ hE => hE
  obtain ⟨hsound, hsame⟩ := hA₁
  have hplaced : A₁.Placed (A'.slot r ::ₘ 0) := hsame.placed (hp.eraseCell hr.mem)
  refine wp_imp hplaced.releaseSlot (fun _ A₂ hA₂ => ?_) fun _ _ hE => hE
  obtain ⟨hplaced₂, hcells, hcount, hpending, hstore, hmade, hzeroed⟩ := hA₂
  have hcells₂ : A₂.cells = A'.cells.erase (A'.slot r) := hcells.trans hsame.cells_eq
  have hstore₂ : A₂.storeOf = A'.storeOf := hstore.trans hsame.storeOf_eq
  refine ⟨?_, hplaced₂, ⟨hstore₂, fun s hs => ?_⟩, hcells₂⟩
  · -- soundness does not look at the stores
    obtain ⟨storeOf, stores, cells, count, pending, fence, made, zeroed, retained⟩ := A₁
    obtain ⟨storeOf₂, stores₂, cells₂, count₂, pending₂, fence₂, made₂, zeroed₂, retained₂⟩ := A₂
    cases hcells
    cases hcount
    cases hpending
    cases hstore
    cases hmade
    cases hzeroed
    exact ⟨hsound.cell_slot, hsound.edge_names, hsound.held_names, hsound.exact, hsound.ranked,
      hsound.waiting, hsound.books⟩
  · rw [hcells₂]
    refine Finmap.lookup_erase_ne ?_
    rintro rfl
    have hsound₀ : A'.Sound (r :: batch) held := h
    exact hsound₀.not_reachable hr h0 hs

/-- A detached batch is destroyed. -/
private theorem reclaims_spec {E : PoolError → Arena V O → Prop} {F : Fault → Prop} {v : V}
    {is : List ℕ} (h : A.Sound (is.map fun i => (v, i)) held) (hp : A.Placed 0) :
    wp (forEach is fun i => reclaim t (v, i)) (fun _ A' => A'.Sound [] held ∧ A'.Placed 0 ∧
      A.Preserves held A' ∧ A'.cells.keys.card + is.length = A.cells.keys.card) E F A := by
  induction is generalizing A with
  | nil => exact ⟨h, hp, .refl, by simp⟩
  | cons i is ih =>
    simp only [forEach, wp_bind]
    rw [List.map_cons] at h
    have hm : A.slot (v, i) ∈ A.cells := h.of_waiting.1.mem
    refine wp_imp (reclaim_spec h hp) (fun _ A₁ hA₁ => ?_) fun _ _ hE => hE
    obtain ⟨hs, hp₁, hpres, hcells⟩ := hA₁
    refine wp_imp (ih hs hp₁) (fun _ A₂ hA₂ => ?_) fun _ _ hE => hE
    obtain ⟨hs₂, hp₂, hpres₂, hcard⟩ := hA₂
    refine ⟨hs₂, hp₂, hpres.trans hpres₂, ?_⟩
    have hkeys : A₁.cells.keys = A.cells.keys.erase (A.slot (v, i)) := by
      rw [hcells]
      exact Finmap.keys_erase _ _
    have hpos := Finset.card_erase_add_one (Finmap.mem_keys.mpr hm)
    rw [hkeys] at hcard
    rw [List.length_cons]
    omega

/-- Detaching a reclaim stack turns it into a batch. -/
private theorem Sound.detach (h : A.Sound [] held) (v : V) :
    Sound { A with pending := Function.update A.pending v [] }
      ((A.pending v).map fun i => (v, i)) held := by
  refine ⟨h.cell_slot, h.edge_names, h.held_names, h.exact, h.ranked, fun r => ?_, h.books⟩
  refine Eq.trans ?_ (h.waiting r)
  have hinj : Function.Injective fun i : ℕ => (v, i) := fun i j hij => (Prod.ext_iff.mp hij).2
  by_cases hv : r.1 = v
  · obtain ⟨v', i⟩ := r
    obtain rfl : v' = v := hv
    have hcount := List.count_map_of_injective (A.pending v') (fun i => (v', i)) hinj i
    simp only [Function.update_self, List.count_nil] at hcount ⊢
    rw [hcount]
    omega
  · have hnot : r ∉ (A.pending v).map fun i => (v, i) := by
      intro hm
      obtain ⟨i, -, rfl⟩ := List.mem_map.mp hm
      exact hv rfl
    rw [List.count_eq_zero_of_not_mem hnot]
    simp only [Function.update_of_ne hv, List.count_nil]

/-- One reclaim stack is emptied once. -/
private theorem drainPending_spec {E : PoolError → Arena V O → Prop} {F : Fault → Prop} {v : V}
    (h : A.Owned held) :
    wp (drainPending t v) (fun progressed A' => A'.Owned held ∧ A.Preserves held A' ∧
      (progressed = true → A'.cells.keys.card < A.cells.keys.card) ∧
      (progressed = false → A' = A ∧ A.pending v = [])) E F A := by
  simp only [drainPending, wp_bind, wp_gets]
  refine wp_ite (fun hempty => ?_) fun hne => ?_
  · rw [List.isEmpty_iff] at hempty
    exact ⟨h, .refl, by simp, fun _ => ⟨rfl, hempty⟩⟩
  · rw [List.isEmpty_iff] at hne
    simp only [wp_bind, wp_modify]
    have hlen : 0 < (A.pending v).length := List.length_pos_iff.mpr hne
    refine wp_imp (reclaims_spec (h.sound.detach v) h.placed) (fun _ A' hA' => ?_) fun _ _ hE => hE
    obtain ⟨hs, hp, hpres, hcard⟩ := hA'
    refine ⟨⟨hs, hp⟩, ⟨hpres.storeOf_eq, hpres.lookup_eq⟩, fun _ => ?_, by simp⟩
    change A'.cells.keys.card + _ = A.cells.keys.card at hcard
    omega

/-- A pass that makes no progress found every stack empty. -/
private theorem drainPass_spec {E : PoolError → Arena V O → Prop} {F : Fault → Prop}
    {views : List V} (h : A.Owned held) :
    wp (drainPass t views) (fun progressed A' => A'.Owned held ∧ A.Preserves held A' ∧
      A'.cells.keys.card ≤ A.cells.keys.card ∧
      (progressed = true → A'.cells.keys.card < A.cells.keys.card) ∧
      (progressed = false → A' = A ∧ ∀ v ∈ views, A.pending v = [])) E F A := by
  induction views generalizing A with
  | nil => exact ⟨h, .refl, le_rfl, by simp, by simp⟩
  | cons v views ih =>
    simp only [drainPass, wp_bind]
    refine wp_imp (drainPending_spec h) (fun p A₁ hA₁ => ?_) fun _ _ hE => hE
    obtain ⟨h₁, hpres₁, hlt₁, hstop₁⟩ := hA₁
    refine wp_imp (ih h₁) (fun q A₂ hA₂ => ?_) fun _ _ hE => hE
    obtain ⟨h₂, hpres₂, hle₂, hlt₂, hstop₂⟩ := hA₂
    have hle₁ : A₁.cells.keys.card ≤ A.cells.keys.card := by
      cases p with
      | true => exact (hlt₁ rfl).le
      | false => rw [(hstop₁ rfl).1]
    refine ⟨h₂, hpres₁.trans hpres₂, hle₂.trans hle₁, fun hpq => ?_, fun hpq => ?_⟩
    · rcases Bool.or_eq_true_iff.mp hpq with hp | hq
      · exact hle₂.trans_lt (hlt₁ hp)
      · exact (hlt₂ hq).trans_le hle₁
    · obtain ⟨hp, hq⟩ := Bool.or_eq_false_iff.mp hpq
      obtain ⟨rfl, hv⟩ := hstop₁ hp
      obtain ⟨rfl, hvs⟩ := hstop₂ hq
      refine ⟨rfl, fun w hw => ?_⟩
      rcases List.mem_cons.mp hw with rfl | hw
      · exact hv
      · exact hvs w hw

/-- A drain destroys everything that waits for reclamation and touches no object a held
reference reaches. -/
theorem drain_spec {E : PoolError → Arena V O → Prop} {F : Fault → Prop} (views : List V)
    (h : A.Owned held) :
    wp (drain t views) (fun _ A' => A'.Owned held ∧ A.Preserves held A' ∧
      ∀ v ∈ views, A'.pending v = []) E F A := by
  have hloop : ∀ (fuel : ℕ) (A : Arena V O), A.Owned held → A.cells.keys.card < fuel →
      wp (drainLoop t views fuel) (fun _ A' => A'.Owned held ∧ A.Preserves held A' ∧
        ∀ v ∈ views, A'.pending v = []) E F A := by
    intro fuel
    induction fuel with
    | zero => exact fun _ _ hlt => absurd hlt (Nat.not_lt_zero _)
    | succ fuel ih =>
      intro A h hlt
      simp only [drainLoop, wp_bind]
      refine wp_imp (drainPass_spec h) (fun p A₁ hA₁ => ?_) fun _ _ hE => hE
      obtain ⟨h₁, hpres₁, -, hlt₁, hstop₁⟩ := hA₁
      refine wp_ite (fun hp => ?_) fun hp => ?_
      · -- a pass that made progress destroyed an object
        have := hlt₁ hp
        refine wp_imp (ih A₁ h₁ (by omega)) (fun _ A₂ hA₂ => ?_) fun _ _ hE => hE
        exact ⟨hA₂.1, hpres₁.trans hA₂.2.1, hA₂.2.2⟩
      · obtain ⟨rfl, hv⟩ := hstop₁ (Bool.eq_false_iff.mpr hp)
        exact ⟨h₁, .refl, hv⟩
  simp only [drain, wp_bind, wp_gets]
  exact hloop _ A h (Nat.lt_succ_self _)

end Arena

end ArbitraryComposer
