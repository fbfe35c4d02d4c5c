import ArbitraryComposer.Model.Handles

/-!
# A Model Is a Session

Every event keeps the counts of the arena exact for the handles of the model, and does to the
session the model stands for what `Session.Step` says. Between the steps of an operation some
references are held by its local variables; the invariant names them.

## Main definitions

- `Model.heldRefs`: the references the versions, transactions and journal entries hold.
- `Model.session`: the session a model stands for.
- `Model.InvWith`, `Model.Inv`: the invariant, inside an operation and between two.

## Main results

- `exec_spec`: an event keeps the invariant and is a step of the session.
- `reachable_inv`, `journal_accounted`: what holds in every run.
- `transaction_isolated`: only its own events change what a transaction reads.
-/

set_option linter.unusedSectionVars false

namespace ArbitraryComposer

open Exec Arena SlabType

/-! ## The references held -/

/-- The references of the root handles in a list. -/
def rootsRefs {α : Type} (root : α → Option ℕ) (l : List (Option α)) : Multiset (View × ℕ) :=
  (l.map fun o => o.elim 0 fun a => rootRefs (root a)).sum

section

variable {α : Type} {root : α → Option ℕ} {l : List (Option α)} {i : ℕ} {o : Option α}

theorem rootsRefs_append (o : Option α) :
    rootsRefs root (l ++ [o]) = (o.elim 0 fun a => rootRefs (root a)) + rootsRefs root l := by
  simp only [rootsRefs, List.map_append, List.sum_append, List.map_cons, List.map_nil,
    List.sum_cons, List.sum_nil, add_zero]
  exact add_comm _ _

/-- The references of a list are those of one place and the rest. -/
theorem exists_rootsRefs_set (root : α → Option ℕ) (h : l[i]? = some o) : ∃ rest, ∀ o',
    rootsRefs root (l.set i o') = (o'.elim 0 fun a => rootRefs (root a)) + rest := by
  induction l generalizing i with
  | nil => simp at h
  | cons a l ih =>
    cases i with
    | zero =>
      refine ⟨rootsRefs root l, fun o' => ?_⟩
      rw [List.set_cons_zero]
      rfl
    | succ i =>
      obtain ⟨rest, hrest⟩ := ih (by simpa using h)
      refine ⟨(a.elim 0 fun a => rootRefs (root a)) + rest, fun o' => ?_⟩
      have h' := hrest o'
      rw [List.set_cons_succ]
      simp only [rootsRefs, List.map_cons, List.sum_cons] at h' ⊢
      rw [h', add_left_comm]

/-- Replacing one place of a list moves the references of that place. -/
theorem rootsRefs_set (root : α → Option ℕ) (h : l[i]? = some o) (o' : Option α) :
    (o.elim 0 fun a => rootRefs (root a)) + rootsRefs root (l.set i o') =
      (o'.elim 0 fun a => rootRefs (root a)) + rootsRefs root l := by
  obtain ⟨rest, hrest⟩ := exists_rootsRefs_set root h
  have hself : l.set i o = l := by
    obtain ⟨hi, rfl⟩ := List.getElem?_eq_some_iff.mp h
    exact List.set_getElem_self hi
  have hl := hrest o
  rw [hself] at hl
  rw [hrest o', hl, add_left_comm]

theorem rootRefs_le_rootsRefs {a : α} (h : some a ∈ l) :
    rootRefs (root a) ≤ rootsRefs root l := by
  obtain ⟨i, hi⟩ := List.mem_iff_getElem?.mp h
  have hset := rootsRefs_set root hi none
  simp only [Option.elim_none, Option.elim_some, zero_add] at hset
  exact hset ▸ Multiset.le_add_right _ _

end

/-- Every reference the versions, transactions and journal entries of a model hold. -/
def Model.heldRefs (s : Model) : Multiset (View × ℕ) :=
  rootsRefs DocRoot.root s.versions +
    (rootsRefs Transaction.root s.transactions + recordRefs s.journal.refs)

/-! ## The session -/

namespace Model

/-- The version of a handle. -/
def versionAt (s : Model) (v : ℕ) : DocRoot := (s.version? v).getD ⟨none, 0⟩

/-- The map of a version. -/
def mapAt (s : Model) (v : ℕ) : DocMap := docMap s.arena (s.versionAt v).root

/-- The draft a transaction stands for. -/
def draft (s : Model) (t : Transaction) : Draft where
  base := t.base
  baseMap := s.mapAt t.base
  map := docMap s.arena t.root
  publishRevision := t.publishRevision
  status := t.status
  isOpen := t.isOpen
  touched := t.touched
  contents := t.contents
  coalesceKey := t.coalesceKey

/-- The session a model stands for. -/
def session (s : Model) : Session where
  current := s.current
  revision := (s.versionAt s.current).revision
  map := s.mapAt s.current
  drafts := s.transactions.map (Option.map s.draft)
  journaled := s.journaled
  journal := s.journal.map (recordAt s.arena)

/-- The invariant inside an operation whose local variables hold the references `extra` and
handles on the versions `handles`. -/
structure InvWith (s : Model) (extra : Multiset (View × ℕ)) (handles : List ℕ := []) : Prop where
  /-- The counts are exact. -/
  owned : s.arena.Owned (extra + s.heldRefs)
  /-- A version is a map. -/
  version_isMap : ∀ d, some d ∈ s.versions → IsMap s.arena d.root
  /-- A working tree is a map. -/
  transaction_isMap : ∀ t, some t ∈ s.transactions → IsMap s.arena t.root
  /-- The versions that are there are those some handle is on. -/
  holders : ∀ v, (s.version? v).isSome = true ↔ v ∈ s.holders ∨ v ∈ handles
  /-- The current version is the last one published. -/
  current_eq : s.current + 1 = s.versions.length
  /-- The cursor is within the journal. -/
  cursor_le : s.journal.cursor ≤ s.journal.entries.length

/-- The invariant between two operations. -/
def Inv (s : Model) : Prop := s.InvWith 0

section

variable {s : Model} {A : Heap} {extra extra' : Multiset (View × ℕ)} {handles : List ℕ}
  {d : DocRoot} {v i : ℕ} {txn : Transaction} {F : Fault → Prop}

theorem some_mem_of_version? (h : s.version? v = some d) : some d ∈ s.versions := by
  rw [version?, Option.join_eq_some_iff] at h
  exact List.mem_of_getElem? h

theorem getElem?_of_transaction? (h : s.transaction? i = some txn) :
    s.transactions[i]? = some (some txn) := by
  rwa [transaction?, Option.join_eq_some_iff] at h

theorem some_mem_of_transaction? (h : s.transaction? i = some txn) :
    some txn ∈ s.transactions :=
  List.mem_of_getElem? (getElem?_of_transaction? h)

theorem versionAt_eq (h : s.version? v = some d) : s.versionAt v = d := by
  rw [versionAt, h, Option.getD_some]

theorem draft?_session (h : s.transaction? i = some txn) :
    s.session.draft? i = some (s.draft txn) := by
  rw [Session.draft?, session, List.getElem?_map, getElem?_of_transaction? h]
  rfl

theorem base_mem_holders (h : some txn ∈ s.transactions) : txn.base ∈ s.holders := by
  refine List.mem_cons_of_mem _ (List.mem_append_right _ (List.mem_filterMap.mpr ⟨_, h, rfl⟩))

theorem InvWith.exists_version (h : s.InvWith extra handles) (hv : v ∈ s.holders) :
    ∃ d, s.version? v = some d :=
  Option.isSome_iff_exists.mp ((h.holders v).mpr (Or.inl hv))

theorem InvWith.mapAt_isMap (h : s.InvWith extra handles) (hv : v ∈ s.holders) :
    IsMap s.arena (s.versionAt v).root := by
  obtain ⟨d, hd⟩ := h.exists_version hv
  rw [versionAt_eq hd]
  exact h.version_isMap d (some_mem_of_version? hd)

theorem rootRefs_le_of_version? (h : s.version? v = some d) : rootRefs d.root ≤ s.heldRefs :=
  (rootRefs_le_rootsRefs (some_mem_of_version? h)).trans (Multiset.le_add_right _ _)

theorem rootRefs_le_of_transaction (h : some txn ∈ s.transactions) :
    rootRefs txn.root ≤ s.heldRefs :=
  (rootRefs_le_rootsRefs h).trans
    ((Multiset.le_add_right _ _).trans (Multiset.le_add_left _ _))

/-- What a change of the arena keeps: the maps below held roots, and the records held. -/
private theorem session_congr (hcur : docMap A (s.versionAt s.current).root = s.mapAt s.current)
    (hbase : ∀ t, some t ∈ s.transactions →
      docMap A (s.versionAt t.base).root = s.mapAt t.base ∧
        docMap A t.root = docMap s.arena t.root)
    (hrec : ∀ r ∈ s.journal.refs, recordAt A r = recordAt s.arena r) :
    ({ s with arena := A } : Model).session = s.session := by
  have hdrafts : s.transactions.map (Option.map ({ s with arena := A } : Model).draft) =
      s.transactions.map (Option.map s.draft) := by
    refine List.map_congr_left fun o ho => ?_
    cases o with
    | none => rfl
    | some t =>
      have ht := hbase t ho
      simp only [Option.map_some, draft]
      exact congrArg some (by rw [Draft.mk.injEq]; exact ⟨rfl, ht.1, ht.2, rfl, rfl, rfl, rfl, rfl, rfl⟩)
  have hjournal : s.journal.map (recordAt A) = s.journal.map (recordAt s.arena) :=
    Journal.map_congr _ hrec
  rw [session, session, Session.mk.injEq]
  exact ⟨rfl, rfl, hcur, hdrafts, rfl, hjournal⟩

theorem mem_heldRefs_of_record {r : ℕ} (hr : r ∈ s.journal.refs) :
    (View.records, r) ∈ s.heldRefs :=
  Multiset.mem_add.mpr (Or.inr (Multiset.mem_add.mpr (Or.inr
    (Multiset.mem_map_of_mem _ (Multiset.mem_coe.mpr hr)))))

/-- While objects are only added, the session does not change. -/
theorem InvWith.session_extends (h : s.InvWith extra handles) (hext : s.arena.Extends A) :
    ({ s with arena := A } : Model).session = s.session := by
  refine session_congr ?_ (fun t ht => ⟨?_, ?_⟩) fun r hr => ?_
  · exact docMap_extends (h.mapAt_isMap List.mem_cons_self) h.owned.sound hext
  · exact docMap_extends (h.mapAt_isMap (base_mem_holders ht)) h.owned.sound hext
  · exact docMap_extends (h.transaction_isMap t ht) h.owned.sound hext
  · exact recordAt_extends (h.owned.sound.held_names _
      (Multiset.mem_add.mpr (Or.inr (mem_heldRefs_of_record hr)))) hext

/-- Operations that only add objects and account for their references keep the invariant. -/
theorem InvWith.of_extends (h : s.InvWith extra handles)
    (howned : A.Owned (extra' + s.heldRefs)) (hext : s.arena.Extends A) :
    ({ s with arena := A } : Model).InvWith extra' handles :=
  ⟨howned, fun d hd => (h.version_isMap d hd).extends hext,
    fun t ht => (h.transaction_isMap t ht).extends hext, h.holders, h.current_eq, h.cursor_le⟩

/-- A drain does not change the session. -/
theorem Inv.of_preserves (h : s.Inv) (howned : A.Owned s.heldRefs)
    (hp : s.arena.Preserves s.heldRefs A) :
    ({ s with arena := A } : Model).Inv ∧
      ({ s with arena := A } : Model).session = s.session := by
  have hversion : ∀ d, some d ∈ s.versions →
      IsMap A d.root ∧ docMap A d.root = docMap s.arena d.root := fun d hd =>
    docMap_preserves (h.version_isMap d hd) hp (mem_of_rootRefs_le
      ((rootRefs_le_rootsRefs hd).trans (Multiset.le_add_right _ _)))
  have htransaction : ∀ t, some t ∈ s.transactions →
      IsMap A t.root ∧ docMap A t.root = docMap s.arena t.root := fun t ht =>
    docMap_preserves (h.transaction_isMap t ht) hp
      (mem_of_rootRefs_le (rootRefs_le_of_transaction ht))
  have hat : ∀ v ∈ s.holders, docMap A (s.versionAt v).root = s.mapAt v := fun v hv => by
    obtain ⟨d, hd⟩ := h.exists_version hv
    rw [mapAt, versionAt_eq hd]
    exact (hversion d (some_mem_of_version? hd)).2
  refine ⟨⟨?_, fun d hd => (hversion d hd).1, fun t ht => (htransaction t ht).1, h.holders,
    h.current_eq, h.cursor_le⟩, session_congr (hat _ List.mem_cons_self)
      (fun t ht => ⟨hat _ (base_mem_holders ht), (htransaction t ht).2⟩) fun r hr => ?_⟩
  · rw [zero_add]
    exact howned
  · exact recordAt_preserves_held hp (mem_heldRefs_of_record hr)

/-- An operation on the arena that only adds objects; its result holds `extra'`. -/
theorem wp_onHeap {α : Type} {x : HeapExec α} (extra' : α → Multiset (View × ℕ))
    (P : α → Heap → Prop) {Q : α → Model → Prop} {E : PoolError → Model → Prop}
    (h : s.InvWith extra handles)
    (hx : wp x (fun a A => A.Owned (extra' a + s.heldRefs) ∧ s.arena.Extends A ∧ P a A)
      (fun e A => E e { s with arena := A }) F s.arena)
    (hQ : ∀ a A, ({ s with arena := A } : Model).InvWith (extra' a) handles →
      ({ s with arena := A } : Model).session = s.session → s.arena.Extends A → P a A →
        Q a { s with arena := A }) :
    wp (onHeap x) Q E F s := by
  rw [onHeap, wp_zoom]
  refine wp_imp hx (fun a A hA => ?_) fun e A hA => hA
  exact hQ a A (h.of_extends hA.1 hA.2.1) (h.session_extends hA.2.1) hA.2.1 hA.2.2

/-- A root handle held by a local variable is dropped. -/
theorem wp_onHeap_releaseRoot {root : Option ℕ} {Q : Unit → Model → Prop}
    {E : PoolError → Model → Prop} (h : s.InvWith (rootRefs root + extra) handles)
    (hQ : ∀ A, ({ s with arena := A } : Model).InvWith extra handles →
      ({ s with arena := A } : Model).session = s.session → s.arena.Extends A →
        Q () { s with arena := A }) :
    wp (onHeap (releaseRoot root)) Q E F s := by
  have howned : s.arena.Owned (rootRefs root + (extra + s.heldRefs)) := by
    rw [← add_assoc]
    exact h.owned
  exact wp_onHeap (fun _ => extra) (fun _ _ => True) h
    (wp_imp (releaseRoot_spec howned) (fun _ A hA => ⟨hA.1, hA.2.extends, trivial⟩)
      fun _ _ hE => hE) fun _ A hA hs hext _ => hQ A hA hs hext

/-! ## Versions -/

/-- Other versions, as long as the bases of the transactions are the same. -/
private theorem session_setVersions {vs : List (Option DocRoot)} {c : ℕ} {d : DocRoot}
    (hc : vs[c]?.join = some d)
    (h : ∀ t, some t ∈ s.transactions → vs[t.base]?.join = s.version? t.base) :
    ({ s with versions := vs, current := c } : Model).session =
      { s.session with current := c, revision := d.revision, map := docMap s.arena d.root } := by
  have hdrafts : s.transactions.map (Option.map ({ s with versions := vs, current := c } : Model).draft) =
      s.transactions.map (Option.map s.draft) := by
    refine List.map_congr_left fun o ho => ?_
    cases o with
    | none => rfl
    | some t =>
      have hbase : ({ s with versions := vs, current := c } : Model).mapAt t.base =
          s.mapAt t.base := by
        rw [mapAt, mapAt, versionAt, versionAt, ← h t ho, version?]
      simp only [Option.map_some, draft, hbase]
  have hversion : ({ s with versions := vs, current := c } : Model).versionAt c = d :=
    versionAt_eq hc
  rw [session, mapAt, hversion, hdrafts, session]

/-- The last handle on a version destroys it; the session does not change. -/
theorem dropVersion_spec {E : PoolError → Model → Prop} (h : s.InvWith extra [v]) :
    wp (dropVersion v) (fun _ s' => s'.InvWith extra ∧ s'.session = s.session ∧
      s'.journal = s.journal ∧ s.arena.Extends s'.arena) E F s := by
  simp only [dropVersion, wp_bind, wp_gets]
  cases hv : s.version? v with
  | none =>
    have hsome := (h.holders v).mpr (Or.inr (List.mem_singleton_self v))
    rw [hv] at hsome
    cases hsome
  | some d =>
    refine wp_ite (fun hheld => ?_) fun hheld => ?_
    · refine ⟨⟨h.owned, h.version_isMap, h.transaction_isMap, fun u => ?_, h.current_eq,
        h.cursor_le⟩, rfl, rfl, .refl⟩
      refine (h.holders u).trans ⟨?_, fun hu => Or.inl (hu.resolve_right List.not_mem_nil)⟩
      rintro (hu | hu)
      · exact Or.inl hu
      · rw [List.mem_singleton.mp hu]
        exact Or.inl hheld
    have hother : ∀ u ∈ s.holders, (s.versions.set v none)[u]?.join = s.version? u := by
      intro u hu
      have hne : v ≠ u := fun heq => hheld (heq ▸ hu)
      rw [List.getElem?_set_ne hne, version?]
    obtain ⟨c, hc⟩ := h.exists_version (v := s.current) List.mem_cons_self
    have hsession : ({ s with versions := s.versions.set v none } : Model).session = s.session := by
      refine (session_setVersions (c := s.current) (d := c) ?_ fun t ht =>
        hother _ (base_mem_holders ht)).trans ?_
      · rw [hother _ List.mem_cons_self, hc]
      · rw [session, mapAt, versionAt_eq hc]
    have hget : s.versions[v]? = some (some d) := by
      rwa [version?, Option.join_eq_some_iff] at hv
    have hrefs : rootRefs d.root + ({ s with versions := s.versions.set v none } : Model).heldRefs =
        s.heldRefs := by
      have hset := rootsRefs_set DocRoot.root hget none
      simp only [Option.elim_some, Option.elim_none, zero_add] at hset
      rw [heldRefs, heldRefs, ← hset, add_assoc]
    -- the handle of the version is a local variable until it is released
    have hinv : ({ s with versions := s.versions.set v none } : Model).InvWith
        (rootRefs d.root + extra) := by
      refine ⟨?_, fun d' hd' => ?_, h.transaction_isMap, fun u => ?_, ?_, h.cursor_le⟩
      · rw [add_comm (rootRefs d.root), add_assoc, hrefs]
        exact h.owned
      · rcases List.mem_or_eq_of_mem_set hd' with hd' | hd'
        · exact h.version_isMap d' hd'
        · cases hd'
      · have hu := h.holders u
        rw [List.mem_singleton] at hu
        rw [version?, or_iff_left List.not_mem_nil]
        by_cases huv : u = v
        · subst huv
          have hlt := (List.getElem?_eq_some_iff.mp hget).1
          rw [List.getElem?_set_self hlt]
          exact iff_of_false (by simp) hheld
        · rw [List.getElem?_set_ne (Ne.symm huv)]
          rwa [or_iff_left huv] at hu
      · rw [List.length_set]
        exact h.current_eq
    rw [wp_bind, wp_modify]
    exact wp_onHeap_releaseRoot hinv fun A hA hs hext => ⟨hA, hs.trans hsession, rfl, hext⟩

/-- Work on the arena hands out no id. -/
theorem keeps_onHeap {α : Type} (x : HeapExec α) : Keeps Model.nextId (onHeap x) :=
  keeps_zoom x fun _ _ => rfl

/-- Nor does the end of a version. -/
theorem keeps_dropVersion (v : ℕ) : Keeps Model.nextId (dropVersion v) := by
  refine keeps_bind (keeps_gets _) fun s => ?_
  split
  · exact keeps_ite (keeps_pure _)
      (keeps_bind (keeps_modify fun _ => rfl) fun _ => keeps_onHeap _)
  · exact keeps_pure _

/-- Nor does a publication. -/
theorem keeps_publish (d : DocRoot) : Keeps Model.nextId (publish d) :=
  keeps_bind (keeps_gets _) fun old =>
    keeps_bind (keeps_modify fun _ => rfl) fun _ => keeps_dropVersion old

/-- A version is published whose root a local variable held. -/
theorem publish_spec {E : PoolError → Model → Prop} (h : s.InvWith (rootRefs d.root + extra))
    (hmap : IsMap s.arena d.root) :
    wp (publish d) (fun _ s' => s'.InvWith extra ∧
      s'.session = s.session.publish d.revision (docMap s.arena d.root) ∧
      s'.journal = s.journal ∧ s.arena.Extends s'.arena) E F s := by
  simp only [publish, wp_bind, wp_gets, wp_modify]
  set s₁ : Model := { s with versions := s.versions ++ [some d], current := s.versions.length }
    with hs₁
  have hlast : s₁.version? s₁.current = some d := by
    rw [version?, hs₁, List.getElem?_concat_length]
    rfl
  have hother : ∀ v ∈ s.holders, s₁.version? v = s.version? v := by
    intro v hv
    obtain ⟨d', hd'⟩ := h.exists_version hv
    have hlt : v < s.versions.length := by
      rw [version?, Option.join_eq_some_iff] at hd'
      exact (List.getElem?_eq_some_iff.mp hd').1
    rw [version?, version?, hs₁, List.getElem?_append_left hlt]
  have hinv : s₁.InvWith extra [s.current] := by
    refine ⟨?_, fun d' hd' => ?_, h.transaction_isMap, fun v => ?_, ?_, h.cursor_le⟩
    · have hrefs : extra + s₁.heldRefs = rootRefs d.root + extra + s.heldRefs := by
        rw [heldRefs, heldRefs, hs₁, rootsRefs_append, Option.elim_some]
        abel
      rw [hrefs]
      exact h.owned
    · rcases List.mem_append.mp hd' with hd' | hd'
      · exact h.version_isMap d' hd'
      · obtain rfl : d' = d := by simpa using hd'
        exact hmap
    · have hv := h.holders v
      rw [or_iff_left List.not_mem_nil, holders, List.mem_cons] at hv
      rw [List.mem_singleton, holders, List.mem_cons]
      by_cases hvl : v = s.versions.length
      · subst hvl
        exact iff_of_true (hlast ▸ rfl) (Or.inl (Or.inl rfl))
      · have hsame : s₁.version? v = s.version? v := by
          rw [version?, version?, hs₁]
          rcases Nat.lt_or_ge v s.versions.length with hlt | hge
          · rw [List.getElem?_append_left hlt]
          · rw [List.getElem?_eq_none hge, List.getElem?_eq_none]
            simp only [List.length_append, List.length_singleton]
            omega
        rw [hsame, hv]
        change v = s.current ∨ _ ↔ (v = s.versions.length ∨ _) ∨ v = s.current
        rw [or_iff_right hvl]
        exact or_comm
    · rw [hs₁, List.length_append, List.length_singleton]
  have hsession : s₁.session = s.session.publish d.revision (docMap s.arena d.root) := by
    refine (session_setVersions hlast fun t ht => hother _ (base_mem_holders ht)).trans ?_
    rw [Session.publish, show s.session.current + 1 = s₁.current from h.current_eq]
  exact wp_imp (dropVersion_spec hinv)
    (fun _ s' hs' => ⟨hs'.1, hs'.2.1.trans hsession, hs'.2.2⟩) fun _ _ hE => hE

/-! ## Transactions -/

theorem heldRefs_setTransaction (ht : s.transaction? i = some txn) (o : Option Transaction) :
    (s.setTransaction i o).heldRefs =
      (o.elim 0 fun t => rootRefs t.root) + (s.setTransaction i none).heldRefs := by
  obtain ⟨rest, hrest⟩ :=
    exists_rootsRefs_set Transaction.root (getElem?_of_transaction? ht)
  simp only [heldRefs, setTransaction, hrest]
  cases o <;> simp only [Option.elim_none, Option.elim_some] <;> abel

/-- The references of a model are those of one transaction and the rest. -/
theorem heldRefs_eq (ht : s.transaction? i = some txn) :
    s.heldRefs = rootRefs txn.root + (s.setTransaction i none).heldRefs := by
  have hself : s.setTransaction i (some txn) = s := by
    obtain ⟨hi, hget⟩ := List.getElem?_eq_some_iff.mp (getElem?_of_transaction? ht)
    rw [setTransaction, ← hget, List.set_getElem_self]
  have hset := heldRefs_setTransaction ht (some txn)
  rwa [hself] at hset

theorem session_setTransaction (i : ℕ) (o : Option Transaction) :
    (s.setTransaction i o).session = s.session.setDraft i (o.map s.draft) := by
  have hdraft : (s.setTransaction i o).draft = s.draft := rfl
  rw [Session.setDraft, session, hdraft, setTransaction, List.map_set]
  rfl

theorem holders_setTransaction {t' : Transaction} (ht : s.transaction? i = some txn)
    (hbase : t'.base = txn.base) : (s.setTransaction i (some t')).holders = s.holders := by
  obtain ⟨hi, hget⟩ := List.getElem?_eq_some_iff.mp (getElem?_of_transaction? ht)
  have hmap : ∀ l : List (Option Transaction), l.filterMap (fun t => t.map Transaction.base) =
      (l.map (Option.map Transaction.base)).filterMap id := fun l => by
    rw [List.filterMap_map]
    rfl
  have hset : (s.transactions.set i (some t')).map (Option.map Transaction.base) =
      s.transactions.map (Option.map Transaction.base) := by
    rw [List.map_set, Option.map_some, hbase, ← Option.map_some, ← hget, ← List.map_set,
      List.set_getElem_self]
  rw [holders, holders, Model.setTransaction, hmap, hset, ← hmap]

/-- The handles of a model are those of one transaction and the rest. -/
theorem mem_holders_iff (ht : s.transaction? i = some txn) (v : ℕ) :
    v ∈ s.holders ↔ v ∈ (s.setTransaction i none).holders ∨ v = txn.base := by
  obtain ⟨hi, hget⟩ := List.getElem?_eq_some_iff.mp (getElem?_of_transaction? ht)
  have hmem : v ∈ s.transactions.filterMap (fun t => t.map Transaction.base) ↔
      v ∈ (s.transactions.set i none).filterMap (fun t => t.map Transaction.base) ∨
        v = txn.base := by
    rw [List.set_eq_take_append_cons_drop, if_pos hi]
    conv_lhs => rw [← List.take_append_drop i s.transactions, List.drop_eq_getElem_cons hi, hget]
    simp only [List.filterMap_append, List.filterMap_cons, Option.map_none, Option.map_some,
      List.mem_append, List.mem_cons]
    tauto
  simp only [holders, Model.setTransaction, List.mem_cons, List.mem_append, hmem, or_assoc]

/-- A transaction is replaced after an operation on the arena. -/
theorem InvWith.setTransaction (o : Option Transaction) (extra' : Multiset (View × ℕ))
    (handles' : List ℕ) (h : s.InvWith extra handles) (ht : s.transaction? i = some txn) (hext : s.arena.Extends A)
    (howned : A.Owned (extra' + ((o.elim 0 fun t => rootRefs t.root) +
      (s.setTransaction i none).heldRefs)))
    (hmap : ∀ t ∈ o, IsMap A t.root)
    (hhandles : ∀ v, v ∈ s.holders ∨ v ∈ handles ↔
      v ∈ (s.setTransaction i o).holders ∨ v ∈ handles') (n : ObjectId) :
    (Model.setTransaction { s with arena := A, nextId := n } i o).InvWith extra' handles' ∧
      (Model.setTransaction { s with arena := A, nextId := n } i o).session =
        s.session.setDraft i (o.map ({ s with arena := A, nextId := n } : Model).draft) := by
  refine ⟨⟨?_, fun d hd => (h.version_isMap d hd).extends hext, fun t ht' => ?_,
    fun v => (h.holders v).trans (hhandles v), h.current_eq, h.cursor_le⟩, ?_⟩
  · have hrefs := heldRefs_setTransaction ht o
    exact hrefs ▸ howned
  · rcases List.mem_or_eq_of_mem_set ht' with ht' | rfl
    · exact (h.transaction_isMap t ht').extends hext
    · exact hmap t rfl
  · rw [session_setTransaction]
    exact congrArg (fun x : Session => x.setDraft i _) (h.session_extends hext)

/-- The fields of a transaction change, and its root may move to a local variable. -/
theorem InvWith.editTransaction (h : s.InvWith extra handles) (t' : Transaction)
    (extra' : Multiset (View × ℕ)) (ht : s.transaction? i = some txn)
    (hrefs : extra' + rootRefs t'.root = extra + rootRefs txn.root) (hbase : t'.base = txn.base)
    (hmap : IsMap s.arena t'.root) :
    (s.setTransaction i (some t')).InvWith extra' handles ∧
      (s.setTransaction i (some t')).session = s.session.setDraft i (some (s.draft t')) := by
  refine InvWith.setTransaction (A := s.arena) (some t') extra' handles h ht .refl ?_ ?_ (fun v => ?_)
    s.nextId
  · rw [Option.elim_some, ← add_assoc, hrefs, add_assoc, ← heldRefs_eq ht]
    exact h.owned
  · rintro t'' ⟨⟩
    exact hmap
  · rw [holders_setTransaction ht hbase]

/-! ## Events -/

/-- How an event may end: the invariant holds, and the session made a step. -/
def Stepped (e : ModelEvent) (s s' : Model) : Prop := s'.Inv ∧ Session.Step e s.session s'.session

/-- The exits of an event. Besides the assertions of the model, only a call on something the
caller does not have stops it. -/
def Runs (e : ModelEvent) (x : ModelExec Unit) (s : Model) : Prop :=
  wp x (fun _ s' => Stepped e s s') (fun _ s' => Stepped e s s')
    (fun f => Stops f ∨ f = .misuse) s

theorem Stepped.stay {e : ModelEvent} {s' : Model} (h : s'.Inv)
    (hsession : s'.session = s.session) : Stepped e s s' := by
  refine ⟨h, ?_⟩
  rw [hsession]
  exact .stay e s.session

/-- A transaction the caller has. -/
theorem wp_transaction {Q : Transaction → Model → Prop} {E : PoolError → Model → Prop}
    (hF : F .misuse) (hQ : ∀ txn, s.transaction? i = some txn → Q txn s) :
    wp (transaction i) Q E F s := by
  simp only [ArbitraryComposer.transaction, wp_bind, wp_gets]
  cases ht : s.transaction? i with
  | none => exact hF
  | some txn => exact (wp_expect_some _ rfl).mpr (hQ txn ht)

/-- The current version is there. -/
theorem wp_currentVersion {Q : DocRoot → Model → Prop} {E : PoolError → Model → Prop}
    (h : s.InvWith extra)
    (hQ : ∀ d, s.version? s.current = some d → IsMap s.arena d.root →
      s.session.revision = d.revision → s.session.map = docMap s.arena d.root → Q d s) :
    wp currentVersion Q E F s := by
  obtain ⟨d, hd⟩ := h.exists_version (v := s.current) List.mem_cons_self
  simp only [currentVersion, wp_bind, wp_gets]
  refine (wp_expect_some _ hd).mpr (hQ d hd (h.version_isMap d (some_mem_of_version? hd)) ?_ ?_)
  · rw [session, versionAt_eq hd]
  · rw [session, mapAt, versionAt_eq hd]

/-- A root handle of a version is copied. -/
theorem wp_onHeap_copyRoot {root : Option ℕ} {Q : Unit → Model → Prop}
    {E : PoolError → Model → Prop} (h : s.Inv) (hroot : rootRefs root ≤ s.heldRefs)
    (hF : ∀ f, Stops f → F f)
    (hQ : ∀ A, ({ s with arena := A } : Model).InvWith (rootRefs root) →
      ({ s with arena := A } : Model).session = s.session → s.arena.Extends A →
        Q () { s with arena := A }) :
    wp (onHeap (copyRoot root)) Q E F s := by
  have howned := h.owned
  rw [zero_add] at howned
  refine wp_onHeap (fun _ => rootRefs root) (fun _ _ => True) h
    (wp_mono (copyRoot_spec howned hroot)
      (fun _ A hA => ⟨hA.1, hA.2.extends, trivial⟩) (fun _ _ hE => hE) hF) ?_
  exact fun _ A hA hs hext _ => hQ A hA hs hext

theorem runs_transact (h : s.Inv) : Runs .transact beginTransaction s := by
  simp only [Runs, beginTransaction, wp_bind]
  refine wp_currentVersion h fun d hd hmap hrev hdoc => ?_
  refine wp_onHeap_copyRoot h (rootRefs_le_of_version? hd) (fun _ hf => Or.inl hf)
    fun A hA hs hext => ?_
  rw [wp_modify]
  set txn : Transaction := { base := s.current, root := d.root, publishRevision := d.revision + 1 }
  set s' : Model := { s with arena := A, transactions := s.transactions ++ [some txn] } with hs'
  have hinv : s'.Inv := by
    refine ⟨?_, hA.version_isMap, fun t ht => ?_, fun v => ?_, h.current_eq, h.cursor_le⟩
    · have hrefs : 0 + s'.heldRefs = rootRefs d.root + s.heldRefs := by
        rw [zero_add, heldRefs, heldRefs, hs', rootsRefs_append]
        simp only [Option.elim_some]
        abel
      rw [hrefs]
      exact hA.owned
    · rcases List.mem_append.mp ht with ht | ht
      · exact hA.transaction_isMap t ht
      · obtain rfl : t = txn := by simpa using ht
        exact hmap.extends hext
    · -- the new base is the current version
      refine (h.holders v).trans (or_congr_left ?_)
      simp only [holders, hs', List.filterMap_append, List.filterMap_cons, Option.map_some,
        List.filterMap_nil, List.mem_cons, List.mem_append, List.not_mem_nil, or_false, txn]
      tauto
  refine ⟨hinv, ?_⟩
  have hsession : s'.session =
      { s.session with drafts := s.session.drafts ++ [some s.session.fork] } := by
    rw [← hs]
    have hfork : s'.draft txn = ({ s with arena := A } : Model).session.fork := by
      have hat : ({ s with arena := A } : Model).versionAt s.current = d := versionAt_eq hd
      have hat' : s'.versionAt s.current = d := versionAt_eq hd
      rw [draft, Session.fork, session, mapAt, mapAt, hat, hat']
    rw [session, hs', List.map_append, List.map_singleton, Option.map_some]
    rw [hs'] at hfork
    rw [hfork]
    rfl
  rw [hsession]
  exact .transact s.session

/-- A script run on a working tree of a model. -/
theorem wp_runScript {α : Type} {t stamp : ℕ} {x : Script α} {root : Option ℕ}
    {touched : List ObjectId} {contents : List ContentStateEdit} {rest : Multiset (View × ℕ)}
    {Q : Working × Option PoolError → Model → Prop} {E : PoolError → Model → Prop}
    (hok : (⟨s.arena, s.nextId, root, touched, contents⟩ : Working).Ok rest)
    (hF : ∀ f, Stops f → F f)
    (hQ : ∀ (w : Working) (status : Option PoolError),
      Working.After stamp rest ⟨s.arena, s.nextId, root, touched, contents⟩ w →
      (status = none → ∃ a, ∀ R, x.Ensures stamp R (docMap s.arena root) s.nextId →
        R a w.map w.nextId) →
      Q (w, status) { s with arena := w.arena, nextId := w.nextId }) :
    wp (runScript t stamp x root touched contents) Q E F s := by
  have hspec := fun R hR => x.interp_spec (t := t) stamp R hok hR
  have hafter := hspec _ (x.ensures_true _ _)
  unfold wp at hspec hafter ⊢
  unfold runScript
  cases hrun : x.interp t stamp ⟨s.arena, s.nextId, root, touched, contents⟩ with
  | ok a w =>
    rw [hrun] at hspec hafter
    exact hQ w none hafter.1 fun _ => ⟨a, fun R hR => (hspec R hR).2⟩
  | error e w =>
    rw [hrun] at hafter
    exact hQ w (some e) hafter fun h => by cases h
  | fault f =>
    rw [hrun] at hafter
    exact hF f hafter

/-- A mutator with its script: the ids only grow, and a draft without error that has none
afterwards has the map its script ensures. -/
def Mutated (i : ℕ) (m : Mutator) (s s' : Model) : Prop :=
  s.nextId.toNat ≤ s'.nextId.toNat ∧ ∀ d ∈ s.session.draft? i, d.status = none →
    ∃ d', s'.session = s.session.setDraft i (some d') ∧ d.Edited d' ∧
      (d'.status = none → ∃ a, ∀ R, m.script.Ensures d.publishRevision R d.map s.nextId →
        R a d'.map s'.nextId)

theorem mutate_spec {t i : ℕ} {m : Mutator} (h : s.Inv) :
    wp (mutate t i m) (fun _ s' => Stepped (.mutate t i m) s s' ∧ Mutated i m s s')
      (fun _ s' => Stepped (.mutate t i m) s s' ∧ Mutated i m s s')
      (fun f => Stops f ∨ f = .misuse) s := by
  simp only [mutate, wp_bind]
  refine wp_transaction (Or.inr rfl) fun txn ht => ?_
  refine wp_ite (fun hstatus => ⟨.stay h rfl, le_rfl, fun d hd hnone => ?_⟩) fun hstatus => ?_
  · rw [draft?_session ht] at hd
    cases hd
    rw [show txn.status = none from hnone] at hstatus
    cases hstatus
  rw [Option.not_isSome_iff_eq_none] at hstatus
  have hmem := some_mem_of_transaction? ht
  have howned := h.owned
  rw [zero_add, heldRefs_eq ht] at howned
  rw [wp_bind]
  refine wp_runScript ⟨howned, h.transaction_isMap txn hmem⟩ (fun _ hf => Or.inl hf)
    fun w status hw hensures => ?_
  rw [wp_modify]
  obtain ⟨hok, hedit⟩ := hw
  set txn' : Transaction := { txn with
    root := w.root, touched := w.touched, contents := w.contents, status := status } with htxn'
  obtain ⟨hinv, hsession⟩ := InvWith.setTransaction (some txn') 0 [] h ht hedit.ext
    (by rw [zero_add]; exact hok.owned) (by rintro t' ⟨⟩; exact hok.isMap)
    (fun v => by rw [show (s.setTransaction i (some txn')).holders = s.holders from
      holders_setTransaction ht rfl]) w.nextId
  have hbase : ({ s with arena := w.arena, nextId := w.nextId } : Model).mapAt txn.base =
      s.mapAt txn.base :=
    docMap_extends (h.mapAt_isMap (base_mem_holders hmem)) h.owned.sound hedit.ext
  have hedited : (s.draft txn).Edited
      (({ s with arena := w.arena, nextId := w.nextId } : Model).draft txn') :=
    ⟨hstatus, rfl, hbase, rfl, rfl, hedit.touched_subset, hedit.nodup, hedit.frame,
      hedit.stamped⟩
  refine ⟨⟨hinv, ?_⟩, hedit.nextId_le, fun d hd _ => ?_⟩
  · rw [hsession]
    exact .mutate (draft?_session ht) hedited
  · rw [draft?_session ht] at hd
    cases hd
    exact ⟨_, hsession, hedited, hensures⟩

theorem runs_mutate {t i : ℕ} {m : Mutator} (h : s.Inv) :
    Runs (.mutate t i m) (mutate t i m) s :=
  wp_imp (mutate_spec h) (fun _ _ hs => hs.1) fun _ _ hs => hs.1

theorem runs_coalesce {key : UInt64} (h : s.Inv) :
    Runs (.coalesce i key) (setCoalesceKey i key) s := by
  simp only [Runs, setCoalesceKey, wp_bind]
  refine wp_transaction (Or.inr rfl) fun txn ht => ?_
  rw [wp_modify]
  obtain ⟨hinv, hsession⟩ := h.editTransaction { txn with coalesceKey := key } 0 ht rfl rfl
    (h.transaction_isMap txn (some_mem_of_transaction? ht))
  refine ⟨hinv, ?_⟩
  rw [hsession]
  exact .coalesce key (draft?_session ht)

/-- An abort closes the draft and forgets its edits, or finds it closed. -/
theorem abort_spec (h : s.Inv) :
    wp (abortTransaction i)
      (fun _ s' => s'.Inv ∧ ∃ d, s.session.draft? i = some d ∧ s'.session =
        if d.isOpen then
          s.session.setDraft i (some { Session.close d with touched := [], contents := [] })
        else s.session)
      (fun _ _ => False) (fun f => Stops f ∨ f = .misuse) s := by
  simp only [abortTransaction, wp_bind]
  refine wp_transaction (Or.inr rfl) fun txn ht => ?_
  have hdraft := draft?_session ht
  refine wp_ite (fun hopen => ?_) fun hopen => ⟨h, _, hdraft, (if_neg hopen).symm⟩
  rw [wp_bind, wp_modify]
  obtain ⟨hinv, hsession⟩ := h.editTransaction
    { txn with isOpen := false, root := none, touched := [], contents := [] }
    (rootRefs txn.root + 0) ht
    (by rw [rootRefs_none, add_zero, zero_add, add_zero]) rfl isMap_none
  refine wp_onHeap_releaseRoot hinv fun A hA hs _ => ⟨hA, _, hdraft, ?_⟩
  rw [if_pos (show (s.draft txn).isOpen = true from hopen), hs, hsession]
  rfl

theorem runs_abort (h : s.Inv) : Runs (.abort i) (abortTransaction i) s := by
  refine wp_imp (abort_spec h) (fun _ s' hs' => ⟨hs'.1, ?_⟩) fun _ _ hE => hE.elim
  obtain ⟨d, hd, hsession⟩ := hs'.2
  rw [hsession]
  split
  · exact .abort hd
  · exact .stay _ _

theorem runs_destroy (h : s.Inv) : Runs (.destroy i) (destroyTransaction i) s := by
  simp only [Runs, destroyTransaction, wp_bind]
  refine wp_transaction (Or.inr rfl) fun txn ht => ?_
  rw [wp_modify]
  have hinv : (s.setTransaction i none).InvWith (rootRefs txn.root + 0) [txn.base] := by
    refine (InvWith.setTransaction (A := s.arena) none _ _ h ht .refl ?_ (by rintro t' ⟨⟩)
      (fun v => ?_) s.nextId).1
    · have howned := h.owned
      rw [heldRefs_eq ht, zero_add] at howned
      rwa [Option.elim_none, zero_add, add_zero]
    · rw [or_iff_left List.not_mem_nil, List.mem_singleton]
      exact mem_holders_iff ht v
  have hsession := session_setTransaction (s := s) i none
  refine wp_onHeap_releaseRoot hinv fun A hA hs _ => ?_
  refine wp_imp (dropVersion_spec hA) (fun _ s' hs' => ⟨hs'.1, ?_⟩) fun _ _ hE => hE
  rw [hs'.2.1, hs, hsession]
  exact .destroy (draft?_session ht)

/-- The journal is updated; `pre` are the references its argument owned. -/
theorem updateJournal_spec {f : Journal ℕ → Journal ℕ × List (RefEffect ℕ)} (pre : List ℕ)
    (extra : Multiset (View × ℕ)) {E : PoolError → Model → Prop}
    (h : s.InvWith (recordRefs pre + extra))
    (hsettles : ∀ held, Settles ((s.journal.refs : Multiset ℕ) + ((pre : Multiset ℕ) + held))
      (f s.journal).2 (((f s.journal).1.refs : Multiset ℕ) + held))
    (hcursor : (f s.journal).1.cursor ≤ (f s.journal).1.entries.length) :
    wp (updateJournal f) (fun _ s' => s'.InvWith extra ∧ s'.session =
      { s.session with journal := (f s.journal).1.map (recordAt s.arena) }) E Stops s := by
  simp only [updateJournal, wp_bind, wp_gets, wp_modify, onHeap, wp_zoom]
  have howned : s.arena.Owned (recordRefs ((s.journal.refs : Multiset ℕ) + (pre + 0)) +
      (extra + (rootsRefs DocRoot.root s.versions +
        rootsRefs Transaction.root s.transactions))) := by
    have hrefs : recordRefs ((s.journal.refs : Multiset ℕ) + (pre + 0)) +
        (extra + (rootsRefs DocRoot.root s.versions +
          rootsRefs Transaction.root s.transactions)) =
        recordRefs pre + extra + s.heldRefs := by
      rw [heldRefs, add_zero, recordRefs_add]
      abel
    rw [hrefs]
    exact h.owned
  refine wp_imp (execEffects_spec (hsettles 0) howned) (fun _ A hA => ?_) fun _ _ hE => hE
  obtain ⟨howned', hsame⟩ := hA
  refine ⟨⟨?_, fun d hd => (h.version_isMap d hd).extends hsame.extends,
    fun t ht => (h.transaction_isMap t ht).extends hsame.extends, h.holders, h.current_eq,
    hcursor⟩, ?_⟩
  · have hrefs : extra + heldRefs { s with journal := (f s.journal).1, arena := A } =
        recordRefs (((f s.journal).1.refs : Multiset ℕ) + 0) +
          (extra + (rootsRefs DocRoot.root s.versions +
            rootsRefs Transaction.root s.transactions)) := by
      rw [heldRefs, add_zero]
      abel
    rw [hrefs]
    exact howned'
  · rw [← h.session_extends hsame.extends, ← hsame.recordAt_eq]
    rfl

theorem runs_setByteBudget {bytes : ℕ} (h : s.Inv) :
    Runs (.setByteBudget bytes) (updateJournal fun j => j.setByteBudget bytes) s := by
  refine wp_mono (updateJournal_spec [] 0 h (fun held => ?_)
    (Journal.trim_cursor_le h.cursor_le)) (fun _ s' hs' => ⟨hs'.1, ?_⟩) (fun _ _ hE => hE)
    fun f hf => Or.inl hf
  · rw [Multiset.coe_nil, zero_add]
    exact s.journal.setByteBudget_settles bytes held
  · rw [hs'.2, ← Journal.map_setByteBudget]
    exact .setByteBudget s.session bytes

/-- A transaction is published and closed. -/
theorem publishTransaction_spec {E : PoolError → Model → Prop} (h : s.InvWith extra)
    (ht : s.transaction? i = some txn) :
    wp (publishTransaction i txn) (fun _ s' => s'.InvWith extra ∧
      s'.session = (s.session.setDraft i (some (Session.close (s.draft txn)))).publish
        txn.publishRevision (docMap s.arena txn.root) ∧
      s'.journal = s.journal ∧ s.arena.Extends s'.arena) E F s := by
  simp only [publishTransaction, wp_bind, wp_modify]
  have hmap := h.transaction_isMap txn (some_mem_of_transaction? ht)
  obtain ⟨hinv, hsession⟩ := h.editTransaction { txn with root := none, isOpen := false }
    (rootRefs txn.root + extra) ht
    (by rw [rootRefs_none, add_zero, add_comm]) rfl isMap_none
  refine wp_imp (publish_spec (d := ⟨txn.root, txn.publishRevision⟩) hinv hmap)
    (fun _ s' hs' => ⟨hs'.1, ?_, hs'.2.2⟩) fun _ _ hE => hE
  rw [hs'.2.1, hsession]
  rfl

/-- The draft of a transaction is what the session shows. -/
private theorem draft_congr (s' : Model) (hs : s'.session = s.session)
    (ht : s.transaction? i = some txn) (ht' : s'.transaction? i = some txn) :
    s'.draft txn = s.draft txn := by
  have h' := draft?_session ht'
  rw [hs, draft?_session ht] at h'
  exact (Option.some.inj h').symm

/-- The entry of a commit holds its records; with the records resolved it is the entry of the
draft. A count at its ceiling sets the status and leaves the transaction open. -/
theorem buildEntry_spec (h : s.Inv) (ht : s.transaction? i = some txn) :
    wp (buildEntry i txn) (fun entry s' => s'.InvWith (recordRefs entry.refs) ∧
        s'.session = s.session ∧ s'.transaction? i = some txn ∧
        entry.map (recordAt s'.arena) = (s.draft txn).entry)
      (fun _ s' => s'.Inv ∧ s'.session =
        s.session.setDraft i (some { s.draft txn with status := some .capacityExhausted })) F s := by
  have hmem := some_mem_of_transaction? ht
  obtain ⟨d, hd⟩ := h.exists_version (base_mem_holders hmem)
  have hmapAt : s.mapAt txn.base = docMap s.arena d.root := by rw [mapAt, versionAt_eq hd]
  have howned : s.arena.Owned (recordRefs (([] : List (ObjectEdit ℕ)).flatMap
      ObjectEdit.refs) + s.heldRefs) := h.owned
  simp only [buildEntry, wp_bind, wp_gets]
  refine (wp_expect_some _ hd).mpr ?_
  rw [wp_onError]
  refine wp_onHeap (fun es : List (ObjectEdit ℕ) =>
      recordRefs (es.flatMap ObjectEdit.refs))
    (fun es A => s.arena.SameMemory A ∧ es.map (ObjectEdit.map (recordAt s.arena)) =
      txn.touched.map fun k => ⟨k, docMap s.arena d.root k, docMap s.arena txn.root k⟩) h
    (wp_imp (buildEdits_spec howned (h.version_isMap d (some_mem_of_version? hd))
      (h.transaction_isMap txn hmem))
      (fun es A hA => ⟨hA.1, hA.2.1.extends, hA.2.1, hA.2.2⟩) fun _ A hA => ?_)
    fun es A hA hs hext hes => ?_
  · rw [wp_modify]
    have hs := h.session_extends hA.2.extends
    have hinv : ({ s with arena := A } : Model).Inv :=
      h.of_extends (by rw [zero_add]; exact hA.1) hA.2.extends
    obtain ⟨hinv', hsession⟩ := hinv.editTransaction
      { txn with status := some .capacityExhausted } 0 ht rfl rfl
      (hinv.transaction_isMap txn hmem)
    refine ⟨hinv', ?_⟩
    rw [hsession, hs, ← draft_congr { s with arena := A } hs ht ht]
    rfl
  · obtain ⟨hsame, hedits⟩ := hes
    refine ⟨hA, hs, ht, ?_⟩
    change JournalEntry.map (recordAt A) ⟨txn.coalesceKey, es, txn.contents⟩ = _
    rw [hsame.recordAt_eq, JournalEntry.map, hedits, ← hmapAt]
    rfl

/-- A commit that succeeds publishes the draft, or finds it closed; one that fails publishes
nothing and at most sets the status of the draft. -/
theorem commit_spec (h : s.Inv) :
    wp (commit i)
      (fun _ s' => s'.Inv ∧ ∃ d, s.session.draft? i = some d ∧ d.status = none ∧
        s'.session = if d.isOpen then s.session.commit i d else s.session)
      (fun _ s' => s'.Inv ∧ (s'.session = s.session ∨ ∃ d e, s.session.draft? i = some d ∧
        s'.session = s.session.setDraft i (some { d with status := some e })))
      (fun f => Stops f ∨ f = .misuse) s := by
  simp only [commit, wp_bind]
  refine wp_transaction (Or.inr rfl) fun txn ht => ?_
  have hdraft := draft?_session ht
  cases hstatus : txn.status with
  | some e => exact ⟨h, Or.inl rfl⟩
  | none =>
    refine wp_ite (fun hopen => ?_) fun hopen => ⟨h, _, hdraft, hstatus, (if_neg hopen).symm⟩
    have hif : (if (s.draft txn).isOpen then s.session.commit i (s.draft txn) else s.session) =
        s.session.commit i (s.draft txn) := if_pos hopen
    rw [wp_bind, wp_gets]
    refine wp_ite (fun hjournaled => ?_) fun hjournaled => ?_
    · rw [wp_bind]
      refine wp_imp (buildEntry_spec h ht) (fun entry s₁ hs₁ => ?_)
        fun _ s' hs' => ⟨hs'.1, Or.inr ⟨_, _, hdraft, hs'.2⟩⟩
      obtain ⟨hinv₁, hsession₁, ht₁, hentry⟩ := hs₁
      rw [wp_bind]
      refine wp_imp (publishTransaction_spec hinv₁ ht₁) (fun _ s₂ hs₂ => ?_) fun _ _ hE => hE
      obtain ⟨hinv₂, hsession₂, -, hext₂⟩ := hs₂
      refine wp_mono (updateJournal_spec (f := fun j => j.onCommit entry) entry.refs 0
        (by rw [add_zero]; exact hinv₂)
        (fun held => Journal.onCommit_settles _ entry held) (Journal.onCommit_cursor_le _ entry))
        (fun _ s' hs' => ⟨hs'.1, _, hdraft, hstatus, ?_⟩) (fun _ _ hE => hE)
        fun _ hf => Or.inl hf
      have hheld : ∀ r ∈ entry.refs, recordAt s₂.arena r = recordAt s₁.arena r := fun r hr =>
        recordAt_extends (hinv₁.owned.sound.held_names (.records, r)
          (Multiset.mem_add.mpr (Or.inl (mem_recordRefs hr)))) hext₂
      have hjournal : s₂.journal.map (recordAt s₂.arena) = s.session.journal := by
        have hj := congrArg Session.journal hsession₂
        rwa [hsession₁] at hj
      have hmap : docMap s₁.arena txn.root = (s.draft txn).map :=
        congrArg Draft.map (draft_congr s₁ hsession₁ ht ht₁)
      rw [hif, Session.commit, if_pos (show s.session.journaled = true from hjournaled), hs'.2,
        ← Journal.map_onCommit, JournalEntry.map_congr _ hheld, hentry, hjournal,
        hsession₂, hsession₁, draft_congr s₁ hsession₁ ht ht₁, hmap]
      rfl
    · refine wp_imp (publishTransaction_spec h ht)
        (fun _ s' hs' => ⟨hs'.1, _, hdraft, hstatus, ?_⟩) fun _ _ hE => hE
      rw [hif, Session.commit, if_neg (show ¬ s.session.journaled = true from hjournaled), hs'.2.1]
      rfl

theorem runs_commit (h : s.Inv) : Runs (.commit i) (commit i) s := by
  refine wp_imp (commit_spec h) (fun _ s' hs' => ⟨hs'.1, ?_⟩) fun _ s' hs' => ⟨hs'.1, ?_⟩
  · obtain ⟨d, hd, hstatus, hsession⟩ := hs'.2
    rw [hsession]
    split
    · exact .commit hd ⟨‹_›, hstatus⟩
    · exact .stay _ _
  · rcases hs'.2 with hsession | ⟨d, e, hd, hsession⟩ <;> rw [hsession]
    · exact .stay _ _
    · exact .fail e hd

/-- The records of a stored entry are held. -/
private theorem held_of_stored {stored : Stored ℕ} (hst : stored ∈ s.journal.entries) {r : ℕ}
    (hr : r ∈ stored.entry.refs) : (View.records, r) ∈ s.heldRefs :=
  mem_heldRefs_of_record (List.mem_flatMap.mpr ⟨stored, hst, hr⟩)

/-- A version with some targets bound again is published, and the cursor moves. -/
theorem navigate_spec {e : ModelEvent} {t cursor : ℕ} {targets : List (ObjectId × Option ℕ)}
    (h : s.Inv) (ht : ∀ p ∈ targets, ∀ r ∈ p.2, (View.records, r) ∈ s.heldRefs)
    (hcursor : cursor ≤ s.journal.entries.length)
    (hstep : Session.Step e s.session
      (s.session.navigate (resolveTargets s.arena targets) cursor)) :
    Runs e (do navigate t targets; setCursor cursor) s := by
  simp only [Runs, navigate, wp_bind]
  refine wp_currentVersion h fun d hd hmap hrev hdoc => ?_
  refine wp_onHeap_copyRoot h (rootRefs_le_of_version? hd) (fun _ hf => Or.inl hf)
    fun A hA hs hext => ?_
  -- the copy of the root is a local variable of the loop
  have hrecords : ∀ p ∈ targets, ∀ r ∈ p.2, recordAt A r = recordAt s.arena r :=
    fun p hp r hr => recordAt_extends (h.owned.sound.held_names _
      (Multiset.mem_add.mpr (Or.inr (ht p hp r hr)))) hext
  have htargets : resolveTargets A targets = resolveTargets s.arena targets := by
    refine List.map_congr_left fun p hp => ?_
    cases hp2 : p.2 with
    | none => rfl
    | some r => rw [Option.map_some, Option.map_some, hrecords p hp r hp2]
  refine wp_onHeap rootRefs (fun root A' => IsMap A' root ∧
      docMap A' root = rebindAll s.session.map (resolveTargets s.arena targets)) hA
    (wp_imp (navigateLoop_spec hA.owned (hmap.extends hext) ht) (fun root A' hA' => ?_)
      fun _ A' hA' => ?_) fun root A' hA' hs' _ hP => ?_
  · refine ⟨hA'.1, hA'.2.1, hA'.2.2.1, ?_⟩
    rw [hA'.2.2.2, htargets, docMap_extends hmap h.owned.sound hext, hdoc]
  · refine .stay (InvWith.of_extends hA (show A'.Owned (0 + _) from ?_) hA'.2) ((hA.session_extends hA'.2).trans hs)
    rw [zero_add]
    exact hA'.1
  · refine wp_imp (publish_spec (d := ⟨root, d.revision + 1⟩)
      (show InvWith _ (rootRefs root + 0) by rw [add_zero]; exact hA') hP.1) (fun _ s₁ hs₁ => ?_) fun _ _ hE => hE
    obtain ⟨hinv₁, hsession₁, hjournal₁, -⟩ := hs₁
    rw [setCursor, wp_modify]
    refine ⟨⟨hinv₁.owned, hinv₁.version_isMap, hinv₁.transaction_isMap, hinv₁.holders,
      hinv₁.current_eq, ?_⟩, ?_⟩
    · rw [hjournal₁]
      exact hcursor
    · have hnav : ({ s₁ with journal := { s₁.journal with cursor := cursor } } : Model).session =
          s.session.navigate (resolveTargets s.arena targets) cursor := by
        have hset : ({ s₁ with journal := { s₁.journal with cursor := cursor } } : Model).session =
            { s₁.session with journal := { s₁.session.journal with cursor := cursor } } := rfl
        rw [hset, hsession₁, hs', hs, hP.2, Session.navigate, hrev]
        rfl
      rw [hnav]
      exact hstep

private theorem resolveTargets_befores (A : Heap) (e : JournalEntry ℕ) :
    resolveTargets A e.befores = (e.map (recordAt A)).befores := by
  simp only [resolveTargets, JournalEntry.befores, JournalEntry.map, List.map_map]
  rfl

private theorem resolveTargets_afters (A : Heap) (e : JournalEntry ℕ) :
    resolveTargets A e.afters = (e.map (recordAt A)).afters := by
  simp only [resolveTargets, JournalEntry.afters, JournalEntry.map, List.map_map]
  rfl

theorem runs_undo {t : ℕ} (h : s.Inv) : Runs (.undo t) (undo t) s := by
  simp only [Runs, undo, wp_bind, wp_gets]
  refine wp_ite (fun _ => .stay h rfl) fun hc => ?_
  have hlt : s.journal.cursor - 1 < s.journal.entries.length := by
    have := h.cursor_le
    omega
  have hget := List.getElem?_eq_getElem hlt
  rw [wp_bind]
  refine (wp_expect_some _ hget).mpr ?_
  refine navigate_spec h (fun p hp r hr => ?_) (by omega) ?_
  · obtain ⟨oe, hoe, rfl⟩ := List.mem_map.mp hp
    refine held_of_stored (List.getElem_mem hlt)
      (List.mem_flatMap.mpr ⟨oe, hoe, List.mem_append_left _ ?_⟩)
    exact Option.mem_toList.mpr hr
  · rw [resolveTargets_befores]
    refine Session.Step.undo (Stored.map (recordAt s.arena) _) (c := s.journal.cursor - 1) ?_ ?_
    · exact (Nat.sub_add_cancel (Nat.pos_of_ne_zero hc)).symm
    · rw [session, Journal.map, List.getElem?_map, hget]
      rfl

theorem runs_redo {t : ℕ} (h : s.Inv) : Runs (.redo t) (redo t) s := by
  simp only [Runs, redo, wp_bind, wp_gets]
  cases hget : s.journal.entries[s.journal.cursor]? with
  | none => exact .stay h rfl
  | some stored =>
    have hmem := List.mem_of_getElem? hget
    have hlt := (List.getElem?_eq_some_iff.mp hget).1
    refine navigate_spec h (fun p hp r hr => ?_) hlt ?_
    · obtain ⟨oe, hoe, rfl⟩ := List.mem_map.mp hp
      refine held_of_stored hmem (List.mem_flatMap.mpr ⟨oe, hoe, List.mem_append_right _ ?_⟩)
      exact Option.mem_toList.mpr hr
    · rw [resolveTargets_afters]
      refine Session.Step.redo (stored.map (recordAt s.arena)) ?_
      have hmap : s.session.journal.entries[s.session.journal.cursor]? =
          (s.journal.entries[s.journal.cursor]?).map (Stored.map (recordAt s.arena)) :=
        List.getElem?_map
      rw [hmap, hget, Option.map_some]

/-- A baseline with its script: the ids only grow, and the map published is the one the script
ensures. -/
def Loaded (ms : List Mutator) (s s' : Model) : Prop :=
  s.nextId.toNat ≤ s'.nextId.toNat ∧ (s'.session = s.session ∨ ∃ m,
    s'.session = s.session.publish 0 m ∧
      ∀ R, (Script.sequence ms).Ensures 0 R s.session.map s.nextId → R () m s'.nextId)

theorem loadBaseline_spec {t : ℕ} {ms : List Mutator} (h : s.Inv) :
    wp (loadBaseline t ms) (fun _ s' => Stepped (.loadBaseline t ms) s s' ∧ Loaded ms s s')
      (fun _ s' => Stepped (.loadBaseline t ms) s s' ∧ Loaded ms s s' ∧ s'.session = s.session)
      (fun f => Stops f ∨ f = .misuse) s := by
  simp only [loadBaseline, wp_bind]
  refine wp_currentVersion h fun d hd hmap _ hdoc => ?_
  refine wp_onHeap_copyRoot h (rootRefs_le_of_version? hd) (fun _ hf => Or.inl hf)
    fun A hA hs hext => ?_
  refine wp_runScript ⟨hA.owned, hmap.extends hext⟩ (fun _ hf => Or.inl hf)
    fun w status hw hensures => ?_
  obtain ⟨hok, hedit⟩ := hw
  have hbase : docMap A d.root = docMap s.arena d.root := docMap_extends hmap h.owned.sound hext
  -- the working root is a local variable, on both exits
  have hinv : ({ s with arena := w.arena } : Model).InvWith (rootRefs w.root + 0) :=
    hA.of_extends (by rw [add_zero]; exact hok.owned) hedit.ext
  have hsession := (hA.session_extends hedit.ext).trans hs
  have hinv' : ({ s with arena := w.arena, nextId := w.nextId } : Model).InvWith
      (rootRefs w.root + 0) := ⟨hinv.owned, hinv.version_isMap, hinv.transaction_isMap,
        hinv.holders, hinv.current_eq, hinv.cursor_le⟩
  cases status with
  | some e =>
    rw [wp_bind]
    refine wp_onHeap_releaseRoot hinv' fun A' hA' hs' _ => ?_
    have hkept := hs'.trans hsession
    exact ⟨.stay hA' hkept, ⟨hedit.nextId_le, Or.inl hkept⟩, hkept⟩
  | none =>
    have hkeeps : Keeps Model.nextId (publish ⟨w.root, 0⟩) := keeps_publish _
    refine wp_imp (wp_keeps hkeeps (publish_spec (d := ⟨w.root, 0⟩) hinv' hok.isMap))
      (fun _ s' hs' => ?_) fun _ _ hE => hE
    obtain ⟨⟨hinv, hpublish, -⟩, hid⟩ := hs'
    rw [show ({ s with arena := w.arena, nextId := w.nextId } : Model).session =
      s.session from hsession] at hpublish
    refine ⟨⟨hinv, ?_⟩, hid ▸ hedit.nextId_le, Or.inr ⟨_, hpublish, fun R hR => ?_⟩⟩
    · rw [hpublish]
      refine .loadBaseline fun k r hr => ?_
      rcases hedit.stamped k r hr with hr | hr
      · left
        rw [hdoc, ← hbase]
        exact hr
      · exact Or.inr hr
    · obtain ⟨_, ends⟩ := hensures rfl
      rw [hid]
      exact ends R (by rw [hbase, ← hdoc]; exact hR)

theorem runs_loadBaseline {t : ℕ} {ms : List Mutator} (h : s.Inv) :
    Runs (.loadBaseline t ms) (loadBaseline t ms) s :=
  wp_imp (loadBaseline_spec h) (fun _ _ hs => hs.1) fun _ _ hs => hs.1

/-- Other pins, when the same versions are pinned. -/
private theorem InvWith.setPins {pins handles' : List ℕ} (h : s.InvWith extra handles)
    (hpins : ∀ v, v ∈ s.holders ∨ v ∈ handles ↔
      v ∈ ({ s with pins := pins } : Model).holders ∨ v ∈ handles') :
    ({ s with pins := pins } : Model).InvWith extra handles' :=
  ⟨h.owned, h.version_isMap, h.transaction_isMap, fun v => (h.holders v).trans (hpins v),
    h.current_eq, h.cursor_le⟩

theorem runs_pin (h : s.Inv) : Runs .pin pin s := by
  refine .stay (InvWith.setPins h fun v => ?_) rfl
  simp only [holders, List.mem_cons, List.mem_append]
  tauto

theorem runs_unpin {v : ℕ} (h : s.Inv) : Runs (.unpin v) (unpin v) s := by
  simp only [Runs, unpin, wp_bind, wp_gets]
  rw [wp_assert]
  by_cases hv : v ∈ s.pins
  · refine Or.inl ⟨hv, ?_⟩
    rw [wp_modify]
    have hinv : ({ s with pins := s.pins.erase v } : Model).InvWith 0 [v] := by
      refine InvWith.setPins h fun u => ?_
      have hu : u ∈ s.pins ↔ u = v ∨ u ∈ s.pins.erase v := by
        rw [← List.mem_cons]
        exact (List.perm_cons_erase hv).mem_iff
      simp only [holders, List.mem_cons, List.mem_append, List.not_mem_nil, or_false, hu]
      tauto
    exact wp_imp (dropVersion_spec hinv) (fun _ s' hs' => .stay hs'.1 hs'.2.1) fun _ _ hE => hE
  · exact Or.inr ⟨hv, Or.inr rfl⟩

theorem runs_allocateId (h : s.Inv) :
    Runs .allocateId (do let _ ← allocateId) s := by
  simp only [Runs, wp_bind, allocateId, wp_zoom]
  have hok : (⟨s.arena, s.nextId, none, [], []⟩ : Working).Ok s.heldRefs :=
    ⟨by have := h.owned; simpa using this, isMap_none⟩
  refine wp_mono (takeId_spec 0 hok) (fun id w hw => ?_) (fun _ _ hE => hE)
    fun _ hf => Or.inl hf
  exact .stay ⟨h.owned, h.version_isMap, h.transaction_isMap, h.holders, h.current_eq,
    h.cursor_le⟩ rfl

theorem runs_drain {t : ℕ} (h : s.Inv) : Runs (.drain t) (onHeap (drain t drainOrder)) s := by
  have howned := h.owned
  rw [zero_add] at howned
  simp only [Runs, onHeap, wp_zoom]
  refine wp_imp (drain_spec _ howned) (fun _ A hA => ?_) fun _ _ hE => hE
  obtain ⟨hinv, hsession⟩ := h.of_preserves hA.1 hA.2.1
  exact .stay hinv hsession

/-- Every event keeps the invariant and is a step of the session. -/
theorem exec_spec (e : ModelEvent) (h : s.Inv) : Runs e (exec e) s := by
  cases e with
  | transact => exact runs_transact h
  | mutate t i m => exact runs_mutate h
  | coalesce i key => exact runs_coalesce h
  | commit i => exact runs_commit h
  | abort i => exact runs_abort h
  | destroy i => exact runs_destroy h
  | undo t => exact runs_undo h
  | redo t => exact runs_redo h
  | setByteBudget bytes => exact runs_setByteBudget h
  | loadBaseline t ms => exact runs_loadBaseline h
  | pin => exact runs_pin h
  | unpin v => exact runs_unpin h
  | allocateId => exact runs_allocateId h
  | drain t => exact runs_drain h

/-- What a step of the machine does. -/
theorem step_spec {e : ModelEvent} {s' : Model} (h : s.Inv) (hs : docModel.step e s = some s') :
    s'.Inv ∧ Session.Step e s.session s'.session :=
  of_wp_state (P := Stepped e s) (exec_spec e h) hs

theorem IsStart.inv (h : s.IsStart) : s.Inv := by
  obtain ⟨storeOf, chunkBits, source, fence, journaled, budget, stateCost, hf, rfl⟩ := h
  refine ⟨?_, fun d hd => ?_, fun t ht => ?_, fun v => ?_, rfl, le_rfl⟩
  · exact owned_init storeOf chunkBits source hf
  · obtain rfl : d = ⟨none, 0⟩ := by simpa [Model.init] using hd
    exact isMap_none
  · cases ht
  · cases v with
    | zero => exact iff_of_true rfl (Or.inl List.mem_cons_self)
    | succ v => exact iff_of_false (by simp [version?, Model.init]) (by simp [holders, Model.init])

end

/-- The invariant holds in every run. -/
theorem reachable_inv {s : Model} {allowed : ModelEvent → Model → Prop}
    (h : docModel.Reachable allowed s) : s.Inv :=
  h.invariant (fun _ => IsStart.inv) fun _ _ _ hi _ hs => (step_spec hi hs).1

/-- What holds of a session at the start and is kept by every allowed step of a session holds in
every observed run of a model. -/
theorem session_invariant {κ : Type} {init : Model → κ}
    {update : ModelEvent → Session → Session → κ → κ} {allowed : ModelEvent → Session → Prop}
    {I : Session → κ → Prop} {p : Model × κ}
    (h : (docModel.observe init fun e s s' => update e s.session s'.session).Reachable
      (fun e p => allowed e p.1.session) p)
    (hstart : ∀ s : Model, s.IsStart → I s.session (init s))
    (hstep : ∀ e s s' k, s.Wf → I s k → allowed e s → Session.Step e s s' →
      I s' (update e s s' k)) :
    p.1.Inv ∧ p.1.session.Wf ∧ I p.1.session p.2 := by
  refine h.invariant (I := fun p => p.1.Inv ∧ p.1.session.Wf ∧ I p.1.session p.2) ?_ ?_
  · rintro ⟨s, k⟩ ⟨hs, hk⟩
    obtain rfl : k = init s := hk
    refine ⟨hs.inv, ?_, hstart s hs⟩
    obtain ⟨_, _, _, _, _, _, _, -, rfl⟩ := hs
    refine ⟨?_, ?_, ?_⟩ <;> intro d hd <;> cases hd
  · rintro ⟨s, k⟩ e ⟨s', k'⟩ ⟨hinv, hwf, hI⟩ ha hs
    obtain ⟨hs, hk⟩ := Machine.observe_step_eq_some.mp hs
    obtain rfl : k' = update e s.session s'.session k := hk
    obtain ⟨hinv', hstep'⟩ := step_spec hinv hs
    exact ⟨hinv', hstep'.wf hwf, hstep e _ _ _ hwf hI ha hstep'⟩

/-- In every run the journal accounts for its entries, and its budget is kept. -/
theorem journal_accounted {s : Model} (h : docModel.Reachable Machine.anyEvent s) :
    s.session.journal.Accounted := by
  refine (h.invariant (I := fun s => s.Inv ∧ s.session.journal.Accounted) (fun s hs => ⟨hs.inv, ?_⟩)
    fun s e s' hI _ hs => ?_).2
  · obtain ⟨_, _, _, _, _, _, _, -, rfl⟩ := hs
    exact ⟨rfl, .inl (Nat.zero_le _)⟩
  · obtain ⟨hinv, hstep⟩ := step_spec hI.1 hs
    refine ⟨hinv, ?_⟩
    replace hI := hI.2
    generalize s.session = t, s'.session = t' at hI hstep
    cases hstep with
    | commit =>
      dsimp only [Session.commit]
      split
      · exact Journal.onCommit_accounted hI.1 _
      · exact hI
    | setByteBudget _ bytes => exact Journal.trim_accounted hI.1
    | _ => exact hI

theorem journal_accounted_emptyModel : ∃ s : Model, s.session.journal.Accounted ∧
    s.session.journal.entries.length = 1 := by
  obtain ⟨s, hs, hp⟩ := Machine.exists_reachable (M := docModel) Machine.anyEvent
    [.transact, .mutate 0 0 (.addComposition 1 1), .commit 0, .setByteBudget 0]
    (fun s => decide (s.session.journal.entries.length = 1)) start_emptyModel
    (Machine.runAllowed_anyEvent _ _) (by decide +kernel)
  exact ⟨s, journal_accounted hs, of_decide_eq_true hp⟩

/-- Transactions are isolated: whatever happens beside it, be it commits, undos, drains or loads, a
transaction still reads the version it was opened on and its own edits, and nothing else. -/
theorem transaction_isolated {es : List ModelEvent} {s s' : Model} {i : ℕ} {d : Draft}
    (h : docModel.Reachable Machine.anyEvent s) (hrun : docModel.run es s = some s')
    (hes : ∀ e ∈ es, Session.actsOn i e = false) (hd : s.session.draft? i = some d) :
    s'.session.draft? i = some d := by
  induction es generalizing s with
  | nil =>
    cases hrun
    exact hd
  | cons e es ih =>
    obtain ⟨s₁, hs, hrun⟩ := Option.bind_eq_some_iff.mp hrun
    obtain ⟨-, hstep⟩ := step_spec (reachable_inv h) hs
    exact ih (h.step e trivial hs) hrun (fun e he => hes e (List.mem_cons_of_mem _ he))
      (hstep.draft?_eq hd (hes e List.mem_cons_self))

theorem transaction_isolated_emptyModel : ∃ s s' : Model, s.current < s'.current ∧
    ∃ d, s'.session.draft? 0 = some d := by
  obtain ⟨s, hs, hp⟩ := Machine.exists_reachable (M := docModel) Machine.anyEvent
    [.transact, .transact, .mutate 0 1 (.addComposition 1 1)]
    (fun s => (s.session.draft? 0).isSome && (docModel.run [.commit 1, .undo 0] s).any
      fun s' => s.current < s'.current) start_emptyModel
    (Machine.runAllowed_anyEvent _ _) (by decide +kernel)
  obtain ⟨hd, hrun⟩ := Bool.and_eq_true_iff.mp hp
  obtain ⟨d, hd⟩ := Option.isSome_iff_exists.mp hd
  obtain ⟨s', hrun, hlt⟩ := (Option.any_eq_true _ _).mp hrun
  exact ⟨s, s', of_decide_eq_true hlt, d, transaction_isolated hs hrun (by decide) hd⟩

end Model

end ArbitraryComposer
