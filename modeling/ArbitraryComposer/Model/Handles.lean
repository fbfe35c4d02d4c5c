import ArbitraryComposer.Model.Session

/-!
# Counts Moved by Commits and Navigation

A commit takes a count on every record its journal entry names, navigation path-copies the
current version, and the journal copies and destroys the references of its entries. All of these
leave the counts exact, on their error exits too.

## Main definitions

- `recordRefs`: references to records.

## Main results

- `buildEdits_spec`: the entry of a commit holds the records it names.
- `navigateLoop_spec`: navigation binds the target records again.
- `execEffects_spec`: the journal gives back what it drops.
-/

set_option linter.unusedSectionVars false

namespace ArbitraryComposer

open Exec Arena SlabType

/-- References to records. -/
def recordRefs (records : Multiset ℕ) : Multiset (View × ℕ) :=
  records.map fun i => (View.records, i)

variable {A A' : Heap} {held : Multiset (View × ℕ)} {root base : Option ℕ} {i t : ℕ}
  {key : ObjectId} {records : List ℕ} {F : Fault → Prop}

theorem recordRefs_add (l m : Multiset ℕ) : recordRefs (l + m) = recordRefs l + recordRefs m :=
  Multiset.map_add _ l m

theorem recordRefs_cons (i : ℕ) (m : Multiset ℕ) :
    recordRefs (i ::ₘ m) = (.records, i) ::ₘ recordRefs m :=
  Multiset.map_cons _ i m

theorem mem_recordRefs {m : Multiset ℕ} (h : i ∈ m) : (View.records, i) ∈ recordRefs m :=
  Multiset.mem_map_of_mem _ h

/-- Only counts differ, so every slot has the same record. -/
theorem Arena.SameMemory.recordAt_eq (h : A.SameMemory A') : recordAt A' = recordAt A := by
  funext i
  rw [recordAt, recordAt, h.slot_eq, h.cells_eq]

/-! ## Handles -/

/-- A held reference is copied. -/
theorem copyRef_owned {r : View × ℕ} {E : PoolError → Heap → Prop} (h : A.Owned held)
    (hr : r ∈ held) :
    wp (copyRef r) (fun _ A' => A'.Owned (r ::ₘ held) ∧ A.SameMemory A') E Stops A := by
  have hlive : A.Live held r := Or.inl hr
  refine wp_mono (copyRef_spec h.sound (hlive.names h.sound) (hlive.count_ne_zero h.sound))
    (fun _ A' hA' => ⟨h.of_sameMemory hA'.2 hA'.1, hA'.2⟩) (fun _ _ hE => hE.elim) ?_
  rintro f rfl
  exact Or.inr (Or.inr rfl)

/-- A held root handle is copied. -/
theorem copyRoot_spec {E : PoolError → Heap → Prop} (h : A.Owned held)
    (hroot : rootRefs root ≤ held) :
    wp (copyRoot root) (fun _ A' => A'.Owned (rootRefs root + held) ∧ A.SameMemory A') E Stops
      A := by
  cases root with
  | none => exact ⟨by simpa using h, .refl⟩
  | some i =>
    simp only [copyRoot, Option.toList_some, forEach, wp_bind, rootRefs_some,
      Multiset.singleton_add]
    exact wp_imp (copyRef_owned h (Multiset.singleton_le.mp hroot)) (fun _ _ hA => hA)
      fun _ _ hE => hE

/-- Held references to records are dropped. -/
theorem releaseRecords_spec {E : PoolError → Heap → Prop}
    (h : A.Owned (recordRefs records + held)) :
    wp (releaseRecords records) (fun _ A' => A'.Owned held ∧ A.SameMemory A') E F A := by
  induction records generalizing A with
  | nil => exact ⟨by simpa [recordRefs] using h, .refl⟩
  | cons i records ih =>
    rw [← Multiset.cons_coe, recordRefs_cons, Multiset.cons_add] at h
    simp only [releaseRecords, forEach, wp_bind]
    refine wp_imp (release_owned h) (fun _ A₁ hA₁ => ?_) fun _ _ hE => hE
    exact wp_imp (ih hA₁.1) (fun _ A₂ hA₂ => ⟨hA₂.1, hA₁.2.1.trans hA₂.2⟩) fun _ _ hE => hE

/-! ## The entry of a commit -/

/-- The record of an object is retained. -/
theorem resolveIn_spec (h : A.Owned held) (hmap : IsMap A root) :
    wp (resolveIn root key)
      (fun r A' => A'.Owned (recordRefs r.toList + held) ∧ A.SameMemory A' ∧
        r.map (recordAt A) = docMap A root key)
      (fun _ A' => A'.Owned held ∧ A.SameMemory A') F A := by
  simp only [resolveIn, wp_bind]
  refine wp_imp (lookup_spec hmap held) (fun r A₁ hA₁ => ?_) fun _ _ hE => hE
  obtain ⟨rfl, hdoc, hlive⟩ := hA₁
  cases r with
  | none => exact ⟨by simpa [recordRefs] using h, .refl, hdoc⟩
  | some i =>
    rw [wp_bind]
    refine wp_imp (retain_owned h (hlive i rfl)) (fun _ A₂ hA₂ => ?_) fun _ A₂ hA₂ => ?_
    · exact ⟨hA₂.1, hA₂.2.1, hdoc⟩
    · subst hA₂
      exact ⟨h, .refl⟩

/-- The edit of one object holds the records it names. -/
theorem buildEdit_spec (h : A.Owned held) (hbase : IsMap A base) (hmap : IsMap A root) :
    wp (buildEdit base root key)
      (fun e A' => A'.Owned (recordRefs e.refs + held) ∧ A.SameMemory A' ∧
        e.map (recordAt A) = ⟨key, docMap A base key, docMap A root key⟩)
      (fun _ A' => A'.Owned held ∧ A.SameMemory A') F A := by
  simp only [buildEdit, wp_bind, wp_onError]
  refine wp_imp (resolveIn_spec h hbase) (fun before A₁ hA₁ => ?_) fun _ _ hE => hE
  obtain ⟨howned₁, hsame₁, hbefore⟩ := hA₁
  refine wp_imp (resolveIn_spec howned₁ (hmap.extends hsame₁.extends)) (fun after A₂ hA₂ => ?_)
    fun _ A₂ hA₂ => ?_
  · obtain ⟨howned₂, hsame₂, hafter⟩ := hA₂
    refine ⟨?_, hsame₁.trans hsame₂, ?_⟩
    · rw [ObjectEdit.refs, ← Multiset.coe_add, recordRefs_add,
        add_comm (recordRefs (before.toList : Multiset ℕ)), add_assoc]
      exact howned₂
    · rw [hsame₁.recordAt_eq, docMap_extends hmap h.sound hsame₁.extends] at hafter
      rw [ObjectEdit.map, hbefore, hafter]
  · exact wp_imp (releaseRecords_spec hA₂.1)
      (fun _ A₃ hA₃ => ⟨hA₃.1, hsame₁.trans (hA₂.2.trans hA₃.2)⟩) fun _ _ hE => hE

/-- The edits of a commit hold the records they name; on an error nothing is held. -/
theorem buildEdits_spec {keys : List ObjectId} {edits : List (ObjectEdit ℕ)}
    (h : A.Owned (recordRefs (edits.flatMap ObjectEdit.refs) + held)) (hbase : IsMap A base)
    (hmap : IsMap A root) :
    wp (buildEdits base root keys edits)
      (fun es A' => A'.Owned (recordRefs (es.flatMap ObjectEdit.refs) + held) ∧ A.SameMemory A' ∧
        es.map (ObjectEdit.map (recordAt A)) = edits.map (ObjectEdit.map (recordAt A)) ++
          keys.map fun k => ⟨k, docMap A base k, docMap A root k⟩)
      (fun _ A' => A'.Owned held ∧ A.SameMemory A') F A := by
  induction keys generalizing A edits with
  | nil => exact ⟨h, .refl, (List.append_nil _).symm⟩
  | cons key keys ih =>
    simp only [buildEdits, wp_bind, wp_onError]
    refine wp_imp (buildEdit_spec h hbase hmap) (fun e A₁ hA₁ => ?_) fun _ A₁ hA₁ => ?_
    · obtain ⟨howned₁, hsame₁, he⟩ := hA₁
      have howned₁' : A₁.Owned (recordRefs ((edits ++ [e]).flatMap ObjectEdit.refs) + held) := by
        rw [List.flatMap_append, List.flatMap_singleton, ← Multiset.coe_add, recordRefs_add,
          add_comm (recordRefs _), add_assoc]
        exact howned₁
      refine wp_imp (ih howned₁' (hbase.extends hsame₁.extends) (hmap.extends hsame₁.extends))
        (fun es A₂ hA₂ => ?_) fun _ A₂ hA₂ => ⟨hA₂.1, hsame₁.trans hA₂.2⟩
      obtain ⟨howned₂, hsame₂, hes⟩ := hA₂
      refine ⟨howned₂, hsame₁.trans hsame₂, ?_⟩
      rw [hsame₁.recordAt_eq, docMap_extends hbase h.sound hsame₁.extends,
        docMap_extends hmap h.sound hsame₁.extends] at hes
      rw [hes, List.map_append, List.map_singleton, he, List.append_assoc]
      rfl
    · exact wp_imp (releaseRecords_spec hA₁.1)
        (fun _ A₂ hA₂ => ⟨hA₂.1, hA₁.2.trans hA₂.2⟩) fun _ _ hE => hE

/-! ## The references of the journal -/

/-- Executing the effects of the journal settles the references. -/
theorem execEffects_spec {l l' : Multiset ℕ} {effects : List (RefEffect ℕ)}
    {E : PoolError → Heap → Prop} (hs : Settles l effects l')
    (h : A.Owned (recordRefs l + held)) :
    wp (forEach effects execEffect)
      (fun _ A' => A'.Owned (recordRefs l' + held) ∧ A.SameMemory A') E Stops A := by
  induction hs generalizing A with
  | nil l => exact ⟨h, .refl⟩
  | @copy l l' i effects hi _ ih =>
    simp only [forEach, wp_bind, execEffect]
    have hmem : (View.records, i) ∈ recordRefs l + held :=
      Multiset.mem_add.mpr (Or.inl (mem_recordRefs hi))
    refine wp_imp (copyRef_owned h hmem) (fun _ A₁ hA₁ => ?_) fun _ _ hE => hE
    rw [← Multiset.cons_add, ← recordRefs_cons] at hA₁
    exact wp_imp (ih hA₁.1) (fun _ A₂ hA₂ => ⟨hA₂.1, hA₁.2.trans hA₂.2⟩) fun _ _ hE => hE
  | @drop l l' i effects _ ih =>
    simp only [forEach, wp_bind, execEffect]
    rw [recordRefs_cons, Multiset.cons_add] at h
    refine wp_imp (release_owned h) (fun _ A₁ hA₁ => ?_) fun _ _ hE => hE
    exact wp_imp (ih hA₁.1) (fun _ A₂ hA₂ => ⟨hA₂.1, hA₁.2.1.trans hA₂.2⟩) fun _ _ hE => hE

/-! ## Navigation -/

/-- The targets with their records. -/
def resolveTargets (A : Heap) (targets : List (ObjectId × Option ℕ)) :
    List (ObjectId × Option ObjectRecord) :=
  targets.map fun p => (p.1, p.2.map (recordAt A))

/-- One object is bound to its target. -/
theorem navigateStep_spec {target : Option ℕ} (h : A.Owned (rootRefs root + held))
    (hmap : IsMap A root) (ht : ∀ i ∈ target, (View.records, i) ∈ held) :
    wp (navigateStep t root key target)
      (fun next A' => A'.Owned (rootRefs next + (rootRefs root + held)) ∧ A.Extends A' ∧
        IsMap A' next ∧
        docMap A' next = Function.update (docMap A root) key (target.map (recordAt A)))
      (fun _ A' => A'.Owned (rootRefs root + held) ∧ A.Extends A') F A := by
  have hroot : ∀ i ∈ root, (View.nodes, i) ∈ rootRefs root + held :=
    mem_of_rootRefs_le (Multiset.le_add_right _ _)
  cases target with
  | none => exact erase_spec h hroot hmap
  | some record =>
    simp only [navigateStep, wp_bind]
    refine wp_imp (insert_spec h (Multiset.mem_add.mpr (Or.inr (ht record rfl))) hroot hmap)
      (fun i A' hA' => ?_) fun _ _ hE => hE
    refine ⟨?_, hA'.2⟩
    rw [rootRefs_some, Multiset.singleton_add]
    exact hA'.1

/-- The targets are bound one after the other; on an error nothing is held. -/
theorem navigateLoop_spec {targets : List (ObjectId × Option ℕ)}
    (h : A.Owned (rootRefs root + held)) (hmap : IsMap A root)
    (ht : ∀ p ∈ targets, ∀ i ∈ p.2, (View.records, i) ∈ held) :
    wp (navigateLoop t root targets)
      (fun next A' => A'.Owned (rootRefs next + held) ∧ A.Extends A' ∧ IsMap A' next ∧
        docMap A' next = rebindAll (docMap A root) (resolveTargets A targets))
      (fun _ A' => A'.Owned held ∧ A.Extends A') F A := by
  induction targets generalizing A root with
  | nil => exact ⟨h, .refl, hmap, rfl⟩
  | cons p rest ih =>
    obtain ⟨key, target⟩ := p
    simp only [navigateLoop, wp_bind, wp_onError]
    refine wp_imp (navigateStep_spec h hmap (ht _ List.mem_cons_self)) (fun next A₁ hA₁ => ?_)
      fun _ A₁ hA₁ => ?_
    · obtain ⟨howned₁, hext₁, hmap₁, hdoc₁⟩ := hA₁
      rw [add_left_comm] at howned₁
      refine wp_imp (releaseRoot_spec howned₁) (fun _ A₂ hA₂ => ?_) fun _ _ hE => hE
      obtain ⟨howned₂, hsame₂⟩ := hA₂
      have hext₂ := hext₁.trans hsame₂.extends
      refine wp_imp (ih howned₂ (hmap₁.extends hsame₂.extends)
        fun q hq => ht q (List.mem_cons_of_mem _ hq)) (fun out A₃ hA₃ => ?_)
        fun _ A₃ hA₃ => ⟨hA₃.1, hext₂.trans hA₃.2⟩
      obtain ⟨howned₃, hext₃, hmap₃, hdoc₃⟩ := hA₃
      refine ⟨howned₃, hext₂.trans hext₃, hmap₃, ?_⟩
      -- the records of the remaining targets are held all along
      have hrest : resolveTargets A₂ rest = resolveTargets A rest := by
        refine List.map_congr_left fun q hq => ?_
        have hrec : q.2.map (recordAt A₂) = q.2.map (recordAt A) := by
          cases hq2 : q.2 with
          | none => rfl
          | some j =>
            have hj := ht q (List.mem_cons_of_mem _ hq) j hq2
            exact congrArg some (recordAt_extends
              (h.sound.held_names _ (Multiset.mem_add.mpr (Or.inr hj))) hext₂)
        rw [hrec]
      rw [hdoc₃, docMap_extends hmap₁ howned₁.sound hsame₂.extends, hdoc₁, hrest]
      rfl
    · exact wp_imp (releaseRoot_spec hA₁.1)
        (fun _ A₂ hA₂ => ⟨hA₂.1, hA₁.2.trans hA₂.2.extends⟩) fun _ _ hE => hE

end ArbitraryComposer
