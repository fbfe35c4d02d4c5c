import ArbitraryComposer.Model.Records

/-!
# The Versions of a Raster

A raster keeps every version of its tiles under a slot, and the handle of a version is the slot.
A version is counted from zero: the model retains it for every record that carries its handle, and
when the last count goes its tiles are dropped and the slot waits on a stack to be used again.
Beside the versions there is the base that is painted on and drawn when a handle names nothing.

The tiles of a version never change, so they are a value of any type here; their blobs are counted
in `RasterStore`. The counts are natural numbers.

## Main definitions

- `TableVersion`, `VersionTable`: what is under a slot, and all slots with the base.
- `VersionTable.intern`, `retainVersion`, `releaseVersion`: the operations on slots.
- `VersionTable.Wf`: the slots on the stack are free, and every slot fits a handle.

## Main results

- `VersionTable.intern_spec`: a new version has a slot that named nothing.
- `VersionTable.calls_spec`: what some calls of `retain` and then of `release` leave.
-/

namespace ArbitraryComposer

variable {τ : Type}

/-- `RasterStore::Version`. -/
structure TableVersion (τ : Type) where
  /-- The tiles; none once the last count went. -/
  table : Option τ
  /-- The counts the model has taken. -/
  refcount : ℕ
  deriving DecidableEq

/-- The versions of a `RasterStore`. -/
structure VersionTable (τ : Type) where
  /-- `d_versions`. -/
  versions : List (TableVersion τ)
  /-- `d_free`, the slot freed last first. -/
  free : List UInt32
  /-- `d_base_table`. -/
  baseTable : Option τ
  deriving DecidableEq

namespace VersionTable

/-- `RasterStore::build` on a new store: its only version is the base. -/
def build (table : τ) : VersionTable τ := ⟨[⟨some table, 0⟩], [], some table⟩

/-- `RasterStore::intern`. -/
def intern (v : VersionTable τ) (table : τ) : StateHandle × VersionTable τ :=
  match v.free with
  | slot :: free =>
    (⟨slot⟩, { v with versions := v.versions.set slot.toNat ⟨some table, 0⟩, free })
  | [] =>
    (⟨.ofNat v.versions.length⟩, { v with versions := v.versions ++ [⟨some table, 0⟩] })

/-- What is under the slot of a handle. -/
def version? (v : VersionTable τ) (h : StateHandle) : Option (TableVersion τ) :=
  if h.hasState then v.versions[h.slot.toNat]? else none

/-- `RasterStore::resolve`. -/
def resolve (v : VersionTable τ) (h : StateHandle) : Option τ :=
  (v.version? h).bind TableVersion.table

/-- `RasterStore::version_refcount`. -/
def refcount (v : VersionTable τ) (h : StateHandle) : ℕ :=
  ((v.version? h).map TableVersion.refcount).getD 0

/-- Replace what is under a slot. -/
def setVersion (v : VersionTable τ) (h : StateHandle) (ver : TableVersion τ) : VersionTable τ :=
  { v with versions := v.versions.set h.slot.toNat ver }

/-- `RasterStore::retain_version`. -/
def retainVersion (v : VersionTable τ) (h : StateHandle) : VersionTable τ :=
  match v.version? h with
  | some ⟨some table, n⟩ => v.setVersion h ⟨some table, n + 1⟩
  | _ => v

/-- `RasterStore::release_version`. -/
def releaseVersion (v : VersionTable τ) (h : StateHandle) : VersionTable τ :=
  match v.version? h with
  | some ⟨table, n + 1⟩ =>
    if n = 0 then
      { v.setVersion h ⟨none, 0⟩ with free := h.slot :: v.free }
    else
      v.setVersion h ⟨table, n⟩
  | _ => v

/-- `RasterStore::set_base`. -/
def setBase (v : VersionTable τ) (table : Option τ) : VersionTable τ :=
  { v with baseTable := table }

/-- Some calls of `retain` and then some of `release`, each list in the order of the calls. -/
def calls (v : VersionTable τ) (retains releases : List StateHandle) : VersionTable τ :=
  releases.foldl releaseVersion (retains.foldl retainVersion v)

/-- The slots on the stack are free and there once, and every slot fits a handle that names
something. -/
structure Wf (v : VersionTable τ) : Prop where
  /-- A slot fits a handle. -/
  length_le : v.versions.length ≤ stateNone.toNat
  /-- What is on the stack is free. -/
  free_dead : ∀ slot ∈ v.free, v.versions[slot.toNat]? = some ⟨none, 0⟩
  /-- A slot is on the stack once. -/
  nodup : v.free.Nodup
  /-- A version without tiles is not counted. -/
  dead : ∀ ver ∈ v.versions, ver.table = none → ver.refcount = 0

variable {v : VersionTable τ} {h h' : StateHandle} {ver : TableVersion τ} {table : τ} {n : ℕ}

theorem version?_eq_some : v.version? h = some ver ↔
    h.hasState = true ∧ v.versions[h.slot.toNat]? = some ver := by
  rw [version?]
  by_cases hs : h.hasState = true
  · rw [if_pos hs, and_iff_right hs]
  · rw [if_neg hs]
    exact ⟨nofun, fun h => absurd h.1 hs⟩

theorem resolve_eq (hv : v.version? h = some ver) : v.resolve h = ver.table := by
  rw [resolve, hv, Option.bind_some]

theorem refcount_eq (hv : v.version? h = some ver) : v.refcount h = ver.refcount := by
  rw [refcount, hv]
  rfl

/-- A handle that names tiles is the handle of a slot. -/
theorem hasState_of_resolve (hr : v.resolve h = some table) : h.hasState = true := by
  obtain ⟨ver, hver, -⟩ := Option.bind_eq_some_iff.mp hr
  exact (version?_eq_some.mp hver).1

/-- The handles of two slots are equal when their slots are. -/
private theorem slot_toNat_inj : h.slot.toNat = h'.slot.toNat ↔ h = h' := by
  obtain ⟨slot⟩ := h
  obtain ⟨slot'⟩ := h'
  rw [StateHandle.mk.injEq]
  exact UInt32.toNat_inj

theorem version?_setVersion_self {new : TableVersion τ} (hv : v.version? h = some ver) :
    (v.setVersion h new).version? h = some new := by
  obtain ⟨hs, hget⟩ := version?_eq_some.mp hv
  refine version?_eq_some.mpr ⟨hs, ?_⟩
  exact List.getElem?_set_self (List.getElem?_eq_some_iff.mp hget).1

theorem version?_setVersion_of_ne {new : TableVersion τ} (hne : h' ≠ h) :
    (v.setVersion h new).version? h' = v.version? h' := by
  rw [version?, version?, setVersion, List.getElem?_set_ne]
  exact fun heq => hne (slot_toNat_inj.mp heq).symm

/-! ## A new store -/

theorem Wf.build (table : τ) : (build table).Wf := by
  refine ⟨Nat.one_le_iff_ne_zero.mpr (by decide), nofun, List.nodup_nil, fun ver hver => ?_⟩
  rw [List.mem_singleton.mp hver]
  exact nofun

/-- The first version is not counted. -/
theorem refcount_build (table : τ) (h : StateHandle) : (build table).refcount h = 0 := by
  cases hver : (build table).version? h with
  | none => rw [refcount, hver]; rfl
  | some ver =>
    rw [refcount_eq hver, List.mem_singleton.mp (List.mem_of_getElem? (version?_eq_some.mp hver).2)]

theorem resolve_build (table : τ) : (build table).resolve ⟨0⟩ = some table := rfl

/-! ## One operation -/

/-- A version that names tiles gets one more count. -/
theorem version?_retainVersion (hr : v.resolve h = some table) :
    (v.retainVersion h).version? h' =
      if h' = h then some ⟨some table, v.refcount h + 1⟩ else v.version? h' := by
  obtain ⟨ver, hver, htable⟩ := Option.bind_eq_some_iff.mp hr
  obtain ⟨t, n⟩ := ver
  obtain rfl : t = some table := htable
  rw [retainVersion, hver, refcount_eq hver]
  by_cases heq : h' = h
  · rw [if_pos heq, heq]
    exact version?_setVersion_self hver
  · rw [if_neg heq]
    exact version?_setVersion_of_ne heq

/-- A version loses one count, and its tiles with the last. -/
theorem version?_releaseVersion (hv : v.version? h = some ⟨some table, n + 1⟩) :
    (v.releaseVersion h).version? h' =
      if h' = h then some (if n = 0 then ⟨none, 0⟩ else ⟨some table, n⟩) else v.version? h' := by
  rw [releaseVersion, hv]
  dsimp only
  by_cases hn : n = 0
  · rw [if_pos hn, if_pos hn]
    by_cases heq : h' = h
    · rw [if_pos heq, heq]
      exact version?_setVersion_self hv
    · rw [if_neg heq]
      exact version?_setVersion_of_ne heq
  · rw [if_neg hn, if_neg hn]
    by_cases heq : h' = h
    · rw [if_pos heq, heq]
      exact version?_setVersion_self hv
    · rw [if_neg heq]
      exact version?_setVersion_of_ne heq

namespace Wf

/-- A free slot is put back on the stack no more than once, and what is replaced is not free. -/
private theorem setVersion {new : TableVersion τ} (hw : v.Wf) (hv : v.version? h = some ver)
    (hlive : ver ≠ ⟨none, 0⟩) (hnew : new.table = none → new.refcount = 0) :
    (v.setVersion h new).Wf := by
  obtain ⟨-, hget⟩ := version?_eq_some.mp hv
  refine ⟨?_, fun slot hslot => ?_, hw.nodup, fun ver' hver' => ?_⟩
  · rw [VersionTable.setVersion, List.length_set]
    exact hw.length_le
  · have hfree := hw.free_dead slot hslot
    rw [VersionTable.setVersion, List.getElem?_set_ne, hfree]
    rintro heq
    rw [← heq, hget] at hfree
    exact hlive (Option.some.inj hfree)
  · rcases List.mem_or_eq_of_mem_set hver' with hver' | rfl
    · exact hw.dead ver' hver'
    · exact hnew

theorem retainVersion (hw : v.Wf) (hr : v.resolve h = some table) : (v.retainVersion h).Wf := by
  obtain ⟨ver, hver, htable⟩ := Option.bind_eq_some_iff.mp hr
  obtain ⟨t, n⟩ := ver
  obtain rfl : t = some table := htable
  rw [VersionTable.retainVersion, hver]
  exact hw.setVersion hver (by simp) nofun

theorem releaseVersion (hw : v.Wf) (hv : v.version? h = some ⟨some table, n + 1⟩) :
    (v.releaseVersion h).Wf := by
  obtain ⟨-, hget⟩ := version?_eq_some.mp hv
  rw [VersionTable.releaseVersion, hv]
  dsimp only
  split
  · have hset : (v.setVersion h ⟨none, 0⟩).Wf := hw.setVersion hv (by simp) fun _ => rfl
    refine ⟨hset.length_le, fun slot hslot => ?_, List.nodup_cons.mpr ⟨fun hmem => ?_, hw.nodup⟩,
      hset.dead⟩
    · rcases List.mem_cons.mp hslot with rfl | hslot
      · exact List.getElem?_set_self (List.getElem?_eq_some_iff.mp hget).1
      · exact hset.free_dead slot hslot
    · have hfree := hw.free_dead _ hmem
      rw [hget] at hfree
      cases hfree
  · exact hw.setVersion hv (by simp) nofun

/-- Without a count a version has no call of `release` to make. -/
theorem refcount_eq_zero (hw : v.Wf) (hr : v.resolve h = none) : v.refcount h = 0 := by
  cases hver : v.version? h with
  | none => rw [refcount, hver]; rfl
  | some ver =>
    rw [refcount_eq hver]
    rw [resolve_eq hver] at hr
    exact hw.dead ver (List.mem_of_getElem? (version?_eq_some.mp hver).2) hr

/-- A version that is counted names tiles. -/
theorem exists_of_refcount_pos (hw : v.Wf) (hpos : 0 < v.refcount h) :
    ∃ table n, v.version? h = some ⟨some table, n + 1⟩ := by
  have hne : v.resolve h ≠ none := fun hr => hpos.ne' (hw.refcount_eq_zero hr)
  obtain ⟨table, hr⟩ := Option.ne_none_iff_exists'.mp hne
  obtain ⟨⟨t, n⟩, hver, htable⟩ := Option.bind_eq_some_iff.mp hr
  obtain rfl : t = some table := htable
  rw [refcount_eq hver] at hpos
  obtain ⟨n, rfl⟩ := Nat.exists_eq_succ_of_ne_zero hpos.ne'
  exact ⟨table, n, hver⟩

end Wf

/-! ## Interning -/

/-- A version fits when a slot waits to be used again or the handles have not run out. -/
def Roomy (v : VersionTable τ) : Prop := v.free ≠ [] ∨ v.versions.length < stateNone.toNat

instance (v : VersionTable τ) : Decidable v.Roomy := inferInstanceAs (Decidable (_ ∨ _))

private theorem intern_cons {slot : UInt32} {free : List UInt32} (hfree : v.free = slot :: free)
    (table : τ) : v.intern table =
      (⟨slot⟩, { v with versions := v.versions.set slot.toNat ⟨some table, 0⟩, free }) := by
  rw [intern, hfree]

private theorem intern_nil (hfree : v.free = []) (table : τ) : v.intern table =
    (⟨.ofNat v.versions.length⟩, { v with versions := v.versions ++ [⟨some table, 0⟩] }) := by
  rw [intern, hfree]

/-- The handle of a new version named nothing before and names its tiles, which are not counted;
the other versions are as they were. -/
theorem intern_spec (hw : v.Wf) (hroom : v.Roomy) (table : τ) :
    (v.intern table).2.Wf ∧ v.resolve (v.intern table).1 = none ∧
      ∀ h', (v.intern table).2.version? h' =
        if h' = (v.intern table).1 then some ⟨some table, 0⟩ else v.version? h' := by
  cases hfree : v.free with
  | cons slot free =>
    rw [intern_cons hfree]
    dsimp only
    have hdead := hw.free_dead slot (hfree ▸ List.mem_cons_self)
    have hlt := (List.getElem?_eq_some_iff.mp hdead).1
    have hstate : (⟨slot⟩ : StateHandle).hasState = true := by
      rw [StateHandle.hasState, bne_iff_ne]
      rintro rfl
      exact absurd hlt (Nat.not_lt.mpr hw.length_le)
    have hv : v.version? ⟨slot⟩ = some ⟨none, 0⟩ := version?_eq_some.mpr ⟨hstate, hdead⟩
    have hnodup := hfree ▸ hw.nodup
    refine ⟨⟨?_, fun slot' hslot' => ?_, (List.nodup_cons.mp hnodup).2, fun ver hver => ?_⟩,
      resolve_eq hv, fun h' => ?_⟩
    · rw [List.length_set]
      exact hw.length_le
    · have hne : slot' ≠ slot := fun heq => (List.nodup_cons.mp hnodup).1 (heq ▸ hslot')
      rw [List.getElem?_set_ne fun heq => hne (UInt32.toNat_inj.mp heq).symm]
      exact hw.free_dead slot' (hfree ▸ List.mem_cons_of_mem _ hslot')
    · rcases List.mem_or_eq_of_mem_set hver with hver | rfl
      · exact hw.dead ver hver
      · exact nofun
    · by_cases heq : h' = ⟨slot⟩
      · rw [if_pos heq, heq]
        exact version?_setVersion_self (v := v) hv
      · rw [if_neg heq]
        exact version?_setVersion_of_ne (v := v) heq
  | nil =>
    rw [intern_nil hfree]
    dsimp only
    have hlt : v.versions.length < stateNone.toNat := hroom.resolve_left fun hne => hne hfree
    have hsize : stateNone.toNat < UInt32.size := stateNone.toNat_lt
    have hnat : (UInt32.ofNat v.versions.length).toNat = v.versions.length :=
      UInt32.toNat_ofNat_of_lt' (hlt.trans hsize)
    have hstate : (⟨.ofNat v.versions.length⟩ : StateHandle).hasState = true := by
      rw [StateHandle.hasState, bne_iff_ne]
      intro heq
      rw [← heq, hnat] at hlt
      exact absurd hlt (Nat.lt_irrefl _)
    have hget : (v.versions ++ [⟨some table, 0⟩])[v.versions.length]? = some ⟨some table, 0⟩ :=
      List.getElem?_concat_length
    refine ⟨⟨?_, fun slot hslot => ?_, ?_, fun ver hver => ?_⟩, ?_, fun h' => ?_⟩
    · rw [List.length_append, List.length_singleton]
      exact hlt
    · rw [hfree] at hslot
      cases hslot
    · exact hw.nodup
    · rcases List.mem_append.mp hver with hver | hver
      · exact hw.dead ver hver
      · rw [List.mem_singleton.mp hver]
        exact nofun
    · rw [resolve, version?, if_pos hstate, hnat, List.getElem?_eq_none le_rfl]
      rfl
    · by_cases heq : h' = ⟨.ofNat v.versions.length⟩
      · rw [if_pos heq, heq, version?, if_pos hstate, hnat, hget]
      · have hother : h'.slot.toNat ≠ v.versions.length := fun hslot => heq (by
          rw [← hnat] at hslot
          exact slot_toNat_inj.mp hslot)
        rw [if_neg heq, version?, version?]
        congr 1
        rcases Nat.lt_or_gt_of_ne hother with hlt' | hgt
        · exact List.getElem?_append_left hlt'
        · rw [List.getElem?_eq_none (by simpa using Nat.succ_le_of_lt hgt),
            List.getElem?_eq_none hgt.le]

/-! ## Calls -/

/-- Calls of `retain` for versions that name tiles are counted. -/
private theorem retains_spec {l : List StateHandle} (hw : v.Wf)
    (hl : ∀ h ∈ l, v.resolve h ≠ none) :
    (l.foldl VersionTable.retainVersion v).Wf ∧ ∀ h',
      (l.foldl VersionTable.retainVersion v).resolve h' = v.resolve h' ∧
      (l.foldl VersionTable.retainVersion v).refcount h' = v.refcount h' + l.count h' := by
  induction l generalizing v with
  | nil => exact ⟨hw, fun h' => ⟨rfl, by simp⟩⟩
  | cons h l ih =>
    obtain ⟨table, hr⟩ := Option.ne_none_iff_exists'.mp (hl h List.mem_cons_self)
    have hone (h' : StateHandle) : (v.retainVersion h).resolve h' = v.resolve h' ∧
        (v.retainVersion h).refcount h' = v.refcount h' + if h' = h then 1 else 0 := by
      have hver := @version?_retainVersion _ v h h' _ hr
      by_cases heq : h' = h
      · rw [if_pos heq] at hver
        rw [resolve_eq hver, refcount_eq hver, if_pos heq, heq, hr]
        exact ⟨rfl, rfl⟩
      · rw [if_neg heq] at hver
        rw [resolve, refcount, hver, if_neg heq]
        exact ⟨rfl, rfl⟩
    obtain ⟨hwf, hrest⟩ := ih (hw.retainVersion hr) fun h' hh' => by
      rw [(hone h').1]
      exact hl h' (List.mem_cons_of_mem _ hh')
    refine ⟨hwf, fun h' => ⟨(hrest h').1.trans (hone h').1, ?_⟩⟩
    refine (hrest h').2.trans ?_
    rw [(hone h').2, List.count_cons]
    by_cases heq : h' = h
    · subst heq
      simp only [if_true, beq_self_eq_true]
      omega
    · have hne : (h == h') = false := beq_eq_false_iff_ne.mpr (Ne.symm heq)
      simp only [if_neg heq, hne, Bool.false_eq_true, if_false]
      omega

/-- Calls of `release` that are covered by counts are counted down, and the tiles go with the
last count. -/
private theorem releases_spec {l : List StateHandle} (hw : v.Wf)
    (hl : ∀ h, l.count h ≤ v.refcount h) :
    (l.foldl VersionTable.releaseVersion v).Wf ∧ ∀ h',
      (l.foldl VersionTable.releaseVersion v).refcount h' = v.refcount h' - l.count h' ∧
      (l.foldl VersionTable.releaseVersion v).resolve h' =
        if h' ∈ l ∧ v.refcount h' = l.count h' then none else v.resolve h' := by
  induction l generalizing v with
  | nil => exact ⟨hw, fun h' => ⟨by simp, by simp⟩⟩
  | cons h l ih =>
    have hpos : 0 < v.refcount h := by
      have := hl h
      rw [List.count_cons_self] at this
      omega
    obtain ⟨table, n, hver⟩ := hw.exists_of_refcount_pos hpos
    have hself := refcount_eq hver
    have hone (h' : StateHandle) : (v.releaseVersion h).refcount h' =
          v.refcount h' - (if h' = h then 1 else 0) ∧
        (v.releaseVersion h).resolve h' =
          if h' = h ∧ v.refcount h' = 1 then none else v.resolve h' := by
      have hver' := @version?_releaseVersion _ v h h' _ _ hver
      by_cases heq : h' = h
      · subst heq
        rw [if_pos rfl] at hver'
        rw [resolve_eq hver', refcount_eq hver', resolve_eq hver, hself, if_pos rfl]
        by_cases hn : n = 0
        · subst hn
          exact ⟨rfl, (if_pos ⟨rfl, rfl⟩).symm⟩
        · rw [if_neg hn, if_neg fun hc => hn (by simpa using hc.2)]
          exact ⟨rfl, rfl⟩
      · rw [if_neg heq] at hver'
        rw [resolve, refcount, hver', if_neg heq, if_neg fun hc => heq hc.1]
        exact ⟨rfl, rfl⟩
    obtain ⟨hwf, hrest⟩ := ih (hw.releaseVersion hver) fun h' => by
      have := hl h'
      rw [(hone h').1]
      by_cases heq : h' = h
      · subst heq
        rw [List.count_cons_self] at this
        rw [if_pos rfl]
        omega
      · rw [List.count_cons_of_ne (Ne.symm heq)] at this
        rw [if_neg heq]
        exact this
    refine ⟨hwf, fun h' => ?_⟩
    obtain ⟨hcount, hresolve⟩ := hrest h'
    obtain ⟨hcount₁, hresolve₁⟩ := hone h'
    have hle := hl h'
    rw [List.foldl_cons]
    by_cases heq : h' = h
    · subst heq
      rw [if_pos rfl] at hcount₁
      rw [List.count_cons_self] at hle ⊢
      refine ⟨by omega, ?_⟩
      rw [hresolve, hresolve₁]
      by_cases hmem : h' ∈ l
      · have hpos' := List.count_pos_iff.mpr hmem
        by_cases hlast : v.refcount h' = l.count h' + 1
        · rw [if_pos ⟨hmem, by omega⟩, if_pos ⟨List.mem_cons_self, hlast⟩]
        · rw [if_neg fun hc => hlast (by omega), if_neg fun hc => absurd hc.2 (by omega),
            if_neg fun hc => hlast hc.2]
      · have hzero := List.count_eq_zero.mpr hmem
        rw [if_neg fun hc => hmem hc.1, hzero]
        simp
    · rw [if_neg heq] at hcount₁
      rw [List.count_cons_of_ne (Ne.symm heq)] at hle ⊢
      refine ⟨by omega, ?_⟩
      rw [hresolve, hcount₁, Nat.sub_zero, hresolve₁]
      simp only [heq, false_and, if_false, List.mem_cons, false_or]

/-- What some calls leave that are made for versions that name tiles and released no more often
than they are counted: the counts move, and the tiles of a version go with its last count. -/
theorem calls_spec {retains releases : List StateHandle} (hw : v.Wf)
    (hretains : ∀ h ∈ retains, v.resolve h ≠ none)
    (hreleases : ∀ h, releases.count h ≤ v.refcount h + retains.count h) :
    (v.calls retains releases).Wf ∧ ∀ h',
      (v.calls retains releases).refcount h' =
        v.refcount h' + retains.count h' - releases.count h' ∧
      (v.calls retains releases).resolve h' =
        if h' ∈ releases ∧ v.refcount h' + retains.count h' = releases.count h' then none
        else v.resolve h' := by
  obtain ⟨hwf, hcounts⟩ := retains_spec hw hretains
  obtain ⟨hwf', hcounts'⟩ := releases_spec (l := releases) hwf fun h => by
    rw [(hcounts h).2]
    exact hreleases h
  refine ⟨hwf', fun h' => ?_⟩
  obtain ⟨hcount, hresolve⟩ := hcounts' h'
  rw [(hcounts h').1, (hcounts h').2] at hresolve
  rw [(hcounts h').2] at hcount
  exact ⟨hcount, hresolve⟩

/-- The calls do not see the base table. -/
theorem calls_setBase (v : VersionTable τ) (base : Option τ) (retains releases : List StateHandle) :
    (v.setBase base).calls retains releases = (v.calls retains releases).setBase base := by
  have hretain (v : VersionTable τ) (h : StateHandle) :
      (v.setBase base).retainVersion h = (v.retainVersion h).setBase base := by
    show (match v.version? h with
      | some ⟨some table, n⟩ => (v.setBase base).setVersion h ⟨some table, n + 1⟩
      | _ => v.setBase base) = _
    unfold VersionTable.retainVersion
    split <;> rfl
  have hrelease (v : VersionTable τ) (h : StateHandle) :
      (v.setBase base).releaseVersion h = (v.releaseVersion h).setBase base := by
    show (match v.version? h with
      | some ⟨table, n + 1⟩ =>
        if n = 0 then
          { (v.setBase base).setVersion h ⟨none, 0⟩ with free := h.slot :: v.free }
        else
          (v.setBase base).setVersion h ⟨table, n⟩
      | _ => v.setBase base) = _
    unfold VersionTable.releaseVersion
    split
    · split <;> rfl
    · rfl
  have hfold {f : VersionTable τ → StateHandle → VersionTable τ}
      (hf : ∀ v h, f (v.setBase base) h = (f v h).setBase base) (l : List StateHandle)
      (v : VersionTable τ) : l.foldl f (v.setBase base) = (l.foldl f v).setBase base := by
    induction l generalizing v with
    | nil => rfl
    | cons h l ih =>
      rw [List.foldl_cons, hf, ih]
      rfl
  rw [calls, hfold hretain, hfold hrelease]
  rfl

theorem baseTable_calls (v : VersionTable τ) (retains releases : List StateHandle) :
    (v.calls retains releases).baseTable = v.baseTable := by
  have hsame : v.calls retains releases = (v.calls retains releases).setBase v.baseTable :=
    v.calls_setBase v.baseTable retains releases
  rw [hsame]
  rfl

end VersionTable

end ArbitraryComposer
