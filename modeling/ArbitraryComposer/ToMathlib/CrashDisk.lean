import Mathlib.Data.List.Basic
import Mathlib.Data.List.Pairwise

/-!
# Disks that lose what is not synced

A disk is a directory of names and the contents of files. Changes are made in memory and become
durable later: a power loss keeps any part of those that are not synced yet, in their order. A
rename is one change.

Some names are final: what they name is to be complete. A file is staged under another name, filled,
and renamed to its final name. Where a power loss keeps the contents of the files whose renames it
keeps, every final name stays complete.

## Main definitions

- `Disk`, `Disk.Change`, `Disk.applyAll`: a disk and its changes.
- `Disk.KeepsContents`: the condition on what a power loss keeps.
- `Disk.Staged`: the discipline, of a durable disk and the changes that are not synced.

## Main results

- `Disk.Staged.complete`: what a final name names is complete.
- `Disk.Staged.create`, `.modify`, `.rename`, `.remove`: the steps.
- `Disk.Staged.lose`: a power loss.
-/

/-- A directory and the contents of files. -/
structure Disk (π α : Type) where
  /-- The file that a name stands for. -/
  dir : π → Option ℕ
  /-- The contents of the files. -/
  files : ℕ → List α

namespace Disk

variable {π α : Type}

/-- A change of a disk. -/
inductive Change (π α : Type) where
  /-- A name for a new file. -/
  | create (p : π) (ino : ℕ)
  /-- A file loses its contents. -/
  | truncate (ino : ℕ)
  /-- Bytes are written into a file. -/
  | write (ino offset : ℕ) (bytes : List α)
  /-- A file goes from one name to another. -/
  | rename (p q : π) (ino : ℕ)
  /-- A name is removed. -/
  | remove (p : π)
  deriving DecidableEq

/-- The change is one of the contents of a file. -/
def Change.touches (ino : ℕ) : Change π α → Bool
  | .truncate i => i = ino
  | .write i _ _ => i = ino
  | _ => false

/-- Contents with bytes written over them, and filled up to where these begin. -/
def writeAt [Inhabited α] (content : List α) (offset : ℕ) (bytes : List α) : List α :=
  (content ++ List.replicate (offset - content.length) default).take offset ++ bytes ++
    content.drop (offset + bytes.length)

variable [DecidableEq π] [Inhabited α]

/-- The effect of a change. -/
def apply (d : Disk π α) : Change π α → Disk π α
  | .create p ino => { d with dir := Function.update d.dir p (some ino) }
  | .truncate ino => { d with files := Function.update d.files ino [] }
  | .write ino offset bytes =>
    { d with files := Function.update d.files ino (writeAt (d.files ino) offset bytes) }
  | .rename p q ino =>
    { d with dir := Function.update (Function.update d.dir p none) q (some ino) }
  | .remove p => { d with dir := Function.update d.dir p none }

/-- The effect of changes in their order. -/
def applyAll (d : Disk π α) (cs : List (Change π α)) : Disk π α := cs.foldl apply d

variable {d : Disk π α} {cs kept : List (Change π α)} {c : Change π α} {p q : π} {ino next : ℕ}

theorem applyAll_append_singleton : d.applyAll (cs ++ [c]) = (d.applyAll cs).apply c := by
  rw [applyAll, List.foldl_append]
  rfl

/-! ## Contents -/

omit [Inhabited α] [DecidableEq π] in
/-- Appending at the end. -/
theorem writeAt_length [Inhabited α] (content bytes : List α) :
    writeAt content content.length bytes = content ++ bytes := by
  rw [writeAt, Nat.sub_self, List.replicate_zero, List.append_nil, List.take_length,
    List.drop_eq_nil_of_le (Nat.le_add_right _ _), List.append_nil]

/-- A change of other files leaves a file as it is. -/
theorem files_apply_of_not_touches (h : c.touches ino = false) :
    (d.apply c).files ino = d.files ino := by
  cases c with
  | create => rfl
  | rename => rfl
  | remove => rfl
  | truncate i => exact Function.update_of_ne (fun heq => of_decide_eq_false h heq.symm) _ _
  | write i offset bytes =>
    exact Function.update_of_ne (fun heq => of_decide_eq_false h heq.symm) _ _

/-- A change of a file depends on its contents only. -/
theorem files_apply_congr {d d' : Disk π α} (h : d.files ino = d'.files ino) :
    (d.apply c).files ino = (d'.apply c).files ino := by
  cases c with
  | create => exact h
  | rename => exact h
  | remove => exact h
  | truncate i =>
    by_cases hi : ino = i
    · subst hi
      show Function.update d.files ino [] ino = Function.update d'.files ino [] ino
      rw [Function.update_self, Function.update_self]
    · exact (Function.update_of_ne hi _ _).trans (h.trans (Function.update_of_ne hi _ _).symm)
  | write i offset bytes =>
    by_cases hi : ino = i
    · subst hi
      show Function.update d.files ino _ ino = Function.update d'.files ino _ ino
      rw [Function.update_self, Function.update_self, h]
    · exact (Function.update_of_ne hi _ _).trans (h.trans (Function.update_of_ne hi _ _).symm)

/-- The contents of a file depend on its changes only. -/
theorem files_applyAll_filter {d d' : Disk π α} (h : d.files ino = d'.files ino) :
    (d.applyAll cs).files ino = (d'.applyAll (cs.filter (Change.touches ino))).files ino := by
  induction cs generalizing d d' with
  | nil => exact h
  | cons c cs ih =>
    by_cases hc : c.touches ino = true
    · rw [List.filter_cons_of_pos hc]
      exact ih (files_apply_congr h)
    · rw [List.filter_cons_of_neg hc]
      apply ih
      rw [files_apply_of_not_touches (Bool.not_eq_true _ ▸ hc)]
      exact h

/-- A file that no change is of keeps its contents. -/
theorem files_applyAll_of_not_touches (h : ∀ c ∈ cs, c.touches ino = false) :
    (d.applyAll cs).files ino = d.files ino := by
  rw [files_applyAll_filter (rfl : d.files ino = d.files ino), List.filter_eq_nil_iff.mpr]
  · rfl
  · intro c hc
    rw [h c hc]
    exact Bool.false_ne_true

/-! ## Names -/

/-- Where the file of a name comes from. -/
theorem dir_applyAll (h : (d.applyAll cs).dir p = some ino) :
    d.dir p = some ino ∨ .create p ino ∈ cs ∨ ∃ q, .rename q p ino ∈ cs := by
  induction cs generalizing d with
  | nil => exact Or.inl h
  | cons c cs ih =>
    rcases ih h with hdir | hcreate | ⟨q, hrename⟩
    · cases c with
      | truncate => exact Or.inl hdir
      | write => exact Or.inl hdir
      | create p' i =>
        by_cases hp : p = p'
        · subst hp
          change Function.update d.dir p (some i) p = some ino at hdir
          rw [Function.update_self] at hdir
          obtain rfl := Option.some.inj hdir
          exact Or.inr (Or.inl List.mem_cons_self)
        · change Function.update d.dir p' (some i) p = some ino at hdir
          rw [Function.update_of_ne hp] at hdir
          exact Or.inl hdir
      | remove p' =>
        by_cases hp : p = p'
        · subst hp
          change Function.update d.dir p none p = some ino at hdir
          rw [Function.update_self] at hdir
          cases hdir
        · change Function.update d.dir p' none p = some ino at hdir
          rw [Function.update_of_ne hp] at hdir
          exact Or.inl hdir
      | rename p' q' i =>
        change Function.update (Function.update d.dir p' none) q' (some i) p = some ino at hdir
        by_cases hq : p = q'
        · subst hq
          rw [Function.update_self] at hdir
          obtain rfl := Option.some.inj hdir
          exact Or.inr (Or.inr ⟨p', List.mem_cons_self⟩)
        · rw [Function.update_of_ne hq] at hdir
          by_cases hp : p = p'
          · subst hp
            rw [Function.update_self] at hdir
            cases hdir
          · rw [Function.update_of_ne hp] at hdir
            exact Or.inl hdir
    · exact Or.inr (Or.inl (List.mem_cons_of_mem _ hcreate))
    · exact Or.inr (Or.inr ⟨q, List.mem_cons_of_mem _ hrename⟩)

/-- The second change does not give a name back that the first has renamed. -/
def Change.NotRecreated (c c' : Change π α) : Prop :=
  ∀ p q ino, c = .rename p q ino → c' ≠ .create p ino

/-- A name whose file was renamed no longer stands for it. -/
theorem dir_applyAll_ne_of_renamed (hmem : .rename p q ino ∈ cs)
    (hordered : cs.Pairwise Change.NotRecreated) (hne : p ≠ q)
    (htarget : ∀ p' i, Change.rename p' p i ∉ cs) : (d.applyAll cs).dir p ≠ some ino := by
  induction cs generalizing d with
  | nil => cases hmem
  | cons c cs ih =>
    obtain ⟨hfirst, hrest⟩ := List.pairwise_cons.mp hordered
    rcases List.mem_cons.mp hmem with rfl | hmem
    · intro hdir
      rcases dir_applyAll (d := d.apply (.rename p q ino)) hdir with hold | hcreate | ⟨p', hrename⟩
      · change Function.update (Function.update d.dir p none) q (some ino) p = some ino at hold
        rw [Function.update_of_ne hne, Function.update_self] at hold
        cases hold
      · exact hfirst _ hcreate p q ino rfl rfl
      · exact htarget p' ino (List.mem_cons_of_mem _ hrename)
    · exact ih hmem hrest fun p' i hin => htarget p' i (List.mem_cons_of_mem _ hin)

/-! ## Staging -/

/-- A name stands for a file, or would if some change were kept. -/
def Bound (d : Disk π α) (cs : List (Change π α)) (p : π) (ino : ℕ) : Prop :=
  d.dir p = some ino ∨ .create p ino ∈ cs

/-- A power loss keeps the contents of the files whose renames it keeps. -/
def KeepsContents (cs kept : List (Change π α)) : Prop :=
  ∀ p q ino, .rename p q ino ∈ kept →
    kept.filter (Change.touches ino) = cs.filter (Change.touches ino)

/-- The discipline of staging, of a durable disk and the changes that are not synced: files are
named and filled under names that are not final, and complete ones are renamed to final names. -/
structure Staged (final : π → Prop) (good : π → List α → Prop) (d : Disk π α)
    (cs : List (Change π α)) (next : ℕ) : Prop where
  /-- No name gets a file back that was renamed. -/
  ordered : cs.Pairwise Change.NotRecreated
  /-- Renames go to final names. -/
  renames : ∀ p q ino, .rename p q ino ∈ cs → ¬ final p ∧ final q
  /-- New files do not have final names. -/
  creates : ∀ p ino, .create p ino ∈ cs → ¬ final p
  /-- Final names are not removed. -/
  removes : ∀ p, .remove p ∈ cs → ¬ final p
  /-- A file is staged under one name. -/
  once : ∀ p p' ino, ¬ final p → ¬ final p' → Bound d cs p ino → Bound d cs p' ino → p = p'
  /-- A file is renamed from where it is staged. -/
  source : ∀ p q ino, .rename p q ino ∈ cs → ∀ p', ¬ final p' → Bound d cs p' ino → p' = p
  /-- The file of a final name is not staged. -/
  apart : ∀ q ino, final q → d.dir q = some ino → ∀ p, ¬ final p → ¬ Bound d cs p ino
  /-- The file of a final name is complete. -/
  settled : ∀ q ino, final q → d.dir q = some ino → good q (d.files ino)
  /-- It is not changed. -/
  frozen : ∀ q ino, final q → d.dir q = some ino → ∀ c ∈ cs, c.touches ino = false
  /-- A file that is renamed is complete. -/
  renamed : ∀ p q ino, .rename p q ino ∈ cs → good q ((d.applyAll cs).files ino)
  /-- The files in the directory are old. -/
  dir_lt : ∀ p ino, d.dir p = some ino → ino < next
  /-- The files of changes are old. -/
  create_lt : ∀ p ino, .create p ino ∈ cs → ino < next
  /-- The files that are renamed are old. -/
  rename_lt : ∀ p q ino, .rename p q ino ∈ cs → ino < next
  /-- The files that are changed are old. -/
  touches_lt : ∀ c ∈ cs, ∀ ino, c.touches ino = true → ino < next
  /-- New files are empty. -/
  fresh : ∀ ino, next ≤ ino → d.files ino = []

namespace Staged

variable {final : π → Prop} {good good' : π → List α → Prop}

/-- No change creates or renames to a name that is not final, so it comes from the directory or a
change. -/
theorem bound (h : Staged final good d cs next) (hp : ¬ final p)
    (hdir : (d.applyAll cs).dir p = some ino) : Bound d cs p ino := by
  rcases dir_applyAll hdir with hold | hcreate | ⟨q, hrename⟩
  · exact Or.inl hold
  · exact Or.inr hcreate
  · exact absurd (h.renames q p ino hrename).2 hp

/-- A staged file is not renamed. -/
theorem not_renamed (h : Staged final good d cs next) (hp : ¬ final p)
    (hdir : (d.applyAll cs).dir p = some ino) (p' q : π) : Change.rename p' q ino ∉ cs := by
  intro hrename
  obtain rfl := h.source p' q ino hrename p hp (h.bound hp hdir)
  have hne : p ≠ q := by
    rintro rfl
    exact hp (h.renames p p ino hrename).2
  exact dir_applyAll_ne_of_renamed hrename h.ordered hne
    (fun p' i hin => hp (h.renames p' p i hin).2) hdir

/-- A staged file has no final name. -/
theorem not_final (h : Staged final good d cs next) (hp : ¬ final p)
    (hdir : (d.applyAll cs).dir p = some ino) (hq : final q) : d.dir q ≠ some ino :=
  fun hold => h.apart q ino hq hold p hp (h.bound hp hdir)

/-- What a final name stands for is complete. -/
theorem complete (h : Staged final good d cs next) (hq : final q)
    (hdir : (d.applyAll cs).dir q = some ino) : good q ((d.applyAll cs).files ino) := by
  rcases dir_applyAll hdir with hold | hcreate | ⟨p, hrename⟩
  · rw [files_applyAll_of_not_touches (h.frozen q ino hq hold)]
    exact h.settled q ino hq hold
  · exact absurd hq (h.creates q ino hcreate)
  · exact h.renamed p q ino hrename

/-- More may become good. -/
theorem mono (h : Staged final good d cs next) (hgood : ∀ q content, good q content →
    good' q content) : Staged final good' d cs next :=
  { h with
    settled := fun q ino hq hdir => hgood _ _ (h.settled q ino hq hdir)
    renamed := fun p q ino hin => hgood _ _ (h.renamed p q ino hin) }

/-- A power loss keeps some of the changes, and with a rename the contents. -/
theorem lose (h : Staged final good d cs next) (hsub : kept.Sublist cs)
    (hkeeps : KeepsContents cs kept) : Staged final good (d.applyAll kept) [] next := by
  have hmem : ∀ c ∈ kept, c ∈ cs := fun c hc => hsub.subset hc
  have hordered := h.ordered.sublist hsub
  have hbound : ∀ p ino, ¬ final p → Bound (d.applyAll kept) [] p ino → Bound d cs p ino := by
    rintro p ino hp (hdir | hnil)
    · rcases dir_applyAll hdir with hold | hcreate | ⟨q, hrename⟩
      · exact Or.inl hold
      · exact Or.inr (hmem _ hcreate)
      · exact absurd (h.renames q p ino (hmem _ hrename)).2 hp
    · cases hnil
  have hfiles : ∀ p q ino, .rename p q ino ∈ kept →
      (d.applyAll kept).files ino = (d.applyAll cs).files ino := by
    intro p q ino hin
    rw [files_applyAll_filter (rfl : d.files ino = d.files ino), hkeeps p q ino hin]
    exact (files_applyAll_filter rfl).symm
  have hfrozen : ∀ q ino, final q → d.dir q = some ino →
      (d.applyAll kept).files ino = d.files ino := by
    intro q ino hq hdir
    exact files_applyAll_of_not_touches fun c hc => h.frozen q ino hq hdir c (hmem c hc)
  constructor
  case ordered => exact List.Pairwise.nil
  case renames => exact fun p q ino hin => absurd hin List.not_mem_nil
  case creates => exact fun p ino hin => absurd hin List.not_mem_nil
  case removes => exact fun p hin => absurd hin List.not_mem_nil
  case once =>
    intro p p' ino hp hp' hb hb'
    exact h.once p p' ino hp hp' (hbound p ino hp hb) (hbound p' ino hp' hb')
  case source => exact fun p q ino hin => absurd hin List.not_mem_nil
  case apart =>
    intro q ino hq hdir p hp hb
    rcases dir_applyAll hdir with hold | hcreate | ⟨p', hrename⟩
    · exact h.apart q ino hq hold p hp (hbound p ino hp hb)
    · exact h.creates q ino (hmem _ hcreate) hq
    · -- the rename took the file away from where it was staged
      obtain rfl := h.source p' q ino (hmem _ hrename) p hp (hbound p ino hp hb)
      have hne : p ≠ q := by
        rintro rfl
        exact hp hq
      refine dir_applyAll_ne_of_renamed hrename hordered hne
        (fun p' i hin => hp (h.renames p' p i (hmem _ hin)).2) (hb.resolve_right List.not_mem_nil)
  case settled =>
    intro q ino hq hdir
    rcases dir_applyAll hdir with hold | hcreate | ⟨p', hrename⟩
    · rw [hfrozen q ino hq hold]
      exact h.settled q ino hq hold
    · exact absurd hq (h.creates q ino (hmem _ hcreate))
    · rw [hfiles p' q ino hrename]
      exact h.renamed p' q ino (hmem _ hrename)
  case frozen => exact fun q ino _ _ c hc => absurd hc List.not_mem_nil
  case renamed => exact fun p q ino hin => absurd hin List.not_mem_nil
  case dir_lt =>
    intro p ino hdir
    rcases dir_applyAll hdir with hold | hcreate | ⟨p', hrename⟩
    · exact h.dir_lt p ino hold
    · exact h.create_lt p ino (hmem _ hcreate)
    · exact h.rename_lt p' p ino (hmem _ hrename)
  case create_lt => exact fun p ino hin => absurd hin List.not_mem_nil
  case rename_lt => exact fun p q ino hin => absurd hin List.not_mem_nil
  case touches_lt => exact fun c hc => absurd hc List.not_mem_nil
  case fresh =>
    intro ino hle
    rw [files_applyAll_of_not_touches]
    · exact h.fresh ino hle
    · intro c hc
      apply Bool.eq_false_iff.mpr
      intro htouches
      exact absurd (h.touches_lt c (hmem c hc) ino htouches) (Nat.not_lt.mpr hle)

/-! ### Steps -/

/-- A change that follows the discipline. -/
structure Follows (final : π → Prop) (good : π → List α → Prop) (d : Disk π α)
    (cs : List (Change π α)) (next next' : ℕ) (c : Change π α) : Prop where
  /-- File numbers only grow. -/
  le : next ≤ next'
  /-- A new file is new, and not under a final name. -/
  create : ∀ p ino, c = .create p ino → ¬ final p ∧ ino = next ∧ next < next'
  /-- What is renamed is staged and complete, and gets a final name. -/
  rename : ∀ p q ino, c = .rename p q ino →
    ¬ final p ∧ final q ∧ (d.applyAll cs).dir p = some ino ∧ good q ((d.applyAll cs).files ino)
  /-- No final name is removed. -/
  remove : ∀ p, c = .remove p → ¬ final p
  /-- What is changed is staged. -/
  touches : ∀ ino, c.touches ino = true → ∃ p, ¬ final p ∧ (d.applyAll cs).dir p = some ino

omit [DecidableEq π] [Inhabited α] in
theorem bound_append : Bound d (cs ++ [c]) p ino ↔ Bound d cs p ino ∨ c = .create p ino := by
  rw [Bound, Bound, List.mem_append, List.mem_singleton, or_assoc, eq_comm (a := c)]

theorem bound_lt (h : Staged final good d cs next) (hb : Bound d cs p ino) : ino < next :=
  hb.elim (h.dir_lt p ino) (h.create_lt p ino)

/-- A change that follows the discipline keeps it. -/
theorem append {next' : ℕ} (h : Staged final good d cs next)
    (hc : Follows final good d cs next next' c) : Staged final good d (cs ++ [c]) next' := by
  have hstaged : ∀ {i}, c.touches i = true → ∃ p, ¬ final p ∧ (d.applyAll cs).dir p = some i :=
    fun {i} => hc.touches i
  -- a file that is created now is not bound yet
  have hnew : ∀ {p p' ino}, c = .create p ino → ¬ Bound d cs p' ino := by
    intro p p' ino hcreate hb
    have heq := (hc.create p ino hcreate).2.1
    have hlt := h.bound_lt hb
    omega
  constructor
  case ordered =>
    refine List.pairwise_append.mpr ⟨h.ordered, List.pairwise_singleton _ _, ?_⟩
    rintro c₀ hc₀ c' hc' p q ino rfl rfl
    have heq := (hc.create p ino (List.mem_singleton.mp hc').symm).2.1
    have hlt := h.rename_lt p q ino hc₀
    omega
  case renames =>
    intro p q ino hin
    rcases List.mem_append.mp hin with hold | hlast
    · exact h.renames p q ino hold
    · obtain ⟨hp, hq, -⟩ := hc.rename p q ino (List.mem_singleton.mp hlast).symm
      exact ⟨hp, hq⟩
  case creates =>
    intro p ino hin
    rcases List.mem_append.mp hin with hold | hlast
    · exact h.creates p ino hold
    · exact (hc.create p ino (List.mem_singleton.mp hlast).symm).1
  case removes =>
    intro p hin
    rcases List.mem_append.mp hin with hold | hlast
    · exact h.removes p hold
    · exact hc.remove p (List.mem_singleton.mp hlast).symm
  case once =>
    intro p p' ino hp hp' hb hb'
    rcases bound_append.mp hb with hb | hcreate <;> rcases bound_append.mp hb' with hb' | hcreate'
    · exact h.once p p' ino hp hp' hb hb'
    · exact absurd hb (hnew hcreate')
    · exact absurd hb' (hnew hcreate)
    · rw [hcreate] at hcreate'
      exact (Change.create.inj hcreate').1
  case source =>
    intro p q ino hin p' hp' hb
    rcases List.mem_append.mp hin with hold | hlast
    · rcases bound_append.mp hb with hb | hcreate
      · exact h.source p q ino hold p' hp' hb
      · have heq := (hc.create p' ino hcreate).2.1
        have hlt := h.rename_lt p q ino hold
        omega
    · have hrename := (List.mem_singleton.mp hlast).symm
      obtain ⟨hp, -, hdir, -⟩ := hc.rename p q ino hrename
      rcases bound_append.mp hb with hb | hcreate
      · exact h.once p' p ino hp' hp hb (h.bound hp hdir)
      · rw [hrename] at hcreate
        cases hcreate
  case apart =>
    intro q ino hq hdir p hp hb
    rcases bound_append.mp hb with hb | hcreate
    · exact h.apart q ino hq hdir p hp hb
    · exact @hnew p q ino hcreate (Or.inl hdir)
  case settled => exact h.settled
  case frozen =>
    intro q ino hq hdir c' hin
    rcases List.mem_append.mp hin with hold | hlast
    · exact h.frozen q ino hq hdir c' hold
    · rw [List.mem_singleton.mp hlast]
      apply Bool.eq_false_iff.mpr
      intro htouches
      obtain ⟨p, hp, hstage⟩ := hstaged htouches
      exact h.not_final hp hstage hq hdir
  case renamed =>
    intro p q ino hin
    rw [applyAll_append_singleton]
    rcases List.mem_append.mp hin with hold | hlast
    · rw [files_apply_of_not_touches]
      · exact h.renamed p q ino hold
      · apply Bool.eq_false_iff.mpr
        intro htouches
        obtain ⟨p', hp', hstage⟩ := hstaged htouches
        exact h.not_renamed hp' hstage p q hold
    · have hrename := (List.mem_singleton.mp hlast).symm
      obtain ⟨-, -, -, hgood⟩ := hc.rename p q ino hrename
      rw [hrename]
      exact hgood
  case dir_lt => exact fun p ino hdir => Nat.lt_of_lt_of_le (h.dir_lt p ino hdir) hc.le
  case create_lt =>
    intro p ino hin
    rcases List.mem_append.mp hin with hold | hlast
    · exact Nat.lt_of_lt_of_le (h.create_lt p ino hold) hc.le
    · obtain ⟨-, rfl, hlt⟩ := hc.create p ino (List.mem_singleton.mp hlast).symm
      exact hlt
  case rename_lt =>
    intro p q ino hin
    rcases List.mem_append.mp hin with hold | hlast
    · exact Nat.lt_of_lt_of_le (h.rename_lt p q ino hold) hc.le
    · obtain ⟨hp, -, hdir, -⟩ := hc.rename p q ino (List.mem_singleton.mp hlast).symm
      exact Nat.lt_of_lt_of_le (h.bound_lt (h.bound hp hdir)) hc.le
  case touches_lt =>
    intro c' hin ino htouches
    rcases List.mem_append.mp hin with hold | hlast
    · exact Nat.lt_of_lt_of_le (h.touches_lt c' hold ino htouches) hc.le
    · rw [List.mem_singleton.mp hlast] at htouches
      obtain ⟨p, hp, hstage⟩ := hstaged htouches
      exact Nat.lt_of_lt_of_le (h.bound_lt (h.bound hp hstage)) hc.le
  case fresh => exact fun ino hle => h.fresh ino (Nat.le_trans hc.le hle)

/-- A new file is staged. -/
theorem create (h : Staged final good d cs next) (hp : ¬ final p) :
    Staged final good d (cs ++ [.create p next]) (next + 1) :=
  h.append
    { le := Nat.le_succ next
      create := fun _ _ heq => by
        cases heq
        exact ⟨hp, rfl, Nat.lt_succ_self next⟩
      rename := fun _ _ _ heq => by cases heq
      remove := fun _ heq => by cases heq
      touches := fun _ htouches => absurd htouches Bool.false_ne_true }

/-- A staged file loses its contents. -/
theorem truncate (h : Staged final good d cs next) (hp : ¬ final p)
    (hdir : (d.applyAll cs).dir p = some ino) :
    Staged final good d (cs ++ [.truncate ino]) next :=
  h.append
    { le := Nat.le_refl next
      create := fun _ _ heq => by cases heq
      rename := fun _ _ _ heq => by cases heq
      remove := fun _ heq => by cases heq
      touches := fun _ htouches => ⟨p, hp, of_decide_eq_true htouches ▸ hdir⟩ }

/-- Bytes are written into a staged file. -/
theorem write (h : Staged final good d cs next) (hp : ¬ final p)
    (hdir : (d.applyAll cs).dir p = some ino) (offset : ℕ) (bytes : List α) :
    Staged final good d (cs ++ [.write ino offset bytes]) next :=
  h.append
    { le := Nat.le_refl next
      create := fun _ _ heq => by cases heq
      rename := fun _ _ _ heq => by cases heq
      remove := fun _ heq => by cases heq
      touches := fun _ htouches => ⟨p, hp, of_decide_eq_true htouches ▸ hdir⟩ }

/-- A complete file gets its final name. -/
theorem rename (h : Staged final good d cs next) (hp : ¬ final p) (hq : final q)
    (hdir : (d.applyAll cs).dir p = some ino) (hgood : good q ((d.applyAll cs).files ino)) :
    Staged final good d (cs ++ [.rename p q ino]) next :=
  h.append
    { le := Nat.le_refl next
      create := fun _ _ heq => by cases heq
      rename := fun _ _ _ heq => by
        cases heq
        exact ⟨hp, hq, hdir, hgood⟩
      remove := fun _ heq => by cases heq
      touches := fun _ htouches => absurd htouches Bool.false_ne_true }

/-- A name that is not final is removed. -/
theorem remove (h : Staged final good d cs next) (hp : ¬ final p) :
    Staged final good d (cs ++ [.remove p]) next :=
  h.append
    { le := Nat.le_refl next
      create := fun _ _ heq => by cases heq
      rename := fun _ _ _ heq => by cases heq
      remove := fun _ heq => by
        cases heq
        exact hp
      touches := fun _ htouches => absurd htouches Bool.false_ne_true }

end Staged

end Disk
