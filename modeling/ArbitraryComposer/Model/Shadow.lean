import ArbitraryComposer.Model.Chunks
import ArbitraryComposer.Model.NextId
import ArbitraryComposer.Model.Undo

/-!
# Shadows of a Run

Something kept beside every map of a run: a plainer description of the map, edited by the same
calls, published with it, and taken back and restored by undo and redo. What a single call does to
both is carried through whole runs that keep their history exact.

## Main definitions

- `Shadowing`: the shadow of the empty map, and what a mutator does to a shadow.
- `Shadowing.machine`: runs with shadows.
- `Careful`: a condition on mutators, as one on events.

## Main results

- `Model.nextId_le`: the next id never goes back.
- `Shadowing.fits`: what the careful mutators keep holds in every run of them.
-/

namespace ArbitraryComposer

open Exec

namespace Model

variable {s s' : Model}

/-- What a mutator call does, in a step of the machine. -/
theorem mutated_of_step {t i : ℕ} {mu : Mutator} (h : s.Inv)
    (hs : docModel.step (.mutate t i mu) s = some s') : Mutated i mu s s' :=
  of_wp_state (P := Mutated i mu s)
    (wp_imp (mutate_spec h) (fun _ _ hs => hs.2) fun _ _ hs => hs.2) hs

/-- What a baseline does, in a step of the machine. -/
theorem loaded_of_step {t : ℕ} {ms : List Mutator} (h : s.Inv)
    (hs : docModel.step (.loadBaseline t ms) s = some s') : Loaded ms s s' :=
  of_wp_state (P := Loaded ms s)
    (wp_imp (loadBaseline_spec h) (fun _ _ hs => hs.2) fun _ _ hs => hs.2.1) hs

/-- The next id never goes back. -/
theorem nextId_le {e : ModelEvent} (h : s.Inv) (hs : docModel.step e s = some s') :
    s.nextId.toNat ≤ s'.nextId.toNat := by
  have keeps : ∀ {x : ModelExec Unit}, Keeps Model.nextId x → (x.run s).state? = some s' →
      s.nextId.toNat ≤ s'.nextId.toNat := fun hx hs => by rw [hx s s' hs]
  cases e with
  | transact => exact keeps keeps_beginTransaction hs
  | mutate t i mu => exact (mutated_of_step h hs).1
  | coalesce i key => exact keeps (keeps_setCoalesceKey i key) hs
  | commit i => exact keeps (keeps_commit i) hs
  | abort i => exact keeps (keeps_abortTransaction i) hs
  | destroy i => exact keeps (keeps_destroyTransaction i) hs
  | undo t => exact keeps (keeps_undo t) hs
  | redo t => exact keeps (keeps_redo t) hs
  | setByteBudget bytes => exact keeps (keeps_updateJournal _) hs
  | loadBaseline t ms => exact (loaded_of_step h hs).1
  | pin =>
    have hpin : Keeps Model.nextId pin := keeps_modify fun _ => rfl
    exact keeps hpin hs
  | unpin v => exact keeps (keeps_unpin v) hs
  | allocateId =>
    refine of_wp_state (P := fun s' : Model => s.nextId.toNat ≤ s'.nextId.toNat) (F := fun _ => True)
      ?_ hs
    simp only [exec, wp_bind, ArbitraryComposer.allocateId, wp_zoom]
    have hok : (⟨s.arena, s.nextId, none, [], []⟩ : Working).Ok s.heldRefs :=
      ⟨by have := h.owned; simpa using this, isMap_none⟩
    refine wp_mono (takeId_spec 0 hok) (fun id w hw => ?_) (fun _ _ hE => hE) fun _ _ => trivial
    exact hw.1.2.nextId_le
  | drain t => exact keeps (keeps_onHeap _) hs

end Model

/-! ## Shadows -/

/-- How a shadow follows a map. -/
structure Shadowing (σ : Type) where
  /-- The shadow of the empty map. -/
  empty : σ
  /-- What a mutator does to a shadow; it may look at the map and the next id before. -/
  edit : Mutator → DocMap → ObjectId → σ → σ

/-- The shadows of a model. -/
structure Shadows (σ : Type) where
  /-- Of the current map. -/
  current : σ
  /-- Of the drafts. -/
  drafts : List σ
  /-- Of the maps around each journal entry. -/
  trail : List (σ × σ)
  /-- The maps published, newest first, each with its shadow. -/
  published : List (DocMap × σ)

namespace Shadowing

variable {σ : Type} (S : Shadowing σ)

/-- What the mutators of a baseline do to a shadow. -/
def editAll : List Mutator → DocMap → ObjectId → σ → σ
  | [], _, _, x => x
  | mu :: ms, m, n, x =>
    match mu.script.exec 0 m n with
    | some (_, m', n') => editAll ms m' n' (S.edit mu m n x)
    | none => x

/-- The shadows after an event, but for the list of publications. -/
def follow (e : ModelEvent) (s s' : Session) (n : ObjectId) (k : Shadows σ) : Shadows σ :=
  match e with
  | .transact =>
    if s'.drafts.length = s.drafts.length then k
    else { k with drafts := k.drafts ++ [k.current] }
  | .mutate _ i mu =>
    match s.draft? i with
    | some d => { k with drafts := k.drafts.modify i (S.edit mu d.map n) }
    | none => k
  | .commit i =>
    match s.draft? i, k.drafts[i]? with
    | some d, some x =>
      if s'.current = s.current then k
      else { k with
        current := x
        trail :=
          if s.journaled then
            s.journal.annotate d.entry (fun a => (a.1, x)) (k.current, x) k.trail
          else k.trail }
    | _, _ => k
  | .undo _ =>
    if s'.current = s.current then k
    else { k with current := (k.trail[s'.journal.cursor]?.map Prod.fst).getD k.current }
  | .redo _ =>
    if s'.current = s.current then k
    else { k with current := (k.trail[s.journal.cursor]?.map Prod.snd).getD k.current }
  | .setByteBudget _ =>
    { k with trail := k.trail.drop (s.journal.entries.length - s'.journal.entries.length) }
  | .loadBaseline _ ms =>
    if s'.current = s.current then k
    else { k with current := S.editAll ms s.map n k.current }
  | _ => k

/-- The shadows after an event. -/
def next (e : ModelEvent) (s s' : Session) (n : ObjectId) (k : Shadows σ) : Shadows σ :=
  let k' := S.follow e s s' n k
  if s'.current = s.current then k'
  else { k' with published := (s'.map, k'.current) :: k'.published }

/-- The model with the shadows of its run. -/
def machine : Machine ((Model × Trail) × Shadows σ) ModelEvent :=
  undoModel.observe (fun _ => ⟨S.empty, [], [], []⟩) fun e p p' =>
    S.next e p.1.session p'.1.session p.1.nextId

end Shadowing

/-- A condition on the mutators of a baseline, each on the map the ones before it leave. -/
def CarefulAll (careful : Mutator → DocMap → ObjectId → Prop) :
    List Mutator → DocMap → ObjectId → Prop
  | [], _, _ => True
  | mu :: ms, m, n => careful mu m n ∧ ∀ r ∈ mu.script.exec 0 m n, CarefulAll careful ms r.2.1 r.2.2

/-- A condition on mutators, as one on events: it is asked of the edits that a commit could still
publish, and the history is kept exact. -/
def Careful (careful : Mutator → DocMap → ObjectId → Prop) (e : ModelEvent) (s : Model) : Prop :=
  s.session.KeepsHistory e ∧
  match e with
  | .mutate _ i mu => ∀ d ∈ s.session.draft? i, d.Pending → careful mu d.map s.nextId
  | .loadBaseline _ ms => CarefulAll careful ms s.session.map s.nextId
  | _ => True

section

variable {careful : Mutator → DocMap → ObjectId → Prop} [∀ mu m n, Decidable (careful mu m n)]

instance decidableCarefulAll : ∀ (ms : List Mutator) (m : DocMap) (n : ObjectId),
    Decidable (CarefulAll careful ms m n)
  | [], _, _ => .isTrue trivial
  | mu :: ms, m, n =>
    match hr : mu.script.exec 0 m n with
    | none => decidable_of_iff (careful mu m n) (by simp [CarefulAll, hr])
    | some r =>
      have := decidableCarefulAll ms r.2.1 r.2.2
      decidable_of_iff (careful mu m n ∧ CarefulAll careful ms r.2.1 r.2.2)
        (by simp [CarefulAll, hr])

instance (e : ModelEvent) (s : Model) : Decidable (Careful careful e s) := by
  unfold Careful
  rcases e with ⟨⟩ <;> infer_instance

end

/-! ## Runs -/

section

variable {σ : Type} {S : Shadowing σ} {Fits : DocMap → σ → Prop}
  {careful : Mutator → DocMap → ObjectId → Prop} {s s' : Session} {n n' : ObjectId}
  {trail : Trail} {k : Shadows σ}

/-- A relation between map and shadow that the careful mutators keep. -/
structure Shadowing.Follows (S : Shadowing σ) (Fits : DocMap → σ → Prop)
    (careful : Mutator → DocMap → ObjectId → Prop) : Prop where
  /-- The shadow of the empty map fits. -/
  empty : Fits (fun _ => none) S.empty
  /-- A mutator that is not refused leaves a map that the edited shadow fits. -/
  edit : ∀ {mu : Mutator} {m : DocMap} {n : ObjectId} {x : σ} (stamp : ℕ), Fits m x → m.Filed n →
    careful mu m n →
      mu.script.Ensures stamp (fun _ m' n' => Fits m' (S.edit mu m n x) ∧ m'.Filed n') m n

/-- The mutators of a baseline leave a map that the shadow they edit fits. -/
theorem Shadowing.Follows.ensures_sequence (hS : S.Follows Fits careful) {ms : List Mutator}
    {m : DocMap} {x : σ} (hx : Fits m x) (hm : m.Filed n) (hc : CarefulAll careful ms m n) :
    (Script.sequence ms).Ensures 0 (fun _ m' n' => Fits m' (S.editAll ms m n x) ∧ m'.Filed n')
      m n := by
  induction ms generalizing m n x with
  | nil => exact ⟨hx, hm⟩
  | cons mu ms ih =>
    rw [Script.sequence, Script.ensures_bind]
    refine ((hS.edit 0 hx hm hc.1).and (Script.ensures_exec _ m n)).mono fun a m' n' h => ?_
    obtain ⟨⟨hx', hm'⟩, hexec⟩ := h
    rw [editAll, hexec]
    exact ih hx' hm' (hc.2 _ hexec)

/-- Every map in sight has a shadow that fits. -/
structure Beside (Fits : DocMap → σ → Prop) (s : Session) (n : ObjectId) (trail : Trail)
    (k : Shadows σ) : Prop where
  /-- The current map. -/
  current : Fits s.map k.current ∧ s.map.Filed n
  /-- There is a shadow for each draft. -/
  length_eq : k.drafts.length = s.drafts.length
  /-- The drafts that can still be published. -/
  draft : ∀ i d x, s.draft? i = some d → k.drafts[i]? = some x → d.Pending →
    Fits d.map x ∧ d.map.Filed n
  /-- The maps around each entry. -/
  around : List.Forall₂ (fun a b => (Fits a.1 b.1 ∧ a.1.Filed n) ∧ Fits a.2 b.2 ∧ a.2.Filed n)
    trail k.trail
  /-- The maps published. -/
  published : ∀ v ∈ k.published, Fits v.1 v.2

/-- Related lists have related elements. -/
private theorem getElem?_of_forall₂ {α β : Type} {R : α → β → Prop} {l : List α} {l' : List β}
    (h : List.Forall₂ R l l') {i : ℕ} {a : α} (ha : l[i]? = some a) :
    ∃ b, l'[i]? = some b ∧ R a b := by
  have hlt := (List.getElem?_eq_some_iff.mp ha).1
  have hlt' : i < l'.length := h.length_eq ▸ hlt
  refine ⟨l'[i], List.getElem?_eq_getElem hlt', ?_⟩
  obtain rfl : l[i] = a := (List.getElem?_eq_some_iff.mp ha).2
  exact h.get hlt hlt'

namespace Beside

theorem mono (h : Beside Fits s n trail k) (hle : n.toNat ≤ n'.toNat) :
    Beside Fits s n' trail k where
  current := ⟨h.current.1, h.current.2.mono hle⟩
  length_eq := h.length_eq
  draft i d x hd hx hp := ⟨(h.draft i d x hd hx hp).1, (h.draft i d x hd hx hp).2.mono hle⟩
  around := h.around.imp fun _ _ hab =>
    ⟨⟨hab.1.1, hab.1.2.mono hle⟩, hab.2.1, hab.2.2.mono hle⟩
  published := h.published

/-- A draft is replaced by one that cannot be published, or has the same map. -/
theorem setDraft {i : ℕ} {o : Option Draft} (h : Beside Fits s n trail k)
    (ho : ∀ d' ∈ o, d'.Pending → ∃ d, s.draft? i = some d ∧ d.Pending ∧ d'.map = d.map) :
    Beside Fits (s.setDraft i o) n trail k where
  current := h.current
  length_eq := by rw [h.length_eq, Session.setDraft, List.length_set]
  draft j d' x hd' hx hp := by
    rcases Session.draft?_setDraft hd' with ⟨rfl, rfl⟩ | ⟨-, hd'⟩
    · obtain ⟨d, hd, hpd, hmap⟩ := ho d' rfl hp
      rw [hmap]
      exact h.draft j d x hd hx hpd
    · exact h.draft j d' x hd' hx hp
  around := h.around
  published := h.published

/-- A map is published, with its shadow. -/
theorem publish {revision cursor : ℕ} {map : DocMap} {x : σ} (h : Beside Fits s n trail k)
    (hx : Fits map x ∧ map.Filed n) :
    Beside Fits { s.publish revision map with
      journal := { s.journal with cursor := cursor } } n trail { k with current := x } where
  current := hx
  length_eq := h.length_eq
  draft := h.draft
  around := h.around
  published := h.published

/-- A draft is published and journaled. -/
theorem commit {i : ℕ} {d : Draft} {x : σ} (h : Beside Fits s n trail k)
    (hd : s.draft? i = some d) (hx : k.drafts[i]? = some x) (hp : d.Pending) :
    Beside Fits (s.commit i d) n (Session.trail (.commit i) s (s.commit i d) trail)
      { k with
        current := x
        trail :=
          if s.journaled then
            s.journal.annotate d.entry (fun a => (a.1, x)) (k.current, x) k.trail
          else k.trail } := by
  have hmap := h.draft i d x hd hx hp
  have hclosed : Beside Fits (s.setDraft i (some (Session.close d))) n trail k :=
    h.setDraft fun d' hd' hp' => by
      cases hd'
      exact absurd hp'.1 Bool.false_ne_true
  refine ⟨hmap, hclosed.length_eq, hclosed.draft, ?_, h.published⟩
  have hne : (s.commit i d).current ≠ s.current := Nat.succ_ne_self _
  rw [Session.trail, hd]
  cases hj : s.journaled with
  | true =>
    simp only [true_and, if_pos hne, if_true]
    exact s.journal.forall₂_annotate d.entry h.around ⟨h.current, hmap⟩
      fun a b hab => ⟨hab.1, hmap⟩
  | false =>
    simp only [Bool.false_eq_true, false_and, if_false]
    exact h.around

/-- A new draft starts with the current map and its shadow. -/
private theorem transact (h : Beside Fits s n trail k) :
    Beside Fits { s with drafts := s.drafts ++ [some s.fork] } n trail
      { k with drafts := k.drafts ++ [k.current] } where
  current := h.current
  length_eq := by simp [h.length_eq]
  draft i d x hd hx hp := by
    rw [Session.draft?] at hd
    rcases Nat.lt_or_ge i s.drafts.length with hlt | hge
    · rw [List.getElem?_append_left hlt] at hd
      rw [List.getElem?_append_left (h.length_eq ▸ hlt)] at hx
      exact h.draft i d x hd hx hp
    · rw [List.getElem?_append_right hge] at hd
      rw [List.getElem?_append_right (h.length_eq ▸ hge), h.length_eq] at hx
      obtain hi | hi := Nat.eq_zero_or_pos (i - s.drafts.length)
      · rw [hi] at hd hx
        cases hd
        cases hx
        exact h.current
      · rw [List.getElem?_eq_none (Nat.succ_le_of_lt hi)] at hd
        cases hd
  around := h.around
  published := h.published

/-- Any event but a mutator or a baseline. -/
private theorem follow_of_step {e : ModelEvent} (h : Beside Fits s n trail k)
    (hexact : s.Exact trail) (hstep : Session.Step e s s') (hmutate : ∀ t i mu, e ≠ .mutate t i mu)
    (hload : ∀ t ms, e ≠ .loadBaseline t ms) :
    Beside Fits s' n (Session.trail e s s' trail) (S.follow e s s' n k) := by
  cases hstep with
  | stay =>
    have hfollow : S.follow e s s n k = k := by
      cases e with
      | mutate t i mu => exact absurd rfl (hmutate t i mu)
      | commit i =>
        simp only [Shadowing.follow, if_true]
        split <;> rfl
      | setByteBudget bytes => rw [Shadowing.follow, Nat.sub_self, List.drop_zero]
      | transact => exact if_pos rfl
      | undo t => exact if_pos rfl
      | redo t => exact if_pos rfl
      | loadBaseline t ms => exact if_pos rfl
      | _ => rfl
    rw [Session.trail_self, hfollow]
    exact h
  | transact =>
    have hfollow : S.follow .transact s { s with drafts := s.drafts ++ [some s.fork] } n k =
        { k with drafts := k.drafts ++ [k.current] } := if_neg (by simp)
    rw [hfollow]
    exact h.transact
  | mutate => exact absurd rfl (hmutate _ _ _)
  | @coalesce _ i d key hd =>
    refine h.setDraft fun d' hd' hp => ?_
    cases hd'
    exact ⟨d, hd, hp, rfl⟩
  | @fail _ i d err hd =>
    have htrail : Session.trail (.commit i) s (s.setDraft i (some { d with status := some err }))
        trail = trail := by
      rw [Session.trail, hd]
      exact if_neg fun hc => hc.2 rfl
    have hfollow : S.follow (.commit i) s (s.setDraft i (some { d with status := some err })) n k =
        k := by
      simp only [Shadowing.follow, hd]
      split
      · exact if_pos rfl
      · rfl
    rw [htrail, hfollow]
    refine h.setDraft fun d' hd' hp => ?_
    cases hd'
    exact absurd hp.2 (by simp)
  | @commit _ i d hd hp =>
    have hlt : i < k.drafts.length := by
      rw [h.length_eq]
      rw [Session.draft?, Option.join_eq_some_iff] at hd
      exact (List.getElem?_eq_some_iff.mp hd).1
    have hx := List.getElem?_eq_getElem hlt
    have hne : (s.commit i d).current ≠ s.current := Nat.succ_ne_self _
    simp only [Shadowing.follow, hd, hx, if_neg hne]
    exact h.commit hd hx hp
  | @abort _ i d hd =>
    refine h.setDraft fun d' hd' hp => ?_
    cases hd'
    exact absurd hp.1 Bool.false_ne_true
  | destroy hd =>
    refine h.setDraft fun d' hd' _ => ?_
    cases hd'
  | @undo _ t c stored hc he =>
    have hne : (s.navigate stored.entry.befores c).current ≠ s.current := Nat.succ_ne_self _
    obtain ⟨c', a, hc', ha, -, hmap, -⟩ := hexact.of_undo (.undo (t := t) stored hc he) hne
    obtain rfl : c = c' := by omega
    obtain ⟨b, hb, hab⟩ := getElem?_of_forall₂ h.around ha
    simp only [Shadowing.follow, if_neg hne]
    rw [show (s.navigate stored.entry.befores c).journal.cursor = c from rfl, hb]
    exact h.publish (by rw [show rebindAll s.map _ = a.1 from hmap]; exact hab.1)
  | @redo _ t stored he =>
    have hne : (s.navigate stored.entry.afters (s.journal.cursor + 1)).current ≠ s.current :=
      Nat.succ_ne_self _
    obtain ⟨a, ha, -, hmap, -⟩ := hexact.of_redo (.redo (t := t) stored he) hne
    obtain ⟨b, hb, hab⟩ := getElem?_of_forall₂ h.around ha
    simp only [Shadowing.follow, if_neg hne, hb]
    exact h.publish (by rw [show rebindAll s.map _ = a.2 from hmap]; exact hab.2)
  | setByteBudget _ bytes =>
    exact ⟨h.current, h.length_eq, h.draft, List.forall₂_drop _ h.around, h.published⟩
  | loadBaseline => exact absurd rfl (hload _ _)

/-- A mutator edits a draft and its shadow. -/
private theorem mutate (hS : S.Follows Fits careful) {s s' : Model} {t i : ℕ} {mu : Mutator}
    (h : Beside Fits s.session s.nextId trail k) (ha : Careful careful (.mutate t i mu) s)
    (hmut : Model.Mutated i mu s s') (hstep : Session.Step (.mutate t i mu) s.session s'.session) :
    Beside Fits s'.session s'.nextId trail
      (S.follow (.mutate t i mu) s.session s'.session s.nextId k) := by
  obtain ⟨hle, hmut⟩ := hmut
  cases hd : s.session.draft? i with
  | none =>
    have hstay : s'.session = s.session := by
      generalize hs : s.session = a at hstep hd
      generalize hs' : s'.session = b at hstep
      cases hstep with
      | stay => rfl
      | mutate hd' => exact absurd (hd.symm.trans hd') (by simp)
    rw [hstay, Shadowing.follow, hd]
    exact h.mono hle
  | some d =>
    rw [Shadowing.follow, hd]
    have hother : ∀ j ≠ i, (k.drafts.modify i (S.edit mu d.map s.nextId))[j]? = k.drafts[j]? :=
      fun j hj => List.getElem?_modify_ne _ _ (Ne.symm hj)
    by_cases hstatus : d.status = none
    · obtain ⟨d', hs', hedit, hens⟩ := hmut d hd hstatus
      rw [hs']
      refine ⟨(h.mono hle).current, ?_, fun j d'' x hd'' hx hp => ?_, (h.mono hle).around,
        h.published⟩
      · rw [List.length_modify, h.length_eq, Session.setDraft, List.length_set]
      · rcases Session.draft?_setDraft hd'' with ⟨rfl, heq⟩ | ⟨hj, hd''⟩
        · cases heq
          -- only a draft that was pending before is pending now
          have hpd : d.Pending := ⟨hedit.isOpen_eq ▸ hp.1, hstatus⟩
          rw [List.getElem?_modify_eq] at hx
          obtain ⟨y, hy, rfl⟩ := Option.map_eq_some_iff.mp hx
          obtain ⟨hfit, hfiled⟩ := h.draft j d y hd hy hpd
          obtain ⟨_, hend⟩ := hens hp.2
          exact hend _ (hS.edit _ hfit hfiled (ha.2 d hd hpd))
        · rw [hother j hj] at hx
          exact (h.mono hle).draft j d'' x hd'' hx hp
    · have hstay : s'.session = s.session := by
        generalize hs : s.session = a at hstep hd
        generalize hs' : s'.session = b at hstep
        cases hstep with
        | stay => rfl
        | mutate hd' hedit =>
          cases hd.symm.trans hd'
          exact absurd hedit.status_eq hstatus
      rw [hstay]
      refine ⟨(h.mono hle).current, ?_, fun j d'' x hd'' hx hp => ?_, (h.mono hle).around,
        h.published⟩
      · rw [List.length_modify]
        exact h.length_eq
      · by_cases hj : j = i
        · subst hj
          cases hd.symm.trans hd''
          exact absurd hp.2 hstatus
        · rw [hother j hj] at hx
          exact (h.mono hle).draft j d'' x hd'' hx hp

/-- A baseline is published. -/
private theorem loadBaseline (hS : S.Follows Fits careful) {s s' : Model} {t : ℕ}
    {ms : List Mutator} (h : Beside Fits s.session s.nextId trail k)
    (ha : Careful careful (.loadBaseline t ms) s) (hload : Model.Loaded ms s s') :
    Beside Fits s'.session s'.nextId trail
      (S.follow (.loadBaseline t ms) s.session s'.session s.nextId k) := by
  obtain ⟨hle, hstay | ⟨m, hpublish, hend⟩⟩ := hload
  · rw [hstay, Shadowing.follow, if_pos rfl]
    exact h.mono hle
  · have hne : s'.session.current ≠ s.session.current := by
      rw [hpublish]
      exact Nat.succ_ne_self _
    rw [Shadowing.follow, if_neg hne, hpublish]
    refine ⟨hend _ (hS.ensures_sequence h.current.1 h.current.2 ha.2), h.length_eq,
      (h.mono hle).draft, (h.mono hle).around, h.published⟩

/-- Every careful event. -/
theorem next (hS : S.Follows Fits careful) {s s' : Model} {e : ModelEvent}
    (h : Beside Fits s.session s.nextId trail k) (hinv : s.Inv) (hexact : s.session.Exact trail)
    (ha : Careful careful e s) (hs : docModel.step e s = some s') :
    Beside Fits s'.session s'.nextId (Session.trail e s.session s'.session trail)
      (S.next e s.session s'.session s.nextId k) := by
  have hstep := (Model.step_spec hinv hs).2
  have hfollow : Beside Fits s'.session s'.nextId (Session.trail e s.session s'.session trail)
      (S.follow e s.session s'.session s.nextId k) := by
    cases e with
    | mutate t i mu => exact h.mutate hS ha (Model.mutated_of_step hinv hs) hstep
    | loadBaseline t ms => exact h.loadBaseline hS ha (Model.loaded_of_step hinv hs)
    | _ =>
      exact (h.follow_of_step hexact hstep (by simp) (by simp)).mono (Model.nextId_le hinv hs)
  unfold Shadowing.next
  split
  · exact hfollow
  · refine ⟨hfollow.current, hfollow.length_eq, hfollow.draft, hfollow.around, fun v hv => ?_⟩
    rcases List.mem_cons.mp hv with rfl | hv
    · exact hfollow.current.1
    · exact hfollow.published v hv

end Beside

/-- The invariant of the model holds in every run with shadows. -/
theorem Shadowing.reachable_inv {allowed : ModelEvent → (Model × Trail) × Shadows σ → Prop}
    {p : (Model × Trail) × Shadows σ} (h : S.machine.Reachable allowed p) : p.1.1.Inv := by
  refine h.invariant (I := fun p => p.1.1.Inv) (fun p hp => hp.1.1.inv) fun p e p' hinv _ hs => ?_
  have hs := (Machine.observe_step_eq_some.mp (Machine.observe_step_eq_some.mp hs).1).1
  exact (Model.step_spec hinv hs).1

/-- A relation that the careful mutators keep holds in every run of careful events: of the current
map and its shadow, and of every map published. -/
theorem Shadowing.Follows.fits (hS : S.Follows Fits careful) {p : (Model × Trail) × Shadows σ}
    (h : S.machine.Reachable (fun e p => Careful careful e p.1.1) p) :
    p.1.1.Inv ∧ Beside Fits p.1.1.session p.1.1.nextId p.1.2 p.2 := by
  have hI : p.1.1.Inv ∧ p.1.1.session.Wf ∧ p.1.1.session.Exact p.1.2 ∧
      Beside Fits p.1.1.session p.1.1.nextId p.1.2 p.2 := by
    refine h.invariant (I := fun p => p.1.1.Inv ∧ p.1.1.session.Wf ∧ p.1.1.session.Exact p.1.2 ∧
      Beside Fits p.1.1.session p.1.1.nextId p.1.2 p.2) ?_ ?_
    · rintro ⟨⟨s, trail⟩, k⟩ ⟨⟨hs, htrail⟩, hk⟩
      obtain rfl : trail = [] := htrail
      obtain rfl : k = ⟨S.empty, [], [], []⟩ := hk
      refine ⟨hs.inv, ?_, Session.Exact.of_isStart hs, ?_⟩
      · obtain ⟨_, _, _, _, _, _, _, -, rfl⟩ := hs
        refine ⟨?_, ?_, ?_⟩ <;> intro d hd <;> cases hd
      · obtain ⟨_, _, _, _, _, _, _, -, rfl⟩ := hs
        refine ⟨⟨hS.empty, Nat.one_pos, ?_, ?_⟩, rfl, ?_, .nil, by simp⟩
        · rintro k r ⟨⟩
        · rintro k r ⟨⟩
        · intro i d x hd
          cases hd
    · rintro ⟨⟨s, trail⟩, k⟩ e ⟨⟨s', trail'⟩, k'⟩ ⟨hinv, hwf, hexact, hbeside⟩ ha hstep
      obtain ⟨hstep, hk⟩ := Machine.observe_step_eq_some.mp hstep
      obtain ⟨hstep, htrail⟩ := Machine.observe_step_eq_some.mp hstep
      obtain rfl : trail' = Session.trail e s.session s'.session trail := htrail
      obtain rfl : k' = S.next e s.session s'.session s.nextId k := hk
      obtain ⟨hinv', hsession⟩ := Model.step_spec hinv hstep
      exact ⟨hinv', hsession.wf hwf, hexact.step hwf ha.1 hsession,
        hbeside.next hS hinv hexact ha hstep⟩
  exact ⟨hI.1, hI.2.2.2⟩

end

end ArbitraryComposer
