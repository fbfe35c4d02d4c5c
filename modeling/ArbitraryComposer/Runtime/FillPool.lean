import ArbitraryComposer.Runtime.LookaheadPump

/-!
# The Workers of the Lookahead Pump

Where contributors settle their fills before their renders return, every fill that is not settled
waits in a queue or is being rendered, a fill is parked only at a gate that somebody holds, and a
pool with a fill somewhere can go on. Every step of a thread and every settlement is work done.

## Main definitions

- `FillPool.Sound`: the invariant of the pool.
- `FillPool.work`: the steps it has left.

## Main results

- `FillPool.Sound.submit`, `.threadStep`, `.settle`: the pool stays sound.
- `FillPool.work_threadStep`, `work_settle`, `work_submit`: the work of a step.
- `FillPool.Sound.moves`: a pool that is not quiet can go on.
-/

namespace ArbitraryComposer

namespace FillPool

variable {P P' : FillPool} {f w : ℕ}

/-- A fill whose completion is not settled. -/
def Unsettled (P : FillPool) (f : ℕ) : Prop :=
  ∃ fill, P.fills[f]? = some fill ∧ fill.settled = false

/-- What is not settled. -/
theorem settled_eq_false_iff : P.settled f = false ↔ P.Unsettled f := by
  rw [settled, Unsettled]
  cases P.fills[f]? with
  | none => simp
  | some fill => simp

/-- What one step of a thread can do. -/
theorem threadStep_cases (h : P.threadStep w = some P') :
    (∃ f ready, P.threads[w]? = some .idle ∧ P.ready = f :: ready ∧
      P' = { P with ready := ready, threads := P.threads.set w (.rendering f) }) ∨
    (∃ f, P.threads[w]? = some (.rendering f) ∧ P.settled f = true ∧
      P' = { P with threads := P.threads.set w (.poking f) }) ∨
    (∃ f, P.threads[w]? = some (.rendering f) ∧ P.settled f = false ∧
      P' = { P with threads := P.threads.set w (.releasing f), detached := f :: P.detached }) ∨
    (∃ f, P.threads[w]? = some (.poking f) ∧
      P' = { P.poke with threads := P.threads.set w (.releasing f) }) ∨
    ∃ f, P.threads[w]? = some (.releasing f) ∧
      P' = { P.release f with threads := P.threads.set w .idle } := by
  rw [threadStep] at h
  split at h
  · cases h
  · split at h
    · cases h
    · rename_i hidle _ f ready hready
      split at h
      · cases h
      · exact .inl ⟨f, ready, hidle, hready, (Option.some.inj h).symm⟩
  · rename_i f hrendering
    split at h
    case isTrue hsettled =>
      exact .inr (.inl ⟨f, hrendering, hsettled, (Option.some.inj h).symm⟩)
    case isFalse hsettled =>
      exact .inr (.inr (.inl ⟨f, hrendering, Bool.eq_false_iff.mpr hsettled,
        (Option.some.inj h).symm⟩))
  · rename_i f hpoking
    exact .inr (.inr (.inr (.inl ⟨f, hpoking, (Option.some.inj h).symm⟩)))
  · rename_i f hreleasing
    exact .inr (.inr (.inr (.inr ⟨f, hreleasing, (Option.some.inj h).symm⟩)))

/-- What the end of a fill does to its gate. -/
theorem release_cases (P : FillPool) (f : ℕ) :
    (P.gate f = none ∧ P.release f = P) ∨
    (∃ c next, P.gate f = some c ∧ P.parked.find? (fun g => P.gate g = some c) = some next ∧
      P.release f = { P with
        ready := P.ready ++ [next]
        parked := P.parked.eraseP fun g => P.gate g = some c }) ∨
    ∃ c, P.gate f = some c ∧ P.parked.find? (fun g => P.gate g = some c) = none ∧
      P.release f = { P with active := fun c' => if c' = c then false else P.active c' } := by
  cases hgate : P.gate f with
  | none => exact .inl ⟨rfl, by rw [release, hgate]⟩
  | some c =>
    cases hfind : P.parked.find? fun g => P.gate g = some c with
    | some next =>
      refine .inr (.inl ⟨c, next, rfl, hfind, ?_⟩)
      rw [release, hgate]
      simp only [hfind]
    | none =>
      refine .inr (.inr ⟨c, rfl, hfind, ?_⟩)
      rw [release, hgate]
      simp only [hfind]

/-- What settling a fill does. -/
theorem settle_cases (h : P.settle f = some P') :
    ∃ fill, P.fills[f]? = some fill ∧ fill.settled = false ∧
      (.rendering f ∈ P.threads ∨ f ∈ P.detached) ∧
      P' = { P with fills := P.fills.set f { fill with settled := true } } := by
  rw [settle] at h
  split at h
  · rename_i fill hfill
    split at h
    case isTrue hcan => exact ⟨fill, hfill, hcan.2, hcan.1, (Option.some.inj h).symm⟩
    case isFalse => cases h
  · cases h

/-- A fill passes its gate, waits at it, or takes it. -/
theorem enqueue_cases (P : FillPool) (f : ℕ) :
    (P.gate f = none ∧ P.enqueue f = { P with ready := P.ready ++ [f] }) ∨
    (∃ c, P.gate f = some c ∧ P.active c = true ∧
      P.enqueue f = { P with parked := P.parked ++ [f] }) ∨
    ∃ c, P.gate f = some c ∧ P.active c = false ∧ P.enqueue f = { P with
      active := fun c' => if c' = c then true else P.active c'
      ready := P.ready ++ [f] } := by
  cases hgate : P.gate f with
  | none => exact .inl ⟨rfl, by rw [enqueue, hgate]⟩
  | some c =>
    cases hactive : P.active c with
    | true =>
      refine .inr (.inl ⟨c, rfl, hactive, ?_⟩)
      rw [enqueue, hgate]
      simp only [hactive, if_true]
    | false =>
      refine .inr (.inr ⟨c, rfl, hactive, ?_⟩)
      rw [enqueue, hgate]
      simp only [hactive, Bool.false_eq_true, if_false]

/-! ### Its invariant -/

/-- What holds of a pool whose contributors settle before their renders return. -/
structure Sound (P : FillPool) : Prop where
  /-- Some thread runs fills. -/
  manned : P.threads ≠ []
  /-- A fill that is not settled is somewhere. -/
  placed : ∀ f, P.Unsettled f → f ∈ P.ready ∨ f ∈ P.parked ∨ .rendering f ∈ P.threads
  /-- A fill is parked at an active gate. -/
  parked : ∀ f ∈ P.parked, ∃ c, P.gate f = some c ∧ P.active c = true
  /-- An active gate is held. -/
  active : ∀ c, P.active c = true →
    ∃ g, P.gate g = some c ∧ (g ∈ P.ready ∨ ∃ t ∈ P.threads, t.held = some g)
  /-- No render has returned unsettled. -/
  attached : P.detached = []
  /-- No generation is drained before it is reached. -/
  drained : P.drainedGen ≤ P.settleGen

/-- A new pool is sound. -/
theorem Sound.new (workerCount : ℕ) (serialized : Option ℕ → Bool) :
    (FillPool.new workerCount serialized).Sound where
  manned h := by
    have hlength := congrArg List.length h
    rw [FillPool.new, List.length_replicate, List.length_nil] at hlength
    omega
  placed f h := by
    obtain ⟨fill, hfill, -⟩ := h
    cases hfill
  parked := nofun
  active := nofun
  attached := rfl
  drained := Nat.le_refl _

/-- The other threads stay where they are. -/
theorem mem_set_thread {threads : List FillThread} {t t' u : FillThread}
    (hw : threads[w]? = some t) (hu : u ∈ threads) (hne : u ≠ t) : u ∈ threads.set w t' := by
  obtain ⟨i, hi⟩ := List.mem_iff_getElem?.mp hu
  have hiw : w ≠ i := by
    rintro rfl
    exact hne (Option.some.inj (hi.symm.trans hw))
  exact List.mem_iff_getElem?.mpr ⟨i, by rw [List.getElem?_set_ne hiw, hi]⟩

/-- The thread that moved is where it went. -/
theorem mem_set_self {threads : List FillThread} {t t' : FillThread}
    (hw : threads[w]? = some t) : t' ∈ threads.set w t' := by
  obtain ⟨hlt, -⟩ := List.getElem?_eq_some_iff.mp hw
  exact List.mem_iff_getElem?.mpr ⟨w, List.getElem?_set_self hlt⟩

private theorem set_ne_nil {threads : List FillThread} (h : threads ≠ []) (t : FillThread) :
    threads.set w t ≠ [] := by
  intro hset
  have hlength := congrArg List.length hset
  rw [List.length_set, List.length_nil] at hlength
  exact h (List.eq_nil_of_length_eq_zero hlength)

/-- A thread goes from one phase of its fill to the next. -/
private theorem Sound.advance {t t' : FillThread} (h : P.Sound) (hw : P.threads[w]? = some t)
    (hheld : t'.held = t.held) (hplaced : ∀ f, P.Unsettled f → t ≠ .rendering f) :
    { P with threads := P.threads.set w t' }.Sound where
  manned := set_ne_nil h.manned t'
  placed f hf := by
    rcases h.placed f hf with hready | hparked | hrendering
    · exact .inl hready
    · exact .inr (.inl hparked)
    · exact .inr (.inr (mem_set_thread hw hrendering (hplaced f hf).symm))
  parked := h.parked
  active c hc := by
    obtain ⟨g, hg, hready | ⟨u, hu, hug⟩⟩ := h.active c hc
    · exact ⟨g, hg, .inl hready⟩
    · by_cases hut : u = t
      · refine ⟨g, hg, .inr ⟨t', mem_set_self hw, ?_⟩⟩
        rw [hheld, ← hut, hug]
      · exact ⟨g, hg, .inr ⟨u, mem_set_thread hw hu hut, hug⟩⟩
  attached := h.attached
  drained := h.drained

/-- A step of a thread keeps a pool sound when no render returns unsettled. -/
theorem Sound.threadStep (h : P.Sound) (hs : P.threadStep w = some P')
    (hsettled : ∀ f, P.threads[w]? = some (.rendering f) → P.settled f = true) : P'.Sound := by
  rcases threadStep_cases hs with ⟨f, ready, hw, hready, rfl⟩ | ⟨f, hw, hdone, rfl⟩ |
    ⟨f, hw, hopen, -⟩ | ⟨f, hw, rfl⟩ | ⟨f, hw, rfl⟩
  · refine ⟨set_ne_nil h.manned _, fun g hg => ?_, h.parked, fun c hc => ?_, h.attached, h.drained⟩
    · rcases h.placed g hg with hmem | hparked | hrendering
      · rw [hready] at hmem
        rcases List.mem_cons.mp hmem with rfl | hmem
        · exact .inr (.inr (mem_set_self hw))
        · exact .inl hmem
      · exact .inr (.inl hparked)
      · exact .inr (.inr (mem_set_thread hw hrendering nofun))
    · obtain ⟨g, hg, hmem | ⟨u, hu, hug⟩⟩ := h.active c hc
      · rw [hready] at hmem
        rcases List.mem_cons.mp hmem with rfl | hmem
        · exact ⟨g, hg, .inr ⟨_, mem_set_self hw, rfl⟩⟩
        · exact ⟨g, hg, .inl hmem⟩
      · refine ⟨g, hg, .inr ⟨u, mem_set_thread hw hu ?_, hug⟩⟩
        rintro rfl
        cases hug
  · refine h.advance hw rfl fun g hg heq => ?_
    cases heq
    rw [settled_eq_false_iff.mpr hg] at hdone
    cases hdone
  · exact absurd ((hsettled f hw).symm.trans hopen) nofun
  · have hadvance := h.advance hw (show (FillThread.releasing f).held = _ from rfl)
      fun g _ => nofun
    exact ⟨hadvance.manned, hadvance.placed, hadvance.parked, hadvance.active, hadvance.attached,
      Nat.le_succ_of_le hadvance.drained⟩
  · have hmanned := set_ne_nil (w := w) h.manned .idle
    have hstays : ∀ {u : FillThread} {g : ℕ}, u ∈ P.threads → u.held = some g → g ≠ f →
        u ∈ P.threads.set w .idle := fun hu hug hgf => by
      refine mem_set_thread hw hu ?_
      rintro rfl
      exact hgf (Option.some.inj hug).symm
    have hrenders : ∀ {g : ℕ}, .rendering g ∈ P.threads → .rendering g ∈ P.threads.set w .idle :=
      fun hg => mem_set_thread hw hg nofun
    rcases release_cases P f with ⟨hgate, hrelease⟩ | ⟨c, next, hgate, hfind, hrelease⟩ |
      ⟨c, hgate, hfind, hrelease⟩
    · rw [hrelease]
      refine ⟨hmanned, fun g hg => ?_, h.parked, fun c hc => ?_, h.attached, h.drained⟩
      · exact (h.placed g hg).imp_right fun hg => hg.imp_right hrenders
      · obtain ⟨g, hg, hmem | ⟨u, hu, hug⟩⟩ := h.active c hc
        · exact ⟨g, hg, .inl hmem⟩
        · refine ⟨g, hg, .inr ⟨u, hstays hu hug ?_, hug⟩⟩
          rintro rfl
          exact absurd (hg.symm.trans hgate) nofun
    · -- the gate goes to the next parked fill
      rw [hrelease]
      have hnext : P.gate next = some c := by simpa using List.find?_some hfind
      have hmem : next ∈ P.parked := List.mem_of_find?_eq_some hfind
      refine ⟨hmanned, fun g hg => ?_, fun g hg => h.parked g (List.mem_of_mem_eraseP hg),
        fun c' hc => ?_, h.attached, h.drained⟩
      · rcases h.placed g hg with hready | hparked | hrendering
        · exact .inl (List.mem_append_left _ hready)
        · by_cases hg : g = next
          · exact .inl (List.mem_append_right _ (List.mem_singleton.mpr hg))
          · refine .inr (.inl ?_)
            have hcount := List.tally_eraseP hfind fun x => if x = g then 1 else 0
            rw [if_neg (Ne.symm hg), Nat.zero_add, List.tally_ite_eq_count,
              List.tally_ite_eq_count] at hcount
            rw [← List.count_pos_iff, hcount, List.count_pos_iff]
            exact hparked
        · exact .inr (.inr (hrenders hrendering))
      · by_cases hcc : c' = c
        · subst hcc
          exact ⟨next, hnext, .inl (List.mem_append_right _ (List.mem_singleton.mpr rfl))⟩
        · obtain ⟨g, hg, hready | ⟨u, hu, hug⟩⟩ := h.active c' hc
          · exact ⟨g, hg, .inl (List.mem_append_left _ hready)⟩
          · refine ⟨g, hg, .inr ⟨u, hstays hu hug ?_, hug⟩⟩
            rintro rfl
            exact hcc (Option.some.inj (hg.symm.trans hgate))
    · -- nobody waits, the gate is given up
      rw [hrelease]
      refine ⟨hmanned, fun g hg => ?_, fun g hg => ?_, fun c' hc => ?_, h.attached, h.drained⟩
      · exact (h.placed g hg).imp_right fun hg => hg.imp_right hrenders
      · obtain ⟨c', hg', hactive⟩ := h.parked g hg
        have hcc : c' ≠ c := by
          rintro rfl
          have hnone := List.find?_eq_none.mp hfind g hg
          exact hnone (by simpa using hg')
        exact ⟨c', hg', (if_neg hcc).trans hactive⟩
      · have hc' : (if c' = c then false else P.active c') = true := hc
        by_cases hcc : c' = c
        · rw [if_pos hcc] at hc'
          cases hc'
        · rw [if_neg hcc] at hc'
          obtain ⟨g, hg, hready | ⟨u, hu, hug⟩⟩ := h.active c' hc'
          · exact ⟨g, hg, .inl hready⟩
          · refine ⟨g, hg, .inr ⟨u, hstays hu hug ?_, hug⟩⟩
            rintro rfl
            exact hcc (Option.some.inj (hg.symm.trans hgate))

/-- Settling a fill moves no gate. -/
private theorem gate_settle {fill : Fill} (hf : P.fills[f]? = some fill) (g : ℕ) :
    { P with fills := P.fills.set f { fill with settled := true } }.gate g = P.gate g := by
  by_cases hfg : f = g
  · subst hfg
    have hlt := (List.getElem?_eq_some_iff.mp hf).1
    simp only [gate, List.getElem?_set_self hlt, hf]
  · simp only [gate, List.getElem?_set_ne hfg]

/-- Settling a fill settles no other. -/
theorem unsettled_settle {fill : Fill} {g : ℕ} (hf : P.fills[f]? = some fill)
    (hg : { P with fills := P.fills.set f { fill with settled := true } }.Unsettled g) :
    P.Unsettled g ∧ g ≠ f := by
  obtain ⟨other, hother, hopen⟩ := hg
  have hlt := (List.getElem?_eq_some_iff.mp hf).1
  by_cases hfg : f = g
  · subst hfg
    have hother' : (P.fills.set f { fill with settled := true })[f]? = some other := hother
    rw [List.getElem?_set_self hlt] at hother'
    cases hother'
    cases hopen
  · have hother' : (P.fills.set f { fill with settled := true })[g]? = some other := hother
    rw [List.getElem?_set_ne hfg] at hother'
    exact ⟨⟨other, hother', hopen⟩, Ne.symm hfg⟩

/-- Settling a fill keeps a pool sound. -/
theorem Sound.settle (h : P.Sound) (hs : P.settle f = some P') : P'.Sound := by
  obtain ⟨fill, hfill, -, -, rfl⟩ := settle_cases hs
  refine ⟨h.manned, fun g hg => h.placed g (unsettled_settle hfill hg).1, fun g hg => ?_,
    fun c hc => ?_, h.attached, h.drained⟩
  · obtain ⟨c, hgate, hactive⟩ := h.parked g hg
    exact ⟨c, (gate_settle hfill g).trans hgate, hactive⟩
  · obtain ⟨g, hgate, hheld⟩ := h.active c hc
    exact ⟨g, (gate_settle hfill g).trans hgate, hheld⟩

/-- A fill has a gate only when it was submitted. -/
private theorem lt_of_gate {c : Option ℕ} (h : P.gate f = some c) : f < P.fills.length := by
  rw [gate] at h
  split at h
  · rename_i fill hfill
    exact (List.getElem?_eq_some_iff.mp hfill).1
  · cases h

/-- Another fill leaves the gates of the old ones. -/
private theorem gate_record {c : Option ℕ} {fill : Fill} (h : P.gate f = some c) :
    { P with fills := P.fills ++ [fill] }.gate f = some c := by
  have hlt := lt_of_gate h
  rw [gate] at h ⊢
  simpa only [List.getElem?_append_left hlt] using h

/-- A pool that is not stopped takes a fill. -/
theorem submit_eq (hstop : P.stop = false) (content : Option ℕ) : P.submit content =
    ({ P with fills := P.fills ++ [⟨content, false⟩] } : FillPool).enqueue P.fills.length := by
  simp only [submit, hstop, Bool.false_eq_true, if_false]

/-- A submission keeps a pool sound. -/
theorem Sound.submit (h : P.Sound) (hstop : P.stop = false) (content : Option ℕ) :
    (P.submit content).Sound := by
  let Q : FillPool := { P with fills := P.fills ++ [⟨content, false⟩] }
  have hplaced : ∀ f, Q.Unsettled f →
      f = P.fills.length ∨ f ∈ P.ready ∨ f ∈ P.parked ∨ .rendering f ∈ P.threads := by
    rintro f ⟨fill, hfill, hopen⟩
    by_cases hlt : f < P.fills.length
    · have hfill' : (P.fills ++ [⟨content, false⟩])[f]? = some fill := hfill
      rw [List.getElem?_append_left hlt] at hfill'
      have hf : P.Unsettled f := ⟨fill, hfill', hopen⟩
      exact .inr (h.placed f hf)
    · have hle := (List.getElem?_eq_some_iff.mp hfill).1
      have hle' : f < Q.fills.length := hle
      rw [List.length_append, List.length_singleton] at hle'
      exact .inl (by omega)
  have hparked : ∀ f ∈ P.parked, ∃ c, Q.gate f = some c ∧ P.active c = true := fun f hf => by
    obtain ⟨c, hgate, hactive⟩ := h.parked f hf
    exact ⟨c, gate_record hgate, hactive⟩
  have hactive : ∀ c, P.active c = true →
      ∃ g, Q.gate g = some c ∧ (g ∈ P.ready ∨ ∃ t ∈ P.threads, t.held = some g) := fun c hc => by
    obtain ⟨g, hgate, hheld⟩ := h.active c hc
    exact ⟨g, gate_record hgate, hheld⟩
  have hlast : P.fills.length ∈ P.ready ++ [P.fills.length] :=
    List.mem_append_right _ (List.mem_singleton.mpr rfl)
  have hplaced_ready : ∀ f, Q.Unsettled f →
      f ∈ P.ready ++ [P.fills.length] ∨ f ∈ P.parked ∨ .rendering f ∈ P.threads := fun f hf => by
    rcases hplaced f hf with rfl | hready | hrest
    · exact .inl hlast
    · exact .inl (List.mem_append_left _ hready)
    · exact .inr hrest
  rw [submit_eq hstop]
  change (Q.enqueue P.fills.length).Sound
  rcases Q.enqueue_cases P.fills.length with ⟨-, hq⟩ | ⟨c, hgate, hc, hq⟩ | ⟨c, hgate, hc, hq⟩
  · rw [hq]
    refine ⟨h.manned, hplaced_ready, hparked, fun c hc => ?_, h.attached, h.drained⟩
    obtain ⟨g, hg, hheld⟩ := hactive c hc
    exact ⟨g, hg, hheld.imp_left (List.mem_append_left _)⟩
  · rw [hq]
    refine ⟨h.manned, fun f hf => ?_, fun f hf => ?_, hactive, h.attached, h.drained⟩
    · rcases hplaced f hf with rfl | hready | hpark | hrender
      · exact .inr (.inl (List.mem_append_right _ (List.mem_singleton.mpr rfl)))
      · exact .inl hready
      · exact .inr (.inl (List.mem_append_left _ hpark))
      · exact .inr (.inr hrender)
    · rcases List.mem_append.mp hf with hf | hf
      · exact hparked f hf
      · rw [List.mem_singleton] at hf
        exact ⟨c, hf ▸ hgate, hc⟩
  · rw [hq]
    refine ⟨h.manned, hplaced_ready, fun f hf => ?_, fun c' hc' => ?_, h.attached, h.drained⟩
    · obtain ⟨c', hg, hactive'⟩ := hparked f hf
      refine ⟨c', hg, ?_⟩
      show (if c' = c then true else P.active c') = true
      rw [hactive', ite_self]
    · have hc'' : (if c' = c then true else P.active c') = true := hc'
      by_cases hcc : c' = c
      · exact ⟨_, hcc ▸ hgate, .inl hlast⟩
      · rw [if_neg hcc] at hc''
        obtain ⟨g, hg, hheld⟩ := hactive c' hc''
        exact ⟨g, hg, hheld.imp_left (List.mem_append_left _)⟩

/-! ### Its work -/

/-- The steps that a thread has left for its fill, and what they wake. -/
def threadWork : FillThread → ℕ
  | .idle => 0
  | .rendering _ => 8
  | .poking _ => 6
  | .releasing _ => 1

/-- A poke that no drain has seen. -/
def unseen (settleGen drainedGen : ℕ) : ℕ := if settleGen = drainedGen then 0 else 3

theorem unseen_le (settleGen drainedGen : ℕ) : unseen settleGen drainedGen ≤ 3 := by
  rw [unseen]
  split <;> omega

/-- The work of a pool: what waits, what runs, what is not settled, and a poke not seen yet. -/
def work (P : FillPool) : ℕ :=
  10 * (P.ready.length + P.parked.length) + P.threads.tally threadWork +
    P.fills.tally (fun fill => if fill.settled then 0 else 1) +
      unseen P.settleGen P.drainedGen

/-- A step of a thread is work done. -/
theorem work_threadStep (hs : P.threadStep w = some P') : P'.work < P.work := by
  rcases threadStep_cases hs with ⟨f, ready, hw, hready, rfl⟩ | ⟨f, hw, -, rfl⟩ |
    ⟨f, hw, -, rfl⟩ | ⟨f, hw, rfl⟩ | ⟨f, hw, rfl⟩
  · have htally := List.tally_set hw (.rendering f) threadWork
    simp only [work, hready, List.length_cons]
    simp only [threadWork] at htally
    omega
  · have htally := List.tally_set hw (.poking f) threadWork
    simp only [work]
    simp only [threadWork] at htally
    omega
  · have htally := List.tally_set hw (.releasing f) threadWork
    simp only [work]
    simp only [threadWork] at htally
    omega
  · have htally := List.tally_set hw (.releasing f) threadWork
    have hunseen := unseen_le (P.settleGen + 1) P.drainedGen
    simp only [work, FillPool.poke]
    simp only [threadWork] at htally
    omega
  · have htally := List.tally_set hw .idle threadWork
    simp only [threadWork] at htally
    rcases release_cases P f with ⟨-, hrelease⟩ | ⟨c, next, -, hfind, hrelease⟩ |
      ⟨c, -, -, hrelease⟩
    · rw [hrelease]
      simp only [work]
      omega
    · have hlength := List.tally_eraseP hfind fun _ => 1
      rw [List.tally_one, List.tally_one] at hlength
      rw [hrelease]
      simp only [work, List.length_append, List.length_singleton]
      omega
    · rw [hrelease]
      simp only [work]
      omega

/-- A fill that settles is work done. -/
theorem work_settle (hs : P.settle f = some P') : P'.work < P.work := by
  obtain ⟨fill, hfill, hopen, -, rfl⟩ := settle_cases hs
  have htally := List.tally_set hfill { fill with settled := true } fun fill =>
    if fill.settled then 0 else 1
  simp only [hopen, Bool.false_eq_true, if_false, if_true] at htally
  simp only [work]
  omega

/-- A submission is a bounded amount of work. -/
theorem work_submit (hstop : P.stop = false) (content : Option ℕ) :
    (P.submit content).work ≤ P.work + 11 := by
  rw [submit_eq hstop]
  rcases enqueue_cases ({ P with fills := P.fills ++ [⟨content, false⟩] } : FillPool)
      P.fills.length with
    ⟨-, hq⟩ | ⟨c, -, -, hq⟩ | ⟨c, -, -, hq⟩ <;>
  · rw [hq]
    simp only [work, List.length_append, List.length_singleton, List.tally_append,
      List.tally_cons, List.tally_nil, Bool.false_eq_true, if_false]
    omega

/-- A thread with a fill can go on, or its contributor can. -/
private theorem moves_of_held {t : FillThread} (hw : P.threads[w]? = some t) (ht : t ≠ .idle) :
    (∃ w P', P.threadStep w = some P' ∧
      ∀ f, P.threads[w]? = some (.rendering f) → P.settled f = true) ∨
    ∃ f P', P.settle f = some P' := by
  cases t with
  | idle => exact absurd rfl ht
  | rendering f =>
    cases hsettled : P.settled f with
    | true =>
      refine .inl ⟨w, { P with threads := P.threads.set w (.poking f) }, ?_, fun g hg => ?_⟩
      · simp only [threadStep, hw, hsettled, if_true]
      · cases hw.symm.trans hg
        exact hsettled
    | false =>
      obtain ⟨fill, hfill, hopen⟩ := settled_eq_false_iff.mp hsettled
      refine .inr ⟨f, { P with fills := P.fills.set f { fill with settled := true } }, ?_⟩
      have hmem : .rendering f ∈ P.threads := List.mem_iff_getElem?.mpr ⟨w, hw⟩
      simp only [settle, hfill]
      rw [if_pos ⟨.inl hmem, hopen⟩]
  | poking f =>
    refine .inl ⟨w, { P.poke with threads := P.threads.set w (.releasing f) }, ?_, fun g hg => ?_⟩
    · simp only [threadStep, hw]
    · cases hw.symm.trans hg
  | releasing f =>
    refine .inl ⟨w, { P.release f with threads := P.threads.set w .idle }, ?_, fun g hg => ?_⟩
    · simp only [threadStep, hw]
    · cases hw.symm.trans hg

/-- A pool that is not quiet can go on. -/
theorem Sound.moves (h : P.Sound) (hstop : P.stop = false) (hbusy : P.quiet = false) :
    (∃ w P', P.threadStep w = some P' ∧
      ∀ f, P.threads[w]? = some (.rendering f) → P.settled f = true) ∨
    ∃ f P', P.settle f = some P' := by
  by_cases hidle : ∀ t ∈ P.threads, t = .idle
  · -- all threads look for a fill, and there is one
    obtain ⟨t, ht⟩ := List.exists_mem_of_ne_nil _ h.manned
    obtain ⟨w, hw⟩ := List.mem_iff_getElem?.mp ht
    obtain rfl := hidle t ht
    cases hready : P.ready with
    | nil =>
      have hall : P.threads.all (· == .idle) = true :=
        List.all_eq_true.mpr fun t ht => beq_iff_eq.mpr (hidle t ht)
      rw [quiet, hready, hall] at hbusy
      cases hbusy
    | cons f ready =>
      have hstep : (P.threadStep w).isSome = true := by
        rw [FillPool.threadStep]
        simp [hw, hready, hstop]
      obtain ⟨P', hP'⟩ := Option.isSome_iff_exists.mp hstep
      refine .inl ⟨w, P', hP', fun g hg => ?_⟩
      cases hw.symm.trans hg
  · push Not at hidle
    obtain ⟨t, ht, hne⟩ := hidle
    obtain ⟨w, hw⟩ := List.mem_iff_getElem?.mp ht
    exact moves_of_held hw hne

end FillPool

end ArbitraryComposer
