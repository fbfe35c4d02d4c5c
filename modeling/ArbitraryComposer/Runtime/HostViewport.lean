import ArbitraryComposer.ToMathlib.Machine
import Mathlib.Data.List.Basic
import Mathlib.Order.Basic

/-!
# The Steps of a Host Viewport

A writer publishes a version and then flushes its damage into the sink of the viewport. On another
thread the viewport takes its steps: it settles, pins the published version, drains the sink, and
renders, unless nothing has changed. A commit may come between the pin and the drain: the frame is
then handed the damage of a version newer than the one it draws, and nobody draws it again.

A scene is the contract of damage: a commit touches every pixel it changes, and a frame handed the
damage of a commit draws what it touched, unless a later commit touched it, too. A sink holds the
list of its commits. A pixel whose tile is late is owed: it is in flight, or a follow-up frame is
due. The render thread is not the writer thread, so a settle publishes nothing.

## Main definitions

- `Scene`: versions, and what commits and frames do to pixels.
- `HostViewport`, `hostViewport`: the machine of a writer and a viewport.
- `HostViewport.Displays`: an idle viewport shows the published version.
- `Unraced`: no commit flushes between the pin and the drain of a step that pinned an older version.

## Main results

- `commits_displayed`: in unraced runs an idle viewport shows the published version.
- `not_commits_displayed`: a commit between pin and drain may never be shown.
-/

namespace ArbitraryComposer

/-- What versions show at a camera and an instant, what commits touch, and what frames draw again.
Version `v + 1` is that of commit `v + 1`. -/
structure Scene (κ τ π γ : Type) where
  /-- The pixels of a version. -/
  shows : ℕ → κ → τ → π → γ
  /-- The pixels that a commit may have changed. -/
  touches : ℕ → κ → π → Prop
  /-- The pixels that a frame of a version draws again where the camera has not moved, when the
  instant moved from one to another and it is handed the damage of some commits. -/
  repaints : ℕ → κ → τ → τ → List ℕ → π → Bool
  /-- A commit touches what it changes. -/
  touches_of_ne : ∀ v c t p, shows v c t p ≠ shows (v + 1) c t p → touches (v + 1) c p
  /-- A frame draws what the commits that it is handed touched, unless a later commit did. -/
  repaints_of_touches : ∀ v c t t' damage p, ∀ w ∈ damage, w ≤ v → touches w c p →
    repaints v c t t' damage p = true ∨ ∃ w', w < w' ∧ w' ≤ v ∧ touches w' c p
  /-- A frame draws what the clock changes. -/
  repaints_of_clock : ∀ v c t t' damage p, shows v c t p ≠ shows v c t' p →
    repaints v c t t' damage p = true

/-- Where a step of the viewport stands. -/
inductive StepPhase (κ τ : Type) where
  /-- No step is under way. -/
  | between
  /-- External loads are settled. -/
  | settled
  /-- A version is pinned, and camera and instant are known. -/
  | pinned (version : ℕ) (camera : κ) (time : τ)
  /-- The sink is drained. -/
  | drained (version : ℕ) (camera : κ) (time : τ) (damage : List ℕ)

/-- A writer and a viewport. -/
structure HostViewport (κ τ π γ : Type) where
  /-- `d_current`. -/
  published : ℕ
  /-- A commit has published and has not flushed its damage. -/
  flushing : Bool
  /-- `d_sink`. -/
  sink : List ℕ
  /-- Where the step stands. -/
  phase : StepPhase κ τ
  /-- The target. -/
  target : π → γ
  /-- `d_last_render_camera` and `d_last_render_time`, once a frame was rendered. -/
  last : Option (κ × τ)
  /-- The pixels whose tiles are late. -/
  owed : List π
  /-- `d_follow_up_owed`, for other reasons. -/
  followUp : Bool
  /-- No commit has moved since the step began. -/
  quiet : Bool
  /-- No commit has moved since the beginning of a step that left early. -/
  idle : Bool

/-- What happens to a writer and a viewport. -/
inductive ViewportEvent (κ τ π γ : Type) where
  /-- A commit publishes its version. -/
  | publish
  /-- It flushes its damage. -/
  | flush
  /-- A step begins and settles. -/
  | settle
  /-- The step pins the published version, at a camera and an instant. -/
  | pin (camera : κ) (time : τ)
  /-- The step drains the sink. -/
  | drain
  /-- The step renders, or leaves early; the late pixels with the colours they are drawn in, and
  whether a follow-up is due. -/
  | render (late : List (π × γ)) (followUp : Bool)

namespace HostViewport

variable {κ τ π γ : Type}

/-- Nothing is published and nothing was drawn. -/
def init (target : π → γ) : HostViewport κ τ π γ where
  published := 0
  flushing := false
  sink := []
  phase := .between
  target := target
  last := none
  owed := []
  followUp := false
  quiet := false
  idle := false

variable [DecidableEq κ] [DecidableEq τ] [DecidableEq π]

/-- The pixels that a frame draws: all of them at first and when the camera has moved. -/
def draws (S : Scene κ τ π γ) (st : HostViewport κ τ π γ) (version : ℕ) (camera : κ) (time : τ)
    (damage : List ℕ) (p : π) : Bool :=
  match st.last with
  | none => true
  | some (camera', time') =>
    if camera' = camera then
      S.repaints version camera time' time damage p || decide (p ∈ st.owed)
    else true

/-- `render_frame` of a pinned version. -/
def renderFrame (S : Scene κ τ π γ) (st : HostViewport κ τ π γ) (version : ℕ) (camera : κ)
    (time : τ) (damage : List ℕ) (late : List (π × γ)) (followUp : Bool) : HostViewport κ τ π γ :=
  let late := late.filter fun drawn => st.draws S version camera time damage drawn.1
  { st with
    phase := .between
    target := fun p =>
      match late.lookup p with
      | some colour => colour
      | none =>
        if st.draws S version camera time damage p then S.shows version camera time p
        else st.target p
    last := some (camera, time)
    owed := late.map Prod.fst
    followUp := followUp
    idle := false }

/-- The test of the early-out: a frame was rendered, the scene has not moved, and nothing is damaged
or owed. -/
def isStill (st : HostViewport κ τ π γ) (camera : κ) (time : τ) (damage : List ℕ) : Bool :=
  decide (st.last = some (camera, time)) && damage.isEmpty && !st.followUp && st.owed.isEmpty

/-- The effect of an event. -/
def step (S : Scene κ τ π γ) (e : ViewportEvent κ τ π γ) (st : HostViewport κ τ π γ) :
    Option (HostViewport κ τ π γ) :=
  match e with
  | .publish =>
    if st.flushing then none
    else some { st with
      published := st.published + 1
      flushing := true
      quiet := false
      idle := false }
  | .flush =>
    if st.flushing then
      some { st with
        sink := st.sink ++ [st.published]
        flushing := false
        quiet := false
        idle := false }
    else none
  | .settle =>
    match st.phase with
    | .between => some { st with phase := .settled, quiet := !st.flushing }
    | _ => none
  | .pin camera time =>
    match st.phase with
    | .settled => some { st with phase := .pinned st.published camera time }
    | _ => none
  | .drain =>
    match st.phase with
    | .pinned version camera time =>
      some { st with phase := .drained version camera time st.sink, sink := [] }
    | _ => none
  | .render late followUp =>
    match st.phase with
    | .drained version camera time damage =>
      if st.isStill camera time damage then some { st with phase := .between, idle := st.quiet }
      else some (st.renderFrame S version camera time damage late followUp)
    | _ => none

/-- A viewport that is idle shows the published version at the displayed instant. -/
def Displays (S : Scene κ τ π γ) (st : HostViewport κ τ π γ) : Prop :=
  st.idle = true → ∃ camera time, st.last = some (camera, time) ∧
    ∀ p, st.target p = S.shows st.published camera time p

end HostViewport

/-- All interleavings of the commits of a writer with the steps of a viewport. -/
def hostViewport {κ τ π γ : Type} [DecidableEq κ] [DecidableEq τ] [DecidableEq π]
    (S : Scene κ τ π γ) : Machine (HostViewport κ τ π γ) (ViewportEvent κ τ π γ) where
  start st := ∃ target, st = .init target
  step := HostViewport.step S

/-- No commit flushes between the pin and the drain of a step that has pinned an older version. -/
def Unraced {κ τ π γ : Type} (e : ViewportEvent κ τ π γ) (st : HostViewport κ τ π γ) : Prop :=
  match e, st.phase with
  | .flush, .pinned version _ _ => st.published ≤ version
  | _, _ => True

instance {κ τ π γ : Type} (e : ViewportEvent κ τ π γ) (st : HostViewport κ τ π γ) :
    Decidable (Unraced e st) := by
  unfold Unraced
  split <;> infer_instance

namespace HostViewport

variable {κ τ π γ : Type} {S : Scene κ τ π γ} {st st' : HostViewport κ τ π γ} {k r : ℕ}

/-! ## What is still to be drawn -/

/-- How many commits have flushed. -/
def flushed (st : HostViewport κ τ π γ) : ℕ := st.published - if st.flushing then 1 else 0

/-- The damage of the commits after one and up to another. -/
def DamageOf (damage : List ℕ) (a b : ℕ) : Prop := ∀ w, w ∈ damage ↔ a < w ∧ w ≤ b

/-- Where the target is not what a version from `r` on shows, a tile is late, or a commit after `k`
touched the pixel. -/
def Shown (S : Scene κ τ π γ) (k r : ℕ) (camera : κ) (time : τ) (target : π → γ) (owed : List π) :
    Prop :=
  ∀ v, r ≤ v → ∀ p, p ∉ owed → target p ≠ S.shows v camera time p →
    ∃ w, k < w ∧ w ≤ v ∧ S.touches w camera p

/-- The damage on its way: the frames before were handed that of the first `k` commits, and drew
version `r`. -/
def PhaseOk (st : HostViewport κ τ π γ) (k r : ℕ) : Prop :=
  match st.phase with
  | .between | .settled => DamageOf st.sink k st.flushed
  | .pinned version _ _ => DamageOf st.sink k st.flushed ∧ r ≤ version ∧ st.flushed ≤ version ∧
      version ≤ st.published
  | .drained version _ _ damage => ∃ k', k ≤ k' ∧ k' ≤ st.flushed ∧ k' ≤ version ∧ r ≤ version ∧
      version ≤ st.published ∧ DamageOf damage k k' ∧ DamageOf st.sink k' st.flushed ∧
      (st.quiet = true → k' = st.flushed)

/-- The invariant of a writer and a viewport. -/
structure InvAt (S : Scene κ τ π γ) (k r : ℕ) (st : HostViewport κ τ π γ) : Prop where
  /-- Only a published commit flushes. -/
  flushing_pos : st.flushing = true → 0 < st.published
  /-- A frame is handed damage that was flushed. -/
  handed_le : k ≤ st.flushed
  /-- A frame draws a published version. -/
  drawn_le : r ≤ st.published
  /-- What the target shows. -/
  shown : ∀ camera time, st.last = some (camera, time) →
    Shown S k r camera time st.target st.owed
  /-- The damage on its way. -/
  phase : st.PhaseOk k r
  /-- A quiet step began when no commit was under way. -/
  quiet : st.quiet = true → st.flushing = false
  /-- An idle viewport shows the published version. -/
  displays : st.Displays S

theorem DamageOf.nil (a : ℕ) : DamageOf [] a a := by
  intro w
  simp only [List.not_mem_nil, false_iff]
  omega

theorem DamageOf.concat {damage : List ℕ} {a b : ℕ} (h : DamageOf damage a b) (hle : a ≤ b) :
    DamageOf (damage ++ [b + 1]) a (b + 1) := by
  intro w
  rw [List.mem_append, List.mem_singleton, h w]
  omega

theorem DamageOf.eq_of_nil {a b : ℕ} (h : DamageOf [] a b) (hle : a ≤ b) : a = b := by
  have hb := h b
  simp only [List.not_mem_nil, false_iff] at hb
  omega

/-- What two versions show differently, a commit between them touched. -/
theorem exists_touches {v : ℕ} {camera : κ} {time : τ} {p : π} (n : ℕ)
    (h : S.shows v camera time p ≠ S.shows (v + n) camera time p) :
    ∃ w, v < w ∧ w ≤ v + n ∧ S.touches w camera p := by
  induction n with
  | zero => exact absurd rfl h
  | succ n ih =>
    by_cases heq : S.shows v camera time p = S.shows (v + n) camera time p
    · refine ⟨v + n + 1, by omega, by omega, S.touches_of_ne _ _ time _ ?_⟩
      rw [← heq]
      exact h
    · obtain ⟨w, hv, hw, htouch⟩ := ih heq
      exact ⟨w, hv, by omega, htouch⟩

/-- What a frame leaves although a commit touched it, a commit touched whose damage the frame was
not handed. -/
theorem exists_touches_of_left {version k' : ℕ} {camera : κ} {time time' : τ} {damage : List ℕ}
    {p : π} (hdamage : DamageOf damage k k')
    (hleft : S.repaints version camera time time' damage p = false) (n : ℕ) {w : ℕ}
    (hn : version = w + n) (hk : k < w) (htouch : S.touches w camera p) :
    ∃ w, k' < w ∧ w ≤ version ∧ S.touches w camera p := by
  -- The later of the commits that touched it is looked at next.
  induction n using Nat.strongRecOn generalizing w with
  | ind n ih =>
    by_cases hw : k' < w
    · exact ⟨w, hw, by omega, htouch⟩
    · have hmem : w ∈ damage := (hdamage w).mpr ⟨hk, by omega⟩
      rcases S.repaints_of_touches version camera time time' damage p w hmem (by omega) htouch with
        hpaint | ⟨w', hlt, hle, htouch'⟩
      · rw [hleft] at hpaint
        cases hpaint
      · exact ih (version - w') (by omega) (by omega) (by omega) htouch'

/-- A step that leaves early leaves the picture of the published version. -/
theorem shows_published {version k' : ℕ} {camera : κ} {time : τ} (h : InvAt S k r st)
    (hquiet : st.quiet = true) (hlast : st.last = some (camera, time)) (howed : st.owed = [])
    (hk : k = k') (hflushed : k' = st.flushed) (hr : r ≤ version)
    (hversion : version ≤ st.published) (p : π) :
    st.target p = S.shows st.published camera time p := by
  by_contra hne
  obtain ⟨w, hlt, hle, _⟩ := h.shown camera time hlast st.published (by omega) p
    (by rw [howed]; exact List.not_mem_nil) hne
  have hnot := h.quiet hquiet
  simp only [flushed, hnot, Bool.false_eq_true, if_false] at hflushed
  omega

section

variable [DecidableEq κ] [DecidableEq π]

/-- What a frame leaves undrawn shows the version of the frame, or a commit touched it whose damage
the frame was not handed. -/
theorem shows_of_not_draws {version k' : ℕ} {camera : κ} {time : τ} {damage : List ℕ} {p : π}
    (h : InvAt S k r st) (hr : r ≤ version) (hdamage : DamageOf damage k k')
    (hdraws : st.draws S version camera time damage p = false) :
    st.target p = S.shows version camera time p ∨
      ∃ w, k' < w ∧ w ≤ version ∧ S.touches w camera p := by
  simp only [draws] at hdraws
  split at hdraws
  case h_1 => cases hdraws
  case h_2 camera' time' hlast =>
    split at hdraws
    case isFalse => cases hdraws
    case isTrue hcamera =>
      subst hcamera
      rw [Bool.or_eq_false_iff, decide_eq_false_iff_not] at hdraws
      obtain ⟨hleft, howed⟩ := hdraws
      have hclock : S.shows version camera' time' p = S.shows version camera' time p := by
        by_contra hne
        rw [S.repaints_of_clock version camera' time' time damage p hne] at hleft
        cases hleft
      by_cases htarget : st.target p = S.shows version camera' time p
      · exact .inl htarget
      · rw [← hclock] at htarget
        obtain ⟨w, hlt, hle, htouch⟩ := h.shown camera' time' hlast version hr p howed htarget
        exact .inr (exists_touches_of_left hdamage hleft (version - w) (by omega) hlt htouch)

/-- A frame draws its version, but for what a commit touched whose damage it was not handed. -/
theorem shown_renderFrame {version k' : ℕ} {camera : κ} {time : τ} {damage : List ℕ}
    {late : List (π × γ)} {followUp : Bool} (h : InvAt S k r st) (hr : r ≤ version)
    (hk' : k' ≤ version) (hdamage : DamageOf damage k k') :
    Shown S k' version camera time
      (st.renderFrame S version camera time damage late followUp).target
      (st.renderFrame S version camera time damage late followUp).owed := by
  intro v hv p howed hne
  -- What a later version shows differently, a later commit touched.
  have hlater : S.shows version camera time p ≠ S.shows v camera time p →
      ∃ w, k' < w ∧ w ≤ v ∧ S.touches w camera p := by
    intro hne
    obtain ⟨n, rfl⟩ := Nat.exists_eq_add_of_le hv
    obtain ⟨w, hlt, hle, htouch⟩ := exists_touches n hne
    exact ⟨w, by omega, hle, htouch⟩
  simp only [renderFrame] at howed hne
  have hlookup : (late.filter fun drawn => st.draws S version camera time damage drawn.1).lookup p =
      none := by
    refine List.lookup_eq_none_iff.mpr fun drawn hdrawn => ?_
    rw [bne_iff_ne]
    rintro rfl
    exact howed (List.mem_map_of_mem hdrawn)
  simp only [hlookup] at hne
  split at hne
  case isTrue => exact hlater hne
  case isFalse hdraws =>
    rcases shows_of_not_draws h hr hdamage ((Bool.not_eq_true _).mp hdraws) with
      htarget | ⟨w, hlt, hle, htouch⟩
    · rw [htarget] at hne
      exact hlater hne
    · exact ⟨w, hlt, by omega, htouch⟩

end

/-! ## The steps of the writer -/

theorem InvAt.of_init (target : π → γ) : InvAt S 0 0 (init target : HostViewport κ τ π γ) where
  flushing_pos := nofun
  handed_le := Nat.le_refl 0
  drawn_le := Nat.le_refl 0
  shown := nofun
  phase := DamageOf.nil 0
  quiet := nofun
  displays := nofun

variable [DecidableEq κ] [DecidableEq τ] [DecidableEq π]

theorem InvAt.publish (h : InvAt S k r st) (hs : st.step S .publish = some st') :
    InvAt S k r st' := by
  obtain ⟨hpos, hhanded, hdrawn, hshown, hphase, _, _⟩ := h
  simp only [step] at hs
  split at hs
  case isTrue => cases hs
  case isFalse hflushing =>
    cases hs
    -- The new commit is under way, and none was before.
    have hflushed : st.flushed = st.published := by simp [flushed, hflushing]
    rw [hflushed] at hhanded
    refine ⟨fun _ => Nat.succ_pos _, hhanded, by simp only; omega, hshown, ?_, nofun, nofun⟩
    simp only [PhaseOk, hflushed] at hphase ⊢
    have hflushed' : flushed { st with
        published := st.published + 1
        flushing := true
        quiet := false
        idle := false } = st.published := by simp [flushed]
    simp only [hflushed']
    revert hphase
    cases st.phase with
    | between => exact id
    | settled => exact id
    | pinned version camera time =>
      rintro ⟨hsink, hr, hle, hversion⟩
      exact ⟨hsink, hr, hle, by omega⟩
    | drained version camera time damage =>
      rintro ⟨k', hk, hk', hversion, hr, hpublished, hdamage, hsink, _⟩
      exact ⟨k', hk, hk', hversion, hr, by omega, hdamage, hsink, nofun⟩

theorem InvAt.flush (h : InvAt S k r st) (ha : Unraced (.flush : ViewportEvent κ τ π γ) st)
    (hs : st.step S .flush = some st') : InvAt S k r st' := by
  obtain ⟨hpos, hhanded, hdrawn, hshown, hphase, _, _⟩ := h
  simp only [step] at hs
  split at hs
  case isFalse => cases hs
  case isTrue hflushing =>
    cases hs
    have hpos := hpos hflushing
    have hflushed : st.published = st.flushed + 1 := by
      simp only [flushed, hflushing, if_true]
      omega
    have hflushed' : flushed { st with
        sink := st.sink ++ [st.published]
        flushing := false
        quiet := false
        idle := false } = st.flushed + 1 := by
      simp only [flushed, Bool.false_eq_true, if_false, hflushing, if_true]
      omega
    refine ⟨nofun, ?_, hdrawn, hshown, ?_, nofun, nofun⟩
    · rw [hflushed']
      omega
    simp only [PhaseOk, hflushed'] at hphase ⊢
    simp only [Unraced] at ha
    rw [hflushed] at ha ⊢
    revert hphase ha
    cases st.phase with
    | between => exact fun _ hsink => hsink.concat hhanded
    | settled => exact fun _ hsink => hsink.concat hhanded
    | pinned version camera time =>
      -- The commit flushes only when the step has pinned its version.
      rintro ha ⟨hsink, hr, _, hversion⟩
      exact ⟨hsink.concat hhanded, hr, ha, by omega⟩
    | drained version camera time damage =>
      rintro - ⟨k', hk, hk', hversion, hr, hpublished, hdamage, hsink, _⟩
      exact ⟨k', hk, by omega, hversion, hr, by omega, hdamage, hsink.concat hk',
        nofun⟩

/-! ## The steps of the viewport -/

theorem InvAt.settle (h : InvAt S k r st) (hs : st.step S .settle = some st') :
    InvAt S k r st' := by
  obtain ⟨hpos, hhanded, hdrawn, hshown, hphase, _, hdisplays⟩ := h
  simp only [step] at hs
  split at hs
  case h_1 hbetween =>
    cases hs
    rw [PhaseOk, hbetween] at hphase
    exact ⟨hpos, hhanded, hdrawn, hshown, hphase, fun h => by simpa using h, hdisplays⟩
  case h_2 => cases hs

theorem InvAt.pin {camera : κ} {time : τ} (h : InvAt S k r st)
    (hs : st.step S (.pin camera time) = some st') : InvAt S k r st' := by
  obtain ⟨hpos, hhanded, hdrawn, hshown, hphase, hquiet, hdisplays⟩ := h
  simp only [step] at hs
  split at hs
  case h_1 hsettled =>
    cases hs
    rw [PhaseOk, hsettled] at hphase
    refine ⟨hpos, hhanded, hdrawn, hshown, ⟨hphase, hdrawn, ?_, Nat.le_refl _⟩, hquiet, hdisplays⟩
    exact Nat.sub_le _ _
  case h_2 => cases hs

theorem InvAt.drain (h : InvAt S k r st) (hs : st.step S .drain = some st') :
    InvAt S k r st' := by
  obtain ⟨hpos, hhanded, hdrawn, hshown, hphase, hquiet, hdisplays⟩ := h
  simp only [step] at hs
  split at hs
  case h_1 version camera time hpinned =>
    cases hs
    rw [PhaseOk, hpinned] at hphase
    obtain ⟨hsink, hr, hflushed, hversion⟩ := hphase
    refine ⟨hpos, hhanded, hdrawn, hshown, ?_, hquiet, hdisplays⟩
    exact ⟨st.flushed, hhanded, Nat.le_refl _, hflushed, hr, hversion, hsink, DamageOf.nil _,
      fun _ => rfl⟩
  case h_2 => cases hs

theorem InvAt.render {late : List (π × γ)} {followUp : Bool} (h : InvAt S k r st)
    (hs : st.step S (.render late followUp) = some st') : ∃ k' r', InvAt S k' r' st' := by
  obtain ⟨hpos, hhanded, hdrawn, hshown, hphase, hquiet, hdisplays⟩ := id h
  simp only [step] at hs
  split at hs
  case h_2 => cases hs
  case h_1 version camera time damage hdrained =>
    rw [PhaseOk, hdrained] at hphase
    obtain ⟨k', hk, hk', hversion, hr, hpublished, hdamage, hsink, hmoved⟩ := hphase
    split at hs
    case isTrue hstill =>
      cases hs
      simp only [isStill, Bool.and_eq_true, decide_eq_true_eq, List.isEmpty_iff] at hstill
      obtain ⟨⟨⟨hlast, rfl⟩, _⟩, howed⟩ := hstill
      obtain rfl := hdamage.eq_of_nil hk
      have hshows : st.quiet = true → ∀ p, st.target p = S.shows st.published camera time p :=
        fun hidle => shows_published h hidle hlast howed rfl (hmoved hidle) hr hpublished
      exact ⟨k, r, hpos, hhanded, hdrawn, hshown, hsink, hquiet, fun hidle =>
        ⟨camera, time, hlast, hshows hidle⟩⟩
    case isFalse =>
      cases hs
      refine ⟨k', version, hpos, hk', hpublished, ?_, hsink, hquiet, nofun⟩
      intro camera' time' hlast
      obtain ⟨rfl, rfl⟩ : camera = camera' ∧ time = time' := by
        simpa [renderFrame] using hlast
      exact shown_renderFrame h hr hversion hdamage

/-- A step of an unraced run keeps the invariant. -/
theorem InvAt.step {e : ViewportEvent κ τ π γ} (h : InvAt S k r st) (ha : Unraced e st)
    (hs : st.step S e = some st') : ∃ k' r', InvAt S k' r' st' := by
  cases e with
  | publish => exact ⟨k, r, h.publish hs⟩
  | flush => exact ⟨k, r, h.flush ha hs⟩
  | settle => exact ⟨k, r, h.settle hs⟩
  | pin camera time => exact ⟨k, r, h.pin hs⟩
  | drain => exact ⟨k, r, h.drain hs⟩
  | render late followUp => exact h.render hs

end HostViewport

open HostViewport

variable {κ τ π γ : Type} [DecidableEq κ] [DecidableEq τ] [DecidableEq π]

/-- A scene of one pixel that counts the commits. -/
private def counting : Scene Unit Unit Unit ℕ where
  shows v _ _ _ := v
  touches _ _ _ := True
  repaints _ _ _ _ damage _ := !damage.isEmpty
  touches_of_ne := fun _ _ _ _ _ => trivial
  repaints_of_touches := by
    rintro v c t t' damage p w hmem - -
    left
    rw [Bool.not_eq_true', List.isEmpty_eq_false_iff]
    exact List.ne_nil_of_mem hmem
  repaints_of_clock := fun _ _ _ _ _ _ hne => absurd rfl hne

/-- A step of the viewport into which events come between the pin and the drain. -/
private def stepAround (events : List (ViewportEvent Unit Unit Unit ℕ)) :
    List (ViewportEvent Unit Unit Unit ℕ) :=
  [.settle, .pin () ()] ++ events ++ [.drain, .render [] false]

/-- A viewport that has drawn a commit and is idle. -/
private def idleRun : List (ViewportEvent Unit Unit Unit ℕ) :=
  stepAround [] ++ [.publish, .flush] ++ stepAround [] ++ stepAround []

/-- A commit that publishes and flushes between the pin and the drain of a step. -/
private def racedRun : List (ViewportEvent Unit Unit Unit ℕ) :=
  stepAround [] ++ stepAround [.publish, .flush] ++ stepAround []

end ArbitraryComposer
