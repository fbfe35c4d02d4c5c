import ArbitraryComposer.Compositor.FrameValue
import ArbitraryComposer.Compositor.WalkTermination
import ArbitraryComposer.Runtime.StaleTiles

/-!
# The Damage of the Clock

When the clock moves forward and a moving layer is in the walk, the whole viewport is damaged.
Otherwise nothing is: neither when the clock moves back, nor when only static layers are there,
which may still enter or leave their spans.

## Main definitions

- `Viewport.HasPixel`, `DeviceRect.CoversPixel`: the pixels of a viewport and of a rectangle.
- `ClockCovers`: the damage of the clock covers every pixel that changes.

## Main results

- `clockCovers_iff`: when it does.
- `not_clockCovers_seek`: a seek to an earlier instant of a timed content.
-/

namespace ArbitraryComposer

open Double

/-! ## Pixels -/

/-- A pixel of a viewport. -/
def Viewport.HasPixel (v : Viewport) (x y : Int32) : Prop :=
  (0 ≤ x.toInt ∧ x.toInt < v.width) ∧ 0 ≤ y.toInt ∧ y.toInt < v.height

/-- A rectangle covers the corner of a pixel. -/
def DeviceRect.CoversPixel (r : DeviceRect) (x y : Int32) : Prop :=
  (r.x0.le (ofInt x.toInt) = true ∧ (ofInt x.toInt).lt r.x1 = true) ∧
    r.y0.le (ofInt y.toInt) = true ∧ (ofInt y.toInt).lt r.y1 = true

/-- Zero is not above a natural number. -/
private theorem le_ofInt {a b : ℤ} (ha : 0 ≤ a) (hab : a < b) :
    (0 : Double).le (ofInt a) = true ∧ (0 : Double).lt (ofInt b) = true := by
  have zero : (0 : Double) = ofInt 0 := by decide +kernel
  have hb : (0 : Double).lt (ofInt b) = true := by
    rw [zero]
    exact lt_ofInt le_rfl (ha.trans_lt hab) (by norm_num)
  refine ⟨?_, hb⟩
  rcases ha.eq_or_lt with rfl | ha
  · decide +kernel
  · have hlt : (0 : Double).lt (ofInt a) = true := by
      rw [zero]
      exact lt_ofInt le_rfl ha (by norm_num)
    simp only [lt, le, Bool.and_eq_true, decide_eq_true_eq] at hlt ⊢
    exact ⟨hlt.1, hlt.2.le⟩

/-- The rectangle of a viewport covers its pixels, so it is not empty when it has one. -/
theorem Viewport.coversPixel_deviceRect {v : Viewport} {x y : Int32} (h : v.HasPixel x y) :
    v.deviceRect.CoversPixel x y ∧ DeviceRect.empty v.deviceRect = false := by
  obtain ⟨⟨hx0, hx1⟩, hy0, hy1⟩ := h
  have hx := x.toInt_lt
  have hy := y.toInt_lt
  obtain ⟨lx, px⟩ := le_ofInt hx0 hx1
  obtain ⟨ly, py⟩ := le_ofInt hy0 hy1
  refine ⟨⟨⟨lx, lt_ofInt hx0 hx1 (by omega)⟩, ly, lt_ofInt hy0 hy1 (by omega)⟩, ?_⟩
  change (!((0 : Double).lt (ofInt v.width) && (0 : Double).lt (ofInt v.height))) = false
  rw [px, py]
  rfl

/-! ## The rectangles of the clock -/

/-- The report of a layer that the clock damages. -/
def WalkReport.moving {κ : Type} (library : ContentLibrary κ) : WalkReport → Bool
  | .visit _ layer _ => layer.moving library
  | .descend _ _ _ => false

section Rects

variable {κ : Type} {F : Frame κ} {R : InteractiveRenderer κ} {t0 : Int64}
  {reports : List WalkReport}

/-- The clock moved forward exactly when the interval is not empty. -/
private theorem advanced_empty (hprev : R.prevTime = some t0) :
    (R.advanced F).empty = !decide (t0 < F.time) := by
  rw [InteractiveRenderer.advanced, hprev, TimeRange.empty, ← decide_not]
  exact decide_eq_decide.mpr Int64.not_lt.symm

/-- A clock that does not move forward, and one that moves past static layers only, damages
nothing. -/
theorem clockRects_eq_nil (hprev : R.prevTime = some t0)
    (hwalk : cullWalk F.state F.turns F.viewport = some reports)
    (hstill : ¬ (t0 < F.time ∧ reports.any (WalkReport.moving F.library) = true)) :
    R.clockRects F = some [] := by
  have hdamage : R.clockDamage F = some [] := by
    cases hempty : (R.advanced F).empty with
    | true => rw [InteractiveRenderer.clockDamage, clockAdvanceDamage, if_pos hempty]
    | false =>
      obtain ⟨damage, hdamage, hobjects⟩ := @mem_objects_clockAdvanceDamage κ F.library _ _ _ _ _
        hwalk hempty
      rw [advanced_empty hprev, Bool.not_eq_false', decide_eq_true_eq] at hempty
      refine hdamage.trans (congrArg some (List.eq_nil_iff_forall_not_mem.mpr fun d hd => ?_))
      obtain ⟨layerId, layer, composed, he, hmoving, -⟩ :=
        (hobjects d.object).mp (List.mem_map_of_mem hd)
      exact hstill ⟨hempty, List.any_eq_true.mpr ⟨_, he, hmoving⟩⟩
  rw [InteractiveRenderer.clockRects, hdamage]
  rfl

/-- A clock that moves forward past a moving layer damages the whole viewport. -/
theorem deviceRect_mem_clockRects (hprev : R.prevTime = some t0)
    (hwalk : cullWalk F.state F.turns F.viewport = some reports) (hforward : t0 < F.time)
    (hmoving : reports.any (WalkReport.moving F.library) = true)
    (hview : DeviceRect.empty F.viewport.deviceRect = false) :
    ∃ rects, R.clockRects F = some rects ∧ F.viewport.deviceRect ∈ rects := by
  have hempty : (R.advanced F).empty = false := by
    rw [advanced_empty hprev, decide_eq_true hforward]
    rfl
  obtain ⟨damage, hdamage, hobjects⟩ := @mem_objects_clockAdvanceDamage κ F.library _ _ _ _ _
    hwalk hempty
  obtain ⟨e, he, hmoving⟩ := List.any_eq_true.mp hmoving
  cases e with
  | descend groupLayer childComposition composed => cases hmoving
  | visit layerId layer composed =>
    obtain ⟨d, hd, hobject⟩ := List.mem_map.mp
      ((hobjects layer.content).mpr ⟨layerId, layer, composed, he, hmoving, rfl⟩)
    obtain ⟨hrect, hrange⟩ := forall_clockAdvanceDamage hdamage d hd
    obtain ⟨rects, hrects, hmem⟩ := exists_mapDamageToDevice hwalk damage (R.advanced F).start
    refine ⟨rects, ?_, ?_⟩
    · have hne : damage.isEmpty = false := by
        cases damage with
        | nil => cases hd
        | cons d damage => rfl
      rw [InteractiveRenderer.clockRects, InteractiveRenderer.clockDamage, hdamage]
      change (if damage.isEmpty = true then some [] else _) = _
      rw [if_neg (by simp [hne])]
      exact hrects
    · -- the damage of the layer is gated where the interval starts, and matches the layer
      have hgate : (d.range.empty || d.range.contains (R.advanced F).start) = true := by
        rw [hrange, hempty, Bool.false_or]
        refine decide_eq_true ⟨Int64.le_refl _, ?_⟩
        rw [InteractiveRenderer.advanced, hprev]
        exact hforward
      have hmatch : composed ∈ (WalkReport.visit layerId layer composed).matches d.object := by
        obtain ⟨hseen, -⟩ := Bool.and_eq_true_iff.mp hmoving
        obtain ⟨hvisible, hopacity⟩ := Bool.and_eq_true_iff.mp hseen
        have hsighted : ¬ (layer.content ≠ d.object ∨ layer.visible = false ∨
            Double.le ⟨layer.opacity⟩ 0 = true) := by
          simp only [Bool.not_eq_true'] at hopacity
          simp [hobject, hvisible, hopacity]
        rw [WalkReport.matches, if_neg hsighted, ite_self]
        exact List.mem_singleton_self _
      have hwhole : damageRect F.viewport d.rect composed = F.viewport.deviceRect := by
        rw [hrect, damageRect, if_neg (by decide)]
      have := hmem d hd hgate _ ((mem_cullWalk hwalk _).mp he) composed hmatch
      rw [hwhole] at this
      exact this hview

end Rects

/-! ## The claim of the clock -/

/-- The damage of the clock covers what changes when it moves from `t0` to the instant of a frame:
for every look of the contents, a pixel of which the value changes lies in a rectangle of it, and
a frame that leaves early has the values of the frame before. -/
def ClockCovers {κ : Type} (F : Frame κ) (depth : ℕ) (t0 : Int64) : Prop :=
  ∀ R : InteractiveRenderer κ, R.prevTime = some t0 →
    ∀ rects before after, R.clockRects F = some rects →
      frameShown F.state F.library F.turns depth F.viewport t0 = some before →
      frameShown F.state F.library F.turns depth F.viewport F.time = some after →
        ∀ (γ : Type) (P : Painter κ γ) (x y : Int32), F.viewport.HasPixel x y →
          (frameValue P before x y ≠ frameValue P after x y → ∃ r ∈ rects, r.CoversPixel x y) ∧
          ∀ dirty, R.dirtyRects F = some dirty → R.takesEarlyOut F dirty = true →
            frameValue P before x y = frameValue P after x y

section Covers

variable {κ : Type} {F : Frame κ} {depth : ℕ} {t0 : Int64} {reports : List WalkReport}
  {before after : List (Shown κ)}

/-- A viewport without a pixel. -/
theorem Viewport.exists_hasPixel_iff {v : Viewport} :
    (∃ x y, v.HasPixel x y) ↔ 0 < v.width ∧ 0 < v.height := by
  constructor
  · rintro ⟨x, y, ⟨hx0, hx1⟩, hy0, hy1⟩
    exact ⟨hx0.trans_lt hx1, hy0.trans_lt hy1⟩
  · rintro ⟨hw, hh⟩
    exact ⟨0, 0, ⟨le_rfl, hw⟩, le_rfl, hh⟩

/-- The early-out leaves nothing of the clock. -/
private theorem clockRects_of_takesEarlyOut {R : InteractiveRenderer κ}
    {rects dirty : List DeviceRect} (hrects : R.clockRects F = some rects)
    (hdirty : R.dirtyRects F = some dirty) (hearly : R.takesEarlyOut F dirty = true) :
    rects = [] := by
  obtain ⟨hview, -⟩ := Bool.and_eq_true_iff.mp hearly
  obtain ⟨-, hempty⟩ := Bool.and_eq_true_iff.mp hview
  obtain ⟨model, -, hdirty⟩ := Option.bind_eq_some_iff.mp hdirty
  obtain ⟨clock, hclock, hdirty⟩ := Option.bind_eq_some_iff.mp hdirty
  cases hdirty
  obtain rfl := Option.some.inj (hrects.symm.trans hclock)
  exact (List.append_eq_nil_iff.mp (List.isEmpty_iff.mp hempty)).2

/-- Where the clock damages nothing and there is a pixel, the frame has to show the same. -/
theorem ClockCovers.eq_of_still (h : ClockCovers F depth t0)
    (hwalk : cullWalk F.state F.turns F.viewport = some reports)
    (hbefore : frameShown F.state F.library F.turns depth F.viewport t0 = some before)
    (hafter : frameShown F.state F.library F.turns depth F.viewport F.time = some after)
    (hstill : ¬ (t0 < F.time ∧ reports.any (WalkReport.moving F.library) = true))
    (hpixel : ∃ x y, F.viewport.HasPixel x y) : before = after := by
  obtain ⟨x, y, hpixel⟩ := hpixel
  have hprev : ({ prevTime := some t0 } : InteractiveRenderer κ).prevTime = some t0 := rfl
  have hnil := clockRects_eq_nil hprev hwalk hstill
  obtain ⟨hcover, -⟩ := h _ hprev [] before after hnil hbefore hafter _ (.free κ) x y hpixel
  by_contra hne
  -- the free painter shows the difference, and no rectangle is there to cover it
  obtain ⟨r, hr, -⟩ := hcover fun heq => hne (frameValue_free_inj heq)
  cases hr

/-- The damage of the clock covers every change exactly when the clock moves forward past a moving
layer of the walk, or the frame shows the same at both instants, or the viewport has no pixel. -/
theorem clockCovers_iff (hwalk : cullWalk F.state F.turns F.viewport = some reports)
    (hbefore : frameShown F.state F.library F.turns depth F.viewport t0 = some before)
    (hafter : frameShown F.state F.library F.turns depth F.viewport F.time = some after) :
    ClockCovers F depth t0 ↔
      (t0 < F.time ∧ reports.any (WalkReport.moving F.library) = true) ∨ before = after ∨
        ¬ (0 < F.viewport.width ∧ 0 < F.viewport.height) := by
  rw [← Viewport.exists_hasPixel_iff]
  constructor
  · intro h
    by_cases hmoving : t0 < F.time ∧ reports.any (WalkReport.moving F.library) = true
    · exact .inl hmoving
    refine .inr (or_iff_not_imp_right.mpr fun hpixel => ?_)
    exact h.eq_of_still hwalk hbefore hafter hmoving (not_not.mp hpixel)
  · intro h R hprev rects before' after' hrects hbefore' hafter' γ P x y hpixel
    obtain rfl := Option.some.inj (hbefore.symm.trans hbefore')
    obtain rfl := Option.some.inj (hafter.symm.trans hafter')
    obtain ⟨hcovers, hview⟩ := Viewport.coversPixel_deviceRect hpixel
    have hcover : frameValue P before x y ≠ frameValue P after x y →
        ∃ r ∈ rects, r.CoversPixel x y := by
      intro hne
      rcases h with ⟨hforward, hmoving⟩ | heq | hnone
      · obtain ⟨rects', hrects', hmem⟩ :=
          deviceRect_mem_clockRects hprev hwalk hforward hmoving hview
        obtain rfl := Option.some.inj (hrects.symm.trans hrects')
        exact ⟨_, hmem, hcovers⟩
      · exact absurd (congrArg (frameValue P · x y) heq) hne
      · exact absurd ⟨x, y, hpixel⟩ hnone
    refine ⟨hcover, fun dirty hdirty hearly => ?_⟩
    by_contra hne
    obtain ⟨r, hr, -⟩ := hcover hne
    rw [clockRects_of_takesEarlyOut hrects hdirty hearly] at hr
    cases hr

end Covers

/-! ## A timed content -/

/-- A timed content of 16 by 16 units, object 3. -/
def timedContent : ContentLibrary Unit := { stillContent with stability := fun _ => .timed }

/-- A frame of 16 by 16 pixels over the content at an instant. -/
def timedFrame (time : Int64) : Frame Unit :=
  { stillFrame 0 [] with library := timedContent, time := time }

/-- The frame shows the content at the instant. -/
private theorem shown_timedFrame (time : Int64) (h : time = 5 ∨ time = 10) :
    ∃ shown, frameShown (timedFrame 0).state timedContent 2 1 (timedFrame 0).viewport time =
      some shown ∧ shown.map Shown.achieved = [some time] := by
  have hmap : (frameShown (timedFrame 0).state timedContent 2 1 (timedFrame 0).viewport time).map
      (List.map Shown.achieved) = some [some time] := by
    rcases h with rfl | rfl <;> decide +kernel
  exact Option.map_eq_some_iff.mp hmap

/-- The walk reports the layer. -/
private theorem cullWalk_timedFrame :
    ∃ reports, cullWalk (timedFrame 0).state 2 (timedFrame 0).viewport = some reports ∧
      reports.any (WalkReport.moving timedContent) = true := by
  have hany : (cullWalk (timedFrame 0).state 2 (timedFrame 0).viewport).any
      (List.any · (WalkReport.moving timedContent)) = true := by decide +kernel
  exact (Option.any_eq_true _ _).mp hany

/-- The clock moves forward over a timed content. -/
theorem clockCovers_iff_forward : ClockCovers (timedFrame 10) 1 5 := by
  obtain ⟨before, hbefore, -⟩ := shown_timedFrame 5 (.inl rfl)
  obtain ⟨after, hafter, -⟩ := shown_timedFrame 10 (.inr rfl)
  obtain ⟨reports, hwalk, hmoving⟩ := cullWalk_timedFrame
  exact (clockCovers_iff (F := timedFrame 10) hwalk hbefore hafter).mpr
    (.inl ⟨by decide, hmoving⟩)

/-- A seek to an earlier instant shows other pixels and damages nothing. -/
theorem not_clockCovers_seek : ¬ ClockCovers (timedFrame 5) 1 10 := by
  intro h
  obtain ⟨before, hbefore, hten⟩ := shown_timedFrame 10 (.inr rfl)
  obtain ⟨after, hafter, hfive⟩ := shown_timedFrame 5 (.inl rfl)
  obtain ⟨reports, hwalk, -⟩ := cullWalk_timedFrame
  have heq := h.eq_of_still hwalk hbefore hafter (fun hmoving => absurd hmoving.1 (by decide))
    (Viewport.exists_hasPixel_iff.mpr ⟨by decide, by decide⟩)
  rw [heq, hfive] at hten
  exact absurd hten (by decide)

end ArbitraryComposer
