import ArbitraryComposer.Base.BandSweep
import ArbitraryComposer.Model.Coalescing

/-!
# Repaint Regions Are an Exact Cover

The rectangles that are drawn again have whole coordinates, and whole coordinates compare as
integers do. So the sweep of the compositor is the sweep over integers: its rectangles are
disjoint, lie in the viewport and cover the damage, rounded out and clipped, exactly. Where there
are too many of them one rectangle around all the damage is drawn.

## Main definitions

- `Embeds`: coordinates that compare as doubles do.
- `pixelRect`, `pixelInputs`: damage in the viewport, rounded out to whole pixels.
- `bandDecomposition`: the rectangles of all bands, however many.
- `Damaged`, `ExactCover`: the points of the damage, and regions that cover them.

## Main results

- `Embeds.sweepBands_embedRect`, `repaintRegions_eq`: the sweep is that over integers.
- `repaintRegions_exactCover`: the regions are disjoint and cover the damage exactly.
-/

namespace ArbitraryComposer

open Double BandSweep

/-! ## Coordinates that compare as doubles do -/

/-- Coordinates that compare as doubles do. -/
structure Embeds {α : Type*} [LinearOrder α] (ι : α → Double) : Prop where
  /-- At most. -/
  le (a b : α) : (ι a).le (ι b) = decide (a ≤ b)
  /-- Less. -/
  lt (a b : α) : (ι a).lt (ι b) = decide (a < b)
  /-- Equal. -/
  beq (a b : α) : (ι a).beq (ι b) = decide (a = b)
  /-- The greater of two. -/
  max (a b : α) : (ι a).max (ι b) = ι (max a b)
  /-- The lesser of two. -/
  min (a b : α) : (ι a).min (ι b) = ι (min a b)

section Embedding

variable {α : Type*} [LinearOrder α] {ι : α → Double} {inputs : List (Rect α)}

/-- A rectangle, for the compositor. -/
def embedRect (ι : α → Double) (r : Rect α) : DeviceRect := ⟨ι r.x0, ι r.y0, ι r.x1, ι r.y1⟩

/-- A run, for the compositor. -/
def embedRun (ι : α → Double) (run : α × α) : Double × Double := (ι run.1, ι run.2)

namespace Embeds

variable (h : Embeds ι)

include h

theorem injective : Function.Injective ι := by
  intro a b hab
  have hab' := h.le a b
  have hba' := h.le b a
  rw [hab, h.le, decide_eq_true (le_rfl : b ≤ b)] at hab' hba'
  exact le_antisymm (of_decide_eq_true hab'.symm) (of_decide_eq_true hba'.symm)

theorem embedRun_injective : Function.Injective (embedRun ι) := by
  intro run run' hrun
  obtain ⟨h0, h1⟩ := Prod.mk.injEq _ _ _ _ ▸ hrun
  exact Prod.ext (h.injective h0) (h.injective h1)

theorem empty_embedRect (r : Rect α) : (embedRect ι r).empty = r.empty := by
  rw [DeviceRect.empty, Rect.empty, embedRect, h.lt, h.lt]

theorem runBefore_embedRun (run run' : α × α) :
    before run run' ↔ runBefore (embedRun ι run) (embedRun ι run') = true := by
  simp [runBefore, embedRun, h.lt, before]

theorem absorb_embedRun (run : α × α) (rest : List (α × α)) :
    (mergeRuns.absorb (embedRun ι run) (rest.map (embedRun ι))).1 ::
      (mergeRuns.absorb (embedRun ι run) (rest.map (embedRun ι))).2 =
        (absorb run rest).map (embedRun ι) := by
  induction rest generalizing run with
  | nil => rfl
  | cons next rest ih =>
    rw [List.map_cons, mergeRuns.absorb, absorb]
    have hle : (embedRun ι next).1.le (embedRun ι run).2 = decide (next.1 ≤ run.2) := h.le _ _
    rw [hle]
    by_cases htouch : next.1 ≤ run.2
    · rw [if_pos (decide_eq_true htouch), if_pos htouch]
      have hmax : ((embedRun ι run).1, (embedRun ι run).2.max (embedRun ι next).2) =
          embedRun ι (run.1, Max.max run.2 next.2) := by
        rw [embedRun, embedRun, embedRun, h.max]
      rw [hmax]
      exact ih _
    · rw [if_neg (by rwa [decide_eq_true_iff]), if_neg htouch]
      exact congrArg _ (ih next)

/-- The runs of a band. -/
theorem bandRuns_embedRect (inputs : List (Rect α)) (y0 y1 : α) :
    bandRuns (inputs.map (embedRect ι)) (ι y0) (ι y1) =
      (runs inputs y0 y1).map (embedRun ι) := by
  have hfilter : ((inputs.map (embedRect ι)).filter fun r =>
      r.y0.le (ι y0) && (ι y1).le r.y1) =
        (inputs.filter fun r => decide (r.y0 ≤ y0 ∧ y1 ≤ r.y1)).map (embedRect ι) := by
    rw [List.filter_map]
    refine congrArg _ (List.filter_congr fun r _ => ?_)
    show ((embedRect ι r).y0.le (ι y0) && (ι y1).le (embedRect ι r).y1) = _
    rw [embedRect, h.le, h.le, Bool.decide_and]
  have hmap : ∀ l : List (Rect α), (l.map (embedRect ι)).map (fun r => (r.x0, r.x1)) =
      (l.map fun r => (r.x0, r.x1)).map (embedRun ι) := by
    intro l
    rw [List.map_map, List.map_map]
    rfl
  rw [bandRuns, runs, hfilter, hmap, ← List.map_insertionSort before
    (fun a b => runBefore a b = true) (embedRun ι) _
    fun a _ b _ => h.runBefore_embedRun a b]
  cases ((inputs.filter fun r => decide (r.y0 ≤ y0 ∧ y1 ≤ r.y1)).map fun r =>
    (r.x0, r.x1)).insertionSort before with
  | nil => rfl
  | cons run rest => exact h.absorb_embedRun run rest

/-- The edges of the bands. -/
theorem edges_embedRect (inputs : List (Rect α)) :
    (((inputs.map (embedRect ι)).flatMap fun r => [r.y0, r.y1]).insertionSort fun a b =>
      b.lt a = false).destutter (fun a b => a.beq b = false) = (edges inputs).map ι := by
  have hflat : ((inputs.map (embedRect ι)).flatMap fun r => [r.y0, r.y1]) =
      (inputs.flatMap fun r => [r.y0, r.y1]).map ι := by
    rw [List.flatMap_map, List.map_flatMap]
    rfl
  have hle : ∀ a b : α, a ≤ b ↔ (ι b).lt (ι a) = false := by
    intro a b
    rw [h.lt, decide_eq_false_iff_not, not_lt]
  have hne : ∀ a b : α, a ≠ b ↔ (ι a).beq (ι b) = false := by
    intro a b
    rw [h.beq, decide_eq_false_iff_not]
  rw [hflat, edges, ← List.map_insertionSort (· ≤ ·) (fun a b => b.lt a = false) ι _
    fun a _ b _ => hle a b]
  exact (List.map_destutter fun a _ b _ => hne a b).symm

/-- The sweep of the compositor, up to its limit. -/
theorem sweepBands_embedRect (inputs : List (Rect α)) (all : List α)
    (done below : List (Rect α)) (hlength : (below ++ done).length ≤ maxRepaintRects) :
    sweepBands (inputs.map (embedRect ι)) (all.map ι) (done.map (embedRect ι))
      (below.map (embedRect ι)) =
        if (sweep inputs all done below).length ≤ maxRepaintRects then
          some ((sweep inputs all done below).map (embedRect ι))
        else none := by
  have hlast : ∀ {done below : List (Rect α)}, (below ++ done).length ≤ maxRepaintRects →
      some (below.map (embedRect ι) ++ done.map (embedRect ι)).reverse =
        if (below ++ done).reverse.length ≤ maxRepaintRects then
          some ((below ++ done).reverse.map (embedRect ι)) else none := by
    intro done below hlength
    rw [List.length_reverse, if_pos hlength, ← List.map_append, List.map_reverse]
  induction all generalizing done below with
  | nil => exact hlast hlength
  | cons y0 all ih =>
    cases all with
    | nil => exact hlast hlength
    | cons y1 all =>
      have hruns : ((runs inputs y0 y1).map (embedRun ι)).isEmpty =
          (runs inputs y0 y1).isEmpty := List.isEmpty_map
      have hbelow : (below.map (embedRect ι)).reverse.map (fun r => (r.x0, r.x1)) =
          (below.reverse.map fun r => (r.x0, r.x1)).map (embedRun ι) := by
        rw [← List.map_reverse, List.map_map, List.map_map]
        rfl
      have hband : (((runs inputs y0 y1).map (embedRun ι)).map fun run =>
          (⟨run.1, ι y0, run.2, ι y1⟩ : DeviceRect)).reverse =
            (band (runs inputs y0 y1) y0 y1).map (embedRect ι) := by
        rw [band, List.map_reverse, List.map_map, List.map_map]
        rfl
      have hextend : (below.map (embedRect ι)).map (fun r => { r with y1 := ι y1 }) =
          (below.map fun r => { r with y1 := y1 }).map (embedRect ι) := by
        rw [List.map_map, List.map_map]
        rfl
      rw [List.map_cons, List.map_cons, sweepBands, sweep]
      dsimp only
      simp only [h.bandRuns_embedRect, hruns, hbelow, h.embedRun_injective.list_map.eq_iff,
        hband, hextend, ← List.map_append]
      by_cases hempty : (runs inputs y0 y1).isEmpty = true
      · rw [if_pos hempty, if_pos hempty]
        exact ih (below ++ done) [] hlength
      rw [if_neg hempty, if_neg hempty]
      by_cases hsame : runs inputs y0 y1 = below.reverse.map fun r => (r.x0, r.x1)
      · rw [if_pos hsame, if_pos hsame]
        apply ih done (below.map fun r => { r with y1 := y1 })
        simpa using hlength
      rw [if_neg hsame, if_neg hsame, List.length_map, List.append_assoc]
      split
      case isTrue hlimit =>
        -- the sweep never gives rectangles back
        have hle := length_le_sweep inputs (y1 :: all) (below ++ done)
          (band (runs inputs y0 y1) y0 y1)
        rw [if_neg (Nat.not_le.mpr (Nat.lt_of_lt_of_le hlimit hle))]
      case isFalse hlimit =>
        exact ih (below ++ done) (band (runs inputs y0 y1) y0 y1) (Nat.not_lt.mp hlimit)

end Embeds

end Embedding

/-! ## Whole pixels -/

/-- An integer that fits the significand, and a remainder of any other. -/
def wholeOf (z : ℤ) : Whole := Fin.ofNat _ z.toNat

/-- A rectangle with whole coordinates, for the compositor. -/
def toDevice (r : Rect Whole) : DeviceRect := embedRect Whole.toDouble r

/-- Integers compare as doubles do. -/
theorem embeds_toDouble : Embeds Whole.toDouble where
  le a b := (Whole.le_toDouble a b).trans (decide_eq_decide.mpr Iff.rfl)
  lt a b := (Whole.lt_toDouble a b).trans (decide_eq_decide.mpr Iff.rfl)
  beq a b := (Whole.beq_toDouble a b).trans (decide_eq_decide.mpr Iff.rfl)
  max := Whole.max_toDouble
  min := Whole.min_toDouble

/-- A rectangle rounded out to whole pixels. -/
def pixelRect (r : DeviceRect) : Rect Whole :=
  ⟨wholeOf r.x0.floorInt, wholeOf r.y0.floorInt, wholeOf r.x1.ceilInt, wholeOf r.y1.ceilInt⟩

/-- The damage in the viewport, rounded out to whole pixels. -/
def pixelInputs (dirty : List DeviceRect) (viewport : Viewport) : List (Rect Whole) :=
  dirty.filterMap fun r =>
    if (DeviceRect.intersect r viewport.deviceRect).empty then none
    else some (pixelRect (r.intersect viewport.deviceRect))

/-- The rectangles of all bands, however many they are. -/
def bandDecomposition (dirty : List DeviceRect) (viewport : Viewport) : List (Rect Whole) :=
  decomposition (pixelInputs dirty viewport)

section Clipping

variable {a b : Double} {w z : ℤ}

theorem wholeOf_val (h0 : 0 ≤ z) (h : z < 2 ^ 53) : ((wholeOf z).val : ℤ) = z := by
  have hlt : z.toNat < 2 ^ 53 := by omega
  rw [wholeOf, Fin.val_ofNat, Nat.mod_eq_of_lt hlt]
  omega

theorem toDouble_wholeOf (h0 : 0 ≤ z) (h : z < 2 ^ 53) : (wholeOf z).toDouble = ofInt z := by
  rw [Whole.toDouble, wholeOf_val h0 h]

/-- What is not a number stays so when it is clipped. -/
theorem clipped_numbers {c d : Double} (h : (a.max c).lt (b.min d) = true) :
    a.isNaN = false ∧ b.isNaN = false := by
  obtain ⟨hnan0, hnan1, -⟩ := lt_iff.mp h
  constructor
  · by_contra hnan
    rw [Bool.not_eq_false] at hnan
    rw [Double.max, if_neg (by rw [lt_iff, hnan]; simp), hnan] at hnan0
    cases hnan0
  · by_contra hnan
    rw [Bool.not_eq_false] at hnan
    rw [Double.min, if_neg (by rw [lt_iff, hnan]; simp), hnan] at hnan1
    cases hnan1

/-- A side of a clipped rectangle that is not empty, rounded out. -/
theorem clipped_side (hw : w < 2 ^ 53) (h : (a.max 0).lt (b.min (ofInt w)) = true) :
    0 ≤ (a.max 0).floorInt ∧ (a.max 0).floorInt < (b.min (ofInt w)).ceilInt ∧
      (b.min (ofInt w)).ceilInt ≤ w := by
  obtain ⟨hnan0, hnan1, hkey⟩ := lt_iff.mp h
  obtain ⟨ha, hb⟩ := clipped_numbers h
  have hzero : (0 : Double) = ofInt (0 : ℕ) := by decide +kernel
  have hge : (0 : ℤ) ≤ (a.max 0).key := by
    rw [key_max ha (by decide +kernel)]
    exact le_max_right _ _
  have hpos : 0 < w := by
    by_contra hle
    obtain ⟨hnonpos, hnan⟩ := key_ofInt_nonpos (not_lt.mp hle)
    rw [key_min hb hnan] at hkey
    omega
  obtain ⟨n, rfl⟩ := Int.eq_ofNat_of_zero_le hpos.le
  have hn : n < 2 ^ 53 := by omega
  refine ⟨?_, floorInt_lt_ceilInt h, ?_⟩
  · refine (ofInt_le_iff (k := 0) (by decide) hnan0).mp ?_
    rw [← hzero, le_iff]
    exact ⟨by decide +kernel, hnan0, hge⟩
  · refine (le_ofInt_iff hn hnan1).mp ?_
    rw [le_iff, key_min hb (units_ofInt hn).2.1]
    exact ⟨hnan1, (units_ofInt hn).2.1, min_le_right _ _⟩

variable {r : DeviceRect} {viewport : Viewport}

/-- The sides of clipped damage that is not empty. -/
theorem clipped_sides (hw : viewport.width < 2 ^ 53) (hh : viewport.height < 2 ^ 53)
    (h : (r.intersect viewport.deviceRect).empty = false) :
    (0 ≤ (r.intersect viewport.deviceRect).x0.floorInt ∧
      (r.intersect viewport.deviceRect).x0.floorInt <
        (r.intersect viewport.deviceRect).x1.ceilInt ∧
      (r.intersect viewport.deviceRect).x1.ceilInt ≤ viewport.width) ∧
    0 ≤ (r.intersect viewport.deviceRect).y0.floorInt ∧
      (r.intersect viewport.deviceRect).y0.floorInt <
        (r.intersect viewport.deviceRect).y1.ceilInt ∧
      (r.intersect viewport.deviceRect).y1.ceilInt ≤ viewport.height := by
  obtain ⟨hx, hy⟩ := DeviceRect.not_empty_iff.mp h
  exact ⟨clipped_side hw hx, clipped_side hh hy⟩

/-- A rectangle in the viewport with two sides. -/
structure Placed (viewport : Viewport) (p : Rect Whole) : Prop where
  /-- It has two sides. -/
  sides : p.x0 < p.x1 ∧ p.y0 < p.y1
  /-- It ends in the viewport. -/
  inside : (p.x1.val : ℤ) ≤ viewport.width ∧ (p.y1.val : ℤ) ≤ viewport.height

/-- Clipped damage that is rounded out lies in the viewport. -/
theorem placed_pixelRect (hw : viewport.width < 2 ^ 53) (hh : viewport.height < 2 ^ 53)
    (h : (r.intersect viewport.deviceRect).empty = false) :
    Placed viewport (pixelRect (r.intersect viewport.deviceRect)) ∧
      toDevice (pixelRect (r.intersect viewport.deviceRect)) =
        DeviceRect.roundOut (r.intersect viewport.deviceRect) := by
  obtain ⟨⟨hx0, hx, hx1⟩, hy0, hy, hy1⟩ := clipped_sides hw hh h
  generalize r.intersect viewport.deviceRect = c at *
  have hlt : ∀ {u v : ℤ}, 0 ≤ u → u < v → v < 2 ^ 53 → wholeOf u < wholeOf v := by
    intro u v hu huv hv
    have hu' := wholeOf_val hu (huv.trans hv)
    have hv' := wholeOf_val (hu.trans huv.le) hv
    exact Fin.lt_def.mpr (by omega)
  refine ⟨⟨⟨hlt hx0 hx (by omega), hlt hy0 hy (by omega)⟩, ?_, ?_⟩, ?_⟩
  · show ((wholeOf c.x1.ceilInt).val : ℤ) ≤ _
    rwa [wholeOf_val (by omega) (by omega)]
  · show ((wholeOf c.y1.ceilInt).val : ℤ) ≤ _
    rwa [wholeOf_val (by omega) (by omega)]
  · rw [toDevice, embedRect, pixelRect, DeviceRect.roundOut, toDouble_wholeOf hx0 (by omega),
      toDouble_wholeOf hy0 (by omega), toDouble_wholeOf (by omega) (by omega),
      toDouble_wholeOf (by omega) (by omega)]

/-- A rectangle that lies in the viewport is not clipped. -/
theorem intersect_toDevice {p : Rect Whole} (h : Placed viewport p)
    (hw : viewport.width < 2 ^ 53) (hh : viewport.height < 2 ^ 53) :
    (toDevice p).intersect viewport.deviceRect = toDevice p := by
  have hzero : (0 : Double) = (0 : Whole).toDouble := by decide +kernel
  have hbegin : ∀ u : Whole, u.toDouble.max 0 = u.toDouble := by
    intro u
    rw [hzero, Whole.max_toDouble, max_eq_left (Fin.zero_le u)]
  have hend : ∀ {u : Whole} {w : ℤ}, (u.val : ℤ) ≤ w → w < 2 ^ 53 →
      u.toDouble.min (ofInt w) = u.toDouble := by
    intro u w hu hw
    have hval := wholeOf_val ((Int.natCast_nonneg _).trans hu) hw
    rw [← toDouble_wholeOf ((Int.natCast_nonneg _).trans hu) hw, Whole.min_toDouble,
      min_eq_left (Fin.le_def.mpr (by omega))]
  show (⟨p.x0.toDouble.max 0, p.y0.toDouble.max 0, p.x1.toDouble.min (ofInt viewport.width),
    p.y1.toDouble.min (ofInt viewport.height)⟩ : DeviceRect) = toDevice p
  rw [hbegin, hbegin, hend h.inside.1 hw, hend h.inside.2 hh]
  rfl

theorem empty_toDevice (p : Rect Whole) : (toDevice p).empty = p.empty :=
  embeds_toDouble.empty_embedRect p

/-- The damage the compositor sweeps over. -/
theorem integerInputs_eq (hw : viewport.width < 2 ^ 53) (hh : viewport.height < 2 ^ 53)
    (dirty : List DeviceRect) :
    integerInputs dirty viewport.deviceRect = (pixelInputs dirty viewport).map toDevice := by
  rw [integerInputs, pixelInputs, List.map_filterMap]
  refine List.filterMap_congr fun r _ => ?_
  dsimp only
  cases hclip : (DeviceRect.intersect r viewport.deviceRect).empty with
  | true => rfl
  | false =>
    obtain ⟨hplaced, hround⟩ := placed_pixelRect hw hh hclip
    have hne : (pixelRect (r.intersect viewport.deviceRect)).empty = false := by
      rw [Rect.empty, decide_eq_true hplaced.sides.1, decide_eq_true hplaced.sides.2]
      rfl
    rw [← hround, intersect_toDevice hplaced hw hh, empty_toDevice, hne]
    rfl

theorem placed_pixelInputs (hw : viewport.width < 2 ^ 53) (hh : viewport.height < 2 ^ 53)
    (dirty : List DeviceRect) : ∀ p ∈ pixelInputs dirty viewport, Placed viewport p := by
  intro p hp
  obtain ⟨r, -, hr⟩ := List.mem_filterMap.mp hp
  split at hr
  · cases hr
  · rename_i hclip
    cases hr
    exact (placed_pixelRect hw hh ((Bool.not_eq_true _).mp hclip)).1

end Clipping

/-! ## One rectangle around the damage -/

section Bound

variable {viewport : Viewport} {a b : DeviceRect} {p q : Rect Whole}

/-- A rectangle in the viewport and what it is rounded out to. -/
structure Rounded (viewport : Viewport) (a : DeviceRect) (p : Rect Whole) : Prop where
  /-- The rectangle is not empty. -/
  not_empty : a.empty = false
  /-- The rounded one lies in the viewport. -/
  placed : Placed viewport p
  /-- Its left and its top edge. -/
  floors : a.x0.floorInt = p.x0.val ∧ a.y0.floorInt = p.y0.val
  /-- Its right and its bottom edge. -/
  ceils : a.x1.ceilInt = p.x1.val ∧ a.y1.ceilInt = p.y1.val

theorem Placed.empty_eq (h : Placed viewport p) : p.empty = false := by
  rw [Rect.empty, decide_eq_true h.sides.1, decide_eq_true h.sides.2]
  rfl

/-- Clipped damage, rounded out. -/
theorem rounded_pixelRect {r : DeviceRect} (hw : viewport.width < 2 ^ 53)
    (hh : viewport.height < 2 ^ 53) (h : (r.intersect viewport.deviceRect).empty = false) :
    Rounded viewport (r.intersect viewport.deviceRect)
      (pixelRect (r.intersect viewport.deviceRect)) := by
  obtain ⟨⟨hx0, hx, hx1⟩, hy0, hy, hy1⟩ := clipped_sides hw hh h
  exact ⟨h, (placed_pixelRect hw hh h).1,
    ⟨(wholeOf_val hx0 (by omega)).symm, (wholeOf_val hy0 (by omega)).symm⟩,
    (wholeOf_val (by omega) (by omega)).symm, (wholeOf_val (by omega) (by omega)).symm⟩

theorem floorInt_min {x y : Double} (hx : x.isNaN = false) (hy : y.isNaN = false) :
    (x.min y).floorInt = min x.floorInt y.floorInt := by
  rw [Double.min]
  split
  case isTrue hlt => rw [min_eq_right (floorInt_mono (lt_iff.mp hlt).2.2.le)]
  case isFalse hlt =>
    rw [min_eq_left (floorInt_mono ((not_lt_iff hy hx).mp ((Bool.not_eq_true _).mp hlt)))]

theorem ceilInt_max {x y : Double} (hx : x.isNaN = false) (hy : y.isNaN = false) :
    (x.max y).ceilInt = max x.ceilInt y.ceilInt := by
  rw [Double.max]
  split
  case isTrue hlt => rw [max_eq_right (ceilInt_mono (lt_iff.mp hlt).2.2.le)]
  case isFalse hlt =>
    rw [max_eq_left (ceilInt_mono ((not_lt_iff hx hy).mp ((Bool.not_eq_true _).mp hlt)))]

/-- Rounding out commutes with the union. -/
theorem Rounded.union (ha : Rounded viewport a p) (hb : Rounded viewport b q) :
    Rounded viewport (DeviceRect.union a b) (rectUnion p q) := by
  obtain ⟨hax, hay⟩ := DeviceRect.not_empty_iff.mp ha.not_empty
  obtain ⟨hbx, hby⟩ := DeviceRect.not_empty_iff.mp hb.not_empty
  obtain ⟨ha0, ha1, -⟩ := lt_iff.mp hax
  obtain ⟨ha2, ha3, -⟩ := lt_iff.mp hay
  obtain ⟨hb0, hb1, -⟩ := lt_iff.mp hbx
  obtain ⟨hb2, hb3, -⟩ := lt_iff.mp hby
  have hcorner : a.Holds a.x0 a.y0 :=
    ⟨⟨Double.le_refl ha0, hax⟩, Double.le_refl ha2, hay⟩
  have hunion : DeviceRect.union a b =
      ⟨a.x0.min b.x0, a.y0.min b.y0, a.x1.max b.x1, a.y1.max b.y1⟩ := by
    rw [DeviceRect.union, ha.not_empty, hb.not_empty]
    rfl
  have hrect : rectUnion p q =
      ⟨min p.x0 q.x0, min p.y0 q.y0, max p.x1 q.x1, max p.y1 q.y1⟩ := by
    rw [rectUnion, ha.placed.empty_eq, hb.placed.empty_eq]
    rfl
  refine ⟨(DeviceRect.holds_union (Or.inl hcorner)).not_empty, ?_, ?_, ?_⟩
  · rw [hrect]
    obtain ⟨hpx, hpy⟩ := ha.placed.sides
    refine ⟨⟨(min_le_left _ _).trans_lt (hpx.trans_le (le_max_left _ _)),
      (min_le_left _ _).trans_lt (hpy.trans_le (le_max_left _ _))⟩, ?_, ?_⟩
    · show ((max p.x1 q.x1).val : ℤ) ≤ _
      rcases max_choice p.x1 q.x1 with heq | heq
      · rw [heq]
        exact ha.placed.inside.1
      · rw [heq]
        exact hb.placed.inside.1
    · show ((max p.y1 q.y1).val : ℤ) ≤ _
      rcases max_choice p.y1 q.y1 with heq | heq
      · rw [heq]
        exact ha.placed.inside.2
      · rw [heq]
        exact hb.placed.inside.2
  · have hval : ∀ u v : Whole, ((min u v).val : ℤ) = min (u.val : ℤ) v.val := by
      intro u v
      rcases le_total u v with h | h
      · rw [min_eq_left h, min_eq_left (Int.ofNat_le.mpr h)]
      · rw [min_eq_right h, min_eq_right (Int.ofNat_le.mpr h)]
    rw [hunion, hrect]
    show (a.x0.min b.x0).floorInt = ((min p.x0 q.x0).val : ℤ) ∧
      (a.y0.min b.y0).floorInt = ((min p.y0 q.y0).val : ℤ)
    rw [floorInt_min ha0 hb0, floorInt_min ha2 hb2, hval, hval, ha.floors.1, ha.floors.2,
      hb.floors.1, hb.floors.2]
    exact ⟨rfl, rfl⟩
  · have hval : ∀ u v : Whole, ((max u v).val : ℤ) = max (u.val : ℤ) v.val := by
      intro u v
      rcases le_total u v with h | h
      · rw [max_eq_right h, max_eq_right (Int.ofNat_le.mpr h)]
      · rw [max_eq_left h, max_eq_left (Int.ofNat_le.mpr h)]
    rw [hunion, hrect]
    show (a.x1.max b.x1).ceilInt = ((max p.x1 q.x1).val : ℤ) ∧
      (a.y1.max b.y1).ceilInt = ((max p.y1 q.y1).val : ℤ)
    rw [ceilInt_max ha1 hb1, ceilInt_max ha3 hb3, hval, hval, ha.ceils.1, ha.ceils.2,
      hb.ceils.1, hb.ceils.2]
    exact ⟨rfl, rfl⟩

/-- What is rounded out to a rectangle in the viewport. -/
theorem Rounded.roundOut_eq (h : Rounded viewport a p) : DeviceRect.roundOut a = toDevice p := by
  rw [DeviceRect.roundOut, h.floors.1, h.floors.2, h.ceils.1, h.ceils.2]
  rfl

/-- The box around the damage, while it is gathered: still empty, or not. -/
private theorem rounded_foldl (hw : viewport.width < 2 ^ 53) (hh : viewport.height < 2 ^ 53)
    (dirty : List DeviceRect) {box : DeviceRect} {start : Rect Whole}
    (h : box = ⟨0, 0, 0, 0⟩ ∧ start = ⟨0, 0, 0, 0⟩ ∨ Rounded viewport box start) :
    let all := dirty.foldl (fun box r =>
      if (DeviceRect.intersect r viewport.deviceRect).empty then box
      else DeviceRect.union box (r.intersect viewport.deviceRect)) box
    (all = ⟨0, 0, 0, 0⟩ ∧ bound start (pixelInputs dirty viewport) = ⟨0, 0, 0, 0⟩) ∨
      Rounded viewport all (bound start (pixelInputs dirty viewport)) := by
  induction dirty generalizing box start with
  | nil => exact h
  | cons r dirty ih =>
    cases hclip : (DeviceRect.intersect r viewport.deviceRect).empty with
    | true =>
      rw [List.foldl_cons, if_pos hclip, pixelInputs, List.filterMap_cons, if_pos hclip]
      exact ih h
    | false =>
      have hmiss : ¬ (DeviceRect.intersect r viewport.deviceRect).empty = true := by
        rw [hclip]
        exact Bool.false_ne_true
      have hround := rounded_pixelRect hw hh hclip
      rw [List.foldl_cons, if_neg hmiss, pixelInputs, List.filterMap_cons, if_neg hmiss]
      refine @ih _ (rectUnion start (pixelRect (r.intersect viewport.deviceRect))) ?_
      rcases h with ⟨rfl, rfl⟩ | h
      · -- the first rectangle replaces the empty box
        refine Or.inr ?_
        have hbox : DeviceRect.empty ⟨0, 0, 0, 0⟩ = true := by decide +kernel
        have hstart : Rect.empty (⟨0, 0, 0, 0⟩ : Rect Whole) = true := by decide +kernel
        rwa [DeviceRect.union, if_pos hbox, rectUnion, if_pos hstart]
      · exact Or.inr (h.union hround)

/-- One rectangle around the damage, over whole coordinates. -/
theorem repaintRegion_eq (hw : viewport.width < 2 ^ 53) (hh : viewport.height < 2 ^ 53)
    (dirty : List DeviceRect) :
    repaintRegion dirty viewport =
      toDevice (bound ⟨0, 0, 0, 0⟩ (pixelInputs dirty viewport)) := by
  have hzero : (⟨0, 0, 0, 0⟩ : DeviceRect) = toDevice ⟨0, 0, 0, 0⟩ := by decide +kernel
  have hbox : DeviceRect.empty ⟨0, 0, 0, 0⟩ = true := by decide +kernel
  rw [repaintRegion]
  rcases rounded_foldl hw hh dirty (Or.inl ⟨rfl, rfl⟩) with ⟨hall, hbound⟩ | hround
  · rw [hbound, hall, if_pos hbox, hzero]
  · rw [hround.not_empty, hround.roundOut_eq, intersect_toDevice hround.placed hw hh]
    rfl

end Bound

/-! ## The points of the regions -/

section Points

variable {viewport : Viewport} {rects : List (Rect Whole)} {x y : Double}

/-- The whole pixel a point lies in. -/
structure InPixel (x y : Double) (q : Whole × Whole) : Prop where
  /-- Both coordinates are numbers. -/
  numbers : x.isNaN = false ∧ y.isNaN = false
  /-- The pixel begins at or before the point, and the next one after it. -/
  floors : x.floorInt = q.1.val ∧ y.floorInt = q.2.val

theorem InPixel.unique {q q' : Whole × Whole} (h : InPixel x y q) (h' : InPixel x y q') :
    q = q' := by
  have hx := h.floors.1.symm.trans h'.floors.1
  have hy := h.floors.2.symm.trans h'.floors.2
  exact Prod.ext (Fin.ext (by omega)) (Fin.ext (by omega))

private theorem not_isNaN_of_le {a b : Double} (h : a.le b = true) : b.isNaN = false :=
  (le_iff.mp h).2.1

private theorem lt_toDouble_iff {a : Whole} (hx : x.isNaN = false) :
    x.lt a.toDouble = true ↔ x.floorInt < a.val := by
  have hle := ofInt_le_iff a.isLt hx
  have hnan := Whole.isNaN_toDouble a
  rw [Whole.toDouble] at hnan ⊢
  rw [lt_iff, ← not_le, ← Int.not_le, ← hle, le_iff, hx, hnan]
  simp only [true_and]

/-- The points of a rectangle with whole coordinates are those of its pixels. -/
theorem holds_toDevice {p : Rect Whole} :
    (toDevice p).Holds x y ↔ ∃ q ∈ p.toSet, InPixel x y q := by
  constructor
  · rintro ⟨⟨hx0, hx1⟩, hy0, hy1⟩
    have hx := not_isNaN_of_le hx0
    have hy := not_isNaN_of_le hy0
    have hx0' := (ofInt_le_iff p.x0.isLt hx).mp hx0
    have hy0' := (ofInt_le_iff p.y0.isLt hy).mp hy0
    have hx1' := (lt_toDouble_iff hx).mp hx1
    have hy1' := (lt_toDouble_iff hy).mp hy1
    obtain ⟨u, hu⟩ : ∃ u : Whole, x.floorInt = u.val := ⟨_, (wholeOf_val (by omega) (by omega)).symm⟩
    obtain ⟨v, hv⟩ : ∃ v : Whole, y.floorInt = v.val := ⟨_, (wholeOf_val (by omega) (by omega)).symm⟩
    refine ⟨(u, v), ⟨⟨?_, ?_⟩, ?_, ?_⟩, ⟨hx, hy⟩, hu, hv⟩
    · show p.x0 ≤ u
      exact Fin.le_def.mpr (by omega)
    · show u < p.x1
      exact Fin.lt_def.mpr (by omega)
    · show p.y0 ≤ v
      exact Fin.le_def.mpr (by omega)
    · show v < p.y1
      exact Fin.lt_def.mpr (by omega)
  · rintro ⟨⟨u, v⟩, ⟨⟨hx0, hx1⟩, hy0, hy1⟩, ⟨hx, hy⟩, hu, hv⟩
    have hx0 := Fin.le_def.mp hx0
    have hx1 := Fin.lt_def.mp hx1
    have hy0 := Fin.le_def.mp hy0
    have hy1 := Fin.lt_def.mp hy1
    dsimp only at hu hv hx0 hx1 hy0 hy1
    refine ⟨⟨?_, ?_⟩, ?_, ?_⟩
    · exact (ofInt_le_iff p.x0.isLt hx).mpr (by omega)
    · exact (lt_toDouble_iff hx).mpr (by omega)
    · exact (ofInt_le_iff p.y0.isLt hy).mpr (by omega)
    · exact (lt_toDouble_iff hy).mpr (by omega)

/-- The points of several rectangles with whole coordinates. -/
theorem exists_holds_toDevice :
    (∃ r ∈ rects.map toDevice, DeviceRect.Holds r x y) ↔ ∃ q ∈ region rects, InPixel x y q := by
  constructor
  · rintro ⟨r, hr, hxy⟩
    obtain ⟨p, hp, rfl⟩ := List.mem_map.mp hr
    obtain ⟨q, hq, hpixel⟩ := holds_toDevice.mp hxy
    exact ⟨q, ⟨p, hp, hq⟩, hpixel⟩
  · rintro ⟨q, ⟨p, hp, hq⟩, hpixel⟩
    exact ⟨_, List.mem_map_of_mem hp, holds_toDevice.mpr ⟨q, hq, hpixel⟩⟩

/-- Two rectangles share a point of the plane. -/
def DeviceRect.Meets (r s : DeviceRect) : Prop := ∃ x y, r.Holds x y ∧ s.Holds x y

/-- A clipped side is not empty where both sides have a point in common. -/
private theorem clipped_side_iff {a b c d : Double} (hc : c.isNaN = false) (hd : d.isNaN = false) :
    (a.max c).lt (b.min d) = true ↔
      ∃ x, (a.le x = true ∧ x.lt b = true) ∧ c.le x = true ∧ x.lt d = true := by
  constructor
  · intro h
    obtain ⟨ha, hb⟩ := clipped_numbers h
    -- the point where the clipped side begins
    obtain ⟨hac, hcc⟩ := (max_le_iff ha hc).mp (Double.le_refl (isNaN_max ha hc))
    obtain ⟨hlt, hlt'⟩ := (lt_min_iff hb hd).mp h
    exact ⟨a.max c, ⟨hac, hlt⟩, hcc, hlt'⟩
  · rintro ⟨x, ⟨hax, hxb⟩, hcx, hxd⟩
    have ha := (le_iff.mp hax).1
    have hb := (lt_iff.mp hxb).2.1
    exact Double.lt_of_le_of_lt ((max_le_iff ha hc).mpr ⟨hax, hcx⟩)
      ((lt_min_iff hb hd).mpr ⟨hxb, hxd⟩)

private theorem isNaN_ofInt {w : ℤ} (hw : w < 2 ^ 53) : (ofInt w).isNaN = false := by
  rcases le_total w 0 with h | h
  · exact (key_ofInt_nonpos h).2
  · obtain ⟨n, rfl⟩ := Int.eq_ofNat_of_zero_le h
    exact (units_ofInt (by omega)).2.1

/-- A clipped rectangle is not empty where the rectangle meets the viewport. -/
theorem meets_viewport_iff (hw : viewport.width < 2 ^ 53) (hh : viewport.height < 2 ^ 53)
    {r : DeviceRect} :
    DeviceRect.Meets r viewport.deviceRect ↔
      (DeviceRect.intersect r viewport.deviceRect).empty = false := by
  have hzero : (0 : Double).isNaN = false := by decide +kernel
  rw [DeviceRect.not_empty_iff]
  show _ ↔ (r.x0.max 0).lt (r.x1.min (ofInt viewport.width)) = true ∧
    (r.y0.max 0).lt (r.y1.min (ofInt viewport.height)) = true
  rw [clipped_side_iff hzero (isNaN_ofInt hw), clipped_side_iff hzero (isNaN_ofInt hh)]
  constructor
  · rintro ⟨x, y, ⟨hrx, hry⟩, hvx, hvy⟩
    exact ⟨⟨x, hrx, hvx⟩, y, hry, hvy⟩
  · rintro ⟨⟨x, hrx, hvx⟩, y, hry, hvy⟩
    exact ⟨x, y, ⟨hrx, hry⟩, hvx, hvy⟩

end Points

/-! ## The cover -/

section Cover

variable {dirty dirty' : List DeviceRect} {viewport : Viewport} {x y : Double}

/-- The compositor's sweep is the one over whole coordinates, up to its limit. -/
theorem repaintRegions_eq (hw : viewport.width < 2 ^ 53) (hh : viewport.height < 2 ^ 53)
    (dirty : List DeviceRect) :
    repaintRegions dirty viewport =
      if (bandDecomposition dirty viewport).length ≤ maxRepaintRects then
        (bandDecomposition dirty viewport).map toDevice
      else [toDevice (bound ⟨0, 0, 0, 0⟩ (pixelInputs dirty viewport))] := by
  have hsweep := embeds_toDouble.sweepBands_embedRect (pixelInputs dirty viewport)
    (edges (pixelInputs dirty viewport)) [] [] (Nat.zero_le _)
  have hedges := embeds_toDouble.edges_embedRect (pixelInputs dirty viewport)
  have hdevice : embedRect Whole.toDouble = toDevice := rfl
  rw [hdevice] at hsweep hedges
  rw [repaintRegions, integerInputs_eq hw hh, repaintRegion_eq hw hh, hedges]
  refine (congrArg (fun found => Option.getD found _) hsweep).trans ?_
  rw [bandDecomposition, decomposition]
  split
  · rfl
  · rfl

/-- The damage that meets the viewport has two sides when it is rounded out. -/
theorem sided_pixelInputs (hw : viewport.width < 2 ^ 53) (hh : viewport.height < 2 ^ 53)
    (dirty : List DeviceRect) : Sided (pixelInputs dirty viewport) :=
  fun p hp => (placed_pixelInputs hw hh dirty p hp).sides

/-- The points of the damage, clipped and rounded out. -/
theorem exists_pixelInputs (hw : viewport.width < 2 ^ 53) (hh : viewport.height < 2 ^ 53) :
    (∃ q ∈ region (pixelInputs dirty viewport), InPixel x y q) ↔
      ∃ d ∈ dirty, DeviceRect.Meets d viewport.deviceRect ∧
        (DeviceRect.roundOut (d.intersect viewport.deviceRect)).Holds x y := by
  rw [← exists_holds_toDevice]
  constructor
  · rintro ⟨r, hr, hxy⟩
    obtain ⟨p, hp, rfl⟩ := List.mem_map.mp hr
    obtain ⟨d, hd, hpixel⟩ := List.mem_filterMap.mp hp
    split at hpixel
    · cases hpixel
    · rename_i hclip
      have hclip := (Bool.not_eq_true _).mp hclip
      cases hpixel
      rw [(placed_pixelRect hw hh hclip).2] at hxy
      exact ⟨d, hd, (meets_viewport_iff hw hh).mpr hclip, hxy⟩
  · rintro ⟨d, hd, hmeets, hxy⟩
    have hclip := (meets_viewport_iff hw hh).mp hmeets
    have hmiss : ¬ (DeviceRect.intersect d viewport.deviceRect).empty = true := by
      rw [hclip]
      exact Bool.false_ne_true
    rw [← (placed_pixelRect hw hh hclip).2] at hxy
    refine ⟨_, List.mem_map_of_mem (List.mem_filterMap.mpr ⟨d, hd, ?_⟩), hxy⟩
    rw [if_neg hmiss]

/-- Nothing is to be drawn where no damage meets the viewport. -/
theorem pixelInputs_eq_nil (hw : viewport.width < 2 ^ 53) (hh : viewport.height < 2 ^ 53) :
    pixelInputs dirty viewport = [] ↔
      ∀ d ∈ dirty, ¬ DeviceRect.Meets d viewport.deviceRect := by
  rw [pixelInputs, List.filterMap_eq_nil_iff]
  refine forall₂_congr fun d _ => ?_
  rw [meets_viewport_iff hw hh, Bool.not_eq_false]
  constructor
  · intro h
    by_contra hclip
    rw [if_neg hclip] at h
    cases h
  · exact fun h => if_pos h

/-- The rectangles of all bands lie in the viewport. -/
theorem placed_bandDecomposition (hw : viewport.width < 2 ^ 53) (hh : viewport.height < 2 ^ 53) :
    ∀ p ∈ bandDecomposition dirty viewport, Placed viewport p := by
  have hcovers := decomposition_spec (sided_pixelInputs hw hh dirty)
  intro p hp
  obtain ⟨hx, hy⟩ := hcovers.sided p hp
  have hinput : ∀ q ∈ p.toSet, ∃ r, Placed viewport r ∧ q ∈ r.toSet := by
    intro q hq
    have hmem : q ∈ region (pixelInputs dirty viewport) := hcovers.region ▸ ⟨p, hp, hq⟩
    obtain ⟨r, hr, hqr⟩ := hmem
    exact ⟨r, placed_pixelInputs hw hh dirty r hr, hqr⟩
  have hx' := Fin.lt_def.mp hx
  have hy' := Fin.lt_def.mp hy
  refine ⟨⟨hx, hy⟩, ?_, ?_⟩
  · -- the last column of the rectangle is one of the damage
    let u : Whole := ⟨p.x1.val - 1, by omega⟩
    obtain ⟨r, hr, ⟨-, hu⟩, -⟩ := hinput (u, p.y0)
      ⟨⟨Fin.le_def.mpr (Nat.le_sub_one_of_lt hx'), Fin.lt_def.mpr (Nat.sub_one_lt_of_lt hx')⟩,
        le_rfl, hy⟩
    have hu' : p.x1.val - 1 < r.x1.val := Fin.lt_def.mp hu
    have hend := hr.inside.1
    omega
  · -- the last row, in the same way
    let v : Whole := ⟨p.y1.val - 1, by omega⟩
    obtain ⟨r, hr, -, -, hv⟩ := hinput (p.x0, v)
      ⟨⟨le_rfl, hx⟩, Fin.le_def.mpr (Nat.le_sub_one_of_lt hy'),
        Fin.lt_def.mpr (Nat.sub_one_lt_of_lt hy')⟩
    have hv' : p.y1.val - 1 < r.y1.val := Fin.lt_def.mp hv
    have hend := hr.inside.2
    omega

/-- One rectangle around damage lies in the viewport. -/
theorem placed_bound (hw : viewport.width < 2 ^ 53) (hh : viewport.height < 2 ^ 53)
    (h : pixelInputs dirty viewport ≠ []) :
    Placed viewport (bound ⟨0, 0, 0, 0⟩ (pixelInputs dirty viewport)) := by
  rcases rounded_foldl hw hh dirty (Or.inl ⟨rfl, rfl⟩) with ⟨-, hbound⟩ | hround
  · obtain ⟨p, hp⟩ := List.exists_mem_of_ne_nil _ h
    obtain ⟨hx, hy⟩ := sided_pixelInputs hw hh dirty p hp
    have hmem : (p.x0, p.y0) ∈ region (pixelInputs dirty viewport) :=
      ⟨p, hp, ⟨le_rfl, hx⟩, le_rfl, hy⟩
    have hcorner := toSet_subset_bound ⟨0, 0, 0, 0⟩ _ (Or.inr hmem)
    rw [hbound] at hcorner
    exact absurd (hcorner.1.1.trans_lt hcorner.1.2) (lt_irrefl _)
  · exact hround.placed

/-- A rectangle of whole pixels in the viewport. -/
def DeviceRect.Aligned (viewport : Viewport) (r : DeviceRect) : Prop :=
  ∃ x0 y0 x1 y1 : ℤ, r = ⟨ofInt x0, ofInt y0, ofInt x1, ofInt y1⟩ ∧
    (0 ≤ x0 ∧ x0 < x1 ∧ x1 ≤ viewport.width) ∧ 0 ≤ y0 ∧ y0 < y1 ∧ y1 ≤ viewport.height

theorem Placed.aligned {p : Rect Whole} (h : Placed viewport p) :
    (toDevice p).Aligned viewport := by
  refine ⟨p.x0.val, p.y0.val, p.x1.val, p.y1.val, rfl, ⟨Int.natCast_nonneg _, ?_, h.inside.1⟩,
    Int.natCast_nonneg _, ?_, h.inside.2⟩
  · exact Int.ofNat_lt.mpr (Fin.lt_def.mp h.sides.1)
  · exact Int.ofNat_lt.mpr (Fin.lt_def.mp h.sides.2)

/-- A point of some damage in the viewport, rounded out to whole pixels. -/
def Damaged (dirty : List DeviceRect) (viewport : Viewport) (x y : Double) : Prop :=
  ∃ d ∈ dirty, DeviceRect.Meets d viewport.deviceRect ∧
    (DeviceRect.roundOut (d.intersect viewport.deviceRect)).Holds x y

/-- Regions that cover damage: exactly, where the bands are few enough, and else by one region. -/
structure ExactCover (dirty : List DeviceRect) (viewport : Viewport)
    (regions : List DeviceRect) : Prop where
  /-- Every region has whole coordinates and lies in the viewport. -/
  aligned : ∀ r ∈ regions, r.Aligned viewport
  /-- No two regions share a point. -/
  disjoint : regions.Pairwise fun r s => ¬ DeviceRect.Meets r s
  /-- Where the bands are few enough, the regions cover the damage and nothing else. -/
  exact : (bandDecomposition dirty viewport).length ≤ maxRepaintRects →
    ∀ x y, (∃ r ∈ regions, DeviceRect.Holds r x y) ↔ Damaged dirty viewport x y
  /-- Where they are too many, one region covers the damage. -/
  single : maxRepaintRects < (bandDecomposition dirty viewport).length →
    ∃ r, regions = [r] ∧ ∀ x y, Damaged dirty viewport x y → r.Holds x y
  /-- There are no regions exactly where no damage meets the viewport. -/
  nil_iff : regions = [] ↔ ∀ d ∈ dirty, ¬ DeviceRect.Meets d viewport.deviceRect

/-- The regions of damage, where the bands are few enough. -/
theorem exactCover_bands (hw : viewport.width < 2 ^ 53) (hh : viewport.height < 2 ^ 53)
    (hlength : (bandDecomposition dirty viewport).length ≤ maxRepaintRects) :
    ExactCover dirty viewport ((bandDecomposition dirty viewport).map toDevice) := by
  have hcovers := decomposition_spec (sided_pixelInputs hw hh dirty)
  refine ⟨fun r hr => ?_, List.pairwise_map.mpr (hcovers.disjoint.imp fun hd => ?_),
    fun _ x y => ?_, fun hmany => absurd hlength (Nat.not_le.mpr hmany), ?_⟩
  · obtain ⟨p, hp, rfl⟩ := List.mem_map.mp hr
    exact (placed_bandDecomposition hw hh p hp).aligned
  · -- a point in both would lie in one pixel of both
    rintro ⟨x, y, hr, hs⟩
    obtain ⟨q, hq, hpixel⟩ := holds_toDevice.mp hr
    obtain ⟨q', hq', hpixel'⟩ := holds_toDevice.mp hs
    rw [hpixel'.unique hpixel] at hq'
    exact Set.disjoint_left.mp hd hq hq'
  · rw [exists_holds_toDevice, bandDecomposition, hcovers.region]
    exact exists_pixelInputs hw hh
  · rw [List.map_eq_nil_iff, bandDecomposition,
      decomposition_eq_nil (sided_pixelInputs hw hh dirty)]
    exact pixelInputs_eq_nil hw hh

/-- The one region of damage, where the bands are too many. -/
theorem exactCover_bound (hw : viewport.width < 2 ^ 53) (hh : viewport.height < 2 ^ 53)
    (hlength : maxRepaintRects < (bandDecomposition dirty viewport).length) :
    ExactCover dirty viewport
      [toDevice (bound ⟨0, 0, 0, 0⟩ (pixelInputs dirty viewport))] := by
  have hne : pixelInputs dirty viewport ≠ [] := by
    intro hnil
    rw [bandDecomposition, hnil] at hlength
    exact absurd hlength (Nat.not_lt.mpr (Nat.zero_le _))
  refine ⟨fun r hr => ?_, List.pairwise_singleton _ _,
    fun hfew => absurd hlength (Nat.not_lt.mpr hfew), fun _ => ⟨_, rfl, fun x y hxy => ?_⟩, ?_⟩
  · rw [List.mem_singleton.mp hr]
    exact (placed_bound hw hh hne).aligned
  · obtain ⟨q, hq, hpixel⟩ := (exists_pixelInputs hw hh).mpr hxy
    exact holds_toDevice.mpr ⟨q, toSet_subset_bound _ _ (Or.inr hq), hpixel⟩
  · rw [← pixelInputs_eq_nil hw hh]
    exact ⟨nofun, fun hnil => absurd hnil hne⟩

/-- What is drawn again is an exact cover of the damage, and does not depend on its order. -/
theorem repaintRegions_exactCover (dirty : List DeviceRect) (viewport : Viewport)
    (hwidth : viewport.width < 2 ^ 31) (hheight : viewport.height < 2 ^ 31) :
    ExactCover dirty viewport (repaintRegions dirty viewport) ∧
      ∀ dirty', dirty.Perm dirty' →
        repaintRegions dirty' viewport = repaintRegions dirty viewport := by
  have hw : viewport.width < 2 ^ 53 := by omega
  have hh : viewport.height < 2 ^ 53 := by omega
  constructor
  · rw [repaintRegions_eq hw hh]
    split
    case isTrue hfew => exact exactCover_bands hw hh hfew
    case isFalse hmany => exact exactCover_bound hw hh (Nat.not_le.mp hmany)
  · intro dirty' hperm
    have hinputs : (pixelInputs dirty viewport).Perm (pixelInputs dirty' viewport) :=
      hperm.filterMap _
    rw [repaintRegions_eq hw hh, repaintRegions_eq hw hh, bandDecomposition, bandDecomposition,
      decomposition_perm hinputs, bound_perm (sided_pixelInputs hw hh dirty) hinputs]

/-- Two rectangles that overlap, in a viewport of four by four pixels. Each of the three bands has
runs of its own. -/
theorem repaintRegions_exactCover_overlap :
    let dirty : List DeviceRect := [⟨0, 0, ofInt 2, ofInt 2⟩, ⟨ofInt 1, ofInt 1, ofInt 3, ofInt 3⟩]
    let viewport : Viewport := ⟨4, 4, ⟨ofInt 1, 0, 0, ofInt 1, 0, 0⟩, 1⟩
    repaintRegions dirty viewport = [⟨0, 0, ofInt 2, ofInt 1⟩, ⟨0, ofInt 1, ofInt 3, ofInt 2⟩,
      ⟨ofInt 1, ofInt 2, ofInt 3, ofInt 3⟩] ∧
      ExactCover dirty viewport (repaintRegions dirty viewport) := by
  intro dirty viewport
  refine ⟨by decide +kernel, (repaintRegions_exactCover dirty viewport ?_ ?_).1⟩
  · show (4 : ℤ) < 2 ^ 31
    decide
  · show (4 : ℤ) < 2 ^ 31
    decide

end Cover

end ArbitraryComposer
