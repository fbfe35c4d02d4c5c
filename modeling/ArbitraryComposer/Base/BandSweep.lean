import ArbitraryComposer.Base.Geometry
import Mathlib.Data.List.Destutter
import Mathlib.Data.List.Sort
import Mathlib.Data.Prod.Lex
import Mathlib.Data.Set.BooleanAlgebra
import Mathlib.Order.CompletePartialOrder

/-!
# Cutting Rectangles into Bands

A union of rectangles as a list of disjoint ones. The edges of the rectangles cut the plane into
bands; a rectangle spans a band or misses it. In each band the rectangles that span it are merged
into runs that do not touch. A band with the runs of the band before it, directly at its edge,
extends the rectangles of that band.

Coordinates range over any linear order.

## Main definitions

- `BandSweep.region`: the points of some rectangles.
- `BandSweep.merged`, `BandSweep.runs`: the runs of a band.
- `BandSweep.sweep`, `BandSweep.decomposition`: the rectangles of all bands.
- `BandSweep.bound`: one rectangle around all.

## Main results

- `BandSweep.decomposition_spec`: the rectangles are disjoint and cover the region exactly.
- `decomposition_perm`, `bound_perm`: the order of the rectangles does not matter.
-/

namespace ArbitraryComposer

namespace BandSweep

variable {α : Type*} [LinearOrder α]

/-! ## The sweep -/

/-- The points of some rectangles. -/
def region (rects : List (Rect α)) : Set (α × α) := { p | ∃ r ∈ rects, p ∈ r.toSet }

/-- The points of some runs. -/
def runSet (runs : List (α × α)) : Set α := { x | ∃ run ∈ runs, run.1 ≤ x ∧ x < run.2 }

/-- A run takes in the runs that begin before it ends. -/
def absorb (run : α × α) : List (α × α) → List (α × α)
  | [] => [run]
  | next :: rest =>
    if next.1 ≤ run.2 then absorb (run.1, max run.2 next.2) rest else run :: absorb next rest

/-- Sorted runs, where those that overlap or abut are one. -/
def merged : List (α × α) → List (α × α)
  | [] => []
  | run :: rest => absorb run rest

/-- The order in which runs are merged. -/
def before (a b : α × α) : Prop := a.1 < b.1 ∨ ¬ b.1 < a.1 ∧ ¬ b.2 < a.2

instance (a b : α × α) : Decidable (before a b) := inferInstanceAs (Decidable (_ ∨ _))

/-- The runs of a band. -/
def runs (inputs : List (Rect α)) (y0 y1 : α) : List (α × α) :=
  merged (((inputs.filter fun r => decide (r.y0 ≤ y0 ∧ y1 ≤ r.y1)).map fun r =>
    (r.x0, r.x1)).insertionSort before)

/-- The rectangles of a band, the last run first. -/
def band (runs : List (α × α)) (y0 y1 : α) : List (Rect α) :=
  (runs.map fun run => (⟨run.1, y0, run.2, y1⟩ : Rect α)).reverse

/-- The edges of the bands. -/
def edges (inputs : List (Rect α)) : List α :=
  ((inputs.flatMap fun r => [r.y0, r.y1]).insertionSort (· ≤ ·)).destutter (· ≠ ·)

/-- The sweep over the bands: the rectangles done, newest first, and those of the band before. -/
def sweep (inputs : List (Rect α)) : List α → List (Rect α) → List (Rect α) → List (Rect α)
  | y0 :: y1 :: edges, done, below =>
    if (runs inputs y0 y1).isEmpty then sweep inputs (y1 :: edges) (below ++ done) []
    else if runs inputs y0 y1 = below.reverse.map fun r => (r.x0, r.x1) then
      sweep inputs (y1 :: edges) done (below.map fun r => { r with y1 := y1 })
    else sweep inputs (y1 :: edges) (below ++ done) (band (runs inputs y0 y1) y0 y1)
  | _, done, below => (below ++ done).reverse

/-- The rectangles of all bands. -/
def decomposition (inputs : List (Rect α)) : List (Rect α) := sweep inputs (edges inputs) [] []

/-- One rectangle around all; an empty one to begin with. -/
def bound (start : Rect α) (inputs : List (Rect α)) : Rect α := inputs.foldl rectUnion start

/-! ## Merging runs -/

section Runs

variable {run next : α × α} {rest : List (α × α)}

theorem runSet_cons (run : α × α) (rest : List (α × α)) :
    runSet (run :: rest) = { x | run.1 ≤ x ∧ x < run.2 } ∪ runSet rest := by
  ext x
  simp [runSet]

/-- Two runs that overlap or abut are one. -/
private theorem runSet_absorbed (hle : run.1 ≤ next.1) (htouch : next.1 ≤ run.2) :
    runSet ((run.1, max run.2 next.2) :: rest) = runSet (run :: next :: rest) := by
  rw [runSet_cons, runSet_cons, runSet_cons, ← Set.union_assoc]
  congr 1
  ext x
  constructor
  · rintro ⟨hx, hlt⟩
    rcases lt_or_ge x run.2 with hrun | hrun
    · exact Or.inl ⟨hx, hrun⟩
    · exact Or.inr ⟨htouch.trans hrun, (lt_max_iff.mp hlt).resolve_left (not_lt.mpr hrun)⟩
  · rintro (⟨hx, hlt⟩ | ⟨hx, hlt⟩)
    · exact ⟨hx, lt_max_of_lt_left hlt⟩
    · exact ⟨hle.trans hx, lt_max_of_lt_right hlt⟩

/-- Merged runs lie to the right of the first, do not touch, and cover the same points. -/
theorem absorb_spec (hrun : run.1 < run.2) (hrest : ∀ r ∈ rest, r.1 < r.2)
    (hright : ∀ r ∈ rest, run.1 ≤ r.1) (hsorted : rest.Pairwise fun a b => a.1 ≤ b.1) :
    (∀ r ∈ absorb run rest, run.1 ≤ r.1 ∧ r.1 < r.2) ∧
      (absorb run rest).Pairwise (fun a b => a.2 < b.1) ∧
      runSet (absorb run rest) = runSet (run :: rest) := by
  induction rest generalizing run with
  | nil =>
    refine ⟨fun r hr => ?_, List.pairwise_singleton _ _, rfl⟩
    rw [List.mem_singleton.mp hr]
    exact ⟨le_refl _, hrun⟩
  | cons next rest ih =>
    obtain ⟨hnext, hrest⟩ := List.forall_mem_cons.mp hrest
    obtain ⟨hle, hright⟩ := List.forall_mem_cons.mp hright
    obtain ⟨hfirst, hsorted⟩ := List.pairwise_cons.mp hsorted
    rw [absorb]
    split
    case isTrue htouch =>
      have hlonger : (run.1, max run.2 next.2).1 < (run.1, max run.2 next.2).2 :=
        lt_max_of_lt_left hrun
      obtain ⟨hall, hpair, hset⟩ := ih hlonger hrest hright hsorted
      exact ⟨hall, hpair, hset.trans (runSet_absorbed hle htouch)⟩
    case isFalse hgap =>
      obtain ⟨hall, hpair, hset⟩ := ih hnext hrest hfirst hsorted
      refine ⟨fun r hr => ?_, List.pairwise_cons.mpr ⟨fun r hr => ?_, hpair⟩, ?_⟩
      · rcases List.mem_cons.mp hr with rfl | hr
        · exact ⟨le_refl _, hrun⟩
        · exact ⟨hle.trans (hall r hr).1, (hall r hr).2⟩
      · exact (not_le.mp hgap).trans_le (hall r hr).1
      · rw [runSet_cons, hset, ← runSet_cons]

/-- What is before in the order begins no later. -/
theorem before.le {a b : α × α} (h : before a b) : a.1 ≤ b.1 :=
  h.elim le_of_lt fun h => not_lt.mp h.1

private theorem before_iff {a b : α × α} : before a b ↔ toLex a ≤ toLex b := by
  rw [before, Prod.Lex.le_iff, not_lt, not_lt]
  constructor
  · rintro (h | ⟨hle, h⟩)
    · exact Or.inl h
    · rcases hle.lt_or_eq with hlt | heq
      · exact Or.inl hlt
      · exact Or.inr ⟨heq, h⟩
  · rintro (h | ⟨heq, h⟩)
    · exact Or.inl h
    · exact Or.inr ⟨le_of_eq heq, h⟩

instance : IsTrans (α × α) before :=
  ⟨fun _ _ _ h h' => before_iff.mpr ((before_iff.mp h).trans (before_iff.mp h'))⟩

instance : Std.Total (before (α := α)) :=
  ⟨fun a b => (le_total (toLex a) (toLex b)).imp before_iff.mpr before_iff.mpr⟩

theorem before.antisymm {a b : α × α} (h : before a b) (h' : before b a) : a = b :=
  toLex.injective (le_antisymm (before_iff.mp h) (before_iff.mp h'))

variable {inputs : List (Rect α)} {y0 y1 : α}

/-- The rectangles have two sides. -/
def Sided (rects : List (Rect α)) : Prop := ∀ r ∈ rects, r.x0 < r.x1 ∧ r.y0 < r.y1

/-- The runs of a band do not touch, and their points are those of the rectangles that span the
band. -/
theorem runs_spec (hsided : Sided inputs) (y0 y1 : α) :
    (∀ run ∈ runs inputs y0 y1, run.1 < run.2) ∧
      (runs inputs y0 y1).Pairwise (fun a b => a.2 < b.1) ∧
      ∀ x, x ∈ runSet (runs inputs y0 y1) ↔
        ∃ r ∈ inputs, (r.y0 ≤ y0 ∧ y1 ≤ r.y1) ∧ r.x0 ≤ x ∧ x < r.x1 := by
  have hmem : ∀ run, run ∈ ((inputs.filter fun r => decide (r.y0 ≤ y0 ∧ y1 ≤ r.y1)).map fun r =>
      (r.x0, r.x1)).insertionSort before ↔
      ∃ r ∈ inputs, (r.y0 ≤ y0 ∧ y1 ≤ r.y1) ∧ run = (r.x0, r.x1) := by
    intro run
    simp only [List.mem_insertionSort, List.mem_map, List.mem_filter, decide_eq_true_eq]
    constructor
    · rintro ⟨r, ⟨hr, hspan⟩, rfl⟩
      exact ⟨r, hr, hspan, rfl⟩
    · rintro ⟨r, hr, hspan, rfl⟩
      exact ⟨r, ⟨hr, hspan⟩, rfl⟩
  have hsort := List.pairwise_insertionSort before
    ((inputs.filter fun r => decide (r.y0 ≤ y0 ∧ y1 ≤ r.y1)).map fun r => (r.x0, r.x1))
  have hset : ∀ x, x ∈ runSet (((inputs.filter fun r => decide (r.y0 ≤ y0 ∧ y1 ≤ r.y1)).map
      fun r => (r.x0, r.x1)).insertionSort before) ↔
        ∃ r ∈ inputs, (r.y0 ≤ y0 ∧ y1 ≤ r.y1) ∧ r.x0 ≤ x ∧ x < r.x1 := by
    intro x
    constructor
    · rintro ⟨run, hrun, hx⟩
      obtain ⟨r, hr, hspan, rfl⟩ := (hmem run).mp hrun
      exact ⟨r, hr, hspan, hx⟩
    · rintro ⟨r, hr, hspan, hx⟩
      exact ⟨_, (hmem _).mpr ⟨r, hr, hspan, rfl⟩, hx⟩
  have hpos : ∀ run ∈ ((inputs.filter fun r => decide (r.y0 ≤ y0 ∧ y1 ≤ r.y1)).map fun r =>
      (r.x0, r.x1)).insertionSort before, run.1 < run.2 := by
    intro run hrun
    obtain ⟨r, hr, -, rfl⟩ := (hmem run).mp hrun
    exact (hsided r hr).1
  rw [runs]
  generalize ((inputs.filter fun r => decide (r.y0 ≤ y0 ∧ y1 ≤ r.y1)).map fun r =>
    (r.x0, r.x1)).insertionSort before = l at hsort hset hpos ⊢
  cases l with
  | nil => exact ⟨nofun, .nil, hset⟩
  | cons run rest =>
    obtain ⟨hrun, hrest⟩ := List.forall_mem_cons.mp hpos
    obtain ⟨hfirst, hsort⟩ := List.pairwise_cons.mp hsort
    obtain ⟨hall, hpair, hsame⟩ := absorb_spec hrun hrest (fun r hr => (hfirst r hr).le)
      (hsort.imp fun h => h.le)
    refine ⟨fun r hr => (hall r hr).2, hpair, fun x => ?_⟩
    show x ∈ runSet (absorb run rest) ↔ _
    rw [hsame, hset]

end Runs

/-! ## Bands -/

section Bands

variable {inputs done below : List (Rect α)} {bandRuns : List (α × α)} {y0 y1 : α}

theorem region_append (rects rects' : List (Rect α)) :
    region (rects ++ rects') = region rects ∪ region rects' := by
  ext p
  simp [region, or_and_right, exists_or]

theorem region_reverse (rects : List (Rect α)) : region rects.reverse = region rects := by
  ext p
  simp [region]

/-- The rectangles of a band, point by point. -/
theorem mem_region_band {p : α × α} :
    p ∈ region (band bandRuns y0 y1) ↔ p.1 ∈ runSet bandRuns ∧ y0 ≤ p.2 ∧ p.2 < y1 := by
  constructor
  · rintro ⟨r, hr, hx, hy⟩
    obtain ⟨run, hrun, rfl⟩ := List.mem_map.mp (List.mem_reverse.mp hr)
    exact ⟨⟨run, hrun, hx⟩, hy⟩
  · rintro ⟨⟨run, hrun, hx⟩, hy⟩
    exact ⟨_, List.mem_reverse.mpr (List.mem_map_of_mem hrun), hx, hy⟩

/-- What the sweep has done when it is at an edge. -/
structure Swept (inputs : List (Rect α)) (y : α) (done below : List (Rect α)) : Prop where
  /-- Every rectangle has two sides. -/
  sided : Sided (below ++ done)
  /-- What is done ends at the edge at the latest. -/
  done_le : ∀ r ∈ done, r.y1 ≤ y
  /-- The band before ends at the edge. -/
  below_eq : ∀ r ∈ below, r.y1 = y
  /-- The runs of the band before do not touch. -/
  apart : below.Pairwise fun r s => s.x1 < r.x0
  /-- No two rectangles share a point. -/
  disjoint : (below ++ done).Pairwise fun r s => Disjoint r.toSet s.toSet
  /-- The points up to the edge are covered, and no others. -/
  region : ∀ p, p ∈ region (below ++ done) ↔ p.2 < y ∧ p ∈ region inputs

/-- Rectangles side by side share no point. -/
theorem disjoint_of_apart {r s : Rect α} (h : s.x1 < r.x0) : Disjoint r.toSet s.toSet := by
  rw [Set.disjoint_left]
  rintro p ⟨⟨hr, -⟩, -⟩ ⟨⟨-, hs⟩, -⟩
  exact absurd (hs.trans h) (not_lt.mpr hr)

/-- Rectangles one above the other share no point. -/
theorem disjoint_of_above {r s : Rect α} (h : s.y1 ≤ r.y0) : Disjoint r.toSet s.toSet := by
  rw [Set.disjoint_left]
  rintro p ⟨-, hr, -⟩ ⟨-, -, hs⟩
  exact absurd (hs.trans_le h) (not_lt.mpr hr)

/-- No input begins or ends inside the band. -/
def Spanned (inputs : List (Rect α)) (y0 y1 : α) : Prop :=
  ∀ r ∈ inputs, (r.y0 ≤ y0 ∨ y1 ≤ r.y0) ∧ (r.y1 ≤ y0 ∨ y1 ≤ r.y1)

/-- In a band the points of the inputs are those of its runs. -/
theorem mem_region_iff_runs (hsided : Sided inputs) (hspan : Spanned inputs y0 y1) {p : α × α}
    (h0 : y0 ≤ p.2) (h1 : p.2 < y1) : p ∈ region inputs ↔ p.1 ∈ runSet (runs inputs y0 y1) := by
  rw [(runs_spec hsided y0 y1).2.2]
  constructor
  · rintro ⟨r, hr, hx, hy⟩
    obtain ⟨hbegin, hend⟩ := hspan r hr
    refine ⟨r, hr, ⟨hbegin.resolve_right fun h => ?_, hend.resolve_left fun h => ?_⟩, hx⟩
    · exact absurd (h.trans hy.1) (not_le.mpr h1)
    · exact absurd (hy.2.trans_le h) (not_lt.mpr h0)
  · rintro ⟨r, hr, ⟨hbegin, hend⟩, hx⟩
    exact ⟨r, hr, hx, hbegin.trans h0, h1.trans_le hend⟩

/-- A band without runs. -/
theorem Swept.gap (h : Swept inputs y0 done below) (hsided : Sided inputs) (hlt : y0 < y1)
    (hspan : Spanned inputs y0 y1) (hruns : runs inputs y0 y1 = []) :
    Swept inputs y1 (below ++ done) [] where
  sided := h.sided
  done_le r hr := by
    rcases List.mem_append.mp hr with hr | hr
    · exact (h.below_eq r hr).le.trans hlt.le
    · exact (h.done_le r hr).trans hlt.le
  below_eq := nofun
  apart := .nil
  disjoint := h.disjoint
  region p := by
    rw [List.nil_append, h.region]
    refine and_congr_left fun hp => ⟨fun hy => hy.trans hlt, fun hy => ?_⟩
    by_contra hge
    have hmem := (mem_region_iff_runs hsided hspan (not_lt.mp hge) hy).mp hp
    rw [hruns] at hmem
    obtain ⟨run, hrun, -⟩ := hmem
    exact absurd hrun List.not_mem_nil

/-- A band whose rectangles are new. -/
theorem Swept.push (h : Swept inputs y0 done below) (hsided : Sided inputs) (hlt : y0 < y1)
    (hspan : Spanned inputs y0 y1) :
    Swept inputs y1 (below ++ done) (band (runs inputs y0 y1) y0 y1) := by
  obtain ⟨hpos, hpair, -⟩ := runs_spec hsided y0 y1
  have hband : ∀ r ∈ band (runs inputs y0 y1) y0 y1, r.y0 = y0 ∧ r.y1 = y1 ∧ r.x0 < r.x1 := by
    intro r hr
    obtain ⟨run, hrun, rfl⟩ := List.mem_map.mp (List.mem_reverse.mp hr)
    exact ⟨rfl, rfl, hpos run hrun⟩
  have hle : ∀ r ∈ below ++ done, r.y1 ≤ y0 := by
    intro r hr
    rcases List.mem_append.mp hr with hr | hr
    · exact (h.below_eq r hr).le
    · exact h.done_le r hr
  have hapart : (band (runs inputs y0 y1) y0 y1).Pairwise fun r s => s.x1 < r.x0 :=
    List.pairwise_reverse.mpr (List.pairwise_map.mpr hpair)
  refine ⟨fun r hr => ?_, fun r hr => (hle r hr).trans hlt.le, fun r hr => (hband r hr).2.1,
    hapart, List.pairwise_append.mpr ⟨hapart.imp disjoint_of_apart, h.disjoint,
      fun r hr s hs => disjoint_of_above ((hle s hs).trans (hband r hr).1.ge)⟩, fun p => ?_⟩
  · rcases List.mem_append.mp hr with hr | hr
    · obtain ⟨hy0, hy1, hx⟩ := hband r hr
      exact ⟨hx, by rw [hy0, hy1]; exact hlt⟩
    · exact h.sided r hr
  · rw [region_append, Set.mem_union, mem_region_band, h.region]
    constructor
    · rintro (⟨hrun, hy0, hy1⟩ | ⟨hy, hp⟩)
      · exact ⟨hy1, (mem_region_iff_runs hsided hspan hy0 hy1).mpr hrun⟩
      · exact ⟨hy.trans hlt, hp⟩
    · rintro ⟨hy1, hp⟩
      rcases lt_or_ge p.2 y0 with hy0 | hy0
      · exact Or.inr ⟨hy0, hp⟩
      · exact Or.inl ⟨(mem_region_iff_runs hsided hspan hy0 hy1).mp hp, hy0, hy1⟩

/-- A rectangle that is extended downwards. -/
private theorem mem_toSet_extended {r : Rect α} (hy : r.y1 = y0) (hsides : r.y0 < r.y1)
    (hlt : y0 < y1) {p : α × α} : p ∈ ({ r with y1 := y1 } : Rect α).toSet ↔
      p ∈ r.toSet ∨ (r.x0 ≤ p.1 ∧ p.1 < r.x1) ∧ y0 ≤ p.2 ∧ p.2 < y1 := by
  subst hy
  constructor
  · rintro ⟨hx, hy0, hy1⟩
    rcases lt_or_ge p.2 r.y1 with hlt | hge
    · exact Or.inl ⟨hx, hy0, hlt⟩
    · exact Or.inr ⟨hx, hge, hy1⟩
  · rintro (⟨hx, hy0, hy1⟩ | ⟨hx, hy0, hy1⟩)
    · exact ⟨hx, hy0, hy1.trans hlt⟩
    · exact ⟨hx, hsides.le.trans hy0, hy1⟩

/-- A band with the runs of the one before. -/
theorem Swept.extend (h : Swept inputs y0 done below) (hsided : Sided inputs) (hlt : y0 < y1)
    (hspan : Spanned inputs y0 y1)
    (hruns : runs inputs y0 y1 = below.reverse.map fun r => (r.x0, r.x1)) :
    Swept inputs y1 done (below.map fun r => { r with y1 := y1 }) := by
  have hset : ∀ x, x ∈ runSet (runs inputs y0 y1) ↔ ∃ r ∈ below, r.x0 ≤ x ∧ x < r.x1 := by
    intro x
    rw [hruns]
    simp [runSet]
  have hextended : ∀ r ∈ below, ∀ p : α × α, p ∈ ({ r with y1 := y1 } : Rect α).toSet ↔
      p ∈ r.toSet ∨ (r.x0 ≤ p.1 ∧ p.1 < r.x1) ∧ y0 ≤ p.2 ∧ p.2 < y1 := fun r hr p =>
    mem_toSet_extended (h.below_eq r hr) (h.sided r (List.mem_append_left _ hr)).2 hlt
  obtain ⟨-, hdone, hacross⟩ := List.pairwise_append.mp h.disjoint
  have hapart : (below.map fun r => ({ r with y1 := y1 } : Rect α)).Pairwise
      fun r s => s.x1 < r.x0 := List.pairwise_map.mpr h.apart
  refine ⟨fun r hr => ?_, fun r hr => (h.done_le r hr).trans hlt.le, fun r hr => ?_, hapart,
    List.pairwise_append.mpr ⟨hapart.imp disjoint_of_apart, hdone, fun r hr s hs => ?_⟩,
    fun p => ?_⟩
  · rcases List.mem_append.mp hr with hr | hr
    · obtain ⟨q, hq, rfl⟩ := List.mem_map.mp hr
      obtain ⟨hx, hy⟩ := h.sided q (List.mem_append_left _ hq)
      exact ⟨hx, hy.trans ((h.below_eq q hq).symm ▸ hlt)⟩
    · exact h.sided r (List.mem_append_right _ hr)
  · obtain ⟨q, -, rfl⟩ := List.mem_map.mp hr
    rfl
  · obtain ⟨q, hq, rfl⟩ := List.mem_map.mp hr
    rw [Set.disjoint_left]
    intro p hp hps
    rcases (hextended q hq p).mp hp with hp | ⟨-, hy, -⟩
    · exact Set.disjoint_left.mp (hacross q hq s hs) hp hps
    · exact absurd (hps.2.2.trans_le (h.done_le s hs)) (not_lt.mpr hy)
  · have hbelow : p ∈ BandSweep.region (below.map fun r => ({ r with y1 := y1 } : Rect α)) ↔
        p ∈ BandSweep.region below ∨ p.1 ∈ runSet (runs inputs y0 y1) ∧ y0 ≤ p.2 ∧ p.2 < y1 := by
      rw [hset]
      constructor
      · rintro ⟨_, hr, hp⟩
        obtain ⟨q, hq, rfl⟩ := List.mem_map.mp hr
        rcases (hextended q hq p).mp hp with hp | ⟨hx, hy⟩
        · exact Or.inl ⟨q, hq, hp⟩
        · exact Or.inr ⟨⟨q, hq, hx⟩, hy⟩
      · rintro (⟨q, hq, hp⟩ | ⟨⟨q, hq, hx⟩, hy⟩)
        · exact ⟨_, List.mem_map_of_mem hq, (hextended q hq p).mpr (Or.inl hp)⟩
        · exact ⟨_, List.mem_map_of_mem hq, (hextended q hq p).mpr (Or.inr ⟨hx, hy⟩)⟩
    have hold := h.region p
    rw [region_append, Set.mem_union] at hold
    rw [region_append, Set.mem_union, hbelow, or_right_comm, hold]
    constructor
    · rintro (⟨hy, hp⟩ | ⟨hrun, hy0, hy1⟩)
      · exact ⟨hy.trans hlt, hp⟩
      · exact ⟨hy1, (mem_region_iff_runs hsided hspan hy0 hy1).mpr hrun⟩
    · rintro ⟨hy1, hp⟩
      rcases lt_or_ge p.2 y0 with hy0 | hy0
      · exact Or.inl ⟨hy0, hp⟩
      · exact Or.inr ⟨(mem_region_iff_runs hsided hspan hy0 hy1).mp hp, hy0, hy1⟩

end Bands

/-! ## The decomposition -/

section Decomposition

variable {inputs inputs' done below : List (Rect α)} {y : α} {rest : List α}

/-- Disjoint rectangles with two sides that cover exactly some points. -/
structure Covers (rects : List (Rect α)) (points : Set (α × α)) : Prop where
  /-- Every rectangle has two sides. -/
  sided : Sided rects
  /-- No two rectangles share a point. -/
  disjoint : rects.Pairwise fun r s => Disjoint r.toSet s.toSet
  /-- The points are covered, and no others. -/
  region : region rects = points

/-- The sweep covers the inputs. -/
theorem Swept.sweep (h : Swept inputs y done below) (hsided : Sided inputs)
    (hsorted : (y :: rest).Pairwise (· < ·))
    (hedges : ∀ r ∈ inputs, (r.y0 ≤ y ∨ r.y0 ∈ rest) ∧ (r.y1 ≤ y ∨ r.y1 ∈ rest)) :
    Covers (sweep inputs (y :: rest) done below) (BandSweep.region inputs) := by
  induction rest generalizing y done below with
  | nil =>
    -- the last edge is the end of every input
    refine ⟨fun r hr => h.sided r (List.mem_reverse.mp hr), ?_, ?_⟩
    · refine List.pairwise_reverse.mpr (h.disjoint.imp fun hd => hd.symm)
    · rw [BandSweep.sweep, region_reverse]
      · ext p
        rw [h.region]
        refine and_iff_right_of_imp ?_
        rintro ⟨r, hr, -, -, hy⟩
        exact hy.trans_le ((hedges r hr).2.resolve_right List.not_mem_nil)
      · exact nofun
  | cons y1 rest ih =>
    obtain ⟨hfirst, hsorted⟩ := List.pairwise_cons.mp hsorted
    have hlt := hfirst y1 List.mem_cons_self
    have hbeyond : ∀ e : α, (e ≤ y ∨ e ∈ y1 :: rest) → (e ≤ y ∨ y1 ≤ e) := by
      rintro e (he | he)
      · exact Or.inl he
      · rcases List.mem_cons.mp he with rfl | he
        · exact Or.inr (le_refl _)
        · exact Or.inr ((List.pairwise_cons.mp hsorted).1 e he).le
    have hspan : Spanned inputs y y1 := fun r hr =>
      ⟨hbeyond _ (hedges r hr).1, hbeyond _ (hedges r hr).2⟩
    have hnext : ∀ e : α, (e ≤ y ∨ e ∈ y1 :: rest) → (e ≤ y1 ∨ e ∈ rest) := by
      rintro e (he | he)
      · exact Or.inl (he.trans hlt.le)
      · exact (List.mem_cons.mp he).imp_left fun he => he.le
    have hedges' := fun r hr => And.intro (hnext _ (hedges r hr).1) (hnext _ (hedges r hr).2)
    rw [BandSweep.sweep]
    split
    case isTrue hempty =>
      exact ih (h.gap hsided hlt hspan (List.isEmpty_iff.mp hempty)) hsorted hedges'
    case isFalse =>
      split
      case isTrue hsame => exact ih (h.extend hsided hlt hspan hsame) hsorted hedges'
      case isFalse => exact ih (h.push hsided hlt hspan) hsorted hedges'

/-- The edges are those of the inputs, in order. -/
theorem edges_spec (inputs : List (Rect α)) :
    (edges inputs).Pairwise (· < ·) ∧
      ∀ y, y ∈ edges inputs ↔ ∃ r ∈ inputs, y = r.y0 ∨ y = r.y1 := by
  have hsort := List.pairwise_insertionSort (· ≤ ·) (inputs.flatMap fun r => [r.y0, r.y1])
  rw [edges, hsort.destutter_eq_dedup]
  constructor
  · have hnodup := List.nodup_dedup ((inputs.flatMap fun r => [r.y0, r.y1]).insertionSort (· ≤ ·))
    exact ((hsort.sublist (List.dedup_sublist _)).and hnodup).imp fun h => lt_of_le_of_ne h.1 h.2
  · intro y
    simp [List.mem_dedup, List.mem_insertionSort, List.mem_flatMap]

/-- The rectangles of all bands are disjoint and cover the inputs exactly. -/
theorem decomposition_spec (hsided : Sided inputs) :
    Covers (decomposition inputs) (BandSweep.region inputs) := by
  obtain ⟨hsorted, hmem⟩ := edges_spec inputs
  have hbegin : ∀ r ∈ inputs, r.y0 ∈ edges inputs := fun r hr => (hmem _).mpr ⟨r, hr, Or.inl rfl⟩
  have hend : ∀ r ∈ inputs, r.y1 ∈ edges inputs := fun r hr => (hmem _).mpr ⟨r, hr, Or.inr rfl⟩
  rw [decomposition]
  generalize edges inputs = all at hsorted hbegin hend
  cases all with
  | nil =>
    cases inputs with
    | nil => exact ⟨nofun, .nil, rfl⟩
    | cons r inputs => exact absurd (hbegin r List.mem_cons_self) List.not_mem_nil
  | cons y rest =>
    have hfirst := (List.pairwise_cons.mp hsorted).1
    refine Swept.sweep ⟨nofun, nofun, nofun, .nil, .nil, fun p => ?_⟩ hsided hsorted
      fun r hr => ⟨?_, ?_⟩
    · -- nothing begins before the first edge
      constructor
      · rintro ⟨r, hr, -⟩
        exact absurd hr List.not_mem_nil
      · rintro ⟨hy, r, hr, -, hy0, -⟩
        have hle : y ≤ r.y0 := by
          rcases List.mem_cons.mp (hbegin r hr) with heq | hmem
          · exact heq.ge
          · exact (hfirst _ hmem).le
        exact absurd (hle.trans hy0) (not_le.mpr hy)
    · exact (List.mem_cons.mp (hbegin r hr)).imp_left fun h => h.le
    · exact (List.mem_cons.mp (hend r hr)).imp_left fun h => h.le

/-- Nothing is covered only where there is nothing. -/
theorem decomposition_eq_nil (hsided : Sided inputs) : decomposition inputs = [] ↔ inputs = [] := by
  constructor
  · intro h
    have hregion := (decomposition_spec hsided).region
    rw [h] at hregion
    cases inputs with
    | nil => rfl
    | cons r inputs =>
      obtain ⟨hx, hy⟩ := hsided r List.mem_cons_self
      have hcorner : (r.x0, r.y0) ∈ BandSweep.region (r :: inputs) :=
        ⟨r, List.mem_cons_self, ⟨le_refl _, hx⟩, le_refl _, hy⟩
      rw [← hregion] at hcorner
      obtain ⟨s, hs, -⟩ := hcorner
      exact absurd hs List.not_mem_nil
  · rintro rfl
    rfl

/-- A sweep only adds rectangles. -/
theorem length_le_sweep (inputs : List (Rect α)) (all : List α) (done below : List (Rect α)) :
    (below ++ done).length ≤ (sweep inputs all done below).length := by
  induction all generalizing done below with
  | nil => exact List.length_reverse.ge
  | cons y0 all ih =>
    cases all with
    | nil => exact List.length_reverse.ge
    | cons y1 all =>
      rw [sweep]
      split
      · exact ih (below ++ done) []
      · split
        · simpa using ih done (below.map fun r => { r with y1 := y1 })
        · refine Nat.le_trans ?_ (ih _ _)
          rw [@List.length_append _ (band _ _ _)]
          exact Nat.le_add_left _ _

/-! ## The order of the rectangles -/

theorem edges_perm (h : inputs.Perm inputs') : edges inputs = edges inputs' := by
  have hperm := ((List.perm_insertionSort (· ≤ ·) _).trans
    (h.flatMap_right fun r => [r.y0, r.y1])).trans (List.perm_insertionSort (· ≤ ·) _).symm
  rw [edges, edges, hperm.eq_of_pairwise (fun _ _ _ _ => le_antisymm)
    (List.pairwise_insertionSort _ _) (List.pairwise_insertionSort _ _)]

theorem runs_perm (h : inputs.Perm inputs') (y0 y1 : α) :
    runs inputs y0 y1 = runs inputs' y0 y1 := by
  have hperm := ((List.perm_insertionSort before _).trans
    ((h.filter fun r => decide (r.y0 ≤ y0 ∧ y1 ≤ r.y1)).map fun r => (r.x0, r.x1))).trans
      (List.perm_insertionSort before _).symm
  rw [runs, runs, hperm.eq_of_pairwise (fun _ _ _ _ => before.antisymm)
    (List.pairwise_insertionSort _ _) (List.pairwise_insertionSort _ _)]

theorem sweep_perm (h : inputs.Perm inputs') (all : List α) (done below : List (Rect α)) :
    sweep inputs all done below = sweep inputs' all done below := by
  induction all generalizing done below with
  | nil => rfl
  | cons y0 all ih =>
    cases all with
    | nil => rfl
    | cons y1 all => rw [sweep, sweep, runs_perm h, ih, ih, ih]

/-- The order of the rectangles does not matter. -/
theorem decomposition_perm (h : inputs.Perm inputs') :
    decomposition inputs = decomposition inputs' := by
  rw [decomposition, decomposition, edges_perm h, sweep_perm h]

/-! ## The bound -/

/-- A bound is around what it began with and all rectangles. -/
theorem toSet_subset_bound (start : Rect α) (inputs : List (Rect α)) :
    start.toSet ∪ BandSweep.region inputs ⊆ (bound start inputs).toSet := by
  induction inputs generalizing start with
  | nil =>
    rintro p (hp | ⟨r, hr, -⟩)
    · exact hp
    · exact absurd hr List.not_mem_nil
  | cons r inputs ih =>
    refine Set.Subset.trans ?_ (ih (rectUnion start r))
    rintro p (hp | ⟨s, hs, hp⟩)
    · exact Or.inl (toSet_subset_rectUnion_left _ _ hp)
    · rcases List.mem_cons.mp hs with rfl | hs
      · exact Or.inl (toSet_subset_rectUnion_right _ _ hp)
      · exact Or.inr ⟨s, hs, hp⟩

/-- Two rectangles can be taken in either order. -/
private theorem rectUnion_right_comm {a r s : Rect α} (hr : r.empty = false)
    (hs : s.empty = false) :
    rectUnion (rectUnion a r) s = rectUnion (rectUnion a s) r := by
  have hboth : ∀ {b c : Rect α}, b.empty = false → c.empty = false → rectUnion b c =
      ⟨min b.x0 c.x0, min b.y0 c.y0, max b.x1 c.x1, max b.y1 c.y1⟩ := by
    intro b c hb hc
    rw [rectUnion, hb, hc]
    rfl
  have hkeep : ∀ {b c : Rect α}, b.empty = false → c.empty = false →
      (rectUnion b c).empty = false := by
    intro b c hb hc
    rw [← Bool.not_eq_true] at hb ⊢
    exact Rect.not_empty_of_subset hb (toSet_subset_rectUnion_left b c)
  cases ha : a.empty with
  | true =>
    have hleft : ∀ c : Rect α, rectUnion a c = c := fun c => if_pos ha
    rw [hleft, hleft, hboth hr hs, hboth hs hr, min_comm r.x0, min_comm r.y0, max_comm r.x1,
      max_comm r.y1]
  | false =>
    rw [hboth (hkeep ha hr) hs, hboth (hkeep ha hs) hr, hboth ha hr, hboth ha hs]
    simp only [min_right_comm _ r.x0, min_right_comm _ r.y0, max_right_comm _ r.x1,
      max_right_comm _ r.y1]

theorem Sided.not_empty (h : Sided inputs) {r : Rect α} (hr : r ∈ inputs) : r.empty = false := by
  obtain ⟨hx, hy⟩ := h r hr
  rw [Rect.empty, decide_eq_true hx, decide_eq_true hy]
  rfl

/-- The order of the rectangles does not matter. -/
theorem bound_perm (hsided : Sided inputs) (h : inputs.Perm inputs') (start : Rect α) :
    bound start inputs = bound start inputs' :=
  h.foldl_eq' (fun _ hr _ hs _ => rectUnion_right_comm (hsided.not_empty hr) (hsided.not_empty hs))
    start

end Decomposition

end BandSweep

end ArbitraryComposer
