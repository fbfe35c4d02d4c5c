import ArbitraryComposer.Cache.Prefetch
import ArbitraryComposer.Compositor.DegradationLadder
import ArbitraryComposer.Compositor.PullAudio

/-!
# Prefetch Rings

A frame tells what the next frames will show: the tiles around its tiles, when the view pans; the
tiles of the next rung, when it zooms; the tiles and the audio blocks of the next instants, when it
plays. Each of these rings is a list of keys, and priming protects those of them that are in the
cache.

The neighbours of a tile are found by adding to its column and row, and the next instants by adding
to its instant. Neither is checked: at the ends of their types the rings are not defined.

## Main definitions

- `panPrefetchRing`, `zoomPrefetchRing`, `primePrefetch`: the rings of a frame, and their priming.
- `panAnnulus`, `PanExact`, `PanFits`: what the pan ring should have, that it does, and when it can.
- `TemporalExact`: a temporal ring has what it should have.

## Main results

- `panExact_iff`: exactly then the pan ring has what it should have.
- `prefetchRings_exact_iff`: exactly then a ring is exact, and its priming stays within the budget.
-/

namespace ArbitraryComposer

/-! ## The pan ring -/

/-- The key of the tile some columns and rows away, on an unbounded grid. -/
def TileKey.shift (v : TileKey) (dc dr : ℤ) : TileKey :=
  { v with coord := ⟨v.coord.col + dc, v.coord.row + dr⟩ }

/-- The key of the tile some columns and rows away, as `pan_prefetch_ring` computes it. -/
def TileKey.neighbour (v : TileKey) (dc dr : ℤ) : Checked LengthError TileKey := do
  let col ← signed 32 (v.coord.col + dc)
  let row ← signed 32 (v.coord.row + dr)
  return { v with coord := ⟨col, row⟩ }

/-- What `pan_prefetch_ring` builds up. -/
structure PanScan where
  /-- The keys that are in the ring, as a set. -/
  emitted : Finset TileKey
  /-- The ring. -/
  ring : List TileKey

/-- A turn of the loop over the columns. -/
def panCell (visible : List TileKey) (v : TileKey) (dr dc : ℤ) (scan : PanScan) :
    Checked LengthError PanScan :=
  -- the visible tile itself
  if dc = 0 ∧ dr = 0 then .ok scan
  else do
    let key ← v.neighbour dc dr
    if key ∈ visible then return scan
    else if key ∈ scan.emitted then return scan
    else return ⟨insert key scan.emitted, scan.ring ++ [key]⟩

/-- A turn of the loop over the rows. -/
def panRow (visible : List TileKey) (radius : ℤ) (v : TileKey) (dr : ℤ) (scan : PanScan) :
    Checked LengthError PanScan := do
  let first ← signed 32 (-radius)
  forUpTo 32 first radius (panCell visible v dr) scan

/-- A turn of the loop over the visible tiles. -/
def panTile (visible : List TileKey) (radius : ℤ) (scan : PanScan) (v : TileKey) :
    Checked LengthError PanScan := do
  let first ← signed 32 (-radius)
  forUpTo 32 first radius (panRow visible radius v) scan

/-- `pan_prefetch_ring`. -/
def panPrefetchRing (visible : List TileKey) (radius : Int32) :
    Checked LengthError (List TileKey) := do
  let scan ← visible.foldlM (panTile visible radius.toInt) ⟨∅, []⟩
  return scan.ring

/-- The Chebyshev distance of two cells. -/
def TileCoord.distance (c d : TileCoord) : ℤ := max |c.col - d.col| |c.row - d.row|

/-- The tiles within a radius of a tile that differ from it in their cell only. -/
def TileKey.around (v : TileKey) (radius : ℤ) : Set TileKey :=
  {key | { key with coord := v.coord } = v ∧ key.coord.distance v.coord ≤ radius}

/-- The tiles within a radius of some visible tile that are not visible. -/
def panAnnulus (visible : List TileKey) (radius : ℤ) : Set TileKey :=
  {key | key ∉ visible ∧ ∃ v ∈ visible, key ∈ v.around radius}

/-- The pan ring has exactly the tiles of the annulus, each once, and no coordinate wraps. -/
def PanExact (visible : List TileKey) (radius : Int32) : Prop :=
  ∃ ring, panPrefetchRing visible radius = .ok ring ∧
    ring.Enumerates (panAnnulus visible radius.toInt) ∧ ∀ key ∈ ring, key.coord.Fits

/-- The radius can be counted to and has an opposite, and around a visible tile there is room for
it. -/
def PanFits (visible : List TileKey) (radius : ℤ) : Prop :=
  ∀ v ∈ visible, -2 ^ 31 < radius ∧ radius < 2 ^ 31 - 1 ∧
    (0 < radius → (v.shift (-radius) (-radius)).coord.Fits ∧ (v.shift radius radius).coord.Fits)

instance : DecidablePred TileCoord.Fits := fun _ => inferInstanceAs (Decidable (_ ∧ _))

instance (visible : List TileKey) (radius : ℤ) : Decidable (PanFits visible radius) :=
  List.decidableBAll _ _

section Pan

variable {visible : List TileKey} {v key : TileKey} {radius dc dr : ℤ} {scan scan' : PanScan}
  {S T : Set TileKey}

theorem TileKey.neighbour_eq_ok_iff :
    v.neighbour dc dr = .ok key ↔ (v.shift dc dr).coord.Fits ∧ key = v.shift dc dr := by
  constructor
  · intro h
    obtain ⟨col, hcol, h⟩ := Checked.exists_of_bind h
    obtain ⟨row, hrow, h⟩ := Checked.exists_of_bind h
    obtain ⟨hfitsCol, rfl⟩ := signed_eq_ok_iff.mp hcol
    obtain ⟨hfitsRow, rfl⟩ := signed_eq_ok_iff.mp hrow
    cases h
    exact ⟨⟨hfitsCol, hfitsRow⟩, rfl⟩
  · rintro ⟨hfits, rfl⟩
    have hcol : FitsSigned 32 (v.coord.col + dc) := hfits.1
    have hrow : FitsSigned 32 (v.coord.row + dr) := hfits.2
    rw [TileKey.neighbour, signed_eq_ok hcol]
    show (signed 32 _ >>= _) = _
    rw [signed_eq_ok hrow]
    rfl

/-- The tiles around a tile are found by columns and rows. -/
theorem TileKey.mem_around : key ∈ v.around radius ↔
    ∃ dr, -radius ≤ dr ∧ dr ≤ radius ∧ ∃ dc, -radius ≤ dc ∧ dc ≤ radius ∧ key = v.shift dc dr := by
  rcases key with ⟨content, revision, rung, ⟨col, row⟩, time⟩
  rcases v with ⟨content', revision', rung', ⟨col', row'⟩, time'⟩
  simp only [around, shift, TileCoord.distance, Set.mem_ofPred_eq, max_le_iff, abs_le,
    TileKey.mk.injEq, TileCoord.mk.injEq, true_and]
  constructor
  · rintro ⟨⟨rfl, rfl, rfl, rfl⟩, hcol, hrow⟩
    exact ⟨row - row', hrow.1, hrow.2, col - col', hcol.1, hcol.2, by simp⟩
  · rintro ⟨dr, hlo, hhi, dc, hlo', hhi', rfl, rfl, rfl, ⟨rfl, rfl⟩, rfl⟩
    simp only [true_and, add_sub_cancel_left]
    exact ⟨⟨hlo', hhi'⟩, hlo, hhi⟩

/-- The scan has seen a set of tiles: those of them that are not visible are in the ring. -/
structure PanScan.Holds (visible : List TileKey) (S : Set TileKey) (scan : PanScan) : Prop where
  /-- Each of them once. -/
  ring : scan.ring.Enumerates {key | key ∉ visible ∧ key ∈ S}
  /-- The set has what the ring has. -/
  emitted : ∀ key, key ∈ scan.emitted ↔ key ∈ scan.ring
  /-- No coordinate has wrapped. -/
  fits : ∀ key ∈ scan.ring, key.coord.Fits

/-- What is visible, or was seen before, changes nothing. -/
theorem PanScan.Holds.union_old (h : scan.Holds visible S) (hold : key ∈ visible ∨ key ∈ S) :
    scan.Holds visible (S ∪ {key}) := by
  refine ⟨h.ring.congr fun k => ?_, h.emitted, h.fits⟩
  simp only [Set.mem_ofPred_eq, Set.mem_union, Set.mem_singleton_iff]
  refine and_congr_right fun hk => ⟨Or.inl, ?_⟩
  rintro (hS | rfl)
  · exact hS
  · exact hold.resolve_left hk

/-- A new tile comes to the ring. -/
theorem PanScan.Holds.union_new (h : scan.Holds visible S) (hkey : key ∉ visible)
    (hnew : key ∉ scan.ring) (hfits : key.coord.Fits) :
    PanScan.Holds visible (S ∪ {key}) ⟨insert key scan.emitted, scan.ring ++ [key]⟩ := by
  have hnot := mt (h.ring.mem_iff key).mpr hnew
  refine ⟨(h.ring.concat hnot).congr fun k => ?_, fun k => ?_, fun k hk => ?_⟩
  · simp only [Set.mem_insert_iff, Set.mem_ofPred_eq, Set.mem_union, Set.mem_singleton_iff]
    constructor
    · rintro (rfl | ⟨hk, hS⟩)
      · exact ⟨hkey, Or.inr rfl⟩
      · exact ⟨hk, Or.inl hS⟩
    · rintro ⟨hk, hS | rfl⟩
      · exact Or.inr ⟨hk, hS⟩
      · exact Or.inl rfl
  · simp [h.emitted, or_comm]
  · rcases List.mem_append.mp hk with hk | hk
    · exact h.fits k hk
    · rwa [List.mem_singleton.mp hk]

/-- A turn of the loop over the columns sees a tile. -/
theorem PanScan.Holds.panCell (h : scan.Holds visible S) (hv : v ∈ visible)
    (hfits : ¬(dc = 0 ∧ dr = 0) → (v.shift dc dr).coord.Fits) :
    (ArbitraryComposer.panCell visible v dr dc scan).Returns
      (PanScan.Holds visible (S ∪ {v.shift dc dr})) := by
  unfold ArbitraryComposer.panCell
  split
  case isTrue hself =>
    obtain ⟨rfl, rfl⟩ := hself
    have hshift : v.shift 0 0 = v := by simp [TileKey.shift]
    exact Checked.returns_ok (h.union_old (Or.inl (hshift.symm ▸ hv)))
  case isFalse hself =>
    rw [TileKey.neighbour_eq_ok_iff.mpr ⟨hfits hself, rfl⟩]
    show Checked.Returns (if _ then _ else _) _
    split
    case isTrue hvisible => exact Checked.returns_ok (h.union_old (Or.inl hvisible))
    case isFalse hvisible =>
      split
      case isTrue hemitted =>
        have hring := (h.emitted _).mp hemitted
        exact Checked.returns_ok (h.union_old (Or.inr ((h.ring.mem_iff _).mp hring).2))
      case isFalse hemitted =>
        exact Checked.returns_ok
          (h.union_new hvisible (mt (h.emitted _).mpr hemitted) (hfits hself))

/-- Between two tiles that fit, all fit. -/
private theorem shift_fits (h : (v.shift (-radius) (-radius)).coord.Fits)
    (h' : (v.shift radius radius).coord.Fits) (hdc : -radius ≤ dc ∧ dc ≤ radius)
    (hdr : -radius ≤ dr ∧ dr ≤ radius) : (v.shift dc dr).coord.Fits := by
  simp only [TileKey.shift, TileCoord.Fits, Fits32] at *
  omega

/-- A tile of a scan whose tiles fit: unless it is the visible tile itself, it fits. -/
private theorem PanFits.shift (h : PanFits visible radius) (hv : v ∈ visible)
    (hdc : -radius ≤ dc ∧ dc ≤ radius) (hdr : -radius ≤ dr ∧ dr ≤ radius)
    (hself : ¬(dc = 0 ∧ dr = 0)) : (v.shift dc dr).coord.Fits := by
  obtain ⟨hlo, hhi⟩ := (h v hv).2.2 (by omega)
  exact shift_fits hlo hhi hdc hdr

private theorem PanFits.neg (h : PanFits visible radius) (hv : v ∈ visible) :
    FitsSigned 32 (-radius) := by
  obtain ⟨hlo, hhi, -⟩ := h v hv
  norm_num [FitsSigned] at *
  omega

private theorem PanFits.succ (h : PanFits visible radius) (hv : v ∈ visible) {x : ℤ}
    (hx : -radius ≤ x) (hx' : x ≤ radius) : FitsSigned 32 (x + 1) := by
  obtain ⟨hlo, hhi, -⟩ := h v hv
  norm_num [FitsSigned] at *
  omega

/-- A turn of the loop over the rows sees the tiles of a row. -/
theorem PanScan.Holds.panRow (h : scan.Holds visible S) (hfits : PanFits visible radius)
    (hv : v ∈ visible) (hdr : -radius ≤ dr ∧ dr ≤ radius) :
    (ArbitraryComposer.panRow visible radius v dr scan).Returns (PanScan.Holds visible
      (S ∪ {key | ∃ dc, -radius ≤ dc ∧ dc ≤ radius ∧ key = v.shift dc dr})) := by
  rw [ArbitraryComposer.panRow, signed_eq_ok (hfits.neg hv)]
  exact forUpTo_collects (PanScan.Holds visible) (fun dc => {v.shift dc dr}) h
    (fun dc S s hlo hhi hs => hs.panCell hv (hfits.shift hv ⟨hlo, hhi⟩ hdr))
    fun x hlo hhi => hfits.succ hv hlo hhi

/-- A turn of the loop over the visible tiles sees the tiles around one. -/
theorem PanScan.Holds.panTile (h : scan.Holds visible S) (hfits : PanFits visible radius)
    (hv : v ∈ visible) : (ArbitraryComposer.panTile visible radius scan v).Returns
      (PanScan.Holds visible (S ∪ v.around radius)) := by
  have hrows : S ∪ v.around radius = {key | key ∈ S ∨ ∃ dr, -radius ≤ dr ∧ dr ≤ radius ∧
      key ∈ {key | ∃ dc, -radius ≤ dc ∧ dc ≤ radius ∧ key = v.shift dc dr}} := by
    ext key
    simp only [Set.mem_union, TileKey.mem_around, Set.mem_ofPred_eq]
  rw [ArbitraryComposer.panTile, signed_eq_ok (hfits.neg hv), hrows]
  exact forUpTo_collects (PanScan.Holds visible)
    (fun dr => {key | ∃ dc, -radius ≤ dc ∧ dc ≤ radius ∧ key = v.shift dc dr}) h
    (fun dr S s hlo hhi hs => hs.panRow hfits hv ⟨hlo, hhi⟩)
    fun x hlo hhi => hfits.succ hv hlo hhi

/-- The pan ring is exact where there is room for the radius. -/
theorem panExact_of_panFits {radius : Int32} (h : PanFits visible radius.toInt) :
    PanExact visible radius := by
  have hstart : PanScan.Holds visible ∅ ⟨∅, []⟩ :=
    ⟨List.enumerates_nil (by simp), by simp, by simp⟩
  obtain ⟨scan, hscan, hall⟩ := Checked.foldlM_collects (PanScan.Holds visible)
    (fun v => v.around radius.toInt) hstart fun v S s hv hs => hs.panTile h hv
  refine ⟨scan.ring, ?_, hall.ring.congr fun key => ?_, hall.fits⟩
  · rw [panPrefetchRing, hscan]
    rfl
  · simp [panAnnulus]

/-- A turn of the loop over the visible tiles that returned has found every tile. -/
private theorem fits_of_panTile {t : PanScan} (h : panTile visible radius scan v = .ok t)
    (hdc : -radius ≤ dc ∧ dc ≤ radius) (hdr : -radius ≤ dr ∧ dr ≤ radius)
    (hself : ¬(dc = 0 ∧ dr = 0)) : (v.shift dc dr).coord.Fits := by
  obtain ⟨first, hfirst, h⟩ := Checked.exists_of_bind h
  obtain ⟨-, rfl⟩ := signed_eq_ok_iff.mp hfirst
  obtain ⟨-, s, s', h⟩ := exists_of_forUpTo h hdr.1 hdr.2
  obtain ⟨first, hfirst, h⟩ := Checked.exists_of_bind h
  obtain ⟨-, rfl⟩ := signed_eq_ok_iff.mp hfirst
  obtain ⟨-, s, s', h⟩ := exists_of_forUpTo h hdc.1 hdc.2
  rw [panCell, if_neg hself] at h
  obtain ⟨key, hkey, -⟩ := Checked.exists_of_bind h
  exact (TileKey.neighbour_eq_ok_iff.mp hkey).1

/-- Where the pan ring is a ring at all, there was room for the radius. -/
theorem panFits_of_eq_ok {radius : Int32} {ring : List TileKey}
    (h : panPrefetchRing visible radius = .ok ring) : PanFits visible radius.toInt := by
  intro v hv
  obtain ⟨scan, hscan, -⟩ := Checked.exists_of_bind h
  obtain ⟨s, t, htile⟩ := Checked.exists_of_foldlM hscan hv
  refine ⟨?_, ?_, fun hpos => ⟨?_, ?_⟩⟩
  · obtain ⟨first, hfirst, -⟩ := Checked.exists_of_bind htile
    obtain ⟨hfits, -⟩ := signed_eq_ok_iff.mp hfirst
    norm_num [FitsSigned] at *
    omega
  · by_cases hneg : radius.toInt < 0
    · omega
    · obtain ⟨first, hfirst, hrows⟩ := Checked.exists_of_bind htile
      obtain ⟨-, rfl⟩ := signed_eq_ok_iff.mp hfirst
      obtain ⟨hfits, -⟩ := exists_of_forUpTo hrows (x := radius.toInt) (by omega) le_rfl
      norm_num [FitsSigned] at *
      omega
  · exact fits_of_panTile htile (by omega) (by omega) (by omega)
  · exact fits_of_panTile htile (by omega) (by omega) (by omega)

/-- The pan ring is exact if and only if there is room for the radius around every visible tile. -/
theorem panExact_iff {radius : Int32} : PanExact visible radius ↔ PanFits visible radius.toInt := by
  constructor
  · rintro ⟨ring, hring, -⟩
    exact panFits_of_eq_ok hring
  · exact panExact_of_panFits

end Pan

/-! ## The temporal rings -/

/-- The key of a tile at an instant. -/
def TileKey.atTime (base : TileKey) (time : Int64) : TileKey :=
  { base with achievedTime := some time }

/-- The key of a block of samples. -/
def BlockKey.atIndex (base : BlockKey) (index : Int64) : BlockKey :=
  { base with blockIndex := index }

/-- `prefetch_temporal_step` of a tile. The key of a static tile has no instant to read. -/
def TileKey.prefetchTemporalStep (base : TileKey) (buckets : ℤ) (step : Int64) :
    Checked LengthError TileKey :=
  match base.achievedTime with
  | none => .error (.trap .assertion)
  | some time => do
    let offset ← signed 64 (buckets * step.toInt)
    let time ← signed 64 (time.toInt + offset)
    return base.atTime (.ofInt time)

/-- `prefetch_temporal_step` of a block, which is a bucket wide. -/
def BlockKey.prefetchTemporalStep (base : BlockKey) (buckets : ℤ) (_step : Int64) :
    Checked LengthError BlockKey := do
  let index ← signed 64 (base.blockIndex.toInt + buckets)
  return base.atIndex (.ofInt index)

/-- A temporal ring has exactly the keys of the buckets ahead, each once. -/
def TemporalExact {κ : Type} (prefetchTemporalStep : κ → ℤ → Int64 → Checked LengthError κ)
    (place : Int64 → κ) (origin : Int64) (unit : ℤ) (maxSize : ℕ) (base : κ) (direction : Int32)
    (step horizon : Int64) : Prop :=
  ∃ ring, temporalPrefetchRing prefetchTemporalStep maxSize base direction step horizon =
    .ok ring ∧ ring.Enumerates (bucketsAhead place origin unit direction step horizon)

section Temporal

variable {time step horizon : Int64} {direction : Int32} {maxSize : ℕ}

theorem TileKey.atTime_injective (base : TileKey) : Function.Injective base.atTime := by
  intro t u htu
  simpa [atTime] using htu

theorem BlockKey.atIndex_injective (base : BlockKey) : Function.Injective base.atIndex := by
  intro i j hij
  simpa [atIndex] using hij

/-- A tile walks along the instants, a step of them for a bucket. -/
theorem TileKey.walksAxis (base : TileKey) : WalksAxis TileKey.prefetchTemporalStep
    (base.atTime time) base.atTime time step.toInt step horizon := by
  intro k hk
  have hbound := abs_le.mp hk
  have hhorizon := fitsSigned_toInt horizon
  -- what is added to the instant is at most the horizon
  have hoffset : FitsSigned 64 (k * step.toInt) :=
    ⟨by linarith [hbound.1, hhorizon.1, hhorizon.2], by linarith [hbound.2, hhorizon.2]⟩
  simp only [prefetchTemporalStep, atTime, signed_eq_ok hoffset]
  rfl

/-- A block walks along the blocks. -/
theorem BlockKey.walksAxis (base : BlockKey) : WalksAxis BlockKey.prefetchTemporalStep
    base base.atIndex base.blockIndex 1 step horizon := by
  intro k _
  rw [mul_one]
  rfl

/-- The ring of a tile is exact if and only if the buckets fit. -/
theorem temporalExact_tile_iff (base : TileKey) :
    TemporalExact TileKey.prefetchTemporalStep base.atTime time step.toInt maxSize
      (base.atTime time) direction step horizon ↔
        BucketsFit time step.toInt direction step horizon maxSize :=
  temporalPrefetchRing_iff base.walksAxis base.atTime_injective fun hstep => hstep.ne'

/-- The ring of a block is exact if and only if the buckets fit. -/
theorem temporalExact_block_iff (base : BlockKey) :
    TemporalExact BlockKey.prefetchTemporalStep base.atIndex base.blockIndex 1 maxSize base
      direction step horizon ↔ BucketsFit base.blockIndex 1 direction step horizon maxSize :=
  temporalPrefetchRing_iff base.walksAxis base.atIndex_injective fun _ => one_ne_zero

end Temporal

/-! ## Priming -/

/-- `zoom_prefetch_ring`. -/
def zoomPrefetchRing (current : RungSelection) (localRegion : DeviceRect) (content : ObjectId)
    (revision : UInt64) (achievedTime : Option Int64) (zoomDirection : Int32) :
    Checked LengthError (List TileKey) :=
  if zoomDirection = 0 then .ok []
  else do
    let index ← signed 32 (current.rung.index + if zoomDirection < 0 then 1 else -1)
    match tilesCovering? ⟨index⟩ localRegion with
    | none => .error (.trap (.signedOverflow 32))
    | some coords =>
      return coords.map fun coord => ⟨content, revision, ⟨index⟩, coord, achievedTime⟩

/-- `prime_prefetch`: the keys that are to be rendered, and the cache. -/
def primePrefetch {σ δ ν : Type} (cache : KeyedStore TileKey ν) (plan : LayerTilePlan σ δ)
    (zoomDirection panRadius : Int32) :
    Checked LengthError (List TileKey × KeyedStore TileKey ν) := do
  let visible := plan.tiles.map PlannedTile.key
  let region := plan.tiles.foldl (fun region tile => region.union tile.localRect) ⟨0, 0, 0, 0⟩
  let pan ← panPrefetchRing visible panRadius
  let (panAbsent, cache) := cache.primeRing pan .adjacent
  match plan.tiles with
  | [] => return (panAbsent, cache)
  | sample :: _ =>
    let zoom ← zoomPrefetchRing ⟨plan.rung, plan.remainder⟩ region plan.content sample.key.revision
      sample.key.achievedTime zoomDirection
    let (zoomAbsent, cache) := cache.primeRing zoom .speculative
    return (panAbsent ++ zoomAbsent, cache)

section Priming

variable {σ δ ν : Type} {s s' : KeyedStore TileKey ν} {holds : List ℕ} {plan : LayerTilePlan σ δ}
  {zoomDirection panRadius : Int32} {want : List TileKey}

/-- The priming of a frame primes two rings, one after the other. -/
theorem undisturbed_primePrefetch (h : s.Inv holds)
    (hrun : primePrefetch s plan zoomDirection panRadius = .ok (want, s')) : s.Undisturbed s' := by
  obtain ⟨pan, -, hrun⟩ := Checked.exists_of_bind hrun
  obtain ⟨hinv, hpan, -⟩ := KeyedStore.primed_primeRing h pan .adjacent
  simp only at hrun
  split at hrun
  case h_1 =>
    cases hrun
    exact hpan.undisturbed
  case h_2 sample _ _ =>
    obtain ⟨zoom, -, hrun⟩ := Checked.exists_of_bind hrun
    cases hrun
    obtain ⟨-, hzoom, -⟩ := KeyedStore.primed_primeRing hinv zoom .speculative
    exact hpan.undisturbed.trans hzoom.undisturbed

end Priming

/-- The pan ring of any tiles has exactly the other tiles within the radius of one of them, each once,
if and only if there is room for the radius around every tile; the temporal ring of a key has exactly
the keys a whole number of steps ahead within the horizon, each once, if and only if the steps can be
counted and the last bucket has a place on its axis; and in every run of a cache, priming leaves
every entry, and leaves the resident bytes within the budget if and only if they were. -/
theorem prefetchRings_exact_iff {κ ν σ δ : Type} [DecidableEq κ] (visible : List TileKey)
    (radius : Int32) (tile : TileKey) (block : BlockKey) (time : Int64) (maxSize : ℕ)
    (direction : Int32) (step horizon : Int64) {p : CacheSession κ ν × CacheLedger}
    (hp : (cacheModel κ ν).Reachable Machine.anyEvent p) (ring : List κ) (klass : PriorityClass)
    {q : CacheSession TileKey ν × CacheLedger}
    (hq : (cacheModel TileKey ν).Reachable Machine.anyEvent q) (plan : LayerTilePlan σ δ)
    (zoomDirection panRadius : Int32) :
    (PanExact visible radius ↔ PanFits visible radius.toInt) ∧
    (TemporalExact TileKey.prefetchTemporalStep tile.atTime time step.toInt maxSize
      (tile.atTime time) direction step horizon ↔
        BucketsFit time step.toInt direction step horizon maxSize) ∧
    (TemporalExact BlockKey.prefetchTemporalStep block.atIndex block.blockIndex 1 maxSize block
      direction step horizon ↔ BucketsFit block.blockIndex 1 direction step horizon maxSize) ∧
    (p.1.store.LeavesResident (p.1.store.primeRing ring klass).2 ↔
      p.1.store.resident ≤ p.1.store.budget) ∧
    (∀ want store, primePrefetch q.1.store plan zoomDirection panRadius = .ok (want, store) →
      (q.1.store.LeavesResident store ↔ q.1.store.resident ≤ q.1.store.budget)) := by
  refine ⟨panExact_iff, temporalExact_tile_iff tile, temporalExact_block_iff block, ?_, ?_⟩
  · obtain ⟨-, hprimed, -⟩ := KeyedStore.primed_primeRing (cacheModel_inv hp).books ring klass
    exact hprimed.undisturbed.leavesResident_iff
  · intro want store hrun
    exact (undisturbed_primePrefetch (cacheModel_inv hq).books hrun).leavesResident_iff

/-- A tile of a still. -/
def stillTile (coord : TileCoord) : TileKey := ⟨1, 1, ⟨0⟩, coord, none⟩

/-- A frame that shows one tile of a still. -/
def stillPlan : LayerTilePlan Unit Unit where
  content := 1
  revision := 1
  rung := ⟨0⟩
  remainder := 1
  localToDevice := {}
  time := 0
  snapshot := ()
  deadline := ()
  tiles := [⟨⟨0, 0⟩, tileRenderRect ⟨0⟩ ⟨0, 0⟩, stillTile ⟨0, 0⟩, true, .placeholder, ⟨0⟩, none,
    .visible⟩]

/-- A neighbour of the tile is in the cache, which is full. -/
def neighbourRun : List (CacheEvent TileKey Unit) :=
  [.insert (stillTile ⟨1, 0⟩) () 6 .visible, .release 0]

theorem prefetchRings_exact_iff_stillPlan :
    PanExact [stillTile ⟨0, 0⟩, stillTile ⟨1, 0⟩] 2 ∧
    TemporalExact TileKey.prefetchTemporalStep (stillTile ⟨0, 0⟩).atTime 0 2 9
      ((stillTile ⟨0, 0⟩).atTime 0) (-1) 2 9 ∧
    TemporalExact BlockKey.prefetchTemporalStep (BlockKey.atIndex ⟨1, 1, 5, 48000, 0⟩) 5 1 9
      ⟨1, 1, 5, 48000, 0⟩ (-1) 2 9 ∧
    ∃ p want store, (cacheModel TileKey Unit).Reachable Machine.anyEvent p ∧
      primePrefetch p.1.store stillPlan 0 1 = .ok (want, store) ∧ want.length = 7 ∧
        p.1.store.LeavesResident store := by
  obtain ⟨p, hp, hrun⟩ := Machine.exists_reachable (M := cacheModel TileKey Unit)
    Machine.anyEvent neighbourRun (fun p => p.1.store.resident ≤ p.1.store.budget &&
      (primePrefetch p.1.store stillPlan 0 1).toOption.any fun q => q.1.length == 7)
    (s := (⟨{ budget := 6 }, []⟩, {})) ⟨⟨6, rfl⟩, rfl⟩ (Machine.runAllowed_anyEvent _ _)
    (by decide +kernel)
  rw [Bool.and_eq_true, decide_eq_true_iff] at hrun
  obtain ⟨hbudget, hrun⟩ := hrun
  obtain ⟨hpan, htile, hblock, -, hprime⟩ := prefetchRings_exact_iff
    [stillTile ⟨0, 0⟩, stillTile ⟨1, 0⟩] 2 (stillTile ⟨0, 0⟩) ⟨1, 1, 5, 48000, 0⟩ 0 9 (-1) 2 9 hp []
    .visible hp stillPlan 0 1
  refine ⟨hpan.mpr (by decide +kernel), htile.mpr ?_, hblock.mpr ?_, ?_⟩
  · exact fun _ _ => ⟨by decide +kernel, by decide +kernel, by decide +kernel⟩
  · exact fun _ _ => ⟨by decide +kernel, by decide +kernel, by decide +kernel⟩
  · cases hresult : primePrefetch p.1.store stillPlan 0 1 with
    | error e => simp [hresult, Except.toOption] at hrun
    | ok q =>
      rw [hresult] at hrun
      exact ⟨p, q.1, q.2, hp, hresult, by simpa [Except.toOption] using hrun,
        (hprime q.1 q.2 hresult).mpr hbudget⟩

/-- What a view shows at the left end of the columns. -/
def farRegion : DeviceRect :=
  ⟨Double.ofInt (-2 ^ 39), 0, Double.ofInt (-2 ^ 39 + 128), Double.ofInt 128⟩

/-- A view can show the first column of all, and the ring around its tile is not defined; neither is
the ring of the last instant. -/
theorem not_prefetchRings_exact :
    tilesCovering? ⟨0⟩ farRegion = some [⟨-2 ^ 31, 0⟩] ∧
    ¬PanExact [stillTile ⟨-2 ^ 31, 0⟩] 1 ∧
    ¬TemporalExact TileKey.prefetchTemporalStep (stillTile ⟨0, 0⟩).atTime Int64.maxValue 1 9
      ((stillTile ⟨0, 0⟩).atTime Int64.maxValue) 1 1 1 := by
  refine ⟨by decide +kernel, ?_, ?_⟩
  · rw [panExact_iff]
    decide +kernel
  · intro hring
    obtain ⟨-, -, hlast⟩ := (temporalExact_tile_iff _).mp hring (by decide +kernel)
      (by decide +kernel)
    exact absurd hlast (by decide +kernel)

end ArbitraryComposer
