import ArbitraryComposer.Pool.BigBlockPool
import ArbitraryComposer.Pool.Fault
import ArbitraryComposer.ToMathlib.Exec
import Mathlib.Algebra.Order.Group.Multiset

/-!
# Raster Tile Tables

The versions of one raster layer. A version is an immutable table of tile references per
pyramid level; it owns one count on every tile it names. A paint copies the table, replaces
the tiles it touches by fresh blobs, and shares the rest.

The arithmetic of pixels is a parameter: a `Brush` says which tiles a paint touches and what
each becomes.

## Main definitions

- `TileTable`: the tile references of a version.
- `Brush`: the touched tiles of a paint and their new samples.
- `buildTable`: the table of a fresh layer.
- `paintTable`: the successor of a table under a brush.

## Main results

- `buildTable_spec`, `paintTable_spec`: the new table owns its tiles.
-/

namespace ArbitraryComposer

open Exec

/-- The immutable tile references of one version, level 0 first. -/
structure TileTable where
  /-- Width of the layer in pixels. -/
  width : ℕ
  /-- Height of the layer in pixels. -/
  height : ℕ
  /-- Edge of a tile in pixels. -/
  edge : ℕ
  /-- The row-major tile grid of each pyramid level. -/
  levels : List (List BlockSlotRef)
  deriving DecidableEq

/-- The tiles a paint touches, by level and index, and their new samples. -/
structure Brush where
  /-- Whether the tile at a level and index is touched. -/
  touches : ℕ → ℕ → Bool
  /-- The new samples of a touched tile, from its old ones. -/
  repaint : ℕ → ℕ → List UInt32 → List UInt32

/-- `blob_bytes`: the size of one tile of `edge * edge` working pixels. -/
def blobBytes (edge : ℕ) : ℕ := edge * edge * 4 * 4

/-- Programs on one pool. They have no error values: the source dereferences a failed
allocation. -/
abbrev PoolExec (α : Type) : Type := Exec BigBlockPool Empty Fault α

/-- `new_blob` and its fill. -/
def newBlob (t size : ℕ) (samples : List UInt32) : PoolExec BlockSlotRef := fun p =>
  match p.allocate t size samples with
  | (.ok ref, p') => .ok ref p'
  | (.error _, _) => .fault .emptyDeref

/-- Take a count for a stored reference. The count ceiling ends the run. -/
def retainBlob (ref : BlockSlotRef) : PoolExec Unit :=
  ofOption (BigBlockPool.retain · ref) .countOverflow

/-- Give a count back. -/
def releaseBlob (t : ℕ) (ref : BlockSlotRef) : PoolExec Unit :=
  ofOption (BigBlockPool.release · t ref) .countUnderflow

/-- The tiles of one level made from `tiles` by `f`, with the fresh blobs among them. -/
def mapTiles {α : Type} (f : ℕ → α → PoolExec (BlockSlotRef × List BlockSlotRef)) :
    ℕ → List α → PoolExec (List BlockSlotRef × List BlockSlotRef)
  | _, [] => pure ([], [])
  | i, a :: as => do
    let (ref, keep) ← f i a
    let (refs, keeps) ← mapTiles f (i + 1) as
    pure (ref :: refs, keep ++ keeps)

/-- The levels made from `levels` by `f`, with the fresh blobs among them. -/
def mapLevels {α : Type} (f : ℕ → ℕ → α → PoolExec (BlockSlotRef × List BlockSlotRef)) :
    ℕ → List (List α) → PoolExec (List (List BlockSlotRef) × List BlockSlotRef)
  | _, [] => pure ([], [])
  | l, tiles :: rest => do
    let (refs, keep) ← mapTiles (f l) 0 tiles
    let (levels, keeps) ← mapLevels f (l + 1) rest
    pure (refs :: levels, keep ++ keeps)

/-- The constructor of a table takes a count on every tile; the fresh blobs' own counts are
dropped afterwards. -/
def adoptLevels (t : ℕ) (levels : List (List BlockSlotRef)) (keep : List BlockSlotRef) :
    PoolExec Unit := do
  forEach levels.flatten retainBlob
  forEach keep (releaseBlob t)

/-- `RasterStore::build_from_tiles`: every tile of every level is a fresh blob. -/
def buildTable (t width height edge : ℕ) (tiles : List (List (List UInt32))) :
    PoolExec TileTable := do
  let fresh (_ _ : ℕ) (samples : List UInt32) : PoolExec (BlockSlotRef × List BlockSlotRef) := do
    let ref ← newBlob t (blobBytes edge) samples
    pure (ref, [ref])
  let (levels, keep) ← mapLevels fresh 0 tiles
  adoptLevels t levels keep
  pure { width, height, edge, levels }

/-- `RasterStore::paint`: touched tiles become fresh blobs, the others are shared. -/
def paintTable (t : ℕ) (base : TileTable) (brush : Brush) : PoolExec TileTable := do
  let repaint (l i : ℕ) (ref : BlockSlotRef) : PoolExec (BlockSlotRef × List BlockSlotRef) :=
    if brush.touches l i then do
      let old ← gets (BigBlockPool.peek · ref)
      let fresh ← newBlob t (blobBytes base.edge) (brush.repaint l i old)
      pure (fresh, [fresh])
    else
      pure (ref, [])
  let (levels, keep) ← mapLevels repaint 0 base.levels
  adoptLevels t levels keep
  pure { base with levels }

/-- The destructor of a table gives every count back. -/
def dropTable (t : ℕ) (table : TileTable) : PoolExec Unit :=
  forEach table.levels.flatten (releaseBlob t)

/-- The slots a table owns a count on. -/
def TileTable.slots (table : TileTable) : Multiset (ℕ × ℕ) :=
  (table.levels.flatten.map BlockSlotRef.slot : List (ℕ × ℕ))

/-! ## Ownership -/

/-- `p'` reads as `p` does at every slot of `owners`. -/
def BigBlockPool.AgreesOn (p p' : BigBlockPool) (owners : Multiset (ℕ × ℕ)) : Prop :=
  ∀ slot ∈ owners, p'.data slot = p.data slot

/-- The faults a pool program may end in: the count ceiling and a refused allocation. -/
def poolFault (g : Fault) : Prop := g = .countOverflow ∨ g = .emptyDeref

variable {p p' p'' : BigBlockPool} {owners : Multiset (ℕ × ℕ)} {t : ℕ}

theorem BigBlockPool.AgreesOn.refl : p.AgreesOn p owners := fun _ _ => rfl

theorem BigBlockPool.AgreesOn.trans {owners' : Multiset (ℕ × ℕ)} (h : p.AgreesOn p' owners)
    (h' : p'.AgreesOn p'' owners') (hsub : owners ⊆ owners') : p.AgreesOn p'' owners :=
  fun slot hs => (h' slot (hsub hs)).trans (h slot hs)

theorem BigBlockPool.AgreesOn.of_data_eq (h : p'.data = p.data) : p.AgreesOn p' owners :=
  fun slot _ => congrFun h slot

/-- The slots of a list of references. -/
def slotsOf (refs : List BlockSlotRef) : Multiset (ℕ × ℕ) :=
  (refs.map BlockSlotRef.slot : List (ℕ × ℕ))

@[simp]
theorem slotsOf_nil : slotsOf [] = 0 := rfl

@[simp]
theorem slotsOf_cons (ref : BlockSlotRef) (refs : List BlockSlotRef) :
    slotsOf (ref :: refs) = ref.slot ::ₘ slotsOf refs := rfl

@[simp]
theorem slotsOf_append (refs refs' : List BlockSlotRef) :
    slotsOf (refs ++ refs') = slotsOf refs + slotsOf refs' := by
  simp [slotsOf]

theorem newBlob_spec {size : ℕ} {samples : List UInt32} (h : p.Owned owners) :
    wp (newBlob t size samples)
      (fun ref p' => p'.Owned (ref.slot ::ₘ owners) ∧ p.AgreesOn p' owners ∧
        (ref.size = size ∧ p'.data ref.slot = samples) ∧ ref.slot ∉ owners)
      (fun _ _ => False) poolFault p := by
  unfold wp newBlob
  cases ha : p.allocate t size samples with
  | mk r p' =>
    cases r with
    | error e => exact Or.inr rfl
    | ok ref =>
      obtain ⟨hfresh, hown, hsize, hdata⟩ := h.allocate_ok ha
      refine ⟨hown, fun slot hs => ?_, ⟨hsize, ?_⟩, hfresh⟩
      · rw [hdata, Function.update_of_ne (ne_of_mem_of_not_mem hs hfresh)]
      · rw [hdata, Function.update_self]

theorem retainBlob_spec {ref : BlockSlotRef} (h : p.Owned owners) (hmem : ref.slot ∈ owners) :
    wp (retainBlob ref) (fun _ p' => p'.Owned (ref.slot ::ₘ owners) ∧ p'.data = p.data)
      (fun _ _ => False) poolFault p := by
  rw [retainBlob, wp_ofOption]
  exact ⟨fun p' hr => h.retain hmem hr, fun _ => Or.inl rfl⟩

theorem releaseBlob_spec {ref : BlockSlotRef} (h : p.Owned (ref.slot ::ₘ owners)) :
    wp (releaseBlob t ref) (fun _ p' => p'.Owned owners ∧ p'.data = p.data)
      (fun _ _ => False) poolFault p := by
  obtain ⟨p', hr, hown, hdata⟩ := h.release (t := t)
  rw [releaseBlob, wp_ofOption]
  simp only [hr, reduceCtorEq, false_imp_iff, and_true, Option.some.injEq]
  rintro _ rfl
  exact ⟨hown, hdata⟩

/-- Counts on references already owned. -/
theorem retainBlobs_spec {refs : List BlockSlotRef} (h : p.Owned owners)
    (hmem : slotsOf refs ⊆ owners) :
    wp (forEach refs retainBlob) (fun _ p' => p'.Owned (slotsOf refs + owners) ∧ p'.data = p.data)
      (fun _ _ => False) poolFault p := by
  -- at each point the counts of the references already visited have been taken
  induction refs generalizing p owners with
  | nil => exact ⟨by simpa using h, rfl⟩
  | cons ref refs ih =>
    simp only [slotsOf_cons, Multiset.cons_subset] at hmem
    simp only [forEach, wp_bind]
    refine wp_imp (retainBlob_spec h hmem.1) (fun _ p' hp' => ?_) fun _ _ h => h
    refine wp_imp (ih hp'.1 (fun s hs => Multiset.mem_cons_of_mem (hmem.2 hs)))
      (fun _ p'' hp'' => ⟨?_, hp''.2.trans hp'.2⟩) fun _ _ h => h
    rw [slotsOf_cons, Multiset.cons_add, ← Multiset.add_cons]
    exact hp''.1

/-- Owned references given back. -/
theorem releaseBlobs_spec {refs : List BlockSlotRef} (h : p.Owned (slotsOf refs + owners)) :
    wp (forEach refs (releaseBlob t)) (fun _ p' => p'.Owned owners ∧ p'.data = p.data)
      (fun _ _ => False) poolFault p := by
  induction refs generalizing p with
  | nil => exact ⟨by simpa using h, rfl⟩
  | cons ref refs ih =>
    rw [slotsOf_cons, Multiset.cons_add] at h
    simp only [forEach, wp_bind]
    refine wp_imp (releaseBlob_spec h) (fun _ p' hp' => ?_) fun _ _ h => h
    exact wp_imp (ih hp'.1) (fun _ p'' hp'' => ⟨hp''.1, hp''.2.trans hp'.2⟩) fun _ _ h => h

/-- What a step that makes one tile must do: own the fresh blobs it reports, name an owned
slot, change no owned tile, and leave samples in its slot that satisfy `R`. -/
def TileStep (owners : Multiset (ℕ × ℕ)) (R : BlockSlotRef → List UInt32 → Prop)
    (x : PoolExec (BlockSlotRef × List BlockSlotRef)) : Prop :=
  ∀ p (keep : Multiset (ℕ × ℕ)), p.Owned (keep + owners) →
    wp x (fun r p' => p'.Owned (slotsOf r.2 + (keep + owners)) ∧
        r.1.slot ∈ slotsOf r.2 + owners ∧ p.AgreesOn p' (keep + owners) ∧
        R r.1 (p'.data r.1.slot))
      (fun _ _ => False) poolFault p

/-- The same of a step that reads owned tiles, which are as in an earlier pool. -/
def TileStepFrom (p₀ : BigBlockPool) (owners : Multiset (ℕ × ℕ))
    (R : BlockSlotRef → List UInt32 → Prop)
    (x : PoolExec (BlockSlotRef × List BlockSlotRef)) : Prop :=
  ∀ p (keep : Multiset (ℕ × ℕ)), p.Owned (keep + owners) → p₀.AgreesOn p owners →
    wp x (fun r p' => p'.Owned (slotsOf r.2 + (keep + owners)) ∧
        r.1.slot ∈ slotsOf r.2 + owners ∧ p.AgreesOn p' (keep + owners) ∧
        R r.1 (p'.data r.1.slot))
      (fun _ _ => False) poolFault p

/-- Steps of which each makes the tile at its place. -/
theorem mapTiles_specFrom {α : Type} {f : ℕ → α → PoolExec (BlockSlotRef × List BlockSlotRef)}
    {p₀ : BigBlockPool} {owners : Multiset (ℕ × ℕ)}
    {R : α × ℕ → BlockSlotRef → List UInt32 → Prop} (as : List α) (i : ℕ)
    (hf : ∀ a ∈ as.zipIdx i, TileStepFrom p₀ owners (R a) (f a.2 a.1)) (keep : Multiset (ℕ × ℕ))
    (h : p.Owned (keep + owners)) (hp₀ : p₀.AgreesOn p owners) :
    wp (mapTiles f i as) (fun r p' => p'.Owned (slotsOf r.2 + (keep + owners)) ∧
        slotsOf r.1 ⊆ slotsOf r.2 + owners ∧ p.AgreesOn p' (keep + owners) ∧
        List.Forall₂ (fun a ref => R a ref (p'.data ref.slot)) (as.zipIdx i) r.1)
      (fun _ _ => False) poolFault p := by
  induction as generalizing p i keep with
  | nil => exact ⟨by simpa using h, by simp, .refl, .nil⟩
  | cons a as ih =>
    rw [List.zipIdx_cons] at hf ⊢
    simp only [mapTiles, wp_bind]
    refine wp_imp (hf (a, i) List.mem_cons_self p keep h hp₀) (fun r p' hp' => ?_) fun _ _ h => h
    obtain ⟨ref, fresh⟩ := r
    obtain ⟨hown, href, hagree, hR⟩ := hp'
    simp only [← add_assoc (slotsOf fresh)] at hown
    have hp₀' : p₀.AgreesOn p' owners := hp₀.trans hagree fun s hs =>
      Multiset.mem_add.mpr (Or.inr hs)
    simp only
    refine wp_imp (ih (i + 1) (fun a ha => hf a (List.mem_cons_of_mem _ ha)) _ hown hp₀')
      (fun r' p'' hp'' => ?_) fun _ _ h => h
    obtain ⟨refs, freshes⟩ := r'
    obtain ⟨hown', hrefs, hagree', hRs⟩ := hp''
    refine ⟨?_, ?_, ?_, .cons ?_ hRs⟩
    · simpa [add_assoc, add_comm, add_left_comm] using hown'
    · intro s hs
      rw [slotsOf_cons, Multiset.mem_cons] at hs
      rw [slotsOf_append, Multiset.mem_add, Multiset.mem_add]
      rcases hs with rfl | hs
      · rcases Multiset.mem_add.mp href with h | h
        · exact Or.inl (Or.inl h)
        · exact Or.inr h
      · rcases Multiset.mem_add.mp (hrefs hs) with h | h
        · exact Or.inl (Or.inr h)
        · exact Or.inr h
    · refine hagree.trans hagree' fun s hs => ?_
      rw [add_assoc]
      exact Multiset.mem_add.mpr (Or.inr hs)
    · rw [hagree' _ (by
        rcases Multiset.mem_add.mp href with h | h
        · exact Multiset.mem_add.mpr (Or.inl (Multiset.mem_add.mpr (Or.inl h)))
        · exact Multiset.mem_add.mpr (Or.inr h))]
      exact hR

/-- Places do not matter to a relation that does not name them. -/
private theorem forall₂_of_zipIdx {α β : Type} {R : α → β → Prop} {as : List α} {bs : List β}
    {i : ℕ} (h : List.Forall₂ (fun a b => R a.1 b) (as.zipIdx i) bs) : List.Forall₂ R as bs := by
  induction as generalizing i bs with
  | nil =>
    cases h
    exact .nil
  | cons a as ih =>
    rw [List.zipIdx_cons] at h
    cases h with
    | cons hab hrest => exact .cons hab (ih hrest)

theorem mapTiles_spec {α : Type} {f : ℕ → α → PoolExec (BlockSlotRef × List BlockSlotRef)}
    {owners : Multiset (ℕ × ℕ)} {R : α → BlockSlotRef → List UInt32 → Prop} (as : List α) (i : ℕ)
    (hf : ∀ i, ∀ a ∈ as, TileStep owners (R a) (f i a)) (keep : Multiset (ℕ × ℕ))
    (h : p.Owned (keep + owners)) :
    wp (mapTiles f i as) (fun r p' => p'.Owned (slotsOf r.2 + (keep + owners)) ∧
        slotsOf r.1 ⊆ slotsOf r.2 + owners ∧ p.AgreesOn p' (keep + owners) ∧
        List.Forall₂ (fun a ref => R a ref (p'.data ref.slot)) as r.1)
      (fun _ _ => False) poolFault p := by
  have hsame : p.AgreesOn p owners := .refl
  refine wp_imp (mapTiles_specFrom (R := fun a => R a.1) as i (fun a ha => ?_) keep h hsame)
    (fun r p' hp' => ?_) fun _ _ h => h
  · exact fun q keep hq _ => hf a.2 a.1 (List.fst_mem_of_mem_zipIdx ha) q keep hq
  · exact ⟨hp'.1, hp'.2.1, hp'.2.2.1, forall₂_of_zipIdx hp'.2.2.2⟩

/-- What holds of the samples of a row of tiles holds while their slots keep them. -/
theorem forall₂_data_congr {α : Type} {R : α → BlockSlotRef → List UInt32 → Prop} {as : List α}
    {refs : List BlockSlotRef} (h : List.Forall₂ (fun a ref => R a ref (p.data ref.slot)) as refs)
    (hdata : ∀ ref ∈ refs, p'.data ref.slot = p.data ref.slot) :
    List.Forall₂ (fun a ref => R a ref (p'.data ref.slot)) as refs := by
  induction h with
  | nil => exact .nil
  | cons hab _ ih =>
    refine .cons ?_ (ih fun ref hr => hdata ref (List.mem_cons_of_mem _ hr))
    rw [hdata _ List.mem_cons_self]
    exact hab

theorem mapLevels_spec {α : Type} {f : ℕ → ℕ → α → PoolExec (BlockSlotRef × List BlockSlotRef)}
    {owners : Multiset (ℕ × ℕ)} {R : α → BlockSlotRef → List UInt32 → Prop}
    (ls : List (List α)) (l : ℕ)
    (hf : ∀ l i, ∀ a ∈ ls.flatten, TileStep owners (R a) (f l i a))
    (keep : Multiset (ℕ × ℕ)) (h : p.Owned (keep + owners)) :
    wp (mapLevels f l ls) (fun r p' => p'.Owned (slotsOf r.2 + (keep + owners)) ∧
        slotsOf r.1.flatten ⊆ slotsOf r.2 + owners ∧ p.AgreesOn p' (keep + owners) ∧
        List.Forall₂ (List.Forall₂ fun a ref => R a ref (p'.data ref.slot)) ls r.1)
      (fun _ _ => False) poolFault p := by
  induction ls generalizing p l keep with
  | nil => exact ⟨by simpa using h, by simp, .refl, .nil⟩
  | cons tiles ls ih =>
    simp only [mapLevels, wp_bind]
    refine wp_imp (mapTiles_spec tiles 0
      (fun i a ha => hf l i a (by simp [ha])) keep h) (fun r p' hp' => ?_) fun _ _ h => h
    obtain ⟨refs, fresh⟩ := r
    obtain ⟨hown, hrefs, hagree, hR⟩ := hp'
    simp only [← add_assoc (slotsOf fresh)] at hown
    simp only
    refine wp_imp (ih (l + 1) (fun l i a ha => hf l i a (by
        rw [List.flatten_cons]; exact List.mem_append_right _ ha)) _ hown)
      (fun r' p'' hp'' => ?_) fun _ _ h => h
    obtain ⟨levels, freshes⟩ := r'
    obtain ⟨hown', hlevels, hagree', hRs⟩ := hp''
    refine ⟨?_, ?_, ?_, .cons ?_ hRs⟩
    · simpa [add_assoc, add_comm, add_left_comm] using hown'
    · intro s hs
      rw [List.flatten_cons, slotsOf_append, Multiset.mem_add] at hs
      rw [slotsOf_append, Multiset.mem_add, Multiset.mem_add]
      rcases hs with hs | hs
      · rcases Multiset.mem_add.mp (hrefs hs) with h | h
        · exact Or.inl (Or.inl h)
        · exact Or.inr h
      · rcases Multiset.mem_add.mp (hlevels hs) with h | h
        · exact Or.inl (Or.inr h)
        · exact Or.inr h
    · refine hagree.trans hagree' fun s hs => ?_
      rw [add_assoc]
      exact Multiset.mem_add.mpr (Or.inr hs)
    · refine forall₂_data_congr hR fun ref href => hagree' _ ?_
      rcases Multiset.mem_add.mp (hrefs (Multiset.mem_coe.mpr (List.mem_map_of_mem href)))
        with h | h
      · exact Multiset.mem_add.mpr (Or.inl (Multiset.mem_add.mpr (Or.inl h)))
      · exact Multiset.mem_add.mpr (Or.inr h)

/-- A table over owned tiles takes its own counts, and the fresh blobs' counts go. -/
theorem adoptLevels_spec {levels : List (List BlockSlotRef)} {keep : List BlockSlotRef}
    (h : p.Owned (slotsOf keep + owners)) (hsub : slotsOf levels.flatten ⊆ slotsOf keep + owners) :
    wp (adoptLevels t levels keep)
      (fun _ p' => p'.Owned (slotsOf levels.flatten + owners) ∧ p'.data = p.data)
      (fun _ _ => False) poolFault p := by
  unfold adoptLevels
  simp only [wp_bind]
  refine wp_imp (retainBlobs_spec h hsub) (fun _ p' hp' => ?_) fun _ _ h => h
  have hown := hp'.1
  rw [← add_assoc, add_comm (slotsOf levels.flatten), add_assoc] at hown
  exact wp_imp (releaseBlobs_spec hown) (fun _ p'' hp'' => ⟨hp''.1, hp''.2.trans hp'.2⟩)
    fun _ _ h => h

/-- A fresh layer owns its tiles, which hold the given samples, and disturbs nobody else's. -/
theorem buildTable_spec {width height edge : ℕ} {tiles : List (List (List UInt32))}
    (h : p.Owned owners) :
    wp (buildTable t width height edge tiles)
      (fun table p' => p'.Owned (table.slots + owners) ∧ p.AgreesOn p' owners ∧
        List.Forall₂ (List.Forall₂ fun samples ref =>
          ref.size = blobBytes edge ∧ p'.data ref.slot = samples) tiles table.levels)
      (fun _ _ => False) poolFault p := by
  have hstep : ∀ samples, TileStep owners
      (fun ref data => ref.size = blobBytes edge ∧ data = samples) (do
        let ref ← newBlob t (blobBytes edge) samples
        pure (ref, [ref])) := by
    intro samples q keep hq
    simp only [wp_bind]
    refine wp_imp (newBlob_spec hq) (fun ref q' hq' => ?_) fun _ _ h => h
    exact ⟨by simpa using hq'.1, by simp, hq'.2.1, hq'.2.2.1⟩
  unfold buildTable
  simp only [wp_bind]
  refine wp_imp (mapLevels_spec
    (R := fun samples ref data => ref.size = blobBytes edge ∧ data = samples)
    tiles 0 (fun _ _ samples _ => hstep samples) 0
    (by simpa using h)) (fun r p' hp' => ?_) fun _ _ h => h
  obtain ⟨levels, keep⟩ := r
  obtain ⟨hown, hsub, hagree, hR⟩ := hp'
  rw [zero_add] at hown hagree
  simp only
  refine wp_imp (adoptLevels_spec hown hsub) (fun _ p'' hp'' => ?_) fun _ _ h => h
  refine ⟨hp''.1, hagree.trans (.of_data_eq hp''.2) (fun _ h => h), ?_⟩
  simp only [hp''.2]
  exact hR

/-- A paint over an owned table owns the successor's tiles and disturbs nobody else's. -/
theorem paintTable_spec {base : TileTable} {brush : Brush} (h : p.Owned owners)
    (hbase : base.slots ⊆ owners) :
    wp (paintTable t base brush)
      (fun table p' => p'.Owned (table.slots + owners) ∧ p.AgreesOn p' owners)
      (fun _ _ => False) poolFault p := by
  have hstep : ∀ l i, ∀ ref ∈ base.levels.flatten, TileStep owners (fun _ _ => True)
      (if brush.touches l i then do
        let old ← gets (BigBlockPool.peek · ref)
        let fresh ← newBlob t (blobBytes base.edge) (brush.repaint l i old)
        pure (fresh, [fresh])
      else
        pure (ref, [])) := by
    intro l i ref href q keep hq
    refine wp_ite (fun _ => ?_) fun _ => ?_
    · simp only [wp_bind, wp_gets]
      refine wp_imp (newBlob_spec hq) (fun fresh q' hq' => ?_) fun _ _ h => h
      exact ⟨by simpa using hq'.1, by simp, hq'.2.1, trivial⟩
    · refine ⟨by simpa using hq, ?_, .refl, trivial⟩
      rw [slotsOf_nil, zero_add]
      exact hbase (Multiset.mem_coe.mpr (List.mem_map_of_mem href))
  unfold paintTable
  simp only [wp_bind]
  refine wp_imp (mapLevels_spec (R := fun _ _ _ => True) base.levels 0 hstep 0
    (by simpa using h)) (fun r p' hp' => ?_) fun _ _ h => h
  obtain ⟨levels, keep⟩ := r
  obtain ⟨hown, hsub, hagree, -⟩ := hp'
  rw [zero_add] at hown hagree
  simp only
  refine wp_imp (adoptLevels_spec hown hsub) (fun _ p'' hp'' => ?_) fun _ _ h => h
  exact ⟨hp''.1, hagree.trans (.of_data_eq hp''.2) (fun _ h => h)⟩

/-- Destroying a table gives its counts back. -/
theorem dropTable_spec {table : TileTable} (h : p.Owned (table.slots + owners)) :
    wp (dropTable t table) (fun _ p' => p'.Owned owners ∧ p'.data = p.data)
      (fun _ _ => False) poolFault p :=
  releaseBlobs_spec h

end ArbitraryComposer
