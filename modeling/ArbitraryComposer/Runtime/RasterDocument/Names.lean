import ArbitraryComposer.Runtime.RasterDocument

/-!
# The Blob Names of Saved Texts

What a saved text promises: each tile is listed under the hash of its own bytes, and every
listed blob is in the sink of the save. Both depend on what the shared memo answers, since an
entry is found by slot index and size alone, in whichever pool and for whichever sink it was
made.

## Main definitions

- `RasterSession.HitsSameBytes`: the entries a save hits were taken from the bytes it saves.
- `PassNamesStored`: the blobs a save hits are in its sink, or it stores them itself.

## Main results

- `serializeRaster_names_iff`: when a save lists the names of its tiles.
- `texts_held`: when every pass meets `PassNamesStored`, every text names blobs its sink holds.
-/

namespace ArbitraryComposer

open Exec

variable {prims : BlobPrimitives} {resolveUri : String → String → String} {R : Prop}
  {d d' : RasterDocument} {s s' : RasterSession} {c : ℕ}

/-! ## Sample documents -/

/-- The character of a hexadecimal digit. -/
def hexDigit (n : ℕ) : Char := Char.ofNat (if n < 10 then 48 + n else 87 + n)

/-- Names that print their bytes in hexadecimal, and uncompressed frames. -/
def plainPrimitives : BlobPrimitives where
  hashTile bytes :=
    .ofList (bytes.flatMap fun b => [hexDigit (b.toNat / 16), hexDigit (b.toNat % 16)])
  compress := some
  decompress frame size := if frame.length = size then some frame else none

/-- Resolution by concatenation. -/
def joinUri (base uri : String) : String := base ++ uri

private theorem hexDigit_inj : ∀ m < 16, ∀ n < 16, hexDigit m = hexDigit n → m = n := by
  decide

theorem plainPrimitives_hashTile_injective : Function.Injective plainPrimitives.hashTile := by
  intro bytes bytes' h
  replace h := String.ofList_injective h
  induction bytes generalizing bytes' with
  | nil => cases bytes' <;> simp_all
  | cons b bytes ih =>
    cases bytes' with
    | nil => simp at h
    | cons b' bytes' =>
      simp only [List.flatMap_cons, List.cons_append, List.nil_append, List.cons.injEq] at h
      obtain ⟨hhi, hlo, hrest⟩ := h
      have hb := b.toNat_lt
      have hb' := b'.toNat_lt
      have hi := hexDigit_inj _ (by omega) _ (by omega) hhi
      have lo := hexDigit_inj _ (by omega) _ (by omega) hlo
      rw [UInt8.toNat_inj.mp (by omega : b.toNat = b'.toNat), ih hrest]

/-- A document without contents, over sources that never refuse and empty sinks. -/
def emptyDocument : RasterDocument where
  session :=
    { world := ⟨fun _ => BigBlockPool.init ⟨fun _ => none, 0⟩, RasterTileStore.init⟩
      contents := fun _ => ⟨[], 0⟩
      sinks := fun _ => ⟨[], 0, fun _ => false⟩
      schedule := []
      pinned := none }
  saving := none
  texts := []

theorem emptyDocument_isStart : emptyDocument.IsStart :=
  ⟨fun _ => ⟨_, rfl⟩, rfl, fun _ => rfl, rfl, rfl⟩

/-- The context of a save to the sink `k`. -/
def plainSave (k : ℕ) : SaveContext := ⟨"", some k, .rgba32fLinearPremul, false⟩

/-! ## Names -/

/-- The level-0 grid of the base version, which a save of `c` walks. -/
def RasterSession.level0 (s : RasterSession) (c : ℕ) : List BlockSlotRef :=
  match (s.contents c).baseTable with
  | none => []
  | some table => table.levels.headD []

/-- The names of the tiles a save of `c` snapshots. -/
def RasterSession.tileNames (prims : BlobPrimitives) (s : RasterSession) (c : ℕ)
    (storage : PixelFormat) : List String :=
  (s.level0 c).map fun ref => tileName prims (s.world.pool c) ref storage

/-- A memo entry filed under the key of a tile of `c` was taken from a tile, of whichever
content, that encodes to the same bytes. -/
def RasterSession.HitsSameBytes (s : RasterSession) (c : ℕ) (storage : PixelFormat) : Prop :=
  ∀ ref ∈ s.level0 c, ∀ entry ∈ s.world.tiles.live.lookup (ref.memoKey storage),
    toStorageBytes ((s.world.pool entry.content).peek entry.ref) storage =
      toStorageBytes ((s.world.pool c).peek ref) storage

instance (s : RasterSession) (c : ℕ) (storage : PixelFormat) :
    Decidable (s.HitsSameBytes c storage) :=
  inferInstanceAs (Decidable (∀ ref ∈ s.level0 c, ∀ entry ∈ _, _ = _))

theorem RasterSession.level0_eq {table : TileTable} {grid : List BlockSlotRef}
    {rest : List (List BlockSlotRef)} (hbase : (s.contents c).baseTable = some table)
    (hlevels : table.levels = grid :: rest) : s.level0 c = grid := by
  rw [level0, hbase]
  simp only [hlevels, List.headD_cons]

/-- A save lists a tile under its own name if and only if the entry it hits, if any, was taken
from the same bytes. -/
theorem RasterSession.nameOf_eq_iff (hinj : Function.Injective prims.hashTile)
    (h : s.world.Honest prims) {storage : PixelFormat} {ref : BlockSlotRef} :
    s.nameOf prims c storage ref = tileName prims (s.world.pool c) ref storage ↔
      ∀ entry ∈ s.world.tiles.live.lookup (ref.memoKey storage),
        toStorageBytes ((s.world.pool entry.content).peek entry.ref) storage =
          toStorageBytes ((s.world.pool c).peek ref) storage := by
  unfold nameOf
  cases hl : s.world.tiles.live.lookup (ref.memoKey storage) with
  | none => simp
  | some entry =>
    obtain ⟨l₁, l₂, heq, -⟩ := List.lookup_eq_some_iff.mp hl
    have hhash : entry.hash = tileName prims (s.world.pool entry.content) entry.ref storage :=
      (h (ref.memoKey storage, entry) (by simp [heq])).hash_eq
    simp only [Option.mem_def, Option.some.injEq, forall_eq', hhash]
    exact hinj.eq_iff

/-- A save of `c` in a session whose loads read back lists the names of its tiles if and only
if every memo entry it hits was taken from the bytes of the tile it answers for. -/
theorem serializeRaster_names_iff (hinj : Function.Injective prims.hashTile)
    (hd : (rasterDocument prims resolveUri).Reachable (fun e _ => e.LoadReadsBack prims) d)
    {ctx : SaveContext} {schedule : List (List WriterEdit)} {params : RasterParams}
    (hrun : (serializeRaster prims resolveUri c ctx).run { d.session with schedule } =
      .ok params s') :
    params.blobs = d.session.tileNames prims c ctx.storageFormat ↔
      d.session.HitsSameBytes c ctx.storageFormat := by
  have hinv : d.session.Inv prims True := RasterDocument.reachable_inv hd fun _ _ _ h => h
  obtain ⟨-, -, table, grid, rest, hbase, hlevels, hblobs, -⟩ :=
    of_wp_ok (serializeRaster_spec (hinv.withSchedule schedule)) hrun
  have hgrid : d.session.level0 c = grid := RasterSession.level0_eq hbase hlevels
  rw [hblobs, RasterSession.tileNames, RasterSession.HitsSameBytes, hgrid, List.map_inj_left]
  exact forall₂_congr fun ref _ => RasterSession.nameOf_eq_iff hinj (hinv.honest trivial)

/-- The names a save of `c` lists and those of its tiles, if the save succeeds. -/
def listedNames (c : ℕ) (d : RasterDocument) : Option (List String × List String) :=
  match (serializeRaster plainPrimitives joinUri c (plainSave 0)).run
      { d.session with schedule := [] } with
  | .ok params _ => some (params.blobs, d.session.tileNames plainPrimitives c .rgba32fLinearPremul)
  | .error _ _ => none
  | .fault _ => none

private theorem listedNames_eq_some {names : List String × List String}
    (h : listedNames c d = some names) :
    ∃ params s', (serializeRaster plainPrimitives joinUri c (plainSave 0)).run
        { d.session with schedule := [] } = .ok params s' ∧ params.blobs = names.1 ∧
      d.session.tileNames plainPrimitives c .rgba32fLinearPremul = names.2 := by
  unfold listedNames at h
  split at h
  · rename_i params s' hrun
    cases h
    exact ⟨params, s', hrun, rfl, rfl⟩
  · cases h
  · cases h

/-- A layer of one tile read from a document. -/
def loadedLayer : List RasterEvent :=
  [.load 0 "" .rgba32fLinearPremul
    ⟨1, 1, 1, [("00000000000000000000000000000000", List.replicate 16 0)], []⟩]

/-- The first save after a load answers for the tile from the seeded memo, rightly. -/
theorem serializeRaster_names_loaded : ∃ (d : RasterDocument) (params : RasterParams)
    (s' : RasterSession), (serializeRaster plainPrimitives joinUri 0 (plainSave 0)).run
      { d.session with schedule := [] } = .ok params s' ∧
    params.blobs = d.session.tileNames plainPrimitives 0 .rgba32fLinearPremul := by
  obtain ⟨d, hd, hp⟩ := Machine.exists_reachable (M := rasterDocument plainPrimitives joinUri)
    (fun e _ => e.LoadReadsBack plainPrimitives) loadedLayer
    (fun d => (listedNames 0 d).isSome && decide (d.session.HitsSameBytes 0 .rgba32fLinearPremul))
    emptyDocument_isStart (by decide +kernel) (by decide +kernel)
  simp only [Bool.and_eq_true, decide_eq_true_eq] at hp
  obtain ⟨names, hnames⟩ := Option.isSome_iff_exists.mp hp.1
  obtain ⟨params, s', hrun, -, -⟩ := listedNames_eq_some hnames
  exact ⟨d, params, s', hrun,
    (serializeRaster_names_iff plainPrimitives_hashTile_injective hd hrun).mpr hp.2⟩

/-- Two layers of one tile each, of different pixels; a save has come past the first. -/
def twoLayers : List RasterEvent :=
  [.create 0 1 1 1 [[[0, 0, 0, 0]]], .create 1 1 1 1 [[[1, 1, 1, 1]]],
    .beginSave "" (some 0) .rgba32fLinearPremul, .savePass 0 []]

/-- The second layer of a document is saved under the name of the first layer's tile. -/
theorem serializeRaster_names_foreign : Function.Injective plainPrimitives.hashTile ∧
    ∃ d, (rasterDocument plainPrimitives joinUri).Reachable
        (fun e _ => e.LoadReadsBack plainPrimitives) d ∧
      ∃ params s', (serializeRaster plainPrimitives joinUri 1 (plainSave 0)).run
          { d.session with schedule := [] } = .ok params s' ∧
        params.blobs ≠ d.session.tileNames plainPrimitives 1 .rgba32fLinearPremul := by
  refine ⟨plainPrimitives_hashTile_injective, ?_⟩
  obtain ⟨d, hd, hp⟩ := Machine.exists_reachable (M := rasterDocument plainPrimitives joinUri)
    (fun e _ => e.LoadReadsBack plainPrimitives) twoLayers
    (fun d => (listedNames 1 d).any fun names => names.1 ≠ names.2)
    emptyDocument_isStart (by decide +kernel) (by decide +kernel)
  obtain ⟨names, hnames, hne⟩ := (Option.any_eq_true _ _).mp hp
  obtain ⟨params, s', hrun, hblobs, htiles⟩ := listedNames_eq_some hnames
  exact ⟨d, hd, params, s', hrun, by rw [hblobs, htiles]; exact of_decide_eq_true hne⟩

/-! ## Stored blobs -/

/-- The blobs a text names are in the sink of its save. -/
def SavedText.Held (resolveUri : String → String → String) (sinks : ℕ → AssetSink)
    (text : SavedText) : Prop :=
  ∀ hash ∈ text.blobs, text.ctx.Holds resolveUri sinks (tileBlobUri defaultTilesBase hash)

instance (sinks : ℕ → AssetSink) (text : SavedText) : Decidable (text.Held resolveUri sinks) :=
  inferInstanceAs (Decidable (∀ hash ∈ text.blobs, _))

theorem SavedText.Held.mono {sinks sinks' : ℕ → AssetSink} {text : SavedText}
    (h : text.Held resolveUri sinks) (hg : SinksGrow sinks sinks') :
    text.Held resolveUri sinks' :=
  fun hash hh => (h hash hh).mono hg

/-- Every text saved so far names blobs its sink holds. -/
def RasterDocument.TextsHeld (resolveUri : String → String → String) (d : RasterDocument) : Prop :=
  ∀ text ∈ d.texts, text.Held resolveUri d.session.sinks

instance (d : RasterDocument) : Decidable (d.TextsHeld resolveUri) :=
  inferInstanceAs (Decidable (∀ text ∈ d.texts, text.Held resolveUri d.session.sinks))

/-- A pass of a save comes to a content none of whose tiles hits a memo entry, unless the
entry's blob is already in the sink of the save or is that of a tile the pass encodes. -/
def PassNamesStored (prims : BlobPrimitives) (resolveUri : String → String → String) :
    RasterEvent → RasterDocument → Prop
  | .savePass c _, d =>
    ∀ text ∈ d.saving, ∀ ref ∈ d.session.level0 c,
      ∀ entry ∈ d.session.world.tiles.live.lookup (ref.memoKey text.ctx.storageFormat),
        text.ctx.Holds resolveUri d.session.sinks (tileBlobUri defaultTilesBase entry.hash) ∨
          ∃ ref' ∈ d.session.level0 c, d.session.Misses text.ctx.storageFormat ref' ∧
            tileName prims (d.session.world.pool c) ref' text.ctx.storageFormat = entry.hash
  | _, _ => True

instance (storage : PixelFormat) (ref : BlockSlotRef) : Decidable (s.Misses storage ref) :=
  inferInstanceAs (Decidable (_ = none))

instance : ∀ (e : RasterEvent) (d : RasterDocument),
    Decidable (PassNamesStored prims resolveUri e d)
  | .savePass _ _, _ => inferInstanceAs (Decidable (∀ text ∈ _, ∀ ref ∈ _, ∀ entry ∈ _, _ ∨ _))
  | .create .., _ | .load .., _ | .edit _, _ | .beginSave .., _ | .finishSave, _ => .isTrue trivial

/-- What every session state satisfies when each pass meets `PassNamesStored`. -/
structure RasterDocument.Stored (prims : BlobPrimitives)
    (resolveUri : String → String → String) (d : RasterDocument) : Prop where
  /-- The pool counts are exact. -/
  inv : d.session.Inv prims False
  /-- The texts name stored blobs. -/
  texts : d.TextsHeld resolveUri
  /-- So does the save under way, which is not for parameters only. -/
  saving : ∀ text ∈ d.saving, text.ctx.paramsOnly = false ∧ text.Held resolveUri d.session.sinks

/-- A pass that meets the condition lists blobs its sink holds. -/
theorem RasterDocument.Stored.savePass {text : SavedText} {schedule : List (List WriterEdit)}
    {params : RasterParams} (h : d.Stored prims resolveUri) (hsaving : d.saving = some text)
    (hpass : PassNamesStored prims resolveUri (.savePass c schedule) d)
    (hrun : (serializeRaster prims resolveUri c text.ctx).run { d.session with schedule } =
      .ok params s') :
    SavedText.Held resolveUri s'.sinks ⟨text.ctx, params.blobs⟩ := by
  obtain ⟨-, hgrow, table, grid, rest, hbase, hlevels, hblobs, hmissed⟩ :=
    of_wp_ok (serializeRaster_spec (h.inv.withSchedule schedule)) hrun
  have hgrid : d.session.level0 c = grid := RasterSession.level0_eq hbase hlevels
  have hreal := (h.saving text hsaving).1
  intro hash hh
  simp only [hblobs, List.mem_map] at hh
  obtain ⟨ref, href, rfl⟩ := hh
  -- a missed tile is stored by the pass itself
  by_cases hmiss : d.session.Misses text.ctx.storageFormat ref
  · exact hmissed ref href hmiss hreal
  · obtain ⟨entry, hentry⟩ := Option.ne_none_iff_exists'.mp hmiss
    change text.ctx.Holds resolveUri s'.sinks (tileBlobUri defaultTilesBase
      (d.session.nameOf prims c text.ctx.storageFormat ref))
    rw [RasterSession.nameOf, hentry]
    rcases hpass text hsaving ref (hgrid ▸ href) entry hentry with hheld | ⟨ref', href', hmiss', hn⟩
    · exact hheld.mono hgrow
    · change text.ctx.Holds resolveUri s'.sinks (tileBlobUri defaultTilesBase entry.hash)
      rw [← hn, ← hmiss'.nameOf_eq]
      exact hmissed ref' (hgrid ▸ href') hmiss' hreal

/-- A step under the condition keeps every listed blob stored. -/
theorem RasterDocument.Stored.step {e : RasterEvent} (h : d.Stored prims resolveUri)
    (hpass : PassNamesStored prims resolveUri e d)
    (hs : d.step prims resolveUri e = some d') : d'.Stored prims resolveUri := by
  obtain ⟨hinv, hgrow⟩ := RasterDocument.step_inv h.inv False.elim hs
  -- what was listed before the step is still stored after it
  have hkeep (text : SavedText) (hh : text.Held resolveUri d.session.sinks) :
      text.Held resolveUri d'.session.sinks := hh.mono hgrow
  cases e with
  | create c width height edge tiles =>
    simp only [RasterDocument.step] at hs
    split at hs
    · obtain ⟨s', -, rfl⟩ := Option.map_eq_some_iff.mp hs
      exact ⟨hinv, fun text ht => hkeep text (h.texts text ht),
        fun text ht => ⟨(h.saving text ht).1, hkeep text (h.saving text ht).2⟩⟩
    · cases hs
  | load c baseUri storage input =>
    simp only [RasterDocument.step] at hs
    split at hs
    · obtain ⟨s', -, rfl⟩ := Option.map_eq_some_iff.mp hs
      exact ⟨hinv, fun text ht => hkeep text (h.texts text ht),
        fun text ht => ⟨(h.saving text ht).1, hkeep text (h.saving text ht).2⟩⟩
    · cases hs
  | edit e =>
    obtain ⟨s', -, rfl⟩ := Option.map_eq_some_iff.mp hs
    exact ⟨hinv, fun text ht => hkeep text (h.texts text ht),
      fun text ht => ⟨(h.saving text ht).1, hkeep text (h.saving text ht).2⟩⟩
  | beginSave baseUri sink storage =>
    simp only [RasterDocument.step] at hs
    split at hs
    · cases hs
      refine ⟨hinv, h.texts, fun text ht => ?_⟩
      cases ht
      exact ⟨rfl, fun hash hh => by cases hh⟩
    · cases hs
  | savePass c schedule =>
    simp only [RasterDocument.step] at hs
    split at hs
    · cases hs
    · rename_i text hsaving
      split at hs
      · rename_i params s' hrun
        cases hs
        refine ⟨hinv, fun text ht => hkeep text (h.texts text ht), fun text' ht => ?_⟩
        cases ht
        refine ⟨(h.saving text hsaving).1, fun hash hh => ?_⟩
        rcases List.mem_append.mp hh with hh | hh
        · exact hkeep text (h.saving text hsaving).2 hash hh
        · exact h.savePass hsaving hpass hrun hash hh
      · cases hs
        exact ⟨hinv, fun text ht => hkeep text (h.texts text ht), fun text ht => by cases ht⟩
      · cases hs
  | finishSave =>
    obtain ⟨text, hsaving, rfl⟩ := Option.map_eq_some_iff.mp hs
    refine ⟨hinv, fun text' ht => ?_, fun text' ht => by cases ht⟩
    rcases List.mem_cons.mp ht with rfl | ht
    · exact (h.saving _ hsaving).2
    · exact h.texts text' ht

/-- In a session whose passes all meet `PassNamesStored`, every text names blobs that are in
the sink of its save. -/
theorem texts_held (hd : (rasterDocument prims resolveUri).Reachable
    (PassNamesStored prims resolveUri) d) : d.TextsHeld resolveUri := by
  have hstart (d : RasterDocument) (hd : d.IsStart) : d.Stored prims resolveUri := by
    obtain ⟨-, -, -, hsaving, htexts⟩ := id hd
    refine ⟨hd.inv, fun text ht => ?_, fun text ht => ?_⟩
    · rw [htexts] at ht
      cases ht
    · rw [hsaving] at ht
      cases ht
  have hstored : d.Stored prims resolveUri :=
    hd.invariant hstart fun _ _ _ hi ha hs => hi.step ha hs
  exact hstored.texts

/-- One layer saved to the sinks of a list, one save after the other. -/
def savedTo (sinks : List ℕ) : List RasterEvent :=
  .create 0 1 1 1 [[[0, 0, 0, 0]]] :: sinks.flatMap fun k =>
    [.beginSave "" (some k) .rgba32fLinearPremul, .savePass 0 [], .finishSave]

/-- Saving twice to one sink: the second text names the blob the first save stored. -/
theorem texts_held_sameSink : ∃ d : RasterDocument, d.texts.length = 2 ∧ d.TextsHeld joinUri := by
  obtain ⟨d, hd, hp⟩ := Machine.exists_reachable (M := rasterDocument plainPrimitives joinUri)
    (PassNamesStored plainPrimitives joinUri) (savedTo [0, 0])
    (fun d => d.texts.length = 2) emptyDocument_isStart (by decide +kernel) (by decide +kernel)
  exact ⟨d, of_decide_eq_true hp, texts_held hd⟩

/-- Saving to a fresh sink after a first save: the second text names a blob that was stored in
the first sink only. -/
theorem texts_held_freshSink : ∃ d : RasterDocument,
    (rasterDocument plainPrimitives joinUri).Reachable Machine.anyEvent d ∧
      ¬ d.TextsHeld joinUri := by
  obtain ⟨d, hd, hp⟩ := Machine.exists_reachable (M := rasterDocument plainPrimitives joinUri)
    Machine.anyEvent (savedTo [0, 1])
    (fun d => ¬ d.TextsHeld joinUri) emptyDocument_isStart (by decide +kernel) (by decide +kernel)
  exact ⟨d, hd, of_decide_eq_true hp⟩

end ArbitraryComposer
