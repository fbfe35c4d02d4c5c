import ArbitraryComposer.Runtime.Interactive

/-!
# Stale Tiles

A frame that draws drops every tile its damage touches before it probes the cache, and what was
dropped is never found again. A frame that leaves early keeps its damage to itself: the tiles it
makes out of date stay in the cache, and a later frame that brings them into view draws them as
fresh.

## Main definitions

- `LoopEvent.Careful`: no frame that leaves early is handed damage to a cached tile.

## Main results

- `staleDrawn_eq_nil`: in runs of careful frames no tile is drawn that is out of date.
- `staleDrawn_panRun`: a run with a frame that is not careful draws one.
-/

namespace ArbitraryComposer

open Double

/-! ## What removal takes from the map -/

namespace KeyedStore

variable {κ ν : Type} [DecidableEq κ] {s : KeyedStore κ ν} {holds : List ℕ}

theorem detach_sublist (s : KeyedStore κ ν) (key : κ) : (s.detach key).map.Sublist s.map := by
  unfold detach
  split
  · split <;> exact List.eraseP_sublist
  · exact List.Sublist.refl _

private theorem foldl_detach_sublist (keys : List κ) (s : KeyedStore κ ν) :
    (keys.foldl detach s).map.Sublist s.map := by
  induction keys generalizing s with
  | nil => exact List.Sublist.refl _
  | cons key keys ih => exact (ih (s.detach key)).trans (s.detach_sublist key)

theorem removeIf_sublist (s : KeyedStore κ ν) (pred : κ → Bool) :
    (s.removeIf pred).map.Sublist s.map := foldl_detach_sublist _ s

private theorem not_mem_foldl_detach (h : s.Inv holds) {keys : List κ} {key : κ}
    (hkey : key ∈ keys) : key ∉ (keys.foldl detach s).map.map Prod.fst := by
  induction keys generalizing s with
  | nil => cases hkey
  | cons k keys ih =>
    rcases List.mem_cons.mp hkey with rfl | hkey
    · intro hm
      exact not_mem_detach h key (((foldl_detach_sublist keys (s.detach key)).map _).subset hm)
    · exact ih (h.detach k).1 hkey

/-- No key that satisfies the predicate is left. -/
theorem not_mem_removeIf (h : s.Inv holds) {pred : κ → Bool} {key : κ} (hp : pred key = true) :
    key ∉ (s.removeIf pred).map.map Prod.fst := by
  intro hm
  have hold := ((s.removeIf_sublist pred).map Prod.fst).subset hm
  exact not_mem_foldl_detach h (List.mem_filter.mpr ⟨hold, hp⟩) hm

/-- What is left of an entry is the entry, under its key. -/
theorem mem_removeIf_of_id (h : s.Inv holds) {pred : κ → Bool} {p : κ × CacheEntry ν}
    (hmem : p ∈ s.map) (hid : p.2.id ∈ (s.removeIf pred).ids) : p ∈ (s.removeIf pred).map := by
  obtain ⟨q, hq, hid⟩ := List.mem_map.mp hid
  have hqold := (s.removeIf_sublist pred).subset hq
  have hids : (s.map.map fun p => p.2.id).Nodup := by
    have hnodup := h.nodup_ids
    rw [entries, List.map_append, List.map_map] at hnodup
    exact (List.nodup_append.mp hnodup).1
  -- the identity tells the pair
  have hpq : q = p := List.inj_on_of_nodup_map hids hqold hmem hid
  rwa [hpq] at hq

/-- The entry of a key that satisfies the predicate is not in the map any more. -/
theorem id_not_mem_removeIf (h : s.Inv holds) {pred : κ → Bool} {p : κ × CacheEntry ν}
    (hmem : p ∈ s.map) (hp : pred p.1 = true) : p.2.id ∉ (s.removeIf pred).ids := fun hid =>
  not_mem_removeIf h hp (List.mem_map_of_mem (mem_removeIf_of_id h hmem hid))

end KeyedStore

/-! ## Damage that is gathered drops no less -/

/-- The damage touches no less: it is the same damage or it touches the whole object. -/
def Damage.Within (d d' : Damage Double) : Prop :=
  d'.object = d.object ∧ (d'.rect = d.rect ∨ DeviceRect.isFinite d'.rect = false)

theorem Damage.Within.drops {d d' : Damage Double} (h : d.Within d') {key : TileKey}
    (hkey : d.outdates key = true) : d'.drops key = true := by
  obtain ⟨hobject, hrect⟩ := h
  obtain ⟨hcontent, hmeet⟩ := Bool.and_eq_true_iff.mp hkey
  rw [Damage.drops, hobject, hcontent, Bool.true_and, Bool.or_eq_true_iff]
  rcases hrect with hrect | hrect
  · rw [hrect]
    exact .inr hmeet
  · rw [hrect]
    exact .inl rfl

/-- The least with the negative infinity is not finite. -/
private theorem isFinite_min_infinity {x : Double} (hx : x.isNaN = false) :
    (x.min (infinity true)).isFinite = false := by
  unfold Double.min
  split
  · decide
  · rename_i hlt
    have hkey : ¬ (infinity true).key < x.key := by
      intro hkey
      rw [lt, hx, decide_eq_true hkey] at hlt
      exact hlt (by decide)
    have hinf : (infinity true).key = -(infinityBits : ℤ) := by decide
    rw [hinf, key] at hkey
    apply decide_eq_false
    split at hkey <;> omega

/-- A union with the whole plane is not finite. -/
theorem isFinite_union_infinite (r : DeviceRect) :
    DeviceRect.isFinite (DeviceRect.union r DeviceRect.infinite) = false := by
  unfold DeviceRect.union
  split
  · decide
  · rename_i hr
    have hsides : r.x0.lt r.x1 && r.y0.lt r.y1 = true := by simpa [DeviceRect.empty] using hr
    have hx0 : r.x0.isNaN = false := by
      have hlt := (Bool.and_eq_true_iff.mp hsides).1
      simp only [lt, Bool.and_eq_true, Bool.not_eq_true'] at hlt
      exact hlt.1.1
    rw [if_neg (by decide)]
    change (isFinite (r.x0.min (infinity true)) && _ && _ && _) = false
    rw [isFinite_min_infinity hx0]
    rfl

/-- One more damage, to the whole object. -/
private theorem within_addDamage {set : List (Damage Double)} {d c : Damage Double}
    (hc : c.rect = DeviceRect.infinite) (hd : ∃ d' ∈ set, d.Within d') :
    ∃ d' ∈ addDamage set c, d.Within d' := by
  induction set with
  | nil =>
    obtain ⟨d', hmem, -⟩ := hd
    cases hmem
  | cons e set ih =>
    obtain ⟨d', hmem, hwithin⟩ := hd
    unfold addDamage
    split
    · rcases List.mem_cons.mp hmem with rfl | hmem
      · refine ⟨d'.merge c, List.mem_cons_self, hwithin.1, .inr ?_⟩
        rw [Damage.merge, hc]
        exact isFinite_union_infinite d'.rect
      · exact ⟨d', List.mem_cons_of_mem _ hmem, hwithin⟩
    · rcases List.mem_cons.mp hmem with rfl | hmem
      · exact ⟨d', List.mem_cons_self, hwithin⟩
      · obtain ⟨d'', hmem'', h''⟩ := ih ⟨d', hmem, hwithin⟩
        exact ⟨d'', List.mem_cons_of_mem _ hmem'', h''⟩

private theorem within_addAllDamage {set more : List (Damage Double)} {d : Damage Double}
    (hmore : ∀ c ∈ more, c.rect = DeviceRect.infinite) (hd : ∃ d' ∈ set, d.Within d') :
    ∃ d' ∈ addAllDamage set more, d.Within d' := by
  induction more generalizing set with
  | nil => exact hd
  | cons c more ih =>
    exact ih (fun c' hc' => hmore c' (List.mem_cons_of_mem _ hc'))
      (within_addDamage (hmore c List.mem_cons_self) hd)

/-! ## Work on the cache -/

namespace TileSession

variable {s s' : TileSession} {e : CacheEvent TileKey TileMeta}

/-- What holds of a cache and its record, from a point of the run on at which `gone` had left the
map. -/
structure Inv (gone : List ℕ) (s : TileSession) : Prop where
  /-- The books of the cache. -/
  books : s.cache.Inv s.ledger
  /-- What has left stays recorded. -/
  kept : gone ⊆ s.ledger.gone
  /-- It was not found again. -/
  unseen : ∀ id ∈ s.freshHits, id ∉ gone

/-- What is found is in the map. -/
theorem mem_ids_of_freshHit {id : ℕ} (h : id ∈ s.freshHit e) : id ∈ s.cache.store.ids := by
  cases e with
  | lookup key =>
    cases hfind : s.cache.store.find? key with
    | none =>
      rw [freshHit, hfind] at h
      cases h
    | some p =>
      rw [freshHit, hfind] at h
      have hid := List.mem_singleton.mp (List.mem_ite_nil_right.mp h).2
      rw [hid]
      exact List.mem_map_of_mem (KeyedStore.find?_eq_some hfind).1
  | _ => cases h

theorem Inv.step {gone : List ℕ} (h : s.Inv gone) (hs : s.step e = some s') : s'.Inv gone := by
  obtain ⟨cache, hcache, rfl⟩ := Option.map_eq_some_iff.mp hs
  refine ⟨h.books.step hcache, fun id hid => List.mem_append_right _ (h.kept hid), ?_⟩
  intro id hid hgone
  rcases List.mem_append.mp hid with hid | hid
  · exact (h.books.gone id (h.kept hgone)).1 (mem_ids_of_freshHit hid)
  · exact h.unseen id hid hgone

theorem Inv.runAll {gone : List ℕ} {es : List (CacheEvent TileKey TileMeta)} (h : s.Inv gone)
    (hs : s.runAll es = some s') : s'.Inv gone := by
  induction es generalizing s with
  | nil =>
    cases hs
    exact h
  | cons e es ih =>
    obtain ⟨t, ht, hs⟩ := Option.bind_eq_some_iff.mp hs
    exact ih (h.step ht) hs

theorem Inv.refl (h : s.cache.Inv s.ledger) (hfresh : s.freshHits = []) :
    s.Inv s.ledger.gone :=
  ⟨h, List.Subset.refl _, fun id hid => by
    rw [hfresh] at hid
    cases hid⟩

/-- The first damage is invalidated, then the others. -/
theorem runAll_invalidate_cons {d : Damage Double} {damage : List (Damage Double)} :
    s.runAll (invalidateDamage (d :: damage)) =
      (s.step (.removeIf d.drops)).bind (·.runAll (invalidateDamage damage)) := rfl

/-- Invalidation finds nothing fresh. -/
theorem freshHits_invalidate {damage : List (Damage Double)}
    (hs : s.runAll (invalidateDamage damage) = some s') : s'.freshHits = s.freshHits := by
  induction damage generalizing s with
  | nil =>
    cases hs
    rfl
  | cons d damage ih =>
    rw [runAll_invalidate_cons] at hs
    obtain ⟨t, ht, hs⟩ := Option.bind_eq_some_iff.mp hs
    obtain ⟨cache, -, rfl⟩ := Option.map_eq_some_iff.mp ht
    exact (ih hs).trans rfl

/-- Invalidation takes every tile out of the map that one of the damages touches. -/
theorem mem_gone_invalidate {damage : List (Damage Double)} (h : s.cache.Inv s.ledger)
    (hfresh : s.freshHits = []) {p : TileKey × CacheEntry TileMeta}
    (hp : p ∈ s.cache.store.map) (hd : ∃ d ∈ damage, d.drops p.1 = true)
    (hs : s.runAll (invalidateDamage damage) = some s') : p.2.id ∈ s'.ledger.gone := by
  induction damage generalizing s with
  | nil =>
    obtain ⟨d, hmem, -⟩ := hd
    cases hmem
  | cons d damage ih =>
    rw [runAll_invalidate_cons] at hs
    obtain ⟨t, ht, hs⟩ := Option.bind_eq_some_iff.mp hs
    have hinv := (Inv.refl h hfresh).step ht
    obtain ⟨cache, hcache, rfl⟩ := Option.map_eq_some_iff.mp ht
    cases hcache
    by_cases hid : p.2.id ∈ (s.cache.store.removeIf d.drops).ids
    · -- the entry is still there, so another damage touches it
      obtain ⟨d', hmem, hdrops⟩ := hd
      rcases List.mem_cons.mp hmem with rfl | hmem
      · exact absurd hid (KeyedStore.id_not_mem_removeIf h.books hp hdrops)
      · exact ih hinv.books hfresh (KeyedStore.mem_removeIf_of_id h.books hp hid)
          ⟨d', hmem, hdrops⟩ hs
    · refine ((Inv.refl hinv.books hfresh).runAll hs).kept (List.mem_append_left _ ?_)
      exact List.mem_filter.mpr ⟨List.mem_map_of_mem hp, decide_eq_true hid⟩

end TileSession

/-! ## Runs of frames -/

/-- A frame that leaves early is handed no damage that makes a cached tile out of date. -/
def LoopEvent.Careful {κ : Type} : LoopEvent κ → FrameLoop κ → Prop
  | .frame F _, L =>
    (L.renderer.dirtyRects F).any (L.renderer.takesEarlyOut F) = true → L.newlyOutdated F = []
  | .cache _, _ => True

instance LoopEvent.decidableCareful {κ : Type} :
    (e : LoopEvent κ) → (L : FrameLoop κ) → Decidable (e.Careful L)
  | .frame F _, L =>
    inferInstanceAs (Decidable ((L.renderer.dirtyRects F).any (L.renderer.takesEarlyOut F) = true →
      L.newlyOutdated F = []))
  | .cache _, _ => .isTrue trivial

namespace FrameLoop

variable {κ : Type} {L L' : FrameLoop κ}

/-- What holds of a frame loop. -/
structure Inv (L : FrameLoop κ) : Prop where
  /-- The books of the cache. -/
  books : L.tiles.cache.Inv L.tiles.ledger
  /-- What damage made out of date has left the cache. -/
  dropped : L.outdated ⊆ L.tiles.ledger.gone
  /-- Nothing was drawn that was out of date. -/
  sound : L.staleDrawn = []

/-- Damage of the model is in what a frame invalidates. -/
theorem within_contentDamage {F : Frame κ} {damage : List (Damage Double)}
    (h : L.renderer.contentDamage F = some damage) {d : Damage Double}
    (hd : d ∈ L.renderer.routeModelDamage F) : ∃ d' ∈ damage, d.Within d' := by
  obtain ⟨clock, hclock, rfl⟩ := Option.map_eq_some_iff.mp h
  exact within_addAllDamage (fun c hc => (forall_clockAdvanceDamage hclock c hc).1)
    ⟨d, hd, rfl, .inl rfl⟩

/-- A frame that draws has dropped what its damage makes out of date before it probes. -/
theorem outdated_dropped (h : L.Inv) {F : Frame κ} {damage : List (Damage Double)}
    {tiles : TileSession} (hdamage : L.renderer.contentDamage F = some damage)
    (hs : L.tiles.newFrame.runAll (invalidateDamage damage) = some tiles) :
    L.newlyOutdated F ++ L.outdated ⊆ tiles.ledger.gone := by
  have hinv : L.tiles.newFrame.Inv L.tiles.ledger.gone :=
    .refl (s := L.tiles.newFrame) h.books rfl
  intro id hid
  rcases List.mem_append.mp hid with hid | hid
  · obtain ⟨p, hp, rfl⟩ := List.mem_map.mp hid
    obtain ⟨hp, hany⟩ := List.mem_filter.mp hp
    obtain ⟨d, hd, hout⟩ := List.any_eq_true.mp hany
    obtain ⟨d', hd', hwithin⟩ := within_contentDamage hdamage hd
    exact TileSession.mem_gone_invalidate (s := L.tiles.newFrame) h.books rfl hp ⟨d', hd', hwithin.drops hout⟩ hs
  · exact (hinv.runAll hs).kept (h.dropped hid)

theorem Inv.renderFrame (h : L.Inv) {F : Frame κ} {work : FrameWork}
    (hcareful : (LoopEvent.frame F work).Careful L) (hs : L.renderFrame F work = some L') :
    L'.Inv := by
  obtain ⟨dirty, hdirty, hs⟩ := Option.bind_eq_some_iff.mp hs
  obtain ⟨damage, hdamage, hs⟩ := Option.bind_eq_some_iff.mp hs
  dsimp only at hs
  by_cases hearly : L.renderer.takesEarlyOut F dirty = true
  · rw [if_pos hearly] at hs
    cases hs
    have hnone : L.newlyOutdated F = [] := by
      apply hcareful
      rw [hdirty]
      exact hearly
    refine ⟨h.books, ?_, h.sound⟩
    change L.newlyOutdated F ++ L.outdated ⊆ _
    rw [hnone]
    exact h.dropped
  · rw [if_neg hearly] at hs
    obtain ⟨keys, -, hs⟩ := Option.bind_eq_some_iff.mp hs
    obtain ⟨invalidated, hinvalidated, hs⟩ := Option.bind_eq_some_iff.mp hs
    obtain ⟨tiles, htiles, hs⟩ := Option.bind_eq_some_iff.mp hs
    cases hs
    have hgone := outdated_dropped h hdamage hinvalidated
    have hbooks : invalidated.cache.Inv invalidated.ledger :=
      ((TileSession.Inv.refl (s := L.tiles.newFrame) h.books rfl).runAll hinvalidated).books
    have hrest := (TileSession.Inv.refl hbooks
      (TileSession.freshHits_invalidate hinvalidated)).runAll htiles
    refine ⟨hrest.books, fun id hid => hrest.kept (hgone hid), ?_⟩
    change tiles.freshHits.filter _ ++ L.staleDrawn = []
    rw [h.sound, List.append_nil, List.filter_eq_nil_iff]
    intro id hid hmem
    exact hrest.unseen id hid (hgone (of_decide_eq_true hmem))

theorem Inv.step (h : L.Inv) {e : LoopEvent κ} (hcareful : e.Careful L)
    (hs : FrameLoop.step e L = some L') : L'.Inv := by
  cases e with
  | frame F work => exact h.renderFrame hcareful hs
  | cache e =>
    obtain ⟨tiles, htiles, rfl⟩ := Option.map_eq_some_iff.mp hs
    obtain ⟨cache, hcache, rfl⟩ := Option.map_eq_some_iff.mp htiles
    exact ⟨h.books.step hcache, fun id hid => List.mem_append_right _ (h.dropped hid), h.sound⟩

/-- In a run whose frames that leave early are handed no damage that makes a cached tile out of
date, no frame draws a tile that damage made out of date. -/
theorem staleDrawn_eq_nil (h : (interactiveModel κ).Reachable LoopEvent.Careful L) :
    L.staleDrawn = [] := by
  have hinv : L.Inv := by
    refine h.invariant ?_ fun L e L' hL hcareful hs => hL.step hcareful hs
    rintro L ⟨budget, rfl⟩
    exact ⟨CacheSession.inv_start budget, List.nil_subset _, rfl⟩
  exact hinv.sound

end FrameLoop

/-! ## A tile that is panned back into view -/

/-- A composition with one layer at the identity. -/
def oneLayer (l : LayerRecord) : DocMap := fun id =>
  if id = 1 then some ⟨1, 1, .composition { layerCount := 1, layers := fun _ => 2 }⟩
  else if id = 2 then some ⟨2, 1, .layer l⟩
  else none

/-- A static content of 16 by 16 units, object 3. -/
def stillContent : ContentLibrary Unit where
  resolve id := if id = 3 then some () else none
  stability _ := .static
  bounds _ := some ⟨0, 0, ofInt 16, ofInt 16⟩
  quantizeTime _ _ := none
  compositionRef _ := 0

/-- A frame of 16 by 16 pixels over the content, moved to the left. -/
def stillFrame (left : ℤ) (modelDamage : List (Damage Double)) : Frame Unit where
  state := oneLayer { content := 3 }
  revision := 1
  turns := 2
  library := stillContent
  identity := ⟨fun _ => some 3, fun _ _ _ => []⟩
  contribution _ := 1
  viewport := ⟨16, 16, { tx := ofInt (-left) }, 1⟩
  modelDamage := modelDamage
  time := 0

/-- The whole content changes. -/
def stillDamage : Damage Double := ⟨3, ⟨0, 0, ofInt 16, ofInt 16⟩, .all⟩

/-- The content is in view, and its tile is rendered and cached. -/
def firstFrame : LoopEvent Unit :=
  .frame (stillFrame 0 []) { cacheWork := [[], [.insert ⟨3, 1, ⟨0⟩, ⟨0, 0⟩, none⟩ ⟨1, true⟩ 256 .visible]] }

/-- The content changes while it is in view. -/
theorem staleDrawn_eq_nil_inView : ∃ L : FrameLoop Unit,
    (interactiveModel Unit).Reachable LoopEvent.Careful L ∧ L.outdated = [0] ∧
      L.staleDrawn = [] := by
  obtain ⟨L, hL, hout⟩ := Machine.exists_reachable (M := interactiveModel Unit) LoopEvent.Careful
    [firstFrame, .frame (stillFrame 0 [stillDamage]) {}]
    (fun L : FrameLoop Unit => decide (L.outdated = [0])) ⟨1024, rfl⟩ (by decide +kernel)
    (by decide +kernel)
  exact ⟨L, hL, of_decide_eq_true hout, FrameLoop.staleDrawn_eq_nil hL⟩

/-- The content changes while the view is panned away, and the view is panned back. -/
def panRun : List (LoopEvent Unit) :=
  [firstFrame, .frame (stillFrame 100 []) {}, .frame (stillFrame 100 [stillDamage]) {},
    .frame (stillFrame 0 []) {}]

/-- The tile from before the change is drawn as fresh. -/
theorem staleDrawn_panRun : ∃ L : FrameLoop Unit,
    (interactiveModel Unit).Reachable Machine.anyEvent L ∧ L.staleDrawn = [0] := by
  obtain ⟨L, hL, hdrawn⟩ := Machine.exists_reachable (M := interactiveModel Unit) Machine.anyEvent
    panRun (fun L : FrameLoop Unit => decide (L.staleDrawn = [0])) ⟨1024, rfl⟩
    (Machine.runAllowed_anyEvent _ _) (by decide +kernel)
  exact ⟨L, hL, of_decide_eq_true hdrawn⟩

end ArbitraryComposer
