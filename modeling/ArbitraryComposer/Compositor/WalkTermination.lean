import ArbitraryComposer.Compositor.AnchoredViewports
import ArbitraryComposer.Model.Refinement
import ArbitraryComposer.ToMathlib.FiniteSearch
import Mathlib.Data.Finite.Sum

/-!
# When the Walk Ends

The places of the walk are the compositions it enters, each with the transform composed on the
way, and the layer-order chunks it reads. Doubles are finitely many, so a walk that does not end
comes back to a place it is in the middle of: a composition that contains itself at the identity is
entered again with the very same transform.

## Main definitions

- `WalkPlace`, `WalkPlace.Step`: the places and what leads from one to the next.
- `NoReturn`: no place reached from the anchor leads back to itself.
- `WalkEnds`: the walk and the damage mapping end and report every instance.

## Main results

- `walkEnds_iff`: they do exactly when no place leads back to itself.
- `cullWalk_identity_cycle`: a composition that contains itself.
-/

namespace ArbitraryComposer

open Relation

/-- A place of the walk. -/
inductive WalkPlace where
  /-- A composition and its transform to the device. -/
  | composition (id : ObjectId) (toDevice : Transform)
  /-- A layer-order chunk. -/
  | chunk (id : ObjectId)
  deriving DecidableEq

/-- There are finitely many places. -/
instance : Finite WalkPlace :=
  Finite.of_injective
    (fun p : WalkPlace => match p with
      | .composition id toDevice => (Sum.inl (id.toFin, toDevice) : _ ⊕ Fin UInt64.size)
      | .chunk id => .inr id.toFin) fun p q h => by
    rcases p with ⟨id, toDevice⟩ | ⟨id⟩ <;> rcases q with ⟨id', toDevice'⟩ | ⟨id'⟩
    · simp only [Sum.inl.injEq, Prod.mk.injEq] at h
      rw [UInt64.toFin_inj.mp h.1, h.2]
    · cases h
    · cases h
    · rw [UInt64.toFin_inj.mp (Sum.inr.inj h)]

variable {m : DocMap} {deviceRect : DeviceRect}

/-! ## More turns -/

/-- A chain that was read is read with more turns. -/
theorem DocMap.readOrderChain_mono {turns turns' : ℕ} {id : ObjectId} {order : List ObjectId}
    (h : m.readOrderChain turns id = some order) (le : turns ≤ turns') :
    m.readOrderChain turns' id = some order := by
  induction turns generalizing turns' id order with
  | zero => cases h
  | succ turns ih =>
    obtain ⟨turns', rfl⟩ := Nat.exists_eq_add_of_lt le
    unfold readOrderChain at h ⊢
    split at h
    · next hch => simpa [hch] using h
    · next ch hch =>
      obtain ⟨rest, hrest, rfl⟩ := Option.map_eq_some_iff.mp h
      exact Option.map_eq_some_iff.mpr ⟨rest, ih hrest (by omega), rfl⟩

/-- Members that were read are read with more turns. -/
theorem DocMap.layersIn_mono {turns turns' : ℕ} {composition : ObjectId} {order : List ObjectId}
    (h : m.layersIn turns composition = some order) (le : turns ≤ turns') :
    m.layersIn turns' composition = some order := by
  unfold layersIn at h ⊢
  split
  · next hc => simpa [hc] using h
  · next c hc =>
    simp only [hc, layerOrder] at h ⊢
    split
    · next spilled =>
      rw [if_pos spilled] at h
      exact readOrderChain_mono h le
    · next inline =>
      rw [if_neg inline] at h
      exact h

/-- A member that was walked is walked with a walk that extends the one before. -/
theorem walkMember_mono {toDevice : Transform}
    {descend descend' : ObjectId → Transform → Option (List WalkReport)} {member : ObjectId}
    {reports : List WalkReport}
    (h : walkMember m toDevice deviceRect descend member = some reports)
    (ext : ∀ id t r, descend id t = some r → descend' id t = some r) :
    walkMember m toDevice deviceRect descend' member = some reports := by
  unfold walkMember at h ⊢
  generalize m.findLayer member = found at h ⊢
  rcases found with _ | layer
  · exact h
  dsimp only at h ⊢
  generalize m.findComposition layer.content = found at h ⊢
  rcases found with _ | child
  · exact h
  dsimp only at h ⊢
  split
  · next enter =>
    rw [if_pos enter] at h
    obtain ⟨inner, hinner, rfl⟩ := Option.map_eq_some_iff.mp h
    exact Option.map_eq_some_iff.mpr ⟨inner, ext _ _ _ hinner, rfl⟩
  · next stay =>
    rw [if_neg stay] at h
    exact h

/-- A walk that ended ends with more turns. -/
theorem walkComposition_mono {turns turns' : ℕ} {composition : ObjectId} {toDevice : Transform}
    {reports : List WalkReport}
    (h : walkComposition m deviceRect turns composition toDevice = some reports)
    (le : turns ≤ turns') :
    walkComposition m deviceRect turns' composition toDevice = some reports := by
  induction turns generalizing turns' composition toDevice reports with
  | zero => cases h
  | succ turns ih =>
    obtain ⟨turns', rfl⟩ := Nat.exists_eq_add_of_lt le
    unfold walkComposition at h ⊢
    obtain ⟨order, horder, h⟩ := Option.bind_eq_some_iff.mp h
    obtain ⟨parts, hparts, h⟩ := Option.bind_eq_some_iff.mp h
    refine Option.bind_eq_some_iff.mpr ⟨order, DocMap.layersIn_mono horder (by omega), ?_⟩
    refine Option.bind_eq_some_iff.mpr ⟨parts, ?_, h⟩
    refine List.mapM_mono hparts fun member r hr => ?_
    exact walkMember_mono hr fun id t r hr => ih hr (by omega)

/-! ## The places -/

/-- `member` is a layer of the composition. -/
def DocMap.IsMember (m : DocMap) (composition member : ObjectId) : Prop :=
  ∃ turns order, m.layersIn turns composition = some order ∧ member ∈ order

/-- The members do not depend on the turns. -/
theorem DocMap.isMember_iff {turns : ℕ} {composition member : ObjectId} {order : List ObjectId}
    (h : m.layersIn turns composition = some order) :
    m.IsMember composition member ↔ member ∈ order := by
  constructor
  · rintro ⟨turns', order', h', mem⟩
    have first := layersIn_mono h (le_max_left turns turns')
    have second := layersIn_mono h' (le_max_right turns turns')
    rw [first] at second
    cases second
    exact mem
  · intro mem
    exact ⟨turns, order, h, mem⟩

/-- From one place to the next. -/
inductive WalkPlace.Step (m : DocMap) (deviceRect : DeviceRect) : WalkPlace → WalkPlace → Prop
  /-- From a composition to the first chunk of its layers. -/
  | order {c : ObjectId} {toDevice : Transform} {comp : CompositionRecord} :
      m.findComposition c = some comp → comp.spillRoot.valid = true →
      Step m deviceRect (.composition c toDevice) (.chunk comp.spillRoot)
  /-- From a chunk to the next. -/
  | chunk {id : ObjectId} {ch : LayerOrderChunk} : m.findOrderChunk id = some ch →
      Step m deviceRect (.chunk id) (.chunk ch.next)
  /-- From a composition to one that a layer of it names. -/
  | descend {c member : ObjectId} {toDevice : Transform} {layer : LayerRecord}
      {child : CompositionRecord} : m.IsMember c member → m.findLayer member = some layer →
      m.findComposition layer.content = some child →
      entered layer child (compose toDevice layer.transform.toTransform) deviceRect = true →
      Step m deviceRect (.composition c toDevice)
        (.composition layer.content (compose toDevice layer.transform.toTransform))

/-- What the walk reports in a composition itself. -/
def ReportedAt (m : DocMap) (c : ObjectId) (toDevice : Transform) (e : WalkReport) : Prop :=
  ∃ member layer, m.IsMember c member ∧ m.findLayer member = some layer ∧
    e = match m.findComposition layer.content with
      | some _ => .descend member layer.content (compose toDevice layer.transform.toTransform)
      | none => .visit member layer (compose toDevice layer.transform.toTransform)

/-- What the walk reports in a composition and those entered from it. -/
def ReportedFrom (m : DocMap) (deviceRect : DeviceRect) (c : ObjectId) (toDevice : Transform)
    (e : WalkReport) : Prop :=
  ∃ c' toDevice', ReflTransGen (WalkPlace.Step m deviceRect) (.composition c toDevice)
    (.composition c' toDevice') ∧ ReportedAt m c' toDevice' e

/-- From a chunk only chunks are reached. -/
theorem not_reflTransGen_chunk {id c : ObjectId} {toDevice : Transform} :
    ¬ ReflTransGen (WalkPlace.Step m deviceRect) (.chunk id) (.composition c toDevice) := by
  intro path
  generalize hp : WalkPlace.chunk id = p at path
  generalize hq : WalkPlace.composition c toDevice = q at path
  induction path using ReflTransGen.head_induction_on generalizing id with
  | refl => cases hp.trans hq.symm
  | head first _ ih =>
    subst hp
    cases first with
    | chunk _ => exact ih rfl

/-- Reports come from a composition itself or from one entered from it. -/
theorem reportedFrom_iff {c : ObjectId} {toDevice : Transform} {e : WalkReport} :
    ReportedFrom m deviceRect c toDevice e ↔ ReportedAt m c toDevice e ∨
      ∃ member layer child, m.IsMember c member ∧ m.findLayer member = some layer ∧
        m.findComposition layer.content = some child ∧
        entered layer child (compose toDevice layer.transform.toTransform) deviceRect = true ∧
        ReportedFrom m deviceRect layer.content
          (compose toDevice layer.transform.toTransform) e := by
  constructor
  · rintro ⟨c', toDevice', path, reported⟩
    rcases path.cases_head with same | ⟨next, first, rest⟩
    · cases same
      exact .inl reported
    · cases first with
      | order _ _ => exact (not_reflTransGen_chunk rest).elim
      | @descend _ member _ layer child mem hlayer hchild enter =>
        exact .inr ⟨member, layer, child, mem, hlayer, hchild, enter, c', toDevice', rest, reported⟩
  · rintro (reported | ⟨member, layer, child, mem, hlayer, hchild, enter, c', toDevice', rest,
      reported⟩)
    · exact ⟨c, toDevice, .refl, reported⟩
    · exact ⟨c', toDevice', .head (.descend mem hlayer hchild enter) rest, reported⟩

/-- What a walk that ends reports, from what the walks below it report. -/
theorem mem_walkMember {toDevice : Transform} {member : ObjectId} {reports : List WalkReport}
    {descend : ObjectId → Transform → Option (List WalkReport)} {e : WalkReport}
    (h : walkMember m toDevice deviceRect descend member = some reports)
    (below : ∀ id t r, descend id t = some r → (e ∈ r ↔ ReportedFrom m deviceRect id t e)) :
    e ∈ reports ↔ ∃ layer, m.findLayer member = some layer ∧
      ((e = match m.findComposition layer.content with
        | some _ => .descend member layer.content (compose toDevice layer.transform.toTransform)
        | none => .visit member layer (compose toDevice layer.transform.toTransform)) ∨
      ∃ child, m.findComposition layer.content = some child ∧
        entered layer child (compose toDevice layer.transform.toTransform) deviceRect = true ∧
        ReportedFrom m deviceRect layer.content
          (compose toDevice layer.transform.toTransform) e) := by
  unfold walkMember at h
  rcases hlayer : m.findLayer member with _ | layer
  · rw [hlayer] at h
    cases h
    simp
  rw [hlayer] at h
  simp only [Option.some.injEq, exists_eq_left'] at h ⊢
  rcases hchild : m.findComposition layer.content with _ | child
  · rw [hchild] at h
    cases h
    simp
  rw [hchild] at h
  simp only [Option.some.injEq, exists_eq_left'] at h ⊢
  split at h
  · next enter =>
    obtain ⟨inner, hinner, rfl⟩ := Option.map_eq_some_iff.mp h
    rw [List.mem_cons, below _ _ _ hinner]
    simp [enter]
  · next stay =>
    cases h
    simp [stay]

/-- A walk that ends reports exactly what there is to report. -/
theorem mem_walkComposition {turns : ℕ} {c : ObjectId} {toDevice : Transform}
    {reports : List WalkReport}
    (h : walkComposition m deviceRect turns c toDevice = some reports) (e : WalkReport) :
    e ∈ reports ↔ ReportedFrom m deviceRect c toDevice e := by
  induction turns generalizing c toDevice reports with
  | zero => cases h
  | succ turns ih =>
    unfold walkComposition at h
    obtain ⟨order, horder, h⟩ := Option.bind_eq_some_iff.mp h
    obtain ⟨parts, hparts, h⟩ := Option.bind_eq_some_iff.mp h
    cases h
    rw [List.mem_flatten, reportedFrom_iff]
    have each {member : ObjectId} {r : List WalkReport}
        (hr : walkMember m toDevice deviceRect (walkComposition m deviceRect turns) member
          = some r) := mem_walkMember (e := e) hr fun id t r hr => ih hr
    constructor
    · rintro ⟨r, hr, mem⟩
      obtain ⟨member, hmember, hr⟩ := (List.mem_mapM hparts).mp hr
      have hmember := (DocMap.isMember_iff horder).mpr hmember
      obtain ⟨layer, hlayer, here | ⟨child, hchild, enter, below⟩⟩ := (each hr).mp mem
      · exact .inl ⟨member, layer, hmember, hlayer, here⟩
      · exact .inr ⟨member, layer, child, hmember, hlayer, hchild, enter, below⟩
    · rintro (⟨member, layer, hmember, hlayer, here⟩ |
        ⟨member, layer, child, hmember, hlayer, hchild, enter, below⟩)
      · obtain ⟨r, hr, mem⟩ := List.exists_of_mapM_eq_some hparts
          ((DocMap.isMember_iff horder).mp hmember)
        exact ⟨r, mem, (each hr).mpr ⟨layer, hlayer, .inl here⟩⟩
      · obtain ⟨r, hr, mem⟩ := List.exists_of_mapM_eq_some hparts
          ((DocMap.isMember_iff horder).mp hmember)
        exact ⟨r, mem, (each hr).mpr ⟨layer, hlayer, .inr ⟨child, hchild, enter, below⟩⟩⟩

/-! ## Ending -/

/-- Reading a chain ends when its first chunk is accessible. -/
theorem exists_readOrderChain (id : ObjectId)
    (acc : Acc (fun x y => WalkPlace.Step m deviceRect y x) (.chunk id)) :
    ∃ turns order, m.readOrderChain turns id = some order := by
  generalize hp : WalkPlace.chunk id = p at acc
  induction acc generalizing id with
  | intro p _ ih =>
    subst hp
    rcases hch : m.findOrderChunk id with _ | ch
    · exact ⟨1, [], by simp [DocMap.readOrderChain, hch]⟩
    · obtain ⟨turns, rest, hrest⟩ := ih _ (.chunk hch) ch.next rfl
      exact ⟨turns + 1, _, by simp only [DocMap.readOrderChain, hch, hrest]; rfl⟩

/-- Members are read when the composition is accessible. -/
theorem exists_layersIn {c : ObjectId} {toDevice : Transform}
    (acc : Acc (fun x y => WalkPlace.Step m deviceRect y x) (.composition c toDevice)) :
    ∃ turns order, m.layersIn turns c = some order := by
  rcases hc : m.findComposition c with _ | comp
  · exact ⟨0, [], by simp [DocMap.layersIn, hc]⟩
  · by_cases spilled : comp.spillRoot.valid = true
    · obtain ⟨turns, order, h⟩ := exists_readOrderChain comp.spillRoot
        (acc.inv (.order hc spilled))
      exact ⟨turns, order, by simp [DocMap.layersIn, hc, DocMap.layerOrder, spilled, h]⟩
    · exact ⟨0, _, by simp [DocMap.layersIn, hc, DocMap.layerOrder, spilled]; rfl⟩

/-- A walk of each of finitely many members ends with some number of turns for all. -/
theorem exists_mapM_walkMember (toDevice : Transform) {order : List ObjectId}
    (each : ∀ member ∈ order, ∃ turns reports,
      walkMember m toDevice deviceRect (walkComposition m deviceRect turns) member
        = some reports) :
    ∃ turns parts, order.mapM
      (walkMember m toDevice deviceRect (walkComposition m deviceRect turns)) = some parts := by
  have enough : ∃ turns, ∀ member ∈ order, ∃ reports,
      walkMember m toDevice deviceRect (walkComposition m deviceRect turns) member
        = some reports := by
    induction order with
    | nil => exact ⟨0, fun _ h => absurd h List.not_mem_nil⟩
    | cons member order ih =>
      obtain ⟨turns, reports, h⟩ := each member List.mem_cons_self
      obtain ⟨turns', h'⟩ := ih fun x hx => each x (List.mem_cons_of_mem member hx)
      refine ⟨max turns turns', fun x hx => ?_⟩
      rcases List.mem_cons.mp hx with rfl | hx
      · exact ⟨reports, walkMember_mono h fun _ _ _ hr =>
          walkComposition_mono hr (le_max_left _ _)⟩
      · obtain ⟨reports, h⟩ := h' x hx
        exact ⟨reports, walkMember_mono h fun _ _ _ hr =>
          walkComposition_mono hr (le_max_right _ _)⟩
  obtain ⟨turns, h⟩ := enough
  exact ⟨turns, List.exists_mapM_eq_some h⟩

/-- The walk ends when its place is accessible. -/
theorem exists_walkComposition (c : ObjectId) (toDevice : Transform)
    (acc : Acc (fun x y => WalkPlace.Step m deviceRect y x) (.composition c toDevice)) :
    ∃ turns reports, walkComposition m deviceRect turns c toDevice = some reports := by
  generalize hp : WalkPlace.composition c toDevice = p at acc
  induction acc generalizing c toDevice with
  | intro p below ih =>
    subst hp
    obtain ⟨turns, order, horder⟩ := exists_layersIn (.intro _ below)
    obtain ⟨turns', parts, hparts⟩ :=
      exists_mapM_walkMember (m := m) toDevice fun member hmember => by
        have hmember := (DocMap.isMember_iff horder).mpr hmember
        unfold walkMember
        rcases hlayer : m.findLayer member with _ | layer
        · exact ⟨0, [], rfl⟩
        dsimp only
        rcases hchild : m.findComposition layer.content with _ | child
        · exact ⟨0, _, rfl⟩
        dsimp only
        by_cases enter : entered layer child (compose toDevice layer.transform.toTransform)
            deviceRect = true
        · obtain ⟨turns, reports, h⟩ := ih _ (.descend hmember hlayer hchild enter) _ _ rfl
          exact ⟨turns, _, by rw [if_pos enter, h]; rfl⟩
        · exact ⟨0, _, by rw [if_neg enter]⟩
    refine ⟨max turns turns' + 1, parts.flatten, ?_⟩
    unfold walkComposition
    refine Option.bind_eq_some_iff.mpr
      ⟨order, DocMap.layersIn_mono horder (le_max_left turns turns'), ?_⟩
    refine Option.bind_eq_some_iff.mpr ⟨parts, ?_, rfl⟩
    refine List.mapM_mono hparts fun member r hr => ?_
    exact walkMember_mono hr fun _ _ _ hr => walkComposition_mono hr (le_max_right turns turns')

/-- A chunk whose chain was read is accessible. -/
theorem acc_of_readOrderChain {turns : ℕ} {id : ObjectId} {order : List ObjectId}
    (h : m.readOrderChain turns id = some order) :
    Acc (fun x y => WalkPlace.Step m deviceRect y x) (.chunk id) := by
  induction turns generalizing id order with
  | zero => cases h
  | succ turns ih =>
    refine ⟨_, fun q step => ?_⟩
    cases step with
    | chunk hch =>
      simp only [DocMap.readOrderChain, hch] at h
      obtain ⟨rest, hrest, -⟩ := Option.map_eq_some_iff.mp h
      exact ih hrest

/-- The place of a walk that ended is accessible. -/
theorem acc_of_walkComposition {turns : ℕ} {c : ObjectId} {toDevice : Transform}
    {reports : List WalkReport}
    (h : walkComposition m deviceRect turns c toDevice = some reports) :
    Acc (fun x y => WalkPlace.Step m deviceRect y x) (.composition c toDevice) := by
  induction turns generalizing c toDevice reports with
  | zero => cases h
  | succ turns ih =>
    unfold walkComposition at h
    obtain ⟨order, horder, h⟩ := Option.bind_eq_some_iff.mp h
    obtain ⟨parts, hparts, -⟩ := Option.bind_eq_some_iff.mp h
    refine ⟨_, fun q step => ?_⟩
    cases step with
    | order hc spilled =>
      simp only [DocMap.layersIn, hc, DocMap.layerOrder, spilled, if_true] at horder
      exact acc_of_readOrderChain horder
    | @descend _ member _ layer child mem hlayer hchild enter =>
      obtain ⟨r, hr, -⟩ := List.exists_of_mapM_eq_some hparts
        ((DocMap.isMember_iff horder).mp mem)
      simp only [walkMember, hlayer, hchild, enter, if_true] at hr
      obtain ⟨inner, hinner, -⟩ := Option.map_eq_some_iff.mp hr
      exact ih hinner

/-! ## The claim of the walk -/

/-- The walk of a viewport reports `e`. -/
def Reported (m : DocMap) (viewport : Viewport) (e : WalkReport) : Prop :=
  viewport.anchor ≠ rootAnchor ∧
    ReportedFrom m viewport.deviceRect viewport.anchor viewport.camera e

/-- The walk ends and reports exactly the instances reached, and the damage mapping ends and maps
every damage through every instance it matches. -/
structure WalkEnds (m : DocMap) (viewport : Viewport) : Prop where
  /-- The walk. -/
  walk : ∃ turns reports, cullWalk m turns viewport = some reports ∧
    ∀ e, e ∈ reports ↔ Reported m viewport e
  /-- The damage mapping. -/
  damage : ∀ damage now, ∃ turns rects,
    mapDamageToDevice m turns viewport damage now = some rects ∧
      ∀ d ∈ damage, (d.range.empty || d.range.contains now) = true →
        ∀ e, Reported m viewport e → ∀ t ∈ e.matches d.object,
          DeviceRect.empty (damageRect viewport d.rect t) = false →
            damageRect viewport d.rect t ∈ rects

/-- No place the walk reaches leads back to itself. Without an anchor there is no walk. -/
def NoReturn (m : DocMap) (viewport : Viewport) : Prop :=
  viewport.anchor = rootAnchor ∨
    ∀ p, ReflTransGen (WalkPlace.Step m viewport.deviceRect)
        (.composition viewport.anchor viewport.camera) p →
      ¬ TransGen (WalkPlace.Step m viewport.deviceRect) p p

/-- The walk of a viewport ends exactly when no place of it leads back to itself. -/
theorem exists_cullWalk_iff (m : DocMap) (viewport : Viewport) :
    (∃ turns reports, cullWalk m turns viewport = some reports) ↔ NoReturn m viewport := by
  unfold cullWalk NoReturn
  by_cases none : viewport.anchor = rootAnchor
  · simp [none]
  · simp only [none, if_false, false_or]
    rw [← acc_iff_no_cycle]
    constructor
    · rintro ⟨turns, reports, h⟩
      exact acc_of_walkComposition h
    · exact exists_walkComposition _ _

/-- What a walk that ended reported. -/
theorem mem_cullWalk {viewport : Viewport} {turns : ℕ} {reports : List WalkReport}
    (h : cullWalk m turns viewport = some reports) (e : WalkReport) :
    e ∈ reports ↔ Reported m viewport e := by
  unfold cullWalk at h
  unfold Reported
  split at h
  · next none =>
    cases h
    simp [none]
  · next anchored =>
    rw [mem_walkComposition h e]
    simp [anchored]

/-- With a walk that ends, the damage mapping ends and maps every instance. -/
theorem exists_mapDamageToDevice {viewport : Viewport} {turns : ℕ} {reports : List WalkReport}
    (h : cullWalk m turns viewport = some reports) (damage : List (Damage Double)) (now : Int64) :
    ∃ rects, mapDamageToDevice m turns viewport damage now = some rects ∧
      ∀ d ∈ damage, (d.range.empty || d.range.contains now) = true →
        ∀ e, Reported m viewport e → ∀ t ∈ e.matches d.object,
          DeviceRect.empty (damageRect viewport d.rect t) = false →
            damageRect viewport d.rect t ∈ rects := by
  obtain ⟨parts, hparts⟩ := List.exists_mapM_eq_some (l := damage)
    (f := mapOneDamage m turns viewport now) fun d _ => by
      unfold mapOneDamage
      split
      · exact ⟨_, by rw [h]; rfl⟩
      · exact ⟨[], rfl⟩
  refine ⟨parts.flatten, by rw [mapDamageToDevice, hparts]; rfl, ?_⟩
  intro d hd gate e reported t ht visible
  obtain ⟨rects, hrects, mem⟩ := List.exists_of_mapM_eq_some hparts hd
  rw [mapOneDamage, if_pos gate, h] at hrects
  obtain rfl := Option.some.inj hrects
  refine List.mem_flatten.mpr ⟨_, mem, ?_⟩
  rw [List.mem_filter, List.mem_map, visible]
  refine ⟨⟨t, ?_, rfl⟩, rfl⟩
  exact List.mem_append_right _ (List.mem_flatMap.mpr ⟨e, (mem_cullWalk h e).mpr reported, ht⟩)

/-- The walk and the damage mapping end, with every instance reported, exactly when no place of
the walk leads back to itself. -/
theorem walkEnds_iff (m : DocMap) (viewport : Viewport) :
    WalkEnds m viewport ↔ NoReturn m viewport := by
  rw [← exists_cullWalk_iff]
  constructor
  · rintro ⟨⟨turns, reports, h, -⟩, -⟩
    exact ⟨turns, reports, h⟩
  · rintro ⟨turns, reports, h⟩
    exact ⟨⟨turns, reports, h, mem_cullWalk h⟩, fun damage now =>
      ⟨turns, exists_mapDamageToDevice h damage now⟩⟩

/-! ## A composition that contains itself -/

/-- A walk does not end in a composition with a layer that names it, is not culled and leaves the
transform as it is. -/
theorem cullWalk_eq_none_of_self {viewport : Viewport} {member : ObjectId} {layer : LayerRecord}
    {comp : CompositionRecord} (anchored : viewport.anchor ≠ rootAnchor)
    (mem : m.IsMember viewport.anchor member) (hlayer : m.findLayer member = some layer)
    (self : layer.content = viewport.anchor) (hcomp : m.findComposition layer.content = some comp)
    (same : compose viewport.camera layer.transform.toTransform = viewport.camera)
    (enter : entered layer comp viewport.camera viewport.deviceRect = true) (turns : ℕ) :
    cullWalk m turns viewport = none := by
  rcases h : cullWalk m turns viewport with _ | reports
  · rfl
  have step : WalkPlace.Step m viewport.deviceRect (.composition viewport.anchor viewport.camera)
      (.composition layer.content (compose viewport.camera layer.transform.toTransform)) :=
    .descend mem hlayer hcomp (by rw [same]; exact enter)
  rw [self, same] at step
  rcases (exists_cullWalk_iff m viewport).mp ⟨turns, reports, h⟩ with absent | acyclic
  · exact (anchored absent).elim
  · exact (acyclic _ .refl (.single step)).elim

/-- A composition of 100 by 100 units gets a layer at the identity that shows the composition
itself. -/
def selfRun : List ModelEvent :=
  [.transact, .mutate 0 0 (.addComposition 0x4059000000000000 0x4059000000000000),
    .mutate 0 0 (.addLayer 1 {} 0x3FF0000000000000), .mutate 0 0 (.attachLayer 1 2 0), .commit 0]

/-- The viewport of 100 by 100 pixels over that composition. -/
def selfViewport : Viewport := ⟨100, 100, {}, 1⟩

/-- The layer of the composition refers to it, and leaves the camera where it is. -/
def placesItself (s : Model) : Bool :=
  match s.session.map.findLayer 2, s.session.map.findComposition 1 with
  | some layer, some comp => s.session.map.layersIn 0 1 == some [2] && layer.content == 1 &&
    layer.transform == {} && entered layer comp selfViewport.camera selfViewport.deviceRect
  | _, _ => false

/-- The version this publishes is walked for ever. -/
theorem cullWalk_identity_cycle : ∃ s, docModel.Reachable Machine.anyEvent s ∧
    ∀ turns, cullWalk s.session.map turns selfViewport = none := by
  obtain ⟨s, hs, hself⟩ := Machine.exists_reachable Machine.anyEvent selfRun
    placesItself start_emptyModel (Machine.runAllowed_anyEvent _ _) (by decide +kernel)
  refine ⟨s, hs, fun turns => ?_⟩
  unfold placesItself at hself
  split at hself
  · next layer comp hlayer hcomp =>
    simp only [Bool.and_eq_true, beq_iff_eq] at hself
    obtain ⟨⟨⟨members, content⟩, transform⟩, enter⟩ := hself
    refine cullWalk_eq_none_of_self (by decide) ⟨0, [2], members, List.mem_singleton_self 2⟩ hlayer
      content (by rw [content]; exact hcomp) ?_ enter turns
    rw [transform]
    decide +kernel
  · cases hself

end ArbitraryComposer
