import ArbitraryComposer.Compositor.TilePlanning

/-!
# What a Frame Shows

The value of a full frame at an instant, without the arithmetic of its samples. A frame shows the
placed layers of the anchor composition, bottom to top; a nesting content shows the layers of its
composition in turn, down to the depth budget of the pull service. What the frame looks like is
some function of these, and of nothing else that the instant decides.

## Main definitions

- `Shown`, `shownIn`, `frameShown`: the layers a frame shows at an instant.
- `Painter`, `paintAll`, `frameValue`: a look of the contents, and the frame it gives.

## Main results

- `frameValue_free_inj`: frames that look the same to every painter show the same.
-/

namespace ArbitraryComposer

/-- What a layer does to its content. -/
structure Look where
  /-- Placement. -/
  transform : Affine
  /-- Opacity. -/
  opacity : UInt64
  /-- Blend mode. -/
  blend : UInt32
  deriving DecidableEq, Repr

/-- The look of a layer. -/
def LayerRecord.look (l : LayerRecord) : Look := ⟨l.transform, l.opacity, l.blend⟩

/-- A layer that is shown. -/
inductive Shown (κ : Type) where
  /-- A content and the instant its pixels are for. -/
  | leaf (content : κ) (look : Look) (achieved : Option Int64)
  /-- A nesting content and the layers of its composition. -/
  | group (content : κ) (look : Look) (children : List (Shown κ))

/-- The instant that the pixels of a leaf are for. -/
def Shown.achieved {κ : Type} : Shown κ → Option Int64
  | .leaf _ _ achieved => achieved
  | .group _ _ _ => none

section Layers

variable {κ : Type}

/-- What a layer shows, given what a composition shows at an instant and which layers are culled
by their geometry. -/
def showLayer (library : ContentLibrary κ) (time : Int64)
    (nested : ObjectId → Int64 → Option (List (Shown κ))) (inView : LayerRecord → κ → Bool)
    (l : LayerRecord) : Option (Option (Shown κ)) :=
  match l.shown library time with
  | none => some none
  | some (content, localTime) =>
    if inView l content then
      if (library.compositionRef content).valid then
        (nested (library.compositionRef content) localTime).map fun children =>
          some (.group content l.look children)
      else some (some (.leaf content l.look (library.achievedTime content localTime)))
    else some none

/-- What the layers of a composition show, bottom to top. -/
def showLayers (m : DocMap) (library : ContentLibrary κ) (turns : ℕ) (time : Int64)
    (nested : ObjectId → Int64 → Option (List (Shown κ))) (inView : LayerRecord → κ → Bool)
    (composition : ObjectId) : Option (List (Shown κ)) := do
  let order ← m.layersIn turns composition
  let shown ← order.mapM fun member =>
    match m.findLayer member with
    | none => some none
    | some l => showLayer library time nested inView l
  some shown.reduceOption

/-- What a nested composition shows. A pull below the depth budget draws nothing. -/
def shownIn (m : DocMap) (library : ContentLibrary κ) (turns : ℕ) :
    ℕ → ObjectId → Int64 → Option (List (Shown κ))
  | 0, _, _ => some []
  | depth + 1, composition, time =>
    showLayers m library turns time (shownIn m library turns depth) (fun _ _ => true) composition

/-- What a frame shows. -/
def frameShown (m : DocMap) (library : ContentLibrary κ) (turns depth : ℕ) (viewport : Viewport)
    (time : Int64) : Option (List (Shown κ)) :=
  showLayers m library turns time (shownIn m library turns depth)
    (fun l content => (layerGeometry library viewport l content).isSome) viewport.anchor

end Layers

/-! ## Painters -/

/-- A picture: a value for every pixel. -/
abbrev Picture (γ : Type) : Type := Int32 → Int32 → γ

/-- How contents look and how layers are composited, with whatever arithmetic. A static content
has the same look at every instant, as its stability promises: its layers carry no instant. -/
structure Painter (κ γ : Type) where
  /-- The cleared target. -/
  blank : Picture γ
  /-- A content over what is below it. -/
  leaf : κ → Look → Option Int64 → Picture γ → Picture γ
  /-- The picture of a nested composition over what is below it. -/
  group : κ → Look → Picture γ → Picture γ → Picture γ

section Painting

variable {κ γ : Type}

mutual

/-- A layer over what is below it. -/
def Shown.paint (P : Painter κ γ) : Shown κ → Picture γ → Picture γ
  | .leaf content look achieved, backdrop => P.leaf content look achieved backdrop
  | .group content look children, backdrop =>
    P.group content look (paintAll P children P.blank) backdrop

/-- Layers over what is below them, the first one first. -/
def paintAll (P : Painter κ γ) : List (Shown κ) → Picture γ → Picture γ
  | [], backdrop => backdrop
  | s :: rest, backdrop => paintAll P rest (s.paint P backdrop)

end

/-- The value of a full frame. -/
def frameValue (P : Painter κ γ) (shown : List (Shown κ)) : Picture γ := paintAll P shown P.blank

/-- The painter of which the pictures tell every layer below them. -/
def Painter.free (κ : Type) : Painter κ (List (Shown κ)) where
  blank _ _ := []
  leaf content look achieved backdrop x y := backdrop x y ++ [.leaf content look achieved]
  group content look children backdrop x y :=
    backdrop x y ++ [.group content look (children x y)]

mutual

/-- The free painter adds a layer. -/
theorem Shown.paint_free (s : Shown κ) (backdrop : Picture (List (Shown κ))) (x y : Int32) :
    s.paint (.free κ) backdrop x y = backdrop x y ++ [s] := by
  cases s with
  | leaf content look achieved => rfl
  | group content look children =>
    have inner := paintAll_free children (Painter.free κ).blank x y
    change backdrop x y ++ [.group content look (paintAll (.free κ) children _ x y)] = _
    rw [inner]
    rfl

/-- The free painter adds layers in order. -/
theorem paintAll_free (shown : List (Shown κ)) (backdrop : Picture (List (Shown κ)))
    (x y : Int32) : paintAll (.free κ) shown backdrop x y = backdrop x y ++ shown := by
  cases shown with
  | nil => exact (List.append_nil _).symm
  | cons s rest =>
    calc paintAll (.free κ) (s :: rest) backdrop x y
        = paintAll (.free κ) rest (s.paint (.free κ) backdrop) x y := by rw [paintAll]
      _ = s.paint (.free κ) backdrop x y ++ rest := paintAll_free rest _ x y
      _ = backdrop x y ++ (s :: rest) := by
        rw [s.paint_free backdrop x y, List.append_assoc, List.singleton_append]

end

/-- Two frames that look the same to the free painter somewhere show the same. -/
theorem frameValue_free_inj {shown shown' : List (Shown κ)} {x y : Int32}
    (h : frameValue (.free κ) shown x y = frameValue (.free κ) shown' x y) : shown = shown' := by
  unfold frameValue at h
  rw [paintAll_free, paintAll_free] at h
  exact h

end Painting

end ArbitraryComposer
