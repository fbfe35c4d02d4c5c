import ArbitraryComposer.Base.Geometry
import ArbitraryComposer.Model.Records

/-!
# The Operator Graph

Effects are contents that consume other contents: a content lists its inputs, and a change of an
input is a change of every content that reaches it. The damage router maps the damaged rectangle
up to each visible operator, through the map each edge supplies, and unions over the paths.

The walk keeps one result per content, stops at a content that is being evaluated already and
stops at a depth budget. What it stops at contributes nothing and is not kept.

## Main definitions

- `ContentGraph`: the inputs of every content and the damage maps of its edges.
- `mapDamageUp`, `routeOperatorDamage`: the walk and the router over it.
- `damageAdd`: one damage per object.
- `ContentGraph.Walk`, `ContentGraph.Along`: paths to an input, and damage along one.
-/

namespace ArbitraryComposer

/-- The content-input graph. -/
structure ContentGraph (κ α : Type*) where
  /-- `Content::inputs`, in declared order; an input that is not bound is null. -/
  inputs : κ → List (Option κ)
  /-- `Content::map_input_damage`: damage on an input as damage on the output. -/
  mapInputDamage : κ → ℕ → Rect α → Rect α

/-- `TimeRange::empty`. -/
def TimeRange.empty (r : TimeRange) : Bool := decide (r.stop ≤ r.start)

/-- `range_union`: the shortest range around both, where an empty range adds nothing. -/
def rangeUnion (a b : TimeRange) : TimeRange :=
  if a.empty then b
  else if b.empty then a
  else ⟨min a.start b.start, max a.stop b.stop⟩

/-- `Damage`. -/
structure Damage (α : Type*) where
  /-- The damaged object. -/
  object : ObjectId
  /-- Where. -/
  rect : Rect α
  /-- When. -/
  range : TimeRange
  deriving DecidableEq

/-- `OperatorLayer`: a visible operator and the object its damage is reported for. -/
structure OperatorLayer (κ : Type*) where
  /-- The content id. -/
  object : ObjectId
  /-- The resolved content, when there is one. -/
  content : Option κ
  deriving DecidableEq

section Walk

variable {κ α : Type*} [DecidableEq κ] [LinearOrder α]

/-- `damage_add`: damage to the same object is unioned. -/
def damageAdd : List (Damage α) → Damage α → List (Damage α)
  | [], d => [d]
  | e :: set, d =>
    if e.object = d.object then
      ⟨e.object, rectUnion e.rect d.rect, rangeUnion e.range d.range⟩ :: set
    else e :: damageAdd set d

/-- The results the walk has kept, per content: none, or that the content is not reached, or what
the damage maps to. -/
abbrev DamageMemo (κ α : Type*) : Type _ := κ → Option (Option (Rect α))

/-- `unordered_map::emplace`: a key that is there keeps its value. -/
def DamageMemo.emplace (memo : DamageMemo κ α) (node : κ) (result : Option (Rect α)) :
    DamageMemo κ α :=
  match memo node with
  | some _ => memo
  | none => Function.update memo node (some result)

/-- One more rectangle for the result. -/
def unionResult (result : Option (Rect α)) (mapped : Rect α) : Option (Rect α) :=
  match result with
  | some r => some (rectUnion r mapped)
  | none => some mapped

/-- The loop over the inputs of a content, from the one at position `i` on. -/
def mergeInputs (visit : κ → DamageMemo κ α → Option (Rect α) × DamageMemo κ α)
    (map : ℕ → Rect α → Rect α) :
    List (Option κ) → ℕ → Option (Rect α) → DamageMemo κ α → Option (Rect α) × DamageMemo κ α
  | [], _, result, memo => (result, memo)
  | none :: rest, i, result, memo => mergeInputs visit map rest (i + 1) result memo
  | some input :: rest, i, result, memo =>
    match visit input memo with
    | (some sub, memo) => mergeInputs visit map rest (i + 1) (unionResult result (map i sub)) memo
    | (none, memo) => mergeInputs visit map rest (i + 1) result memo

/-- `map_damage_up`, where `left` is `budget.max_depth - depth`. -/
def mapDamageUp (G : ContentGraph κ α) (damaged : κ) (rect : Rect α) (left : ℕ) (node : κ)
    (onStack : List κ) (memo : DamageMemo κ α) : Option (Rect α) × DamageMemo κ α :=
  if node = damaged then (some rect, memo)
  else
    match memo node with
    | some result => (result, memo)
    | none =>
      match left with
      | 0 => (none, memo)
      | left + 1 =>
        if node ∈ onStack then (none, memo)
        else
          let (result, memo) :=
            mergeInputs (fun input => mapDamageUp G damaged rect left input (node :: onStack))
              (G.mapInputDamage node) (G.inputs node) 0 none memo
          (result, memo.emplace node result)

/-- `route_operator_damage`. -/
def routeOperatorDamage (G : ContentGraph κ α) (damaged : Option κ) (rect : Rect α)
    (range : TimeRange) (maxDepth : ℕ) (operators : List (OperatorLayer κ)) : List (Damage α) :=
  match damaged with
  | none => []
  | some damaged =>
    operators.foldl (fun out op =>
      match op.content with
      | none => out
      | some content =>
        if content = damaged then out
        else
          match (mapDamageUp G damaged rect maxDepth content [] fun _ => none).1 with
          | some mapped => damageAdd out ⟨op.object, mapped, range⟩
          | none => out) []

end Walk

/-! ## Paths -/

namespace ContentGraph

variable {κ α : Type*}

/-- There is a path of that many inputs from one content down to another. -/
inductive Walk (inputs : κ → List (Option κ)) : κ → κ → ℕ → Prop
  /-- A content is at distance zero of itself. -/
  | refl (n : κ) : Walk inputs n n 0
  /-- One more input at the top. -/
  | step {n c m : κ} {k : ℕ} : some c ∈ inputs n → Walk inputs c m k → Walk inputs n m (k + 1)

/-- No content reaches itself through its inputs. -/
def Acyclic (inputs : κ → List (Option κ)) : Prop := ∀ n k, ¬ Walk inputs n n (k + 1)

/-- `Along G damaged rect n r k`: the damaged rectangle maps to `r` along some path of `k` inputs
from `n` down to the damaged content. An empty rectangle is damage to no pixel and maps no
further. -/
inductive Along [LinearOrder α] (G : ContentGraph κ α) (damaged : κ) (rect : Rect α) :
    κ → Rect α → ℕ → Prop
  /-- The damage itself. -/
  | here : Along G damaged rect damaged rect 0
  /-- The map of one more edge. -/
  | up {n c : κ} {i k : ℕ} {r : Rect α} : (G.inputs n)[i]? = some (some c) → ¬ r.empty = true →
      Along G damaged rect c r k → Along G damaged rect n (G.mapInputDamage n i r) (k + 1)

/-- The damage maps report more for more damage, as the covering requirement on contents has it:
what a smaller rectangle can change, a larger one can. -/
def Covering [LinearOrder α] (G : ContentGraph κ α) : Prop :=
  ∀ n i r s, ¬ r.empty = true → r.toSet ⊆ s.toSet →
    (G.mapInputDamage n i r).toSet ⊆ (G.mapInputDamage n i s).toSet

end ContentGraph

end ArbitraryComposer
