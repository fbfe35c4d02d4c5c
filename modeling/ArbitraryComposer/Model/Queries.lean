import ArbitraryComposer.Model.DocMap

/-!
# Queries of a Document Version

What a reader of a pinned version asks: the record of an object, and the layers of a composition
in order. A query that follows a chain takes a number of turns; `none` says that they did not
suffice.

## Main definitions

- `DocMap.findLayer`, `DocMap.findComposition`: the record of an object, if it has the kind.
- `DocMap.layerOrder`, `DocMap.layersIn`: the layers of a composition.
-/

namespace ArbitraryComposer

namespace DocMap

/-- `find_layer`. -/
def findLayer (m : DocMap) (id : ObjectId) : Option LayerRecord :=
  match m id with
  | some { as := .layer l, .. } => some l
  | _ => none

/-- `find_composition`. -/
def findComposition (m : DocMap) (id : ObjectId) : Option CompositionRecord :=
  match m id with
  | some { as := .composition c, .. } => some c
  | _ => none

/-- The layer-order chunk at a valid id. -/
def findOrderChunk (m : DocMap) (id : ObjectId) : Option LayerOrderChunk :=
  if id.valid then
    match m id with
    | some { as := .orderChunk ch, .. } => some ch
    | _ => none
  else none

/-- The members of a chain of layer-order chunks from a chunk on. -/
def readOrderChain (m : DocMap) : ℕ → ObjectId → Option (List ObjectId)
  | 0, _ => none
  | turns + 1, cur =>
    match m.findOrderChunk cur with
    | none => some []
    | some ch =>
      (m.readOrderChain turns ch.next).map
        ((List.ofFn ch.members).take ch.count.toNat ++ ·)

/-- `read_layer_order`, as a query. -/
def layerOrder (m : DocMap) (turns : ℕ) (c : CompositionRecord) : Option (List ObjectId) :=
  if c.spillRoot.valid then m.readOrderChain turns c.spillRoot
  else some ((List.ofFn c.layers).take c.layerCount.toNat)

/-- `for_each_layer_in`: the members in order. -/
def layersIn (m : DocMap) (turns : ℕ) (composition : ObjectId) : Option (List ObjectId) :=
  match m.findComposition composition with
  | none => some []
  | some c => m.layerOrder turns c

end DocMap

end ArbitraryComposer
