import ArbitraryComposer.Model.Records
import ArbitraryComposer.Pool.Reclamation
import Mathlib.Data.BitVec

/-!
# The Persistent Map of a Document Version

A version maps object ids to records through a trie of counted nodes. A leaf binds one id to the
slot of its record; a branch holds the children selected by a five-bit digit of the id. A change
copies the path to the leaf and shares everything else: every stored slot holds one count on its
target, which the writer takes as it stores the slot.

A local `Ref` of the source is released when its scope ends, on the normal and on the error
exit; here that is `ensuring`. A node that is returned on success is released on the error exit
only, which is `onError`. The recursions carry a bound on the depth; `hamtMaxDepth + 1` levels
are enough for every 64-bit key.

## Main definitions

- `HamtNode`, `Object`, `View`: what the two stores hold.
- `hamtInsert`, `hamtErase`, `hamtLookup`: the operations on versions.
- `collectLeaves`: the walk over all bindings.
-/

namespace ArbitraryComposer

open Exec

/-- `k_hamt_bits`. -/
def hamtBits : ℕ := 5

/-- `k_hamt_arity`. -/
def hamtArity : ℕ := 32

/-- `k_hamt_max_depth`: five-bit digits of a 64-bit key. -/
def hamtMaxDepth : ℕ := 13

/-- The digit of a key at level `l`, at shift `hamtBits * l` of the source. -/
def hamtDigit (key : ObjectId) (l : ℕ) : Fin hamtArity :=
  ⟨(key.toNat >>> (hamtBits * l)) % hamtArity, Nat.mod_lt _ (by decide)⟩

/-- The two typed views of the model's arena. -/
inductive View where
  /-- `RefStore<HamtNode>`. -/
  | nodes
  /-- `RefStore<ObjectRecord>`. -/
  | records
  deriving DecidableEq, Repr

/-- The registered views, in the order of a drain. -/
def drainOrder : List View := [.nodes, .records]

/-- `HamtNode`. -/
structure HamtNode where
  /-- Leaf or branch. -/
  isLeaf : Bool := false
  /-- The id a leaf binds. -/
  key : ObjectId := 0
  /-- The record slot a leaf binds it to. -/
  record : ℕ := 0
  /-- Which children a branch has. -/
  bitmap : BitVec hamtArity := 0
  /-- The child slots of a branch. -/
  children : Fin hamtArity → ℕ := fun _ => 0

/-- The digits whose bit is set, lowest first: the loop over `remaining`. -/
def setDigits (bitmap : BitVec hamtArity) : List (Fin hamtArity) :=
  (List.finRange hamtArity).filter fun d => bitmap.getLsb d

/-- The child of a branch at a digit. -/
def HamtNode.child? (n : HamtNode) (d : Fin hamtArity) : Option ℕ :=
  if n.bitmap.getLsb d then some (n.children d) else none

/-- What `HamtNode::~HamtNode` releases. -/
def HamtNode.edges (n : HamtNode) : List (View × ℕ) :=
  if n.isLeaf then
    [(.records, n.record)]
  else
    (setDigits n.bitmap).map fun d => (.nodes, n.children d)

/-- An object of either view. -/
inductive Object where
  | node (n : HamtNode)
  | record (r : ObjectRecord)

/-- A record owns no slot and is not written again; a node is filled in after its construction. -/
instance : SlabType Object View where
  view
    | .node _ => .nodes
    | .record _ => .records
  edges
    | .node n => n.edges
    | .record _ => []
  immutable
    | .node _ => false
    | .record _ => true

/-- The arena of a model. -/
abbrev Heap : Type := Arena View Object

/-- Programs on the arena of a model. -/
abbrev HeapExec (α : Type) : Type := ArenaExec View Object α

/-- `peek` through the view of nodes. -/
def peekNode (i : ℕ) : HeapExec HamtNode := do
  match ← peek (.nodes, i) with
  | .node n => pure n
  | .record _ => fault .dangling

/-- Write fields of a node in place. -/
def updateNode (i : ℕ) (f : HamtNode → HamtNode) : HeapExec Unit := do
  let n ← peekNode i
  write (.nodes, i) (.node (f n))

/-- Take a count on `r` for an edge that a new node gets. -/
def adopt (r : View × ℕ) (i : ℕ) (f : HamtNode → HamtNode) : HeapExec Unit := do
  retain r
  updateNode i f

/-- Store a child slot. -/
def HamtNode.setChild (n : HamtNode) (d : Fin hamtArity) (child : ℕ) : HamtNode :=
  { n with children := Function.update n.children d child }

/-- Mark a child present. -/
def HamtNode.setBit (n : HamtNode) (d : Fin hamtArity) : HamtNode :=
  { n with bitmap := n.bitmap ||| BitVec.twoPow hamtArity d }

/-- `make_leaf`. -/
def makeLeaf (t : ℕ) (key : ObjectId) (record : ℕ) : HeapExec ℕ := do
  let node ← create t (.node {})
  onError
    (do
      adopt (.records, record) node fun n =>
        { n with isLeaf := true, key := key, record := record }
      pure node)
    (release (.nodes, node))

/-- The loop that shares the children of `base`, which may be null, other than `skip` with a
new node. -/
def shareChildren (base : Option HamtNode) (skip : Fin hamtArity) (node : ℕ) : HeapExec Unit :=
  match base with
  | none => pure ()
  | some base =>
    forEach (setDigits base.bitmap) fun d =>
      if d = skip then
        pure ()
      else
        adopt (.nodes, base.children d) node fun n => (n.setChild d (base.children d)).setBit d

/-- `branch_with_child`. -/
def branchWithChild (t : ℕ) (base : Option HamtNode) (d : Fin hamtArity) (newChild : ℕ) :
    HeapExec ℕ := do
  let node ← create t (.node {})
  onError
    (do
      shareChildren base d node
      -- the slot is stored before its count is taken; only the bit makes it an edge
      updateNode node fun n => n.setChild d newChild
      adopt (.nodes, newChild) node fun n => n.setBit d
      pure node)
    (release (.nodes, node))

/-- `split`. -/
def split (t : ℕ) (existingLeaf : ℕ) (existingKey newKey : ObjectId) (record : ℕ) :
    ℕ → ℕ → HeapExec ℕ
  | 0, _ => fault .depthExceeded
  | fuel + 1, l => do
    let ed := hamtDigit existingKey l
    let nd := hamtDigit newKey l
    if ed = nd then
      let inner ← split t existingLeaf existingKey newKey record fuel (l + 1)
      ensuring (branchWithChild t none ed inner) (release (.nodes, inner))
    else
      let newLeaf ← makeLeaf t newKey record
      ensuring
        (do
          let branch ← branchWithChild t none nd newLeaf
          onError
            (do
              adopt (.nodes, existingLeaf) branch fun n =>
                (n.setChild ed existingLeaf).setBit ed
              pure branch)
            (release (.nodes, branch)))
        (release (.nodes, newLeaf))

/-- `insert_rec`. -/
def insertRec (t : ℕ) (key : ObjectId) (record : ℕ) : ℕ → ℕ → ℕ → HeapExec ℕ
  | 0, _, _ => fault .depthExceeded
  | fuel + 1, nodeSlot, l => do
    let node ← peekNode nodeSlot
    if node.isLeaf then
      if node.key = key then
        makeLeaf t key record
      else
        split t nodeSlot node.key key record (fuel + 1) l
    else
      let d := hamtDigit key l
      if node.bitmap.getLsb d then
        let newChild ← insertRec t key record fuel (node.children d) (l + 1)
        ensuring (branchWithChild t (some node) d newChild) (release (.nodes, newChild))
      else
        let newLeaf ← makeLeaf t key record
        ensuring (branchWithChild t (some node) d newLeaf) (release (.nodes, newLeaf))

/-- `share_node`. -/
def shareNode (i : ℕ) : HeapExec ℕ := do
  retain (.nodes, i)
  pure i

/-- `branch_without_child`. -/
def branchWithoutChild (t : ℕ) (base : HamtNode) (skip : Fin hamtArity) : HeapExec ℕ := do
  let node ← create t (.node {})
  onError
    (do
      shareChildren (some base) skip node
      pure node)
    (release (.nodes, node))

/-- `erase_rec`; `none` is the empty `Ref`. -/
def eraseRec (t : ℕ) (key : ObjectId) : ℕ → ℕ → ℕ → HeapExec (Option ℕ)
  | 0, _, _ => fault .depthExceeded
  | fuel + 1, nodeSlot, l => do
    let node ← peekNode nodeSlot
    if node.isLeaf then
      if node.key = key then
        pure none
      else
        return some (← shareNode nodeSlot)
    else
      let d := hamtDigit key l
      if node.bitmap.getLsb d then
        match ← eraseRec t key fuel (node.children d) (l + 1) with
        | some child =>
          ensuring (do return some (← branchWithChild t (some node) d child))
            (release (.nodes, child))
        | none =>
          match setDigits (node.bitmap &&& ~~~ BitVec.twoPow hamtArity d) with
          | [] => pure none
          | [only] =>
            let sibling ← peekNode (node.children only)
            if sibling.isLeaf then
              return some (← shareNode (node.children only))
            else
              return some (← branchWithoutChild t node d)
          | _ => return some (← branchWithoutChild t node d)
      else
        return some (← shareNode nodeSlot)

/-- `hamt_insert`; `none` is the empty root. -/
def hamtInsert (t : ℕ) (root : Option ℕ) (key : ObjectId) (record : ℕ) : HeapExec ℕ :=
  match root with
  | none => makeLeaf t key record
  | some root => insertRec t key record (hamtMaxDepth + 1) root 0

/-- `hamt_erase`. -/
def hamtErase (t : ℕ) (root : Option ℕ) (key : ObjectId) : HeapExec (Option ℕ) :=
  match root with
  | none => pure none
  | some root => eraseRec t key (hamtMaxDepth + 1) root 0

/-- The loop of `hamt_lookup`. -/
def lookupRec (key : ObjectId) : ℕ → ℕ → ℕ → HeapExec (Option ℕ)
  | 0, _, _ => fault .depthExceeded
  | fuel + 1, cur, l => do
    let n ← peekNode cur
    if n.isLeaf then
      pure (if n.key = key then some n.record else none)
    else if n.bitmap.getLsb (hamtDigit key l) then
      lookupRec key fuel (n.children (hamtDigit key l)) (l + 1)
    else
      pure none

/-- `hamt_lookup`. -/
def hamtLookup (root : Option ℕ) (key : ObjectId) : HeapExec (Option ℕ) :=
  match root with
  | none => pure none
  | some root => lookupRec key (hamtMaxDepth + 1) root 0

/-- `collect_leaves`: the bindings below a node, appended to `out`. -/
def collectLeaves : ℕ → ℕ → List (ObjectId × ℕ) → HeapExec (List (ObjectId × ℕ))
  | 0, _, _ => fault .depthExceeded
  | fuel + 1, nodeSlot, out => do
    let n ← peekNode nodeSlot
    if n.isLeaf then
      pure (out ++ [(n.key, n.record)])
    else
      (setDigits n.bitmap).foldlM (fun out d => collectLeaves fuel (n.children d) out) out

/-- The walk over all bindings of a version. -/
def leafWalk (root : Option ℕ) : HeapExec (List (ObjectId × ℕ)) :=
  match root with
  | none => pure []
  | some root => collectLeaves (hamtMaxDepth + 1) root []

end ArbitraryComposer
