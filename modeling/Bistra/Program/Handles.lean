import Bistra.Library.Links

/-! # Handles and the nodes that they own

`ASTHandle` of `UseDef.h`, and the operations of `Scope` and what they do to `body_`.  A vector of
handles is the list of the addresses of its elements.  Inserting shifts the elements behind the new
one by moving them, and moves all of them to new addresses when the vector is full; `grow` is the
capacity that it gets then, which the language leaves open.  A use of memory that is gone, a failed
assertion, and a destructor that does not come to an end have no result.
-/

namespace Bistra

/-- The address of a handle. -/
abbrev HandleId := Nat

/-- The address of a node. -/
abbrev NodeId := Nat

/-- The handles and the nodes in memory: `ref_` and `parent_` of the handles, `user_` of the nodes,
and the handles in the nodes, those in `body_` apart from the other members.  The handles from
`next` on do not exist yet. -/
structure Heap extends Links HandleId NodeId where
  parent : HandleId → Option NodeId
  body : NodeId → List HandleId
  capacity : NodeId → Nat
  operands : NodeId → List HandleId
  alive : NodeId → Bool
  next : HandleId

namespace Heap

/-! ## `ASTHandle` -/

def setReference (heap : Heap) (h : HandleId) (ref : Option NodeId) : Heap :=
  { heap with toLinks := heap.attach h ref }

/-- `ASTHandle(ref, owner)`, at the next address. -/
def construct (heap : Heap) (ref owner : Option NodeId) : Heap :=
  setReference { heap with
    ref := Function.update heap.ref heap.next none
    parent := Function.update heap.parent heap.next owner
    next := heap.next + 1 } heap.next ref

/-- `ASTHandle(std::move(other))`, at the next address. -/
def moveConstruct (heap : Heap) (other : HandleId) : Heap :=
  heap.construct (heap.ref other) (heap.parent other)

/-- `operator=(std::move(other))`. -/
def moveAssign (heap : Heap) (h other : HandleId) : Heap :=
  setReference { heap with parent := Function.update heap.parent h (heap.parent other) } h
    (heap.ref other)

def verify (heap : Heap) (h : HandleId) : Bool :=
  match heap.ref h with
  | none => true
  | some ref => heap.owner ref = some h

def get (heap : Heap) (h : HandleId) : Option (Option NodeId) :=
  if heap.verify h then some (heap.ref h) else none

def take (heap : Heap) (h : HandleId) : Option (Heap × Option NodeId) := do
  let old ← heap.get h
  return (heap.setReference h none, old)

/-- `getParent` of a node. -/
def getParent (heap : Heap) (n : NodeId) : Option NodeId := (heap.owner n).bind heap.parent

/-- `~ASTHandle`. -/
def destroy (delete : Heap → NodeId → Option Heap) (heap : Heap) (h : HandleId) : Option Heap :=
  match heap.ref h with
  | none => some heap
  | some ref =>
    delete { heap with
      ref := Function.update heap.ref h none
      owner := Function.update heap.owner ref none } ref

/-- `delete` of a node, for nodes that are nested at most `depth` deep: the handles in it are
destroyed, and it is gone. -/
def delete : Nat → Heap → NodeId → Option Heap
  | 0, _, _ => none
  | depth + 1, heap, n =>
    if heap.alive n then do
      let heap ← (heap.body n ++ heap.operands n).foldlM (destroy (delete depth)) heap
      return { heap with
        body := Function.update heap.body n []
        operands := Function.update heap.operands n []
        alive := Function.update heap.alive n false }
    else none

/-! ## `std::vector<StmtHandle>` -/

/-- Moves the elements to new storage. -/
def relocate (heap : Heap) : List HandleId → Heap
  | [] => heap
  | h :: hs => (heap.moveConstruct h).relocate hs

/-- `std::move_backward`, on the list from the last element on: each one is assigned from the one
that follows in the list. -/
def moveBackward (heap : Heap) : List HandleId → Heap
  | h :: other :: hs => (heap.moveAssign h other).moveBackward (other :: hs)
  | _ => heap

/-- `std::remove_if` of the empty handles: the places that are free come first. -/
def removeIf (heap : Heap) (free : List HandleId) : List HandleId → Option (Heap × List HandleId)
  | [] => some (heap, [])
  | h :: hs => do
    match ← heap.get h, free with
    | none, _ => heap.removeIf (free ++ [h]) hs
    | some _, [] =>
      let rest ← heap.removeIf [] hs
      return (rest.1, h :: rest.2)
    | some _, result :: free =>
      let rest ← (heap.moveAssign result h).removeIf (free ++ [h]) hs
      return (rest.1, result :: rest.2)

section Scope

variable (grow : Nat → Nat) (depth : Nat)

def emplace (heap : Heap) (S : NodeId) (pos : Nat) (s : Option NodeId) : Option Heap :=
  let body := heap.body S
  let made := heap.construct s (some S)
  if body.length = heap.capacity S then do
    -- The new element is there before the others are moved.
    let moved := (made.relocate (body.take pos)).relocate (body.drop pos)
    let fresh := List.range' made.next body.length
    let moved ← body.foldlM (destroy (delete depth)) moved
    return { moved with
      body := Function.update moved.body S (fresh.take pos ++ heap.next :: fresh.drop pos)
      capacity := Function.update moved.capacity S (grow body.length) }
  else
    match (body.drop pos).reverse with
    | [] => some { made with body := Function.update made.body S (body ++ [heap.next]) }
    | last :: front => do
      -- The new element is made in a temporary, and the ones behind it are shifted.
      let moved := (made.moveConstruct last).moveBackward (last :: front ++ [heap.next])
      let moved ← moved.destroy (delete depth) heap.next
      return { moved with body := Function.update moved.body S (body ++ [made.next]) }

/-- `body_.erase(std::remove_if(..), body_.end())`. -/
def eraseEmpty (heap : Heap) (S : NodeId) : Option Heap := do
  let kept ← heap.removeIf [] (heap.body S)
  let heap ← ((heap.body S).drop kept.2.length).foldlM (destroy (delete depth)) kept.1
  return { heap with body := Function.update heap.body S kept.2 }

/-! ## `Scope` -/

def clear (heap : Heap) (S : NodeId) : Option Heap := do
  guard (heap.alive S)
  let heap := (heap.body S).foldl (fun heap h => heap.setReference h none) heap
  let heap ← (heap.body S).foldlM (destroy (delete depth)) heap
  return { heap with body := Function.update heap.body S [] }

/-- A round of the loop of `takeContent`. -/
def takeStmt (S : NodeId) (heap : Heap) (h : HandleId) : Option Heap := do
  let stms ← heap.get h
  let heap := heap.setReference h none
  heap.emplace grow depth S (heap.body S).length stms

def takeContent (heap : Heap) (S other : NodeId) : Option Heap := do
  guard (heap.alive S && heap.alive other && S ≠ other)
  let heap ← (heap.body other).foldlM (takeStmt grow depth S) heap
  heap.clear depth other

def addStmt (heap : Heap) (S s : NodeId) : Option Heap := do
  guard (heap.alive S && heap.alive s)
  heap.emplace grow depth S (heap.body S).length (some s)

/-- A round of the loop of `removeStmt`. -/
def unregister (s : NodeId) (heap : Heap) (h : HandleId) : Option Heap := do
  if (← heap.get h) = some s then return heap.setReference h none else return heap

def removeStmt (heap : Heap) (S s : NodeId) : Option Heap := do
  guard (heap.alive S)
  let heap ← (heap.body S).foldlM (unregister s) heap
  heap.eraseEmpty depth S

/-- A round of the loop of `replaceStmt`. -/
def replaceIn (S newS oldS : NodeId) (heap : Heap) (h : HandleId) : Option Heap := do
  guard (heap.alive S)
  if (← heap.get h) = some oldS then (heap.setReference h (some newS)).delete depth oldS
  else return heap

def replaceStmt (heap : Heap) (S newS oldS : NodeId) : Option Heap := do
  guard (heap.alive S && heap.alive newS && heap.alive oldS)
  -- Old stmt not in this scope.
  guard (heap.getParent oldS = some S)
  let heap ← (heap.body S).foldlM (replaceIn depth S newS oldS) heap
  -- New stmt not in this scope.
  guard (heap.alive newS && heap.getParent newS = some S)
  return heap

/-- `std::find` in the body. -/
def find (heap : Heap) (S where_ : NodeId) : Option Nat :=
  (heap.body S).findIdx? fun h => heap.ref h = some where_

def insertBeforeStmt (heap : Heap) (S s where_ : NodeId) : Option Heap := do
  guard (heap.alive S && heap.alive s)
  let pos ← heap.find S where_
  heap.emplace grow depth S pos (some s)

def insertAfterStmt (heap : Heap) (S s where_ : NodeId) : Option Heap := do
  guard (heap.alive S && heap.alive s)
  let pos ← heap.find S where_
  heap.emplace grow depth S (pos + 1) (some s)

end Scope

end Heap

end Bistra
