import PagedHeap.Ident
import PagedHeap.SortedMap

/-!
# Recency

The cached pages in the order of their last use, as a doubly linked list.  The links are indices
into an array of nodes; an index map finds the node of a page, and the indices of removed nodes
are kept to be used again.  So a page is touched, or removed, without a search.
-/

namespace PagedHeap

structure Node where
  page : PageId
  /-- The neighbour used more recently. -/
  newer : Option Nat
  /-- The neighbour used less recently. -/
  older : Option Nat
  deriving DecidableEq

structure Recency where
  nodes : Array Node
  /-- The indices of removed nodes. -/
  spare : List Nat
  index : SortedMap PageId Nat
  newest : Option Nat
  oldest : Option Nat

namespace Recency

def empty : Recency := ⟨#[], [], ∅, none, none⟩

instance : EmptyCollection Recency := ⟨empty⟩

def size (r : Recency) : Nat :=
  r.index.size

def isEmpty (r : Recency) : Bool :=
  r.index.isEmpty

def setNewer (r : Recency) (i : Nat) (link : Option Nat) : Recency :=
  { r with nodes := r.nodes.modify i fun n => { n with newer := link } }

def setOlder (r : Recency) (i : Nat) (link : Option Nat) : Recency :=
  { r with nodes := r.nodes.modify i fun n => { n with older := link } }

/-- Links a node in before the newest one. -/
def linkNewest (r : Recency) (i : Nat) : Recency :=
  let r := (r.setNewer i none).setOlder i r.newest
  let r := match r.newest with
    | some j => r.setNewer j (some i)
    | none => { r with oldest := some i }
  { r with newest := some i }

/-- Takes a node out of the list and joins its neighbours. -/
def unlink (r : Recency) (i : Nat) : Recency :=
  match r.nodes[i]? with
  | none => r
  | some node =>
    let r := match node.newer with
      | some j => r.setOlder j node.older
      | none => { r with newest := node.older }
    let r := match node.older with
      | some j => r.setNewer j node.newer
      | none => { r with oldest := node.newer }
    (r.setNewer i none).setOlder i none

/-- Stores an unlinked node for a page, at a spare index if there is one. -/
def allocate (r : Recency) (page : PageId) : Nat × Recency :=
  let node : Node := ⟨page, none, none⟩
  match r.spare with
  | i :: rest => (i, { r with nodes := r.nodes.setIfInBounds i node, spare := rest })
  | [] => (r.nodes.size, { r with nodes := r.nodes.push node })

/-- Makes a page the most recently used one, adding it if it is new. -/
def touch (r : Recency) (page : PageId) : Recency :=
  match r.index.get? page with
  | some i => if r.newest = some i then r else (r.unlink i).linkNewest i
  | none =>
    let (i, r) := r.allocate page
    { r with index := r.index.insert page i }.linkNewest i

def remove (r : Recency) (page : PageId) : Bool × Recency :=
  match r.index.get? page with
  | none => (false, r)
  | some i =>
    let r := { r with index := r.index.erase page }.unlink i
    (true, { r with spare := i :: r.spare })

def newest? (r : Recency) : Option PageId := do
  let i ← r.newest
  let node ← r.nodes[i]?
  return node.page

/-- The pages met by following a link; `none` if the links leave the array or meet more than
`steps` nodes. -/
def trail (nodes : Array Node) (link : Node → Option Nat) : Nat → Option Nat → Option (List PageId)
  | _, none => some []
  | 0, some _ => none
  | steps + 1, some i => do
    let node ← nodes[i]?
    let rest ← trail nodes link steps (link node)
    return node.page :: rest

/-- The pages from the least to the most recently used. -/
def toList (r : Recency) : List PageId :=
  (trail r.nodes Node.newer r.nodes.size r.oldest).getD []

end Recency

end PagedHeap
