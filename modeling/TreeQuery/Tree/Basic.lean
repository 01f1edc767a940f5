/-!
# Arena trees

Nodes kept in an array and addressed by index, node 0 the root. `appendChild` refuses anything
that would break the tree, and walks are bounded by the number of nodes.
-/

namespace TreeQuery

/-- Named string properties, kept in ascending name order with one entry per name. -/
structure Properties where
  entries : List (String × String) := []
deriving DecidableEq, Repr

namespace Properties

def insertSorted (name value : String) : List (String × String) → List (String × String)
  | [] => [(name, value)]
  | (k, v) :: rest =>
    if name < k then (name, value) :: (k, v) :: rest
    else if name = k then (name, value) :: rest
    else (k, v) :: insertSorted name value rest

def insert (p : Properties) (name value : String) : Properties := ⟨insertSorted name value p.entries⟩

def erase (p : Properties) (name : String) : Properties := ⟨p.entries.filter fun e => e.1 != name⟩

def get? (p : Properties) (name : String) : Option String :=
  (p.entries.find? fun e => e.1 == name).map Prod.snd

def contains (p : Properties) (name : String) : Bool := (p.get? name).isSome

def getD (p : Properties) (name : String) : String := (p.get? name).getD ""

end Properties

/-- What a node holds: its id, its types (the primary type first) and its properties. -/
structure NodeData where
  id : String := ""
  types : List String
  properties : Properties := {}
deriving DecidableEq, Repr

def NodeData.typeName (d : NodeData) : String := d.types.headD ""

def NodeData.label (d : NodeData) : String :=
  if d.id.isEmpty then d.typeName else d.typeName ++ "#" ++ d.id

structure Node where
  data : NodeData
  parent : Option Nat := none
  children : Array Nat := #[]
  position : Nat := 0
deriving Repr

/-- An arena tree. -/
structure Tree where
  nodes : Array Node
deriving Repr

namespace Tree

def new (root : NodeData) : Tree := ⟨#[{ data := root }]⟩

def size (t : Tree) : Nat := t.nodes.size

def get? (t : Tree) (id : Nat) : Option Node := t.nodes[id]?

def data (t : Tree) (id : Nat) : NodeData := ((t.get? id).map Node.data).getD { types := [] }

def parent (t : Tree) (id : Nat) : Option Nat := (t.get? id).bind Node.parent

def children (t : Tree) (id : Nat) : List Nat := ((t.get? id).map fun n => n.children.toList).getD []

def position (t : Tree) (id : Nat) : Nat := ((t.get? id).map Node.position).getD 0

def alloc (t : Tree) (data : NodeData) : Tree × Nat := (⟨t.nodes.push { data := data }⟩, t.size)

def climb (t : Tree) : Nat → Option Nat → List Nat
  | 0, _ => []
  | _ + 1, none => []
  | fuel + 1, some p => p :: climb t fuel (t.parent p)

def ancestors (t : Tree) (id : Nat) : List Nat := t.climb t.size (t.parent id)

def attachable (t : Tree) (parent child : Nat) : Bool :=
  parent < t.size && child != 0 && (t.parent child).isNone && child != parent &&
    !(t.ancestors parent).contains child && child < t.size

/-- Attach a detached node as the last child of another; refused attachments change nothing. -/
def appendChild (t : Tree) (parent child : Nat) : Tree :=
  if t.attachable parent child then
    let position := (t.children parent).length
    let nodes := t.nodes.modify parent fun n => { n with children := n.children.push child }
    ⟨nodes.modify child fun n => { n with parent := some parent, position := position }⟩
  else t

/-- Allocate a node and attach it under `parent`; it stays detached if that is refused. -/
def append (t : Tree) (parent : Nat) (data : NodeData) : Tree × Nat :=
  let (t, id) := t.alloc data
  (t.appendChild parent id, id)

/-- The sibling at an offset from a node; the root and detached nodes have none. -/
def sibling (t : Tree) (id : Nat) (offset : Int) : Option Nat :=
  match t.get? id with
  | none => none
  | some node =>
    let target : Int := node.position + offset
    if target < 0 then none
    else node.parent.bind fun p => (t.children p)[target.toNat]?

/-- The siblings met stepping `offset` at a time from `start` on, at most `fuel` of them. -/
def siblingWalk (t : Tree) (offset : Int) : Nat → Option Nat → List Nat
  | 0, _ => []
  | _ + 1, none => []
  | fuel + 1, some s => s :: t.siblingWalk offset fuel (t.sibling s offset)

def siblingsBefore (t : Tree) (id : Nat) : List Nat := t.siblingWalk (-1) t.size (t.sibling id (-1))

def siblingsAfter (t : Tree) (id : Nat) : List Nat := t.siblingWalk 1 t.size (t.sibling id 1)

def subtreeWithin (t : Tree) : Nat → Nat → List Nat
  | 0, _ => []
  | fuel + 1, id => id :: (t.children id).flatMap (t.subtreeWithin fuel)

/-- The nodes of a subtree in pre-order: the node, then each child's subtree in order. -/
def subtree (t : Tree) (id : Nat) : List Nat := t.subtreeWithin t.size id

def descendants (t : Tree) (id : Nat) : List Nat := (t.subtree id).drop 1

/-- Pre-order by a stack of pending nodes: take the top, put its children on the stack with
the first on top. At most `fuel` nodes are taken. -/
def preorderFrom (t : Tree) : Nat → List Nat → List Nat
  | 0, _ => []
  | _ + 1, [] => []
  | fuel + 1, id :: stack => id :: t.preorderFrom fuel (t.children id ++ stack)

def preorder (t : Tree) : List Nat := t.preorderFrom t.size [0]

/-- The labels from the top of a node's ancestor chain down to the node, joined by ` > `;
empty for an unknown id. -/
def path (t : Tree) (id : Nat) : String :=
  let chain := (id :: t.ancestors id).filterMap fun n => (t.get? n).map fun node => node.data.label
  " > ".intercalate chain.reverse

def updateData (t : Tree) (id : Nat) (f : NodeData → NodeData) : Option Tree :=
  if id < t.size then some ⟨t.nodes.modify id fun n => { n with data := f n.data }⟩ else none

end Tree

end TreeQuery
