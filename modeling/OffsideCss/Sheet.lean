import OffsideCss.Node

/-! Sheets.  A sheet numbers its nodes in the order in which they were appended, and keeps for each
its parent and its children; only appending makes a new node, so a child always has a larger number
than its parent.  Document order is another matter: `outline` lists the nodes in it, each with its
depth. -/

namespace OffsideCss

/-- The number of a node in its sheet. -/
abbrev NodeId := Nat

/-- A node at its place in a sheet. -/
structure Entry where
  node : Node
  /-- The containing node, or `none` at the top. -/
  parent : Option NodeId
  /-- The contained nodes, in document order. -/
  children : List NodeId
deriving DecidableEq, Repr

/-- A node that was not in a sheet yet. -/
abbrev Entry.detached (node : Node) : Entry := ⟨node, none, []⟩

/-- Where a sheet was read. -/
structure Origin where
  name : String
  start : Position
  /-- The position of the last character that is not blank, if there is one. -/
  stop : Option Position
deriving DecidableEq, Repr

/-- A style sheet. -/
structure Sheet where
  /-- The nodes by number. -/
  entries : List Entry := []
  /-- The nodes at the top, in document order. -/
  top : List NodeId := []
  /-- The text behind the last node. -/
  after : Text := []
  /-- The indentation of one level, as the first indented node has it. -/
  indent : Option Text := none
  origin : Option Origin := none
deriving DecidableEq, Repr

/-- Why a node cannot be appended. -/
inductive AppendError where
  | unknownParent (id : NodeId)
  | leafParent (kind : NodeKind)
deriving DecidableEq, Repr

def AppendError.message : AppendError → String
  | unknownParent id => "there is no node " ++ toString id
  | leafParent kind => "a " ++ kind.name ++ " cannot have children"

namespace Sheet

def empty : Sheet := {}

def size (s : Sheet) : Nat := s.entries.length

def entry? (s : Sheet) (id : NodeId) : Option Entry := s.entries[id]?

/-- The children of a node, or the nodes at the top for `none`. -/
def children? (s : Sheet) : Option NodeId → Option (List NodeId)
  | none => some s.top
  | some id => (s.entry? id).map (·.children)

/-- The last child of a node, or the last node at the top for `none`. -/
def lastChild? (s : Sheet) (parent : Option NodeId) : Option NodeId :=
  (s.children? parent).bind (·.getLast?)

/-- Whether the node of that number can hold other nodes. -/
def isContainer (s : Sheet) (id : NodeId) : Bool :=
  (s.entry? id).any (·.node.item.kind.isContainer)

/-- Adds a node behind the last child of `parent`, or at the end of the top for `none`.  Its number
is the size of the sheet so far.  A node that was copied from a place in a sheet still has the parent
and the children of that place, which it loses here. -/
def append (s : Sheet) (parent : Option NodeId) (entry : Entry) : Except AppendError Sheet :=
  let entry := { entry with parent, children := [] }
  match parent with
  | none => .ok { s with entries := s.entries ++ [entry], top := s.top ++ [s.size] }
  | some id =>
    match s.entry? id with
    | none => .error (.unknownParent id)
    | some owner =>
      if owner.node.item.kind.isContainer then
        let owner := { owner with children := owner.children ++ [s.size] }
        .ok { s with entries := s.entries.set id owner ++ [entry] }
      else .error (.leafParent owner.node.item.kind)

/-- Puts a node in the place of the one with that number; parent and children stay. -/
def setNode (s : Sheet) (id : NodeId) (node : Node) : Sheet :=
  { s with entries := s.entries.modify id fun e => { e with node } }

/-- The number of nodes above a node, of which at most `fuel` are counted. -/
def depthFrom (s : Sheet) : Nat → NodeId → Nat
  | 0, _ => 0
  | fuel + 1, id =>
    match (s.entry? id).bind (·.parent) with
    | none => 0
    | some parent => s.depthFrom fuel parent + 1

/-- The number of nodes above a node.  No chain of parents is longer than the sheet is large. -/
def depth (s : Sheet) (id : NodeId) : Nat := s.depthFrom s.size id

/-- A node as it is met in document order. -/
structure Visit where
  /-- The number of nodes above it. -/
  depth : Nat
  id : NodeId
  node : Node
deriving DecidableEq, Repr

/-- The nodes `ids` at `depth`, each followed by the nodes below it, down to `fuel` levels. -/
def outlineFrom (s : Sheet) : (fuel depth : Nat) → List NodeId → List Visit
  | 0, _, _ => []
  | fuel + 1, depth, ids => ids.flatMap fun id =>
    match s.entry? id with
    | none => []
    | some e => ⟨depth, id, e.node⟩ :: s.outlineFrom fuel (depth + 1) e.children

/-- The nodes in document order.  No node lies deeper than the sheet is large. -/
def outline (s : Sheet) : List Visit := s.outlineFrom s.size 0 s.top

end Sheet

end OffsideCss
