import OffsideCss.Sheet

/-! Sheets in place.  A node is appended by changing the sheet step by step, first the nodes and then
one list of children, and the nodes of a sheet can be visited one at a time, with those that are still
to be visited on a stack. -/

namespace OffsideCss.Sheet

/-- Appends to a sheet in place, and answers the number of the new node.  There is no answer when
`parent` is not in the sheet.  What was changed before a refusal would stay changed. -/
def appendInPlace (parent : Option NodeId) (entry : Entry) :
    ExceptT AppendError (StateT Sheet Option) NodeId := do
  if let some id := parent then
    let owner ← Sheet.entry? (← get) id
    unless owner.node.item.kind.isContainer do throw (.leafParent owner.node.item.kind)
  let id := (← get).size
  let entry := { entry with parent, children := [] }
  modify fun s => { s with entries := s.entries ++ [entry] }
  match parent with
  | none => modify fun s => { s with top := s.top ++ [id] }
  | some p =>
    let owner ← Sheet.entry? (← get) p
    modify fun s => { s with
      entries := s.entries.set p { owner with children := owner.children ++ [id] } }
  return id

/-- The next node of a visit, which is the first of those on the stack, and the stack behind it: its
children take its place. -/
def visitNext? (s : Sheet) : List NodeId → Option (NodeId × List NodeId)
  | [] => none
  | id :: stack => (s.entry? id).map fun e => (id, e.children ++ stack)

end OffsideCss.Sheet
