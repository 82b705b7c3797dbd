import OffsideCss.Indentation
import OffsideCss.Statement.Reading
import OffsideCss.Token.Scan

/-! Reading a text as a sheet.  The statements are taken in order: the indentation of a statement
tells which node holds it, and its tokens tell what it is. -/

namespace OffsideCss

/-- A sheet that is being read. -/
structure Draft where
  sheet : Sheet := {}
  indentation : Indentation := {}
deriving DecidableEq, Repr

namespace Draft

/-- The node that holds what is nested in the last node at the innermost level: that node if it can
hold others, and otherwise the one that holds it. -/
def owner (d : Draft) : Option NodeId :=
  let current := d.indentation.innermost.container
  match d.sheet.lastChild? current with
  | some last => if d.sheet.isContainer last then some last else current
  | none => current

/-- The draft after the indentation of a line: the node that holds the line is then the container of
the innermost level. -/
def enter (d : Draft) (l : Line) : Except Fault Draft :=
  match d.indentation.enter l.indent with
  | .error fault => .error ⟨fault.cause, l.place.after fault.before, fault.text⟩
  | .ok (.deeper first, indentation) =>
    let indentation := indentation.openLevel ⟨l.width, d.owner⟩
    let sheet := if first then { d.sheet with indent := some l.indent } else d.sheet
    .ok { sheet, indentation }
  | .ok (_, indentation) => .ok { d with indentation }

/-- The draft with one more statement. -/
def add (d : Draft) (s : Statement) : Except Fault Draft := do
  let d ← d.enter s.first
  let node ← s.node
  match d.sheet.append d.indentation.innermost.container (.detached node) with
  | .ok sheet => return { d with sheet }
  | .error error => throw ⟨.unattachable error, s.place, s.first.head.text⟩

end Draft

namespace Sheet

/-- Reads the input of that name, or gives the first fault in it. -/
def read (name : String) (source : Text) : Except Fault Sheet := do
  let (lines, after) ← Line.ofTokens (Token.scan source)
  let draft ← (Statement.group lines).foldlM Draft.add {}
  let content := source.trimEnd
  let stop := if content = [] then none else some (Position.first.last content)
  return { draft.sheet with after, origin := some ⟨name, .first, stop⟩ }

/-- Reads the input of that name. -/
def parse (name : String) (source : Text) : Except ParseError Sheet :=
  match read name source with
  | .ok sheet => .ok sheet
  | .error fault => .error (fault.toError name)

/-- The name of an input that has none. -/
def defaultName : String := "<css input>"

end Sheet

end OffsideCss
