import OffsideCss.Line

/-! Statements.  A statement is a line together with the lines that continue it, and the kind of node
that it becomes.  A line with a colon is a rule when a line with a colon is nested in it, and a
declaration otherwise.  Grouping needs no more than the shapes and widths of the lines. -/

namespace OffsideCss

/-- The lines of one node. -/
structure Statement where
  kind : NodeKind
  first : Line
  /-- The lines that continue the first one. -/
  more : List Line
deriving DecidableEq, Repr

namespace Line

/-- Whether the next of the following lines that is no comment is deeper and reads as a
declaration. -/
def nestsDeclaration (l : Line) (following : List Line) : Bool :=
  (following.find? fun next => !next.isComment).any fun next =>
    !next.isAtRule && next.hasColon && l.width < next.width

/-- The kind of the statement that a line begins, given the lines that follow it. -/
def kind (l : Line) (following : List Line) : NodeKind :=
  if l.isComment then .comment
  else if l.isAtRule then .atRule
  else if l.hasColon && !l.nestsDeclaration following then .declaration
  else .rule

end Line

namespace Statement

/-- The last line of a statement so far. -/
def lastLine (s : Statement) : Line := s.more.getLast?.getD s.first

/-- Whether the next line continues a statement.  A comma continues an at-rule or a rule; a plain
line continues a rule of its width and a declaration less wide. -/
def continuesWith (s : Statement) (next : Line) : Bool :=
  match s.kind with
  | .comment => false
  | .atRule => s.lastLine.endsWithComma
  | .rule => s.lastLine.endsWithComma || (next.width = s.first.width && next.isPlain)
  | .declaration => s.first.width < next.width && next.isPlain

/-- The statements of a list of lines behind the lines of `current`. -/
def groupFrom (current : Statement) : List Line → List Statement
  | [] => [current]
  | next :: rest =>
    if current.continuesWith next then
      groupFrom { current with more := current.more ++ [next] } rest
    else current :: groupFrom ⟨next.kind rest, next, []⟩ rest

def group : List Line → List Statement
  | [] => []
  | first :: rest => groupFrom ⟨first.kind rest, first, []⟩ rest

def lines (s : Statement) : List Line := s.first :: s.more

/-- The tokens behind the first one, where a joint stands for the whitespace between two lines. -/
def rest (s : Statement) : List Token :=
  s.first.tail ++ s.more.flatMap fun l => l.joint :: l.tokens

def tokens (s : Statement) : List Token := s.first.head :: s.rest

/-- Where the first token starts. -/
def place (s : Statement) : Place := s.first.place.after s.first.indent

/-- Grouping neither drops a line nor moves one. -/
theorem flatMap_lines_groupFrom (current : Statement) (ls : List Line) :
    (groupFrom current ls).flatMap lines = current.lines ++ ls := by
  induction ls generalizing current with
  | nil => simp [groupFrom]
  | cons next rest ih =>
    rw [groupFrom]
    split
    · rw [ih]
      simp [lines]
    · rw [List.flatMap_cons, ih]
      rfl

theorem flatMap_lines_group (ls : List Line) : (group ls).flatMap lines = ls := by
  cases ls with
  | nil => rfl
  | cons first rest => exact flatMap_lines_groupFrom _ rest

end Statement

end OffsideCss
