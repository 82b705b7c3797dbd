import OffsideCss.Text.Position

/-! The nodes of a sheet.  A node has a meaning, such as a property and its value, and a spelling: the
blanks and comments around the meaning in the text it was read from.  Every part of the spelling is
optional, and a node without one is written in the canonical way. -/

namespace OffsideCss

/-- The four kinds of node. -/
inductive NodeKind where
  | atRule
  | rule
  | declaration
  | comment
deriving DecidableEq, Repr

namespace NodeKind

/-- At-rules and rules hold other nodes; declarations and comments are leaves. -/
def isContainer : NodeKind → Bool
  | atRule | rule => true
  | declaration | comment => false

def name : NodeKind → String
  | atRule => "atrule"
  | rule => "rule"
  | declaration => "decl"
  | comment => "comment"

end NodeKind

/-- The literal text that a field was read from, kept where it differs from the field. -/
structure Literal where
  /-- The field as it was read. -/
  value : Text
  /-- The text it was read from, with comments and outer blanks. -/
  text : Text
deriving DecidableEq, Repr

/-- The text to write for a field: the literal one, unless the field was changed since. -/
def Literal.resolve (literal : Option Literal) (field : Text) : Text :=
  match literal with
  | some l => if l.value = field then l.text else field
  | none => field

/-- `@name params`. -/
structure AtRule where
  name : Text
  params : Text
  /-- The whitespace between name and parameters. -/
  afterName : Option Text := none
  paramsLiteral : Option Literal := none
  /-- The whitespace behind the header. -/
  trailing : Option Text := none
deriving DecidableEq, Repr

/-- The selector of a rule. -/
structure Rule where
  selector : Text
  selectorLiteral : Option Literal := none
  /-- The whitespace behind the selector. -/
  trailing : Option Text := none
deriving DecidableEq, Repr

/-- `property: value`. -/
structure Declaration where
  property : Text
  value : Text
  /-- What stands between property and value: the colon and the whitespace and comments around it. -/
  between : Option Text := none
  valueLiteral : Option Literal := none
deriving DecidableEq, Repr

/-- The two ways to write a comment. -/
inductive CommentForm where
  /-- Two slashes, up to the end of the line. -/
  | line
  /-- Slash and star, up to star and slash. -/
  | block
deriving DecidableEq, Repr

/-- A comment on a line of its own. -/
structure Comment where
  text : Text
  form : CommentForm
  /-- The blanks between the opening and the text. -/
  left : Option Text := none
  /-- The blanks behind the text. -/
  right : Option Text := none
  /-- The whitespace behind the closing of a block comment. -/
  trailing : Option Text := none
deriving DecidableEq, Repr

/-- What a node is. -/
inductive Item where
  | atRule (a : AtRule)
  | rule (r : Rule)
  | declaration (d : Declaration)
  | comment (c : Comment)
deriving DecidableEq, Repr

def Item.kind : Item → NodeKind
  | atRule _ => .atRule
  | rule _ => .rule
  | declaration _ => .declaration
  | comment _ => .comment

/-- Where a node was read. -/
structure Source where
  start : Position
  /-- The position of the last character of its content. -/
  stop : Position
deriving DecidableEq, Repr

/-- An item together with its surroundings in the text it was read from. -/
structure Node where
  item : Item
  /-- The text between the node before and this one: line breaks, blank lines, and indentation. -/
  before : Option Text := none
  source : Option Source := none
deriving DecidableEq, Repr

end OffsideCss
