import OffsideCss.Sheet

/-! Changing nodes.  An edit names one field and its new content.  It applies to the nodes that have
that field: each kind of item has its own, and every node has the text before it and its source. -/

namespace OffsideCss

/-- A field of a node and its new content. -/
inductive Edit where
  | name (t : Text)
  | params (t : Text)
  | afterName (t : Option Text)
  | paramsLiteral (l : Option Literal)
  | selector (t : Text)
  | selectorLiteral (l : Option Literal)
  | property (t : Text)
  | value (t : Text)
  | between (t : Option Text)
  | valueLiteral (l : Option Literal)
  | text (t : Text)
  | form (f : CommentForm)
  | left (t : Option Text)
  | right (t : Option Text)
  | trailing (t : Option Text)
  | before (t : Option Text)
  | source (s : Option Source)
deriving DecidableEq, Repr

namespace AtRule

def edit? (a : AtRule) : Edit → Option AtRule
  | .name t => some { a with name := t }
  | .params t => some { a with params := t }
  | .afterName t => some { a with afterName := t }
  | .paramsLiteral l => some { a with paramsLiteral := l }
  | .trailing t => some { a with trailing := t }
  | _ => none

end AtRule

namespace Rule

def edit? (r : Rule) : Edit → Option Rule
  | .selector t => some { r with selector := t }
  | .selectorLiteral l => some { r with selectorLiteral := l }
  | .trailing t => some { r with trailing := t }
  | _ => none

end Rule

namespace Declaration

def edit? (d : Declaration) : Edit → Option Declaration
  | .property t => some { d with property := t }
  | .value t => some { d with value := t }
  | .between t => some { d with between := t }
  | .valueLiteral l => some { d with valueLiteral := l }
  | _ => none

end Declaration

namespace Comment

def edit? (c : Comment) : Edit → Option Comment
  | .text t => some { c with text := t }
  | .form f => some { c with form := f }
  | .left t => some { c with left := t }
  | .right t => some { c with right := t }
  | .trailing t => some { c with trailing := t }
  | _ => none

end Comment

/-- An item with one field changed, if it has the field. -/
def Item.edit? (e : Edit) : Item → Option Item
  | .atRule a => (a.edit? e).map .atRule
  | .rule r => (r.edit? e).map .rule
  | .declaration d => (d.edit? e).map .declaration
  | .comment c => (c.edit? e).map .comment

/-- A node with one field changed, if it has the field. -/
def Node.edit? (n : Node) : Edit → Option Node
  | .before t => some { n with before := t }
  | .source s => some { n with source := s }
  | e => (n.item.edit? e).map fun item => { n with item }

end OffsideCss
