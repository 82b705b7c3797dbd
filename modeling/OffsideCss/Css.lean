import OffsideCss.Sheet

/-! Compiling a sheet to CSS with braces and semicolons.  The compiled text is a list of lines, each
indented by its depth; how the sheet was spelled plays no part. -/

namespace OffsideCss

namespace Css

def indent (depth : Nat) : Text := List.replicate (4 * depth) ' '

/-- A block with a header around the lines inside it. -/
def block (depth : Nat) (header : Text) (inside : List Text) : List Text :=
  (indent depth ++ header ++ [' ', '\x7b']) :: inside ++ [indent depth ++ ['\x7d']]

/-- The lines of an item whose children have the lines in `inside`.  Without children an at-rule is
a statement and a rule an empty block. -/
def itemLines (depth : Nat) (isLeaf : Bool) (inside : List Text) : Item → List Text
  | .declaration d => [indent depth ++ d.property ++ [':', ' '] ++ d.value ++ [';']]
  | .comment c => [indent depth ++ ['/', '*', ' '] ++ c.text ++ [' ', '*', '/']]
  | .atRule a =>
    let header := '@' :: a.name ++ (if a.params = [] then [] else ' ' :: a.params)
    if isLeaf then [indent depth ++ header ++ [';']] else block depth header inside
  | .rule r =>
    if isLeaf then [indent depth ++ r.selector ++ [' ', '\x7b', '\x7d']]
    else block depth r.selector inside

/-- The lines of the nodes `ids` at `depth`, with those of the nodes below them down to `fuel`
levels. -/
def linesFrom (s : Sheet) : (fuel depth : Nat) → List NodeId → List Text
  | 0, _, _ => []
  | fuel + 1, depth, ids => ids.flatMap fun id =>
    match s.entry? id with
    | none => []
    | some e =>
      itemLines depth e.children.isEmpty (linesFrom s fuel (depth + 1) e.children) e.node.item

end Css

/-- The CSS of a sheet.  No node lies deeper than the sheet is large. -/
def Sheet.css (s : Sheet) : Text :=
  (Css.linesFrom s s.size 0 s.top).flatMap (· ++ ['\n'])

end OffsideCss
