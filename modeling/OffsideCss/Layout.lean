import OffsideCss.Layout.Reindent
import OffsideCss.Sheet

/-! Writing a sheet in its own form.  Each node of the outline makes one passage: the lead that sets
it off from the node before, and its own text.  Kept spacing uses all that is known of how the sheet
was spelled, and canonical spacing none of it. -/

namespace OffsideCss

/-- Which blanks a sheet is written with. -/
inductive Spacing where
  /-- As the sheet was spelled, where that is known. -/
  | kept
  /-- One way for every sheet. -/
  | canonical
deriving DecidableEq, Repr

/-- The indentation of one level where a sheet has none. -/
def defaultIndent : Text := [' ', ' ']

namespace Spacing

/-- A part of the spelling, or what stands there when it is not known or not kept. -/
def part (spacing : Spacing) (spelled : Option Text) (default : Text) : Text :=
  match spacing with
  | kept => spelled.getD default
  | canonical => default

/-- The text of a field.  In canonical spacing its lines are indented by `indent`. -/
def field (spacing : Spacing) (indent : Text) (literal : Option Literal) (field : Text) : Text :=
  match spacing with
  | kept => Literal.resolve literal field
  | canonical => field.reindent indent

def indent (spacing : Spacing) (s : Sheet) : Text :=
  match spacing with
  | kept => s.indent.getD defaultIndent
  | canonical => defaultIndent

end Spacing

/-- A blank before a field that is not empty. -/
def padding (field : Text) : Text := if field = [] then [] else [' ']

/-- The text of an at-rule that stands `depth` levels of `unit` deep. -/
def AtRule.write (spacing : Spacing) (unit : Text) (depth : Nat) (a : AtRule) : Text :=
  '@' :: a.name ++ spacing.part a.afterName (padding a.params) ++
    spacing.field (unit.times (depth + 1)) a.paramsLiteral a.params ++ spacing.part a.trailing []

/-- The text of a rule.  The lines of its selector stand as deep as the rule. -/
def Rule.write (spacing : Spacing) (unit : Text) (depth : Nat) (r : Rule) : Text :=
  spacing.field (unit.times depth) r.selectorLiteral r.selector ++ spacing.part r.trailing []

def Declaration.write (spacing : Spacing) (unit : Text) (depth : Nat) (d : Declaration) : Text :=
  d.property ++ spacing.part d.between (':' :: padding d.value) ++
    spacing.field (unit.times (depth + 1)) d.valueLiteral d.value

def Comment.write (spacing : Spacing) (c : Comment) : Text :=
  match c.form with
  | .line => ['/', '/'] ++ spacing.part c.left (padding c.text) ++ c.text ++ spacing.part c.right []
  | .block =>
    ['/', '*'] ++ spacing.part c.left (padding c.text) ++ c.text ++
      spacing.part c.right (padding c.text) ++ ['*', '/'] ++ spacing.part c.trailing []

/-- The own text of an item that stands `depth` levels of `unit` deep. -/
def Item.write (spacing : Spacing) (unit : Text) (depth : Nat) : Item → Text
  | .atRule a => a.write spacing unit depth
  | .rule r => r.write spacing unit depth
  | .declaration d => d.write spacing unit depth
  | .comment c => c.write spacing

/-- What is written for one node. -/
structure Passage where
  /-- The text that sets the node off from the one before. -/
  lead : Text
  own : Text
  kind : NodeKind
  source : Option Source
deriving DecidableEq, Repr

def Passage.text (p : Passage) : Text := p.lead ++ p.own

namespace Sheet

/-- The lead of a visited node: the spelled one if it is kept, and otherwise a line break and
indentation, which the first node of a sheet does without. -/
def lead (s : Sheet) (spacing : Spacing) (isFirst : Bool) (v : Visit) : Text :=
  spacing.part v.node.before
    (if isFirst then [] else '\n' :: (spacing.indent s).times v.depth)

def passage (s : Sheet) (spacing : Spacing) (isFirst : Bool) (v : Visit) : Passage where
  lead := s.lead spacing isFirst v
  own := v.node.item.write spacing (spacing.indent s) v.depth
  kind := v.node.item.kind
  source := v.node.source

/-- The passages of a sheet, in document order. -/
def passages (s : Sheet) (spacing : Spacing) : List Passage :=
  match s.outline with
  | [] => []
  | v :: rest => s.passage spacing true v :: rest.map (s.passage spacing false)

/-- The text behind the last passage. -/
def ending (s : Sheet) (spacing : Spacing) : Text :=
  match spacing with
  | .kept => s.after
  | .canonical => if s.top = [] then [] else ['\n']

def write (s : Sheet) (spacing : Spacing) : Text :=
  (s.passages spacing).flatMap Passage.text ++ s.ending spacing

end Sheet

end OffsideCss
