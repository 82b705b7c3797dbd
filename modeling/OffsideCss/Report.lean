import OffsideCss.Cause

/-! What is said of an error under its line.  How a report is drawn is left to what shows it. -/

namespace OffsideCss

/-- What a report says at the marked text. -/
def Cause.label : Cause → String
  | firstLineIndent => "document starts indented"
  | wrongIndent expected _ => "indent this line by " ++ expected.format
  | mixedIndent => "different indent character"
  | unnamedDeclaration => "property name expected before the colon"
  | propertySeparator => "second word in property"
  | unnecessarySemicolon => "remove this semicolon"
  | unnecessaryBrace => "remove this bracket"
  | unnamedAtRule => "at-rule name expected after `@`"
  | unclosedString => "string opened here"
  | unclosedComment => "comment opened here"
  | unclosedBracket => "bracket opened here"
  | unattachable _ => "node cannot be attached here"

/-- What a report advises. -/
def Cause.help? : Cause → Option String
  | firstLineIndent => some "top-level nodes start at column 1"
  | wrongIndent _ _ =>
    some "every nesting level is indented by the same unit as the first indented line"
  | mixedIndent => some "indent with either spaces or tabs, not both"
  | propertySeparator => some "property names cannot contain whitespace"
  | unnecessarySemicolon => some "the end of the line ends the statement"
  | unnecessaryBrace => some "nest with indentation instead of curly brackets"
  | unclosedComment => some "add a closing '*/'"
  | unclosedBracket => some "add a closing ')'"
  | unnamedDeclaration | unnamedAtRule | unclosedString | unattachable _ => none

/-- What is to be drawn of an error. -/
structure Report where
  name : String
  message : String
  /-- The part of the text that is marked. -/
  span : Span
  label : String
  help : Option String
deriving DecidableEq, Repr

def ParseError.report (e : ParseError) : Report :=
  ⟨e.name, e.cause.message, e.span, e.cause.label, e.cause.help?⟩

end OffsideCss
