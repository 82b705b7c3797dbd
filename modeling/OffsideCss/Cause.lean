import OffsideCss.Sheet

/-! What can be wrong with a text that is read as a sheet, and the wording of each case. -/

namespace OffsideCss

/-- The indentation that a line could have had. -/
inductive ExpectedIndent where
  /-- One level more than the line before. -/
  | exactly (width : Nat)
  /-- The nearest open levels on both sides. -/
  | either (lower upper : Nat)
deriving DecidableEq, Repr

def ExpectedIndent.format : ExpectedIndent → String
  | exactly width => toString width
  | either lower upper => toString lower ++ " or " ++ toString upper

/-- Why a text is not a sheet. -/
inductive Cause where
  | firstLineIndent
  /-- The indentation fits none of the open levels. -/
  | wrongIndent (expected : ExpectedIndent) (actual : Nat)
  /-- The indentation has another character than the first indented line. -/
  | mixedIndent
  /-- Nothing stands before the colon of a declaration. -/
  | unnamedDeclaration
  /-- Something follows the property before the colon of a declaration. -/
  | propertySeparator
  /-- A semicolon ends what the line break ends already. -/
  | unnecessarySemicolon
  /-- A brace delimits what indentation delimits already. -/
  | unnecessaryBrace
  | unnamedAtRule
  | unclosedString
  | unclosedComment
  | unclosedBracket
  /-- The sheet refuses a node. -/
  | unattachable (error : AppendError)
deriving DecidableEq, Repr

def Cause.message : Cause → String
  | firstLineIndent => "First line should not have indent"
  | wrongIndent expected actual =>
    "Expected " ++ expected.format ++ " indent, but get " ++ toString actual
  | mixedIndent => "Mixed tabs and spaces are not allowed"
  | unnamedDeclaration => "Declaration without name"
  | propertySeparator => "Unexpected separator in property"
  | unnecessarySemicolon => "Unnecessary semicolon"
  | unnecessaryBrace => "Unnecessary curly bracket"
  | unnamedAtRule => "At-rule without name"
  | unclosedString => "Unclosed string"
  | unclosedComment => "Unclosed comment"
  | unclosedBracket => "Unclosed bracket"
  | unattachable error => error.message

/-- A cause at the text that shows it. -/
structure Fault where
  cause : Cause
  /-- Where the offending text starts. -/
  place : Place
  text : Text
deriving DecidableEq, Repr

/-- Why, and where, the text of an input is not a sheet. -/
structure ParseError where
  name : String
  position : Position
  cause : Cause
  span : Span
deriving DecidableEq, Repr

/-- The error that a fault makes in the input of that name. -/
def Fault.toError (f : Fault) (name : String) : ParseError :=
  ⟨name, f.place.toPosition, f.cause, f.place.span f.text⟩

/-- An error on one line: input, position, and message. -/
def ParseError.format (e : ParseError) : String :=
  e.name ++ ":" ++ e.position.format ++ ": " ++ e.cause.message

end OffsideCss
