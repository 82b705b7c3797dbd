import OffsideCss.Statement

/-! Reading a statement as a node.  Every token of the statement ends up in exactly one part of the
node: in a field, in the literal text of a field, or in the whitespace around one. -/

namespace OffsideCss

/-- The field that tokens stand for, which has no comments and no outer blanks, and their literal
text where it differs. -/
def Token.clean (ts : List Token) : Text × Option Literal :=
  let text := Token.join ts
  let field := (Token.join (ts.filter fun t => !t.kind.isComment)).trim
  (field, if text = field then none else some ⟨field, text⟩)

namespace Statement

/-- Fails at the first token that satisfies `p`. -/
def forbid (s : Statement) (cause : Cause) (p : Token → Bool) : Except Fault Unit :=
  match Token.locate? p s.place s.tokens with
  | some (place, t) => .error ⟨cause, place, t.text⟩
  | none => .ok ()

def forbidSemicolon (s : Statement) : Except Fault Unit :=
  s.forbid .unnecessarySemicolon (·.kind = .semicolon)

def forbidBrace (s : Statement) : Except Fault Unit :=
  s.forbid .unnecessaryBrace (·.kind.isBrace)

/-- Reads the comment that is the first token. -/
def comment (s : Statement) : Comment :=
  if s.first.head.kind = .lineComment then
    let (left, text, right) := Text.trimParts (s.first.head.text.drop 2)
    { text, form := .line, left, right }
  else
    let inside := (s.first.head.text.drop 2).dropLast.dropLast
    let (left, text, right) := Text.trimParts inside
    { text, form := .block, left, right, trailing := Token.join s.rest }

def atRule (s : Statement) : Except Fault AtRule := do
  s.forbidSemicolon
  s.forbidBrace
  let name := s.first.head.text.drop 1
  if name = [] then throw ⟨.unnamedAtRule, s.place, s.first.head.text⟩
  let (header, trailing) := Token.splitTrailing s.rest
  let (space, tokens) := Token.splitLeading header
  let (params, paramsLiteral) := Token.clean tokens
  return { name, params, paramsLiteral, afterName := Token.join space,
           trailing := Token.join trailing }

def rule (s : Statement) : Except Fault Rule := do
  s.forbidBrace
  let (header, trailing) := Token.splitTrailing s.tokens
  let (selector, selectorLiteral) := Token.clean header
  return { selector, selectorLiteral, trailing := Token.join trailing }

/-- Reads a declaration.  Before the colon, only whitespace and comments may follow the property. -/
def declaration (s : Statement) : Except Fault Declaration := do
  s.forbidSemicolon
  s.forbidBrace
  let unnamed : Fault := ⟨.unnamedDeclaration, s.place, s.first.head.text⟩
  match Token.splitSeparator? 0 s.tokens with
  | none => throw unnamed
  | some (before, colon, after) =>
    let name := before.takeWhile fun t => !t.kind.isTrivia
    let trivia := before.dropWhile fun t => !t.kind.isTrivia
    let property := Token.join name
    match Token.locate? (fun t => !t.kind.isTrivia) (s.place.after property) trivia with
    | some (place, t) => throw ⟨.propertySeparator, place, t.text⟩
    | none =>
      if name = [] then throw unnamed
      let (space, tokens) := Token.splitLeading after
      let (value, valueLiteral) := Token.clean tokens
      return { property, value, valueLiteral,
               between := Token.join trivia ++ colon.text ++ Token.join space }

/-- Reads a statement as an item of its kind. -/
def item (s : Statement) : Except Fault Item :=
  match s.kind with
  | .comment => .ok (.comment s.comment)
  | .atRule => s.atRule.map .atRule
  | .rule => s.rule.map .rule
  | .declaration => s.declaration.map .declaration

/-- Reads a statement as a node.  Its source goes from the first token to the last one that is not
whitespace. -/
def node (s : Statement) : Except Fault Node :=
  s.item.map fun item =>
    { item, before := s.first.lead,
      source := some ⟨s.place.toPosition, Token.contentEnd s.place s.tokens⟩ }

end Statement

end OffsideCss
