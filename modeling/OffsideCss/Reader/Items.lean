import OffsideCss.Reader.Lines
import OffsideCss.Statement.Reading

/-! Items by offsets.  The lexemes of a statement are read as an item of its kind, where each part of a
list or of a text is taken out by its index. -/

namespace OffsideCss

/-- The tokens that lexemes are. -/
def Lexeme.plain (ts : List Lexeme) : List Token := ts.map (·.toToken)

/-- The text that lexemes cover. -/
def Lexeme.cover (ts : List Lexeme) : Text := Token.join (plain ts)

namespace Reader

open Lexeme (plain cover)

/-- The lexemes up to the last one that is not whitespace, and the whitespace behind it. -/
def splitTrailing? (ts : List Lexeme) : Option (List Lexeme × List Lexeme) :=
  splitAt? (ts.length - ts.reverse.findIdx fun t => !t.isWhitespace) ts

/-- The leading whitespace, and the lexemes from the first one that is not whitespace. -/
def splitLeading? (ts : List Lexeme) : Option (List Lexeme × List Lexeme) :=
  splitAt? (ts.findIdx fun t => !t.isWhitespace) ts

/-- Blames the first lexeme that satisfies `p`. -/
def forbid (cause : Cause) (p : Lexeme → Bool) (ts : List Lexeme) : Reading Unit :=
  match ts.find? p with
  | some t => throw ⟨cause, t.span⟩
  | none => return ()

def forbidSemicolon (ts : List Lexeme) : Reading Unit :=
  forbid .unnecessarySemicolon (·.kind = .semicolon) ts

def forbidBrace (ts : List Lexeme) : Reading Unit :=
  forbid .unnecessaryBrace (·.kind.isBrace) ts

/-- The blanks around the trimmed middle of a text.  The blanks of a text that holds nothing else all
lead. -/
def margins? (t : Text) : Option (Text × Text) :=
  if t.trim = [] then some (t, [])
  else do
    let start ← Counter.sub? t.bytes t.trimStart.bytes
    return (← t.slice? ⟨0, start⟩, ← t.slice? ⟨start + t.trim.bytes, t.bytes⟩)

/-- Reads the comment that a part consists of. -/
def comment? (part : Part) : Option Comment := do
  let token ← part.head?
  if token.kind = .lineComment then
    let body ← token.text.slice? ⟨2, token.text.bytes⟩
    let (left, right) ← margins? body
    return { text := body.trim, form := .line, left, right }
  else
    let stop ← Counter.sub? token.text.bytes 2
    let body ← token.text.slice? ⟨2, stop⟩
    let (left, right) ← margins? body
    let (_, rest) ← splitAt? 1 part.tokens
    return { text := body.trim, form := .block, left, right, trailing := cover rest }

def atRule? (ts : List Lexeme) : Reading AtRule := do
  forbidSemicolon ts
  forbidBrace ts
  let head ← ts.head?
  let (_, rest) ← splitAt? 1 ts
  let (_, name) ← head.text.cut? 1
  if name = [] then throw ⟨.unnamedAtRule, head.span⟩
  let (header, trailing) ← splitTrailing? rest
  let (space, tokens) ← splitLeading? header
  let (params, paramsLiteral) := Token.clean (plain tokens)
  return { name, params, paramsLiteral, afterName := cover space, trailing := cover trailing }

def rule? (ts : List Lexeme) : Reading Rule := do
  forbidBrace ts
  let (header, trailing) ← splitTrailing? ts
  let (selector, selectorLiteral) := Token.clean (plain header)
  return { selector, selectorLiteral, trailing := cover trailing }

/-- Reads the lexemes before a colon behind a property and what stands between the property and
them. -/
def property? (property between : Text) : List Lexeme → Reading (Text × Text)
  | [] => return (property, between)
  | t :: ts =>
    if t.kind.isTrivia then property? property (between ++ t.text) ts
    else if between = [] then property? (property ++ t.text) between ts
    else throw ⟨.propertySeparator, t.span⟩

/-- Reads a declaration.  Also gives the lexemes that its last character is in. -/
def declaration? (ts : List Lexeme) : Reading (Declaration × List Lexeme) := do
  forbidSemicolon ts
  forbidBrace ts
  match separator? 0 ts with
  | none => throw ⟨.unnamedDeclaration, (← ts.head?).span⟩
  | some n =>
    let (before, _) ← splitAt? n ts
    let (property, trivia) ← property? [] [] before
    if property = [] then throw ⟨.unnamedDeclaration, (← ts.head?).span⟩
    let colon ← (ts[n]? : Option Lexeme)
    let (_, after) ← splitAt? (n + 1) ts
    let space := after.takeWhile (·.isWhitespace)
    let tokens := after.dropWhile (·.isWhitespace)
    let (value, valueLiteral) := Token.clean (plain tokens)
    return ({ property, value, valueLiteral, between := trivia ++ colon.text ++ cover space },
      if tokens = [] then [colon] else tokens)

/-- Reads lexemes as an item of that kind, of which `part` is the first line.  Also gives the lexemes that
its last character is in. -/
def item? (kind : NodeKind) (part : Part) (ts : List Lexeme) : Reading (Item × List Lexeme) :=
  match kind with
  | .comment => do return (.comment (← comment? part), ts)
  | .atRule => do return (.atRule (← atRule? ts), ts)
  | .rule => do return (.rule (← rule? ts), ts)
  | .declaration => do
    let (d, content) ← declaration? ts
    return (.declaration d, content)

end Reader

end OffsideCss
