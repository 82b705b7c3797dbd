import OffsideCss.Cause
import OffsideCss.Reader.Scanner
import OffsideCss.Text.LineIndex

/-! Lines by offsets.  The lexemes of a text are cut into rows, and the rows that are not blank become
parts: lines that know their text by spans, which are slices of the text.  There is no answer where a
list is read outside of its length or a text outside of its characters. -/

namespace OffsideCss.Reader

/-- A cause and the span that shows it. -/
structure Blame where
  cause : Cause
  span : Span
deriving DecidableEq, Repr

/-- What reading comes to: a result, or a blame, or no answer. -/
abbrev Reading (α : Type) := ExceptT Blame Option α

/-- Splits a list behind its first `n` members: `none` when it has fewer. -/
def splitAt? {α : Type} (n : Nat) (l : List α) : Option (List α × List α) :=
  if n ≤ l.length then some (l.take n, l.drop n) else none

/-- The index of the separating colon among lexemes behind `depth` open parentheses. -/
def separator? (depth : Nat) : List Lexeme → Option Nat
  | [] => none
  | t :: ts =>
    if t.kind = .colon ∧ depth = 0 ∧ ts.head?.all (·.isWhitespace) then some 0
    else (separator? (t.kind.nesting depth) ts).map (· + 1)

/-- A line that is not blank. -/
structure Part where
  /-- The number of the line that its first token is on. -/
  number : Nat
  indent : Text
  indentSpan : Span
  /-- The line break behind the part before, and blank lines. -/
  before : Span
  tokens : List Lexeme
  hasColon : Bool
  isComment : Bool
  isAtRule : Bool
  endsWithComma : Bool
deriving DecidableEq, Repr

namespace Part

def width (p : Part) : Nat := p.indent.length

def head? (p : Part) : Option Lexeme := p.tokens.head?

/-- The whitespace before a part, as the lexeme that joins it to the part before. -/
def joint? (source : Text) (p : Part) : Option Lexeme := do
  let head ← p.head?
  let span ← Span.make? p.before.start head.span.start
  return ⟨⟨.space, ← source.slice? span⟩, span⟩

/-- Whether the part is none of comment, at-rule, and part with a colon. -/
def isPlain (p : Part) : Bool := !p.isComment && !p.isAtRule && !p.hasColon

end Part

/-- The blame of a lexeme that the text ends in. -/
def unclosed? (t : Lexeme) : Option Blame := do
  let stop ← Counter.add? t.span.start 1
  let span ← Span.make? t.span.start stop
  return ⟨if t.text.atBlockComment then .unclosedComment else .unclosedString, span⟩

/-- The open parentheses behind a lexeme, innermost first. -/
def bracketsAfter (opened : List Span) (t : Lexeme) : List Span :=
  match t.kind with
  | .leftParen => t.span :: opened
  | .rightParen => opened.tail
  | _ => opened

/-- Cuts lexemes behind each line break outside parentheses, where those in `opened` are open at the
start.  Also gives the parentheses that are open at the end. -/
def rows? (opened : List Span) : List Lexeme → Reading (List (List Lexeme) × List Span)
  | [] => return ([[]], opened)
  | t :: ts =>
    if t.kind = .unclosed then do throw (← unclosed? t)
    else do
      let inside := bracketsAfter opened t
      let (rest, final) ← rows? inside ts
      if t.kind = .lineBreak ∧ inside = [] then return ([t] :: rest, final)
      else return (rest.modifyHead (t :: ·), final)

/-- Splits a row into the span of its indentation and the lexemes behind it. -/
def splitIndent? (stop : Nat) (row : List Lexeme) : Option (Span × List Lexeme) :=
  match row.head? with
  | none => do return (← Span.make? stop stop, row)
  | some first =>
    if first.kind = .space then do
      let (_, content) ← splitAt? 1 row
      return (first.span, content)
    else do return (← Span.make? first.span.start first.span.start, row)

/-- Splits the content of a row from the line break that ends it, and tells where the content
ends. -/
def splitBreak (stop : Nat) (content : List Lexeme) : List Lexeme × Nat :=
  match content.getLast? with
  | none => (content, stop)
  | some last =>
    if last.kind = .lineBreak then (content.dropLast, last.span.start) else (content, last.span.stop)

/-- The part with that content. -/
def part? (source : Text) (index : LineIndex) (before indentSpan : Span) (tokens : List Lexeme) :
    Option Part := do
  let head ← tokens.head?
  let (_, others) ← splitAt? 1 tokens
  let start ← index.position? head.span.start
  let indent ← source.slice? indentSpan
  return {
    number := start.line, indent, indentSpan, before, tokens
    hasColon := (separator? 0 tokens).isSome
    isComment := head.kind.isComment && others.all (·.kind = .space)
    isAtRule := head.kind = .atWord
    endsWithComma := (tokens.reverse.find? fun t => !t.kind.isTrivia).any (·.kind = .comma) }

/-- The parts among rows, and where the last one ends.  `pending` is where the one before them
does. -/
def parts? (source : Text) (index : LineIndex) (pending : Nat) :
    List (List Lexeme) → Option (List Part × Nat)
  | [] => some ([], pending)
  | row :: rows => do
    let stop := Counter.wrap source.bytes
    let (indentSpan, content) ← splitIndent? stop row
    if content.all (·.kind = .lineBreak) then parts? source index pending rows
    else
      let before ← Span.make? pending indentSpan.start
      let (tokens, next) := splitBreak stop content
      let part ← part? source index before indentSpan tokens
      let (parts, final) ← parts? source index next rows
      return (part :: parts, final)

/-- The parts of a text, and the span of the text behind the last one.  Of several open parentheses
the first one is to blame. -/
def lines? (source : Text) (index : LineIndex) (tokens : List Lexeme) :
    Reading (List Part × Span) := do
  let (rows, opened) ← rows? [] tokens
  match opened.getLast? with
  | some span => throw ⟨.unclosedBracket, span⟩
  | none =>
    let (parts, final) ← parts? source index 0 rows
    return (parts, ← Span.make? final (Counter.wrap source.bytes))

end OffsideCss.Reader
