import OffsideCss.Cause
import OffsideCss.Separator

/-! Lines.  A line ends at a line break outside parentheses.  Blank lines are no lines of their own:
their text joins the gap before the next line, or the text behind the last one.  Each line begins
with its indentation, which is the space token it may start with. -/

namespace OffsideCss

/-- A line that is not blank. -/
structure Line where
  /-- The line break behind the line before, and blank lines. -/
  gap : Text
  indent : Text
  /-- Where the indentation starts. -/
  place : Place
  /-- The first token behind the indentation. -/
  head : Token
  /-- The other tokens, without the line break that ends the line. -/
  tail : List Token
deriving DecidableEq, Repr

namespace Line

/-- The tokens behind the indentation. -/
def tokens (l : Line) : List Token := l.head :: l.tail

/-- The width of the indentation, in characters. -/
def width (l : Line) : Nat := l.indent.length

/-- All whitespace between the line before and this one. -/
def lead (l : Line) : Text := l.gap ++ l.indent

/-- The whitespace before the line, as the token that joins the line to the one before. -/
def joint (l : Line) : Token := ⟨.space, l.lead⟩

def hasColon (l : Line) : Bool := (Token.splitSeparator? 0 l.tokens).isSome

/-- Whether the line holds a comment and nothing else. -/
def isComment (l : Line) : Bool :=
  l.head.kind.isComment && l.tail.all (·.kind = .space)

def isAtRule (l : Line) : Bool := l.head.kind = .atWord

/-- Whether the last token that is neither whitespace nor a comment is a comma. -/
def endsWithComma (l : Line) : Bool :=
  (l.tokens.reverse.find? fun t => !t.kind.isTrivia).any (·.kind = .comma)

/-- Whether the line is none of comment, at-rule, and line with a colon. -/
def isPlain (l : Line) : Bool := !l.isComment && !l.isAtRule && !l.hasColon

/-- The open parentheses behind a token at `place`, innermost first. -/
def bracketsAfter (opened : List Place) (place : Place) (t : Token) : List Place :=
  match t.kind with
  | .leftParen => place :: opened
  | .rightParen => opened.tail
  | _ => opened

/-- Cuts tokens that start at `place` behind each line break outside parentheses, where those in
`opened` are open at the start.  Also gives the parentheses that are open at the end. -/
def rows (place : Place) (opened : List Place) : List Token → List (List Token) × List Place
  | [] => ([[]], opened)
  | t :: ts =>
    let inside := bracketsAfter opened place t
    let (rest, final) := rows (place.after t.text) inside ts
    if t.kind = .lineBreak ∧ inside = [] then ([t] :: rest, final)
    else (rest.modifyHead (t :: ·), final)

/-- Splits a row into its indentation and the tokens behind it. -/
def splitIndent : List Token → Text × List Token
  | [] => ([], [])
  | t :: ts => if t.kind = .space then (t.text, ts) else ([], t :: ts)

/-- Splits a row into its content and the line break that ends it. -/
def splitBreak (ts : List Token) : List Token × Text :=
  match ts.getLast? with
  | some t => if t.kind = .lineBreak then (ts.dropLast, t.text) else (ts, [])
  | none => ([], [])

/-- The lines among rows that start at `place` behind the blank text `gap`, and the text behind the
last line. -/
def ofRows (place : Place) (gap : Text) : List (List Token) → List Line × Text
  | [] => ([], gap)
  | row :: rest =>
    let text := Token.join row
    let (indent, tokens) := splitIndent row
    match splitBreak tokens with
    | ([], _) => ofRows (place.after text) (gap ++ text) rest
    | (head :: tail, lineBreak) =>
      let (lines, after) := ofRows (place.after text) lineBreak rest
      ({ gap, indent, place, head, tail } :: lines, after)

/-- The fault of a token that the text ends in: what opens it is never closed. -/
def unclosedFault (place : Place) (t : Token) : Fault :=
  ⟨if t.text.head? = some '/' then .unclosedComment else .unclosedString, place, t.text.take 1⟩

/-- The lines of the tokens of a whole text, and the text behind the last line.  Of several open
parentheses the first one is at fault. -/
def ofTokens (ts : List Token) : Except Fault (List Line × Text) :=
  match Token.locate? (·.kind = .unclosed) .first ts with
  | some (place, t) => .error (unclosedFault place t)
  | none =>
    let (rows, opened) := rows .first [] ts
    match opened.getLast? with
    | some place => .error ⟨.unclosedBracket, place, ['(']⟩
    | none => .ok (ofRows .first [] rows)

end Line

end OffsideCss
