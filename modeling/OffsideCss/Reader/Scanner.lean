import OffsideCss.Text.Counter
import OffsideCss.Token.Scan

/-! Scanning by offsets.  The scanner stands in a text at an offset, and each token is the slice of the
text that it passes.  There is no answer where an offset is no counter, where a slice leaves the text,
and where a step passes nothing. -/

namespace OffsideCss

/-- The span between two offsets: `none` when it ends before it starts. -/
def Span.make? (start stop : Nat) : Option Span :=
  if start ≤ stop then some ⟨start, stop⟩ else none

/-- The offset of the first place in a text where what is left satisfies `p`. -/
def Text.seek? (p : Text → Bool) : Text → Option Nat
  | [] => none
  | c :: t => if p (c :: t) then some 0 else (seek? p t).map (c.utf8Size + ·)

/-- A token and the span of the text that it was cut from. -/
structure Lexeme extends Token where
  span : Span
deriving DecidableEq, Repr

namespace Reader

/-- Where the scanner stands. -/
structure Scanner where
  offset : Nat
  /-- The text from there on. -/
  rest : Text
deriving DecidableEq, Repr

namespace Scanner

/-- Passes the next character, if there is one. -/
def advance? (s : Scanner) : Option Scanner :=
  match s.rest with
  | [] => some s
  | c :: rest => do return ⟨← Counter.add? s.offset c.utf8Size, rest⟩

/-- Passes the next character, and behind a backslash the one that it takes along. -/
def advanceEscaped? (s : Scanner) : Option Scanner := do
  let behind ← s.advance?
  if s.rest.head? = some '\\' then behind.advance? else return behind

/-- Passes `n` bytes. -/
def skip? (s : Scanner) (n : Nat) : Option Scanner := do
  let offset ← Counter.add? s.offset n
  let (_, rest) ← s.rest.cut? n
  return ⟨offset, rest⟩

/-- Passes the characters from `offset` on up to where what is left first satisfies `stop`. -/
def passBefore? (stop : Text → Bool) (offset : Nat) : Text → Option Scanner
  | [] => some ⟨offset, []⟩
  | c :: rest =>
    if stop (c :: rest) then some ⟨offset, c :: rest⟩
    else do passBefore? stop (← Counter.add? offset c.utf8Size) rest

/-- Passes characters like `passBefore?`, except that nothing is tested between a backslash and the
character that it takes along. -/
def passUnescaped? (stop : Text → Bool) (offset : Nat) : Text → Option Scanner
  | [] => some ⟨offset, []⟩
  | [c] =>
    if stop [c] then some ⟨offset, [c]⟩
    else do return ⟨← Counter.add? offset c.utf8Size, []⟩
  | c :: d :: rest =>
    if stop (c :: d :: rest) then some ⟨offset, c :: d :: rest⟩
    else do
      let behind ← Counter.add? offset c.utf8Size
      if c = '\\' then passUnescaped? stop (← Counter.add? behind d.utf8Size) rest
      else passUnescaped? stop behind (d :: rest)

/-- Passes a string that begins with the quote `c`. -/
def passQuoted? (s : Scanner) (c : Char) : Option (TokenKind × Scanner) := do
  let opened ← s.advance?
  let inside ← passUnescaped? (Text.atChar c) opened.offset opened.rest
  if inside.rest = [] then return (.unclosed, inside)
  else return (.string, ← inside.advance?)

/-- Passes a block comment. -/
def passBlockComment? (s : Scanner) : Option (TokenKind × Scanner) := do
  let (_, inside) ← s.rest.cut? 2
  match inside.seek? Text.atBlockEnd with
  | some n => return (.blockComment, ← s.skip? (n + 4))
  | none => return (.unclosed, ← s.skip? s.rest.bytes)

/-- Passes the next token behind `depth` open parentheses, and tells its kind. -/
def pass? (depth : Nat) (s : Scanner) : Option (TokenKind × Scanner) := do
  let c ← s.rest.head?
  match TokenKind.ofPunctuation? c with
  | some kind => return (kind, ← s.advance?)
  | none =>
    if c = '\n' then return (.lineBreak, ← s.advance?)
    else if s.rest.atLineBreak then return (.lineBreak, ← s.skip? 2)
    else if isSpacing c then
      return (.space, ← passBefore? (fun t => !t.atSpacing) s.offset s.rest)
    else if isQuote c then s.passQuoted? c
    else if s.rest.atBlockComment then s.passBlockComment?
    else if s.rest.atLineComment depth then
      return (.lineComment, ← passBefore? Text.atLineBreak s.offset s.rest)
    else if c = '@' then
      let behind ← s.advance?
      return (.atWord, ← passBefore? Text.atAtWordEnd behind.offset behind.rest)
    else
      let behind ← s.advanceEscaped?
      return (.word, ← passUnescaped? (Text.atWordEnd depth) behind.offset behind.rest)

end Scanner

/-- The number of open parentheses behind a token of that kind. -/
def nesting? (depth : Nat) (kind : TokenKind) : Option Nat :=
  if kind = .leftParen then Counter.add? depth 1 else some (kind.nesting depth)

/-- The tokens from where the scanner stands in `source`, behind `depth` open parentheses. -/
def scanFrom? (source : Text) (depth : Nat) (s : Scanner) : Option (List Lexeme) :=
  if s.rest = [] then some []
  else do
    let (kind, behind) ← s.pass? depth
    let depth ← nesting? depth kind
    let span ← Span.make? s.offset behind.offset
    let text ← source.slice? span
    if behind.rest.length < s.rest.length then
      return ⟨⟨kind, text⟩, span⟩ :: (← scanFrom? source depth behind)
    else none
termination_by s.rest.length

def scan? (source : Text) : Option (List Lexeme) := scanFrom? source 0 ⟨0, source⟩

end Reader

end OffsideCss
