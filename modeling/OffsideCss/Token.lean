import OffsideCss.Text.Blank
import OffsideCss.Text.Position

/-! Tokens.  A token is a kind and the text it covers, so a list of tokens is a text cut into pieces:
where a token stands is read off the texts before it. -/

namespace OffsideCss

/-- What a token is. -/
inductive TokenKind where
  | colon
  | semicolon
  | comma
  | leftBrace
  | rightBrace
  | leftParen
  | rightParen
  /-- A run of characters that is none of the other kinds. -/
  | word
  /-- A name behind `@`, with the `@`. -/
  | atWord
  /-- A quoted string, with its quotes. -/
  | string
  /-- A comment from two slashes to the end of the line, without the line break. -/
  | lineComment
  | blockComment
  /-- Blanks within a line. -/
  | space
  /-- A line feed, or a carriage return and a line feed. -/
  | lineBreak
  /-- A string or a block comment that the text ends in. -/
  | unclosed
deriving DecidableEq, Repr

namespace TokenKind

/-- Blanks within a line, or a line break. -/
def isWhitespace : TokenKind → Bool
  | space | lineBreak => true
  | _ => false

def isComment : TokenKind → Bool
  | lineComment | blockComment => true
  | _ => false

/-- Whitespace or a comment. -/
def isTrivia (k : TokenKind) : Bool := k.isWhitespace || k.isComment

def isBrace : TokenKind → Bool
  | leftBrace | rightBrace => true
  | _ => false

/-- The number of open parentheses behind a token, where a closing one without a partner does not
count. -/
def nesting (depth : Nat) : TokenKind → Nat
  | leftParen => depth + 1
  | rightParen => depth - 1
  | _ => depth

end TokenKind

/-- A piece of a text. -/
structure Token where
  kind : TokenKind
  text : Text
deriving DecidableEq, Repr

namespace Token

/-- The text that a list of tokens covers. -/
def join (ts : List Token) : Text := ts.flatMap text

@[simp] theorem join_nil : join [] = [] := rfl

@[simp] theorem join_cons (t : Token) (ts : List Token) : join (t :: ts) = t.text ++ join ts := rfl

@[simp] theorem join_append (ts us : List Token) : join (ts ++ us) = join ts ++ join us := by
  simp [join]

def isWhitespace (t : Token) : Bool := t.kind.isWhitespace

/-- The tokens up to the last one that is not whitespace, and the whitespace behind it. -/
def splitTrailing (ts : List Token) : List Token × List Token :=
  ((ts.reverse.dropWhile isWhitespace).reverse, (ts.reverse.takeWhile isWhitespace).reverse)

/-- The leading whitespace, and the tokens from the first one that is not whitespace. -/
def splitLeading (ts : List Token) : List Token × List Token :=
  (ts.takeWhile isWhitespace, ts.dropWhile isWhitespace)

theorem splitTrailing_append (ts : List Token) :
    (splitTrailing ts).1 ++ (splitTrailing ts).2 = ts := by
  rw [splitTrailing, ← List.reverse_append, List.takeWhile_append_dropWhile, List.reverse_reverse]

theorem splitLeading_append (ts : List Token) : (splitLeading ts).1 ++ (splitLeading ts).2 = ts :=
  List.takeWhile_append_dropWhile

/-- The tokens of a text that starts at `place`, each with the place it starts at. -/
def placed (place : Place) : List Token → List (Place × Token)
  | [] => []
  | t :: ts => (place, t) :: placed (place.after t.text) ts

/-- The first token that satisfies `p`, with its place, among tokens that start at `place`. -/
def locate? (p : Token → Bool) (place : Place) (ts : List Token) : Option (Place × Token) :=
  (placed place ts).find? fun found => p found.2

/-- The position of the last character of the last token that is not whitespace, where blanks at
the end of that token do not count. -/
def contentEnd (place : Place) (ts : List Token) : Position :=
  let content := (splitTrailing ts).1
  match content.getLast? with
  | none => place.toPosition
  | some t => (place.after (join content.dropLast)).last t.text.trimEnd

end Token

end OffsideCss
