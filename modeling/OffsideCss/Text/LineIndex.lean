import OffsideCss.Text.Position

/-! The lines of a text.  An index keeps the offsets at which the lines of a text begin, so the
position at an offset is found by halving them and counting on one line, not from the first
character on.  Offsets and positions are counters. -/

namespace OffsideCss

/-- The offsets of the lines that begin behind the line feeds of a text, which itself starts at
`offset`. -/
def Text.lineStartsFrom (offset : Nat) : Text → List Nat
  | [] => []
  | c :: t =>
    if c = '\n' then (offset + c.utf8Size) :: lineStartsFrom (offset + c.utf8Size) t
    else lineStartsFrom (offset + c.utf8Size) t

/-- A text and where its lines begin. -/
structure LineIndex where
  text : Text
  /-- The offset of the first character of every line. -/
  starts : List Nat
deriving DecidableEq, Repr

namespace LineIndex

def ofText (t : Text) : LineIndex := ⟨t, 0 :: (t.lineStartsFrom 0).map Counter.wrap⟩

/-- Looks for a line that begins at `offset` among the `size` lines from `base` on: the number of
one, or else the number that it would have. -/
def searchFrom (index : LineIndex) (offset base size : Nat) : Except Nat Nat :=
  if 1 < size then
    let middle := base + size / 2
    if offset < index.starts.getD middle 0 then index.searchFrom offset base (size - size / 2)
    else index.searchFrom offset middle (size - size / 2)
  else
    let start := index.starts.getD base 0
    if start = offset then .ok base else if start < offset then .error (base + 1) else .error base
termination_by size

/-- The number of the line that an offset is on, counted from zero: the line that begins there, or
the one before the first that begins behind. -/
def line? (index : LineIndex) (offset : Nat) : Option Nat :=
  match index.searchFrom offset 0 index.starts.length with
  | .ok line => some line
  | .error 0 => none
  | .error (next + 1) => some next

/-- The position of the character at a byte offset, where offsets past the end count as the end. -/
def position? (index : LineIndex) (offset : Nat) : Option Position := do
  let inside := min offset (Counter.wrap index.text.bytes)
  let line ← index.line? inside
  let start ← index.starts[line]?
  let before ← index.text.slice? ⟨start, inside⟩
  return (⟨line + 1, before.length + 1⟩ : Position).wrap

/-- The position of the last character of a span, or of its start when the span is empty. -/
def lastPosition? (index : LineIndex) (s : Span) : Option Position := do
  let inside ← index.text.slice? s
  match inside.getLast? with
  | some c => index.position? (s.stop - c.utf8Size)
  | none => index.position? s.start

end LineIndex

end OffsideCss
