import OffsideCss.Text.Counter
import OffsideCss.Text.Span

/-! Lines and columns.  A position is where the next character of a text stands: a line feed moves it
to the start of the next line, and any other character one column on.  A place is a position that
also counts the bytes before it. -/

namespace OffsideCss

/-- A line and a column, both counted from one; columns count characters. -/
structure Position where
  line : Nat
  column : Nat
deriving DecidableEq, Repr

namespace Position

/-- The position of the first character of a text. -/
def first : Position := ⟨1, 1⟩

/-- The position behind one character. -/
def next (p : Position) (c : Char) : Position :=
  if c = '\n' then ⟨p.line + 1, 1⟩ else ⟨p.line, p.column + 1⟩

/-- The position behind a text that starts at `p`. -/
def after (p : Position) (t : Text) : Position := t.foldl next p

/-- The position of the last character of a text that starts at `p`, or `p` when it is empty. -/
def last (p : Position) (t : Text) : Position := p.after t.dropLast

@[simp] theorem after_nil (p : Position) : p.after [] = p := rfl

@[simp] theorem after_cons (p : Position) (c : Char) (t : Text) :
    p.after (c :: t) = (p.next c).after t := rfl

@[simp] theorem after_append (p : Position) (t u : Text) :
    p.after (t ++ u) = (p.after t).after u := by
  simp [after]

/-- Whether line and column are counters. -/
def Fits (p : Position) : Prop := p.line < Counter.limit ∧ p.column < Counter.limit

/-- The position with line and column made counters. -/
def wrap (p : Position) : Position := ⟨Counter.wrap p.line, Counter.wrap p.column⟩

theorem Fits.wrap_eq {p : Position} (h : p.Fits) : p.wrap = p := by
  rw [wrap, Counter.wrap_of_lt h.1, Counter.wrap_of_lt h.2]

@[simp] theorem wrap_first : first.wrap = first := Fits.wrap_eq ⟨by decide, by decide⟩

/-- Counting on from a position that was made counters, character by character. -/
theorem wrap_next_wrap (p : Position) (c : Char) : (p.wrap.next c).wrap = (p.next c).wrap := by
  by_cases hc : c = '\n' <;> simp [next, wrap, hc]

def format (p : Position) : String := toString p.line ++ ":" ++ toString p.column

end Position

namespace Text

/-- The position `n` bytes into a text that starts at `p`: the end of the text when it has fewer, and
`none` inside a character. -/
def positionFrom? (p : Position) : Text → Nat → Option Position
  | [], _ => some p
  | _ :: _, 0 => some p
  | c :: t, n + 1 =>
    if c.utf8Size ≤ n + 1 then positionFrom? (p.next c) t (n + 1 - c.utf8Size) else none

/-- The position of the character at a byte offset, where offsets past the end count as the end. -/
def position? (t : Text) (offset : Nat) : Option Position := t.positionFrom? .first offset

/-- The position of the last character of a span, or of its start when the span is empty. -/
def lastPosition? (t : Text) (s : Span) : Option Position := do
  let start ← t.position? s.start
  let inside ← t.slice? s
  return start.last inside

theorem positionFrom?_append (p : Position) (t u : Text) :
    (t ++ u).positionFrom? p t.bytes = some (p.after t) := by
  induction t generalizing p with
  | nil => cases u <;> rfl
  | cons c t ih =>
    have hc := c.utf8Size_pos
    obtain ⟨n, hn⟩ : ∃ n, c.utf8Size + bytes t = n + 1 := ⟨_, (Nat.succ_pred (by omega)).symm⟩
    rw [List.cons_append, bytes_cons, hn, positionFrom?, if_pos (by omega),
      show n + 1 - c.utf8Size = bytes t by omega, ih]
    rfl

end Text

/-- A position together with the number of bytes before it. -/
structure Place extends Position where
  offset : Nat
deriving DecidableEq, Repr

namespace Place

/-- The place where a text begins. -/
def first : Place := ⟨.first, 0⟩

/-- The place behind a text that starts at `p`. -/
def after (p : Place) (t : Text) : Place := ⟨p.toPosition.after t, p.offset + t.bytes⟩

/-- The span of a text that starts at `p`. -/
def span (p : Place) (t : Text) : Span := ⟨p.offset, p.offset + t.bytes⟩

@[simp] theorem after_nil (p : Place) : p.after [] = p := rfl

@[simp] theorem after_append (p : Place) (t u : Text) : p.after (t ++ u) = (p.after t).after u := by
  simp [after, Nat.add_assoc]

end Place

end OffsideCss
