import OffsideCss.Text

/-! Byte ranges of a text.  A range has a slice only when both of its ends fall between two
characters of the text. -/

namespace OffsideCss

/-- The bytes from `start` up to, and without, `stop`. -/
structure Span where
  start : Nat
  stop : Nat
deriving DecidableEq, Repr

namespace Text

/-- Cuts a text after `n` bytes: `none` when that is inside a character or past the end. -/
def cut? : Text → Nat → Option (Text × Text)
  | t, 0 => some ([], t)
  | [], _ + 1 => none
  | c :: t, n + 1 =>
    if c.utf8Size ≤ n + 1 then
      (cut? t (n + 1 - c.utf8Size)).map fun (before, after) => (c :: before, after)
    else none

/-- The text of a span: `none` when the span ends before it starts, leaves the text, or has an end
inside a character. -/
def slice? (t : Text) (s : Span) : Option Text :=
  if s.start ≤ s.stop then do
    let (_, rest) ← t.cut? s.start
    let (inside, _) ← rest.cut? (s.stop - s.start)
    return inside
  else none

/-- Cutting after the bytes of a leading part gives that part back. -/
theorem cut?_append (t u : Text) : (t ++ u).cut? t.bytes = some (t, u) := by
  induction t with
  | nil => cases u <;> simp [cut?]
  | cons c t ih =>
    have hc := c.utf8Size_pos
    obtain ⟨n, hn⟩ : ∃ n, c.utf8Size + bytes t = n + 1 := ⟨_, (Nat.succ_pred (by omega)).symm⟩
    rw [List.cons_append, bytes_cons, hn, cut?, if_pos (by omega),
      show n + 1 - c.utf8Size = bytes t by omega, ih]
    rfl

end Text

end OffsideCss
