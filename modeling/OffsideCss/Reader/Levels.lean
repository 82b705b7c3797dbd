import OffsideCss.Indentation
import OffsideCss.Reader.Lines

/-! The open levels as a stack.  They are the levels of the indentation machine, except that nothing but
how they are used keeps the stack from being empty. -/

namespace OffsideCss.Reader

/-- The state of the machine. -/
structure Levels where
  /-- The open levels, from the inside out. -/
  stack : List Level := [⟨0, none⟩]
  unit : Option Nat := none
  /-- The character to indent with. -/
  style : Option Char := none
  started : Bool := false
deriving DecidableEq, Repr

namespace Levels

/-- The innermost level. -/
def top? (m : Levels) : Option Level := m.stack.head?

/-- The machine after its style was compared with the indentation at `span`. -/
def checkStyle? (m : Levels) (indent : Text) (span : Span) : Reading Levels :=
  match indent with
  | [] => return m
  | c :: _ =>
    let style := m.style.getD c
    match indent.dropWhile (· = style) with
    | [] => return { m with style := some style }
    | d :: _ => do
      let start ← Counter.add? span.start (Text.bytes (indent.takeWhile (· = style)))
      let stop ← Counter.add? start d.utf8Size
      throw ⟨.mixedIndent, ← Span.make? start stop⟩

/-- Closes levels until the innermost one is at most `width` wide: the levels that stay open, and the
width of the last one closed, which is `closed` if none was. -/
def closeTo? (width closed : Nat) : List Level → Option (List Level × Nat)
  | [] => none
  | level :: outer =>
    if width < level.width then closeTo? width level.width outer else some (level :: outer, closed)

/-- The machine after a line with that indentation, except that the level of a deeper line is not
open yet. -/
def enter? (m : Levels) (indent : Text) (span : Span) : Reading (Shift × Levels) := do
  let width := indent.length
  if !m.started then
    if width = 0 then return (.same, { m with started := true })
    else throw ⟨.firstLineIndent, span⟩
  else
    let m ← m.checkStyle? indent span
    let top ← m.top?
    if top.width < width then
      let deeper ← Counter.sub? width top.width
      let unit := m.unit.getD deeper
      if deeper = unit then return (.deeper m.unit.isNone, { m with unit := some unit })
      else throw ⟨.wrongIndent (.exactly (top.width + unit)) width, span⟩
    else if width = top.width then return (.same, m)
    else
      let (stack, closed) ← closeTo? width top.width m.stack
      let reached ← stack.head?
      if reached.width = width then return (.shallower, { m with stack })
      else throw ⟨.wrongIndent (.either reached.width closed) width, span⟩

def openLevel (m : Levels) (level : Level) : Levels := { m with stack := level :: m.stack }

end Levels

end OffsideCss.Reader
