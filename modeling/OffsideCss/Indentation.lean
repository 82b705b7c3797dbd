import OffsideCss.Cause

/-! The indentation machine.  It keeps the open levels, each with its width and the node that holds
what stands at it.  A line may stay at the innermost level, open one that is a unit deeper, or go
back to any open level, which closes those inside.  The first indented line fixes the unit and the
character to indent with. -/

namespace OffsideCss

/-- A level of indentation. -/
structure Level where
  /-- The width of the lines at this level, in characters. -/
  width : Nat
  /-- The node that holds the nodes at this level, or `none` at the top. -/
  container : Option NodeId
deriving DecidableEq, Repr

/-- How a line is indented compared with the one before. -/
inductive Shift where
  | same
  /-- One unit deeper; `first` when this line fixes the unit. -/
  | deeper (first : Bool)
  /-- Back to an open level. -/
  | shallower
deriving DecidableEq, Repr

/-- A cause and the part of an indentation that shows it. -/
structure IndentFault where
  cause : Cause
  /-- The indentation before that part. -/
  before : Text
  text : Text
deriving DecidableEq, Repr

/-- The state of the machine. -/
structure Indentation where
  innermost : Level := ⟨0, none⟩
  /-- The levels around the innermost one, from the inside out. -/
  outer : List Level := []
  unit : Option Nat := none
  /-- The character to indent with. -/
  style : Option Char := none
  started : Bool := false
deriving DecidableEq, Repr

namespace Indentation

/-- The open levels, from the inside out. -/
def levels (m : Indentation) : List Level := m.innermost :: m.outer

/-- The machine after its style was compared with an indentation, which sets the style if it is the
first one. -/
def checkStyle (m : Indentation) (indent : Text) : Except IndentFault Indentation :=
  match indent with
  | [] => .ok m
  | c :: _ =>
    let style := m.style.getD c
    match indent.dropWhile (· = style) with
    | [] => .ok { m with style := some style }
    | d :: _ => .error ⟨.mixedIndent, indent.takeWhile (· = style), [d]⟩

/-- Closes levels from the innermost one, `level`, until one is at most `width` wide: that level,
those around it, and the width of the last level closed, which is `closed` if none was. -/
def closeTo (width closed : Nat) (level : Level) : List Level → Level × List Level × Nat
  | [] => (level, [], closed)
  | next :: outer =>
    if level.width ≤ width then (level, next :: outer, closed)
    else closeTo width level.width next outer

/-- The machine after a line with that indentation, except that the level of a deeper line is not
open yet. -/
def enter (m : Indentation) (indent : Text) : Except IndentFault (Shift × Indentation) :=
  let width := indent.length
  if !m.started then
    if width = 0 then .ok (.same, { m with started := true })
    else .error ⟨.firstLineIndent, [], indent⟩
  else
    match m.checkStyle indent with
    | .error fault => .error fault
    | .ok m =>
      let top := m.innermost.width
      if top < width then
        let unit := m.unit.getD (width - top)
        if width - top = unit then .ok (.deeper m.unit.isNone, { m with unit := some unit })
        else .error ⟨.wrongIndent (.exactly (top + unit)) width, [], indent⟩
      else if width = top then .ok (.same, m)
      else
        let (level, outer, closed) := closeTo width top m.innermost m.outer
        if level.width = width then .ok (.shallower, { m with innermost := level, outer })
        else .error ⟨.wrongIndent (.either level.width closed) width, [], indent⟩

def openLevel (m : Indentation) (level : Level) : Indentation :=
  { m with innermost := level, outer := m.levels }

end Indentation

end OffsideCss
