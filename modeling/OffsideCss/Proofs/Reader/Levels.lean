import OffsideCss.Proofs.IndentStep
import OffsideCss.Proofs.Reader.Lines
import OffsideCss.Reader.Levels

/-! The stack of levels is the indentation machine.  The outermost level is at the margin, which no line
is less wide than, so closing levels never empties the stack. -/

namespace OffsideCss

/-- The state of the machine with its levels on a stack. -/
def Indentation.stacked (m : Indentation) : Reader.Levels := ⟨m.levels, m.unit, m.style, m.started⟩

/-- The fault in an indentation that stands at `place`. -/
def IndentFault.fault (f : IndentFault) (place : Place) : Fault :=
  ⟨f.cause, place.after f.before, f.text⟩

namespace Reader.Levels

variable {m : Indentation} {place : Place} {indent : Text}

theorem checkStyle?_eq (h : place.offset + indent.bytes < Counter.limit) :
    m.stacked.checkStyle? indent (place.span indent) =
      Reading.of (((m.checkStyle indent).mapError (·.fault place)).map (·.stacked)) := by
  cases indent with
  | nil => rfl
  | cons c indent =>
    unfold checkStyle? Indentation.checkStyle
    obtain ⟨style, hstyle⟩ : ∃ style, m.style.getD c = style := ⟨_, rfl⟩
    have hsplit := List.takeWhile_append_dropWhile (p := (· = style)) (l := c :: indent)
    simp only [show m.stacked.style = m.style from rfl, hstyle]
    cases hd : (c :: indent).dropWhile (· = style) with
    | nil => rfl
    | cons d rest =>
      rw [hd] at hsplit
      rw [← hsplit, Text.bytes_append, Text.bytes_cons] at h
      have hstart := Counter.add?_of_lt (m := place.offset)
        (n := Text.bytes ((c :: indent).takeWhile (· = style))) (by omega)
      have hstop := Counter.add?_of_lt
        (m := place.offset + Text.bytes ((c :: indent).takeWhile (· = style))) (n := d.utf8Size)
        (by omega)
      simp only [Place.span, hstart, hstop, liftM_some_bind, Span.make?_of_le (Nat.le_add_right _ _)]
      rfl

theorem closeTo?_eq {width closed : Nat} {level : Level} {outer : List Level}
    (h : ∀ l ∈ (level :: outer).getLast?, l.width ≤ width) :
    closeTo? width closed (level :: outer) =
      let x := Indentation.closeTo width closed level outer
      some (x.1 :: x.2.1, x.2.2) := by
  induction outer generalizing level closed with
  | nil =>
    have hle := h level rfl
    rw [closeTo?, if_neg (Nat.not_lt_of_le hle)]
    rfl
  | cons next outer ih =>
    rw [closeTo?, Indentation.closeTo]
    split
    · next hlt => rw [if_neg (Nat.not_le_of_lt hlt), ih (by simpa using h)]
    · next hle => rw [if_pos (Nat.le_of_not_lt hle)]

theorem enter?_eq (hground : ∀ l ∈ m.levels.getLast?, l.width = 0)
    (h : place.offset + indent.bytes < Counter.limit) :
    m.stacked.enter? indent (place.span indent) =
      Reading.of (((m.enter indent).mapError (·.fault place)).map fun x => (x.1, x.2.stacked)) := by
  unfold enter? Indentation.enter
  cases hs : m.started with
  | false =>
    simp only [show m.stacked.started = false from hs, Bool.not_false, if_true]
    split
    · rfl
    · rfl
  | true =>
    simp only [show m.stacked.started = true from hs, Bool.not_true, Bool.false_eq_true, if_false,
      checkStyle?_eq h]
    cases hcheck : m.checkStyle indent with
    | error fault => rfl
    | ok m' =>
      have hlevels : m'.levels = m.levels := by rw [Indentation.checkStyle_eq_ok hcheck]; rfl
      have htop : m'.stacked.top? = some m'.innermost := rfl
      simp only [Except.mapError, Except.map, Reading.of_ok, pure_bind, htop, liftM_some_bind]
      split
      · next hlt =>
        rw [Counter.sub?_of_le (Nat.le_of_lt hlt), liftM_some_bind,
          show m'.stacked.unit = m'.unit from rfl]
        split
        · rfl
        · simp [IndentFault.fault, Fault.blame]
      · split
        · rfl
        · have hclose : closeTo? indent.length m'.innermost.width m'.stacked.stack = _ :=
            closeTo?_eq fun l hl => by
              rw [hground l (hlevels ▸ hl)]
              exact Nat.zero_le _
          rw [hclose, liftM_some_bind]
          cases Indentation.closeTo indent.length m'.innermost.width m'.innermost m'.outer with
          | mk level rest =>
            obtain ⟨outer, closed⟩ := rest
            simp only [List.head?_cons, liftM_some_bind]
            split
            · rfl
            · simp [IndentFault.fault, Fault.blame]

end Reader.Levels

end OffsideCss
