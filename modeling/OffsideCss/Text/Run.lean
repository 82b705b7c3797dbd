import OffsideCss.Text

/-! Runs of characters.  The end of a run is recognised by the text that is left there, so that a
run can stop at a pair of characters as well as at one. -/

namespace OffsideCss.Text

/-- Splits a text where what is left first satisfies `stop`, or at its end. -/
def splitBefore (stop : Text → Bool) : Text → Text × Text
  | [] => ([], [])
  | c :: rest =>
    if stop (c :: rest) then ([], c :: rest)
    else
      let (run, left) := splitBefore stop rest
      (c :: run, left)

/-- Splits like `splitBefore`, except that a backslash takes the character after it along: nothing
is tested between the two. -/
def splitUnescaped (stop : Text → Bool) : Text → Text × Text
  | [] => ([], [])
  | [c] => if stop [c] then ([], [c]) else ([c], [])
  | c :: d :: rest =>
    if stop (c :: d :: rest) then ([], c :: d :: rest)
    else if c = '\\' then
      let (run, left) := splitUnescaped stop rest
      (c :: d :: run, left)
    else
      let (run, left) := splitUnescaped stop (d :: rest)
      (c :: run, left)

theorem splitBefore_append (stop : Text → Bool) (t : Text) :
    (t.splitBefore stop).1 ++ (t.splitBefore stop).2 = t := by
  induction t with
  | nil => rfl
  | cons c t ih => by_cases h : stop (c :: t) <;> simp [splitBefore, h, ih]

theorem splitUnescaped_append (stop : Text → Bool) (t : Text) :
    (t.splitUnescaped stop).1 ++ (t.splitUnescaped stop).2 = t := by
  fun_induction splitUnescaped stop t <;> simp_all

theorem splitUnescaped_ne_nil {stop : Text → Bool} {c : Char} {t : Text}
    (h : stop (c :: t) = false) : (splitUnescaped stop (c :: t)).1 ≠ [] := by
  cases t with
  | nil => simp [splitUnescaped, h]
  | cons d t =>
    rw [splitUnescaped, if_neg (by simp [h])]
    split <;> simp

end OffsideCss.Text
