import OffsideCss.Text

/-! Trimming.  A character is blank when Unicode gives it the property White_Space; a trimmed text
neither begins nor ends with one. -/

namespace OffsideCss

/-- The characters with the Unicode property White_Space. -/
def isBlank (c : Char) : Bool :=
  ('\t' ≤ c && c ≤ '\r') || c == ' ' || c == '\u0085' || c == '\u00a0' || c == '\u1680' ||
    ('\u2000' ≤ c && c ≤ '\u200a') || c == '\u2028' || c == '\u2029' || c == '\u202f' ||
    c == '\u205f' || c == '\u3000'

namespace Text

def trimStart (t : Text) : Text := t.dropWhile isBlank

def trimEnd (t : Text) : Text := (t.reverse.dropWhile isBlank).reverse

def trim (t : Text) : Text := t.trimStart.trimEnd

/-- A text cut into its leading blanks, its trimmed middle, and its trailing blanks.  The blanks of
a text that holds nothing else all lead. -/
def trimParts (t : Text) : Text × Text × Text :=
  (t.takeWhile isBlank, t.trim, (t.trimStart.reverse.takeWhile isBlank).reverse)

theorem trimEnd_append_blanks (t : Text) :
    t.trimEnd ++ (t.reverse.takeWhile isBlank).reverse = t := by
  rw [trimEnd, ← List.reverse_append, List.takeWhile_append_dropWhile, List.reverse_reverse]

theorem trimParts_append (t : Text) :
    t.trimParts.1 ++ t.trimParts.2.1 ++ t.trimParts.2.2 = t := by
  rw [List.append_assoc, trimParts, trim, trimEnd_append_blanks, trimStart,
    List.takeWhile_append_dropWhile]

end Text

end OffsideCss
