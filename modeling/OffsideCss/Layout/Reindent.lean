import OffsideCss.Token.Scan

/-! Indenting the lines of a field anew.  Only whitespace with a line break changes, and a line break
inside a string or a comment is no whitespace. -/

namespace OffsideCss

/-- A run of tokens that are all whitespace or all none: a line break and `indent` where it has a
line break, and its text otherwise. -/
def Token.reindentRun (indent : Text) (run : List Token) : Text :=
  if run.any (·.kind = .lineBreak) then '\n' :: indent else Token.join run

/-- The text of tokens with each run of whitespace indented anew. -/
def Token.reindent (indent : Text) (ts : List Token) : Text :=
  (ts.splitBy fun t u => t.isWhitespace == u.isWhitespace).flatMap (reindentRun indent)

/-- The same text, token by token: a run of whitespace is looked at as a whole where it begins, and given
up where it has no line break. -/
def Token.reindentEach (indent : Text) : List Token → Text
  | [] => []
  | t :: ts =>
    if ((t :: ts).takeWhile isWhitespace).any (·.kind = .lineBreak) then
      '\n' :: indent ++ reindentEach indent (ts.dropWhile isWhitespace)
    else t.text ++ reindentEach indent ts
termination_by ts => ts.length
decreasing_by
  · exact Nat.lt_succ_of_le (List.dropWhile_sublist isWhitespace).length_le
  · exact Nat.lt_succ_self _

/-- A text with the lines behind its first one indented by `indent`. -/
def Text.reindent (t indent : Text) : Text :=
  if '\n' ∈ t then Token.reindent indent (Token.scan t) else t

end OffsideCss
