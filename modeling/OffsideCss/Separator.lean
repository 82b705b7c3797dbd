import OffsideCss.Token

/-! The colon between a property and its value.  It is the first colon outside parentheses that
whitespace or nothing follows, so `a:hover` has none. -/

namespace OffsideCss.Token

/-- Splits tokens behind `depth` open parentheses at the separating colon: the tokens before it, the
colon, and the tokens behind it. -/
def splitSeparator? (depth : Nat) : List Token → Option (List Token × Token × List Token)
  | [] => none
  | t :: ts =>
    if t.kind = .colon ∧ depth = 0 ∧ ts.head?.all isWhitespace then some ([], t, ts)
    else
      (splitSeparator? (t.kind.nesting depth) ts).map fun (before, colon, after) =>
        (t :: before, colon, after)

theorem splitSeparator?_append {depth : Nat} {ts before after : List Token} {colon : Token}
    (h : splitSeparator? depth ts = some (before, colon, after)) :
    before ++ colon :: after = ts := by
  induction ts generalizing depth before with
  | nil => simp [splitSeparator?] at h
  | cons t ts ih =>
    rw [splitSeparator?] at h
    split at h
    · obtain ⟨rfl, rfl, rfl⟩ : [] = before ∧ t = colon ∧ ts = after := by simpa using h
      rfl
    · obtain ⟨⟨b, c, a⟩, hs, he⟩ := Option.map_eq_some_iff.1 h
      obtain ⟨rfl, rfl, rfl⟩ : t :: b = before ∧ c = colon ∧ a = after := by simpa using he
      rw [List.cons_append, ih hs]

theorem kind_of_splitSeparator? {depth : Nat} {ts before after : List Token} {colon : Token}
    (h : splitSeparator? depth ts = some (before, colon, after)) : colon.kind = .colon := by
  induction ts generalizing depth before with
  | nil => simp [splitSeparator?] at h
  | cons t ts ih =>
    rw [splitSeparator?] at h
    split at h
    · next ht =>
      obtain ⟨-, rfl, -⟩ : [] = before ∧ t = colon ∧ ts = after := by simpa using h
      exact ht.1
    · obtain ⟨⟨b, c, a⟩, hsep, he⟩ := Option.map_eq_some_iff.1 h
      obtain ⟨-, rfl, rfl⟩ : t :: b = before ∧ c = colon ∧ a = after := by simpa using he
      exact ih hsep

end OffsideCss.Token
