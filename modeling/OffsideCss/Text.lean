/-! Texts are lists of characters, so that scanning is recursion on the list and every statement
about what is kept or dropped is one about appending.  Sizes are counted in UTF-8 bytes where spans
need them. -/

namespace OffsideCss

/-- A text, as the list of its characters. -/
abbrev Text := List Char

namespace Text

/-- The size of a text in UTF-8 bytes. -/
def bytes (t : Text) : Nat := t.foldr (fun c n => c.utf8Size + n) 0

@[simp] theorem bytes_nil : bytes [] = 0 := rfl

@[simp] theorem bytes_cons (c : Char) (t : Text) : bytes (c :: t) = c.utf8Size + bytes t := rfl

@[simp] theorem bytes_append (t u : Text) : bytes (t ++ u) = bytes t + bytes u := by
  induction t with
  | nil => simp
  | cons c t ih => rw [List.cons_append, bytes_cons, bytes_cons, ih, Nat.add_assoc]

theorem bytes_replicate (n : Nat) (c : Char) : bytes (List.replicate n c) = n * c.utf8Size := by
  induction n with
  | zero => simp
  | succ n ih => rw [List.replicate_succ, bytes_cons, ih, Nat.succ_mul, Nat.add_comm]

/-- A text repeated `n` times. -/
def times (t : Text) (n : Nat) : Text := (List.replicate n t).flatten

/-- The text of a string literal or of an answer. -/
def ofString (s : String) : Text := s.toList

def asString (t : Text) : String := String.ofList t

@[simp] theorem ofString_asString (t : Text) : ofString (asString t) = t := by
  simp [ofString, asString]

end Text

end OffsideCss
