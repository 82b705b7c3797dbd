import OffsideCss.Text.Run
import OffsideCss.Token

/-! The scanner.  `Token.scan` cuts a text into tokens without loss.  Two slashes begin a comment only
outside parentheses, so the number of open parentheses goes along; it is all that one token needs
to know of the tokens before it. -/

namespace OffsideCss

/-- The kind of a character that is a token of its own. -/
def TokenKind.ofPunctuation? (c : Char) : Option TokenKind :=
  if c = ':' then some colon
  else if c = ';' then some semicolon
  else if c = ',' then some comma
  else if c = '\x7b' then some leftBrace
  else if c = '\x7d' then some rightBrace
  else if c = '(' then some leftParen
  else if c = ')' then some rightParen
  else none

/-- The blanks within a line.  A carriage return is one unless it belongs to a line break. -/
def isSpacing (c : Char) : Bool := c = ' ' || c = '\t' || c = '\x0c' || c = '\r'

def isQuote (c : Char) : Bool := c = '"' || c = '\''

/-- The characters that end a word. -/
def endsWord (c : Char) : Bool :=
  (TokenKind.ofPunctuation? c).isSome || c = '\n' || isSpacing c || isQuote c

/-- The characters that end an at-word, which colons and commas do not. -/
def endsAtWord (c : Char) : Bool :=
  c = '\n' || isSpacing c || isQuote c ||
    c = ';' || c = '\x7b' || c = '\x7d' || c = '(' || c = ')' || c = '/' || c = '\\'

namespace Text

def atLineBreak : Text → Bool
  | [] => false
  | c :: rest => c = '\n' || (c = '\r' && rest.head? = some '\n')

/-- Whether a text begins with a blank that is not part of a line break. -/
def atSpacing : Text → Bool
  | [] => false
  | c :: rest => isSpacing c && !atLineBreak (c :: rest)

def atBlockComment : Text → Bool
  | [] => false
  | c :: rest => c = '/' && rest.head? = some '*'

def atBlockEnd : Text → Bool
  | [] => false
  | c :: rest => c = '*' && rest.head? = some '/'

/-- Whether a text begins with two slashes outside parentheses. -/
def atLineComment (depth : Nat) : Text → Bool
  | [] => false
  | c :: rest => depth = 0 && c = '/' && rest.head? = some '/'

/-- Whether a word ends before what is left of a text. -/
def atWordEnd (depth : Nat) : Text → Bool
  | [] => true
  | c :: rest => endsWord c || atBlockComment (c :: rest) || atLineComment depth (c :: rest)

/-- Whether an at-word ends before what is left of a text. -/
def atAtWordEnd : Text → Bool
  | [] => true
  | c :: _ => endsAtWord c

def atChar (c : Char) (t : Text) : Bool := t.head? = some c

end Text

namespace Token

/-- The token whose text is `opening` and the run that `parts` begins with, and the rest of
`parts`. -/
def ofRun (kind : TokenKind) (opening : Text) (parts : Text × Text) : Token × Text :=
  (⟨kind, opening ++ parts.1⟩, parts.2)

/-- The string that the quote `c` opens before `rest`.  A backslash in it takes the next character
along. -/
def ofQuote (c : Char) (rest : Text) : Token × Text :=
  match Text.splitUnescaped (Text.atChar c) rest with
  | (inside, []) => (⟨.unclosed, c :: inside⟩, [])
  | (inside, close :: left) => (⟨.string, c :: inside ++ [close]⟩, left)

/-- The block comment that the slash `c` opens together with the star that `rest` begins with. -/
def ofBlockComment (c : Char) (rest : Text) : Token × Text :=
  let opening := c :: rest.take 1
  match Text.splitBefore Text.atBlockEnd (rest.drop 1) with
  | (inside, []) => (⟨.unclosed, opening ++ inside⟩, [])
  | (inside, left) => (⟨.blockComment, opening ++ inside ++ left.take 2⟩, left.drop 2)

/-- The first token of the text `c :: rest` behind `depth` open parentheses, and the text behind
it. -/
def next (depth : Nat) (c : Char) (rest : Text) : Token × Text :=
  match TokenKind.ofPunctuation? c with
  | some kind => (⟨kind, [c]⟩, rest)
  | none =>
    if c = '\n' then (⟨.lineBreak, [c]⟩, rest)
    else if Text.atLineBreak (c :: rest) then (⟨.lineBreak, c :: rest.take 1⟩, rest.drop 1)
    else if isSpacing c then ofRun .space [c] (Text.splitBefore (fun t => !t.atSpacing) rest)
    else if isQuote c then ofQuote c rest
    else if Text.atBlockComment (c :: rest) then ofBlockComment c rest
    else if Text.atLineComment depth (c :: rest) then
      ofRun .lineComment [c] (Text.splitBefore Text.atLineBreak rest)
    else if c = '@' then ofRun .atWord [c] (Text.splitBefore Text.atAtWordEnd rest)
    else ofRun .word [] (Text.splitUnescaped (Text.atWordEnd depth) (c :: rest))

theorem ofQuote_append (c : Char) (rest : Text) :
    (ofQuote c rest).1.text ++ (ofQuote c rest).2 = c :: rest := by
  have h := Text.splitUnescaped_append (Text.atChar c) rest
  unfold ofQuote
  split <;> simp_all

theorem ofBlockComment_append (c : Char) (rest : Text) :
    (ofBlockComment c rest).1.text ++ (ofBlockComment c rest).2 = c :: rest := by
  have h := Text.splitBefore_append Text.atBlockEnd (rest.drop 1)
  unfold ofBlockComment
  split
  · next inside hs =>
    rw [hs, List.append_nil] at h
    simp only at h
    simp only [List.cons_append, List.append_nil, h, List.take_append_drop]
  · next inside left _ hs =>
    rw [hs] at h
    simp only [List.cons_append, List.append_assoc, List.take_append_drop, h]

/-- A token and what it leaves make up the text. -/
theorem next_append (depth : Nat) (c : Char) (rest : Text) :
    (next depth c rest).1.text ++ (next depth c rest).2 = c :: rest := by
  unfold next
  split
  · rfl
  · repeat' split
    · rfl
    · rw [List.cons_append, List.take_append_drop]
    · simp [ofRun, Text.splitBefore_append]
    · exact ofQuote_append c rest
    · exact ofBlockComment_append c rest
    · simp [ofRun, Text.splitBefore_append]
    · simp [ofRun, Text.splitBefore_append]
    · simp [ofRun, Text.splitUnescaped_append]

/-- No token is empty: a word takes at least the character that no other kind begins with. -/
theorem next_text_ne_nil (depth : Nat) (c : Char) (rest : Text) :
    (next depth c rest).1.text ≠ [] := by
  unfold next
  split
  · simp
  · next hc =>
    repeat' split
    · simp
    · simp
    · simp [ofRun]
    · unfold ofQuote
      split <;> simp
    · unfold ofBlockComment
      split <;> simp
    · simp [ofRun]
    · simp [ofRun]
    · next hn _ hs hq hb hl _ =>
      apply Text.splitUnescaped_ne_nil
      simp [Text.atWordEnd, endsWord, hc, hn, hs, hq, hb, hl]

theorem next_length_lt (depth : Nat) (c : Char) (rest : Text) :
    (next depth c rest).2.length < (c :: rest).length := by
  have h := congrArg List.length (next_append depth c rest)
  have h' := List.length_pos_iff.2 (next_text_ne_nil depth c rest)
  rw [List.length_append] at h
  omega

def scanFrom (depth : Nat) : Text → List Token
  | [] => []
  | c :: rest =>
    let step := next depth c rest
    step.1 :: scanFrom (step.1.kind.nesting depth) step.2
termination_by t => t.length
decreasing_by exact next_length_lt depth c rest

def scan (t : Text) : List Token := scanFrom 0 t

@[simp] theorem scanFrom_nil (depth : Nat) : scanFrom depth [] = [] := by
  rw [scanFrom]

theorem scanFrom_cons (depth : Nat) (c : Char) (rest : Text) :
    scanFrom depth (c :: rest) = (next depth c rest).1 ::
      scanFrom ((next depth c rest).1.kind.nesting depth) (next depth c rest).2 := by
  rw [scanFrom]

/-- Scanning loses nothing. -/
theorem join_scanFrom (depth : Nat) (t : Text) : join (scanFrom depth t) = t := by
  fun_induction scanFrom depth t with
  | case1 => rfl
  | case2 depth c rest step ih => rw [join_cons, ih, next_append]

theorem join_scan (t : Text) : join (scan t) = t := join_scanFrom 0 t

end Token

end OffsideCss
