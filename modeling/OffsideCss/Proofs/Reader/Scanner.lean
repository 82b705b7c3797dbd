import OffsideCss.Proofs.LineIndex
import OffsideCss.Reader.Scanner

/-! The scanner finds the tokens.  Where the size of a text is a counter, every offset in it is one, and
the scanner passes the tokens of the text one after the other. -/

namespace OffsideCss

open Token (join)

theorem Span.make?_of_le {start stop : Nat} (h : start ≤ stop) :
    Span.make? start stop = some ⟨start, stop⟩ :=
  if_pos h

/-- What is sought begins where the run before it ends. -/
theorem Text.seek?_eq (p : Text → Bool) (t : Text) :
    t.seek? p = if (t.splitBefore p).2 = [] then none else some (t.splitBefore p).1.bytes := by
  induction t with
  | nil => rfl
  | cons c t ih =>
    by_cases hp : p (c :: t)
    · simp [seek?, splitBefore, hp]
    · simp only [seek?, splitBefore, hp, Bool.false_eq_true, if_false, ih]
      split <;> rfl

namespace Lexeme

/-- The lexemes that tokens are, of which the first one stands at `offset`. -/
def spot (offset : Nat) : List Token → List Lexeme
  | [] => []
  | t :: ts => ⟨t, ⟨offset, offset + t.text.bytes⟩⟩ :: spot (offset + t.text.bytes) ts

theorem spot_append (offset : Nat) (ts us : List Token) :
    spot offset (ts ++ us) = spot offset ts ++ spot (offset + (join ts).bytes) us := by
  induction ts generalizing offset with
  | nil => rfl
  | cons t ts ih => rw [List.cons_append, spot, ih, spot, Token.join_cons, Text.bytes_append,
      List.cons_append, Nat.add_assoc]

@[simp] theorem map_spot (offset : Nat) (ts : List Token) :
    (spot offset ts).map (·.toToken) = ts := by
  induction ts generalizing offset with
  | nil => rfl
  | cons t ts ih => rw [spot, List.map_cons, ih]

@[simp] theorem length_spot (offset : Nat) (ts : List Token) :
    (spot offset ts).length = ts.length := by
  rw [← List.length_map (·.toToken), map_spot]

end Lexeme

namespace Reader

namespace Scanner

variable {offset : Nat} {c : Char} {t rest : Text}

theorem advance?_eq (h : offset + Text.bytes (c :: rest) < Counter.limit) :
    advance? ⟨offset, c :: rest⟩ = some ⟨offset + c.utf8Size, rest⟩ := by
  rw [Text.bytes_cons] at h
  simp only [advance?, Counter.add?_of_lt (show offset + c.utf8Size < Counter.limit by omega)]
  rfl

theorem skip?_eq (h : offset + Text.bytes (t ++ rest) < Counter.limit) :
    skip? ⟨offset, t ++ rest⟩ t.bytes = some ⟨offset + t.bytes, rest⟩ := by
  rw [Text.bytes_append] at h
  simp only [skip?, Counter.add?_of_lt (show offset + t.bytes < Counter.limit by omega),
    Text.cut?_append]
  rfl

theorem passBefore?_eq (stop : Text → Bool) (h : offset + t.bytes < Counter.limit) :
    passBefore? stop offset t =
      some ⟨offset + (t.splitBefore stop).1.bytes, (t.splitBefore stop).2⟩ := by
  induction t generalizing offset with
  | nil => rfl
  | cons c t ih =>
    rw [Text.bytes_cons] at h
    by_cases hs : stop (c :: t)
    · simp [passBefore?, Text.splitBefore, hs]
    · simp only [passBefore?, Text.splitBefore, hs, Bool.false_eq_true, if_false,
        Counter.add?_of_lt (show offset + c.utf8Size < Counter.limit by omega),
        Option.bind_eq_bind, Option.bind_some, Text.bytes_cons, ← Nat.add_assoc]
      exact ih (by omega)

theorem passUnescaped?_eq (stop : Text → Bool) (h : offset + t.bytes < Counter.limit) :
    passUnescaped? stop offset t =
      some ⟨offset + (t.splitUnescaped stop).1.bytes, (t.splitUnescaped stop).2⟩ := by
  fun_induction Text.splitUnescaped stop t generalizing offset with
  | case1 => rfl
  | case2 c hs => simp [passUnescaped?, hs]
  | case3 c hs =>
    rw [Text.bytes_cons] at h
    simp [passUnescaped?, hs, Counter.add?_of_lt (show offset + c.utf8Size < Counter.limit by omega)]
  | case4 c d rest hs => simp [passUnescaped?, hs]
  | case5 d rest run left hsplit hs ih =>
    simp only [Text.bytes_cons] at h
    rw [passUnescaped?, if_neg hs]
    simp only [if_true, Option.bind_eq_bind, Option.bind_some, Text.bytes_cons, ← Nat.add_assoc,
      Counter.add?_of_lt (show offset + ('\\' : Char).utf8Size < Counter.limit by omega),
      Counter.add?_of_lt
        (show offset + ('\\' : Char).utf8Size + d.utf8Size < Counter.limit by omega)]
    rw [ih (by omega), hsplit]
  | case6 c d rest hs hc run left hsplit ih =>
    simp only [Text.bytes_cons] at h
    rw [passUnescaped?, if_neg hs]
    simp only [hc, if_false, Option.bind_eq_bind, Option.bind_some, Text.bytes_cons, ← Nat.add_assoc,
      Counter.add?_of_lt (show offset + c.utf8Size < Counter.limit by omega)]
    rw [ih (by simp only [Text.bytes_cons]; omega), hsplit]

theorem passQuoted?_eq (h : offset + Text.bytes (c :: rest) < Counter.limit) :
    passQuoted? ⟨offset, c :: rest⟩ c = some ((Token.ofQuote c rest).1.kind,
      ⟨offset + (Token.ofQuote c rest).1.text.bytes, (Token.ofQuote c rest).2⟩) := by
  have hrest : offset + c.utf8Size + rest.bytes < Counter.limit := by rwa [Nat.add_assoc]
  simp only [passQuoted?, advance?_eq h, passUnescaped?_eq _ hrest, Option.bind_eq_bind,
    Option.bind_some]
  cases Token.quoted c rest with
  | unclosed hs =>
    rw [Token.ofQuote_unclosed hs, hs, Nat.add_assoc]
    rfl
  | @closed inside left hs =>
    rw [Token.ofQuote_closed hs, hs, if_neg (List.cons_ne_nil _ _), advance?_eq]
    · simp [Nat.add_assoc]
    · simpa [Nat.add_assoc] using hrest

theorem passBlockComment?_eq (h : offset + Text.bytes ('/' :: '*' :: rest) < Counter.limit) :
    passBlockComment? ⟨offset, '/' :: '*' :: rest⟩ =
      some ((Token.ofBlockComment '/' ('*' :: rest)).1.kind,
        ⟨offset + (Token.ofBlockComment '/' ('*' :: rest)).1.text.bytes,
          (Token.ofBlockComment '/' ('*' :: rest)).2⟩) := by
  have hcut : Text.cut? ('/' :: '*' :: rest) 2 = some (['/', '*'], rest) :=
    Text.cut?_append ['/', '*'] rest
  simp only [passBlockComment?, hcut, Text.seek?_eq, Option.bind_eq_bind, Option.bind_some]
  cases Token.commented rest with
  | unclosed hs =>
    have hskip := skip?_eq (t := '/' :: '*' :: rest) (by rwa [List.append_nil])
    rw [List.append_nil] at hskip
    rw [Token.ofBlockComment_unclosed hs, hs, if_pos rfl]
    simp only [hskip]
    rfl
  | @closed inside left hs =>
    have hcomment : '/' :: '*' :: (inside ++ '*' :: '/' :: left) =
        ('/' :: '*' :: inside ++ ['*', '/']) ++ left := by simp
    have hbytes : Text.bytes ('/' :: '*' :: inside ++ ['*', '/']) = inside.bytes + 4 := by
      rw [Text.bytes_append, Text.bytes_cons, Text.bytes_cons, show Text.bytes ['*', '/'] = 2 from rfl,
        show ('/' : Char).utf8Size = 1 from rfl, show ('*' : Char).utf8Size = 1 from rfl]
      omega
    have hskip := skip?_eq (hcomment ▸ h)
    rw [← hcomment, hbytes] at hskip
    rw [Token.ofBlockComment_closed hs, hs, if_neg (List.cons_ne_nil _ _)]
    simp only [hskip, hbytes]
    rfl

/-- Passing characters where the first one is not tested is the same where it is no stop. -/
theorem bind_advanceEscaped? {stop : Text → Bool} (hstop : stop (c :: rest) = false) :
    ((advanceEscaped? ⟨offset, c :: rest⟩).bind fun s => passUnescaped? stop s.offset s.rest) =
      passUnescaped? stop offset (c :: rest) := by
  simp only [advanceEscaped?, advance?, Option.bind_eq_bind, Option.pure_def, List.head?_cons,
    Option.some.injEq]
  cases hadd : Counter.add? offset c.utf8Size with
  | none => cases rest <;> simp [passUnescaped?, hstop, hadd]
  | some behind =>
    cases rest with
    | nil =>
      simp only [passUnescaped?, hstop, hadd, Option.bind_some]
      split <;> rfl
    | cons d rest =>
      simp only [passUnescaped?, hstop, hadd, Option.bind_some, Option.bind_eq_bind]
      split
      · cases Counter.add? behind d.utf8Size <;> simp
      · simp

/-- The scanner passes the first token of what is left. -/
theorem pass?_eq (depth : Nat) (h : offset + Text.bytes (c :: rest) < Counter.limit) :
    pass? depth ⟨offset, c :: rest⟩ = some ((Token.next depth c rest).1.kind,
      ⟨offset + (Token.next depth c rest).1.text.bytes, (Token.next depth c rest).2⟩) := by
  have hrest : offset + c.utf8Size + rest.bytes < Counter.limit := by rwa [Nat.add_assoc]
  simp only [pass?, Token.next, List.head?_cons, Option.bind_eq_bind, Option.bind_some]
  cases hk : TokenKind.ofPunctuation? c with
  | some kind => simp [advance?_eq h]
  | none =>
    dsimp only
    by_cases hfeed : c = '\n'
    · simp only [if_pos hfeed, advance?_eq h]
      rfl
    simp only [if_neg hfeed]
    by_cases hbreak : Text.atLineBreak (c :: rest) = true
    · obtain ⟨rfl, tail, rfl⟩ : c = '\r' ∧ ∃ tail, rest = '\n' :: tail := by
        simpa [Text.atLineBreak, hfeed, List.head?_eq_some_iff] using hbreak
      have hskip := skip?_eq (t := ['\r', '\n']) h
      simp only [if_pos hbreak]
      exact congrArg (·.bind fun s => some (TokenKind.lineBreak, s)) hskip
    simp only [if_neg hbreak]
    by_cases hspace : isSpacing c = true
    · have hrun : ¬(!Text.atSpacing (c :: rest)) = true := by simp [Text.atSpacing, hspace, hbreak]
      simp only [if_pos hspace, passBefore?_eq _ h, Text.splitBefore, if_neg hrun]
      rfl
    simp only [if_neg hspace]
    by_cases hquote : isQuote c = true
    · simpa only [if_pos hquote] using passQuoted?_eq h
    simp only [if_neg hquote]
    by_cases hblock : Text.atBlockComment (c :: rest) = true
    · obtain ⟨rfl, tail, rfl⟩ : c = '/' ∧ ∃ tail, rest = '*' :: tail := by
        simpa [Text.atBlockComment, List.head?_eq_some_iff] using hblock
      simpa only [if_pos hblock] using passBlockComment?_eq h
    simp only [if_neg hblock]
    by_cases hline : Text.atLineComment depth (c :: rest) = true
    · simp only [if_pos hline, passBefore?_eq _ h, Text.splitBefore, if_neg hbreak]
      rfl
    simp only [if_neg hline]
    by_cases hat : c = '@'
    · simp only [if_pos hat, advance?_eq h, Option.bind_some, passBefore?_eq _ hrest, Nat.add_assoc]
      rfl
    have hword : Text.atWordEnd depth (c :: rest) = false := by
      simp [Text.atWordEnd, endsWord, hk, hfeed, hspace, hquote, hblock, hline]
    simp only [if_neg hat]
    rw [← Option.bind_assoc, bind_advanceEscaped? hword, passUnescaped?_eq _ h]
    rfl

end Scanner

variable {source : Text} {depth : Nat}

theorem nesting?_eq (h : depth + 1 < Counter.limit) (kind : TokenKind) :
    nesting? depth kind = some (kind.nesting depth) := by
  unfold nesting?
  split
  · next hk => rw [hk, Counter.add?_of_lt h, TokenKind.nesting]
  · rfl

/-- The scanner finds the tokens of what is left.  Each open parenthesis behind it has a byte of its
own, so their number is a counter, too. -/
theorem scanFrom?_eq (h : source.bytes < Counter.limit) (depth : Nat) (t : Text) :
    ∀ u, source = u ++ t → depth ≤ u.bytes →
      scanFrom? source depth ⟨u.bytes, t⟩ = some (Lexeme.spot u.bytes (Token.scanFrom depth t)) := by
  fun_induction Token.scanFrom depth t with
  | case1 =>
    intro u _ _
    rw [scanFrom?, if_pos rfl]
    rfl
  | case2 depth c rest step ih =>
    intro u hsource hdepth
    have happend : step.1.text ++ step.2 = c :: rest := Token.next_append depth c rest
    have hsplit : source = u ++ step.1.text ++ step.2 := by rw [hsource, ← happend, List.append_assoc]
    have hbytes : u.bytes + Text.bytes (c :: rest) < Counter.limit := by
      rwa [← Text.bytes_append, ← hsource]
    have htext : 0 < step.1.text.bytes := by
      obtain ⟨d, text, htext⟩ := List.exists_cons_of_ne_nil (Token.next_text_ne_nil depth c rest)
      have hd := d.utf8Size_pos
      rw [show step.1.text = d :: text from htext, Text.bytes_cons]
      omega
    have hlimit : depth + 1 < Counter.limit := by
      have hc := c.utf8Size_pos
      rw [Text.bytes_cons] at hbytes
      omega
    have hnesting : step.1.kind.nesting depth ≤ (u ++ step.1.text).bytes := by
      rw [Text.bytes_append]
      unfold TokenKind.nesting
      split <;> omega
    have hslice : source.slice? ⟨u.bytes, u.bytes + step.1.text.bytes⟩ = some step.1.text :=
      Text.slice?_eq_some.2 ⟨u, step.2, hsplit, rfl⟩
    have hrest := ih _ hsplit hnesting
    rw [Text.bytes_append] at hrest
    rw [scanFrom?, if_neg (List.cons_ne_nil _ _)]
    simp only [Scanner.pass?_eq depth hbytes, nesting?_eq hlimit, Option.bind_eq_bind, Option.bind_some,
      Span.make?_of_le (Nat.le_add_right _ _)]
    rw [hslice, Option.bind_some, if_pos (Token.next_length_lt depth c rest), hrest, Option.bind_some]
    rfl

/-- The scanner finds the tokens of a text. -/
theorem scan?_eq (h : source.bytes < Counter.limit) :
    scan? source = some (Lexeme.spot 0 (Token.scan source)) :=
  scanFrom?_eq h 0 source [] (List.nil_append source).symm (Nat.zero_le _)

end Reader

end OffsideCss
