import OffsideCss.Proofs.TokenShape

/-! Scanning a part of a text.  The scanner looks at most two characters ahead, so a text that is cut
at the end of a token has the same tokens before the cut, and the text behind it has the same tokens
after it when it is scanned from the depth that the tokens before it lead to. -/

namespace OffsideCss

/-- A test that looks at one character or at two. -/
structure Text.LooksAhead (stop : Text → Bool) : Prop where
  one : ∀ {c : Char} {t : Text}, stop [c] = true → stop (c :: t) = true
  two : ∀ {c d : Char} {t : Text}, stop (c :: d :: t) = stop [c, d]

namespace Text

variable {stop : Text → Bool} {c d : Char} {t : Text}

theorem splitBefore_of_stop (hs : stop (c :: t) = true) :
    splitBefore stop (c :: t) = ([], c :: t) := by
  simp [splitBefore, hs]

theorem splitBefore_cons (hs : stop (c :: t) = false) :
    splitBefore stop (c :: t) = (c :: (splitBefore stop t).1, (splitBefore stop t).2) := by
  simp [splitBefore, hs]

theorem splitUnescaped_of_stop (hs : stop (c :: t) = true) :
    splitUnescaped stop (c :: t) = ([], c :: t) := by
  cases t <;> simp [splitUnescaped, hs]

theorem splitUnescaped_escape (hs : stop ('\\' :: d :: t) = false) :
    splitUnescaped stop ('\\' :: d :: t) =
      ('\\' :: d :: (splitUnescaped stop t).1, (splitUnescaped stop t).2) := by
  simp [splitUnescaped, hs]

theorem splitUnescaped_cons (hs : stop (c :: t) = false) (hc : t = [] ∨ c ≠ '\\') :
    splitUnescaped stop (c :: t) =
      (c :: (splitUnescaped stop t).1, (splitUnescaped stop t).2) := by
  cases t <;> simp_all [splitUnescaped]

theorem splitBefore_run_append {w tail : Text} (hw : ∀ c ∈ w, ∀ u, stop (c :: u) = false)
    (htail : tail = [] ∨ stop tail = true) : splitBefore stop (w ++ tail) = (w, tail) := by
  induction w with
  | nil =>
    cases tail with
    | nil => rfl
    | cons c tail => exact splitBefore_of_stop (htail.resolve_left (by simp))
  | cons c w ih =>
    rw [List.cons_append, splitBefore_cons (hw c List.mem_cons_self _),
      ih fun d hd => hw d (List.mem_cons_of_mem _ hd)]

theorem splitUnescaped_run_append {w tail : Text}
    (hw : ∀ c ∈ w, c ≠ '\\' ∧ ∀ u, stop (c :: u) = false) (htail : tail = [] ∨ stop tail = true) :
    splitUnescaped stop (w ++ tail) = (w, tail) := by
  induction w with
  | nil =>
    cases tail with
    | nil => rfl
    | cons c tail => exact splitUnescaped_of_stop (htail.resolve_left (by simp))
  | cons c w ih =>
    obtain ⟨hc, hs⟩ := hw c List.mem_cons_self
    rw [List.cons_append, splitUnescaped_cons (hs _) (.inr hc),
      ih fun d hd => hw d (List.mem_cons_of_mem _ hd)]

namespace LooksAhead

theorem spacing : LooksAhead fun t => !t.atSpacing where
  one := by simp [Text.atSpacing, atLineBreak]; grind
  two := by simp [Text.atSpacing, atLineBreak]

theorem lineBreak : LooksAhead atLineBreak where
  one := by simp_all [atLineBreak]
  two := by simp [atLineBreak]

theorem blockEnd : LooksAhead atBlockEnd where
  one := by simp [atBlockEnd]
  two := by simp [atBlockEnd]

theorem wordEnd (depth : Nat) : LooksAhead (atWordEnd depth) where
  one := by simp_all [atWordEnd, atBlockComment, atLineComment]
  two := by simp [atWordEnd, atBlockComment, atLineComment]

theorem atWordEnd : LooksAhead atAtWordEnd where
  one := by simp [atAtWordEnd]
  two := by simp [atAtWordEnd]

theorem char (c : Char) : LooksAhead (atChar c) where
  one := by simp [atChar]
  two := by simp [atChar]

variable (h : LooksAhead stop)
include h

theorem cons_append (u : Text) (hs : stop (c :: t) = true) : stop (c :: (t ++ u)) = true := by
  cases t with
  | nil => exact h.one hs
  | cons d t => rwa [List.cons_append, h.two, ← h.two (t := t)]

theorem cons_cons_append (u : Text) : stop (c :: d :: (t ++ u)) = stop (c :: d :: t) := by
  rw [h.two, h.two (t := t)]

/-- A run that ends inside a text does not see what is put behind the text. -/
theorem splitBefore_append (u : Text) (ht : (splitBefore stop t).2 ≠ []) :
    splitBefore stop (t ++ u) = ((splitBefore stop t).1, (splitBefore stop t).2 ++ u) := by
  induction t with
  | nil => simp [splitBefore] at ht
  | cons c t ih =>
    by_cases hs : stop (c :: t) = true
    · rw [splitBefore_of_stop hs, List.cons_append, splitBefore_of_stop (h.cons_append u hs)]
    · rw [Bool.not_eq_true] at hs
      rw [splitBefore_cons hs] at ht ⊢
      cases t with
      | nil => simp [splitBefore] at ht
      | cons d t =>
        have hs' := (h.cons_cons_append u).trans hs
        rw [List.cons_append, List.cons_append, splitBefore_cons hs', ← List.cons_append, ih ht]

theorem splitUnescaped_append (u : Text) (ht : (splitUnescaped stop t).2 ≠ []) :
    splitUnescaped stop (t ++ u) =
      ((splitUnescaped stop t).1, (splitUnescaped stop t).2 ++ u) := by
  fun_induction splitUnescaped stop t with
  | case1 => simp at ht
  | case2 c hs => exact splitUnescaped_of_stop (h.cons_append u hs)
  | case3 c hs => simp at ht
  | case4 c d rest hs => exact splitUnescaped_of_stop (h.cons_append u hs)
  | case5 d rest run left hr hs ih =>
    have hs' := (h.cons_cons_append u).trans (Bool.eq_false_iff.2 hs)
    rw [hr] at ih
    rw [List.cons_append, List.cons_append, splitUnescaped_escape hs', ih ht]
  | case6 c d rest hs hc run left hr ih =>
    have hs' := (h.cons_cons_append u).trans (Bool.eq_false_iff.2 hs)
    rw [hr] at ih
    rw [List.cons_append, List.cons_append, splitUnescaped_cons hs' (.inr hc),
      ← List.cons_append, ih ht]

theorem false_of_append (u : Text) (hs : stop (c :: (t ++ u)) = false) :
    stop (c :: t) = false :=
  Bool.eq_false_iff.2 fun ht => Bool.eq_false_iff.1 hs (h.cons_append u ht)

/-- Cutting a text behind a run, where what is left of it still ends the run, keeps the run. -/
theorem splitBefore_cut {run u w : Text} (hr : splitBefore stop (run ++ (w ++ u)) = (run, w ++ u))
    (hw : w ≠ [] → stop (w ++ u) = true → stop w = true) :
    splitBefore stop (run ++ w) = (run, w) := by
  induction run with
  | nil =>
    cases w with
    | nil => rfl
    | cons c w =>
      by_cases hs : stop (c :: (w ++ u)) = true
      · exact splitBefore_of_stop (hw (List.cons_ne_nil c w) hs)
      · rw [List.nil_append, List.cons_append, splitBefore_cons (Bool.eq_false_iff.2 hs)] at hr
        simp at hr
  | cons c run ih =>
    have hs : stop (c :: (run ++ (w ++ u))) = false := by
      refine Bool.eq_false_iff.2 fun hs => ?_
      rw [List.cons_append, splitBefore_of_stop hs] at hr
      simp at hr
    rw [List.cons_append, splitBefore_cons hs, Prod.mk.injEq, List.cons.injEq] at hr
    rw [← List.append_assoc] at hs
    rw [List.cons_append, splitBefore_cons (h.false_of_append u hs),
      ih (Prod.ext hr.1.2 hr.2)]

theorem splitUnescaped_cut : ∀ {run u w : Text},
    splitUnescaped stop (run ++ (w ++ u)) = (run, w ++ u) →
    (w ≠ [] → stop (w ++ u) = true → stop w = true) →
    splitUnescaped stop (run ++ w) = (run, w)
  | [], u, [], _, _ => by simp [splitUnescaped]
  | [], u, c :: w, hr, hw => by
    by_cases hs : stop (c :: (w ++ u)) = true
    · exact splitUnescaped_of_stop (hw (List.cons_ne_nil c w) hs)
    · have := splitUnescaped_ne_nil (Bool.eq_false_iff.2 hs)
      rw [List.nil_append, List.cons_append] at hr
      simp [hr] at this
  | c :: run, u, w, hr, hw => by
    have hs : stop (c :: (run ++ (w ++ u))) = false := by
      refine Bool.eq_false_iff.2 fun hs => ?_
      rw [List.cons_append, splitUnescaped_of_stop hs] at hr
      simp at hr
    have hs' := h.false_of_append (t := run ++ w) u (by rwa [List.append_assoc])
    by_cases hc : c = '\\'
    · subst hc
      cases run with
      | cons d run =>
        rw [List.cons_append] at hs hs'
        rw [List.cons_append, List.cons_append, splitUnescaped_escape hs, Prod.mk.injEq,
          List.cons.injEq, List.cons.injEq] at hr
        rw [List.cons_append, List.cons_append, splitUnescaped_escape hs',
          splitUnescaped_cut (Prod.ext hr.1.2.2 hr.2) hw]
      | nil =>
        cases hwu : w ++ u with
        | nil => simp_all [splitUnescaped]
        | cons d t =>
          rw [List.cons_append, List.nil_append, hwu, splitUnescaped_escape (by simpa [hwu] using hs)] at hr
          simp at hr
    · rw [List.cons_append, splitUnescaped_cons hs (.inr hc), Prod.mk.injEq, List.cons.injEq] at hr
      rw [List.cons_append, splitUnescaped_cons hs' (.inr hc),
        splitUnescaped_cut (Prod.ext hr.1.2 hr.2) hw]

end LooksAhead

/-- What stands behind the closing of a string does not decide where the string is closed. -/
theorem splitUnescaped_closed {inside left : Text}
    (h : splitUnescaped (atChar c) (inside ++ c :: left) = (inside, c :: left)) (u : Text) :
    splitUnescaped (atChar c) (inside ++ c :: u) = (inside, c :: u) := by
  have hcut : splitUnescaped (atChar c) (inside ++ [c]) = (inside, [c]) :=
    (LooksAhead.char c).splitUnescaped_cut (u := left) h fun _ hc => hc
  have happend := (LooksAhead.char c).splitUnescaped_append u (t := inside ++ [c]) (by simp [hcut])
  rwa [hcut, List.append_assoc] at happend

theorem splitBefore_closed {inside left : Text}
    (h : splitBefore atBlockEnd (inside ++ '*' :: '/' :: left) = (inside, '*' :: '/' :: left))
    (u : Text) :
    splitBefore atBlockEnd (inside ++ '*' :: '/' :: u) = (inside, '*' :: '/' :: u) := by
  have hcut : splitBefore atBlockEnd (inside ++ ['*', '/']) = (inside, ['*', '/']) :=
    LooksAhead.blockEnd.splitBefore_cut (u := left) h fun _ _ => rfl
  have happend := LooksAhead.blockEnd.splitBefore_append u (t := inside ++ ['*', '/'])
    (by simp [hcut])
  rwa [hcut, List.append_assoc] at happend

end Text

/-- Whether tokens of a kind end by themselves, so that no text behind one prolongs it. -/
def TokenKind.endsItself : TokenKind → Bool
  | word | atWord | lineComment | space | unclosed => false
  | _ => true

namespace Token

theorem ofQuote_append_right {c : Char} {t : Text} (u : Text)
    (h : (ofQuote c t).2 ≠ [] ∨ (ofQuote c t).1.kind.endsItself = true) :
    ofQuote c (t ++ u) = ((ofQuote c t).1, (ofQuote c t).2 ++ u) := by
  cases quoted c t with
  | unclosed hs => simp [ofQuote_unclosed hs, TokenKind.endsItself] at h
  | closed hs =>
    rw [List.append_assoc, List.cons_append, ofQuote_closed hs,
      ofQuote_closed (Text.splitUnescaped_closed hs _)]

theorem ofBlockComment_append_right {t : Text} (u : Text)
    (h : (ofBlockComment '/' ('*' :: t)).2 ≠ [] ∨
      (ofBlockComment '/' ('*' :: t)).1.kind.endsItself = true) :
    ofBlockComment '/' ('*' :: (t ++ u)) =
      ((ofBlockComment '/' ('*' :: t)).1, (ofBlockComment '/' ('*' :: t)).2 ++ u) := by
  cases commented t with
  | unclosed hs => simp [ofBlockComment_unclosed hs, TokenKind.endsItself] at h
  | closed hs =>
    rw [List.append_assoc, List.cons_append, List.cons_append, ofBlockComment_closed hs,
      ofBlockComment_closed (Text.splitBefore_closed hs _)]

/-- A token that ends by itself or before the end of a text is not prolonged by what is put behind
the text. -/
theorem next_append_right {depth : Nat} {c : Char} {t : Text} (u : Text)
    (h : (next depth c t).2 ≠ [] ∨ (next depth c t).1.kind.endsItself = true) :
    next depth c (t ++ u) = ((next depth c t).1, (next depth c t).2 ++ u) := by
  cases begins depth c t with
  | punctuation hp => rw [next_punctuation hp, next_punctuation hp]
  | lineFeed => rw [next_lineFeed, next_lineFeed]
  | carriageReturn => rw [List.cons_append, next_carriageReturn, next_carriageReturn]
  | space hs =>
    rw [next_space hs] at h ⊢
    have hne : (Text.splitBefore (fun t => !t.atSpacing) t).2 ≠ [] := by
      simpa [ofRun, TokenKind.endsItself] using h
    have hs' : Text.atSpacing (c :: (t ++ u)) = true := by
      cases t with
      | nil => simp [Text.splitBefore] at hne
      | cons e t => simpa [Text.atSpacing, Text.atLineBreak] using hs
    rw [next_space hs', Text.LooksAhead.spacing.splitBefore_append u hne]
    rfl
  | quote hq =>
    rw [next_quote hq] at h ⊢
    rw [next_quote hq, ofQuote_append_right u h]
  | blockComment =>
    rw [next_blockComment] at h ⊢
    rw [List.cons_append, next_blockComment, ofBlockComment_append_right u h]
  | lineComment hd =>
    subst hd
    rw [next_lineComment] at h ⊢
    rw [List.cons_append, next_lineComment, ← List.cons_append,
      Text.LooksAhead.lineBreak.splitBefore_append u (by simpa [ofRun, TokenKind.endsItself] using h)]
    rfl
  | atWord =>
    rw [next_atWord] at h ⊢
    rw [next_atWord, Text.LooksAhead.atWordEnd.splitBefore_append u
      (by simpa [ofRun, TokenKind.endsItself] using h)]
    rfl
  | word hw hat =>
    rw [next_word hw hat] at h ⊢
    have hne : (Text.splitUnescaped (Text.atWordEnd depth) (c :: t)).2 ≠ [] := by
      simpa [ofRun, TokenKind.endsItself] using h
    have hw' : Text.atWordEnd depth (c :: (t ++ u)) = false := by
      cases t with
      | nil =>
        rw [Text.splitUnescaped_cons hw (.inl rfl)] at hne
        simp [Text.splitUnescaped] at hne
      | cons e t => exact ((Text.LooksAhead.wordEnd depth).cons_cons_append u).trans hw
    rw [next_word hw' hat, ← List.cons_append,
      (Text.LooksAhead.wordEnd depth).splitUnescaped_append u hne]
    rfl

/-- Whether a character begins nothing that takes two characters. -/
structure Alone (depth : Nat) (c : Char) (rest : Text) : Prop where
  lineBreak : Text.atLineBreak (c :: rest) = Text.atLineBreak [c]
  blockComment : Text.atBlockComment (c :: rest) = false
  lineComment : Text.atLineComment depth (c :: rest) = false

/-- A character that is a token begins nothing longer. -/
theorem alone_of_next {depth : Nat} {c : Char} {rest : Text}
    (h : (next depth c rest).1.text = [c]) : Alone depth c rest := by
  refine ⟨?_, Bool.eq_false_iff.2 fun hb => ?_, Bool.eq_false_iff.2 fun hl => ?_⟩
  · by_cases hr : c = '\r' ∧ rest.head? = some '\n'
    · obtain ⟨rfl, hh⟩ := hr
      obtain ⟨tail, rfl⟩ := List.head?_eq_some_iff.1 hh
      simp [next_carriageReturn] at h
    · simp only [Text.atLineBreak]
      grind
  · simp only [Text.atBlockComment, Bool.and_eq_true, decide_eq_true_eq] at hb
    obtain ⟨rfl, hh⟩ := hb
    obtain ⟨tail, rfl⟩ := List.head?_eq_some_iff.1 hh
    rw [next_blockComment] at h
    simp only [ofBlockComment] at h
    split at h <;> simp at h
  · simp only [Text.atLineComment, Bool.and_eq_true, decide_eq_true_eq] at hl
    obtain ⟨⟨rfl, rfl⟩, hh⟩ := hl
    obtain ⟨tail, rfl⟩ := List.head?_eq_some_iff.1 hh
    rw [next_lineComment, Text.splitBefore] at h
    simp [ofRun, Text.atLineBreak] at h

theorem ofQuote_cut {c : Char} {t u w : Text} {tok : Token}
    (h : ofQuote c (t ++ u) = (tok, w ++ u)) (ht : tok.text ++ w = c :: t) :
    ofQuote c t = (tok, w) := by
  generalize hT : t ++ u = T at h
  cases quoted c T with
  | unclosed hs =>
    rw [ofQuote_unclosed hs] at h
    obtain ⟨rfl, hwu⟩ := Prod.mk.inj h
    obtain ⟨rfl, rfl⟩ := List.append_eq_nil_iff.1 hwu.symm
    obtain rfl : t = T := by simpa using hT
    exact ofQuote_unclosed hs
  | @closed inside left hs =>
    rw [ofQuote_closed hs] at h
    obtain ⟨rfl, rfl⟩ := Prod.mk.inj h
    obtain rfl : inside ++ c :: w = t := by simpa using ht
    exact ofQuote_closed (Text.splitUnescaped_closed hs w)

theorem ofBlockComment_cut {t u w : Text} {tok : Token}
    (h : ofBlockComment '/' ('*' :: (t ++ u)) = (tok, w ++ u))
    (ht : tok.text ++ w = '/' :: '*' :: t) : ofBlockComment '/' ('*' :: t) = (tok, w) := by
  generalize hT : t ++ u = T at h
  cases commented T with
  | unclosed hs =>
    rw [ofBlockComment_unclosed hs] at h
    obtain ⟨rfl, hwu⟩ := Prod.mk.inj h
    obtain ⟨rfl, rfl⟩ := List.append_eq_nil_iff.1 hwu.symm
    obtain rfl : t = T := by simpa using hT
    exact ofBlockComment_unclosed hs
  | @closed inside left hs =>
    rw [ofBlockComment_closed hs] at h
    obtain ⟨rfl, rfl⟩ := Prod.mk.inj h
    obtain rfl : inside ++ '*' :: '/' :: w = t := by simpa using ht
    exact ofBlockComment_closed (Text.splitBefore_closed hs w)

section Cut

variable {depth : Nat} {c : Char} {t u w : Text} {tok : Token}

/-- What stops a scan behind a cut stops it at the cut, unless the last character before the cut begins
something that the cut divides. -/
theorem stop_of_stop_append {stop : Text → Bool} (hl : Text.LooksAhead stop)
    (halone : ∀ e, Alone depth e u → stop (e :: u) = true → stop [e] = true)
    (hw : ∀ e, w = [e] → Alone depth e u) (hne : w ≠ []) (hs : stop (w ++ u) = true) :
    stop w = true := by
  match w, hne with
  | [e], _ => exact halone e (hw e rfl) hs
  | a :: b :: w, _ => rwa [List.cons_append, List.cons_append, hl.cons_cons_append] at hs

theorem next_space_cut (hs : Text.atSpacing (c :: (t ++ u)) = true)
    (h : next depth c (t ++ u) = (tok, w ++ u)) (ht : tok.text ++ w = c :: t)
    (hw : ∀ e, w = [e] → Alone depth e u) : next depth c t = (tok, w) := by
  have hs' : Text.atSpacing (c :: t) = true := by
    cases t with
    | nil =>
      simp only [Text.atSpacing, Text.atLineBreak, List.nil_append] at hs ⊢
      grind
    | cons e t => simpa [Text.atSpacing, Text.atLineBreak] using hs
  rw [next_space hs] at h
  cases hr : Text.splitBefore (fun t => !t.atSpacing) (t ++ u) with
  | mk run left =>
    rw [hr] at h
    obtain ⟨rfl, rfl⟩ := Prod.mk.inj h
    obtain rfl : run ++ w = t := by simpa using ht
    have hstop := stop_of_stop_append Text.LooksAhead.spacing
      (fun e he hs => by simpa [Text.atSpacing, he.lineBreak] using hs) hw
    rw [next_space hs', Text.LooksAhead.spacing.splitBefore_cut (by simpa using hr) hstop]
    rfl

theorem next_lineComment_cut (h : next 0 '/' ('/' :: (t ++ u)) = (tok, w ++ u))
    (ht : tok.text ++ w = '/' :: '/' :: t) (hw : ∀ e, w = [e] → Alone 0 e u) :
    next 0 '/' ('/' :: t) = (tok, w) := by
  rw [next_lineComment] at h
  cases hr : Text.splitBefore Text.atLineBreak ('/' :: (t ++ u)) with
  | mk run left =>
    rw [hr] at h
    obtain ⟨rfl, rfl⟩ := Prod.mk.inj h
    have hrun : run ++ w = '/' :: t := by simpa using ht
    have hstop := stop_of_stop_append Text.LooksAhead.lineBreak
      (fun e he hs => he.lineBreak ▸ hs) hw
    have hcut : Text.splitBefore Text.atLineBreak (run ++ w) = (run, w) :=
      Text.LooksAhead.lineBreak.splitBefore_cut (by rw [← List.append_assoc, hrun]; exact hr) hstop
    rw [next_lineComment, ← hrun, hcut]
    rfl

theorem next_atWord_cut (h : next depth '@' (t ++ u) = (tok, w ++ u)) (ht : tok.text ++ w = '@' :: t)
    (hw : ∀ e, w = [e] → Alone depth e u) : next depth '@' t = (tok, w) := by
  rw [next_atWord] at h
  cases hr : Text.splitBefore Text.atAtWordEnd (t ++ u) with
  | mk run left =>
    rw [hr] at h
    obtain ⟨rfl, rfl⟩ := Prod.mk.inj h
    obtain rfl : run ++ w = t := by simpa using ht
    have hstop := stop_of_stop_append (u := u) Text.LooksAhead.atWordEnd (fun _ _ hs => hs) hw
    rw [next_atWord, Text.LooksAhead.atWordEnd.splitBefore_cut (by simpa using hr) hstop]
    rfl

theorem next_word_cut (hend : Text.atWordEnd depth (c :: (t ++ u)) = false) (hat : c ≠ '@')
    (h : next depth c (t ++ u) = (tok, w ++ u)) (ht : tok.text ++ w = c :: t)
    (hw : ∀ e, w = [e] → Alone depth e u) : next depth c t = (tok, w) := by
  rw [next_word hend hat] at h
  cases hr : Text.splitUnescaped (Text.atWordEnd depth) (c :: (t ++ u)) with
  | mk run left =>
    rw [hr] at h
    obtain ⟨rfl, rfl⟩ := Prod.mk.inj h
    have hrun : run ++ w = c :: t := by simpa using ht
    have hstop := stop_of_stop_append (.wordEnd depth) (fun e he hs => by
      simp_all [Text.atWordEnd, he.blockComment, he.lineComment]) hw
    have hcut : Text.splitUnescaped (Text.atWordEnd depth) (run ++ w) = (run, w) :=
      (Text.LooksAhead.wordEnd depth).splitUnescaped_cut
        (by rw [← List.append_assoc, hrun]; exact hr) hstop
    rw [next_word ((Text.LooksAhead.wordEnd depth).false_of_append u hend) hat, ← hrun, hcut]
    rfl

/-- Cutting a text behind a token keeps the token, unless its last character begins something that
the cut divides. -/
theorem next_cut (h : next depth c (t ++ u) = (tok, w ++ u)) (ht : tok.text ++ w = c :: t)
    (hw : tok.kind.endsItself = false → ∀ e, w = [e] → Alone depth e u) :
    next depth c t = (tok, w) := by
  generalize hT : t ++ u = T at h
  cases begins depth c T with
  | punctuation hp =>
    rw [next_punctuation hp, Prod.mk.injEq, ← hT] at h
    rw [next_punctuation hp, List.append_cancel_right h.2, h.1]
  | lineFeed =>
    rw [next_lineFeed, Prod.mk.injEq, ← hT] at h
    rw [next_lineFeed, List.append_cancel_right h.2, h.1]
  | carriageReturn =>
    rw [next_carriageReturn, Prod.mk.injEq] at h
    obtain ⟨rfl, hwu⟩ := h
    obtain rfl : '\n' :: w = t := by simpa using ht
    rw [next_carriageReturn]
  | space hs =>
    subst hT
    refine next_space_cut hs h ht (hw ?_)
    rw [← (Prod.mk.inj ((next_space hs).symm.trans h)).1]
    rfl
  | quote hq =>
    subst hT
    rw [next_quote hq] at h ⊢
    exact ofQuote_cut h ht
  | blockComment =>
    rw [next_blockComment] at h
    cases t with
    | nil =>
      simp only [ofBlockComment] at h
      split at h <;> simp [← (Prod.mk.inj h).1] at ht
    | cons e t =>
      obtain ⟨rfl, rfl⟩ := List.cons.inj hT
      rw [next_blockComment]
      exact ofBlockComment_cut h ht
  | lineComment hd =>
    subst hd
    have htok := (Prod.mk.inj (next_lineComment.symm.trans h)).1
    cases t with
    | nil => simp [← htok, Text.splitBefore, Text.atLineBreak] at ht
    | cons e t =>
      obtain ⟨rfl, ht'⟩ := List.cons.inj hT
      obtain rfl : t ++ u = _ := ht'
      exact next_lineComment_cut h ht (hw (by rw [← htok]; rfl))
  | atWord =>
    subst hT
    refine next_atWord_cut h ht (hw ?_)
    rw [← (Prod.mk.inj (next_atWord.symm.trans h)).1]
    rfl
  | word hend hat =>
    subst hT
    refine next_word_cut hend hat h ht (hw ?_)
    rw [← (Prod.mk.inj ((next_word hend hat).symm.trans h)).1]
    rfl

end Cut

/-- The number of open parentheses behind tokens that start behind `depth` of them. -/
def depthAfter (depth : Nat) (ts : List Token) : Nat :=
  ts.foldl (fun depth t => t.kind.nesting depth) depth

@[simp] theorem depthAfter_nil (depth : Nat) : depthAfter depth [] = depth := rfl

@[simp] theorem depthAfter_cons (depth : Nat) (t : Token) (ts : List Token) :
    depthAfter depth (t :: ts) = depthAfter (t.kind.nesting depth) ts := rfl

@[simp] theorem depthAfter_append (depth : Nat) (ts us : List Token) :
    depthAfter depth (ts ++ us) = depthAfter (depthAfter depth ts) us := by
  simp [depthAfter]

theorem text_ne_nil_of_mem_scanFrom {depth : Nat} {t : Text} {tok : Token}
    (h : tok ∈ scanFrom depth t) : tok.text ≠ [] := by
  fun_induction scanFrom depth t with
  | case1 => simp at h
  | case2 depth c rest step ih =>
    rcases List.mem_cons.1 h with rfl | h
    · exact next_text_ne_nil depth c rest
    · exact ih h

theorem text_ne_nil_of_mem_scan {t : Text} {tok : Token} (h : tok ∈ scan t) : tok.text ≠ [] :=
  text_ne_nil_of_mem_scanFrom h

/-- A text whose last token ends by itself is scanned apart from what is put behind it. -/
theorem scanFrom_append {depth : Nat} {t : Text} (u : Text)
    (h : ∀ tok ∈ (scanFrom depth t).getLast?, tok.kind.endsItself = true) :
    scanFrom depth (t ++ u) =
      scanFrom depth t ++ scanFrom (depthAfter depth (scanFrom depth t)) u := by
  fun_induction scanFrom depth t with
  | case1 => rfl
  | case2 depth c rest step ih =>
    have hstep : step.2 ≠ [] ∨ step.1.kind.endsItself = true := by
      by_cases hs : step.2 = []
      · rw [hs, scanFrom_nil] at h
        exact .inr (h step.1 rfl)
      · exact .inl hs
    have hrest : ∀ tok ∈ (scanFrom (step.1.kind.nesting depth) step.2).getLast?,
        tok.kind.endsItself = true := by
      intro tok ht
      refine h tok ?_
      rw [List.getLast?_cons, ht]
      rfl
    rw [List.cons_append, scanFrom_cons, next_append_right u hstep, ih hrest]
    rfl

/-- What follows some tokens of a text is scanned from the depth that they lead to. -/
theorem scanFrom_suffix {depth : Nat} {t : Text} {ts us : List Token}
    (h : scanFrom depth t = ts ++ us) : scanFrom (depthAfter depth ts) (join us) = us := by
  induction ts generalizing depth t with
  | nil =>
    rw [List.nil_append] at h
    rw [← h, join_scanFrom]
    rfl
  | cons tok ts ih =>
    cases t with
    | nil => simp at h
    | cons c rest =>
      rw [scanFrom_cons, List.cons_append, List.cons.injEq] at h
      obtain ⟨rfl, h⟩ := h
      exact ih h

theorem TokenKind.nesting_of_endsItself {kind : TokenKind} (h : kind.endsItself = false)
    (depth : Nat) : kind.nesting depth = depth := by
  cases kind <;> simp_all [TokenKind.endsItself, TokenKind.nesting]

/-- A text that is cut behind some of its tokens has these tokens before the cut. -/
theorem scanFrom_cut {depth : Nat} {t u : Text} {ts us : List Token}
    (h : scanFrom depth (t ++ u) = ts ++ us) (ht : join ts = t) : scanFrom depth t = ts := by
  induction ts generalizing depth t with
  | nil =>
    subst ht
    exact scanFrom_nil depth
  | cons tok ts ih =>
    cases t with
    | nil =>
      have hmem : tok ∈ scanFrom depth ([] ++ u) := h ▸ List.mem_cons_self
      simp [text_ne_nil_of_mem_scanFrom hmem] at ht
    | cons c t =>
      have hu : join us = u := by
        have := join_scanFrom depth (c :: t ++ u)
        rw [h, join_append, ht] at this
        exact List.append_cancel_left this
      rw [List.cons_append, scanFrom_cons, List.cons_append, List.cons.injEq] at h
      obtain ⟨htok, hrest⟩ := h
      have hleft : (next depth c (t ++ u)).2 = join ts ++ u := by
        rw [← join_scanFrom _ (next depth c (t ++ u)).2, hrest, join_append, hu]
      rw [htok, hleft] at hrest
      have hnext : next depth c t = (tok, join ts) := by
        refine next_cut (Prod.ext htok hleft) ht fun hk e he => ?_
        rw [TokenKind.nesting_of_endsItself hk, he, List.cons_append, scanFrom_cons] at hrest
        cases ts with
        | nil => simp at he
        | cons tok' ts =>
          obtain ⟨htok', -⟩ := List.cons.inj hrest
          have hne : tok'.text ≠ [] := htok' ▸ next_text_ne_nil depth e ([] ++ u)
          refine alone_of_next (htok' ▸ ?_)
          rcases List.append_eq_singleton_iff.1 he with ⟨h, -⟩ | ⟨h, -⟩
          · exact absurd h hne
          · exact h
      rw [scanFrom_cons, hnext, ih hrest rfl]

/-- Blanks in front of a text that does not begin with one are a token of their own. -/
theorem scanFrom_spaces {depth : Nat} {sp t : Text} (hne : sp ≠ [])
    (hsp : ∀ c ∈ sp, c = ' ' ∨ c = '\t') (ht : t.atSpacing = false) :
    scanFrom depth (sp ++ t) = ⟨.space, sp⟩ :: scanFrom depth t := by
  have hat : ∀ c ∈ sp, ∀ u, Text.atSpacing (c :: u) = true := by
    intro c hc u
    rcases hsp c hc with rfl | rfl <;> simp [Text.atSpacing, Text.atLineBreak, isSpacing]
  cases sp with
  | nil => exact absurd rfl hne
  | cons c w =>
    rw [List.cons_append, scanFrom_cons, next_space (hat c List.mem_cons_self _),
      Text.splitBefore_run_append (fun d hd u => by simp [hat d (List.mem_cons_of_mem _ hd)])
        (.inr (by simp [ht]))]
    rfl

end Token

end OffsideCss
