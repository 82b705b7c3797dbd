import OffsideCss.Proofs.LineCut
import OffsideCss.Proofs.OffsetPositions
import OffsideCss.Proofs.Reader.Scanner
import OffsideCss.Reader.Lines

/-! The parts of a text are its lines.  The rows of its lexemes are the rows of its tokens, and each part
that is made of a row is the line with that content, which tells the spans of the part by where it
stands. -/

namespace OffsideCss

open Token (join scan)

namespace Lexeme

/-- The lexemes of rows, of which the first one starts at `offset`. -/
def spotRows (offset : Nat) : List (List Token) → List (List Lexeme)
  | [] => []
  | row :: rows => spot offset row :: spotRows (offset + (join row).bytes) rows

theorem spotRows_modifyHead (offset : Nat) (t : Token) (rows : List (List Token)) :
    spotRows offset (rows.modifyHead (t :: ·)) =
      (spotRows (offset + t.text.bytes) rows).modifyHead
        (⟨t, ⟨offset, offset + t.text.bytes⟩⟩ :: ·) := by
  cases rows with
  | nil => rfl
  | cons row rows => simp [spotRows, spot, Nat.add_assoc]

end Lexeme

/-- The part that a line is. -/
def Line.part (l : Line) : Reader.Part where
  number := (l.place.after l.indent).line
  indent := l.indent
  indentSpan := l.place.span l.indent
  before := ⟨l.place.offset - l.gap.bytes, l.place.offset⟩
  tokens := Lexeme.spot (l.place.after l.indent).offset l.tokens
  hasColon := l.hasColon
  isComment := l.isComment
  isAtRule := l.isAtRule
  endsWithComma := l.endsWithComma

/-- The blame that a fault makes. -/
def Fault.blame (f : Fault) : Reader.Blame := ⟨f.cause, f.place.span f.text⟩

namespace Reader

open Lexeme (spot spotRows)

section Reading

variable {α β : Type}

/-- Reading that comes to what a function of the text says. -/
def Reading.of (x : Except Fault α) : Reading α := ExceptT.mk (some (x.mapError Fault.blame))

@[simp] theorem Reading.of_ok (a : α) : Reading.of (.ok a) = pure a := rfl

@[simp] theorem Reading.of_error (f : Fault) :
    Reading.of (.error f : Except Fault α) = throw f.blame := rfl

@[simp] theorem liftM_some_bind (a : α) (f : α → Reading β) :
    ((liftM (some a) : Reading α) >>= f) = f a := rfl

@[simp] theorem throw_bind (e : Blame) (f : α → Reading β) :
    ((throw e : Reading α) >>= f) = throw e := rfl

end Reading

/-! ### Rows -/

section Rows

variable {place : Place} {opened : List Place} {t : Token} {ts : List Token}

theorem unclosed?_eq (hs : TokenKind.unclosed.Spells t.text)
    (h : place.offset + t.text.bytes < Counter.limit) :
    unclosed? ⟨t, place.span t.text⟩ = some (Line.unclosedFault place t).blame := by
  have hshape : ∃ c inside, t.text = c :: inside ∧ c.utf8Size = 1 ∧
      Text.atBlockComment (c :: inside) = decide (c = '/') := by
    rcases hs with ⟨quote, inside, hq, ht⟩ | ⟨inside, ht⟩
    · have hquote : quote = '"' ∨ quote = '\'' := by simpa [isQuote] using hq
      refine ⟨quote, inside, ht, ?_, ?_⟩
      · rcases hquote with rfl | rfl <;> rfl
      · rcases hquote with rfl | rfl <;> simp [Text.atBlockComment]
    · exact ⟨'/', '*' :: inside, ht, rfl, by simp [Text.atBlockComment]⟩
  obtain ⟨c, inside, ht, hc, hcause⟩ := hshape
  have hone : place.offset + 1 < Counter.limit := by
    rw [ht, Text.bytes_cons] at h
    omega
  have hsize : Text.bytes [c] = 1 := hc
  simp only [unclosed?, Place.span, Counter.add?_of_lt hone, Option.bind_eq_bind, Option.bind_some,
    Span.make?_of_le (Nat.le_add_right _ 1), hcause, Fault.blame, Line.unclosedFault, ht,
    List.take_succ_cons, List.take_zero, hsize, List.head?_cons, Option.some.injEq, decide_eq_true_eq]
  rfl

theorem bracketsAfter_eq (hs : t.kind.Spells t.text) :
    bracketsAfter (opened.map (·.span ['('])) ⟨t, place.span t.text⟩ =
      (Line.bracketsAfter opened place t).map (·.span ['(']) := by
  unfold bracketsAfter Line.bracketsAfter
  cases hk : t.kind <;> simp
  rw [hk] at hs
  rw [show t.text = ['('] from hs]

theorem rows?_eq (hs : ∀ t ∈ ts, t.kind.Spells t.text)
    (h : place.offset + (join ts).bytes < Counter.limit) :
    rows? (opened.map (·.span ['('])) (spot place.offset ts) =
      match Token.locate? (·.kind = .unclosed) place ts with
      | some (found, t) => throw (Line.unclosedFault found t).blame
      | none => pure (spotRows place.offset (Line.rows place opened ts).1,
          (Line.rows place opened ts).2.map (·.span ['('])) := by
  induction ts generalizing place opened with
  | nil => rfl
  | cons t ts ih =>
    obtain ⟨ht, hts⟩ := List.forall_mem_cons.1 hs
    rw [Token.join_cons, Text.bytes_append, ← Nat.add_assoc] at h
    rw [Token.locate?_cons, spot, rows?]
    by_cases hk : t.kind = .unclosed
    · rw [hk] at ht
      rw [if_pos hk, if_pos (by simpa using hk)]
      exact congrArg (fun b => (liftM b : Reading Blame) >>= throw) (unclosed?_eq ht (by omega))
    · have hinside : bracketsAfter (opened.map (·.span ['(']))
          ⟨t, ⟨place.offset, place.offset + t.text.bytes⟩⟩ = _ := bracketsAfter_eq ht
      have hrest : rows? _ (spot (place.offset + t.text.bytes) ts) = _ :=
        @ih (place.after t.text) (Line.bracketsAfter opened place t) hts h
      rw [if_neg hk, if_neg (by simpa using hk)]
      simp only [hinside, hrest, Line.rows, List.map_eq_nil_iff]
      cases Token.locate? (·.kind = .unclosed) (place.after t.text) ts with
      | some found => rfl
      | none =>
        simp only [pure_bind]
        split
        · simp [spotRows, spot, Place.after]
        · rw [Lexeme.spotRows_modifyHead]
          rfl

end Rows

/-! ### Parts -/

theorem splitAt?_append {α : Type} (l l' : List α) : splitAt? l.length (l ++ l') = some (l, l') := by
  simp [splitAt?]

theorem splitAt?_one {α : Type} (a : α) (l : List α) : splitAt? 1 (a :: l) = some ([a], l) :=
  splitAt?_append [a] l

theorem separator?_eq (depth : Nat) (ts : List Lexeme) : separator? depth ts =
    (Token.splitSeparator? depth (ts.map (·.toToken))).map (·.1.length) := by
  induction ts generalizing depth with
  | nil => rfl
  | cons t ts ih =>
    rw [separator?, List.map_cons, Token.splitSeparator?, ih, List.head?_map, Option.all_map]
    split
    · rfl
    · rw [Option.map_map, Option.map_map]
      rfl

theorem all_spot (p : Token → Bool) (offset : Nat) (ts : List Token) :
    (spot offset ts).all (fun t => p t.toToken) = ts.all p := by
  rw [← Function.comp_def, ← List.all_map, Lexeme.map_spot]

theorem find?_reverse_spot (p : Token → Bool) (offset : Nat) (ts : List Token) :
    ((spot offset ts).reverse.find? fun t => p t.toToken).map (·.toToken) = ts.reverse.find? p := by
  have h := congrArg (fun l => List.find? p (List.reverse l)) (Lexeme.map_spot offset ts)
  simpa only [← List.map_reverse, List.find?_map, Function.comp_def] using h

theorem part?_eq {source u v : Text} {l : Line} (h : source.bytes < Counter.limit)
    (hsource : source = u ++ l.indent ++ join l.tokens ++ v) (hplace : l.place = Place.first.after u)
    (hhead : l.head.text ≠ []) :
    part? source (.ofText source) l.part.before l.part.indentSpan l.part.tokens = some l.part := by
  have hoffset : l.place.offset = u.bytes := by
    rw [hplace]
    exact Nat.zero_add _
  have hposition : (LineIndex.ofText source).position? (l.place.offset + l.indent.bytes) =
      some (l.place.after l.indent).toPosition := by
    have htext : source = (u ++ l.indent) ++ (join l.tokens ++ v) := by
      rw [hsource, List.append_assoc]
    have hbehind : l.place.after l.indent = Place.first.after (u ++ l.indent) := by
      rw [hplace, Place.after_append]
    exact LineIndex.position?_place h htext (by simp [Line.tokens, hhead]) hbehind
  have hindent : source.slice? (l.place.span l.indent) = some l.indent :=
    Text.slice?_eq_some.2 ⟨u, join l.tokens ++ v, by rw [hsource, List.append_assoc],
      by rw [Place.span, hoffset]⟩
  have hcolon : (separator? 0 l.part.tokens).isSome = l.hasColon := by
    rw [separator?_eq, Option.isSome_map, Line.part, Lexeme.map_spot, Line.hasColon]
  have hcomma : (l.part.tokens.reverse.find? fun t => !t.kind.isTrivia).any (·.kind = .comma) =
      l.endsWithComma := by
    rw [Line.endsWithComma, ← find?_reverse_spot _ (l.place.after l.indent).offset, Option.any_map]
    rfl
  have hsplit : splitAt? 1 l.part.tokens = some
      ([⟨l.head, (l.place.after l.indent).span l.head.text⟩],
        spot ((l.place.after l.indent).after l.head.text).offset l.tail) :=
    splitAt?_one _ _
  have hcomment := all_spot (·.kind = .space)
    ((l.place.after l.indent).after l.head.text).offset l.tail
  have hfirst : l.part.tokens.head? =
      some ⟨l.head, (l.place.after l.indent).span l.head.text⟩ := rfl
  have hstart : ((l.place.after l.indent).span l.head.text).start =
      l.place.offset + l.indent.bytes := rfl
  simp only [part?, hfirst, hsplit, hstart, hposition, Option.bind_eq_bind, Option.bind_some]
  rw [show l.part.indentSpan = l.place.span l.indent from rfl, hindent, Option.bind_some,
    hcolon, hcomma, hcomment]
  rfl

theorem splitIndent?_eq (stop offset : Nat) (row : List Token) : ∃ span,
    splitIndent? stop (spot offset row) =
      some (span, spot (offset + (Line.splitIndent row).1.bytes) (Line.splitIndent row).2) ∧
    (row ≠ [] → span = ⟨offset, offset + (Line.splitIndent row).1.bytes⟩) := by
  cases row with
  | nil =>
    refine ⟨⟨stop, stop⟩, ?_, by simp⟩
    simp [splitIndent?, spot, Span.make?, Line.splitIndent]
  | cons t ts =>
    by_cases ht : t.kind = .space
    · simp only [splitIndent?, spot, Line.splitIndent, List.head?_cons, ht, if_true, splitAt?_one]
      exact ⟨_, rfl, fun _ => rfl⟩
    · refine ⟨⟨offset, offset⟩, ?_, ?_⟩ <;>
        simp [splitIndent?, spot, Span.make?, Line.splitIndent, ht]

theorem splitBreak_eq (stop offset : Nat) {content : List Token} (h : content ≠ []) :
    splitBreak stop (spot offset content) = (spot offset (Line.splitBreak content).1,
      offset + (join (Line.splitBreak content).1).bytes) := by
  obtain ⟨init, last, rfl⟩ := (List.eq_nil_or_concat content).resolve_left h
  rw [List.concat_eq_append, Lexeme.spot_append]
  simp only [splitBreak, Line.splitBreak, spot, List.getLast?_append, List.getLast?_singleton,
    Option.some_or]
  split
  · simp
  · simp [Lexeme.spot_append, spot, Nat.add_assoc]

/-- A row whose content begins with no whitespace is blank if its lexemes are line breaks. -/
theorem all_lineBreak_iff (offset : Nat) {content : List Token}
    (h : ∀ t ∈ (Line.splitBreak content).1.head?, t.isWhitespace = false) :
    (spot offset content).all (·.kind = .lineBreak) = true ↔ (Line.splitBreak content).1 = [] := by
  rw [all_spot (fun t => t.kind = .lineBreak), List.all_eq_true]
  rcases List.eq_nil_or_concat content with rfl | ⟨init, last, rfl⟩
  · simp [Line.splitBreak]
  · rw [List.concat_eq_append] at h ⊢
    by_cases hlast : last.kind = .lineBreak
    · have hsplit : (Line.splitBreak (init ++ [last])).1 = init := by simp [Line.splitBreak, hlast]
      rw [hsplit] at h ⊢
      cases init with
      | nil => simp [hlast]
      | cons t init =>
        have ht : t.kind ≠ .lineBreak := by
          rintro hk
          simpa [Token.isWhitespace, hk, TokenKind.isWhitespace] using h t rfl
        simp [ht]
    · have hsplit : (Line.splitBreak (init ++ [last])).1 = init ++ [last] := by
        simp [Line.splitBreak, hlast]
      rw [hsplit]
      simp [hlast]

section Row

variable {source : Text} {row : List Token} (rows : List (List Lexeme))

theorem parts?_blank (h : (Line.splitBreak (Line.splitIndent row).2).1 = []) (index : LineIndex)
    (pending offset : Nat) :
    parts? source index pending (spot offset row :: rows) = parts? source index pending rows := by
  obtain ⟨span, hindent, -⟩ := splitIndent?_eq (Counter.wrap source.bytes) offset row
  have hall := (all_lineBreak_iff (offset + (Line.splitIndent row).1.bytes) (by simp [h])).2 h
  rw [parts?]
  simp only [hindent, Option.bind_eq_bind, Option.bind_some]
  exact if_pos hall

/-- A row that is not blank is the part that its line is. -/
theorem parts?_line {u v lineBreak : Text} {l : Line} {content : List Token}
    (h : source.bytes < Counter.limit) (hindent : Line.splitIndent row = (l.indent, content))
    (hbreak : Line.splitBreak content = (l.tokens, lineBreak)) (hsource : source = u ++ l.text ++ v)
    (hplace : l.place = Place.first.after (u ++ l.gap)) (hhead : l.head.isWhitespace = false)
    (htext : l.head.text ≠ []) :
    parts? source (.ofText source) u.bytes (spot l.place.offset row :: rows) =
      (parts? source (.ofText source) (u ++ l.text).bytes rows).map fun x => (l.part :: x.1, x.2) := by
  have hoffset : l.place.offset = u.bytes + l.gap.bytes := by
    rw [hplace, ← Text.bytes_append]
    exact Nat.zero_add _
  have hcontent : content ≠ [] := by
    rintro rfl
    cases hbreak
  have hrow : row ≠ [] := by
    rintro rfl
    exact hcontent (Prod.mk.inj hindent).2.symm
  obtain ⟨span, hspan, hwhole⟩ := splitIndent?_eq (Counter.wrap source.bytes) l.place.offset row
  rw [hindent] at hspan hwhole
  have hall : ¬((spot (l.place.offset + l.indent.bytes) content).all (·.kind = .lineBreak) = true) := by
    rw [all_lineBreak_iff _ (by rw [hbreak]; simpa [Line.tokens] using hhead), hbreak]
    exact List.cons_ne_nil _ _
  have hbefore : Span.make? u.bytes l.place.offset = some l.part.before := by
    rw [hoffset, Span.make?_of_le (Nat.le_add_right _ _), Line.part, hoffset, Nat.add_sub_cancel]
  have hpart := part?_eq h (by rw [hsource]; simp [Line.text, Line.lead]) hplace htext (v := v)
  have hnext : l.place.offset + l.indent.bytes + (join l.tokens).bytes = (u ++ l.text).bytes := by
    rw [hoffset, Line.text, Line.lead, Text.bytes_append, Text.bytes_append, Text.bytes_append]
    omega
  rw [parts?]
  simp only [hspan, Option.bind_eq_bind, Option.bind_some]
  rw [if_neg hall, hwhole hrow, splitBreak_eq _ _ hcontent, hbreak]
  dsimp only
  rw [hbefore, Option.bind_some, hnext,
    show part? source (.ofText source) l.part.before ⟨l.place.offset, l.place.offset + l.indent.bytes⟩
      (spot (l.place.offset + l.indent.bytes) l.tokens) = some l.part from hpart, Option.bind_some]
  cases parts? source (.ofText source) (u ++ l.text).bytes rows <;> rfl

end Row

theorem parts?_eq {source : Text} (h : source.bytes < Counter.limit) {rs : List (List Token)}
    (hs : ∀ row ∈ rs, ∀ t ∈ row, t.text ≠ []) :
    ∀ u gap, source = u ++ gap ++ join rs.flatten →
      (∀ l ∈ (Line.ofRows (Place.first.after (u ++ gap)) gap rs).1, l.head.isWhitespace = false) →
      parts? source (.ofText source) u.bytes (spotRows (u ++ gap).bytes rs) =
        some ((Line.ofRows (Place.first.after (u ++ gap)) gap rs).1.map Line.part,
          source.bytes - (Line.ofRows (Place.first.after (u ++ gap)) gap rs).2.bytes) := by
  induction rs with
  | nil =>
    intro u gap hsource hheads
    simp [parts?, spotRows, Line.ofRows, hsource]
  | cons row rs ih =>
    intro u gap hsource hheads
    obtain ⟨hrow, hrs⟩ := List.forall_mem_cons.1 hs
    rw [List.flatten_cons, Token.join_append, ← List.append_assoc] at hsource
    have hplace : (Place.first.after (u ++ gap)).after (join row) =
        Place.first.after (u ++ gap ++ join row) := (Place.after_append _ _ _).symm
    have hbytes : (u ++ gap).bytes + (join row).bytes = (u ++ gap ++ join row).bytes :=
      (Text.bytes_append _ _).symm
    rw [spotRows, hbytes]
    cases hline : (Line.splitBreak (Line.splitIndent row).2).1 with
    | nil =>
      rw [Line.ofRows_blank hline, hplace] at hheads ⊢
      rw [parts?_blank _ hline]
      rw [List.append_assoc u] at hheads hsource ⊢
      exact ih hrs u (gap ++ join row) hsource hheads
    | cons head tail =>
      obtain ⟨lineBreak, hbreak⟩ : ∃ lineBreak,
          Line.splitBreak (Line.splitIndent row).2 = (head :: tail, lineBreak) := ⟨_, Prod.ext hline rfl⟩
      obtain ⟨l, hl⟩ : ∃ l : Line, l = ⟨gap, (Line.splitIndent row).1,
        Place.first.after (u ++ gap), head, tail⟩ := ⟨_, rfl⟩
      have htext : gap ++ join row = l.text ++ lineBreak := by rw [hl, Line.text_row hline, hbreak]
      have hmem : head ∈ row := (Line.splitIndent_suffix row).subset
        ((Line.prefix_splitBreak _).subset (by simp [hline]))
      rw [Line.ofRows_line hline, hbreak, ← hl, hplace] at hheads
      rw [Line.ofRows_line hline, hbreak, ← hl, hplace]
      rw [List.append_assoc u, htext, ← List.append_assoc] at hheads hsource ⊢
      obtain ⟨hhead, hheads⟩ := List.forall_mem_cons.1 hheads
      have hrest := ih hrs (u ++ l.text) lineBreak hsource hheads
      rw [List.append_assoc (u ++ l.text)] at hsource
      have hpart := parts?_line (spotRows (u ++ l.text ++ lineBreak).bytes rs) h
        (by rw [hl]) (by rw [hbreak, hl]; rfl) hsource (by rw [hl]) hhead
        (by rw [hl]; exact hrow head hmem)
      have hoffset : l.place.offset = (u ++ gap).bytes := by
        rw [hl]
        exact Nat.zero_add _
      rw [hoffset, hrest] at hpart
      exact hpart

/-- The parts of a text are its lines. -/
theorem lines?_eq {source : Text} (h : source.bytes < Counter.limit) :
    lines? source (.ofText source) (spot 0 (scan source)) =
      Reading.of ((Line.ofTokens (scan source)).map fun x =>
        (x.1.map Line.part, ⟨source.bytes - x.2.bytes, source.bytes⟩)) := by
  have hspells : ∀ t ∈ scan source, t.kind.Spells t.text := fun t => Token.spells_of_mem_scan
  have hrows : rows? [] (spot 0 (scan source)) = _ := @rows?_eq .first [] (scan source) hspells
    (by rwa [Token.join_scan, show Place.first.offset = 0 from rfl, Nat.zero_add])
  rw [lines?, hrows, Line.ofTokens]
  cases hlocate : Token.locate? (·.kind = .unclosed) .first (scan source) with
  | some found => rfl
  | none =>
    cases hr : Line.rows .first [] (scan source) with
    | mk rows opened =>
      simp only [pure_bind, List.getLast?_map]
      cases hlast : opened.getLast? with
      | some place => rfl
      | none =>
        have hok : Line.ofTokens (scan source) = .ok (Line.ofRows .first [] rows) := by
          simp only [Line.ofTokens, hlocate, hr, hlast]
        have hflatten : rows.flatten = scan source := by
          rw [show rows = _ from hr ▸ Line.rows_eq .first [] (scan source), Line.flatten_rowsFrom]
        have htexts : ∀ row ∈ rows, ∀ t ∈ row, t.text ≠ [] := fun row hrow t ht =>
          (hspells t (hflatten ▸ List.mem_flatten.2 ⟨row, hrow, ht⟩)).ne_nil
        have hparts := parts?_eq h htexts [] [] (by rw [hflatten, Token.join_scan]; rfl)
          fun l hl => Line.head_of_ofTokens hok hl
        have hspan := Span.make?_of_le (Nat.sub_le source.bytes (Line.ofRows .first [] rows).2.bytes)
        have hparts : parts? source (.ofText source) 0 (spotRows Place.first.offset rows) = _ := hparts
        simp only [Option.map_none, Counter.wrap_of_lt h, hparts, liftM_some_bind]
        rw [List.append_nil, Place.after_nil, hspan]
        rfl

end Reader

end OffsideCss
