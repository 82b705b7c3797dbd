import OffsideCss.Proofs.FaultPlace
import OffsideCss.Proofs.LineGaps
import OffsideCss.Proofs.Reader.Items
import OffsideCss.Proofs.SourceRange
import OffsideCss.Reader.Parse

/-! Statements among parts.  The lines of a statement stand one behind the other among the lines of a
text, so the parts from an index on are read as the statement that begins there, and the index behind it
is where the next one begins. -/

namespace OffsideCss

open Token (join scan)

/-- The number of bytes that lines take with what is before each of them. -/
def Line.extent (ls : List Line) : Nat := Text.bytes (ls.flatMap text)

namespace Reader

open Line (extent)
open Lexeme (spot)

variable {source : Text} {lines pre post : List Line} {after : Text} {l : Line} {s : Statement}

theorem extent_append (pre post : List Line) : extent (pre ++ post) = extent pre + extent post := by
  rw [extent, List.flatMap_append, Text.bytes_append]
  rfl

theorem extent_lines (s : Statement) :
    extent s.lines = s.first.lead.bytes + (join s.tokens).bytes := by
  rw [extent, ← Statement.lead_append_join, Text.bytes_append]

/-! ### One line of a text -/

section Lines

variable (h : Line.ofTokens (scan source) = .ok (lines, after))
include h

/-- A line stands where the text of those before it ends. -/
theorem offset_of_ofTokens (hlines : lines = pre ++ l :: post) :
    l.place.offset = extent pre + l.gap.bytes := by
  rw [Line.place_of_ofTokens (hlines ▸ h), extent, ← Text.bytes_append]
  exact Nat.zero_add _

theorem source_of_ofTokens (hlines : lines = pre ++ post) :
    source = pre.flatMap Line.text ++ (post.flatMap Line.text ++ after) := by
  have hlays : Line.Lays source (lines.map Line.unplaced) after := ⟨lines, h, rfl⟩
  have htext := hlays.text_eq
  rw [Line.text_unplaced, hlines, List.flatMap_append, List.append_assoc] at htext
  exact htext

theorem joint?_eq (hlines : lines = pre ++ l :: post) : l.part.joint? source =
    some ⟨l.joint, ⟨extent pre, extent pre + l.lead.bytes⟩⟩ := by
  have hoffset := offset_of_ofTokens h hlines
  have hsource := source_of_ofTokens h hlines
  have hslice : source.slice? ⟨extent pre, extent pre + l.lead.bytes⟩ = some l.lead :=
    Text.slice?_eq_some.2 ⟨pre.flatMap Line.text,
      join l.tokens ++ (post.flatMap Line.text ++ after), by simp [hsource, Line.text], rfl⟩
  have hstart : l.place.offset - l.gap.bytes = extent pre := by omega
  have hstop : l.place.offset + l.indent.bytes = extent pre + l.lead.bytes := by
    rw [Line.lead, Text.bytes_append]
    omega
  have hhead : l.part.head? = some ⟨l.head, (l.place.after l.indent).span l.head.text⟩ := rfl
  have hmake : Span.make? l.part.before.start ((l.place.after l.indent).span l.head.text).start =
      some ⟨extent pre, extent pre + l.lead.bytes⟩ := by
    rw [show l.part.before.start = l.place.offset - l.gap.bytes from rfl, hstart,
      show ((l.place.after l.indent).span l.head.text).start = l.place.offset + l.indent.bytes from rfl,
      hstop]
    exact Span.make?_of_le (Nat.le_add_right _ _)
  simp only [Part.joint?, hhead, hmake, hslice, Option.bind_eq_bind, Option.bind_some]
  rfl

end Lines

/-! ### The parts of a statement -/

theorem getElem?_parts (hlines : lines = pre ++ post) :
    (lines.map Line.part)[pre.length]? = post.head?.map Line.part := by
  rw [hlines, List.getElem?_map, List.getElem?_append_right (Nat.le_refl _), Nat.sub_self,
    List.head?_eq_getElem?]

theorem continues_eq (s : Statement) (next : Line) :
    continues s.kind s.first.part s.lastLine.part next.part = s.continuesWith next := by
  unfold continues Statement.continuesWith
  cases s.kind <;> rfl

theorem nestsDeclaration?_eq {index : LineIndex} (hlines : lines = pre ++ post) :
    nestsDeclaration? ⟨source, index, lines.map Line.part⟩ pre.length l.part =
      some (l.nestsDeclaration post) := by
  have hsplit := splitAt?_append (pre.map Line.part) (post.map Line.part)
  rw [List.length_map, ← List.map_append, ← hlines] at hsplit
  simp only [nestsDeclaration?, hsplit, Option.bind_eq_bind, Option.bind_some, List.find?_map,
    Option.any_map]
  rfl

/-- A line has the same kind as its part. -/
theorem kind?_eq {index : LineIndex} (hlines : lines = pre ++ post) :
    kind? ⟨source, index, lines.map Line.part⟩ pre.length l.part = some (l.kind post) := by
  unfold kind? Line.kind
  rw [nestsDeclaration?_eq hlines]
  change (if l.isComment then _ else if l.isAtRule then _ else if l.hasColon then _ else _) = _
  split
  · rfl
  · split
    · rfl
    · split
      · next hcolon => cases l.nestsDeclaration post <;> simp [hcolon]
      · next hcolon => simp [hcolon]

section Lines

variable (h : Line.ofTokens (scan source) = .ok (lines, after))
include h

/-- The tokens of a statement end where the text of its lines does. -/
theorem stop_of_ofTokens (hlines : lines = pre ++ s.lines ++ post) :
    s.place.offset + (join s.tokens).bytes = extent (pre ++ s.lines) := by
  have hoffset := offset_of_ofTokens h
    (show lines = pre ++ s.first :: (s.more ++ post) by rw [hlines, Statement.lines]; simp)
  rw [extent_append, extent_lines, Line.lead, Text.bytes_append, Statement.place, Place.after, hoffset]
  dsimp only
  omega

/-- The lexemes of the next line go on where those of a statement end. -/
theorem spot_concat (hlines : lines = pre ++ s.lines ++ l :: post) : ∃ span,
    l.part.joint? source = some ⟨l.joint, span⟩ ∧
      spot s.place.offset s.tokens ++ ⟨l.joint, span⟩ :: l.part.tokens =
        spot s.place.offset { s with more := s.more ++ [l] }.tokens := by
  have hoffset := offset_of_ofTokens h hlines
  have hpart : l.part.tokens = spot (extent (pre ++ s.lines) + l.lead.bytes) l.tokens := by
    rw [Line.lead, Text.bytes_append, ← Nat.add_assoc, ← hoffset]
    rfl
  have htokens : { s with more := s.more ++ [l] }.tokens = s.tokens ++ l.joint :: l.tokens := by
    simp [Statement.tokens, Statement.rest]
  refine ⟨_, joint?_eq h hlines, ?_⟩
  rw [htokens, Lexeme.spot_append, stop_of_ofTokens h hlines, hpart]
  rfl

end Lines

section Absorb

variable {index : LineIndex} (hlines : lines = pre ++ s.lines ++ post)
include hlines

theorem getElem?_behind :
    (lines.map Line.part)[pre.length + 1 + s.more.length]? = post.head?.map Line.part := by
  rw [← getElem?_parts hlines, List.length_append, Statement.lines, List.length_cons, Nat.add_assoc,
    Nat.add_comm 1]

theorem getElem?_lastLine :
    (lines.map Line.part)[pre.length + 1 + s.more.length - 1]? = some s.lastLine.part := by
  have hlast : (pre ++ s.lines).getLast? = some s.lastLine := by
    simp [Statement.lines, Statement.lastLine, List.getLast?_append, List.getLast?_cons]
  have hlength : (pre ++ s.lines).length = pre.length + 1 + s.more.length := by
    rw [List.length_append, Statement.lines, List.length_cons, Nat.add_assoc, Nat.add_comm 1]
  rw [hlines, List.getElem?_map, List.getElem?_append_left (by omega), ← hlength,
    ← List.getLast?_eq_getElem?, hlast]
  rfl

theorem absorbFrom?_stop (hstop : ∀ next ∈ post.head?, s.continuesWith next = false)
    (ts : List Lexeme) :
    absorbFrom? ⟨source, index, lines.map Line.part⟩ s.kind s.first.part ts
        (pre.length + 1 + s.more.length) = some (ts, pre.length + 1 + s.more.length) := by
  have hlast := getElem?_lastLine hlines
  have hnext := getElem?_behind hlines
  cases post with
  | nil =>
    rw [absorbFrom?]
    split
    · rfl
    · next next hsome => simp [hnext] at hsome
  | cons l post =>
    rw [absorbFrom?]
    split
    · rfl
    · next next hsome =>
      obtain rfl : l.part = next := by simpa [hnext] using hsome
      rw [Counter.sub?_of_le (by omega)]
      simp only [Option.bind_eq_bind, Option.bind_some, hlast, continues_eq, hstop l rfl,
        Bool.false_eq_true, if_false]
      rfl

end Absorb

section Lines

variable (h : Line.ofTokens (scan source) = .ok (lines, after)) (index : LineIndex)
include h

theorem absorbFrom?_next (hlines : lines = pre ++ s.lines ++ l :: post)
    (hl : s.continuesWith l = true) :
    absorbFrom? ⟨source, index, lines.map Line.part⟩ s.kind s.first.part
        (spot s.place.offset s.tokens) (pre.length + 1 + s.more.length) =
      absorbFrom? ⟨source, index, lines.map Line.part⟩ s.kind s.first.part
        (spot s.place.offset { s with more := s.more ++ [l] }.tokens)
        (pre.length + 1 + (s.more ++ [l]).length) := by
  have hlast := getElem?_lastLine hlines
  have hnext := getElem?_behind hlines
  obtain ⟨span, hjoint, hspot⟩ := spot_concat h hlines
  rw [absorbFrom?]
  split
  · next hnone => simp [hnext] at hnone
  · next next hsome =>
    obtain rfl : l.part = next := by simpa [hnext] using hsome
    rw [Counter.sub?_of_le (by omega)]
    simp only [Option.bind_eq_bind, Option.bind_some, hlast, continues_eq, hl, if_true, hjoint, hspot]
    rw [List.length_append, List.length_singleton, ← Nat.add_assoc]

/-- The parts behind the first one of a statement are taken in up to its last line. -/
theorem absorbFrom?_eq (hcont : s.Continued)
    (hstop : ∀ next ∈ post.head?, s.continuesWith next = false)
    (hlines : lines = pre ++ s.lines ++ post) {todo : List Line} :
    ∀ done, s.more = done ++ todo →
      absorbFrom? ⟨source, index, lines.map Line.part⟩ s.kind s.first.part
          (spot s.place.offset { s with more := done }.tokens) (pre.length + 1 + done.length) =
        some (spot s.place.offset s.tokens, pre.length + 1 + s.more.length) := by
  induction todo with
  | nil =>
    intro done hmore
    obtain rfl : s.more = done := by simpa using hmore
    exact absorbFrom?_stop hlines hstop _
  | cons next todo ih =>
    intro done hmore
    have hsplit : lines = pre ++ { s with more := done }.lines ++ next :: (todo ++ post) := by
      rw [hlines, Statement.lines, hmore]
      simp [Statement.lines]
    rw [← ih (done ++ [next]) (by simp [hmore])]
    exact absorbFrom?_next h index hsplit (hcont done next todo hmore)

theorem absorb?_eq (hcont : s.Continued) (hstop : ∀ next ∈ post.head?, s.continuesWith next = false)
    (hlines : lines = pre ++ s.lines ++ post) :
    absorb? ⟨source, index, lines.map Line.part⟩ s.kind s.first.part (pre.length + 1) =
      some (spot s.place.offset s.tokens, pre.length + 1 + s.more.length) := by
  have hfirst : (lines.map Line.part)[pre.length + 1 - 1]? = some s.first.part :=
    getElem?_parts (hlines.trans (List.append_assoc _ _ _))
  have hone : ({ s with more := [] } : Statement).tokens = s.first.tokens := by
    simp [Statement.tokens, Statement.rest, Line.tokens]
  have habsorb := absorbFrom?_eq h index hcont hstop hlines [] rfl
  rw [hone] at habsorb
  unfold absorb?
  rw [Counter.sub?_of_le (by omega)]
  simp only [Option.bind_eq_bind, Option.bind_some, hfirst]
  exact habsorb

end Lines

/-! ### Where a node ends -/

section Lines

variable (h : Line.ofTokens (scan source) = .ok (lines, after))
include h

/-- Behind the first line, something stands before each line. -/
theorem lead_ne_nil_of_mem_tail (hl : l ∈ lines.tail) : l.lead ≠ [] := by
  cases lines with
  | nil => cases hl
  | cons first rest =>
    have hlays : Line.Lays source (first.unplaced :: rest.map Line.unplaced) after := ⟨_, h, rfl⟩
    obtain ⟨c, gap, hgap, -⟩ := hlays.broken _ (List.mem_map_of_mem hl)
    rw [Line.lead, show l.gap = c :: gap from hgap, List.cons_append]
    exact List.cons_ne_nil _ _

/-- The tokens of a statement and the joints between its lines have texts. -/
theorem text_ne_nil_of_mem_tokens (hlines : lines = pre ++ s.lines ++ post) :
    ∀ t ∈ s.tokens, t.text ≠ [] := by
  have hscan : ∀ l ∈ s.lines, ∀ t ∈ l.tokens, t.text ≠ [] := fun l hl t ht =>
    Token.text_ne_nil_of_mem_scan ((Line.tokens_isInfix_scan h (by simp [hlines, hl])).subset ht)
  have hmore : ∀ l ∈ s.more, l ∈ lines.tail := by
    intro l hl
    rw [hlines]
    cases pre with
    | nil => simp [Statement.lines, hl]
    | cons first pre => simp [Statement.lines, hl]
  intro t ht
  rw [show s.tokens = s.first.tokens ++ s.more.flatMap fun l => l.joint :: l.tokens from rfl] at ht
  rcases List.mem_append.1 ht with ht | ht
  · exact hscan _ List.mem_cons_self t ht
  · obtain ⟨l, hl, ht⟩ := List.mem_flatMap.1 ht
    rcases List.mem_cons.1 ht with rfl | ht
    · exact lead_ne_nil_of_mem_tail h (hmore l hl)
    · exact hscan l (List.mem_cons_of_mem _ hl) t ht

end Lines

/-- The last character of a node stands where its tokens tell. -/
theorem contentEnd?_eq (parts : List Part) {place : Place} {u v : Text} {ts : List Token}
    {content : List Lexeme} (h : source.bytes < Counter.limit)
    (hsource : source = u ++ join ts ++ v) (hplace : place = Place.first.after u)
    (hne : ∀ t ∈ ts, t.text ≠ []) (hsolid : ∃ t ∈ ts, t.isWhitespace = false)
    (hcontent : (content.reverse.find? fun t => !t.isWhitespace) =
      (spot place.offset ts).reverse.find? fun t => !t.isWhitespace) :
    contentEnd? ⟨source, .ofText source, parts⟩ content = some (some (Token.contentEnd place ts)) := by
  obtain ⟨us, t, hsplit, ht⟩ := Token.exists_splitTrailing hsolid
  have hwhite := Token.white_splitTrailing ts
  have hparts := Token.splitTrailing_append ts
  obtain ⟨space, hspace⟩ : ∃ space, (Token.splitTrailing ts).2 = space := ⟨_, rfl⟩
  rw [hspace] at hwhite
  rw [hsplit, hspace, List.append_assoc, List.singleton_append] at hparts
  have htext : t.text ≠ [] := hne t (hparts ▸ by simp)
  obtain ⟨trimmed, htrimmed⟩ : ∃ trimmed, t.text.trimEnd = trimmed := ⟨_, rfl⟩
  obtain ⟨blanks, hblanks⟩ : trimmed <+: t.text := htrimmed ▸ t.text.trimEnd_isPrefix
  have hsource : source = (u ++ join us) ++ trimmed ++ (blanks ++ join space ++ v) := by
    rw [hsource, ← hparts, Token.join_append, Token.join_cons, ← hblanks]
    simp
  have hstart : place.offset + (join us).bytes = (u ++ join us).bytes := by
    rw [hplace, Text.bytes_append]
    exact congrArg (· + _) (Nat.zero_add _)
  have hfound : (content.reverse.find? fun t => !t.isWhitespace) =
      some ⟨t, ⟨(u ++ join us).bytes, (u ++ join us).bytes + t.text.bytes⟩⟩ := by
    rw [hcontent, ← hparts, Lexeme.spot_append, hstart]
    refine find?_reverse_last _ ht fun x hx => ?_
    have hmem : x.toToken ∈ space := by
      rw [← Lexeme.map_spot _ space]
      exact List.mem_map_of_mem hx
    exact hwhite _ hmem
  have hstop : (u ++ join us).bytes + trimmed.bytes < Counter.limit := by
    rw [hsource, Text.bytes_append, Text.bytes_append] at h
    omega
  have hrest : trimmed ++ (blanks ++ join space ++ v) ≠ [] := by
    rw [← List.append_assoc, ← List.append_assoc, hblanks, List.append_assoc]
    exact List.append_ne_nil_of_left_ne_nil htext _
  have hposition : (LineIndex.ofText source).lastPosition? ⟨(u ++ join us).bytes,
      (u ++ join us).bytes + trimmed.bytes⟩ = some (Token.contentEnd place ts) := by
    rw [LineIndex.lastPosition?_append h hsource hrest, Token.contentEnd_eq hsplit, htrimmed, hplace,
      Position.after_append]
    rfl
  simp only [contentEnd?, hfound, htrimmed, Counter.add?_of_lt hstop,
    Span.make?_of_le (Nat.le_add_right _ _), hposition, Option.bind_eq_bind, Option.bind_some]
  rfl

end Reader

end OffsideCss
