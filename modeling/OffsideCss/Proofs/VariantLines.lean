import OffsideCss.Proofs.Offside
import OffsideCss.Proofs.VariantRun

/-! The lines of a variant.  Where the rows of a variant differ from those of the text in their
indentation and line breaks only, its lines and statements stand for those of the text, and what is
never closed in the one is never closed in the other. -/

namespace OffsideCss

open Token (join placed scan)

/-- Whether positions in a text and in a variant, with the rest of the text behind the first one, go
along with each other: tokens and indentations lead from ones that do to others that do, and a
character takes positions that stand for each other. -/
structure Variant.Tracks (V : Variant) (P : Position → Position → Text → Prop) : Prop where
  step : ∀ {p q : Position} {t rest : Text}, P p q (t ++ rest) → P (p.after t) (q.after t) rest
  indent : ∀ {p q : Position} {t rest : Text}, (∀ c ∈ t, V.Indents c) → P p q (t ++ rest) →
    P (p.after t) (q.after (V.indent t)) rest
  stands : ∀ {p q : Position} {rest : Text}, P p q rest → rest ≠ [] → V.Stands p q

/-- A text goes on behind what is before the last character that is not blank. -/
theorem Text.exists_dropLast_trimEnd {t : Text} (h : t ≠ []) :
    ∃ back, t = t.trimEnd.dropLast ++ back ∧ back ≠ [] := by
  have happend := Text.trimEnd_append_blanks t
  rcases List.eq_nil_or_concat t.trimEnd with hnil | ⟨front, c, hconcat⟩
  · exact ⟨t, by simp [hnil], h⟩
  · rw [hconcat, List.concat_eq_append] at happend
    refine ⟨[c] ++ (t.reverse.takeWhile isBlank).reverse, ?_, by simp⟩
    rw [hconcat, List.concat_eq_append, List.dropLast_concat, ← List.append_assoc, happend]

namespace Token

/-- A token with another line break for each line feed. -/
def withBreaks (lineBreak : Text) (t : Token) : Token :=
  { t with text := Text.withBreaks lineBreak t.text }

theorem map_withBreaks_self (ts : List Token) : ts.map (withBreaks ['\n']) = ts := by
  have hself : withBreaks ['\n'] = id := funext fun t => congrArg _ (Text.withBreaks_self t.text)
  rw [hself, List.map_id]

theorem join_map_withBreaks (lineBreak : Text) (ts : List Token) :
    join (ts.map (withBreaks lineBreak)) = Text.withBreaks lineBreak (join ts) := by
  induction ts with
  | nil => rfl
  | cons t ts ih => rw [List.map_cons, join_cons, ih, join_cons, Text.withBreaks_append]; rfl

variable {V : Variant} {P : Position → Position → Text → Prop} {p q : Place} {ts us : List Token}
  {rest : Text}

theorem varies_withBreaks (V : Variant) {t : Token} (h : t.text ≠ []) :
    t.Varies V (t.withBreaks V.lineBreak) :=
  ⟨rfl, V.field_breaks _, fun _ => h, fun _ => rfl⟩

theorem variesAt_withBreaks (hP : V.Tracks P) {t : Token} (ht : t.text ≠ [])
    (h : P p.toPosition q.toPosition (t.text ++ rest)) :
    VariesAt V (p, t) (q, t.withBreaks V.lineBreak) where
  toVaries := varies_withBreaks V ht
  start _ := hP.stands h (by simp [ht])
  stop _ := by
    -- The last character that is not blank has the same position in both spellings of the token.
    show V.Stands (p.last t.text.trimEnd) (q.last (Text.withBreaks V.lineBreak t.text).trimEnd)
    rw [Text.last_trimEnd_withBreaks V.spells]
    obtain ⟨back, hback, hne⟩ := Text.exists_dropLast_trimEnd ht
    rw [hback, List.append_assoc] at h
    exact hP.stands (hP.step h) (by simp [hne])

theorem varies_placed (hP : V.Tracks P) (hne : ∀ t ∈ ts, t.text ≠ [])
    (h : P p.toPosition q.toPosition (join ts ++ rest)) :
    List.Forall₂ (VariesAt V) (placed p ts) (placed q (ts.map (withBreaks V.lineBreak))) := by
  induction ts generalizing p q with
  | nil => exact .nil
  | cons t ts ih =>
    obtain ⟨ht, hts⟩ := List.forall_mem_cons.1 hne
    rw [join_cons, List.append_assoc] at h
    refine .cons (variesAt_withBreaks hP ht h) (ih hts ?_)
    have hstep := hP.step h
    rwa [← Text.after_withBreaks V.spells q.toPosition] at hstep

/-- The tokens that are not whitespace, with their places. -/
def solids (p : Place) (ts : List Token) : List (Place × Token) :=
  (placed p ts).filter fun x => !x.2.isWhitespace

theorem solids_append (p : Place) (ts us : List Token) :
    solids p (ts ++ us) = solids p ts ++ solids (p.after (join ts)) us := by
  rw [solids, placed_append, List.filter_append, solids, solids]

theorem varies_solids (h : List.Forall₂ (VariesAt V) (placed p ts) (placed q us)) :
    List.Forall₂ (VariesAt V) (solids p ts) (solids q us) :=
  List.rel_filter (fun _ _ hx => by simp [hx.isWhitespace]) h

end Token

namespace Line

variable {V : Variant} {P : Position → Position → Text → Prop} {p q : Place} {rest : Text}
  {row row' : List Token} {rs rs' : List (List Token)} {gap gap' : Text}

/-- Whether a row of a variant has the indentation that stands for that of a row of the text, and
its other tokens but for line breaks. -/
structure VariesRow (V : Variant) (row row' : List Token) : Prop where
  spells : ∀ t ∈ row, t.kind.Spells t.text
  indents : ∀ c ∈ (splitIndent row).1, V.Indents c
  indent : (splitIndent row').1 = V.indent (splitIndent row).1
  tokens : (splitIndent row').2 = (splitIndent row).2.map (Token.withBreaks V.lineBreak)

theorem spacing_splitIndent (h : ∀ t ∈ row, t.kind.Spells t.text) :
    ∀ c ∈ (splitIndent row).1, isSpacing c = true := by
  cases row with
  | nil => simp [splitIndent]
  | cons t row =>
    by_cases hk : t.kind = .space
    · have ht := h t List.mem_cons_self
      rw [hk] at ht
      simpa [splitIndent, hk] using ht.2
    · simp [splitIndent, hk]

/-- Tokens of the same kinds are cut into rows of the same lengths. -/
theorem lengths_rowsFrom {ts us : List Token} (h : us.map Token.kind = ts.map Token.kind)
    (depth : Nat) :
    (rowsFrom depth us).map List.length = (rowsFrom depth ts).map List.length := by
  induction ts generalizing us depth with
  | nil => rw [List.map_eq_nil_iff.1 h]
  | cons t ts ih =>
    obtain ⟨u, us, rfl, hk, hus⟩ := List.map_eq_cons_iff.1 h
    rw [rowsFrom, rowsFrom, hk]
    split
    · rw [List.map_cons, List.map_cons, ih hus]
      rfl
    · have hrest := ih hus (t.kind.nesting depth)
      generalize rowsFrom (t.kind.nesting depth) us = rs at hrest ⊢
      generalize rowsFrom (t.kind.nesting depth) ts = rs' at hrest ⊢
      cases rs <;> cases rs' <;> simp_all

/-- Rows are told by their lengths, and their lengths by the kinds of the tokens. -/
theorem rowsFrom_of_kinds {depth : Nat} {ts us : List Token} {rs : List (List Token)}
    (hrs : rs.flatten = us) (h : us.map Token.kind = ts.map Token.kind)
    (hlengths : rs.map List.length = (rowsFrom depth ts).map List.length) :
    rowsFrom depth us = rs :=
  List.eq_iff_flatten_eq.2 ⟨by rw [flatten_rowsFrom, hrs],
    (lengths_rowsFrom h depth).trans hlengths.symm⟩

theorem rowsFrom_map {f : Token → Token} (hf : ∀ t, (f t).kind = t.kind) (depth : Nat)
    (ts : List Token) : rowsFrom depth (ts.map f) = (rowsFrom depth ts).map (List.map f) := by
  have hkinds : (ts.map f).map Token.kind = ts.map Token.kind := by simp [hf]
  refine rowsFrom_of_kinds ?_ hkinds (by simp)
  rw [← List.map_flatten, flatten_rowsFrom]

theorem splitIndent_map (lineBreak : Text) (ts : List Token) :
    splitIndent (ts.map (Token.withBreaks lineBreak)) =
      (Text.withBreaks lineBreak (splitIndent ts).1,
        (splitIndent ts).2.map (Token.withBreaks lineBreak)) := by
  cases ts with
  | nil => rfl
  | cons t ts => by_cases hk : t.kind = .space <;> simp [splitIndent, Token.withBreaks, hk]

theorem splitBreak_map (lineBreak : Text) (ts : List Token) :
    splitBreak (ts.map (Token.withBreaks lineBreak)) =
      ((splitBreak ts).1.map (Token.withBreaks lineBreak),
        Text.withBreaks lineBreak (splitBreak ts).2) := by
  rcases List.eq_nil_or_concat ts with rfl | ⟨ts, t, rfl⟩
  · rfl
  · by_cases hk : t.kind = .lineBreak <;> simp [splitBreak, Token.withBreaks, hk]

theorem VariesRow.spells_rest (h : VariesRow V row row') :
    ∀ t ∈ (splitIndent row).2, t.kind.Spells t.text :=
  fun t ht => h.spells t ((splitIndent_suffix row).subset ht)

theorem VariesRow.gap_break (h : VariesRow V row row') :
    V.Gap (splitBreak (splitIndent row).2).2 (splitBreak (splitIndent row').2).2 := by
  rw [h.tokens, splitBreak_map]
  have hspells := h.spells_rest
  rcases List.eq_nil_or_concat (splitIndent row).2 with hnil | ⟨ts, t, hconcat⟩
  · rw [hnil]
    exact V.gap_nil
  · rw [hconcat, List.concat_eq_append] at hspells ⊢
    by_cases hk : t.kind = .lineBreak
    · have ht := hspells t (by simp)
      rw [hk] at ht
      simpa [splitBreak, hk] using V.gap_break ht
    · simpa [splitBreak, hk] using V.gap_nil

/-- Behind a row the positions still go along with each other. -/
theorem VariesRow.tracks (h : VariesRow V row row') (hP : V.Tracks P)
    (hp : P p.toPosition q.toPosition (join row ++ rest)) :
    P (p.after (join row)).toPosition (q.after (join row')).toPosition rest := by
  rw [← splitIndent_append row, List.append_assoc] at hp
  have hstep := hP.step (hP.indent h.indents hp)
  rw [← Text.after_withBreaks V.spells (q.toPosition.after _), ← h.indent,
    ← Token.join_map_withBreaks, ← h.tokens, ← Position.after_append, ← Position.after_append,
    splitIndent_append, splitIndent_append] at hstep
  exact hstep

theorem VariesRow.gap_row (h : VariesRow V row row')
    (hblank : (splitBreak (splitIndent row).2).1 = []) : V.Gap (join row) (join row') := by
  have hblank' : (splitBreak (splitIndent row').2).1 = [] := by
    rw [h.tokens, splitBreak_map, hblank]
    rfl
  rw [← splitIndent_append row, ← splitBreak_append (splitIndent row).2, hblank,
    ← splitIndent_append row', ← splitBreak_append (splitIndent row').2, hblank', h.indent]
  exact V.gap_append (V.gap_indent h.indents) h.gap_break

/-- The line of a row of a variant stands for the line of the row of the text. -/
theorem VariesRow.varies (h : VariesRow V row row') (hP : V.Tracks P)
    (hp : P p.toPosition q.toPosition (join row ++ rest)) (hgap : V.Gap gap gap') {head : Token}
    {tail : List Token} (hline : (splitBreak (splitIndent row).2).1 = head :: tail) :
    Varies V ⟨gap, (splitIndent row).1, p, head, tail⟩
      ⟨gap', (splitIndent row').1, q, head.withBreaks V.lineBreak,
        tail.map (Token.withBreaks V.lineBreak)⟩ := by
  have hrow := splitIndent_append row
  have hrest := splitBreak_append (splitIndent row).2
  have hspells := h.spells_rest
  have hne : ∀ t ∈ head :: tail, t.text ≠ [] := fun t ht =>
    (hspells t ((prefix_splitBreak _).subset (hline ▸ ht))).ne_nil
  rw [hline] at hrest
  rw [← hrow, ← hrest, List.append_assoc, List.append_assoc] at hp
  refine ⟨?_, h.indent, h.indents, fun front back hfront => ?_, ?_⟩
  · show V.Gap (gap ++ _) (gap' ++ _)
    rw [h.indent]
    exact V.gap_append hgap (V.gap_indent h.indents)
  · have hfront' : (splitIndent row).1 = front ++ back := hfront
    have hindents := (List.forall_mem_append.1 (hfront' ▸ h.indents)).1
    rw [hfront', List.append_assoc] at hp
    exact hP.stands (hP.indent hindents hp) (by simp [hne head List.mem_cons_self])
  · have hbehind := hP.indent h.indents hp
    rw [← h.indent] at hbehind
    exact Token.varies_placed (p := p.after (splitIndent row).1) (q := q.after (splitIndent row').1)
      hP hne hbehind

theorem varies_ofRows (hP : V.Tracks P) (h : List.Forall₂ (VariesRow V) rs rs')
    (hp : P p.toPosition q.toPosition (join rs.flatten ++ rest)) (hgap : V.Gap gap gap') :
    List.Forall₂ (Varies V) (ofRows p gap rs).1 (ofRows q gap' rs').1 ∧
      V.Gap (ofRows p gap rs).2 (ofRows q gap' rs').2 := by
  induction h generalizing p q gap gap' with
  | nil => exact ⟨.nil, hgap⟩
  | @cons row row' rs rs' hrow _ ih =>
    rw [List.flatten_cons, Token.join_append, List.append_assoc] at hp
    have hbehind := hrow.tracks hP hp
    cases hline : (splitBreak (splitIndent row).2).1 with
    | nil =>
      have hline' : (splitBreak (splitIndent row').2).1 = [] := by
        rw [hrow.tokens, splitBreak_map, hline]
        rfl
      rw [ofRows_blank hline, ofRows_blank hline']
      exact ih hbehind (V.gap_append hgap (hrow.gap_row hline))
    | cons head tail =>
      have hline' : (splitBreak (splitIndent row').2).1 =
          head.withBreaks V.lineBreak :: tail.map (Token.withBreaks V.lineBreak) := by
        rw [hrow.tokens, splitBreak_map, hline]
        rfl
      rw [ofRows_line hline, ofRows_line hline']
      obtain ⟨hlines, hafter⟩ := ih hbehind hrow.gap_break
      exact ⟨.cons (hrow.varies hP hp hgap hline) hlines, hafter⟩

theorem solids_row (p : Place) (row : List Token) :
    Token.solids p row = Token.solids (p.after (splitIndent row).1) (splitIndent row).2 := by
  cases row with
  | nil => rfl
  | cons t ts =>
    by_cases hk : t.kind = .space
    · simp [Token.solids, placed, splitIndent, hk, Token.isWhitespace, TokenKind.isWhitespace]
    · simp [splitIndent, hk]

/-- The tokens of a variant that are not whitespace stand for those of the text. -/
theorem varies_solids (hP : V.Tracks P) (h : List.Forall₂ (VariesRow V) rs rs')
    (hp : P p.toPosition q.toPosition (join rs.flatten ++ rest)) :
    List.Forall₂ (Token.VariesAt V) (Token.solids p rs.flatten) (Token.solids q rs'.flatten) := by
  induction h generalizing p q with
  | nil => exact .nil
  | @cons row row' rs rs' hrow _ ih =>
    rw [List.flatten_cons, Token.join_append, List.append_assoc] at hp
    rw [List.flatten_cons, List.flatten_cons, Token.solids_append, Token.solids_append, solids_row,
      solids_row q]
    refine List.rel_append (Token.varies_solids ?_) (ih (hrow.tracks hP hp))
    rw [← splitIndent_append row, List.append_assoc] at hp
    rw [hrow.tokens]
    have hbehind := hP.indent hrow.indents hp
    rw [← hrow.indent] at hbehind
    exact Token.varies_placed (p := p.after (splitIndent row).1) (q := q.after (splitIndent row').1)
      hP (fun t ht => (hrow.spells_rest t ht).ne_nil) hbehind

/-- Whether rows of a variant have the lines, and the tokens that are not whitespace, that stand for
those of rows of the text, each behind its gap. -/
structure VariesRows (V : Variant) (p q : Place) (gap gap' : Text) (rs rs' : List (List Token)) :
    Prop where
  lines : List.Forall₂ (Varies V) (ofRows p gap rs).1 (ofRows q gap' rs').1
  after : V.Gap (ofRows p gap rs).2 (ofRows q gap' rs').2
  solids : List.Forall₂ (Token.VariesAt V) (Token.solids p rs.flatten) (Token.solids q rs'.flatten)

theorem variesRows_of_forall₂ (hP : V.Tracks P) (h : List.Forall₂ (VariesRow V) rs rs')
    (hp : P p.toPosition q.toPosition (join rs.flatten)) (hgap : V.Gap gap gap') :
    VariesRows V p q gap gap' rs rs' := by
  rw [← List.append_nil (join rs.flatten)] at hp
  obtain ⟨hlines, hafter⟩ := varies_ofRows hP h hp hgap
  exact ⟨hlines, hafter, varies_solids hP h hp⟩

theorem VariesRows.append {more more' : List (List Token)} (h : VariesRows V p q gap gap' rs rs')
    (hmore : VariesRows V (p.after (join rs.flatten)) (q.after (join rs'.flatten))
      (ofRows p gap rs).2 (ofRows q gap' rs').2 more more') :
    VariesRows V p q gap gap' (rs ++ more) (rs' ++ more') where
  lines := by
    rw [ofRows_append, ofRows_append]
    exact List.rel_append h.lines hmore.lines
  after := by
    rw [ofRows_append, ofRows_append]
    exact hmore.after
  solids := by
    rw [List.flatten_append, List.flatten_append, Token.solids_append, Token.solids_append]
    exact List.rel_append h.solids hmore.solids

/-- A row without content is part of the gap before the next line. -/
theorem VariesRows.cons_blank (hline : (splitBreak (splitIndent row).2).1 = [])
    (hsolids : Token.solids q row = [])
    (h : VariesRows V p (q.after (join row)) gap (gap' ++ join row) rs rs') :
    VariesRows V p q gap gap' rs (row :: rs') where
  lines := by
    rw [ofRows_blank hline]
    exact h.lines
  after := by
    rw [ofRows_blank hline]
    exact h.after
  solids := by
    rw [List.flatten_cons, Token.solids_append, hsolids]
    exact h.solids

/-! ### What is never closed -/

theorem locate?_unclosed (p : Place) (ts : List Token) :
    Token.locate? (·.kind = .unclosed) p ts =
      (Token.solids p ts).find? fun x => x.2.kind = .unclosed := by
  rw [Token.solids, List.find?_filter, Token.locate?]
  congr 1
  funext x
  cases hk : x.2.kind <;> simp [Token.isWhitespace, TokenKind.isWhitespace, hk]

theorem opened_rows (p : Place) (opened : List Place) (ts : List Token) :
    (rows p opened ts).2 =
      (Token.solids p ts).foldl (fun opened x => bracketsAfter opened x.1 x.2) opened := by
  induction ts generalizing p opened with
  | nil => rfl
  | cons t ts ih =>
    have hopened : (rows p opened (t :: ts)).2 =
        (rows (p.after t.text) (bracketsAfter opened p t) ts).2 := by
      rw [rows]
      dsimp only
      split <;> rfl
    rw [hopened, ih, Token.solids, Token.solids, placed]
    cases hk : t.kind <;>
      simp [bracketsAfter, Token.isWhitespace, TokenKind.isWhitespace, hk]

theorem stands_bracketsAfter {opened opened' : List Place} {x y : Place × Token}
    (h : List.Forall₂ (fun p q : Place => V.Stands p.toPosition q.toPosition) opened opened')
    (hxy : Token.VariesAt V x y) :
    List.Forall₂ (fun p q : Place => V.Stands p.toPosition q.toPosition)
      (bracketsAfter opened x.1 x.2) (bracketsAfter opened' y.1 y.2) := by
  have hstart := hxy.start
  unfold bracketsAfter
  rw [hxy.kind]
  cases hk : x.2.kind with
  | leftParen => exact .cons (hstart (by simp [Token.isWhitespace, hk, TokenKind.isWhitespace])) h
  | rightParen =>
    cases h with
    | nil => exact .nil
    | cons _ h => exact h
  | _ => exact h

theorem stands_opened {ts us : List Token}
    (h : List.Forall₂ (Token.VariesAt V) (Token.solids p ts) (Token.solids q us)) :
    List.Forall₂ (fun p q : Place => V.Stands p.toPosition q.toPosition) (rows p [] ts).2
      (rows q [] us).2 := by
  rw [opened_rows, opened_rows]
  exact List.rel_foldl (R := Token.VariesAt V)
    (fun _ _ hopened _ _ hxy => stands_bracketsAfter hopened hxy) .nil h

/-- The tokens of a variant are those of lines when the tokens of the text are, or fail in the same
way. -/
theorem alike_ofTokens {R : List Line × Text → List Line × Text → Prop} {ts us : List Token}
    (hsolids : List.Forall₂ (Token.VariesAt V) (Token.solids .first ts) (Token.solids .first us))
    (hlines : R (ofRows .first [] (rowsFrom 0 ts)) (ofRows .first [] (rowsFrom 0 us))) :
    Alike (Fault.Varies V) R (ofTokens ts) (ofTokens us) := by
  have hrel := forall₂_find? (p := fun x => x.2.kind = .unclosed)
    (q := fun x => x.2.kind = .unclosed) hsolids fun hxy => by rw [hxy.kind]
  rw [← locate?_unclosed, ← locate?_unclosed] at hrel
  unfold ofTokens
  rcases rel_cases hrel with ⟨hts, hus⟩ | ⟨x, y, hts, hus, hxy⟩
  · have hopened := stands_opened hsolids
    have hrows := rows_eq .first [] ts
    have hrows' := rows_eq .first [] us
    generalize rows .first [] ts = x at hopened hrows ⊢
    generalize rows .first [] us = y at hopened hrows' ⊢
    obtain ⟨rs, opened⟩ := x
    obtain ⟨rs', opened'⟩ := y
    obtain rfl : rs = rowsFrom 0 ts := hrows
    obtain rfl : rs' = rowsFrom 0 us := hrows'
    have hlast := forall₂_getElem? hopened (opened.length - 1)
    rw [← List.getLast?_eq_getElem?, hopened.length_eq, ← List.getLast?_eq_getElem?] at hlast
    simp only [hts, hus]
    rcases rel_cases hlast with ⟨ho, ho'⟩ | ⟨p, q, ho, ho', hpq⟩
    · simp only [ho, ho']
      exact .ok hlines
    · simp only [ho, ho']
      exact .error ⟨rfl, hpq⟩
  · obtain ⟨-, -, -, -, hk⟩ := Token.locate?_eq_some hts
    have hw : x.2.isWhitespace = false := by
      simp [Token.isWhitespace, of_decide_eq_true hk, TokenKind.isWhitespace]
    simp only [hts, hus]
    refine .error ⟨?_, hxy.start hw⟩
    simp only [unclosedFault, hxy.solid hw, Text.head?_withBreaks V.spells (d := '/') (by decide)
      (by decide)]
    split <;> rfl

/-! ### Statements -/

theorem Varies.kin {l k : Line} (h : l.Varies V k) : l.Kin V.factor k where
  width := by rw [width, h.indent, V.length_indent, width]
  kinds := by
    have hkinds := (Token.varies_of_placed h.tokens).imp fun _ _ ht => ht.kind.symm
    have hmap := List.forall₂_map_left_iff.2 (List.forall₂_map_right_iff.2 hkinds)
    rw [List.forall₂_eq_eq_eq] at hmap
    exact hmap.symm

/-- Whether a line of a variant stands for one of the text that is not the first one. -/
structure VariesBelow (V : Variant) (l k : Line) : Prop extends Varies V l k where
  lineFeed : '\n' ∈ l.lead

theorem PlacedFrom.front {p : Place} {pre post : List Line} (h : PlacedFrom p (pre ++ post)) :
    PlacedFrom p pre := by
  induction pre generalizing p with
  | nil => trivial
  | cons l pre ih => exact ⟨h.1, ih h.2⟩

theorem PlacedFrom.behind {p : Place} {pre post : List Line} (h : PlacedFrom p (pre ++ post)) :
    PlacedFrom (p.after (pre.flatMap text)) post := by
  induction pre generalizing p with
  | nil => exact h
  | cons l pre ih =>
    rw [List.flatMap_cons, Place.after_append]
    exact ih h.2

theorem place_after_text {p : Place} {l : Line} (h : l.place = p.after l.gap) :
    (l.place.after l.indent).after (join l.tokens) = p.after l.text := by
  rw [h, text, lead, Place.after_append, Place.after_append]

/-- The tokens of lines that continue a statement, with the joints before them. -/
theorem varies_joints {ls ks : List Line} (h : List.Forall₂ (VariesBelow V) ls ks)
    (hp : PlacedFrom p ls) (hq : PlacedFrom q ks) :
    List.Forall₂ (Token.VariesAt V) (placed p (ls.flatMap fun l => l.joint :: l.tokens))
      (placed q (ks.flatMap fun l => l.joint :: l.tokens)) := by
  induction h generalizing p q with
  | nil => exact .nil
  | @cons l k ls ks hlk _ ih =>
    have hjoint : Token.VariesAt V (p, l.joint) (q, k.joint) :=
      ⟨⟨rfl, V.field_gap hlk.lead hlk.lineFeed, by simp [joint, Token.isWhitespace,
        TokenKind.isWhitespace], by simp [joint, Token.isWhitespace, TokenKind.isWhitespace]⟩,
        by simp [joint, Token.isWhitespace, TokenKind.isWhitespace],
        by simp [joint, Token.isWhitespace, TokenKind.isWhitespace]⟩
    have hplace : p.after l.joint.text = l.place.after l.indent := by
      rw [hp.1, joint, lead, Place.after_append]
    have hplace' : q.after k.joint.text = k.place.after k.indent := by
      rw [hq.1, joint, lead, Place.after_append]
    rw [List.flatMap_cons, List.flatMap_cons, List.cons_append, List.cons_append, placed, placed,
      hplace, hplace', Token.placed_append, Token.placed_append, place_after_text hp.1,
      place_after_text hq.1]
    exact .cons hjoint (List.rel_append hlk.tokens (ih hp.2 hq.2))

end Line

namespace Statement

open Line (PlacedFrom)

variable {V : Variant} {s t current current' : Statement} {ls ks : List Line}

/-- Whether the lines of a statement of a variant stand for those of one of the text. -/
structure VariesLines (V : Variant) (s t : Statement) : Prop where
  kind : t.kind = s.kind
  first : s.first.Varies V t.first
  more : List.Forall₂ (Line.VariesBelow V) s.more t.more

theorem VariesLines.kin (h : s.VariesLines V t) : s.Kin V.factor t :=
  ⟨h.kind, h.first.kin, h.more.imp fun _ _ hl => hl.kin⟩

theorem varies_groupFrom (h : current.VariesLines V current')
    (hls : List.Forall₂ (Line.VariesBelow V) ls ks) :
    List.Forall₂ (VariesLines V) (groupFrom current ls) (groupFrom current' ks) := by
  induction hls generalizing current current' with
  | nil => exact .cons h .nil
  | cons hl hls ih =>
    rw [groupFrom, groupFrom, h.kin.continuesWith V.factor_pos hl.kin]
    split
    · exact ih ⟨h.kind, h.first, List.rel_append h.more (.cons hl .nil)⟩
    · refine .cons h (ih ⟨?_, hl.toVaries, .nil⟩)
      exact hl.kin.kind V.factor_pos (hls.imp fun _ _ hk => hk.kin)

theorem varies_group {l k : Line} (h : l.Varies V k)
    (hls : List.Forall₂ (Line.VariesBelow V) ls ks) :
    List.Forall₂ (VariesLines V) (group (l :: ls)) (group (k :: ks)) := by
  refine varies_groupFrom ⟨?_, h, .nil⟩ hls
  exact h.kin.kind V.factor_pos (hls.imp fun _ _ hk => hk.kin)

theorem VariesLines.tokens (h : s.VariesLines V t) {p q : Place} (hs : PlacedFrom p s.lines)
    (ht : PlacedFrom q t.lines) :
    List.Forall₂ (Token.VariesAt V) (placed s.place s.tokens) (placed t.place t.tokens) := by
  have htokens : ∀ s : Statement, s.tokens =
      s.first.tokens ++ s.more.flatMap fun l => l.joint :: l.tokens := fun _ => rfl
  rw [htokens, htokens, Token.placed_append, Token.placed_append, place, place,
    Line.place_after_text hs.1, Line.place_after_text ht.1]
  exact List.rel_append h.first.tokens (Line.varies_joints h.more hs.2 ht.2)

variable {source source' after after' : Text}

theorem exists_placedFrom (h : Line.ofTokens (scan source) = .ok (ls, after)) (hs : s ∈ group ls) :
    ∃ p, PlacedFrom p s.lines := by
  have hplaced := Line.placedFrom_ofRows .first [] (Line.rowsFrom 0 (scan source))
  rw [Place.after_nil, (Line.ofTokens_eq_ok.1 h).2.2] at hplaced
  obtain ⟨pre, post, hgroup⟩ := List.append_of_mem hs
  have hlines : ls = pre.flatMap Statement.lines ++ (s.lines ++ post.flatMap Statement.lines) := by
    rw [← flatMap_lines_group ls, hgroup, List.flatMap_append, List.flatMap_cons]
  rw [hlines] at hplaced
  exact ⟨_, hplaced.behind.front⟩

theorem lineFeed_mem_lead {l : Line} (h : Line.ofTokens (scan source) = .ok (l :: ls, after)) :
    ∀ k ∈ ls, '\n' ∈ k.lead := by
  intro k hk
  have hlays : Line.Lays source (l.unplaced :: ls.map Line.unplaced) after := ⟨_, h, rfl⟩
  obtain ⟨c, rest, hgap, -⟩ := hlays.broken k.unplaced (List.mem_map_of_mem hk)
  replace hgap : k.gap = c :: rest := hgap
  have hspaced := (Line.spaced_of_ofTokens h (List.mem_cons_of_mem _ hk)).1
  have hlast := hspaced.resolve_left (by simp [hgap])
  exact List.mem_append_left _ (List.mem_of_getLast? hlast)

/-- The statements of a variant stand for those of the text when its lines do. -/
theorem varies_of_lines (h : Line.ofTokens (scan source) = .ok (ls, after))
    (h' : Line.ofTokens (scan source') = .ok (ks, after'))
    (hlines : List.Forall₂ (Line.Varies V) ls ks) :
    List.Forall₂ (Varies V) (group ls) (group ks) := by
  have hgroup : List.Forall₂ (VariesLines V) (group ls) (group ks) := by
    cases hlines with
    | nil => exact .nil
    | cons hl hls =>
      have hbelow := (List.forall₂_and_left _ _).2 ⟨lineFeed_mem_lead h, hls⟩
      exact varies_group hl (hbelow.imp fun _ _ hk => ⟨hk.2, hk.1⟩)
  refine (forall₂_mem hgroup).imp ?_
  rintro s t ⟨hs, ht, hst⟩
  obtain ⟨p, hp⟩ := exists_placedFrom h hs
  obtain ⟨q, hq⟩ := exists_placedFrom h' ht
  exact ⟨hst.kind, hst.first, hst.tokens hp hq, formed_of_mem_group h hs,
    Line.head_of_ofTokens h (mem_of_mem_group hs List.mem_cons_self)⟩

end Statement

/-- Whether a parse error in a variant stands for one in the text. -/
structure ParseError.Varies (V : Variant) (e f : ParseError) : Prop where
  cause : f.cause = e.cause.scale V.factor
  stands : V.Stands e.position f.position

/-- A variant of a text is read as a variant of the sheet that the text is read as, or fails as the
text does, if its rows stand for those of the text. -/
theorem Sheet.alike_parse {V : Variant} (name : String) {source source' : Text}
    (h : Line.VariesRows V .first .first [] [] (Line.rowsFrom 0 (scan source))
      (Line.rowsFrom 0 (scan source'))) :
    Alike (ParseError.Varies V) (VariesRead V name source source') (parse name source)
      (parse name source') := by
  have hsolids := h.solids
  rw [Line.flatten_rowsFrom, Line.flatten_rowsFrom] at hsolids
  have hread := alike_read name <| (Line.alike_ofTokens (R := fun x y =>
    List.Forall₂ (Line.Varies V) x.1 y.1 ∧ V.Gap x.2 y.2) hsolids ⟨h.lines, h.after⟩).imp_ok
    fun x y hx hy hxy => ⟨Statement.varies_of_lines hx hy hxy.1, hxy.2⟩
  unfold parse
  generalize read name source = x at hread ⊢
  generalize read name source' = y at hread ⊢
  cases hread with
  | error hfault => exact .error ⟨hfault.cause, hfault.stands⟩
  | ok hsheet => exact .ok hsheet

/-- A variant whose rows differ from those of the text in their indentation and line breaks only is
read as a variant of the sheet that the text is read as, or fails as the text does. -/
theorem Sheet.alike_parse_of_rows {V : Variant} {P : Position → Position → Text → Prop}
    (hP : V.Tracks P) (name : String) {source source' : Text} (hfirst : P .first .first source)
    (hrows : List.Forall₂ (Line.VariesRow V) (Line.rowsFrom 0 (scan source))
      (Line.rowsFrom 0 (scan source'))) :
    Alike (ParseError.Varies V) (VariesRead V name source source') (parse name source)
      (parse name source') := by
  have hp : P .first .first (join (Line.rowsFrom 0 (scan source)).flatten) := by
    rwa [Line.flatten_rowsFrom, Token.join_scan]
  exact alike_parse name (Line.variesRows_of_forall₂ hP hrows hp V.gap_nil)

end OffsideCss
