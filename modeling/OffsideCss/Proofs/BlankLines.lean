import OffsideCss.Proofs.FaultPlace
import OffsideCss.Proofs.Relayout
import OffsideCss.Proofs.Respacing

/-! Blank lines.  A blank line may be put where a line of a text begins, outside parentheses.  What
stands behind it stands one line further down then, and what the text is read as differs in the
whitespace between lines only. -/

namespace OffsideCss

open Token (join scan solids)

namespace Position

variable {p b : Position} {t : Text}

/-- The position one line further down. -/
def down (p : Position) : Position := { p with line := p.line + 1 }

/-- Where a character at `p` stands when a line is put in at `b`. -/
def pushed (p b : Position) : Position := if p < b then p else p.down

theorem pushed_of_lt (h : p < b) : p.pushed b = p := if_pos h

theorem pushed_of_le (h : b ≤ p) : p.pushed b = p.down :=
  if_neg fun hlt => (lt_iff_le_not_ge.1 hlt).2 h

theorem after_down (p : Position) (t : Text) : p.down.after t = (p.after t).down := by
  induction t generalizing p with
  | nil => rfl
  | cons c t ih =>
    have hnext : p.down.next c = (p.next c).down := by
      unfold next
      split <;> rfl
    rw [after_cons, hnext, ih, after_cons]

/-- Behind a blank line stands what would stand where it begins. -/
theorem after_blankLine (hp : p.column = 1) (ht : '\n' ∉ t) : p.after (t ++ ['\n']) = p.down := by
  have hline := p.line_after t
  rw [List.count_eq_zero.2 ht, Nat.add_zero] at hline
  have hnext : (p.after t).next '\n' = ⟨(p.after t).line + 1, 1⟩ := rfl
  rw [after_append, after_cons, after_nil, hnext, hline, down]
  exact congrArg _ hp.symm

end Position

/-- Whether a line of a text begins between two parts of it: the first one is empty, or ends with a
line break outside parentheses. -/
def Text.RowStart (before rest : Text) : Prop :=
  before = [] ∨ ∃ ts us, scan (before ++ rest) = ts ++ us ∧ join ts = before ∧ Line.EndsRow 0 ts

theorem Text.isWhite_blankLine {w : Text} (hw : ∀ c ∈ w, isSpacing c = true) :
    (w ++ ['\n']).IsWhite :=
  (isWhite_of_spacing hw).append (by simp [IsWhite, isWhite])

namespace Line

/-- Whether a text is empty or ends with a line break outside parentheses. -/
def Complete (t : Text) : Prop := t = [] ∨ EndsRow 0 (scan t)

theorem complete_of_rowStart {before rest : Text} (h : Text.RowStart before rest) :
    Complete before := by
  rcases h with h | ⟨ts, us, hscan, hjoin, hends⟩
  · exact .inl h
  · refine .inr ?_
    rwa [show scan before = ts from Token.scanFrom_cut hscan hjoin]

namespace Complete

variable {t : Text} (h : Complete t)
include h

theorem scan_append (u : Text) : scan (t ++ u) = scan t ++ scan u := by
  rcases h with rfl | h
  · rw [List.nil_append, show scan [] = [] from Token.scanFrom_nil 0, List.nil_append]
  · exact h.scan_append u

theorem exists_rows : ∃ rs, rs.flatten = scan t ∧
    ∀ us, rowsFrom 0 (scan t ++ us) = rs ++ rowsFrom 0 us := by
  rcases h with rfl | h
  · exact ⟨[], by simp [scan], fun us => by simp [scan]⟩
  · obtain ⟨rs, -, hrs⟩ := h.rowsFrom_append
    refine ⟨rs, ?_, hrs⟩
    have hflatten := congrArg List.flatten (hrs [])
    rw [flatten_rowsFrom, List.append_nil, List.flatten_append] at hflatten
    simpa [rowsFrom] using hflatten.symm

theorem column_after : (Position.first.after t).column = 1 := by
  rcases h with rfl | h
  · rfl
  · obtain ⟨front, rfl⟩ := List.getLast?_eq_some_iff.1 h.getLast?_eq
    rw [Position.after_append]
    rfl

end Complete

/-! ### The row of a blank line -/

/-- The row of a blank line with these blanks in it. -/
def blankRow (w : Text) : List Token :=
  if w = [] then [⟨.lineBreak, ['\n']⟩] else [⟨.space, w⟩, ⟨.lineBreak, ['\n']⟩]

section BlankRow

variable {w : Text}

theorem scan_blankLine (hw : ∀ c ∈ w, c = ' ' ∨ c = '\t') : scan (w ++ ['\n']) = blankRow w := by
  rw [blankRow]
  split
  · next hnil => rw [hnil, List.nil_append, Token.scan_lineFeed]
  · next hne =>
    rw [← Token.scan_lineFeed]
    exact Token.scanFrom_spaces hne hw rfl

theorem join_blankRow (w : Text) : join (blankRow w) = w ++ ['\n'] := by
  rw [blankRow]
  split
  · next hnil => simp [hnil]
  · simp

theorem endsRow_blankRow (w : Text) : EndsRow 0 (blankRow w) := by
  rw [blankRow]
  split
  · exact ⟨[], _, rfl, rfl, rfl⟩
  · exact ⟨[_], _, rfl, rfl, rfl⟩

theorem rowsFrom_blankRow (w : Text) (us : List Token) :
    rowsFrom 0 (blankRow w ++ us) = blankRow w :: rowsFrom 0 us := by
  rw [blankRow]
  split <;> simp [rowsFrom, TokenKind.nesting]

theorem content_blankRow (w : Text) : (splitBreak (splitIndent (blankRow w)).2).1 = [] := by
  rw [blankRow]
  split <;> simp [splitIndent, splitBreak]

theorem solids_blankRow (p : Place) (w : Text) : solids p (blankRow w) = [] := by
  rw [blankRow]
  split <;> simp [solids, Token.placed, Token.isWhitespace, TokenKind.isWhitespace]

end BlankRow

end Line

/-! ### The variant -/

/-- The variant of a text with blank lines put in at `b`. -/
def Variant.pushed (b : Position) : Variant :=
  respaced False 1 Nat.one_pos id (fun c => isSpacing c = true) (fun _ h => ⟨h, h⟩) (fun _ _ h => h)
    fun p q => q = p.pushed b

namespace Variant

variable {b : Position}

theorem indent_pushed (b : Position) (t : Text) : (pushed b).indent t = t := by
  simp [indent, pushed, respaced]

theorem tracks_before (b : Position) :
    (pushed b).Tracks fun p q rest => q = p ∧ p.after rest ≤ b where
  step := by
    rintro _ p t rest ⟨rfl, hle⟩
    exact ⟨rfl, Position.after_append .. ▸ hle⟩
  indent := by
    rintro _ p t rest - ⟨rfl, hle⟩
    exact ⟨by rw [indent_pushed], Position.after_append .. ▸ hle⟩
  stands := by
    rintro _ p rest ⟨rfl, hle⟩ hne
    exact (Position.pushed_of_lt (lt_of_lt_of_le (Position.lt_after p hne) hle)).symm

theorem tracks_behind (b : Position) : (pushed b).Tracks fun p q _ => q = p.down ∧ b ≤ p where
  step := by
    rintro p _ t rest ⟨rfl, hle⟩
    exact ⟨Position.after_down p t, le_trans hle (Position.le_after p t)⟩
  indent := by
    rintro p _ t rest - ⟨rfl, hle⟩
    exact ⟨by rw [indent_pushed, Position.after_down], le_trans hle (Position.le_after p t)⟩
  stands := by
    rintro p _ rest ⟨rfl, hle⟩ -
    exact (Position.pushed_of_le hle).symm

end Variant

namespace Line

variable {b : Position} {rs : List (List Token)}

theorem variesRow_pushed {row : List Token} (h : ∀ t ∈ row, t.kind.Spells t.text) :
    VariesRow (Variant.pushed b) row row where
  spells := h
  indents := spacing_splitIndent h
  indent := (Variant.indent_pushed b _).symm
  tokens := (Token.map_withBreaks_self _).symm

theorem variesRows_pushed (h : ∀ t ∈ rs.flatten, t.kind.Spells t.text) :
    List.Forall₂ (VariesRow (Variant.pushed b)) rs rs :=
  List.forall₂_same.2 fun _ hrow =>
    variesRow_pushed fun t ht => h t (List.mem_flatten_of_mem hrow ht)

/-- A blank line between rows leaves the rows before it where they are, and moves those behind it
one line further down. -/
theorem variesRows_blankRow {us : List (List Token)} {w : Text}
    (hrs : ∀ t ∈ rs.flatten, t.kind.Spells t.text) (hus : ∀ t ∈ us.flatten, t.kind.Spells t.text)
    (hw : ∀ c ∈ w, isSpacing c = true) (hb : Position.first.after (join rs.flatten) = b)
    (hcolumn : b.column = 1) :
    VariesRows (Variant.pushed b) .first .first [] [] (rs ++ us) (rs ++ blankRow w :: us) := by
  -- No one relation goes across the blank line, where `b` is behind the rows before it and in front
  -- of those behind it, so the two parts are followed apart from each other.
  subst hb
  have hbefore := variesRows_of_forall₂ (Variant.tracks_before _) (variesRows_pushed hrs)
    (p := .first) (q := .first) ⟨rfl, le_refl _⟩ (Variant.gap_nil _)
  refine hbefore.append (.cons_blank (content_blankRow w) (solids_blankRow _ w) ?_)
  refine variesRows_of_forall₂ (Variant.tracks_behind _) (variesRows_pushed hus) ⟨?_, le_refl _⟩ ?_
  · rw [join_blankRow]
    exact Position.after_blankLine hcolumn (Text.lineFeed_not_mem_of_spacing hw)
  · have hblank : Text.Blanks False [] (join (blankRow w)) := by
      rw [join_blankRow]
      exact ⟨by simp [Text.IsWhite], Text.isWhite_blankLine hw, by simp, False.elim⟩
    have hgap := Text.Blanks.append hbefore.after hblank
    rwa [List.append_nil] at hgap

end Line

/-! ### Where the text ends -/

section Stop

variable {before rest : Text}

namespace Sheet

theorem stop?_append_of_blank (h : ∀ c ∈ rest, isBlank c = true) :
    stop? (before ++ rest) = stop? before := by
  rw [stop?, Text.trimEnd_append_of_blank h, stop?]

theorem stop?_append (before : Text) (h : rest.trimEnd ≠ []) :
    stop? (before ++ rest) = some ((Position.first.after before).last rest.trimEnd) := by
  rw [stop?, Text.trimEnd_append before h, if_neg (by simp [h]), Position.last_append _ _ h]

theorem lt_after_of_stop? {p : Position} (h : stop? before = some p) :
    p < Position.first.after before := by
  rw [stop?, Option.ite_none_left_eq_some, Option.some.injEq] at h
  obtain ⟨hne, rfl⟩ := h
  have hle := Position.le_after (Position.first.after before.trimEnd)
    (before.reverse.takeWhile isBlank).reverse
  rw [← Position.after_append, Text.trimEnd_append_blanks] at hle
  exact lt_of_lt_of_le (Position.last_lt_after _ hne) hle

/-- The end of a text moves with what stands last in it. -/
theorem stop?_pushed {blank : Text} (hblank : ∀ c ∈ blank, isBlank c = true)
    (hdown : (Position.first.after before).after blank = (Position.first.after before).down) :
    stop? (before ++ blank ++ rest) =
      (stop? (before ++ rest)).map (·.pushed (Position.first.after before)) := by
  by_cases hrest : rest.trimEnd = []
  · have hwhite := Text.trimEnd_eq_nil hrest
    rw [stop?_append_of_blank hwhite, stop?_append_of_blank hwhite, stop?_append_of_blank hblank]
    cases hstop : stop? before with
    | none => rfl
    | some p => rw [Option.map_some, Position.pushed_of_lt (lt_after_of_stop? hstop)]
  · rw [stop?_append _ hrest, stop?_append _ hrest, Option.map_some, Position.after_append, hdown,
      Position.pushed_of_le (Position.le_last _ _)]
    exact congrArg some (Position.after_down _ _)

end Sheet

end Stop

/-! ### Sheets -/

/-- Where a node stands when a line is put in at `b`. -/
def Source.pushed (s : Source) (b : Position) : Source := ⟨s.start.pushed b, s.stop.pushed b⟩

/-- Whether two entries have the same node, but for whitespace between lines, where the second one
stands where the first one does when a line is put in at `b`. -/
structure Entry.Pushed (b : Position) (e f : Entry) : Prop where
  core : f.node.item.core = e.node.item.core
  parent : f.parent = e.parent
  children : f.children = e.children
  source : f.node.source = e.node.source.map (·.pushed b)

/-- Whether two sheets have the same nodes, where those of the second one stand where those of the
first one do when a line is put in at `b`. -/
structure Sheet.Pushed (b : Position) (s t : Sheet) : Prop where
  entries : List.Forall₂ (Entry.Pushed b) s.entries t.entries
  top : t.top = s.top
  indent : t.indent = s.indent

variable {b : Position}

theorem Item.Varies.core_pushed {i j : Item} (h : i.Varies (Variant.pushed b) j) :
    j.core = i.core := by
  have hfield : Text.Respaced False i.field j.field := h.field
  rw [core_eq j, h.kind, h.label rfl, ← hfield.fold_eq, ← core_eq i]

theorem Entry.Varies.pushed {e f : Entry} (h : e.Varies (Variant.pushed b) f) : e.Pushed b f where
  core := h.node.item.core_pushed
  parent := h.parent
  children := h.children
  source := by
    rcases rel_cases h.node.source with ⟨he, hf⟩ | ⟨x, y, he, hf, hxy⟩
    · rw [he, hf, Option.map_none]
    · rw [he, hf, Option.map_some]
      exact congrArg some (congr (congrArg Source.mk hxy.start) hxy.stop)

theorem Sheet.Varies.pushed {s t : Sheet} (h : s.Varies (Variant.pushed b) t) : s.Pushed b t where
  entries := h.entries.imp fun _ _ hef => hef.pushed
  top := h.top
  indent := by
    rw [h.indent, funext (Variant.indent_pushed b)]
    exact Option.map_id'

namespace Sheet

/-- A text with a blank line put in where one of its lines begins is read as the same nodes, those
behind the blank line one line further down, or fails for the same cause, one line further down if
behind it. -/
theorem parse_blankLine (name : String) {before rest w : Text} (hstart : Text.RowStart before rest)
    (hw : ∀ c ∈ w, c = ' ' ∨ c = '\t') :
    Alike (fun e f : ParseError => f.cause = e.cause ∧
        f.position = e.position.pushed (Position.first.after before))
      (fun s t => s.Pushed (Position.first.after before) t ∧ ∃ stop,
        s.origin = some ⟨name, .first, stop⟩ ∧
        t.origin = some ⟨name, .first, stop.map (·.pushed (Position.first.after before))⟩)
      (parse name (before ++ rest)) (parse name (before ++ w ++ '\n' :: rest)) := by
  have hcomplete := Line.complete_of_rowStart hstart
  have hcolumn := hcomplete.column_after
  have hspacing : ∀ c ∈ w, isSpacing c = true := fun c hc => isSpacing_of_blank (hw c hc)
  have hwhite := Text.isWhite_blankLine hspacing
  obtain ⟨rs, hflatten, hrows⟩ := hcomplete.exists_rows
  have happend : ∀ t : Text, t ++ w ++ '\n' :: rest = t ++ (w ++ ['\n']) ++ rest := by simp
  have hblank : scan (w ++ ['\n']) = Line.blankRow w := Line.scan_blankLine hw
  have hends : Line.EndsRow 0 (scan (w ++ ['\n'])) := hblank ▸ Line.endsRow_blankRow w
  have hscan : scan (before ++ w ++ '\n' :: rest) =
      scan before ++ (Line.blankRow w ++ scan rest) := by
    rw [happend, List.append_assoc, hcomplete.scan_append, hends.scan_append, hblank]
  have hvary : Line.VariesRows (Variant.pushed (Position.first.after before)) .first .first [] []
      (Line.rowsFrom 0 (scan (before ++ rest)))
      (Line.rowsFrom 0 (scan (before ++ w ++ '\n' :: rest))) := by
    rw [hcomplete.scan_append, hscan, hrows, hrows, Line.rowsFrom_blankRow]
    refine Line.variesRows_blankRow ?_ ?_ hspacing ?_ hcolumn
    · rw [hflatten]
      exact fun t ht => Token.spells_of_mem_scan ht
    · rw [Line.flatten_rowsFrom]
      exact fun t ht => Token.spells_of_mem_scan ht
    · rw [hflatten, Token.join_scan]
  refine (alike_parse name hvary).imp ?_ ?_
  · rintro e f ⟨hcause, hstands⟩
    exact ⟨hcause.trans (Cause.scale_one _), hstands⟩
  · intro s t h
    refine ⟨h.pushed, _, h.origin, ?_⟩
    rw [h.origin', happend, stop?_pushed (fun c hc => isBlank_of_isWhite (hwhite c hc))
      (Position.after_blankLine hcolumn (Text.lineFeed_not_mem_of_spacing hspacing))]

/-- A blank line between two selectors is in neither, and the rule ends one line further down. -/
theorem parse_blankLine_in_selector :
    let before := Text.ofString "a,\n"
    let rest := Text.ofString "b\n  c:\n    d\n"
    let w := [' ', '\t']
    ∃ s t, parse "in" (before ++ rest) = .ok s ∧ parse "in" (before ++ w ++ '\n' :: rest) = .ok t ∧
      s.Pushed ⟨2, 1⟩ t ∧ t.entries.map (fun e => (e.node.item.core, e.node.source)) =
        [(⟨.rule, [], [['a', ','], ['b']]⟩, some ⟨⟨1, 1⟩, ⟨3, 1⟩⟩),
         (⟨.declaration, ['c'], [['d']]⟩, some ⟨⟨4, 3⟩, ⟨5, 5⟩⟩)] := by
  intro before rest w
  have hnodes : (parse "in" (before ++ w ++ '\n' :: rest)).toOption.map
      (fun t => t.entries.map fun e => (e.node.item.core, e.node.source)) =
        some [(⟨.rule, [], [['a', ','], ['b']]⟩, some ⟨⟨1, 1⟩, ⟨3, 1⟩⟩),
              (⟨.declaration, ['c'], [['d']]⟩, some ⟨⟨4, 3⟩, ⟨5, 5⟩⟩)] := by
    decide +kernel
  obtain ⟨t, ht, hnodes⟩ := exists_of_map_parse hnodes
  have hstart : Text.RowStart before rest :=
    .inr ⟨[⟨.word, ['a']⟩, ⟨.comma, [',']⟩, ⟨.lineBreak, ['\n']⟩], scan rest, by decide +kernel,
      rfl, [⟨.word, ['a']⟩, ⟨.comma, [',']⟩], ⟨.lineBreak, ['\n']⟩, rfl, rfl, rfl⟩
  obtain ⟨s, hs, hst, -⟩ := (parse_blankLine "in" hstart (by simp [w])).exists_ok ht
  exact ⟨s, t, hs, ht, hst, hnodes⟩

end Sheet

end OffsideCss
