import OffsideCss.Proofs.FaultPlace
import OffsideCss.Proofs.Respacing

/-! Relative indentation.  Only how the widths of indentations compare with each other matters to
what a text is read as: all of them may be some times as wide, and made of another character. -/

namespace OffsideCss

open Token (depthAfter join scan)

namespace Text

/-- The rows of a text: each ends with a line break outside parentheses, but for the last one. -/
def rows (t : Text) : List (List Token) := (Line.rows .first [] (scan t)).1

/-- A text with `k` times as many characters `d` for the blanks that each row begins with. -/
def widen (k : Nat) (d : Char) (t : Text) : Text :=
  t.rows.flatMap fun row =>
    List.replicate (k * (Line.splitIndent row).1.length) d ++ join (Line.splitIndent row).2

theorem rows_eq_rowsFrom (t : Text) : t.rows = Line.rowsFrom 0 (scan t) :=
  Line.rows_eq .first [] (scan t)

end Text

/-- No blanks follow a run of them. -/
theorem Token.atSpacing_behind_space {text : Text} {t : Token} {ts : List Token}
    (h : scan text = t :: ts) (hk : t.kind = .space) : (join ts).atSpacing = false := by
  cases text with
  | nil => simp [scan] at h
  | cons c rest =>
    rw [scan, scanFrom_cons, List.cons.injEq] at h
    obtain ⟨rfl, rfl⟩ := h
    rw [join_scanFrom]
    exact ((next_stop 0 c rest).1 hk).2

namespace Line

variable {k : Nat} {d : Char} {row : List Token} {rs : List (List Token)}

/-- A row with `k` times as many characters `d` for the blanks that it begins with. -/
def widenRow (k : Nat) (d : Char) (row : List Token) : List Token :=
  match row with
  | [] => []
  | t :: ts =>
    if t.kind = .space then ⟨.space, List.replicate (k * t.text.length) d⟩ :: ts else t :: ts

theorem kinds_widenRow (k : Nat) (d : Char) (row : List Token) :
    (widenRow k d row).map Token.kind = row.map Token.kind := by
  cases row with
  | nil => rfl
  | cons t ts => by_cases hk : t.kind = .space <;> simp [widenRow, hk]

theorem splitIndent_widenRow (k : Nat) (d : Char) (row : List Token) :
    splitIndent (widenRow k d row) =
      (List.replicate (k * (splitIndent row).1.length) d, (splitIndent row).2) := by
  cases row with
  | nil => simp [widenRow, splitIndent]
  | cons t ts => by_cases hk : t.kind = .space <;> simp [widenRow, splitIndent, hk]

theorem join_widenRow (k : Nat) (d : Char) (row : List Token) : join (widenRow k d row) =
    List.replicate (k * (splitIndent row).1.length) d ++ join (splitIndent row).2 := by
  rw [← splitIndent_append, splitIndent_widenRow]

/-- A row that is scanned by itself is also when it is indented in another way. -/
theorem scan_widenRow (hk : 0 < k) (hd : d = ' ' ∨ d = '\t') (h : scan (join row) = row) :
    scan (join (widenRow k d row)) = widenRow k d row := by
  cases row with
  | nil => exact h
  | cons t ts =>
    by_cases ht : t.kind = .space
    · have hrest : scan (join ts) = ts := by
        have := Token.scanFrom_suffix (show scan (join (t :: ts)) = [t] ++ ts from h)
        rwa [Token.depthAfter_cons, ht] at this
      have hmem : t ∈ scan (join (t :: ts)) := by
        rw [h]
        exact List.mem_cons_self
      have hne : t.text ≠ [] := Token.text_ne_nil_of_mem_scan hmem
      have hpos : 0 < k * t.text.length := Nat.mul_pos hk (List.length_pos_iff.2 hne)
      have hwide : List.replicate (k * t.text.length) d ≠ [] := by
        rw [Ne, List.replicate_eq_nil_iff]
        exact Nat.ne_of_gt hpos
      rw [widenRow, if_pos ht, Token.join_cons, scan,
        Token.scanFrom_spaces hwide (fun c hc => List.eq_of_mem_replicate hc ▸ hd)
          (Token.atSpacing_behind_space h ht)]
      exact congrArg _ hrest
    · rw [widenRow, if_neg ht]
      exact h

theorem EndsRow.of_kinds {depth : Nat} {ts us : List Token}
    (h : us.map Token.kind = ts.map Token.kind) (hts : EndsRow depth ts) : EndsRow depth us := by
  obtain ⟨body, lineBreak, rfl, hk, hdepth⟩ := hts
  rw [List.map_append, List.map_singleton, hk] at h
  obtain ⟨body', last, rfl, hbody, hlast⟩ := List.map_eq_append_iff.1 h
  obtain ⟨lineBreak', rfl, hk'⟩ := List.map_eq_singleton_iff.1 hlast
  refine ⟨body', lineBreak', rfl, hk', ?_⟩
  rw [depthAfter, ← List.foldl_map (f := Token.kind) (g := fun depth k => k.nesting depth)]
    at hdepth ⊢
  rwa [hbody]

/-- Rows that are scanned together are also when they are indented in another way. -/
theorem scan_widenRows (hk : 0 < k) (hd : d = ' ' ∨ d = '\t') (hrs : rowsFrom 0 rs.flatten = rs)
    (h : scan (join rs.flatten) = rs.flatten) :
    scan (join (rs.flatMap (widenRow k d))) = rs.flatMap (widenRow k d) := by
  induction rs with
  | nil => exact h
  | cons row rest ih =>
    rw [List.flatten_cons, Token.join_append] at h
    have hrow : scan (join row) = row := Token.scanFrom_cut h rfl
    have hwide := scan_widenRow hk hd hrow
    rw [List.flatMap_cons, Token.join_append]
    by_cases hne : rest = []
    · rw [hne, List.flatMap_nil, Token.join_nil, List.append_nil, List.append_nil, hwide]
    · obtain ⟨hends, hrest⟩ := rowsFrom_cons hrs hne
      -- The row ends outside parentheses in both texts, so the rows below are scanned apart from it.
      have hends' : EndsRow 0 (scan (join (widenRow k d row))) := by
        rw [hwide]
        exact hends.of_kinds (kinds_widenRow k d row)
      have hscan := Token.scanFrom_suffix h
      rw [hends.depthAfter_eq] at hscan
      rw [hends'.scan_append, hwide, ih hrest hscan]

end Line

namespace Text

variable {k : Nat} {d : Char}

theorem widen_eq (k : Nat) (d : Char) (t : Text) :
    t.widen k d = join (t.rows.flatMap (Line.widenRow k d)) := by
  rw [widen, join, List.flatMap_assoc]
  congr 1
  funext row
  exact (Line.join_widenRow k d row).symm

theorem rows_widen (hk : 0 < k) (hd : d = ' ' ∨ d = '\t') (t : Text) :
    (t.widen k d).rows = t.rows.map (Line.widenRow k d) := by
  have hflatten : t.rows.flatten = scan t := by rw [rows_eq_rowsFrom, Line.flatten_rowsFrom]
  have hscan : scan (t.widen k d) = t.rows.flatMap (Line.widenRow k d) := by
    rw [widen_eq]
    refine Line.scan_widenRows hk hd ?_ ?_
    · rw [hflatten, rows_eq_rowsFrom]
    · rw [hflatten, Token.join_scan]
  have hkinds : (scan (t.widen k d)).map Token.kind = (scan t).map Token.kind := by
    rw [hscan, List.map_flatMap, ← hflatten, List.map_flatten, List.flatMap_def]
    simp only [Line.kinds_widenRow]
  rw [rows_eq_rowsFrom (t.widen k d)]
  refine Line.rowsFrom_of_kinds ?_ hkinds ?_
  · rw [hscan, List.flatMap_def]
  · have hlength : ∀ row, (Line.widenRow k d row).length = row.length := fun row => by
      rw [← List.length_map Token.kind, Line.kinds_widenRow, List.length_map]
    rw [← rows_eq_rowsFrom, List.map_map]
    exact List.map_congr_left fun row _ => hlength row

end Text

/-! ### The variant -/

/-- The variant of a text that is indented with `c`, with `k` times as many characters `d`. -/
def Variant.widened {k : Nat} (hk : 0 < k) {c d : Char} (hc : c = ' ' ∨ c = '\t')
    (hd : d = ' ' ∨ d = '\t') : Variant :=
  respaced True k hk (fun _ => d) (· = c)
    (fun _ he => ⟨he ▸ isSpacing_of_blank hc, isSpacing_of_blank hd⟩)
    (fun he he' _ => he.trans he'.symm) fun p q => q.line = p.line

section Widened

variable {k : Nat} {c d : Char} (hk : 0 < k) (hc : c = ' ' ∨ c = '\t') (hd : d = ' ' ∨ d = '\t')

theorem Variant.indent_widened (t : Text) :
    (widened hk hc hd).indent t = List.replicate (k * t.length) d :=
  List.eq_replicate_iff.2 ⟨length_indent _ t, fun e he => by
    obtain ⟨_, _, he⟩ := List.mem_flatMap.1 he
    exact List.eq_of_mem_replicate he⟩

theorem Variant.tracks_widened : (widened hk hc hd).Tracks fun p q _ => q.line = p.line where
  step := by
    intro p q t rest h
    rw [Position.line_after, Position.line_after, h]
  indent := by
    intro p q t rest ht h
    have hline : ∀ {t : Text}, (∀ e ∈ t, isSpacing e = true) → ∀ p : Position,
        (p.after t).line = p.line := fun ht p => by
      rw [Position.line_after, List.count_eq_zero.2 (Text.lineFeed_not_mem_of_spacing ht),
        Nat.add_zero]
    rw [hline fun e he => ht e he ▸ isSpacing_of_blank hc, indent_widened, hline, h]
    exact fun e he => List.eq_of_mem_replicate he ▸ isSpacing_of_blank hd
  stands := fun h _ => h

theorem Line.variesRow_widened {row : List Token} (h : ∀ t ∈ row, t.kind.Spells t.text)
    (hindent : ∀ e ∈ (splitIndent row).1, e = c) :
    VariesRow (Variant.widened hk hc hd) row (widenRow k d row) where
  spells := h
  indents := hindent
  indent := by rw [splitIndent_widenRow, Variant.indent_widened]
  tokens := by
    rw [splitIndent_widenRow]
    exact (Token.map_withBreaks_self _).symm

end Widened

/-! ### Sheets -/

/-- Whether two entries have the same node, but for the blanks around line breaks. -/
structure Entry.Realigned (e f : Entry) : Prop where
  kind : f.node.item.kind = e.node.item.kind
  label : f.node.item.core.label = e.node.item.core.label
  lines : f.node.item.field.trimLines = e.node.item.field.trimLines
  parent : f.parent = e.parent
  children : f.children = e.children

/-- Whether two sheets have the same nodes, but for the blanks around line breaks, and the second
one has `k` times as many characters `d` for the indentation of the first one. -/
structure Sheet.Widened (k : Nat) (d : Char) (s t : Sheet) : Prop where
  entries : List.Forall₂ Entry.Realigned s.entries t.entries
  top : t.top = s.top
  indent : t.indent = s.indent.map fun indent => List.replicate (k * indent.length) d

variable {k : Nat} {c d : Char}

theorem Entry.Varies.realigned {hk : 0 < k} {hc : c = ' ' ∨ c = '\t'} {hd : d = ' ' ∨ d = '\t'}
    {e f : Entry} (h : e.Varies (Variant.widened hk hc hd) f) : e.Realigned f where
  kind := h.node.item.kind
  label := h.node.item.label rfl
  lines :=
    have hfield : Text.Respaced True e.node.item.field f.node.item.field := h.node.item.field
    (hfield.trimLines_eq trivial).symm
  parent := h.parent
  children := h.children

namespace Sheet

theorem Varies.widened {hk : 0 < k} {hc : c = ' ' ∨ c = '\t'} {hd : d = ' ' ∨ d = '\t'}
    {s t : Sheet} (h : s.Varies (Variant.widened hk hc hd) t) : s.Widened k d t where
  entries := h.entries.imp fun _ _ hef => hef.realigned
  top := h.top
  indent := by rw [h.indent, funext (Variant.indent_widened hk hc hd)]

/-- A text that is indented with one character is read with `k` times as many other ones for each
run of them as the same nodes, or fails on the same line for the same cause, with widths that are
`k` times as large. -/
theorem parse_widen (name : String) {source : Text} (hk : 0 < k) (hc : c = ' ' ∨ c = '\t')
    (hd : d = ' ' ∨ d = '\t')
    (hindent : ∀ row ∈ source.rows, ∀ e ∈ (Line.splitIndent row).1, e = c) :
    Alike (fun e f : ParseError => f.cause = e.cause.scale k ∧ f.position.line = e.position.line)
      (Sheet.Widened k d) (parse name source) (parse name (source.widen k d)) := by
  have hrows : List.Forall₂ (Line.VariesRow (Variant.widened hk hc hd)) source.rows
      (source.widen k d).rows := by
    rw [Text.rows_widen hk hd, List.forall₂_map_right_iff, List.forall₂_same]
    intro row hrow
    rw [Text.rows_eq_rowsFrom] at hrow
    exact Line.variesRow_widened hk hc hd (Line.spells_of_mem_row row hrow)
      (hindent row (Text.rows_eq_rowsFrom source ▸ hrow))
  rw [Text.rows_eq_rowsFrom, Text.rows_eq_rowsFrom] at hrows
  refine (alike_parse_of_rows (Variant.tracks_widened hk hc hd) name rfl hrows).imp ?_ ?_
  · rintro e f ⟨hcause, hstands⟩
    exact ⟨hcause, hstands⟩
  · intro s t h
    exact h.widened

/-- The line in parentheses begins no row, so it stays as it is. -/
theorem parse_widen_parentheses :
    let source := Text.ofString "@m (\n x)\n a\n  b:\n   c\n"
    source.widen 2 '\t' = Text.ofString "@m (\n x)\n\t\ta\n\t\t\t\tb:\n\t\t\t\t\t\tc\n" ∧
      ∃ s t, parse "in" source = .ok s ∧ parse "in" (source.widen 2 '\t') = .ok t ∧
        s.Widened 2 '\t' t ∧ t.indent = some ['\t', '\t'] ∧
        t.entries.map (·.node.item.core) =
          [⟨.atRule, ['m'], [['('], ['x', ')']]⟩, ⟨.rule, [], [['a']]⟩,
           ⟨.declaration, ['b'], [['c']]⟩] := by
  intro source
  have ht : (parse "in" (source.widen 2 '\t')).toOption.map
      (fun t => (t.indent, t.entries.map (·.node.item.core))) =
        some (some ['\t', '\t'], [⟨.atRule, ['m'], [['('], ['x', ')']]⟩, ⟨.rule, [], [['a']]⟩,
          ⟨.declaration, ['b'], [['c']]⟩]) := by
    decide +kernel
  obtain ⟨t, ht, hsheet⟩ := exists_of_map_parse ht
  obtain ⟨hindent, hnodes⟩ := Prod.mk.inj hsheet
  have hblanks : source.rows.all (fun row => (Line.splitIndent row).1.all (· = ' ')) = true := by
    decide +kernel
  have hindents : ∀ row ∈ source.rows, ∀ e ∈ (Line.splitIndent row).1, e = ' ' := by
    intro row hrow e he
    exact of_decide_eq_true (List.all_eq_true.1 (List.all_eq_true.1 hblanks row hrow) e he)
  obtain ⟨s, hs, hst⟩ :=
    (parse_widen "in" Nat.two_pos (.inl rfl) (.inr rfl) hindents).exists_ok ht
  exact ⟨by decide +kernel, s, t, hs, ht, hst, hindent, hnodes⟩

end Sheet

end OffsideCss
