import OffsideCss.Proofs.LineCut

/-! The text between lines.  It is made of line breaks and of the blanks that the scanner knows, and it
begins with a line break unless it stands before the first line.  A line itself begins with another
character. -/

namespace OffsideCss

open Token (join scan)

/-- The characters of whitespace tokens. -/
def isWhite (c : Char) : Bool := isSpacing c || c = '\n'

/-- Whether a text is whitespace. -/
def Text.IsWhite (t : Text) : Prop := ∀ c ∈ t, isWhite c = true

/-- Whether a text begins with a line break. -/
def Text.Broken (t : Text) : Prop := ∃ c rest, t = c :: rest ∧ (c = '\n' ∨ c = '\r')

/-- Whether a text begins with a character that is no whitespace. -/
def Text.Solid (t : Text) : Prop := ∃ c rest, t = c :: rest ∧ isWhite c = false

theorem isBlank_of_isWhite {c : Char} (h : isWhite c = true) : isBlank c = true := by
  simp only [isWhite, isSpacing, Bool.or_eq_true, decide_eq_true_eq] at h
  rcases h with (((rfl | rfl) | rfl) | rfl) | rfl <;> decide

theorem isWhite_eq_false {c : Char} (h : isBlank c = false) : isWhite c = false := by
  cases hw : isWhite c with
  | false => rfl
  | true =>
    rw [isBlank_of_isWhite hw] at h
    exact h

theorem isBlank_of_isQuote {c : Char} (h : isQuote c = true) : isBlank c = false := by
  simp only [isQuote, Bool.or_eq_true, decide_eq_true_eq] at h
  rcases h with rfl | rfl <;> decide

theorem isSpacing_of_blank {c : Char} (h : c = ' ' ∨ c = '\t') : isSpacing c = true := by
  rcases h with rfl | rfl <;> rfl

namespace Text

section Spacing

variable {t : Text} (h : ∀ c ∈ t, isSpacing c = true)
include h

theorem lineFeed_not_mem_of_spacing : '\n' ∉ t := fun hmem => absurd (h _ hmem) (by decide)

theorem isWhite_of_spacing : t.IsWhite := fun c hc => by simp [isWhite, h c hc]

end Spacing

theorem IsWhite.append {t u : Text} (ht : t.IsWhite) (hu : u.IsWhite) : IsWhite (t ++ u) :=
  List.forall_mem_append.2 ⟨ht, hu⟩

theorem Broken.append {t : Text} (h : t.Broken) (u : Text) : Broken (t ++ u) := by
  obtain ⟨c, rest, rfl, hc⟩ := h
  exact ⟨c, rest ++ u, rfl, hc⟩

theorem Solid.append {t : Text} (h : t.Solid) (u : Text) : Solid (t ++ u) := by
  obtain ⟨c, rest, rfl, hc⟩ := h
  exact ⟨c, rest ++ u, rfl, hc⟩

end Text

namespace Token

theorem isWhite_of_isWhitespace {t : Token} (h : t.kind.Spells t.text)
    (hw : t.isWhitespace = true) : t.text.IsWhite := by
  intro c hc
  rw [isWhitespace] at hw
  cases hk : t.kind with
  | space =>
    rw [hk] at h
    simp [isWhite, h.2 c hc]
  | lineBreak =>
    rw [hk] at h
    rcases h with ht | ht <;> rw [ht] at hc <;> simp at hc
    · simp [isWhite, hc]
    · rcases hc with rfl | rfl <;> decide
  | _ => simp [hk, TokenKind.isWhitespace] at hw

theorem broken_of_lineBreak {t : Token} (h : t.kind.Spells t.text) (hk : t.kind = .lineBreak) :
    t.text.Broken := by
  rw [hk] at h
  rcases h with ht | ht
  · exact ⟨_, _, ht, .inl rfl⟩
  · exact ⟨_, _, ht, .inr rfl⟩

theorem exists_not_isBlank {t : Token} (h : t.kind.Spells t.text) (hw : t.isWhitespace = false)
    (hword : t.kind ≠ .word) : ∃ c rest, t.text = c :: rest ∧ isBlank c = false := by
  rw [isWhitespace] at hw
  cases hk : t.kind with
  | word => exact absurd hk hword
  | string =>
    rw [hk] at h
    obtain ⟨quote, inside, hquote, ht⟩ := h
    exact ⟨quote, _, ht, isBlank_of_isQuote hquote⟩
  | atWord =>
    rw [hk] at h
    obtain ⟨name, ht, -⟩ := h
    exact ⟨_, _, ht, by decide⟩
  | lineComment | blockComment =>
    rw [hk] at h
    obtain ⟨body, ht⟩ := h
    exact ⟨_, _, ht, by decide⟩
  | space | lineBreak => simp [hk, TokenKind.isWhitespace] at hw
  | unclosed =>
    rw [hk] at h
    rcases h with ⟨quote, inside, hquote, ht⟩ | ⟨inside, ht⟩
    · exact ⟨quote, _, ht, isBlank_of_isQuote hquote⟩
    · exact ⟨_, _, ht, by decide⟩
  | _ =>
    rw [hk] at h
    exact ⟨_, _, h, by decide⟩

theorem solid_of_spells {t : Token} (h : t.kind.Spells t.text) (hw : t.isWhitespace = false) :
    t.text.Solid := by
  by_cases hk : t.kind = .word
  · rw [hk] at h
    obtain ⟨hne, hend⟩ := h
    obtain ⟨c, rest, ht⟩ := List.exists_cons_of_ne_nil hne
    refine ⟨c, rest, ht, ?_⟩
    by_contra hwhite
    have hc : endsWord c = true := by
      simp only [isWhite, Bool.not_eq_false, Bool.or_eq_true] at hwhite
      rcases hwhite with hs | hn <;> simp_all [endsWord]
    simpa using hend [] c rest ht hc
  · obtain ⟨c, rest, ht, hc⟩ := exists_not_isBlank h hw hk
    exact ⟨c, rest, ht, isWhite_eq_false hc⟩

end Token

namespace Line

/-! ### Rows -/

theorem isWhite_splitIndent {row : List Token} (h : ∀ t ∈ row, t.kind.Spells t.text) :
    (splitIndent row).1.IsWhite := by
  cases row with
  | nil => simp [splitIndent, Text.IsWhite]
  | cons t row =>
    by_cases hk : t.kind = .space
    · have ht : t.isWhitespace = true := by simp [Token.isWhitespace, hk, TokenKind.isWhitespace]
      have := Token.isWhite_of_isWhitespace (h t List.mem_cons_self) ht
      simpa [splitIndent, hk] using this
    · simp [splitIndent, hk, Text.IsWhite]

theorem isWhite_splitBreak {ts : List Token} (h : ∀ t ∈ ts, t.kind.Spells t.text) :
    (splitBreak ts).2.IsWhite := by
  rcases List.eq_nil_or_concat ts with rfl | ⟨us, t, rfl⟩
  · simp [splitBreak, Text.IsWhite]
  · by_cases hk : t.kind = .lineBreak
    · have ht : t.isWhitespace = true := by simp [Token.isWhitespace, hk, TokenKind.isWhitespace]
      have := Token.isWhite_of_isWhitespace (h t (by simp)) ht
      simpa [splitBreak, hk] using this
    · simp [splitBreak, hk, Text.IsWhite]

/-- The text between lines is whitespace. -/
theorem isWhite_linesOf {gap : Text} {rs : List (List Token)} (hgap : gap.IsWhite)
    (h : ∀ row ∈ rs, ∀ t ∈ row, t.kind.Spells t.text) :
    (∀ l ∈ (linesOf gap rs).1, l.lead.IsWhite) ∧ (linesOf gap rs).2.IsWhite := by
  induction rs generalizing gap with
  | nil => exact ⟨by simp [linesOf, ofRows], hgap⟩
  | cons row rest ih =>
    obtain ⟨hrow, hrest⟩ := List.forall_mem_cons.1 h
    have hindent := isWhite_splitIndent hrow
    have hbreak := isWhite_splitBreak fun t ht => hrow t ((splitIndent_suffix row).subset ht)
    cases hline : (splitBreak (splitIndent row).2).1 with
    | nil =>
      have htext : (join row).IsWhite := by
        rw [← splitIndent_append row, ← splitBreak_append (splitIndent row).2, hline]
        exact hindent.append hbreak
      rw [linesOf_blank hline]
      exact ih (hgap.append htext) hrest
    | cons head tail =>
      obtain ⟨hleads, hafter⟩ := ih hbreak hrest
      rw [linesOf_line hline]
      exact ⟨List.forall_mem_cons.2 ⟨hgap.append hindent, hleads⟩, hafter⟩

theorem exists_rowsFrom_eq (depth : Nat) (ts : List Token) : ∃ init last,
    rowsFrom depth ts = init ++ [last] ∧ ∀ row ∈ init, ∃ t ∈ row.getLast?, t.kind = .lineBreak := by
  induction ts generalizing depth with
  | nil => exact ⟨[], [], rfl, by simp⟩
  | cons t ts ih =>
    rw [rowsFrom]
    split
    · next ht =>
      obtain ⟨init, last, hrows, hinit⟩ := ih 0
      exact ⟨[t] :: init, last, by rw [hrows]; rfl, List.forall_mem_cons.2 ⟨⟨t, rfl, ht.1⟩, hinit⟩⟩
    · obtain ⟨init, last, hrows, hinit⟩ := ih (t.kind.nesting depth)
      rw [hrows]
      cases init with
      | nil => exact ⟨[], t :: last, rfl, by simp⟩
      | cons row init =>
        obtain ⟨⟨b, hb, hk⟩, hinit⟩ := List.forall_mem_cons.1 hinit
        refine ⟨(t :: row) :: init, last, rfl, List.forall_mem_cons.2 ⟨⟨b, ?_, hk⟩, hinit⟩⟩
        rw [Option.mem_def] at hb ⊢
        rw [List.getLast?_cons, hb]
        rfl

theorem broken_splitBreak {row : List Token} (h : ∀ t ∈ row, t.kind.Spells t.text)
    (hlast : ∃ t ∈ row.getLast?, t.kind = .lineBreak) {head : Token} {tail : List Token}
    (hline : (splitBreak (splitIndent row).2).1 = head :: tail) :
    (splitBreak (splitIndent row).2).2.Broken := by
  obtain ⟨t, ht, hk⟩ := hlast
  obtain ⟨body, rfl⟩ := List.getLast?_eq_some_iff.1 ht
  have hbroken := Token.broken_of_lineBreak (h t (by simp)) hk
  cases body with
  | nil => simp [splitIndent, hk, splitBreak] at hline
  | cons s body =>
    by_cases hs : s.kind = .space <;>
      simpa [splitIndent, hs, splitBreak, hk, List.getLast?_cons] using hbroken

section Broken

variable {gap : Text} {init : List (List Token)} {last : List Token}
  (hspells : ∀ row ∈ init, ∀ t ∈ row, t.kind.Spells t.text)
  (hlast : ∀ row ∈ init, ∃ t ∈ row.getLast?, t.kind = .lineBreak)
include hspells hlast

theorem broken_of_mem_linesOf (hgap : gap.Broken) :
    ∀ l ∈ (linesOf gap (init ++ [last])).1, l.gap.Broken := by
  induction init generalizing gap with
  | nil =>
    rw [List.nil_append]
    cases hline : (splitBreak (splitIndent last).2).1 with
    | nil =>
      rw [linesOf_blank hline]
      simp [linesOf, ofRows]
    | cons head tail =>
      rw [linesOf_line hline]
      simpa [linesOf, ofRows] using hgap
  | cons row init ih =>
    obtain ⟨hrow, hrest⟩ := List.forall_mem_cons.1 hspells
    obtain ⟨hbreak, hbreaks⟩ := List.forall_mem_cons.1 hlast
    rw [List.cons_append]
    cases hline : (splitBreak (splitIndent row).2).1 with
    | nil =>
      rw [linesOf_blank hline]
      exact ih hrest hbreaks (hgap.append _)
    | cons head tail =>
      rw [linesOf_line hline]
      exact List.forall_mem_cons.2 ⟨hgap, ih hrest hbreaks (broken_splitBreak hrow hbreak hline)⟩

theorem broken_of_mem_tail : ∀ l ∈ (linesOf gap (init ++ [last])).1.tail, l.gap.Broken := by
  induction init generalizing gap with
  | nil =>
    rw [List.nil_append]
    cases hline : (splitBreak (splitIndent last).2).1 with
    | nil =>
      rw [linesOf_blank hline]
      simp [linesOf, ofRows]
    | cons head tail =>
      rw [linesOf_line hline]
      simp [linesOf, ofRows]
  | cons row init ih =>
    obtain ⟨hrow, hrest⟩ := List.forall_mem_cons.1 hspells
    obtain ⟨hbreak, hbreaks⟩ := List.forall_mem_cons.1 hlast
    rw [List.cons_append]
    cases hline : (splitBreak (splitIndent row).2).1 with
    | nil =>
      rw [linesOf_blank hline]
      exact ih hrest hbreaks
    | cons head tail =>
      rw [linesOf_line hline]
      exact broken_of_mem_linesOf hrest hbreaks (broken_splitBreak hrow hbreak hline)

end Broken

/-! ### Texts -/

variable {t : Text} {ls : List Line} {after : Text}

theorem spells_of_mem_row : ∀ row ∈ rowsFrom 0 (scan t), ∀ tok ∈ row, tok.kind.Spells tok.text := by
  intro row hrow tok htok
  refine Token.spells_of_mem_scan (t := t) ?_
  rw [← flatten_rowsFrom 0 (scan t)]
  exact List.mem_flatten_of_mem hrow htok

theorem Lays.isWhite (h : Lays t ls after) : (∀ l ∈ ls, l.lead.IsWhite) ∧ after.IsWhite := by
  have hnil : Text.IsWhite [] := by simp [Text.IsWhite]
  have hwhite := isWhite_linesOf hnil (spells_of_mem_row (t := t))
  rwa [(lays_iff.1 h).2.2] at hwhite

/-- The lines behind the first one stand behind line breaks. -/
theorem Lays.broken {l : Line} (h : Lays t (l :: ls) after) : ∀ k ∈ ls, k.gap.Broken := by
  obtain ⟨init, last, hrows, hlast⟩ := exists_rowsFrom_eq 0 (scan t)
  have hspells := spells_of_mem_row (t := t)
  have hlines := (lays_iff.1 h).2.2
  rw [hrows] at hlines hspells
  have hbroken : ∀ k ∈ (linesOf [] (init ++ [last])).1.tail, k.gap.Broken :=
    broken_of_mem_tail (fun row hrow => hspells row (List.mem_append_left _ hrow)) hlast
  rwa [hlines] at hbroken

end Line

end OffsideCss
