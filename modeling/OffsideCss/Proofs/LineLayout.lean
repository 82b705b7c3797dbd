import OffsideCss.Line
import OffsideCss.Proofs.ScanAppend

/-! Rows and lines.  To cut tokens into rows it is enough to know how many parentheses are open, so
the rows of a text that ends behind a line break outside parentheses are the same whatever follows
it.  The lines of a text and the text behind the last one make up the text again. -/

namespace OffsideCss.Line

open Token (depthAfter join)

/-! ### Rows -/

/-- The rows of tokens behind `depth` open parentheses. -/
def rowsFrom (depth : Nat) : List Token → List (List Token)
  | [] => [[]]
  | t :: ts =>
    if t.kind = .lineBreak ∧ depth = 0 then [t] :: rowsFrom 0 ts
    else (rowsFrom (t.kind.nesting depth) ts).modifyHead (t :: ·)

theorem length_bracketsAfter (opened : List Place) (place : Place) (t : Token) :
    (bracketsAfter opened place t).length = t.kind.nesting opened.length := by
  unfold bracketsAfter TokenKind.nesting
  cases t.kind <;> simp

theorem rows_eq (place : Place) (opened : List Place) (ts : List Token) :
    (rows place opened ts).1 = rowsFrom opened.length ts := by
  induction ts generalizing place opened with
  | nil => rfl
  | cons t ts ih =>
    by_cases ht : t.kind = .lineBreak
    · have hb : bracketsAfter opened place t = opened := by simp [bracketsAfter, ht]
      cases opened with
      | nil => simp [rows, rowsFrom, ht, hb, ih]
      | cons o opened => simp [rows, rowsFrom, ht, hb, ih, TokenKind.nesting]
    · simp [rows, rowsFrom, ht, ih, length_bracketsAfter]

theorem length_rows_opened (place : Place) (opened : List Place) (ts : List Token) :
    (rows place opened ts).2.length = depthAfter opened.length ts := by
  induction ts generalizing place opened with
  | nil => rfl
  | cons t ts ih =>
    rw [Token.depthAfter_cons, ← length_bracketsAfter opened place t, ← ih]
    simp only [rows]
    split <;> rfl

theorem rowsFrom_ne_nil (depth : Nat) (ts : List Token) : rowsFrom depth ts ≠ [] := by
  induction ts generalizing depth with
  | nil => simp [rowsFrom]
  | cons t ts ih =>
    simp only [rowsFrom]
    split
    · simp
    · simpa using ih _

theorem rowsFrom_eq_cons {depth : Nat} {t : Token} {ts row : List Token} {rest : List (List Token)}
    (h : rowsFrom depth (t :: ts) = row :: rest) :
    (t.kind = .lineBreak ∧ depth = 0 ∧ row = [t] ∧ rest = rowsFrom 0 ts) ∨
      ¬(t.kind = .lineBreak ∧ depth = 0) ∧
        ∃ inside, row = t :: inside ∧ rowsFrom (t.kind.nesting depth) ts = inside :: rest := by
  rw [rowsFrom] at h
  split at h
  · next ht =>
    obtain ⟨rfl, rfl⟩ := List.cons.inj h
    exact .inl ⟨ht.1, ht.2, rfl, rfl⟩
  · next ht =>
    cases hs : rowsFrom (t.kind.nesting depth) ts with
    | nil => exact absurd hs (rowsFrom_ne_nil _ _)
    | cons r rs =>
      rw [hs, List.modifyHead_cons] at h
      obtain ⟨rfl, rfl⟩ := List.cons.inj h
      exact .inr ⟨ht, r, rfl, rfl⟩

theorem flatten_modifyHead (t : Token) {rs : List (List Token)} (h : rs ≠ []) :
    (rs.modifyHead (t :: ·)).flatten = t :: rs.flatten := by
  cases rs with
  | nil => exact absurd rfl h
  | cons r rs => rfl

/-- Cutting tokens into rows neither drops a token nor moves one. -/
theorem flatten_rowsFrom (depth : Nat) (ts : List Token) : (rowsFrom depth ts).flatten = ts := by
  induction ts generalizing depth with
  | nil => rfl
  | cons t ts ih =>
    simp only [rowsFrom]
    split
    · simp [ih]
    · rw [flatten_modifyHead t (rowsFrom_ne_nil _ _), ih]

/-- Whether tokens behind `depth` open parentheses end with a line break outside parentheses. -/
def EndsRow (depth : Nat) (ts : List Token) : Prop :=
  ∃ body lineBreak, ts = body ++ [lineBreak] ∧ lineBreak.kind = .lineBreak ∧
    depthAfter depth body = 0

theorem EndsRow.depthAfter_eq {depth : Nat} {ts : List Token} (h : EndsRow depth ts) :
    depthAfter depth ts = 0 := by
  obtain ⟨body, lineBreak, rfl, hk, hd⟩ := h
  simp [hd, hk, TokenKind.nesting]

theorem EndsRow.append {depth : Nat} {ts us : List Token} (hd : depthAfter depth ts = 0)
    (h : EndsRow 0 us) : EndsRow depth (ts ++ us) := by
  obtain ⟨body, lineBreak, rfl, hk, hb⟩ := h
  exact ⟨ts ++ body, lineBreak, (List.append_assoc ..).symm, hk, by simp [hd, hb]⟩

/-- Rows end where the tokens end with a line break, whatever follows. -/
theorem EndsRow.rowsFrom_append {depth : Nat} {ts : List Token} (h : EndsRow depth ts) :
    ∃ rs, rs ≠ [] ∧ ∀ us, rowsFrom depth (ts ++ us) = rs ++ rowsFrom 0 us := by
  obtain ⟨body, lineBreak, rfl, hk, hd⟩ := h
  induction body generalizing depth with
  | nil =>
    obtain rfl : depth = 0 := hd
    exact ⟨[[lineBreak]], by simp, fun us => by simp [rowsFrom, hk]⟩
  | cons t body ih =>
    rw [Token.depthAfter_cons] at hd
    obtain ⟨rs, hne, hrs⟩ := ih hd
    by_cases ht : t.kind = .lineBreak ∧ depth = 0
    · obtain ⟨ht, rfl⟩ := ht
      rw [ht] at hrs
      refine ⟨[t] :: rs, by simp, fun us => ?_⟩
      rw [List.cons_append, List.cons_append, rowsFrom, if_pos ⟨ht, rfl⟩]
      exact congrArg _ (hrs us)
    · refine ⟨rs.modifyHead (t :: ·), by simpa using hne, fun us => ?_⟩
      cases rs with
      | nil => exact absurd rfl hne
      | cons r rs =>
        rw [List.cons_append, List.cons_append, rowsFrom, if_neg ht]
        exact congrArg _ (hrs us)

theorem rowsFrom_cons {depth : Nat} {ts row : List Token} {rest : List (List Token)}
    (h : rowsFrom depth ts = row :: rest) (hr : rest ≠ []) :
    EndsRow depth row ∧ rowsFrom 0 rest.flatten = rest := by
  induction ts generalizing depth row with
  | nil => simp_all [rowsFrom]
  | cons t ts ih =>
    rcases rowsFrom_eq_cons h with ⟨hk, rfl, rfl, rfl⟩ | ⟨-, inside, rfl, hs⟩
    · exact ⟨⟨[], t, rfl, hk, rfl⟩, by rw [flatten_rowsFrom]⟩
    · obtain ⟨⟨body, lineBreak, rfl, hk, hd⟩, hrest⟩ := ih hs
      exact ⟨⟨t :: body, lineBreak, rfl, hk, hd⟩, hrest⟩

/-- Tokens are cut into rows apart from each other where a row ends. -/
theorem rowsFrom_split {ts : List Token} {rs rest : List (List Token)}
    (h : rowsFrom 0 ts = rs ++ rest) (hr : rest ≠ []) :
    (rs = [] ∨ EndsRow 0 rs.flatten) ∧ rowsFrom 0 rest.flatten = rest := by
  induction rs generalizing ts with
  | nil =>
    rw [List.nil_append] at h
    exact ⟨.inl rfl, by rw [← h, flatten_rowsFrom]⟩
  | cons r rs ih =>
    obtain ⟨hrow, hrows⟩ := rowsFrom_cons h (by simp [hr])
    obtain ⟨hrs | hrs, hrest⟩ := ih hrows
    · exact ⟨.inr (by simpa [hrs] using hrow), hrest⟩
    · exact ⟨.inr (EndsRow.append hrow.depthAfter_eq hrs), hrest⟩

/-! ### Lines -/

/-- The text of a line, together with the blank text before it. -/
def text (l : Line) : Text := l.lead ++ join l.tokens

theorem splitIndent_append (ts : List Token) :
    (splitIndent ts).1 ++ join (splitIndent ts).2 = join ts := by
  cases ts with
  | nil => rfl
  | cons t ts =>
    simp only [splitIndent]
    split <;> rfl

theorem splitBreak_append (ts : List Token) : join (splitBreak ts).1 ++ (splitBreak ts).2 = join ts := by
  unfold splitBreak
  split
  · next t ht =>
    obtain ⟨ys, rfl⟩ := List.getLast?_eq_some_iff.1 ht
    split <;> simp
  · next ht => simp_all

section Rows

variable {place : Place} {gap : Text} {row : List Token} {rest : List (List Token)}

theorem ofRows_blank (h : (splitBreak (splitIndent row).2).1 = []) :
    ofRows place gap (row :: rest) = ofRows (place.after (join row)) (gap ++ join row) rest := by
  simp only [ofRows]
  split
  · rfl
  · simp_all

theorem ofRows_line {head : Token} {tail : List Token}
    (h : (splitBreak (splitIndent row).2).1 = head :: tail) :
    ofRows place gap (row :: rest) =
      ({ gap, indent := (splitIndent row).1, place, head, tail } ::
        (ofRows (place.after (join row)) (splitBreak (splitIndent row).2).2 rest).1,
        (ofRows (place.after (join row)) (splitBreak (splitIndent row).2).2 rest).2) := by
  simp only [ofRows]
  split
  · simp_all
  · next hs =>
    rw [hs] at h ⊢
    obtain ⟨rfl, rfl⟩ := List.cons.inj h
    rfl

theorem text_row {head : Token} {tail : List Token}
    (h : (splitBreak (splitIndent row).2).1 = head :: tail) :
    gap ++ join row =
      text ⟨gap, (splitIndent row).1, place, head, tail⟩ ++ (splitBreak (splitIndent row).2).2 := by
  rw [← splitIndent_append row, ← splitBreak_append (splitIndent row).2, h]
  simp [text, lead, tokens]

end Rows

/-- The lines of some rows stand before those of the rows behind them. -/
theorem ofRows_append (place : Place) (gap : Text) (rs rs' : List (List Token)) :
    ofRows place gap (rs ++ rs') =
      ((ofRows place gap rs).1 ++
          (ofRows (place.after (join rs.flatten)) (ofRows place gap rs).2 rs').1,
        (ofRows (place.after (join rs.flatten)) (ofRows place gap rs).2 rs').2) := by
  induction rs generalizing place gap with
  | nil => rfl
  | cons row rest ih =>
    rw [List.cons_append, List.flatten_cons, Token.join_append, Place.after_append]
    cases h : (splitBreak (splitIndent row).2).1 with
    | nil => rw [ofRows_blank h, ofRows_blank h, ih]
    | cons head tail => rw [ofRows_line h, ofRows_line h, ih, List.cons_append]

/-- The lines, and the text behind the last one, hold all the text there is. -/
theorem text_ofRows (place : Place) (gap : Text) (rs : List (List Token)) :
    (ofRows place gap rs).1.flatMap text ++ (ofRows place gap rs).2 = gap ++ join rs.flatten := by
  induction rs generalizing place gap with
  | nil => simp [ofRows]
  | cons row rest ih =>
    cases h : (splitBreak (splitIndent row).2).1 with
    | nil => simp [ofRows_blank h, ih]
    | cons head tail =>
      rw [ofRows_line h, List.flatMap_cons, List.append_assoc, ih, ← List.append_assoc, ← text_row h,
        List.flatten_cons, Token.join_append, List.append_assoc]

/-- Whether lines behind a text that ends at `p` know where they start. -/
def PlacedFrom (p : Place) : List Line → Prop
  | [] => True
  | l :: ls => l.place = p.after l.gap ∧ PlacedFrom (p.after l.text) ls

theorem placedFrom_ofRows (p : Place) (gap : Text) (rs : List (List Token)) :
    PlacedFrom p (ofRows (p.after gap) gap rs).1 := by
  induction rs generalizing p gap with
  | nil => trivial
  | cons row rest ih =>
    cases h : (splitBreak (splitIndent row).2).1 with
    | nil =>
      rw [ofRows_blank h, ← Place.after_append]
      exact ih p (gap ++ join row)
    | cons head tail =>
      have htext : gap ++ join row = text ⟨gap, _, p.after gap, head, tail⟩ ++ _ := text_row h
      rw [ofRows_line h, ← Place.after_append, htext, Place.after_append]
      exact ⟨rfl, ih _ _⟩

theorem PlacedFrom.place_eq {p : Place} {pre post : List Line} {l : Line}
    (h : PlacedFrom p (pre ++ l :: post)) : l.place = p.after (pre.flatMap text ++ l.gap) := by
  induction pre generalizing p with
  | nil => simpa using h.1
  | cons k pre ih => simpa using ih h.2

/-! ### The tokens of a line -/

theorem splitIndent_suffix (ts : List Token) : (splitIndent ts).2 <:+ ts := by
  cases ts with
  | nil => exact List.suffix_refl _
  | cons t ts =>
    simp only [splitIndent]
    split
    · exact List.suffix_cons t ts
    · exact List.suffix_refl _

theorem prefix_splitBreak (ts : List Token) : (splitBreak ts).1 <+: ts := by
  unfold splitBreak
  split
  · split
    · exact List.dropLast_prefix ts
    · exact List.prefix_refl ts
  · exact List.nil_prefix

/-- A line is the content of a row, and starts behind the rows before. -/
theorem exists_row_of_mem_ofRows {place : Place} {gap : Text} {rs : List (List Token)} {l : Line}
    (h : l ∈ (ofRows place gap rs).1) : ∃ rs₁ row rs₂, rs = rs₁ ++ row :: rs₂ ∧
      (splitBreak (splitIndent row).2).1 = l.tokens ∧ (splitIndent row).1 = l.indent ∧
      l.place = place.after (join rs₁.flatten) := by
  induction rs generalizing place gap with
  | nil => simp [ofRows] at h
  | cons row rest ih =>
    have hrest : ∀ {gap}, l ∈ (ofRows (place.after (join row)) gap rest).1 →
        ∃ rs₁ r rs₂, row :: rest = rs₁ ++ r :: rs₂ ∧
          (splitBreak (splitIndent r).2).1 = l.tokens ∧ (splitIndent r).1 = l.indent ∧
          l.place = place.after (join rs₁.flatten) := by
      intro gap hl
      obtain ⟨rs₁, r, rs₂, rfl, htokens, hindent, hplace⟩ := ih hl
      refine ⟨row :: rs₁, r, rs₂, rfl, htokens, hindent, ?_⟩
      rw [hplace, List.flatten_cons, Token.join_append, Place.after_append]
    cases hline : (splitBreak (splitIndent row).2).1 with
    | nil =>
      rw [ofRows_blank hline] at h
      exact hrest h
    | cons head tail =>
      rw [ofRows_line hline] at h
      rcases List.mem_cons.1 h with rfl | h
      · exact ⟨[], row, rest, rfl, hline, rfl, (Place.after_nil place).symm⟩
      · exact hrest h

theorem tokens_isInfix_ofRows {place : Place} {gap : Text} {rs : List (List Token)} {l : Line}
    (h : l ∈ (ofRows place gap rs).1) : l.tokens <:+: rs.flatten := by
  obtain ⟨rs₁, row, rs₂, rfl, htokens, -, -⟩ := exists_row_of_mem_ofRows h
  have hrow : l.tokens <:+: row := htokens ▸
    (prefix_splitBreak _).isInfix.trans (splitIndent_suffix row).isInfix
  exact hrow.trans ⟨rs₁.flatten, rs₂.flatten, by simp⟩

theorem splitBreak_cons {t head : Token} {ts tail : List Token}
    (h : (splitBreak (t :: ts)).1 = head :: tail) : head = t := by
  obtain ⟨rest, hrest⟩ := h ▸ prefix_splitBreak (t :: ts)
  exact (List.cons.inj hrest).1

theorem head_of_rowsFrom_cons {t head : Token} {ts row tail : List Token}
    {rest : List (List Token)} (ht : t.kind ≠ .space) (h : rowsFrom 0 (t :: ts) = row :: rest)
    (hrow : (splitBreak row).1 = head :: tail) : head.isWhitespace = false := by
  rcases rowsFrom_eq_cons h with ⟨hk, -, rfl, -⟩ | ⟨hk, inside, rfl, -⟩
  · simp [splitBreak, hk] at hrow
  · obtain rfl := splitBreak_cons hrow
    simp only [and_true] at hk
    cases hkind : head.kind <;> simp_all [Token.isWhitespace, TokenKind.isWhitespace]

/-- The first token of a line is not whitespace. -/
theorem head_of_rowsFrom {ts row : List Token} {rest : List (List Token)} {head : Token}
    {tail : List Token} (hchain : ts.IsChain fun a b => a.kind.Precedes b.kind)
    (h : rowsFrom 0 ts = row :: rest)
    (hrow : (splitBreak (splitIndent row).2).1 = head :: tail) : head.isWhitespace = false := by
  cases ts with
  | nil =>
    obtain ⟨rfl, -⟩ := List.cons.inj h
    simp [splitIndent, splitBreak] at hrow
  | cons t ts =>
    rcases rowsFrom_eq_cons h with ⟨hk, -, rfl, -⟩ | ⟨hk, inside, rfl, hs⟩
    · exact head_of_rowsFrom_cons (by simp [hk]) h (by simpa [splitIndent, hk] using hrow)
    · by_cases ht : t.kind = .space
      · rw [splitIndent, if_pos ht] at hrow
        rw [ht, show TokenKind.space.nesting 0 = 0 from rfl] at hs
        cases ts with
        | nil =>
          obtain ⟨rfl, -⟩ := List.cons.inj hs
          simp [splitBreak] at hrow
        | cons u ts => exact head_of_rowsFrom_cons ((List.isChain_cons_cons.1 hchain).1.1 ht) hs hrow
      · rw [splitIndent, if_neg ht] at hrow
        exact head_of_rowsFrom_cons ht h hrow

theorem head_of_mem_ofRows {place : Place} {gap : Text} {rs : List (List Token)} {l : Line}
    (hrs : rowsFrom 0 rs.flatten = rs)
    (hchain : rs.flatten.IsChain fun a b => a.kind.Precedes b.kind)
    (h : l ∈ (ofRows place gap rs).1) : l.head.isWhitespace = false := by
  obtain ⟨rs₁, row, rs₂, rfl, htokens, -, -⟩ := exists_row_of_mem_ofRows h
  have hrest := (rowsFrom_split hrs (List.cons_ne_nil row rs₂)).2
  rw [List.flatten_append] at hchain
  exact head_of_rowsFrom hchain.right_of_append hrest htokens

end OffsideCss.Line
