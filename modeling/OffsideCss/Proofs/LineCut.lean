import OffsideCss.Proofs.LineLayout

/-! Lines of a part of a text.  A text that is put behind a complete row leaves the lines before it as
they are, and a text cut where a line begins has the lines before the cut and those behind it.  Lines
are compared without their places, which a cut moves. -/

namespace OffsideCss.Line

open Token (depthAfter join scan)

/-- A line without its place. -/
def unplaced (l : Line) : Line := { l with place := .first }

/-- Lines, and the text behind the last one, behind a blank text. -/
def behind (gap : Text) : List Line × Text → List Line × Text
  | ([], after) => ([], gap ++ after)
  | (l :: ls, after) => ({ l with gap := gap ++ l.gap } :: ls, after)

/-- The lines among rows behind the blank text `gap`, without their places, and the text behind the
last line. -/
def linesOf (gap : Text) (rs : List (List Token)) : List Line × Text :=
  ((ofRows .first gap rs).1.map unplaced, (ofRows .first gap rs).2)

theorem unplaced_ofRows (place : Place) (gap : Text) (rs : List (List Token)) :
    ((ofRows place gap rs).1.map unplaced, (ofRows place gap rs).2) = linesOf gap rs := by
  suffices ∀ place', ((ofRows place gap rs).1.map unplaced, (ofRows place gap rs).2) =
      ((ofRows place' gap rs).1.map unplaced, (ofRows place' gap rs).2) from this .first
  induction rs generalizing place gap with
  | nil => exact fun _ => rfl
  | cons row rest ih =>
    intro place'
    cases h : (splitBreak (splitIndent row).2).1 with
    | nil => rw [ofRows_blank h, ofRows_blank h, ih]
    | cons head tail =>
      have := ih (place.after (join row)) (splitBreak (splitIndent row).2).2
        (place'.after (join row))
      rw [Prod.mk.injEq] at this
      rw [ofRows_line h, ofRows_line h, List.map_cons, List.map_cons, this.1, this.2]
      rfl

section Rows

variable {gap : Text} {row : List Token} {rest : List (List Token)}

theorem linesOf_blank (h : (splitBreak (splitIndent row).2).1 = []) :
    linesOf gap (row :: rest) = linesOf (gap ++ join row) rest := by
  rw [linesOf, ofRows_blank h, unplaced_ofRows]

theorem linesOf_line {head : Token} {tail : List Token}
    (h : (splitBreak (splitIndent row).2).1 = head :: tail) :
    linesOf gap (row :: rest) =
      ({ gap, indent := (splitIndent row).1, place := .first, head, tail } ::
        (linesOf (splitBreak (splitIndent row).2).2 rest).1,
        (linesOf (splitBreak (splitIndent row).2).2 rest).2) := by
  rw [← unplaced_ofRows (Place.first.after (join row)) (splitBreak (splitIndent row).2).2 rest,
    linesOf, ofRows_line h]
  rfl

end Rows

theorem linesOf_gap (gap gap' : Text) (rs : List (List Token)) :
    linesOf (gap ++ gap') rs = behind gap (linesOf gap' rs) := by
  induction rs generalizing gap' with
  | nil => rfl
  | cons row rest ih =>
    cases h : (splitBreak (splitIndent row).2).1 with
    | nil => rw [linesOf_blank h, linesOf_blank h, List.append_assoc, ih]
    | cons head tail => rw [linesOf_line h, linesOf_line h, behind]

theorem linesOf_append (gap : Text) (rs rs' : List (List Token)) :
    linesOf gap (rs ++ rs') =
      ((linesOf gap rs).1 ++ (linesOf (linesOf gap rs).2 rs').1,
        (linesOf (linesOf gap rs).2 rs').2) := by
  rw [← unplaced_ofRows (Place.first.after (join rs.flatten)) (linesOf gap rs).2 rs', linesOf,
    ofRows_append, List.map_append]
  rfl

theorem linesOf_split {gap after : Text} {rs : List (List Token)} {pre post : List Line} {l : Line}
    (h : linesOf gap rs = (pre ++ l :: post, after)) :
    ∃ rs₁ rs₂, rs = rs₁ ++ rs₂ ∧ rs₂ ≠ [] ∧ linesOf gap rs₁ = (pre, l.gap) ∧
      linesOf [] rs₂ = ({ l with gap := [] } :: post, after) := by
  induction rs generalizing gap pre with
  | nil => simp [linesOf, ofRows] at h
  | cons row rest ih =>
    cases hrow : (splitBreak (splitIndent row).2).1 with
    | nil =>
      rw [linesOf_blank hrow] at h
      obtain ⟨rs₁, rs₂, rfl, hne, h₁, h₂⟩ := ih h
      exact ⟨row :: rs₁, rs₂, rfl, hne, by rw [linesOf_blank hrow, h₁], h₂⟩
    | cons head tail =>
      rw [linesOf_line hrow, Prod.mk.injEq] at h
      cases pre with
      | nil =>
        rw [List.nil_append, List.cons.injEq] at h
        obtain ⟨⟨rfl, hpost⟩, hafter⟩ := h
        exact ⟨[], row :: rest, rfl, by simp, rfl, by rw [linesOf_line hrow, hpost, hafter]⟩
      | cons k pre =>
        rw [List.cons_append, List.cons.injEq] at h
        obtain ⟨⟨rfl, hpre⟩, hafter⟩ := h
        obtain ⟨rs₁, rs₂, rfl, hne, h₁, h₂⟩ := ih (Prod.ext hpre hafter)
        exact ⟨row :: rs₁, rs₂, rfl, hne, by rw [linesOf_line hrow, h₁], h₂⟩

/-- Whether a text has these lines, wherever they stand, and that text behind the last one. -/
def Lays (t : Text) (ls : List Line) (after : Text) : Prop :=
  ∃ placed, ofTokens (scan t) = .ok (placed, after) ∧ placed.map unplaced = ls

theorem ofTokens_eq_ok {ts : List Token} {lines : List Line × Text} :
    ofTokens ts = .ok lines ↔ (∀ t ∈ ts, t.kind ≠ .unclosed) ∧ depthAfter 0 ts = 0 ∧
      ofRows .first [] (rowsFrom 0 ts) = lines := by
  have hrows := rows_eq .first [] ts
  have hlength := length_rows_opened .first [] ts
  unfold ofTokens
  split
  · next place t hlocate =>
    obtain ⟨pre, post, rfl, -, ht⟩ := Token.locate?_eq_some hlocate
    simp only [reduceCtorEq, false_iff]
    exact fun h => h.1 t (by simp) (by simpa using ht)
  · next hlocate =>
    have hclosed : ∀ t ∈ ts, t.kind ≠ .unclosed := by
      simpa using Token.locate?_eq_none.1 hlocate
    cases hr : rows .first [] ts with
    | mk rs opened =>
      rw [hr] at hrows hlength
      obtain rfl : rs = rowsFrom 0 ts := hrows
      replace hlength : opened.length = depthAfter 0 ts := hlength
      cases opened with
      | nil => simpa [← hlength] using fun _ => hclosed
      | cons place opened =>
        dsimp only
        rw [List.getLast?_cons]
        simp [← hlength]

theorem tokens_isInfix_scan {t : Text} {ls : List Line} {after : Text}
    (h : ofTokens (scan t) = .ok (ls, after)) {l : Line} (hl : l ∈ ls) : l.tokens <:+: scan t := by
  have hrows : l ∈ (ofRows .first [] (rowsFrom 0 (scan t))).1 := by
    rwa [(ofTokens_eq_ok.1 h).2.2]
  have hrow := tokens_isInfix_ofRows hrows
  rwa [flatten_rowsFrom] at hrow

/-- A line knows where it starts. -/
theorem place_of_ofTokens {t : Text} {pre post : List Line} {l : Line} {after : Text}
    (h : ofTokens (scan t) = .ok (pre ++ l :: post, after)) :
    l.place = Place.first.after (pre.flatMap text ++ l.gap) := by
  have hplaced := placedFrom_ofRows .first [] (rowsFrom 0 (scan t))
  rw [Place.after_nil, (ofTokens_eq_ok.1 h).2.2] at hplaced
  exact hplaced.place_eq

/-- No line begins with whitespace behind its indentation. -/
theorem head_of_ofTokens {t : Text} {ls : List Line} {after : Text}
    (h : ofTokens (scan t) = .ok (ls, after)) {l : Line} (hl : l ∈ ls) :
    l.head.isWhitespace = false := by
  have hrows : l ∈ (ofRows .first [] (rowsFrom 0 (scan t))).1 := by
    rwa [(ofTokens_eq_ok.1 h).2.2]
  refine head_of_mem_ofRows ?_ ?_ hrows
  · rw [flatten_rowsFrom]
  · rw [flatten_rowsFrom]
    exact Token.isChain_scanFrom 0 t

theorem lays_iff {t : Text} {ls : List Line} {after : Text} :
    Lays t ls after ↔ (∀ tok ∈ scan t, tok.kind ≠ .unclosed) ∧ depthAfter 0 (scan t) = 0 ∧
      linesOf [] (rowsFrom 0 (scan t)) = (ls, after) := by
  constructor
  · rintro ⟨placed, h, rfl⟩
    obtain ⟨hclosed, hdepth, hrows⟩ := ofTokens_eq_ok.1 h
    exact ⟨hclosed, hdepth, by rw [linesOf, hrows]⟩
  · rintro ⟨hclosed, hdepth, h⟩
    obtain ⟨hls, hafter⟩ := Prod.mk.inj h
    exact ⟨_, ofTokens_eq_ok.2 ⟨hclosed, hdepth, Prod.ext rfl hafter⟩, hls⟩

theorem text_unplaced (ls : List Line) : (ls.map unplaced).flatMap text = ls.flatMap text := by
  induction ls with
  | nil => rfl
  | cons l ls ih => exact congrArg (l.text ++ ·) ih

/-- The lines of a text, and the text behind the last one, make it up. -/
theorem Lays.text_eq {t : Text} {ls : List Line} {after : Text} (h : Lays t ls after) :
    t = ls.flatMap text ++ after := by
  obtain ⟨placed, hplaced, rfl⟩ := h
  have htext := text_ofRows .first [] (rowsFrom 0 (scan t))
  rw [(ofTokens_eq_ok.1 hplaced).2.2, flatten_rowsFrom, Token.join_scan] at htext
  rw [text_unplaced]
  exact htext.symm

theorem linesOf_nil (gap : Text) : linesOf gap [[]] = ([], gap) := by
  simp [linesOf, ofRows, splitIndent, splitBreak]

theorem EndsRow.rowsFrom_eq {ts : List Token} (h : EndsRow 0 ts) :
    ∃ rs, (∀ us, rowsFrom 0 (ts ++ us) = rs ++ rowsFrom 0 us) ∧
      ∀ gap, linesOf gap (rowsFrom 0 ts) = linesOf gap rs := by
  obtain ⟨rs, -, hrs⟩ := h.rowsFrom_append
  refine ⟨rs, hrs, fun gap => ?_⟩
  have := hrs []
  rw [List.append_nil] at this
  rw [this, linesOf_append, rowsFrom, linesOf_nil, List.append_nil]

theorem EndsRow.endsItself {ts : List Token} (h : EndsRow 0 ts) :
    ∀ tok ∈ ts.getLast?, tok.kind.endsItself = true := by
  obtain ⟨body, lineBreak, rfl, hk, -⟩ := h
  simp [hk, TokenKind.endsItself]

/-- What follows a complete row is scanned apart from it. -/
theorem EndsRow.scan_append {t : Text} (h : EndsRow 0 (scan t)) (u : Text) :
    scan (t ++ u) = scan t ++ scan u := by
  have := Token.scanFrom_append u h.endsItself
  rwa [show Token.scanFrom 0 t = scan t from rfl, h.depthAfter_eq] at this

theorem EndsRow.getLast?_eq {u : Text} (h : EndsRow 0 (scan u)) :
    u.getLast? = some '\n' := by
  obtain ⟨body, lineBreak, hscan, hk, -⟩ := h
  have hspells := Token.spells_of_mem_scan
    (show lineBreak ∈ scan u by simp [hscan])
  rw [hk] at hspells
  rw [← Token.join_scan u, hscan]
  rcases hspells with ht | ht <;> simp [ht, List.getLast?_append]

/-- What follows a complete row has its lines behind those before. -/
theorem Lays.append {t u : Text} {ls us : List Line} {gap after : Text} (h : Lays t ls gap)
    (ht : EndsRow 0 (scan t)) (hu : Lays u us after) :
    Lays (t ++ u) (ls ++ (behind gap (us, after)).1) (behind gap (us, after)).2 := by
  rw [lays_iff] at h hu ⊢
  obtain ⟨hclosed, hdepth, hls⟩ := h
  obtain ⟨hclosed', hdepth', hus⟩ := hu
  have hscan := ht.scan_append u
  obtain ⟨rs, hrs, hlines⟩ := ht.rowsFrom_eq
  refine ⟨?_, ?_, ?_⟩
  · rw [hscan]
    exact fun tok htok => (List.mem_append.1 htok).elim (hclosed tok) (hclosed' tok)
  · rw [hscan, Token.depthAfter_append, hdepth, hdepth']
  · have hgap := linesOf_gap gap [] (rowsFrom 0 (scan u))
    rw [List.append_nil, hus] at hgap
    rw [hscan, hrs, linesOf_append, ← hlines, hls, hgap]

/-- A text cut where a line begins: the text behind the line before is what the first part ends
with. -/
theorem Lays.split {t : Text} {pre post : List Line} {l : Line} {after : Text}
    (h : Lays t (pre ++ l :: post) after) :
    ∃ u v, t = u ++ v ∧ scan t = scan u ++ scan v ∧ (u = [] ∨ EndsRow 0 (scan u)) ∧
      Lays u pre l.gap ∧ Lays v ({ l with gap := [] } :: post) after := by
  rw [lays_iff] at h
  obtain ⟨hclosed, hdepth, hlines⟩ := h
  obtain ⟨rs₁, rs₂, hrs, hne, h₁, h₂⟩ := linesOf_split hlines
  obtain ⟨hends, hrest⟩ := rowsFrom_split hrs hne
  have hts : scan t = rs₁.flatten ++ rs₂.flatten := by
    rw [← List.flatten_append, ← hrs, flatten_rowsFrom]
  have hzero : depthAfter 0 rs₁.flatten = 0 := by
    rcases hends with rfl | hends
    · rfl
    · exact hends.depthAfter_eq
  have hjoin : t = join rs₁.flatten ++ join rs₂.flatten := by
    rw [← Token.join_append, ← hts, Token.join_scan]
  have hu : scan (join rs₁.flatten) = rs₁.flatten :=
    Token.scanFrom_cut (by rw [← hjoin]; exact hts) rfl
  have hv : scan (join rs₂.flatten) = rs₂.flatten := by
    have := Token.scanFrom_suffix hts
    rwa [hzero] at this
  refine ⟨join rs₁.flatten, join rs₂.flatten, hjoin, by rw [hu, hv, hts], ?_, ?_, ?_⟩
  · rcases hends with rfl | hends
    · exact .inl rfl
    · exact .inr (by rwa [hu])
  · refine lays_iff.2 ⟨fun tok htok => hclosed tok ?_, by rw [hu, hzero], ?_⟩
    · rw [hu] at htok
      exact hts ▸ List.mem_append_left _ htok
    · rw [hu]
      rcases hends with rfl | hends
      · exact h₁
      · obtain ⟨rs, hrs', hlines'⟩ := hends.rowsFrom_eq
        have heq : rs₁ ++ rs₂ = rs ++ rs₂ := by
          rw [← hrs, hts, hrs', hrest]
        rw [hlines', ← List.append_cancel_right heq, h₁]
  · refine lays_iff.2 ⟨fun tok htok => hclosed tok ?_, ?_, by rw [hv, hrest, h₂]⟩
    · rw [hv] at htok
      exact hts ▸ List.mem_append_right _ htok
    · rw [hts, Token.depthAfter_append, hzero] at hdepth
      rw [hv, hdepth]

theorem Lays.first {t : Text} {l : Line} {ls : List Line} {after : Text}
    (h : Lays t (l :: ls) after) (hgap : l.gap = []) :
    ∃ row rest head tail, rowsFrom 0 (scan t) = row :: rest ∧
      (splitBreak (splitIndent row).2).1 = head :: tail ∧
      l = ⟨[], (splitIndent row).1, .first, head, tail⟩ ∧
      linesOf (splitBreak (splitIndent row).2).2 rest = (ls, after) := by
  obtain ⟨-, -, hlines⟩ := lays_iff.1 h
  cases hr : rowsFrom 0 (scan t) with
  | nil => exact absurd hr (rowsFrom_ne_nil _ _)
  | cons row rest =>
    rw [hr] at hlines
    cases hrow : (splitBreak (splitIndent row).2).1 with
    | nil =>
      have hjoin : join row = [] := by
        have hb := linesOf_gap (join row) [] rest
        rw [List.append_nil, ← List.nil_append (join row), ← linesOf_blank hrow, hlines] at hb
        cases hl : linesOf [] rest with
        | mk ks a =>
          cases ks <;> simp_all [behind]
      have hne : rest ≠ [] := by
        rintro rfl
        rw [linesOf_blank hrow] at hlines
        simp [linesOf, ofRows] at hlines
      obtain ⟨⟨body, lineBreak, rfl, hk, -⟩, -⟩ := rowsFrom_cons hr hne
      have hmem : lineBreak ∈ scan t := by
        rw [← flatten_rowsFrom 0 (scan t), hr]
        simp
      exact absurd (by simp_all) (Token.text_ne_nil_of_mem_scanFrom hmem)
    | cons head tail =>
      rw [linesOf_line hrow, Prod.mk.injEq, List.cons.injEq] at hlines
      obtain ⟨⟨rfl, hls⟩, hafter⟩ := hlines
      exact ⟨row, rest, head, tail, rfl, hrow, rfl, Prod.ext hls hafter⟩

theorem Lays.atSpacing_eq_false {t : Text} {l : Line} {ls : List Line} {after : Text}
    (h : Lays t (l :: ls) after) (hgap : l.gap = []) (hindent : l.indent = []) :
    t.atSpacing = false := by
  obtain ⟨row, rest, head, tail, hr, -, rfl, -⟩ := h.first hgap
  cases t with
  | nil => rfl
  | cons c t =>
    refine Bool.eq_false_iff.2 fun hs => ?_
    rw [scan, Token.scanFrom_cons, Token.next_space hs] at hr
    rcases rowsFrom_eq_cons hr with ⟨hk, -⟩ | ⟨-, inside, rfl, -⟩
    · simp [Token.ofRun] at hk
    · simp [splitIndent, Token.ofRun] at hindent

theorem rowsFrom_space {sp : Token} {ts row : List Token} {rest : List (List Token)}
    (hk : sp.kind = .space) (h : rowsFrom 0 ts = row :: rest) :
    rowsFrom 0 (sp :: ts) = (sp :: row) :: rest := by
  simp [rowsFrom, hk, show TokenKind.space.nesting 0 = 0 from rfl, h]

theorem splitIndent_eq_self {row : List Token} (hne : ∀ tok ∈ row, tok.text ≠ [])
    (h : (splitIndent row).1 = []) : (splitIndent row).2 = row := by
  cases row with
  | nil => rfl
  | cons t row =>
    by_cases ht : t.kind = .space
    · simp [splitIndent, ht, hne] at h
    · simp [splitIndent, ht]

/-- Blanks in front of a line that is not indented indent it. -/
theorem Lays.indent {t : Text} {l : Line} {ls : List Line} {after : Text} (sp : Text)
    (h : Lays t (l :: ls) after) (hgap : l.gap = []) (hindent : l.indent = [])
    (hsp : ∀ c ∈ sp, c = ' ' ∨ c = '\t') : Lays (sp ++ t) ({ l with indent := sp } :: ls) after := by
  by_cases hne : sp = []
  · have heq : { l with indent := sp } = l := by rw [hne, ← hindent]
    rw [heq, hne]
    exact h
  have hscan : scan (sp ++ t) = ⟨.space, sp⟩ :: scan t :=
    Token.scanFrom_spaces hne hsp (h.atSpacing_eq_false hgap hindent)
  obtain ⟨hclosed, hdepth, -⟩ := lays_iff.1 h
  obtain ⟨row, rest, head, tail, hr, hrow, rfl, hlines⟩ := h.first hgap
  have hrow' : (splitIndent row).2 = row := by
    refine splitIndent_eq_self (fun tok htok => ?_) hindent
    refine Token.text_ne_nil_of_mem_scan (t := t) ?_
    rw [← flatten_rowsFrom 0 (scan t), hr]
    exact List.mem_append_left _ htok
  have hsplit : splitIndent (⟨.space, sp⟩ :: row) = (sp, row) := by simp [splitIndent]
  rw [hrow'] at hrow hlines
  rw [lays_iff, hscan]
  refine ⟨?_, hdepth, ?_⟩
  · rintro tok (- | ⟨-, htok⟩)
    · simp
    · exact hclosed tok htok
  · rw [rowsFrom_space rfl hr, linesOf_line (by rw [hsplit, hrow]), hsplit, hlines]

theorem splitIndent_behind_space {sp : Token} {ts row : List Token} {rest : List (List Token)}
    (hchain : (sp :: ts).IsChain fun a b => a.kind.Precedes b.kind) (hk : sp.kind = .space)
    (h : rowsFrom 0 ts = row :: rest) : splitIndent row = ([], row) := by
  cases ts with
  | nil =>
    obtain ⟨rfl, -⟩ := List.cons.inj h
    rfl
  | cons t ts =>
    have ht := (List.isChain_cons_cons.1 hchain).1.1 hk
    rcases rowsFrom_eq_cons h with ⟨-, -, rfl, -⟩ | ⟨-, inside, rfl, -⟩ <;> simp [splitIndent, ht]

theorem Lays.unindent {t : Text} {l : Line} {ls : List Line} {after : Text}
    (h : Lays t (l :: ls) after) (hgap : l.gap = []) :
    ∃ v, t = l.indent ++ v ∧ (∀ c ∈ l.indent, isSpacing c = true) ∧
      Lays v ({ l with indent := [] } :: ls) after := by
  by_cases hne : l.indent = []
  · have heq : { l with indent := [] } = l := by rw [← hne]
    exact ⟨t, by rw [hne]; rfl, by simp [hne], by rw [heq]; exact h⟩
  obtain ⟨hclosed, hdepth, -⟩ := lays_iff.1 h
  obtain ⟨row, rest, head, tail, hr, hrow, rfl, hlines⟩ := h.first hgap
  cases hts : scan t with
  | nil =>
    rw [hts] at hr
    obtain ⟨rfl, -⟩ := List.cons.inj hr
    simp [splitIndent] at hne
  | cons sp ts =>
    rw [hts] at hr
    have hsp : sp.kind = .space := by
      by_contra hk
      rcases rowsFrom_eq_cons hr with ⟨-, -, rfl, -⟩ | ⟨-, inside, rfl, -⟩ <;>
        simp [splitIndent, hk] at hne
    rcases rowsFrom_eq_cons hr with ⟨hk, -⟩ | ⟨-, inside, rfl, hrest⟩
    · simp [hsp] at hk
    rw [hsp, show TokenKind.space.nesting 0 = 0 from rfl] at hrest
    have hsplit : splitIndent (sp :: inside) = (sp.text, inside) := by simp [splitIndent, hsp]
    rw [hsplit] at hrow hlines ⊢
    have hv : scan (join ts) = ts := by
      have : Token.scanFrom (Token.depthAfter 0 [sp]) (join ts) = ts := Token.scanFrom_suffix hts
      rwa [Token.depthAfter_cons, hsp] at this
    refine ⟨join ts, ?_, ?_, ?_⟩
    · rw [← Token.join_scan t, hts]
      rfl
    · have hspells := Token.spells_of_mem_scan (t := t) (hts ▸ List.mem_cons_self)
      rw [hsp] at hspells
      exact hspells.2
    · have hinside := splitIndent_behind_space (hts ▸ Token.isChain_scanFrom 0 t) hsp hrest
      rw [lays_iff, hv]
      refine ⟨fun tok htok => hclosed tok (by simp [hts, htok]), ?_, ?_⟩
      · rwa [hts, Token.depthAfter_cons, hsp] at hdepth
      · rw [hrest, linesOf_line (by rw [hinside, hrow]), hinside, hlines]

end OffsideCss.Line
