import OffsideCss.Proofs.VariantLines

/-! Line endings.  A text without carriage returns may have one before each of its line feeds: the
scanner takes the two for one line break, and nothing that reads tokens tells it from a line feed.
Only a backslash before a line feed would take the carriage return along and leave the line feed to
end the line. -/

namespace OffsideCss

open Token (join placed scan scanFrom next ofRun)

namespace Text

/-- A text with a carriage return before each line feed. -/
def crlf (t : Text) : Text := withBreaks ['\r', '\n'] t

theorem crlf_cons {c : Char} (hc : c ≠ '\n') (t : Text) : crlf (c :: t) = c :: crlf t :=
  withBreaks_cons hc t

theorem crlf_append (t u : Text) : crlf (t ++ u) = crlf t ++ crlf u := withBreaks_append _ t u

theorem crlf_of_not_mem {t : Text} (h : '\n' ∉ t) : crlf t = t := withBreaks_of_not_mem h

theorem crlf_lineFeed (t : Text) : crlf ('\n' :: t) = '\r' :: '\n' :: crlf t := rfl

theorem spells_crlf : TokenKind.lineBreak.Spells ['\r', '\n'] := .inr rfl

/-- Whether a text has no carriage returns, and no line feeds behind backslashes. -/
structure Unreturned (t : Text) : Prop where
  returns : '\r' ∉ t
  escapes : ¬['\\', '\n'] <:+: t

theorem Unreturned.suffix {t u : Text} (h : t.Unreturned) (hu : u <:+ t) : u.Unreturned :=
  ⟨fun hmem => h.returns (hu.subset hmem), fun hin => h.escapes (hin.trans hu.isInfix)⟩

theorem Unreturned.tail {c : Char} {t : Text} (h : Unreturned (c :: t)) : t.Unreturned :=
  h.suffix (List.suffix_cons c t)

theorem Unreturned.head {c : Char} {t : Text} (h : Unreturned (c :: t)) : c ≠ '\r' :=
  fun hc => h.returns (hc ▸ List.mem_cons_self)

/-- Whether a test finds the same in a text with carriage returns before its line feeds, and nothing
between the two. -/
structure Agrees (stop : Text → Bool) : Prop where
  crlf : ∀ {t : Text}, t.Unreturned → stop t.crlf = stop t
  between : ∀ {t : Text}, t.Unreturned → stop ('\n' :: t) = false → stop ('\n' :: t.crlf) = false

variable {stop : Text → Bool} {t : Text}

theorem splitBefore_crlf (h : Agrees stop) (ht : t.Unreturned) :
    t.crlf.splitBefore stop = ((t.splitBefore stop).1.crlf, (t.splitBefore stop).2.crlf) := by
  induction t with
  | nil => rfl
  | cons c t ih =>
    have hstop := h.crlf ht
    by_cases hs : stop (c :: t) = true
    · rw [splitBefore_of_stop hs]
      rw [hs] at hstop
      by_cases hc : c = '\n'
      · subst hc
        exact splitBefore_of_stop hstop
      · rw [crlf_cons hc] at hstop ⊢
        exact splitBefore_of_stop hstop
    · rw [Bool.not_eq_true] at hs
      rw [splitBefore_cons hs]
      rw [hs] at hstop
      by_cases hc : c = '\n'
      · subst hc
        rw [crlf_lineFeed] at hstop ⊢
        rw [splitBefore_cons hstop, splitBefore_cons (h.between ht.tail hs), ih ht.tail]
        rfl
      · rw [crlf_cons hc] at hstop ⊢
        rw [splitBefore_cons hstop, ih ht.tail, crlf_cons hc]

theorem splitUnescaped_crlf_of_stop {c : Char} (h : Agrees stop) (ht : Unreturned (c :: t))
    (hs : stop (c :: t) = true) :
    (crlf (c :: t)).splitUnescaped stop = ([], crlf (c :: t)) := by
  have hstop := (h.crlf ht).trans hs
  by_cases hc : c = '\n'
  · subst hc
    exact splitUnescaped_of_stop hstop
  · rw [crlf_cons hc] at hstop ⊢
    exact splitUnescaped_of_stop hstop

theorem splitUnescaped_crlf_cons {c : Char} (h : Agrees stop) (ht : Unreturned (c :: t))
    (hs : stop (c :: t) = false) (hc : t = [] ∨ c ≠ '\\')
    (ih : t.crlf.splitUnescaped stop =
      ((t.splitUnescaped stop).1.crlf, (t.splitUnescaped stop).2.crlf)) :
    (crlf (c :: t)).splitUnescaped stop =
      (crlf (c :: (t.splitUnescaped stop).1), (t.splitUnescaped stop).2.crlf) := by
  have hstop := (h.crlf ht).trans hs
  by_cases hn : c = '\n'
  · subst hn
    rw [crlf_lineFeed] at hstop ⊢
    rw [splitUnescaped_cons hstop (.inr (by decide)),
      splitUnescaped_cons (h.between ht.tail hs) (.inr (by decide)), ih]
    rfl
  · rw [crlf_cons hn] at hstop ⊢
    rw [splitUnescaped_cons hstop (hc.imp_left fun hnil => by rw [hnil]; rfl), ih, crlf_cons hn]

theorem splitUnescaped_crlf (h : Agrees stop) (ht : t.Unreturned) :
    t.crlf.splitUnescaped stop =
      ((t.splitUnescaped stop).1.crlf, (t.splitUnescaped stop).2.crlf) := by
  fun_induction splitUnescaped stop t with
  | case1 => rfl
  | case2 c hs => exact splitUnescaped_crlf_of_stop h ht hs
  | case3 c hs => exact splitUnescaped_crlf_cons h ht (Bool.eq_false_iff.2 hs) (.inl rfl) rfl
  | case4 c d rest hs => exact splitUnescaped_crlf_of_stop h ht hs
  | case5 d rest run left hr hs ih =>
    -- The escaped character is no line feed.
    have hd : d ≠ '\n' := by
      rintro rfl
      exact ht.escapes (List.prefix_append ['\\', '\n'] rest).isInfix
    have hstop := (h.crlf ht).trans (Bool.eq_false_iff.2 hs)
    have hrest := ih ht.tail.tail
    rw [hr] at hrest
    rw [crlf_cons (by decide), crlf_cons hd] at hstop ⊢
    rw [splitUnescaped_escape hstop, hrest, crlf_cons (by decide), crlf_cons hd]
  | case6 c d rest hs hc run left hr ih =>
    have hrest := ih ht.tail
    have hcons := splitUnescaped_crlf_cons h ht (Bool.eq_false_iff.2 hs) (.inr hc)
      (by rw [hrest])
    rw [hr] at hcons
    exact hcons

/-! ### The tests of the scanner -/

theorem head?_crlf {d : Char} (hfeed : d ≠ '\n') (hreturn : d ≠ '\r') (t : Text) :
    t.crlf.head? = some d ↔ t.head? = some d :=
  head?_withBreaks spells_crlf hfeed hreturn t

namespace Agrees

theorem spacing : Agrees fun t => !t.atSpacing where
  crlf := by
    intro t ht
    cases t with
    | nil => rfl
    | cons c t =>
      by_cases hc : c = '\n'
      · subst hc
        simp [crlf_lineFeed, atSpacing, atLineBreak]
      · simp [crlf_cons hc, atSpacing, atLineBreak, ht.head]
  between := by simp [atSpacing, atLineBreak]

theorem lineBreak : Agrees atLineBreak where
  crlf := by
    intro t ht
    cases t with
    | nil => rfl
    | cons c t =>
      by_cases hc : c = '\n'
      · subst hc
        simp [crlf_lineFeed, atLineBreak]
      · simp [crlf_cons hc, atLineBreak, ht.head]
  between := by simp [atLineBreak]

theorem blockEnd : Agrees atBlockEnd where
  crlf := by
    intro t _
    cases t with
    | nil => rfl
    | cons c t =>
      by_cases hc : c = '\n'
      · subst hc
        simp [crlf_lineFeed, atBlockEnd]
      · simp [crlf_cons hc, atBlockEnd, head?_crlf]
  between := by simp [atBlockEnd]

theorem atWordEnd : Agrees atAtWordEnd where
  crlf := by
    intro t _
    cases t with
    | nil => rfl
    | cons c t =>
      by_cases hc : c = '\n'
      · subst hc
        simp [crlf_lineFeed, atAtWordEnd, endsAtWord, isSpacing]
      · simp [crlf_cons hc, atAtWordEnd]
  between := by simp [atAtWordEnd, endsAtWord]

theorem wordEnd (depth : Nat) : Agrees (Text.atWordEnd depth) where
  crlf := by
    intro t _
    cases t with
    | nil => rfl
    | cons c t =>
      by_cases hc : c = '\n'
      · subst hc
        simp [crlf_lineFeed, Text.atWordEnd, endsWord, isSpacing]
      · simp [crlf_cons hc, Text.atWordEnd, atBlockComment, atLineComment, head?_crlf]
  between := by simp [Text.atWordEnd, endsWord]

theorem char {d : Char} (hfeed : d ≠ '\n') (hreturn : d ≠ '\r') : Agrees (atChar d) where
  crlf := by
    intro t _
    rw [atChar, atChar, decide_eq_decide]
    exact head?_crlf hfeed hreturn t
  between := by simp [atChar]

end Agrees

end Text

/-! ### Scanning -/

namespace Token

/-- A token with a carriage return before each line feed. -/
def crlf (t : Token) : Token := t.withBreaks ['\r', '\n']

variable {depth : Nat} {c : Char} {rest : Text}

theorem ofRun_crlf (kind : TokenKind) {opening : Text} (h : '\n' ∉ opening) (run left : Text) :
    ofRun kind opening (run.crlf, left.crlf) =
      ((ofRun kind opening (run, left)).1.crlf, (ofRun kind opening (run, left)).2.crlf) := by
  have hopening : (opening ++ run).crlf = opening ++ run.crlf := by
    rw [Text.crlf_append, Text.crlf_of_not_mem h]
  rw [ofRun, ofRun, ← hopening]
  rfl

theorem ofQuote_crlf (hc : isQuote c = true) (h : rest.Unreturned) :
    ofQuote c rest.crlf = ((ofQuote c rest).1.crlf, (ofQuote c rest).2.crlf) := by
  have hfeed : c ≠ '\n' := by rintro rfl; simp [isQuote] at hc
  have hreturn : c ≠ '\r' := by rintro rfl; simp [isQuote] at hc
  have hrun := Text.splitUnescaped_crlf (.char hfeed hreturn) h
  cases quoted c rest with
  | unclosed hs =>
    rw [hs] at hrun
    rw [ofQuote_unclosed hs, ofQuote_unclosed hrun, ← Text.crlf_cons hfeed]
    rfl
  | @closed inside left hs =>
    have hclose : Text.crlf (inside ++ c :: left) = inside.crlf ++ c :: Text.crlf left := by
      rw [Text.crlf_append, Text.crlf_cons hfeed]
    have htext : c :: inside.crlf ++ [c] = Text.crlf (c :: inside ++ [c]) := by
      rw [Text.crlf_append, Text.crlf_cons hfeed,
        Text.crlf_of_not_mem (t := [c]) (by simpa using hfeed.symm)]
    rw [hs, hclose, Text.crlf_cons hfeed] at hrun
    rw [ofQuote_closed hs, hclose, ofQuote_closed hrun, htext]
    rfl

theorem ofBlockComment_crlf (h : rest.Unreturned) : ofBlockComment '/' ('*' :: rest.crlf) =
    ((ofBlockComment '/' ('*' :: rest)).1.crlf, (ofBlockComment '/' ('*' :: rest)).2.crlf) := by
  have hrun := Text.splitBefore_crlf .blockEnd h
  have hopening : ∀ t : Text, '/' :: '*' :: t.crlf = Text.crlf ('/' :: '*' :: t) := fun t => by
    rw [Text.crlf_cons (by decide), Text.crlf_cons (by decide)]
  cases commented rest with
  | unclosed hs =>
    rw [hs] at hrun
    rw [ofBlockComment_unclosed hs, ofBlockComment_unclosed hrun, hopening]
    rfl
  | @closed inside left hs =>
    have hend : ∀ t : Text, Text.crlf ('*' :: '/' :: t) = '*' :: '/' :: t.crlf := fun t => by
      rw [Text.crlf_cons (by decide), Text.crlf_cons (by decide)]
    have htext : '/' :: '*' :: inside.crlf ++ ['*', '/'] =
        Text.crlf ('/' :: '*' :: inside ++ ['*', '/']) := by
      rw [hopening, Text.crlf_append, Text.crlf_of_not_mem (t := ['*', '/']) (by decide)]
    rw [hs, Text.crlf_append, hend] at hrun
    rw [ofBlockComment_closed hs, Text.crlf_append, hend, ofBlockComment_closed hrun, htext]
    rfl

/-- The token that a text begins with, if it begins with no line feed, is the one with carriage
returns when there are carriage returns. -/
theorem next_crlf (hc : c ≠ '\n') (h : Text.Unreturned (c :: rest)) :
    next depth c rest.crlf = ((next depth c rest).1.crlf, (next depth c rest).2.crlf) := by
  have hcons := Text.crlf_cons hc rest
  have hfeed : '\n' ∉ [c] := by simpa using hc.symm
  cases begins depth c rest with
  | punctuation hp =>
    rw [next_punctuation hp, next_punctuation hp, crlf, withBreaks,
      Text.withBreaks_of_not_mem hfeed]
  | lineFeed => exact absurd rfl hc
  | carriageReturn => exact absurd rfl h.head
  | space hs =>
    have hagree := Text.Agrees.spacing.crlf h
    rw [hcons] at hagree
    have hs' : Text.atSpacing (c :: rest.crlf) = true := by simpa [hs] using hagree
    rw [next_space hs, next_space hs', Text.splitBefore_crlf .spacing h.tail, ofRun_crlf _ hfeed]
  | quote hq => rw [next_quote hq, next_quote hq, ofQuote_crlf hq h.tail]
  | blockComment =>
    rw [Text.crlf_cons (by decide), next_blockComment, next_blockComment,
      ofBlockComment_crlf h.tail.tail]
  | lineComment hd =>
    subst hd
    have hrun := Text.splitBefore_crlf .lineBreak h.tail
    rw [Text.crlf_cons (by decide)] at hrun ⊢
    rw [next_lineComment, next_lineComment, hrun, ofRun_crlf _ hfeed]
  | atWord =>
    rw [next_atWord, next_atWord, Text.splitBefore_crlf .atWordEnd h.tail, ofRun_crlf _ hfeed]
  | word hw hat =>
    have hagree := (Text.Agrees.wordEnd depth).crlf h
    rw [hcons] at hagree
    have hrun := Text.splitUnescaped_crlf (.wordEnd depth) h
    rw [hcons] at hrun
    rw [next_word hw hat, next_word (hagree.trans hw) hat, hrun, ofRun_crlf _ (by simp)]

/-- The tokens of a text with carriage returns are those of the text, with carriage returns. -/
theorem scanFrom_crlf {t : Text} (h : t.Unreturned) :
    scanFrom depth t.crlf = (scanFrom depth t).map crlf := by
  fun_induction scanFrom depth t with
  | case1 => exact scanFrom_nil _
  | case2 depth c rest step ih =>
    have hrest : Text.Unreturned step.2 := h.suffix ⟨step.1.text, next_append depth c rest⟩
    by_cases hc : c = '\n'
    · subst hc
      have hstep : step = (⟨.lineBreak, ['\n']⟩, rest) := next_lineFeed
      rw [hstep] at ih hrest ⊢
      rw [Text.crlf_lineFeed, scanFrom_cons, next_carriageReturn, List.map_cons, ← ih hrest]
      rfl
    · rw [Text.crlf_cons hc, scanFrom_cons, next_crlf hc h, List.map_cons, ← ih hrest]
      rfl

end Token

/-- The variant of a text with a carriage return before each line feed. -/
def Variant.crlf : Variant where
  lineBreak := ['\r', '\n']
  spells := Text.spells_crlf
  factor := 1
  factor_pos := Nat.one_pos
  style := id
  Indents := fun c => isSpacing c = true
  style_inj := fun _ _ h => h
  Field := fun t u => u = t.crlf
  field_breaks := fun _ => rfl
  field_append := by
    rintro t u _ _ rfl rfl
    exact (Text.crlf_append t u).symm
  field_trim := by
    rintro t _ rfl
    exact Text.trim_withBreaks Text.spells_crlf t
  trimmed_iff := by
    rintro t _ rfl
    exact Text.trimmed_withBreaks Text.spells_crlf
  Gap := fun t u => u = t.crlf
  gap_break := fun _ => rfl
  gap_indent := by
    intro t h
    rw [Text.crlf_of_not_mem (Text.lineFeed_not_mem_of_spacing h)]
    simp
  gap_append := by
    rintro t u _ _ rfl rfl
    exact (Text.crlf_append t u).symm
  field_gap := fun h _ => h
  Stands := fun p q => p = q

theorem Variant.indent_crlf (t : Text) : Variant.crlf.indent t = t := by simp [Variant.indent, crlf]

theorem Variant.tracks_crlf : Variant.crlf.Tracks fun p q _ => p = q where
  step := by
    rintro p _ t rest rfl
    rfl
  indent := by
    rintro p _ t rest - rfl
    rw [indent_crlf]
  stands := fun h _ => h

theorem Line.variesRow_crlf {row : List Token} (h : ∀ t ∈ row, t.kind.Spells t.text) :
    VariesRow Variant.crlf row (row.map Token.crlf) := by
  have hspacing := spacing_splitIndent h
  have hfeed := Text.lineFeed_not_mem_of_spacing hspacing
  have hsplit : splitIndent (row.map Token.crlf) = _ := splitIndent_map ['\r', '\n'] row
  refine ⟨h, hspacing, ?_, congrArg Prod.snd hsplit⟩
  rw [hsplit, Variant.indent_crlf, Text.withBreaks_of_not_mem hfeed]

/-! ### Sheets -/

section MapText

variable (f : Text → Text)

/-- A literal text with `f` applied to both of its texts. -/
def Literal.mapText (l : Literal) : Literal := ⟨f l.value, f l.text⟩

/-- An item with `f` applied to each of its texts. -/
def Item.mapText : Item → Item
  | atRule a => atRule
    { name := f a.name, params := f a.params, afterName := a.afterName.map f,
      paramsLiteral := a.paramsLiteral.map (·.mapText f), trailing := a.trailing.map f }
  | rule r => rule
    { selector := f r.selector, selectorLiteral := r.selectorLiteral.map (·.mapText f),
      trailing := r.trailing.map f }
  | declaration d => declaration
    { property := f d.property, value := f d.value, between := d.between.map f,
      valueLiteral := d.valueLiteral.map (·.mapText f) }
  | comment c => comment
    { c with text := f c.text, left := c.left.map f, right := c.right.map f,
             trailing := c.trailing.map f }

/-- A node with `f` applied to each of its texts. -/
def Node.mapText (n : Node) : Node := { n with item := n.item.mapText f, before := n.before.map f }

/-- A sheet with `f` applied to each text in it. -/
def Sheet.mapText (s : Sheet) : Sheet :=
  { s with entries := s.entries.map fun e => { e with node := e.node.mapText f }
           after := f s.after, indent := s.indent.map f }

end MapText

theorem Item.Varies.eq_mapText {i j : Item} (h : i.Varies Variant.crlf j) :
    j = i.mapText Text.crlf := by
  have htext : ∀ {x y : Option Text}, Option.Rel Variant.crlf.Field x y → y = x.map Text.crlf :=
    eq_map_of_rel fun _ _ h => h
  have hliteral : ∀ {x y : Option Literal}, Option.Rel (Literal.Varies Variant.crlf) x y →
      y = x.map (·.mapText Text.crlf) :=
    eq_map_of_rel fun l m h => by
      cases m
      exact congr (congrArg Literal.mk h.value) h.text
  cases h with
  | @atRule a b h =>
    obtain ⟨_, _, _, _, _⟩ := b
    simp only [mapText, atRule.injEq, AtRule.mk.injEq]
    exact ⟨h.name, h.params, htext h.afterName, hliteral h.paramsLiteral, htext h.trailing⟩
  | @rule a b h =>
    obtain ⟨_, _, _⟩ := b
    simp only [mapText, rule.injEq, Rule.mk.injEq]
    exact ⟨h.selector, hliteral h.selectorLiteral, htext h.trailing⟩
  | @declaration a b h =>
    obtain ⟨_, _, _, _⟩ := b
    simp only [mapText, declaration.injEq, Declaration.mk.injEq]
    exact ⟨h.property, h.value, htext h.between, hliteral h.valueLiteral⟩
  | @comment a b h =>
    obtain ⟨_, _, _, _, _⟩ := b
    simp only [mapText, comment.injEq, Comment.mk.injEq]
    exact ⟨h.text, h.form, h.left, h.right, htext h.trailing⟩

theorem Node.Varies.eq_mapText {n m : Node} (h : n.Varies Variant.crlf m) :
    m = n.mapText Text.crlf := by
  obtain ⟨_, _, _⟩ := m
  simp only [mapText, Node.mk.injEq]
  refine ⟨h.item.eq_mapText, eq_map_of_rel (fun _ _ h => h) h.before, ?_⟩
  have hsource := eq_map_of_rel (f := id) (fun a b hab => ?_) h.source
  · exact hsource.trans (by simp)
  · obtain ⟨_, _⟩ := b
    exact congr (congrArg Source.mk hab.start.symm) hab.stop.symm

theorem Sheet.Varies.eq_mapText {s t : Sheet} (h : s.Varies Variant.crlf t)
    (horigin : t.origin = s.origin) : t = s.mapText Text.crlf := by
  obtain ⟨_, _, _, _, _⟩ := t
  simp only [mapText, Sheet.mk.injEq]
  refine ⟨?_, h.top, h.after, ?_, horigin⟩
  · refine eq_map_of_forall₂ (fun e f hef => ?_) h.entries
    obtain ⟨_, _, _⟩ := f
    simp only [Entry.mk.injEq]
    exact ⟨hef.node.eq_mapText, hef.parent, hef.children⟩
  · refine h.indent.trans (Option.map_congr fun indent hindent => ?_)
    have hspacing : ∀ c ∈ indent, isSpacing c = true := h.indents indent hindent
    rw [Variant.indent_crlf, Text.crlf_of_not_mem (Text.lineFeed_not_mem_of_spacing hspacing)]

theorem Sheet.stop?_crlf (source : Text) : stop? source.crlf = stop? source := by
  have htrim : source.crlf.trimEnd = source.trimEnd.crlf :=
    Text.trimEnd_withBreaks Text.spells_crlf source
  have hnil : source.crlf.trimEnd = [] ↔ source.trimEnd = [] := by
    rw [htrim]
    exact Text.withBreaks_eq_nil Text.spells_crlf
  rw [stop?, stop?, if_congr hnil rfl rfl]
  rw [Text.crlf, Text.last_trimEnd_withBreaks Text.spells_crlf]

namespace Sheet

/-- A text without carriage returns, and without line feeds behind backslashes, is read with
carriage returns before its line feeds as the sheet it is read as without them, with the carriage
returns in its texts, or fails for the same cause at the same line and column. -/
theorem parse_crlf (name : String) {source : Text} (hreturn : '\r' ∉ source)
    (hescape : ¬['\\', '\n'] <:+: source) :
    Alike (fun e f : ParseError => f.cause = e.cause ∧ f.position = e.position)
      (fun s t => t = s.mapText Text.crlf) (parse name source) (parse name source.crlf) := by
  have hscan : scan source.crlf = (scan source).map Token.crlf :=
    Token.scanFrom_crlf ⟨hreturn, hescape⟩
  have hrows := Line.rowsFrom_map (f := Token.crlf) (fun _ => rfl) 0 (scan source)
  have hvary : List.Forall₂ (Line.VariesRow Variant.crlf) (Line.rowsFrom 0 (scan source))
      (Line.rowsFrom 0 (scan source.crlf)) := by
    rw [hscan, hrows, List.forall₂_map_right_iff, List.forall₂_same]
    exact fun row hrow => Line.variesRow_crlf (Line.spells_of_mem_row row hrow)
  refine (alike_parse_of_rows Variant.tracks_crlf name rfl hvary).imp ?_ ?_
  · rintro e f ⟨hcause, hstands⟩
    exact ⟨hcause.trans (Cause.scale_one _), hstands.symm⟩
  · intro s t h
    refine h.eq_mapText ?_
    rw [h.origin, h.origin', stop?_crlf]

/-- The line break in a comment, the one between two selectors, and the one before a value are in
the texts of the nodes. -/
theorem parse_crlf_comment_in_selector :
    let source := Text.ofString "a,\nb /*\n*/ \n  c:\n    d\n"
    ∃ s t, parse "in" source = .ok s ∧ parse "in" source.crlf = .ok t ∧ t = s.mapText Text.crlf ∧
      t.entries.map (·.node.item) =
        [.rule { selector := Text.ofString "a,\r\nb", trailing := Text.ofString " ",
                 selectorLiteral := some
                   ⟨Text.ofString "a,\r\nb", Text.ofString "a,\r\nb /*\r\n*/"⟩ },
         .declaration { property := ['c'], value := ['d'],
                        between := Text.ofString ":\r\n    " }] := by
  intro source
  have hitems : (parse "in" source.crlf).toOption.map (fun t => t.entries.map (·.node.item)) =
      some [.rule { selector := Text.ofString "a,\r\nb", trailing := Text.ofString " ",
                    selectorLiteral := some
                      ⟨Text.ofString "a,\r\nb", Text.ofString "a,\r\nb /*\r\n*/"⟩ },
            .declaration { property := ['c'], value := ['d'],
                           between := Text.ofString ":\r\n    " }] := by
    decide +kernel
  obtain ⟨t, ht, hitems⟩ := exists_of_map_parse hitems
  obtain ⟨s, hs, hst⟩ :=
    (parse_crlf "in" (by decide +kernel) (by decide +kernel)).exists_ok ht
  exact ⟨s, t, hs, ht, hst, hitems⟩

end Sheet

end OffsideCss
