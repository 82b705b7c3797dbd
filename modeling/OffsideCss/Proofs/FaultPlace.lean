import Mathlib.Data.List.Induction
import OffsideCss.Proofs.DraftRun
import OffsideCss.Proofs.StatementText

/-! Where faults are found.  A text is read as a sheet, or else the error marks a part of the text: its
span, line and column all tell where this part stands, and the part is what the cause blames. -/

namespace OffsideCss

open Token (join scan)

theorem Position.line_after (p : Position) (t : Text) :
    (p.after t).line = p.line + t.count '\n' := by
  induction t using List.reverseRecOn with
  | nil => rfl
  | append_singleton t c ih =>
    by_cases hc : c = '\n' <;> simp [Position.next, hc, ih]
    omega

theorem Position.column_after_first (t : Text) :
    (Position.first.after t).column = 1 + (t.reverse.takeWhile (· ≠ '\n')).length := by
  induction t using List.reverseRecOn with
  | nil => rfl
  | append_singleton t c ih =>
    by_cases hc : c = '\n'
    · simp [Position.next, hc]
    · simp [Position.next, hc, ih]
      omega

theorem Text.slice?_append (before text rest : Text) :
    (before ++ text ++ rest).slice? ⟨before.bytes, before.bytes + text.bytes⟩ = some text := by
  have hle : before.bytes ≤ before.bytes + text.bytes := Nat.le_add_right _ _
  simp only [slice?, hle, if_true, List.append_assoc, cut?_append, Nat.add_sub_cancel_left,
    Option.bind_eq_bind, Option.bind_some]
  rfl

/-- The statements of a text whose brackets, strings and comments are all closed. -/
def Statement.ofText (source : Text) : List Statement :=
  match Line.ofTokens (scan source) with
  | .ok (lines, _) => group lines
  | .error _ => []

/-- Whether `text`, between `before` and `rest`, is the whole indentation of a line. -/
structure Text.Indents (before text rest : Text) : Prop where
  start : before = [] ∨ before.getLast? = some '\n'
  blank : ∀ c ∈ text, isSpacing c = true
  stop : rest.atSpacing = false

/-- Whether `text` is the whole indentation of the line that a statement of `source` begins with. -/
def Statement.Indents (source before text rest : Text) : Prop :=
  Text.Indents before text rest ∧
    ∃ s ∈ ofText source, s.first.indent = text ∧ s.first.place = Place.first.after before

/-- Whether `text`, which stands in `source` between `before` and `rest`, is what a cause blames. -/
def Cause.Blames (source before text rest : Text) : Cause → Prop
  | unnecessarySemicolon => text = [';']
  | unnecessaryBrace => text = ['\x7b'] ∨ text = ['\x7d']
  | unnamedAtRule => text = ['@']
  | unclosedBracket => text = ['(']
  | unclosedString => ∃ quote, isQuote quote = true ∧ text = [quote]
  | unclosedComment => text = ['/'] ∧ rest.head? = some '*'
  | firstLineIndent => Statement.Indents source before text rest
  | wrongIndent _ actual => Statement.Indents source before text rest ∧ actual = text.length
  | mixedIndent => ∃ c start front back rest', text = [c] ∧ before = start ++ front ∧
      rest = back ++ rest' ∧ Statement.Indents source start (front ++ c :: back) rest' ∧
      ∃ style, Draft.styleOf (Statement.ofText source) = some style ∧ c ≠ style
  | unnamedDeclaration | propertySeparator => True
  | unattachable _ => False

/-- Whether an error marks the part `text` of `source` that stands between `before` and `rest`. -/
structure ParseError.Marks (e : ParseError) (source before text rest : Text) : Prop where
  split : source = before ++ text ++ rest
  nonempty : text ≠ []
  start : e.span.start = before.bytes
  slice : source.slice? e.span = some text
  line : e.position.line = 1 + before.count '\n'
  column : e.position.column = 1 + (before.reverse.takeWhile (· ≠ '\n')).length
  blames : e.cause.Blames source before text rest

/-- Whether a fault stands behind `before`, and its cause blames its text. -/
structure Fault.Marks (f : Fault) (source before rest : Text) : Prop where
  split : source = before ++ f.text ++ rest
  nonempty : f.text ≠ []
  place : f.place = Place.first.after before
  blames : f.cause.Blames source before f.text rest

theorem Fault.Marks.toError {f : Fault} {source before rest : Text}
    (h : f.Marks source before rest) (name : String) :
    (f.toError name).Marks source before f.text rest where
  split := h.split
  nonempty := h.nonempty
  start := by
    rw [Fault.toError, h.place]
    exact Nat.zero_add _
  slice := by
    rw [Fault.toError, h.place]
    simpa [Place.span, Place.after, Place.first, ← h.split] using
      Text.slice?_append before f.text rest
  line := by
    rw [Fault.toError, h.place]
    exact Position.line_after .first before
  column := by
    rw [Fault.toError, h.place]
    exact Position.column_after_first before
  blames := h.blames

/-! ### Strings, comments and brackets that are not closed -/

theorem Token.join_split {source : Text} {pre post : List Token} {t : Token}
    (h : scan source = pre ++ t :: post) : source = join pre ++ t.text ++ join post := by
  rw [← join_scan source, h]
  simp

namespace Line

theorem marks_unclosedFault {source : Text} {place : Place} {t : Token}
    (h : Token.locate? (·.kind = .unclosed) .first (scan source) = some (place, t)) :
    ∃ before rest, (unclosedFault place t).Marks source before rest := by
  obtain ⟨pre, post, hts, rfl, hk⟩ := Token.locate?_eq_some h
  have hsource := Token.join_split hts
  have hspells := Token.spells_of_mem_scan
    (show t ∈ scan source by simp [hts])
  rw [show t.kind = .unclosed by simpa using hk] at hspells
  rcases hspells with ⟨quote, inside, hq, ht⟩ | ⟨inside, ht⟩
  · have hne : ¬quote = '/' := by rintro rfl; simp [isQuote] at hq
    refine ⟨join pre, inside ++ join post, ?_, by simp [unclosedFault, ht], rfl, ?_⟩
    · simp [unclosedFault, ht, hsource]
    · simp [unclosedFault, ht, hne, Cause.Blames, hq]
  · refine ⟨join pre, '*' :: inside ++ join post, ?_, by simp [unclosedFault, ht], rfl, ?_⟩
    · simp [unclosedFault, ht, hsource]
    · simp [unclosedFault, ht, Cause.Blames]

/-- An open parenthesis is remembered where it stands. -/
theorem mem_rows_opened {place found : Place} {opened : List Place} {ts : List Token}
    (h : found ∈ (rows place opened ts).2) : found ∈ opened ∨
      ∃ pre t post, ts = pre ++ t :: post ∧ t.kind = .leftParen ∧
        found = place.after (join pre) := by
  induction ts generalizing place opened with
  | nil => exact .inl h
  | cons t ts ih =>
    have hrows : (rows place opened (t :: ts)).2 =
        (rows (place.after t.text) (bracketsAfter opened place t) ts).2 := by
      simp only [rows]
      split <;> rfl
    rcases ih (hrows ▸ h) with hin | ⟨pre, u, post, rfl, hk, rfl⟩
    · unfold bracketsAfter at hin
      split at hin
      · next hk =>
        rcases List.mem_cons.1 hin with rfl | hin
        · exact .inr ⟨[], t, ts, rfl, hk, rfl⟩
        · exact .inl hin
      · exact .inl (List.mem_of_mem_tail hin)
      · exact .inl hin
    · exact .inr ⟨t :: pre, u, post, rfl, hk, by simp⟩

theorem marks_of_ofTokens {source : Text} {fault : Fault}
    (h : ofTokens (scan source) = .error fault) : ∃ before rest, fault.Marks source before rest := by
  unfold ofTokens at h
  split at h
  · next place t hlocate =>
    obtain rfl := Except.error.inj h
    exact marks_unclosedFault hlocate
  · cases hr : rows .first [] (scan source) with
    | mk rs opened =>
      simp only [hr] at h
      split at h
      · next place hlast =>
        obtain rfl := Except.error.inj h
        have hmem : place ∈ (rows .first [] (scan source)).2 := by
          rw [hr]
          exact List.mem_of_getLast? hlast
        rcases mem_rows_opened hmem with hin | ⟨pre, t, post, hts, hk, rfl⟩
        · simp at hin
        · have hspells := Token.spells_of_mem_scan
            (show t ∈ scan source by simp [hts])
          rw [hk] at hspells
          have ht : t.text = ['('] := hspells
          exact ⟨join pre, join post, by rw [Token.join_split hts, ht], by simp, rfl, rfl⟩
      · simp at h

end Line

/-! ### Statements that cannot be read -/

namespace Statement

/-- How the cause of a fault and the token it shows go together. -/
inductive Refuses (s : Statement) : Cause → List Token → Token → Prop
  | semicolon {pre : List Token} {t : Token} :
      t.kind = .semicolon → Refuses s .unnecessarySemicolon pre t
  | brace {pre : List Token} {t : Token} :
      t.kind.isBrace = true → Refuses s .unnecessaryBrace pre t
  | unnamedAtRule : s.kind = .atRule → s.first.head.text.drop 1 = [] →
      Refuses s .unnamedAtRule [] s.first.head
  | unnamedDeclaration : Refuses s .unnamedDeclaration [] s.first.head
  | separator {pre : List Token} {t : Token} :
      t.kind.isTrivia = false → Refuses s .propertySeparator pre t

/-- Whether a fault shows a token of a statement where this token stands. -/
def Shows (s : Statement) (f : Fault) : Prop :=
  ∃ pre t post, s.tokens = pre ++ t :: post ∧ f.place = s.place.after (join pre) ∧
    f.text = t.text ∧ s.Refuses f.cause pre t

variable {s : Statement} {fault : Fault}

/-- Whether a result, if it is a fault, shows a token of the statement. -/
def Showing {α : Type} (s : Statement) (x : Except Fault α) : Prop :=
  ∀ fault, x = .error fault → s.Shows fault

namespace Showing

variable {α β : Type} {x : Except Fault α}

theorem ok (a : α) : s.Showing (.ok a) := by
  intro fault h
  cases h

theorem error (h : s.Shows fault) : s.Showing (.error fault : Except Fault α) := by
  rintro _ ⟨⟩
  exact h

theorem bind {f : α → Except Fault β} (hx : s.Showing x) (hf : ∀ a, s.Showing (f a)) :
    s.Showing (x >>= f) := by
  cases x with
  | error fault => exact .error (hx fault rfl)
  | ok a => exact hf a

theorem map (hx : s.Showing x) (f : α → β) : s.Showing (x.map f) := by
  cases x with
  | error fault => exact .error (hx fault rfl)
  | ok a => exact .ok (f a)

end Showing

theorem showing_forbid {cause : Cause} {p : Token → Bool}
    (hp : ∀ pre t, p t = true → s.Refuses cause pre t) : s.Showing (s.forbid cause p) := by
  unfold forbid
  cases hl : Token.locate? p s.place s.tokens with
  | none => exact .ok ()
  | some found =>
    obtain ⟨pre, post, hts, hplace, ht⟩ := Token.locate?_eq_some hl
    exact .error ⟨pre, _, post, hts, hplace, rfl, hp pre _ ht⟩

theorem showing_forbidSemicolon (s : Statement) : s.Showing s.forbidSemicolon :=
  showing_forbid fun _ _ ht => .semicolon (of_decide_eq_true ht)

theorem showing_forbidBrace (s : Statement) : s.Showing s.forbidBrace :=
  showing_forbid fun _ _ ht => .brace ht

theorem showing_atRule (hk : s.kind = .atRule) : s.Showing s.atRule := by
  refine s.showing_forbidSemicolon.bind fun _ => s.showing_forbidBrace.bind fun _ => ?_
  dsimp only
  split
  · next hn => exact .error ⟨[], s.first.head, s.rest, rfl, rfl, rfl, .unnamedAtRule hk hn⟩
  · exact .ok _

theorem showing_rule (s : Statement) : s.Showing s.rule :=
  s.showing_forbidBrace.bind fun _ => .ok _

/-- What stands between the name of a property and its colon is shown where it stands. -/
theorem shows_separator {before after : List Token} {colon t : Token} {place : Place}
    (hsep : Token.splitSeparator? 0 s.tokens = some (before, colon, after))
    (hl : Token.locate? (fun t => !t.kind.isTrivia)
      (s.place.after (join (before.takeWhile fun t => !t.kind.isTrivia)))
      (before.dropWhile fun t => !t.kind.isTrivia) = some (place, t)) :
    s.Shows ⟨.propertySeparator, place, t.text⟩ := by
  obtain ⟨pre, post, hts, hplace, ht⟩ := Token.locate?_eq_some hl
  have hbefore := List.takeWhile_append_dropWhile (l := before) (p := fun t => !t.kind.isTrivia)
  have htokens := Token.splitSeparator?_append hsep
  rw [hts] at hbefore
  refine ⟨before.takeWhile (fun t => !t.kind.isTrivia) ++ pre, t, post ++ colon :: after, ?_, ?_, rfl,
    .separator (by simpa using ht)⟩
  · simpa [htokens] using congrArg (· ++ colon :: after) hbefore.symm
  · rw [hplace, Token.join_append, Place.after_append]

theorem showing_declaration (s : Statement) : s.Showing s.declaration := by
  have hunnamed : s.Shows ⟨.unnamedDeclaration, s.place, s.first.head.text⟩ :=
    ⟨[], s.first.head, s.rest, rfl, rfl, rfl, .unnamedDeclaration⟩
  refine s.showing_forbidSemicolon.bind fun _ => s.showing_forbidBrace.bind fun _ => ?_
  dsimp only
  split
  · exact .error hunnamed
  · next before colon after hsep =>
    split
    · next place t hl => exact .error (shows_separator hsep hl)
    · split
      · exact .error hunnamed
      · exact .ok _

theorem showing_item (s : Statement) : s.Showing s.item := by
  unfold item
  split
  · exact .ok _
  · next hk => exact (showing_atRule hk).map _
  · exact s.showing_rule.map _
  · exact s.showing_declaration.map _

theorem shows_of_node (h : s.node = .error fault) : s.Shows fault :=
  s.showing_item.map _ fault h

variable {source : Text} {lines : List Line} {after : Text}

theorem place_of_group (h : Line.ofTokens (scan source) = .ok (lines, after))
    (hs : s ∈ group lines) : ∃ before rest,
      source = before ++ s.first.indent ++ (join s.tokens ++ rest) ∧
      s.first.place = Place.first.after before ∧
      Text.Indents before s.first.indent (join s.tokens ++ rest) := by
  obtain ⟨pre, post, hgroup⟩ := List.append_of_mem hs
  have hlines : lines = pre.flatMap Statement.lines ++ s.first :: (s.more ++ post.flatMap Statement.lines) := by
    rw [← flatMap_lines_group lines, hgroup]
    simp [Statement.lines]
  have hplace := Line.place_of_ofTokens (hlines ▸ h)
  have hlays : Line.Lays source (lines.map Line.unplaced) after := ⟨lines, h, rfl⟩
  rw [hlines, List.map_append, List.map_cons] at hlays
  obtain ⟨u, v, hsource, -, hends, hu, hv⟩ := hlays.split
  obtain ⟨w, hw, hblank, hlast⟩ := hv.unindent rfl
  have hbefore := hu.text_eq
  rw [Line.text_unplaced] at hbefore
  have hrest := hlast.text_eq
  rw [List.flatMap_cons, Line.text_unplaced, List.flatMap_append] at hrest
  have htext : w = join s.tokens ++ ((post.flatMap Statement.lines).flatMap Line.text ++ after) := by
    rw [hrest, join_tokens]
    simp [Line.text, Line.lead, Line.unplaced, Line.tokens]
  rw [htext] at hw
  refine ⟨u, (post.flatMap Statement.lines).flatMap Line.text ++ after, ?_,
    hbefore ▸ hplace, ?_, hblank, ?_⟩
  · rw [hsource, hw, List.append_assoc]
    rfl
  · exact hends.imp_right Line.EndsRow.getLast?_eq
  · rw [← htext]
    exact hlast.atSpacing_eq_false rfl rfl

theorem marks_of_shows (h : Line.ofTokens (scan source) = .ok (lines, after))
    (hs : s ∈ group lines) (hf : s.Shows fault) : ∃ before rest, fault.Marks source before rest := by
  obtain ⟨cause, place, text⟩ := fault
  obtain ⟨pre, t, post, hts, rfl, rfl, hrefuses⟩ := hf
  obtain ⟨before, rest, hsource, hfirst, -⟩ := place_of_group h hs
  have hhead := Line.head_of_ofTokens h (mem_of_mem_group hs List.mem_cons_self)
  have hkind : t.kind ≠ .space := by
    rintro hk
    cases hrefuses with
    | semicolon hk' => simp [hk] at hk'
    | brace hk' => simp [hk, TokenKind.isBrace] at hk'
    | unnamedAtRule => simp [Token.isWhitespace, hk, TokenKind.isWhitespace] at hhead
    | unnamedDeclaration => simp [Token.isWhitespace, hk, TokenKind.isWhitespace] at hhead
    | separator hk' => simp [hk, TokenKind.isTrivia, TokenKind.isWhitespace] at hk'
  have hmem : t ∈ scan source := mem_scan_of_mem_tokens h hs (by simp [hts]) hkind
  have hspells : t.kind.Spells t.text := Token.spells_of_mem_scanFrom hmem
  refine ⟨before ++ s.first.indent ++ join pre, join post ++ rest, ?_,
    Token.text_ne_nil_of_mem_scanFrom hmem, ?_, ?_⟩
  · rw [hsource, hts]
    simp
  · rw [place, hfirst]
    simp
  · cases hrefuses with
    | semicolon hk =>
      rw [hk] at hspells
      exact hspells
    | brace hk =>
      cases htk : t.kind with
      | leftBrace => exact .inl (by rw [htk] at hspells; exact hspells)
      | rightBrace => exact .inr (by rw [htk] at hspells; exact hspells)
      | _ => simp [htk, TokenKind.isBrace] at hk
    | unnamedAtRule hk hn =>
      rw [(formed_of_mem_group h hs).atRule hk] at hspells
      obtain ⟨name, hname, -⟩ := hspells
      have hnil : name = [] := by simpa [hname] using hn
      simp [Cause.Blames, hname, hnil]
    | unnamedDeclaration => trivial
    | separator => trivial

theorem ofText_eq (h : Line.ofTokens (scan source) = .ok (lines, after)) :
    ofText source = group lines := by
  rw [ofText, h]

/-- An indentation that is refused as a whole is marked. -/
theorem marks_whole {f : IndentFault} {before rest : Text}
    (hsource : source = before ++ s.first.indent ++ rest)
    (hplace : s.first.place = Place.first.after before)
    (hindents : Indents source before s.first.indent rest)
    (hf : Indentation.IndentFault.ShowsAll f s.first.indent) :
    Fault.Marks ⟨f.cause, s.first.place.after f.before, f.text⟩ source before rest := by
  obtain ⟨hbefore, htext, hne, hcause⟩ := hf
  refine ⟨by rw [htext, hsource], by rwa [htext], ?_, ?_⟩
  · rw [hbefore, hplace]
    rfl
  · rcases hcause with hcause | ⟨expected, hcause⟩
    · rw [hcause, htext]
      exact hindents
    · rw [hcause, htext]
      exact ⟨hindents, rfl⟩

/-- A character in an indentation that is not the one to indent with is marked. -/
theorem marks_mixed (h : Line.ofTokens (scan source) = .ok (lines, after))
    {pre post : List Statement} (hgroup : group lines = pre ++ s :: post) {m : Indentation}
    (hstyle : m.style = Draft.styleOf pre) {f : IndentFault} {before rest : Text}
    (hsource : source = before ++ s.first.indent ++ rest)
    (hplace : s.first.place = Place.first.after before)
    (hindents : Indents source before s.first.indent rest)
    (hf : m.checkStyle s.first.indent = .error f) : ∃ before rest,
      Fault.Marks ⟨f.cause, s.first.place.after f.before, f.text⟩ source before rest := by
  obtain ⟨hcause, c, back, hindent, htext, hdiffers⟩ := Indentation.checkStyle_eq_error hf
  rw [hindent] at hsource hindents
  refine ⟨before ++ f.before, back ++ rest, ?_, by simp [htext], ?_, ?_⟩
  · rw [hsource, htext]
    simp
  · rw [hplace, Place.after_append]
  · obtain ⟨style, hhead⟩ : ∃ style, s.first.indent.head? = some style := by
      cases hi : s.first.indent with
      | nil => simp [hi] at hindent
      | cons e indent => exact ⟨e, rfl⟩
    rw [hcause, htext]
    refine ⟨c, before, f.before, back, rest, rfl, rfl, rfl, hindents,
      (Draft.styleOf pre).getD style, ?_, ?_⟩
    · rw [ofText_eq h, hgroup, Draft.styleOf, List.findSome?_append, List.findSome?_cons, hhead,
        ← Draft.styleOf]
      cases Draft.styleOf pre <;> rfl
    · refine hdiffers _ ?_
      rw [hstyle, hhead]
      cases Draft.styleOf pre <;> rfl

/-- An indentation that is refused is marked, or the character in it that is not to indent with. -/
theorem marks_of_enter (h : Line.ofTokens (scan source) = .ok (lines, after))
    {pre post : List Statement} (hgroup : group lines = pre ++ s :: post) {d : Draft}
    {vs : List Sheet.Visit} (hd : d.Reads vs) (hstyle : d.indentation.style = Draft.styleOf pre)
    (hf : d.enter s.first = .error fault) : ∃ before rest, fault.Marks source before rest := by
  have hs : s ∈ group lines := by simp [hgroup]
  obtain ⟨before, rest, hsource, hplace, hindents⟩ := place_of_group h hs
  have hindents : Indents source before s.first.indent (join s.tokens ++ rest) :=
    ⟨hindents, s, ofText_eq h ▸ hs, rfl, hplace⟩
  obtain ⟨f, henter, rfl⟩ := Draft.enter_eq_error hf
  rcases Indentation.fault_of_enter hd.ground henter with hwhole | hmixed
  · exact ⟨_, _, marks_whole hsource hplace hindents hwhole⟩
  · exact marks_mixed h hgroup hstyle hsource hplace hindents hmixed

end Statement

/-! ### Reading a text -/

namespace Sheet

theorem marks_of_read {name : String} {source : Text} {fault : Fault}
    (h : read name source = .error fault) : ∃ before rest, fault.Marks source before rest := by
  unfold read at h
  cases hl : Line.ofTokens (scan source) with
  | error f =>
    obtain rfl : f = fault := by simpa [hl, bind, Except.bind] using h
    exact Line.marks_of_ofTokens hl
  | ok layout =>
    obtain ⟨lines, after⟩ := layout
    simp only [hl, bind, Except.bind] at h
    cases hd : (Statement.group lines).foldlM Draft.add {} with
    | ok draft => simp [hd, pure, Except.pure] at h
    | error f =>
      obtain rfl : f = fault := by simpa [hd] using h
      obtain ⟨pre, s, post, d, hgroup, hpre, hadd⟩ := Draft.foldlM_error hd
      obtain ⟨vs, hreads, -, hstyle⟩ := Draft.Reads.empty.foldlM hpre
      rcases hreads.add_error hadd with henter | hnode
      · exact Statement.marks_of_enter hl hgroup hreads (by simpa using hstyle) henter
      · exact Statement.marks_of_shows hl (by simp [hgroup]) (Statement.shows_of_node hnode)

/-- A text is read as a sheet, or an error marks the part of it that is to blame.  No error comes from
the sheet. -/
theorem parse_ok_or_marks (name : String) (source : Text) :
    (∃ s, parse name source = .ok s) ∨
      ∃ e before text rest, parse name source = .error e ∧ e.name = name ∧
        (∀ error, e.cause ≠ .unattachable error) ∧ e.Marks source before text rest := by
  unfold parse
  cases hr : read name source with
  | ok s => exact .inl ⟨s, rfl⟩
  | error fault =>
    obtain ⟨before, rest, hmarks⟩ := marks_of_read hr
    refine .inr ⟨_, before, fault.text, rest, rfl, rfl, fun error he => ?_, hmarks.toError name⟩
    have hblames := hmarks.blames
    rw [show fault.cause = .unattachable error from he] at hblames
    exact hblames

end Sheet

end OffsideCss
