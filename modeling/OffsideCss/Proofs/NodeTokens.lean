import OffsideCss.Proofs.OwnText
import OffsideCss.Proofs.SourceRange
import OffsideCss.Proofs.Weaving

/-! The tokens of a node.  Each token of a text that is read as a sheet goes to the lead of a node, to one
part of its item, or behind the last node, and the parts tell which tokens they can have. -/

namespace OffsideCss

open Token (join scan White Expands)

/-- Whether a text neither begins nor ends with a blank. -/
def Text.Trimmed (t : Text) : Prop :=
  (∀ c ∈ t.head?, isBlank c = false) ∧ ∀ c ∈ t.getLast?, isBlank c = false

theorem Text.trimmed_trim (t : Text) : t.trim.Trimmed := ⟨head_trim t, last_trim t⟩

/-- Whether a part of the spelling of a node was read from whitespace tokens. -/
structure Token.Spaces (ts : List Token) (spelled : Option Text) : Prop where
  spelled : spelled = some (join ts)
  isWhite : (join ts).IsWhite

/-- Whether a field, with its literal text where that differs, was read from tokens. -/
structure Token.Captures (ts : List Token) (field : Text) (literal : Option Literal) : Prop where
  trimmed : field.Trimmed
  read : (join (bare ts)).trim = field
  present : literal.isSome = true ↔ join ts ≠ field
  literal : ∀ l ∈ literal, l.value = field ∧ l.text = join ts

/-- Whether an item was read from tokens, each of which has its place in one part of it. -/
inductive Item.MadeOf : Item → List Token → Prop
  | atRule {a : AtRule} {head : Token} {space params trailing : List Token} :
      head.kind = .atWord → head.text = '@' :: a.name → a.name ≠ [] →
      Token.Spaces space a.afterName → Token.Captures params a.params a.paramsLiteral →
      Token.Spaces trailing a.trailing → MadeOf (.atRule a) (head :: (space ++ params ++ trailing))
  | rule {r : Rule} {selector trailing : List Token} :
      Token.Captures selector r.selector r.selectorLiteral → Token.Spaces trailing r.trailing →
      MadeOf (.rule r) (selector ++ trailing)
  | declaration {d : Declaration} {name trivia space value : List Token} {colon : Token} :
      d.property = join name → d.property ≠ [] → (∀ t ∈ name, t.kind.isTrivia = false) →
      d.between = some (join (trivia ++ colon :: space)) → (∀ t ∈ trivia, t.kind.isTrivia = true) →
      colon = ⟨.colon, [':']⟩ → White space → Token.Captures value d.value d.valueLiteral →
      MadeOf (.declaration d) (name ++ (trivia ++ colon :: (space ++ value)))
  | lineComment {c : Comment} {head : Token} {left right : Text} :
      head.kind = .lineComment → head.text = '/' :: '/' :: (left ++ c.text ++ right) →
      c.left = some left → c.right = some right → (∀ d ∈ left ++ right, isBlank d = true) →
      c.text.Trimmed → c.trailing = none → MadeOf (.comment c) [head]
  | blockComment {c : Comment} {head : Token} {left right : Text} {trailing : List Token} :
      head.kind = .blockComment → head.text = '/' :: '*' :: (left ++ c.text ++ right) ++ ['*', '/'] →
      c.left = some left → c.right = some right → (∀ d ∈ left ++ right, isBlank d = true) →
      c.text.Trimmed → Token.Spaces trailing c.trailing → MadeOf (.comment c) (head :: trailing)

namespace Token

variable {ts us : List Token}

theorem captures_clean (ts : List Token) : Captures ts (clean ts).1 (clean ts).2 := by
  refine ⟨Text.trimmed_trim _, rfl, ?_, ?_⟩
  · simp only [clean]
    split <;> simp_all
  · simp only [clean]
    split
    · simp
    · rintro l ⟨⟩
      exact ⟨rfl, rfl⟩

theorem Captures.expand {field : Text} {literal : Option Literal} (h : Captures us field literal)
    (he : Expands us ts) : Captures ts field literal := by
  refine ⟨h.trimmed, ?_, ?_, ?_⟩
  · rw [he.join_bare, h.read]
  · rw [he.join_eq, h.present]
  · rw [he.join_eq]
    exact h.literal

theorem White.spaces (h : White ts) (hs : ∀ t ∈ ts, t.kind.Spells t.text) :
    Spaces ts (some (join ts)) :=
  ⟨rfl, h.isWhite_join hs⟩

end Token

theorem Text.trimParts_blank (t : Text) :
    ∀ c ∈ t.trimParts.1 ++ t.trimParts.2.2, isBlank c = true := by
  refine List.forall_mem_append.2 ⟨?_, ?_⟩
  · intro c hc
    exact List.mem_takeWhile_imp hc
  · intro c hc
    exact List.mem_takeWhile_imp (List.mem_reverse.1 hc)

namespace Statement

variable {s : Statement} {i : Item} {ts : List Token}

theorem madeOf_comment (hk : s.kind = .comment) (hf : s.Formed) (he : Expands s.tokens ts)
    (hs : ∀ t ∈ ts, t.kind.Spells t.text) : (Item.comment s.comment).MadeOf ts := by
  have hspells := hf.spells
  by_cases hl : s.first.head.kind = .lineComment
  · rw [hl] at hspells
    obtain ⟨body, hb⟩ := hspells
    rw [tokens, hf.lineComment hk hl] at he
    obtain ⟨ts, rfl, h⟩ := he.of_cons (by simp [Token.isWhitespace, hl, TokenKind.isWhitespace])
    cases h
    simp only [comment, hl, if_true, hb, List.drop_succ_cons, List.drop_zero]
    refine .lineComment hl ?_ rfl rfl (Text.trimParts_blank body) (Text.trimmed_trim body) rfl
    rw [hb, Text.trimParts_append]
  · have hblock := hf.blockComment hk hl
    rw [hblock] at hspells
    obtain ⟨body, hb⟩ := hspells
    have hinside := hb ▸ Text.inside_blockComment body
    obtain ⟨ts, rfl, h⟩ := he.of_cons (by simp [Token.isWhitespace, hblock, TokenKind.isWhitespace])
    have hwhite : White ts := h.white fun t ht => by
      simp [Token.isWhitespace, hf.trailing hk t ht, TokenKind.isWhitespace]
    simp only [comment, hl, if_false, hinside]
    refine .blockComment hblock ?_ rfl rfl (Text.trimParts_blank body) (Text.trimmed_trim body) ?_
    · rw [hb, Text.trimParts_append]
    · rw [← h.join_eq]
      exact hwhite.spaces fun t ht => hs t (List.mem_cons_of_mem _ ht)

/-- The tokens of an at-rule: its name, and the parameters between whitespace. -/
theorem split_atRule (hk : s.kind = .atRule) (hf : s.Formed) (he : Expands s.tokens ts) :
    ∃ space params trailing, ts = s.first.head :: (space ++ params ++ trailing) ∧
      (White space ∧ s.atRuleOf.afterName = some (join space)) ∧
      Token.Captures params s.atRuleOf.params s.atRuleOf.paramsLiteral ∧
      White trailing ∧ s.atRuleOf.trailing = some (join trailing) := by
  have hat := hf.atRule hk
  obtain ⟨ts, rfl, h⟩ := he.of_cons (by simp [Token.isWhitespace, hat, TokenKind.isWhitespace])
  rw [← Token.splitTrailing_append s.rest,
    ← Token.splitLeading_append (Token.splitTrailing s.rest).1] at h
  obtain ⟨header, trailing, rfl, hheader, htrailing⟩ := h.split
  obtain ⟨space, params, rfl, hspace, hparams⟩ := hheader.split
  refine ⟨space, params, trailing, rfl, ⟨hspace.white (Token.white_splitLeading _), ?_⟩,
    (Token.captures_clean _).expand hparams, htrailing.white (Token.white_splitTrailing _), ?_⟩
  · rw [atRuleOf, ← hspace.join_eq]
  · rw [atRuleOf, ← htrailing.join_eq]

theorem madeOf_atRule (hk : s.kind = .atRule) (hf : s.Formed) (he : Expands s.tokens ts)
    (hs : ∀ t ∈ ts, t.kind.Spells t.text) (hname : s.first.head.text.drop 1 ≠ []) :
    (Item.atRule s.atRuleOf).MadeOf ts := by
  have hat := hf.atRule hk
  have hspells := hf.spells
  rw [hat] at hspells
  obtain ⟨name, hn, -⟩ := hspells
  obtain ⟨space, params, trailing, rfl, ⟨hspace, hafter⟩, hparams, htrailing, hbehind⟩ :=
    split_atRule hk hf he
  refine .atRule hat ?_ hname ?_ hparams ?_
  · simp [atRuleOf, hn]
  · exact hafter ▸ hspace.spaces fun t ht => hs t (by simp [ht])
  · exact hbehind ▸ htrailing.spaces fun t ht => hs t (by simp [ht])

/-- The tokens of a rule: its selector, and the whitespace behind that. -/
theorem split_rule (he : Expands s.tokens ts) :
    ∃ selector trailing, ts = selector ++ trailing ∧
      Token.Captures selector s.ruleOf.selector s.ruleOf.selectorLiteral ∧
      White trailing ∧ s.ruleOf.trailing = some (join trailing) := by
  rw [← Token.splitTrailing_append s.tokens] at he
  obtain ⟨selector, trailing, rfl, hselector, htrailing⟩ := he.split
  refine ⟨selector, trailing, rfl, (Token.captures_clean _).expand hselector,
    htrailing.white (Token.white_splitTrailing _), ?_⟩
  rw [ruleOf, ← htrailing.join_eq]

theorem madeOf_rule (he : Expands s.tokens ts) (hs : ∀ t ∈ ts, t.kind.Spells t.text) :
    (Item.rule s.ruleOf).MadeOf ts := by
  obtain ⟨selector, trailing, rfl, hselector, htrailing, hbehind⟩ := split_rule he
  exact .rule hselector (hbehind ▸ htrailing.spaces fun t ht => hs t (by simp [ht]))

section Declaration

variable {before after : List Token} {colon : Token}

/-- The tokens of a declaration: its property, which has no whitespace to expand, what is skipped up to the
separator, and the value behind whitespace. -/
theorem split_declaration (he : Expands s.tokens ts)
    (hsep : Token.splitSeparator? 0 s.tokens = some (before, colon, after)) :
    ∃ trivia space value,
      ts = (before.takeWhile fun t => !t.kind.isTrivia) ++ (trivia ++ colon :: (space ++ value)) ∧
      Expands (before.dropWhile fun t => !t.kind.isTrivia) trivia ∧
      (White space ∧ join space = join (Token.splitLeading after).1) ∧
      Token.Captures value (declarationOf before colon after).value
        (declarationOf before colon after).valueLiteral := by
  have hk := Token.kind_of_splitSeparator? hsep
  rw [← Token.splitSeparator?_append hsep, ← Token.splitLeading_append after,
    ← List.takeWhile_append_dropWhile (l := before) (p := fun t => !t.kind.isTrivia),
    List.append_assoc] at he
  obtain ⟨name, ts, rfl, hname, hrest⟩ := he.split
  obtain ⟨trivia, ts, rfl, htriv, hbehind⟩ := hrest.split
  obtain ⟨ts, rfl, hafter⟩ :=
    hbehind.of_cons (by simp [Token.isWhitespace, hk, TokenKind.isWhitespace])
  obtain ⟨space, value, rfl, hspace, hvalue⟩ := hafter.split
  obtain rfl := hname.eq_of_not_white fun t ht => Token.isWhitespace_of_mem_name ht
  exact ⟨trivia, space, value, rfl, htriv, ⟨hspace.white (Token.white_splitLeading _), hspace.join_eq⟩,
    (Token.captures_clean _).expand hvalue⟩

theorem madeOf_declaration (he : Expands s.tokens ts) (hs : ∀ t ∈ ts, t.kind.Spells t.text)
    (hsep : Token.splitSeparator? 0 s.tokens = some (before, colon, after))
    (htrivia : ∀ t ∈ before.dropWhile fun t => !t.kind.isTrivia, t.kind.isTrivia = true)
    (hne : (before.takeWhile fun t => !t.kind.isTrivia) ≠ []) :
    (Item.declaration (declarationOf before colon after)).MadeOf ts := by
  have hk := Token.kind_of_splitSeparator? hsep
  obtain ⟨trivia, space, value, rfl, htriv, ⟨hspace, hjoin⟩, hvalue⟩ := split_declaration he hsep
  have hcolon : colon = ⟨.colon, [':']⟩ := by
    have hspells := hs colon (by simp)
    rw [hk] at hspells
    rw [← hk, ← show colon.text = [':'] from hspells]
  refine .declaration rfl ?_ ?_ ?_ ?_ hcolon hspace hvalue
  · obtain ⟨t, rest, hcons⟩ := List.exists_cons_of_ne_nil hne
    have hmem : t ∈ before.takeWhile fun t => !t.kind.isTrivia := hcons ▸ List.mem_cons_self
    obtain ⟨c, u, htext, -⟩ := Token.solid_of_spells (hs t (List.mem_append_left _ hmem))
      (Token.isWhitespace_of_mem_name hmem)
    simp [declarationOf, hcons, htext]
  · intro t ht
    simpa using List.mem_takeWhile_imp ht
  · rw [declarationOf, ← htriv.join_eq, ← hjoin]
    simp
  · exact htriv.forall_kind (p := fun k => k.isTrivia = true)
      (fun k hk => by simp [TokenKind.isTrivia, hk]) htrivia

end Declaration

/-- An item that a statement reads as is made of the tokens of the text that stand for those of the
statement. -/
theorem madeOf_of_item (h : s.item = .ok i) (hf : s.Formed) (he : Expands s.tokens ts)
    (hs : ∀ t ∈ ts, t.kind.Spells t.text) : i.MadeOf ts := by
  rcases item_eq_ok.1 h with ⟨hk, rfl⟩ | ⟨hk, a, ha, rfl⟩ | ⟨hk, r, hr, rfl⟩ | ⟨hk, d, hd, rfl⟩
  · exact madeOf_comment hk hf he hs
  · obtain ⟨-, hname, rfl⟩ := atRule_eq_ok.1 ha
    exact madeOf_atRule hk hf he hs hname
  · obtain ⟨-, rfl⟩ := rule_eq_ok.1 hr
    exact madeOf_rule he hs
  · obtain ⟨-, before, colon, after, hsep, htrivia, hne, rfl⟩ := declaration_eq_ok.1 hd
    exact madeOf_declaration he hs hsep htrivia hne

end Statement

/-! ### Braces and semicolons -/

theorem Statement.delimits_of_item {s : Statement} {i : Item} (h : s.item = .ok i) (hf : s.Formed) :
    ∀ t ∈ s.tokens, t.kind.isBrace = false ∧ (t.kind = .semicolon → s.kind = .rule) := by
  rcases item_eq_ok.1 h with ⟨hk, -⟩ | ⟨-, a, ha, -⟩ | ⟨hk, r, hr, -⟩ | ⟨-, d, hd, -⟩
  · refine List.forall_mem_cons.2 ⟨?_, ?_⟩
    · by_cases hl : s.first.head.kind = .lineComment
      · simp [hl, TokenKind.isBrace]
      · simp [hf.blockComment hk hl, TokenKind.isBrace]
    · intro t ht
      simp [hf.trailing hk t ht, TokenKind.isBrace]
  · intro t ht
    obtain ⟨hsemicolon, hbrace⟩ := (atRule_eq_ok.1 ha).1 t ht
    exact ⟨hbrace, fun hk => absurd hk hsemicolon⟩
  · intro t ht
    exact ⟨(rule_eq_ok.1 hr).1 t ht, fun _ => hk⟩
  · intro t ht
    obtain ⟨hsemicolon, hbrace⟩ := (declaration_eq_ok.1 hd).1 t ht
    exact ⟨hbrace, fun hk => absurd hk hsemicolon⟩

theorem TokenKind.delimits_of_isWhitespace {k : TokenKind} (h : k.isWhitespace = true) :
    k.isBrace = false ∧ k ≠ .semicolon := by
  cases k <;> simp_all [isWhitespace, isBrace]

theorem Token.not_white {t : Token} (hk : t.kind = .semicolon) {ts : List Token} (h : White ts) :
    t ∉ ts :=
  fun ht => (TokenKind.delimits_of_isWhitespace (h t ht)).2 hk

/-- The share that a semicolon belongs to, and what stands before it there. -/
theorem Share.exists_of_semicolon {shares : List Share} {rest a b : List Token} {t : Token}
    (hk : t.kind = .semicolon) (hleads : ∀ x ∈ shares, White x.lead) (hrest : White rest)
    (h : shares.flatMap tokens ++ rest = a ++ t :: b) : ∃ pre x post inside behind,
      shares = pre ++ x :: post ∧ x.own = inside ++ t :: behind ∧
        a = pre.flatMap tokens ++ (x.lead ++ inside) := by
  induction shares generalizing a with
  | nil =>
    obtain rfl : rest = a ++ t :: b := h
    exact absurd (List.mem_append_right a List.mem_cons_self) (Token.not_white hk hrest)
  | cons x shares ih =>
    obtain ⟨hlead, hleads⟩ := List.forall_mem_cons.1 hleads
    rw [List.flatMap_cons, List.append_assoc] at h
    rcases append_eq_append_cons h with ⟨a, rfl, hbehind⟩ | ⟨w, hx, -⟩
    · obtain ⟨pre, y, post, inside, behind, rfl, hy, rfl⟩ := ih hleads hbehind
      exact ⟨x :: pre, y, post, inside, behind, rfl, hy, by simp⟩
    · rcases append_eq_append_cons hx with ⟨inside, rfl, hown⟩ | ⟨w, hw, -⟩
      · exact ⟨[], x, shares, inside, w, rfl, hown, rfl⟩
      · exact absurd (hw ▸ List.mem_append_right a List.mem_cons_self) (Token.not_white hk hlead)

/-! ### Sheets that were read -/

/-- Whether a share is that of a statement that reads as an item, which is written as the passage. -/
structure Statement.Fills (t : Statement) (p : Passage) (x : Share) : Prop where
  formed : t.Formed
  read : ∃ i, t.item = .ok i
  passes : t.Passes p
  takes : t.Takes x

theorem Statement.Fills.text_eq {t : Statement} {p : Passage} {x : Share} (h : t.Fills p x) :
    p.text = join x.tokens := by
  rw [Passage.text, h.passes.lead, h.passes.own, ← h.takes.lead, ← h.takes.own.join_eq, Share.tokens,
    Token.join_append]

theorem Passage.flatMap_text_of_fills {ps : List Passage} {shares : List Share}
    (h : List.Forall₂ (fun p x => ∃ t : Statement, t.Fills p x) ps shares) :
    ps.flatMap text = join (shares.flatMap Share.tokens) := by
  induction h with
  | nil => rfl
  | cons hp _ ih =>
    obtain ⟨t, ht⟩ := hp
    rw [List.flatMap_cons, List.flatMap_cons, Token.join_append, ih, ht.text_eq]

/-- No token of a share is a brace, and only those of rules are semicolons. -/
theorem Statement.Fills.delimits {t : Statement} {p : Passage} {x : Share} (h : t.Fills p x) :
    ∀ tok ∈ x.tokens, tok.kind.isBrace = false ∧ (tok.kind = .semicolon → p.kind = .rule) := by
  have hwhite : ∀ k : TokenKind, k.isWhitespace = true →
      k.isBrace = false ∧ (k = .semicolon → t.kind = .rule) := by
    intro k hk
    obtain ⟨hbrace, hsemicolon⟩ := TokenKind.delimits_of_isWhitespace hk
    exact ⟨hbrace, fun hk => absurd hk hsemicolon⟩
  obtain ⟨i, hi⟩ := h.read
  rw [h.passes.kind]
  refine List.forall_mem_append.2 ⟨?_, ?_⟩
  · intro tok htok
    exact hwhite tok.kind (h.takes.white tok htok)
  · exact h.takes.own.forall_kind (p := fun k => k.isBrace = false ∧ (k = .semicolon → t.kind = .rule))
      hwhite (delimits_of_item hi h.formed)

namespace Sheet

variable {name : String} {source : Text} {s : Sheet}

/-- Whether a share is that of a node: it is written with kept spacing as the share is spelled, and its
item is made of the tokens behind the whitespace. -/
structure Owns (s : Sheet) (v : Visit) (x : Share) : Prop where
  before : Token.Spaces x.lead v.node.before
  own : v.node.item.write .kept (Spacing.kept.indent s) v.depth = join x.own
  item : v.node.item.MadeOf x.own

/-- Whether each token of a text goes to one part of one node of a sheet or behind the last one, no token
opens something that is never closed or is a brace, and the only semicolons are those in the headers of
rules. -/
structure Divides (s : Sheet) (source : Text) : Prop where
  nodes : s.outline.map (·.id) = List.range s.size
  shares : ∃ (shares : List Share) (rest : List Token),
    scan source = shares.flatMap Share.tokens ++ rest ∧ join rest = s.after ∧
      List.Forall₂ s.Owns s.outline shares
  after : s.after.IsWhite
  tokens : ∀ t ∈ scan source, t.kind ≠ .unclosed ∧ t.kind.isBrace = false
  semicolons : ∀ a t b, scan source = a ++ t :: b → t.kind = .semicolon →
    ∃ v ∈ s.outline, v.node.item.kind = .rule ∧ ∃ range ∈ v.node.source,
      range.start ≤ Position.first.after (join a) ∧ Position.first.after (join a) ≤ range.stop
  leaves : ∀ e ∈ s.entries, e.node.item.kind.isContainer = false → e.children = []

/-- The nodes of a sheet that was read, and what is written for them, share the tokens of the text. -/
theorem shares_of_parse (h : parse name source = .ok s) : ∃ (shares : List Share)
    (rest : List Token), scan source = shares.flatMap Share.tokens ++ rest ∧ White rest ∧
      join rest = s.after ∧ List.Forall₂ s.Owns s.outline shares ∧
      List.Forall₂ (fun p x => ∃ t : Statement, t.Fills p x) (s.passages .kept) shares := by
  obtain ⟨lines, vs, hlines, hlists, hnodes⟩ := exists_of_parse h
  have hformed : ∀ t ∈ Statement.group lines, t.Formed :=
    fun t ht => Statement.formed_of_mem_group hlines ht
  have hread : ∀ t ∈ Statement.group lines, t.Formed ∧ ∃ i, t.item = .ok i := by
    intro t ht
    obtain ⟨v, -, hv⟩ := exists_mem_of_forall₂ hnodes.flip ht
    obtain ⟨i, hi, -⟩ := Statement.node_eq_ok.1 hv
    exact ⟨hformed t ht, i, hi⟩
  have hwoven := Line.woven_of_ofTokens hlines
  rw [← Statement.flatMap_lines_group lines] at hwoven
  obtain ⟨shares, rest, hscan, hshares, hwhite, hrest⟩ :=
    Statement.exists_shares (fun t ht => Token.spells_of_mem_scan ht) hwoven
  refine ⟨shares, rest, hscan, hwhite, hrest, ?_, ?_⟩
  · rw [hlists.outline_eq]
    refine (forall₂_of_common ((List.forall₂_and_left _ _).2 ⟨hformed, hnodes⟩) hshares).imp ?_
    rintro v x ⟨t, ⟨hf, hn⟩, htakes⟩
    obtain ⟨i, hi, hnode⟩ := Statement.node_eq_ok.1 hn
    obtain ⟨hlead, hown⟩ := List.forall_mem_append.1 htakes.spells
    refine ⟨?_, ?_, ?_⟩
    · rw [hnode]
      exact ⟨congrArg some htakes.lead.symm, htakes.white.isWhite_join hlead⟩
    · rw [hnode, htakes.own.join_eq]
      exact Statement.item_write_kept hi hf _ _
    · rw [hnode]
      exact Statement.madeOf_of_item hi hf htakes.own hown
  · have hpasses := hlists.passes hnodes hformed
    refine (forall₂_of_common ((List.forall₂_and_left _ _).2 ⟨hread, hpasses⟩) hshares).imp ?_
    rintro p x ⟨t, ⟨⟨hf, hi⟩, hp⟩, htakes⟩
    exact ⟨t, hf, hi, hp, htakes⟩

theorem leaves_of_parse (h : parse name source = .ok s) : ∀ e ∈ s.entries,
    e.node.item.kind.isContainer = false → e.children = [] := by
  obtain ⟨-, vs, -, hlists, -⟩ := exists_of_parse h
  intro e he hleaf
  obtain ⟨n, hn⟩ := List.mem_iff_getElem?.1 he
  obtain ⟨v, hv, rfl, -⟩ := hlists.exists_visit hn
  by_contra hne
  rw [hlists.outlined.children_of_mem hv hn hne] at hleaf
  cases hleaf

/-- A semicolon stands in the source of a rule. -/
theorem rule_of_semicolon (h : parse name source = .ok s) {a b : List Token} {t : Token}
    (hscan : scan source = a ++ t :: b) (hk : t.kind = .semicolon) :
    ∃ v ∈ s.outline, v.node.item.kind = .rule ∧ ∃ range ∈ v.node.source,
      range.start ≤ Position.first.after (join a) ∧ Position.first.after (join a) ≤ range.stop := by
  obtain ⟨shares, rest, hshares, hwhite, -, -, hpassages⟩ := shares_of_parse h
  have hleads : ∀ x ∈ shares, White x.lead := by
    intro x hx
    obtain ⟨p, -, t, ht⟩ := exists_mem_of_forall₂ hpassages hx
    exact ht.takes.white
  obtain ⟨pre, x, post, inside, behind, rfl, hown, rfl⟩ :=
    Share.exists_of_semicolon hk hleads hwhite (hshares.symm.trans hscan)
  obtain ⟨ps, p, ps', hsplit, hpre, ⟨u, hu⟩, -⟩ := exists_split_of_forall₂ hpassages
  have htext : t.text = [';'] := by
    have hspells := Token.spells_of_mem_scan (hscan ▸ List.mem_append_right _ List.mem_cons_self)
    rwa [hk] at hspells
  have hkind : p.kind = .rule := by
    refine (hu.delimits t ?_).2 hk
    simp [Share.tokens, hown]
  have hpown : p.own = join inside ++ ';' :: join behind := by
    rw [hu.passes.own, ← hu.takes.own.join_eq, hown, Token.join_append, Token.join_cons, htext]
    rfl
  have hjoin : join (pre.flatMap Share.tokens ++ (x.lead ++ inside)) =
      ps.flatMap Passage.text ++ p.lead ++ join inside := by
    rw [Token.join_append, Token.join_append, Passage.flatMap_text_of_fills hpre, hu.passes.lead,
      hu.takes.lead, List.append_assoc]
  obtain ⟨front, back, hread⟩ := exists_readAt h hsplit
  -- The semicolon is not blank, so it is not among what is left behind the end of the source.
  obtain ⟨z, rfl⟩ : ∃ z, front = join inside ++ ';' :: z := by
    rcases append_eq_append_cons (hread.own.symm.trans hpown) with ⟨w, -, hback⟩ | ⟨w, hfront, -⟩
    · exact absurd (hread.blank ';' (hback ▸ List.mem_append_right w List.mem_cons_self)) (by decide)
    · exact ⟨w, hfront⟩
  obtain ⟨v, hv, isFirst, rfl⟩ := exists_visit_of_mem (hsplit ▸ List.mem_append_right _
    List.mem_cons_self)
  refine ⟨v, hv, hkind, _, hread.source, ?_, ?_⟩
  · rw [hjoin, Position.after_append _ _ (join inside)]
    exact Position.le_after _ _
  · rw [hjoin, Position.after_append _ _ (join inside), Position.last_append _ _ (List.cons_ne_nil _ z)]
    exact Position.le_last _ _

/-- The tokens of a text that is read as a sheet are divided among its nodes. -/
theorem divides_of_parse (h : parse name source = .ok s) : s.Divides source := by
  obtain ⟨lines, vs, hlines, hlists, -⟩ := exists_of_parse h
  obtain ⟨shares, rest, hscan, hwhite, hafter, hnodes, hpassages⟩ := shares_of_parse h
  refine ⟨by rw [hlists.outline_eq, hlists.ids], ⟨shares, rest, hscan, hafter, hnodes⟩, ?_, ?_,
    fun a b t hsplit hk => rule_of_semicolon h hsplit hk, leaves_of_parse h⟩
  · rw [← hafter]
    apply hwhite.isWhite_join
    intro t ht
    exact Token.spells_of_mem_scan (hscan ▸ List.mem_append_right _ ht)
  · intro t ht
    refine ⟨(Line.ofTokens_eq_ok.1 hlines).1 t ht, ?_⟩
    rw [hscan] at ht
    rcases List.mem_append.1 ht with ht | ht
    · obtain ⟨x, hx, ht⟩ := List.mem_flatMap.1 ht
      obtain ⟨p, -, u, hu⟩ := exists_mem_of_forall₂ hpassages hx
      exact (hu.delimits t ht).1
    · exact (TokenKind.delimits_of_isWhitespace (hwhite t ht)).1

/-- The line break before a value belongs to what stands between property and value, as the comment
before the colon does, and the comment behind the value to its literal text. -/
theorem divides_value_on_next_line :
    let source := Text.ofString
      "a;b /*x*/ c \n  @m  (z)\n    p /*y*/ :\n      v //z\n  /* k */  \n"
    ∃ s, parse "in" source = .ok s ∧ s.Divides source ∧ (s.entry? 2).map (·.node.item) =
      some (.declaration { property := ['p'], value := ['v'],
                           between := some (Text.ofString " /*y*/ :\n      "),
                           valueLiteral := some ⟨['v'], Text.ofString "v //z"⟩ }) := by
  intro source
  have hitem : (parse "in" source).toOption.map (fun s => (s.entry? 2).map (·.node.item)) =
      some (some (.declaration { property := ['p'], value := ['v'],
                                 between := some (Text.ofString " /*y*/ :\n      "),
                                 valueLiteral := some ⟨['v'], Text.ofString "v //z"⟩ })) := by
    decide +kernel
  obtain ⟨s, h, hs⟩ := exists_of_map_parse hitem
  exact ⟨s, h, divides_of_parse h, hs⟩

end Sheet

end OffsideCss
