import OffsideCss.Layout
import OffsideCss.Proofs.Grouping
import OffsideCss.Proofs.LineCut
import OffsideCss.Statement.Reading

/-! The text of a statement.  What a statement reads as depends on its kind and its tokens alone, and
the item it reads as is written with kept spacing as the text of these tokens. -/

namespace OffsideCss

open Token (join)

theorem Token.resolve_clean (ts : List Token) :
    Literal.resolve (clean ts).2 (clean ts).1 = join ts := by
  simp only [clean]
  split
  · next h => exact h.symm
  · simp [Literal.resolve]

theorem Text.inside_blockComment (body : Text) :
    (('/' :: '*' :: body ++ ['*', '/']).drop 2).dropLast.dropLast = body := by
  rw [List.cons_append, List.cons_append, List.drop_succ_cons, List.drop_succ_cons, List.drop_zero,
    show ['*', '/'] = ['*'] ++ ['/'] from rfl, ← List.append_assoc, List.dropLast_concat,
    List.dropLast_concat]

namespace Statement

variable {s : Statement}

theorem forbid_eq_ok {cause : Cause} {p : Token → Bool} :
    s.forbid cause p = .ok () ↔ ∀ t ∈ s.tokens, p t = false := by
  unfold forbid
  cases h : Token.locate? p s.place s.tokens with
  | none => simpa using Token.locate?_eq_none.1 h
  | some found =>
    obtain ⟨pre, post, hts, -, ht⟩ := Token.locate?_eq_some h
    simp only [reduceCtorEq, false_iff]
    intro hall
    simp [hall found.2 (by simp [hts])] at ht

/-- Whether none of the tokens is a semicolon or a brace. -/
def Undelimited (ts : List Token) : Prop :=
  ∀ t ∈ ts, t.kind ≠ .semicolon ∧ t.kind.isBrace = false

theorem forbid_both_eq_ok :
    (s.forbidSemicolon = .ok () ∧ s.forbidBrace = .ok ()) ↔ Undelimited s.tokens := by
  simp only [forbidSemicolon, forbidBrace, forbid_eq_ok, decide_eq_false_iff_not, Undelimited]
  exact forall₂_and.symm

/-- The parts of an at-rule: what its name is, and the tokens behind it. -/
def atRuleOf (s : Statement) : AtRule where
  name := s.first.head.text.drop 1
  params := (Token.clean (Token.splitLeading (Token.splitTrailing s.rest).1).2).1
  paramsLiteral := (Token.clean (Token.splitLeading (Token.splitTrailing s.rest).1).2).2
  afterName := join (Token.splitLeading (Token.splitTrailing s.rest).1).1
  trailing := join (Token.splitTrailing s.rest).2

theorem atRule_eq_ok {a : AtRule} :
    s.atRule = .ok a ↔ Undelimited s.tokens ∧ s.first.head.text.drop 1 ≠ [] ∧ s.atRuleOf = a := by
  rw [← forbid_both_eq_ok]
  unfold atRule
  cases s.forbidSemicolon with
  | error => simp [bind, Except.bind]
  | ok u =>
    cases s.forbidBrace with
    | error => simp [bind, Except.bind]
    | ok u =>
      by_cases hn : s.first.head.text.drop 1 = []
      · simp only [bind, Except.bind, hn, if_true, throw, throwThe, MonadExceptOf.throw]
        simp
      · simp only [bind, Except.bind, hn, if_false, pure, Except.pure]
        simp [atRuleOf, hn, -List.drop_one]

/-- The rule that a statement without braces reads as. -/
def ruleOf (s : Statement) : Rule where
  selector := (Token.clean (Token.splitTrailing s.tokens).1).1
  selectorLiteral := (Token.clean (Token.splitTrailing s.tokens).1).2
  trailing := join (Token.splitTrailing s.tokens).2

theorem rule_eq_ok {r : Rule} :
    s.rule = .ok r ↔ (∀ t ∈ s.tokens, t.kind.isBrace = false) ∧ s.ruleOf = r := by
  have h : s.forbid .unnecessaryBrace (·.kind.isBrace) = .ok () ↔
      ∀ t ∈ s.tokens, t.kind.isBrace = false := forbid_eq_ok
  rw [← h]
  unfold rule forbidBrace
  cases s.forbid .unnecessaryBrace (·.kind.isBrace) with
  | error => simp [bind, Except.bind]
  | ok u => simp [bind, Except.bind, pure, Except.pure, ruleOf]

/-- The declaration with a colon between the tokens `before` and `after`. -/
def declarationOf (before : List Token) (colon : Token) (after : List Token) : Declaration where
  property := join (before.takeWhile fun t => !t.kind.isTrivia)
  value := (Token.clean (Token.splitLeading after).2).1
  between := join (before.dropWhile fun t => !t.kind.isTrivia) ++ colon.text ++
    join (Token.splitLeading after).1
  valueLiteral := (Token.clean (Token.splitLeading after).2).2

theorem declaration_eq_ok {d : Declaration} :
    s.declaration = .ok d ↔ Undelimited s.tokens ∧ ∃ before colon after,
      Token.splitSeparator? 0 s.tokens = some (before, colon, after) ∧
      (∀ t ∈ before.dropWhile fun t => !t.kind.isTrivia, t.kind.isTrivia = true) ∧
      (before.takeWhile fun t => !t.kind.isTrivia) ≠ [] ∧ declarationOf before colon after = d := by
  rw [← forbid_both_eq_ok]
  unfold declaration
  cases s.forbidSemicolon with
  | error => simp [bind, Except.bind]
  | ok u =>
    cases s.forbidBrace with
    | error => simp [bind, Except.bind]
    | ok u =>
      cases Token.splitSeparator? 0 s.tokens with
      | none => simp [bind, Except.bind, throw, throwThe, MonadExceptOf.throw]
      | some parts =>
        obtain ⟨before, colon, after⟩ := parts
        have hex : ∀ P : List Token → Token → List Token → Prop,
            (∃ b c a, some (before, colon, after) = some (b, c, a) ∧ P b c a) ↔
              P before colon after := by
          simp
        rw [hex]
        dsimp only [bind, Except.bind]
        cases hl : Token.locate? (fun t => !t.kind.isTrivia)
            (s.place.after (join (before.takeWhile fun t => !t.kind.isTrivia)))
            (before.dropWhile fun t => !t.kind.isTrivia) with
        | some found =>
          obtain ⟨pre, post, hts, -, ht⟩ := Token.locate?_eq_some hl
          have hnot : ¬∀ t ∈ before.dropWhile fun t => !t.kind.isTrivia, t.kind.isTrivia = true := by
            intro hall
            simp [hall found.2 (by simp [hts])] at ht
          simp [hnot, throw, throwThe, MonadExceptOf.throw]
        | none =>
          have hall := Token.locate?_eq_none.1 hl
          simp only [Bool.not_eq_false'] at hall
          by_cases hn : (before.takeWhile fun t => !t.kind.isTrivia) = []
          · simp [hn, throw, throwThe, MonadExceptOf.throw]
          · simp only [hn, if_false, pure, Except.pure, Except.ok.injEq]
            exact ⟨fun h => ⟨⟨trivial, trivial⟩, hall, hn, h⟩, fun h => h.2.2.2⟩

/-! ### The text of the tokens -/

theorem join_flatMap_joint (ls : List Line) :
    join (ls.flatMap fun l => l.joint :: l.tokens) = ls.flatMap Line.text := by
  induction ls with
  | nil => rfl
  | cons l ls ih =>
    rw [List.flatMap_cons, List.flatMap_cons, Token.join_append, ih]
    rfl

theorem join_tokens (s : Statement) :
    join s.tokens = join s.first.tokens ++ s.more.flatMap Line.text := by
  rw [tokens, rest, Token.join_cons, Token.join_append, join_flatMap_joint, Line.tokens,
    Token.join_cons, List.append_assoc]

/-- The lead and the tokens of a statement make up the text of its lines. -/
theorem lead_append_join (s : Statement) :
    s.first.lead ++ join s.tokens = s.lines.flatMap Line.text := by
  rw [join_tokens, lines, List.flatMap_cons, Line.text, List.append_assoc]

/-! ### The tokens -/

theorem mem_tokens {t : Token} (h : t ∈ s.tokens) :
    t.kind = .space ∨ ∃ l ∈ s.lines, t ∈ l.tokens := by
  rcases List.mem_cons.1 h with rfl | h
  · exact .inr ⟨s.first, by simp [lines], by simp [Line.tokens]⟩
  rcases List.mem_append.1 h with h | h
  · exact .inr ⟨s.first, by simp [lines], by simp [Line.tokens, h]⟩
  · obtain ⟨l, hl, ht⟩ := List.mem_flatMap.1 h
    rcases List.mem_cons.1 ht with rfl | ht
    · exact .inl rfl
    · exact .inr ⟨l, by simp [lines, hl], ht⟩

theorem mem_of_mem_group {lines : List Line} (hs : s ∈ group lines) {l : Line} (hl : l ∈ s.lines) :
    l ∈ lines := by
  rw [← flatMap_lines_group lines]
  exact List.mem_flatMap.2 ⟨s, hs, hl⟩

theorem mem_scan_of_mem_tokens {source : Text} {lines : List Line} {after : Text}
    (h : Line.ofTokens (Token.scan source) = .ok (lines, after)) (hs : s ∈ group lines) {t : Token}
    (ht : t ∈ s.tokens) (hk : t.kind ≠ .space) : t ∈ Token.scan source := by
  obtain ⟨l, hl, htl⟩ := (mem_tokens ht).resolve_left hk
  exact (Line.tokens_isInfix_scan h (mem_of_mem_group hs hl)).subset htl

/-! ### Tokens decide -/

theorem item_eq_ok {i : Item} : s.item = .ok i ↔
    (s.kind = .comment ∧ .comment s.comment = i) ∨
    (s.kind = .atRule ∧ ∃ a, s.atRule = .ok a ∧ .atRule a = i) ∨
    (s.kind = .rule ∧ ∃ r, s.rule = .ok r ∧ .rule r = i) ∨
    (s.kind = .declaration ∧ ∃ d, s.declaration = .ok d ∧ .declaration d = i) := by
  unfold item
  cases s.kind with
  | comment => simp
  | atRule => cases s.atRule <;> simp [Except.map]
  | rule => cases s.rule <;> simp [Except.map]
  | declaration => cases s.declaration <;> simp [Except.map]

theorem kind_of_item {i : Item} (h : s.item = .ok i) : i.kind = s.kind := by
  rcases item_eq_ok.1 h with ⟨hk, rfl⟩ | ⟨hk, a, -, rfl⟩ | ⟨hk, r, -, rfl⟩ | ⟨hk, d, -, rfl⟩ <;>
    exact hk.symm

/-- A statement that reads as an item makes a node of it. -/
theorem node_eq_ok {n : Node} : s.node = .ok n ↔ ∃ i, s.item = .ok i ∧
    n = ⟨i, some s.first.lead, some ⟨s.place.toPosition, Token.contentEnd s.place s.tokens⟩⟩ := by
  unfold node
  cases s.item with
  | error fault => simp [Except.map]
  | ok i => simp [Except.map, eq_comm]

/-- Statements of the same kind with the same tokens read as the same item. -/
theorem item_congr {s t : Statement} (hk : s.kind = t.kind) (ht : s.tokens = t.tokens) {i : Item}
    (h : s.item = .ok i) : t.item = .ok i := by
  obtain ⟨hhead, hrest⟩ := List.cons.inj ht
  rw [item_eq_ok] at h ⊢
  rw [← hk]
  simpa only [comment, atRule_eq_ok, rule_eq_ok, declaration_eq_ok, atRuleOf, ruleOf, ht, hhead,
    hrest] using h

/-! ### Written with kept spacing -/

/-- What the first token of a statement tells of its kind. -/
structure Formed (s : Statement) : Prop where
  spells : s.first.head.kind.Spells s.first.head.text
  atRule : s.kind = .atRule → s.first.head.kind = .atWord
  lineComment : s.kind = .comment → s.first.head.kind = .lineComment → s.rest = []
  blockComment : s.kind = .comment → s.first.head.kind ≠ .lineComment →
    s.first.head.kind = .blockComment
  trailing : s.kind = .comment → ∀ t ∈ s.rest, t.kind = .space

/-- The statements of a text are formed: a comment with two slashes is all there is of its line. -/
theorem formed_of_mem_group {t : Text} {ls : List Line} {after : Text}
    (h : Line.ofTokens (Token.scan t) = .ok (ls, after)) (hs : s ∈ group ls) : s.Formed := by
  obtain ⟨⟨following, hkind⟩, hcont⟩ := (group_eq_iff.1 rfl).2.of_mem hs
  have hfirst : s.first ∈ ls := by
    rw [← flatMap_lines_group ls]
    exact List.mem_flatMap.2 ⟨s, hs, by simp [lines]⟩
  have htokens := Line.tokens_isInfix_scan h hfirst
  have hchain := List.IsChain.infix (Token.isChain_scanFrom 0 t) htokens
  have hcomment : s.kind = .comment → s.first.isComment = true := by
    intro hk
    rw [hk, Line.kind] at hkind
    split at hkind
    · assumption
    · repeat' split at hkind
      all_goals simp at hkind
  refine ⟨?_, ?_, ?_, ?_, ?_⟩
  · exact Token.spells_of_mem_scanFrom (htokens.subset List.mem_cons_self)
  · intro hk
    rw [hk, Line.kind] at hkind
    repeat' split at hkind
    all_goals simp_all [Line.isAtRule]
  · intro hk hl
    rw [rest, hcont.more_eq_nil hk]
    have hall := hcomment hk
    simp only [Line.isComment, Bool.and_eq_true, List.all_eq_true, decide_eq_true_eq] at hall
    rw [Line.tokens] at hchain
    cases htail : s.first.tail with
    | nil => rfl
    | cons u us =>
      rw [htail] at hchain hall
      have hbreak := (List.isChain_cons_cons.1 hchain).1.2 hl
      rw [hall.2 u List.mem_cons_self] at hbreak
      simp at hbreak
  · intro hk hl
    have hall := hcomment hk
    simp only [Line.isComment, Bool.and_eq_true] at hall
    cases hkind : s.first.head.kind <;> simp_all [TokenKind.isComment]
  · intro hk
    rw [rest, hcont.more_eq_nil hk, List.flatMap_nil, List.append_nil]
    have hall := hcomment hk
    simp only [Line.isComment, Bool.and_eq_true, List.all_eq_true, decide_eq_true_eq] at hall
    exact hall.2

theorem comment_write_kept (hk : s.kind = .comment) (h : s.Formed) :
    s.comment.write .kept = join s.tokens := by
  have hspells := h.spells
  by_cases hl : s.first.head.kind = .lineComment
  · rw [hl] at hspells
    obtain ⟨body, hb⟩ := hspells
    have hparts := Text.trimParts_append body
    rw [tokens, h.lineComment hk hl, Token.join_cons, Token.join_nil, hb]
    simp only [comment, hl, if_true, hb, List.drop_succ_cons, List.drop_zero, Comment.write,
      Spacing.part, Option.getD_some]
    simpa using hparts
  · rw [h.blockComment hk hl] at hspells
    obtain ⟨body, hb⟩ := hspells
    have hparts := Text.trimParts_append body
    have hinside := hb ▸ Text.inside_blockComment body
    rw [tokens, Token.join_cons, hb]
    simp only [comment, hl, if_false, hinside, Comment.write, Spacing.part, Option.getD_some]
    nth_rewrite 4 [← hparts]
    simp

theorem item_write_kept {i : Item} (h : s.item = .ok i) (hs : s.Formed) (unit : Text) (depth : Nat) :
    i.write .kept unit depth = join s.tokens := by
  have hspells := hs.spells
  rcases item_eq_ok.1 h with ⟨hk, rfl⟩ | ⟨hk, a, ha, rfl⟩ | ⟨hk, r, hr, rfl⟩ | ⟨hk, d, hd, rfl⟩
  · exact comment_write_kept hk hs
  · obtain ⟨-, -, rfl⟩ := atRule_eq_ok.1 ha
    rw [hs.atRule hk] at hspells
    obtain ⟨name, hname, -⟩ := hspells
    have htrail := congrArg join (Token.splitTrailing_append s.rest)
    have hlead := congrArg join (Token.splitLeading_append (Token.splitTrailing s.rest).1)
    rw [Token.join_append] at htrail hlead
    rw [tokens, Token.join_cons, hname, ← htrail, ← hlead]
    simp [Item.write, AtRule.write, atRuleOf, Spacing.part, Spacing.field, Token.resolve_clean, hname]
  · obtain ⟨-, rfl⟩ := rule_eq_ok.1 hr
    have htrail := congrArg join (Token.splitTrailing_append s.tokens)
    simpa [Item.write, Rule.write, ruleOf, Spacing.part, Spacing.field, Token.resolve_clean]
      using htrail
  · obtain ⟨-, before, colon, after, hsep, -, -, rfl⟩ := declaration_eq_ok.1 hd
    have hparts := congrArg join (Token.splitSeparator?_append hsep)
    have hname := congrArg join
      (List.takeWhile_append_dropWhile (l := before) (p := fun t => !t.kind.isTrivia))
    have hlead := congrArg join (Token.splitLeading_append after)
    rw [Token.join_append] at hname hlead
    rw [Token.join_append, Token.join_cons] at hparts
    rw [← hparts, ← hname, ← hlead]
    simp [Item.write, Declaration.write, declarationOf, Spacing.part, Spacing.field,
      Token.resolve_clean]

end Statement

end OffsideCss
