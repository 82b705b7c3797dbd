import OffsideCss.Layout
import OffsideCss.Proofs.Relayout
import OffsideCss.Proofs.Words

/-! Plain items.  An item that is made of plain words and has no spelling is written on one line,
whatever the spacing, and the line alone is read as an item with the same meaning. -/

namespace OffsideCss

open Token (join scan)

/-- The meaning of an item, without its spelling. -/
def Item.bare : Item → Item
  | .atRule a => .atRule { name := a.name, params := a.params }
  | .rule r => .rule { selector := r.selector }
  | .declaration d => .declaration { property := d.property, value := d.value }
  | .comment c => .comment { text := c.text, form := c.form }

theorem Item.kind_bare (i : Item) : i.bare.kind = i.kind := by
  cases i <;> rfl

/-- Whether a text is empty or made of plain words. -/
def Text.IsField (t : Text) : Prop := t = [] ∨ t.IsWords

/-- Whether an item is made of plain words and has no spelling. -/
inductive Item.Plain : Item → Prop
  | atRule {name params : Text} :
      name.IsWord → params.IsField → Plain (.atRule { name, params })
  | rule {selector : Text} : selector.IsWords → Plain (.rule { selector })
  | declaration {property value : Text} :
      property.IsWord → value.IsField → Plain (.declaration { property, value })
  | comment {text : Text} {form : CommentForm} : text.IsField → Plain (.comment { text, form })

/-- Whether a kind of token ends no line and opens nothing. -/
def TokenKind.isCalm : TokenKind → Bool
  | colon | word | atWord | lineComment | blockComment | space => true
  | _ => false

/-- Whether an item whose own text is `own` makes the line `l`, and the line alone makes an item with
the same meaning. -/
structure Item.Makes (i : Item) (own : Text) (l : Line) : Prop where
  gap : l.gap = []
  indent : l.indent = []
  place : l.place = .first
  scan : ∀ tail, tail = [] ∨ tail = ['\n'] → scan (own ++ tail) = l.tokens ++ Token.scan tail
  calm : ∀ t ∈ l.tokens, t.kind.isCalm = true
  head : l.head.isWhitespace = false
  reads : ∃ j, (⟨i.kind, l, []⟩ : Statement).item = .ok j ∧ j.bare = i.bare
  isComment : l.isComment = decide (i.kind = .comment)
  isAtRule : l.isAtRule = decide (i.kind = .atRule)
  hasColon : l.hasColon = decide (i.kind = .declaration)

/-! ### What a plain item is written as -/

theorem Text.IsField.not_mem_lineFeed {t : Text} (h : t.IsField) : '\n' ∉ t := by
  intro hmem
  rcases h with rfl | h
  · simp at hmem
  · rcases h.mem _ hmem with hc | hc
    · exact absurd hc (by decide)
    · exact absurd hc (by decide)

theorem Text.ne_of_mem_padding_append {t : Text} (h : t.IsField) {c d : Char}
    (hc : c ∈ padding t ++ t) (hname : isNameChar d = false) (hspace : d ≠ ' ') : c ≠ d := by
  rcases h with rfl | h
  · simp [padding] at hc
  · rw [padding, if_neg h.ne_nil, List.singleton_append, List.mem_cons] at hc
    rcases hc with rfl | hc
    · exact hspace.symm
    · rcases h.mem c hc with hc | rfl
      · exact ne_of_isNameChar hc hname
      · exact hspace.symm

theorem Text.trim_padding_append {t : Text} (h : t.IsField) : (padding t ++ t).trim = t := by
  rcases h with rfl | h
  · rfl
  · rw [padding, if_neg h.ne_nil, List.singleton_append]
    exact h.trim_eq

theorem Text.trim_padding_append_padding {t : Text} (h : t.IsField) :
    (padding t ++ t ++ padding t).trim = t := by
  rcases h with rfl | h
  · rfl
  · rw [padding, if_neg h.ne_nil, List.singleton_append]
    have hstart : trim (' ' :: t ++ [' ']) = trimEnd (t ++ [' ']) :=
      congrArg trimEnd (h.trimStart_append [' '])
    have hend : trimEnd (t ++ [' ']) = trimEnd t := by
      simp [trimEnd, show isBlank ' ' = true by decide]
    rw [hstart, hend, h.trimEnd_eq]

theorem Text.reindent_eq_self {t : Text} (h : '\n' ∉ t) (indent : Text) : t.reindent indent = t := by
  rw [reindent, if_neg h]

theorem Spacing.part_none (spacing : Spacing) (default : Text) :
    spacing.part none default = default := by
  cases spacing <;> rfl

theorem Spacing.field_none (spacing : Spacing) (indent : Text) {t : Text} (h : t.IsField) :
    spacing.field indent none t = t := by
  cases spacing with
  | kept => rfl
  | canonical => exact Text.reindent_eq_self h.not_mem_lineFeed indent

/-! ### The tokens of a padded field -/

namespace Token

/-- Whether tokens are none, or words behind a blank. -/
inductive Padded : List Token → Prop
  | nil : Padded []
  | words {ts : List Token} : Words ts → Padded (⟨.space, [' ']⟩ :: ts)

theorem exists_padded {t : Text} (h : t.IsField) : ∃ ts, Padded ts ∧ join ts = padding t ++ t ∧
    (clean (splitLeading ts).2).1 = t := by
  rcases h with rfl | h
  · exact ⟨[], .nil, rfl, rfl⟩
  · obtain ⟨ts, hts, rfl⟩ := exists_words h
    refine ⟨_, .words hts, ?_, ?_⟩
    · simp [padding, h.ne_nil]
    · rw [hts.splitLeading_space, hts.clean_eq]

variable {ts : List Token}

theorem Padded.kind (h : Padded ts) : ∀ t ∈ ts, t.kind = .word ∨ t.kind = .space := by
  cases h with
  | nil => simp
  | words h => simpa using h.kind

theorem Padded.kind_ne_colon (h : Padded ts) : ∀ t ∈ ts, t.kind ≠ .colon := by
  intro t ht
  rcases h.kind t ht with hk | hk <;> simp [hk]

theorem Padded.head?_all_isWhitespace (h : Padded ts) : ts.head?.all isWhitespace = true := by
  cases h <;> rfl

theorem Padded.splitTrailing (h : Padded ts) : splitTrailing ts = (ts, []) := by
  cases h with
  | nil => rfl
  | words h => exact h.splitTrailing_append [⟨.space, [' ']⟩]

theorem endsWord_tail {tail : Text} (h : tail = [] ∨ tail = ['\n']) : EndsWord tail := by
  rcases h with rfl | rfl <;> simp [EndsWord, endsWord]

theorem Padded.atAtWordEnd (h : Padded ts) {tail : Text} (htail : tail = [] ∨ tail = ['\n']) :
    Text.atAtWordEnd (join ts ++ tail) = true := by
  cases h with
  | nil => rcases htail with rfl | rfl <;> simp [Text.atAtWordEnd, endsAtWord]
  | words h => simp [Text.atAtWordEnd, endsAtWord, isSpacing]

theorem Padded.scanFrom (h : Padded ts) {depth : Nat} {tail : Text}
    (htail : tail = [] ∨ tail = ['\n']) :
    scanFrom depth (join ts ++ tail) = ts ++ scanFrom depth tail := by
  cases h with
  | nil => rfl
  | words h =>
    rw [join_cons, List.append_assoc, List.singleton_append, scanFrom_space_words h,
      scanFrom_words h (endsWord_tail htail)]
    rfl

theorem splitSeparator?_eq_none {depth : Nat} (h : ∀ t ∈ ts, t.kind ≠ .colon) :
    splitSeparator? depth ts = none := by
  induction ts generalizing depth with
  | nil => rfl
  | cons t ts ih =>
    have ht := h t List.mem_cons_self
    simp [splitSeparator?, ht, ih fun u hu => h u (List.mem_cons_of_mem _ hu)]

end Token

/-! ### The line of a plain item -/

namespace Item

variable {spacing : Spacing} {unit : Text} {depth : Nat}

theorem calm_of_word_or_space {ts : List Token} (h : ∀ t ∈ ts, t.kind = .word ∨ t.kind = .space) :
    ∀ t ∈ ts, t.kind.isCalm = true := by
  intro t ht
  rcases h t ht with hk | hk <;> simp [hk, TokenKind.isCalm]

theorem undelimited_of_calm {ts : List Token} (h : ∀ t ∈ ts, t.kind.isCalm = true) :
    Statement.Undelimited ts := by
  intro t ht
  have := h t ht
  cases hk : t.kind <;> simp_all [TokenKind.isCalm, TokenKind.isBrace]

theorem hasColon_eq_false {l : Line} {ts : List Token} (hts : l.tokens = ts)
    (h : ∀ t ∈ ts, t.kind ≠ .colon) : l.hasColon = false := by
  rw [Line.hasColon, hts, Token.splitSeparator?_eq_none h]
  rfl

theorem makes_rule {selector : Text} (h : selector.IsWords) :
    ∃ l, (Item.rule { selector }).Makes ((Item.rule { selector }).write spacing unit depth) l := by
  obtain ⟨ts, hts, rfl⟩ := Token.exists_words h
  have hown : (Item.rule { selector := join ts }).write spacing unit depth = join ts := by
    simp [Item.write, Rule.write, Spacing.part_none, Spacing.field_none spacing _ (.inr h)]
  have hcalm := calm_of_word_or_space hts.kind
  have hcolon : ∀ t ∈ ts, t.kind ≠ .colon := fun t ht => by
    rcases hts.kind t ht with hk | hk <;> simp [hk]
  have hbrace : ∀ t ∈ ts, t.kind.isBrace = false := fun t ht => (undelimited_of_calm hcalm t ht).2
  obtain ⟨w, rest, rfl⟩ := hts.eq_cons
  rw [hown]
  refine ⟨⟨[], [], .first, ⟨.word, w⟩, rest⟩, rfl, rfl, rfl, fun t ht => ?_, hcalm, rfl,
    ⟨_, Statement.item_eq_ok.2 (.inr (.inr (.inl
      ⟨rfl, _, Statement.rule_eq_ok.2 ⟨?_, rfl⟩, rfl⟩))), ?_⟩, rfl, rfl,
    hasColon_eq_false rfl hcolon⟩
  · exact Token.scanFrom_words hts (Token.endsWord_tail ht)
  · simpa [Statement.tokens, Statement.rest] using hbrace
  · have htrail := hts.splitTrailing_append []
    rw [List.nil_append] at htrail
    simp [bare, Statement.ruleOf, Statement.tokens, Statement.rest, htrail, hts.clean_eq]

theorem makes_atRule {name params : Text} (hname : name.IsWord) (hparams : params.IsField) :
    ∃ l, (Item.atRule { name, params }).Makes
      ((Item.atRule { name, params }).write spacing unit depth) l := by
  obtain ⟨ts, hts, hjoin, hvalue⟩ := Token.exists_padded hparams
  have hown : (Item.atRule { name, params }).write spacing unit depth =
      '@' :: (name ++ join ts) := by
    simp [Item.write, AtRule.write, Spacing.part_none, Spacing.field_none spacing _ hparams, hjoin]
  have hcalm : ∀ t ∈ (⟨.atWord, '@' :: name⟩ : Token) :: ts, t.kind.isCalm = true :=
    List.forall_mem_cons.2 ⟨rfl, calm_of_word_or_space hts.kind⟩
  have hcolon : ∀ t ∈ (⟨.atWord, '@' :: name⟩ : Token) :: ts, t.kind ≠ .colon :=
    List.forall_mem_cons.2 ⟨by simp, fun t ht => hts.kind_ne_colon t ht⟩
  rw [hown]
  refine ⟨⟨[], [], .first, ⟨.atWord, '@' :: name⟩, ts⟩, rfl, rfl, rfl, fun t ht => ?_, hcalm, rfl,
    ⟨_, Statement.item_eq_ok.2 (.inr (.inl
      ⟨rfl, _, Statement.atRule_eq_ok.2 ⟨?_, ?_, rfl⟩, rfl⟩)), ?_⟩, rfl, rfl,
    hasColon_eq_false rfl hcolon⟩
  · have hname' : ∀ c ∈ name, ∀ u, Text.atAtWordEnd (c :: u) = false :=
      fun c hc _ => endsAtWord_of_isNameChar (hname.2 c hc)
    rw [scan, List.cons_append, List.append_assoc, Token.scanFrom_cons, Token.next_atWord,
      Text.splitBefore_run_append hname' (.inr (hts.atAtWordEnd ht))]
    exact congrArg _ (hts.scanFrom ht)
  · simpa [Statement.tokens, Statement.rest] using undelimited_of_calm hcalm
  · simpa using hname.1
  · simp [bare, Statement.atRuleOf, Statement.rest, hts.splitTrailing, hvalue]

theorem makes_declaration {property value : Text} (hproperty : property.IsWord)
    (hvalue : value.IsField) : ∃ l, (Item.declaration { property, value }).Makes
      ((Item.declaration { property, value }).write spacing unit depth) l := by
  obtain ⟨ts, hts, hjoin, hclean⟩ := Token.exists_padded hvalue
  have hown : (Item.declaration { property, value }).write spacing unit depth =
      property ++ ':' :: join ts := by
    simp [Item.write, Declaration.write, Spacing.part_none, Spacing.field_none spacing _ hvalue,
      hjoin]
  have hcalm : ∀ t ∈ (⟨.word, property⟩ : Token) :: ⟨.colon, [':']⟩ :: ts, t.kind.isCalm = true :=
    List.forall_mem_cons.2 ⟨rfl, List.forall_mem_cons.2 ⟨rfl, calm_of_word_or_space hts.kind⟩⟩
  have hsep : Token.splitSeparator? 0 (⟨.word, property⟩ :: ⟨.colon, [':']⟩ :: ts) =
      some ([⟨.word, property⟩], ⟨.colon, [':']⟩, ts) := by
    simp [Token.splitSeparator?, TokenKind.nesting, hts.head?_all_isWhitespace]
  rw [hown]
  refine ⟨⟨[], [], .first, ⟨.word, property⟩, ⟨.colon, [':']⟩ :: ts⟩, rfl, rfl, rfl,
    fun t ht => ?_, hcalm, rfl, ⟨_, Statement.item_eq_ok.2 (.inr (.inr (.inr ⟨rfl, _,
      Statement.declaration_eq_ok.2 ⟨?_, [⟨.word, property⟩], ⟨.colon, [':']⟩, ts, ?_, ?_, ?_, rfl⟩,
      rfl⟩))), ?_⟩, rfl, rfl, ?_⟩
  · have hcolon : TokenKind.ofPunctuation? ':' = some .colon := rfl
    rw [scan, List.append_assoc, Token.scanFrom_word hproperty
      (by simp [Token.EndsWord, endsWord, TokenKind.ofPunctuation?]), List.cons_append,
      Token.scanFrom_cons, Token.next_punctuation hcolon]
    exact congrArg (fun us => _ :: _ :: us) (hts.scanFrom ht)
  · simpa [Statement.tokens, Statement.rest] using undelimited_of_calm hcalm
  · simpa [Statement.tokens, Statement.rest] using hsep
  · simp [TokenKind.isTrivia, TokenKind.isWhitespace, TokenKind.isComment]
  · simp [TokenKind.isTrivia, TokenKind.isWhitespace, TokenKind.isComment]
  · simp [bare, Statement.declarationOf, TokenKind.isTrivia, TokenKind.isWhitespace,
      TokenKind.isComment, hclean]
  · simp [Line.hasColon, Line.tokens, hsep, Item.kind]

/-! ### The line of a plain comment -/

theorem makes_comment_of {text : Text} {form : CommentForm} (own : Text) (kind : TokenKind)
    (hown : (Item.comment { text, form }).write spacing unit depth = own)
    (hkind : kind.isComment = true)
    (hscan : ∀ tail, tail = [] ∨ tail = ['\n'] → scan (own ++ tail) = ⟨kind, own⟩ :: scan tail)
    (hbare : (Item.comment (⟨.comment, ⟨[], [], .first, ⟨kind, own⟩, []⟩, []⟩ : Statement).comment).bare
      = .comment { text, form }) :
    ∃ l, (Item.comment { text, form }).Makes
      ((Item.comment { text, form }).write spacing unit depth) l := by
  rw [hown]
  refine ⟨⟨[], [], .first, ⟨kind, own⟩, []⟩, rfl, rfl, rfl, hscan, ?_, ?_, ⟨_, rfl, hbare⟩, ?_, ?_,
    hasColon_eq_false rfl ?_⟩
  all_goals
    cases kind <;> simp_all [TokenKind.isComment, TokenKind.isCalm, Token.isWhitespace,
      TokenKind.isWhitespace, Line.isComment, Line.isAtRule, Line.tokens, Item.kind]

theorem makes_lineComment {text : Text} (h : text.IsField) :
    ∃ l, (Item.comment { text, form := .line }).Makes
      ((Item.comment { text, form := .line }).write spacing unit depth) l := by
  refine makes_comment_of ('/' :: '/' :: (padding text ++ text)) .lineComment
    (by simp [Item.write, Comment.write, Spacing.part_none]) rfl (fun tail htail => ?_) ?_
  · have hbody : ∀ c ∈ '/' :: (padding text ++ text), ∀ u, Text.atLineBreak (c :: u) = false :=
      List.forall_mem_cons.2 ⟨fun u => by simp [Text.atLineBreak], fun c hc u => by
        have hn : c ≠ '\n' := Text.ne_of_mem_padding_append h hc (by decide) (by decide)
        have hr : c ≠ '\r' := Text.ne_of_mem_padding_append h hc (by decide) (by decide)
        simp [Text.atLineBreak, hn, hr]⟩
    have hstop : tail = [] ∨ Text.atLineBreak tail = true := by
      rcases htail with rfl | rfl <;> simp [Text.atLineBreak]
    have hrun := Text.splitBefore_run_append hbody hstop
    rw [List.cons_append] at hrun
    rw [scan, List.cons_append, List.cons_append, Token.scanFrom_cons, Token.next_lineComment, hrun]
    rfl
  · simp [bare, Statement.comment, Text.trimParts, Text.trim_padding_append h]

theorem makes_blockComment {text : Text} (h : text.IsField) :
    ∃ l, (Item.comment { text, form := .block }).Makes
      ((Item.comment { text, form := .block }).write spacing unit depth) l := by
  refine makes_comment_of ('/' :: '*' :: (padding text ++ text ++ padding text ++ ['*', '/']))
    .blockComment (by simp [Item.write, Comment.write, Spacing.part_none]) rfl
    (fun tail htail => ?_) ?_
  · have hbody : ∀ c ∈ padding text ++ text ++ padding text, ∀ u, Text.atBlockEnd (c :: u) = false := by
      intro c hc u
      have hc' : c ∈ padding text ++ text := by
        simp only [List.mem_append] at hc ⊢
        tauto
      have hstar : c ≠ '*' := Text.ne_of_mem_padding_append h hc' (by decide) (by decide)
      simp [Text.atBlockEnd, hstar]
    have hstop : Text.atBlockEnd ('*' :: '/' :: tail) = true := by simp [Text.atBlockEnd]
    have hrun := Text.splitBefore_run_append hbody (.inr hstop)
    have hsplit : '/' :: '*' :: (padding text ++ text ++ padding text ++ ['*', '/']) ++ tail =
        '/' :: '*' :: (padding text ++ text ++ padding text ++ '*' :: '/' :: tail) := by simp
    rw [scan, hsplit, Token.scanFrom_cons, Token.next_blockComment,
      Token.ofBlockComment_closed hrun]
    simp [scan, TokenKind.nesting]
  · have hinside := Text.inside_blockComment (padding text ++ text ++ padding text)
    rw [List.cons_append, List.cons_append] at hinside
    simp only [bare, Statement.comment, Text.trimParts, hinside, Text.trim_padding_append_padding h]
    rfl

/-- A plain item makes one line. -/
theorem Plain.exists_line {i : Item} (h : i.Plain) (spacing : Spacing) (unit : Text) (depth : Nat) :
    ∃ l, i.Makes (i.write spacing unit depth) l := by
  cases h with
  | atRule hname hparams => exact makes_atRule hname hparams
  | rule hselector => exact makes_rule hselector
  | declaration hproperty hvalue => exact makes_declaration hproperty hvalue
  | @comment text form htext =>
    cases form with
    | line => exact makes_lineComment htext
    | block => exact makes_blockComment htext

end Item

end OffsideCss
