import OffsideCss.Proofs.Variant

/-! The nodes of a variant.  A statement of a variant reads as the node that the statement of the
text reads as, with the texts of the variant in its parts, or fails for the same cause at the place
that stands for the one in the text. -/

namespace OffsideCss

open Token (join placed)

/-! ### Results -/

/-- Whether both of two results are failures, or both are not, and they are related. -/
inductive Alike {ε ε' α β : Type} (F : ε → ε' → Prop) (R : α → β → Prop) :
    Except ε α → Except ε' β → Prop
  | error {e : ε} {e' : ε'} : F e e' → Alike F R (.error e) (.error e')
  | ok {a : α} {b : β} : R a b → Alike F R (.ok a) (.ok b)

namespace Alike

variable {ε ε' α β γ δ : Type} {F : ε → ε' → Prop} {R : α → β → Prop} {S : γ → δ → Prop}
  {x : Except ε α} {y : Except ε' β}

theorem exists_ok (h : Alike F R x y) {b : β} (hy : y = .ok b) : ∃ a, x = .ok a ∧ R a b := by
  cases h with
  | error he => cases hy
  | ok hab =>
    cases hy
    exact ⟨_, rfl, hab⟩

theorem imp_ok (h : Alike F R x y) {Q : α → β → Prop}
    (hRQ : ∀ a b, x = .ok a → y = .ok b → R a b → Q a b) : Alike F Q x y := by
  cases h with
  | error he => exact .error he
  | ok hab => exact .ok (hRQ _ _ rfl rfl hab)

theorem imp (h : Alike F R x y) {G : ε → ε' → Prop} {Q : α → β → Prop}
    (hFG : ∀ e e', F e e' → G e e') (hRQ : ∀ a b, R a b → Q a b) : Alike G Q x y := by
  cases h with
  | error he => exact .error (hFG _ _ he)
  | ok hab => exact .ok (hRQ _ _ hab)

theorem bind (h : Alike F R x y) {f : α → Except ε γ} {g : β → Except ε' δ}
    (hfg : ∀ a b, R a b → Alike F S (f a) (g b)) : Alike F S (x >>= f) (y >>= g) := by
  cases h with
  | error he => exact .error he
  | ok hab => exact hfg _ _ hab

theorem map (h : Alike F R x y) {f : α → γ} {g : β → δ} (hfg : ∀ a b, R a b → S (f a) (g b)) :
    Alike F S (x.map f) (y.map g) := by
  cases h with
  | error he => exact .error he
  | ok hab => exact .ok (hfg _ _ hab)

theorem foldlM {σ τ : Type} {Q : σ → τ → Prop} {f : σ → α → Except ε σ} {g : τ → β → Except ε' τ}
    (hfg : ∀ s t a b, Q s t → R a b → Alike F Q (f s a) (g t b)) {as : List α} {bs : List β}
    (h : List.Forall₂ R as bs) {s : σ} {t : τ} (hst : Q s t) :
    Alike F Q (as.foldlM f s) (bs.foldlM g t) := by
  induction h generalizing s t with
  | nil => exact .ok hst
  | cons hab _ ih =>
    rw [List.foldlM_cons, List.foldlM_cons]
    exact (hfg _ _ _ _ hst hab).bind fun _ _ hst => ih hst

end Alike

/-- What could have been expected where all widths are `n` times as large. -/
def ExpectedIndent.scale (n : Nat) : ExpectedIndent → ExpectedIndent
  | exactly width => exactly (n * width)
  | either lower upper => either (n * lower) (n * upper)

/-- A cause where all widths are `n` times as large. -/
def Cause.scale (n : Nat) : Cause → Cause
  | wrongIndent expected actual => wrongIndent (expected.scale n) (n * actual)
  | cause => cause

theorem Cause.scale_one (cause : Cause) : cause.scale 1 = cause := by
  cases cause with
  | wrongIndent expected actual =>
    cases expected <;> simp [scale, ExpectedIndent.scale]
  | _ => rfl

/-- Whether a fault of a variant stands for one of the text. -/
structure Fault.Varies (V : Variant) (f g : Fault) : Prop where
  cause : g.cause = f.cause.scale V.factor
  stands : V.Stands f.place.toPosition g.place.toPosition

/-! ### Items -/

structure AtRule.Varies (V : Variant) (a b : AtRule) : Prop where
  name : b.name = Text.withBreaks V.lineBreak a.name
  params : V.Field a.params b.params
  afterName : Option.Rel V.Field a.afterName b.afterName
  paramsLiteral : Option.Rel (Literal.Varies V) a.paramsLiteral b.paramsLiteral
  trailing : Option.Rel V.Field a.trailing b.trailing

structure Rule.Varies (V : Variant) (a b : Rule) : Prop where
  selector : V.Field a.selector b.selector
  selectorLiteral : Option.Rel (Literal.Varies V) a.selectorLiteral b.selectorLiteral
  trailing : Option.Rel V.Field a.trailing b.trailing

structure Declaration.Varies (V : Variant) (a b : Declaration) : Prop where
  property : b.property = Text.withBreaks V.lineBreak a.property
  value : V.Field a.value b.value
  between : Option.Rel V.Field a.between b.between
  valueLiteral : Option.Rel (Literal.Varies V) a.valueLiteral b.valueLiteral

structure Comment.Varies (V : Variant) (a b : Comment) : Prop where
  text : b.text = Text.withBreaks V.lineBreak a.text
  form : b.form = a.form
  left : b.left = a.left.map (Text.withBreaks V.lineBreak)
  right : b.right = a.right.map (Text.withBreaks V.lineBreak)
  trailing : Option.Rel V.Field a.trailing b.trailing

/-- Whether an item of a variant stands for one of the text. -/
inductive Item.Varies (V : Variant) : Item → Item → Prop
  | atRule {a b : AtRule} : a.Varies V b → Varies V (.atRule a) (.atRule b)
  | rule {a b : Rule} : a.Varies V b → Varies V (.rule a) (.rule b)
  | declaration {a b : Declaration} : a.Varies V b → Varies V (.declaration a) (.declaration b)
  | comment {a b : Comment} : a.Varies V b → Varies V (.comment a) (.comment b)

structure Source.Varies (V : Variant) (a b : Source) : Prop where
  start : V.Stands a.start b.start
  stop : V.Stands a.stop b.stop

/-- Whether a node of a variant stands for one of the text. -/
structure Node.Varies (V : Variant) (a b : Node) : Prop where
  item : a.item.Varies V b.item
  before : Option.Rel V.Gap a.before b.before
  source : Option.Rel (Source.Varies V) a.source b.source

/-! ### Statements -/

/-- Whether a line of a variant stands for one of the text: each position in its indentation stands
for the one in the text, and its tokens do. -/
structure Line.Varies (V : Variant) (l k : Line) : Prop where
  lead : V.Gap l.lead k.lead
  indent : k.indent = V.indent l.indent
  indents : ∀ c ∈ l.indent, V.Indents c
  stands : ∀ front back, l.indent = front ++ back →
    V.Stands (l.place.after front).toPosition (k.place.after (V.indent front)).toPosition
  tokens : List.Forall₂ (Token.VariesAt V) (placed (l.place.after l.indent) l.tokens)
    (placed (k.place.after k.indent) k.tokens)

namespace Statement

/-- Whether a statement of a variant stands for one of the text. -/
structure Varies (V : Variant) (s t : Statement) : Prop where
  kind : t.kind = s.kind
  first : s.first.Varies V t.first
  tokens : List.Forall₂ (Token.VariesAt V) (placed s.place s.tokens) (placed t.place t.tokens)
  formed : s.Formed
  isWhitespace_head : s.first.head.isWhitespace = false

variable {V : Variant} {s t : Statement}

theorem Varies.head (h : s.Varies V t) :
    Token.VariesAt V (s.place, s.first.head) (t.place, t.first.head) := by
  have := h.tokens
  rw [Statement.tokens, Statement.tokens, placed, placed] at this
  exact (List.forall₂_cons.1 this).1

theorem Varies.rest (h : s.Varies V t) : List.Forall₂ (Token.Varies V) s.rest t.rest := by
  have := Token.varies_of_placed h.tokens
  rw [Statement.tokens, Statement.tokens] at this
  exact (List.forall₂_cons.1 this).2

theorem Varies.head_text (h : s.Varies V t) :
    t.first.head.text = Text.withBreaks V.lineBreak s.first.head.text :=
  h.head.solid h.isWhitespace_head

theorem Varies.stands_place (h : s.Varies V t) : V.Stands s.place.toPosition t.place.toPosition :=
  h.head.start h.isWhitespace_head

theorem alike_forbid (h : s.Varies V t) {cause : Cause} (hcause : cause.scale V.factor = cause)
    {f : TokenKind → Bool} (hf : ∀ k, f k = true → k.isWhitespace = false) :
    Alike (Fault.Varies V) (fun _ _ => True) (s.forbid cause fun t => f t.kind)
      (t.forbid cause fun t => f t.kind) := by
  unfold forbid
  rcases rel_cases (Token.varies_locate? (f := f) h.tokens) with ⟨hs, ht⟩ | ⟨x, y, hs, ht, hxy⟩
  · rw [hs, ht]
    exact .ok trivial
  · obtain ⟨-, -, -, -, hx⟩ := Token.locate?_eq_some hs
    rw [hs, ht]
    exact .error ⟨hcause.symm, hxy.start (hf _ hx)⟩

theorem alike_forbidSemicolon (h : s.Varies V t) :
    Alike (Fault.Varies V) (fun _ _ => True) s.forbidSemicolon t.forbidSemicolon :=
  alike_forbid (f := (· = .semicolon)) h rfl fun k hk => by
    simp [of_decide_eq_true hk, TokenKind.isWhitespace]

theorem alike_forbidBrace (h : s.Varies V t) :
    Alike (Fault.Varies V) (fun _ _ => True) s.forbidBrace t.forbidBrace :=
  alike_forbid (f := TokenKind.isBrace) h rfl fun k hk => by
    cases k <;> simp_all [TokenKind.isBrace, TokenKind.isWhitespace]

theorem alike_rule (h : s.Varies V t) : Alike (Fault.Varies V) (Rule.Varies V) s.rule t.rule := by
  refine (alike_forbidBrace h).bind fun _ _ _ => .ok ?_
  obtain ⟨hheader, htrailing⟩ := Token.varies_splitTrailing (Token.varies_of_placed h.tokens)
  obtain ⟨hfield, hliteral⟩ := Token.varies_clean hheader
  exact ⟨hfield, hliteral, .some (Token.field_join htrailing)⟩

/-- The name of an at-rule stands behind the sign of the token. -/
theorem Varies.name (h : s.Varies V t) (hk : s.kind = .atRule) :
    t.first.head.text.drop 1 = Text.withBreaks V.lineBreak (s.first.head.text.drop 1) := by
  have hspells := h.formed.spells
  rw [h.formed.atRule hk] at hspells
  obtain ⟨name, hname, -⟩ := hspells
  rw [h.head_text, hname, Text.withBreaks_cons (by decide)]
  rfl

theorem alike_atRule (h : s.Varies V t) (hk : s.kind = .atRule) :
    Alike (Fault.Varies V) (AtRule.Varies V) s.atRule t.atRule := by
  refine (alike_forbidSemicolon h).bind fun _ _ _ => (alike_forbidBrace h).bind fun _ _ _ => ?_
  have hname := h.name hk
  by_cases hnil : s.first.head.text.drop 1 = []
  · have hnil' : t.first.head.text.drop 1 = [] := by rw [hname, hnil]; rfl
    simp only [hnil, hnil', if_true]
    exact .error ⟨rfl, h.stands_place⟩
  · have hnil' : t.first.head.text.drop 1 ≠ [] := by
      rw [hname]
      exact mt (Text.withBreaks_eq_nil V.spells).1 hnil
    simp only [hnil, hnil', if_false]
    obtain ⟨hheader, htrailing⟩ := Token.varies_splitTrailing h.rest
    obtain ⟨hspace, hparams⟩ := Token.varies_splitLeading hheader
    obtain ⟨hfield, hliteral⟩ := Token.varies_clean hparams
    exact .ok ⟨hname, hfield, .some (Token.field_join hspace), hliteral,
      .some (Token.field_join htrailing)⟩

/-- A declaration is read from what stands before and behind its colon. -/
theorem alike_parts (h : s.Varies V t) {before before' after after' : List Token}
    {colon colon' : Token}
    (hs : Token.splitSeparator? 0 s.tokens = some (before, colon, after))
    (ht : Token.splitSeparator? 0 t.tokens = some (before', colon', after'))
    (hbefore : List.Forall₂ (Token.Varies V) before before') (hcolon : colon.Varies V colon')
    (hafter : List.Forall₂ (Token.Varies V) after after') :
    Alike (Fault.Varies V) (Declaration.Varies V) s.declaration t.declaration := by
  refine (alike_forbidSemicolon h).bind fun _ _ _ => (alike_forbidBrace h).bind fun _ _ _ => ?_
  simp only [hs, ht]
  have hname := forall₂_takeWhile (p := fun t => !t.kind.isTrivia) (q := fun t => !t.kind.isTrivia)
    hbefore fun htok => by rw [htok.kind]
  have htrivia := forall₂_dropWhile (p := fun t => !t.kind.isTrivia)
    (q := fun t => !t.kind.isTrivia) hbefore fun htok => by rw [htok.kind]
  have hplaced := h.tokens
  rw [← Token.splitSeparator?_append hs, ← Token.splitSeparator?_append ht,
    ← List.takeWhile_append_dropWhile (l := before) (p := fun t => !t.kind.isTrivia),
    ← List.takeWhile_append_dropWhile (l := before') (p := fun t => !t.kind.isTrivia),
    List.append_assoc, List.append_assoc] at hplaced
  have hplaced := (Token.placed_split (Token.placed_split hplaced hname.length_eq).2
    htrivia.length_eq).1
  rcases rel_cases (Token.varies_locate? (f := fun k => !k.isTrivia) hplaced) with
    ⟨hl, hl'⟩ | ⟨x, y, hl, hl', hxy⟩
  · simp only [hl, hl']
    have hnil := hname.length_eq
    by_cases hn : before.takeWhile (fun t => !t.kind.isTrivia) = []
    · rw [hn, List.length_nil, eq_comm, List.length_eq_zero_iff] at hnil
      simp only [hn, hnil, if_true]
      exact .error ⟨rfl, h.stands_place⟩
    · have hn' : before'.takeWhile (fun t => !t.kind.isTrivia) ≠ [] := by
        rw [← List.length_pos_iff, ← hnil, List.length_pos_iff]
        exact hn
      simp only [hn, hn', if_false]
      obtain ⟨hspace, hvalue⟩ := Token.varies_splitLeading hafter
      obtain ⟨hfield, hliteral⟩ := Token.varies_clean hvalue
      refine .ok ⟨?_, hfield, .some ?_, hliteral⟩
      · exact Token.join_eq_withBreaks hname fun _ ht => Token.isWhitespace_of_mem_name ht
      · exact V.field_append (V.field_append (Token.field_join htrivia) hcolon.field)
          (Token.field_join hspace)
  · obtain ⟨-, -, -, -, hx⟩ := Token.locate?_eq_some hl
    simp only [hl, hl']
    refine .error ⟨rfl, hxy.start ?_⟩
    simp only [TokenKind.isTrivia, Bool.not_or, Bool.and_eq_true, Bool.not_eq_true'] at hx
    exact hx.1

theorem alike_declaration (h : s.Varies V t) :
    Alike (Fault.Varies V) (Declaration.Varies V) s.declaration t.declaration := by
  have hrel := Token.splitSeparator?_rel Token.Varies.kind (Token.varies_of_placed h.tokens) 0
  rcases rel_cases hrel with ⟨hs, ht⟩ | ⟨x, y, hs, ht, hbefore, hcolon, hafter⟩
  · refine (alike_forbidSemicolon h).bind fun _ _ _ => (alike_forbidBrace h).bind fun _ _ _ => ?_
    simp only [hs, ht]
    exact .error ⟨rfl, h.stands_place⟩
  · exact alike_parts h hs ht hbefore hcolon hafter

theorem comment_of_line {body : Text} (hk : s.first.head.kind = .lineComment)
    (hb : s.first.head.text = '/' :: '/' :: body) : s.comment =
      { text := body.trimParts.2.1, form := .line, left := body.trimParts.1,
        right := body.trimParts.2.2 } := by
  simp only [comment, hk, if_true, hb, List.drop_succ_cons, List.drop_zero]

theorem comment_of_block {body : Text} (hk : s.first.head.kind = .blockComment)
    (hb : s.first.head.text = '/' :: '*' :: body ++ ['*', '/']) : s.comment =
      { text := body.trimParts.2.1, form := .block, left := body.trimParts.1,
        right := body.trimParts.2.2, trailing := join s.rest } := by
  have hinside := hb ▸ Text.inside_blockComment body
  simp only [comment, hk, reduceCtorEq, if_false, hinside]

theorem varies_comment (h : s.Varies V t) (hk : s.kind = .comment) :
    s.comment.Varies V t.comment := by
  have hspells := h.formed.spells
  have hkind : t.first.head.kind = s.first.head.kind := h.head.kind
  have htext := h.head_text
  by_cases hl : s.first.head.kind = .lineComment
  · rw [hl] at hspells hkind
    obtain ⟨body, hb⟩ := hspells
    rw [hb, Text.withBreaks_cons (by decide), Text.withBreaks_cons (by decide)] at htext
    rw [comment_of_line hl hb, comment_of_line hkind htext, Text.trimParts_withBreaks V.spells]
    exact ⟨rfl, rfl, rfl, rfl, .none⟩
  · have hblock := h.formed.blockComment hk hl
    rw [hblock] at hspells hkind
    obtain ⟨body, hb⟩ := hspells
    rw [hb, Text.withBreaks_append, Text.withBreaks_cons (by decide),
      Text.withBreaks_cons (by decide), Text.withBreaks_of_not_mem (t := ['*', '/']) (by decide)]
      at htext
    rw [comment_of_block hblock hb, comment_of_block hkind htext,
      Text.trimParts_withBreaks V.spells]
    exact ⟨rfl, rfl, rfl, rfl, .some (Token.field_join h.rest)⟩

/-- A statement of a variant reads as what stands for the item that the statement of the text reads
as. -/
theorem alike_item (h : s.Varies V t) :
    Alike (Fault.Varies V) (Item.Varies V) s.item t.item := by
  unfold item
  rw [h.kind]
  cases hk : s.kind with
  | comment => exact .ok (.comment (varies_comment h hk))
  | atRule => exact (alike_atRule h hk).map fun _ _ => .atRule
  | rule => exact (alike_rule h).map fun _ _ => .rule
  | declaration => exact (alike_declaration h).map fun _ _ => .declaration

theorem alike_node (h : s.Varies V t) : Alike (Fault.Varies V) (Node.Varies V) s.node t.node :=
  (alike_item h).map fun _ _ hitem => ⟨hitem, .some h.first.lead, .some ⟨h.stands_place,
    Token.stands_contentEnd h.tokens ⟨s.first.head, List.mem_cons_self, h.isWhitespace_head⟩⟩⟩

end Statement

end OffsideCss
