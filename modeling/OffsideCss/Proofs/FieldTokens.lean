import OffsideCss.Proofs.NodeTokens

/-! The tokens of a field.  Parentheses are closed where a line ends, so the tokens of a node, and those
of each field of it, are what the scanner makes of their text alone. -/

namespace OffsideCss

open Token (join scan scanFrom depthAfter White Expands)

/-! ### Open parentheses -/

namespace Token

variable {ts us : List Token}

theorem White.depthAfter_eq (h : White ts) (depth : Nat) : depthAfter depth ts = depth := by
  induction ts with
  | nil => rfl
  | cons t ts ih =>
    obtain ⟨ht, hts⟩ := List.forall_mem_cons.1 h
    have hnesting : t.kind.nesting depth = depth := by
      rw [isWhitespace] at ht
      cases hk : t.kind <;> simp_all [TokenKind.isWhitespace, TokenKind.nesting]
    rw [depthAfter_cons, hnesting, ih hts]

theorem Expands.depthAfter_eq (h : Expands us ts) (depth : Nat) :
    depthAfter depth ts = depthAfter depth us := by
  induction h generalizing depth with
  | nil => rfl
  | token _ ih => rw [depthAfter_cons, depthAfter_cons, ih]
  | joint hws _ ih => rw [depthAfter_append, hws.depthAfter_eq, ih]; rfl

theorem depthAfter_of_isTrivia (h : ∀ t ∈ ts, t.kind.isTrivia = true) (depth : Nat) :
    depthAfter depth ts = depth := by
  induction ts with
  | nil => rfl
  | cons t ts ih =>
    obtain ⟨ht, hts⟩ := List.forall_mem_cons.1 h
    have hnesting : t.kind.nesting depth = depth := by
      cases hk : t.kind <;>
        simp_all [TokenKind.isTrivia, TokenKind.isWhitespace, TokenKind.isComment, TokenKind.nesting]
    rw [depthAfter_cons, hnesting, ih hts]

theorem depthAfter_of_splitSeparator? {depth : Nat} {before after : List Token} {colon : Token}
    (h : splitSeparator? depth ts = some (before, colon, after)) : depthAfter depth before = 0 := by
  induction ts generalizing depth before with
  | nil => simp [splitSeparator?] at h
  | cons t ts ih =>
    rw [splitSeparator?] at h
    split at h
    · next ht =>
      obtain ⟨rfl, -⟩ : [] = before ∧ t = colon ∧ ts = after := by simpa using h
      exact ht.2.1
    · obtain ⟨⟨b, c, a⟩, hsep, he⟩ := Option.map_eq_some_iff.1 h
      obtain ⟨rfl, rfl, rfl⟩ : t :: b = before ∧ c = colon ∧ a = after := by simpa using he
      rw [depthAfter_cons]
      exact ih hsep

end Token

namespace Line

theorem depthAfter_rowsFrom {depth : Nat} {ts row : List Token} {rest : List (List Token)}
    (h : depthAfter depth ts = 0) (hrows : rowsFrom depth ts = row :: rest) :
    depthAfter depth row = 0 ∧ ∀ r ∈ rest, depthAfter 0 r = 0 := by
  induction ts generalizing depth row rest with
  | nil =>
    obtain ⟨rfl, rfl⟩ := List.cons.inj hrows
    exact ⟨h, by simp⟩
  | cons t ts ih =>
    rw [Token.depthAfter_cons] at h
    rcases rowsFrom_eq_cons hrows with ⟨hk, rfl, rfl, rfl⟩ | ⟨-, inside, rfl, hs⟩
    · rw [hk] at h
      refine ⟨by simp [hk, TokenKind.nesting], ?_⟩
      cases hr : rowsFrom 0 ts with
      | nil => simp
      | cons row rest =>
        obtain ⟨hrow, hrest⟩ := ih h hr
        exact List.forall_mem_cons.2 ⟨hrow, hrest⟩
    · rw [Token.depthAfter_cons]
      exact ih h hs

theorem depthAfter_of_mem_ofRows {place : Place} {gap : Text} {rs : List (List Token)} {l : Line}
    (hrs : ∀ row ∈ rs, depthAfter 0 row = 0) (h : l ∈ (ofRows place gap rs).1) :
    depthAfter 0 l.tokens = 0 := by
  obtain ⟨rs₁, row, rs₂, rfl, htokens, -, -⟩ := exists_row_of_mem_ofRows h
  have hrow := hrs row (by simp)
  obtain ⟨is, hindent, his, -⟩ := exists_splitIndent row
  obtain ⟨bs, hbreak, hbs, -⟩ := exists_splitBreak (splitIndent row).2
  rwa [hindent, Token.depthAfter_append, his.depthAfter_eq, hbreak, Token.depthAfter_append,
    hbs.depthAfter_eq, htokens] at hrow

/-- The parentheses of a line are closed in it. -/
theorem depthAfter_tokens {ts : List Token} {ls : List Line} {after : Text}
    (h : ofTokens ts = .ok (ls, after)) {l : Line} (hl : l ∈ ls) : depthAfter 0 l.tokens = 0 := by
  obtain ⟨-, hdepth, hrows⟩ := ofTokens_eq_ok.1 h
  have hline : l ∈ (ofRows .first [] (rowsFrom 0 ts)).1 := by rwa [hrows]
  refine depthAfter_of_mem_ofRows ?_ hline
  cases hr : rowsFrom 0 ts with
  | nil => simp
  | cons row rest =>
    obtain ⟨hrow, hrest⟩ := depthAfter_rowsFrom hdepth hr
    exact List.forall_mem_cons.2 ⟨hrow, hrest⟩

end Line

/-- The parentheses of a statement are closed in it. -/
theorem Statement.depthAfter_tokens {ts : List Token} {ls : List Line} {after : Text}
    (h : Line.ofTokens ts = .ok (ls, after)) {s : Statement} (hs : s ∈ group ls) :
    depthAfter 0 s.tokens = 0 := by
  have hlines : ∀ l ∈ s.lines, depthAfter 0 l.tokens = 0 :=
    fun l hl => Line.depthAfter_tokens h (mem_of_mem_group hs hl)
  obtain ⟨hfirst, hmore⟩ := List.forall_mem_cons.1 hlines
  have hrest : depthAfter 0 (s.more.flatMap fun l => l.joint :: l.tokens) = 0 := by
    generalize s.more = more at hmore
    induction more with
    | nil => rfl
    | cons l more ih =>
      obtain ⟨hl, hmore⟩ := List.forall_mem_cons.1 hmore
      rw [List.flatMap_cons, Token.depthAfter_append, Token.depthAfter_cons]
      show depthAfter (depthAfter 0 l.tokens) _ = 0
      rw [hl, ih hmore]
  rw [tokens, rest, ← List.cons_append, Token.depthAfter_append]
  show depthAfter (depthAfter 0 s.first.tokens) _ = 0
  rw [hfirst, hrest]

/-! ### Tokens of a text alone -/

/-- Whether tokens are those of their text alone, close the parentheses that they open, and neither
brace anything nor leave it unclosed. -/
structure Token.Whole (ts : List Token) : Prop where
  scan : scan (join ts) = ts
  depth : depthAfter 0 ts = 0
  plain : ∀ t ∈ ts, t.kind ≠ .unclosed ∧ t.kind.isBrace = false

namespace Token

variable {a ts b us : List Token}

/-- What stands behind tokens that close their parentheses has the tokens of its text alone. -/
theorem scan_part {t : Text} (h : OffsideCss.Token.scan t = a ++ (ts ++ b)) (ha : depthAfter 0 a = 0) :
    OffsideCss.Token.scan (join ts) = ts := by
  have hsuffix := scanFrom_suffix h
  rw [ha, join_append] at hsuffix
  exact scanFrom_cut hsuffix rfl

theorem Whole.part (h : Whole (a ++ (ts ++ b))) (ha : depthAfter 0 a = 0) (hts : depthAfter 0 ts = 0) :
    Whole ts where
  scan := scan_part h.scan ha
  depth := hts
  plain t ht := h.plain t (by simp [ht])

end Token

/-- The fields of an item, with their literal texts. -/
def Item.fields : Item → List (Option Literal × Text)
  | .atRule a => [(a.paramsLiteral, a.params)]
  | .rule r => [(r.selectorLiteral, r.selector)]
  | .declaration d => [(d.valueLiteral, d.value)]
  | .comment _ => []

namespace Statement

open Token (Whole)

variable {s : Statement} {i : Item} {ts : List Token}

theorem whole_atRule (hk : s.kind = .atRule) (hf : s.Formed) (he : Expands s.tokens ts)
    (hw : Whole ts) :
    ∃ us, Whole us ∧ Token.Captures us s.atRuleOf.params s.atRuleOf.paramsLiteral := by
  obtain ⟨space, params, trailing, rfl, ⟨hspace, -⟩, hparams, htrailing, -⟩ := split_atRule hk hf he
  have hhead : depthAfter 0 (s.first.head :: space) = 0 := by
    rw [Token.depthAfter_cons, hspace.depthAfter_eq, hf.atRule hk]
    rfl
  have hdepth := hw.depth
  rw [List.append_assoc, ← List.cons_append, Token.depthAfter_append, hhead, Token.depthAfter_append,
    htrailing.depthAfter_eq] at hdepth
  rw [List.append_assoc, ← List.cons_append] at hw
  exact ⟨params, hw.part hhead hdepth, hparams⟩

theorem whole_rule (he : Expands s.tokens ts) (hw : Whole ts) :
    ∃ us, Whole us ∧ Token.Captures us s.ruleOf.selector s.ruleOf.selectorLiteral := by
  obtain ⟨selector, trailing, rfl, hselector, htrailing, -⟩ := split_rule he
  have hdepth := hw.depth
  rw [Token.depthAfter_append, htrailing.depthAfter_eq] at hdepth
  exact ⟨selector, Whole.part (a := []) hw rfl hdepth, hselector⟩

/-- The tokens of the property, and those of the value, of a declaration. -/
theorem whole_declaration (he : Expands s.tokens ts) (hw : Whole ts)
    {before after : List Token} {colon : Token}
    (hsep : Token.splitSeparator? 0 s.tokens = some (before, colon, after))
    (htrivia : ∀ t ∈ before.dropWhile fun t => !t.kind.isTrivia, t.kind.isTrivia = true) :
    Whole (before.takeWhile fun t => !t.kind.isTrivia) ∧ ∃ us, Whole us ∧
      Token.Captures us (declarationOf before colon after).value
        (declarationOf before colon after).valueLiteral := by
  have hk := Token.kind_of_splitSeparator? hsep
  have hbefore := Token.depthAfter_of_splitSeparator? hsep
  rw [← List.takeWhile_append_dropWhile (l := before) (p := fun t => !t.kind.isTrivia),
    Token.depthAfter_append, Token.depthAfter_of_isTrivia htrivia] at hbefore
  obtain ⟨trivia, space, value, rfl, htriv, ⟨hspace, -⟩, hvalue⟩ := split_declaration he hsep
  have hfront : depthAfter 0 ((before.takeWhile fun t => !t.kind.isTrivia) ++
      (trivia ++ colon :: space)) = 0 := by
    rw [Token.depthAfter_append, hbefore, Token.depthAfter_append, htriv.depthAfter_eq,
      Token.depthAfter_of_isTrivia htrivia, Token.depthAfter_cons, hspace.depthAfter_eq, hk]
    rfl
  refine ⟨Whole.part (a := []) hw rfl hbefore, value, ?_, hvalue⟩
  have hsplit : (before.takeWhile fun t => !t.kind.isTrivia) ++
      (trivia ++ colon :: (space ++ value)) = (before.takeWhile fun t => !t.kind.isTrivia) ++
        (trivia ++ colon :: space) ++ (value ++ []) := by simp
  rw [hsplit] at hw
  refine hw.part hfront ?_
  have hdepth := hw.depth
  rwa [Token.depthAfter_append, hfront, List.append_nil] at hdepth

/-- Each field of an item is read from tokens of a text alone. -/
theorem whole_of_item (h : s.item = .ok i) (hf : s.Formed) (he : Expands s.tokens ts)
    (hw : Whole ts) : ∀ x ∈ i.fields, ∃ us, Whole us ∧ Token.Captures us x.2 x.1 := by
  rcases item_eq_ok.1 h with ⟨-, rfl⟩ | ⟨hk, a, ha, rfl⟩ | ⟨-, r, hr, rfl⟩ | ⟨-, d, hd, rfl⟩
  · simp [Item.fields]
  · obtain ⟨-, -, rfl⟩ := atRule_eq_ok.1 ha
    simpa [Item.fields] using whole_atRule hk hf he hw
  · obtain ⟨-, rfl⟩ := rule_eq_ok.1 hr
    simpa [Item.fields] using whole_rule he hw
  · obtain ⟨-, before, colon, after, hsep, htrivia, -, rfl⟩ := declaration_eq_ok.1 hd
    simpa [Item.fields] using (whole_declaration he hw hsep htrivia).2

end Statement

namespace Sheet

open Token (Whole)

variable {name : String} {source : Text} {s : Sheet}

/-- What the lines of a text make of its tokens: each node takes a share of them. -/
theorem takes_of_parse (h : parse name source = .ok s) : ∃ (shares : List Share) (rest : List Token),
    scan source = shares.flatMap Share.tokens ++ rest ∧
      List.Forall₂ (fun v x => ∃ t : Statement, t.Formed ∧ t.node = .ok v.node ∧ t.Takes x ∧
        depthAfter 0 t.tokens = 0) s.outline shares := by
  obtain ⟨lines, vs, hlines, hlists, hnodes⟩ := exists_of_parse h
  have hwoven := Line.woven_of_ofTokens hlines
  rw [← Statement.flatMap_lines_group lines] at hwoven
  obtain ⟨shares, rest, hscan, hshares, -, -⟩ :=
    Statement.exists_shares (fun t ht => Token.spells_of_mem_scan ht) hwoven
  refine ⟨shares, rest, hscan, ?_⟩
  have hgroup : ∀ t ∈ Statement.group lines, t.Formed ∧ depthAfter 0 t.tokens = 0 :=
    fun t ht => ⟨Statement.formed_of_mem_group hlines ht, Statement.depthAfter_tokens hlines ht⟩
  rw [hlists.outline_eq]
  refine (forall₂_of_common ((List.forall₂_and_left _ _).2 ⟨hgroup, hnodes⟩) hshares).imp ?_
  rintro v x ⟨t, ⟨⟨hf, hdepth⟩, hn⟩, htakes⟩
  exact ⟨t, hf, hn, htakes, hdepth⟩

theorem depthAfter_shares {vs : List Visit} {shares : List Share}
    (h : List.Forall₂ (fun (_ : Visit) x => ∃ t : Statement, t.Takes x ∧ depthAfter 0 t.tokens = 0)
      vs shares) : depthAfter 0 (shares.flatMap Share.tokens) = 0 := by
  induction h with
  | nil => rfl
  | cons hx _ ih =>
    obtain ⟨t, htakes, hdepth⟩ := hx
    rw [List.flatMap_cons, Share.tokens, Token.depthAfter_append, Token.depthAfter_append,
      htakes.white.depthAfter_eq, htakes.own.depthAfter_eq, hdepth, ih]

/-- Each node of a sheet was read from a statement, whose tokens stand for tokens of a text alone. -/
theorem whole_of_parse (h : parse name source = .ok s) {v : Visit} (hv : v ∈ s.outline) :
    ∃ (t : Statement) (ts : List Token), t.Formed ∧ t.node = .ok v.node ∧ Expands t.tokens ts ∧
      Whole ts := by
  obtain ⟨lines, -, hlines, -, -⟩ := exists_of_parse h
  obtain ⟨shares, rest, hscan, hshares⟩ := takes_of_parse h
  obtain ⟨pre, post, hvs⟩ := List.append_of_mem hv
  rw [hvs] at hshares
  obtain ⟨front, x, back, rfl, hfront, ⟨t, hf, hn, htakes, hdepth⟩, -⟩ :=
    exists_split_of_forall₂ hshares.flip
  obtain ⟨i, hi, -⟩ := Statement.node_eq_ok.1 hn
  have hbefore : depthAfter 0 (front.flatMap Share.tokens ++ x.lead) = 0 := by
    rw [Token.depthAfter_append, htakes.white.depthAfter_eq]
    exact depthAfter_shares (hfront.flip.imp fun _ _ ⟨t, _, _, htakes, hdepth⟩ => ⟨t, htakes, hdepth⟩)
  rw [List.flatMap_append, List.flatMap_cons, Share.tokens] at hscan
  have hown : scan source = (front.flatMap Share.tokens ++ x.lead) ++
      (x.own ++ (back.flatMap Share.tokens ++ rest)) := by rw [hscan]; simp
  refine ⟨t, x.own, hf, hn, htakes.own, Token.scan_part hown hbefore,
    (htakes.own.depthAfter_eq 0).trans hdepth, fun tok htok => ⟨?_, ?_⟩⟩
  · exact (Line.ofTokens_eq_ok.1 hlines).1 tok (by simp [hown, htok])
  · refine htakes.own.forall_kind (p := fun k => k.isBrace = false)
      (fun k hk => (TokenKind.delimits_of_isWhitespace hk).1) (fun u hu => ?_) tok htok
    exact (Statement.delimits_of_item hi hf u hu).1

end Sheet

end OffsideCss
