import Mathlib.Data.List.Infix
import OffsideCss.Proofs.FieldTokens

/-! Open parentheses are counted three times: the scanner counts them, the cut into rows keeps them on a
stack, and the search for the colon of a line counts them again from the first token of the line.  The
three counts agree.  A colon that ends a line still separates when other lines are joined to it, since
a joint is whitespace as the line break was. -/

namespace OffsideCss

open Token (depthAfter join scan scanFrom)

namespace Token

/-- The number of open parentheses that the scanner knows of before each token of a text behind `depth`
of them, and at the end of the text. -/
def scanDepths (depth : Nat) : Text → List Nat
  | [] => [depth]
  | c :: rest =>
    let step := next depth c rest
    depth :: scanDepths (step.1.kind.nesting depth) step.2
termination_by t => t.length
decreasing_by exact next_length_lt depth c rest

theorem scanDepths_eq (depth : Nat) (t : Text) :
    scanDepths depth t = (scanFrom depth t).inits.map (depthAfter depth) := by
  fun_induction scanDepths depth t with
  | case1 => simp
  | case2 depth c rest step ih =>
    rw [scanFrom_cons, List.inits_cons, List.map_cons, List.map_map, ih]
    rfl

/-! ### The search for the colon -/

variable {depth : Nat} {ts us before after : List Token} {colon : Token}

/-- Whether a colon behind `before` splits tokens with `depth` open parentheses before them: none are open
where it stands, and whitespace or nothing follows it. -/
structure Separates (depth : Nat) (ts before : List Token) (colon : Token) (after : List Token) :
    Prop where
  cut : before ++ colon :: after = ts
  kind : colon.kind = .colon
  outside : depthAfter depth before = 0
  blank : after.head?.all isWhitespace = true

theorem separates_cons {t : Token} : Separates depth (t :: ts) (t :: before) colon after ↔
    Separates (t.kind.nesting depth) ts before colon after := by
  constructor
  · rintro ⟨hcut, hkind, houtside, hblank⟩
    exact ⟨(List.cons.inj hcut).2, hkind, houtside, hblank⟩
  · rintro ⟨rfl, hkind, houtside, hblank⟩
    exact ⟨rfl, hkind, houtside, hblank⟩

/-- The search finds the first colon that splits the tokens. -/
theorem splitSeparator?_eq_some : splitSeparator? depth ts = some (before, colon, after) ↔
    Separates depth ts before colon after ∧ ∀ {before' colon' after'},
      Separates depth ts before' colon' after' → before.length ≤ before'.length := by
  induction ts generalizing depth before with
  | nil =>
    refine iff_of_false (by simp [splitSeparator?]) ?_
    rintro ⟨h, -⟩
    simpa using h.cut
  | cons t ts ih =>
    rw [splitSeparator?]
    split
    · next ht =>
      have hhead : Separates depth (t :: ts) [] t ts := ⟨rfl, ht.1, ht.2.1, ht.2.2⟩
      constructor
      · intro h
        obtain ⟨rfl, rfl, rfl⟩ : [] = before ∧ t = colon ∧ ts = after := by simpa using h
        exact ⟨hhead, fun _ => Nat.zero_le _⟩
      · rintro ⟨h, hfirst⟩
        obtain rfl := List.eq_nil_of_length_eq_zero (Nat.le_zero.1 (hfirst hhead))
        obtain ⟨rfl, rfl⟩ := List.cons.inj h.cut
        rfl
    · next ht =>
      have hlater : ∀ {b c a}, Separates depth (t :: ts) b c a → ∃ b', b = t :: b' ∧
          Separates (t.kind.nesting depth) ts b' c a := by
        intro b c a h
        cases b with
        | nil =>
          obtain ⟨rfl, rfl⟩ := List.cons.inj h.cut
          exact absurd ⟨h.kind, h.outside, h.blank⟩ ht
        | cons u b =>
          obtain ⟨rfl, -⟩ := List.cons.inj h.cut
          exact ⟨b, rfl, separates_cons.1 h⟩
      constructor
      · intro h
        obtain ⟨⟨b, c, a⟩, hs, he⟩ := Option.map_eq_some_iff.1 h
        obtain ⟨rfl, rfl, rfl⟩ : t :: b = before ∧ c = colon ∧ a = after := by simpa using he
        obtain ⟨hsep, hfirst⟩ := ih.1 hs
        refine ⟨separates_cons.2 hsep, fun h' => ?_⟩
        obtain ⟨b', rfl, hsep'⟩ := hlater h'
        exact Nat.succ_le_succ (hfirst hsep')
      · rintro ⟨h, hfirst⟩
        obtain ⟨b, rfl, hsep⟩ := hlater h
        rw [ih.2 ⟨hsep, fun h' => Nat.le_of_succ_le_succ (hfirst (separates_cons.2 h'))⟩]
        rfl

/-- The search for the colon ends in the first tokens, or goes on behind them with the parentheses that
they leave open. -/
theorem splitSeparator?_split (depth : Nat) (ts us : List Token) :
    (∃ before colon after, splitSeparator? depth (ts ++ us) = some (before, colon, after) ∧
      before.length < ts.length) ∨
    splitSeparator? depth (ts ++ us) = (splitSeparator? (depthAfter depth ts) us).map
      fun (before, colon, after) => (ts ++ before, colon, after) := by
  induction ts generalizing depth with
  | nil => exact .inr (by simp)
  | cons t ts ih =>
    rw [List.cons_append, splitSeparator?, depthAfter_cons]
    split
    · exact .inl ⟨[], t, ts ++ us, rfl, by simp⟩
    · rcases ih (t.kind.nesting depth) with ⟨before, colon, after, h, hlength⟩ | h
      · exact .inl ⟨t :: before, colon, after, by rw [h]; rfl, by simpa using hlength⟩
      · refine .inr ?_
        rw [h, Option.map_map]
        rfl

/-- The colon that separates still does when whitespace follows. -/
theorem splitSeparator?_append_right (hus : us.head?.all isWhitespace = true)
    (h : splitSeparator? depth ts = some (before, colon, after)) :
    splitSeparator? depth (ts ++ us) = some (before, colon, after ++ us) := by
  induction ts generalizing depth before with
  | nil => simp [splitSeparator?] at h
  | cons t ts ih =>
    rw [splitSeparator?] at h
    rw [List.cons_append, splitSeparator?]
    split at h
    · next ht =>
      obtain ⟨rfl, rfl, rfl⟩ : [] = before ∧ t = colon ∧ ts = after := by simpa using h
      have hnext : (ts ++ us).head?.all isWhitespace = true := by
        cases ts with
        | nil => exact hus
        | cons u ts => exact ht.2.2
      rw [if_pos ⟨ht.1, ht.2.1, hnext⟩]
    · next ht =>
      obtain ⟨⟨b, c, a⟩, hsep, he⟩ := Option.map_eq_some_iff.1 h
      obtain ⟨rfl, rfl, rfl⟩ : t :: b = before ∧ c = colon ∧ a = after := by simpa using he
      cases ts with
      -- nothing is found behind the last token
      | nil => simp [splitSeparator?] at hsep
      | cons u ts =>
        have hnext : ¬(t.kind = .colon ∧ depth = 0 ∧
            (u :: ts ++ us).head?.all isWhitespace = true) := ht
        rw [if_neg hnext, ih hsep]
        rfl

end Token

namespace Line

open Token (splitSeparator? scanDepths)

/-! ### Rows -/

/-- A line break outside parentheses ends the row that it stands in. -/
theorem eq_nil_of_lineBreak {depth : Nat} {ts row : List Token} {rest : List (List Token)}
    (h : rowsFrom depth ts = row :: rest) {p q : List Token} {t : Token} (hrow : row = p ++ t :: q)
    (hk : t.kind = .lineBreak) (hdepth : depthAfter depth p = 0) : q = [] := by
  induction ts generalizing depth row p with
  | nil =>
    obtain ⟨rfl, -⟩ := List.cons.inj h
    simp at hrow
  | cons u ts ih =>
    rcases rowsFrom_eq_cons h with ⟨-, -, rfl, -⟩ | ⟨hu, inside, rfl, hs⟩
    · rcases List.append_eq_singleton_iff.1 hrow.symm with ⟨-, h⟩ | ⟨-, h⟩
      · exact (List.cons.inj h).2
      · exact absurd h (List.cons_ne_nil t q)
    · cases p with
      | nil =>
        obtain ⟨rfl, -⟩ := List.cons.inj hrow
        exact absurd ⟨hk, hdepth⟩ hu
      | cons v p =>
        obtain ⟨rfl, hinside⟩ := List.cons.inj hrow
        exact ih hs hinside hdepth

/-- What is left of a row without its line break has a line break only in parentheses. -/
theorem depthAfter_pos_of_lineBreak {ts row : List Token} {rest : List (List Token)}
    (h : rowsFrom 0 ts = row :: rest) {p q : List Token} {t : Token}
    (htokens : (splitBreak (splitIndent row).2).1 = p ++ t :: q) (hk : t.kind = .lineBreak) :
    0 < depthAfter 0 p := by
  obtain ⟨is, hindent, his, -⟩ := exists_splitIndent row
  obtain ⟨bs, hbreak, -, -⟩ := exists_splitBreak (splitIndent row).2
  refine Nat.pos_of_ne_zero fun hdepth => ?_
  have hrow : row = (is ++ p) ++ t :: (q ++ bs) := by
    rw [hindent, hbreak, htokens]
    simp
  have hlast := eq_nil_of_lineBreak h hrow hk (by
    rw [Token.depthAfter_append, his.depthAfter_eq, hdepth])
  obtain ⟨rfl, rfl⟩ := List.append_eq_nil_iff.1 hlast
  -- so the row ends with the line break, which is not among its other tokens
  rw [List.append_nil] at hbreak
  rw [← hbreak] at htokens
  rw [htokens] at hbreak
  simp [splitBreak, hk] at hbreak

/-! ### The three counts -/

/-- The parentheses that are open behind the first tokens of a text, innermost first. -/
def opened (ts : List Token) : List Place := (rows .first [] ts).2

theorem length_opened (ts : List Token) : (opened ts).length = depthAfter 0 ts :=
  length_rows_opened .first [] ts

/-- Whether, behind the tokens `before` of a text, a colon splits the tokens of a line: no parentheses of
the text are open where it stands, and whitespace or nothing follows it in the line. -/
structure SplitBy (before : List Token) (l : Line) (x : List Token) (colon : Token) (y : List Token) :
    Prop where
  cut : l.tokens = x ++ colon :: y
  kind : colon.kind = .colon
  outside : opened (before ++ x) = []
  blank : y.head?.all Token.isWhitespace = true

/-- Where the search counts the parentheses that are open in the text, the same colons split the line. -/
theorem splitBy_iff {l : Line} {before x y : List Token} {colon : Token}
    (h : (opened (before ++ x)).length = depthAfter 0 x) :
    SplitBy before l x colon y ↔ Token.Separates 0 l.tokens x colon y := by
  constructor
  · intro hs
    exact ⟨hs.cut.symm, hs.kind, by rw [← h, hs.outside, List.length_nil], hs.blank⟩
  · intro hs
    exact ⟨hs.cut.symm, hs.kind, List.eq_nil_of_length_eq_zero (h.trans hs.outside), hs.blank⟩

/-- Whether a line stands behind the tokens `before` of a text, and the search for its colon counts the
parentheses that are open in the text. -/
structure Counts (source : Text) (before : List Token) (l : Line) : Prop where
  cut : ∃ after, scan source = before ++ (l.tokens ++ after)
  place : l.place.after l.indent = Place.first.after (join before)
  start : opened before = []
  head : l.head.isWhitespace = false
  depth : ∀ p q, l.tokens = p ++ q → (opened (before ++ p)).length = depthAfter 0 p
  search : ∀ p q, l.tokens = p ++ q →
    (∃ x colon y, splitSeparator? 0 l.tokens = some (x, colon, y) ∧ x.length < p.length) ∨
      splitSeparator? 0 l.tokens =
        (splitSeparator? (depthAfter 0 p) q).map fun (x, colon, y) => (p ++ x, colon, y)
  /-- What is found is the first colon outside the parentheses of the text that whitespace or nothing
  follows. -/
  found : ∀ x colon y, splitSeparator? 0 l.tokens = some (x, colon, y) ↔
    SplitBy before l x colon y ∧
      ∀ x' colon' y', SplitBy before l x' colon' y' → x.length ≤ x'.length
  inside : ∀ p t q, l.tokens = p ++ t :: q → t.kind = .lineBreak → opened (before ++ p) ≠ []
  /-- The colon stays where it is, whatever lines are joined to this one. -/
  separator : l.hasColon = true → ∀ kind more, ∃ x colon y,
    splitSeparator? 0 l.tokens = some (x, colon, y) ∧
    splitSeparator? 0 (Statement.mk kind l more).tokens =
      some (x, colon, y ++ more.flatMap fun k => k.joint :: k.tokens)

theorem exists_separator {l : Line} (h : l.hasColon = true) (kind : NodeKind) (more : List Line) :
    ∃ x colon y, splitSeparator? 0 l.tokens = some (x, colon, y) ∧
      splitSeparator? 0 (Statement.mk kind l more).tokens =
        some (x, colon, y ++ more.flatMap fun k => k.joint :: k.tokens) := by
  obtain ⟨⟨x, colon, y⟩, hsep⟩ := Option.isSome_iff_exists.1 h
  refine ⟨x, colon, y, hsep, Token.splitSeparator?_append_right ?_ hsep⟩
  cases more <;> rfl

/-- The scanner, the cut into rows, and the search for the colon of each line count the parentheses of a
text alike. -/
theorem exists_counts {source : Text} (hunclosed : ∀ t ∈ scan source, t.kind ≠ .unclosed)
    (hopened : opened (scan source) = []) :
    scanDepths 0 source = ((scan source).inits.map fun ts => (opened ts).length) ∧
      ∃ lines after, ofTokens (scan source) = .ok (lines, after) ∧
        ∀ l ∈ lines, ∃ before, Counts source before l := by
  have hdepth : depthAfter 0 (scan source) = 0 := by rw [← length_opened, hopened]; rfl
  have hlines := ofTokens_eq_ok.2 ⟨hunclosed, hdepth, rfl⟩
  refine ⟨?_, _, _, hlines, fun l hl => ?_⟩
  · rw [Token.scanDepths_eq]
    exact List.map_congr_left fun ts _ => (length_opened ts).symm
  -- before the line stand the rows before its own, and its indentation
  obtain ⟨rs₁, row, rs₂, hrows, htokens, hindent, hplace⟩ := exists_row_of_mem_ofRows hl
  obtain ⟨is, hrow, his, hjoin⟩ := exists_splitIndent row
  obtain ⟨bs, hbreak, -, -⟩ := exists_splitBreak (splitIndent row).2
  obtain ⟨hends, hrest⟩ := rowsFrom_split hrows (by simp)
  have hzero : depthAfter 0 (rs₁.flatten ++ is) = 0 := by
    rw [Token.depthAfter_append, his.depthAfter_eq]
    rcases hends with rfl | hends
    · rfl
    · exact hends.depthAfter_eq
  have hcut : scan source = rs₁.flatten ++ is ++ (l.tokens ++ (bs ++ rs₂.flatten)) := by
    rw [← flatten_rowsFrom 0 (scan source), hrows, List.flatten_append, List.flatten_cons, hrow,
      hbreak, htokens]
    simp
  have hcount : ∀ p, (opened (rs₁.flatten ++ is ++ p)).length = depthAfter 0 p := by
    intro p
    rw [length_opened, Token.depthAfter_append, hzero]
  exact ⟨rs₁.flatten ++ is, {
    cut := ⟨_, hcut⟩
    place := by rw [hplace, ← hindent, ← hjoin, ← Place.after_append, Token.join_append]
    start := List.eq_nil_of_length_eq_zero (by rw [length_opened, hzero])
    head := head_of_ofTokens hlines hl
    depth := fun p _ _ => hcount p
    search := fun p q hpq => by
      rw [hpq]
      exact Token.splitSeparator?_split 0 p q
    found := fun x colon y => by
      simp only [Token.splitSeparator?_eq_some, splitBy_iff (hcount _)]
    inside := fun p t q hpq hk => by
      rw [← List.length_pos_iff, hcount]
      exact depthAfter_pos_of_lineBreak hrest (htokens.trans hpq) hk
    separator := fun hcolon kind more => exists_separator hcolon kind more }⟩

/-- None of the counts falls below zero at a closing parenthesis without a partner, and a line goes on
behind line breaks in its parentheses up to the colon that ends it. -/
theorem exists_counts_stray_paren :
    let source := Text.ofString ") a\n\t)b (\n(\n:) c\n) :\r\n\n  // d\n  e: f\n"
    (∀ t ∈ scan source, t.kind ≠ .unclosed) ∧ opened (scan source) = [] ∧
      (∃ lines after, ofTokens (scan source) = .ok (lines, after) ∧
        ∀ l ∈ lines, ∃ before, Counts source before l) ∧
      scanDepths 0 source =
        [0, 0, 0, 0, 0, 0, 0, 0, 0, 1, 1, 2, 2, 2, 1, 1, 1, 1, 0, 0, 0, 0, 0, 0, 0, 0, 0, 0, 0, 0, 0,
          0] := by
  intro source
  have hunclosed : ∀ t ∈ scan source, t.kind ≠ .unclosed := by decide +kernel
  have hopened : opened (scan source) = [] := by decide +kernel
  exact ⟨hunclosed, hopened, (exists_counts hunclosed hopened).2, by decide +kernel⟩

end Line

end OffsideCss
