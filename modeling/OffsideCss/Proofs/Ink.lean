import Mathlib.Data.List.SplitBy
import Mathlib.Data.List.TakeWhile
import OffsideCss.Proofs.LineGaps
import OffsideCss.Proofs.StatementText

/-! Ink.  The ink of a text is what is left of it without blanks.  Writing an item in canonical spacing
puts nothing but blanks between its parts, and reading a statement drops nothing but blanks and
comments, so the ink of an item tells how much of a text it takes. -/

namespace OffsideCss

open Token (join scan)

@[simp] theorem isBlank_at : isBlank '@' = false := by decide

@[simp] theorem isBlank_colon : isBlank ':' = false := by decide

@[simp] theorem isBlank_slash : isBlank '/' = false := by decide

@[simp] theorem isBlank_star : isBlank '*' = false := by decide

namespace Text

/-- The characters of a text that are not blank. -/
def ink (t : Text) : Text := t.filter fun c => !isBlank c

@[simp] theorem ink_nil : ink [] = [] := rfl

@[simp] theorem ink_append (t u : Text) : (t ++ u).ink = t.ink ++ u.ink := List.filter_append t u

theorem ink_cons {c : Char} (h : isBlank c = false) (t : Text) : ink (c :: t) = c :: t.ink := by
  simp [ink, h]

theorem ink_eq_nil {t : Text} : t.ink = [] ↔ ∀ c ∈ t, isBlank c = true := by
  simp [ink]

theorem IsWhite.ink_eq_nil {t : Text} (h : t.IsWhite) : t.ink = [] :=
  Text.ink_eq_nil.2 fun c hc => isBlank_of_isWhite (h c hc)

theorem ink_trim (t : Text) : t.trim.ink = t.ink := by
  have hparts := congrArg ink (trimParts_append t)
  have hleft : ink (t.takeWhile isBlank) = [] := ink_eq_nil.2 fun c hc => List.mem_takeWhile_imp hc
  have hright : ink (t.trimStart.reverse.takeWhile isBlank).reverse = [] :=
    ink_eq_nil.2 fun c hc => List.mem_takeWhile_imp (List.mem_reverse.1 hc)
  simpa [trimParts, hleft, hright] using hparts

/-- The lines of a text, each trimmed, without those that are empty then. -/
def fold (t : Text) : List Text := ((t.splitOn '\n').map trim).filter (· ≠ [])

theorem ink_splitOn (t : Text) : (t.splitOn '\n').flatMap ink = t.ink := by
  unfold List.splitOn
  induction t with
  | nil => rfl
  | cons c t ih =>
    rw [List.splitOnP_cons_eq_if_modifyHead]
    split
    · next hc =>
      have hblank : isBlank c = true := by
        rw [beq_iff_eq.1 hc]
        decide
      simp [ih, ink, hblank]
    · cases hs : t.splitOnP (· == '\n') with
      | nil => exact absurd hs (List.splitOnP_ne_nil _ _)
      | cons line rest =>
        rw [hs, List.flatMap_cons] at ih
        rw [List.modifyHead_cons, List.flatMap_cons, ← List.singleton_append, ink_append,
          List.append_assoc, ih, ← ink_append, List.singleton_append]

theorem ink_fold (t : Text) : t.fold.flatMap ink = t.ink := by
  have hfilter : ∀ ls : List Text, (ls.filter (· ≠ [])).flatMap ink = ls.flatMap ink := by
    intro ls
    induction ls with
    | nil => rfl
    | cons l ls ih =>
      by_cases hl : l = []
      · rw [List.filter_cons_of_neg (by simp [hl]), ih, List.flatMap_cons, hl]
        rfl
      · rw [List.filter_cons_of_pos (by simp [hl]), List.flatMap_cons, List.flatMap_cons, ih]
  rw [fold, hfilter, List.flatMap_map, ← ink_splitOn]
  exact List.flatMap_congr fun l _ => ink_trim l

theorem ink_eq_of_fold {t u : Text} (h : t.fold = u.fold) : t.ink = u.ink := by
  rw [← ink_fold, h, ink_fold]

/-- The number of characters that are neither blank nor a star.  Both forms of a comment have as many
of them around the same text. -/
def weight (t : Text) : Nat := t.ink.countP (· ≠ '*')

@[simp] theorem weight_append (t u : Text) : (t ++ u).weight = t.weight + u.weight := by
  simp [weight]

theorem weight_of_ink {t u : Text} (h : t.ink = u.ink) : t.weight = u.weight := by
  rw [weight, h, weight]

theorem IsWhite.weight_eq_zero {t : Text} (h : t.IsWhite) : t.weight = 0 := by
  rw [weight, h.ink_eq_nil]
  rfl

end Text

/-! ### The ink of an item -/

/-- What normalizing keeps of an item: its kind, the text that stands as it is, and the lines of the
text that is laid out anew. -/
structure Core where
  kind : NodeKind
  label : Text
  lines : List Text
deriving DecidableEq, Repr

namespace Item

/-- The core of an item. -/
def core : Item → Core
  | .atRule a => ⟨.atRule, a.name, a.params.fold⟩
  | .rule r => ⟨.rule, [], r.selector.fold⟩
  | .declaration d => ⟨.declaration, d.property, d.value.fold⟩
  | .comment c => ⟨.comment, c.text, []⟩

theorem kind_core (i : Item) : i.core.kind = i.kind := by
  cases i <;> rfl

/-- The text of an item without any blanks between its parts. -/
def dense : Item → Text
  | .atRule a => '@' :: (a.name ++ a.params)
  | .rule r => r.selector
  | .declaration d => d.property ++ ':' :: d.value
  | .comment c =>
    match c.form with
    | .line => '/' :: '/' :: c.text
    | .block => '/' :: '*' :: (c.text ++ ['*', '/'])

theorem weight_dense_comment (c : Comment) : (comment c).dense.weight = 2 + c.text.weight := by
  cases hform : c.form <;>
    simp [dense, hform, Text.weight, Text.ink] <;> omega

/-- Items with the same core have the same ink, or they are comments of different forms. -/
theorem ink_dense_of_core {i j : Item} (h : i.core = j.core) : i.dense.ink = j.dense.ink ∨
    ∃ c d, i = comment c ∧ j = comment d ∧ c.form ≠ d.form := by
  cases i <;> cases j <;> simp only [core, Core.mk.injEq, reduceCtorEq, false_and, true_and] at h
  case atRule a b =>
    refine .inl ?_
    rw [dense, dense, h.1, ← List.singleton_append, Text.ink_append, Text.ink_append,
      Text.ink_eq_of_fold h.2, ← Text.ink_append, ← Text.ink_append]
    rfl
  case rule r t => exact .inl (Text.ink_eq_of_fold h)
  case declaration d e =>
    refine .inl ?_
    have hvalue := congrArg (Text.ink [':'] ++ ·) (Text.ink_eq_of_fold h.2)
    simp only [← Text.ink_append] at hvalue
    rw [dense, dense, h.1, Text.ink_append, Text.ink_append]
    exact congrArg _ hvalue
  case comment c d =>
    by_cases hform : c.form = d.form
    · refine .inl ?_
      rw [dense, dense, hform, h.1]
    · exact .inr ⟨c, d, rfl, rfl, hform⟩

theorem ink_dense_of_append {i j : Item} (h : i.core = j.core) {t u : Text}
    (heq : i.dense.ink ++ t = j.dense.ink ++ u) : i.dense.ink = j.dense.ink := by
  rcases ink_dense_of_core h with hink | ⟨c, d, rfl, rfl, hform⟩
  · exact hink
  · cases hc : c.form <;> cases hd : d.form <;> simp [dense, hc, hd, Text.ink_cons] at heq hform

theorem weight_dense_of_core {i j : Item} (h : i.core = j.core) : i.dense.weight = j.dense.weight := by
  rcases ink_dense_of_core h with hink | ⟨c, d, rfl, rfl, -⟩
  · exact Text.weight_of_ink hink
  · have htext : c.text = d.text := congrArg Core.label h
    rw [weight_dense_comment, weight_dense_comment, htext]

end Item

/-! ### The ink of what is written -/

theorem Text.ink_padding (t : Text) : (padding t).ink = [] := by
  rw [padding]
  split
  · rfl
  · exact ink_eq_nil.2 (List.forall_mem_singleton.2 (by decide))

namespace Token

/-- Whether a token is one of a text, or the whitespace between two lines. -/
def Inked (t : Token) : Prop := t.kind.Spells t.text ∨ t.kind = .space ∧ t.text.IsWhite

theorem Inked.ink_eq_nil {t : Token} (h : t.Inked) (hw : t.isWhitespace = true) :
    t.text.ink = [] := by
  rcases h with h | ⟨-, h⟩
  · exact (isWhite_of_isWhitespace h hw).ink_eq_nil
  · exact h.ink_eq_nil

theorem Inked.spells {t : Token} (h : t.Inked) (hw : t.isWhitespace = false) :
    t.kind.Spells t.text := by
  rcases h with h | ⟨hk, -⟩
  · exact h
  · simp [isWhitespace, hk, TokenKind.isWhitespace] at hw

theorem Inked.solid {t : Token} (h : t.Inked) (hw : t.isWhitespace = false) : t.text.Solid :=
  solid_of_spells (h.spells hw) hw

theorem Inked.text_eq_colon {t : Token} (h : t.Inked) (hk : t.kind = .colon) : t.text = [':'] := by
  have hspells := h.spells (by simp [isWhitespace, hk, TokenKind.isWhitespace])
  rwa [hk] at hspells

theorem isWhitespace_of_mem_name {ts : List Token} {t : Token}
    (h : t ∈ ts.takeWhile fun t => !t.kind.isTrivia) : t.isWhitespace = false := by
  have htrivia := List.mem_takeWhile_imp h
  simp only [TokenKind.isTrivia, Bool.not_or, Bool.and_eq_true, Bool.not_eq_true'] at htrivia
  exact htrivia.1

/-- Whether tokens are all whitespace. -/
def White (ts : List Token) : Prop := ∀ t ∈ ts, t.isWhitespace = true

theorem white_splitLeading (ts : List Token) : White (splitLeading ts).1 :=
  fun _ ht => List.mem_takeWhile_imp ht

theorem white_splitTrailing (ts : List Token) : White (splitTrailing ts).2 :=
  fun _ ht => List.mem_takeWhile_imp (List.mem_reverse.1 ht)

theorem ink_join_of_isWhitespace {ts : List Token} (hs : ∀ t ∈ ts, t.Inked)
    (h : White ts) : (join ts).ink = [] := by
  induction ts with
  | nil => rfl
  | cons t ts ih =>
    obtain ⟨ht, hts⟩ := List.forall_mem_cons.1 h
    obtain ⟨ht', hts'⟩ := List.forall_mem_cons.1 hs
    rw [join_cons, Text.ink_append, ht'.ink_eq_nil ht, ih hts' hts, List.append_nil]

theorem isWhitespace_of_mem_splitBy {ts run : List Token}
    (h : run ∈ ts.splitBy fun t u => t.isWhitespace == u.isWhitespace) {t u : Token} (ht : t ∈ run)
    (hu : u ∈ run) : t.isWhitespace = u.isWhitespace := by
  have hchain : run.IsChain fun t u => t.isWhitespace = u.isWhitespace :=
    (List.isChain_of_mem_splitBy h).imp fun _ _ heq => eq_of_beq heq
  have hmap : (run.map isWhitespace).IsChain (· = ·) := (List.isChain_map _).2 hchain
  cases run with
  | nil => simp at ht
  | cons r run =>
    have hreplicate := List.isChain_eq_iff_eq_replicate.1 hmap r.isWhitespace rfl
    have hall : ∀ v ∈ r :: run, v.isWhitespace = r.isWhitespace :=
      fun v hv => List.eq_of_mem_replicate (hreplicate ▸ List.mem_map_of_mem hv)
    rw [hall t ht, hall u hu]

/-- Whether the tokens of a run are all whitespace or all none. -/
def Uniform (run : List Token) : Prop := ∀ t ∈ run, ∀ u ∈ run, t.isWhitespace = u.isWhitespace

/-- Indenting tokens anew does so run by run. -/
theorem exists_runs (indent : Text) (ts : List Token) : ∃ runs : List (List Token),
    runs.flatten = ts ∧ reindent indent ts = runs.flatMap (reindentRun indent) ∧
      ∀ run ∈ runs, run ≠ [] ∧ Uniform run :=
  ⟨ts.splitBy _, List.flatten_splitBy _ ts, rfl, fun _ hrun =>
    ⟨List.ne_nil_of_mem_splitBy hrun, fun _ ht _ hu => isWhitespace_of_mem_splitBy hrun ht hu⟩⟩

theorem ink_reindentRun {indent : Text} (hindent : indent.ink = []) {run : List Token}
    (hs : ∀ t ∈ run, t.Inked) (h : Uniform run) :
    (reindentRun indent run).ink = (join run).ink := by
  rw [reindentRun]
  split
  · next hany =>
    obtain ⟨t, ht, hk⟩ := List.any_eq_true.1 hany
    have hwhite : ∀ u ∈ run, u.isWhitespace = true := fun u hu => by
      rw [← h t ht u hu, isWhitespace, of_decide_eq_true hk]
      rfl
    rw [ink_join_of_isWhitespace hs hwhite, ← List.singleton_append, Text.ink_append, hindent]
    rfl
  · rfl

theorem ink_flatMap_reindentRun {indent : Text} {runs : List (List Token)}
    (h : ∀ run ∈ runs, (reindentRun indent run).ink = (join run).ink) :
    Text.ink (runs.flatMap (reindentRun indent)) = (join runs.flatten).ink := by
  induction runs with
  | nil => rfl
  | cons run runs ih =>
    obtain ⟨hrun, hruns⟩ := List.forall_mem_cons.1 h
    rw [List.flatMap_cons, List.flatten_cons, join_append, Text.ink_append, Text.ink_append, hrun,
      ih hruns]

end Token

/-- Indenting a text anew changes nothing but blanks. -/
theorem Text.ink_reindent {indent : Text} (hindent : indent.ink = []) (t : Text) :
    (t.reindent indent).ink = t.ink := by
  rw [reindent]
  split
  · obtain ⟨runs, hflatten, heq, hruns⟩ := Token.exists_runs indent (scan t)
    rw [heq, Token.ink_flatMap_reindentRun, hflatten, Token.join_scan]
    intro run hrun
    refine Token.ink_reindentRun hindent (fun tok htok => .inl ?_) (hruns run hrun).2
    exact Token.spells_of_mem_scan (hflatten ▸ List.mem_flatten_of_mem hrun htok)
  · rfl

theorem Text.ink_times {unit : Text} (h : unit.ink = []) (n : Nat) : (unit.times n).ink = [] := by
  refine ink_eq_nil.2 fun c hc => ?_
  simp only [times, List.mem_flatten, List.mem_replicate] at hc
  obtain ⟨u, ⟨-, rfl⟩, hc⟩ := hc
  exact ink_eq_nil.1 h c hc

/-- The text of an item in canonical spacing has the ink of the item. -/
theorem Item.ink_write_canonical {unit : Text} (hunit : unit.ink = []) (depth : Nat) (i : Item) :
    (i.write .canonical unit depth).ink = i.dense.ink := by
  have hfield : ∀ n l (t : Text), (Spacing.canonical.field (unit.times n) l t).ink = t.ink :=
    fun n _ t => Text.ink_reindent (Text.ink_times hunit n) t
  cases i with
  | atRule a => simp [Item.write, AtRule.write, Spacing.part, hfield, Text.ink_padding, dense,
      Text.ink_cons]
  | rule r => simp [Item.write, Rule.write, Spacing.part, hfield, dense]
  | declaration d =>
    simp [Item.write, Declaration.write, Spacing.part, hfield, Text.ink_padding, dense,
      Text.ink_cons]
  | comment c =>
    cases hform : c.form <;>
      simp [Item.write, Comment.write, Spacing.part, Text.ink_padding, dense, hform,
        Text.ink_cons]

/-! ### The ink of a statement -/

namespace Token

/-- The tokens that are no comments. -/
def bare (ts : List Token) : List Token := ts.filter fun t => !t.kind.isComment

@[simp] theorem bare_append (ts us : List Token) : bare (ts ++ us) = bare ts ++ bare us :=
  List.filter_append ts us

theorem bare_comment {t : Token} (h : t.kind.isComment = true) (ts : List Token) :
    bare (t :: ts) = bare ts := by
  simp [bare, h]

theorem bare_cons {t : Token} (h : t.kind.isComment = false) (ts : List Token) :
    bare (t :: ts) = t :: bare ts := by
  simp [bare, h]

theorem ink_clean (ts : List Token) : (clean ts).1.ink = (join (bare ts)).ink := Text.ink_trim _

variable {ts : List Token}

theorem ink_bare_of_isTrivia (hs : ∀ t ∈ ts, t.Inked) (h : ∀ t ∈ ts, t.kind.isTrivia = true) :
    (join (bare ts)).ink = [] := by
  refine ink_join_of_isWhitespace (fun t ht => hs t (List.mem_of_mem_filter ht)) fun t ht => ?_
  have htrivia := h t (List.mem_of_mem_filter ht)
  have hcomment : t.kind.isComment = false := by simpa using List.of_mem_filter ht
  simpa [TokenKind.isTrivia, hcomment, isWhitespace] using htrivia

theorem ink_bare_of_isWhitespace (hs : ∀ t ∈ ts, t.Inked) (h : White ts) :
    (join (bare ts)).ink = [] := by
  refine ink_bare_of_isTrivia hs fun t ht => ?_
  have := h t ht
  rw [isWhitespace] at this
  simp [TokenKind.isTrivia, this]

theorem Inked.weight_pos {t : Token} (h : t.Inked) (hc : t.kind.isComment = true) :
    0 < t.text.weight := by
  rcases h with h | ⟨hk, -⟩
  · cases hk : t.kind with
    | lineComment | blockComment =>
      rw [hk] at h
      obtain ⟨body, ht⟩ := h
      simp [ht, Text.weight, Text.ink_cons]
    | _ => simp [hk, TokenKind.isComment] at hc
  · simp [hk, TokenKind.isComment] at hc

/-- Comments have a weight, so a text that keeps its weight without them has none. -/
theorem weight_bare (hs : ∀ t ∈ ts, t.Inked) : (join (bare ts)).weight ≤ (join ts).weight ∧
    ((join (bare ts)).weight = (join ts).weight → bare ts = ts) := by
  induction ts with
  | nil => exact ⟨Nat.le_refl _, fun _ => rfl⟩
  | cons t ts ih =>
    obtain ⟨ht, hts⟩ := List.forall_mem_cons.1 hs
    obtain ⟨hle, heq⟩ := ih hts
    rw [join_cons, Text.weight_append]
    cases hc : t.kind.isComment with
    | true =>
      have hpos := ht.weight_pos hc
      rw [bare_comment hc]
      exact ⟨by omega, by omega⟩
    | false =>
      rw [bare_cons hc, join_cons, Text.weight_append]
      exact ⟨by omega, fun h => by rw [heq (by omega)]⟩

theorem ink_bare_splitTrailing (hs : ∀ t ∈ ts, t.Inked) :
    (join (bare (splitTrailing ts).1)).ink = (join (bare ts)).ink := by
  have happend := splitTrailing_append ts
  have hnil := ink_bare_of_isWhitespace
    (fun t ht => hs t (happend ▸ List.mem_append_right _ ht)) (white_splitTrailing ts)
  nth_rewrite 2 [← happend]
  rw [bare_append, join_append, Text.ink_append, hnil, List.append_nil]

theorem ink_bare_splitLeading (hs : ∀ t ∈ ts, t.Inked) :
    (join (bare (splitLeading ts).2)).ink = (join (bare ts)).ink := by
  have happend := splitLeading_append ts
  have hnil := ink_bare_of_isWhitespace
    (fun t ht => hs t (happend ▸ List.mem_append_left _ ht)) (white_splitLeading ts)
  nth_rewrite 2 [← happend]
  rw [bare_append, join_append, Text.ink_append, hnil, List.nil_append]

end Token

namespace Statement

variable {s : Statement} {i : Item}

theorem ink_ruleOf (hs : ∀ t ∈ s.tokens, t.Inked) :
    (Item.rule s.ruleOf).dense.ink = (join (Token.bare s.tokens)).ink := by
  rw [Item.dense, ruleOf, Token.ink_clean, Token.ink_bare_splitTrailing hs]

theorem ink_atRuleOf (hs : ∀ t ∈ s.tokens, t.Inked) (hf : s.Formed) (hk : s.kind = .atRule) :
    (Item.atRule s.atRuleOf).dense.ink = (join (Token.bare s.tokens)).ink := by
  have hhead := hf.atRule hk
  have hspells := hf.spells
  rw [hhead] at hspells
  obtain ⟨name, hname, -⟩ := hspells
  have hrest : ∀ t ∈ s.rest, t.Inked := fun t ht => hs t (List.mem_cons_of_mem _ ht)
  have htrailing : ∀ t ∈ (Token.splitTrailing s.rest).1, t.Inked := fun t ht =>
    hrest t (Token.splitTrailing_append s.rest ▸ List.mem_append_left _ ht)
  rw [tokens, Token.bare_cons (by rw [hhead]; rfl), Token.join_cons, Text.ink_append, hname, Item.dense, Text.ink_cons isBlank_at,
    Text.ink_cons isBlank_at, Text.ink_append, atRuleOf, Token.ink_clean,
    Token.ink_bare_splitLeading htrailing, Token.ink_bare_splitTrailing hrest, hname]
  rfl

theorem ink_declarationOf (hs : ∀ t ∈ s.tokens, t.Inked) {before after : List Token} {colon : Token}
    (hsep : Token.splitSeparator? 0 s.tokens = some (before, colon, after))
    (htrivia : ∀ t ∈ before.dropWhile fun t => !t.kind.isTrivia, t.kind.isTrivia = true) :
    (Item.declaration (declarationOf before colon after)).dense.ink =
      (join (Token.bare s.tokens)).ink := by
  have hk := Token.kind_of_splitSeparator? hsep
  have htokens := Token.splitSeparator?_append hsep
  rw [← htokens] at hs ⊢
  obtain ⟨hbefore, hcolon, hafter⟩ : (∀ t ∈ before, t.Inked) ∧ colon.Inked ∧ ∀ t ∈ after, t.Inked :=
    ⟨fun t ht => hs t (by simp [ht]), hs colon (by simp), fun t ht => hs t (by simp [ht])⟩
  have htext := hcolon.text_eq_colon hk
  have hname : Token.bare (before.takeWhile fun t => !t.kind.isTrivia) =
      before.takeWhile fun t => !t.kind.isTrivia := by
    refine List.filter_eq_self.2 fun t ht => ?_
    have := List.mem_takeWhile_imp ht
    simp only [TokenKind.isTrivia, Bool.not_or, Bool.and_eq_true] at this
    exact this.2
  have hsplit := List.takeWhile_append_dropWhile (l := before) (p := fun t => !t.kind.isTrivia)
  have hnil := Token.ink_bare_of_isTrivia
    (fun t ht => hbefore t (hsplit ▸ List.mem_append_right _ ht)) htrivia
  rw [Token.bare_append, ← hsplit, Token.bare_append, Token.join_append, Token.join_append, hname,
    Token.bare_cons (by rw [hk]; rfl), Token.join_cons, htext, Text.ink_append, Text.ink_append, hnil, Item.dense, declarationOf,
    Text.ink_append, Text.ink_cons isBlank_colon, Token.ink_clean,
    Token.ink_bare_splitLeading hafter, List.append_nil, List.singleton_append,
    Text.ink_cons isBlank_colon, hsplit]

theorem ink_comment (hs : ∀ t ∈ s.tokens, t.Inked) (hf : s.Formed) (hk : s.kind = .comment) :
    (Item.comment s.comment).dense.ink = (join s.tokens).ink := by
  have hspells := hf.spells
  have hrest : (join s.rest).ink = [] := by
    refine Token.ink_join_of_isWhitespace (fun t ht => hs t (List.mem_cons_of_mem _ ht)) fun t ht => ?_
    simp [Token.isWhitespace, hf.trailing hk t ht, TokenKind.isWhitespace]
  rw [tokens, Token.join_cons, Text.ink_append, hrest, List.append_nil]
  by_cases hl : s.first.head.kind = .lineComment
  · rw [hl] at hspells
    obtain ⟨body, hb⟩ := hspells
    simp [comment, hl, hb, Text.trimParts, Item.dense, Text.ink_cons, Text.ink_trim]
  · rw [hf.blockComment hk hl] at hspells
    obtain ⟨body, hb⟩ := hspells
    have hinside := hb ▸ Text.inside_blockComment body
    simp only [comment, hl, if_false, hinside, Text.trimParts, Item.dense]
    rw [hb]
    simp [Text.ink_cons, Text.ink_trim]

theorem inked_of_mem_group {source : Text} {ls : List Line} {after : Text}
    (h : Line.ofTokens (scan source) = .ok (ls, after)) (hs : s ∈ group ls) :
    ∀ t ∈ s.tokens, t.Inked := by
  have hspells : ∀ l ∈ s.lines, ∀ t ∈ l.tokens, t.Inked := fun l hl t ht =>
    .inl (Token.spells_of_mem_scan
      ((Line.tokens_isInfix_scan h (mem_of_mem_group hs hl)).subset ht))
  have hleads : ∀ l ∈ s.lines, l.lead.IsWhite := fun l hl =>
    (Line.Lays.isWhite ⟨ls, h, rfl⟩).1 l.unplaced
      (List.mem_map_of_mem (mem_of_mem_group hs hl))
  intro t ht
  rw [tokens, rest, ← List.cons_append] at ht
  rcases List.mem_append.1 ht with ht | ht
  · exact hspells s.first List.mem_cons_self t ht
  · obtain ⟨l, hl, ht⟩ := List.mem_flatMap.1 ht
    rcases List.mem_cons.1 ht with rfl | ht
    · exact .inr ⟨rfl, hleads l (List.mem_cons_of_mem _ hl)⟩
    · exact hspells l (List.mem_cons_of_mem _ hl) t ht

/-- A statement is at least as heavy as the item that it reads as, and heavier when it has comments that
are not read. -/
theorem weight_item (h : s.item = .ok i) (hf : s.Formed) (hs : ∀ t ∈ s.tokens, t.Inked) :
    i.dense.weight ≤ (join s.tokens).weight ∧
      (i.dense.weight = (join s.tokens).weight → i.dense.ink = (join s.tokens).ink) := by
  obtain ⟨hle, hbare⟩ := Token.weight_bare hs
  have key : i.dense.ink = (join (Token.bare s.tokens)).ink ∨ i.dense.ink = (join s.tokens).ink := by
    rcases item_eq_ok.1 h with ⟨hk, rfl⟩ | ⟨hk, a, ha, rfl⟩ | ⟨hk, r, hr, rfl⟩ | ⟨hk, d, hd, rfl⟩
    · exact .inr (ink_comment hs hf hk)
    · obtain ⟨-, -, rfl⟩ := atRule_eq_ok.1 ha
      exact .inl (ink_atRuleOf hs hf hk)
    · obtain ⟨-, rfl⟩ := rule_eq_ok.1 hr
      exact .inl (ink_ruleOf hs)
    · obtain ⟨-, before, colon, after, hsep, htrivia, -, rfl⟩ := declaration_eq_ok.1 hd
      exact .inl (ink_declarationOf hs hsep htrivia)
  rcases key with hink | hink
  · rw [Text.weight_of_ink hink]
    exact ⟨hle, fun heq => by rw [hink, hbare heq]⟩
  · exact ⟨Nat.le_of_eq (Text.weight_of_ink hink), fun _ => hink⟩

end Statement

end OffsideCss
