import OffsideCss.Layout.PositionMap
import OffsideCss.Proofs.Arena
import OffsideCss.Proofs.PlainItem

/-! Plain sheets.  A sheet that was built of plain nodes has no spelling to lose: its text, with either
spacing, is read as a sheet with the same nodes at the same depths.  Only a rule without children
cannot stand before another rule, which would be read as a line of its selector. -/

namespace OffsideCss

open Token (scan)

/-- What a sheet means: its nodes in document order, each with its depth and without its spelling. -/
def Sheet.meaning (s : Sheet) : List (Nat × Item) :=
  s.outline.map fun v => (v.depth, v.node.item.bare)

/-- Whether the first node has children, or one of the two is no rule. -/
def Sheet.Apart (s : Sheet) (id next : NodeId) : Prop :=
  ∀ e ∈ s.entry? id, ∀ f ∈ s.entry? next,
    e.children = [] → e.node.item.kind = .rule → f.node.item.kind ≠ .rule

/-- Whether a sheet was built of plain nodes without spelling, and no rule without children stands
before another rule.  A level is indented by blanks or by tabs, and the text ends with a line break or
without one. -/
structure Sheet.Canonical (s : Sheet) : Prop where
  built : s.Built
  plain : ∀ e ∈ s.entries, e.node.before = none ∧ e.node.item.Plain
  after : s.after = [] ∨ s.after = ['\n']
  indent : ∀ t ∈ s.indent, t ≠ [] ∧ ((∀ c ∈ t, c = ' ') ∨ ∀ c ∈ t, c = '\t')
  apart : ∀ ids, s.Siblings ids → ids.IsChain s.Apart

/-! ### Statements of one line -/

/-- Whether a statement is the one line of a visited node, and the line tells the kind of the node. -/
structure Statement.Tells (width : Nat) (v : Sheet.Visit) (s : Statement) : Prop where
  kind : s.kind = v.node.item.kind
  more : s.more = []
  isComment : s.first.isComment = decide (v.node.item.kind = .comment)
  isAtRule : s.first.isAtRule = decide (v.node.item.kind = .atRule)
  hasColon : s.first.hasColon = decide (v.node.item.kind = .declaration)
  endsWithComma : s.first.endsWithComma = false
  indent : s.first.width = width * v.depth

/-- Whether a node may stand behind another one, and is no rule that would continue it. -/
def Sheet.Visit.Before (v w : Sheet.Visit) : Prop :=
  Draft.Target.Follows ⟨v.depth, v.node.item⟩ ⟨w.depth, w.node.item⟩ ∧
    (w.depth = v.depth → v.node.item.kind = .rule → w.node.item.kind ≠ .rule)

namespace Statement

variable {width : Nat} {v w : Sheet.Visit} {vs : List Sheet.Visit} {s next : Statement}
  {ss : List Statement}

theorem depth_le_of_leaf (h : v.Before w) (hleaf : v.node.item.kind.isContainer = false) :
    w.depth ≤ v.depth := by
  obtain ⟨⟨hle, hcontainer⟩, -⟩ := h
  have hne : w.depth ≠ v.depth + 1 := fun he => by simp [hcontainer he] at hleaf
  simp only at hle
  omega

/-- Behind a leaf, comments do not go deeper, nor does what follows them. -/
theorem nestsDeclaration_eq_false {l : Line} {depth : Nat} (hl : l.width = width * depth)
    (h : List.Forall₂ (Tells width) vs ss) (hchain : vs.IsChain Sheet.Visit.Before)
    (hhead : ∀ w ∈ vs.head?, w.depth ≤ depth) :
    l.nestsDeclaration (ss.flatMap lines) = false := by
  induction h with
  | nil => rfl
  | @cons v s vs ss hs _ ih =>
    have hv := hhead v rfl
    rw [List.flatMap_cons, lines, hs.more, List.singleton_append, Line.nestsDeclaration,
      List.find?_cons]
    cases hcomment : s.first.isComment with
    | true =>
      have hkind : v.node.item.kind = .comment := by simpa [hcomment] using hs.isComment
      refine ih (List.isChain_cons.1 hchain).2 fun w hw => ?_
      exact (depth_le_of_leaf ((List.isChain_cons.1 hchain).1 w hw) (by rw [hkind]; rfl)).trans hv
    | false =>
      have := Nat.mul_le_mul_left width hv
      simp [hl, hs.indent]
      omega

theorem Tells.kind_eq (hs : s.Tells width v) (h : List.Forall₂ (Tells width) vs ss)
    (hchain : (v :: vs).IsChain Sheet.Visit.Before) :
    s.kind = s.first.kind (s.more ++ ss.flatMap lines) := by
  rw [Line.kind, hs.isComment, hs.isAtRule, hs.hasColon, hs.more, List.nil_append, hs.kind]
  cases hk : v.node.item.kind with
  | declaration =>
    have hnests : s.first.nestsDeclaration (ss.flatMap lines) = false :=
      nestsDeclaration_eq_false hs.indent h (List.isChain_cons.1 hchain).2 fun w hw =>
        depth_le_of_leaf ((List.isChain_cons.1 hchain).1 w hw) (by rw [hk]; rfl)
    simp [hnests]
  | _ => simp

theorem Tells.continuesWith_eq_false (hwidth : 0 < width) (hs : s.Tells width v)
    (hnext : next.Tells width w) (h : v.Before w) : s.continuesWith next.first = false := by
  have hlast : s.lastLine.endsWithComma = false := by
    rw [lastLine, hs.more]
    exact hs.endsWithComma
  rw [continuesWith, hlast, hs.kind, hs.indent, hnext.indent]
  cases hk : v.node.item.kind with
  | comment => rfl
  | atRule => rfl
  | rule =>
    by_cases hdepth : w.depth = v.depth
    · have hrule := h.2 hdepth hk
      cases hw : w.node.item.kind <;>
        simp_all [Line.isPlain, hnext.isComment, hnext.isAtRule, hnext.hasColon]
    · have hne : width * w.depth ≠ width * v.depth := fun he =>
        hdepth (Nat.eq_of_mul_eq_mul_left hwidth he)
      simp [hne]
  | declaration =>
    have hle := depth_le_of_leaf h (by rw [hk]; rfl)
    have := Nat.mul_le_mul_left width hle
    simp
    omega

/-- Statements that tell their nodes are grouped as they are. -/
theorem grouped_of_tells (hwidth : 0 < width) (h : List.Forall₂ (Tells width) vs ss)
    (hchain : vs.IsChain Sheet.Visit.Before) : Grouped ss := by
  induction h with
  | nil => exact .nil
  | @cons v s vs ss hs hss ih =>
    refine .cons (hs.kind_eq hss hchain) ?_ (fun next hnext => ?_) (ih (List.isChain_cons.1 hchain).2)
    · intro pre l post hmore
      simp [hs.more] at hmore
    · cases hss with
      | nil => simp at hnext
      | cons hs' _ =>
        obtain rfl := Option.some.inj hnext
        exact hs.continuesWith_eq_false hwidth hs' (List.isChain_cons_cons.1 hchain).1

end Statement

/-! ### The parts of a plain sheet -/

section Calm

variable {ts : List Token} (h : ∀ t ∈ ts, t.kind.isCalm = true)
include h

theorem Token.depthAfter_calm : Token.depthAfter 0 ts = 0 := by
  induction ts with
  | nil => rfl
  | cons t ts ih =>
    obtain ⟨ht, hts⟩ := List.forall_mem_cons.1 h
    have hk : t.kind.nesting 0 = 0 := by
      cases hk : t.kind <;> simp_all [TokenKind.isCalm, TokenKind.nesting]
    rw [Token.depthAfter_cons, hk, ih hts]

theorem Line.rowsFrom_calm (us : List Token) :
    rowsFrom 0 (ts ++ us) = (rowsFrom 0 us).modifyHead (ts ++ ·) := by
  induction ts with
  | nil => cases hus : rowsFrom 0 us <;> simp [hus]
  | cons t ts ih =>
    obtain ⟨ht, hts⟩ := List.forall_mem_cons.1 h
    have hk : t.kind ≠ .lineBreak ∧ t.kind.nesting 0 = 0 := by
      cases hk : t.kind <;> simp_all [TokenKind.isCalm, TokenKind.nesting]
    rw [List.cons_append, rowsFrom, if_neg (by simp [hk.1]), hk.2, ih hts, List.modifyHead_modifyHead]
    rfl

theorem Line.splitBreak_calm : splitBreak ts = (ts, []) := by
  rcases List.eq_nil_or_concat ts with rfl | ⟨us, t, rfl⟩
  · rfl
  · have ht := h t (by simp)
    have hk : t.kind ≠ .lineBreak := fun hk => by simp [hk, TokenKind.isCalm] at ht
    simp [splitBreak, hk]

end Calm

theorem Line.splitBreak_concat {ts : List Token} {t : Token} (h : t.kind = .lineBreak) :
    splitBreak (ts ++ [t]) = (ts, t.text) := by
  simp [splitBreak, h]

namespace Item.Makes

variable {i : Item} {own tail : Text} {l : Line}

theorem linesOf_row (h : i.Makes own l) {row : List Token} (hrow : Line.splitBreak row = (l.tokens, tail))
    (hindent : Line.splitIndent row = ([], row)) (rest : List (List Token)) :
    Line.linesOf [] (row :: rest) = (l :: (Line.linesOf tail rest).1, (Line.linesOf tail rest).2) := by
  rw [Line.linesOf_line (by rw [hindent, hrow, Line.tokens]), hindent, hrow]
  obtain ⟨gap, indent, place, head, rest⟩ := l
  obtain rfl : gap = [] := h.gap
  obtain rfl : indent = [] := h.indent
  obtain rfl : place = .first := h.place
  rfl

theorem splitIndent_eq (h : i.Makes own l) (us : List Token) :
    Line.splitIndent (l.tokens ++ us) = ([], l.tokens ++ us) := by
  have hhead : l.head.kind ≠ .space := fun hk => by
    have := h.head
    simp [Token.isWhitespace, hk, TokenKind.isWhitespace] at this
  simp [Line.tokens, Line.splitIndent, hhead]

theorem lays (h : i.Makes own l) (htail : tail = [] ∨ tail = ['\n']) :
    Line.Lays (own ++ tail) [l] tail := by
  have hclosed : ∀ t ∈ l.tokens, t.kind ≠ .unclosed := fun t ht hk => by
    have := h.calm t ht
    simp [hk, TokenKind.isCalm] at this
  have hdepth := Token.depthAfter_calm h.calm
  rw [Line.lays_iff, h.scan tail htail]
  rcases htail with rfl | rfl
  · rw [show Token.scan [] = [] from Token.scanFrom_nil 0]
    refine ⟨by simpa using hclosed, by simpa using hdepth, ?_⟩
    have hrow : Line.splitBreak (l.tokens ++ []) = (l.tokens, []) := by
      rw [List.append_nil, Line.splitBreak_calm h.calm]
    rw [Line.rowsFrom_calm h.calm, Line.rowsFrom, List.modifyHead_cons,
      h.linesOf_row hrow (h.splitIndent_eq []), Line.linesOf, Line.ofRows]
    rfl
  · rw [Token.scan_lineFeed]
    refine ⟨List.forall_mem_append.2 ⟨hclosed, by simp⟩, ?_, ?_⟩
    · rw [Token.depthAfter_append, hdepth]
      rfl
    · rw [Line.rowsFrom_calm h.calm, Line.rowsFrom, if_pos ⟨rfl, rfl⟩, List.modifyHead_cons,
        h.linesOf_row (Line.splitBreak_concat rfl) (h.splitIndent_eq _), Line.rowsFrom,
        Line.linesOf_nil]

theorem stands (h : i.Makes own l) (depth : Nat) (htail : tail = [] ∨ tail = ['\n']) :
    Part.Stands ⟨depth, own, ⟨i.kind, l, []⟩⟩ tail tail :=
  ⟨h.lays htail, h.gap, h.indent⟩

theorem endsWithComma_eq_false (h : i.Makes own l) : l.endsWithComma = false := by
  rw [Line.endsWithComma, Option.any_eq_false]
  intro t ht
  have hmem := List.mem_reverse.1 (List.mem_of_find?_eq_some ht)
  have hcalm := h.calm t hmem
  cases hk : t.kind <;> simp_all [TokenKind.isCalm]

end Item.Makes

namespace Sheet

variable {s : Sheet} {spacing : Spacing} {ending : Text} {v : Visit} {vs : List Visit} {p : Part}
  {parts : List Part}

/-- Whether a part is what is written for a visited node, and makes one line. -/
structure Sets (s : Sheet) (spacing : Spacing) (v : Visit) (p : Part) : Prop
    extends s.Writes spacing v p where
  statement : ∃ l, v.node.item.Makes p.own l ∧ p.statement = ⟨v.node.item.kind, l, []⟩

theorem exists_sets (s : Sheet) (spacing : Spacing) (h : ∀ v ∈ vs, v.node.item.Plain) :
    ∃ parts, List.Forall₂ (s.Sets spacing) vs parts := by
  induction vs with
  | nil => exact ⟨[], .nil⟩
  | cons v vs ih =>
    obtain ⟨hv, hvs⟩ := List.forall_mem_cons.1 h
    obtain ⟨parts, hparts⟩ := ih hvs
    obtain ⟨l, hl⟩ := hv.exists_line spacing (spacing.indent s) v.depth
    exact ⟨⟨v.depth, _, ⟨v.node.item.kind, l, []⟩⟩ :: parts, .cons ⟨⟨rfl, rfl⟩, l, hl, rfl⟩ hparts⟩

theorem stand_of_sets (hending : ending = [] ∨ ending = ['\n'])
    (h : List.Forall₂ (s.Sets spacing) (v :: vs) parts) : Part.Stand ending parts := by
  induction vs generalizing v parts with
  | nil =>
    obtain ⟨p, _, hp, ⟨⟩, rfl⟩ := List.forall₂_cons_left_iff.1 h
    obtain ⟨l, hl, hst⟩ := hp.statement
    have hstands := hl.stands p.depth hending
    rw [← hst] at hstands
    exact .last hstands
  | cons w vs ih =>
    obtain ⟨p, rest, hp, hrest, rfl⟩ := List.forall₂_cons_left_iff.1 h
    obtain ⟨l, hl, hst⟩ := hp.statement
    have hstand := ih hrest
    obtain ⟨q, rest, -, -, rfl⟩ := List.forall₂_cons_left_iff.1 hrest
    have hstands := hl.stands p.depth (.inr rfl)
    rw [← hst] at hstands
    refine .cons hstands ?_ hstand
    rw [hl.scan _ (.inr rfl), Token.scan_lineFeed, List.getLast?_concat]

theorem Sets.tells {width : Nat} {c : Char} (h : s.Sets spacing v p) :
    (p.indented (List.replicate width c) []).Tells width v := by
  obtain ⟨l, hl, hst⟩ := h.statement
  rw [Part.indented, hst]
  refine ⟨rfl, rfl, hl.isComment, hl.isAtRule, hl.hasColon, hl.endsWithComma_eq_false, ?_⟩
  simp [Line.width, times_replicate, h.depth]

theorem exists_targets (h : List.Forall₂ (s.Sets spacing) vs parts) :
    ∃ ts : List Draft.Target,
      List.Forall₂ (fun p t => p.depth = t.depth ∧ p.statement.item = .ok t.item) parts ts ∧
      ts.map (fun t => (t.depth, t.item.bare)) = vs.map fun v => (v.depth, v.node.item.bare) := by
  induction h with
  | nil => exact ⟨[], .nil, rfl⟩
  | @cons v p vs parts hp _ ih =>
    obtain ⟨ts, hts, hmap⟩ := ih
    obtain ⟨l, hl, hst⟩ := hp.statement
    obtain ⟨j, hj, hbare⟩ := hl.reads
    refine ⟨⟨v.depth, j⟩ :: ts, .cons ⟨hp.depth, by rw [hst, hj]⟩ hts, ?_⟩
    rw [List.map_cons, List.map_cons, hmap, hbare]

/-! ### Canonical sheets -/

theorem Canonical.outlined (h : s.Canonical) : Outlined s 0 s.top s.outline :=
  h.built.sound.outlined

theorem Canonical.plain_of_mem (h : s.Canonical) :
    ∀ v ∈ s.outline, v.node.before = none ∧ v.node.item.Plain := by
  intro v hv
  obtain ⟨e, he, hnode⟩ := h.outlined.entry_of_mem hv
  exact hnode ▸ h.plain e (List.mem_of_getElem? he)

theorem Canonical.isChain (h : s.Canonical) : s.outline.IsChain Visit.Before := by
  have hchain := h.outlined.isChain (.inl rfl) List.suffix_rfl
  refine hchain.imp_of_mem_imp fun v w hv hw hnext => ⟨hnext.follows, fun hdepth hrule => ?_⟩
  obtain ⟨ids, hids, hpair, e, he, hchildren⟩ := hnext.sibling hdepth
  obtain ⟨e', he', hv⟩ := h.outlined.entry_of_mem hv
  obtain ⟨f, hf, hw⟩ := h.outlined.entry_of_mem hw
  obtain rfl : e = e' := Option.some.inj (he.symm.trans he')
  have hchain := List.IsChain.infix (h.apart ids hids) hpair
  have hapart := List.isChain_pair.1 hchain
  rw [← hw]
  exact hapart e he f hf hchildren (by rw [hv, hrule])

theorem Canonical.exists_unit (h : s.Canonical) (spacing : Spacing) : ∃ width c,
    0 < width ∧ (c = ' ' ∨ c = '\t') ∧ spacing.indent s = List.replicate width c := by
  cases spacing with
  | canonical => exact ⟨2, ' ', by decide, .inl rfl, rfl⟩
  | kept =>
    rw [Spacing.indent]
    cases hindent : s.indent with
    | none => exact ⟨2, ' ', by decide, .inl rfl, rfl⟩
    | some t =>
      obtain ⟨hne, hblank | htab⟩ := h.indent t hindent
      · exact ⟨t.length, ' ', List.length_pos_iff.2 hne, .inl rfl,
          List.eq_replicate_of_mem hblank⟩
      · exact ⟨t.length, '\t', List.length_pos_iff.2 hne, .inr rfl,
          List.eq_replicate_of_mem htab⟩

theorem Canonical.ending_eq (h : s.Canonical) (spacing : Spacing) :
    s.ending spacing = [] ∨ s.ending spacing = ['\n'] := by
  cases spacing with
  | kept => exact h.after
  | canonical => by_cases htop : s.top = [] <;> simp [ending, htop]

theorem Canonical.exists_parse_write (h : s.Canonical) (name : String) (spacing : Spacing) :
    ∃ t, parse name (s.write spacing) = .ok t ∧ t.meaning = s.meaning := by
  obtain ⟨parts, hparts⟩ := exists_sets s spacing fun v hv =>
    (h.plain_of_mem v hv).2
  have hwrite := write_eq_layOut
    (fun v hv t => by rw [(h.plain_of_mem v hv).1, Spacing.part_none])
    (fun v hv => (h.outlined.head hv).1) (hparts.imp fun _ _ hp => hp.toWrites)
  have hchain := h.isChain
  rw [hwrite, meaning]
  cases ho : s.outline with
  | nil =>
    rw [ho] at hparts
    cases hparts
    obtain ⟨t, ht, hnil⟩ := exists_parse_blank name (h.ending_eq spacing)
    exact ⟨t, ht, by rw [meaning, hnil]⟩
  | cons v vs =>
    rw [ho] at hparts hchain
    obtain ⟨width, c, hwidth, hc, hunit⟩ := h.exists_unit spacing
    obtain ⟨ts, hitems, hmap⟩ := exists_targets hparts
    have hfirst : v.depth = 0 := (h.outlined.head (w := v) (by simp [ho])).1
    have hgroup : Statement.Grouped (parts.map (Part.indented (List.replicate width c) [])) :=
      Statement.grouped_of_tells hwidth
        (List.forall₂_map_right_iff.2 (hparts.imp fun _ _ hp => hp.tells)) hchain
    have hfollows : ts.IsChain Draft.Target.Follows := by
      refine Draft.Target.isChain_follows_of_map ?_ (hchain.imp fun _ _ hb => hb.1)
      have := congrArg (List.map fun (a : Nat × Item) => (a.1, a.2.kind)) hmap
      simpa [Function.comp_def, Item.kind_bare] using this
    cases ts with
    | nil => simp at hmap
    | cons t ts =>
      have ht : t.depth = 0 := by
        rw [List.map_cons, List.map_cons, List.cons.injEq, Prod.mk.injEq] at hmap
        rw [hmap.1.1, hfirst]
      obtain ⟨s', hparse, hs'⟩ := exists_parse_layOut name hwidth hc
        (stand_of_sets (h.ending_eq spacing) hparts) hgroup hitems ht hfollows
      refine ⟨s', by rw [hunit, hparse], ?_⟩
      rw [meaning, ← hmap, ← hs', List.map_map]
      rfl

/-- The text of a canonical sheet, with either spacing, with a map or without one, is read as a sheet
that means the same, where the meaning of both is that of all their nodes. -/
theorem exists_parse_of_canonical (h : s.Canonical) (name : String) (spacing : Spacing)
    (attachment : Option Attachment) : s.Complete ∧ ∃ t,
      parse name (s.stringify spacing attachment).text = .ok t ∧ t.Complete ∧
        t.meaning = s.meaning := by
  obtain ⟨t, ht, hmeaning⟩ := h.exists_parse_write name spacing
  exact ⟨h.built.linked.complete, t, ht, (linked_of_parse ht).complete, hmeaning⟩

/-- The declaration of a rule may be appended after the comment behind the rule. -/
theorem exists_parse_of_canonical_unordered :
    let rule : Item := .rule { selector := ['a', ' ', 'b'] }
    let comment : Item := .comment { text := [], form := .block }
    let declaration : Item := .declaration { property := ['c'], value := ['d'] }
    let s : Sheet :=
      { entries := [⟨{ item := rule }, none, [2]⟩, ⟨{ item := comment }, none, []⟩,
          ⟨{ item := declaration }, some 0, []⟩]
        top := [0, 1]
        indent := some ['\t'] }
    s.Canonical ∧ s.Complete ∧ ∃ t, parse "in" (s.stringify .kept none).text = .ok t ∧
      t.Complete ∧ t.meaning = s.meaning := by
  intro rule comment declaration s
  have hfirst : Built { s with entries := [⟨{ item := rule }, none, []⟩], top := [0] } :=
    .append (.fresh (s := { s with entries := [], top := [] }) rfl rfl)
      (show append _ none (.detached _) = .ok _ from rfl)
  have hsecond : Built { s with
      entries := [⟨{ item := rule }, none, []⟩, ⟨{ item := comment }, none, []⟩] } :=
    hfirst.append (show append _ none (.detached _) = .ok _ from rfl)
  have hplain : ∀ e ∈ s.entries, e.node.before = none ∧ e.node.item.Plain := by
    refine List.forall_mem_cons.2 ⟨⟨rfl, ?_⟩, List.forall_mem_cons.2 ⟨⟨rfl, ?_⟩,
      List.forall_mem_singleton.2 ⟨rfl, ?_⟩⟩⟩
    · exact .rule (.cons (Text.isWord_singleton rfl) (.word (Text.isWord_singleton rfl)))
    · exact .comment (.inl rfl)
    · exact .declaration (Text.isWord_singleton rfl) (.inr (.word (Text.isWord_singleton rfl)))
  have hapart : ∀ ids, s.Siblings ids → ids.IsChain s.Apart := by
    rintro _ (rfl | ⟨id, e, he, rfl⟩)
    · simp [s, rule, comment, Apart, entry?, Item.kind]
    · have hmem := List.mem_of_getElem? he
      simp only [s, List.mem_cons, List.not_mem_nil, or_false] at hmem
      rcases hmem with rfl | rfl | rfl <;> simp
  have hbuilt : s.Built := hsecond.append
    (show append _ (some 0) (.detached _) = .ok _ from rfl)
  have hcanonical : s.Canonical := ⟨hbuilt, hplain, .inl rfl, by simp [s], hapart⟩
  exact ⟨hcanonical, exists_parse_of_canonical hcanonical "in" .kept none⟩

end Sheet

end OffsideCss
