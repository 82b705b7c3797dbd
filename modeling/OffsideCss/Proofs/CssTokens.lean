import OffsideCss.Css
import OffsideCss.Proofs.Seams

/-! The tokens of compiled CSS.  A line of CSS has the braces and the comment markers that the compiler
writes and no others, as long as the texts that it splices have none, so the braces nest as the nodes
do. -/

namespace OffsideCss

open Token (join scan skim behind Flawless)

/-! ### Lines -/

namespace Token

variable {depth : Nat} {c : Char} {t u inside : Text}

/-- Whether a text can be spliced into another one: it has no marks, and closes its parentheses. -/
def Bare (t : Text) : Prop := skim 0 t = ([], 0)

theorem Bare.skim_append (h : Bare t) (hc : isBland c = true) (hstar : c ≠ '*') :
    skim 0 (t ++ c :: u) = skim 0 u := by
  have hflawless : Flawless 0 t := by
    rw [Flawless, show skim 0 t = ([], 0) from h]
    simp
  rw [skim_append_bland hflawless hc hstar, show skim 0 t = ([], 0) from h, behind_nil]

/-- A comment ends at the first star and slash behind its opening. -/
theorem skim_blockComment (h : ¬['*', '/'] <:+: inside) : skim depth
    ('/' :: '*' :: (inside ++ '*' :: '/' :: u)) = behind [.blockComment] (skim depth u) := by
  have hrun : Text.splitBefore Text.atBlockEnd (inside ++ '*' :: '/' :: u) =
      (inside, '*' :: '/' :: u) := by
    induction inside with
    | nil => rfl
    | cons c inside ih =>
      have hstop : Text.atBlockEnd (c :: (inside ++ '*' :: '/' :: u)) = false := by
        refine Bool.eq_false_iff.2 fun hend => h ?_
        simp only [Text.atBlockEnd, Bool.and_eq_true, decide_eq_true_eq] at hend
        obtain ⟨rfl, hhead⟩ := hend
        cases inside with
        | nil => simp at hhead
        | cons d inside =>
          obtain rfl : d = '/' := by simpa using hhead
          exact (List.prefix_append ['*', '/'] inside).isInfix
      rw [List.cons_append, Text.splitBefore_cons hstop,
        ih fun hin => h (List.infix_cons hin)]
  rw [skim_cons, next_blockComment, ofBlockComment_closed hrun]
  rfl

end Token

/-- Whether the texts of an item that are spliced into CSS leave the braces and comments there alone. -/
def Item.Spliceable : Item → Prop
  | .atRule a => (∀ c ∈ a.name, isBland c = true) ∧ Token.Bare a.params
  | .rule r => Token.Bare r.selector
  | .declaration d => Token.Bare d.property ∧ Token.Bare d.value
  | .comment c => ¬['*', '/'] <:+: c.text

namespace Css

/-- The text of lines. -/
def unlines (ls : List Text) : Text := ls.flatMap (· ++ ['\n'])

/-- Whether lines have the marks `ks`, whatever follows them. -/
def Marks (ls : List Text) (ks : List TokenKind) : Prop :=
  ∀ u, skim 0 (unlines ls ++ u) = behind ks (skim 0 u)

variable {depth : Nat} {ls ls' : List Text} {ks ks' : List TokenKind} {row t u : Text}

theorem Marks.nil : Marks [] [] := fun _ => rfl

theorem Marks.append (h : Marks ls ks) (h' : Marks ls' ks') : Marks (ls ++ ls') (ks ++ ks') := by
  intro u
  rw [unlines, List.flatMap_append, List.append_assoc, Token.behind_append, ← h' u]
  exact h _

theorem skim_indent (depth : Nat) (t : Text) : skim 0 (indent depth ++ t) = skim 0 t :=
  Token.skim_run fun c hc => by rw [(List.mem_replicate.1 hc).2]; rfl

theorem skim_newline (u : Text) : skim 0 ('\n' :: u) = skim 0 u := Token.skim_bland rfl

theorem Marks.line (h : ∀ u, skim 0 (row ++ '\n' :: u) = behind ks (skim 0 ('\n' :: u))) :
    Marks [row] ks := by
  intro u
  simpa [unlines, skim_newline] using h u

theorem marks_declaration {d : Declaration} (h : (Item.declaration d).Spliceable) :
    Marks [indent depth ++ d.property ++ [':', ' '] ++ d.value ++ [';']] [] := by
  refine .line fun u => ?_
  obtain ⟨hproperty, hvalue⟩ := h
  simp only [List.append_assoc, List.cons_append, List.nil_append]
  rw [skim_indent, hproperty.skim_append rfl (by decide), Token.skim_bland rfl,
    hvalue.skim_append rfl (by decide)]
  rfl

theorem marks_comment {c : Comment} (h : (Item.comment c).Spliceable) :
    Marks [indent depth ++ ['/', '*', ' '] ++ c.text ++ [' ', '*', '/']] [.blockComment] := by
  refine .line fun u => ?_
  have hinside : ¬['*', '/'] <:+: ' ' :: (c.text ++ [' ']) := by
    rw [List.infix_cons_iff, List.infix_concat_iff]
    rintro (hstart | hend | hin)
    · simp at hstart
    · obtain ⟨a, ha⟩ := hend
      simpa using congrArg List.getLast? ha
    · exact h hin
  have hskim : skim 0 ('/' :: '*' :: (' ' :: (c.text ++ [' ']) ++ '*' :: '/' :: '\n' :: u)) = _ :=
    Token.skim_blockComment hinside
  simp only [List.append_assoc, List.cons_append, List.nil_append] at hskim ⊢
  rw [skim_indent, hskim]

/-- A header is followed by a blank or a semicolon. -/
def Header (t : Text) : Prop :=
  ∀ ⦃c : Char⦄ ⦃u : Text⦄, isBland c = true → c ≠ '*' → skim 0 (t ++ c :: u) = skim 0 u

theorem header_atRule {a : AtRule} (h : (Item.atRule a).Spliceable) :
    Header ('@' :: a.name ++ (if a.params = [] then [] else ' ' :: a.params)) := by
  intro c u hc hstar
  obtain ⟨hname, hparams⟩ := h
  have hrun : ∀ d ∈ '@' :: a.name, isBland d = true := List.forall_mem_cons.2 ⟨rfl, hname⟩
  rw [List.append_assoc, Token.skim_run hrun]
  split
  · exact Token.skim_bland hc
  · rw [List.cons_append, Token.skim_bland rfl, hparams.skim_append hc hstar]

theorem Header.statement (h : Header t) : Marks [indent depth ++ t ++ [';']] [] := by
  refine .line fun u => ?_
  rw [List.append_assoc, List.append_assoc, skim_indent, List.singleton_append, h rfl (by decide)]
  rfl

theorem Header.empty (h : Header t) :
    Marks [indent depth ++ t ++ [' ', '\x7b', '\x7d']] [.leftBrace, .rightBrace] := by
  refine .line fun u => ?_
  simp only [List.append_assoc, List.cons_append, List.nil_append]
  rw [skim_indent, h rfl (by decide), Token.skim_punctuation rfl, Token.skim_punctuation rfl,
    ← Token.behind_append]
  rfl

theorem Header.block (h : Header t) (hls : Marks ls ks) :
    Marks (block depth t ls) (.leftBrace :: (ks ++ [.rightBrace])) := by
  have hopen : Marks [indent depth ++ t ++ [' ', '\x7b']] [.leftBrace] := by
    refine .line fun u => ?_
    simp only [List.append_assoc, List.cons_append, List.nil_append]
    rw [skim_indent, h rfl (by decide), Token.skim_punctuation rfl]
    rfl
  have hclose : Marks [indent depth ++ ['\x7d']] [.rightBrace] := by
    refine .line fun u => ?_
    rw [List.append_assoc, skim_indent, List.singleton_append, Token.skim_punctuation rfl]
    rfl
  exact hopen.append (hls.append hclose)

/-- The marks of the lines of an item around those in `inside`. -/
def itemMarks (isLeaf : Bool) (inside : List TokenKind) : Item → List TokenKind
  | .declaration _ => []
  | .comment _ => [.blockComment]
  | .atRule _ => if isLeaf then [] else .leftBrace :: (inside ++ [.rightBrace])
  | .rule _ => if isLeaf then [.leftBrace, .rightBrace] else .leftBrace :: (inside ++ [.rightBrace])

theorem marks_item {i : Item} (h : i.Spliceable) (isLeaf : Bool) (hls : Marks ls ks) :
    Marks (itemLines depth isLeaf ls i) (itemMarks isLeaf ks i) := by
  cases i with
  | declaration d => exact marks_declaration h
  | comment c => exact marks_comment h
  | atRule a =>
    cases isLeaf with
    | true => exact (header_atRule h).statement
    | false => exact (header_atRule h).block hls
  | rule r =>
    have hheader : Header r.selector := fun _ _ hc hstar => Token.Bare.skim_append h hc hstar
    cases isLeaf with
    | true => exact hheader.empty
    | false => exact hheader.block hls

/-! ### Nesting -/

/-- Marks of comments, and of blocks with such marks inside. -/
inductive Nested : List TokenKind → Prop
  | nil : Nested []
  | comment {ks : List TokenKind} : Nested ks → Nested (.blockComment :: ks)
  | block {ks ls : List TokenKind} : Nested ks → Nested ls →
      Nested (.leftBrace :: (ks ++ .rightBrace :: ls))

namespace Nested

theorem append (h : Nested ks) (h' : Nested ks') : Nested (ks ++ ks') := by
  induction h with
  | nil => exact h'
  | comment _ ih => exact .comment ih
  | block hinside _ _ ih =>
    rw [List.cons_append, List.append_assoc, List.cons_append]
    exact .block hinside ih

theorem isMark (h : Nested ks) : ∀ k ∈ ks, k.isMark = true ∧ k ≠ .unclosed := by
  induction h with
  | nil => simp
  | comment _ ih => exact List.forall_mem_cons.2 ⟨⟨rfl, by decide⟩, ih⟩
  | block _ _ ih ih' =>
    refine List.forall_mem_cons.2 ⟨⟨rfl, by decide⟩, List.forall_mem_append.2 ⟨ih, ?_⟩⟩
    exact List.forall_mem_cons.2 ⟨⟨rfl, by decide⟩, ih'⟩

theorem balanced (h : Nested ks) : ks.count .rightBrace = ks.count .leftBrace := by
  induction h with
  | nil => rfl
  | comment _ ih => simpa using ih
  | block _ _ ih ih' =>
    simp only [List.count_cons, List.count_append, ih, ih', beq_self_eq_true, reduceCtorEq, if_true,
      beq_iff_eq, if_false]
    omega

/-- No block is closed before it is opened. -/
theorem le_of_prefix {pre : List TokenKind} (h : Nested ks) (hpre : pre <+: ks) :
    pre.count .rightBrace ≤ pre.count .leftBrace := by
  induction h generalizing pre with
  | nil =>
    rw [List.prefix_nil.1 hpre]
    exact Nat.le_refl _
  | comment _ ih =>
    rcases List.prefix_cons_iff.1 hpre with rfl | ⟨pre, rfl, hrest⟩
    · exact Nat.le_refl _
    · simpa using ih hrest
  | block hinside _ ih ih' =>
    rcases List.prefix_cons_iff.1 hpre with rfl | ⟨pre, rfl, post, hpost⟩
    · exact Nat.le_refl _
    -- The part ends inside the block, with what is inside of it, or behind the end of the block.
    rcases List.append_eq_append_iff.1 hpost with ⟨rest, rfl, -⟩ | ⟨rest, rfl, hrest⟩
    · have := ih (List.prefix_append pre rest)
      simp only [List.count_cons, beq_self_eq_true, reduceCtorEq, if_true, beq_iff_eq, if_false]
      omega
    · have hbalanced := hinside.balanced
      rcases List.prefix_cons_iff.1 ⟨post, hrest.symm⟩ with rfl | ⟨behind, rfl, hbehind⟩
      · simp only [List.append_nil, List.count_cons, beq_self_eq_true, reduceCtorEq, if_true,
          beq_iff_eq, if_false]
        omega
      · have := ih' hbehind
        simp only [List.count_cons, List.count_append, beq_self_eq_true, reduceCtorEq, if_true,
          beq_iff_eq, if_false]
        omega

end Nested

/-- Whether marks nest as `es` do: a rule has a block, as has an at-rule that has children. -/
structure Tally (ks : List TokenKind) (es : List Entry) : Prop where
  nested : Nested ks
  blocks : ks.count .leftBrace = es.countP (fun e => e.node.item.kind = .rule) +
    es.countP fun e => e.node.item.kind = .atRule ∧ e.children ≠ []
  comments : ks.count .blockComment = es.countP fun e => e.node.item.kind = .comment

namespace Tally

variable {es es' : List Entry}

theorem nil : Tally [] [] := ⟨.nil, rfl, rfl⟩

theorem append (h : Tally ks es) (h' : Tally ks' es') : Tally (ks ++ ks') (es ++ es') := by
  refine ⟨h.nested.append h'.nested, ?_, ?_⟩
  · rw [List.count_append, List.countP_append, List.countP_append, h.blocks, h'.blocks]
    omega
  · rw [List.count_append, List.countP_append, h.comments, h'.comments]

/-- An entry has the marks of its item around those of the entries below it. -/
theorem item {e : Entry} (h : Tally ks es) (hes : e.children = [] → es = [])
    (hleaf : e.children ≠ [] → e.node.item.kind.isContainer = true) :
    Tally (itemMarks e.children.isEmpty ks e.node.item) (e :: es) := by
  by_cases hc : e.children = []
  · obtain rfl := hes hc
    cases hi : e.node.item with
    | declaration => constructor <;> simp [itemMarks, hi, Item.kind, Nested.nil]
    | comment => constructor <;> simp [itemMarks, hi, Item.kind, Nested.nil.comment]
    | atRule => constructor <;> simp [itemMarks, hc, hi, Item.kind, Nested.nil]
    | rule =>
      have hempty : Nested [.leftBrace, .rightBrace] := .block .nil .nil
      constructor <;> simp [itemMarks, hc, hi, Item.kind, hempty]
  · have hblock : Nested (.leftBrace :: (ks ++ [.rightBrace])) := h.nested.block .nil
    have hcontainer := hleaf hc
    cases hi : e.node.item with
    | declaration | comment => simp [hi, Item.kind, NodeKind.isContainer] at hcontainer
    | atRule =>
      constructor <;> simp +arith [itemMarks, hc, hi, Item.kind, hblock, h.blocks, h.comments]
    | rule =>
      constructor <;> simp +arith [itemMarks, hc, hi, Item.kind, hblock, h.blocks, h.comments]

end Tally

/-! ### Sheets -/

/-- The lines of nodes whose texts can be spliced nest as the nodes do. -/
theorem exists_marks {s : Sheet} {ids : List NodeId} {vs : List Sheet.Visit}
    (h : s.Outlined depth ids vs) {fuel : Nat} (hfuel : vs.length ≤ fuel)
    (hall : ∀ v ∈ vs, v.node.item.Spliceable) :
    ∃ ks, Marks (linesFrom s fuel depth ids) ks ∧ Tally ks ((vs.map (·.id)).filterMap s.entry?) := by
  induction h generalizing fuel with
  | nil => cases fuel <;> exact ⟨[], .nil, .nil⟩
  | @cons depth id ids e below rest he hleaf hbelow _ ihbelow ihrest =>
    rw [List.length_cons, List.length_append] at hfuel
    obtain ⟨hitem, hall⟩ := List.forall_mem_cons.1 hall
    obtain ⟨hallbelow, hallrest⟩ := List.forall_mem_append.1 hall
    cases fuel with
    | zero => omega
    | succ fuel =>
      have hlebelow : below.length ≤ fuel := by omega
      have hlerest : rest.length ≤ fuel + 1 := by omega
      obtain ⟨ks, hks, htally⟩ := ihbelow hlebelow hallbelow
      obtain ⟨ls, hls, htally'⟩ := ihrest hlerest hallrest
      have hnil : e.children = [] → (below.map (·.id)).filterMap s.entry? = [] := by
        intro hc
        rw [hc] at hbelow
        cases hbelow
        rfl
      refine ⟨itemMarks e.children.isEmpty ks e.node.item ++ ls, ?_, ?_⟩
      · rw [linesFrom] at hls ⊢
        rw [List.flatMap_cons, he]
        exact (marks_item hitem e.children.isEmpty hks).append hls
      · rw [List.map_cons, List.map_append, List.filterMap_cons_some he, List.filterMap_append,
          ← List.cons_append]
        exact (htally.item hnil hleaf).append htally'

end Css

/-! ### Texts that were read -/

theorem Token.Whole.bare {ts : List Token} (h : Token.Whole ts)
    (hcomment : ∀ t ∈ ts, t.kind.isComment = false) : Token.Bare (join ts) := by
  have hbare : Token.bare ts = ts := List.filter_eq_self.2 fun t ht => by simp [hcomment t ht]
  have hmarks := h.filter_bare
  rw [hbare] at hmarks
  have hscan : Token.scanFrom 0 (join ts) = ts := h.scan
  rw [Token.Bare, skim, hscan, hmarks, h.depth]

/-- The texts of an item that its author wrote behind two slashes. -/
def Item.lineTexts : Item → List Text
  | .comment c => if c.form = .line then [c.text] else []
  | _ => []

namespace Statement

variable {s : Statement} {ts : List Token}

/-- A comment between slashes and stars does not end before it ends. -/
theorem not_blockEnd_infix (hk : s.kind = .comment) (hf : s.Formed)
    (hl : s.first.head.kind ≠ .lineComment) (he : Token.Expands s.tokens ts) (hw : Token.Whole ts) :
    ¬['*', '/'] <:+: s.comment.text := by
  have hblock := hf.blockComment hk hl
  obtain ⟨ts, rfl, -⟩ := he.of_cons (by simp [Token.isWhitespace, hblock, TokenKind.isWhitespace])
  have hfits := Token.fits_of_scan (hw.scan.trans (List.nil_append _).symm)
  rw [hblock] at hfits
  obtain ⟨(inside : Text), htext, hend⟩ := hfits
  have hcomment : s.comment.text = inside.trimParts.2.1 := by
    have hinside := htext ▸ Text.inside_blockComment inside
    simp only [comment, hl, if_false, hinside]
  rintro ⟨a, b, hab⟩
  have hparts := inside.trimParts_append
  rw [← hcomment, ← hab] at hparts
  have := hend (inside.trimParts.1 ++ a) (b ++ inside.trimParts.2.2 ++ ['*', '/']) (by
    nth_rewrite 1 [← hparts]
    simp)
  simp at this

/-- Texts that were read can be spliced, if no comment comes to light in a field and none that was
written behind two slashes closes itself. -/
theorem spliceable_of_item {i : Item} (h : s.item = .ok i) (hf : s.Formed)
    (he : Token.Expands s.tokens ts) (hw : Token.Whole ts)
    (hfields : ∀ x ∈ i.fields, Token.Bare x.2)
    (hlines : ∀ t ∈ i.lineTexts, ¬['*', '/'] <:+: t) : i.Spliceable := by
  rcases item_eq_ok.1 h with ⟨hk, rfl⟩ | ⟨hk, a, ha, rfl⟩ | ⟨-, r, -, rfl⟩ | ⟨-, d, hd, rfl⟩
  · by_cases hl : s.first.head.kind = .lineComment
    · exact hlines _ (by simp [Item.lineTexts, comment, hl])
    · exact not_blockEnd_infix hk hf hl he hw
  · obtain ⟨-, -, rfl⟩ := atRule_eq_ok.1 ha
    have hspells := hf.spells
    rw [hf.atRule hk] at hspells
    obtain ⟨name, hname, hrun⟩ := hspells
    refine ⟨fun c hc => Token.isBland_of_endsAtWord (hrun c ?_), hfields _ List.mem_cons_self⟩
    simpa [atRuleOf, hname] using hc
  · exact hfields _ List.mem_cons_self
  · obtain ⟨-, before, colon, after, hsep, htrivia, -, rfl⟩ := declaration_eq_ok.1 hd
    refine ⟨(whole_declaration he hw hsep htrivia).1.bare fun t ht => ?_,
      hfields _ List.mem_cons_self⟩
    have := List.mem_takeWhile_imp ht
    simp only [TokenKind.isTrivia, Bool.not_or, Bool.and_eq_true, Bool.not_eq_true'] at this
    exact this.2

end Statement

namespace Sheet

variable {name : String} {source : Text} {s : Sheet}

/-- What makes the CSS of a sheet well formed: nothing in it is left open, its braces nest, and they and
its comments are those of the nodes. -/
structure WellBraced (s : Sheet) : Prop where
  closed : ∀ t ∈ scan s.css, t.kind ≠ .unclosed
  nested : ∀ ts, ts <+: scan s.css →
    (ts.map (·.kind)).count .rightBrace ≤ (ts.map (·.kind)).count .leftBrace
  balanced : ((scan s.css).map (·.kind)).count .rightBrace =
    ((scan s.css).map (·.kind)).count .leftBrace
  blocks : ((scan s.css).map (·.kind)).count .leftBrace =
    s.entries.countP (fun e => e.node.item.kind = .rule) +
      s.entries.countP fun e => e.node.item.kind = .atRule ∧ e.children ≠ []
  comments : ((scan s.css).map (·.kind)).count .blockComment =
    s.entries.countP fun e => e.node.item.kind = .comment

theorem Lists.filterMap_entry {vs : List Visit} (h : s.Lists vs) :
    (vs.map (·.id)).filterMap s.entry? = s.entries := by
  have hrange : (List.range s.size).map s.entry? = s.entries.map some := by
    refine List.ext_getElem (by simp [size]) fun n hn hn' => ?_
    rw [List.length_map] at hn'
    simp [hn', entry?]
  rw [h.ids]
  simpa using congrArg (List.filterMap id) hrange

/-- Texts that can be spliced leave the braces and comments between them as they are. -/
theorem wellBraced_of_spliceable {vs : List Visit} (hlists : s.Lists vs)
    (hall : ∀ v ∈ vs, v.node.item.Spliceable) : s.WellBraced := by
  obtain ⟨ks, hks, htally⟩ := Css.exists_marks hlists.outlined (Nat.le_of_eq hlists.length_eq) hall
  rw [hlists.filterMap_entry] at htally
  have hmarks := htally.nested.isMark
  have hkinds : ((scan s.css).map (·.kind)).filter TokenKind.isMark = ks := by
    have hskim : skim 0 s.css = behind ks (skim 0 []) := by
      simpa [Css.unlines, css] using hks []
    have := congrArg Prod.fst hskim
    rw [Token.skim_nil, behind, List.append_nil, List.filter_eq_self.2 fun k hk => (hmarks k hk).1]
      at this
    exact this
  have hcount : ∀ {k : TokenKind}, k.isMark = true → ∀ ls : List TokenKind,
      (ls.filter TokenKind.isMark).count k = ls.count k := fun hk ls => List.count_filter hk
  constructor
  case closed =>
    intro t ht hk
    have hmem : t.kind ∈ ks := by
      rw [← hkinds, List.mem_filter]
      exact ⟨List.mem_map_of_mem ht, by rw [hk]; rfl⟩
    exact (hmarks _ hmem).2 hk
  case nested =>
    intro ts hts
    rw [← hcount rfl, ← hcount (k := .leftBrace) rfl]
    refine htally.nested.le_of_prefix ?_
    rw [← hkinds]
    exact (hts.map _).filter _
  case balanced => rw [← hcount rfl, ← hcount (k := .leftBrace) rfl, hkinds, htally.nested.balanced]
  case blocks => rw [← hcount rfl, hkinds, htally.blocks]
  case comments => rw [← hcount rfl, hkinds, htally.comments]

/-- The CSS of a sheet that was read is well formed, if no field of it has comments when it is scanned
by itself and no comment that was written behind two slashes closes itself. -/
theorem wellBraced_of_parse (h : parse name source = .ok s)
    (hfields : ∀ e ∈ s.entries, ∀ x ∈ e.node.item.fields, ∀ t ∈ scan x.2,
      t.kind.isComment = false ∧ t.kind ≠ .unclosed)
    (hlines : ∀ e ∈ s.entries, ∀ t ∈ e.node.item.lineTexts, ¬['*', '/'] <:+: t) : s.WellBraced := by
  obtain ⟨_, vs, -, hlists, -⟩ := exists_of_parse h
  refine wellBraced_of_spliceable hlists fun v hv => ?_
  obtain ⟨e, he, hnode⟩ := hlists.outlined.entry_of_mem hv
  have hentry : e ∈ s.entries := List.mem_of_getElem? he
  obtain ⟨t, ts, hf, ht, hexpands, hw⟩ := whole_of_parse h (hlists.outline_eq ▸ hv)
  obtain ⟨i, hi, hitem⟩ := Statement.node_eq_ok.1 ht
  have hsame : e.node.item = i := by rw [hnode, hitem]
  rw [hitem]
  refine Statement.spliceable_of_item hi hf hexpands hw (fun x hx => ?_) (hsame ▸ hlines e hentry)
  rw [← hsame] at hx
  exact (field_of_parse h hentry hx).2 (Token.flawless_iff_scan.2 (hfields e hentry x hx))

theorem wellBraced_comments_dropped :
    let source := Text.ofString "@a b // c\n  d,\n  e /* f */\n    g: (h/**/i)\n    // j\n@k\nl\n"
    let css := Text.ofString ("@a b \x7b\n    d,\n  e \x7b\n        g: (hi);\n        /* j */\n" ++
      "    \x7d\n\x7d\n@k;\nl \x7b\x7d\n")
    ∃ s, parse "in" source = .ok s ∧
      (∀ e ∈ s.entries, ∀ x ∈ e.node.item.fields, ∀ t ∈ scan x.2,
        t.kind.isComment = false ∧ t.kind ≠ .unclosed) ∧
      (∀ e ∈ s.entries, ∀ t ∈ e.node.item.lineTexts, ¬['*', '/'] <:+: t) ∧ s.WellBraced ∧ s.css = css := by
  intro source css
  have hcss : (parse "in" source).toOption.map (fun s =>
      (decide (∀ e ∈ s.entries, ∀ x ∈ e.node.item.fields, ∀ t ∈ scan x.2,
        t.kind.isComment = false ∧ t.kind ≠ .unclosed),
      decide (∀ e ∈ s.entries, ∀ t ∈ e.node.item.lineTexts, ¬['*', '/'] <:+: t), s.css)) = some (true, true, css) := by
    decide +kernel
  obtain ⟨s, h, hs⟩ := exists_of_map_parse hcss
  simp only [Prod.mk.injEq, decide_eq_true_eq] at hs
  obtain ⟨hfields, hlines, hcss⟩ := hs
  exact ⟨s, h, hfields, hlines, wellBraced_of_parse h hfields hlines, hcss⟩

/-- A comment behind two slashes may hold what ends it between slashes and stars. -/
theorem line_comment_spills :
    ¬ ∀ {source : Text} {s : Sheet}, parse "in" source = .ok s → s.WellBraced := by
  intro hall
  let source := Text.ofString "// */ \"\n"
  have hcss : (parse "in" source).toOption.map Sheet.css =
      some (Text.ofString "/* */ \" */\n") := by
    decide +kernel
  have hunclosed : ⟨.unclosed, Text.ofString "\" */\n"⟩ ∈ scan (Text.ofString "/* */ \" */\n") := by
    decide +kernel
  obtain ⟨s, h, hs⟩ := exists_of_map_parse hcss
  rw [← hs] at hunclosed
  exact (hall h).closed _ hunclosed rfl

end Sheet

end OffsideCss
