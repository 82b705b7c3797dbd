import OffsideCss.Layout.PositionMap
import OffsideCss.Proofs.LineBreaks
import OffsideCss.Proofs.OffsetPositions

/-! Maps of sheets that were read.  Each node has one entry for its start, and each leaf one more for its
end.  A leaf has ink behind its first character and a node that is not the first one stands behind a line
break, so the entries are strictly ordered, by what they map and by what they map to.  A map has the
entries with what they map made counters, and so in order as long as counters hold it. -/

namespace OffsideCss

open Token (join scan)

/-- A mapping with the position of the written character made counters. -/
def Mapping.wrap (m : Mapping) : Mapping := ⟨m.written.wrap, m.read⟩

/-! ### The map of some passages -/

namespace Passage

/-- The passages that are written from a position on, with the positions where their own texts
begin. -/
def placedFrom (start : Position) : List Passage → List (Position × Passage)
  | [] => []
  | p :: rest => (start.after p.lead, p) :: placedFrom (start.after p.text) rest

/-- The entries of a passage whose own text begins at `start`. -/
def entries (start : Position) (p : Passage) (range : Source) : List Mapping :=
  ⟨start, range.start⟩ :: if p.kind.isContainer then [] else [⟨start.last p.own, range.stop⟩]

/-- The entries of passages that are written from a position on. -/
def entriesFrom (start : Position) : List Passage → List Mapping
  | [] => []
  | p :: rest =>
    (p.source.elim [] (p.entries (start.after p.lead))) ++ entriesFrom (start.after p.text) rest

variable {p q : Passage} {ps : List Passage} {c : Cursor} {start : Position} {range : Source}

theorem startMapping_append_stopMapping (hc : c.next = start.wrap) (hs : p.source = some range)
    (hown : p.kind.isContainer = false → p.own ≠ []) :
    p.startMapping c ++ p.stopMapping c =
      (p.entries (start.after p.lead) range).map Mapping.wrap := by
  rw [startMapping, stopMapping, entries, hs, Cursor.next_write hc]
  cases hk : p.kind.isContainer with
  | true =>
    cases (c.write p.text).last <;> rfl
  | false =>
    obtain ⟨front, d, hd⟩ := (List.eq_nil_or_concat p.own).resolve_left (hown hk)
    have hlast : (c.write p.text).last = some ((start.after p.lead).last p.own).wrap := by
      rw [text, hd, List.concat_eq_append, ← List.append_assoc, Cursor.last_write_concat hc,
        Position.after_append, Position.last, List.dropLast_concat]
    rw [hlast]
    rfl

/-- Whether a passage has a source that does not go backwards, and as a leaf more than one character,
there and in its own text. -/
structure Wide (p : Passage) : Prop where
  source : ∃ range, p.source = some range ∧ range.start ≤ range.stop ∧
    (p.kind.isContainer = false → range.start < range.stop)
  own : p.kind.isContainer = false → ∃ c d t, p.own = c :: d :: t

/-- Whether a passage begins behind the start of the one before it and behind the end of its source. -/
structure Precedes (p q : Passage) : Prop where
  written : p.own ++ q.lead ≠ []
  read : Sheet.EndsBefore p.source q.source

theorem Wide.own_ne_nil (h : p.Wide) (hk : p.kind.isContainer = false) : p.own ≠ [] := by
  obtain ⟨c, d, t, hown⟩ := h.own hk
  rw [hown]
  exact List.cons_ne_nil _ _

theorem entriesFrom_cons (hs : p.source = some range) (rest : List Passage) :
    entriesFrom start (p :: rest) =
      p.entries (start.after p.lead) range ++ entriesFrom (start.after p.text) rest := by
  rw [entriesFrom, hs]
  rfl

/-- The map of passages has their entries, with the positions made counters. -/
theorem mappingsFrom_eq (hwide : ∀ p ∈ ps, p.Wide) (hc : c.next = start.wrap) :
    mappingsFrom c ps = (entriesFrom start ps).map Mapping.wrap := by
  induction ps generalizing c start with
  | nil => rfl
  | cons p rest ih =>
    obtain ⟨hp, hrest⟩ := List.forall_mem_cons.1 hwide
    obtain ⟨range, hs, -⟩ := hp.source
    rw [mappingsFrom, startMapping_append_stopMapping hc hs hp.own_ne_nil, entriesFrom_cons hs,
      List.map_append, ih hrest (Cursor.next_write hc p.text)]

end Passage

/-- Whether one mapping stands before another one, in the text that is written and in the one that was
read. -/
structure Mapping.Before (m n : Mapping) : Prop where
  written : m.written < n.written
  read : m.read < n.read

instance : Trans Mapping.Before Mapping.Before Mapping.Before where
  trans h h' := ⟨lt_trans h.written h'.written, lt_trans h.read h'.read⟩

namespace Passage

variable {p q : Passage} {ps : List Passage} {start : Position} {range : Source}

end Passage

/-- Whether a text has ink behind its first character. -/
def Text.Deep (t : Text) : Prop := ∃ c rest, t = c :: rest ∧ ink rest ≠ []

theorem Text.deep_append {t u : Text} (ht : t ≠ []) (hu : u.ink ≠ []) : Deep (t ++ u) := by
  obtain ⟨c, rest, rfl⟩ := List.exists_cons_of_ne_nil ht
  refine ⟨c, rest ++ u, rfl, ?_⟩
  rw [ink_append]
  exact List.append_ne_nil_of_right_ne_nil _ hu

/-- What is left of a deep text without blanks at its end has two characters or more. -/
theorem Text.Deep.exists_front {front back : Text} (h : Deep (front ++ back)) (hne : front ≠ [])
    (hback : ∀ c ∈ back, isBlank c = true) : ∃ c d rest, front = c :: d :: rest := by
  obtain ⟨c, front, rfl⟩ := List.exists_cons_of_ne_nil hne
  obtain ⟨_, rest, heq, hink⟩ := h
  obtain ⟨rfl, rfl⟩ := List.cons.inj heq
  cases front with
  | nil => exact absurd (ink_eq_nil.2 hback) hink
  | cons d front => exact ⟨_, d, front, rfl⟩

variable {spacing : Spacing} {unit : Text} {depth : Nat}

theorem Comment.deep_write (c : Comment) : (c.write spacing).Deep := by
  cases hform : c.form with
  | line =>
    simp only [write, hform, List.cons_append]
    exact ⟨'/', _, rfl, by simp [Text.ink_cons]⟩
  | block =>
    simp only [write, hform, List.cons_append]
    exact ⟨'/', _, rfl, by simp [Text.ink_cons]⟩

theorem Declaration.deep_write {d : Declaration} (hne : d.property ≠ [])
    (hbetween : ∀ between ∈ d.between, ':' ∈ between) : (d.write spacing unit depth).Deep := by
  have hcolon : ':' ∈ spacing.part d.between (':' :: padding d.value) := by
    cases spacing with
    | canonical => exact List.mem_cons_self
    | kept =>
      cases hb : d.between with
      | none => exact List.mem_cons_self
      | some between => exact hbetween between hb
  rw [write, List.append_assoc]
  apply Text.deep_append hne
  intro hink
  have hblank := Text.ink_eq_nil.1 hink ':' (List.mem_append_left _ hcolon)
  rw [isBlank_colon] at hblank
  cases hblank

/-- What is written for a leaf that was read has ink behind its first character. -/
theorem Statement.deep_write {t : Statement} {i : Item} (h : t.item = .ok i)
    (hs : ∀ tok ∈ t.tokens, tok.Inked) (hleaf : i.kind.isContainer = false) :
    (i.write spacing unit depth).Deep := by
  rcases item_eq_ok.1 h with ⟨-, rfl⟩ | ⟨-, a, -, rfl⟩ | ⟨-, r, -, rfl⟩ | ⟨-, d, hd, rfl⟩
  · exact t.comment.deep_write
  · cases hleaf
  · cases hleaf
  · obtain ⟨-, before, colon, after, hsep, -, hne, rfl⟩ := declaration_eq_ok.1 hd
    rw [← Token.splitSeparator?_append hsep] at hs
    apply Declaration.deep_write
    · obtain ⟨tok, rest, hname⟩ := List.exists_cons_of_ne_nil hne
      have hmem : tok ∈ before.takeWhile fun t => !t.kind.isTrivia := by
        rw [hname]
        exact List.mem_cons_self
      have hinked := hs tok (List.mem_append_left _ ((List.takeWhile_sublist _).subset hmem))
      obtain ⟨c, u, htext, -⟩ := hinked.solid (Token.isWhitespace_of_mem_name hmem)
      simp [declarationOf, hname, htext]
    · have hcolon := (hs colon (by simp)).text_eq_colon (Token.kind_of_splitSeparator? hsep)
      simp [declarationOf, hcolon]

/-! ### Sheets that were read -/

namespace Sheet

variable {name : String} {source : Text} {s : Sheet} {v : Visit} {p : Passage}

theorem exists_passage_mem (h : v ∈ s.outline) (spacing : Spacing) :
    ∃ isFirst, s.passage spacing isFirst v ∈ s.passages spacing := by
  rw [passages]
  cases ho : s.outline with
  | nil => simp [ho] at h
  | cons w ws =>
    rw [ho] at h
    rcases List.mem_cons.1 h with rfl | h
    · exact ⟨true, List.mem_cons_self⟩
    · exact ⟨false, List.mem_cons_of_mem _ (List.mem_map_of_mem h)⟩

theorem deep_write_of_parse (h : parse name source = .ok s) (hv : v ∈ s.outline)
    (hleaf : v.node.item.kind.isContainer = false) :
    (v.node.item.write spacing unit depth).Deep := by
  obtain ⟨lines, vs, hlines, hlists, hnodes⟩ := exists_of_parse h
  rw [hlists.outline_eq] at hv
  obtain ⟨t, ht, hnode⟩ := exists_mem_of_forall₂ hnodes hv
  obtain ⟨i, hi, hn⟩ := Statement.node_eq_ok.1 hnode
  rw [hn] at hleaf ⊢
  exact Statement.deep_write hi (Statement.inked_of_mem_group hlines ht) hleaf

theorem wide_of_parse (h : parse name source = .ok s) (hp : p ∈ s.passages spacing) : p.Wide := by
  obtain ⟨v, hv, isFirst, rfl⟩ := exists_visit_of_mem hp
  obtain ⟨isFirst', hkept⟩ := exists_passage_mem hv .kept
  obtain ⟨pre, post, hsplit⟩ := List.append_of_mem hkept
  obtain ⟨front, back, hread⟩ := exists_readAt h hsplit
  refine ⟨⟨_, hread.source, Position.le_last _ _, ?_⟩, ?_⟩
  · intro hleaf
    have hdeep : Text.Deep (front ++ back) := hread.own ▸ deep_write_of_parse h hv hleaf
    obtain ⟨c, d, rest, rfl⟩ := hdeep.exists_front hread.nonempty hread.blank
    exact Position.lt_last
  · intro hleaf
    obtain ⟨c, rest, hown, hink⟩ := deep_write_of_parse h hv hleaf
    obtain ⟨d, t, rfl⟩ := List.exists_cons_of_ne_nil (l := rest) (by rintro rfl; exact hink rfl)
    exact ⟨c, d, t, hown⟩

section Comment

variable {t : Text} (h : ∀ c ∈ t, isBlank c = false)
include h

theorem notMem_of_not_blank : '\n' ∉ t ∧ '\r' ∉ t :=
  ⟨fun hc => absurd (h _ hc) (by decide), fun hc => absurd (h _ hc) (by decide)⟩

theorem scan_lineComment : scan ('/' :: '/' :: t) = [⟨.lineComment, '/' :: '/' :: t⟩] := by
  obtain ⟨hfeed, hreturn⟩ := notMem_of_not_blank h
  have hrun : Text.splitBefore Text.atLineBreak ('/' :: t ++ []) = ('/' :: t, []) := by
    refine Text.splitBefore_run_append (List.forall_mem_cons.2 ⟨?_, fun c hc u => ?_⟩) (.inl rfl)
    · simp [Text.atLineBreak]
    · simp [Text.atLineBreak, ne_of_mem_of_not_mem hc hfeed, ne_of_mem_of_not_mem hc hreturn]
  rw [List.append_nil] at hrun
  rw [scan, Token.scanFrom_cons, Token.next]
  simp [TokenKind.ofPunctuation?, Text.atLineBreak, isSpacing, isQuote, Text.atBlockComment,
    Text.atLineComment, Token.ofRun, hrun]

/-- A line comment without blanks is read as a sheet of one comment. -/
theorem exists_parse_lineComment (name : String) : ∃ s, parse name ('/' :: '/' :: t) = .ok s ∧
    s.top = [0] ∧ s.entries = [.detached
      { item := .comment { text := t, form := .line, left := some [], right := some [] },
        before := some [], source := some ⟨.first, ⟨1, t.length + 2⟩⟩ }] := by
  have hall : ∀ c ∈ '/' :: '/' :: t, isBlank c = false :=
    List.forall_mem_cons.2 ⟨by decide, List.forall_mem_cons.2 ⟨by decide, h⟩⟩
  have htrim : Text.trimParts ([] ++ t ++ []) = ([], t, []) :=
    Text.trimParts_of_trimmed (by simp)
      ⟨fun c hc => h c (List.mem_of_mem_head? hc), fun c hc => h c (List.mem_of_getLast? hc)⟩
      (by simp) (fun _ => rfl)
  rw [List.nil_append, List.append_nil] at htrim
  have hend : Text.trimEnd ('/' :: '/' :: t) = '/' :: '/' :: t :=
    Text.trimEnd_eq_self fun c hc => hall c (List.mem_of_getLast? hc)
  have hlast : Position.first.last ('/' :: '/' :: t) = ⟨1, t.length + 2⟩ :=
    Position.last_of_notMem (notMem_of_not_blank hall).1 (List.cons_ne_nil _ _)
  let l : Line := ⟨[], [], .first, ⟨.lineComment, '/' :: '/' :: t⟩, []⟩
  have hlines : Line.ofTokens (scan ('/' :: '/' :: t)) = .ok ([l], []) := by
    rw [scan_lineComment h]
    rfl
  have hnode : Statement.node ⟨.comment, l, []⟩ =
      .ok { item := .comment { text := t, form := .line, left := some [], right := some [] },
            before := some [], source := some ⟨.first, ⟨1, t.length + 2⟩⟩ } := by
    simp [l, Statement.node, Statement.item, Statement.comment, htrim, Line.lead, Statement.place,
      Token.contentEnd, Statement.tokens, Statement.rest, Token.splitTrailing, Token.isWhitespace,
      TokenKind.isWhitespace, Except.map, hend, hlast, Place.first]
  refine ⟨{ entries := _, top := [0], origin := some ⟨name, .first, some ⟨1, t.length + 2⟩⟩ }, ?_,
    rfl, rfl⟩
  rw [parse, read, hlines]
  simp [Statement.group, Statement.groupFrom, Line.kind, Line.isComment, TokenKind.isComment,
    Draft.add, Draft.enter, Indentation.enter, hnode, bind, Except.bind, pure, Except.pure, append, l,
    size, hend, hlast]

/-- In canonical spacing there is one more blank before the text of the comment, and the last character of
the comment stands one column further. -/
theorem mappings_lineComment (hne : t ≠ []) (hs : parse name ('/' :: '/' :: t) = .ok s) :
    s.mappings .canonical = [⟨.first, .first⟩,
      ⟨(⟨1, t.length + 3⟩ : Position).wrap, ⟨1, t.length + 2⟩⟩] := by
  obtain ⟨s', hs', htop, hentries⟩ := exists_parse_lineComment h name
  obtain rfl := Except.ok.inj (hs.symm.trans hs')
  have hpassages : s.passages .canonical =
      [⟨[], '/' :: '/' :: ' ' :: t, .comment, some ⟨.first, ⟨1, t.length + 2⟩⟩⟩] := by
    simp [passages, outline, size, outlineFrom, entry?, htop, hentries, passage, lead, Item.write,
      Comment.write, Spacing.part, padding, hne, Item.kind]
  have hlast : Position.first.last ('/' :: '/' :: ' ' :: t) = ⟨1, t.length + 3⟩ := by
    refine Position.last_of_notMem ?_ (List.cons_ne_nil _ _)
    simp [(notMem_of_not_blank h).1]
  have hwide : ∀ p ∈ s.passages .canonical, p.Wide := fun p hp => wide_of_parse hs hp
  rw [mappings, Passage.mappingsFrom_eq hwide Position.wrap_first.symm, hpassages]
  simp [Passage.entriesFrom, Passage.entries, NodeKind.isContainer, hlast, Mapping.wrap]

end Comment

theorem bytes_lineComment (n : Nat) : Text.bytes ('/' :: '/' :: List.replicate n 'b') = n + 2 := by
  have hslash : '/'.utf8Size = 1 := rfl
  have hb : 'b'.utf8Size = 1 := rfl
  rw [Text.bytes_cons, Text.bytes_cons, Text.bytes_replicate, hslash, hb]
  omega

/-- In canonical spacing, the end of a line comment that is as long as can be is written at a column that
is no counter, and seems to stand before the start. -/
theorem not_increasing_long_comment :
    let source : Text := '/' :: '/' :: List.replicate (Counter.limit - 3) 'b'
    source.bytes < Counter.limit ∧ ∃ s, parse "in" source = .ok s ∧
      s.mappings .canonical = [⟨⟨1, 1⟩, ⟨1, 1⟩⟩, ⟨⟨1, 0⟩, ⟨1, Counter.limit - 1⟩⟩] ∧
      ¬(s.mappings .canonical).Pairwise Mapping.Before := by
  intro source
  have hlimit : 3 < Counter.limit := by decide
  have hbytes : source.bytes = Counter.limit - 3 + 2 := bytes_lineComment _
  have hblank : ∀ c ∈ List.replicate (Counter.limit - 3) 'b', isBlank c = false := fun c hc => by
    rw [List.eq_of_mem_replicate hc]
    decide
  have hne : List.replicate (Counter.limit - 3) 'b' ≠ [] := by
    intro hnil
    have hlength := congrArg List.length hnil
    rw [List.length_replicate, List.length_nil] at hlength
    omega
  obtain ⟨s, hs, -⟩ := exists_parse_lineComment hblank "in"
  have hmappings : s.mappings .canonical = [⟨⟨1, 1⟩, ⟨1, 1⟩⟩, ⟨⟨1, 0⟩, ⟨1, Counter.limit - 1⟩⟩] := by
    rw [mappings_lineComment hblank hne hs, List.length_replicate, Position.wrap,
      Nat.sub_add_cancel hlimit.le, Counter.wrap_limit, Counter.wrap_of_lt (by decide), Position.first,
      show Counter.limit - 3 + 2 = Counter.limit - 1 by omega]
  refine ⟨by omega, s, hs, hmappings, fun hbefore => ?_⟩
  rw [hmappings, List.pairwise_pair] at hbefore
  exact absurd hbefore.written (by decide)

end Sheet

end OffsideCss
