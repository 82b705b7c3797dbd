import OffsideCss.Proofs.Ink
import OffsideCss.Proofs.PositionOrder
import OffsideCss.Proofs.RoundTrip

/-! Source ranges.  The source of a node that was read begins with the first character of what is written
for it with kept spacing, and leaves nothing of it but blanks at its end. -/

namespace OffsideCss

open Token (join scan contentEnd)

namespace Token

variable {ts : List Token}

theorem exists_splitTrailing (h : ∃ t ∈ ts, t.isWhitespace = false) : ∃ us t,
    (splitTrailing ts).1 = us ++ [t] ∧ t.isWhitespace = false := by
  obtain ⟨t, ht, hw⟩ := h
  have hne : ts.reverse.dropWhile isWhitespace ≠ [] := by
    intro hnil
    have := List.dropWhile_eq_nil_iff.1 hnil t (List.mem_reverse.2 ht)
    rw [hw] at this
    cases this
  obtain ⟨u, us, hu⟩ := List.exists_cons_of_ne_nil hne
  refine ⟨us.reverse, u, by rw [splitTrailing, hu, List.reverse_cons], ?_⟩
  have := List.head?_dropWhile_not isWhitespace ts.reverse
  rw [hu] at this
  simpa using this

theorem contentEnd_eq {front : List Token} {t : Token} (h : (splitTrailing ts).1 = front ++ [t])
    (p : Place) : contentEnd p ts = (p.after (join front)).toPosition.last t.text.trimEnd := by
  rw [contentEnd, h, List.getLast?_concat, List.dropLast_concat]

/-- The content of tokens ends with a part of their text that leaves nothing but blanks. -/
theorem exists_content (hs : ∀ t ∈ ts, t.Inked) (h : ∃ t ∈ ts, t.isWhitespace = false) :
    ∃ front back, join ts = front ++ back ∧ front ≠ [] ∧ (∀ c ∈ back, isBlank c = true) ∧
      ∀ place : Place, contentEnd place ts = place.toPosition.last front := by
  obtain ⟨us, t, hcontent, hw⟩ := exists_splitTrailing h
  have hsplit := splitTrailing_append ts
  have hjoin : join ts = join us ++ t.text ++ join (splitTrailing ts).2 := by
    rw [← congrArg join hsplit, hcontent]
    simp
  have hspaces : ∀ c ∈ join (splitTrailing ts).2, isBlank c = true := by
    apply Text.ink_eq_nil.1
    apply ink_join_of_isWhitespace
    · intro u hu
      exact hs u (hsplit ▸ List.mem_append_right _ hu)
    · exact white_splitTrailing ts
  have hend : ∀ place : Place,
      contentEnd place ts = (place.toPosition.after (join us)).last t.text.trimEnd :=
    contentEnd_eq hcontent
  have htrim := Text.trimEnd_append_blanks t.text
  have hblanks : ∀ c ∈ (t.text.reverse.takeWhile isBlank).reverse, isBlank c = true := by
    intro c hc
    exact List.mem_takeWhile_imp (List.mem_reverse.1 hc)
  by_cases hne : t.text.trimEnd = []
  · have hinked : t.Inked := hs t (hsplit ▸ hcontent ▸ by simp)
    obtain ⟨c, rest, ht, -⟩ := hinked.solid hw
    rw [hne, List.nil_append, ht] at htrim
    rw [ht, htrim] at hblanks
    refine ⟨join us ++ [c], rest ++ join (splitTrailing ts).2, ?_, by simp, ?_, ?_⟩
    · rw [hjoin, ht]
      simp
    · exact List.forall_mem_append.2 ⟨(List.forall_mem_cons.1 hblanks).2, hspaces⟩
    · intro place
      rw [hend, hne, Position.last_append _ _ (List.cons_ne_nil c [])]
      rfl
  · refine ⟨join us ++ t.text.trimEnd, _ ++ join (splitTrailing ts).2, ?_, by simp [hne],
      List.forall_mem_append.2 ⟨hblanks, hspaces⟩, ?_⟩
    · rw [hjoin]
      nth_rewrite 1 [← htrim]
      simp
    · intro place
      rw [hend, Position.last_append _ _ hne]

end Token

/-- Where a statement begins. -/
theorem Statement.place_eq {source after : Text} {lines : List Line}
    (h : Line.ofTokens (scan source) = .ok (lines, after)) {pre post : List Statement} {t : Statement}
    (hs : group lines = pre ++ t :: post) :
    t.place = Place.first.after ((pre.flatMap Statement.lines).flatMap Line.text ++ t.first.lead) := by
  have hlines : lines =
      pre.flatMap Statement.lines ++ t.first :: (t.more ++ post.flatMap Statement.lines) := by
    rw [← flatMap_lines_group lines, hs]
    simp [Statement.lines]
  rw [place, Line.place_of_ofTokens (hlines ▸ h), Line.lead, ← List.append_assoc,
    Place.after_append _ _ t.first.indent]

/-- Whether a passage was read at `start`, up to the end of a part of it that leaves nothing but
blanks. -/
structure Passage.ReadAt (p : Passage) (start : Position) (front back : Text) : Prop where
  own : p.own = front ++ back
  nonempty : front ≠ []
  blank : ∀ c ∈ back, isBlank c = true
  source : p.source = some ⟨start, start.last front⟩

variable {before : Text} {p : Passage} {front back : Text}

/-- A passage was read before everything that is written behind it. -/
theorem Passage.ReadAt.last_lt
    (h : p.ReadAt (Position.first.after (before ++ p.lead)) front back) (u : Text) :
    (Position.first.after (before ++ p.lead)).last front <
      Position.first.after (before ++ p.text ++ u) := by
  have htext : before ++ p.text ++ u = before ++ p.lead ++ (front ++ (back ++ u)) := by
    rw [Passage.text, h.own]
    simp
  rw [htext, Position.after_append _ (before ++ p.lead), Position.after_append _ front]
  apply lt_of_lt_of_le (Position.last_lt_after _ h.nonempty)
  exact Position.le_after _ _

namespace Sheet

variable {name : String} {source : Text} {s : Sheet}

/-- A passage was read where it is written with kept spacing. -/
theorem exists_readAt (h : parse name source = .ok s) {pre post : List Passage} {p : Passage}
    (hp : s.passages .kept = pre ++ p :: post) : ∃ front back,
      p.ReadAt (Position.first.after (pre.flatMap Passage.text ++ p.lead)) front back := by
  obtain ⟨lines, hlines, hpasses⟩ := passes_of_parse h
  rw [hp] at hpasses
  obtain ⟨ts, t, ts', hgroup, hpre, ht, -⟩ := exists_split_of_forall₂ hpasses
  have hmem : t ∈ Statement.group lines := by simp [hgroup]
  have hhead := Line.head_of_ofTokens hlines (Statement.mem_of_mem_group hmem List.mem_cons_self)
  obtain ⟨front, back, hjoin, hne, hblank, hend⟩ := Token.exists_content
    (Statement.inked_of_mem_group hlines hmem) ⟨t.first.head, List.mem_cons_self, hhead⟩
  refine ⟨front, back, ht.own.trans hjoin, hne, hblank, ?_⟩
  rw [ht.source, hend, Statement.place_eq hlines hgroup, Statement.flatMap_text_of_passes hpre, ht.lead]
  rfl

/-- Whether `range` is where the own text of a passage stands in `source`, behind the text `before`, up
to blanks at its end. -/
structure Spans (source before : Text) (p : Passage) (range : Source) : Prop where
  nonempty : p.own ≠ []
  start : range.start = Position.first.after (before ++ p.lead)
  ordered : range.start ≤ range.stop
  own : ∃ blanks, p.own = source.range range.start range.stop ++ blanks ∧
    ∀ c ∈ blanks, isBlank c = true

/-- Whether one source ends before another one begins. -/
def EndsBefore (a b : Option Source) : Prop := ∀ range ∈ a, ∀ range' ∈ b, range.stop < range'.start

/-- Whether the sources of all nodes of a sheet, which is written as `source` with kept spacing, are
where their own texts stand, one behind the other. -/
structure Ranged (s : Sheet) (source : Text) : Prop where
  nodes : s.outline.map (·.id) = List.range s.size
  written : s.write .kept = source
  passages : (s.passages .kept).map (fun p => (p.kind, p.own, p.source)) = s.outline.map fun v =>
    (v.node.item.kind, v.node.item.write .kept (Spacing.kept.indent s) v.depth, v.node.source)
  spans : ∀ pre p post, s.passages .kept = pre ++ p :: post →
    ∃ range, p.source = some range ∧ Spans source (pre.flatMap Passage.text) p range
  disjoint : s.outline.IsChain fun v w => EndsBefore v.node.source w.node.source

theorem map_passages (s : Sheet) (spacing : Spacing) :
    (s.passages spacing).map (fun p => (p.kind, p.own, p.source)) = s.outline.map fun v =>
      (v.node.item.kind, v.node.item.write spacing (spacing.indent s) v.depth, v.node.source) := by
  rw [passages]
  cases s.outline with
  | nil => rfl
  | cons v vs =>
    rw [List.map_cons, List.map_map]
    rfl

theorem exists_visit_of_mem {spacing : Spacing} {p : Passage} (h : p ∈ s.passages spacing) :
    ∃ v ∈ s.outline, ∃ isFirst, p = s.passage spacing isFirst v := by
  rw [passages] at h
  cases ho : s.outline with
  | nil => simp [ho] at h
  | cons v vs =>
    rw [ho] at h
    rcases List.mem_cons.1 h with rfl | h
    · exact ⟨v, List.mem_cons_self, true, rfl⟩
    · obtain ⟨w, hw, rfl⟩ := List.mem_map.1 h
      exact ⟨w, List.mem_cons_of_mem _ hw, false, rfl⟩

theorem isChain_endsBefore (s : Sheet) (spacing : Spacing) :
    ((s.passages spacing).IsChain fun p q => EndsBefore p.source q.source) ↔
      s.outline.IsChain fun v w => EndsBefore v.node.source w.node.source := by
  have hmap : (s.passages spacing).map (·.source) = s.outline.map (·.node.source) := by
    have := congrArg (List.map (·.2.2)) (s.map_passages spacing)
    rwa [List.map_map, List.map_map] at this
  calc _ ↔ ((s.passages spacing).map (·.source)).IsChain EndsBefore := (List.isChain_map _).symm
    _ ↔ (s.outline.map (·.node.source)).IsChain EndsBefore := by rw [hmap]
    _ ↔ _ := List.isChain_map _

theorem spans_of_parse (h : parse name source = .ok s) {pre post : List Passage} {p : Passage}
    (hp : s.passages .kept = pre ++ p :: post) :
    ∃ range, p.source = some range ∧ Spans source (pre.flatMap Passage.text) p range := by
  obtain ⟨front, back, hread⟩ := exists_readAt h hp
  refine ⟨_, hread.source, by simp [hread.own, hread.nonempty], rfl, Position.le_last _ _, back, ?_,
    hread.blank⟩
  have hsource : source = (pre.flatMap Passage.text ++ p.lead) ++ front ++
      (back ++ (post.flatMap Passage.text ++ s.after)) := by
    rw [← write_kept_of_parse h, write, hp, List.flatMap_append, List.flatMap_cons, Passage.text,
      hread.own]
    simp [ending]
  rw [hsource, Text.range_append _ _ hread.nonempty]
  exact hread.own

theorem endsBefore_of_parse (h : parse name source = .ok s) {pre post : List Passage} {p q : Passage}
    (hp : s.passages .kept = pre ++ p :: q :: post) : EndsBefore p.source q.source := by
  intro range hrange range' hrange'
  have hq : s.passages .kept = (pre ++ [p]) ++ q :: post := by simpa using hp
  obtain ⟨front, back, hread⟩ := exists_readAt h hp
  obtain ⟨front', back', hread'⟩ := exists_readAt h hq
  obtain rfl := Option.some.inj (hread.source.symm.trans hrange)
  obtain rfl := Option.some.inj (hread'.source.symm.trans hrange')
  show Position.last _ front < Position.first.after _
  rw [List.flatMap_append, List.flatMap_singleton]
  exact hread.last_lt q.lead

theorem disjoint_of_parse (h : parse name source = .ok s) :
    s.outline.IsChain fun v w => EndsBefore v.node.source w.node.source := by
  rw [← isChain_endsBefore s .kept, List.isChain_iff_forall_rel_of_append_cons_cons]
  intro p q pre post hp
  exact endsBefore_of_parse h hp

/-- The source of a node that was read is where its own text stands, without blanks at its end, and the
sources of two nodes do not overlap. -/
theorem ranged_of_parse (h : parse name source = .ok s) : s.Ranged source := by
  obtain ⟨lines, vs, -, hlists, -⟩ := exists_of_parse h
  refine ⟨?_, write_kept_of_parse h, map_passages s .kept, ?_, disjoint_of_parse h⟩
  · rw [hlists.outline_eq, hlists.ids]
  · intro pre p post hp
    exact spans_of_parse h hp

/-- A selector of two lines ends with its comment, a value with a blank that is a word of its own, and a
comment before the blanks behind its text. -/
theorem ranged_trailing_blanks :
    let source := Text.ofString "a,\n b /*\u00e9*/ \n  c: d\n   e \u00a0 \n//x  \n"
    ∃ s, parse "in" source = .ok s ∧ s.Ranged source ∧ s.entries.map (·.node.source) =
      [some ⟨⟨1, 1⟩, ⟨2, 8⟩⟩, some ⟨⟨3, 3⟩, ⟨4, 6⟩⟩, some ⟨⟨5, 1⟩, ⟨5, 3⟩⟩] := by
  intro source
  have hsources : (parse "in" source).toOption.map (fun s => s.entries.map (·.node.source)) =
      some [some ⟨⟨1, 1⟩, ⟨2, 8⟩⟩, some ⟨⟨3, 3⟩, ⟨4, 6⟩⟩, some ⟨⟨5, 1⟩, ⟨5, 3⟩⟩] := by
    decide +kernel
  obtain ⟨s, h, hs⟩ := exists_of_map_parse hsources
  exact ⟨s, h, ranged_of_parse h, hs⟩

end Sheet

end OffsideCss
