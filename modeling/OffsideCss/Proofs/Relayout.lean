import OffsideCss.Layout
import OffsideCss.Proofs.DepthRun
import OffsideCss.Proofs.StatementText

/-! Laying out by depth.  When each node's own text makes one statement by itself, and these statements
group as they are, then the texts, each on a line of its own that is indented by the depth of its
node, are read as these nodes. -/

namespace OffsideCss

open Token (scan)

/-- A node to lay out: its own text, and the statement that this text makes. -/
structure Part where
  depth : Nat
  own : Text
  statement : Statement

namespace Part

/-- The text of parts, each on a line of its own. -/
def layOut (unit ending : Text) : List Part → Text
  | [] => ending
  | [p] => unit.times p.depth ++ (p.own ++ ending)
  | p :: q :: rest => unit.times p.depth ++ (p.own ++ ['\n']) ++ layOut unit ending (q :: rest)

/-- The statement of a part behind the blank text `gap`, indented by its depth. -/
def indented (unit gap : Text) (p : Part) : Statement :=
  { p.statement with first := { p.statement.first with gap, indent := unit.times p.depth } }

/-- Whether the own text of a part makes its statement when `tail` follows, which leaves `after`
behind the statement. -/
structure Stands (p : Part) (tail after : Text) : Prop where
  lays : Line.Lays (p.own ++ tail) p.statement.lines after
  gap : p.statement.first.gap = []
  indent : p.statement.first.indent = []

/-- Whether each part makes its statement, the last one before `ending` and the others before a line
break, which none of them takes in. -/
inductive Stand (ending : Text) : List Part → Prop
  | last {p : Part} {after : Text} : p.Stands ending after → Stand ending [p]
  | cons {p q : Part} {rest : List Part} {gap : Text} :
      p.Stands ['\n'] gap → (scan (p.own ++ ['\n'])).getLast? = some ⟨.lineBreak, ['\n']⟩ →
      Stand ending (q :: rest) → Stand ending (p :: q :: rest)

variable {unit ending : Text} {p : Part} {parts : List Part}

theorem mem_times {t : Text} {n : Nat} {c : Char} (h : c ∈ t.times n) : c ∈ t := by
  simp only [Text.times, List.mem_flatten, List.mem_replicate] at h
  obtain ⟨u, ⟨-, rfl⟩, hc⟩ := h
  exact hc

theorem Stands.indented (hunit : ∀ c ∈ unit, c = ' ' ∨ c = '\t') {tail after : Text}
    (h : p.Stands tail after) :
    Line.Lays (unit.times p.depth ++ (p.own ++ tail)) (p.indented unit []).lines after := by
  have := h.lays.indent (unit.times p.depth) h.gap h.indent
    fun c hc => hunit c (mem_times hc)
  rw [Part.indented, Statement.lines, ← h.gap]
  exact this

theorem Stands.getLast?_scan (hunit : ∀ c ∈ unit, c = ' ' ∨ c = '\t') {gap : Text}
    (h : p.Stands ['\n'] gap) : (scan (unit.times p.depth ++ (p.own ++ ['\n']))).getLast? =
      (scan (p.own ++ ['\n'])).getLast? := by
  by_cases hne : unit.times p.depth = []
  · rw [hne, List.nil_append]
  · have hspace := h.lays.atSpacing_eq_false h.gap h.indent
    rw [scan, Token.scanFrom_spaces hne (fun c hc => hunit c (mem_times hc)) hspace, ← scan,
      List.getLast?_cons]
    cases hlast : (scan (p.own ++ ['\n'])).getLast? with
    | none =>
      have hjoin := Token.join_scan (p.own ++ ['\n'])
      simp [List.getLast?_eq_none_iff.1 hlast] at hjoin
    | some t => rfl

theorem Stands.endsRow (hunit : ∀ c ∈ unit, c = ' ' ∨ c = '\t') {gap : Text}
    (h : p.Stands ['\n'] gap)
    (hbreak : (scan (p.own ++ ['\n'])).getLast? = some ⟨.lineBreak, ['\n']⟩) :
    Line.EndsRow 0 (scan (unit.times p.depth ++ (p.own ++ ['\n']))) := by
  rw [← h.getLast?_scan hunit] at hbreak
  obtain ⟨body, hbody⟩ := List.getLast?_eq_some_iff.1 hbreak
  have hdepth := (Line.lays_iff.1 (h.indented hunit)).2.1
  rw [hbody, Token.depthAfter_append] at hdepth
  exact ⟨body, _, hbody, rfl, hdepth⟩

/-- The statements of parts that are laid out, up to the text between them. -/
def Makes (unit : Text) (parts : List Part) (ss : List Statement) : Prop :=
  List.Forall₂ (fun p s => ∃ gap, s = p.indented unit gap) parts ss

theorem Stand.lays (hunit : ∀ c ∈ unit, c = ' ' ∨ c = '\t') (h : Stand ending parts) :
    ∃ ss after, Makes unit parts ss ∧
      Line.Lays (layOut unit ending parts) (ss.flatMap Statement.lines) after := by
  induction h with
  | @last p after hp =>
    refine ⟨[p.indented unit []], after, .cons ⟨[], rfl⟩ .nil, ?_⟩
    rw [List.flatMap_singleton]
    exact hp.indented hunit
  | @cons p q rest gap hp hbreak _ ih =>
    obtain ⟨ss, after, hmakes, hlays⟩ := ih
    have happend := (hp.indented hunit).append (hp.endsRow hunit hbreak) hlays
    cases hmakes with
    | @cons _ s _ ss hs hmakes =>
      obtain ⟨gap', rfl⟩ := hs
      exact ⟨p.indented unit [] :: q.indented unit (gap ++ gap') :: ss, after,
        .cons ⟨[], rfl⟩ (.cons ⟨_, rfl⟩ hmakes), happend⟩

/-! ### The statements that are read -/

/-- Whether the first statement is the second one without the places of its lines. -/
structure Unplaces (s s' : Statement) : Prop where
  kind : s.kind = s'.kind
  first : s.first = s'.first.unplaced
  more : s.more = s'.more.map Line.unplaced

theorem Unplaces.tokens {s s' : Statement} (h : Unplaces s s') : s.tokens = s'.tokens := by
  have hmore : s.more.flatMap (fun l => l.joint :: l.tokens) =
      s'.more.flatMap fun l => l.joint :: l.tokens := by
    rw [h.more, List.flatMap_map]
    rfl
  rw [Statement.tokens, Statement.rest, hmore, h.first]
  rfl

theorem Unplaces.like {s s' : Statement} (h : Unplaces s s') : s.Like s' := by
  refine ⟨h.kind, ?_, ?_⟩
  · rw [h.first]
    exact ⟨rfl, rfl, rfl⟩
  · rw [h.more, List.forall₂_map_left_iff]
    exact List.forall₂_same.2 fun l _ => ⟨rfl, rfl, rfl⟩

theorem exists_regroup {lines : List Line} {ss : List Statement}
    (h : lines.map Line.unplaced = ss.flatMap Statement.lines) :
    ∃ ss', lines = ss'.flatMap Statement.lines ∧ List.Forall₂ Unplaces ss ss' := by
  induction ss generalizing lines with
  | nil => exact ⟨[], by simpa using h, .nil⟩
  | cons s ss ih =>
    rw [List.flatMap_cons] at h
    obtain ⟨front, back, rfl, hfront, hback⟩ := List.map_eq_append_iff.1 h
    obtain ⟨ss', rfl, hss⟩ := ih hback
    obtain ⟨l, ls, rfl, hl, hls⟩ := List.map_eq_cons_iff.1 hfront
    exact ⟨⟨s.kind, l, ls⟩ :: ss', by simp [Statement.lines], .cons ⟨rfl, hl.symm, hls.symm⟩ hss⟩

/-- The statements that are read where parts are laid out. -/
theorem Stand.exists_group (hunit : ∀ c ∈ unit, c = ' ' ∨ c = '\t') (h : Stand ending parts)
    (hgroup : Statement.Grouped (parts.map (Part.indented unit []))) :
    ∃ lines after, Line.ofTokens (scan (layOut unit ending parts)) = .ok (lines, after) ∧
      List.Forall₂ (fun p s => s.first.indent = unit.times p.depth ∧ s.kind = p.statement.kind ∧
        s.tokens = p.statement.tokens) parts (Statement.group lines) := by
  obtain ⟨ss, after, hmakes, lines, hlines, hmap⟩ := h.lays hunit
  obtain ⟨ss', rfl, hss⟩ := exists_regroup hmap
  have hboth : List.Forall₂ (fun p s => (p.indented unit []).Like s ∧
      s.first.indent = unit.times p.depth ∧ s.kind = p.statement.kind ∧
      s.tokens = p.statement.tokens) parts ss' := by
    clear hlines hmap hgroup h
    induction hmakes generalizing ss' with
    | nil =>
      cases hss
      exact .nil
    | cons hs _ ih =>
      cases hss with
      | cons hs' hss =>
        obtain ⟨gap, rfl⟩ := hs
        refine .cons ⟨?_, ?_, hs'.kind.symm, hs'.tokens.symm⟩ (ih _ hss)
        · exact ⟨hs'.like.kind, ⟨hs'.like.first.width, hs'.like.first.head, hs'.like.first.tail⟩,
            hs'.like.more⟩
        · exact (congrArg Line.indent hs'.first).symm
  have hlike : List.Forall₂ Statement.Like (parts.map (Part.indented unit [])) ss' :=
    List.forall₂_map_left_iff.2 (hboth.imp fun _ _ h => h.1)
  refine ⟨_, after, hlines, ?_⟩
  rw [Statement.group_eq_iff.2 ⟨rfl, hgroup.congr hlike⟩]
  exact hboth.imp fun _ _ h => h.2

end Part

/-! ### Writing is laying out -/

/-- Whether a part is what is written for a visited node of a sheet. -/
structure Sheet.Writes (s : Sheet) (spacing : Spacing) (v : Visit) (p : Part) : Prop where
  depth : p.depth = v.depth
  own : p.own = v.node.item.write spacing (spacing.indent s) v.depth

namespace Sheet

variable {s : Sheet} {spacing : Spacing} {v : Visit} {vs : List Visit} {parts : List Part}

theorem layOut_eq_flatMap (ending : Text) (hlead : ∀ w ∈ vs, ∀ t, spacing.part w.node.before t = t)
    (h : List.Forall₂ (s.Writes spacing) (v :: vs) parts) :
    Part.layOut (spacing.indent s) ending parts = (spacing.indent s).times v.depth ++
      v.node.item.write spacing (spacing.indent s) v.depth ++
      ((vs.map (s.passage spacing false)).flatMap Passage.text ++ ending) := by
  induction vs generalizing v parts with
  | nil =>
    obtain ⟨p, _, hp, ⟨⟩, rfl⟩ := List.forall₂_cons_left_iff.1 h
    simp [Part.layOut, hp.depth, hp.own]
  | cons w vs ih =>
    obtain ⟨p, rest, hp, hrest, rfl⟩ := List.forall₂_cons_left_iff.1 h
    have ih' := ih (fun u hu => hlead u (List.mem_cons_of_mem _ hu)) hrest
    obtain ⟨q, rest, hq, -, rfl⟩ := List.forall₂_cons_left_iff.1 hrest
    rw [Part.layOut, ih', hp.depth, hp.own]
    simp [passage, Passage.text, lead, hlead w List.mem_cons_self]

/-- A sheet whose nodes have no lead of their own is laid out by depth. -/
theorem write_eq_layOut (hlead : ∀ w ∈ s.outline, ∀ t, spacing.part w.node.before t = t)
    (hfirst : ∀ w ∈ s.outline.head?, w.depth = 0)
    (h : List.Forall₂ (s.Writes spacing) s.outline parts) :
    s.write spacing = Part.layOut (spacing.indent s) (s.ending spacing) parts := by
  rw [write, passages]
  cases ho : s.outline with
  | nil =>
    rw [ho] at h
    cases h
    rfl
  | cons v vs =>
    rw [ho] at h hlead hfirst
    rw [layOut_eq_flatMap (s.ending spacing) (fun w hw => hlead w (List.mem_cons_of_mem _ hw)) h]
    simp [passage, Passage.text, lead, hlead v List.mem_cons_self, hfirst v rfl, Text.times]

end Sheet

/-! ### Reading what was laid out -/

theorem Token.scan_lineFeed : scan ['\n'] = [⟨.lineBreak, ['\n']⟩] := by
  rw [scan, Token.scanFrom_cons, Token.next_lineFeed, Token.scanFrom_nil]

theorem Sheet.exists_parse_blank (name : String) {t : Text} (h : t = [] ∨ t = ['\n']) :
    ∃ s, parse name t = .ok s ∧ s.outline = [] := by
  have hlines : Line.ofTokens (scan t) = .ok ([], t) := by
    rw [Line.ofTokens_eq_ok]
    rcases h with rfl | rfl
    · rw [show scan [] = [] from Token.scanFrom_nil 0]
      exact ⟨by simp, rfl, rfl⟩
    · rw [Token.scan_lineFeed]
      exact ⟨by simp, rfl, rfl⟩
  obtain ⟨s, hs, hlists⟩ := exists_parse name hlines rfl Lists.empty
  exact ⟨s, hs, hlists.outline_eq⟩

theorem times_replicate (c : Char) (width n : Nat) :
    Text.times (List.replicate width c) n = List.replicate (width * n) c := by
  rw [Text.times, List.flatten_replicate_replicate, Nat.mul_comm]

theorem Draft.Target.isChain_follows_of_map {ts : List Draft.Target} {vs : List Sheet.Visit}
    (h : ts.map (fun t => (t.depth, t.item.kind)) = vs.map fun v => (v.depth, v.node.item.kind))
    (hvs : vs.IsChain fun v w => Follows ⟨v.depth, v.node.item⟩ ⟨w.depth, w.node.item⟩) :
    ts.IsChain Follows := by
  let Follows' : Nat × NodeKind → Nat × NodeKind → Prop :=
    fun a b => b.1 ≤ a.1 + 1 ∧ (b.1 = a.1 + 1 → a.2.isContainer = true)
  have hmap : (vs.map fun v => (v.depth, v.node.item.kind)).IsChain Follows' :=
    (List.isChain_map _).2 hvs
  rw [← h] at hmap
  exact (List.isChain_map (fun t : Draft.Target => (t.depth, t.item.kind))).1 hmap

/-- Texts that are laid out by depth are read as the nodes that they make one by one. -/
theorem Sheet.exists_parse_layOut (name : String) {c : Char} {width : Nat} {ending : Text}
    {parts : List Part} {t : Draft.Target} {ts : List Draft.Target} (hwidth : 0 < width)
    (hc : c = ' ' ∨ c = '\t') (hstand : Part.Stand ending parts)
    (hgroup : Statement.Grouped (parts.map (Part.indented (List.replicate width c) [])))
    (hitems : List.Forall₂ (fun p t => p.depth = t.depth ∧ p.statement.item = .ok t.item) parts
      (t :: ts))
    (hfirst : t.depth = 0) (hchain : (t :: ts).IsChain Draft.Target.Follows) :
    ∃ s, parse name (Part.layOut (List.replicate width c) ending parts) = .ok s ∧
      s.outline.map (fun v => ⟨v.depth, v.node.item⟩) = t :: ts := by
  obtain ⟨lines, after, hlines, hss⟩ :=
    hstand.exists_group (fun d hd => (List.eq_of_mem_replicate hd).symm ▸ hc) hgroup
  have hhits : List.Forall₂ (Draft.Hits c width) (Statement.group lines) (t :: ts) := by
    generalize Statement.group lines = ss at hss
    generalize t :: ts = targets at hitems
    clear hlines hgroup hstand hchain
    induction hss generalizing targets with
    | nil =>
      cases hitems
      exact .nil
    | cons hs _ ih =>
      cases hitems with
      | cons ht hitems =>
        refine .cons ⟨?_, Statement.item_congr hs.2.1.symm hs.2.2.symm ht.2⟩ (ih _ hitems)
        rw [hs.1, ht.1, times_replicate]
  obtain ⟨d, ws, hfold, hlists, hws⟩ := Draft.exists_foldlM hwidth hfirst hhits hchain
  obtain ⟨s, hparse, hlists'⟩ := exists_parse name hlines hfold hlists
  exact ⟨s, hparse, by rw [hlists'.outline_eq, hws]⟩

end OffsideCss
