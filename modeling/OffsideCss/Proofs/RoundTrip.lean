import OffsideCss.Layout.PositionMap
import OffsideCss.Proofs.DraftRun
import OffsideCss.Proofs.StatementText

/-! The exact round trip.  Every character of a text that is read as a sheet goes to the lead of a node,
to a part of its item, or to the text behind the last node, so writing the sheet with kept spacing
gives the text back. -/

namespace OffsideCss

open Token (join scan)

namespace Statement

/-- Whether a passage is what is written for a statement with kept spacing. -/
structure Passes (t : Statement) (p : Passage) : Prop where
  lead : p.lead = t.first.lead
  own : p.own = join t.tokens
  kind : p.kind = t.kind
  source : p.source = some ⟨t.place.toPosition, Token.contentEnd t.place t.tokens⟩

theorem passes_of_node {t : Statement} {v : Sheet.Visit} (ht : t.Formed) (h : t.node = .ok v.node)
    (s : Sheet) (isFirst : Bool) : t.Passes (s.passage .kept isFirst v) := by
  obtain ⟨i, hi, hn⟩ := node_eq_ok.1 h
  rw [Sheet.passage, Sheet.lead, hn]
  exact ⟨rfl, item_write_kept hi ht _ _, kind_of_item hi, rfl⟩

theorem passes_of_nodes {ts : List Statement} {vs : List Sheet.Visit}
    (h : List.Forall₂ (fun t v => t.node = .ok v.node) ts vs) (hs : ∀ t ∈ ts, t.Formed) (s : Sheet) :
    List.Forall₂ Passes ts (vs.map (s.passage .kept false)) := by
  induction h with
  | nil => exact .nil
  | cons hn _ ih =>
    exact .cons (passes_of_node (hs _ List.mem_cons_self) hn s false)
      (ih fun t ht => hs t (List.mem_cons_of_mem _ ht))

theorem Passes.text_eq {t : Statement} {p : Passage} (h : t.Passes p) :
    p.text = t.lines.flatMap Line.text := by
  rw [Passage.text, h.lead, h.own, lead_append_join]

theorem flatMap_text_of_passes {ts : List Statement} {ps : List Passage}
    (h : List.Forall₂ Passes ts ps) :
    ps.flatMap Passage.text = (ts.flatMap lines).flatMap Line.text := by
  induction h with
  | nil => rfl
  | cons hp _ ih => rw [List.flatMap_cons, List.flatMap_cons, List.flatMap_append, hp.text_eq, ih]

end Statement

namespace Sheet

/-- A text that is read is cut into lines, whose statements make the draft of the sheet. -/
theorem draft_of_parse {name : String} {source : Text} {s : Sheet}
    (h : parse name source = .ok s) : ∃ lines draft,
      Line.ofTokens (scan source) = .ok (lines, s.after) ∧
      (Statement.group lines).foldlM Draft.add {} = .ok draft ∧
      s = { draft.sheet with after := s.after, origin := s.origin } := by
  unfold parse at h
  cases hr : read name source with
  | error fault => simp [hr] at h
  | ok s' =>
    obtain rfl : s' = s := by simpa [hr] using h
    unfold read at hr
    cases hl : Line.ofTokens (scan source) with
    | error fault => simp [hl, bind, Except.bind] at hr
    | ok layout =>
      obtain ⟨lines, after⟩ := layout
      simp only [hl, bind, Except.bind] at hr
      cases hd : (Statement.group lines).foldlM Draft.add {} with
      | error fault => simp [hd] at hr
      | ok draft =>
        simp only [hd, pure, Except.pure, Except.ok.injEq] at hr
        subst hr
        exact ⟨lines, draft, rfl, hd, rfl⟩

/-- A text that is read as a sheet which is known by what is computed from it. -/
theorem exists_of_map_parse {name : String} {source : Text} {α : Type} {f : Sheet → α} {x : α}
    (h : (parse name source).toOption.map f = some x) : ∃ s, parse name source = .ok s ∧ f s = x := by
  obtain ⟨s, hs, hf⟩ := Option.map_eq_some_iff.1 h
  cases hp : parse name source with
  | error error => simp [hp, Except.toOption] at hs
  | ok s' =>
    obtain rfl : s' = s := by simpa [hp, Except.toOption] using hs
    exact ⟨s', rfl, hf⟩

/-- What reading a text makes of it: its lines, and one node for each of its statements. -/
theorem exists_of_parse {name : String} {source : Text} {s : Sheet}
    (h : parse name source = .ok s) :
    ∃ lines vs, Line.ofTokens (scan source) = .ok (lines, s.after) ∧ s.Lists vs ∧
      List.Forall₂ (fun t v => t.node = .ok v.node) (Statement.group lines) vs := by
  obtain ⟨lines, draft, hlines, hdraft, hs⟩ := draft_of_parse h
  obtain ⟨vs, hreads, hnodes, -⟩ := Draft.Reads.empty.foldlM hdraft
  refine ⟨lines, vs, hlines, ?_, hnodes⟩
  rw [hs]
  exact ⟨hreads.lists.outlined.ids_eq fun _ _ => rfl, hreads.lists.ids⟩

theorem Lists.passes {s : Sheet} {vs : List Visit} (hlists : s.Lists vs) {ts : List Statement}
    (hnodes : List.Forall₂ (fun t v => t.node = .ok v.node) ts vs) (hformed : ∀ t ∈ ts, t.Formed) :
    List.Forall₂ Statement.Passes ts (s.passages .kept) := by
  rw [passages, hlists.outline_eq]
  cases hnodes with
  | nil => exact .nil
  | cons hn hrest =>
    obtain ⟨hfirst, hformed⟩ := List.forall_mem_cons.1 hformed
    exact .cons (Statement.passes_of_node hfirst hn s true)
      (Statement.passes_of_nodes hrest hformed s)

/-- The passages of a sheet that was read are written for the statements of the text. -/
theorem passes_of_parse {name : String} {source : Text} {s : Sheet}
    (h : parse name source = .ok s) : ∃ lines, Line.ofTokens (scan source) = .ok (lines, s.after) ∧
      List.Forall₂ Statement.Passes (Statement.group lines) (s.passages .kept) := by
  obtain ⟨lines, vs, hlines, hlists, hnodes⟩ := exists_of_parse h
  exact ⟨lines, hlines, hlists.passes hnodes fun t ht => Statement.formed_of_mem_group hlines ht⟩

theorem write_kept_of_parse {name : String} {source : Text} {s : Sheet}
    (h : parse name source = .ok s) : s.write .kept = source := by
  obtain ⟨lines, hlines, hpasses⟩ := passes_of_parse h
  have htext := Line.Lays.text_eq ⟨lines, hlines, rfl⟩
  rw [Line.text_unplaced] at htext
  rw [write, Statement.flatMap_text_of_passes hpasses, Statement.flatMap_lines_group]
  exact htext.symm

/-- A sheet that was read from a text is written with kept spacing as this text, with a map or
without one. -/
theorem text_stringify_kept {name : String} {source : Text} {s : Sheet}
    (h : parse name source = .ok s) (attachment : Option Attachment) :
    (s.stringify .kept attachment).text = source :=
  write_kept_of_parse h

/-- A rule with a comment in its selector, a blank line, and a declaration with a blank before the
colon come back as they were spelled. -/
theorem text_stringify_kept_nested :
    let source := Text.ofString "a /*x*/\r\n\n  b : c \n"
    ∃ s, parse "in" source = .ok s ∧ (s.stringify .kept (some ⟨true, false⟩)).text = source := by
  intro source
  have hok : (parse "in" source).toOption.isSome = true := by decide +kernel
  cases h : parse "in" source with
  | error e => simp [h, Except.toOption] at hok
  | ok s => exact ⟨s, rfl, text_stringify_kept h _⟩

end Sheet

end OffsideCss
