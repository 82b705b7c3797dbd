import OffsideCss.Layout.PositionMap
import OffsideCss.Proofs.Arena
import OffsideCss.Proofs.LineIndex
import OffsideCss.Proofs.SourceRange

/-! Places of mappings.  The positions in a map are counted while the text is written, piece by
piece, and are those that an index of the whole text finds, whatever was done to the sheet. -/

namespace OffsideCss

namespace Text

/-- Whether the character at an offset of a text stands at `p`: the position is counted from the
beginning of the text on, in counters, and is what the index of the text finds if the size of the text is
a counter. -/
structure Stands (t : Text) (offset : Nat) (p : Position) : Prop where
  counted : (t.position? offset).map Position.wrap = some p
  found : t.bytes < Counter.limit → (LineIndex.ofText t).position? offset = some p

theorem stands_append (u v : Text) : (u ++ v).Stands u.bytes (Position.first.after u).wrap where
  counted := congrArg (Option.map Position.wrap) (positionFrom?_append .first u v)
  found h := LineIndex.position?_ofText_append h rfl

theorem slice?_front (t u : Text) : (t ++ u).slice? ⟨0, t.bytes⟩ = some t := by
  simpa using slice?_append [] t u

end Text

namespace Passage

/-- Where the own texts of passages stand that are written from `offset` bytes on. -/
def ownSpans (offset : Nat) : List Passage → List Span
  | [] => []
  | p :: rest =>
    ⟨offset + p.lead.bytes, offset + p.text.bytes⟩ :: ownSpans (offset + p.text.bytes) rest

/-- Whether `ms` is what a node of that kind and source, whose own text stands at `own` in `css`,
has in a map: the position at which the own text begins and, for a leaf, that of the last character
before its end, if there is one. -/
inductive Marks (css : Text) (own : Span) : NodeKind → Option Source → List Mapping → Prop
  | sourceless {kind : NodeKind} : Marks css own kind none []
  | container {kind : NodeKind} {range : Source} {start : Position} : kind.isContainer = true →
      css.Stands own.start start → Marks css own kind (some range) [⟨start, range.start⟩]
  | unwritten {kind : NodeKind} {range : Source} {start : Position} : kind.isContainer = false →
      css.Stands own.start start → css.slice? ⟨0, own.stop⟩ = some [] →
      Marks css own kind (some range) [⟨start, range.start⟩]
  | leaf {kind : NodeKind} {range : Source} {start stop : Position} {written : Text} {last : Char} :
      kind.isContainer = false → css.Stands own.start start →
      css.slice? ⟨0, own.stop⟩ = some (written ++ [last]) → css.Stands written.bytes stop →
      Marks css own kind (some range) [⟨start, range.start⟩, ⟨stop, range.stop⟩]

/-- What a passage adds to a map is told by the whole text. -/
theorem marks_append (p : Passage) (before after : Text) :
    Marks (before ++ p.text ++ after) ⟨before.bytes + p.lead.bytes, before.bytes + p.text.bytes⟩
      p.kind p.source (p.startMapping (({} : Cursor).write before) ++
        p.stopMapping (({} : Cursor).write before)) := by
  have hcursor : ({} : Cursor).next = Position.first.wrap := Position.wrap_first.symm
  have hstart : (before ++ p.text ++ after).Stands (before.bytes + p.lead.bytes)
      ((({} : Cursor).write before).write p.lead).next := by
    rw [← Cursor.write_append, Cursor.next_write hcursor, ← Text.bytes_append, text,
      ← List.append_assoc, List.append_assoc _ p.own]
    exact Text.stands_append _ _
  have hslice : (before ++ p.text ++ after).slice? ⟨0, before.bytes + p.text.bytes⟩ =
      some (before ++ p.text) := by
    rw [← Text.bytes_append]
    exact Text.slice?_front _ _
  have hlast : (({} : Cursor).write before).write p.text = ({} : Cursor).write (before ++ p.text) :=
    (Cursor.write_append _ _ _).symm
  rw [startMapping, stopMapping, hlast]
  cases p.source with
  | none => exact .sourceless
  | some range =>
    cases hk : p.kind.isContainer with
    | true =>
      cases (({} : Cursor).write (before ++ p.text)).last <;> exact .container hk hstart
    | false =>
      rcases List.eq_nil_or_concat (before ++ p.text) with hnil | ⟨written, last, hconcat⟩
      · have hnone : (({} : Cursor).write (before ++ p.text)).last = none := by
          rw [hnil]
          rfl
        rw [hnone]
        exact .unwritten hk hstart (hslice.trans (congrArg some hnil))
      · rw [List.concat_eq_append] at hconcat
        have hstop : (before ++ p.text ++ after).Stands (Text.bytes written)
            (Position.first.after written).wrap := by
          rw [hconcat, List.append_assoc]
          exact Text.stands_append _ _
        rw [hconcat, Cursor.last_write_concat hcursor, ← hconcat]
        exact .leaf hk hstart (hslice.trans (congrArg some hconcat)) hstop

theorem slice?_own (p : Passage) (before after : Text) : (before ++ p.text ++ after).slice?
    ⟨before.bytes + p.lead.bytes, before.bytes + p.text.bytes⟩ = some p.own := by
  have hslice := Text.slice?_append (before ++ p.lead) p.own after
  rwa [List.append_assoc before, Text.bytes_append, Nat.add_assoc,
    ← Text.bytes_append p.lead] at hslice

theorem length_ownSpans (offset : Nat) (ps : List Passage) :
    (ownSpans offset ps).length = ps.length := by
  induction ps generalizing offset with
  | nil => rfl
  | cons p ps ih => exact congrArg (· + 1) (ih _)

/-- The map of some passages has for each of them what the whole text tells. -/
theorem exists_marks (ps : List Passage) (before after : Text) : ∃ groups : List (List Mapping),
    mappingsFrom (({} : Cursor).write before) ps = groups.flatten ∧
      List.Forall₂ (fun (x : Passage × Span) ms =>
        (before ++ ps.flatMap text ++ after).slice? x.2 = some x.1.own ∧
          Marks (before ++ ps.flatMap text ++ after) x.2 x.1.kind x.1.source ms)
        (ps.zip (ownSpans before.bytes ps)) groups := by
  induction ps generalizing before with
  | nil => exact ⟨[], rfl, .nil⟩
  | cons p ps ih =>
    obtain ⟨groups, hmappings, hgroups⟩ := ih (before ++ p.text)
    have hcss : before ++ (p :: ps).flatMap text ++ after =
        before ++ p.text ++ (ps.flatMap text ++ after) := by simp
    have hrest : before ++ p.text ++ ps.flatMap text ++ after =
        before ++ p.text ++ (ps.flatMap text ++ after) := by simp
    rw [hrest, Text.bytes_append] at hgroups
    rw [hcss]
    refine ⟨_ :: groups, ?_, .cons ⟨slice?_own p before _, marks_append p before _⟩ hgroups⟩
    rw [mappingsFrom, List.flatten_cons, ← hmappings, Cursor.write_append]

end Passage

namespace Sheet

/-- Whether a map has, for each node of a sheet in document order and for nothing else, what the
text `css` that was written tells of where the own text of the node stands. -/
structure Marked (s : Sheet) (spacing : Spacing) (css : Text) (m : PositionMap) : Prop where
  nodes : (s.outline.map (·.id)).Perm (List.range s.size)
  spans : (Passage.ownSpans 0 (s.passages spacing)).length = s.outline.length
  groups : ∃ groups : List (List Mapping), m.mappings = groups.flatten ∧
    List.Forall₂ (fun (x : Visit × Span) ms =>
      css.slice? x.2 = some (x.1.node.item.write spacing (spacing.indent s) x.1.depth) ∧
        Passage.Marks css x.2 x.1.node.item.kind x.1.node.source ms)
      (s.outline.zip (Passage.ownSpans 0 (s.passages spacing))) groups

variable {s : Sheet}

/-- Each position in the map of a sheet, whatever was done to it, is one in the text that is
written. -/
theorem marked_of_reached (h : s.Reached) (spacing : Spacing) (attachment : Attachment) :
    ∃ m, (s.stringify spacing (some attachment)).map = some m ∧
      s.Marked spacing (s.stringify spacing (some attachment)).text m := by
  have hmap := s.map_passages spacing
  have hlength : (s.passages spacing).length = s.outline.length := by
    simpa using congrArg List.length hmap
  refine ⟨s.positionMap spacing attachment, rfl, h.linked.outline_perm,
    (Passage.length_ownSpans _ _).trans hlength, ?_⟩
  obtain ⟨groups, hmappings, hgroups⟩ :=
    Passage.exists_marks (s.passages spacing) [] (s.ending spacing)
  refine ⟨groups, hmappings, ?_⟩
  -- A passage has of its node all that its entries depend on.
  have htriples : List.Forall₂ (fun (x : (NodeKind × Text × Option Source) × Span) ms =>
      (s.write spacing).slice? x.2 = some x.1.2.1 ∧
        Passage.Marks (s.write spacing) x.2 x.1.1 x.1.2.2 ms)
      (((s.passages spacing).map fun p => (p.kind, p.own, p.source)).zip
        (Passage.ownSpans 0 (s.passages spacing))) groups := by
    rw [List.zip_map_left]
    exact List.forall₂_map_left_iff.2 hgroups
  rw [hmap, List.zip_map_left] at htriples
  exact List.forall₂_map_left_iff.1 htriples

/-- A declaration of which nothing is written, and which has a child, has no last character. -/
theorem marked_of_reached_empty_declaration :
    let source := Text.ofString "a\n  \u00e9: b\n"
    let node : Node :=
      { item := .declaration { property := [], value := [], between := some [] },
        source := some ⟨⟨1, 1⟩, ⟨1, 1⟩⟩ }
    ∃ s, parse "in" source = .ok s ∧
      (∃ m, ((s.setNode 0 node).stringify .kept (some ⟨true, false⟩)).map = some m ∧
        (s.setNode 0 node).Marked .kept
          ((s.setNode 0 node).stringify .kept (some ⟨true, false⟩)).text m) ∧
      (s.setNode 0 node).mappings .kept =
        [⟨⟨1, 1⟩, ⟨1, 1⟩⟩, ⟨⟨2, 3⟩, ⟨2, 3⟩⟩, ⟨⟨2, 6⟩, ⟨2, 6⟩⟩] := by
  intro source node
  have hmappings : (parse "in" source).toOption.map (fun s => (s.setNode 0 node).mappings .kept) =
      some [⟨⟨1, 1⟩, ⟨1, 1⟩⟩, ⟨⟨2, 3⟩, ⟨2, 3⟩⟩, ⟨⟨2, 6⟩, ⟨2, 6⟩⟩] := by
    decide +kernel
  obtain ⟨s, h, hs⟩ := exists_of_map_parse hmappings
  exact ⟨s, h, marked_of_reached ((Reached.parse h).setNode 0 node) .kept _, hs⟩

end Sheet

end OffsideCss
