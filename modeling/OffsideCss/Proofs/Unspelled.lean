import OffsideCss.Layout.PositionMap
import OffsideCss.Proofs.NodeMaps
import OffsideCss.Proofs.OwnText

/-! Sheets without their spelling.  Canonical spacing is kept spacing of the sheet that has nothing
of its spelling left and whose fields are indented as deep as their nodes stand, so it tells nothing
of how the sheet was spelled. -/

namespace OffsideCss

open Token (join scan)

/-- An item without its spelling.  The form of a comment is no part of it. -/
def Item.unspelled : Item → Item
  | .atRule a => .atRule { name := a.name, params := a.params }
  | .rule r => .rule { selector := r.selector }
  | .declaration d => .declaration { property := d.property, value := d.value }
  | .comment c => .comment { text := c.text, form := c.form }

/-- An item that stands `depth` levels of `unit` deep, with its fields indented anew. -/
def Item.reindent (unit : Text) (depth : Nat) : Item → Item
  | .atRule a => .atRule { a with params := a.params.reindent (unit.times (depth + 1)) }
  | .rule r => .rule { r with selector := r.selector.reindent (unit.times depth) }
  | .declaration d => .declaration { d with value := d.value.reindent (unit.times (depth + 1)) }
  | .comment c => .comment c

/-- A node without the text before it and its spelling. -/
def Node.unspelled (n : Node) : Node := { item := n.item.unspelled, source := n.source }

/-- A node that stands `depth` levels of `unit` deep, with its fields indented anew. -/
def Node.reindent (unit : Text) (depth : Nat) (n : Node) : Node :=
  { n with item := n.item.reindent unit depth }

/-! ### Items -/

/-- Nothing is left of a text that is indented anew only if nothing was there. -/
theorem Text.reindent_eq_nil_iff {t : Text} (indent : Text) : t.reindent indent = [] ↔ t = [] := by
  refine ⟨fun h => ?_, ?_⟩
  · rw [Text.reindent] at h
    split at h
    · obtain ⟨runs, hflatten, heq, hruns⟩ := Token.exists_runs indent (scan t)
      rw [heq] at h
      cases runs with
      | nil => rw [← Token.join_scan t, ← hflatten, List.flatten_nil, Token.join_nil]
      | cons run runs =>
        obtain ⟨tok, run, rfl⟩ := List.exists_cons_of_ne_nil (hruns run List.mem_cons_self).1
        have htok : tok ∈ scan t := by simp [← hflatten]
        have hne := Token.text_ne_nil_of_mem_scan htok
        rw [List.flatMap_cons, List.append_eq_nil_iff, Token.reindentRun] at h
        split at h
        · exact absurd h.1 (List.cons_ne_nil _ _)
        · rw [Token.join_cons, List.append_eq_nil_iff] at h
          exact absurd h.1.1 hne
    · exact h
  · rintro rfl
    exact Text.reindent_nil indent

theorem padding_reindent (t indent : Text) : padding (t.reindent indent) = padding t := by
  simp only [padding, Text.reindent_eq_nil_iff]

theorem Item.kind_unspelled (i : Item) : i.unspelled.kind = i.kind := by cases i <;> rfl

theorem Item.kind_reindent (i : Item) (unit : Text) (depth : Nat) :
    (i.reindent unit depth).kind = i.kind := by
  cases i <;> rfl

/-- What is written for an item in canonical spacing does not depend on its spelling. -/
theorem Item.write_canonical_unspelled (i : Item) (unit : Text) (depth : Nat) :
    i.unspelled.write .canonical unit depth = i.write .canonical unit depth := by
  cases i <;> rfl

/-- Without its spelling, an item is written with kept spacing as in canonical spacing once its
fields are indented anew. -/
theorem Item.write_kept_reindent (i : Item) (unit : Text) (depth : Nat) :
    (i.unspelled.reindent unit depth).write .kept unit depth = i.write .canonical unit depth := by
  cases i with
  | atRule a =>
    simp only [unspelled, reindent, write, AtRule.write, Spacing.part, Spacing.field,
      Literal.resolve, Option.getD_none, padding_reindent]
  | rule r => rfl
  | declaration d =>
    simp only [unspelled, reindent, write, Declaration.write, Spacing.part, Spacing.field,
      Literal.resolve, Option.getD_none, padding_reindent]
  | comment c => rfl

/-! ### Sheets -/

namespace Sheet

/-- A sheet without the spelling of its nodes and of the text around them. -/
def unspelled (s : Sheet) : Sheet :=
  { s.mapNodes fun _ n => n.unspelled with after := [], indent := none }

/-- A sheet without its spelling in which the lines of each field stand as deep as its node. -/
def indented (s : Sheet) : Sheet :=
  s.unspelled.mapNodes fun id n => n.reindent defaultIndent (s.depth id)

/-- Whether the sheet that is left without the spelling is written with kept spacing as this one in
canonical spacing, so that sheets of which the same is left are written alike. -/
structure Settles (s : Sheet) : Prop where
  nodes : s.indented.outline = s.outline.map fun v =>
    { v with node := v.node.unspelled.reindent defaultIndent v.depth }
  links : ∀ id, s.indented.parent? id = s.parent? id ∧
    s.indented.children? (some id) = s.children? (some id)
  around : s.indented.top = s.top ∧ s.indented.after = [] ∧ s.indented.indent = none ∧
    s.indented.origin = s.origin
  written : ∀ attachment, (s.stringify .canonical attachment).text =
    (s.indented.stringify .kept attachment).text ++ (if s.top = [] then [] else ['\n'])
  map : ∀ attachment, (s.stringify .canonical attachment).map =
    (s.indented.stringify .kept attachment).map
  blind : ∀ s' : Sheet, s'.unspelled = s.unspelled → ∀ attachment,
    s'.stringify .canonical attachment = s.stringify .canonical attachment

variable {s : Sheet}

theorem revises_unspelled (s : Sheet) : Revises (fun _ n => n.unspelled) s s.unspelled :=
  (revises_mapNodes s _).surround [] none s.origin

theorem revises_indented (s : Sheet) :
    Revises (fun id n => n.unspelled.reindent defaultIndent (s.depth id)) s s.indented :=
  (revises_unspelled s).trans (revises_mapNodes s.unspelled _)

theorem outline_indented (h : s.Linked) : s.indented.outline = s.outline.map fun v =>
    { v with node := v.node.unspelled.reindent defaultIndent v.depth } := by
  rw [(revises_indented s).outline_eq]
  refine List.map_congr_left fun v hv => ?_
  rw [Visit.map, h.level v hv]

/-- The map of a sheet tells what is written for its nodes and where the sheet was read. -/
theorem map_stringify_congr {s' : Sheet} {spacing spacing' : Spacing}
    (hpassages : s'.passages spacing' = s.passages spacing) (horigin : s'.origin = s.origin)
    (attachment : Option Attachment) :
    (s'.stringify spacing' attachment).map = (s.stringify spacing attachment).map := by
  have hmap : s'.positionMap spacing' = s.positionMap spacing := by
    funext a
    rw [positionMap, positionMap, mappings, mappings, hpassages, horigin]
  rw [stringify, stringify, hmap]

theorem passages_canonical_unspelled (s : Sheet) :
    s.unspelled.passages .canonical = s.passages .canonical := by
  refine passages_congr (revises_unspelled s).outline_eq fun isFirst v _ => ?_
  simp only [passage, lead, Visit.map, Node.unspelled, Item.kind_unspelled,
    Item.write_canonical_unspelled, Spacing.part, Spacing.indent]

/-- Writing a sheet in canonical spacing does not look at its spelling. -/
theorem stringify_canonical_unspelled (s : Sheet) (attachment : Option Attachment) :
    s.unspelled.stringify .canonical attachment = s.stringify .canonical attachment := by
  have hwrite : s.unspelled.write .canonical = s.write .canonical := by
    rw [write, passages_canonical_unspelled]
    rfl
  exact congrArg₂ Written.mk hwrite
    (map_stringify_congr (passages_canonical_unspelled s) rfl attachment)

theorem passages_indented (h : s.Linked) : s.indented.passages .kept = s.passages .canonical := by
  refine passages_congr (outline_indented h) fun isFirst v _ => ?_
  simp only [passage, lead, Node.unspelled, Node.reindent, Item.kind_reindent, Item.kind_unspelled,
    Spacing.part, Spacing.indent, Option.getD_none]
  rw [show s.indented.indent = none from rfl, Option.getD_none, Item.write_kept_reindent]

/-- Canonical spacing of a sheet is kept spacing of what is left of it without its spelling. -/
theorem settles_of_reached (h : s.Reached) : s.Settles where
  nodes := outline_indented h.linked
  links id := ⟨(revises_indented s).parent?_eq id, (revises_indented s).children?_eq (some id)⟩
  around := ⟨rfl, rfl, rfl, rfl⟩
  written attachment := by
    rw [stringify, stringify, write, write, passages_indented h.linked]
    simp [ending, indented, unspelled, mapNodes]
  map attachment := (map_stringify_congr (passages_indented h.linked) rfl attachment).symm
  blind s' hs attachment := by
    rw [← stringify_canonical_unspelled s', hs, stringify_canonical_unspelled]

/-- A declaration that took the place of a rule keeps the child of the rule, and the second lines of
both values stand one level deeper than their nodes. -/
theorem settles_of_reached_declaration_with_child :
    let source := Text.ofString "a,\nb  \n\tc : d\n\t\te //x\n"
    let value := Text.ofString "q,\nr"
    let node : Node :=
      { item := .declaration { property := ['p'], value, between := some ['='],
                               valueLiteral := some ⟨value, ['z']⟩ }, before := some ['\t'] }
    ∃ s, parse "in" source = .ok s ∧ (s.setNode 0 node).Settles ∧
      (s.setNode 0 node).write .kept = Text.ofString "\tp=z\n\tc : d\n\t\te //x\n" ∧
      (s.setNode 0 node).indented.write .kept = Text.ofString "p: q,\n  r\n  c: d\n    e" := by
  intro source value node
  have htexts : (parse "in" source).toOption.map (fun s =>
      ((s.setNode 0 node).write .kept, (s.setNode 0 node).indented.write .kept)) =
      some (Text.ofString "\tp=z\n\tc : d\n\t\te //x\n",
        Text.ofString "p: q,\n  r\n  c: d\n    e") := by
    decide +kernel
  obtain ⟨s, h, hs⟩ := exists_of_map_parse htexts
  obtain ⟨hkept, hindented⟩ := Prod.mk.inj hs
  exact ⟨s, h, settles_of_reached ((Reached.parse h).setNode 0 node), hkept, hindented⟩

end Sheet

end OffsideCss
