import OffsideCss.Proofs.LineIndex
import OffsideCss.Proofs.Outline

/-! Pieces.  What is written with kept spacing is cut into the texts of the fields and what stands
between them, so each field of a node has a range of its own, and texts can be put into several of
these ranges at once. -/

namespace OffsideCss

/-- The fields that make up the meaning of a node. -/
inductive Field where
  | name
  | params
  | selector
  | property
  | value
  | text
deriving DecidableEq, Repr

namespace Item

/-- The content of a field, if the item has it. -/
def field? : Item → Field → Option Text
  | .atRule a, .name => some a.name
  | .atRule a, .params => some a.params
  | .rule r, .selector => some r.selector
  | .declaration d, .property => some d.property
  | .declaration d, .value => some d.value
  | .comment c, .text => some c.text
  | _, _ => none

/-- The literal text that is kept for a field. -/
def literal? : Item → Field → Option Literal
  | .atRule a, .params => a.paramsLiteral
  | .rule r, .selector => r.selectorLiteral
  | .declaration d, .value => d.valueLiteral
  | _, _ => none

end Item

/-- A field of the node of that number. -/
structure Slot where
  id : NodeId
  field : Field
deriving DecidableEq, Repr

/-- The fields of an item, in the order in which they are written. -/
def Item.slots (id : NodeId) : Item → List Slot
  | .atRule _ => [⟨id, .name⟩, ⟨id, .params⟩]
  | .rule _ => [⟨id, .selector⟩]
  | .declaration _ => [⟨id, .property⟩, ⟨id, .value⟩]
  | .comment _ => [⟨id, .text⟩]

/-- A part of what is written. -/
structure Piece where
  text : Text
  /-- The field that it is written for, if it is none of the spelling between fields. -/
  slot : Option Slot := none
deriving DecidableEq, Repr

/-- The pieces of an item that is written with kept spacing. -/
def Item.pieces (id : NodeId) : Item → List Piece
  | .atRule a => [⟨['@'], none⟩, ⟨a.name, some ⟨id, .name⟩⟩,
      ⟨a.afterName.getD (padding a.params), none⟩,
      ⟨Literal.resolve a.paramsLiteral a.params, some ⟨id, .params⟩⟩, ⟨a.trailing.getD [], none⟩]
  | .rule r => [⟨Literal.resolve r.selectorLiteral r.selector, some ⟨id, .selector⟩⟩,
      ⟨r.trailing.getD [], none⟩]
  | .declaration d => [⟨d.property, some ⟨id, .property⟩⟩,
      ⟨d.between.getD (':' :: padding d.value), none⟩,
      ⟨Literal.resolve d.valueLiteral d.value, some ⟨id, .value⟩⟩]
  | .comment c =>
    match c.form with
    | .line => [⟨['/', '/'], none⟩, ⟨c.left.getD (padding c.text), none⟩,
        ⟨c.text, some ⟨id, .text⟩⟩, ⟨c.right.getD [], none⟩]
    | .block => [⟨['/', '*'], none⟩, ⟨c.left.getD (padding c.text), none⟩,
        ⟨c.text, some ⟨id, .text⟩⟩, ⟨c.right.getD (padding c.text), none⟩, ⟨['*', '/'], none⟩,
        ⟨c.trailing.getD [], none⟩]

namespace Piece

/-- The pieces that are written from `offset` bytes on, with the ranges that they take. -/
def placed (offset : Nat) : List Piece → List (Piece × Span)
  | [] => []
  | p :: rest => (p, ⟨offset, offset + p.text.bytes⟩) :: placed (offset + p.text.bytes) rest

/-- A piece with the text that is put into its field, if there is one. -/
def revise (f : Slot → Option Text) (p : Piece) : Piece :=
  { p with text := (p.slot.bind f).getD p.text }

/-- The range of a piece and the text that is put into its field. -/
def revision? (f : Slot → Option Text) (x : Piece × Span) : Option (Span × Text) :=
  (x.1.slot.bind f).map (x.2, ·)

end Piece

namespace Text

/-- A text with ranges of it replaced, where the text is what is left of another one behind `offset`
bytes: `none` when the ranges do not follow one another, leave the text, or have an end inside a
character. -/
def replaceFrom? (offset : Nat) (t : Text) : List (Span × Text) → Option Text
  | [] => some t
  | (range, new) :: rest =>
    if offset ≤ range.start ∧ range.start ≤ range.stop then do
      let (before, t) ← t.cut? (range.start - offset)
      let (_, t) ← t.cut? (range.stop - range.start)
      let after ← t.replaceFrom? range.stop rest
      return before ++ new ++ after
    else none

/-- A text with ranges of it replaced and every other byte of it unchanged. -/
def replace? (t : Text) (ranges : List (Span × Text)) : Option Text := t.replaceFrom? 0 ranges

end Text

namespace Sheet

/-- The content of a field of a sheet, if the sheet has it. -/
def field? (s : Sheet) (slot : Slot) : Option Text :=
  (s.entry? slot.id).bind (·.node.item.field? slot.field)

/-- The literal text that is kept for a field of a sheet. -/
def literal? (s : Sheet) (slot : Slot) : Option Literal :=
  (s.entry? slot.id).bind (·.node.item.literal? slot.field)

/-- The pieces of a visited node. -/
def visitPieces (s : Sheet) (isFirst : Bool) (v : Visit) : List Piece :=
  ⟨s.lead .kept isFirst v, none⟩ :: v.node.item.pieces v.id

/-- The pieces of the nodes of a sheet, in document order. -/
def nodePieces (s : Sheet) : List Piece :=
  match s.outline with
  | [] => []
  | v :: rest => s.visitPieces true v ++ rest.flatMap (s.visitPieces false)

/-- Where what is written with kept spacing for the fields of a sheet stands. -/
def fieldSpans (s : Sheet) : List (Slot × Span) :=
  (Piece.placed 0 s.nodePieces).filterMap fun x => x.1.slot.map (·, x.2)

end Sheet

/-! ### The pieces of a sheet -/

theorem Item.flatMap_pieces (i : Item) (id : NodeId) (unit : Text) (depth : Nat) :
    (i.pieces id).flatMap (·.text) = i.write .kept unit depth := by
  cases i with
  | atRule a => simp [pieces, write, AtRule.write, Spacing.part, Spacing.field]
  | rule r => simp [pieces, write, Rule.write, Spacing.part, Spacing.field]
  | declaration d => simp [pieces, write, Declaration.write, Spacing.part, Spacing.field]
  | comment c =>
    cases hf : c.form <;> simp [pieces, write, Comment.write, Spacing.part, hf]

theorem Item.filterMap_pieces (i : Item) (id : NodeId) :
    (i.pieces id).filterMap (·.slot) = i.slots id := by
  cases i with
  | comment c => cases hf : c.form <;> simp [pieces, slots, hf]
  | _ => rfl

/-- The piece of a field is its literal text, if that was kept. -/
theorem Item.of_mem_pieces {i : Item} {id : NodeId} {p : Piece} {slot : Slot} (hp : p ∈ i.pieces id)
    (hslot : p.slot = some slot) : slot.id = id ∧ ∃ field, i.field? slot.field = some field ∧
      p.text = Literal.resolve (i.literal? slot.field) field := by
  have hall : ∀ p ∈ i.pieces id, ∀ slot ∈ p.slot, slot.id = id ∧
      ∃ field, i.field? slot.field = some field ∧
        p.text = Literal.resolve (i.literal? slot.field) field := by
    cases i with
    | comment c => cases hf : c.form <;> simp [pieces, field?, literal?, Literal.resolve, hf]
    | _ => simp [pieces, field?, literal?, Literal.resolve]
  exact hall p hp slot hslot

namespace Sheet

theorem flatMap_visitPieces (s : Sheet) (isFirst : Bool) (v : Visit) :
    (s.visitPieces isFirst v).flatMap (·.text) = (s.passage .kept isFirst v).text := by
  rw [visitPieces, List.flatMap_cons, Item.flatMap_pieces]
  rfl

/-- The pieces make up what is written with kept spacing. -/
theorem flatMap_nodePieces (s : Sheet) :
    s.nodePieces.flatMap (·.text) ++ s.after = s.write .kept := by
  rw [nodePieces, write, passages]
  cases s.outline with
  | nil => rfl
  | cons v vs =>
    simp only [List.flatMap_append, List.flatMap_assoc, flatMap_visitPieces, List.flatMap_cons,
      List.flatMap_map]
    rfl

end Sheet

namespace Piece

variable {ps : List Piece} {f : Slot → Option Text}

theorem filterMap_placed (offset : Nat) (ps : List Piece) :
    ((placed offset ps).filterMap fun x => x.1.slot.map (·, x.2)).map (·.1) =
      ps.filterMap (·.slot) := by
  induction ps generalizing offset with
  | nil => rfl
  | cons p ps ih =>
    cases hslot : p.slot <;> simp [placed, hslot, ih]

theorem le_of_mem_placed {offset : Nat} {x : Piece × Span} (h : x ∈ placed offset ps) :
    offset ≤ x.2.start ∧ x.2.start ≤ x.2.stop := by
  induction ps generalizing offset with
  | nil => cases h
  | cons p ps ih =>
    rcases List.mem_cons.1 h with rfl | h
    · exact ⟨Nat.le_refl _, Nat.le_add_right _ _⟩
    · have := ih h
      omega

/-- No two pieces take the same bytes. -/
theorem pairwise_placed (offset : Nat) (ps : List Piece) :
    (placed offset ps).Pairwise fun x y => x.2.stop ≤ y.2.start := by
  induction ps generalizing offset with
  | nil => exact .nil
  | cons p ps ih => exact .cons (fun x hx => (le_of_mem_placed hx).1) (ih _)

theorem mem_of_mem_placed {offset : Nat} {x : Piece × Span} (h : x ∈ placed offset ps) :
    x.1 ∈ ps := by
  induction ps generalizing offset with
  | nil => cases h
  | cons p ps ih =>
    rcases List.mem_cons.1 h with rfl | h
    · exact List.mem_cons_self
    · exact List.mem_cons_of_mem p (ih h)

theorem slice?_placed (before after : Text) {x : Piece × Span} (h : x ∈ placed before.bytes ps) :
    (before ++ ps.flatMap (·.text) ++ after).slice? x.2 = some x.1.text := by
  induction ps generalizing before with
  | nil => cases h
  | cons p ps ih =>
    rw [List.flatMap_cons, ← List.append_assoc]
    rcases List.mem_cons.1 h with rfl | h
    · rw [List.append_assoc _ (ps.flatMap _)]
      exact Text.slice?_append before p.text _
    · rw [← Text.bytes_append] at h
      exact ih (before ++ p.text) h

/-! ### Replacing -/

end Piece

theorem Text.replaceFrom?_cons (offset : Nat) (before old rest new : Text)
    (ranges : List (Span × Text)) :
    (before ++ old ++ rest).replaceFrom? offset
        ((⟨offset + before.bytes, offset + before.bytes + old.bytes⟩, new) :: ranges) =
      (rest.replaceFrom? (offset + before.bytes + old.bytes) ranges).map (before ++ new ++ ·) := by
  have hbefore : (before ++ old ++ rest).cut? (offset + before.bytes - offset) =
      some (before, old ++ rest) := by
    rw [Nat.add_sub_cancel_left, List.append_assoc, cut?_append]
  have hold : (old ++ rest).cut?
      (offset + before.bytes + old.bytes - (offset + before.bytes)) = some (old, rest) := by
    rw [Nat.add_sub_cancel_left, cut?_append]
  rw [replaceFrom?, if_pos ⟨Nat.le_add_right _ _, Nat.le_add_right _ _⟩, hbefore]
  simp only [Option.bind_eq_bind, Option.bind_some, hold]
  cases rest.replaceFrom? (offset + before.bytes + old.bytes) ranges <;> rfl

/-- Putting texts into the ranges of pieces revises these pieces and leaves the others as they are.
-/
theorem Piece.replaceFrom?_placed (f : Slot → Option Text) (ps : List Piece) (offset : Nat)
    (before after : Text) :
    (before ++ ps.flatMap (·.text) ++ after).replaceFrom? offset
        ((placed (offset + before.bytes) ps).filterMap (revision? f)) =
      some (before ++ (ps.map (revise f)).flatMap (·.text) ++ after) := by
  induction ps generalizing offset before with
  | nil => rfl
  | cons p ps ih =>
    rw [placed, List.map_cons, List.flatMap_cons, List.flatMap_cons, revise]
    cases hnew : p.slot.bind f with
    | none =>
      -- A piece that is kept stands with the others before the next range.
      have hhead : revision? f (p, ⟨offset + before.bytes, offset + before.bytes + p.text.bytes⟩) =
          none := by
        rw [revision?, hnew, Option.map_none]
      have hbytes : offset + before.bytes + p.text.bytes = offset + (before ++ p.text).bytes := by
        rw [Text.bytes_append, Nat.add_assoc]
      rw [List.filterMap_cons_none hhead, hbytes]
      simpa using ih offset (before ++ p.text)
    | some new =>
      have hhead : revision? f (p, ⟨offset + before.bytes, offset + before.bytes + p.text.bytes⟩) =
          some (⟨offset + before.bytes, offset + before.bytes + p.text.bytes⟩, new) := by
        rw [revision?, hnew, Option.map_some]
      have hrest := ih (offset + before.bytes + p.text.bytes) []
      rw [Text.bytes_nil, Nat.add_zero, List.nil_append, List.nil_append] at hrest
      have htext : before ++ (p.text ++ ps.flatMap (·.text)) ++ after =
          before ++ p.text ++ (ps.flatMap (·.text) ++ after) := by simp
      rw [List.filterMap_cons_some hhead, htext, Text.replaceFrom?_cons, hrest]
      simp

end OffsideCss
