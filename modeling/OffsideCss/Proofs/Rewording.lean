import OffsideCss.Edit
import OffsideCss.Layout.PositionMap
import OffsideCss.Proofs.NodeMaps
import OffsideCss.Proofs.NodeTokens
import OffsideCss.Proofs.Pieces

/-! Rewording.  When texts are assigned to fields of a sheet that was read, each one that is new
takes the place of the literal text of its field, and nothing else of the text changes. -/

namespace OffsideCss

/-- The edit that assigns a text to a field. -/
def Field.edit (t : Text) : Field → Edit
  | .name => .name t
  | .params => .params t
  | .selector => .selector t
  | .property => .property t
  | .value => .value t
  | .text => .text t

/-- An item with texts assigned to its fields. -/
def Item.reword (texts : Field → Option Text) : Item → Item
  | .atRule a => .atRule
      { a with name := (texts .name).getD a.name, params := (texts .params).getD a.params }
  | .rule r => .rule { r with selector := (texts .selector).getD r.selector }
  | .declaration d => .declaration
      { d with property := (texts .property).getD d.property, value := (texts .value).getD d.value }
  | .comment c => .comment { c with text := (texts .text).getD c.text }

/-- A node with texts assigned to its fields. -/
def Node.reword (texts : Field → Option Text) (n : Node) : Node :=
  { n with item := n.item.reword texts }

/-- Whether what stands between the fields of an item is known, so that it does not depend on them,
and the literal texts are those of the fields. -/
inductive Item.Spelled : Item → Prop
  | atRule {a : AtRule} {space : Text} : a.afterName = some space →
      (∀ l ∈ a.paramsLiteral, l.value = a.params) → Spelled (.atRule a)
  | rule {r : Rule} : (∀ l ∈ r.selectorLiteral, l.value = r.selector) → Spelled (.rule r)
  | declaration {d : Declaration} {between : Text} : d.between = some between →
      (∀ l ∈ d.valueLiteral, l.value = d.value) → Spelled (.declaration d)
  | comment {c : Comment} {left right : Text} : c.left = some left → c.right = some right →
      Spelled (.comment c)

/-- The new text of a field, if it is another one than the old text. -/
def Text.fresh? (old new : Option Text) : Option Text := if new = old then none else new

/-- The text that is assigned to a field last. -/
def Slot.assigned? (slot : Slot) : List (Slot × Text) → Option Text
  | [] => none
  | (other, t) :: rest => (slot.assigned? rest).or (if other = slot then some t else none)

namespace Sheet

/-- Assigns a text to a field; a node that has not the field stays as it is. -/
def assign (s : Sheet) (slot : Slot) (t : Text) : Sheet :=
  match s.entry? slot.id with
  | none => s
  | some e => s.setNode slot.id ((e.node.edit? (slot.field.edit t)).getD e.node)

/-- Assigns texts to fields, one after the other. -/
def assignAll (s : Sheet) (texts : List (Slot × Text)) : Sheet :=
  texts.foldl (fun s x => s.assign x.1 x.2) s

/-- The text that is assigned to a field last, if it is another one than that of the field. -/
def changed? (s : Sheet) (texts : List (Slot × Text)) (slot : Slot) : Option Text :=
  Text.fresh? (s.field? slot) (slot.assigned? texts)

/-- The ranges of the fields whose texts are changed, and what they are changed to. -/
def revisions (s : Sheet) (texts : List (Slot × Text)) : List (Span × Text) :=
  s.fieldSpans.filterMap fun x => (s.changed? texts x.1).map (x.2, ·)

/-- The texts that the assigned fields had before. -/
def originals (s : Sheet) (texts : List (Slot × Text)) : List (Slot × Text) :=
  texts.filterMap fun x => (s.field? x.1).map (x.1, ·)

end Sheet

/-! ### Items -/

theorem Node.reword_none (n : Node) : n.reword (fun _ => none) = n := by
  obtain ⟨item, before, source⟩ := n
  cases item <;> rfl

theorem Node.reword_reword (n : Node) (f g : Field → Option Text) :
    (n.reword f).reword g = n.reword fun field => (g field).or (f field) := by
  obtain ⟨item, before, source⟩ := n
  cases item <;> simp only [reword, Item.reword, Option.getD_or]

/-- An edit of a field that an item has assigns the text to this field alone. -/
theorem Node.edit?_field (n : Node) (field : Field) (t : Text) :
    (n.edit? (field.edit t)).getD n = n.reword fun f => if field = f then some t else none := by
  obtain ⟨item, before, source⟩ := n
  cases item <;> cases field <;> rfl

/-- A text that is assigned to a field takes the place of the literal one if it is new. -/
theorem Literal.resolve_getD {literal : Option Literal} {field : Text}
    (h : ∀ l ∈ literal, l.value = field) (t : Option Text) :
    resolve literal (t.getD field) = (Text.fresh? (some field) t).getD (resolve literal field) := by
  cases t with
  | none => rfl
  | some new =>
    by_cases hnew : new = field
    · simp [Text.fresh?, hnew]
    · rw [Option.getD_some, Text.fresh?, if_neg (by simpa using hnew), Option.getD_some]
      cases literal with
      | none => rfl
      | some l =>
        have hne : l.value ≠ new := by
          rw [h l rfl]
          exact Ne.symm hnew
        rw [resolve, if_neg hne]

theorem Text.getD_fresh? (t : Option Text) (field : Text) :
    (fresh? (some field) t).getD field = t.getD field := by
  have h : ∀ l ∈ (none : Option Literal), l.value = field := by simp
  exact (Literal.resolve_getD h t).symm

variable {i : Item} {id : NodeId} {texts : Field → Option Text} {f : Slot → Option Text}

/-- Only the pieces of the fields that are changed are written differently. -/
theorem Item.Spelled.pieces_reword (h : i.Spelled)
    (hf : ∀ field, f ⟨id, field⟩ = Text.fresh? (i.field? field) (texts field)) :
    (i.reword texts).pieces id = (i.pieces id).map (Piece.revise f) := by
  cases h with
  | atRule hspace hparams =>
    simp [reword, pieces, Piece.revise, hf, field?, hspace, Literal.resolve_getD hparams,
      Text.getD_fresh?]
  | rule hselector =>
    simp [reword, pieces, Piece.revise, hf, field?, Literal.resolve_getD hselector]
  | declaration hbetween hvalue =>
    simp [reword, pieces, Piece.revise, hf, field?, hbetween, Literal.resolve_getD hvalue,
      Text.getD_fresh?]
  | @comment c left right hleft hright =>
    cases hform : c.form <;>
      simp [reword, pieces, Piece.revise, hf, field?, hleft, hright, hform, Text.getD_fresh?]

/-- A literal text that is kept for a field is that of the field. -/
theorem Item.Spelled.value_eq (h : i.Spelled) {field : Field} {l : Literal} {t : Text}
    (hl : i.literal? field = some l) (ht : i.field? field = some t) : l.value = t := by
  cases h with
  | atRule _ hparams => cases field <;> simp_all [literal?, field?]
  | rule hselector => cases field <;> simp_all [literal?, field?]
  | declaration _ hvalue => cases field <;> simp_all [literal?, field?]
  | comment => cases field <;> cases hl

theorem Item.MadeOf.spelled {ts : List Token} (h : i.MadeOf ts) : i.Spelled := by
  cases h with
  | atRule _ _ _ hspace hparams _ =>
    exact .atRule hspace.spelled fun l hl => (hparams.literal l hl).1
  | rule hselector _ => exact .rule fun l hl => (hselector.literal l hl).1
  | declaration _ _ _ hbetween _ _ _ hvalue =>
    exact .declaration hbetween fun l hl => (hvalue.literal l hl).1
  | lineComment _ _ hleft hright _ _ _ => exact .comment hleft hright
  | blockComment _ _ hleft hright _ _ _ => exact .comment hleft hright

/-! ### Assigning -/

namespace Slot

variable {slot : Slot}

theorem assigned?_append (slot : Slot) (texts texts' : List (Slot × Text)) :
    slot.assigned? (texts ++ texts') = (slot.assigned? texts').or (slot.assigned? texts) := by
  induction texts with
  | nil => simp [assigned?]
  | cons x texts ih => rw [List.cons_append, assigned?, ih, Option.or_assoc, assigned?]

/-- A field that has a text gets it back when some text was assigned to it. -/
theorem assigned?_originals {s : Sheet} {field : Text} (h : s.field? slot = some field)
    (texts : List (Slot × Text)) :
    slot.assigned? (s.originals texts) = (slot.assigned? texts).map fun _ => field := by
  induction texts with
  | nil => rfl
  | cons x texts ih =>
    obtain ⟨other, t⟩ := x
    have hcons : s.originals ((other, t) :: texts) =
        ((s.field? other).map (other, ·)).toList ++ s.originals texts := by
      rw [Sheet.originals, List.filterMap_cons]
      cases s.field? other <;> rfl
    rw [hcons, assigned?_append, ih, assigned?]
    by_cases hother : other = slot
    · rw [hother, h, if_pos rfl]
      cases slot.assigned? texts <;> simp [assigned?]
    · rw [if_neg hother, Option.or_none]
      cases s.field? other <;> simp [assigned?, hother]

end Slot

namespace Sheet

variable {s : Sheet}

theorem Revises.eq_mapNodes {s' : Sheet} {f : NodeId → Node → Node} (h : Revises f s s')
    (hafter : s'.after = s.after) (hindent : s'.indent = s.indent)
    (horigin : s'.origin = s.origin) : s' = s.mapNodes f := by
  have hentries : s'.entries = (s.mapNodes f).entries := by
    refine List.ext_getElem? fun id => ?_
    exact (h.entries id).trans ((revises_mapNodes s f).entries id).symm
  obtain ⟨entries', top', after', indent', origin'⟩ := s'
  obtain rfl := h.top
  subst hafter hindent horigin hentries
  rfl

theorem mapNodes_mapNodes (s : Sheet) (f g : NodeId → Node → Node) :
    (s.mapNodes f).mapNodes g = s.mapNodes fun id n => g id (f id n) :=
  ((revises_mapNodes s f).trans (revises_mapNodes _ g)).eq_mapNodes rfl rfl rfl

theorem mapNodes_self {f : NodeId → Node → Node}
    (h : ∀ id e, s.entry? id = some e → f id e.node = e.node) : s.mapNodes f = s := by
  refine (Revises.eq_mapNodes ⟨fun id => ?_, rfl, rfl⟩ rfl rfl rfl).symm
  cases he : s.entry? id with
  | none => rfl
  | some e => rw [Option.map_some, h id e he]

theorem assign_eq (s : Sheet) (slot : Slot) (t : Text) : s.assign slot t =
    s.mapNodes fun id n => n.reword fun field => if slot = ⟨id, field⟩ then some t else none := by
  obtain ⟨owner, field⟩ := slot
  -- Nodes of other numbers keep their texts.
  have hother : ∀ {id : NodeId}, owner ≠ id → ∀ n : Node,
      (n.reword fun f => if (⟨owner, field⟩ : Slot) = ⟨id, f⟩ then some t else none) = n := by
    intro id hne n
    simp only [Slot.mk.injEq, hne, false_and, if_false, Node.reword_none]
  rw [assign]
  cases he : s.entry? owner with
  | none =>
    have hne : ∀ id e, s.entry? id = some e → owner ≠ id := by
      rintro id e hid rfl
      rw [he] at hid
      cases hid
    exact (mapNodes_self fun id e hid => hother (hne id e hid) e.node).symm
  | some e =>
    refine Revises.eq_mapNodes ⟨fun id => ?_, List.length_modify _ _ _, rfl⟩ rfl rfl rfl
    rw [entry?_setNode]
    by_cases hne : owner = id
    · subst hne
      simp only [he, Option.map_some, if_true, Node.edit?_field, Slot.mk.injEq, true_and]
    · simp only [hne, if_false, hother hne]

theorem assignAll_eq (s : Sheet) (texts : List (Slot × Text)) : s.assignAll texts =
    s.mapNodes fun id n => n.reword fun field => (⟨id, field⟩ : Slot).assigned? texts := by
  induction texts generalizing s with
  | nil => exact (mapNodes_self fun id e _ => e.node.reword_none).symm
  | cons x texts ih =>
    rw [assignAll, List.foldl_cons, ← assignAll, ih, assign_eq, mapNodes_mapNodes]
    simp only [Node.reword_reword]
    rfl

/-! ### Sheets that were read -/

/-- Whether each field of each node of a sheet has a range of `source` of its own, and texts that are
assigned to fields take the place of what stands in the ranges of those that they change. -/
structure Patches (s : Sheet) (source : Text) : Prop where
  nodes : s.outline.map (·.id) = List.range s.size
  slots : s.fieldSpans.map (·.1) = s.outline.flatMap fun v => v.node.item.slots v.id
  literals : ∀ x ∈ s.fieldSpans, ∃ field, s.field? x.1 = some field ∧
    source.slice? x.2 = some (((s.literal? x.1).map (·.text)).getD field)
  apart : s.fieldSpans.Pairwise fun x y => x.2.stop ≤ y.2.start
  assigned : ∀ texts attachment, source.replace? (s.revisions texts) =
    some ((s.assignAll texts).stringify .kept attachment).text
  restored : ∀ texts attachment,
    ((s.assignAll (texts ++ s.originals texts)).stringify .kept attachment).text = source

/-- Whether the spelling of each node of a sheet tells what stands between its fields. -/
def Spelled (s : Sheet) : Prop :=
  ∀ v ∈ s.outline, v.node.item.Spelled ∧ ∃ e, s.entry? v.id = some e ∧ e.node = v.node

theorem spelled_of_parse {name : String} {source : Text} (h : parse name source = .ok s) :
    s.Spelled := by
  obtain ⟨shares, -, -, -, -, howns, -⟩ := shares_of_parse h
  obtain ⟨-, vs, -, hlists, -⟩ := exists_of_parse h
  intro v hv
  obtain ⟨x, -, hx⟩ := exists_mem_of_forall₂ howns.flip hv
  rw [hlists.outline_eq] at hv
  exact ⟨hx.item.spelled, hlists.outlined.entry_of_mem hv⟩

/-- Only the pieces of changed fields are written differently when texts are assigned. -/
theorem nodePieces_assignAll (h : s.Spelled) (texts : List (Slot × Text)) :
    (s.assignAll texts).nodePieces = s.nodePieces.map (Piece.revise (s.changed? texts)) := by
  rw [assignAll_eq]
  generalize hreword : (fun (id : NodeId) (n : Node) =>
    n.reword fun field => (⟨id, field⟩ : Slot).assigned? texts) = reword
  have hvisit : ∀ isFirst, ∀ v ∈ s.outline, (s.mapNodes reword).visitPieces isFirst (v.map reword) =
      (s.visitPieces isFirst v).map (Piece.revise (s.changed? texts)) := by
    intro isFirst v hv
    obtain ⟨hspelled, e, he, hnode⟩ := h v hv
    have hchanged : ∀ field, s.changed? texts ⟨v.id, field⟩ =
        Text.fresh? (v.node.item.field? field) ((⟨v.id, field⟩ : Slot).assigned? texts) := by
      intro field
      rw [changed?, field?, he, Option.bind_some, hnode]
    rw [visitPieces, visitPieces, List.map_cons, ← hspelled.pieces_reword hchanged]
    subst hreword
    rfl
  rw [nodePieces, nodePieces, (revises_mapNodes s reword).outline_eq]
  cases ho : s.outline with
  | nil => rfl
  | cons v vs =>
    rw [ho] at hvisit
    have hfirst := hvisit true v List.mem_cons_self
    have hrest := fun w hw => hvisit false w (List.mem_cons_of_mem v hw)
    simp only [List.map_cons, List.map_append, List.map_flatMap, List.flatMap_map, hfirst]
    congr 1
    exact List.flatMap_congr hrest

theorem revisions_eq (s : Sheet) (texts : List (Slot × Text)) : s.revisions texts =
    (Piece.placed 0 s.nodePieces).filterMap (Piece.revision? (s.changed? texts)) := by
  rw [revisions, fieldSpans, List.filterMap_filterMap]
  congr 1
  funext x
  rw [Piece.revision?]
  cases x.1.slot <;> rfl

theorem exists_visit_of_mem_nodePieces {p : Piece} (hp : p ∈ s.nodePieces) {slot : Slot}
    (hslot : p.slot = some slot) : ∃ v ∈ s.outline, p ∈ v.node.item.pieces v.id := by
  have hvisit : ∀ {isFirst v}, p ∈ s.visitPieces isFirst v → p ∈ v.node.item.pieces v.id := by
    intro isFirst v hmem
    rcases List.mem_cons.1 hmem with rfl | hmem
    · cases hslot
    · exact hmem
  rw [nodePieces] at hp
  cases ho : s.outline with
  | nil => simp [ho] at hp
  | cons v vs =>
    rw [ho] at hp
    rcases List.mem_append.1 hp with hp | hp
    · exact ⟨v, List.mem_cons_self, hvisit hp⟩
    · obtain ⟨w, hw, hp⟩ := List.mem_flatMap.1 hp
      exact ⟨w, List.mem_cons_of_mem v hw, hvisit hp⟩

/-- The piece of a field is the literal text that was kept for it, or else the field. -/
theorem Spelled.literal (h : s.Spelled) {p : Piece} (hp : p ∈ s.nodePieces) {slot : Slot}
    (hslot : p.slot = some slot) : ∃ field, s.field? slot = some field ∧
      p.text = ((s.literal? slot).map (·.text)).getD field := by
  obtain ⟨v, hv, hmem⟩ := exists_visit_of_mem_nodePieces hp hslot
  obtain ⟨hspelled, e, he, hnode⟩ := h v hv
  obtain ⟨hid, field, hfield, htext⟩ := Item.of_mem_pieces hmem hslot
  have hread : s.field? slot = some field ∧ s.literal? slot = v.node.item.literal? slot.field := by
    rw [field?, literal?, hid, he, Option.bind_some, Option.bind_some, hnode]
    exact ⟨hfield, rfl⟩
  refine ⟨field, hread.1, ?_⟩
  rw [htext, hread.2]
  cases hl : v.node.item.literal? slot.field with
  | none => rfl
  | some l =>
    rw [Literal.resolve, if_pos (hspelled.value_eq hl hfield), Option.map_some, Option.getD_some]

theorem map_fst_fieldSpans (s : Sheet) :
    s.fieldSpans.map (·.1) = s.outline.flatMap fun v => v.node.item.slots v.id := by
  have hvisit : ∀ isFirst v, (s.visitPieces isFirst v).filterMap (·.slot) =
      v.node.item.slots v.id := by
    intro isFirst v
    rw [visitPieces, List.filterMap_cons_none rfl, Item.filterMap_pieces]
  rw [fieldSpans, Piece.filterMap_placed, nodePieces]
  cases s.outline with
  | nil => rfl
  | cons v vs =>
    simp only [List.filterMap_append, List.filterMap_flatMap, hvisit, List.flatMap_cons]

/-- Nothing is changed when the fields that texts were assigned to get their own texts back. -/
theorem Spelled.revisions_originals (h : s.Spelled) (texts : List (Slot × Text)) :
    s.revisions (texts ++ s.originals texts) = [] := by
  rw [revisions_eq, List.filterMap_eq_nil_iff]
  intro x hx
  rw [Piece.revision?]
  cases hslot : x.1.slot with
  | none => rfl
  | some slot =>
    obtain ⟨field, hfield, -⟩ := h.literal (Piece.mem_of_mem_placed hx) hslot
    rw [Option.bind_some, changed?, hfield, Slot.assigned?_append, Slot.assigned?_originals hfield]
    cases slot.assigned? texts <;> simp [Text.fresh?]

/-- Texts that are assigned to the fields of a sheet that was read take the place of literal texts,
and nothing else of the text changes. -/
theorem patches_of_parse {name : String} {source : Text} (h : parse name source = .ok s) :
    s.Patches source := by
  have hspelled := spelled_of_parse h
  have hsource : s.nodePieces.flatMap (·.text) ++ s.after = source :=
    (flatMap_nodePieces s).trans (write_kept_of_parse h)
  have hassigned : ∀ texts attachment, source.replace? (s.revisions texts) =
      some ((s.assignAll texts).stringify .kept attachment).text := by
    intro texts attachment
    have hreplace := Piece.replaceFrom?_placed (s.changed? texts) s.nodePieces 0 [] s.after
    rw [List.nil_append, List.nil_append, hsource, ← nodePieces_assignAll hspelled] at hreplace
    have hafter : s.after = (s.assignAll texts).after := by rw [assignAll_eq]; rfl
    rw [Text.replace?, revisions_eq, stringify, ← flatMap_nodePieces, ← hafter]
    exact hreplace
  refine ⟨?_, map_fst_fieldSpans s, ?_, ?_, hassigned, ?_⟩
  · obtain ⟨-, vs, -, hlists, -⟩ := exists_of_parse h
    rw [hlists.outline_eq, hlists.ids]
  · intro x hx
    obtain ⟨y, hy, hmap⟩ := List.mem_filterMap.1 hx
    obtain ⟨slot, hslot, rfl⟩ := Option.map_eq_some_iff.1 hmap
    have hslice := Piece.slice?_placed [] s.after hy
    rw [List.nil_append, hsource] at hslice
    obtain ⟨field, hfield, htext⟩ := hspelled.literal (Piece.mem_of_mem_placed hy) hslot
    exact ⟨field, hfield, hslice.trans (congrArg some htext)⟩
  · refine (List.pairwise_filterMap).2 ((Piece.pairwise_placed 0 s.nodePieces).imp ?_)
    rintro x y hxy _ hx _ hy
    obtain ⟨-, -, rfl⟩ := Option.map_eq_some_iff.1 hx
    obtain ⟨-, -, rfl⟩ := Option.map_eq_some_iff.1 hy
    exact hxy
  · intro texts attachment
    have hnone := hassigned (texts ++ s.originals texts) attachment
    rw [hspelled.revisions_originals] at hnone
    exact (Option.some.inj hnone).symm

/-- Parameters that are assigned twice take the last text, a value that gets its own text keeps its
comments, and a comment can be left with nothing but its blanks. -/
theorem patches_five_texts :
    let source := Text.ofString "@m  (a)/*x*/\n  b: c/*y*/ d //z\n  /* k */\n"
    let texts : List (Slot × Text) := [(⟨0, .params⟩, ['q']), (⟨1, .value⟩, ['c', ' ', 'd']),
      (⟨1, .property⟩, ['p', 'q']), (⟨2, .text⟩, []), (⟨0, .params⟩, ['r'])]
    ∃ s, parse "in" source = .ok s ∧ s.Patches source ∧
      s.revisions texts = [(⟨4, 12⟩, ['r']), (⟨15, 16⟩, ['p', 'q']), (⟨36, 37⟩, [])] ∧
      (s.assignAll texts).write .kept = Text.ofString "@m  r\n  pq: c/*y*/ d //z\n  /*  */\n" := by
  intro source texts
  have hpatch : (parse "in" source).toOption.map (fun s =>
      (s.revisions texts, (s.assignAll texts).write .kept)) =
      some ([(⟨4, 12⟩, ['r']), (⟨15, 16⟩, ['p', 'q']), (⟨36, 37⟩, [])],
        Text.ofString "@m  r\n  pq: c/*y*/ d //z\n  /*  */\n") := by
    decide +kernel
  obtain ⟨s, h, hs⟩ := exists_of_map_parse hpatch
  obtain ⟨hrevisions, hwrite⟩ := Prod.mk.inj hs
  exact ⟨s, h, patches_of_parse h, hrevisions, hwrite⟩

end Sheet

end OffsideCss
