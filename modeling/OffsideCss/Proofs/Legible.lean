import OffsideCss.Proofs.Alignment
import OffsideCss.Proofs.Arena

/-! Reading a normalized sheet back.  A sheet that was read keeps the shape of its nodes through
canonical spacing exactly when it is legible, which is a matter of the own texts of its nodes: each
makes one statement by itself, and none of these statements changes the kind or the end of
another. -/

namespace OffsideCss

open Token (join scan)

namespace Sheet

/-- What normalizing is to keep of a sheet: the depth and the core of each node, in document order. -/
def shape (s : Sheet) : List (Nat × Core) := s.outline.map fun v => (v.depth, v.node.item.core)

/-- Whether a part is what is written for a visited node in canonical spacing, and its statement reads
as an item with the same core. -/
structure Shows (s : Sheet) (v : Visit) (p : Part) : Prop extends s.Writes .canonical v p where
  item : ∃ i, p.statement.item = .ok i ∧ i.core = v.node.item.core

/-- Whether the nodes of a sheet can be told by their own texts in canonical spacing: each of them makes
one statement that reads as its node, and these statements, indented by the depths of the nodes, group
as they are. -/
def Legible (s : Sheet) : Prop :=
  ∃ parts, List.Forall₂ s.Shows s.outline parts ∧ (parts = [] ∨ Part.Stand ['\n'] parts) ∧
    Statement.Grouped (parts.map (Part.indented defaultIndent []))

end Sheet

/-! ### Statements that were read -/

namespace Statement

/-- Whether a statement is one of a text and reads as an item. -/
structure Reads (t : Statement) (i : Item) : Prop where
  item : t.item = .ok i
  formed : t.Formed
  inked : ∀ tok ∈ t.tokens, tok.Inked

/-- A statement without the places of its lines. -/
def unplaced (t : Statement) : Statement :=
  ⟨t.kind, t.first.unplaced, t.more.map Line.unplaced⟩

theorem unplaces_unplaced (t : Statement) : Part.Unplaces t.unplaced t := ⟨rfl, rfl, rfl⟩

theorem flatMap_lines_unplaced (ts : List Statement) :
    (ts.map unplaced).flatMap lines = (ts.flatMap lines).map Line.unplaced := by
  induction ts with
  | nil => rfl
  | cons t ts ih =>
    rw [List.map_cons, List.flatMap_cons, List.flatMap_cons, List.map_append, ih]
    rfl

theorem like_unplaced (t : Statement) : t.Like t.unplaced :=
  ⟨rfl, ⟨rfl, rfl, rfl⟩,
    List.forall₂_map_right_iff.2 (List.forall₂_same.2 fun _ _ => ⟨rfl, rfl, rfl⟩)⟩

theorem item_of_node {t : Statement} {n : Node} (h : t.node = .ok n) : t.item = .ok n.item := by
  obtain ⟨i, hi, rfl⟩ := node_eq_ok.1 h
  exact hi

/-- What is written for an item fits a statement that reads as one with the same core, unless the
statement is heavier. -/
theorem Reads.fits {t r : Statement} {i j : Item} {unit : Text} {p : Part} (hi : t.Reads i)
    (hj : r.Reads j) (hcore : i.core = j.core) (hunit : unit.ink = [])
    (hown : p.own = i.write .canonical unit p.depth) (hp : p.statement = r.unplaced.alone) :
    p.own.weight ≤ (join r.unplaced.tokens).weight ∧
      (p.own.weight = (join r.unplaced.tokens).weight → p.Fits r.unplaced) := by
  have hink : p.own.ink = i.dense.ink := by rw [hown, Item.ink_write_canonical hunit]
  have hweight : p.own.weight = j.dense.weight := by
    rw [Text.weight_of_ink hink, Item.weight_dense_of_core hcore]
  have htokens := r.unplaces_unplaced.tokens
  obtain ⟨hle, heq⟩ := weight_item hj.item hj.formed hj.inked
  rw [hweight, htokens]
  refine ⟨hle, fun hsame => ⟨?_, fun happend => ?_, hp⟩⟩
  · rw [hown]
    exact framed_write hi.item hi.formed hi.inked
  · rw [htokens, ← heq hsame, hink] at happend ⊢
    exact Item.ink_dense_of_append hcore happend

end Statement

namespace Sheet

variable {name : String} {source : Text} {s : Sheet}

theorem reads_of_parse (h : parse name source = .ok s) : ∃ lines after,
    Line.ofTokens (scan source) = .ok (lines, after) ∧ s.Lists s.outline ∧
      List.Forall₂ (fun t v => t.Reads v.node.item) (Statement.group lines) s.outline := by
  obtain ⟨lines, vs, hlines, hlists, hnodes⟩ := exists_of_parse h
  have hall : ∀ t ∈ Statement.group lines, t.Formed ∧ ∀ tok ∈ t.tokens, tok.Inked := fun t ht =>
    ⟨Statement.formed_of_mem_group hlines ht, Statement.inked_of_mem_group hlines ht⟩
  obtain rfl := hlists.outline_eq
  exact ⟨lines, s.after, hlines, hlists, ((List.forall₂_and_left _ _).2 ⟨hall, hnodes⟩).imp
    fun t v hv => ⟨Statement.item_of_node hv.2, hv.1.1, hv.1.2⟩⟩

theorem write_canonical_eq {parts : List Part} (hs : s.Lists s.outline)
    (hne : s.outline ≠ []) (h : List.Forall₂ (s.Writes .canonical) s.outline parts) :
    s.write .canonical = Part.layOut defaultIndent ['\n'] parts := by
  have htop : s.top ≠ [] := by
    obtain ⟨v, vs, ho⟩ := List.exists_cons_of_ne_nil hne
    have hid := (hs.outlined.head (w := v) (by simp [ho])).2
    rintro htop
    simp [htop] at hid
  have hwrite := write_eq_layOut (fun _ _ _ => rfl) (fun w hw => (hs.outlined.head hw).1) h
  rw [hwrite, ending, if_neg htop]
  rfl

theorem exists_parse_of_outline_nil (h : s.outline = []) (name : String) :
    ∃ t, parse name (s.write .canonical) = .ok t ∧ t.shape = s.shape := by
  have hblank : s.write .canonical = [] ∨ s.write .canonical = ['\n'] := by
    by_cases htop : s.top = [] <;> simp [write, passages, ending, h, htop]
  obtain ⟨t, ht, hnil⟩ := exists_parse_blank name hblank
  exact ⟨t, ht, by rw [shape, shape, hnil, h]⟩

theorem shape_eq_of_forall₂ {vs : List Visit} {ts : List Draft.Target}
    (h : List.Forall₂ (fun v (t : Draft.Target) => t.depth = v.depth ∧
      t.item.core = v.node.item.core) vs ts) :
    (ts.map fun t => (t.depth, t.item.core)) = vs.map fun v => (v.depth, v.node.item.core) := by
  induction h with
  | nil => rfl
  | cons hvt _ ih => rw [List.map_cons, List.map_cons, ih, hvt.1, hvt.2]

/-- A legible sheet is read back with its shape. -/
theorem Legible.exists_parse (h : s.Legible) (hs : s.Lists s.outline) (name : String) :
    ∃ t, parse name (s.write .canonical) = .ok t ∧ t.shape = s.shape := by
  by_cases hne : s.outline = []
  · exact exists_parse_of_outline_nil hne name
  obtain ⟨parts, hshows, hstand, hgroup⟩ := h
  rw [write_canonical_eq hs hne (hshows.imp fun _ _ hp => hp.toWrites)]
  obtain ⟨ts, hts, hitems⟩ := exists_forall₂ (R := fun (v : Visit) (t : Draft.Target) =>
      t.depth = v.depth ∧ t.item.core = v.node.item.core)
    (S := fun t p => p.depth = t.depth ∧ p.statement.item = .ok t.item)
    (hshows.imp fun v p hp => by
      obtain ⟨i, hi, hcore⟩ := hp.item
      exact ⟨⟨v.depth, i⟩, ⟨rfl, hcore⟩, hp.depth, hi⟩)
  have hmap : ts.map (fun t => (t.depth, t.item.core)) = s.shape := shape_eq_of_forall₂ hts
  have hchain : ts.IsChain Draft.Target.Follows := by
    refine Draft.Target.isChain_follows_of_map ?_
      ((hs.outlined.isChain (.inl rfl) List.suffix_rfl).imp fun _ _ hnext => hnext.follows)
    have := congrArg (List.map fun (a : Nat × Core) => (a.1, a.2.kind)) hmap
    simpa [shape, Function.comp_def, Item.kind_core] using this
  obtain ⟨v, vs, ho⟩ := List.exists_cons_of_ne_nil hne
  rw [ho] at hts
  obtain ⟨t, ts, ⟨hdepth, -⟩, -, rfl⟩ := List.forall₂_cons_left_iff.1 hts
  have hfirst : t.depth = 0 := by
    rw [hdepth, (hs.outlined.head (w := v) (by simp [ho])).1]
  have hparts : parts ≠ [] := by
    rintro rfl
    cases hitems
  have hgroup' : Statement.Grouped (parts.map (Part.indented (List.replicate 2 ' ') [])) := hgroup
  obtain ⟨s', hparse, hs'⟩ := exists_parse_layOut name (by decide) (.inl rfl)
    (hstand.resolve_left hparts) hgroup' hitems.flip hfirst hchain
  refine ⟨s', hparse, ?_⟩
  rw [← hmap, ← hs', List.map_map]
  rfl

/-- A sheet that is read back with its shape is legible. -/
theorem legible_of_parse {name' : String} {t : Sheet} (h : parse name source = .ok s)
    (ht : parse name' (s.write .canonical) = .ok t) (hshape : t.shape = s.shape) : s.Legible := by
  obtain ⟨lines, -, -, hlists, hreads⟩ := reads_of_parse h
  by_cases hne : s.outline = []
  · exact ⟨[], by rw [hne]; exact .nil, .inl rfl, .nil⟩
  obtain ⟨lines', after, hlines', -, hreads'⟩ := reads_of_parse ht
  have hitems : List.Forall₂ (fun r (x : Nat × Core) => ∃ j, r.Reads j ∧ j.core = x.2)
      (Statement.group lines') t.shape :=
    List.forall₂_map_right_iff.2 (hreads'.imp fun r w hr => ⟨w.node.item, hr, rfl⟩)
  rw [hshape, shape, List.forall₂_map_right_iff] at hitems
  have hunit : ∀ c ∈ defaultIndent, c = ' ' ∨ c = '\t' := by simp [defaultIndent]
  have hwhite := Part.isWhite_of_blanks hunit
  have hparts : List.Forall₂ (fun v r => ∃ p, s.Shows v p ∧
      (p.own.weight ≤ (join r.tokens).weight ∧ (p.own.weight = (join r.tokens).weight → p.Fits r)))
      s.outline ((Statement.group lines').map Statement.unplaced) := by
    have hall : ∀ v ∈ s.outline, ∃ t : Statement, t.Reads v.node.item :=
      ((List.forall₂_and_left _ _).1 (hreads.flip.imp fun _ _ ht => ⟨⟨_, ht⟩, ht⟩)).1
    refine List.forall₂_map_right_iff.2
      (((List.forall₂_and_left _ _).2 ⟨hall, hitems.flip⟩).imp fun v r hv => ?_)
    obtain ⟨⟨t, ht⟩, j, hj, hcore⟩ := hv
    have hitem : r.unplaced.alone.item = .ok j :=
      Statement.item_congr (s := r) (t := r.unplaced.alone) rfl r.unplaces_unplaced.tokens.symm hj.item
    exact ⟨⟨v.depth, v.node.item.write .canonical defaultIndent v.depth, r.unplaced.alone⟩,
      ⟨⟨rfl, rfl⟩, j, hitem, hcore⟩, ht.fits hj hcore.symm hwhite.ink_eq_nil rfl rfl⟩
  obtain ⟨parts, hshows, hweights⟩ := exists_forall₂ hparts
  have hwrite := write_canonical_eq hlists hne (hshows.imp fun _ _ hp => hp.toWrites)
  have hlays : Line.Lays (Part.layOut defaultIndent ['\n'] parts)
      (((Statement.group lines').map Statement.unplaced).flatMap Statement.lines) after := by
    rw [Statement.flatMap_lines_unplaced, Statement.flatMap_lines_group, ← hwrite]
    exact ⟨lines', hlines', rfl⟩
  have hfits := (Part.fits_of_weight hweights).2 <| by
    rw [← Part.weight_layOut hwhite, ← Statement.weight_of_lays hlays]
  obtain ⟨v, vs, ho⟩ := List.exists_cons_of_ne_nil hne
  obtain ⟨p, ps, hp, -, rfl⟩ := List.forall₂_cons_left_iff.1 (ho ▸ hshows)
  have hfirst : p.depth = 0 := by
    rw [hp.depth, (hlists.outlined.head (w := v) (by simp [ho])).1]
  obtain ⟨hstand, hlikes⟩ := Part.stand_of_lays hunit hfits hfirst hlays
  refine ⟨p :: ps, hshows, .inr hstand, ?_⟩
  have hgrouped := (Statement.group_eq_iff.1 (rfl : Statement.group lines' = _)).2
  have hgrouped' : Statement.Grouped ((Statement.group lines').map Statement.unplaced) :=
    hgrouped.congr (List.forall₂_map_right_iff.2
      (List.forall₂_same.2 fun r _ => r.like_unplaced))
  exact hgrouped'.congr (List.forall₂_map_right_iff.2 hlikes.flip)

/-- The text of a sheet that was read, in canonical spacing, with a map or without one, is read as a
sheet with the same shape exactly when the first one is legible.  The shape of both is that of all their
nodes. -/
theorem exists_parse_iff_legible (h : parse name source = .ok s) (name' : String)
    (attachment : Option Attachment) :
    s.Complete ∧
      (∀ t, parse name' (s.stringify .canonical attachment).text = .ok t → t.Complete) ∧
      ((∃ t, parse name' (s.stringify .canonical attachment).text = .ok t ∧ t.shape = s.shape) ↔
        s.Legible) := by
  obtain ⟨-, -, -, hlists, -⟩ := reads_of_parse h
  refine ⟨(linked_of_parse h).complete, fun t ht => (linked_of_parse ht).complete, ?_⟩
  constructor
  · rintro ⟨t, ht, hshape⟩
    exact legible_of_parse h ht hshape
  · exact fun hlegible => hlegible.exists_parse hlists name'

/-- A rule is read back though the comment in its selector is not written. -/
theorem legible_comment_in_selector :
    let source := Text.ofString "a /*x*/ b\n  c: d\n"
    ∃ s, parse "in" source = .ok s ∧ s.Legible := by
  intro source
  have hsame : ((parse "in" source).toOption.bind fun s =>
      (parse "in" (s.stringify .canonical none).text).toOption.map fun t =>
        decide (t.shape = s.shape)) = some true := by decide +kernel
  cases h : parse "in" source with
  | error fault => simp [h, Except.toOption] at hsame
  | ok s =>
    cases ht : parse "in" (s.stringify .canonical none).text with
    | error fault => simp [h, ht, Except.toOption] at hsame
    | ok t =>
      have hshape : t.shape = s.shape := by simpa [h, ht, Except.toOption] using hsame
      exact ⟨s, rfl, (exists_parse_iff_legible h "in" none).2.2.1 ⟨t, ht, hshape⟩⟩

/-- Without the comment behind its colon, a rule is read back as a declaration. -/
theorem shape_comment_behind_colon :
    let source := Text.ofString "a:/**/ b\n"
    ∃ s, parse "in" source = .ok s ∧
      ¬∃ t, parse "in" (s.stringify .canonical none).text = .ok t ∧ t.shape = s.shape := by
  intro source
  have hother : ((parse "in" source).toOption.bind fun s =>
      (parse "in" (s.stringify .canonical none).text).toOption.map fun t =>
        decide (t.shape = s.shape)) = some false := by decide +kernel
  cases h : parse "in" source with
  | error fault => simp [h, Except.toOption] at hother
  | ok s =>
    refine ⟨s, rfl, ?_⟩
    rintro ⟨t, ht, hshape⟩
    simp [h, ht, hshape, Except.toOption] at hother

end Sheet

end OffsideCss
