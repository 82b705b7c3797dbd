import OffsideCss.Proofs.LineBreaks
import OffsideCss.Proofs.ListFacts

/-! Variants of a text.  A variant has the tokens of the text, except that line breaks have another
form, other whitespace stands between lines, or lines are indented by another character and width.
A `Variant` tells how the two may differ; what follows from that for a list of tokens is stated here
once for all of them. -/

namespace OffsideCss

open Token (join placed bare)

/-- How a text and a variant of it may differ. -/
structure Variant where
  /-- The line break for each line feed in a token. -/
  lineBreak : Text
  spells : TokenKind.lineBreak.Spells lineBreak
  /-- The number of characters for each one of an indentation. -/
  factor : Nat
  factor_pos : 0 < factor
  /-- The character for each one of an indentation. -/
  style : Char → Char
  /-- Which characters the lines of the text are indented with. -/
  Indents : Char → Prop
  style_inj : ∀ {c d : Char}, Indents c → Indents d → style c = style d → c = d
  /-- Which texts may stand for a field, or for the text that it was read from. -/
  Field : Text → Text → Prop
  field_breaks : ∀ t, Field t (Text.withBreaks lineBreak t)
  field_append : ∀ {t u v w : Text}, Field t v → Field u w → Field (t ++ u) (v ++ w)
  field_trim : ∀ {t u : Text}, Field t u → Field t.trim u.trim
  trimmed_iff : ∀ {t u : Text}, Field t u → (u.Trimmed ↔ t.Trimmed)
  /-- Which texts may stand for the whitespace between two lines. -/
  Gap : Text → Text → Prop
  gap_break : ∀ {t : Text}, TokenKind.lineBreak.Spells t → Gap t (Text.withBreaks lineBreak t)
  gap_indent : ∀ {t : Text}, (∀ c ∈ t, Indents c) →
    Gap t (t.flatMap fun c => List.replicate factor (style c))
  gap_append : ∀ {t u v w : Text}, Gap t v → Gap u w → Gap (t ++ u) (v ++ w)
  /-- Where a line feed stands, such whitespace joins two lines of one field. -/
  field_gap : ∀ {t u : Text}, Gap t u → '\n' ∈ t → Field t u
  /-- Where a character of the text may stand in the variant. -/
  Stands : Position → Position → Prop

namespace Variant

variable (V : Variant)

/-- The indentation for an indentation of the text. -/
def indent (t : Text) : Text := t.flatMap fun c => List.replicate V.factor (V.style c)

@[simp] theorem indent_nil : V.indent [] = [] := rfl

@[simp] theorem indent_cons (c : Char) (t : Text) :
    V.indent (c :: t) = List.replicate V.factor (V.style c) ++ V.indent t := rfl

theorem length_indent (t : Text) : (V.indent t).length = V.factor * t.length := by
  induction t with
  | nil => rfl
  | cons c t ih => rw [indent_cons, List.length_append, List.length_replicate, ih, List.length_cons,
      Nat.mul_succ, Nat.add_comm]

theorem gap_nil : V.Gap [] [] := V.gap_indent (by simp)

theorem field_nil : V.Field [] [] := V.field_breaks []

end Variant

/-! ### Tokens -/

namespace Token

/-- Whether a token of a variant stands for a token of the text, or for a joint between two lines. -/
structure Varies (V : Variant) (t u : Token) : Prop where
  kind : u.kind = t.kind
  field : V.Field t.text u.text
  nonempty : t.isWhitespace = false → t.text ≠ []
  solid : t.isWhitespace = false → u.text = Text.withBreaks V.lineBreak t.text

variable {V : Variant} {ts us : List Token} {t u : Token}

theorem Varies.isWhitespace (h : t.Varies V u) : u.isWhitespace = t.isWhitespace := by
  rw [Token.isWhitespace, h.kind, Token.isWhitespace]

theorem field_join (h : List.Forall₂ (Varies V) ts us) : V.Field (join ts) (join us) := by
  induction h with
  | nil => exact V.field_nil
  | cons ht _ ih => exact V.field_append ht.field ih

theorem join_eq_withBreaks (h : List.Forall₂ (Varies V) ts us)
    (hsolid : ∀ t ∈ ts, t.isWhitespace = false) :
    join us = Text.withBreaks V.lineBreak (join ts) := by
  induction h with
  | nil => rfl
  | cons ht _ ih =>
    obtain ⟨hhead, htail⟩ := List.forall_mem_cons.1 hsolid
    rw [join_cons, join_cons, Text.withBreaks_append, ht.solid hhead, ih htail]

theorem varies_splitLeading (h : List.Forall₂ (Varies V) ts us) :
    List.Forall₂ (Varies V) (splitLeading ts).1 (splitLeading us).1 ∧
      List.Forall₂ (Varies V) (splitLeading ts).2 (splitLeading us).2 :=
  ⟨forall₂_takeWhile h Varies.isWhitespace, forall₂_dropWhile h Varies.isWhitespace⟩

theorem varies_splitTrailing (h : List.Forall₂ (Varies V) ts us) :
    List.Forall₂ (Varies V) (splitTrailing ts).1 (splitTrailing us).1 ∧
      List.Forall₂ (Varies V) (splitTrailing ts).2 (splitTrailing us).2 :=
  ⟨List.rel_reverse (forall₂_dropWhile (List.rel_reverse h) Varies.isWhitespace),
    List.rel_reverse (forall₂_takeWhile (List.rel_reverse h) Varies.isWhitespace)⟩

theorem varies_bare (h : List.Forall₂ (Varies V) ts us) :
    List.Forall₂ (Varies V) (bare ts) (bare us) :=
  List.rel_filter (fun _ _ ht => by simp [ht.kind]) h

/-! ### Where tokens stand -/

/-- Whether a token at its place varies in a variant and, if it is not whitespace, its ends stand
there for where they stand in the text. -/
structure VariesAt (V : Variant) (x y : Place × Token) : Prop extends x.2.Varies V y.2 where
  start : x.2.isWhitespace = false → V.Stands x.1.toPosition y.1.toPosition
  stop : x.2.isWhitespace = false →
    V.Stands (x.1.toPosition.last x.2.text.trimEnd) (y.1.toPosition.last y.2.text.trimEnd)

theorem map_placed (p : Place) (ts : List Token) : (placed p ts).map Prod.snd = ts := by
  induction ts generalizing p with
  | nil => rfl
  | cons t ts ih => rw [placed, List.map_cons, ih]

theorem length_placed (p : Place) (ts : List Token) : (placed p ts).length = ts.length := by
  rw [← List.length_map Prod.snd, map_placed]

variable {p q : Place}

theorem varies_of_placed (h : List.Forall₂ (VariesAt V) (placed p ts) (placed q us)) :
    List.Forall₂ (Varies V) ts us := by
  have hmap : List.Forall₂ (Varies V) ((placed p ts).map Prod.snd) ((placed q us).map Prod.snd) :=
    List.forall₂_map_left_iff.2 (List.forall₂_map_right_iff.2 (h.imp fun _ _ hx => hx.toVaries))
  rwa [map_placed, map_placed] at hmap

theorem placed_split {R : Place × Token → Place × Token → Prop} {ts' us' : List Token}
    (h : List.Forall₂ R (placed p (ts ++ ts')) (placed q (us ++ us')))
    (hlength : ts.length = us.length) : List.Forall₂ R (placed p ts) (placed q us) ∧
      List.Forall₂ R (placed (p.after (join ts)) ts') (placed (q.after (join us)) us') := by
  rw [placed_append, placed_append] at h
  have htake := List.forall₂_take (placed p ts).length h
  have hdrop := List.forall₂_drop (placed p ts).length h
  rw [List.take_left, length_placed, hlength, ← length_placed q us, List.take_left] at htake
  rw [List.drop_left, length_placed, hlength, ← length_placed q us, List.drop_left] at hdrop
  exact ⟨htake, hdrop⟩

theorem varies_locate? {f : TokenKind → Bool}
    (h : List.Forall₂ (VariesAt V) (placed p ts) (placed q us)) :
    Option.Rel (VariesAt V) (locate? (fun t => f t.kind) p ts) (locate? (fun t => f t.kind) q us) :=
  forall₂_find? h fun hx => congrArg f hx.kind

theorem stands_contentEnd (h : List.Forall₂ (VariesAt V) (placed p ts) (placed q us))
    (hink : ∃ t ∈ ts, t.isWhitespace = false) : V.Stands (contentEnd p ts) (contentEnd q us) := by
  have hvaries := varies_of_placed h
  have hink' : ∃ u ∈ us, u.isWhitespace = false := by
    obtain ⟨t, ht, hw⟩ := hink
    obtain ⟨u, hu, htu⟩ := exists_mem_of_forall₂ hvaries.flip ht
    exact ⟨u, hu, by rw [htu.isWhitespace, hw]⟩
  obtain ⟨front, t, hts, hw⟩ := exists_splitTrailing hink
  obtain ⟨front', u, hus, -⟩ := exists_splitTrailing hink'
  have hlength := (varies_splitTrailing hvaries).1.length_eq
  rw [hts, hus, List.length_append, List.length_append] at hlength
  have hsplit := splitTrailing_append ts
  have hsplit' := splitTrailing_append us
  rw [hts, List.append_assoc] at hsplit
  rw [hus, List.append_assoc] at hsplit'
  rw [← hsplit, ← hsplit'] at h
  cases (placed_split h (Nat.add_right_cancel hlength)).2 with
  | cons ht _ =>
    rw [contentEnd_eq hts, contentEnd_eq hus]
    exact ht.stop hw

/-! ### Fields -/

theorem isWhitespace_of_isComment (h : t.kind.isComment = true) : t.isWhitespace = false := by
  unfold isWhitespace
  cases hk : t.kind <;> simp_all [TokenKind.isComment, TokenKind.isWhitespace]

/-- A text that is as long without its comments has none. -/
theorem bare_eq_self_of_length (hne : ∀ t ∈ ts, t.kind.isComment = true → t.text ≠ [])
    (h : (join ts).length ≤ (join (bare ts)).length) : bare ts = ts := by
  induction ts with
  | nil => rfl
  | cons t ts ih =>
    obtain ⟨ht, hts⟩ := List.forall_mem_cons.1 hne
    cases hc : t.kind.isComment with
    | true =>
      have hsub : (join (bare ts)).Sublist (join ts) := List.filter_sublist.flatMap text
      have hle := hsub.length_le
      have hpos := List.length_pos_iff.2 (ht hc)
      rw [bare_comment hc, join_cons, List.length_append] at h
      omega
    | false =>
      rw [bare_cons hc, join_cons, join_cons, List.length_append, List.length_append] at h
      rw [bare_cons hc, ih hts (Nat.le_of_add_le_add_left h)]

theorem length_trim_le (t : Text) : t.trim.length ≤ t.length := by
  have := congrArg List.length (Text.trimParts_append t)
  simp only [List.length_append, Text.trimParts] at this
  omega

/-- A field is the text that it was read from if there are no comments and no outer blanks. -/
theorem join_eq_clean_iff (hne : ∀ t ∈ ts, t.kind.isComment = true → t.text ≠ []) :
    join ts = (clean ts).1 ↔ bare ts = ts ∧ (join ts).Trimmed := by
  have hclean : (clean ts).1 = (join (bare ts)).trim := rfl
  rw [hclean]
  constructor
  · intro h
    refine ⟨bare_eq_self_of_length hne ?_, h ▸ Text.trimmed_trim _⟩
    rw [h]
    exact length_trim_le _
  · rintro ⟨hbare, htrim⟩
    rw [hbare, Text.trim_eq_self_iff.2 htrim]

theorem comments_nonempty (h : List.Forall₂ (Varies V) ts us) :
    (∀ t ∈ ts, t.kind.isComment = true → t.text ≠ []) ∧
      ∀ u ∈ us, u.kind.isComment = true → u.text ≠ [] := by
  constructor
  · intro t ht hc
    obtain ⟨u, -, htu⟩ := exists_mem_of_forall₂ h.flip ht
    exact htu.nonempty (isWhitespace_of_isComment hc)
  · intro u hu hc
    obtain ⟨t, -, htu⟩ := exists_mem_of_forall₂ h hu
    have hw : t.isWhitespace = false := htu.isWhitespace ▸ isWhitespace_of_isComment hc
    rw [htu.solid hw]
    exact mt (Text.withBreaks_eq_nil V.spells).1 (htu.nonempty hw)

theorem bare_eq_self_iff (h : List.Forall₂ (Varies V) ts us) : bare us = us ↔ bare ts = ts := by
  have hts : (bare ts).Sublist ts := List.filter_sublist
  have hus : (bare us).Sublist us := List.filter_sublist
  rw [← hts.length_eq, ← hus.length_eq, ← h.length_eq, ← (varies_bare h).length_eq]

end Token

/-- Whether the literal text of a field in a variant stands for that of a field of the text. -/
structure Literal.Varies (V : Variant) (l m : Literal) : Prop where
  value : V.Field l.value m.value
  text : V.Field l.text m.text

theorem Token.varies_clean {V : Variant} {ts us : List Token} (h : List.Forall₂ (Varies V) ts us) :
    V.Field (clean ts).1 (clean us).1 ∧
      Option.Rel (Literal.Varies V) (clean ts).2 (clean us).2 := by
  have hfield : V.Field (clean ts).1 (clean us).1 := V.field_trim (field_join (varies_bare h))
  refine ⟨hfield, ?_⟩
  have hiff : join us = (clean us).1 ↔ join ts = (clean ts).1 := by
    obtain ⟨hne, hne'⟩ := comments_nonempty h
    rw [join_eq_clean_iff hne, join_eq_clean_iff hne', bare_eq_self_iff h,
      V.trimmed_iff (field_join h)]
  by_cases heq : join ts = (clean ts).1
  · have hts : (clean ts).2 = none := if_pos heq
    have hus : (clean us).2 = none := if_pos (hiff.2 heq)
    rw [hts, hus]
    exact .none
  · have hts : (clean ts).2 = some ⟨(clean ts).1, join ts⟩ := if_neg heq
    have hus : (clean us).2 = some ⟨(clean us).1, join us⟩ := if_neg (mt hiff.1 heq)
    rw [hts, hus]
    exact .some ⟨hfield, field_join h⟩

end OffsideCss
