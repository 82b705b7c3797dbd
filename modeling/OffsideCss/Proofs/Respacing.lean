import OffsideCss.Proofs.VariantLines

/-! Other whitespace between lines.  Two fields that differ in the whitespace around the line breaks
in them have the same lines once each is trimmed and the empty ones are left out, and all the same
lines if they have as many line breaks. -/

namespace OffsideCss

namespace Text

/-- The lines of a text, each trimmed. -/
def trimLines (t : Text) : List Text := (t.splitOn '\n').map trim

/-- Whether one whitespace may stand for another one between two lines: it has a line feed where the
other one does, and as many if `exact`. -/
structure Blanks (exact : Prop) (g h : Text) : Prop where
  white : g.IsWhite
  white' : h.IsWhite
  lineFeed : '\n' ∈ g → '\n' ∈ h
  count : exact → h.count '\n' = g.count '\n'

/-- Whether two texts differ only in whitespace around line breaks. -/
inductive Respaced (exact : Prop) : Text → Text → Prop
  | nil : Respaced exact [] []
  | cons {t u : Text} (c : Char) : Respaced exact t u → Respaced exact (c :: t) (c :: u)
  | gap {g h t u : Text} : Blanks exact g h → '\n' ∈ g → Respaced exact t u →
      Respaced exact (g ++ t) (h ++ u)

variable {exact : Prop} {g h t u v w : Text}

namespace Blanks

theorem self (hg : g.IsWhite) : Blanks exact g g := ⟨hg, hg, id, fun _ => rfl⟩

theorem append {g' h' : Text} (hgh : Blanks exact g h) (hgh' : Blanks exact g' h') :
    Blanks exact (g ++ g') (h ++ h') where
  white := hgh.white.append hgh'.white
  white' := hgh.white'.append hgh'.white'
  lineFeed hmem := List.mem_append.2 ((List.mem_append.1 hmem).imp hgh.lineFeed hgh'.lineFeed)
  count he := by rw [List.count_append, List.count_append, hgh.count he, hgh'.count he]

theorem reverse (hgh : Blanks exact g h) : Blanks exact g.reverse h.reverse where
  white _ hc := hgh.white _ (List.mem_reverse.1 hc)
  white' _ hc := hgh.white' _ (List.mem_reverse.1 hc)
  lineFeed hmem := List.mem_reverse.2 (hgh.lineFeed (List.mem_reverse.1 hmem))
  count he := by rw [List.count_reverse, List.count_reverse, hgh.count he]

theorem of_spacing (hg : ∀ c ∈ g, isSpacing c = true) (hh : ∀ c ∈ h, isSpacing c = true) :
    Blanks exact g h where
  white := isWhite_of_spacing hg
  white' := isWhite_of_spacing hh
  lineFeed hmem := absurd hmem (lineFeed_not_mem_of_spacing hg)
  count _ := by
    rw [List.count_eq_zero.2 (lineFeed_not_mem_of_spacing hg),
      List.count_eq_zero.2 (lineFeed_not_mem_of_spacing hh)]

end Blanks

namespace Respaced

theorem refl (exact : Prop) (t : Text) : Respaced exact t t := by
  induction t with
  | nil => exact .nil
  | cons c t ih => exact .cons c ih

theorem of_blanks (hgh : Blanks exact g h) (hfeed : '\n' ∈ g) : Respaced exact g h := by
  have := gap hgh hfeed .nil
  rwa [List.append_nil, List.append_nil] at this

theorem append (htu : Respaced exact t u) (hvw : Respaced exact v w) :
    Respaced exact (t ++ v) (u ++ w) := by
  induction htu with
  | nil => exact hvw
  | cons c _ ih => exact .cons c ih
  | gap hgh hfeed _ ih =>
    rw [List.append_assoc, List.append_assoc]
    exact .gap hgh hfeed ih

theorem reverse (h : Respaced exact t u) : Respaced exact t.reverse u.reverse := by
  induction h with
  | nil => exact .nil
  | cons c _ ih =>
    rw [List.reverse_cons, List.reverse_cons]
    exact ih.append (.refl exact [c])
  | gap hgh hfeed _ ih =>
    rw [List.reverse_append, List.reverse_append]
    exact ih.append (.of_blanks hgh.reverse (List.mem_reverse.2 hfeed))

theorem trimStart (h : Respaced exact t u) : Respaced exact t.trimStart u.trimStart := by
  induction h with
  | nil => exact .nil
  | @cons t u c h ih =>
    rw [Text.trimStart, Text.trimStart, List.dropWhile_cons, List.dropWhile_cons]
    split
    · exact ih
    · exact .cons c h
  | gap hgh _ _ ih =>
    have hblank := fun c hc => isBlank_of_isWhite (hgh.white c hc)
    have hblank' := fun c hc => isBlank_of_isWhite (hgh.white' c hc)
    rw [Text.trimStart, Text.trimStart, List.dropWhile_append_of_pos hblank,
      List.dropWhile_append_of_pos hblank']
    exact ih

theorem trim (h : Respaced exact t u) : Respaced exact t.trim u.trim :=
  h.trimStart.reverse.trimStart.reverse

theorem head_iff (h : Respaced exact t u) :
    (∀ c ∈ u.head?, isBlank c = false) ↔ ∀ c ∈ t.head?, isBlank c = false := by
  have hhead : ∀ {g t : Text}, g.IsWhite → '\n' ∈ g →
      ¬∀ c ∈ (g ++ t).head?, isBlank c = false := by
    intro g t hg hfeed hall
    obtain ⟨c, g, rfl⟩ := List.exists_cons_of_ne_nil (List.ne_nil_of_mem hfeed)
    have := hall c rfl
    rw [isBlank_of_isWhite (hg c List.mem_cons_self)] at this
    cases this
  cases h with
  | nil => rfl
  | cons => rfl
  | gap hgh hfeed =>
    exact iff_of_false (hhead hgh.white' (hgh.lineFeed hfeed)) (hhead hgh.white hfeed)

theorem trimmed_iff (h : Respaced exact t u) : u.Trimmed ↔ t.Trimmed := by
  have hlast := h.reverse.head_iff
  rw [List.head?_reverse, List.head?_reverse] at hlast
  exact and_congr h.head_iff hlast

end Respaced

/-! ### Lines -/

theorem trimLines_append (t u : Text) :
    trimLines (t ++ '\n' :: u) = trimLines t ++ trimLines u := by
  rw [trimLines, List.splitOn_append_cons_self, List.map_append, trimLines, trimLines]

theorem trimLines_of_not_mem (h : '\n' ∉ t) : trimLines t = [t.trim] := by
  rw [trimLines, List.splitOn_eq_singleton h, List.map_singleton]

theorem trimLines_cons_blank {c : Char} (hc : isBlank c = true) (hfeed : c ≠ '\n') (t : Text) :
    trimLines (c :: t) = trimLines t := by
  rw [trimLines, List.splitOn_cons_eq_if_modifyHead, if_neg (by simpa using hfeed), trimLines]
  cases ht : t.splitOn '\n' with
  | nil => rfl
  | cons line rest =>
    rw [List.modifyHead_cons, List.map_cons, List.map_cons, Text.trim, Text.trimStart,
      List.dropWhile_cons_of_pos hc]
    rfl

/-- Whitespace before a text puts an empty line before it for each of its line feeds. -/
theorem trimLines_white_append (hg : g.IsWhite) (t : Text) :
    trimLines (g ++ t) = List.replicate (g.count '\n') [] ++ trimLines t := by
  induction g with
  | nil => rfl
  | cons c g ih =>
    obtain ⟨hc, hrest⟩ := List.forall_mem_cons.1 hg
    rw [List.cons_append]
    by_cases hfeed : c = '\n'
    · subst hfeed
      rw [← List.nil_append ('\n' :: (g ++ t)), trimLines_append, ih hrest, List.count_cons_self,
        List.replicate_succ]
      rfl
    · rw [trimLines_cons_blank (isBlank_of_isWhite hc) hfeed, ih hrest,
        List.count_cons_of_ne hfeed]

/-- Whitespace between two lines puts an empty line between them for each line feed but one. -/
theorem trimLines_between (hv : '\n' ∉ v) (hg : g.IsWhite) (hfeed : '\n' ∈ g) (t : Text) :
    trimLines (v ++ (g ++ t)) =
      v.trim :: (List.replicate (g.count '\n' - 1) [] ++ trimLines t) := by
  obtain ⟨a, b, rfl, ha⟩ := List.eq_append_cons_of_mem hfeed
  obtain ⟨hwhite, hbehind⟩ := List.forall_mem_append.1 hg
  have hva : '\n' ∉ v ++ a := by simp [hv, ha]
  have htrim : trim (v ++ a) = trim v := trim_append_of_blank fun c hc =>
    isBlank_of_isWhite (hwhite c hc)
  have hcount : (a ++ '\n' :: b).count '\n' - 1 = b.count '\n' := by
    rw [List.count_append, List.count_eq_zero.2 ha, List.count_cons_self, Nat.zero_add,
      Nat.add_sub_cancel]
  have hassoc : v ++ (a ++ '\n' :: b ++ t) = (v ++ a) ++ '\n' :: (b ++ t) := by simp
  rw [hassoc, trimLines_append, trimLines_of_not_mem hva, htrim,
    trimLines_white_append fun c hc => hbehind c (List.mem_cons_of_mem _ hc), hcount]
  rfl

/-- The lines that are kept of a text are those that are kept of one that differs in whitespace
around line breaks, if empty lines are not kept or are as many. -/
theorem Respaced.filter_trimLines {keep : Text → Bool} (hkeep : exact ∨ keep [] = false)
    (h : Respaced exact t u) : t.trimLines.filter keep = u.trimLines.filter keep := by
  -- What is read of a line before whitespace around its end is a prefix `v` of both texts.
  suffices ∀ v, '\n' ∉ v → (trimLines (v ++ t)).filter keep = (trimLines (v ++ u)).filter keep from
    this [] (by simp)
  induction h with
  | nil => exact fun _ _ => rfl
  | cons c _ ih =>
    intro v hv
    by_cases hc : c = '\n'
    · subst hc
      rw [trimLines_append, trimLines_append, List.filter_append, List.filter_append]
      exact congrArg _ (ih [] (by simp))
    · have := ih (v ++ [c]) (by simp [hv, Ne.symm hc])
      simpa using this
  | gap hgh hfeed _ ih =>
    intro v hv
    rw [trimLines_between hv hgh.white hfeed, trimLines_between hv hgh.white' (hgh.lineFeed hfeed),
      List.filter_cons, List.filter_cons, List.filter_append, List.filter_append]
    have hrest := ih [] (by simp)
    rw [List.nil_append, List.nil_append] at hrest
    rw [hrest]
    rcases hkeep with he | hempty
    · rw [hgh.count he]
    · simp [hempty]

theorem Respaced.fold_eq (h : Respaced exact t u) : t.fold = u.fold :=
  h.filter_trimLines (.inr (by simp))

theorem Respaced.trimLines_eq (h : Respaced exact t u) (he : exact) :
    t.trimLines = u.trimLines := by
  have : t.trimLines.filter (fun _ => true) = u.trimLines.filter (fun _ => true) :=
    h.filter_trimLines (.inl he)
  rwa [List.filter_true, List.filter_true] at this

end Text

/-- The variant of a text with other whitespace between its lines, which are indented by `factor`
characters for each one. -/
def Variant.respaced (exact : Prop) (factor : Nat) (hfactor : 0 < factor) (style : Char → Char)
    (Indents : Char → Prop)
    (hspacing : ∀ c, Indents c → isSpacing c = true ∧ isSpacing (style c) = true)
    (hstyle : ∀ {c d : Char}, Indents c → Indents d → style c = style d → c = d)
    (Stands : Position → Position → Prop) : Variant where
  lineBreak := ['\n']
  spells := .inl rfl
  factor := factor
  factor_pos := hfactor
  style := style
  Indents := Indents
  style_inj := hstyle
  Field := Text.Respaced exact
  field_breaks t := by
    rw [Text.withBreaks_self]
    exact .refl exact t
  field_append := .append
  field_trim := .trim
  trimmed_iff := Text.Respaced.trimmed_iff
  Gap := Text.Blanks exact
  gap_break {t} h := by
    rw [Text.withBreaks_self]
    exact .self (Token.isWhite_of_isWhitespace (t := ⟨.lineBreak, t⟩) h rfl)
  gap_indent {t} h := by
    refine .of_spacing (fun c hc => (hspacing c (h c hc)).1) fun d hd => ?_
    obtain ⟨c, hc, hd⟩ := List.mem_flatMap.1 hd
    rw [List.eq_of_mem_replicate hd]
    exact (hspacing c (h c hc)).2
  gap_append := .append
  field_gap := .of_blanks
  Stands := Stands

namespace Item

/-- The text of an item that is laid out anew. -/
def field : Item → Text
  | atRule a => a.params
  | rule r => r.selector
  | declaration d => d.value
  | comment _ => []

theorem core_eq (i : Item) : i.core = ⟨i.kind, i.core.label, i.field.fold⟩ := by
  cases i <;> rfl

variable {V : Variant} {i j : Item}

theorem Varies.field (h : i.Varies V j) : V.Field i.field j.field := by
  cases h with
  | atRule h => exact h.params
  | rule h => exact h.selector
  | declaration h => exact h.value
  | comment => exact V.field_nil

theorem Varies.label (h : i.Varies V j) (hV : V.lineBreak = ['\n']) :
    j.core.label = i.core.label := by
  cases h with
  | atRule h => exact h.name.trans (by rw [hV, Text.withBreaks_self]; rfl)
  | rule => rfl
  | declaration h => exact h.property.trans (by rw [hV, Text.withBreaks_self]; rfl)
  | comment h => exact h.text.trans (by rw [hV, Text.withBreaks_self]; rfl)

end Item

end OffsideCss
