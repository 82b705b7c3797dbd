import OffsideCss.Proofs.VariantNode

/-! Reading a variant.  The indentation machine takes the same steps in a variant, with the widths
of the variant, so its statements are appended to the same nodes as those of the text.  From one
step this follows for a whole text. -/

namespace OffsideCss

open Token (scan)

/-! ### Indentations -/

namespace Variant

variable {V : Variant} {t : Text} {c : Char}

theorem indent_cons_eq (V : Variant) (c : Char) (t : Text) :
    ∃ rest, V.indent (c :: t) = V.style c :: rest := by
  obtain ⟨n, hn⟩ := Nat.exists_eq_succ_of_ne_zero (Nat.ne_of_gt V.factor_pos)
  exact ⟨List.replicate n (V.style c) ++ V.indent t, by
    rw [indent_cons, hn, List.replicate_succ, List.cons_append]⟩

theorem style_eq_iff (hc : V.Indents c) {d : Char} (hd : V.Indents d) :
    V.style c = V.style d ↔ c = d :=
  ⟨V.style_inj hc hd, congrArg V.style⟩

theorem dropWhile_indent (hc : V.Indents c) (ht : ∀ d ∈ t, V.Indents d) :
    (V.indent t).dropWhile (· = V.style c) = V.indent (t.dropWhile (· = c)) := by
  induction t with
  | nil => rfl
  | cons d t ih =>
    obtain ⟨hd, ht⟩ := List.forall_mem_cons.1 ht
    by_cases hdc : d = c
    · rw [indent_cons, List.dropWhile_append_of_pos (by simp [hdc]), ih ht,
        List.dropWhile_cons_of_pos (by simp [hdc])]
    · obtain ⟨rest, hrest⟩ := V.indent_cons_eq d t
      rw [List.dropWhile_cons_of_neg (by simp [hdc]), hrest,
        List.dropWhile_cons_of_neg (by simp [style_eq_iff hd hc, hdc])]

theorem takeWhile_indent (hc : V.Indents c) (ht : ∀ d ∈ t, V.Indents d) :
    (V.indent t).takeWhile (· = V.style c) = V.indent (t.takeWhile (· = c)) := by
  induction t with
  | nil => rfl
  | cons d t ih =>
    obtain ⟨hd, ht⟩ := List.forall_mem_cons.1 ht
    by_cases hdc : d = c
    · rw [indent_cons, List.takeWhile_append_of_pos (by simp [hdc]), ih ht,
        List.takeWhile_cons_of_pos (by simp [hdc]), indent_cons]
    · obtain ⟨rest, hrest⟩ := V.indent_cons_eq d t
      rw [List.takeWhile_cons_of_neg (by simp [hdc]), hrest,
        List.takeWhile_cons_of_neg (by simp [style_eq_iff hd hc, hdc]), indent_nil]

end Variant

/-! ### The indentation machine -/

/-- A level that is as wide as in a variant. -/
def Level.widen (V : Variant) (l : Level) : Level := { l with width := V.factor * l.width }

/-- The machine of a variant. -/
def Indentation.widen (V : Variant) (m : Indentation) : Indentation where
  innermost := m.innermost.widen V
  outer := m.outer.map (Level.widen V)
  unit := m.unit.map (V.factor * ·)
  style := m.style.map V.style
  started := m.started

/-- Whether a fault in an indentation of a variant stands for one in the text. -/
structure IndentFault.Varies (V : Variant) (indent : Text) (f g : IndentFault) : Prop where
  cause : g.cause = f.cause.scale V.factor
  before : g.before = V.indent f.before
  front : ∃ back, indent = f.before ++ back

namespace Indentation

variable {V : Variant} {m m' : Indentation} {indent : Text}

/-- Whether a machine of a variant stands for one of the text, which indents with characters of the
text. -/
structure Varies (V : Variant) (m m' : Indentation) : Prop where
  widen : m' = m.widen V
  indents : ∀ c ∈ m.style, V.Indents c

theorem alike_checkStyle (h : m.Varies V m') (hi : ∀ c ∈ indent, V.Indents c) :
    Alike (IndentFault.Varies V indent) (Varies V) (m.checkStyle indent)
      (m'.checkStyle (V.indent indent)) := by
  obtain ⟨rfl, hm⟩ := h
  cases indent with
  | nil => exact .ok ⟨rfl, hm⟩
  | cons c indent =>
    obtain ⟨rest, hrest⟩ := V.indent_cons_eq c indent
    have hstyle : V.Indents (m.style.getD c) := by
      cases hs : m.style with
      | none => exact hi c List.mem_cons_self
      | some d => exact hm d hs
    have hstyle' : (m.widen V).style.getD (V.style c) = V.style (m.style.getD c) := by
      rw [widen]
      cases m.style <;> rfl
    have hdrop := Variant.dropWhile_indent hstyle hi
    have htake := Variant.takeWhile_indent hstyle hi
    rw [hrest] at hdrop htake
    rw [hrest]
    simp only [checkStyle, hstyle', hdrop, htake]
    cases hd : (c :: indent).dropWhile (· = m.style.getD c) with
    | nil => exact .ok ⟨rfl, by simpa using hstyle⟩
    | cons d back =>
      obtain ⟨back', hback⟩ := V.indent_cons_eq d back
      rw [hback]
      refine .error ⟨rfl, rfl, d :: back, ?_⟩
      rw [← hd, List.takeWhile_append_dropWhile]

theorem closeTo_widen (V : Variant) (width closed : Nat) (level : Level) (outer : List Level) :
    closeTo (V.factor * width) (V.factor * closed) (level.widen V) (outer.map (Level.widen V)) =
      ((closeTo width closed level outer).1.widen V,
        (closeTo width closed level outer).2.1.map (Level.widen V),
        V.factor * (closeTo width closed level outer).2.2) := by
  induction outer generalizing closed level with
  | nil => rfl
  | cons next outer ih =>
    have hle : (level.widen V).width ≤ V.factor * width ↔ level.width ≤ width :=
      Nat.mul_le_mul_left_iff V.factor_pos
    rw [List.map_cons, closeTo, closeTo]
    by_cases h : level.width ≤ width
    · rw [if_pos (hle.2 h), if_pos h, List.map_cons]
    · rw [if_neg (mt hle.1 h), if_neg h]
      exact ih _ _

theorem unit_widen (V : Variant) (m : Indentation) :
    (m.widen V).unit = m.unit.map (V.factor * ·) := rfl

theorem getD_map (n k : Nat) (unit : Option Nat) :
    (unit.map (n * ·)).getD (n * k) = n * unit.getD k := by
  cases unit <;> rfl

/-- A line of a variant makes the machine take the step that the line of the text makes it take. -/
theorem alike_enter (h : m.Varies V m') (hi : ∀ c ∈ indent, V.Indents c) :
    Alike (IndentFault.Varies V indent) (fun x y => x.1 = y.1 ∧ x.2.Varies V y.2)
      (m.enter indent) (m'.enter (V.indent indent)) := by
  have hstarted : m'.started = m.started := by rw [h.widen, widen]
  have hwidth : (V.indent indent).length = 0 ↔ indent.length = 0 := by
    rw [V.length_indent, Nat.mul_eq_zero, or_iff_right (Nat.ne_of_gt V.factor_pos)]
  have hfront : ∃ back, indent = [] ++ back := ⟨indent, rfl⟩
  simp only [enter, hstarted]
  by_cases hs : m.started = true
  · simp only [hs, Bool.not_true, Bool.false_eq_true, if_false]
    have hcheck := alike_checkStyle h hi
    generalize m.checkStyle indent = x at hcheck ⊢
    generalize m'.checkStyle (V.indent indent) = y at hcheck ⊢
    cases hcheck with
    | error hfault => exact .error hfault
    | @ok m₁ m₂ h₁ =>
      obtain ⟨rfl, hm⟩ := h₁
      have hinner : (m₁.widen V).innermost.width = V.factor * m₁.innermost.width := rfl
      have hclose : closeTo _ _ (m₁.widen V).innermost (m₁.widen V).outer = _ :=
        closeTo_widen V indent.length m₁.innermost.width m₁.innermost m₁.outer
      simp only [hinner, V.length_indent, ← Nat.mul_sub, Nat.mul_lt_mul_left V.factor_pos,
        Nat.mul_right_inj (Nat.ne_of_gt V.factor_pos), unit_widen, getD_map, Option.isNone_map]
      by_cases hlt : m₁.innermost.width < indent.length
      · simp only [hlt, if_true]
        by_cases hunit : indent.length - m₁.innermost.width =
            m₁.unit.getD (indent.length - m₁.innermost.width)
        · rw [if_pos hunit, if_pos hunit]
          exact .ok ⟨rfl, rfl, hm⟩
        · rw [if_neg hunit, if_neg hunit]
          exact .error ⟨by simp [Cause.scale, ExpectedIndent.scale, Nat.mul_add], rfl, hfront⟩
      · simp only [hlt, if_false]
        by_cases heq : indent.length = m₁.innermost.width
        · rw [if_pos heq, if_pos heq]
          exact .ok ⟨rfl, rfl, hm⟩
        · rw [if_neg heq, if_neg heq, hclose]
          rcases closeTo indent.length m₁.innermost.width m₁.innermost m₁.outer with
            ⟨level, outer, closed⟩
          have hlevel : (level.widen V).width = V.factor * level.width := rfl
          simp only [hlevel, Nat.mul_right_inj (Nat.ne_of_gt V.factor_pos)]
          by_cases hback : level.width = indent.length
          · rw [if_pos hback, if_pos hback]
            exact .ok ⟨rfl, rfl, hm⟩
          · rw [if_neg hback, if_neg hback]
            exact .error ⟨rfl, rfl, hfront⟩
  · simp only [hs, Bool.not_false, if_true]
    by_cases hw : indent.length = 0
    · rw [if_pos hw, if_pos (hwidth.2 hw)]
      obtain ⟨rfl, hm⟩ := h
      exact .ok ⟨rfl, rfl, hm⟩
    · rw [if_neg hw, if_neg (mt hwidth.1 hw)]
      exact .error ⟨rfl, rfl, hfront⟩

end Indentation

/-! ### Drafts -/

/-- Whether an entry of a variant stands for one of the text. -/
structure Entry.Varies (V : Variant) (e f : Entry) : Prop where
  node : e.node.Varies V f.node
  parent : f.parent = e.parent
  children : f.children = e.children

/-- Whether a sheet read from a variant has the nodes of one read from the text. -/
structure Sheet.Varies (V : Variant) (s t : Sheet) : Prop where
  entries : List.Forall₂ (Entry.Varies V) s.entries t.entries
  top : t.top = s.top
  after : V.Gap s.after t.after
  indent : t.indent = s.indent.map V.indent
  indents : ∀ indent ∈ s.indent, ∀ c ∈ indent, V.Indents c

variable {V : Variant}

theorem Item.Varies.kind {i j : Item} (h : i.Varies V j) : j.kind = i.kind := by
  cases h <;> rfl

namespace Sheet

variable {s t : Sheet}

theorem Varies.size (h : s.Varies V t) : t.size = s.size := h.entries.length_eq.symm

theorem Varies.entry? (h : s.Varies V t) (id : NodeId) :
    Option.Rel (Entry.Varies V) (s.entry? id) (t.entry? id) :=
  forall₂_getElem? h.entries id

theorem Varies.lastChild? (h : s.Varies V t) (parent : Option NodeId) :
    t.lastChild? parent = s.lastChild? parent := by
  cases parent with
  | none => rw [Sheet.lastChild?, children?, h.top, Sheet.lastChild?, children?]
  | some id =>
    rw [Sheet.lastChild?, children?, Sheet.lastChild?, children?]
    rcases rel_cases (h.entry? id) with ⟨hs, ht⟩ | ⟨e, f, hs, ht, hef⟩
    · rw [hs, ht]
    · rw [hs, ht, Option.map_some, Option.map_some, hef.children]

theorem Varies.isContainer (h : s.Varies V t) (id : NodeId) :
    t.isContainer id = s.isContainer id := by
  rw [Sheet.isContainer, Sheet.isContainer]
  rcases rel_cases (h.entry? id) with ⟨hs, ht⟩ | ⟨e, f, hs, ht, hef⟩
  · rw [hs, ht]
  · rw [hs, ht, Option.any_some, Option.any_some, hef.node.item.kind]

theorem Varies.append (h : s.Varies V t) (parent : Option NodeId) {n m : Node} (hn : n.Varies V m) :
    Alike (· = ·) (Varies V) (s.append parent (.detached n)) (t.append parent (.detached m)) := by
  have hnew : Entry.Varies V ⟨n, parent, []⟩ ⟨m, parent, []⟩ := ⟨hn, rfl, rfl⟩
  unfold Sheet.append
  rw [h.size]
  cases parent with
  | none =>
    refine .ok ⟨List.rel_append h.entries (.cons hnew .nil), ?_, h.after, h.indent, h.indents⟩
    rw [h.top]
  | some id =>
    rcases rel_cases (h.entry? id) with ⟨hs, ht⟩ | ⟨e, f, hs, ht, hef⟩
    · simp only [hs, ht]
      exact .error rfl
    · simp only [hs, ht, hef.node.item.kind]
      split
      · refine .ok ⟨List.rel_append (forall₂_set h.entries id ?_) (.cons hnew .nil), h.top, h.after,
          h.indent, h.indents⟩
        exact ⟨hef.node, hef.parent, by rw [hef.children]⟩
      · exact .error rfl

end Sheet

namespace Draft

variable {d d' : Draft}

/-- Whether a draft of a variant has read what stands for the statements that one of the text has
read. -/
structure Varies (V : Variant) (d d' : Draft) : Prop where
  sheet : d.sheet.Varies V d'.sheet
  indentation : d.indentation.Varies V d'.indentation

theorem Varies.empty (V : Variant) : Varies V {} {} :=
  ⟨⟨.nil, rfl, V.gap_nil, rfl, by simp⟩, by rw [Indentation.widen]; rfl, by simp⟩

theorem Varies.container (h : d.Varies V d') :
    d'.indentation.innermost.container = d.indentation.innermost.container := by
  rw [h.indentation.widen]
  rfl

theorem Varies.owner (h : d.Varies V d') : d'.owner = d.owner := by
  rw [Draft.owner, h.container, h.sheet.lastChild?, Draft.owner]
  cases d.sheet.lastChild? d.indentation.innermost.container with
  | none => rfl
  | some last => simp only [h.sheet.isContainer]

theorem alike_enter (h : d.Varies V d') {l k : Line} (hl : l.Varies V k) :
    Alike (Fault.Varies V) (Varies V) (d.enter l) (d'.enter k) := by
  have henter := Indentation.alike_enter h.indentation hl.indents
  rw [← hl.indent] at henter
  unfold Draft.enter
  generalize d.indentation.enter l.indent = x at henter ⊢
  generalize d'.indentation.enter k.indent = y at henter ⊢
  cases henter with
  | error hfault =>
    obtain ⟨back, hback⟩ := hfault.front
    refine .error ⟨hfault.cause, ?_⟩
    rw [hfault.before]
    exact hl.stands _ back hback
  | @ok x y hxy =>
    obtain ⟨shift, m⟩ := x
    obtain ⟨shift', m'⟩ := y
    obtain ⟨rfl, hm⟩ : shift = shift' ∧ m.Varies V m' := hxy
    cases shift with
    | same => exact .ok ⟨h.sheet, hm⟩
    | shallower => exact .ok ⟨h.sheet, hm⟩
    | deeper first =>
      have hopen :
          (m.openLevel ⟨l.width, d.owner⟩).Varies V (m'.openLevel ⟨k.width, d'.owner⟩) := by
        obtain ⟨rfl, hindents⟩ := hm
        refine ⟨?_, hindents⟩
        rw [h.owner, Line.width, hl.indent, V.length_indent]
        rfl
      refine .ok ⟨?_, hopen⟩
      cases first with
      | false => exact h.sheet
      | true =>
        exact ⟨h.sheet.entries, h.sheet.top, h.sheet.after, congrArg some hl.indent,
          by simpa using hl.indents⟩

/-- A statement of a variant adds the node that stands for the one that the statement of the text
adds. -/
theorem alike_add (h : d.Varies V d') {s t : Statement} (hs : s.Varies V t) :
    Alike (Fault.Varies V) (Varies V) (d.add s) (d'.add t) := by
  refine (alike_enter h hs.first).bind fun d₁ d₁' h₁ => ?_
  refine (Statement.alike_node hs).bind fun n m hn => ?_
  rw [h₁.container]
  have happend := h₁.sheet.append d₁.indentation.innermost.container hn
  generalize d₁.sheet.append d₁.indentation.innermost.container (.detached n) = x at happend ⊢
  generalize d₁'.sheet.append d₁.indentation.innermost.container (.detached m) = y at happend ⊢
  cases happend with
  | error he => exact .error ⟨by rw [he]; rfl, hs.stands_place⟩
  | ok hsheet => exact .ok ⟨hsheet, h₁.indentation⟩

end Draft

/-! ### Sheets -/

namespace Sheet

/-- Where the last character of a text stands that is not blank. -/
def stop? (source : Text) : Option Position :=
  if source.trimEnd = [] then none else some (Position.first.last source.trimEnd)

/-- Whether a sheet read from a variant stands for one read from the text, and both know where they were
read. -/
structure VariesRead (V : Variant) (name : String) (source source' : Text) (s t : Sheet) : Prop
    extends Varies V s t where
  origin : s.origin = some ⟨name, .first, stop? source⟩
  origin' : t.origin = some ⟨name, .first, stop? source'⟩

/-- A variant of a text is read as a variant of the sheet that the text is read as. -/
theorem alike_read (name : String) {source source' : Text}
    (h : Alike (Fault.Varies V) (fun x y => List.Forall₂ (Statement.Varies V) (Statement.group x.1)
        (Statement.group y.1) ∧ V.Gap x.2 y.2)
      (Line.ofTokens (scan source)) (Line.ofTokens (scan source'))) :
    Alike (Fault.Varies V) (VariesRead V name source source') (read name source)
      (read name source') := by
  refine h.bind fun x y hxy => ?_
  refine (Alike.foldlM (R := Statement.Varies V) (fun _ _ _ _ hd hs => Draft.alike_add hd hs) hxy.1
    (Draft.Varies.empty V)).bind fun d d' hd => .ok ⟨?_, rfl, rfl⟩
  exact ⟨hd.sheet.entries, hd.sheet.top, hxy.2, hd.sheet.indent, hd.sheet.indents⟩

end Sheet

end OffsideCss
