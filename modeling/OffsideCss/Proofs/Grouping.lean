import OffsideCss.Proofs.ListFacts
import OffsideCss.Statement

/-! Grouping lines into statements.  The statements of a text are the only ones that hold its lines
in order, of which each has the kind its first line calls for, goes on with every line in it, and
does not go on with the line behind it.  Where the lines stand plays no part. -/

namespace OffsideCss

namespace Statement

/-- Whether each line of a statement continues the lines before it. -/
def Continued (s : Statement) : Prop :=
  ∀ pre l post, s.more = pre ++ l :: post → { s with more := pre }.continuesWith l = true

/-- Whether statements are what their lines are grouped into. -/
inductive Grouped : List Statement → Prop
  | nil : Grouped []
  | cons {s : Statement} {ss : List Statement} :
      s.kind = s.first.kind (s.more ++ ss.flatMap lines) → s.Continued →
      (∀ next ∈ (ss.flatMap lines).head?, s.continuesWith next = false) →
      Grouped ss → Grouped (s :: ss)

theorem Continued.concat {s : Statement} {l : Line} (h : s.Continued)
    (hl : s.continuesWith l = true) : { s with more := s.more ++ [l] }.Continued := by
  intro pre k post hpost
  rcases List.eq_nil_or_concat post with rfl | ⟨post, last, rfl⟩
  · obtain ⟨rfl, hk⟩ := List.append_inj' hpost rfl
    obtain rfl : l = k := List.head_eq_of_cons_eq hk
    exact hl
  · rw [List.concat_eq_append, ← List.cons_append, ← List.append_assoc] at hpost
    exact h pre k post (List.append_inj' hpost rfl).1

theorem grouped_groupFrom {current : Statement} {ls : List Line}
    (hkind : current.kind = current.first.kind (current.more ++ ls)) (h : current.Continued) :
    Grouped (groupFrom current ls) := by
  induction ls generalizing current with
  | nil =>
    rw [groupFrom]
    exact .cons hkind h (by simp) .nil
  | cons next rest ih =>
    rw [groupFrom]
    split
    · next hnext => exact ih (by simpa using hkind) (h.concat hnext)
    · next hnext =>
      have hlines := flatMap_lines_groupFrom ⟨next.kind rest, next, []⟩ rest
      rw [lines, List.cons_append, List.nil_append] at hlines
      refine .cons (by rw [hlines, hkind]) h ?_ (ih (by simp) (by simp [Continued]))
      rw [hlines]
      simpa using hnext

theorem groupFrom_more {s : Statement} {pre post : List Line} (rest : List Line)
    (h : s.Continued) (hs : s.more = pre ++ post) :
    groupFrom { s with more := pre } (post ++ rest) = groupFrom s rest := by
  induction post generalizing pre with
  | nil =>
    obtain rfl : s.more = pre := by simpa using hs
    rfl
  | cons l post ih =>
    rw [List.cons_append, groupFrom, if_pos (h pre l post hs)]
    exact ih (by simp [hs])

theorem groupFrom_first {s : Statement} (rest : List Line) (h : s.Continued) :
    groupFrom ⟨s.kind, s.first, []⟩ (s.more ++ rest) = groupFrom s rest :=
  groupFrom_more rest h rfl

/-- The statements of lines are the only ones that are grouped so. -/
theorem group_eq_iff {ls : List Line} {ss : List Statement} :
    group ls = ss ↔ ls = ss.flatMap lines ∧ Grouped ss := by
  constructor
  · rintro rfl
    refine ⟨(flatMap_lines_group ls).symm, ?_⟩
    cases ls with
    | nil => exact .nil
    | cons first rest => exact grouped_groupFrom rfl (by simp [Continued])
  · rintro ⟨rfl, h⟩
    induction h with
    | nil => rfl
    | @cons s ss hkind hs hnext h ih =>
      rw [List.flatMap_cons, lines, List.cons_append, group, ← hkind]
      rw [groupFrom_first _ hs]
      cases ss with
      | nil => rfl
      | cons t ss =>
        rw [List.flatMap_cons, lines, List.cons_append] at ih hnext ⊢
        rw [groupFrom, if_neg (by simpa using hnext), ← ih, group]

theorem Grouped.of_mem {ss : List Statement} (h : Grouped ss) {s : Statement} (hs : s ∈ ss) :
    (∃ following, s.kind = s.first.kind following) ∧ s.Continued := by
  induction h with
  | nil => simp at hs
  | cons hkind hcont _ _ ih =>
    rcases List.mem_cons.1 hs with rfl | hs
    · exact ⟨⟨_, hkind⟩, hcont⟩
    · exact ih hs

theorem Continued.more_eq_nil {s : Statement} (h : s.Continued) (hk : s.kind = .comment) :
    s.more = [] := by
  cases hm : s.more with
  | nil => rfl
  | cons l rest => simpa [continuesWith, hk] using h [] l rest hm

end Statement

/-! ### Lines that group alike -/

/-- Tokens of the same kinds have the separating colon at the same place. -/
theorem Token.splitSeparator?_rel {R : Token → Token → Prop} (hR : ∀ {t u}, R t u → u.kind = t.kind)
    {ts us : List Token} (h : List.Forall₂ R ts us) (depth : Nat) :
    Option.Rel (fun x y => List.Forall₂ R x.1 y.1 ∧ R x.2.1 y.2.1 ∧ List.Forall₂ R x.2.2 y.2.2)
      (splitSeparator? depth ts) (splitSeparator? depth us) := by
  induction h generalizing depth with
  | nil => exact .none
  | @cons t u ts us ht hts ih =>
    have hnext : us.head?.all isWhitespace = ts.head?.all isWhitespace := by
      cases hts with
      | nil => rfl
      | cons h _ => simp [isWhitespace, hR h]
    rw [splitSeparator?, splitSeparator?, hR ht, hnext]
    split
    · exact .some ⟨.nil, ht, hts⟩
    · have hrest := ih (t.kind.nesting depth)
      generalize splitSeparator? (t.kind.nesting depth) ts = x at hrest ⊢
      generalize splitSeparator? (t.kind.nesting depth) us = y at hrest ⊢
      cases hrest with
      | none => exact .none
      | some hparts => exact .some ⟨.cons ht hparts.1, hparts.2⟩

namespace Line

/-- Whether two lines have tokens of the same kinds, and the second one is `n` times as wide. -/
structure Kin (n : Nat) (l k : Line) : Prop where
  width : k.width = n * l.width
  kinds : k.tokens.map (·.kind) = l.tokens.map (·.kind)

variable {l k : Line} {n : Nat}

theorem Kin.head (h : l.Kin n k) : k.head.kind = l.head.kind := (List.cons.inj h.kinds).1

theorem Kin.isComment (h : l.Kin n k) : k.isComment = l.isComment := by
  have hall := congrArg (List.all · (· = .space)) (List.cons.inj h.kinds).2
  simp only [List.all_map, Function.comp_def] at hall
  rw [Line.isComment, h.head, hall, Line.isComment]

theorem Kin.isAtRule (h : l.Kin n k) : k.isAtRule = l.isAtRule := by
  rw [Line.isAtRule, h.head, Line.isAtRule]

theorem Kin.hasColon (h : l.Kin n k) : k.hasColon = l.hasColon := by
  have hkinds : List.Forall₂ (fun t u : Token => u.kind = t.kind) l.tokens k.tokens := by
    have heq := List.forall₂_eq_eq_eq.symm ▸ h.kinds
    exact (List.forall₂_map_left_iff.1 (List.forall₂_map_right_iff.1 heq)).flip
  have hrel := Token.splitSeparator?_rel id hkinds 0
  rw [Line.hasColon, Line.hasColon]
  generalize Token.splitSeparator? 0 l.tokens = x at hrel ⊢
  generalize Token.splitSeparator? 0 k.tokens = y at hrel ⊢
  cases hrel <;> rfl

theorem Kin.isPlain (h : l.Kin n k) : k.isPlain = l.isPlain := by
  rw [Line.isPlain, h.isComment, h.isAtRule, h.hasColon, Line.isPlain]

theorem Kin.endsWithComma (h : l.Kin n k) : k.endsWithComma = l.endsWithComma := by
  have hlast := congrArg (fun kinds => (kinds.reverse.find? (!·.isTrivia)).any (· = .comma)) h.kinds
  simp only [← List.map_reverse, List.find?_map, Option.any_map, Function.comp_def] at hlast
  rw [Line.endsWithComma, hlast, Line.endsWithComma]

theorem Kin.nestsDeclaration (h : l.Kin n k) (hn : 0 < n) {ls ks : List Line}
    (hs : List.Forall₂ (Kin n) ls ks) : k.nestsDeclaration ks = l.nestsDeclaration ls := by
  induction hs with
  | nil => rfl
  | cons hl _ ih =>
    simp only [Line.nestsDeclaration, List.find?_cons, hl.isComment] at ih ⊢
    split
    · simp [hl.isAtRule, hl.hasColon, h.width, hl.width, Nat.mul_lt_mul_left hn]
    · exact ih

theorem Kin.kind (h : l.Kin n k) (hn : 0 < n) {ls ks : List Line}
    (hs : List.Forall₂ (Kin n) ls ks) : k.kind ks = l.kind ls := by
  rw [Line.kind, h.isComment, h.isAtRule, h.hasColon, h.nestsDeclaration hn hs, Line.kind]

/-- Whether two lines have the same tokens and widths. -/
structure Like (l k : Line) : Prop where
  width : l.width = k.width
  head : l.head = k.head
  tail : l.tail = k.tail

theorem Like.kin (h : l.Like k) : l.Kin 1 k := by
  refine ⟨by rw [Nat.one_mul, h.width], ?_⟩
  rw [Line.tokens, ← h.head, ← h.tail, Line.tokens]

end Line

namespace Statement

/-- Whether two statements have the same kind and, line by line, tokens of the same kinds and the
second one the widths of the first one times `n`. -/
structure Kin (n : Nat) (s t : Statement) : Prop where
  kind : t.kind = s.kind
  first : s.first.Kin n t.first
  more : List.Forall₂ (Line.Kin n) s.more t.more

theorem forall₂_getLast {n : Nat} {ls ks : List Line} (h : List.Forall₂ (Line.Kin n) ls ks)
    {l k : Line} (hlk : l.Kin n k) : (ls.getLast?.getD l).Kin n (ks.getLast?.getD k) := by
  induction h generalizing l k with
  | nil => exact hlk
  | cons h _ ih => simpa [List.getLast?_cons] using ih h

theorem Kin.continuesWith {n : Nat} {s t : Statement} (h : s.Kin n t) (hn : 0 < n) {l k : Line}
    (hl : l.Kin n k) : t.continuesWith k = s.continuesWith l := by
  have hlast : t.lastLine.endsWithComma = s.lastLine.endsWithComma :=
    (forall₂_getLast h.more h.first).endsWithComma
  simp only [Statement.continuesWith, h.kind, hlast, h.first.width, hl.width, hl.isPlain,
    Nat.mul_lt_mul_left hn, Nat.mul_right_inj (Nat.ne_of_gt hn)]

/-- Whether two statements have the same kind and, line by line, the same tokens and widths. -/
structure Like (s t : Statement) : Prop where
  kind : s.kind = t.kind
  first : s.first.Like t.first
  more : List.Forall₂ Line.Like s.more t.more

theorem Like.kin {s t : Statement} (h : s.Like t) : s.Kin 1 t :=
  ⟨h.kind.symm, h.first.kin, h.more.imp fun _ _ hl => hl.kin⟩

theorem Like.continuesWith {s t : Statement} (h : s.Like t) {l k : Line} (hl : l.Like k) :
    s.continuesWith l = t.continuesWith k :=
  (h.kin.continuesWith Nat.one_pos hl.kin).symm

theorem forall₂_head? {ls ks : List Line} (h : List.Forall₂ Line.Like ls ks) {k : Line}
    (hk : k ∈ ks.head?) : ∃ l ∈ ls.head?, l.Like k := by
  cases h with
  | nil => simp at hk
  | cons h _ =>
    obtain rfl : _ = k := by simpa using hk
    exact ⟨_, rfl, h⟩

theorem forall₂_lines {ss ts : List Statement} (h : List.Forall₂ Like ss ts) :
    List.Forall₂ Line.Like (ss.flatMap lines) (ts.flatMap lines) := by
  induction h with
  | nil => exact .nil
  | cons h _ ih => exact List.rel_append (.cons h.first h.more) ih

theorem Like.continued {s t : Statement} (h : s.Like t) (hs : s.Continued) : t.Continued := by
  intro pre k post hpost
  have hmore := hpost ▸ h.more
  obtain ⟨l, rest, hl, -, hdrop⟩ :=
    List.forall₂_cons_right_iff.1 (List.forall₂_drop_append _ _ _ hmore)
  have hpre : Like { s with more := s.more.take pre.length } { t with more := pre } :=
    ⟨h.kind, h.first, List.forall₂_take_append _ _ _ hmore⟩
  rw [← hpre.continuesWith hl]
  exact hs _ l rest (by rw [← hdrop, List.take_append_drop])

/-- Statements that are alike are grouped alike. -/
theorem Grouped.congr {ss ts : List Statement} (hs : List.Forall₂ Like ss ts) (h : Grouped ss) :
    Grouped ts := by
  induction h generalizing ts with
  | nil =>
    cases hs
    exact .nil
  | cons hkind hcont hnext _ ih =>
    cases hs with
    | cons hst hs =>
      have hlines := forall₂_lines hs
      refine .cons ?_ (hst.continued hcont) ?_ (ih hs)
      · rw [← hst.kind, hkind]
        refine (hst.first.kin.kind Nat.one_pos ?_).symm
        exact (List.rel_append hst.more hlines).imp fun _ _ hl => hl.kin
      · intro k hk
        obtain ⟨l, hl, hlk⟩ := forall₂_head? hlines hk
        rw [← hst.continuesWith hlk]
        exact hnext l hl

end Statement

end OffsideCss
