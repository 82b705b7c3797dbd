import Mathlib.Algebra.GroupWithZero.Nat
import OffsideCss.Proofs.OwnText
import OffsideCss.Proofs.Relayout

/-! Alignment.  When parts are laid out, and the statements that are read there have the same ink one by
one, then each statement takes up the own text of its part, no more and no less. -/

namespace OffsideCss

open Token (join scan)

namespace Text

/-- Whether a text has ink, and line breaks before it in the whitespace that it begins with only. -/
def Late (t : Text) : Prop := ∃ white rest, t = white ++ rest ∧ white.IsWhite ∧ rest.Opens

variable {t u v w : Text}

theorem Solid.not_isWhite_append (h : u.Solid) (t : Text) : ¬IsWhite (t ++ u) := by
  obtain ⟨c, rest, rfl, hc⟩ := h
  intro hwhite
  have := hwhite c (by simp)
  rw [hc] at this
  cases this

/-- The whitespace that a text begins with ends in one place. -/
theorem Solid.append_inj (ht : t.IsWhite) (hv : v.IsWhite) (hu : u.Solid) (hw : w.Solid)
    (h : t ++ u = v ++ w) : t = v ∧ u = w := by
  obtain ⟨c, rest, rfl, hc⟩ := hu
  obtain ⟨d, rest', rfl, hd⟩ := hw
  have htake := congrArg (List.takeWhile isWhite) h
  rw [List.takeWhile_append_of_pos ht, List.takeWhile_append_of_pos hv,
    List.takeWhile_cons_of_neg (by simp [hc]), List.takeWhile_cons_of_neg (by simp [hd]),
    List.append_nil, List.append_nil] at htake
  subst htake
  exact ⟨rfl, List.append_cancel_left h⟩

theorem Opens.append (h : t.Opens) (u : Text) : Opens (t ++ u) := by
  obtain ⟨front, c, rest, rfl, hc, hfront⟩ := h
  exact ⟨front, c, rest ++ u, by simp, hc, hfront⟩

theorem Opens.isBreak_eq_false (h : Opens (t ++ u)) (ht : t.ink = []) :
    ∀ d ∈ t, isBreak d = false := by
  obtain ⟨front, c, rest, heq, hc, hfront⟩ := h
  rcases List.append_eq_append_iff.1 heq with ⟨mid, rfl, -⟩ | ⟨mid, rfl, hmid⟩
  · exact fun d hd => hfront d (List.mem_append_left _ hd)
  · cases mid with
    | nil => simpa using hfront
    | cons d mid =>
      obtain ⟨rfl, -⟩ := List.cons.inj hmid
      have := ink_eq_nil.1 ht c (by simp)
      rw [hc] at this
      cases this

theorem Broken.not_opens (h : u.Broken) (ht : t.ink = []) : ¬Opens (t ++ u) := by
  obtain ⟨c, rest, rfl, hc⟩ := h
  intro hopens
  have hbreak : isBreak c = true := by simpa [isBreak] using hc
  have hink : ink (t ++ [c]) = [] := by
    rw [ink_append, ht]
    exact ink_eq_nil.2 (by simp [isBlank_of_isBreak hbreak])
  rw [← List.singleton_append, ← List.append_assoc] at hopens
  have := hopens.isBreak_eq_false hink c (by simp)
  rw [hbreak] at this
  cases this

/-- What begins with no whitespace in a late text, and ends before a line break, has ink. -/
theorem Late.ink_ne_nil (h : Late (t ++ (u ++ v))) (ht : t.ink = []) (hu : u.Solid)
    (hv : v.Broken) : u.ink ≠ [] := by
  obtain ⟨white, rest, heq, hwhite, hopens⟩ := h
  intro hink
  rcases List.append_eq_append_iff.1 heq with ⟨mid, rfl, hmid⟩ | ⟨mid, rfl, rfl⟩
  · cases mid with
    | nil =>
      rw [List.nil_append] at hmid
      exact hv.not_opens hink (hmid ▸ hopens)
    | cons d mid =>
      obtain ⟨c, tail, rfl, hc⟩ := hu
      obtain ⟨rfl, -⟩ := List.cons.inj hmid
      have := hwhite c (by simp)
      rw [hc] at this
      cases this
  · rw [← List.append_assoc] at hopens
    refine hv.not_opens ?_ hopens
    rw [ink_append] at ht ⊢
    rw [(List.append_eq_nil_iff.1 ht).2, hink]
    rfl

end Text

/-! ### Statements of a text -/

theorem Line.Lays.solid {t : Text} {ls : List Line} {after : Text} (h : Lays t ls after) :
    ∀ l ∈ ls, l.head.text.Solid := by
  obtain ⟨placed, hplaced, rfl⟩ := h
  intro l hl
  obtain ⟨k, hk, rfl⟩ := List.mem_map.1 hl
  have hmem := (tokens_isInfix_scan hplaced hk).subset List.mem_cons_self
  have hhead : k.head.isWhitespace = false := head_of_ofTokens hplaced hk
  exact Token.solid_of_spells (Token.spells_of_mem_scan hmem) hhead

namespace Statement

/-- A statement without the line break before it. -/
def ungapped (s : Statement) : Statement := { s with first := { s.first with gap := [] } }

/-- A statement without the whitespace before it. -/
def alone (s : Statement) : Statement := { s with first := { s.first with gap := [], indent := [] } }

variable {s : Statement} {ss : List Statement} {t after : Text}

theorem text_of_lays (h : Line.Lays t ((s :: ss).flatMap lines) after) :
    t = s.first.lead ++ (join s.tokens ++ ((ss.flatMap lines).flatMap Line.text ++ after)) := by
  rw [h.text_eq, List.flatMap_cons, List.flatMap_append, ← lead_append_join]
  simp only [List.append_assoc]

theorem solid_of_lays (h : Line.Lays t ((s :: ss).flatMap lines) after) :
    (join s.tokens).Solid := by
  rw [tokens, Token.join_cons]
  exact (h.solid s.first (by simp [lines])).append _

theorem isWhite_lead_of_lays (h : Line.Lays t ((s :: ss).flatMap lines) after) :
    s.first.lead.IsWhite :=
  h.isWhite.1 s.first (by simp [lines])

theorem broken_of_lays {next : Statement}
    (h : Line.Lays t ((s :: next :: ss).flatMap lines) after) : next.first.gap.Broken :=
  Line.Lays.broken (l := s.first) (by simpa [lines] using h) next.first (by simp)

end Statement

/-! ### Parts and their statements -/

namespace Part

/-- Whether a part can take up as much of a text as a statement: in a text that begins with both, they
have the same ink. -/
structure Fits (p : Part) (s : Statement) : Prop where
  framed : p.own.Framed
  ink : ∀ {t u : Text}, p.own.ink ++ t = (join s.tokens).ink ++ u → p.own.ink = (join s.tokens).ink
  statement : p.statement = s.alone

variable {unit ending : Text} {p q : Part} {parts : List Part} {s : Statement} {ss : List Statement}

theorem Fits.ungapped (h : p.Fits s) : p.Fits s.ungapped :=
  ⟨h.framed, h.ink, h.statement⟩

theorem isWhite_of_blanks (hunit : ∀ c ∈ unit, c = ' ' ∨ c = '\t') : unit.IsWhite :=
  Text.isWhite_of_spacing fun c hc => isSpacing_of_blank (hunit c hc)

theorem isWhite_times (hunit : unit.IsWhite) (n : Nat) : (unit.times n).IsWhite :=
  fun c hc => hunit c (mem_times hc)

theorem exists_layOut_cons (unit ending : Text) (p : Part) (parts : List Part) :
    ∃ tail, layOut unit ending (p :: parts) = unit.times p.depth ++ (p.own ++ tail) := by
  cases parts with
  | nil => exact ⟨ending, rfl⟩
  | cons q parts => exact ⟨['\n'] ++ layOut unit ending (q :: parts), by simp [layOut]⟩

theorem isWhite_or_late_layOut (hunit : unit.IsWhite) (h : ∀ p ∈ parts, p.own.Framed) :
    (layOut unit ['\n'] parts).IsWhite ∨ (layOut unit ['\n'] parts).Late := by
  have hbreak : Text.IsWhite ['\n'] := by simp [Text.IsWhite, isWhite]
  induction parts with
  | nil => exact .inl hbreak
  | cons p parts ih =>
    obtain ⟨hp, hparts⟩ := List.forall_mem_cons.1 h
    have htimes := isWhite_times hunit p.depth
    cases parts with
    | nil =>
      rw [layOut]
      rcases hp.opens with hown | hown
      · rw [hown]
        exact .inl (htimes.append hbreak)
      · exact .inr ⟨_, _, rfl, htimes, hown.append _⟩
    | cons q parts =>
      rw [layOut, List.append_assoc]
      rcases hp.opens with hown | hown
      · rw [hown, List.nil_append, ← List.append_assoc]
        rcases ih hparts with hrest | ⟨white, rest, hrest, hwhite, hopens⟩
        · exact .inl ((htimes.append hbreak).append hrest)
        · exact .inr ⟨unit.times p.depth ++ ['\n'] ++ white, rest, by simp [hrest],
            (htimes.append hbreak).append hwhite, hopens⟩
      · exact .inr ⟨_, _, rfl, htimes, (hown.append _).append _⟩

/-- A part has a text of its own when its statement is read behind blanks. -/
theorem own_ne_nil {t u after : Text} (hunit : unit.IsWhite)
    (h : List.Forall₂ Fits (p :: parts) (s :: ss))
    (hlayOut : layOut unit ['\n'] (p :: parts) = t ++ u) (ht : t.ink = [])
    (hu : Line.Lays u ((s :: ss).flatMap Statement.lines) after) : p.own ≠ [] := by
  intro hown
  obtain ⟨hp, hparts⟩ := List.forall₂_cons.1 h
  have hframed : ∀ q ∈ p :: parts, q.own.Framed :=
    ((List.forall₂_and_left _ _).1 (h.imp fun _ _ hq => ⟨hq.framed, hq⟩)).1
  have htext := Statement.text_of_lays hu
  have hsolid := Statement.solid_of_lays hu
  have hlead := Statement.isWhite_lead_of_lays hu
  have hnot : ¬(layOut unit ['\n'] (p :: parts)).IsWhite := by
    rw [hlayOut, htext, ← List.append_assoc]
    exact (hsolid.append _).not_isWhite_append _
  have hlate := (isWhite_or_late_layOut hunit hframed).resolve_left hnot
  cases hparts with
  | nil =>
    refine hnot ?_
    rw [layOut, hown]
    exact (isWhite_times hunit _).append (by simp [Text.IsWhite, isWhite])
  | @cons q next parts ss hq _ =>
    have hbroken := Statement.broken_of_lays hu
    rw [hlayOut, htext, ← List.append_assoc] at hlate
    have hink := hlate.ink_ne_nil (by rw [Text.ink_append, ht, hlead.ink_eq_nil]; rfl) hsolid <| by
      simpa [Statement.lines, Line.text, Line.lead] using hbroken.append _
    have heq := congrArg Text.ink (hlayOut.trans (congrArg (t ++ ·) htext))
    simp only [layOut, Text.ink_append, ht, hlead.ink_eq_nil, List.append_assoc,
      Text.ink_times hunit.ink_eq_nil, List.nil_append] at heq
    rw [← hp.ink heq, hown] at hink
    exact hink rfl

theorem isBreak_times (hunit : ∀ c ∈ unit, c = ' ' ∨ c = '\t') (n : Nat) :
    ∀ c ∈ unit.times n, isBreak c = false := by
  intro c hc
  rcases hunit c (mem_times hc) with rfl | rfl <;> decide

theorem opens_layOut (hunit : ∀ c ∈ unit, c = ' ' ∨ c = '\t') (h : p.own.Opens) :
    (layOut unit ending (p :: parts)).Opens := by
  obtain ⟨tail, htail⟩ := exists_layOut_cons unit ending p parts
  obtain ⟨front, c, rest, hown, hc, hfront⟩ := h
  exact ⟨unit.times p.depth ++ front, c, rest ++ tail, by simp [htail, hown], hc,
    List.forall_mem_append.2 ⟨isBreak_times hunit _, hfront⟩⟩

/-- The own text of a part, which a line break follows, is where its statement ends. -/
theorem Fits.exists_eq {front back tail : Text} (h : p.Fits s) (hback : back.Broken)
    (heq : p.own ++ front = join s.tokens ++ back ++ tail) :
    ∃ more, join s.tokens = p.own ++ more ∧ front = more ++ back ++ tail ∧ more.ink = [] := by
  have hink : p.own.ink = (join s.tokens).ink := by
    have := congrArg Text.ink heq
    rw [List.append_assoc, Text.ink_append, Text.ink_append] at this
    exact h.ink this
  rw [List.append_assoc] at heq
  rcases List.append_eq_append_iff.1 heq with ⟨more, htokens, hfront⟩ | ⟨more, hown, htail⟩
  · refine ⟨more, htokens, by rw [hfront, List.append_assoc], ?_⟩
    rw [htokens, Text.ink_append] at hink
    exact List.self_eq_append_right.1 hink
  · have hmore : Text.ink more = [] := by
      rw [hown, Text.ink_append] at hink
      exact List.append_right_eq_self.1 hink
    have hbreaks := h.framed.closes _ _ hown hmore
    obtain ⟨c, rest, rfl, hc⟩ := hback
    cases more with
    | nil => exact ⟨[], by simpa using hown.symm, by simpa using htail.symm, rfl⟩
    | cons d more =>
      obtain ⟨rfl, -⟩ := List.cons.inj htail
      exact absurd (hbreaks c (by simp)) (by simp [isBreak]; tauto)

theorem front_eq_nil {front tail : Text} (hunit : ∀ c ∈ unit, c = ' ' ∨ c = '\t') (h : p.own.Opens)
    (hlayOut : layOut unit ending (p :: parts) = front ++ tail) (hink : front.ink = [])
    (hlast : ∀ c ∈ front.getLast?, c = '\n') : front = [] := by
  have hopens : (layOut unit ending (p :: parts)).Opens := opens_layOut hunit h
  rw [hlayOut] at hopens
  rcases List.eq_nil_or_concat front with rfl | ⟨body, c, rfl⟩
  · rfl
  · have hbreak := hopens.isBreak_eq_false hink c (by simp)
    simp [hlast c (by simp), isBreak] at hbreak

/-- What stands between the own text of a part and the next statement is one line break. -/
theorem Fits.gap_eq {next : Statement} {v after : Text} (hunit : ∀ c ∈ unit, c = ' ' ∨ c = '\t')
    (h : p.Fits s) (hrest : List.Forall₂ Fits (q :: parts) (next :: ss))
    (hgap : next.first.gap.IsWhite) (hbroken : next.first.gap.Broken)
    (hlast : next.first.gap.getLast? = some '\n')
    (hv : Line.Lays v ((next.ungapped :: ss).flatMap Statement.lines) after)
    (hrow : p.own ++ '\n' :: layOut unit ['\n'] (q :: parts) =
      join s.tokens ++ next.first.gap ++ v) :
    q.own ≠ [] ∧ join s.tokens = p.own ∧ next.first.gap = ['\n'] ∧
      layOut unit ['\n'] (q :: parts) = v := by
  obtain ⟨hq, hparts⟩ := List.forall₂_cons.1 hrest
  obtain ⟨more, htokens, hbreak, hmore⟩ := h.exists_eq hbroken hrow
  have hne : next.first.gap ≠ [] := by
    rintro hnil
    simp [hnil] at hlast
  obtain ⟨c, front, hfront⟩ :=
    List.exists_cons_of_ne_nil (List.append_ne_nil_of_right_ne_nil more hne)
  rw [hfront, List.cons_append, List.cons.injEq] at hbreak
  obtain ⟨rfl, hlayOut⟩ := hbreak
  have hink : Text.ink front = [] := by
    have hall : Text.ink ('\n' :: front) = [] := by
      rw [← hfront, Text.ink_append, hmore, hgap.ink_eq_nil]
      rfl
    exact Text.ink_eq_nil.2 fun d hd => Text.ink_eq_nil.1 hall d (List.mem_cons_of_mem _ hd)
  have hown := own_ne_nil (isWhite_of_blanks hunit) (.cons hq.ungapped hparts) hlayOut hink hv
  obtain rfl := front_eq_nil hunit (hq.framed.opens.resolve_left hown) hlayOut hink fun d hd => by
    have hend := congrArg List.getLast? hfront
    rw [List.getLast?_append, hlast, List.getLast?_cons, Option.mem_def.1 hd] at hend
    simpa using hend.symm
  obtain ⟨rfl, hbreak⟩ : more = [] ∧ next.first.gap = ['\n'] :=
    (List.append_eq_singleton_iff.1 hfront).resolve_right fun hright => hne hright.2
  exact ⟨hown, by rw [htokens, List.append_nil], hbreak, hlayOut⟩

/-- The first of several statements takes up what is laid out for the first part. -/
theorem Fits.split {next : Statement} {after : Text} (hunit : ∀ c ∈ unit, c = ' ' ∨ c = '\t')
    (h : p.Fits s) (hrest : List.Forall₂ Fits (q :: parts) (next :: ss)) (hown : p.own ≠ [])
    (hlays : Line.Lays (layOut unit ['\n'] (p :: q :: parts))
      ((s :: next :: ss).flatMap Statement.lines) after) :
    s.first.lead = unit.times p.depth ∧ q.own ≠ [] ∧
      Line.Lays (unit.times p.depth ++ (p.own ++ ['\n'])) s.lines ['\n'] ∧
      Line.EndsRow 0 (scan (unit.times p.depth ++ (p.own ++ ['\n']))) ∧
      Line.Lays (layOut unit ['\n'] (q :: parts))
        ((next.ungapped :: ss).flatMap Statement.lines) after := by
  have hbroken := Statement.broken_of_lays hlays
  have hwhite : next.first.gap.IsWhite :=
    (List.forall_mem_append.1 (hlays.isWhite.1 next.first (by simp [Statement.lines]))).1
  have hsolid := Statement.solid_of_lays hlays
  have hlines : Line.Lays (layOut unit ['\n'] (p :: q :: parts))
      (s.lines ++ next.first :: (next.more ++ ss.flatMap Statement.lines)) after := by
    simpa [Statement.lines] using hlays
  obtain ⟨u, v, huv, -, hends, hu, hv⟩ := hlines.split
  have hu' : u = s.first.lead ++ (join s.tokens ++ next.first.gap) := by
    rw [hu.text_eq, ← Statement.lead_append_join, List.append_assoc]
  have hends' : Line.EndsRow 0 (scan u) := hends.resolve_left fun hnil => by
    obtain ⟨c, rest, hc, -⟩ := hsolid
    simp [hu', hc] at hnil
  have hlast : next.first.gap.getLast? = some '\n' := by
    obtain ⟨c, rest, hc, -⟩ := hbroken
    have := hends'.getLast?_eq
    rw [hu', ← List.append_assoc, List.getLast?_append_of_ne_nil _ (by simp [hc])] at this
    exact this
  -- what stands before the own text and before the tokens is whitespace
  have hcut : unit.times p.depth ++ (p.own ++ '\n' :: layOut unit ['\n'] (q :: parts)) =
      s.first.lead ++ (join s.tokens ++ next.first.gap ++ v) := by
    rw [hu', layOut] at huv
    simpa using huv
  obtain ⟨htimes, hrow⟩ := Text.Solid.append_inj (isWhite_times (isWhite_of_blanks hunit) _)
    (Statement.isWhite_lead_of_lays hlays) ((h.framed.solid hown).append _)
    ((hsolid.append _).append _) hcut
  have hv' : Line.Lays v ((next.ungapped :: ss).flatMap Statement.lines) after := by
    simpa [Statement.lines, Statement.ungapped] using hv
  obtain ⟨hne, htokens, hgap, hlayOut⟩ := h.gap_eq hunit hrest hwhite hbroken hlast hv' hrow
  rw [hgap] at hu hu'
  rw [← htimes, htokens] at hu'
  exact ⟨htimes.symm, hne, hu' ▸ hu, hu' ▸ hends', hlayOut ▸ hv'⟩

theorem Fits.like (h : p.Fits s) (hindent : s.first.indent = unit.times p.depth) :
    s.Like (p.indented unit []) := by
  rw [indented, h.statement]
  refine ⟨rfl, ⟨?_, rfl, rfl⟩, List.forall₂_same.2 fun l _ => ⟨rfl, rfl, rfl⟩⟩
  rw [Line.width, Line.width, hindent]

theorem Fits.stands {tail after : Text} (h : p.Fits s) (hgap : s.first.gap = [])
    (hindent : s.first.indent = unit.times p.depth)
    (hlays : Line.Lays (unit.times p.depth ++ (p.own ++ tail)) s.lines after) :
    p.Stands tail after := by
  obtain ⟨v, hv, -, hlays'⟩ := Line.Lays.unindent hlays hgap
  rw [hindent] at hv
  have hlines : p.statement.lines = { s.first with indent := [] } :: s.more := by
    rw [h.statement, Statement.alone, Statement.lines, ← hgap]
  refine ⟨?_, by rw [h.statement]; rfl, by rw [h.statement]; rfl⟩
  rw [hlines, List.append_cancel_left hv]
  exact hlays'

theorem Stands.getLast?_eq (hunit : ∀ c ∈ unit, c = ' ' ∨ c = '\t') {gap : Text}
    (h : p.Stands ['\n'] gap) (hframed : p.own.Framed)
    (hends : Line.EndsRow 0 (scan (unit.times p.depth ++ (p.own ++ ['\n'])))) :
    (scan (p.own ++ ['\n'])).getLast? = some ⟨.lineBreak, ['\n']⟩ := by
  obtain ⟨body, ⟨kind, text⟩, hbody, hk, -⟩ := hends
  obtain rfl : kind = .lineBreak := hk
  have hlast : (scan (p.own ++ ['\n'])).getLast? = some ⟨.lineBreak, text⟩ := by
    rw [← h.getLast?_scan hunit, hbody, List.getLast?_concat]
  obtain ⟨body, hbody⟩ := List.getLast?_eq_some_iff.1 hlast
  have hspells := Token.spells_of_mem_scan (t := p.own ++ ['\n']) (hbody ▸ List.mem_concat_self)
  obtain htext | htext : text = ['\n'] ∨ text = ['\r', '\n'] := hspells
  · rw [hlast, htext]
  · have hjoin := Token.join_scan (p.own ++ ['\n'])
    rw [hbody, Token.join_append, htext] at hjoin
    have hown : p.own = join body ++ ['\r'] := by
      have := congrArg List.dropLast hjoin
      simpa using this.symm
    exact absurd (hframed.closes _ _ hown (by decide) '\r' (by simp)) (by decide)

theorem times_eq_lead {after : Text} (hunit : unit.IsWhite) (h : p.own.Framed) (hown : p.own ≠ [])
    (hlays : Line.Lays (layOut unit ending (p :: parts)) ((s :: ss).flatMap Statement.lines) after) :
    unit.times p.depth = s.first.lead := by
  obtain ⟨tail, htail⟩ := exists_layOut_cons unit ending p parts
  exact (Text.Solid.append_inj (isWhite_times hunit p.depth) (Statement.isWhite_lead_of_lays hlays)
    ((h.solid hown).append tail) ((Statement.solid_of_lays hlays).append _)
    (htail.symm.trans (Statement.text_of_lays hlays))).1

theorem stand_of_lays_ungapped {after : Text} (hunit : ∀ c ∈ unit, c = ' ' ∨ c = '\t')
    (h : List.Forall₂ Fits (p :: parts) (s :: ss)) (hgap : s.first.gap = []) (hown : p.own ≠ [])
    (hlays : Line.Lays (layOut unit ['\n'] (p :: parts)) ((s :: ss).flatMap Statement.lines) after) :
    Stand ['\n'] (p :: parts) ∧
      List.Forall₂ (fun p s => s.Like (p.indented unit [])) (p :: parts) (s :: ss) := by
  induction parts generalizing p s ss with
  | nil =>
    obtain ⟨hp, ⟨⟩⟩ := List.forall₂_cons.1 h
    have hlead := times_eq_lead (isWhite_of_blanks hunit) hp.framed hown hlays
    have hindent : s.first.indent = unit.times p.depth := by
      rw [hlead, Line.lead, hgap, List.nil_append]
    rw [List.flatMap_singleton] at hlays
    exact ⟨.last (hp.stands hgap hindent hlays), .cons (hp.like hindent) .nil⟩
  | cons q parts ih =>
    obtain ⟨hp, hparts⟩ := List.forall₂_cons.1 h
    obtain ⟨next, ss, hq, hrest, rfl⟩ := List.forall₂_cons_left_iff.1 hparts
    obtain ⟨hlead, hne, hfirst, hends, hbehind⟩ := hp.split hunit hparts hown hlays
    have hindent : s.first.indent = unit.times p.depth := by
      rw [← hlead, Line.lead, hgap, List.nil_append]
    have hstands := hp.stands hgap hindent hfirst
    obtain ⟨hstand, hlikes⟩ := ih (.cons hq.ungapped hrest) rfl hne hbehind
    obtain ⟨⟨hkind, ⟨hwidth, hhead, htail⟩, hmore⟩, hlikes⟩ := List.forall₂_cons.1 hlikes
    exact ⟨.cons hstands (hstands.getLast?_eq hunit hp.framed hends) hstand,
      .cons (hp.like hindent) (.cons ⟨hkind, ⟨hwidth, hhead, htail⟩, hmore⟩ hlikes)⟩

/-- Parts take up what their statements take up, where they are laid out from depth zero on. -/
theorem stand_of_lays {after : Text} (hunit : ∀ c ∈ unit, c = ' ' ∨ c = '\t')
    (h : List.Forall₂ Fits (p :: parts) ss) (hdepth : p.depth = 0)
    (hlays : Line.Lays (layOut unit ['\n'] (p :: parts)) (ss.flatMap Statement.lines) after) :
    Stand ['\n'] (p :: parts) ∧
      List.Forall₂ (fun p s => s.Like (p.indented unit [])) (p :: parts) ss := by
  obtain ⟨s, ss, hp, -, rfl⟩ := List.forall₂_cons_left_iff.1 h
  have hwhite := isWhite_of_blanks hunit
  have hown := own_ne_nil (t := []) hwhite h rfl rfl hlays
  have hlead := times_eq_lead hwhite hp.framed hown hlays
  rw [hdepth] at hlead
  exact stand_of_lays_ungapped hunit h (List.append_eq_nil_iff.1 hlead.symm).1 hown hlays

/-! ### Weights -/

theorem weight_layOut (hunit : unit.IsWhite) :
    (layOut unit ['\n'] parts).weight = (parts.map fun p => p.own.weight).sum := by
  have htimes : ∀ n, (unit.times n).weight = 0 := fun n => (isWhite_times hunit n).weight_eq_zero
  have hbreak : Text.weight ['\n'] = 0 := by decide
  induction parts with
  | nil => exact hbreak
  | cons p parts ih =>
    cases parts with
    | nil => simp [layOut, htimes, hbreak]
    | cons q parts =>
      rw [layOut, Text.weight_append, ih]
      simp [htimes, hbreak]

end Part

theorem Statement.weight_of_lays {ss : List Statement} {t after : Text}
    (h : Line.Lays t (ss.flatMap lines) after) :
    t.weight = (ss.map fun s => (join s.tokens).weight).sum := by
  have hleads : ∀ s ∈ ss, s.first.lead.IsWhite := fun s hs =>
    h.isWhite.1 s.first (List.mem_flatMap.2 ⟨s, hs, List.mem_cons_self⟩)
  rw [h.text_eq, Text.weight_append, h.isWhite.2.weight_eq_zero, Nat.add_zero]
  clear h
  induction ss with
  | nil => rfl
  | cons s ss ih =>
    obtain ⟨hs, hss⟩ := List.forall_mem_cons.1 hleads
    rw [List.flatMap_cons, List.flatMap_append, Text.weight_append, ← lead_append_join,
      Text.weight_append, hs.weight_eq_zero, Nat.zero_add, List.map_cons, List.sum_cons, ih hss]

/-- Parts fit statements that are no lighter, if they fit those of the same weight and the weights have
the same sum. -/
theorem Part.fits_of_weight {parts : List Part} {ss : List Statement}
    (h : List.Forall₂ (fun p s => p.own.weight ≤ (join s.tokens).weight ∧
      (p.own.weight = (join s.tokens).weight → p.Fits s)) parts ss) :
    (parts.map fun p => p.own.weight).sum ≤ (ss.map fun s => (join s.tokens).weight).sum ∧
      ((parts.map fun p => p.own.weight).sum = (ss.map fun s => (join s.tokens).weight).sum →
        List.Forall₂ Fits parts ss) := by
  induction h with
  | nil => exact ⟨Nat.le_refl _, fun _ => .nil⟩
  | cons hp _ ih =>
    obtain ⟨hle, hfits⟩ := hp
    obtain ⟨hles, hrest⟩ := ih
    simp only [List.map_cons, List.sum_cons]
    exact ⟨by omega, fun hsum => .cons (hfits (by omega)) (hrest (by omega))⟩

end OffsideCss
