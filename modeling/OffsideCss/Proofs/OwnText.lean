import OffsideCss.Proofs.Ink

/-! The own text of an item.  In canonical spacing, what is written for an item that was read does not
begin with whitespace, and no line break comes before its first ink or behind its last ink. -/

namespace OffsideCss

open Token (join scan)

/-- The characters that line breaks begin with. -/
def isBreak (c : Char) : Bool := c = '\n' || c = '\r'

namespace Text

/-- Whether a text has ink, and no line break before it. -/
def Opens (t : Text) : Prop :=
  ∃ front c rest, t = front ++ c :: rest ∧ isBlank c = false ∧ ∀ d ∈ front, isBreak d = false

/-- Whether a text neither begins with whitespace nor has line breaks around its ink. -/
structure Framed (t : Text) : Prop where
  head : ∀ c ∈ t.head?, isWhite c = false
  opens : t = [] ∨ t.Opens
  closes : ∀ front back, t = front ++ back → back.ink = [] → ∀ d ∈ back, isBreak d = false

theorem isBlank_of_isBreak {c : Char} (h : isBreak c = true) : isBlank c = true := by
  simp only [isBreak, Bool.or_eq_true, decide_eq_true_eq] at h
  rcases h with rfl | rfl <;> decide

theorem eq_nil_of_ink {t front back : Text} (h : ∀ c ∈ t.getLast?, isBlank c = false)
    (ht : t = front ++ back) (hback : back.ink = []) : back = [] := by
  rcases List.eq_nil_or_concat back with rfl | ⟨back, c, rfl⟩
  · rfl
  · have hc := h c (by simp [ht])
    rw [ink_eq_nil.1 hback c (by simp)] at hc
    cases hc

theorem Framed.solid {t : Text} (h : t.Framed) (hne : t ≠ []) : t.Solid := by
  obtain ⟨c, rest, rfl⟩ := List.exists_cons_of_ne_nil hne
  exact ⟨c, rest, rfl, h.head c rfl⟩

theorem framed_nil : Framed [] where
  head := by simp
  opens := .inl rfl
  closes := by
    rintro front back h - d hd
    rw [(List.append_eq_nil_iff.1 h.symm).2] at hd
    simp at hd

theorem framed_of_ends {c : Char} {rest : Text} (hhead : isBlank c = false)
    (hlast : ∀ d ∈ (c :: rest).getLast?, isBlank d = false) : Framed (c :: rest) where
  head := by
    rintro _ ⟨⟩
    exact isWhite_eq_false hhead
  opens := .inr ⟨[], c, rest, rfl, hhead, by simp⟩
  closes := by
    rintro front back h hback d hd
    rw [eq_nil_of_ink hlast h hback] at hd
    simp at hd

/-! ### Trimmed texts -/

theorem trimEnd_isPrefix (t : Text) : t.trimEnd <+: t := ⟨_, trimEnd_append_blanks t⟩

theorem head_trim (t : Text) : ∀ c ∈ t.trim.head?, isBlank c = false := by
  intro c hc
  obtain ⟨rest, hrest⟩ := trimEnd_isPrefix t.trimStart
  have hhead : t.trimStart.head? = some c := by
    rw [← hrest, show t.trimStart.trimEnd = t.trim from rfl]
    obtain ⟨u, hu⟩ := List.head?_eq_some_iff.1 hc
    simp [hu]
  have := List.head?_dropWhile_not isBlank t
  rw [show t.dropWhile isBlank = t.trimStart from rfl, hhead] at this
  simpa using this

theorem last_trim (t : Text) : ∀ c ∈ t.trim.getLast?, isBlank c = false := by
  intro c hc
  rw [trim, trimEnd, List.getLast?_reverse] at hc
  have := List.head?_dropWhile_not isBlank t.trimStart.reverse
  rw [hc] at this
  simpa using this

end Text

/-! ### Fields that are indented anew -/

namespace Token

theorem isWhitespace_eq_false {t : Token} {c : Char} (h : t.kind.Spells t.text) (ht : c ∈ t.text)
    (hc : isBlank c = false) : t.isWhitespace = false := by
  cases hw : t.isWhitespace with
  | false => rfl
  | true =>
    have := isBlank_of_isWhite (isWhite_of_isWhitespace h hw c ht)
    rw [hc] at this
    cases this

theorem reindentRun_eq_join {indent : Text} {run : List Token} (h : Uniform run) {t : Token}
    (ht : t ∈ run) (hw : t.isWhitespace = false) : reindentRun indent run = join run := by
  rw [reindentRun, if_neg]
  intro hany
  obtain ⟨u, hu, hk⟩ := List.any_eq_true.1 hany
  have := h t ht u hu
  rw [hw, isWhitespace, of_decide_eq_true hk] at this
  cases this

end Token

namespace Text

variable {t : Text}

theorem head?_reindent (indent : Text) (h : ∀ c ∈ t.head?, isBlank c = false) :
    (t.reindent indent).head? = t.head? := by
  rw [reindent]
  split
  · next hmem =>
    obtain ⟨runs, hflatten, heq, hruns⟩ := Token.exists_runs indent (scan t)
    cases runs with
    | nil =>
      rw [← Token.join_scan t, ← hflatten] at hmem
      simp at hmem
    | cons run runs =>
      obtain ⟨hne, huniform⟩ := hruns run List.mem_cons_self
      obtain ⟨tok, run, rfl⟩ := List.exists_cons_of_ne_nil hne
      have htok : tok ∈ scan t := by simp [← hflatten]
      obtain ⟨c, u, hc⟩ := List.exists_cons_of_ne_nil (Token.text_ne_nil_of_mem_scan htok)
      have ht : t = c :: (u ++ join (run ++ runs.flatten)) := by
        rw [← Token.join_scan t, ← hflatten]
        simp [hc]
      have hw := Token.isWhitespace_eq_false (Token.spells_of_mem_scan htok) (c := c) (by simp [hc])
        (h c (by simp [ht]))
      rw [heq, List.flatMap_cons, Token.reindentRun_eq_join huniform List.mem_cons_self hw,
        Token.join_cons, hc, ht]
      rfl
  · rfl

theorem getLast?_reindent (indent : Text) (h : ∀ c ∈ t.getLast?, isBlank c = false) :
    (t.reindent indent).getLast? = t.getLast? := by
  rw [reindent]
  split
  · next hmem =>
    obtain ⟨runs, hflatten, heq, hruns⟩ := Token.exists_runs indent (scan t)
    rcases List.eq_nil_or_concat runs with rfl | ⟨runs, run, rfl⟩
    · rw [← Token.join_scan t, ← hflatten] at hmem
      simp at hmem
    · obtain ⟨hne, huniform⟩ := hruns run (by simp)
      obtain ⟨run, tok, rfl⟩ := (List.eq_nil_or_concat run).resolve_left hne
      have htok : tok ∈ scan t := by simp [← hflatten]
      obtain ⟨u, c, hc⟩ := (List.eq_nil_or_concat tok.text).resolve_left
        (Token.text_ne_nil_of_mem_scan htok)
      have ht : t = join (runs.flatten ++ run) ++ u ++ [c] := by
        rw [← Token.join_scan t, ← hflatten]
        simp [hc]
      have hw := Token.isWhitespace_eq_false (Token.spells_of_mem_scan htok) (c := c) (by simp [hc])
        (h c (by simp [ht]))
      rw [heq, List.concat_eq_append, List.flatMap_append, List.flatMap_singleton,
        Token.reindentRun_eq_join huniform (by simp) hw, ht]
      simp [hc, List.getLast?_append]
  · rfl

end Text

/-! ### Items that were read -/

theorem Text.reindent_nil (indent : Text) : Text.reindent [] indent = [] := by
  simp [Text.reindent]

theorem Text.getLast?_append_reindent {t : Text} (indent : Text) (hne : t ≠ [])
    (h : ∀ c ∈ t.getLast?, isBlank c = false) (front : Text) :
    ∀ c ∈ (front ++ t.reindent indent).getLast?, isBlank c = false := by
  obtain ⟨u, c, hc⟩ := (List.eq_nil_or_concat t).resolve_left hne
  have hlast : (t.reindent indent).getLast? = some c := by
    rw [Text.getLast?_reindent indent h, hc]
    simp
  rw [List.getLast?_append, hlast]
  exact fun d hd => h d (by rw [hc]; simpa using hd)

/-- The characters of a token before its first ink hold no line break. -/
theorem Token.opens {t : Token} (h : t.kind.Spells t.text) (hw : t.isWhitespace = false) :
    t.text.Opens ∨ ∀ d ∈ t.text, isBreak d = false := by
  by_cases hk : t.kind = .word
  · rw [hk] at h
    have hfront : ∀ d ∈ t.text.takeWhile isBlank, isBreak d = false := by
      intro d hd
      obtain ⟨a, b, hab⟩ := List.append_of_mem hd
      have htext : t.text = a ++ d :: (b ++ t.text.dropWhile isBlank) := by
        nth_rewrite 1 [← List.takeWhile_append_dropWhile (p := isBlank) (l := t.text), hab]
        simp
      by_contra hbreak
      have hends : endsWord d = true := by
        simp only [isBreak, Bool.not_eq_false, Bool.or_eq_true, decide_eq_true_eq] at hbreak
        rcases hbreak with rfl | rfl <;> decide
      have hmem : '\\' ∈ t.text.takeWhile isBlank := by
        rw [hab]
        exact List.mem_append_left _ (h.2 a d _ htext hends)
      exact absurd (List.mem_takeWhile_imp hmem) (by decide)
    cases hrest : t.text.dropWhile isBlank with
    | nil =>
      refine .inr fun d hd => hfront d ?_
      rwa [← List.takeWhile_append_dropWhile (p := isBlank) (l := t.text), hrest,
        List.append_nil] at hd
    | cons c rest =>
      refine .inl ⟨_, c, rest, by rw [← hrest, List.takeWhile_append_dropWhile], ?_, hfront⟩
      have := List.head?_dropWhile_not isBlank t.text
      rw [hrest] at this
      simpa using this
  · obtain ⟨c, rest, ht, hc⟩ := exists_not_isBlank h hw hk
    exact .inl ⟨[], c, rest, ht, hc, by simp⟩

theorem Token.opens_join {ts : List Token} (h : ∀ t ∈ ts, t.kind.Spells t.text)
    (hw : ∀ t ∈ ts, t.isWhitespace = false) {c : Char} (hc : isBlank c = false) (tail : Text) :
    Text.Opens (join ts ++ c :: tail) := by
  induction ts with
  | nil => exact ⟨[], c, tail, rfl, hc, by simp⟩
  | cons t ts ih =>
    obtain ⟨ht, hts⟩ := List.forall_mem_cons.1 h
    obtain ⟨ht', hts'⟩ := List.forall_mem_cons.1 hw
    rw [Token.join_cons, List.append_assoc]
    rcases Token.opens ht ht' with ⟨front, d, rest, hd, hblank, hfront⟩ | hbreak
    · exact ⟨front, d, rest ++ (join ts ++ c :: tail), by simp [hd], hblank, hfront⟩
    · obtain ⟨front, d, rest, hd, hblank, hfront⟩ := ih hts hts'
      exact ⟨t.text ++ front, d, rest, by simp [hd], hblank,
        List.forall_mem_append.2 ⟨hbreak, hfront⟩⟩

variable {unit : Text} {depth : Nat}

theorem Comment.framed_write {c : Comment} (h : ∀ d ∈ c.text.getLast?, isBlank d = false) :
    (c.write .canonical).Framed := by
  cases hform : c.form with
  | line =>
    have hwrite : c.write .canonical = '/' :: ('/' :: padding c.text ++ c.text) := by
      simp [Comment.write, hform, Spacing.part]
    rw [hwrite]
    refine Text.framed_of_ends (by decide) ?_
    by_cases htext : c.text = []
    · rw [htext]
      rintro _ ⟨⟩
      decide
    · rw [← List.cons_append, List.getLast?_append_of_ne_nil _ htext]
      exact h
  | block =>
    have hwrite : c.write .canonical =
        '/' :: (('*' :: padding c.text ++ c.text ++ padding c.text ++ ['*']) ++ ['/']) := by
      simp [Comment.write, hform, Spacing.part]
    rw [hwrite]
    refine Text.framed_of_ends (by decide) ?_
    rw [← List.cons_append, List.getLast?_concat]
    rintro _ ⟨⟩
    decide

theorem Rule.framed_write {r : Rule} (hhead : ∀ d ∈ r.selector.head?, isBlank d = false)
    (hlast : ∀ d ∈ r.selector.getLast?, isBlank d = false) :
    (r.write .canonical unit depth).Framed := by
  have hwrite : r.write .canonical unit depth = r.selector.reindent (unit.times depth) := by
    simp [Rule.write, Spacing.part, Spacing.field]
  rw [hwrite]
  cases hs : r.selector with
  | nil =>
    rw [Text.reindent_nil]
    exact Text.framed_nil
  | cons c rest =>
    have hfirst := Text.head?_reindent (unit.times depth) hhead
    have hend := Text.getLast?_append_reindent (unit.times depth) (by simp [hs]) hlast []
    rw [hs] at hhead hfirst hend
    obtain ⟨u, hu⟩ := List.head?_eq_some_iff.1 hfirst
    rw [List.nil_append, hu] at hend
    rw [hu]
    exact Text.framed_of_ends (hhead c rfl) hend

theorem AtRule.framed_write {a : AtRule} (hname : ∀ d ∈ a.name, isBreak d = false)
    (hlast : ∀ d ∈ a.params.getLast?, isBlank d = false) :
    (a.write .canonical unit depth).Framed := by
  have hwrite : a.write .canonical unit depth =
      '@' :: (a.name ++ padding a.params ++ a.params.reindent (unit.times (depth + 1))) := by
    simp [AtRule.write, Spacing.part, Spacing.field]
  rw [hwrite]
  by_cases hparams : a.params = []
  · simp only [hparams, padding, if_true, Text.reindent_nil, List.append_nil]
    refine ⟨?_, .inr ⟨[], '@', a.name, rfl, by decide, by simp⟩, ?_⟩
    · rintro _ ⟨⟩
      decide
    · intro front back h _ d hd
      have hmem : d ∈ '@' :: a.name := h ▸ List.mem_append_right _ hd
      rcases List.mem_cons.1 hmem with rfl | hmem
      · decide
      · exact hname d hmem
  · refine Text.framed_of_ends (by decide) ?_
    rw [← List.cons_append]
    exact Text.getLast?_append_reindent _ hparams hlast _

theorem Declaration.framed_write {d : Declaration} {ts : List Token} (hname : d.property = join ts)
    (hne : ts ≠ []) (hs : ∀ t ∈ ts, t.kind.Spells t.text) (hw : ∀ t ∈ ts, t.isWhitespace = false)
    (hlast : ∀ c ∈ d.value.getLast?, isBlank c = false) :
    (d.write .canonical unit depth).Framed := by
  have hwrite : d.write .canonical unit depth = join ts ++
      ':' :: (padding d.value ++ d.value.reindent (unit.times (depth + 1))) := by
    simp [Declaration.write, Spacing.part, Spacing.field, hname]
  rw [hwrite]
  refine ⟨?_, .inr ?_, ?_⟩
  · obtain ⟨t, ts, rfl⟩ := List.exists_cons_of_ne_nil hne
    obtain ⟨c, rest, ht, hc⟩ :=
      Token.solid_of_spells (hs t List.mem_cons_self) (hw t List.mem_cons_self)
    rw [Token.join_cons, ht]
    rintro _ ⟨⟩
    exact hc
  · exact Token.opens_join hs hw (by decide) _
  · intro front back h hback
    have hend : ∀ c ∈ (join ts ++ ':' :: (padding d.value ++
        d.value.reindent (unit.times (depth + 1)))).getLast?, isBlank c = false := by
      by_cases hvalue : d.value = []
      · rw [hvalue, padding, if_pos rfl, Text.reindent_nil]
        simp
      · rw [← List.cons_append, ← List.append_assoc]
        exact Text.getLast?_append_reindent _ hvalue hlast _
    rw [Text.eq_nil_of_ink hend h hback]
    simp

theorem isBreak_of_endsAtWord {c : Char} (h : endsAtWord c = false) : isBreak c = false := by
  cases hb : isBreak c with
  | false => rfl
  | true =>
    simp only [isBreak, Bool.or_eq_true, decide_eq_true_eq] at hb
    rcases hb with rfl | rfl <;> simp [endsAtWord, isSpacing] at h

/-- What is written in canonical spacing for an item that was read is framed. -/
theorem Statement.framed_write {s : Statement} {i : Item} (h : s.item = .ok i) (hf : s.Formed)
    (hs : ∀ t ∈ s.tokens, t.Inked) : (i.write .canonical unit depth).Framed := by
  rcases item_eq_ok.1 h with ⟨hk, rfl⟩ | ⟨hk, a, ha, rfl⟩ | ⟨hk, r, hr, rfl⟩ | ⟨hk, d, hd, rfl⟩
  · refine Comment.framed_write ?_
    rw [comment]
    split
    · exact Text.last_trim _
    · exact Text.last_trim _
  · obtain ⟨-, -, rfl⟩ := atRule_eq_ok.1 ha
    refine AtRule.framed_write (fun c hc => ?_) (Text.last_trim _)
    have hspells := hf.spells
    rw [hf.atRule hk] at hspells
    obtain ⟨name, hname, hchars⟩ := hspells
    refine isBreak_of_endsAtWord (hchars c ?_)
    rwa [atRuleOf, hname] at hc
  · obtain ⟨-, rfl⟩ := rule_eq_ok.1 hr
    exact Rule.framed_write (Text.head_trim _) (Text.last_trim _)
  · obtain ⟨-, before, colon, after, hsep, -, hne, rfl⟩ := declaration_eq_ok.1 hd
    have hname : ∀ t ∈ before.takeWhile fun t => !t.kind.isTrivia,
        t.Inked ∧ t.isWhitespace = false := by
      intro t ht
      refine ⟨hs t ?_, Token.isWhitespace_of_mem_name ht⟩
      rw [← Token.splitSeparator?_append hsep]
      exact List.mem_append_left _ ((List.takeWhile_sublist _).subset ht)
    refine Declaration.framed_write rfl hne (fun t ht => ?_) (fun t ht => (hname t ht).2)
      (Text.last_trim _)
    exact (hname t ht).1.spells (hname t ht).2

end OffsideCss
