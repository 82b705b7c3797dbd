import OffsideCss.Proofs.FieldTokens
import OffsideCss.Proofs.Skim
import OffsideCss.Proofs.Tiling

/-! Seams.  Where the comments of a field are dropped, the tokens before and behind one of them meet.  A
slash and a star that meet so open a comment that was not there, and nothing else does. -/

namespace OffsideCss

open Token (join scan scanFrom depthAfter)

namespace Text

variable {stop : Text → Bool} {t a b : Text} {c : Char}

/-- A run does not end before a character of it that is not escaped. -/
theorem stop_splitUnescaped (h : (t.splitUnescaped stop).1 = a ++ c :: b) (ha : ¬a.Escapes) :
    stop (c :: (b ++ (t.splitUnescaped stop).2)) = false := by
  fun_induction splitUnescaped stop t generalizing a with
  | case1 | case2 | case4 => simp at h
  | case3 d hd =>
    obtain ⟨rfl, rfl, rfl⟩ : a = [] ∧ d = c ∧ b = [] := by
      cases a <;> simp_all
    exact Bool.eq_false_iff.2 hd
  | case5 e rest run left hs hd ih =>
    have happend := splitUnescaped_append stop rest
    rw [hs] at ih happend
    rcases a with _ | ⟨x, _ | ⟨y, a⟩⟩
    · obtain ⟨rfl, rfl⟩ := List.cons.inj h
      rw [List.cons_append, happend]
      exact Bool.eq_false_iff.2 hd
    · obtain ⟨rfl, -⟩ := List.cons.inj h
      exact absurd rfl ha
    · obtain ⟨rfl, hrest⟩ := List.cons.inj h
      obtain ⟨rfl, hrun⟩ := List.cons.inj hrest
      exact ih hrun fun hesc => ha (escapes_escape.2 hesc)
  | case6 d e rest hd hesc run left hs ih =>
    have happend := splitUnescaped_append stop (e :: rest)
    rw [hs] at ih happend
    cases a with
    | nil =>
      obtain ⟨rfl, rfl⟩ := List.cons.inj h
      rw [happend]
      exact Bool.eq_false_iff.2 hd
    | cons x a =>
      obtain ⟨rfl, hrun⟩ := List.cons.inj h
      exact ih hrun fun h => ha ((escapes_cons hesc).2 h)

end Text

namespace Token

/-- Whether a text ends with a slash that is not escaped. -/
def EndsSlash (w : Text) : Prop := ∃ u, w = u ++ ['/'] ∧ ¬Text.Escapes u

/-- Whether a comment is opened where one token meets another one. -/
def Opens (t u : Token) : Prop :=
  t.kind = .word ∧ EndsSlash t.text ∧ u.text.head? = some '*'

/-- Whether no comment is opened where tokens meet without the comments between them. -/
def Seamless (ts : List Token) : Prop := (bare ts).IsChain fun t u => ¬t.Opens u

variable {depth : Nat} {c : Char} {t u : Token} {w v x : Text} {ts us : List Token}

/-! ### Tokens before another text -/

/-- Whether no character of a text that is not escaped ends a word. -/
def Runs (depth : Nat) (w : Text) : Prop :=
  ∀ a c b, w = a ++ c :: b → ¬Text.Escapes a → Text.atWordEnd depth (c :: b) = false

theorem Runs.of_cons (h : Runs depth (c :: w)) (hc : c ≠ '\\') : Runs depth w := by
  intro a d b hw ha
  exact h (c :: a) d b (by rw [hw]; rfl) fun hesc => ha ((Text.escapes_cons hc).1 hesc)

theorem Runs.of_escape (h : Runs depth ('\\' :: c :: w)) : Runs depth w := by
  intro a d b hw ha
  exact h ('\\' :: c :: a) d b (by rw [hw]; rfl) fun hesc => ha (Text.escapes_escape.1 hesc)

theorem Runs.of_append (h : Runs depth (w ++ v)) : Runs depth w := by
  intro a c b hw ha
  have := h a c (b ++ v) (by rw [hw]; simp) ha
  exact (Text.LooksAhead.wordEnd depth).false_of_append v this

theorem EndsSlash.cons (h : EndsSlash w) (hc : c ≠ '\\') : EndsSlash (c :: w) := by
  obtain ⟨u, rfl, hu⟩ := h
  exact ⟨c :: u, rfl, fun hesc => hu ((Text.escapes_cons hc).1 hesc)⟩

theorem EndsSlash.escape (h : EndsSlash w) : EndsSlash ('\\' :: c :: w) := by
  obtain ⟨u, rfl, hu⟩ := h
  exact ⟨'\\' :: c :: u, rfl, fun hesc => hu (Text.escapes_escape.1 hesc)⟩

/-- A word passes before a text that its last character does not open a comment with. -/
theorem skim_word : ∀ {w v : Text}, Runs depth w → (v = [] ∨ ¬Text.Escapes w) →
    (EndsSlash w → v.head? ≠ some '*' ∧ (depth = 0 → v.head? ≠ some '/')) →
    skim depth (w ++ v) = skim depth v
  | [], v, _, _, _ => rfl
  | c :: w, v, hrun, hv, hslash => by
    by_cases hc : c = '\\'
    · subst hc
      cases w with
      | nil =>
        obtain rfl : v = [] := hv.resolve_right fun h => h rfl
        rw [List.append_nil, skim_backslash, skim_nil]
      | cons d w =>
        rw [List.cons_append, List.cons_append, skim_escape]
        exact skim_word hrun.of_escape (hv.imp_right fun h hesc => h (Text.escapes_escape.2 hesc))
          fun h => hslash h.escape
    · have hpass := passes_of_word (hrun [] c w rfl Text.not_escapes_nil) hc
      have hpass' : Passes depth c (w ++ v) := by
        cases w with
        | cons d w =>
          cases hpass with
          | bland hb => exact .bland hb
          | slash hstar hline => exact .slash hstar hline
        | nil =>
          cases hpass with
          | bland hb => exact .bland hb
          | slash =>
            obtain ⟨hstar, hline⟩ := hslash ⟨[], rfl, Text.not_escapes_nil⟩
            exact .slash hstar hline
      rw [List.cons_append, skim_pass hpass']
      exact skim_word (hrun.of_cons hc) (hv.imp_right fun h hesc => h ((Text.escapes_cons hc).2 hesc))
        fun h => hslash (h.cons hc)

theorem next_of_word (hk : (next depth c w).1.kind = .word) :
    next depth c w = ofRun .word [] (Text.splitUnescaped (Text.atWordEnd depth) (c :: w)) := by
  cases begins depth c w with
  | punctuation hp =>
    rw [next_punctuation hp] at hk
    cases TokenKind.punctuates hp <;> cases hk
  | lineFeed => simp [next_lineFeed] at hk
  | carriageReturn => simp [next_carriageReturn] at hk
  | space hs => simp [next_space hs, ofRun] at hk
  | quote hq =>
    rw [next_quote hq, ofQuote] at hk
    split at hk <;> simp at hk
  | blockComment =>
    rw [next_blockComment, ofBlockComment] at hk
    split at hk <;> simp at hk
  | lineComment hd => simp [hd, next_lineComment, ofRun] at hk
  | atWord => simp [next_atWord, ofRun] at hk
  | word hw hat => exact next_word hw hat

/-- What the scanner saw of a word, and of the text behind it. -/
theorem runs_of_next (hk : t.kind = .word) (h : next depth c w = (t, x)) :
    (∀ a d b, t.text = a ++ d :: b → ¬Text.Escapes a →
      Text.atWordEnd depth (d :: (b ++ x)) = false) ∧ (x ≠ [] → ¬Text.Escapes t.text) := by
  rw [next_of_word (by rw [h, hk])] at h
  obtain ⟨rfl, rfl⟩ := Prod.mk.inj h
  exact ⟨fun a d b htext ha => Text.stop_splitUnescaped htext ha, Text.not_escapes_splitUnescaped⟩

theorem runs_text (hk : t.kind = .word) (h : next depth c w = (t, x)) : Runs depth t.text :=
  fun a d b htext ha =>
    (Text.LooksAhead.wordEnd depth).false_of_append x ((runs_of_next hk h).1 a d b htext ha)

theorem skim_ofQuote (hc : isQuote c = true) (h : ofQuote c w = (t, x)) (ht : t.kind.isFlaw = false)
    (v : Text) : skim depth (t.text ++ v) = behind [t.kind] (skim (t.kind.nesting depth) v) := by
  cases quoted c w with
  | unclosed hs =>
    rw [ofQuote_unclosed hs] at h
    obtain ⟨rfl, -⟩ := Prod.mk.inj h
    cases ht
  | closed hs =>
    rw [ofQuote_closed hs] at h
    obtain ⟨rfl, -⟩ := Prod.mk.inj h
    rw [behind_of_not rfl, List.append_assoc, List.cons_append, List.singleton_append]
    exact skim_string hc (Text.splitUnescaped_closed hs v)

/-- A token that is no comment and not left unclosed keeps its marks before another text, unless it is a
word that opens a comment there. -/
theorem skim_token (h : next depth c w = (t, x)) (hcomment : t.kind.isFlaw = false)
    (hv : v = [] ∨ x ≠ [])
    (hslash : t.kind = .word → EndsSlash t.text →
      v.head? ≠ some '*' ∧ (depth = 0 → v.head? ≠ some '/')) :
    skim depth (t.text ++ v) = behind [t.kind] (skim (t.kind.nesting depth) v) := by
  cases begins depth c w with
  | punctuation hp =>
    rw [next_punctuation hp] at h
    obtain ⟨rfl, -⟩ := Prod.mk.inj h
    exact skim_punctuation hp
  | lineFeed =>
    rw [next_lineFeed] at h
    obtain ⟨rfl, -⟩ := Prod.mk.inj h
    exact skim_bland rfl
  | carriageReturn =>
    rw [next_carriageReturn] at h
    obtain ⟨rfl, -⟩ := Prod.mk.inj h
    exact skim_run (List.forall_mem_cons.2 ⟨rfl, List.forall_mem_singleton.2 rfl⟩)
  | space hs =>
    rw [next_space hs] at h
    obtain ⟨rfl, -⟩ := Prod.mk.inj h
    simp only [Text.atSpacing, Bool.and_eq_true] at hs
    exact skim_run (List.forall_mem_cons.2
      ⟨isBland_of_isSpacing hs.1, fun d hd => isBland_of_mem_spacing hd⟩)
  | quote hq =>
    rw [next_quote hq] at h
    exact skim_ofQuote hq h hcomment v
  | blockComment =>
    rw [next_blockComment] at h
    have hflaw := h ▸ isFlaw_ofBlockComment _
    rw [hcomment] at hflaw
    cases hflaw
  | lineComment hd =>
    rw [hd, next_lineComment] at h
    obtain ⟨rfl, -⟩ := Prod.mk.inj h
    cases hcomment
  | atWord =>
    rw [next_atWord] at h
    obtain ⟨rfl, -⟩ := Prod.mk.inj h
    exact skim_run (List.forall_mem_cons.2 ⟨rfl, fun d hd => isBland_of_mem_atWord hd⟩)
  | word hw hat =>
    have hkind : t.kind = .word := by
      rw [next_word hw hat] at h
      rw [← (Prod.mk.inj h).1]
    rw [hkind, behind_of_not rfl]
    exact skim_word (runs_text hkind h) (hv.imp_right (runs_of_next hkind h).2) (hslash hkind)

/-! ### Fields -/

/-- A word before a comment does not end with a slash outside parentheses, where it would make another
comment of it. -/
theorem not_endsSlash (hk : t.kind = .word) (h : next 0 c w = (t, join us))
    (hus : ∀ u ∈ us, u.kind.Spells u.text) (hslash : EndsSlash t.text) :
    (join (bare us)).head? ≠ some '*' ∧ (join (bare us)).head? ≠ some '/' := by
  obtain ⟨a, htext, ha⟩ := hslash
  have hend := (runs_of_next hk h).1 a '/' [] htext ha
  simp only [Text.atWordEnd, Bool.or_eq_false_iff, List.nil_append] at hend
  obtain ⟨⟨-, hblock⟩, hline⟩ := hend
  have hstar : (join us).head? ≠ some '*' := by simpa [Text.atBlockComment] using hblock
  have hslash : (join us).head? ≠ some '/' := by simpa [Text.atLineComment] using hline
  cases us with
  | nil => exact ⟨hstar, hslash⟩
  | cons u us =>
    have hspells := hus u List.mem_cons_self
    by_cases hcomment : u.kind.isComment = true
    · -- A comment behind the word would begin with a slash.
      exfalso
      apply hslash
      cases hu : u.kind <;> simp only [hu, TokenKind.isComment, Bool.false_eq_true] at hcomment
      · rw [hu] at hspells
        obtain ⟨body, hbody⟩ := hspells
        simp [hbody]
      · rw [hu] at hspells
        obtain ⟨body, hbody⟩ := hspells
        simp [hbody]
    · obtain ⟨d, text, hd⟩ := List.exists_cons_of_ne_nil hspells.ne_nil
      rw [bare_cons (Bool.eq_false_iff.2 hcomment)]
      simpa [hd] using And.intro hstar hslash

theorem seamless_cons (h : t.kind.isComment = false) : Seamless (t :: us) ↔
    (∀ u ∈ (bare us).head?, ¬t.Opens u) ∧ Seamless us := by
  rw [Seamless, bare_cons h, List.isChain_cons, Seamless]

theorem seamless_comment (h : t.kind.isComment = true) : Seamless (t :: us) ↔ Seamless us := by
  rw [Seamless, bare_comment h, Seamless]

/-- The first token of a text, and what the scanner made it of. -/
theorem next_of_scanFrom (h : scanFrom depth (join (t :: us)) = t :: us) :
    (∃ c w, t.text ++ join us = c :: w ∧ next depth c w = (t, join us)) ∧
      scanFrom (t.kind.nesting depth) (join us) = us := by
  cases hj : join (t :: us) with
  | nil => simp [hj] at h
  | cons c w =>
    rw [hj, scanFrom_cons, List.cons.injEq] at h
    obtain ⟨ht, hus⟩ := h
    have hleft : (next depth c w).2 = join us := by rw [← hus, join_scanFrom]
    rw [ht, hleft] at hus
    exact ⟨⟨c, w, hj, Prod.ext ht hleft⟩, hus⟩

theorem exists_head_bare (hus : ∀ u ∈ us, u.kind.Spells u.text) {d : Char}
    (h : (join (bare us)).head? = some d) : ∃ u ∈ (bare us).head?, u.text.head? = some d := by
  cases hb : bare us with
  | nil => simp [hb] at h
  | cons u vs =>
    have hu : u ∈ us := List.mem_of_mem_filter (hb ▸ List.mem_cons_self : u ∈ bare us)
    obtain ⟨e, text, he⟩ := List.exists_cons_of_ne_nil (hus u hu).ne_nil
    refine ⟨u, rfl, ?_⟩
    simpa [hb, he] using h

/-- A slash and a star that meet open a comment. -/
theorem not_flawless_of_opens (h : next depth c w = (t, x)) (hk : t.kind = .word)
    (hslash : EndsSlash t.text) (hv : v.head? = some '*')
    (hdepth : depth ≠ 0) : ¬Flawless depth (t.text ++ v) := by
  obtain ⟨a, htext, ha⟩ := hslash
  obtain ⟨v, rfl⟩ := List.head?_eq_some_iff.1 hv
  have hruns : Runs depth a := Runs.of_append (htext ▸ runs_text hk h)
  have hskim : skim depth (a ++ '/' :: '*' :: v) = skim depth ('/' :: '*' :: v) :=
    skim_word hruns (.inr ha) fun _ => ⟨by simp, fun h => absurd h hdepth⟩
  rw [htext, List.append_assoc, List.singleton_append, flawless_congr hskim]
  exact not_flawless_blockComment

/-- Without its comments, a text has the braces that it has with them and no flaw if its tokens are
seamless, and a flaw if they are not. -/
theorem skim_bare (h : scanFrom depth (join ts) = ts) (hclosed : ∀ t ∈ ts, t.kind ≠ .unclosed) :
    (Seamless ts → skim depth (join (bare ts)) =
      behind ((bare ts).map (·.kind)) ([], depthAfter depth ts)) ∧
    (Flawless depth (join (bare ts)) → Seamless ts) := by
  induction ts generalizing depth with
  | nil => exact ⟨fun _ => skim_nil depth, fun _ => .nil⟩
  | cons t us ih =>
    have hspells : ∀ u ∈ t :: us, u.kind.Spells u.text :=
      fun u hu => spells_of_mem_scanFrom (h.symm ▸ hu)
    obtain ⟨-, hus⟩ := List.forall_mem_cons.1 hspells
    obtain ⟨⟨c, w, -, hnext⟩, hrest⟩ := next_of_scanFrom h
    obtain ⟨htclosed, hclosed⟩ := List.forall_mem_cons.1 hclosed
    obtain ⟨hskim, hseam⟩ := ih hrest hclosed
    by_cases hcomment : t.kind.isComment = true
    · have hnesting : t.kind.nesting depth = depth := by
        cases hk : t.kind <;> simp_all [TokenKind.isComment, TokenKind.nesting]
      rw [seamless_comment hcomment, bare_comment hcomment, depthAfter_cons]
      rw [hnesting] at hskim hseam ⊢
      exact ⟨hskim, hseam⟩
    · rw [Bool.not_eq_true] at hcomment
      have hflaw : t.kind.isFlaw = false := by
        cases hk : t.kind <;> simp_all [TokenKind.isComment, TokenKind.isFlaw]
      have hend : join (bare us) = [] ∨ join us ≠ [] := by
        cases us with
        | nil => exact .inl rfl
        | cons u us => exact .inr (by simp [(hus u List.mem_cons_self).ne_nil])
      rw [seamless_cons hcomment, bare_cons hcomment, join_cons, List.map_cons, depthAfter_cons]
      by_cases hopens : t.kind = .word ∧ EndsSlash t.text ∧ (join (bare us)).head? = some '*'
      · obtain ⟨hk, hslash, hstar⟩ := hopens
        have hdepth : depth ≠ 0 := by
          rintro rfl
          exact (not_endsSlash hk hnext hus hslash).1 hstar
        obtain ⟨u, hu, hhead⟩ := exists_head_bare hus hstar
        refine ⟨fun h => absurd ⟨hk, hslash, hhead⟩ (h.1 u hu), fun h => absurd h ?_⟩
        exact not_flawless_of_opens hnext hk hslash hstar hdepth
      · have htoken : skim depth (t.text ++ join (bare us)) =
            behind [t.kind] (skim (t.kind.nesting depth) (join (bare us))) := by
          refine skim_token hnext hflaw hend fun hk hslash => ⟨fun h => hopens ⟨hk, hslash, h⟩, ?_⟩
          rintro rfl
          exact (not_endsSlash hk hnext hus hslash).2
        have hfirst : ∀ u ∈ (bare us).head?, ¬t.Opens u := by
          rintro u hu ⟨hk, hslash, hstar⟩
          obtain ⟨vs, hvs⟩ := List.head?_eq_some_iff.1 hu
          refine hopens ⟨hk, hslash, ?_⟩
          obtain ⟨text, htext⟩ := List.head?_eq_some_iff.1 hstar
          rw [hvs, join_cons, htext]
          rfl
        rw [flawless_behind (by simpa using hflaw) htoken]
        refine ⟨fun h => ?_, fun h => ⟨hfirst, hseam h⟩⟩
        rw [htoken, hskim h.2, ← behind_append, List.singleton_append]

theorem Captures.resolve_eq {field : Text} {literal : Option Literal}
    (h : Captures ts field literal) : Literal.resolve literal field = join ts := by
  cases literal with
  | none =>
    by_contra hne
    have := h.present.2 (Ne.symm hne)
    simp at this
  | some l =>
    obtain ⟨hvalue, htext⟩ := h.literal l rfl
    rw [Literal.resolve, if_pos hvalue, htext]

theorem Whole.filter_bare (h : Whole ts) :
    ((bare ts).map (·.kind)).filter TokenKind.isMark = [] := by
  refine List.filter_eq_nil_iff.2 fun k hk => ?_
  obtain ⟨t, ht, rfl⟩ := List.mem_map.1 hk
  obtain ⟨hmem, hcomment⟩ := List.mem_filter.1 ht
  obtain ⟨hclosed, hbrace⟩ := h.plain t hmem
  cases hk : t.kind <;>
    simp_all [TokenKind.isMark, TokenKind.isBrace, TokenKind.isFlaw, TokenKind.isComment]

/-- A field has flaws if a comment is opened where its literal text has one, and no marks otherwise. -/
theorem Whole.field {field : Text} {literal : Option Literal} (hw : Whole ts)
    (h : Captures ts field literal) :
    (Flawless 0 field ↔ Seamless (OffsideCss.Token.scan (Literal.resolve literal field))) ∧
      (Flawless 0 field → skim 0 field = ([], 0)) := by
  obtain ⟨hskim, hseam⟩ := skim_bare hw.scan fun t ht => (hw.plain t ht).1
  have hempty : Seamless ts → skim 0 (join (bare ts)) = ([], 0) := by
    intro hs
    rw [hskim hs, behind, hw.filter_bare, hw.depth]
    rfl
  have hflawless : Flawless 0 (join (bare ts)) ↔ Seamless ts := by
    refine ⟨hseam, fun hs => ?_⟩
    rw [Flawless, hempty hs]
    simp
  rw [h.resolve_eq, hw.scan, ← h.read, flawless_trim, hflawless]
  refine ⟨Iff.rfl, fun hs => ?_⟩
  rw [skim_trim (hflawless.2 hs), hempty hs]

end Token

namespace Sheet

open Token (Flawless Seamless skim)

variable {name : String} {source : Text} {s : Sheet}

theorem field_of_parse (h : parse name source = .ok s) {e : Entry} (he : e ∈ s.entries)
    {x : Option Literal × Text} (hx : x ∈ e.node.item.fields) :
    (Flawless 0 x.2 ↔ Seamless (scan (Literal.resolve x.1 x.2))) ∧
      (Flawless 0 x.2 → skim 0 x.2 = ([], 0)) := by
  obtain ⟨_, vs, -, hlists, -⟩ := exists_of_parse h
  obtain ⟨n, hn⟩ := List.mem_iff_getElem?.1 he
  obtain ⟨v, hv, -, hnode⟩ := hlists.exists_visit hn
  obtain ⟨t, ts, hf, ht, hexpands, hw⟩ := whole_of_parse h (hlists.outline_eq ▸ hv)
  obtain ⟨i, hi, hitem⟩ := Statement.node_eq_ok.1 ht
  rw [← hnode, hitem] at hx
  obtain ⟨us, hus, hcaptures⟩ := Statement.whole_of_item hi hf hexpands hw x hx
  exact hus.field hcaptures

/-- Scanned by itself, a field of a sheet that was read has comments, or something that is never closed,
just where a slash and a star meet in it that a comment set apart. -/
theorem uncommented_iff_seamless (h : parse name source = .ok s) : ∀ e ∈ s.entries,
    ∀ x ∈ e.node.item.fields,
      (∀ t ∈ scan x.2, t.kind.isComment = false ∧ t.kind ≠ .unclosed) ↔
        Seamless (scan (Literal.resolve x.1 x.2)) := by
  intro e he x hx
  rw [← (field_of_parse h he hx).1, Token.flawless_iff_scan]

/-- Comments are dropped in parentheses as outside of them, and a slash may meet another slash there. -/
theorem uncommented_iff_seamless_parentheses :
    let source := Text.ofString "a: b // c\n  d: (e//* f *// g)\n"
    ∃ s, parse "in" source = .ok s ∧
      (∀ e ∈ s.entries, ∀ x ∈ e.node.item.fields,
        (∀ t ∈ scan x.2, t.kind.isComment = false ∧ t.kind ≠ .unclosed) ↔
          Seamless (scan (Literal.resolve x.1 x.2))) ∧
      s.entries.map (fun e => e.node.item.fields.map (·.2)) =
        [[Text.ofString "a: b"], [Text.ofString "(e// g)"]] := by
  intro source
  have hfields : (parse "in" source).toOption.map (fun s =>
      s.entries.map fun e => e.node.item.fields.map (·.2)) =
      some [[Text.ofString "a: b"], [Text.ofString "(e// g)"]] := by
    decide +kernel
  obtain ⟨s, h, hs⟩ := exists_of_map_parse hfields
  exact ⟨s, h, uncommented_iff_seamless h, hs⟩

/-- A comment that is dropped can bring another one to light. -/
theorem comment_between_slash_and_star :
    ¬ ∀ {source : Text} {s : Sheet} {e : Entry} {x : Option Literal × Text},
      parse "in" source = .ok s → e ∈ s.entries → x ∈ e.node.item.fields →
      ∀ t ∈ scan x.2, t.kind.isComment = false ∧ t.kind ≠ .unclosed := by
  intro hall
  let source := Text.ofString "a: (b//**/*c)\n"
  have hfields : (parse "in" source).toOption.map (fun s =>
      (s.entries.map fun e => e.node.item.fields.map (·.2))) =
      some [[Text.ofString "(b/*c)"]] := by
    decide +kernel
  have hunclosed : ⟨.unclosed, Text.ofString "/*c)"⟩ ∈ scan (Text.ofString "(b/*c)") := by
    decide +kernel
  obtain ⟨s, h, hs⟩ := exists_of_map_parse hfields
  obtain ⟨e, rest, hentries, hfield, -⟩ := List.map_eq_cons_iff.1 hs
  obtain ⟨x, hx, htext⟩ := List.map_eq_singleton_iff.1 hfield
  rw [← htext] at hunclosed
  exact (hall h (hentries ▸ List.mem_cons_self) (hx ▸ List.mem_cons_self) _ hunclosed).2 rfl

end Sheet

end OffsideCss
