import Mathlib.Data.List.TakeWhile
import OffsideCss.Proofs.ListFacts
import OffsideCss.Proofs.ScanAppend

/-! Skimming.  Where braces and comments stand in a text depends on less than its tokens do: it can be
told one character after another, but for strings and comments.  So a text without comments can be put
before another one whatever its last token is. -/

namespace OffsideCss

/-- Comments, and what is never closed. -/
def TokenKind.isFlaw : TokenKind → Bool
  | lineComment | blockComment | unclosed => true
  | _ => false

/-- Braces and flaws. -/
def TokenKind.isMark (k : TokenKind) : Bool := k.isBrace || k.isFlaw

/-- The characters that neither open or close anything nor take part in what does. -/
def isBland (c : Char) : Bool :=
  !(isQuote c || c = '/' || c = '\\' || c = '(' || c = ')' || c = '\x7b' || c = '\x7d')

namespace Token

/-- What is found in a text behind tokens of the kinds `ks`. -/
def behind (ks : List TokenKind) (found : List TokenKind × Nat) : List TokenKind × Nat :=
  (ks.filter TokenKind.isMark ++ found.1, found.2)

theorem behind_nil (found : List TokenKind × Nat) : behind [] found = found := rfl

theorem behind_append (ks ls : List TokenKind) (found : List TokenKind × Nat) :
    behind (ks ++ ls) found = behind ks (behind ls found) := by
  simp [behind]

theorem behind_of_not {k : TokenKind} (h : k.isMark = false) (found : List TokenKind × Nat) :
    behind [k] found = found := by
  simp [behind, h]

/-- The marks among the tokens of a text behind `depth` open parentheses, and the number of open
parentheses behind it. -/
def skim (depth : Nat) (t : Text) : List TokenKind × Nat :=
  (((scanFrom depth t).map (·.kind)).filter TokenKind.isMark, depthAfter depth (scanFrom depth t))

theorem skim_nil (depth : Nat) : skim depth [] = ([], depth) := by
  simp [skim]

theorem skim_cons (depth : Nat) (c : Char) (t : Text) : skim depth (c :: t) =
    behind [(next depth c t).1.kind]
      (skim ((next depth c t).1.kind.nesting depth) (next depth c t).2) := by
  rw [skim, scanFrom_cons, List.map_cons, depthAfter_cons, ← List.singleton_append,
    List.filter_append]
  rfl

/-- Whether a character begins nothing that takes more than it. -/
inductive Passes (depth : Nat) : Char → Text → Prop
  | bland {c : Char} {t : Text} : isBland c = true → Passes depth c t
  | slash {t : Text} : t.head? ≠ some '*' → (depth = 0 → t.head? ≠ some '/') → Passes depth '/' t

variable {depth : Nat} {c : Char} {t u run left : Text}

theorem passes_of_word (h : Text.atWordEnd depth (c :: t) = false) (hc : c ≠ '\\') :
    Passes depth c t := by
  simp only [Text.atWordEnd, Bool.or_eq_false_iff] at h
  obtain ⟨⟨hword, hblock⟩, hline⟩ := h
  by_cases hs : c = '/'
  · subst hs
    refine .slash ?_ ?_
    · simpa [Text.atBlockComment] using hblock
    · simpa [Text.atLineComment] using hline
  · refine .bland ?_
    simp only [endsWord, Bool.or_eq_false_iff] at hword
    obtain ⟨⟨⟨hp, -⟩, -⟩, hq⟩ := hword
    simp only [isBland, hq, hs, hc, Bool.not_eq_true', Bool.or_eq_false_iff, decide_eq_false_iff_not]
    refine ⟨⟨⟨⟨⟨⟨trivial, not_false⟩, not_false⟩, ?_⟩, ?_⟩, ?_⟩, ?_⟩
    all_goals
      rintro rfl
      simp [TokenKind.ofPunctuation?] at hp

theorem isBland_of_isSpacing (h : isSpacing c = true) : isBland c = true := by
  simp only [isSpacing, Bool.or_eq_true, decide_eq_true_eq] at h
  rcases h with ((rfl | rfl) | rfl) | rfl <;> rfl

theorem isBland_of_endsAtWord (h : endsAtWord c = false) : isBland c = true := by
  simp only [endsAtWord, Bool.or_eq_false_iff] at h
  simp_all [isBland]

theorem isBland_of_mem_spacing (h : c ∈ (t.splitBefore fun u => !u.atSpacing).1) :
    isBland c = true := by
  have hspacing := Text.splitBefore_run (p := fun d => !isSpacing d)
    (fun d u hd => by simp_all [Text.atSpacing]) h
  exact isBland_of_isSpacing (by simpa using hspacing)

theorem isBland_of_mem_atWord (h : c ∈ (t.splitBefore Text.atAtWordEnd).1) : isBland c = true :=
  isBland_of_endsAtWord (Text.splitBefore_run (p := endsAtWord) (fun _ _ hd => hd) h)

theorem Passes.ne_backslash (h : Passes depth c t) : c ≠ '\\' := by
  cases h with
  | bland hb =>
    rintro rfl
    simp [isBland] at hb
  | slash => decide

theorem Passes.not_isQuote (h : Passes depth c t) : isQuote c = false := by
  cases h with
  | bland hb => simp_all [isBland]
  | slash => rfl

/-- Punctuation that passes is no brace and no parenthesis. -/
theorem Passes.punctuation {kind : TokenKind} (h : Passes depth c t)
    (hp : TokenKind.ofPunctuation? c = some kind) :
    kind.isMark = false ∧ kind.nesting depth = depth := by
  cases h with
  | slash => simp [TokenKind.ofPunctuation?] at hp
  | bland hb =>
    cases TokenKind.punctuates hp with
    | colon | semicolon | comma => exact ⟨rfl, rfl⟩
    | leftBrace | rightBrace | leftParen | rightParen => cases hb

/-- Whether the marks of a text are the same behind a character that begins nothing, and behind one
that is escaped. -/
structure Peels (t : Text) : Prop where
  pass : ∀ {depth : Nat} {c : Char}, Passes depth c t → skim depth (c :: t) = skim depth t
  escape : ∀ (depth : Nat) (c : Char), skim depth ('\\' :: c :: t) = skim depth t

theorem atWordEnd_backslash (depth : Nat) (t : Text) : Text.atWordEnd depth ('\\' :: t) = false := by
  simp [Text.atWordEnd, endsWord, TokenKind.ofPunctuation?, isSpacing, isQuote,
    Text.atBlockComment, Text.atLineComment]

/-- A backslash at the end of a text escapes nothing. -/
theorem skim_backslash (depth : Nat) : skim depth ['\\'] = ([], depth) := by
  rw [skim_cons, next_word (atWordEnd_backslash depth []) (by decide),
    Text.splitUnescaped_cons (atWordEnd_backslash depth []) (.inl rfl)]
  exact skim_nil depth

/-- The marks of a text are those behind the rest of a word. -/
theorem skim_splitUnescaped (h : ∀ u : Text, u.length < t.length → Peels u) :
    skim depth t = skim depth (t.splitUnescaped (Text.atWordEnd depth)).2 := by
  fun_induction Text.splitUnescaped (Text.atWordEnd depth) t with
  | case1 | case2 | case4 => rfl
  | case3 c hs =>
    by_cases hc : c = '\\'
    · rw [hc, skim_backslash, skim_nil]
    · exact (h [] (by simp)).pass (passes_of_word (Bool.eq_false_iff.2 hs) hc)
  | case5 d rest run left hr hs ih =>
    rw [hr] at ih
    have hlt : rest.length < ('\\' :: d :: rest).length := Nat.lt_add_of_pos_right Nat.two_pos
    rw [(h rest hlt).escape, ih fun u hu => h u (hu.trans hlt)]
  | case6 c d rest hs hc run left hr ih =>
    rw [hr] at ih
    rw [(h (d :: rest) (by simp)).pass (passes_of_word (Bool.eq_false_iff.2 hs) hc),
      ih fun u hu => h u (by simp at hu ⊢; omega)]

theorem skim_run_of_peels (h : ∀ u : Text, u.length < (run ++ left).length → Peels u)
    (hrun : ∀ c ∈ run, isBland c = true) : skim depth (run ++ left) = skim depth left := by
  induction run with
  | nil => rfl
  | cons c run ih =>
    obtain ⟨hc, hrun⟩ := List.forall_mem_cons.1 hrun
    rw [List.cons_append, (h (run ++ left) (by simp)).pass (.bland hc),
      ih (fun u hu => h u (by simp at hu ⊢; omega)) hrun]

theorem skim_step {stop : Text → Bool} (h : ∀ u : Text, u.length < t.length → Peels u)
    (hrun : ∀ c ∈ (t.splitBefore stop).1, isBland c = true) :
    skim depth t = skim depth (t.splitBefore stop).2 := by
  have happend := Text.splitBefore_append stop t
  calc skim depth t = skim depth ((t.splitBefore stop).1 ++ (t.splitBefore stop).2) := by
        rw [happend]
    _ = skim depth (t.splitBefore stop).2 :=
        skim_run_of_peels (by rwa [happend]) hrun

/-- What the marks of a text are does not change at its characters one by one, as long as they begin
nothing. -/
theorem peels (t : Text) : Peels t := by
  induction ht : t.length using Nat.strong_induction_on generalizing t with
  | _ n ih =>
    subst ht
    have h : ∀ u : Text, u.length < t.length → Peels u := fun u hu => ih _ hu u rfl
    constructor
    case escape =>
      intro depth c
      rw [skim_cons, next_word (atWordEnd_backslash depth _) (by decide),
        Text.splitUnescaped_escape (atWordEnd_backslash depth _)]
      exact (skim_splitUnescaped h).symm
    case pass =>
      intro depth c hc
      cases begins depth c t with
      | @punctuation _ _ kind hp =>
        obtain ⟨hmark, hnesting⟩ := hc.punctuation hp
        rw [skim_cons, next_punctuation hp, behind_of_not hmark, hnesting]
      | lineFeed =>
        rw [skim_cons, next_lineFeed]
        rfl
      | @carriageReturn rest =>
        rw [skim_cons, next_carriageReturn, skim_cons, next_lineFeed]
      | space hs =>
        rw [skim_cons, next_space hs]
        exact (skim_step h fun d hd => isBland_of_mem_spacing hd).symm
      | quote hq => simp [hc.not_isQuote] at hq
      | blockComment =>
        cases hc with
        | bland hb => simp [isBland] at hb
        | slash hstar => simp at hstar
      | lineComment hd =>
        cases hc with
        | bland hb => simp [isBland] at hb
        | slash _ hslash => simp [hd] at hslash
      | atWord =>
        rw [skim_cons, next_atWord]
        exact (skim_step h fun d hd => isBland_of_mem_atWord hd).symm
      | word hw hat =>
        rw [skim_cons, next_word hw hat, Text.splitUnescaped_cons hw (.inr hc.ne_backslash)]
        exact (skim_splitUnescaped h).symm

/-! ### Marks, one character after another -/

theorem skim_pass (hc : Passes depth c t) : skim depth (c :: t) = skim depth t := (peels t).pass hc

theorem skim_escape (depth : Nat) (c : Char) (t : Text) :
    skim depth ('\\' :: c :: t) = skim depth t :=
  (peels t).escape depth c

theorem skim_bland (hc : isBland c = true) : skim depth (c :: t) = skim depth t :=
  skim_pass (.bland hc)

theorem skim_run (hrun : ∀ c ∈ run, isBland c = true) :
    skim depth (run ++ left) = skim depth left :=
  skim_run_of_peels (fun u _ => peels u) hrun

theorem skim_punctuation {kind : TokenKind} (h : TokenKind.ofPunctuation? c = some kind) :
    skim depth (c :: t) = behind [kind] (skim (kind.nesting depth) t) := by
  rw [skim_cons, next_punctuation h]

theorem skim_string {inside : Text} (hc : isQuote c = true)
    (h : Text.splitUnescaped (Text.atChar c) (inside ++ c :: t) = (inside, c :: t)) :
    skim depth (c :: (inside ++ c :: t)) = skim depth t := by
  rw [skim_cons, next_quote hc, ofQuote_closed h]
  rfl

/-- Whether nothing in a text is a comment or never closed. -/
def Flawless (depth : Nat) (t : Text) : Prop := ∀ k ∈ (skim depth t).1, k.isFlaw = false

theorem flawless_iff : Flawless depth t ↔ ∀ tok ∈ scanFrom depth t, tok.kind.isFlaw = false := by
  rw [Flawless, skim]
  constructor
  · intro h tok htok
    by_contra hflaw
    rw [Bool.not_eq_false] at hflaw
    rw [h tok.kind (List.mem_filter.2 ⟨List.mem_map_of_mem htok, by simp [TokenKind.isMark, hflaw]⟩)]
      at hflaw
    cases hflaw
  · intro h k hk
    obtain ⟨tok, htok, rfl⟩ := List.mem_map.1 (List.mem_of_mem_filter hk)
    exact h tok htok

theorem flawless_iff_scan : Flawless 0 t ↔
    ∀ tok ∈ OffsideCss.Token.scan t, tok.kind.isComment = false ∧ tok.kind ≠ .unclosed := by
  rw [flawless_iff]
  refine forall₂_congr fun tok _ => ?_
  cases tok.kind <;> simp [TokenKind.isFlaw, TokenKind.isComment]

theorem flawless_nil (depth : Nat) : Flawless depth [] := by
  simp [Flawless, skim_nil]

theorem flawless_congr {depth' : Nat} (h : skim depth t = skim depth' u) :
    Flawless depth t ↔ Flawless depth' u := by
  rw [Flawless, h, Flawless]

theorem flawless_behind {ks : List TokenKind} (hks : ∀ k ∈ ks, k.isFlaw = false) {depth' : Nat}
    (h : skim depth t = behind ks (skim depth' u)) : Flawless depth t ↔ Flawless depth' u := by
  rw [Flawless, h, behind, List.forall_mem_append, Flawless]
  exact and_iff_right fun k hk => hks k (List.mem_of_mem_filter hk)

theorem isFlaw_of_punctuation {kind : TokenKind} (h : TokenKind.ofPunctuation? c = some kind) :
    kind.isFlaw = false := by
  cases TokenKind.punctuates h <;> rfl

theorem flawless_punctuation {kind : TokenKind} (h : TokenKind.ofPunctuation? c = some kind) :
    Flawless depth (c :: t) ↔ Flawless (kind.nesting depth) t :=
  flawless_behind (by simpa using isFlaw_of_punctuation h) (skim_punctuation h)

theorem not_flawless_of_next (h : (next depth c t).1.kind.isFlaw = true) :
    ¬Flawless depth (c :: t) := by
  intro hflawless
  have := flawless_iff.1 hflawless (next depth c t).1 (by rw [scanFrom_cons]; exact List.mem_cons_self)
  rw [h] at this
  cases this

theorem isFlaw_ofBlockComment (t : Text) :
    (ofBlockComment '/' ('*' :: t)).1.kind.isFlaw = true := by
  cases commented t with
  | unclosed hs =>
    rw [ofBlockComment_unclosed hs]
    rfl
  | closed hs =>
    rw [ofBlockComment_closed hs]
    rfl

theorem not_flawless_blockComment : ¬Flawless depth ('/' :: '*' :: t) :=
  not_flawless_of_next (by rw [next_blockComment, isFlaw_ofBlockComment])

theorem not_flawless_lineComment : ¬Flawless 0 ('/' :: '/' :: t) := by
  apply not_flawless_of_next
  rw [next_lineComment]
  rfl

theorem not_flawless_quote (hc : isQuote c = true)
    (h : Text.splitUnescaped (Text.atChar c) t = (t, [])) : ¬Flawless depth (c :: t) := by
  apply not_flawless_of_next
  rw [next_quote hc, ofQuote_unclosed h]
  rfl

/-- What holds of texts when it holds behind each of the things that marks are told by. -/
theorem skim_induction {motive : Nat → Text → Prop} (nil : ∀ depth, motive depth [])
    (pass : ∀ {depth c t}, Passes depth c t → motive depth t → motive depth (c :: t))
    (backslash : ∀ depth, motive depth ['\\'])
    (escape : ∀ {depth t} (c : Char), motive depth t → motive depth ('\\' :: c :: t))
    (punctuation : ∀ {depth c t} {kind : TokenKind}, TokenKind.ofPunctuation? c = some kind →
      motive (kind.nesting depth) t → motive depth (c :: t))
    (string : ∀ {depth c inside t}, isQuote c = true →
      Text.splitUnescaped (Text.atChar c) (inside ++ c :: t) = (inside, c :: t) →
      motive depth t → motive depth (c :: (inside ++ c :: t)))
    (quote : ∀ {depth c t}, isQuote c = true →
      Text.splitUnescaped (Text.atChar c) t = (t, []) → motive depth (c :: t))
    (blockComment : ∀ {depth t}, motive depth ('/' :: '*' :: t))
    (lineComment : ∀ {t}, motive 0 ('/' :: '/' :: t)) (depth : Nat) (t : Text) :
    motive depth t := by
  induction ht : t.length using Nat.strong_induction_on generalizing depth t with
  | _ n ih =>
    subst ht
    cases t with
    | nil => exact nil depth
    | cons c t =>
      cases begins depth c t with
      | punctuation hp => exact punctuation hp (ih _ (by simp) _ _ rfl)
      | lineFeed => exact pass (.bland rfl) (ih _ (by simp) _ _ rfl)
      | carriageReturn => exact pass (.bland rfl) (ih _ (by simp) _ _ rfl)
      | space hs =>
        simp only [Text.atSpacing, Bool.and_eq_true] at hs
        exact pass (.bland (isBland_of_isSpacing hs.1)) (ih _ (by simp) _ _ rfl)
      | quote hq =>
        cases quoted c t with
        | unclosed hs => exact quote hq hs
        | closed hs => exact string hq hs (ih _ (by simp; omega) _ _ rfl)
      | blockComment => exact blockComment
      | lineComment hd => exact hd ▸ lineComment
      | atWord => exact pass (.bland rfl) (ih _ (by simp) _ _ rfl)
      | word hw hat =>
        by_cases hc : c = '\\'
        · subst hc
          cases t with
          | nil => exact backslash depth
          | cons d t =>
            have hlt : t.length < ('\\' :: d :: t).length := Nat.lt_add_of_pos_right Nat.two_pos
            exact escape d (ih _ hlt _ _ rfl)
        · exact pass (passes_of_word hw hc) (ih _ (by simp) _ _ rfl)

/-! ### Texts put together -/

theorem filter_marks (depth : Nat) (t : Text) :
    (skim depth t).1.filter TokenKind.isMark = (skim depth t).1 := by
  rw [skim, List.filter_filter]
  simp

theorem Passes.append (h : Passes depth c t) (hu : ∀ d ∈ u.head?, d ≠ '*' ∧ d ≠ '/') :
    Passes depth c (t ++ u) := by
  cases h with
  | bland hb => exact .bland hb
  | slash hstar hslash =>
    cases t with
    | nil =>
      exact .slash (fun h => (hu _ h).1 rfl) fun _ h => (hu _ h).2 rfl
    | cons d t => exact .slash hstar hslash

/-- A text without flaws can be put before one that begins with a bland character. -/
theorem skim_append_bland (h : Flawless depth t) (hc : isBland c = true) (hstar : c ≠ '*') :
    skim depth (t ++ c :: u) = behind (skim depth t).1 (skim (skim depth t).2 u) := by
  have hhead : ∀ d ∈ (c :: u).head?, d ≠ '*' ∧ d ≠ '/' := by
    rintro d ⟨⟩
    refine ⟨hstar, ?_⟩
    rintro rfl
    simp [isBland] at hc
  induction depth, t using skim_induction with
  | nil depth => rw [List.nil_append, skim_bland hc, skim_nil, behind_nil]
  | pass hp ih =>
    rw [flawless_congr (skim_pass hp)] at h
    rw [List.cons_append, skim_pass (hp.append hhead), ih h, skim_pass hp]
  | backslash depth => rw [List.singleton_append, skim_escape, skim_backslash, behind_nil]
  | escape d ih =>
    rw [flawless_congr (skim_escape ..)] at h
    rw [List.cons_append, List.cons_append, skim_escape, ih h, skim_escape]
  | punctuation hp ih =>
    rw [flawless_punctuation hp] at h
    rw [List.cons_append, skim_punctuation hp, ih h, skim_punctuation hp, ← behind_append, behind,
      behind, behind, List.filter_append, List.filter_append]
    simp [filter_marks]
  | string hq hs ih =>
    rw [flawless_congr (skim_string hq hs)] at h
    rw [List.cons_append, List.append_assoc, List.cons_append,
      skim_string hq (Text.splitUnescaped_closed hs _), ih h, skim_string hq hs]
  | quote hq hs => exact absurd h (not_flawless_quote hq hs)
  | blockComment => exact absurd h not_flawless_blockComment
  | lineComment => exact absurd h not_flawless_lineComment

/-- A string that is not closed is not closed by what has no quote. -/
theorem splitUnescaped_unclosed_append {q : Char}
    (h : Text.splitUnescaped (Text.atChar q) t = (t, [])) (hu : q ∉ u) :
    Text.splitUnescaped (Text.atChar q) (t ++ u) = (t ++ u, []) := by
  generalize hT : t ++ u = T
  cases quoted q T with
  | unclosed hs => exact hs
  | @closed inside left hs =>
    -- The quote that closes the string would stand in `t` and close it there.
    exfalso
    rcases append_eq_append_cons hT with ⟨w, -, rfl⟩ | ⟨w, rfl, -⟩
    · simp at hu
    · rw [Text.splitUnescaped_closed hs w] at h
      simp at h

/-- What stands before bland characters has no flaws if the whole has none. -/
theorem flawless_of_append (hu : ∀ c ∈ u, isBland c = true ∧ c ≠ '*')
    (h : Flawless depth (t ++ u)) : Flawless depth t := by
  have hhead : ∀ d ∈ u.head?, d ≠ '*' ∧ d ≠ '/' := by
    intro d hd
    obtain ⟨hbland, hstar⟩ := hu d (List.mem_of_mem_head? hd)
    refine ⟨hstar, ?_⟩
    rintro rfl
    simp [isBland] at hbland
  induction depth, t using skim_induction with
  | nil depth => exact flawless_nil depth
  | pass hp ih =>
    rw [List.cons_append, flawless_congr (skim_pass (hp.append hhead))] at h
    exact (flawless_congr (skim_pass hp)).2 (ih h)
  | backslash depth =>
    rw [Flawless, skim_backslash]
    simp
  | escape d ih =>
    rw [List.cons_append, List.cons_append, flawless_congr (skim_escape ..)] at h
    exact (flawless_congr (skim_escape ..)).2 (ih h)
  | punctuation hp ih =>
    rw [List.cons_append, flawless_punctuation hp] at h
    exact (flawless_punctuation hp).2 (ih h)
  | string hq hs ih =>
    rw [List.cons_append, List.append_assoc, List.cons_append,
      flawless_congr (skim_string hq (Text.splitUnescaped_closed hs _))] at h
    exact (flawless_congr (skim_string hq hs)).2 (ih h)
  | @quote depth q t hq hs =>
    refine absurd h (not_flawless_quote hq (splitUnescaped_unclosed_append hs fun hmem => ?_))
    have hbland := (hu q hmem).1
    simp [isBland, hq] at hbland
  | blockComment => exact absurd h not_flawless_blockComment
  | lineComment => exact absurd h not_flawless_lineComment

/-! ### Trimming -/

theorem isBland_of_isBlank (h : isBlank c = true) : isBland c = true ∧ c ≠ '*' := by
  refine ⟨?_, by rintro rfl; revert h; decide⟩
  by_contra hc
  simp only [isBland, isQuote, Bool.not_eq_true', Bool.not_eq_false, Bool.or_eq_true,
    decide_eq_true_eq] at hc
  rcases hc with ((((((rfl | rfl) | rfl) | rfl) | rfl) | rfl) | rfl) | rfl <;> revert h <;> decide

theorem skim_trimStart (depth : Nat) (t : Text) : skim depth t.trimStart = skim depth t := by
  have hlead : ∀ c ∈ t.takeWhile isBlank, isBland c = true :=
    fun c hc => (isBland_of_isBlank (List.mem_takeWhile_imp hc)).1
  calc skim depth t.trimStart = skim depth (t.takeWhile isBlank ++ t.trimStart) :=
        (skim_run hlead).symm
    _ = skim depth t := by rw [Text.trimStart, List.takeWhile_append_dropWhile]

/-- Bland characters behind a text without flaws leave its marks as they are. -/
theorem skim_append_run (h : Flawless depth t) (hu : ∀ c ∈ u, isBland c = true ∧ c ≠ '*') :
    skim depth (t ++ u) = skim depth t := by
  cases u with
  | nil => rw [List.append_nil]
  | cons c u =>
    obtain ⟨⟨hbland, hstar⟩, hu⟩ := List.forall_mem_cons.1 hu
    have hrest : skim (skim depth t).2 u = ([], (skim depth t).2) := by
      rw [← List.append_nil u, skim_run fun d hd => (hu d hd).1, skim_nil]
    rw [skim_append_bland h hbland hstar, hrest, behind, filter_marks, List.append_nil]

theorem exists_trimEnd (t : Text) : ∃ u, t = t.trimEnd ++ u ∧ ∀ c ∈ u, isBland c = true ∧ c ≠ '*' :=
  ⟨_, (Text.trimEnd_append_blanks t).symm, fun _ hc =>
    isBland_of_isBlank (List.mem_takeWhile_imp (List.mem_reverse.1 hc))⟩

/-- Trimming a text neither hides a flaw of it nor brings one to light. -/
theorem flawless_trim : Flawless depth t.trim ↔ Flawless depth t := by
  obtain ⟨u, happend, hu⟩ := exists_trimEnd t.trimStart
  rw [← flawless_congr (skim_trimStart depth t), happend, Text.trim]
  exact ⟨fun h => (flawless_congr (skim_append_run h hu)).2 h, fun h => flawless_of_append hu h⟩

theorem skim_trim (h : Flawless depth t) : skim depth t.trim = skim depth t := by
  obtain ⟨u, happend, hu⟩ := exists_trimEnd t.trimStart
  rw [← flawless_trim, Text.trim] at h
  rw [← skim_trimStart depth t, happend, skim_append_run h hu, Text.trim]

end Token

end OffsideCss
