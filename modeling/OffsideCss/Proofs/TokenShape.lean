import Mathlib.Data.List.Chain
import OffsideCss.Token.Scan

/-! The shape of tokens.  The kind of a token tells how its text begins and ends, and which
characters stand in it. -/

namespace OffsideCss

/-- The texts that a token of a kind can have. -/
def TokenKind.Spells : TokenKind → Text → Prop
  | colon, t => t = [':']
  | semicolon, t => t = [';']
  | comma, t => t = [',']
  | leftBrace, t => t = ['\x7b']
  | rightBrace, t => t = ['\x7d']
  | leftParen, t => t = ['(']
  | rightParen, t => t = [')']
  | word, t => t ≠ [] ∧ ∀ a c b, t = a ++ c :: b → endsWord c = true → '\\' ∈ a
  | atWord, t => ∃ name, t = '@' :: name ∧ ∀ c ∈ name, endsAtWord c = false
  | string, t => ∃ quote inside, isQuote quote = true ∧ t = quote :: inside ++ [quote]
  | lineComment, t => ∃ body, t = '/' :: '/' :: body
  | blockComment, t => ∃ body, t = '/' :: '*' :: body ++ ['*', '/']
  | space, t => t ≠ [] ∧ ∀ c ∈ t, isSpacing c = true
  | lineBreak, t => t = ['\n'] ∨ t = ['\r', '\n']
  | unclosed, t => (∃ quote inside, isQuote quote = true ∧ t = quote :: inside) ∨
      ∃ inside, t = '/' :: '*' :: inside

/-- The characters that are tokens of their own, with the kinds of these. -/
inductive TokenKind.Punctuates : Char → TokenKind → Prop
  | colon : Punctuates ':' .colon
  | semicolon : Punctuates ';' .semicolon
  | comma : Punctuates ',' .comma
  | leftBrace : Punctuates '\x7b' .leftBrace
  | rightBrace : Punctuates '\x7d' .rightBrace
  | leftParen : Punctuates '(' .leftParen
  | rightParen : Punctuates ')' .rightParen

theorem TokenKind.punctuates {c : Char} {kind : TokenKind} (h : ofPunctuation? c = some kind) :
    Punctuates c kind := by
  unfold ofPunctuation? at h
  repeat' split at h
  all_goals cases h
  all_goals
    subst c
    constructor

theorem TokenKind.spells_ofPunctuation {c : Char} {kind : TokenKind}
    (h : ofPunctuation? c = some kind) : kind.Spells [c] := by
  cases punctuates h <;> rfl

theorem TokenKind.Spells.ne_nil {k : TokenKind} {t : Text} (h : k.Spells t) : t ≠ [] := by
  cases k
  case word => exact h.1
  case space => exact h.1
  case atWord =>
    obtain ⟨name, rfl, -⟩ := h
    exact List.cons_ne_nil _ _
  case string =>
    obtain ⟨quote, inside, -, rfl⟩ := h
    exact List.cons_ne_nil _ _
  case lineComment =>
    obtain ⟨body, rfl⟩ := h
    exact List.cons_ne_nil _ _
  case blockComment =>
    obtain ⟨body, rfl⟩ := h
    exact List.cons_ne_nil _ _
  case lineBreak => rcases h with rfl | rfl <;> exact List.cons_ne_nil _ _
  case unclosed =>
    rcases h with ⟨quote, inside, -, rfl⟩ | ⟨inside, rfl⟩ <;> exact List.cons_ne_nil _ _
  all_goals
    obtain rfl : t = [_] := h
    exact List.cons_ne_nil _ _

namespace Text

theorem splitBefore_stop (stop : Text → Bool) (t : Text) :
    (t.splitBefore stop).2 = [] ∨ stop (t.splitBefore stop).2 = true := by
  induction t with
  | nil => exact .inl rfl
  | cons c t ih =>
    by_cases h : stop (c :: t) = true
    · exact .inr (by simp [splitBefore, h])
    · simpa [splitBefore, h] using ih

theorem splitBefore_run {stop : Text → Bool} {p : Char → Bool}
    (hp : ∀ c t, p c = true → stop (c :: t) = true) {t : Text} {c : Char}
    (hc : c ∈ (t.splitBefore stop).1) : p c = false := by
  induction t with
  | nil => simp [splitBefore] at hc
  | cons d t ih =>
    by_cases h : stop (d :: t) = true
    · simp [splitBefore, h] at hc
    · simp only [splitBefore, h, Bool.false_eq_true, if_false, List.mem_cons] at hc
      rcases hc with rfl | hc
      · exact Bool.eq_false_iff.2 fun hd => h (hp _ _ hd)
      · exact ih hc

theorem splitUnescaped_stop (stop : Text → Bool) (t : Text) :
    (t.splitUnescaped stop).2 = [] ∨ stop (t.splitUnescaped stop).2 = true := by
  fun_induction splitUnescaped stop t <;> simp_all

/-- What satisfies the test stands in an escaped run only behind a backslash. -/
theorem splitUnescaped_run {stop : Text → Bool} {p : Char → Bool}
    (hp : ∀ c t, p c = true → stop (c :: t) = true) {t a b : Text} {c : Char}
    (h : (t.splitUnescaped stop).1 = a ++ c :: b) (hc : p c = true) : '\\' ∈ a := by
  fun_induction splitUnescaped stop t generalizing a with
  | case1 => simp at h
  | case2 d hd => simp at h
  | case3 d hd =>
    obtain ⟨rfl, rfl, rfl⟩ : a = [] ∧ d = c ∧ b = [] := by
      cases a <;> simp_all
    exact absurd (hp _ _ hc) hd
  | case4 => simp at h
  | case5 e rest run left hs hd ih =>
    cases a with
    | nil =>
      obtain ⟨rfl, -⟩ := List.cons.inj h
      exact absurd (hp _ _ hc) hd
    | cons x a =>
      obtain ⟨rfl, -⟩ := List.cons.inj h
      exact List.mem_cons_self
  | case6 d e rest hd hesc run left hs ih =>
    cases a with
    | nil =>
      obtain ⟨rfl, -⟩ := List.cons.inj h
      exact absurd (hp _ _ hc) hd
    | cons x a =>
      rw [hs] at ih
      exact List.mem_cons_of_mem _ (ih (List.cons.inj h).2)

end Text

namespace Token

/-! ### The first token, by what the text begins with -/

section First

variable {depth : Nat} {c : Char} {rest : Text}

theorem next_punctuation {kind : TokenKind} (h : TokenKind.ofPunctuation? c = some kind) :
    next depth c rest = (⟨kind, [c]⟩, rest) := by
  simp [next, h]

theorem next_lineFeed : next depth '\n' rest = (⟨.lineBreak, ['\n']⟩, rest) := by
  simp [next, TokenKind.ofPunctuation?]

theorem next_carriageReturn :
    next depth '\r' ('\n' :: rest) = (⟨.lineBreak, ['\r', '\n']⟩, rest) := by
  simp [next, TokenKind.ofPunctuation?, Text.atLineBreak]

theorem next_space (h : Text.atSpacing (c :: rest) = true) :
    next depth c rest = ofRun .space [c] (Text.splitBefore (fun t => !t.atSpacing) rest) := by
  simp only [Text.atSpacing, Bool.and_eq_true, Bool.not_eq_true'] at h
  obtain ⟨hs, hb⟩ := h
  have hp : TokenKind.ofPunctuation? c = none := by
    simp only [isSpacing, Bool.or_eq_true, decide_eq_true_eq] at hs
    rcases hs with ((rfl | rfl) | rfl) | rfl <;> rfl
  have hc : c ≠ '\n' := by rintro rfl; simp [Text.atLineBreak] at hb
  simp [next, hp, hc, hb, hs]

theorem next_quote (h : isQuote c = true) : next depth c rest = ofQuote c rest := by
  simp only [isQuote, Bool.or_eq_true, decide_eq_true_eq] at h
  rcases h with rfl | rfl <;>
    simp [next, TokenKind.ofPunctuation?, Text.atLineBreak, isSpacing, isQuote]

theorem next_blockComment :
    next depth '/' ('*' :: rest) = ofBlockComment '/' ('*' :: rest) := by
  simp [next, TokenKind.ofPunctuation?, Text.atLineBreak, isSpacing, isQuote, Text.atBlockComment]

theorem next_lineComment : next 0 '/' ('/' :: rest) =
    ofRun .lineComment ['/'] (Text.splitBefore Text.atLineBreak ('/' :: rest)) := by
  simp [next, TokenKind.ofPunctuation?, Text.atLineBreak, isSpacing, isQuote, Text.atBlockComment,
    Text.atLineComment]

theorem next_atWord : next depth '@' rest =
    ofRun .atWord ['@'] (Text.splitBefore Text.atAtWordEnd rest) := by
  simp [next, TokenKind.ofPunctuation?, Text.atLineBreak, isSpacing, isQuote, Text.atBlockComment,
    Text.atLineComment]

theorem next_word (h : Text.atWordEnd depth (c :: rest) = false) (hat : c ≠ '@') :
    next depth c rest = ofRun .word [] (Text.splitUnescaped (Text.atWordEnd depth) (c :: rest)) := by
  simp only [Text.atWordEnd, endsWord, Bool.or_eq_false_iff, decide_eq_false_iff_not] at h
  obtain ⟨⟨⟨⟨⟨hp, hn⟩, hs⟩, hq⟩, hb⟩, hl⟩ := h
  have hr : Text.atLineBreak (c :: rest) = false := by
    have : c ≠ '\r' := by rintro rfl; simp [isSpacing] at hs
    simp [Text.atLineBreak, hn, this]
  simp only [next, Option.isSome_eq_false_iff.1 hp |> Option.isNone_iff_eq_none.1]
  simp [hn, hr, hs, hq, hb, hl, hat]

/-- What a text begins with, which decides its first token. -/
inductive Begins (depth : Nat) : Char → Text → Prop
  | punctuation {c : Char} {rest : Text} {kind : TokenKind} :
      TokenKind.ofPunctuation? c = some kind → Begins depth c rest
  | lineFeed {rest : Text} : Begins depth '\n' rest
  | carriageReturn {rest : Text} : Begins depth '\r' ('\n' :: rest)
  | space {c : Char} {rest : Text} : Text.atSpacing (c :: rest) = true → Begins depth c rest
  | quote {c : Char} {rest : Text} : isQuote c = true → Begins depth c rest
  | blockComment {rest : Text} : Begins depth '/' ('*' :: rest)
  | lineComment {rest : Text} : depth = 0 → Begins depth '/' ('/' :: rest)
  | atWord {rest : Text} : Begins depth '@' rest
  | word {c : Char} {rest : Text} :
      Text.atWordEnd depth (c :: rest) = false → c ≠ '@' → Begins depth c rest

theorem begins (depth : Nat) (c : Char) (rest : Text) : Begins depth c rest := by
  by_cases hw : Text.atWordEnd depth (c :: rest) = true
  · simp only [Text.atWordEnd, endsWord, Bool.or_eq_true, decide_eq_true_eq] at hw
    rcases hw with ((((hp | rfl) | hs) | hq) | hb) | hl
    · obtain ⟨kind, hk⟩ := Option.isSome_iff_exists.1 hp
      exact .punctuation hk
    · exact .lineFeed
    · by_cases hb : Text.atLineBreak (c :: rest) = true
      · simp only [Text.atLineBreak, Bool.or_eq_true, Bool.and_eq_true, decide_eq_true_eq] at hb
        rcases hb with rfl | ⟨rfl, hh⟩
        · exact .lineFeed
        · obtain ⟨tail, rfl⟩ := List.head?_eq_some_iff.1 hh
          exact .carriageReturn
      · exact .space (by simp [Text.atSpacing, hs, hb])
    · exact .quote hq
    · simp only [Text.atBlockComment, Bool.and_eq_true, decide_eq_true_eq] at hb
      obtain ⟨rfl, hh⟩ := hb
      obtain ⟨tail, rfl⟩ := List.head?_eq_some_iff.1 hh
      exact .blockComment
    · simp only [Text.atLineComment, Bool.and_eq_true, decide_eq_true_eq] at hl
      obtain ⟨⟨hd, rfl⟩, hh⟩ := hl
      obtain ⟨tail, rfl⟩ := List.head?_eq_some_iff.1 hh
      exact .lineComment hd
  · by_cases hat : c = '@'
    · exact hat ▸ .atWord
    · exact .word (Bool.eq_false_iff.2 hw) hat

/-! ### Where strings and block comments are closed -/

/-- What stands behind the quote `c`: the string that it opens is not closed, or its own quote closes
it. -/
inductive Quoted (c : Char) : Text → Prop
  | unclosed {rest : Text} :
      Text.splitUnescaped (Text.atChar c) rest = (rest, []) → Quoted c rest
  | closed {inside left : Text} :
      Text.splitUnescaped (Text.atChar c) (inside ++ c :: left) = (inside, c :: left) →
        Quoted c (inside ++ c :: left)

theorem quoted (c : Char) (rest : Text) : Quoted c rest := by
  have happend := Text.splitUnescaped_append (Text.atChar c) rest
  have hstop := Text.splitUnescaped_stop (Text.atChar c) rest
  cases hs : Text.splitUnescaped (Text.atChar c) rest with
  | mk inside left =>
    rw [hs] at happend hstop
    obtain rfl : inside ++ left = rest := happend
    cases left with
    | nil =>
      rw [List.append_nil] at hs ⊢
      exact .unclosed hs
    | cons close left =>
      obtain rfl : close = c := by simpa [Text.atChar] using hstop
      exact .closed hs

theorem ofQuote_unclosed (h : Text.splitUnescaped (Text.atChar c) rest = (rest, [])) :
    ofQuote c rest = (⟨.unclosed, c :: rest⟩, []) := by
  rw [ofQuote, h]

theorem ofQuote_closed {inside left : Text}
    (h : Text.splitUnescaped (Text.atChar c) (inside ++ c :: left) = (inside, c :: left)) :
    ofQuote c (inside ++ c :: left) = (⟨.string, c :: inside ++ [c]⟩, left) := by
  rw [ofQuote, h]

/-- What stands behind a slash and a star: the comment that they open is not closed, or a star and a
slash close it. -/
inductive Commented : Text → Prop
  | unclosed {rest : Text} : Text.splitBefore Text.atBlockEnd rest = (rest, []) → Commented rest
  | closed {inside left : Text} :
      Text.splitBefore Text.atBlockEnd (inside ++ '*' :: '/' :: left) =
          (inside, '*' :: '/' :: left) →
        Commented (inside ++ '*' :: '/' :: left)

theorem commented (rest : Text) : Commented rest := by
  have happend := Text.splitBefore_append Text.atBlockEnd rest
  have hstop := Text.splitBefore_stop Text.atBlockEnd rest
  cases hs : Text.splitBefore Text.atBlockEnd rest with
  | mk inside left =>
    rw [hs] at happend hstop
    obtain rfl : inside ++ left = rest := happend
    rcases left with _ | ⟨a, _ | ⟨b, left⟩⟩
    · rw [List.append_nil] at hs ⊢
      exact .unclosed hs
    · simp [Text.atBlockEnd] at hstop
    · obtain ⟨rfl, rfl⟩ : a = '*' ∧ b = '/' := by simpa [Text.atBlockEnd] using hstop
      exact .closed hs

theorem ofBlockComment_unclosed (h : Text.splitBefore Text.atBlockEnd rest = (rest, [])) :
    ofBlockComment '/' ('*' :: rest) = (⟨.unclosed, '/' :: '*' :: rest⟩, []) := by
  simp only [ofBlockComment, List.drop_succ_cons, List.drop_zero, h]
  rfl

theorem ofBlockComment_closed {inside left : Text}
    (h : Text.splitBefore Text.atBlockEnd (inside ++ '*' :: '/' :: left) =
      (inside, '*' :: '/' :: left)) :
    ofBlockComment '/' ('*' :: (inside ++ '*' :: '/' :: left)) =
      (⟨.blockComment, '/' :: '*' :: inside ++ ['*', '/']⟩, left) := by
  simp only [ofBlockComment, List.drop_succ_cons, List.drop_zero, h]
  rfl

end First

/-! ### The text of a token -/

theorem spells_ofQuote {c : Char} (hc : isQuote c = true) (rest : Text) :
    (ofQuote c rest).1.kind.Spells (ofQuote c rest).1.text := by
  cases quoted c rest with
  | unclosed hs =>
    rw [ofQuote_unclosed hs]
    exact .inl ⟨c, rest, hc, rfl⟩
  | @closed inside left hs =>
    rw [ofQuote_closed hs]
    exact ⟨c, inside, hc, rfl⟩

theorem spells_ofBlockComment (rest : Text) :
    (ofBlockComment '/' ('*' :: rest)).1.kind.Spells (ofBlockComment '/' ('*' :: rest)).1.text := by
  cases commented rest with
  | unclosed hs =>
    rw [ofBlockComment_unclosed hs]
    exact .inr ⟨rest, rfl⟩
  | @closed inside left hs =>
    rw [ofBlockComment_closed hs]
    exact ⟨inside, rfl⟩

/-- The text of a token fits its kind. -/
theorem spells_next (depth : Nat) (c : Char) (rest : Text) :
    (next depth c rest).1.kind.Spells (next depth c rest).1.text := by
  cases begins depth c rest with
  | punctuation h =>
    rw [next_punctuation h]
    exact TokenKind.spells_ofPunctuation h
  | lineFeed =>
    rw [next_lineFeed]
    exact .inl rfl
  | carriageReturn =>
    rw [next_carriageReturn]
    exact .inr rfl
  | space h =>
    rw [next_space h]
    refine ⟨by simp [ofRun], fun d hd => ?_⟩
    rcases List.mem_cons.1 hd with rfl | hd
    · simp_all [Text.atSpacing]
    · simpa using Text.splitBefore_run (p := fun d => !isSpacing d)
        (fun d t hd => by simp_all [Text.atSpacing]) hd
  | quote h =>
    rw [next_quote h]
    exact spells_ofQuote h rest
  | blockComment =>
    rw [next_blockComment]
    exact spells_ofBlockComment _
  | lineComment h =>
    subst h
    rw [next_lineComment, Text.splitBefore]
    exact ⟨_, rfl⟩
  | atWord =>
    rw [next_atWord]
    exact ⟨_, rfl, fun d hd => Text.splitBefore_run (p := endsAtWord) (fun d t hd => hd) hd⟩
  | word h hat =>
    rw [next_word h hat]
    refine ⟨Text.splitUnescaped_ne_nil h, fun a d b ht hd => ?_⟩
    exact Text.splitUnescaped_run (p := endsWord)
      (fun d t hd => by simp [Text.atWordEnd, hd]) ht hd

theorem spells_of_mem_scanFrom {depth : Nat} {t : Text} {tok : Token}
    (h : tok ∈ scanFrom depth t) : tok.kind.Spells tok.text := by
  fun_induction scanFrom depth t with
  | case1 => simp at h
  | case2 depth c rest step ih =>
    rcases List.mem_cons.1 h with rfl | h
    · exact spells_next depth c rest
    · exact ih h

theorem spells_of_mem_scan {t : Text} {tok : Token} (h : tok ∈ scan t) :
    tok.kind.Spells tok.text :=
  spells_of_mem_scanFrom h

/-! ### Tokens next to each other -/

/-- A run of blanks, or a comment with two slashes, leaves no more of what it is made of. -/
theorem next_stop (depth : Nat) (c : Char) (rest : Text) :
    ((next depth c rest).1.kind = .space → Text.atSpacing (c :: rest) = true ∧
      Text.atSpacing (next depth c rest).2 = false) ∧
    ((next depth c rest).1.kind = .lineComment → (next depth c rest).2 = [] ∨
      Text.atLineBreak (next depth c rest).2 = true) := by
  cases begins depth c rest with
  | punctuation hp =>
    rw [next_punctuation hp]
    cases TokenKind.punctuates hp <;> simp
  | lineFeed => simp [next_lineFeed]
  | carriageReturn => simp [next_carriageReturn]
  | space hs =>
    rw [next_space hs]
    have hstop := Text.splitBefore_stop (fun t => !t.atSpacing) rest
    refine ⟨fun _ => ⟨hs, ?_⟩, by simp [ofRun]⟩
    rcases hstop with hstop | hstop
    · rw [ofRun, hstop]
      rfl
    · simpa [ofRun] using hstop
  | quote hq =>
    rw [next_quote hq, ofQuote]
    split <;> simp
  | blockComment =>
    rw [next_blockComment, ofBlockComment]
    split <;> simp
  | lineComment hd =>
    subst hd
    rw [next_lineComment]
    exact ⟨by simp [ofRun], fun _ => Text.splitBefore_stop Text.atLineBreak _⟩
  | atWord => simp [next_atWord, ofRun]
  | word hw hat => simp [next_word hw hat, ofRun]

theorem next_of_atLineBreak {depth : Nat} {c : Char} {rest : Text}
    (h : Text.atLineBreak (c :: rest) = true) : (next depth c rest).1.kind = .lineBreak := by
  simp only [Text.atLineBreak, Bool.or_eq_true, Bool.and_eq_true, decide_eq_true_eq] at h
  rcases h with rfl | ⟨rfl, hh⟩
  · rw [next_lineFeed]
  · obtain ⟨tail, rfl⟩ := List.head?_eq_some_iff.1 hh
    rw [next_carriageReturn]

end Token

/-- Whether a token of the one kind can stand right before one of the other: two runs of blanks are
one, and a comment with two slashes goes up to the line break. -/
def TokenKind.Precedes (a b : TokenKind) : Prop :=
  (a = .space → b ≠ .space) ∧ (a = .lineComment → b = .lineBreak)

namespace Token

theorem isChain_scanFrom (depth : Nat) (t : Text) :
    (scanFrom depth t).IsChain fun a b => a.kind.Precedes b.kind := by
  fun_induction scanFrom depth t with
  | case1 => exact .nil
  | case2 depth c rest step ih =>
    cases hs : step.2 with
    | nil => simp
    | cons d rest' =>
      rw [hs, scanFrom_cons] at ih
      rw [scanFrom_cons]
      obtain ⟨hspace, hcomment⟩ := next_stop depth c rest
      refine .cons_cons ⟨fun hk hk' => ?_, fun hk => ?_⟩ ih
      · have hd := ((next_stop _ d rest').1 hk').1
        rw [← hs, (hspace hk).2] at hd
        exact Bool.noConfusion hd
      · exact next_of_atLineBreak (hs ▸ (hcomment hk).resolve_left (by simp [step, hs]))

/-! ### Tokens and their places -/

theorem placed_append (p : Place) (ts us : List Token) :
    placed p (ts ++ us) = placed p ts ++ placed (p.after (join ts)) us := by
  induction ts generalizing p with
  | nil => rfl
  | cons t ts ih => rw [List.cons_append, placed, ih, placed, join_cons, Place.after_append,
      List.cons_append]

theorem locate?_cons (p : Token → Bool) (place : Place) (t : Token) (ts : List Token) :
    locate? p place (t :: ts) =
      if p t = true then some (place, t) else locate? p (place.after t.text) ts := by
  by_cases h : p t = true <;> simp [locate?, placed, h]

theorem locate?_eq_none {p : Token → Bool} {place : Place} {ts : List Token} :
    locate? p place ts = none ↔ ∀ t ∈ ts, p t = false := by
  induction ts generalizing place with
  | nil => simp [locate?, placed]
  | cons t ts ih =>
    rw [locate?_cons]
    by_cases h : p t = true <;> simp [h, ih]

theorem locate?_eq_some {p : Token → Bool} {place found : Place} {ts : List Token} {t : Token}
    (h : locate? p place ts = some (found, t)) :
    ∃ pre post, ts = pre ++ t :: post ∧ found = place.after (join pre) ∧ p t = true := by
  induction ts generalizing place with
  | nil => simp [locate?, placed] at h
  | cons u ts ih =>
    rw [locate?_cons] at h
    split at h
    · next hu =>
      obtain ⟨rfl, rfl⟩ := Prod.mk.inj (Option.some.inj h)
      exact ⟨[], ts, rfl, rfl, hu⟩
    · obtain ⟨pre, post, rfl, rfl, ht⟩ := ih h
      exact ⟨u :: pre, post, rfl, by simp, ht⟩

end Token

end OffsideCss
