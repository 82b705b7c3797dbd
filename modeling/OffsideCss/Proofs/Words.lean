import OffsideCss.Proofs.LineCut
import OffsideCss.Statement.Reading

/-! Plain words.  A text of words with single blanks between them is scanned as one token for each word
and each blank, and none of it is lost when the tokens are read as a field. -/

namespace OffsideCss

/-- The characters of a plain word. -/
def isNameChar (c : Char) : Bool := c.isAlphanum || c == '-'

namespace Text

/-- Whether a text is a plain word. -/
def IsWord (t : Text) : Prop := t ≠ [] ∧ ∀ c ∈ t, isNameChar c = true

/-- Whether a text is one plain word, or several with single blanks between them. -/
inductive IsWords : Text → Prop
  | word {w : Text} : IsWord w → IsWords w
  | cons {w t : Text} : IsWord w → IsWords t → IsWords (w ++ ' ' :: t)

end Text

section Characters

variable {c : Char} (h : isNameChar c = true)
include h

theorem toNat_lt_of_isNameChar : c.toNat < 128 := by
  rw [isNameChar, Char.isAlphanum] at h
  delta Char.isAlpha Char.isUpper Char.isLower at h
  simp only [Char.isDigit, Bool.or_eq_true, Bool.and_eq_true, decide_eq_true_eq, beq_iff_eq] at h
  rcases h with ((h | h) | h) | rfl
  · exact Nat.lt_of_le_of_lt (UInt32.le_iff_toNat_le.1 h.2) (by decide)
  · exact Nat.lt_of_le_of_lt (UInt32.le_iff_toNat_le.1 h.2) (by decide)
  · exact Nat.lt_of_le_of_lt (UInt32.le_iff_toNat_le.1 h.2) (by decide)
  · decide

/-- The characters of words are few, so what is true of them can be checked one by one. -/
theorem of_isNameChar {p : Char → Bool}
    (hp : ∀ n < 128, isNameChar (Char.ofNat n) = true → p (Char.ofNat n) = false) : p c = false := by
  have := hp c.toNat (toNat_lt_of_isNameChar h)
  rw [Char.ofNat_toNat] at this
  exact this h

theorem isBlank_of_isNameChar : isBlank c = false := of_isNameChar h (by decide +kernel)

theorem endsWord_of_isNameChar : endsWord c = false := of_isNameChar h (by decide +kernel)

theorem endsAtWord_of_isNameChar : endsAtWord c = false := of_isNameChar h (by decide +kernel)

theorem ne_of_isNameChar {d : Char} (hd : isNameChar d = false) : c ≠ d := by
  rintro rfl
  rw [h] at hd
  exact Bool.noConfusion hd

end Characters

namespace Text

theorem isWord_singleton {c : Char} (h : isNameChar c = true) : IsWord [c] :=
  ⟨List.cons_ne_nil c [], List.forall_mem_singleton.2 h⟩

theorem IsWords.mem {t : Text} (h : t.IsWords) : ∀ c ∈ t, isNameChar c = true ∨ c = ' ' := by
  induction h with
  | word hw => exact fun c hc => .inl (hw.2 c hc)
  | cons hw _ ih =>
    intro c hc
    rcases List.mem_append.1 hc with hc | hc
    · exact .inl (hw.2 c hc)
    · exact (List.mem_cons.1 hc).elim .inr (ih c)

theorem IsWords.ne_nil {t : Text} (h : t.IsWords) : t ≠ [] := by
  cases h with
  | word hw => exact hw.1
  | cons hw _ => simp [hw.1]

theorem IsWords.head {t : Text} (h : t.IsWords) : ∀ c ∈ t.head?, isNameChar c = true := by
  cases h with
  | word hw => exact fun c hc => hw.2 c (List.mem_of_mem_head? hc)
  | @cons w t hw _ =>
    intro c hc
    rw [List.head?_append_of_ne_nil _ hw.1] at hc
    exact hw.2 c (List.mem_of_mem_head? hc)

theorem IsWords.last {t : Text} (h : t.IsWords) : ∀ c ∈ t.getLast?, isNameChar c = true := by
  induction h with
  | word hw => exact fun c hc => hw.2 c (List.mem_of_getLast? hc)
  | @cons w t _ ht ih =>
    intro c hc
    rw [List.getLast?_append_of_ne_nil _ (List.cons_ne_nil _ _),
      List.getLast?_cons_of_ne_nil ht.ne_nil] at hc
    exact ih c hc

theorem IsWords.trimStart_append {t : Text} (h : t.IsWords) (u : Text) :
    trimStart (t ++ u) = t ++ u := by
  cases t with
  | nil => exact absurd rfl h.ne_nil
  | cons c t => simp [trimStart, isBlank_of_isNameChar (h.head c rfl)]

theorem IsWords.trimEnd_eq {t : Text} (h : t.IsWords) : t.trimEnd = t := by
  obtain ⟨t, c, rfl⟩ := (List.eq_nil_or_concat t).resolve_left h.ne_nil
  simp [trimEnd, isBlank_of_isNameChar (h.last c (by simp))]

theorem IsWords.trim_eq {t : Text} (h : t.IsWords) : t.trim = t := by
  have hstart := h.trimStart_append []
  rw [List.append_nil] at hstart
  rw [trim, hstart, h.trimEnd_eq]

end Text

namespace Token

/-- Whether tokens are words with single blanks between them. -/
inductive Words : List Token → Prop
  | word {w : Text} : w.IsWord → Words [⟨.word, w⟩]
  | cons {w : Text} {ts : List Token} :
      w.IsWord → Words ts → Words (⟨.word, w⟩ :: ⟨.space, [' ']⟩ :: ts)

theorem exists_words {t : Text} (h : t.IsWords) : ∃ ts, Words ts ∧ join ts = t := by
  induction h with
  | word hw => exact ⟨_, .word hw, by simp⟩
  | cons hw _ ih =>
    obtain ⟨ts, hts, rfl⟩ := ih
    exact ⟨_, .cons hw hts, by simp⟩

variable {depth : Nat} {tail : Text} {ts : List Token}

/-- Whether a word ends before a text. -/
def EndsWord (tail : Text) : Prop := ∀ c ∈ tail.head?, endsWord c = true

theorem scanFrom_word {w : Text} (hw : w.IsWord) (htail : EndsWord tail) :
    scanFrom depth (w ++ tail) = ⟨.word, w⟩ :: scanFrom depth tail := by
  have hchar : ∀ c ∈ w, c ≠ '\\' ∧ ∀ u, Text.atWordEnd depth (c :: u) = false := by
    intro c hc
    have hne : c ≠ '/' := ne_of_isNameChar (hw.2 c hc) (by decide)
    refine ⟨ne_of_isNameChar (hw.2 c hc) (by decide), fun u => ?_⟩
    simp [Text.atWordEnd, endsWord_of_isNameChar (hw.2 c hc), Text.atBlockComment,
      Text.atLineComment, hne]
  have hstop : tail = [] ∨ Text.atWordEnd depth tail = true := by
    cases tail with
    | nil => exact .inl rfl
    | cons c tail => exact .inr (by simp [Text.atWordEnd, htail c rfl])
  have hrun := Text.splitUnescaped_run_append hchar hstop
  cases w with
  | nil => exact absurd rfl hw.1
  | cons c w =>
    have hat : c ≠ '@' := ne_of_isNameChar (hw.2 c List.mem_cons_self) (by decide)
    rw [List.cons_append] at hrun ⊢
    rw [scanFrom_cons, next_word ((hchar c List.mem_cons_self).2 _) hat, hrun]
    rfl

theorem atSpacing_words (h : Words ts) : Text.atSpacing (join ts ++ tail) = false := by
  have key : ∀ {w : Text} {u : Text}, w.IsWord → Text.atSpacing (w ++ u) = false := by
    intro w u hw
    cases w with
    | nil => exact absurd rfl hw.1
    | cons c w =>
      have := endsWord_of_isNameChar (hw.2 c List.mem_cons_self)
      simp only [endsWord, Bool.or_eq_false_iff] at this
      simp [Text.atSpacing, this.1.2]
  cases h with
  | word hw => simpa using key hw
  | cons hw _ => simpa using key hw

theorem scanFrom_space_words (h : Words ts) :
    scanFrom depth (' ' :: (join ts ++ tail)) = ⟨.space, [' ']⟩ :: scanFrom depth (join ts ++ tail) :=
  scanFrom_spaces (List.cons_ne_nil ' ' []) (by simp) (atSpacing_words h)

theorem scanFrom_words (h : Words ts) (htail : EndsWord tail) :
    scanFrom depth (join ts ++ tail) = ts ++ scanFrom depth tail := by
  induction h with
  | word hw => simpa using scanFrom_word hw htail
  | @cons w ts hw hts ih =>
    rw [join_cons, join_cons, List.append_assoc, List.append_assoc, List.singleton_append,
      scanFrom_word hw (by simp [EndsWord, endsWord, isSpacing]), scanFrom_space_words hts, ih]
    rfl

theorem Words.kind (h : Words ts) : ∀ t ∈ ts, t.kind = .word ∨ t.kind = .space := by
  induction h with
  | word => simp
  | cons _ _ ih => simpa using ih

theorem Words.eq_cons (h : Words ts) : ∃ w rest, ts = ⟨.word, w⟩ :: rest := by
  cases h
  · exact ⟨_, _, rfl⟩
  · exact ⟨_, _, rfl⟩

theorem Words.join_isWords (h : Words ts) : (join ts).IsWords := by
  induction h with
  | word hw => simpa using .word hw
  | cons hw _ ih => simpa using .cons hw ih

theorem Words.clean_eq (h : Words ts) : clean ts = (join ts, none) := by
  have hfilter : ts.filter (fun t => !t.kind.isComment) = ts :=
    List.filter_eq_self.2 fun t ht => by
      rcases h.kind t ht with hk | hk <;> simp [hk, TokenKind.isComment]
  simp [clean, hfilter, h.join_isWords.trim_eq]

theorem splitTrailing_of_last {us : List Token} {t : Token} (ht : t.isWhitespace = false) :
    splitTrailing (us ++ [t]) = (us ++ [t], []) := by
  simp [splitTrailing, ht]

theorem Words.exists_last (h : Words ts) : ∃ us t, ts = us ++ [t] ∧ t.kind = .word := by
  induction h with
  | word => exact ⟨[], _, rfl, rfl⟩
  | @cons w ts _ _ ih =>
    obtain ⟨us, t, rfl, ht⟩ := ih
    exact ⟨⟨.word, w⟩ :: ⟨.space, [' ']⟩ :: us, t, rfl, ht⟩

theorem Words.splitTrailing_append (h : Words ts) (front : List Token) :
    splitTrailing (front ++ ts) = (front ++ ts, []) := by
  obtain ⟨us, t, rfl, ht⟩ := h.exists_last
  rw [← List.append_assoc]
  exact splitTrailing_of_last (by simp [isWhitespace, ht, TokenKind.isWhitespace])

theorem Words.splitLeading_space (h : Words ts) :
    splitLeading (⟨.space, [' ']⟩ :: ts) = ([⟨.space, [' ']⟩], ts) := by
  cases h <;> rfl

end Token

end OffsideCss
