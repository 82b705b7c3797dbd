import OffsideCss.Proofs.FaultPlace
import OffsideCss.Proofs.ScanAppend

/-! Tiling.  The tokens of a text stand side by side from its beginning to its end.  The kind of a
token tells its text exactly: where it begins, that it does not end earlier, and what may stand
around it. -/

namespace OffsideCss

open Token (join scan)

namespace Text

/-! ### Escapes -/

/-- Whether a text ends with an odd number of backslashes, so that the character behind it is
escaped. -/
def Escapes (t : Text) : Prop := (t.reverse.takeWhile (· = '\\')).length % 2 = 1

variable {t a b : Text} {c d : Char}

theorem not_escapes_nil : ¬Escapes [] := by simp [Escapes]

theorem escapes_cons (hc : c ≠ '\\') : Escapes (c :: t) ↔ Escapes t := by
  rw [Escapes, Escapes, List.reverse_cons, List.takeWhile_append]
  split
  · next h => simp [hc, h]
  · rfl

/-- An escaped character at the beginning does not matter, whatever it is. -/
theorem escapes_escape : Escapes ('\\' :: d :: t) ↔ Escapes t := by
  have happend : ('\\' :: d :: t).reverse = t.reverse ++ [d, '\\'] := by simp
  rw [Escapes, Escapes, happend, List.takeWhile_append]
  split
  · next h =>
    by_cases hd : d = '\\' <;> simp [hd, h]
  · rfl

section Run

variable {stop : Text → Bool}

/-- What satisfies the test stands in an escaped run only where it is escaped. -/
theorem escapes_of_splitUnescaped {p : Char → Bool} (hp : ∀ c t, p c = true → stop (c :: t) = true)
    (h : (t.splitUnescaped stop).1 = a ++ c :: b) (hc : p c = true) : a.Escapes := by
  fun_induction splitUnescaped stop t generalizing a with
  | case1 => simp at h
  | case2 => simp at h
  | case3 d hd =>
    obtain ⟨rfl, rfl⟩ : a = [] ∧ d = c := by cases a <;> simp_all
    exact absurd (hp _ _ hc) hd
  | case4 => simp at h
  | case5 e rest run left hs hd ih =>
    rcases a with _ | ⟨x, _ | ⟨y, a⟩⟩
    · obtain ⟨rfl, -⟩ := List.cons.inj h
      exact absurd (hp _ _ hc) hd
    · obtain ⟨rfl, -⟩ := List.cons.inj h
      rfl
    · obtain ⟨rfl, hrest⟩ := List.cons.inj h
      rw [hs] at ih
      exact escapes_escape.2 (ih (List.cons.inj hrest).2)
  | case6 d e rest hd hesc run left hs ih =>
    cases a with
    | nil =>
      obtain ⟨rfl, -⟩ := List.cons.inj h
      exact absurd (hp _ _ hc) hd
    | cons x a =>
      obtain ⟨rfl, hrest⟩ := List.cons.inj h
      rw [hs] at ih
      exact (escapes_cons hesc).2 (ih hrest)

/-- What ends an escaped run is not escaped. -/
theorem not_escapes_splitUnescaped (h : (t.splitUnescaped stop).2 ≠ []) :
    ¬(t.splitUnescaped stop).1.Escapes := by
  fun_induction splitUnescaped stop t with
  | case1 | case3 => simp at h
  | case2 | case4 => exact not_escapes_nil
  | case5 e rest run left hs hd ih =>
    rw [hs] at ih
    exact fun hesc => ih h (escapes_escape.1 hesc)
  | case6 d e rest hd hc run left hs ih =>
    rw [hs] at ih
    exact fun hesc => ih h ((escapes_cons hc).1 hesc)

/-- Nothing before the end of a run ends it. -/
theorem stop_splitBefore (h : (t.splitBefore stop).1 = a ++ b) (hb : b ≠ []) :
    stop (b ++ (t.splitBefore stop).2) = false := by
  induction t generalizing a with
  | nil =>
    obtain ⟨-, rfl⟩ := List.append_eq_nil_iff.1 h.symm
    exact absurd rfl hb
  | cons c t ih =>
    by_cases hs : stop (c :: t) = true
    · rw [splitBefore_of_stop hs] at h
      obtain ⟨-, rfl⟩ := List.append_eq_nil_iff.1 h.symm
      exact absurd rfl hb
    · rw [Bool.not_eq_true] at hs
      rw [splitBefore_cons hs] at h ⊢
      cases a with
      | nil =>
        obtain rfl : c :: (splitBefore stop t).1 = b := h
        rw [List.cons_append, Text.splitBefore_append]
        exact hs
      | cons x a => exact ih (List.cons.inj h).2

end Run

end Text

/-! ### The text of each kind -/

/-- Whether a token of a kind can have the text `t` between the tokens `before` and `after`. -/
def TokenKind.Fits (before : List Token) (t : Text) (after : List Token) : TokenKind → Prop
  | colon => t = [':']
  | semicolon => t = [';']
  | comma => t = [',']
  | leftBrace => t = ['\x7b']
  | rightBrace => t = ['\x7d']
  | leftParen => t = ['(']
  | rightParen => t = [')']
  | word => t ≠ [] ∧ ∀ a c b, t = a ++ c :: b → endsWord c = true → Text.Escapes a
  | atWord => t.head? = some '@' ∧ ∀ c ∈ t, endsAtWord c = false
  | string => ∃ quote inside, isQuote quote = true ∧ t = quote :: inside ++ [quote] ∧
      ¬Text.Escapes inside ∧ ∀ a b, inside = a ++ quote :: b → Text.Escapes a
  | lineComment => ['/', '/'] <+: t ∧ '\n' ∉ t ∧ Token.depthAfter 0 before = 0 ∧
      ∀ u ∈ after.head?, u.kind = .lineBreak
  | blockComment => ∃ inside, t = '/' :: '*' :: inside ++ ['*', '/'] ∧
      ∀ a b, inside ++ ['*', '/'] = a ++ '*' :: '/' :: b → b = []
  | space => t ≠ [] ∧ (∀ c ∈ t, isSpacing c = true) ∧
      ¬(t.getLast? = some '\r' ∧ (join after).head? = some '\n') ∧
      ∀ u ∈ after.head?, u.kind ≠ .space
  | lineBreak => t = ['\n'] ∨ t = ['\r', '\n']
  | unclosed => after = [] ∧
      ((∃ quote inside, isQuote quote = true ∧ t = quote :: inside ∧
          ∀ a b, inside = a ++ quote :: b → Text.Escapes a) ∨
        ∃ inside, t = '/' :: '*' :: inside ∧ ∀ a b, inside ≠ a ++ '*' :: '/' :: b)

theorem TokenKind.fits_ofPunctuation {c : Char} {kind : TokenKind} (before after : List Token)
    (h : ofPunctuation? c = some kind) : kind.Fits before [c] after := by
  cases punctuates h <;> rfl

namespace Token

variable {c : Char} {rest : Text} {before after : List Token} {t : Token}

/-- A token, and the text behind it, are what the scanner takes of the text from there on. -/
theorem exists_next {source : Text} (h : scan source = before ++ t :: after) :
    ∃ c rest, next (depthAfter 0 before) c rest = (t, join after) := by
  have hscan := scanFrom_suffix h
  cases hj : join (t :: after) with
  | nil => simp [hj] at hscan
  | cons c rest =>
    rw [hj, scanFrom_cons, List.cons.injEq] at hscan
    obtain ⟨ht, hafter⟩ := hscan
    exact ⟨c, rest, Prod.ext ht (by rw [← hafter, join_scanFrom])⟩

theorem fits_ofQuote (hc : isQuote c = true) (h : ofQuote c rest = (t, join after))
    (hne : ∀ u ∈ after, u.text ≠ []) : t.kind.Fits before t.text after := by
  have hinside : ∀ a b, (rest.splitUnescaped (Text.atChar c)).1 = a ++ c :: b →
      Text.Escapes a := fun a b hab =>
    Text.escapes_of_splitUnescaped (p := (· = c)) (by simp [Text.atChar]) hab (by simp)
  have hclosed : (rest.splitUnescaped (Text.atChar c)).2 ≠ [] →
      ¬(rest.splitUnescaped (Text.atChar c)).1.Escapes := Text.not_escapes_splitUnescaped
  cases quoted c rest with
  | unclosed hs =>
    rw [hs] at hinside
    rw [ofQuote_unclosed hs] at h
    obtain ⟨rfl, hnil⟩ := Prod.mk.inj h
    refine ⟨?_, .inl ⟨c, rest, hc, rfl, hinside⟩⟩
    cases after with
    | nil => rfl
    | cons u after => simp [hne u List.mem_cons_self] at hnil
  | @closed inside left hs =>
    rw [hs] at hinside hclosed
    rw [ofQuote_closed hs] at h
    obtain ⟨rfl, -⟩ := Prod.mk.inj h
    exact ⟨c, inside, hc, rfl, hclosed (List.cons_ne_nil _ _), hinside⟩

theorem fits_ofBlockComment (h : ofBlockComment '/' ('*' :: rest) = (t, join after))
    (hne : ∀ u ∈ after, u.text ≠ []) : t.kind.Fits before t.text after := by
  have hinside : ∀ a b, (rest.splitBefore Text.atBlockEnd).1 = a ++ b → b ≠ [] →
      Text.atBlockEnd (b ++ (rest.splitBefore Text.atBlockEnd).2) = false :=
    fun a b hab hb => Text.stop_splitBefore hab hb
  cases commented rest with
  | unclosed hs =>
    rw [hs] at hinside
    rw [ofBlockComment_unclosed hs] at h
    obtain ⟨rfl, hnil⟩ := Prod.mk.inj h
    refine ⟨?_, .inr ⟨rest, rfl, ?_⟩⟩
    · cases after with
      | nil => rfl
      | cons u after => simp [hne u List.mem_cons_self] at hnil
    · intro a b hab
      simpa [Text.atBlockEnd] using hinside a _ hab (List.cons_ne_nil _ _)
  | @closed inside left hs =>
    rw [hs] at hinside
    rw [ofBlockComment_closed hs] at h
    obtain ⟨rfl, -⟩ := Prod.mk.inj h
    refine ⟨inside, rfl, fun a b hab => ?_⟩
    rcases List.append_eq_append_iff.1 hab with ⟨w, rfl, hw⟩ | ⟨w, hw, hend⟩
    · rcases w with _ | ⟨_, _ | ⟨_, w⟩⟩ <;> simp_all
    · -- A closing that begins inside would have ended the comment there.
      rcases w with _ | ⟨_, _ | ⟨_, w⟩⟩
      · simpa using hend
      · simp at hend
      · simp only [List.cons_append, List.cons.injEq] at hend
        obtain ⟨rfl, rfl, -⟩ := hend
        simpa [Text.atBlockEnd] using hinside a _ hw (List.cons_ne_nil _ _)

theorem fits_space (h : Text.atSpacing (c :: rest) = true)
    (hnext : next depth c rest = (t, join after)) (hafter : ∀ u ∈ after.head?, u.kind ≠ .space) :
    t.kind.Fits before t.text after := by
  have hspells := spells_next depth c rest
  rw [next_space h] at hnext
  rw [next_space h, hnext] at hspells
  have hrun : ∀ a b, (rest.splitBefore fun u => !u.atSpacing).1 = a ++ b → b ≠ [] →
      Text.atSpacing (b ++ (rest.splitBefore fun u => !u.atSpacing).2) = true :=
    fun a b hab hb => by simpa using Text.stop_splitBefore hab hb
  have hrest := Text.splitBefore_append (fun u => !Text.atSpacing u) rest
  obtain ⟨rfl, hleft⟩ := Prod.mk.inj hnext
  refine ⟨hspells.1, hspells.2, ?_, hafter⟩
  rintro ⟨hlast, hhead⟩
  obtain ⟨tail, htail⟩ := List.head?_eq_some_iff.1 hhead
  rcases List.eq_nil_or_concat (rest.splitBefore fun u => !u.atSpacing).1 with
    hnil | ⟨run, e, hconcat⟩
  · rw [hnil] at hlast hrest
    obtain rfl : c = '\r' := by simpa using hlast
    rw [← hrest, hleft, htail] at h
    simp [Text.atSpacing, Text.atLineBreak] at h
  · rw [List.concat_eq_append] at hconcat
    obtain rfl : e = '\r' := by
      rw [hconcat, ← List.append_assoc, List.getLast?_append] at hlast
      simpa using hlast
    have hat := hrun run ['\r'] hconcat (by simp)
    rw [hleft, htail] at hat
    simp [Text.atSpacing, Text.atLineBreak] at hat

/-- The first token of a text fits its kind. -/
theorem fits_of_next (h : next (depthAfter 0 before) c rest = (t, join after))
    (hne : ∀ u ∈ after, u.text ≠ [])
    (hprecedes : ∀ u ∈ after.head?, t.kind.Precedes u.kind) : t.kind.Fits before t.text after := by
  cases begins (depthAfter 0 before) c rest with
  | punctuation hp =>
    rw [next_punctuation hp] at h
    obtain ⟨rfl, -⟩ := Prod.mk.inj h
    exact TokenKind.fits_ofPunctuation before after hp
  | lineFeed =>
    rw [next_lineFeed] at h
    obtain ⟨rfl, -⟩ := Prod.mk.inj h
    exact .inl rfl
  | carriageReturn =>
    rw [next_carriageReturn] at h
    obtain ⟨rfl, -⟩ := Prod.mk.inj h
    exact .inr rfl
  | space hs =>
    refine fits_space hs h fun u hu => (hprecedes u hu).1 ?_
    rw [next_space hs] at h
    rw [← (Prod.mk.inj h).1]
  | quote hq =>
    rw [next_quote hq] at h
    exact fits_ofQuote hq h hne
  | blockComment =>
    rw [next_blockComment] at h
    exact fits_ofBlockComment h hne
  | lineComment hd =>
    rw [hd, next_lineComment] at h
    obtain ⟨rfl, -⟩ := Prod.mk.inj h
    refine ⟨?_, ?_, hd, fun u hu => (hprecedes u hu).2 rfl⟩
    · rw [Text.splitBefore_cons (by simp [Text.atLineBreak])]
      exact ⟨_, rfl⟩
    · intro hmem
      rcases List.mem_cons.1 hmem with heq | hmem
      · simp at heq
      · simpa using Text.splitBefore_run (p := (· = '\n'))
          (fun c t hc => by simp_all [Text.atLineBreak]) hmem
  | atWord =>
    rw [next_atWord] at h
    obtain ⟨rfl, -⟩ := Prod.mk.inj h
    refine ⟨rfl, List.forall_mem_cons.2 ⟨by decide, fun d hd => ?_⟩⟩
    exact Text.splitBefore_run (p := endsAtWord) (fun d t hd => hd) hd
  | word hw hat =>
    rw [next_word hw hat] at h
    obtain ⟨rfl, -⟩ := Prod.mk.inj h
    refine ⟨Text.splitUnescaped_ne_nil hw, fun a d b htext hd => ?_⟩
    exact Text.escapes_of_splitUnescaped (p := endsWord)
      (fun d t hd => by simp [Text.atWordEnd, hd]) htext hd

theorem fits_of_scan {source : Text} (h : scan source = before ++ t :: after) :
    t.kind.Fits before t.text after := by
  obtain ⟨c, rest, hnext⟩ := exists_next h
  refine fits_of_next hnext (fun u hu => ?_) fun u hu => ?_
  · exact text_ne_nil_of_mem_scan (t := source) (by simp [h, hu])
  · have hchain : (scan source).IsChain fun a b => a.kind.Precedes b.kind :=
      isChain_scanFrom 0 source
    rw [h] at hchain
    obtain ⟨after, rfl⟩ := List.head?_eq_some_iff.1 hu
    exact (List.isChain_cons_cons.1 hchain.right_of_append).1

end Token

/-! ### The spans of tokens -/

/-- Whether spans, none of them empty, stand side by side from one offset to another one. -/
def Span.Contiguous (start stop : Nat) : List Span → Prop
  | [] => start = stop
  | s :: ss => s.start = start ∧ s.start < s.stop ∧ Contiguous s.stop stop ss

theorem Text.bytes_pos {t : Text} (h : t ≠ []) : 0 < t.bytes := by
  obtain ⟨c, t, rfl⟩ := List.exists_cons_of_ne_nil h
  exact Nat.lt_of_lt_of_le c.utf8Size_pos (Nat.le_add_right _ _)

namespace Token

/-- The spans of tokens that start at a place. -/
def spans (place : Place) (ts : List Token) : List Span :=
  (placed place ts).map fun x => x.1.span x.2.text

theorem contiguous_spans (place : Place) {ts : List Token} (h : ∀ t ∈ ts, t.text ≠ []) :
    Span.Contiguous place.offset (place.offset + (join ts).bytes) (spans place ts) := by
  induction ts generalizing place with
  | nil => rfl
  | cons t ts ih =>
    obtain ⟨ht, hts⟩ := List.forall_mem_cons.1 h
    have hpos := Text.bytes_pos ht
    refine ⟨rfl, Nat.lt_add_of_pos_right hpos, ?_⟩
    rw [join_cons, Text.bytes_append, ← Nat.add_assoc]
    exact ih (place.after t.text) hts

theorem slices_spans (before : Text) (ts : List Token) :
    (spans (Place.first.after before) ts).map (before ++ join ts).slice? =
      ts.map fun t => some t.text := by
  induction ts generalizing before with
  | nil => rfl
  | cons t ts ih =>
    have hslice := Text.slice?_append before t.text (join ts)
    have htail := ih (before ++ t.text)
    rw [Place.after_append, List.append_assoc] at htail
    rw [spans, placed, List.map_cons, List.map_cons, List.map_cons, List.cons.injEq]
    refine ⟨?_, htail⟩
    rw [join_cons, ← List.append_assoc, Place.span, Place.after, Place.first, Nat.zero_add]
    exact hslice

/-- Whether tokens make up a text without gaps, and each one fits its kind. -/
structure Tiles (source : Text) (ts : List Token) : Prop where
  contiguous : Span.Contiguous 0 source.bytes (spans .first ts)
  slices : (spans .first ts).map source.slice? = ts.map fun t => some t.text
  fits : ∀ before t after, ts = before ++ t :: after → t.kind.Fits before t.text after

/-- The tokens of a text tile it. -/
theorem tiles_scan (source : Text) : Tiles source (scan source) where
  contiguous := by
    have h : Span.Contiguous _ _ (spans .first (scan source)) :=
      contiguous_spans .first fun t ht => text_ne_nil_of_mem_scan ht
    rw [join_scan, show Place.first.offset = 0 from rfl, Nat.zero_add] at h
    exact h
  slices := by
    have h := slices_spans [] (scan source)
    rwa [Place.after_nil, List.nil_append, join_scan] at h
  fits := fun _ _ _ h => fits_of_scan h

end Token

end OffsideCss
