import OffsideCss.Proofs.Tiling

/-! Cutting a text between two tokens.  The part before the cut has the tokens that end there or
earlier.  The part behind it is scanned as if nothing were before it, so it has the other tokens, in
other places, as long as no parentheses are open at the cut. -/

namespace OffsideCss

open Token (depthAfter join placed scan)

/-- A span that stands `n` bytes later. -/
def Span.shift (n : Nat) (s : Span) : Span := ⟨s.start + n, s.stop + n⟩

namespace Token

/-- Tokens that start at a place, each with its span. -/
def spanned (place : Place) (ts : List Token) : List (Span × Token) :=
  (placed place ts).map fun x => (x.1.span x.2.text, x.2)

/-- Whether a text consists of `before` and `after`, which meet at an offset, and has the tokens of
`before` up to there, and behind them, unless parentheses are open, the tokens of `after`. -/
structure Splits (source : Text) (offset : Nat) (before after : Text) : Prop where
  front : source.slice? ⟨0, offset⟩ = some before
  back : source.slice? ⟨offset, source.bytes⟩ = some after
  /-- The tokens of the first part are those that end at the offset or earlier. -/
  ending : spanned .first (scan before) =
    (spanned .first (scan source)).filter fun x => x.1.stop ≤ offset
  closed : depthAfter 0 (scan before) = 0 →
    spanned .first (scan source) = spanned .first (scan before) ++
      (spanned .first (scan after)).map fun x => (x.1.shift offset, x.2)

variable {p q : Place} {ts us : List Token} {source : Text} {offset : Nat}

theorem spanned_cons (p : Place) (t : Token) (ts : List Token) :
    spanned p (t :: ts) = (p.span t.text, t) :: spanned (p.after t.text) ts := rfl

theorem spanned_append (p : Place) (ts us : List Token) :
    spanned p (ts ++ us) = spanned p ts ++ spanned (p.after (join ts)) us := by
  rw [spanned, placed_append, List.map_append]
  rfl

/-- Where tokens start does not matter to anything but the offsets of their spans. -/
theorem spanned_shift {n : Nat} (h : p.offset = q.offset + n) (ts : List Token) :
    spanned p ts = (spanned q ts).map fun x => (x.1.shift n, x.2) := by
  induction ts generalizing p q with
  | nil => rfl
  | cons t ts ih =>
    have hafter : (p.after t.text).offset = (q.after t.text).offset + n := by
      simp only [Place.after]
      omega
    have hspan : p.span t.text = (q.span t.text).shift n := by
      simp only [Place.span, Span.shift, h, Nat.add_right_comm]
    rw [spanned_cons, spanned_cons, List.map_cons, ← ih hafter, hspan]

/-- A token stands behind the text of the tokens before it. -/
theorem exists_of_mem_spanned {x : Span × Token} (h : x ∈ spanned p ts) :
    ∃ before after, ts = before ++ x.2 :: after ∧ x.1.start = p.offset + (join before).bytes ∧
      x.1.stop = x.1.start + x.2.text.bytes := by
  induction ts generalizing p with
  | nil => cases h
  | cons t ts ih =>
    rw [spanned_cons] at h
    rcases List.mem_cons.1 h with rfl | h
    · exact ⟨[], ts, rfl, rfl, rfl⟩
    · obtain ⟨before, after, rfl, hstart, hstop⟩ := ih h
      refine ⟨t :: before, after, rfl, ?_, hstop⟩
      rw [hstart, join_cons, Text.bytes_append, ← Nat.add_assoc]
      rfl

/-- Tokens end in the text that they cover. -/
theorem stop_le_of_mem_spanned {x : Span × Token} (h : x ∈ spanned p ts) :
    x.1.stop ≤ p.offset + (join ts).bytes := by
  obtain ⟨before, after, rfl, hstart, hstop⟩ := exists_of_mem_spanned h
  rw [hstop, hstart, join_append, join_cons, Text.bytes_append, Text.bytes_append]
  omega

theorem lt_stop_of_mem_spanned (hne : ∀ t ∈ ts, t.text ≠ []) {x : Span × Token}
    (h : x ∈ spanned p ts) : p.offset < x.1.stop := by
  obtain ⟨before, after, rfl, hstart, hstop⟩ := exists_of_mem_spanned h
  have hpos := Text.bytes_pos (hne x.2 (by simp))
  omega

/-- An offset where a token starts, or where the text ends, is behind some of the tokens. -/
theorem exists_split_of_start
    (h : offset = source.bytes ∨ ∃ x ∈ spanned .first (scan source), x.1.start = offset) :
    ∃ ts us, scan source = ts ++ us ∧ offset = (join ts).bytes := by
  rcases h with rfl | ⟨x, hx, rfl⟩
  · exact ⟨scan source, [], (List.append_nil _).symm, by rw [join_scan]⟩
  · obtain ⟨before, after, hscan, hstart, -⟩ := exists_of_mem_spanned hx
    exact ⟨before, x.2 :: after, hscan, hstart.trans (Nat.zero_add _)⟩

theorem splits_of_append (h : scan source = ts ++ us) :
    Splits source (join ts).bytes (join ts) (join us) := by
  have hsource : join ts ++ join us = source := by rw [← join_append, ← h, join_scan]
  have happend : scanFrom 0 (join ts ++ join us) = ts ++ us := by
    rw [hsource]
    exact h
  have hfront : scan (join ts) = ts := scanFrom_cut happend rfl
  have hspanned : spanned .first (scan source) =
      spanned .first ts ++ spanned (Place.first.after (join ts)) us := by
    rw [h, spanned_append]
  refine ⟨?_, ?_, ?_, fun hdepth => ?_⟩
  · have hslice := Text.slice?_append [] (join ts) (join us)
    rwa [List.nil_append, hsource, Text.bytes_nil, Nat.zero_add] at hslice
  · have hslice := Text.slice?_append (join ts) (join us) []
    rwa [List.append_nil, hsource, ← Text.bytes_append, hsource] at hslice
  · have hbefore : ∀ x ∈ spanned .first ts, decide (x.1.stop ≤ (join ts).bytes) = true :=
      fun x hx => decide_eq_true ((stop_le_of_mem_spanned hx).trans_eq (Nat.zero_add _))
    have hbehind : ∀ x ∈ spanned (Place.first.after (join ts)) us,
        ¬decide (x.1.stop ≤ (join ts).bytes) = true := by
      intro x hx
      have hlt := lt_stop_of_mem_spanned
        (fun t ht => text_ne_nil_of_mem_scan (t := source) (by simp [h, ht])) hx
      rw [decide_eq_true_eq, Nat.not_le, ← Nat.zero_add (join ts).bytes]
      exact hlt
    rw [hfront, hspanned, List.filter_append, List.filter_eq_self.2 hbefore,
      List.filter_eq_nil_iff.2 hbehind, List.append_nil]
  · rw [hfront] at hdepth
    have hback : scan (join us) = us := by
      have hsuffix := scanFrom_suffix h
      rwa [hdepth] at hsuffix
    rw [hfront, hback, hspanned]
    exact congrArg _ (spanned_shift rfl us)

/-- A text is split wherever a token of it starts, or at its end. -/
theorem exists_splits
    (h : offset = source.bytes ∨ ∃ x ∈ spanned .first (scan source), x.1.start = offset) :
    ∃ before after, Splits source offset before after := by
  obtain ⟨ts, us, hscan, rfl⟩ := exists_split_of_start h
  exact ⟨join ts, join us, splits_of_append hscan⟩

/-- Behind parentheses, and behind a word that ends with an escaped carriage return, a line break begins
the second part. -/
theorem exists_splits_escaped_return :
    let source := Text.ofString "(//é)a\\\r\r\n// b\n"
    (∃ x ∈ spanned .first (scan source), x.1.start = 9) ∧
      (∃ before after, Splits source 9 before after) ∧
      source.slice? ⟨0, 9⟩ = some (Text.ofString "(//é)a\\\r") ∧
      depthAfter 0 (scan (Text.ofString "(//é)a\\\r")) = 0 := by
  intro source
  have hstart : ∃ x ∈ spanned .first (scan source), x.1.start = 9 := by decide +kernel
  exact ⟨hstart, exists_splits (.inr hstart), by decide +kernel, by decide +kernel⟩

end Token

end OffsideCss
