import Mathlib.Data.List.TakeWhile
import Mathlib.Order.Bounds.Defs
import OffsideCss.Proofs.LineIndex
import OffsideCss.Proofs.PositionOrder

/-! Offsets and positions.  An offset of a text stands between two characters or inside one.  An index
finds the positions of the former offsets and fails for the latter, and of two positions the one that
belongs to the smaller offset comes first, so that a position tells its offset. -/

namespace OffsideCss

namespace Text

variable {t u v : Text} {m n : Nat}

/-- Whether an offset stands between two characters of a text, or at one of its ends. -/
def IsBoundary (t : Text) (n : Nat) : Prop :=
  ∃ before after : Text, t = before ++ after ∧ n = before.bytes

/-- Whether an offset stands inside a character of a text. -/
def IsInside (t : Text) (n : Nat) : Prop :=
  ∃ (before after : Text) (c : Char), t = before ++ c :: after ∧
    before.bytes < n ∧ n < before.bytes + c.utf8Size

/-- Of two beginnings of a text, the one with fewer bytes is a beginning of the other one. -/
theorem isPrefix_of_bytes_le (hu : u <+: t) (hv : v <+: t) (h : u.bytes ≤ v.bytes) : u <+: v := by
  rcases List.prefix_or_prefix_of_prefix hu hv with huv | ⟨w, rfl⟩
  · exact huv
  · have hw : w = [] := by
      by_contra hne
      obtain ⟨c, w, rfl⟩ := List.exists_cons_of_ne_nil hne
      have hc := c.utf8Size_pos
      rw [bytes_append, bytes_cons] at h
      omega
    exact ⟨[], by simp [hw]⟩

/-- Each offset of a text stands between two characters or inside one. -/
theorem isBoundary_or_isInside (h : n ≤ t.bytes) : t.IsBoundary n ∨ t.IsInside n := by
  induction t generalizing n with
  | nil =>
    obtain rfl : n = 0 := Nat.le_zero.1 h
    exact .inl ⟨[], [], rfl, rfl⟩
  | cons c t ih =>
    rw [bytes_cons] at h
    by_cases hc : c.utf8Size ≤ n
    · obtain ⟨k, rfl⟩ := Nat.exists_eq_add_of_le hc
      rcases ih (n := k) (by omega) with ⟨u, v, rfl, rfl⟩ | ⟨u, v, d, rfl, hlt, hgt⟩
      · exact .inl ⟨c :: u, v, rfl, rfl⟩
      · refine .inr ⟨c :: u, v, d, rfl, ?_, ?_⟩ <;> rw [bytes_cons] <;> omega
    · by_cases hn : n = 0
      · exact .inl ⟨[], c :: t, rfl, hn⟩
      · exact .inr ⟨[], t, c, rfl, by rw [bytes_nil]; omega, by rw [bytes_nil]; omega⟩

theorem IsInside.not_isBoundary (h : t.IsInside n) : ¬t.IsBoundary n := by
  obtain ⟨u, v, c, rfl, hlt, hgt⟩ := h
  rintro ⟨w, w', hw, rfl⟩
  obtain ⟨x, rfl⟩ : u <+: w :=
    isPrefix_of_bytes_le (List.prefix_append u _) ⟨w', hw.symm⟩ (Nat.le_of_lt hlt)
  rw [List.append_assoc, List.append_cancel_left_eq] at hw
  rw [bytes_append] at hlt hgt
  cases x with
  | nil => simp at hlt
  | cons d x =>
    obtain ⟨rfl, -⟩ := List.cons.inj hw
    rw [bytes_cons] at hgt
    omega

/-- Behind the first part of a text that ends with a character, the last boundary is before it. -/
theorem isGreatest_isBoundary (u : Text) (c : Char) (v : Text) :
    IsGreatest {n | (u ++ c :: v).IsBoundary n ∧ n < (u ++ [c]).bytes} u.bytes := by
  have hc := c.utf8Size_pos
  refine ⟨⟨⟨u, c :: v, rfl, rfl⟩, by simpa using hc⟩, ?_⟩
  rintro m ⟨hm, hlt⟩
  obtain ⟨w, y, hw, rfl⟩ := hm
  obtain ⟨x, hx⟩ : w <+: u ++ [c] :=
    isPrefix_of_bytes_le ⟨y, hw.symm⟩ ⟨v, by simp⟩ (Nat.le_of_lt hlt)
  have hne : x ≠ [] := by
    rintro rfl
    rw [← hx, List.append_nil] at hlt
    exact Nat.lt_irrefl _ hlt
  rw [← List.dropLast_concat_getLast hne, ← List.append_assoc] at hx
  obtain ⟨rfl, -⟩ := List.append_inj' hx rfl
  rw [bytes_append]
  exact Nat.le_add_right _ _

end Text

namespace Position

/-- The position behind a text is told by its line feeds and by what stands behind the last one. -/
theorem after_first (t : Text) : first.after t =
    ⟨1 + t.count '\n', 1 + (t.reverse.takeWhile (· ≠ '\n')).length⟩ := by
  have hline := line_after first t
  have hcolumn := column_after_first t
  cases h : first.after t with
  | mk line column =>
    rw [h] at hline hcolumn
    exact congrArg₂ mk hline hcolumn

/-- A line and a column behind a text are told by different characters of it. -/
theorem count_add_length_le (t : Text) :
    t.count '\n' + (t.reverse.takeWhile (· ≠ '\n')).length ≤ t.length := by
  rw [← List.count_reverse, show t.length = t.reverse.length from List.length_reverse.symm]
  generalize t.reverse = u
  induction u with
  | nil => exact Nat.le_refl 0
  | cons c u ih =>
    by_cases hc : c = '\n'
    · simpa [hc] using List.count_le_length
    · rw [List.count_cons_of_ne hc, List.takeWhile_cons_of_pos (by simpa using hc), List.length_cons,
        List.length_cons]
      omega

end Position

/-- Whether a text has one character less than there are counters, and all or none of them are line
feeds, so that the line or the column behind it is no counter. -/
def Text.Overflows (t : Text) : Prop :=
  t.length + 1 = Counter.limit ∧ ((∀ c ∈ t, c = '\n') ∨ '\n' ∉ t)

section Counted

variable {t u v : Text}

theorem Text.length_le_bytes (t : Text) : t.length ≤ t.bytes := by
  induction t with
  | nil => exact Nat.le_refl 0
  | cons c t ih =>
    have hc := c.utf8Size_pos
    rw [List.length_cons, bytes_cons]
    omega

/-- The position behind a text of which the size is a counter has counters in all but two cases. -/
theorem Position.fits_after_first (h : t.bytes < Counter.limit) (hover : ¬t.Overflows) :
    (first.after t).Fits := by
  have hsum := count_add_length_le t
  have hlength := t.length_le_bytes
  rw [after_first, Fits]
  refine ⟨Nat.lt_of_not_le fun hline => hover ?_, Nat.lt_of_not_le fun hcolumn => hover ?_⟩
  · have hcount : t.count '\n' = t.length := by
      dsimp only at hline
      omega
    refine ⟨by dsimp only at hline; omega, .inl fun c hc => ?_⟩
    exact (List.count_eq_length.1 hcount c hc).symm
  · have hcount : t.count '\n' = 0 := by
      dsimp only at hcolumn
      omega
    exact ⟨by dsimp only at hcolumn; omega, .inr (List.count_eq_zero.1 hcount)⟩

/-- So the position of each character has counters. -/
theorem Position.fits_of_ne_nil (h : (u ++ v).bytes < Counter.limit) (hv : v ≠ []) :
    (first.after u).Fits := by
  obtain ⟨c, v, rfl⟩ := List.exists_cons_of_ne_nil hv
  have hc := c.utf8Size_pos
  have hlength := u.length_le_bytes
  rw [Text.bytes_append, Text.bytes_cons] at h
  refine fits_after_first (by omega) fun hover => ?_
  have := hover.1
  omega

theorem Position.wrap_of_overflows (h : t.Overflows) :
    (first.after t).wrap = if '\n' ∈ t then ⟨0, 1⟩ else ⟨1, 0⟩ := by
  obtain ⟨hlength, hall | hnone⟩ := h
  · have hne : t ≠ [] := by
      rintro rfl
      exact absurd hlength (by decide)
    obtain ⟨c, u, rfl⟩ := List.exists_cons_of_ne_nil hne
    have hfeed : '\n' ∈ c :: u := hall c List.mem_cons_self ▸ List.mem_cons_self
    have hcount : (c :: u).count '\n' = (c :: u).length :=
      List.count_eq_length.2 fun d hd => (hall d hd).symm
    have hlast : (c :: u).reverse.takeWhile (· ≠ '\n') = [] := by
      refine List.takeWhile_eq_nil_iff.2 fun hpos => ?_
      have hmem := List.mem_reverse.1 (List.get_mem _ ⟨0, hpos⟩)
      rw [hall _ hmem]
      decide
    rw [after_first, hcount, hlast, if_pos hfeed, wrap, Nat.add_comm 1, hlength, Counter.wrap_limit]
    rfl
  · have hcount : t.count '\n' = 0 := List.count_eq_zero.2 hnone
    have hlast : t.reverse.takeWhile (· ≠ '\n') = t.reverse := by
      refine List.takeWhile_eq_self_iff.2 fun c hc => ?_
      have hne : c ≠ '\n' := fun heq => hnone (heq ▸ List.mem_reverse.1 hc)
      simpa using hne
    rw [after_first, hcount, hlast, if_neg hnone, List.length_reverse, wrap, Nat.add_comm 1 t.length,
      hlength, Counter.wrap_limit]
    rfl

end Counted

namespace LineIndex

/-- Whether an index finds the positions of a text, where `offset` counts as the end of the text when it
is past the end. -/
structure Finds (index : LineIndex) (t : Text) : Prop where
  /-- The position behind a part of the text is told by the line feeds in the part and by the characters
  behind the last of them. -/
  position : ∀ before after, t = before ++ after → (t.Overflows → after ≠ []) →
    ∀ offset, min offset t.bytes = before.bytes → index.position? offset =
      some ⟨1 + before.count '\n', 1 + (before.reverse.takeWhile (· ≠ '\n')).length⟩
  /-- The line or the column behind the text starts again from zero if it is no counter. -/
  wraps : t.Overflows → ∀ offset, t.bytes ≤ offset →
    index.position? offset = some (if '\n' ∈ t then ⟨0, 1⟩ else ⟨1, 0⟩)
  fails : ∀ offset, index.position? offset = none ↔ t.IsInside (min offset t.bytes)
  ordered : ∀ m n, t.IsBoundary m → t.IsBoundary n → m < n → (t.Overflows → n ≠ t.bytes) →
    ∃ p q, index.position? m = some p ∧ index.position? n = some q ∧ p < q
  identifies : ∀ m n, t.IsBoundary m → t.IsBoundary n → index.position? m = index.position? n → m = n
  /-- The last character of a span stands at the last boundary before its end. -/
  last : ∀ s : Span, t.IsBoundary s.start → t.IsBoundary s.stop → s.start < s.stop →
    ∃ n p, IsGreatest {n | t.IsBoundary n ∧ n < s.stop} n ∧
      index.position? n = some p ∧ index.lastPosition? s = some p

section Counted

variable {t u v : Text} (h : t.bytes < Counter.limit)
include h

theorem position?_of_min_eq {offset : Nat} (ht : t = u ++ v) (hmin : min offset t.bytes = u.bytes) :
    (ofText t).position? offset = some (Position.first.after u).wrap := by
  rw [position?_ofText h, Text.position?_eq, hmin, Text.cut?_eq_some.2 ⟨ht, rfl⟩]
  rfl

/-- What stands before another character, or before an end that does not overflow, has a position of
counters. -/
theorem fits_of_append (ht : t = u ++ v) (hover : t.Overflows → v ≠ []) :
    (Position.first.after u).Fits := by
  by_cases hv : v = []
  · obtain rfl : t = u := by rw [ht, hv, List.append_nil]
    exact Position.fits_after_first h fun ho => hover ho hv
  · exact Position.fits_of_ne_nil (ht ▸ h) hv

/-- A place behind a part of a text is what an index finds at its offset, unless it is at the end. -/
theorem position?_place {place : Place} (ht : t = u ++ v) (hv : v ≠ [])
    (hplace : place = Place.first.after u) :
    (ofText t).position? place.offset = some place.toPosition := by
  have hoffset : place.offset = u.bytes := by
    rw [hplace]
    exact Nat.zero_add _
  rw [hoffset, position?_ofText_append h ht, (Position.fits_of_ne_nil (ht ▸ h) hv).wrap_eq, hplace]
  rfl

/-- The last character of a part of a text stands where counting along the text finds it. -/
theorem lastPosition?_append {w : Text} (ht : t = u ++ w ++ v) (hne : w ++ v ≠ []) :
    (ofText t).lastPosition? ⟨u.bytes, u.bytes + w.bytes⟩ = some ((Position.first.after u).last w) := by
  have hposition : t.position? u.bytes = some (Position.first.after u) := by
    rw [ht, List.append_assoc]
    exact Text.positionFrom?_append _ _ _
  have hslice : t.slice? ⟨u.bytes, u.bytes + w.bytes⟩ = some w :=
    Text.slice?_eq_some.2 ⟨u, v, ht, rfl⟩
  have hfits : ((Position.first.after u).last w).Fits := by
    rw [Position.last, ← Position.after_append]
    rcases List.eq_nil_or_concat w with rfl | ⟨w, c, rfl⟩
    · exact Position.fits_of_ne_nil (ht ▸ h) (by simpa using hne)
    · have hsplit : t = (u ++ (w.concat c).dropLast) ++ c :: v := by simp [ht]
      exact Position.fits_of_ne_nil (hsplit ▸ h) (List.cons_ne_nil _ _)
  rw [lastPosition?_ofText h, Text.lastPosition?, hposition, hslice]
  exact congrArg some hfits.wrap_eq

theorem position?_lt {m n : Nat} (hm : t.IsBoundary m) (hn : t.IsBoundary n) (hlt : m < n)
    (hover : t.Overflows → n ≠ t.bytes) :
    ∃ p q, (ofText t).position? m = some p ∧ (ofText t).position? n = some q ∧ p < q := by
  obtain ⟨u, v, hu, rfl⟩ := hm
  obtain ⟨w, x, hw, rfl⟩ := hn
  obtain ⟨y, rfl⟩ : u <+: w :=
    Text.isPrefix_of_bytes_le ⟨v, hu.symm⟩ ⟨x, hw.symm⟩ (Nat.le_of_lt hlt)
  have hy : y ≠ [] := by
    rintro rfl
    simp at hlt
  have hfits := fits_of_append h (u := u) (v := y ++ x) (by rw [hw, List.append_assoc])
    fun _ => List.append_ne_nil_of_left_ne_nil hy x
  have hfits' := fits_of_append h hw fun ho => by
    rintro rfl
    exact hover ho (by rw [hw, List.append_nil])
  refine ⟨_, _, position?_ofText_append h hu, position?_ofText_append h hw, ?_⟩
  rw [hfits.wrap_eq, hfits'.wrap_eq, Position.after_append]
  exact Position.lt_after _ hy

theorem position?_ne {m n : Nat} (hm : t.IsBoundary m) (hn : t.IsBoundary n) (hlt : m < n) :
    (ofText t).position? m ≠ (ofText t).position? n := by
  by_cases hover : t.Overflows → n ≠ t.bytes
  · obtain ⟨p, q, hp, hq, hpq⟩ := position?_lt h hm hn hlt hover
    rw [hp, hq, Ne, Option.some.injEq]
    exact ne_of_lt hpq
  · -- Nothing but the end has a line or a column of zero.
    obtain ⟨ho, rfl⟩ : t.Overflows ∧ n = t.bytes := by simpa using hover
    obtain ⟨u, v, hu, rfl⟩ := hm
    have hv : v ≠ [] := by
      rintro rfl
      simp [hu] at hlt
    have hfits := fits_of_append h hu fun _ => hv
    rw [position?_ofText_append h hu, hfits.wrap_eq, Position.after_first,
      position?_ofText_append h (List.append_nil t).symm, Position.wrap_of_overflows ho]
    split <;> simp

theorem lastPosition?_eq {s : Span} (hstart : t.IsBoundary s.start) (hstop : t.IsBoundary s.stop)
    (hlt : s.start < s.stop) :
    ∃ n p, IsGreatest {n | t.IsBoundary n ∧ n < s.stop} n ∧
      (ofText t).position? n = some p ∧ (ofText t).lastPosition? s = some p := by
  obtain ⟨start, stop⟩ := s
  obtain ⟨u, v, hu, rfl⟩ := hstart
  obtain ⟨w, x, rfl, rfl⟩ := hstop
  obtain ⟨y, rfl⟩ : u <+: w :=
    Text.isPrefix_of_bytes_le ⟨v, hu.symm⟩ (List.prefix_append w x) (Nat.le_of_lt hlt)
  rcases List.eq_nil_or_concat y with rfl | ⟨y, c, rfl⟩
  · simp at hlt
  rw [List.concat_eq_append] at h hu ⊢
  have hsplit : u ++ (y ++ [c]) ++ x = u ++ y ++ c :: x := by simp
  have hslice : (u ++ (y ++ [c]) ++ x).slice? ⟨u.bytes, (u ++ (y ++ [c])).bytes⟩ = some (y ++ [c]) := by
    rw [Text.bytes_append]
    exact Text.slice?_append u (y ++ [c]) x
  refine ⟨(u ++ y).bytes, (Position.first.after (u ++ y)).wrap, ?_,
    position?_ofText_append h hsplit, ?_⟩
  · have hgreatest := Text.isGreatest_isBoundary (u ++ y) c x
    rwa [← hsplit, List.append_assoc u y] at hgreatest
  · have hposition : (u ++ (y ++ [c]) ++ x).position? u.bytes = some (Position.first.after u) := by
      rw [List.append_assoc]
      exact Text.positionFrom?_append _ _ _
    rw [lastPosition?_ofText h, Text.lastPosition?, hslice, hposition]
    simp [Position.last]

/-- The index of a text of which the size is a counter finds its positions. -/
theorem finds_ofText : (ofText t).Finds t where
  position before after ht hover offset hmin := by
    rw [position?_of_min_eq h ht hmin, (fits_of_append h ht hover).wrap_eq, Position.after_first]
  wraps hover offset hle := by
    rw [position?_of_min_eq h (List.append_nil t).symm (Nat.min_eq_right hle),
      Position.wrap_of_overflows hover]
  fails offset := by
    rcases Text.isBoundary_or_isInside (Nat.min_le_right offset t.bytes) with hmin | hmin
    · obtain ⟨u, v, ht, hu⟩ := hmin
      have hnot : ¬t.IsInside (min offset t.bytes) := fun h => h.not_isBoundary ⟨u, v, ht, hu⟩
      simp [position?_of_min_eq h ht hu, hnot]
    · refine iff_of_true ?_ hmin
      rw [position?_ofText h, Text.position?_eq, Option.map_eq_none_iff, Option.map_eq_none_iff,
        Option.eq_none_iff_forall_ne_some]
      rintro ⟨u, v⟩ hcut
      obtain ⟨ht, hu⟩ := Text.cut?_eq_some.1 hcut
      exact hmin.not_isBoundary ⟨u, v, ht, hu⟩
  ordered m n hm hn hlt hover := position?_lt h hm hn hlt hover
  identifies m n hm hn heq := by
    by_contra hne
    rcases Nat.lt_or_gt_of_ne hne with hlt | hgt
    · exact position?_ne h hm hn hlt heq
    · exact position?_ne h hn hm hgt heq.symm
  last s hstart hstop hlt := lastPosition?_eq h hstart hstop hlt

end Counted

/-- An index finds the positions on both sides of a line feed behind a character of two bytes. -/
theorem finds_ofText_two_lines :
    Text.bytes ['\u00e9', '\n', 'a'] < Counter.limit ∧
      (ofText ['\u00e9', '\n', 'a']).Finds ['\u00e9', '\n', 'a'] :=
  ⟨by decide, finds_ofText (by decide)⟩

/-- The position behind a line that is as long as can be comes before its first one, and a span that ends
inside a character has no last character. -/
theorem position?_long_line :
    let long : Text := List.replicate (Counter.limit - 1) 'a'
    long.bytes < Counter.limit ∧
      ((ofText long).position? 0 = some ⟨1, 1⟩ ∧ (ofText long).position? long.bytes = some ⟨1, 0⟩ ∧
        ¬(⟨1, 1⟩ : Position) < ⟨1, 0⟩) ∧
      IsGreatest {n | Text.IsBoundary ['\u00e9'] n ∧ n < 1} 0 ∧
        (ofText ['\u00e9']).position? 0 = some ⟨1, 1⟩ ∧
        (ofText ['\u00e9']).lastPosition? ⟨0, 1⟩ = none := by
  intro long
  have hlength : long.length + 1 = Counter.limit := by
    rw [List.length_replicate, Nat.sub_add_cancel (by decide)]
  have hbytes : long.bytes + 1 = Counter.limit := by
    rw [← hlength, Text.bytes_replicate, List.length_replicate]
    rfl
  have hfeed : '\n' ∉ long := fun hmem => absurd (List.eq_of_mem_replicate hmem) (by decide)
  have hlong : long.bytes < Counter.limit := by omega
  refine ⟨hlong, ⟨?_, ?_, by decide⟩, ⟨⟨⟨[], _, rfl, rfl⟩, by decide⟩, ?_⟩, ?_, by decide⟩
  · exact position?_of_min_eq hlong (List.nil_append long).symm (Nat.zero_min _)
  · rw [position?_of_min_eq hlong (List.append_nil long).symm (Nat.min_self _),
      Position.wrap_of_overflows ⟨hlength, .inr hfeed⟩, if_neg hfeed]
  · rintro n ⟨-, hn⟩
    omega
  · exact position?_of_min_eq (by decide) (List.nil_append _).symm (Nat.zero_min _)

end LineIndex

end OffsideCss
