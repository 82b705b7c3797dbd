import OffsideCss.Proofs.NodeTokens

/-! Line breaks of another form.  A text with another line break for each line feed keeps the lines
and columns of its characters, and it is trimmed to the trimmed text with the other line breaks. -/

namespace OffsideCss

namespace Text

/-- A text with `lineBreak` for each line feed. -/
def withBreaks (lineBreak t : Text) : Text := t.flatMap fun c => if c = '\n' then lineBreak else [c]

section

variable (lineBreak : Text)

@[simp] theorem withBreaks_nil : withBreaks lineBreak [] = [] := rfl

@[simp] theorem withBreaks_append (t u : Text) :
    withBreaks lineBreak (t ++ u) = withBreaks lineBreak t ++ withBreaks lineBreak u :=
  List.flatMap_append

@[simp] theorem withBreaks_lineFeed (t : Text) :
    withBreaks lineBreak ('\n' :: t) = lineBreak ++ withBreaks lineBreak t := rfl

variable {lineBreak}

@[simp] theorem withBreaks_cons {c : Char} (hc : c ≠ '\n') (t : Text) :
    withBreaks lineBreak (c :: t) = c :: withBreaks lineBreak t := by
  simp [withBreaks, hc]

theorem withBreaks_of_not_mem {t : Text} (h : '\n' ∉ t) : withBreaks lineBreak t = t := by
  induction t with
  | nil => rfl
  | cons c t ih =>
    rw [List.mem_cons, not_or] at h
    rw [withBreaks_cons (Ne.symm h.1), ih h.2]

theorem withBreaks_self (t : Text) : withBreaks ['\n'] t = t := by
  induction t with
  | nil => rfl
  | cons c t ih => by_cases hc : c = '\n' <;> simp [hc, ih]

end

/-! ### Line breaks -/

variable {lineBreak t : Text} (hbreak : TokenKind.lineBreak.Spells lineBreak)
include hbreak

theorem ne_nil_of_spells : lineBreak ≠ [] := by
  rcases hbreak with rfl | rfl <;> simp

theorem isBlank_of_spells : ∀ c ∈ lineBreak, isBlank c = true := by
  rcases hbreak with rfl | rfl <;> exact List.all_eq_true.1 rfl

theorem withBreaks_eq_nil : withBreaks lineBreak t = [] ↔ t = [] := by
  constructor
  · intro h
    cases t with
    | nil => rfl
    | cons c t => by_cases hc : c = '\n' <;> simp [hc, ne_nil_of_spells hbreak] at h
  · rintro rfl
    rfl

/-- The characters behind a line break stand where they stood behind the line feed. -/
theorem after_withBreaks (p : Position) (t : Text) :
    p.after (withBreaks lineBreak t) = p.after t := by
  induction t generalizing p with
  | nil => rfl
  | cons c t ih =>
    by_cases hc : c = '\n'
    · rw [hc, withBreaks_lineFeed, Position.after_append, ih]
      rcases hbreak with rfl | rfl <;> rfl
    · rw [withBreaks_cons hc, Position.after_cons, ih, Position.after_cons]

theorem head?_withBreaks {d : Char} (hfeed : d ≠ '\n') (hreturn : d ≠ '\r') (t : Text) :
    (withBreaks lineBreak t).head? = some d ↔ t.head? = some d := by
  cases t with
  | nil => rfl
  | cons c t =>
    by_cases hc : c = '\n'
    · subst hc
      rw [withBreaks_lineFeed]
      rcases hbreak with rfl | rfl <;> simp [hfeed.symm, hreturn.symm]
    · rw [withBreaks_cons hc]
      rfl

theorem isBlank_withBreaks (h : ∀ c ∈ t, isBlank c = true) :
    ∀ c ∈ withBreaks lineBreak t, isBlank c = true := by
  intro c hc
  obtain ⟨d, hd, hc⟩ := List.mem_flatMap.1 hc
  split at hc
  · exact isBlank_of_spells hbreak c hc
  · rw [List.mem_singleton.1 hc]
    exact h d hd

end Text

/-! ### Trimming -/

namespace Text

variable {t left middle right : Text}

theorem trimEnd_append_of_blank (h : ∀ c ∈ right, isBlank c = true) :
    trimEnd (t ++ right) = trimEnd t := by
  rw [trimEnd, List.reverse_append, List.dropWhile_append_of_pos, trimEnd]
  simpa using h

theorem trimEnd_eq_self (h : ∀ c ∈ t.getLast?, isBlank c = false) : trimEnd t = t := by
  rcases List.eq_nil_or_concat t with rfl | ⟨t, c, rfl⟩
  · rfl
  · simp [trimEnd, h c (by simp)]

theorem last_trimEnd (t : Text) : ∀ c ∈ t.trimEnd.getLast?, isBlank c = false := by
  intro c hc
  have := List.head?_dropWhile_not isBlank t.reverse
  rw [trimEnd, List.getLast?_reverse] at hc
  rw [hc] at this
  simpa using this

theorem trimEnd_eq_nil (h : t.trimEnd = []) : ∀ c ∈ t, isBlank c = true := by
  intro c hc
  rw [← trimEnd_append_blanks t, h, List.nil_append, List.mem_reverse] at hc
  exact List.mem_takeWhile_imp hc

theorem trimEnd_append (left : Text) (h : right.trimEnd ≠ []) :
    (left ++ right).trimEnd = left ++ right.trimEnd := by
  have hblank : ∀ c ∈ (right.reverse.takeWhile isBlank).reverse, isBlank c = true := fun c hc =>
    List.mem_takeWhile_imp (List.mem_reverse.1 hc)
  have happend : left ++ right =
      left ++ right.trimEnd ++ (right.reverse.takeWhile isBlank).reverse := by
    rw [List.append_assoc, trimEnd_append_blanks]
  rw [happend, trimEnd_append_of_blank hblank]
  refine trimEnd_eq_self fun c hc => last_trimEnd right c ?_
  rwa [List.getLast?_append_of_ne_nil _ h] at hc

theorem trim_of_trimmed (hl : ∀ c ∈ left, isBlank c = true) (hm : middle.Trimmed)
    (hr : ∀ c ∈ right, isBlank c = true) : trim (left ++ middle ++ right) = middle := by
  rw [trim, trimStart, List.append_assoc, List.dropWhile_append_of_pos hl]
  cases middle with
  | nil =>
    have hnil : right.dropWhile isBlank = [] := List.dropWhile_eq_nil_iff.2 hr
    rw [List.nil_append, hnil]
    rfl
  | cons c middle =>
    rw [List.cons_append, List.dropWhile_cons_of_neg (by simp [hm.1 c rfl]), ← List.cons_append,
      trimEnd_append_of_blank hr, trimEnd_eq_self hm.2]

/-- Blanks around a trimmed text are the outer parts of what they make up with it. -/
theorem trimParts_of_trimmed (hl : ∀ c ∈ left, isBlank c = true) (hm : middle.Trimmed)
    (hr : ∀ c ∈ right, isBlank c = true) (hnil : middle = [] → right = []) :
    trimParts (left ++ middle ++ right) = (left, middle, right) := by
  have hstart : (left ++ middle ++ right).takeWhile isBlank = left := by
    rw [List.append_assoc, List.takeWhile_append_of_pos hl]
    cases middle with
    | nil => simp [hnil rfl]
    | cons c middle => simp [hm.1 c rfl]
  have htrim := trim_of_trimmed hl hm hr
  have happend := trimParts_append (left ++ middle ++ right)
  rw [trimParts, hstart, htrim] at happend ⊢
  exact congrArg (fun right => (left, middle, right)) (List.append_cancel_left happend)

theorem trim_eq_self_iff : t.trim = t ↔ t.Trimmed := by
  constructor
  · intro h
    exact h ▸ trimmed_trim t
  · intro h
    have : trim ([] ++ t ++ []) = t := trim_of_trimmed (by simp) h (by simp)
    rwa [List.nil_append, List.append_nil] at this

/-- A text is made of outer blanks and of what they stand around, where blanks alone all lead. -/
theorem exists_trimParts (t : Text) : ∃ left right, t = left ++ t.trim ++ right ∧
    (∀ c ∈ left, isBlank c = true) ∧ (∀ c ∈ right, isBlank c = true) ∧
    (t.trim = [] → right = []) ∧ t.trimParts = (left, t.trim, right) := by
  obtain ⟨hleft, hright⟩ := List.forall_mem_append.1 (trimParts_blank t)
  refine ⟨_, _, (trimParts_append t).symm, hleft, hright, fun hnil => ?_, rfl⟩
  have hstart : t.trimStart = [] := by
    have hall : ∀ c ∈ t.trimStart, isBlank c = true := by
      rw [trim, trimEnd, List.reverse_eq_nil_iff, List.dropWhile_eq_nil_iff] at hnil
      exact fun c hc => hnil c (List.mem_reverse.2 hc)
    have hhead := List.head?_dropWhile_not isBlank t
    cases hs : t.trimStart with
    | nil => rfl
    | cons c rest =>
      rw [show t.dropWhile isBlank = t.trimStart from rfl, hs] at hhead
      rw [hs] at hall
      simp [hall c List.mem_cons_self] at hhead
  simp [trimParts, hstart]

theorem trim_append_of_blank (h : ∀ c ∈ right, isBlank c = true) : trim (t ++ right) = trim t := by
  obtain ⟨left, back, ht, hleft, hback, -, -⟩ := exists_trimParts t
  have happend : t ++ right = left ++ t.trim ++ (back ++ right) := by
    rw [← List.append_assoc, ← ht]
  rw [happend, trim_of_trimmed hleft (trimmed_trim t) (List.forall_mem_append.2 ⟨hback, h⟩)]

section Breaks

variable {lineBreak : Text} (hbreak : TokenKind.lineBreak.Spells lineBreak)
include hbreak

theorem head_withBreaks : (∀ c ∈ (withBreaks lineBreak t).head?, isBlank c = false) ↔
    ∀ c ∈ t.head?, isBlank c = false := by
  cases t with
  | nil => rfl
  | cons c t =>
    by_cases hc : c = '\n'
    · subst hc
      rcases hbreak with rfl | rfl <;> simp [show isBlank '\n' = true by decide,
        show isBlank '\r' = true by decide]
    · rw [withBreaks_cons hc]
      rfl

theorem last_withBreaks : (∀ c ∈ (withBreaks lineBreak t).getLast?, isBlank c = false) ↔
    ∀ c ∈ t.getLast?, isBlank c = false := by
  rcases List.eq_nil_or_concat t with rfl | ⟨t, c, rfl⟩
  · rfl
  · by_cases hc : c = '\n'
    · subst hc
      rcases hbreak with rfl | rfl <;> simp [show isBlank '\n' = true by decide]
    · simp [hc]

theorem trimmed_withBreaks : (withBreaks lineBreak t).Trimmed ↔ t.Trimmed :=
  and_congr (head_withBreaks hbreak) (last_withBreaks hbreak)

theorem trimParts_withBreaks (t : Text) : (withBreaks lineBreak t).trimParts =
    (withBreaks lineBreak t.trimParts.1, withBreaks lineBreak t.trimParts.2.1,
      withBreaks lineBreak t.trimParts.2.2) := by
  obtain ⟨left, right, ht, hleft, hright, hnil, hparts⟩ := exists_trimParts t
  have heq : withBreaks lineBreak t =
      withBreaks lineBreak left ++ withBreaks lineBreak t.trim ++ withBreaks lineBreak right := by
    rw [← withBreaks_append, ← withBreaks_append, ← ht]
  rw [hparts, heq]
  apply trimParts_of_trimmed (isBlank_withBreaks hbreak hleft)
    ((trimmed_withBreaks hbreak).2 (trimmed_trim t)) (isBlank_withBreaks hbreak hright)
  intro h
  rw [hnil ((withBreaks_eq_nil hbreak).1 h)]
  rfl

theorem trim_withBreaks (t : Text) : (withBreaks lineBreak t).trim = withBreaks lineBreak t.trim :=
  congrArg (·.2.1) (trimParts_withBreaks hbreak t)

theorem trimEnd_withBreaks (t : Text) :
    (withBreaks lineBreak t).trimEnd = withBreaks lineBreak t.trimEnd := by
  have hblank : ∀ c ∈ (t.reverse.takeWhile isBlank).reverse, isBlank c = true := fun c hc =>
    List.mem_takeWhile_imp (List.mem_reverse.1 hc)
  have heq := congrArg (withBreaks lineBreak) (trimEnd_append_blanks t)
  rw [withBreaks_append] at heq
  rw [← heq, trimEnd_append_of_blank (isBlank_withBreaks hbreak hblank),
    trimEnd_eq_self ((last_withBreaks hbreak).2 (last_trimEnd t))]

/-- The last character of a text that ends with ink stands where it stood. -/
theorem last_trimEnd_withBreaks (p : Position) (t : Text) :
    p.last (withBreaks lineBreak t).trimEnd = p.last t.trimEnd := by
  rw [trimEnd_withBreaks hbreak]
  have hlast := last_trimEnd t
  rcases List.eq_nil_or_concat t.trimEnd with hnil | ⟨front, c, hconcat⟩
  · rw [hnil]
    rfl
  · rw [List.concat_eq_append] at hconcat
    have hc : c ≠ '\n' := by
      rintro rfl
      exact absurd (hlast '\n' (by simp [hconcat])) (by decide)
    rw [hconcat, withBreaks_append, withBreaks_cons hc, withBreaks_nil, Position.last,
      List.dropLast_concat, after_withBreaks hbreak, Position.last, List.dropLast_concat]

end Breaks

end Text

end OffsideCss
