import Mathlib.Order.Defs.PartialOrder
import OffsideCss.Text.Position

/-! The order of positions.  Positions are compared by their lines and, on the same line, by their
columns; this is the order in which the characters of a text stand.  So a part of a text can be told by
the positions of its first and its last character. -/

namespace OffsideCss

namespace Position

instance : Preorder Position where
  le p q := p.line < q.line ∨ p.line = q.line ∧ p.column ≤ q.column
  lt p q := p.line < q.line ∨ p.line = q.line ∧ p.column < q.column
  le_refl p := .inr ⟨rfl, Nat.le_refl _⟩
  le_trans p q r hpq hqr := by omega
  lt_iff_le_not_ge p q := by omega

theorem le_iff {p q : Position} :
    p ≤ q ↔ p.line < q.line ∨ p.line = q.line ∧ p.column ≤ q.column := Iff.rfl

theorem lt_iff {p q : Position} :
    p < q ↔ p.line < q.line ∨ p.line = q.line ∧ p.column < q.column := Iff.rfl

instance : DecidableLE Position := fun _ _ => decidable_of_iff _ le_iff.symm

instance : DecidableLT Position := fun _ _ => decidable_of_iff _ lt_iff.symm

variable {p : Position} {t u : Text}

theorem lt_next (p : Position) (c : Char) : p < p.next c := by
  rw [lt_iff, next]
  split
  · exact .inl (Nat.lt_succ_self _)
  · exact .inr ⟨rfl, Nat.lt_succ_self _⟩

theorem le_after (p : Position) (t : Text) : p ≤ p.after t := by
  induction t generalizing p with
  | nil => exact le_refl p
  | cons c t ih => exact le_trans (le_of_lt (lt_next p c)) (ih (p.next c))

/-- A text that is not empty ends behind where it starts. -/
theorem lt_after (p : Position) (h : t ≠ []) : p < p.after t := by
  obtain ⟨c, t, rfl⟩ := List.exists_cons_of_ne_nil h
  exact lt_of_lt_of_le (lt_next p c) (le_after _ t)

theorem le_last (p : Position) (t : Text) : p ≤ p.last t := le_after p t.dropLast

theorem last_lt_after (p : Position) (h : t ≠ []) : p.last t < p.after t := by
  obtain ⟨u, c, rfl⟩ := (List.eq_nil_or_concat t).resolve_left h
  rw [List.concat_eq_append, last, List.dropLast_concat, after_append]
  exact lt_next _ c

theorem last_append (p : Position) (t : Text) (h : u ≠ []) :
    p.last (t ++ u) = (p.after t).last u := by
  rw [last, List.dropLast_append_of_ne_nil h, after_append, last]

theorem after_of_notMem (h : '\n' ∉ t) (p : Position) : p.after t = ⟨p.line, p.column + t.length⟩ := by
  induction t generalizing p with
  | nil => rfl
  | cons c t ih =>
    rw [List.mem_cons, not_or] at h
    rw [after_cons, ih h.2, next, if_neg (Ne.symm h.1), List.length_cons, Nat.add_assoc, Nat.add_comm 1]

theorem last_of_notMem (h : '\n' ∉ t) (hne : t ≠ []) : first.last t = ⟨1, t.length⟩ := by
  have hpos := List.length_pos_iff.2 hne
  rw [last, after_of_notMem fun hmem => h (List.dropLast_subset _ hmem), List.length_dropLast, first]
  exact congrArg (mk 1) (Nat.add_sub_of_le hpos)

/-- The last of two characters or more stands behind the first one. -/
theorem lt_last {c d : Char} : p < p.last (c :: d :: t) := by
  apply lt_after
  simp

end Position

open Position

namespace Text

/-- The characters of a text that starts at `p`, with the positions they stand at. -/
def placedFrom (p : Position) : Text → List (Position × Char)
  | [] => []
  | c :: t => (p, c) :: placedFrom (p.next c) t

/-- The characters of a text from one position up to another one, both of them included. -/
def range (t : Text) (start stop : Position) : Text :=
  ((t.placedFrom .first).filter fun x => start ≤ x.1 ∧ x.1 ≤ stop).map Prod.snd

/-- Whether each character of a text stands at a line and a column that are counters. -/
def Fits (t : Text) : Prop := ∀ x ∈ t.placedFrom .first, x.1.Fits

theorem placedFrom_append (p : Position) (t u : Text) :
    (t ++ u).placedFrom p = t.placedFrom p ++ u.placedFrom (p.after t) := by
  induction t generalizing p with
  | nil => rfl
  | cons c t ih => exact congrArg ((p, c) :: ·) (ih (p.next c))

theorem map_placedFrom (p : Position) (t : Text) : (t.placedFrom p).map Prod.snd = t := by
  induction t generalizing p with
  | nil => rfl
  | cons c t ih => exact congrArg (c :: ·) (ih (p.next c))

theorem exists_of_placedFrom {p : Position} {t : Text} {a b : List (Position × Char)}
    {x : Position × Char} (h : t.placedFrom p = a ++ x :: b) :
    ∃ u v, t = u ++ x.2 :: v ∧ p.after u = x.1 := by
  induction t generalizing p a with
  | nil => simp [placedFrom] at h
  | cons c t ih =>
    cases a with
    | nil =>
      obtain ⟨rfl, -⟩ := List.cons.inj h
      exact ⟨[], t, rfl, rfl⟩
    | cons y a =>
      obtain ⟨u, v, rfl, hx⟩ := ih (List.cons.inj h).2
      exact ⟨c :: u, v, rfl, hx⟩

theorem Fits.after_first {t u v : Text} (h : t.Fits) (ht : t = u ++ v) (hv : v ≠ []) :
    (Position.first.after u).Fits := by
  obtain ⟨c, v, rfl⟩ := List.exists_cons_of_ne_nil hv
  refine h (Position.first.after u, c) ?_
  rw [ht, placedFrom_append]
  exact List.mem_append_right _ List.mem_cons_self

theorem of_mem_placedFrom {p : Position} {t : Text} {x : Position × Char}
    (h : x ∈ t.placedFrom p) : p ≤ x.1 ∧ x.1 ≤ p.last t := by
  obtain ⟨a, b, hab⟩ := List.append_of_mem h
  obtain ⟨u, v, rfl, hx⟩ := exists_of_placedFrom hab
  rw [last_append p u (List.cons_ne_nil _ _), hx]
  exact ⟨hx ▸ le_after p u, le_last _ _⟩

/-- The part of a text between what stands before it and what stands behind it. -/
theorem range_append (before after : Text) {t : Text} (h : t ≠ []) :
    (before ++ t ++ after).range (Position.first.after before)
      ((Position.first.after before).last t) = t := by
  have hstart : ∀ x ∈ before.placedFrom .first, ¬Position.first.after before ≤ x.1 := by
    intro x hx
    have hne : before ≠ [] := by
      rintro rfl
      simp [placedFrom] at hx
    have hlt := lt_of_le_of_lt (of_mem_placedFrom hx).2 (last_lt_after _ hne)
    exact (lt_iff_le_not_ge.1 hlt).2
  have hstop : ∀ x ∈ after.placedFrom (Position.first.after (before ++ t)),
      ¬x.1 ≤ (Position.first.after before).last t := by
    intro x hx
    have hlt := lt_of_lt_of_le (last_lt_after (Position.first.after before) h)
      (after_append .first before t ▸ (of_mem_placedFrom hx).1)
    exact (lt_iff_le_not_ge.1 hlt).2
  rw [range, placedFrom_append, placedFrom_append, List.filter_append, List.filter_append,
    List.filter_eq_nil_iff.2, List.filter_eq_self.2, List.filter_eq_nil_iff.2, List.nil_append,
    List.append_nil, map_placedFrom]
  · intro x hx
    simp [hstop x hx]
  · intro x hx
    simpa using of_mem_placedFrom hx
  · intro x hx
    simp [hstart x hx]

end Text

end OffsideCss
