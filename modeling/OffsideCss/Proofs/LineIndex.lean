import Mathlib.Data.List.Induction
import OffsideCss.Proofs.FaultPlace
import OffsideCss.Text.LineIndex

/-! Positions found by lines.  The search among the beginnings of the lines ends at the line that an
offset is on, so an index finds the positions that are counted from the first character on. -/

namespace OffsideCss

namespace Text

variable {t u v : Text} {n : Nat}

/-! ### Cutting -/

theorem cut?_eq_some : t.cut? n = some (u, v) ↔ t = u ++ v ∧ n = u.bytes := by
  refine ⟨fun h => ?_, ?_⟩
  · fun_induction cut? t n generalizing u with
    | case1 t =>
      obtain ⟨rfl, rfl⟩ := Prod.mk.inj (Option.some.inj h)
      exact ⟨rfl, rfl⟩
    | case2 => cases h
    | case3 c t n hc ih =>
      obtain ⟨⟨before, after⟩, hcut, heq⟩ := Option.map_eq_some_iff.1 h
      obtain ⟨rfl, rfl⟩ := Prod.mk.inj heq
      obtain ⟨rfl, hn⟩ := ih hcut
      exact ⟨rfl, by rw [bytes_cons]; omega⟩
    | case4 => cases h
  · rintro ⟨rfl, rfl⟩
    exact cut?_append u v

theorem slice?_eq_some {s : Span} : t.slice? s = some u ↔
    ∃ before after, t = before ++ u ++ after ∧ s = ⟨before.bytes, before.bytes + u.bytes⟩ := by
  refine ⟨fun h => ?_, ?_⟩
  · unfold slice? at h
    split at h
    · next hle =>
      obtain ⟨⟨before, rest⟩, hcut, h⟩ := Option.bind_eq_some_iff.1 h
      obtain ⟨⟨inside, after⟩, hrest, h⟩ := Option.bind_eq_some_iff.1 h
      obtain rfl := Option.some.inj h
      obtain ⟨rfl, hstart⟩ := cut?_eq_some.1 hcut
      obtain ⟨rfl, hstop⟩ := cut?_eq_some.1 hrest
      refine ⟨before, after, (List.append_assoc _ _ _).symm, ?_⟩
      rw [← hstart, ← hstop, Nat.add_sub_cancel' hle]
    · cases h
  · rintro ⟨before, after, rfl, rfl⟩
    exact slice?_append before u after

/-- A position is counted from what a text is cut off behind. -/
theorem positionFrom?_eq (p : Position) (h : n ≤ t.bytes) :
    t.positionFrom? p n = (t.cut? n).map fun x => p.after x.1 := by
  fun_induction positionFrom? p t n with
  | case1 p n =>
    obtain rfl : n = 0 := Nat.le_zero.1 h
    rfl
  | case2 => rfl
  | case3 p c t n hc ih =>
    rw [ih (by rw [bytes_cons] at h; omega), cut?, if_pos hc, Option.map_map]
    rfl
  | case4 p c t n hc =>
    rw [cut?, if_neg hc]
    rfl

theorem positionFrom?_of_le (p : Position) (h : t.bytes ≤ n) :
    t.positionFrom? p n = some (p.after t) := by
  fun_induction positionFrom? p t n with
  | case1 => rfl
  | case2 p c t =>
    have hc := c.utf8Size_pos
    rw [bytes_cons] at h
    omega
  | case3 p c t n hc ih => exact ih (by rw [bytes_cons] at h; omega)
  | case4 p c t n hc =>
    rw [bytes_cons] at h
    omega

theorem position?_eq (t : Text) (offset : Nat) :
    t.position? offset = (t.cut? (min offset t.bytes)).map fun x => Position.first.after x.1 := by
  rcases Nat.le_total offset t.bytes with hle | hle
  · rw [position?, positionFrom?_eq _ hle, Nat.min_eq_left hle]
  · have hcut := cut?_append t []
    rw [List.append_nil] at hcut
    rw [position?, positionFrom?_of_le _ hle, Nat.min_eq_right hle, hcut]
    rfl

/-! ### Where lines begin -/

theorem lineStartsFrom_append (offset : Nat) (t u : Text) :
    (t ++ u).lineStartsFrom offset =
      t.lineStartsFrom offset ++ u.lineStartsFrom (offset + t.bytes) := by
  induction t generalizing offset with
  | nil => rfl
  | cons c t ih =>
    rw [List.cons_append, lineStartsFrom, lineStartsFrom, ih, bytes_cons, ← Nat.add_assoc]
    split <;> rfl

theorem of_mem_lineStartsFrom {offset start : Nat} (h : start ∈ t.lineStartsFrom offset) :
    offset < start ∧ start ≤ offset + t.bytes := by
  induction t generalizing offset with
  | nil => cases h
  | cons c t ih =>
    have hc := c.utf8Size_pos
    rw [lineStartsFrom] at h
    rw [bytes_cons]
    split at h
    · rcases List.mem_cons.1 h with rfl | h
      · omega
      · have := ih h
        omega
    · have := ih h
      omega

/-- The last line of a text is behind the last of the lines that begin in it. -/
theorem exists_lastLine (t : Text) : ∃ front line, t = front ++ line ∧
    (0 :: t.lineStartsFrom 0).getLast? = some front.bytes ∧
      Position.first.after t = ⟨(0 :: t.lineStartsFrom 0).length, line.length + 1⟩ := by
  induction t using List.reverseRecOn with
  | nil => exact ⟨[], [], rfl, rfl, rfl⟩
  | append_singleton t c ih =>
    obtain ⟨front, line, heq, hlast, hafter⟩ := ih
    rw [Position.after_append, hafter, lineStartsFrom_append]
    by_cases hc : c = '\n'
    · refine ⟨t ++ [c], [], by simp, ?_, ?_⟩
      · rw [lineStartsFrom, if_pos hc, lineStartsFrom, ← List.cons_append, List.getLast?_concat]
        simp
      · simp [Position.next, lineStartsFrom, hc]
    · refine ⟨front, line ++ [c], by simp [heq], ?_, ?_⟩
      · simpa [lineStartsFrom, hc] using hlast
      · simp [Position.next, lineStartsFrom, hc]

end Text

namespace LineIndex

variable {index : LineIndex} {xs ys : List Nat} {offset : Nat}

/-! ### The search -/

section Split

variable (hstarts : index.starts = xs ++ ys) (hxs : ∀ x ∈ xs, x ≤ offset)
  (hys : ∀ y ∈ ys, offset < y)

include hstarts hxs hys

theorem lt_start_iff {i : Nat} (hi : i < index.starts.length) :
    offset < index.starts.getD i 0 ↔ xs.length ≤ i := by
  rw [List.getD_eq_getElem?_getD, List.getElem?_eq_getElem hi, Option.getD_some]
  rcases Nat.lt_or_ge i xs.length with hlt | hge
  · have hx : index.starts[i] = xs[i] := by simp only [hstarts, List.getElem_append_left hlt]
    have hle := hxs xs[i] (List.getElem_mem hlt)
    rw [hx]
    omega
  · have hi' : i - xs.length < ys.length := by
      rw [hstarts, List.length_append] at hi
      omega
    have hy : index.starts[i] = ys[i - xs.length] := by
      simp only [hstarts, List.getElem_append_right hge]
    have hlt := hys _ (List.getElem_mem hi')
    rw [hy]
    omega

/-- The search keeps the last line that begins at an offset or before it among those it looks at. -/
theorem searchFrom_eq {base size : Nat} (hbase : base < xs.length) (hsize : xs.length ≤ base + size)
    (hle : base + size ≤ index.starts.length) :
    index.searchFrom offset base size = .ok (xs.length - 1) ∨
      index.searchFrom offset base size = .error xs.length := by
  fun_induction searchFrom index offset base size with
  | case1 base size hsplit middle hlt ih =>
    have hmiddle : xs.length ≤ middle :=
      (lt_start_iff hstarts hxs hys (by omega)).1 hlt
    exact ih hbase (by omega) (by omega)
  | case2 base size hsplit middle hlt ih =>
    have hmiddle : middle < xs.length :=
      Nat.lt_of_not_le fun h => hlt ((lt_start_iff hstarts hxs hys (by omega)).2 h)
    exact ih hmiddle (by omega) (by omega)
  | case3 base size hone start heq =>
    rw [show base = xs.length - 1 by omega]
    exact .inl rfl
  | case4 base size hone start hne hlt =>
    rw [show base + 1 = xs.length by omega]
    exact .inr rfl
  | case5 base size hone start hne hge =>
    have hlt : offset < index.starts.getD base 0 := by omega
    have := (lt_start_iff hstarts hxs hys (by omega)).1 hlt
    omega

theorem line?_eq (hne : xs ≠ []) : index.line? offset = some (xs.length - 1) := by
  have hpos := List.length_pos_iff.2 hne
  have hlength : index.starts.length = xs.length + ys.length := by
    rw [hstarts, List.length_append]
  have hsearch := searchFrom_eq hstarts hxs hys hpos (by omega)
    (Nat.le_of_eq (Nat.zero_add index.starts.length))
  unfold line?
  rcases hsearch with h | h
  · rw [h]
  · obtain ⟨n, hn⟩ : ∃ n, xs.length = n + 1 := ⟨_, (Nat.succ_pred (by omega)).symm⟩
    rw [h, hn]
    rfl

end Split

/-! ### Positions -/

section Counted

variable {t : Text} (h : t.bytes < Counter.limit)
include h

/-- The offsets of a text of which the size is a counter are counters. -/
theorem starts_ofText : (ofText t).starts = 0 :: t.lineStartsFrom 0 := by
  refine congrArg (0 :: ·) ((List.map_congr_left fun start hstart => ?_).trans (List.map_id _))
  have hle := (Text.of_mem_lineStartsFrom hstart).2
  rw [Nat.zero_add] at hle
  exact Counter.wrap_of_lt (Nat.lt_of_le_of_lt hle h)

theorem position?_ofText_append {u v : Text} (ht : t = u ++ v) :
    (ofText t).position? u.bytes = some (Position.first.after u).wrap := by
  obtain ⟨front, line, heq, hlast, hafter⟩ := u.exists_lastLine
  have hstarts : (ofText t).starts = (0 :: u.lineStartsFrom 0) ++ v.lineStartsFrom u.bytes := by
    rw [starts_ofText h, ht, Text.lineStartsFrom_append, Nat.zero_add]
    rfl
  have hline : (ofText t).line? u.bytes = some ((0 :: u.lineStartsFrom 0).length - 1) := by
    refine line?_eq hstarts (List.forall_mem_cons.2 ⟨Nat.zero_le _, fun x hx => ?_⟩)
      (fun y hy => (Text.of_mem_lineStartsFrom hy).1) (List.cons_ne_nil _ _)
    simpa using (Text.of_mem_lineStartsFrom hx).2
  have hstart : (ofText t).starts[(0 :: u.lineStartsFrom 0).length - 1]? = some front.bytes := by
    rw [hstarts, List.getElem?_append_left (by simp), ← List.getLast?_eq_getElem?, hlast]
  have hslice : t.slice? ⟨front.bytes, u.bytes⟩ = some line :=
    Text.slice?_eq_some.2 ⟨front, v, by rw [ht, heq], by rw [heq, Text.bytes_append]⟩
  have hmin : min u.bytes (Counter.wrap t.bytes) = u.bytes := by
    rw [Counter.wrap_of_lt h, ht, Text.bytes_append, Nat.min_eq_left (Nat.le_add_right _ _)]
  simp only [position?, show (ofText t).text = t from rfl, hmin, hline, hstart, hslice,
    Option.bind_eq_bind, Option.bind_some, Option.pure_def, hafter]
  rfl

/-- An index finds the positions of its text. -/
theorem position?_ofText (offset : Nat) :
    (ofText t).position? offset = (t.position? offset).map Position.wrap := by
  have hwrap : Counter.wrap (ofText t).text.bytes = t.bytes := Counter.wrap_of_lt h
  rw [Text.position?_eq]
  cases hcut : t.cut? (min offset t.bytes) with
  | some cut =>
    obtain ⟨u, v⟩ := cut
    obtain ⟨ht, hmin⟩ := Text.cut?_eq_some.1 hcut
    have hposition := position?_ofText_append h ht
    have hinside : min u.bytes t.bytes = u.bytes := by rw [← hmin]; omega
    rw [position?, hwrap, hinside] at hposition
    rw [position?, hwrap, hmin]
    exact hposition
  | none =>
    rw [Option.map_none, Option.map_none, Option.eq_none_iff_forall_ne_some]
    intro p hp
    obtain ⟨line, -, hp⟩ := Option.bind_eq_some_iff.1 hp
    obtain ⟨start, -, hp⟩ := Option.bind_eq_some_iff.1 hp
    obtain ⟨inside, hslice, -⟩ := Option.bind_eq_some_iff.1 hp
    obtain ⟨before, after, ht, hspan⟩ := Text.slice?_eq_some.1 hslice
    rw [hwrap] at hspan
    have hstop : min offset t.bytes = (before ++ inside).bytes := by
      rw [Text.bytes_append]
      exact congrArg Span.stop hspan
    have hsome : t.cut? (before ++ inside).bytes = some (before ++ inside, after) :=
      Text.cut?_eq_some.2 ⟨ht, rfl⟩
    rw [hstop, hsome] at hcut
    cases hcut

theorem lastPosition?_ofText (s : Span) :
    (ofText t).lastPosition? s = (t.lastPosition? s).map Position.wrap := by
  rw [lastPosition?, Text.lastPosition?, show (ofText t).text = t from rfl]
  cases hslice : t.slice? s with
  | none => cases t.position? s.start <;> rfl
  | some inside =>
    obtain ⟨before, after, ht, rfl⟩ := Text.slice?_eq_some.1 hslice
    have hstart : t.position? before.bytes = some (Position.first.after before) := by
      rw [ht, List.append_assoc]
      exact Text.positionFrom?_append _ _ _
    rcases List.eq_nil_or_concat inside with rfl | ⟨inside, c, rfl⟩
    · simp only [Option.bind_eq_bind, Option.bind_some, List.getLast?_nil, position?_ofText h, hstart]
      rfl
    · rw [List.concat_eq_append] at ht ⊢
      have hstop :
          before.bytes + Text.bytes (inside ++ [c]) - c.utf8Size = (before ++ inside).bytes := by
        simp only [Text.bytes_append, Text.bytes_cons, Text.bytes_nil]
        omega
      have hlast := position?_ofText_append (u := before ++ inside) (v := c :: after) h (by simp [ht])
      simp only [Option.bind_eq_bind, Option.bind_some, List.getLast?_concat, hstart, hstop]
      rw [hlast, Position.after_append, Option.pure_def, Option.map_some, Position.last,
        List.dropLast_concat]

end Counted

end LineIndex

end OffsideCss
