import OffsideCss.Indentation

/-! One step of the indentation machine.  A line keeps the open levels, except that it may close some of
the innermost ones, and the first indented line fixes the character to indent with.  A line that is
refused shows its whole indentation, or one character of it that is not the one to indent with. -/

namespace OffsideCss.Indentation

variable {m m' : Indentation} {indent : Text}

theorem levels_openLevel (m : Indentation) (level : Level) :
    (m.openLevel level).levels = level :: m.levels := rfl

theorem unit_openLevel (m : Indentation) (level : Level) : (m.openLevel level).unit = m.unit := rfl

theorem checkStyle_eq_ok (h : m.checkStyle indent = .ok m') :
    m' = { m with style := m.style.or indent.head? } := by
  cases indent with
  | nil =>
    obtain rfl : m = m' := by simpa [checkStyle] using h
    simp
  | cons c indent =>
    simp only [checkStyle] at h
    split at h
    · obtain rfl := Except.ok.inj h
      cases m.style <;> rfl
    · simp at h

theorem checkStyle_eq_error {fault : IndentFault} (h : m.checkStyle indent = .error fault) :
    fault.cause = .mixedIndent ∧ ∃ c rest, indent = fault.before ++ c :: rest ∧ fault.text = [c] ∧
      ∀ style ∈ m.style.or indent.head?, c ≠ style := by
  cases indent with
  | nil => simp [checkStyle] at h
  | cons c indent =>
    simp only [checkStyle] at h
    split at h
    · simp at h
    · next d rest hd =>
      obtain rfl := Except.error.inj h
      have hsplit := List.takeWhile_append_dropWhile (p := (· = m.style.getD c)) (l := c :: indent)
      rw [hd] at hsplit
      refine ⟨rfl, d, rest, hsplit.symm, rfl, fun style hstyle => ?_⟩
      have hd' := List.head?_dropWhile_not (· = m.style.getD c) (c :: indent)
      rw [hd] at hd'
      obtain rfl : m.style.getD c = style := by
        cases hm : m.style <;> simp_all
      simpa using hd'

theorem closeTo_eq {width closed closed' : Nat} {level level' : Level} {outer outer' : List Level}
    (h : closeTo width closed level outer = (level', outer', closed')) :
    level' :: outer' <:+ level :: outer ∧ (outer' = [] ∨ level'.width ≤ width) := by
  induction outer generalizing closed level with
  | nil =>
    obtain ⟨rfl, rfl, rfl⟩ : level = level' ∧ [] = outer' ∧ closed = closed' := by
      simpa [closeTo] using h
    exact ⟨List.suffix_refl _, .inl rfl⟩
  | cons next outer ih =>
    rw [closeTo] at h
    split at h
    · next hle =>
      obtain ⟨rfl, rfl, rfl⟩ : level = level' ∧ next :: outer = outer' ∧ closed = closed' := by
        simpa using h
      exact ⟨List.suffix_refl _, .inr hle⟩
    · obtain ⟨hsuffix, hwidth⟩ := ih h
      exact ⟨hsuffix.trans (List.suffix_cons _ _), hwidth⟩

/-- What the machine answers to a line, by what decides it. -/
inductive Outcome (m : Indentation) (indent : Text) : Except IndentFault (Shift × Indentation) → Prop
  | first : m.started = false → indent = [] →
      Outcome m indent (.ok (.same, { m with started := true }))
  | firstIndented : m.started = false → indent ≠ [] →
      Outcome m indent (.error ⟨.firstLineIndent, [], indent⟩)
  | mixed {fault : IndentFault} : m.started = true → m.checkStyle indent = .error fault →
      Outcome m indent (.error fault)
  | same {m' : Indentation} : m.started = true → m.checkStyle indent = .ok m' →
      indent.length = m.innermost.width → Outcome m indent (.ok (.same, m'))
  | deeper {m' : Indentation} : m.started = true → m.checkStyle indent = .ok m' →
      m.innermost.width < indent.length →
      (∀ unit ∈ m.unit, indent.length - m.innermost.width = unit) →
      Outcome m indent (.ok (.deeper m.unit.isNone,
        { m' with unit := some (indent.length - m.innermost.width) }))
  | tooDeep {m' : Indentation} {unit : Nat} : m.started = true → m.checkStyle indent = .ok m' →
      m.innermost.width < indent.length → m.unit = some unit →
      indent.length - m.innermost.width ≠ unit →
      Outcome m indent (.error
        ⟨.wrongIndent (.exactly (m.innermost.width + unit)) indent.length, [], indent⟩)
  | shallower {m' : Indentation} {level : Level} {outer : List Level} {closed : Nat} :
      m.started = true → m.checkStyle indent = .ok m' → indent.length < m.innermost.width →
      closeTo indent.length m.innermost.width m.innermost m.outer = (level, outer, closed) →
      level.width = indent.length →
      Outcome m indent (.ok (.shallower, { m' with innermost := level, outer }))
  | between {m' : Indentation} {level : Level} {outer : List Level} {closed : Nat} :
      m.started = true → m.checkStyle indent = .ok m' → indent.length < m.innermost.width →
      closeTo indent.length m.innermost.width m.innermost m.outer = (level, outer, closed) →
      level.width ≠ indent.length →
      Outcome m indent (.error
        ⟨.wrongIndent (.either level.width closed) indent.length, [], indent⟩)

theorem outcome (m : Indentation) (indent : Text) : m.Outcome indent (m.enter indent) := by
  simp only [enter]
  cases hs : m.started with
  | false =>
    by_cases hw : indent.length = 0
    · simp only [hw, Bool.not_false, if_true]
      exact .first hs (List.length_eq_zero_iff.1 hw)
    · simp only [hw, Bool.not_false, if_true, if_false]
      exact .firstIndented hs (mt List.length_eq_zero_iff.2 hw)
  | true =>
    simp only [Bool.not_true, Bool.false_eq_true, if_false]
    cases hcheck : m.checkStyle indent with
    | error fault => exact .mixed hs hcheck
    | ok m' =>
      obtain rfl := checkStyle_eq_ok hcheck
      dsimp only
      split
      · next hlt =>
        split
        · next heq =>
          rw [← heq]
          refine .deeper hs hcheck hlt ?_
          rintro unit hu
          rwa [hu] at heq
        · next hne =>
          cases hu : m.unit with
          | none => simp [hu] at hne
          | some unit =>
            rw [hu] at hne
            exact .tooDeep hs hcheck hlt hu hne
      · next hle =>
        split
        · next heq => exact .same hs hcheck heq
        · next hne =>
          have hlt := Nat.lt_of_le_of_ne (Nat.le_of_not_lt hle) hne
          cases hclose : closeTo indent.length m.innermost.width m.innermost m.outer with
          | mk level rest =>
            obtain ⟨outer, closed⟩ := rest
            dsimp only
            split
            · next hwidth => exact .shallower hs hcheck hlt hclose hwidth
            · next hwidth => exact .between hs hcheck hlt hclose hwidth

/-- What the shift of a line tells of its width, and of the levels and the unit behind it. -/
inductive Moves (m m' : Indentation) (width : Nat) : Shift → Prop
  | same : m'.levels = m.levels → m'.unit = m.unit →
      (m.started = true → width = m.innermost.width) → (m.started = false → width = 0) →
      Moves m m' width .same
  | deeper : m'.levels = m.levels → m.started = true → m.innermost.width < width →
      m'.unit = some (width - m.innermost.width) → (∀ unit ∈ m.unit, m'.unit = some unit) →
      Moves m m' width (.deeper m.unit.isNone)
  | shallower : m'.levels <:+ m.levels → m'.unit = m.unit → width = m'.innermost.width →
      Moves m m' width .shallower

theorem moves_of_enter {shift : Shift} (h : m.enter indent = .ok (shift, m')) :
    m'.started = true ∧ m'.style = m.style.or indent.head? ∧ Moves m m' indent.length shift := by
  have houtcome := m.outcome indent
  rw [h] at houtcome
  cases houtcome with
  | first hs hnil =>
    subst hnil
    exact ⟨rfl, by simp, .same rfl rfl (by simp [hs]) fun _ => rfl⟩
  | same hs hcheck hwidth =>
    obtain rfl := checkStyle_eq_ok hcheck
    exact ⟨hs, rfl, .same rfl rfl (fun _ => hwidth) (by simp [hs])⟩
  | deeper hs hcheck hlt hunit =>
    obtain rfl := checkStyle_eq_ok hcheck
    exact ⟨hs, rfl, .deeper rfl hs hlt rfl fun unit hu => congrArg some (hunit unit hu)⟩
  | shallower hs hcheck hlt hclose hwidth =>
    obtain rfl := checkStyle_eq_ok hcheck
    exact ⟨hs, rfl, .shallower (closeTo_eq hclose).1 rfl hwidth.symm⟩

/-- The step that a line makes. -/
structure Steps (m m' : Indentation) (indent : Text) (shift : Shift) : Prop where
  style : m'.style = m.style.or indent.head?
  levels : m'.levels <:+ m.levels
  deeper : ∀ first, shift = .deeper first → m.started = true

theorem steps_of_enter {shift : Shift} (h : m.enter indent = .ok (shift, m')) :
    Steps m m' indent shift := by
  obtain ⟨-, hstyle, hmoves⟩ := moves_of_enter h
  cases hmoves with
  | same hlevels => exact ⟨hstyle, hlevels ▸ List.suffix_refl _, by simp⟩
  | deeper hlevels hs => exact ⟨hstyle, hlevels ▸ List.suffix_refl _, fun _ _ => hs⟩
  | shallower hlevels => exact ⟨hstyle, hlevels, by simp⟩

/-- Whether a fault shows a whole indentation. -/
def IndentFault.ShowsAll (fault : IndentFault) (indent : Text) : Prop :=
  fault.before = [] ∧ fault.text = indent ∧ indent ≠ [] ∧
    (fault.cause = .firstLineIndent ∨ ∃ expected, fault.cause = .wrongIndent expected indent.length)

theorem fault_of_enter {fault : IndentFault} (hground : ∀ l ∈ m.levels.getLast?, l.width = 0)
    (h : m.enter indent = .error fault) :
    IndentFault.ShowsAll fault indent ∨ m.checkStyle indent = .error fault := by
  have houtcome := m.outcome indent
  rw [h] at houtcome
  cases houtcome with
  | firstIndented _ hne => exact .inl ⟨rfl, rfl, hne, .inl rfl⟩
  | mixed _ hcheck => exact .inr hcheck
  | tooDeep _ _ hlt =>
    refine .inl ⟨rfl, rfl, ?_, .inr ⟨_, rfl⟩⟩
    rintro rfl
    simp at hlt
  | @between _ level outer _ _ _ _ hclose hwidth =>
    refine .inl ⟨rfl, rfl, ?_, .inr ⟨_, rfl⟩⟩
    -- At the margin, the level that is left is the outermost one, which is at the margin too.
    rintro rfl
    obtain ⟨⟨inner, hinner⟩, hlevel⟩ := closeTo_eq hclose
    obtain rfl : outer = [] := hlevel.resolve_right fun hle => hwidth (Nat.le_zero.1 hle)
    exact hwidth (hground level (by rw [levels, ← hinner]; simp))

end OffsideCss.Indentation
