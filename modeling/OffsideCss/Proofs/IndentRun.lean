import Mathlib.Data.List.TakeWhile
import OffsideCss.Proofs.DraftRun

/-! Runs of the indentation machine.  The open levels stand one unit apart whatever the lines so far
were, so the answer to a line can be told from the innermost width and the unit alone, without the
levels. -/

namespace OffsideCss

namespace Indentation

/-- The machine behind a line, with the level that a deeper line announces open for a container. -/
def feed (m : Indentation) (line : Text × Option NodeId) : Except IndentFault Indentation :=
  match m.enter line.1 with
  | .error fault => .error fault
  | .ok (.deeper _, m) => .ok (m.openLevel ⟨line.1.length, line.2⟩)
  | .ok (_, m) => .ok m

/-- The first of some indentations that is not empty. -/
def firstIndent? (indents : List Text) : Option Text := indents.find? (· ≠ [])

/-- Whether levels, from the inside out, are as wide as the multiples of the unit from the `n`th one
down to zero. -/
inductive Stairs (unit : Nat) : List Level → Nat → Prop
  | ground {container : Option NodeId} : Stairs unit [⟨0, container⟩] 0
  | step {container : Option NodeId} {outer : List Level} {n : Nat} :
      Stairs unit outer n → Stairs unit (⟨unit * (n + 1), container⟩ :: outer) (n + 1)

namespace Stairs

variable {unit n width : Nat} {level : Level} {levels outer : List Level}

theorem ne_nil (h : Stairs unit levels n) : levels ≠ [] := by
  cases h <;> exact List.cons_ne_nil _ _

theorem width_eq (h : Stairs unit (level :: outer) n) : level.width = unit * n := by
  cases h <;> rfl

theorem map_width (h : Stairs unit levels n) :
    levels.map (·.width) = (List.range (n + 1)).reverse.map (unit * ·) := by
  induction h with
  | ground => rfl
  | step _ ih =>
    rw [List.map_cons, ih, List.range_succ (n := _ + 1), List.reverse_append, List.map_append]
    rfl

theorem push (h : Stairs unit levels n) (hw : width = unit * (n + 1)) {container : Option NodeId} :
    Stairs unit (⟨width, container⟩ :: levels) (n + 1) :=
  hw ▸ .step h

/-- The level at the margin does not tell the unit. -/
theorem restep (h : Stairs unit levels 0) {unit' : Nat} : Stairs unit' levels 0 := by
  cases h
  exact .ground

theorem suffix (h : Stairs unit levels n) {inner : List Level} (hs : inner <:+ levels)
    (hne : inner ≠ []) : ∃ k ≤ n, Stairs unit inner k := by
  induction h with
  | ground =>
    obtain rfl := (List.suffix_cons_iff.1 hs).resolve_right fun h => hne (List.suffix_nil.1 h)
    exact ⟨0, Nat.le_refl 0, .ground⟩
  | step h ih =>
    rcases List.suffix_cons_iff.1 hs with rfl | hs
    · exact ⟨_, Nat.le_refl _, .step h⟩
    · obtain ⟨k, hk, hinner⟩ := ih hs
      exact ⟨k, Nat.le_succ_of_le hk, hinner⟩

theorem closeTo_self {closed : Nat} (hw : level.width ≤ width) (outer : List Level) :
    closeTo width closed level outer = (level, outer, closed) := by
  cases outer with
  | nil => rfl
  | cons next outer => rw [closeTo, if_pos hw]

/-- Closing levels down to a width leaves the widest level that is not wider, which stands below the
last one closed. -/
theorem closeTo (h : Stairs unit (level :: outer) n) (closed : Nat) (hw : width < level.width) :
    ∃ level' outer', Indentation.closeTo width closed level outer =
      (level', outer', unit * (width / unit) + unit) ∧
      Stairs unit (level' :: outer') (width / unit) := by
  induction n generalizing level outer closed with
  | zero =>
    rw [h.width_eq, Nat.mul_zero] at hw
    exact absurd hw (Nat.not_lt_zero _)
  | succ n ih =>
    cases h with
    | step h =>
      obtain ⟨next, outer, rfl⟩ := List.exists_cons_of_ne_nil h.ne_nil
      rw [Indentation.closeTo, if_neg (Nat.not_le.2 hw)]
      by_cases hnext : width < next.width
      · exact ih h _ hnext
      · have hle := Nat.le_of_not_lt hnext
        have hdiv : width / unit = n := by
          rw [h.width_eq] at hle
          exact Nat.div_eq_of_lt_le (by rwa [Nat.mul_comm]) (by rwa [Nat.mul_comm])
        refine ⟨next, outer, ?_, hdiv ▸ h⟩
        rw [closeTo_self hle, hdiv, Nat.mul_succ]

end Stairs

/-- Whether a machine is in the state that lines with these indentations leave it in. -/
structure Regular (m : Indentation) (indents : List Text) : Prop where
  started : m.started = true ↔ indents ≠ []
  first : ∀ indent ∈ indents.head?, indent = []
  unit : m.unit = (firstIndent? indents).map List.length
  style : m.style = (firstIndent? indents).bind List.head?
  stairs : ∃ n, Stairs (m.unit.getD 0) m.levels n ∧ (m.unit = none → n = 0)

/-- Whether all characters of an indentation are the one to indent with, which it fixes itself if it
is the first one. -/
def Fits (m : Indentation) (indent : Text) : Prop :=
  ∀ c ∈ indent, some c = m.style.or indent.head?

/-- The shift of a line, or the fault in it. -/
def answer (m : Indentation) (indent : Text) : Except IndentFault Shift :=
  (m.enter indent).map (·.1)

/-- The answers to a line behind the first one, told from the innermost width and the unit. -/
inductive Answer (m : Indentation) (indent : Text) : Except IndentFault Shift → Prop
  | mixed {fault : IndentFault} : ¬m.Fits indent → fault.cause = .mixedIndent →
      Answer m indent (.error fault)
  | same : m.Fits indent → indent.length = m.innermost.width → Answer m indent (.ok .same)
  | first : m.Fits indent → m.unit = none → m.innermost.width = 0 → 0 < indent.length →
      Answer m indent (.ok (.deeper true))
  | deeper {unit : Nat} : m.Fits indent → m.unit = some unit → 0 < unit →
      indent.length = m.innermost.width + unit → Answer m indent (.ok (.deeper false))
  | shallower {unit : Nat} : m.Fits indent → m.unit = some unit →
      indent.length < m.innermost.width → unit ∣ indent.length → Answer m indent (.ok .shallower)
  | exactly {unit : Nat} : m.Fits indent → m.unit = some unit → m.innermost.width < indent.length →
      indent.length ≠ m.innermost.width + unit →
      Answer m indent (.error ⟨.wrongIndent (.exactly (m.innermost.width + unit)) indent.length, [],
        indent⟩)
  | either {unit : Nat} : m.Fits indent → m.unit = some unit → indent.length < m.innermost.width →
      ¬unit ∣ indent.length →
      Answer m indent (.error ⟨.wrongIndent (.either (unit * (indent.length / unit))
        (unit * (indent.length / unit) + unit)) indent.length, [], indent⟩)

variable {m m' : Indentation} {indent : Text} {indents : List Text}

theorem fits_of_checkStyle (h : m.checkStyle indent = .ok m') : m.Fits indent := by
  cases indent with
  | nil => simp [Fits]
  | cons c indent =>
    simp only [checkStyle] at h
    split at h
    · next hd =>
      intro d hmem
      have hstyle := List.dropWhile_eq_nil_iff.1 hd d hmem
      cases hs : m.style <;> simp_all
    · simp at h

theorem not_fits_of_checkStyle {fault : IndentFault} (h : m.checkStyle indent = .error fault) :
    ¬m.Fits indent ∧ fault.cause = .mixedIndent := by
  obtain ⟨hcause, c, rest, hsplit, htext, hstyle⟩ := checkStyle_eq_error h
  exact ⟨fun hfits => hstyle c (hfits c (hsplit ▸ by simp)).symm rfl, hcause⟩

/-! ### One line -/

theorem enter_first (hs : m.started = false) (indent : Text) : m.enter indent =
    if indent = [] then .ok (.same, { m with started := true })
    else .error ⟨.firstLineIndent, [], indent⟩ := by
  simp [enter, hs]

theorem Regular.unit_pos (h : m.Regular indents) : ∀ unit ∈ m.unit, 0 < unit := by
  intro unit hunit
  rw [h.unit] at hunit
  obtain ⟨indent, hfirst, rfl⟩ := Option.map_eq_some_iff.1 hunit
  have hne := List.find?_some hfirst
  exact List.length_pos_iff.2 (of_decide_eq_true hne)

/-- A line that is not as deep as the innermost level stands between the level that is left and the one
closed last, which are a unit apart. -/
theorem Regular.closeTo (h : m.Regular indents) (hlt : indent.length < m.innermost.width)
    {level : Level} {outer : List Level} {closed : Nat}
    (hclose : Indentation.closeTo indent.length m.innermost.width m.innermost m.outer =
      (level, outer, closed)) : ∃ unit, m.unit = some unit ∧
        level.width = unit * (indent.length / unit) ∧
        closed = unit * (indent.length / unit) + unit := by
  obtain ⟨n, hstairs, hnone⟩ := h.stairs
  cases hunit : m.unit with
  | none =>
    have htop := hstairs.width_eq
    rw [hnone hunit, Nat.mul_zero] at htop
    omega
  | some unit =>
    obtain ⟨level', outer', hclose', hlevels⟩ := hstairs.closeTo m.innermost.width hlt
    rw [hunit, Option.getD_some] at hclose' hlevels
    obtain ⟨rfl, rfl, rfl⟩ : level' = level ∧ outer' = outer ∧ _ = closed := by
      simpa using hclose'.symm.trans hclose
    exact ⟨unit, rfl, hlevels.width_eq, rfl⟩

/-- A line behind the first one is answered as the innermost width and the unit tell. -/
theorem Regular.answer (h : m.Regular indents) (hne : indents ≠ []) (indent : Text) :
    m.Answer indent (m.answer indent) := by
  have hstarted := h.started.2 hne
  obtain ⟨n, hstairs, -⟩ := h.stairs
  have htop := hstairs.width_eq
  have houtcome := m.outcome indent
  unfold Indentation.answer
  generalize m.enter indent = result at houtcome ⊢
  cases houtcome with
  | first hs | firstIndented hs =>
    rw [hstarted] at hs
    cases hs
  | mixed _ hcheck =>
    obtain ⟨hfits, hcause⟩ := not_fits_of_checkStyle hcheck
    exact .mixed hfits hcause
  | same _ hcheck heq => exact .same (fits_of_checkStyle hcheck) heq
  | deeper _ hcheck hlt hunit =>
    have hfits := fits_of_checkStyle hcheck
    show m.Answer indent (.ok (.deeper m.unit.isNone))
    cases hu : m.unit with
    | none =>
      rw [hu, Option.getD_none, Nat.zero_mul] at htop
      exact .first hfits hu htop (htop ▸ hlt)
    | some unit =>
      have hadded := hunit unit hu
      exact .deeper hfits hu (h.unit_pos unit hu) (by omega)
  | tooDeep _ hcheck hlt hu hne => exact .exactly (fits_of_checkStyle hcheck) hu hlt (by omega)
  | shallower _ hcheck hlt hclose hwidth =>
    obtain ⟨unit, hu, hlevel, -⟩ := h.closeTo hlt hclose
    exact .shallower (fits_of_checkStyle hcheck) hu hlt ⟨_, hwidth.symm.trans hlevel⟩
  | between _ hcheck hlt hclose hwidth =>
    obtain ⟨unit, hu, hlevel, rfl⟩ := h.closeTo hlt hclose
    rw [hlevel] at hwidth ⊢
    exact .either (fits_of_checkStyle hcheck) hu hlt fun hdvd => hwidth (Nat.mul_div_cancel' hdvd)

/-! ### Runs -/

theorem firstIndent?_concat (indents : List Text) (indent : Text) :
    firstIndent? (indents ++ [indent]) =
      (firstIndent? indents).or (if indent = [] then none else some indent) := by
  rw [firstIndent?, List.find?_append, ← firstIndent?]
  by_cases h : indent = [] <;> simp [h]

theorem firstIndent?_bind_head? (indents : List Text) (indent : Text) :
    (firstIndent? (indents ++ [indent])).bind List.head? =
      ((firstIndent? indents).bind List.head?).or indent.head? := by
  rw [firstIndent?_concat]
  cases hfirst : firstIndent? indents with
  | none => cases indent <;> rfl
  | some first =>
    have hne : first ≠ [] := of_decide_eq_true (List.find?_some (p := (· ≠ [])) hfirst)
    obtain ⟨c, first, rfl⟩ := List.exists_cons_of_ne_nil hne
    rfl

theorem Regular.empty : Regular {} [] where
  started := by simp
  first := by simp
  unit := rfl
  style := rfl
  stairs := ⟨0, .ground, fun _ => rfl⟩

/-- As long as there is no unit, all levels stand at the margin. -/
theorem Regular.width_eq_zero (h : m.Regular indents) (hunit : m.unit = none) {level : Level}
    (hlevel : level ∈ m.levels) : level.width = 0 := by
  obtain ⟨n, hstairs, hnone⟩ := h.stairs
  rw [hunit, Option.getD_none] at hstairs
  have hwidths := hstairs.map_width
  rw [hnone hunit] at hwidths
  simpa [hwidths] using List.mem_map_of_mem (f := (·.width)) hlevel

/-- A line that opens no level keeps a machine regular. -/
theorem Regular.stay (h : m.Regular indents) (hs : m'.started = true)
    (hstyle : m'.style = m.style.or indent.head?) (hlevels : m'.levels <:+ m.levels)
    (hunit : m'.unit = m.unit) (hnone : m.unit = none → indent = []) :
    m'.Regular (indents ++ [indent]) where
  started := by simp [hs]
  first := by
    cases indents with
    | nil => simpa using hnone (by simp [h.unit, firstIndent?])
    | cons first rest => simpa using h.first
  unit := by
    rw [hunit, firstIndent?_concat, Option.map_or, ← h.unit]
    cases hu : m.unit with
    | none => simp [hnone hu]
    | some unit => rfl
  style := by rw [hstyle, h.style, firstIndent?_bind_head?]
  stairs := by
    obtain ⟨n, hstairs, hzero⟩ := h.stairs
    obtain ⟨k, hk, hinner⟩ := hstairs.suffix hlevels (List.cons_ne_nil _ _)
    exact ⟨k, hunit ▸ hinner, fun hu => Nat.le_zero.1 (hzero (hunit ▸ hu) ▸ hk)⟩

/-- A deeper line keeps a machine regular when its level is opened. -/
theorem Regular.deepen (h : m.Regular indents) (hs : m'.started = true)
    (hstyle : m'.style = m.style.or indent.head?) (hlevels : m'.levels = m.levels)
    (hne : indents ≠ []) (hlt : m.innermost.width < indent.length)
    (hunit : m'.unit = some (indent.length - m.innermost.width))
    (hsame : ∀ unit ∈ m.unit, m'.unit = some unit) (container : Option NodeId) :
    (m'.openLevel ⟨indent.length, container⟩).Regular (indents ++ [indent]) where
  started := by simp [openLevel, hs]
  first := by
    obtain ⟨first, rest, rfl⟩ := List.exists_cons_of_ne_nil hne
    simpa using h.first
  unit := by
    have hindent : indent ≠ [] := List.ne_nil_of_length_pos (Nat.zero_lt_of_lt hlt)
    rw [unit_openLevel, firstIndent?_concat, Option.map_or, ← h.unit, if_neg hindent]
    cases hu : m.unit with
    | none =>
      rw [hunit, h.width_eq_zero hu List.mem_cons_self]
      rfl
    | some unit => exact hsame unit hu
  style := by
    rw [firstIndent?_bind_head?, ← h.style]
    exact hstyle
  stairs := by
    obtain ⟨n, hstairs, hzero⟩ := h.stairs
    have htop : m.innermost.width = m.unit.getD 0 * n := hstairs.width_eq
    rw [unit_openLevel, levels_openLevel, hlevels]
    refine ⟨n + 1, ?_, by simp [hunit]⟩
    cases hu : m.unit with
    | none =>
      obtain rfl := hzero hu
      rw [htop, Nat.mul_zero, Nat.sub_zero] at hunit
      rw [hunit, Option.getD_some]
      exact hstairs.restep.push (Nat.mul_one _).symm
    | some unit =>
      have hunit' := hsame unit hu
      obtain rfl : indent.length - m.innermost.width = unit :=
        Option.some.inj (hunit.symm.trans hunit')
      rw [hu, Option.getD_some] at hstairs htop
      rw [hunit', Option.getD_some]
      apply hstairs.push
      rw [Nat.mul_succ, ← htop]
      omega

/-- A line that is taken keeps a machine regular. -/
theorem Regular.feed (h : m.Regular indents) {container : Option NodeId}
    (hfeed : m.feed (indent, container) = .ok m') : m'.Regular (indents ++ [indent]) := by
  unfold Indentation.feed at hfeed
  cases henter : m.enter indent with
  | error fault => simp [henter] at hfeed
  | ok result =>
    obtain ⟨shift, m₁⟩ := result
    obtain ⟨hs, hstyle, hmoves⟩ := moves_of_enter henter
    rw [henter] at hfeed
    cases hmoves with
    | same hlevels hunit hwidth hzero =>
      obtain rfl := Except.ok.inj hfeed
      refine h.stay hs hstyle (hlevels ▸ List.suffix_refl _) hunit fun hu => ?_
      cases hstarted : m.started with
      | true =>
        have htop := h.width_eq_zero hu List.mem_cons_self
        exact List.length_eq_zero_iff.1 ((hwidth hstarted).trans htop)
      | false => exact List.length_eq_zero_iff.1 (hzero hstarted)
    | shallower hlevels hunit hwidth =>
      obtain rfl := Except.ok.inj hfeed
      refine h.stay hs hstyle hlevels hunit fun hu => ?_
      have htop := h.width_eq_zero hu (hlevels.subset List.mem_cons_self)
      exact List.length_eq_zero_iff.1 (hwidth.trans htop)
    | deeper hlevels hstarted hlt hunit hsame =>
      obtain rfl := Except.ok.inj hfeed
      exact h.deepen hs hstyle hlevels (h.started.1 hstarted) hlt hunit hsame container

theorem Regular.foldlM (h : m.Regular indents) {lines : List (Text × Option NodeId)}
    (hfold : lines.foldlM Indentation.feed m = .ok m') :
    m'.Regular (indents ++ lines.map Prod.fst) := by
  refine invariant_of_foldlM (P := fun lines m => m.Regular (indents ++ lines.map Prod.fst)) ?_ ?_ hfold
  · simpa using h
  · intro pre line _ m₁ m₂ hm hfeed
    simpa using hm.feed hfeed

/-! ### The machine -/

/-- Whether a line is answered as its characters tell, which have to be the first one of `first`,
the first line that is indented, and as the innermost width and the unit tell. -/
structure Answers (m : Indentation) (first : Option Text) (indent : Text) : Prop where
  mixed : (∃ fault, m.enter indent = .error fault ∧ fault.cause = .mixedIndent) ↔
    ∃ c ∈ indent, some c ≠ first.bind List.head?
  same : (∃ m', m.enter indent = .ok (.same, m')) ↔
    (∀ c ∈ indent, some c = first.bind List.head?) ∧ indent.length = m.innermost.width
  deeper : ∀ fixes, (∃ m', m.enter indent = .ok (.deeper fixes, m')) ↔
    (∀ c ∈ indent, some c = first.bind List.head?) ∧
      (fixes = true ∧ m.unit = none ∧ 0 < indent.length ∨
        fixes = false ∧ ∃ unit, m.unit = some unit ∧ indent.length = m.innermost.width + unit)
  shallower : (∃ m', m.enter indent = .ok (.shallower, m')) ↔
    (∀ c ∈ indent, some c = first.bind List.head?) ∧ indent.length < m.innermost.width ∧
      ∃ unit, m.unit = some unit ∧ unit ∣ indent.length
  exactly : ∀ width,
    m.enter indent = .error ⟨.wrongIndent (.exactly width) indent.length, [], indent⟩ ↔
      (∀ c ∈ indent, some c = first.bind List.head?) ∧ m.innermost.width < indent.length ∧
        ∃ unit, m.unit = some unit ∧ indent.length ≠ m.innermost.width + unit ∧
          width = m.innermost.width + unit
  either : ∀ lower upper,
    m.enter indent = .error ⟨.wrongIndent (.either lower upper) indent.length, [], indent⟩ ↔
      (∀ c ∈ indent, some c = first.bind List.head?) ∧ indent.length < m.innermost.width ∧
        ∃ unit, m.unit = some unit ∧ ¬unit ∣ indent.length ∧ upper = lower + unit ∧
          unit ∣ lower ∧ lower < indent.length ∧ ∀ w, unit ∣ w → w < indent.length → w ≤ lower
  behind : ∀ shift m', m.enter indent = .ok (shift, m') →
    (m'.unit = if shift = .deeper true then some indent.length else m.unit) ∧
      (shift = .shallower → m'.innermost.width = indent.length)

theorem enter_eq_ok_iff {shift : Shift} :
    (∃ m', m.enter indent = .ok (shift, m')) ↔ m.answer indent = .ok shift := by
  rw [answer]
  cases m.enter indent with
  | error fault => simp [Except.map]
  | ok result => simp [Except.map, Prod.ext_iff]

theorem enter_eq_error_iff {fault : IndentFault} :
    m.enter indent = .error fault ↔ m.answer indent = .error fault := by
  rw [answer]
  cases m.enter indent <;> simp [Except.map]

/-- The largest multiple below a number that is none. -/
theorem eq_mul_div_iff {unit width lower : Nat} (hpos : 0 < unit) (h : ¬unit ∣ width) :
    lower = unit * (width / unit) ↔
      unit ∣ lower ∧ lower < width ∧ ∀ w, unit ∣ w → w < width → w ≤ lower := by
  have hdvd : unit ∣ unit * (width / unit) := Nat.dvd_mul_right _ _
  have hlt : unit * (width / unit) < width := by
    refine Nat.lt_of_le_of_ne (Nat.mul_div_le width unit) fun heq => h ?_
    exact heq ▸ hdvd
  have hgreatest : ∀ w, unit ∣ w → w < width → w ≤ unit * (width / unit) := by
    rintro w ⟨k, rfl⟩ hw
    apply Nat.mul_le_mul_left
    rw [Nat.le_div_iff_mul_le hpos, Nat.mul_comm]
    exact Nat.le_of_lt hw
  constructor
  · rintro rfl
    exact ⟨hdvd, hlt, hgreatest⟩
  · rintro ⟨hlower, hbelow, hall⟩
    exact Nat.le_antisymm (hgreatest _ hlower hbelow) (hall _ hdvd hlt)

namespace Answer

variable {a : Except IndentFault Shift}

theorem mixed_iff (h : m.Answer indent a) :
    (∃ fault, a = .error fault ∧ fault.cause = .mixedIndent) ↔ ¬m.Fits indent := by
  cases h <;> grind

theorem same_iff (h : m.Answer indent a) :
    a = .ok .same ↔ m.Fits indent ∧ indent.length = m.innermost.width := by
  cases h <;> grind

theorem deeper_iff (h : m.Answer indent a) (hzero : m.unit = none → m.innermost.width = 0)
    (hpos : ∀ unit, m.unit = some unit → 0 < unit) (fixes : Bool) :
    a = .ok (.deeper fixes) ↔ m.Fits indent ∧
      (fixes = true ∧ m.unit = none ∧ 0 < indent.length ∨
        fixes = false ∧ ∃ unit, m.unit = some unit ∧ indent.length = m.innermost.width + unit) := by
  cases h <;> grind

theorem shallower_iff (h : m.Answer indent a) : a = .ok .shallower ↔ m.Fits indent ∧
    indent.length < m.innermost.width ∧ ∃ unit, m.unit = some unit ∧ unit ∣ indent.length := by
  cases h <;> grind

theorem exactly_iff (h : m.Answer indent a) (width : Nat) :
    a = .error ⟨.wrongIndent (.exactly width) indent.length, [], indent⟩ ↔ m.Fits indent ∧
      m.innermost.width < indent.length ∧ ∃ unit, m.unit = some unit ∧
        indent.length ≠ m.innermost.width + unit ∧ width = m.innermost.width + unit := by
  cases h <;> grind

theorem either_iff (h : m.Answer indent a) (lower upper : Nat) :
    a = .error ⟨.wrongIndent (.either lower upper) indent.length, [], indent⟩ ↔ m.Fits indent ∧
      indent.length < m.innermost.width ∧ ∃ unit, m.unit = some unit ∧ ¬unit ∣ indent.length ∧
        lower = unit * (indent.length / unit) ∧ upper = lower + unit := by
  cases h <;> grind

end Answer

theorem Regular.fits_iff (h : m.Regular indents) : m.Fits indent ↔
    ∀ c ∈ indent, some c = (firstIndent? (indents ++ [indent])).bind List.head? := by
  rw [Fits, firstIndent?_bind_head?, h.style]

theorem Regular.answers (h : m.Regular indents) (hne : indents ≠ []) (indent : Text) :
    m.Answers (firstIndent? (indents ++ [indent])) indent where
  mixed := by
    have hfits : ¬m.Fits indent ↔ _ := not_congr h.fits_iff
    simp only [not_forall, exists_prop] at hfits
    simp only [enter_eq_error_iff, (h.answer hne indent).mixed_iff, hfits, ne_eq]
  same := by rw [enter_eq_ok_iff, (h.answer hne indent).same_iff, h.fits_iff]
  deeper fixes := by
    rw [enter_eq_ok_iff, (h.answer hne indent).deeper_iff _ h.unit_pos, h.fits_iff]
    exact fun hunit => h.width_eq_zero hunit List.mem_cons_self
  shallower := by rw [enter_eq_ok_iff, (h.answer hne indent).shallower_iff, h.fits_iff]
  exactly width := by rw [enter_eq_error_iff, (h.answer hne indent).exactly_iff, h.fits_iff]
  either lower upper := by
    rw [enter_eq_error_iff, (h.answer hne indent).either_iff, h.fits_iff]
    refine and_congr_right fun _ => and_congr_right fun _ => exists_congr fun unit =>
      and_congr_right fun hunit => and_congr_right fun hdvd => ?_
    rw [eq_mul_div_iff (h.unit_pos unit hunit) hdvd, and_comm]
  behind shift m' henter := by
    obtain ⟨-, -, hmoves⟩ := moves_of_enter henter
    cases hmoves with
    | same _ hunit _ _ => exact ⟨by rw [hunit, if_neg (by simp)], by simp⟩
    | shallower _ hunit hwidth => exact ⟨by rw [hunit, if_neg (by simp)], fun _ => hwidth.symm⟩
    | deeper _ _ hlt hunit hsame =>
      refine ⟨?_, by simp⟩
      cases hu : m.unit with
      | none =>
        rw [hunit, h.width_eq_zero hu List.mem_cons_self]
        rfl
      | some unit => exact hsame unit hu

/-- Whether a machine is in the state that lines with these indentations tell: the open widths are
the multiples of the unit up to the innermost one, the unit is the width of the first line that is
indented, and the next line is answered accordingly.  The first line is taken if it is not indented.
-/
structure Follows (m : Indentation) (indents : List Text) : Prop where
  widths : ∃ n, m.levels.map (·.width) = (List.range (n + 1)).reverse.map (m.unit.getD 0 * ·)
  ground : m.unit = none → m.levels.map (·.width) = [0]
  unit : m.unit = (firstIndent? indents.tail).map List.length
  opening : indents = [] → ∀ indent, m.enter indent =
    if indent = [] then .ok (.same, { m with started := true })
    else .error ⟨.firstLineIndent, [], indent⟩
  answers : indents ≠ [] → ∀ indent, m.Answers (firstIndent? (indents.tail ++ [indent])) indent

theorem Regular.firstIndent?_tail (h : m.Regular indents) (more : List Text) :
    firstIndent? (indents.tail ++ more) = firstIndent? (indents ++ more) := by
  cases indents with
  | nil => rfl
  | cons first rest =>
    obtain rfl := h.first first rfl
    rfl

theorem Regular.follows (h : m.Regular indents) : m.Follows indents := by
  obtain ⟨n, hstairs, hzero⟩ := h.stairs
  constructor
  case widths => exact ⟨n, hstairs.map_width⟩
  case ground =>
    intro hunit
    rw [hstairs.map_width, hunit, hzero hunit]
    rfl
  case unit =>
    have htail := h.firstIndent?_tail []
    rw [List.append_nil, List.append_nil] at htail
    rw [htail, h.unit]
  case opening =>
    rintro rfl indent
    exact enter_first (by simpa using mt h.started.1 (by simp)) indent
  case answers =>
    intro hne indent
    rw [h.firstIndent?_tail]
    exact h.answers hne indent

/-- The indentation machine behind any lines that it takes, whatever containers their levels are
opened for. -/
theorem follows_of_foldlM {lines : List (Text × Option NodeId)}
    (h : lines.foldlM feed {} = .ok m) : m.Follows (lines.map Prod.fst) :=
  (Regular.empty.foldlM h).follows

/-- Behind levels of two and four characters that were closed again, a line of one character is
between the levels that are open, and a tab is no way to indent. -/
theorem follows_of_foldlM_four_lines :
    let lines : List (Text × Option NodeId) :=
      [([], none), ([' ', ' '], some 0), ([' ', ' ', ' ', ' '], some 1), ([' ', ' '], none)]
    let m : Indentation := ⟨⟨2, some 0⟩, [⟨0, none⟩], some 2, some ' ', true⟩
    lines.foldlM feed {} = .ok m ∧ m.Follows (lines.map Prod.fst) ∧
      m.enter [' '] = .error ⟨.wrongIndent (.either 0 2) 1, [], [' ']⟩ ∧
      m.enter [' ', '\t'] = .error ⟨.mixedIndent, [' '], ['\t']⟩ := by
  intro lines m
  have h : lines.foldlM feed {} = .ok m := rfl
  exact ⟨h, follows_of_foldlM h, rfl, rfl⟩

end Indentation

/-! ### The machine of a draft -/

namespace Draft

variable {d d' : Draft}

/-- A draft feeds the indentation of a line to its machine. -/
theorem feed_of_enter {l : Line} (h : d.enter l = .ok d') :
    d.indentation.feed (l.indent, d.owner) = .ok d'.indentation := by
  unfold Indentation.feed
  cases entered_of_enter h with
  | @stays shift m henter hshift =>
    rw [henter]
    cases shift with
    | same | shallower => rfl
    | deeper first => exact absurd rfl (hshift first)
  | opens henter =>
    rw [henter]
    rfl

theorem regular_of_foldlM {ss : List Statement} {indents : List Text}
    (hd : d.indentation.Regular indents) (h : ss.foldlM add d = .ok d') :
    d'.indentation.Regular (indents ++ ss.map (·.first.indent)) := by
  refine invariant_of_foldlM
    (P := fun ss d => d.indentation.Regular (indents ++ ss.map (·.first.indent))) ?_ ?_ h
  · simpa using hd
  · intro pre s _ d₁ d₂ hd₁ hadd
    obtain ⟨d₃, node, sheet, henter, -, -, rfl⟩ := add_eq_ok hadd
    simpa using hd₁.feed (feed_of_enter henter)

/-- The machine of a draft is in the state that the indentations of its statements tell. -/
theorem follows_indentation {ss : List Statement} (h : ss.foldlM add {} = .ok d) :
    d.indentation.Follows (ss.map (·.first.indent)) :=
  (regular_of_foldlM .empty h).follows

end Draft

end OffsideCss
