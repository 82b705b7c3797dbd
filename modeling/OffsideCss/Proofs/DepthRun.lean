import OffsideCss.Proofs.DraftRun

/-! Reading statements that are indented by depth.  When each line is as wide as its depth times one
unit, no more than one level deeper than the line before, and deeper only behind a node that can hold
others, then the open levels are one for each depth, and the statements make a sheet whose nodes stand
as deep as they do. -/

namespace OffsideCss

open Sheet (Visit Holds)

/-- The levels at the depths from `depth` out to the top, in units of `width` characters. -/
inductive Aligned (width : Nat) (vs : List Visit) : List Level → Nat → Prop
  | top : Aligned width vs [⟨0, none⟩] 0
  | level {container : Option NodeId} {outer : List Level} {depth : Nat} :
      Holds vs container (depth + 1) → Aligned width vs outer depth →
      Aligned width vs (⟨width * (depth + 1), container⟩ :: outer) (depth + 1)

namespace Aligned

variable {width depth : Nat} {vs : List Visit} {level : Level} {levels outer : List Level}

theorem width_eq (h : Aligned width vs (level :: outer) depth) : level.width = width * depth := by
  cases h <;> rfl

theorem holds (h : Aligned width vs (level :: outer) depth) : Holds vs level.container depth := by
  cases h with
  | top => rfl
  | level hholds _ => exact hholds

theorem ne_nil (h : Aligned width vs levels depth) : levels ≠ [] := by
  cases h <;> simp

theorem concat (h : Aligned width vs levels depth) {v : Visit} (hv : depth ≤ v.depth) :
    Aligned width (vs ++ [v]) levels depth := by
  induction h with
  | top => exact .top
  | level hholds _ ih => exact .level (hholds.concat hv) (ih (Nat.le_of_succ_le hv))

theorem stacked (h : Aligned width vs levels depth) : Stacked vs levels depth := by
  induction h with
  | top => exact .cons rfl (Nat.le_refl 0) .nil
  | level hholds _ ih => exact .cons hholds (Nat.le_refl _) (ih.mono (Nat.le_succ _))

theorem ground (h : Aligned width vs levels depth) : ∀ l ∈ levels.getLast?, l.width = 0 := by
  induction h with
  | top => simp
  | level _ hrest ih => rwa [List.getLast?_cons_of_ne_nil hrest.ne_nil]

theorem closeTo (closed : Nat) {goal : Nat} (hwidth : 0 < width)
    (h : Aligned width vs (level :: outer) depth) (hgoal : goal ≤ depth) :
    ∃ level' outer' closed',
      Indentation.closeTo (width * goal) closed level outer = (level', outer', closed') ∧
      Aligned width vs (level' :: outer') goal := by
  induction depth generalizing level outer closed with
  | zero =>
    obtain rfl : goal = 0 := Nat.le_zero.1 hgoal
    cases h with
    | top => exact ⟨_, _, _, rfl, .top⟩
  | succ depth ih =>
    cases h with
    | level hholds hrest =>
      cases outer with
      | nil => exact absurd rfl hrest.ne_nil
      | cons next outer =>
        rw [Indentation.closeTo]
        by_cases hg : goal = depth + 1
        · subst hg
          rw [if_pos (Nat.le_refl _)]
          exact ⟨_, _, _, rfl, .level hholds hrest⟩
        · have hlt : width * goal < width * (depth + 1) :=
            Nat.mul_lt_mul_of_pos_left (by omega) hwidth
          rw [if_neg (Nat.not_le.2 hlt)]
          exact ih _ hrest (by omega)

end Aligned

namespace Indentation

/-- What a machine knows of how lines are indented, if it knows it: each level by `width` characters
`c`. -/
structure Uses (m : Indentation) (c : Char) (width : Nat) : Prop where
  started : m.started = true
  unit : ∀ unit ∈ m.unit, unit = width
  style : ∀ style ∈ m.style, style = c

variable {m : Indentation} {c : Char} {width depth goal : Nat} {vs : List Visit}

theorem Uses.checkStyle (h : m.Uses c width) (n : Nat) :
    ∃ m', m.checkStyle (List.replicate n c) = .ok m' ∧ m'.Uses c width ∧ m'.levels = m.levels ∧
      m'.unit = m.unit := by
  cases n with
  | zero => exact ⟨m, rfl, h, rfl, rfl⟩
  | succ n =>
    have hstyle : m.style.getD c = c := by
      cases hs : m.style with
      | none => rfl
      | some style => exact h.style style hs
    refine ⟨{ m with style := some c }, ?_, ⟨h.started, h.unit, by simp⟩, rfl, rfl⟩
    rw [List.replicate_succ]
    simp [Indentation.checkStyle, hstyle]

theorem Uses.enter_open (hwidth : 0 < width) (h : m.Uses c width)
    (ha : Aligned width vs m.levels depth) (hgoal : goal ≤ depth) :
    ∃ shift m', m.enter (List.replicate (width * goal) c) = .ok (shift, m') ∧
      (shift = .same ∨ shift = .shallower) ∧ m'.Uses c width ∧ Aligned width vs m'.levels goal := by
  obtain ⟨m₁, hcheck, huses, hlevels, -⟩ := h.checkStyle (width * goal)
  rw [← hlevels, levels] at ha
  have htop := ha.width_eq
  simp only [enter, h.started, hcheck, List.length_replicate, htop]
  by_cases hg : goal = depth
  · subst hg
    exact ⟨.same, m₁, by simp, .inl rfl, huses, ha⟩
  · have hlt : width * goal < width * depth := Nat.mul_lt_mul_of_pos_left (by omega) hwidth
    obtain ⟨level', outer', closed', hclose, ha'⟩ :=
      ha.closeTo (width * depth) hwidth hgoal
    refine ⟨.shallower, { m₁ with innermost := level', outer := outer' }, ?_, .inr rfl,
      ⟨huses.started, huses.unit, huses.style⟩, ha'⟩
    simp [Nat.not_lt.2 (Nat.le_of_lt hlt), Nat.ne_of_lt hlt, hclose, ha'.width_eq]

theorem Uses.enter_deeper (hwidth : 0 < width) (h : m.Uses c width)
    (ha : Aligned width vs m.levels depth) :
    ∃ first m', m.enter (List.replicate (width * (depth + 1)) c) = .ok (.deeper first, m') ∧
      m'.Uses c width ∧ m'.levels = m.levels := by
  obtain ⟨m₁, hcheck, huses, hlevels, hunit⟩ := h.checkStyle (width * (depth + 1))
  have ha' := ha
  rw [← hlevels, levels] at ha'
  have htop := ha'.width_eq
  have hsub : width * (depth + 1) - width * depth = width := by
    rw [Nat.mul_succ, Nat.add_sub_cancel_left]
  have hlt : width * depth < width * (depth + 1) := Nat.mul_lt_mul_of_pos_left (by omega) hwidth
  have hgetD : m₁.unit.getD width = width := by
    cases hu : m₁.unit with
    | none => rfl
    | some unit => exact huses.unit unit hu
  simp only [enter, h.started, hcheck, List.length_replicate, htop]
  refine ⟨m₁.unit.isNone, { m₁ with unit := some width }, ?_,
    ⟨huses.started, by simp, huses.style⟩, hlevels⟩
  simp [hlt, hsub, hgetD]

end Indentation

namespace Draft

/-- Whether a draft has read nodes by depth, of which `v` is the last one. -/
structure AtDepth (d : Draft) (c : Char) (width : Nat) (vs : List Visit) (v : Visit) : Prop where
  reads : d.Reads (vs ++ [v])
  aligned : Aligned width (vs ++ [v]) d.indentation.levels v.depth
  uses : d.indentation.Uses c width

variable {c : Char} {width : Nat} {d : Draft} {vs : List Visit} {v : Visit}

/-- A line no more than one level deeper than the node before, and only behind one that can hold
others, finds its place. -/
theorem AtDepth.enter (hwidth : 0 < width) (h : d.AtDepth c width vs v) {l : Line} {depth : Nat}
    (hindent : l.indent = List.replicate (width * depth) c) (hdepth : depth ≤ v.depth + 1)
    (hdeeper : depth = v.depth + 1 → v.node.item.kind.isContainer = true) :
    ∃ d', d.enter l = .ok d' ∧ Aligned width (vs ++ [v]) d'.indentation.levels depth ∧
      d'.indentation.Uses c width := by
  by_cases hd : depth = v.depth + 1
  · subst hd
    obtain ⟨first, m', henter, huses, hlevels⟩ := h.uses.enter_deeper hwidth h.aligned
    have hcontainer := hdeeper rfl
    obtain ⟨e, he, hnode⟩ := h.reads.lists.outlined.entry_of_mem (v := v) (by simp)
    have howner : d.owner = some v.id := by
      simp [owner, h.reads.last v (by simp), Sheet.isContainer, he, hnode, hcontainer]
    refine ⟨_, by rw [Draft.enter, hindent, henter], ?_, huses.started, huses.unit, huses.style⟩
    simp only [Indentation.levels, Indentation.openLevel, howner, Line.width, hindent,
      List.length_replicate]
    refine .level (Holds.last hcontainer) ?_
    rw [← Indentation.levels, hlevels]
    exact h.aligned
  · have hgoal : depth ≤ v.depth := by omega
    obtain ⟨shift, m', henter, hshift, huses, ha⟩ := h.uses.enter_open hwidth h.aligned hgoal
    rw [← hindent] at henter
    refine ⟨{ d with indentation := m' }, ?_, ha, huses⟩
    rw [Draft.enter, henter]
    rcases hshift with rfl | rfl <;> rfl

theorem lists_of_enter {d' : Draft} {vs : List Visit} {l : Line} (h : d.sheet.Lists vs)
    (he : d.enter l = .ok d') : d'.sheet.Lists vs := by
  cases entered_of_enter he with
  | stays => exact h
  | opens =>
    dsimp only
    split
    · exact lists_indent h _
    · exact h

theorem add_of_enter {d' : Draft} {ws : List Visit} {s : Statement} {i : Item} {depth : Nat}
    (hr : d.Reads ws) (he : d.enter s.first = .ok d')
    (ha : Aligned width ws d'.indentation.levels depth) (hu : d'.indentation.Uses c width)
    (hi : s.item = .ok i) :
    ∃ d'' v, d.add s = .ok d'' ∧ d''.AtDepth c width ws v ∧ v.depth = depth ∧ v.node.item = i := by
  obtain ⟨node, hnode, hitem⟩ : ∃ node, s.node = .ok node ∧ node.item = i := by
    simp [Statement.node, hi, Except.map]
  have hawaits : d'.Awaits ws depth := by
    refine ⟨lists_of_enter hr.lists he, ha.holds, ?_, ha.ground⟩
    cases ha.stacked with
    | cons _ hdepth houter => exact houter.mono hdepth
  obtain ⟨sheet, hsheet, hreads⟩ := hawaits.append node
  refine ⟨{ d' with sheet }, ⟨depth, d'.sheet.size, node⟩, ?_,
    ⟨hreads, ha.concat (Nat.le_refl _), hu⟩, rfl, hitem⟩
  simp [Draft.add, he, hnode, hsheet, bind, Except.bind, pure, Except.pure]

theorem add_first (c : Char) (width : Nat) {s : Statement} {i : Item} (hindent : s.first.indent = []) (hi : s.item = .ok i) :
    ∃ d v, Draft.add {} s = .ok d ∧ d.AtDepth c width [] v ∧ v.depth = 0 ∧ v.node.item = i := by
  have he : Draft.enter {} s.first = .ok { indentation := { started := true } } := by
    simp [Draft.enter, Indentation.enter, hindent]
  exact add_of_enter .empty he .top ⟨rfl, by simp, by simp⟩ hi

/-- A node at some depth. -/
structure Target where
  depth : Nat
  item : Item

/-- Whether a node can stand behind another one in document order. -/
def Target.Follows (t u : Target) : Prop :=
  u.depth ≤ t.depth + 1 ∧ (u.depth = t.depth + 1 → t.item.kind.isContainer = true)

/-- Whether a statement reads as a node and is indented by its depth. -/
structure Hits (c : Char) (width : Nat) (s : Statement) (t : Target) : Prop where
  indent : s.first.indent = List.replicate (width * t.depth) c
  item : s.item = .ok t.item

theorem AtDepth.foldlM (hwidth : 0 < width) {ss : List Statement} {ts : List Target}
    (h : d.AtDepth c width vs v) (hs : List.Forall₂ (Hits c width) ss ts)
    (hchain : (⟨v.depth, v.node.item⟩ :: ts).IsChain Target.Follows) :
    ∃ d' ws, ss.foldlM Draft.add d = .ok d' ∧ d'.Reads (vs ++ v :: ws) ∧
      ws.map (fun w => ⟨w.depth, w.node.item⟩) = ts := by
  induction hs generalizing d vs v with
  | nil => exact ⟨d, [], rfl, h.reads, rfl⟩
  | @cons s t ss ts hst _ ih =>
    obtain ⟨⟨hle, hdeeper⟩, hrest⟩ := List.isChain_cons_cons.1 hchain
    obtain ⟨d₁, he, ha, hu⟩ := h.enter hwidth hst.indent hle hdeeper
    obtain ⟨d₂, w, hadd, hat, hdepth, hitem⟩ := add_of_enter h.reads he ha hu hst.item
    obtain ⟨d', ws, hfold, hreads, hws⟩ := ih hat (by rw [hdepth, hitem]; exact hrest)
    refine ⟨d', w :: ws, ?_, by simpa using hreads, ?_⟩
    · rw [List.foldlM_cons, hadd]
      exact hfold
    · rw [List.map_cons, hws, hdepth, hitem]

/-- Statements that are indented by the depths of nodes make a sheet with these nodes. -/
theorem exists_foldlM {ss : List Statement} {t : Target} {ts : List Target} (hwidth : 0 < width)
    (ht : t.depth = 0) (hs : List.Forall₂ (Hits c width) ss (t :: ts))
    (hchain : (t :: ts).IsChain Target.Follows) :
    ∃ d ws, ss.foldlM Draft.add {} = .ok d ∧ d.sheet.Lists ws ∧
      ws.map (fun w => ⟨w.depth, w.node.item⟩) = t :: ts := by
  cases hs with
  | cons hst hs =>
    obtain ⟨d₁, v, hadd, hat, hdepth, hitem⟩ :=
      add_first c width (by simpa [ht] using hst.indent) hst.item
    have htarget : (⟨v.depth, v.node.item⟩ : Target) = t := by rw [hdepth, hitem, ← ht]
    obtain ⟨d, ws, hfold, hreads, hws⟩ := hat.foldlM hwidth hs (htarget ▸ hchain)
    refine ⟨d, v :: ws, ?_, hreads.lists, by rw [List.map_cons, hws, htarget]⟩
    rw [List.foldlM_cons, hadd]
    exact hfold

end Draft

end OffsideCss
