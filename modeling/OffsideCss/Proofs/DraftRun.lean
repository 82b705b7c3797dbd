import OffsideCss.Proofs.IndentStep
import OffsideCss.Proofs.ListFacts
import OffsideCss.Proofs.Outline
import OffsideCss.Sheet.Parse

/-! Reading statement by statement.  Every open level is held by a node at the end of the outline or
above it, so each statement adds its node at the end: document order is the order of the text, and no
node is refused. -/

namespace OffsideCss

open Sheet (Visit Holds)

/-- Whether each open level has a container that holds nodes at some depth, from the inside out at
`bound` and less and less deep. -/
inductive Stacked (vs : List Visit) : List Level → Nat → Prop
  | nil {bound : Nat} : Stacked vs [] bound
  | cons {level : Level} {outer : List Level} {depth bound : Nat} :
      Holds vs level.container depth → depth ≤ bound → Stacked vs outer depth →
      Stacked vs (level :: outer) bound

namespace Stacked

variable {vs : List Visit} {levels : List Level} {bound : Nat}

theorem mono (h : Stacked vs levels bound) {bound' : Nat} (hb : bound ≤ bound') :
    Stacked vs levels bound' := by
  cases h with
  | nil => exact .nil
  | cons hholds hdepth hrest => exact .cons hholds (Nat.le_trans hdepth hb) hrest

theorem suffix (h : Stacked vs levels bound) {inner : List Level} (hs : inner <:+ levels) :
    Stacked vs inner bound := by
  induction h with
  | nil =>
    rw [List.suffix_nil.1 hs]
    exact .nil
  | cons hholds hdepth hrest ih =>
    rcases List.suffix_cons_iff.1 hs with rfl | hs
    · exact .cons hholds hdepth hrest
    · exact (ih hs).mono hdepth

theorem concat (h : Stacked vs levels bound) {v : Visit} (hv : bound ≤ v.depth) :
    Stacked (vs ++ [v]) levels bound := by
  induction h with
  | nil => exact .nil
  | cons hholds hdepth _ ih =>
    have hle := Nat.le_trans hdepth hv
    exact .cons (hholds.concat hle) hdepth (ih hle)

end Stacked

namespace Draft

/-- Whether a draft has read the nodes `vs`, in this order. -/
structure Reads (d : Draft) (vs : List Visit) : Prop where
  lists : d.sheet.Lists vs
  stacked : ∃ bound, Stacked vs d.indentation.levels bound
  ground : ∀ l ∈ d.indentation.levels.getLast?, l.width = 0
  started : d.indentation.started = true → vs ≠ []
  last : ∀ v ∈ vs.getLast?, d.sheet.lastChild? d.indentation.innermost.container = some v.id

theorem Reads.empty : Reads {} [] where
  lists := Sheet.Lists.empty
  stacked := ⟨0, .cons rfl (Nat.le_refl 0) .nil⟩
  ground := by simp [Indentation.levels]
  started := by simp
  last := by simp

/-- A draft whose innermost level is the one that the next node belongs to. -/
structure Awaits (d : Draft) (vs : List Visit) (depth : Nat) : Prop where
  lists : d.sheet.Lists vs
  holds : Holds vs d.indentation.innermost.container depth
  stacked : Stacked vs d.indentation.outer depth
  ground : ∀ l ∈ d.indentation.levels.getLast?, l.width = 0

variable {d d' : Draft} {vs : List Visit}

theorem lists_indent {s : Sheet} (h : s.Lists vs) (indent : Option Text) :
    Sheet.Lists { s with indent } vs :=
  ⟨h.outlined.ids_eq fun _ _ => rfl, h.ids⟩

/-- The last node is what holds the nodes of a deeper level, if it can hold any. -/
theorem Reads.holds_owner (h : d.Reads vs) (hs : d.indentation.started = true) {depth : Nat}
    (hc : Holds vs d.indentation.innermost.container depth) :
    ∃ depth', depth ≤ depth' ∧ Holds vs d.owner depth' := by
  rcases List.eq_nil_or_concat vs with hvs | ⟨vs', v, rfl⟩
  · exact absurd hvs (h.started hs)
  have hlast := h.last v (by simp)
  obtain ⟨e, he, hnode⟩ := h.lists.outlined.entry_of_mem (v := v) (by simp)
  by_cases hv : v.node.item.kind.isContainer = true
  · have howner : d.owner = some v.id := by
      simp [owner, hlast, Sheet.isContainer, he, hnode, hv]
    rw [howner]
    rw [List.concat_eq_append] at hc ⊢
    exact ⟨v.depth + 1, hc.le_last, Holds.last hv⟩
  · have howner : d.owner = d.indentation.innermost.container := by
      simp [owner, hlast, Sheet.isContainer, he, hnode, hv]
    exact ⟨depth, Nat.le_refl _, howner ▸ hc⟩

theorem Reads.ground_of_suffix (h : d.Reads vs) {m : Indentation}
    (hm : m.levels <:+ d.indentation.levels) : ∀ l ∈ m.levels.getLast?, l.width = 0 := by
  rw [getLast?_suffix hm (List.cons_ne_nil _ _)]
  exact h.ground

/-- The draft behind the indentation of a line, which opens a level if it is deeper. -/
inductive Entered (d : Draft) (l : Line) : Draft → Prop
  | stays {shift : Shift} {m : Indentation} : d.indentation.enter l.indent = .ok (shift, m) →
      (∀ first, shift ≠ .deeper first) → Entered d l { d with indentation := m }
  | opens {first : Bool} {m : Indentation} :
      d.indentation.enter l.indent = .ok (.deeper first, m) →
      Entered d l ⟨if first then { d.sheet with indent := some l.indent } else d.sheet,
        m.openLevel ⟨l.width, d.owner⟩⟩

theorem entered_of_enter {l : Line} (h : d.enter l = .ok d') : d.Entered l d' := by
  unfold Draft.enter at h
  split at h
  · simp at h
  · next first m henter =>
    obtain rfl := Except.ok.inj h
    exact .opens henter
  · next shift m hshift henter =>
    obtain rfl := Except.ok.inj h
    exact .stays henter hshift

theorem enter_eq_error {l : Line} {fault : Fault} (h : d.enter l = .error fault) :
    ∃ f, d.indentation.enter l.indent = .error f ∧
      fault = ⟨f.cause, l.place.after f.before, f.text⟩ := by
  unfold Draft.enter at h
  split at h
  · next f henter => exact ⟨f, henter, (Except.error.inj h).symm⟩
  · simp at h
  · simp at h

/-- Behind the indentation of a line, the innermost level can take a node. -/
theorem Reads.enter (h : d.Reads vs) {l : Line} (he : d.enter l = .ok d') :
    (∃ depth, d'.Awaits vs depth) ∧
      d'.indentation.style = d.indentation.style.or l.indent.head? := by
  obtain ⟨bound, hstacked⟩ := h.stacked
  cases entered_of_enter he with
  | stays henter =>
    have hsteps := Indentation.steps_of_enter henter
    cases hstacked.suffix hsteps.levels with
    | cons hholds _ houter =>
      exact ⟨⟨_, h.lists, hholds, houter, h.ground_of_suffix hsteps.levels⟩, hsteps.style⟩
  | @opens first m henter =>
    have hsteps := Indentation.steps_of_enter henter
    have hground := h.ground_of_suffix hsteps.levels
    cases hstacked with
    | cons hholds _ houter =>
      obtain ⟨depth, hdepth, howner⟩ := h.holds_owner (hsteps.deeper first rfl) hholds
      have hinner := (Stacked.cons hholds (Nat.le_refl _) houter).suffix hsteps.levels
      refine ⟨⟨depth, ?_, howner, hinner.mono hdepth, ?_⟩, hsteps.style⟩
      · dsimp only
        split
        · exact lists_indent h.lists _
        · exact h.lists
      · simpa [Indentation.levels, Indentation.openLevel] using hground

theorem Awaits.append {depth : Nat} (h : d.Awaits vs depth) (node : Node) :
    ∃ sheet, d.sheet.append d.indentation.innermost.container (.detached node) = .ok sheet ∧
      Reads { d with sheet } (vs ++ [⟨depth, d.sheet.size, node⟩]) := by
  obtain ⟨sheet, hsheet, hlists, hlast, -⟩ := h.lists.append h.holds (.detached node)
  refine ⟨sheet, hsheet, hlists, ⟨depth, .cons (h.holds.concat (Nat.le_refl _)) (Nat.le_refl _)
    (h.stacked.concat (Nat.le_refl _))⟩, h.ground, fun _ => by simp, ?_⟩
  simpa using hlast

/-- What reading one more statement takes. -/
theorem add_eq_ok {s : Statement} (h : d.add s = .ok d') : ∃ d₁ node sheet,
    d.enter s.first = .ok d₁ ∧ s.node = .ok node ∧
      d₁.sheet.append d₁.indentation.innermost.container (.detached node) = .ok sheet ∧
      d' = { d₁ with sheet } := by
  unfold Draft.add at h
  cases he : d.enter s.first with
  | error fault => simp [he, bind, Except.bind] at h
  | ok d₁ =>
    cases hn : s.node with
    | error fault => simp [he, hn, bind, Except.bind] at h
    | ok node =>
      cases hsheet : d₁.sheet.append d₁.indentation.innermost.container (.detached node) with
      | error error => simp [he, hn, hsheet, bind, Except.bind, throw, throwThe,
          MonadExceptOf.throw] at h
      | ok sheet =>
        simp only [he, hn, hsheet, bind, Except.bind, pure, Except.pure, Except.ok.injEq] at h
        exact ⟨d₁, node, sheet, rfl, rfl, hsheet, h.symm⟩

theorem Reads.add (h : d.Reads vs) {s : Statement} (ha : d.add s = .ok d') :
    ∃ v, s.node = .ok v.node ∧ d'.Reads (vs ++ [v]) ∧
      d'.indentation.style = d.indentation.style.or s.first.indent.head? := by
  obtain ⟨d₁, node, sheet, he, hn, hsheet, rfl⟩ := add_eq_ok ha
  obtain ⟨⟨depth, hawaits⟩, hstyle⟩ := h.enter he
  obtain ⟨sheet', hsheet', hreads⟩ := hawaits.append node
  obtain rfl := Except.ok.inj (hsheet.symm.trans hsheet')
  exact ⟨_, hn, hreads, hstyle⟩

/-- A statement is refused for its indentation or for its tokens, and never by the sheet. -/
theorem Reads.add_error (h : d.Reads vs) {s : Statement} {fault : Fault}
    (ha : d.add s = .error fault) : d.enter s.first = .error fault ∨ s.node = .error fault := by
  unfold Draft.add at ha
  cases he : d.enter s.first with
  | error fault' => exact .inl (by simpa [he, bind, Except.bind] using ha)
  | ok d₁ =>
    obtain ⟨⟨depth, hawaits⟩, -⟩ := h.enter he
    cases hn : s.node with
    | error fault' => exact .inr (by simpa [he, hn, bind, Except.bind] using ha)
    | ok node =>
      obtain ⟨sheet, hsheet, -⟩ := hawaits.append node
      simp [he, hn, bind, Except.bind, hsheet, pure, Except.pure] at ha

/-- The character to indent with, if one of the statements is indented. -/
def styleOf (ss : List Statement) : Option Char := ss.findSome? fun s => s.first.indent.head?

/-- Statements that are read add one node each, in order. -/
theorem Reads.foldlM (h : d.Reads vs) {ss : List Statement} (hf : ss.foldlM Draft.add d = .ok d') :
    ∃ ws, d'.Reads (vs ++ ws) ∧ List.Forall₂ (fun s v => s.node = .ok v.node) ss ws ∧
      d'.indentation.style = d.indentation.style.or (styleOf ss) := by
  refine invariant_of_foldlM (P := fun ss d' => ∃ ws, d'.Reads (vs ++ ws) ∧
    List.Forall₂ (fun s v => s.node = .ok v.node) ss ws ∧
    d'.indentation.style = d.indentation.style.or (styleOf ss)) ?_ ?_ hf
  · exact ⟨[], by simpa using h, .nil, by simp [styleOf]⟩
  · rintro pre s - d₁ d₂ ⟨ws, hreads, hnodes, hstyle⟩ ha
    obtain ⟨v, hv, hreads', hstyle'⟩ := hreads.add ha
    refine ⟨ws ++ [v], by simpa using hreads', List.rel_append hnodes (.cons hv .nil), ?_⟩
    rw [hstyle', hstyle, Option.or_assoc, styleOf, styleOf, List.findSome?_append]
    simp

/-- Of statements that are not all read, the first one at fault stands behind some that are. -/
theorem foldlM_error {ss : List Statement} {fault : Fault}
    (hf : ss.foldlM Draft.add d = .error fault) : ∃ pre s post d', ss = pre ++ s :: post ∧
      pre.foldlM Draft.add d = .ok d' ∧ d'.add s = .error fault := by
  induction ss generalizing d with
  | nil => simp [pure, Except.pure] at hf
  | cons s ss ih =>
    rw [List.foldlM_cons] at hf
    cases ha : d.add s with
    | error fault' =>
      obtain rfl : fault' = fault := by simpa [ha, bind, Except.bind] using hf
      exact ⟨[], s, ss, d, rfl, rfl, ha⟩
    | ok d₁ =>
      rw [ha] at hf
      obtain ⟨pre, s', post, d', rfl, hpre, hadd⟩ := ih hf
      exact ⟨s :: pre, s', post, d', rfl, by rw [List.foldlM_cons, ha]; exact hpre, hadd⟩

end Draft

/-- A text whose statements are all read is a sheet with their nodes. -/
theorem Sheet.exists_parse (name : String) {source : Text} {lines : List Line} {after : Text}
    {d : Draft} {vs : List Visit} (hlines : Line.ofTokens (Token.scan source) = .ok (lines, after))
    (hfold : (Statement.group lines).foldlM Draft.add {} = .ok d) (hlists : d.sheet.Lists vs) :
    ∃ s, parse name source = .ok s ∧ s.Lists vs := by
  obtain ⟨s, hs⟩ : ∃ s, read name source = .ok s := by
    simp [read, hlines, hfold, bind, Except.bind, pure, Except.pure]
  have heq := hs
  simp only [read, hlines, hfold, bind, Except.bind, pure, Except.pure, Except.ok.injEq] at heq
  refine ⟨s, by rw [parse, hs], ?_⟩
  subst heq
  exact ⟨hlists.outlined.ids_eq fun _ _ => rfl, hlists.ids⟩

end OffsideCss
