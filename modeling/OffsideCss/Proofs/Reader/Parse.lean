import OffsideCss.Proofs.Links
import OffsideCss.Proofs.Reader.Levels
import OffsideCss.Proofs.Reader.Statements

/-! Reading by offsets and by tokens.  The parts of a text are read as its statements are, so reading by
offsets has an answer for every text whose size is a counter, and the answer is what reading by tokens
comes to: no offset, no index, and no node is looked for in vain. -/

namespace OffsideCss

open Token (join scan)
open Sheet (Visit)

/-- How far the text of a draft was read, when the next part has that index. -/
def Draft.state (d : Draft) (pos : Nat) : Reader.State := ⟨pos, d.indentation.stacked, d.sheet⟩

@[simp] theorem Draft.pos_state (d : Draft) (pos : Nat) : (d.state pos).pos = pos := rfl

namespace Reader

open Line (extent)
open Lexeme (spot)

variable {source : Text} {lines pre post : List Line} {after : Text} {l : Line} {s : Statement}
  {d : Draft} {vs : List Visit} {depth pos : Nat}

/-- The tokens of a statement are a part of the text, which begins at the place of the statement. -/
theorem split_of_ofTokens (h : Line.ofTokens (scan source) = .ok (lines, after))
    (hlines : lines = pre ++ s.lines ++ post) :
    ∃ u v, source = u ++ join s.tokens ++ v ∧ s.place = Place.first.after u := by
  have hfirst : lines = pre ++ s.first :: (s.more ++ post) := hlines.trans (List.append_assoc _ _ _)
  have hplace := Line.place_of_ofTokens (hfirst ▸ h)
  have hsource := source_of_ofTokens h (hlines.trans (List.append_assoc _ _ _))
  refine ⟨pre.flatMap Line.text ++ s.first.lead, post.flatMap Line.text ++ after, ?_, ?_⟩
  · rw [hsource, List.flatMap_append, ← Statement.lead_append_join]
    simp only [List.append_assoc]
  · rw [Statement.place, hplace, Line.lead, ← Place.after_append, List.append_assoc]

/-! ### One statement -/

theorem owner?_eq (h : d.Reads vs) (hs : d.indentation.started = true) :
    owner? d.sheet d.indentation.innermost.container = some d.owner := by
  obtain ⟨v, hv⟩ : ∃ v, vs.getLast? = some v :=
    ⟨_, List.getLast?_eq_some_getLast (h.started hs)⟩
  have hlast := h.last v hv
  obtain ⟨e, he, -⟩ := h.lists.outlined.entry_of_mem (List.mem_of_getLast? hv)
  obtain ⟨children, hchildren, hchild⟩ := Option.bind_eq_some_iff.1 hlast
  simp [owner?, Draft.owner, Sheet.isContainer, hchildren, hchild, hlast, he]

/-- A part is placed as its line is. -/
theorem place?_eq (h : d.Reads vs) (hfits : l.place.offset + l.indent.bytes < Counter.limit) :
    place? (d.state pos) l.part = Reading.of ((d.enter l).map fun d' =>
      (d'.indentation.innermost.container, d'.state pos)) := by
  have henter : (d.state pos).levels.enter? l.part.indent l.part.indentSpan =
      Reading.of (((d.indentation.enter l.indent).mapError (·.fault l.place)).map
        fun x => (x.1, x.2.stacked)) :=
    Levels.enter?_eq h.ground hfits
  unfold place? Draft.enter
  rw [henter]
  cases hm : d.indentation.enter l.indent with
  | error fault => rfl
  | ok x =>
    obtain ⟨shift, m⟩ := x
    obtain ⟨-, -, hmoves⟩ := Indentation.moves_of_enter hm
    cases hmoves with
    | same => rfl
    | shallower => rfl
    | deeper hlevels hstarted =>
      have hinner : m.innermost = d.indentation.innermost := (List.cons.inj hlevels).1
      have howner := owner?_eq h hstarted
      have htop : m.stacked.top? = some d.indentation.innermost := by
        rw [← hinner]
        rfl
      simp only [Except.mapError, Except.map, Reading.of_ok, pure_bind, htop, liftM_some_bind]
      -- the owner is found as before, whether the sheet has got its indentation or not
      cases d.indentation.unit.isNone with
      | true => exact congrArg (fun o => (liftM o : Reading (Option NodeId)) >>= _) howner
      | false => exact congrArg (fun o => (liftM o : Reading (Option NodeId)) >>= _) howner

section Statement

variable (hsource : source.bytes < Counter.limit)
  (h : Line.ofTokens (scan source) = .ok (lines, after)) (hlines : lines = pre ++ s.lines ++ post)
include hsource h hlines

/-- A node is attached with the position of its first character and that of its last one. -/
theorem attach?_eq (hd : d.Awaits vs depth) (pos : Nat) (item : Item) {content : List Lexeme}
    (hcontent : (content.reverse.find? fun t => !t.isWhitespace) =
      (spot s.place.offset s.tokens).reverse.find? fun t => !t.isWhitespace) :
    ∃ sheet, d.sheet.append d.indentation.innermost.container (.detached ⟨item, s.first.lead,
        some ⟨s.place.toPosition, Token.contentEnd s.place s.tokens⟩⟩) = .ok sheet ∧
      attach? ⟨source, .ofText source, lines.map Line.part⟩ (d.state pos)
        d.indentation.innermost.container s.first.part item content =
          pure (({ d with sheet } : Draft).state pos) := by
  have hfirst : lines = pre ++ s.first :: (s.more ++ post) := hlines.trans (List.append_assoc _ _ _)
  obtain ⟨u, v, htext, hplace⟩ := split_of_ofTokens h hlines
  have hne := text_ne_nil_of_mem_tokens h hlines
  have hhead : s.first.head.isWhitespace = false := Line.head_of_ofTokens h (by simp [hfirst])
  have hrest : join s.tokens ++ v ≠ [] := by
    rw [Statement.tokens, Token.join_cons, List.append_assoc]
    exact List.append_ne_nil_of_left_ne_nil (hne _ List.mem_cons_self) _
  have hposition := LineIndex.position?_place hsource (htext.trans (List.append_assoc _ _ _)) hrest
    hplace
  have hend := contentEnd?_eq (lines.map Line.part) hsource htext hplace hne
    ⟨s.first.head, List.mem_cons_self, hhead⟩ hcontent
  have hpart : s.first.part.head? = some ⟨s.first.head, s.place.span s.first.head.text⟩ := rfl
  obtain ⟨sheet, happend, -⟩ := hd.append ⟨item, s.first.lead,
    some ⟨s.place.toPosition, Token.contentEnd s.place s.tokens⟩⟩
  have hrun := d.sheet.run_appendInPlace d.indentation.innermost.container (.detached ⟨item,
    s.first.lead, some ⟨s.place.toPosition, Token.contentEnd s.place s.tokens⟩⟩)
  rw [Sheet.appended, happend] at hrun
  refine ⟨sheet, happend, ?_⟩
  unfold attach?
  simp only [hpart, hend, joint?_eq h hfirst, liftM_some_bind, Place.span, hposition, Option.getD_some]
  exact congrArg (fun o => (liftM o : Reading _) >>= _) hrun

/-- The parts of a statement are read as the statement is. -/
theorem statement?_eq (hd : d.Reads vs) (hs : s.Formed)
    (hkind : s.kind = s.first.kind (s.more ++ post)) (hcont : s.Continued)
    (hstop : ∀ next ∈ post.head?, s.continuesWith next = false) :
    statement? ⟨source, .ofText source, lines.map Line.part⟩ (d.state (pre.length + 1)) s.first.part =
      Reading.of ((d.add s).map (·.state (pre.length + 1 + s.more.length))) := by
  obtain ⟨u, v, htext, hplace⟩ := split_of_ofTokens h hlines
  have hfits : s.first.place.offset + s.first.indent.bytes < Counter.limit := by
    have hoffset : s.first.place.offset + s.first.indent.bytes = 0 + u.bytes :=
      congrArg Place.offset hplace
    rw [htext, Text.bytes_append, Text.bytes_append] at hsource
    omega
  have hrest : lines = (pre ++ [s.first]) ++ (s.more ++ post) := by simp [hlines, Statement.lines]
  have hread : kind? ⟨source, .ofText source, lines.map Line.part⟩ (pre.length + 1) s.first.part =
      some s.kind := by
    rw [hkind, ← kind?_eq hrest, List.length_append]
    rfl
  obtain ⟨content, hitem, hcontent⟩ :=
    item?_eq hs hcont.more_eq_nil (text_ne_nil_of_mem_tokens h hlines)
  unfold statement? Draft.add
  rw [place?_eq hd hfits]
  cases henter : d.enter s.first with
  | error fault => rfl
  | ok d' =>
    obtain ⟨⟨depth, hawaits⟩, -⟩ := hd.enter henter
    have habsorb := absorb?_eq h (.ofText source) hcont hstop hlines
    simp only [Except.map, Reading.of_ok, pure_bind, Draft.pos_state, hread, habsorb, liftM_some_bind,
      hitem]
    unfold Statement.node
    cases hi : s.item with
    | error fault => rfl
    | ok item =>
      obtain ⟨sheet, happend, hattach⟩ :=
        attach?_eq hsource h hlines hawaits (pre.length + 1 + s.more.length) item hcontent
      simp only [Except.map, Reading.of_ok, pure_bind]
      refine hattach.trans ?_
      simp only [bind, Except.bind, happend]
      rfl

end Statement

/-! ### A whole text -/

section Run

variable (hsource : source.bytes < Counter.limit)
  (h : Line.ofTokens (scan source) = .ok (lines, after))
include hsource h

/-- The parts are read as their statements are, one after the other. -/
theorem run?_eq {ss : List Statement} (hg : Statement.Grouped ss) :
    ∀ done d vs, Statement.group lines = done ++ ss → Draft.Reads d vs →
      run? ⟨source, .ofText source, lines.map Line.part⟩
          (d.state (done.flatMap Statement.lines).length) =
        Reading.of ((ss.foldlM Draft.add d).map (·.state lines.length)) := by
  induction hg with
  | nil =>
    intro done d vs hgroup hd
    have hlines := Statement.flatMap_lines_group lines
    rw [hgroup, List.append_nil] at hlines
    rw [hlines, run?]
    split
    · rfl
    · next part hpart => simp [Draft.state] at hpart
  | @cons s ss hkind hcont hstop hg ih =>
    intro done d vs hgroup hd
    have hlines : lines = done.flatMap Statement.lines ++ s.lines ++ ss.flatMap Statement.lines := by
      rw [← Statement.flatMap_lines_group lines, hgroup]
      simp
    have hs : s.Formed := Statement.formed_of_mem_group h (by simp [hgroup])
    have hpart : (lines.map Line.part)[(done.flatMap Statement.lines).length]? = some s.first.part :=
      getElem?_parts (hlines.trans (List.append_assoc _ _ _))
    rw [run?]
    split
    · next hnone => exact absurd (hnone.symm.trans hpart) (by simp)
    · next part hsome =>
      obtain rfl : s.first.part = part := Option.some.inj (hpart.symm.trans hsome)
      have hstatement : statement? _ { d.state (done.flatMap Statement.lines).length with
          pos := (d.state (done.flatMap Statement.lines).length).pos + 1 } s.first.part = _ :=
        statement?_eq hsource h hlines hd hs hkind hcont hstop
      rw [hstatement, List.foldlM_cons]
      cases hadd : d.add s with
      | error fault => rfl
      | ok d' =>
        obtain ⟨v, -, hreads, -⟩ := hd.add hadd
        have hpos : (done.flatMap Statement.lines).length + 1 + s.more.length =
            ((done ++ [s]).flatMap Statement.lines).length := by
          simp [Statement.lines, Nat.add_assoc, Nat.add_comm 1]
        have hlt : (d.state (done.flatMap Statement.lines).length).pos <
            (d'.state ((done ++ [s]).flatMap Statement.lines).length).pos := by
          simp only [Draft.pos_state]
          omega
        simp only [Except.map, Reading.of_ok, pure_bind, hpos, if_pos hlt]
        exact ih (done ++ [s]) d' _ (by simpa using hgroup) hreads

omit h in
theorem stop?_eq : stop? source (.ofText source) =
    some (if source.trimEnd = [] then none else some (Position.first.last source.trimEnd)) := by
  unfold stop?
  dsimp only
  split
  · rfl
  · next hne =>
    obtain ⟨content, hcontent⟩ : ∃ content, source.trimEnd = content := ⟨_, rfl⟩
    obtain ⟨blanks, hblanks⟩ : content <+: source := hcontent ▸ source.trimEnd_isPrefix
    rw [hcontent] at hne ⊢
    have hlt : content.bytes < Counter.limit := by
      rw [← hblanks, Text.bytes_append] at hsource
      omega
    have hposition := LineIndex.lastPosition?_append (u := []) hsource hblanks.symm
      (List.append_ne_nil_of_left_ne_nil hne _)
    rw [Text.bytes_nil, Nat.zero_add] at hposition
    rw [Counter.wrap_of_lt hlt, Span.make?_of_le (Nat.zero_le _)]
    simp only [Option.bind_eq_bind, Option.bind_some, hposition]
    rfl

end Run

section Read

variable (h : source.bytes < Counter.limit) (name : String)
include h

/-- Reading by offsets finds the sheet of a text, or the first fault in it. -/
theorem read?_eq : read? name source (.ofText source) = Reading.of (Sheet.read name source) := by
  unfold read? Sheet.read
  rw [scan?_eq h, liftM_some_bind, lines?_eq h]
  cases hlines : Line.ofTokens (scan source) with
  | error fault => rfl
  | ok x =>
    obtain ⟨lines, after⟩ := x
    have hrun : run? ⟨source, .ofText source, lines.map Line.part⟩ {} = _ :=
      run?_eq h hlines (Statement.group_eq_iff.1 rfl).2 [] {} [] rfl Draft.Reads.empty
    have hsource := source_of_ofTokens hlines (List.append_nil lines).symm
    have hafter : source.slice? ⟨source.bytes - after.bytes, source.bytes⟩ = some after := by
      refine Text.slice?_eq_some.2 ⟨lines.flatMap Line.text, [], ?_, ?_⟩
      · simpa using hsource
      · nth_rewrite 1 2 [hsource]
        simp
    simp only [Except.map, Reading.of_ok, pure_bind, hrun]
    cases hfold : (Statement.group lines).foldlM Draft.add {} with
    | error fault =>
      simp only [bind, Except.bind, hfold]
      rfl
    | ok d =>
      simp only [Reading.of_ok, pure_bind, hafter, stop?_eq h, liftM_some_bind]
      simp only [bind, Except.bind, hfold]
      rfl

/-- Reading by offsets has an answer for every text whose size is a counter: the sheet of the text, or
the error in it, as reading by tokens finds them. -/
theorem parse?_eq : parse? name source = some (Sheet.parse name source) := by
  unfold parse? Sheet.parse
  simp only [read?_eq h]
  cases hread : Sheet.read name source with
  | ok sheet => rfl
  | error fault =>
    obtain ⟨before, rest, hmarks⟩ := Sheet.marks_of_read hread
    have hsplit : source = before ++ (fault.text ++ rest) :=
      hmarks.split.trans (List.append_assoc _ _ _)
    have hposition : (LineIndex.ofText source).position? fault.blame.span.start =
        some fault.place.toPosition :=
      LineIndex.position?_place h hsplit (List.append_ne_nil_of_left_ne_nil hmarks.nonempty rest)
        hmarks.place
    have hrun : (Reading.of (.error fault : Except Fault Sheet)).run = some (.error fault.blame) := rfl
    simp only [hrun, Option.bind_eq_bind, Option.bind_some, hposition]
    rfl

end Read

/-- A text whose size is a counter is read as a sheet, or an error marks the part of it that is to
blame.  No error comes from the sheet. -/
theorem exists_answer (h : source.bytes < Counter.limit) (name : String) :
    ∃ answer, parse? name source = some answer ∧ answer = Sheet.parse name source ∧
      ((∃ s, answer = .ok s) ∨ ∃ e before text rest, answer = .error e ∧ e.name = name ∧
        (∀ error, e.cause ≠ .unattachable error) ∧ e.Marks source before text rest) :=
  ⟨_, parse?_eq h name, rfl, Sheet.parse_ok_or_marks name source⟩

/-- The shortest block comment has an answer: the slice inside of it begins where it ends. -/
theorem exists_answer_empty_comment :
    Text.bytes ['/', '*', '*', '/'] < Counter.limit ∧
      ∃ answer, parse? "a" ['/', '*', '*', '/'] = some answer ∧
        answer = Sheet.parse "a" ['/', '*', '*', '/'] ∧
        ((∃ s, answer = .ok s) ∨ ∃ e before text rest, answer = .error e ∧ e.name = "a" ∧
          (∀ error, e.cause ≠ .unattachable error) ∧
            e.Marks ['/', '*', '*', '/'] before text rest) :=
  ⟨by decide, exists_answer (by decide) "a"⟩

end Reader
end OffsideCss
