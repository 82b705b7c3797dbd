import OffsideCss.Proofs.Links
import OffsideCss.Proofs.Offside

/-! Lines with a colon.  Whether such a line begins a rule is told by the widths of the lines behind
it, past comments, and what is nested in the rule by the line right behind its statement.  The two
agree unless the statement takes up the line that was looked at, or a comment stands between them that
is not deeper than the rule. -/

namespace OffsideCss

open Token (scan)
open Seat (Hosted)

namespace Line

/-- Whether the first of the following lines that is no comment is deeper, no at-rule, and has a
separating colon. -/
def Foresees (l : Line) (following : List Line) : Prop :=
  ∃ comments next rest, following = comments ++ next :: rest ∧ (∀ c ∈ comments, c.isComment = true) ∧
    next.isComment = false ∧ next.isAtRule = false ∧ next.hasColon = true ∧ l.width < next.width

theorem nestsDeclaration_iff {l : Line} {following : List Line} :
    l.nestsDeclaration following = true ↔ l.Foresees following := by
  rw [nestsDeclaration, Option.any_eq_true]
  constructor
  · rintro ⟨next, hfind, hnext⟩
    obtain ⟨hcode, comments, rest, rfl, hcomments⟩ := List.find?_eq_some_iff_append.1 hfind
    simp only [Bool.and_eq_true, Bool.not_eq_true', decide_eq_true_eq] at hnext
    obtain ⟨⟨hat, hcolon⟩, hdeeper⟩ := hnext
    exact ⟨comments, next, rest, rfl, fun c hc => by simpa using hcomments c hc, by simpa using hcode,
      hat, hcolon, hdeeper⟩
  · rintro ⟨comments, next, rest, rfl, hcomments, hcode, hat, hcolon, hdeeper⟩
    refine ⟨next, List.find?_eq_some_iff_append.2 ⟨by simp [hcode], comments, rest, rfl, ?_⟩, ?_⟩
    · exact fun c hc => by simp [hcomments c hc]
    · simp [hat, hcolon, hdeeper]

theorem kind_eq_rule {l : Line} {following : List Line} (h : l.hasColon = true) :
    l.kind following = .rule ↔
      l.isComment = false ∧ l.isAtRule = false ∧ l.nestsDeclaration following = true := by
  cases hc : l.isComment <;> cases ha : l.isAtRule <;> cases hn : l.nestsDeclaration following <;>
    simp [kind, hc, ha, hn, h]

end Line

/-- How the line with a colon that begins the statement `t` relates to the node `e` that is read from
the statement, which the lines `behind` follow.  It begins a rule if it foresees a declaration.
Something is nested in the rule if the line right behind the statement is deeper (`nested`), as it is
if the line does not end in a comma and no comment right behind it is less deep (`near`). -/
structure ColonLine (t : Statement) (behind : List Line) (e : Entry) : Prop where
  rule : e.node.item.kind = .rule ↔ t.first.isComment = false ∧ t.first.isAtRule = false ∧
    t.first.Foresees (t.more ++ behind)
  nested : e.node.item.kind = .rule →
    (e.children ≠ [] ↔ ∃ l ∈ behind.head?, t.first.width < l.width)
  near : e.node.item.kind = .rule → t.first.endsWithComma = false →
    (∀ l ∈ (t.more ++ behind).head?, l.isComment = true → t.first.width < l.width) → e.children ≠ []

namespace Statement

/-- A line that foresees a declaration is not continued, unless by a comma. -/
theorem more_eq_nil_of_foresees {t : Statement} {behind : List Line} (hrule : t.kind = .rule)
    (ht : t.Continued) (hcomma : t.first.endsWithComma = false)
    (h : t.first.Foresees (t.more ++ behind)) : t.more = [] := by
  cases hm : t.more with
  | nil => rfl
  | cons l more =>
    exfalso
    have hplain : l.isPlain = true := by
      have hl := ht [] l more hm
      simp only [continuesWith, hrule, lastLine, List.getLast?_nil, Option.getD_none, hcomma,
        Bool.false_or, Bool.and_eq_true] at hl
      exact hl.2
    obtain ⟨comments, next, rest, hlines, hcomments, -, -, hcolon, -⟩ := h
    rw [hm, List.cons_append] at hlines
    cases comments with
    | nil =>
      obtain ⟨rfl, -⟩ := List.cons.inj hlines
      simp [Line.isPlain, hcolon] at hplain
    | cons c comments =>
      obtain ⟨rfl, -⟩ := List.cons.inj hlines
      simp [Line.isPlain, hcomments l List.mem_cons_self] at hplain

theorem Grouped.at {ts : List Statement} {t : Statement} {n : Nat} (h : Grouped ts)
    (ht : ts[n]? = some t) :
    t.kind = t.first.kind (t.more ++ (ts.drop (n + 1)).flatMap lines) ∧ t.Continued := by
  induction h generalizing n with
  | nil => simp at ht
  | cons hkind hcont _ _ ih =>
    cases n with
    | zero =>
      obtain rfl := Option.some.inj ht
      exact ⟨hkind, hcont⟩
    | succ n => exact ih ht

theorem head?_flatMap_lines (ts : List Statement) :
    (ts.flatMap lines).head? = ts.head?.map (·.first) := by
  cases ts <;> rfl

end Statement

namespace Sheet

variable {s : Sheet} {n m c : NodeId} {e e' owner : Entry} {ids : List NodeId}

/-! ### The first child -/

theorem nearest_or_widest (he : s.entry? n = some e) :
    (∀ m < n, ∀ e', s.entry? m = some e' → e.node.width ≤ e'.node.width) ∨
      ∃ m owner, s.Nearest n e.node.width m owner := by
  obtain ⟨pre, post, hseats, rfl⟩ := exists_seats he
  rcases Seat.nearest pre e.node.width with hall | ⟨before, q, between, rfl, hq, hlast⟩
  · refine .inl fun m hm e' he' => ?_
    have hseat := getElem?_seats he'
    rw [hseats, List.getElem?_append_left hm] at hseat
    exact hall _ (List.mem_of_getElem? hseat)
  · rw [List.append_assoc, List.cons_append] at hseats
    obtain ⟨owner, howner, rfl⟩ := entry_of_seats hseats
    refine .inr ⟨before.length, owner, howner, by simp, hq, fun k hk hkn e' he' => ?_⟩
    obtain ⟨j, rfl⟩ := Nat.exists_eq_add_of_lt hk
    have hj : before.length + j + 1 < before.length + (between.length + 1) := by
      simpa [List.length_append] using hkn
    have hseat := getElem?_seats he'
    rw [hseats, Nat.add_assoc, List.getElem?_append_right (Nat.le_add_right _ _),
      Nat.add_sub_cancel_left, List.getElem?_cons_succ,
      List.getElem?_append_left (by omega)] at hseat
    exact hlast _ (List.mem_of_getElem? hseat)

/-- Whatever is nested in a node, the node behind it is deeper. -/
theorem width_lt_of_child (h : Hosted s.seats) (hn : s.entry? n = some e)
    (hc : s.parent? c = some (some n)) (hnext : s.entry? (n + 1) = some e') :
    e.node.width < e'.node.width := by
  induction c using Nat.strong_induction_on with
  | _ c ih =>
    obtain ⟨child, hchild, hparent⟩ := Option.map_eq_some_iff.1 hc
    rcases nearest_or_widest hchild with hall | ⟨m, owner, hnear⟩
    · rw [parent_eq_none h hchild hall] at hparent
      cases hparent
    · rw [parent_eq_holder h hchild hnear] at hparent
      split at hparent
      · -- The nearest node is the parent, so all nodes between them are deeper.
        obtain rfl := Option.some.inj hparent
        obtain rfl := Option.some.inj (hn.symm.trans hnear.entry)
        refine Nat.lt_of_lt_of_le hnear.narrow ?_
        rcases Nat.eq_or_lt_of_le (Nat.succ_le_of_lt hnear.before) with rfl | hlt
        · obtain rfl := Option.some.inj (hnext.symm.trans hchild)
          exact Nat.le_refl _
        · exact hnear.last _ (Nat.lt_succ_self m) hlt e' hnext
      · -- The nearest node is a leaf beside it, which is nested in the same node.
        exact ih m hnear.before (by rw [parent?, hnear.entry, Option.map_some, hparent])

/-- Something is nested in a container if the node behind it is deeper. -/
theorem children_ne_nil_iff (h : Hosted s.seats) (hl : s.Linked) (hn : s.entry? n = some e)
    (hcontainer : e.node.item.kind.isContainer = true) :
    e.children ≠ [] ↔ ∃ e', s.entry? (n + 1) = some e' ∧ e.node.width < e'.node.width := by
  have hchildren : s.children? (some n) = some e.children := by rw [children?, hn, Option.map_some]
  constructor
  · intro hne
    obtain ⟨c, hc⟩ := List.exists_mem_of_ne_nil _ hne
    have hparent := hl.owned hchildren c hc
    have hlt : n + 1 < s.size := Nat.lt_of_le_of_lt (hl.older hparent) (lt_size_of_parent hparent)
    have hnext : s.entry? (n + 1) = some s.entries[n + 1] := List.getElem?_eq_getElem hlt
    exact ⟨_, hnext, width_lt_of_child h hn hparent hnext⟩
  · rintro ⟨e', hnext, hlt⟩ hnil
    have hnear : s.Nearest (n + 1) e'.node.width n e :=
      ⟨hn, Nat.lt_succ_self n, hlt, fun k hk hk' => absurd hk' (Nat.not_lt_of_le hk)⟩
    have hparent := parent_eq_holder h hnext hnear
    rw [if_pos hcontainer] at hparent
    have howner : s.parent? (n + 1) = some (some n) := by
      rw [parent?, hnext, Option.map_some, hparent]
    obtain ⟨ids, hids, hmem⟩ := hl.listed howner
    rw [hchildren, hnil, Option.some.injEq] at hids
    simp [← hids] at hmem

/-! ### Reading -/

theorem hosted_of_parse {name : String} {source : Text} (h : parse name source = .ok s) :
    Hosted s.seats := by
  obtain ⟨lines, draft, hlines, hdraft, hs⟩ := draft_of_parse h
  have hsettled : draft.Settled := Draft.Settled.empty.foldlM Draft.Reads.empty
    (fun t ht n hn => Statement.indentation_of_node hlines ht hn) hdraft
  have hseats : s.seats = draft.sheet.seats := by rw [hs]; rfl
  exact hseats ▸ hsettled.hosted

/-- The node of a number is read from the statement of the same number. -/
theorem Lists.exists_statement {vs : List Visit} (h : s.Lists vs) {ts : List Statement}
    (hnodes : List.Forall₂ (fun t v => t.node = .ok v.node) ts vs) (hn : s.entry? n = some e) :
    ∃ t, ts[n]? = some t ∧ t.node = .ok e.node := by
  have hid : (vs.map (·.id))[n]? = some n := by
    rw [h.ids, List.getElem?_range (lt_size_of_entry hn)]
  rw [List.getElem?_map, Option.map_eq_some_iff] at hid
  obtain ⟨v, hv, rfl⟩ := hid
  obtain ⟨e', he', hnode⟩ := h.outlined.entry_of_mem (List.mem_of_getElem? hv)
  obtain rfl := Option.some.inj (hn.symm.trans he')
  obtain ⟨hlt, hget⟩ := List.getElem?_eq_some_iff.1 hv
  have hlt' : v.id < ts.length := hnodes.length_eq ▸ hlt
  refine ⟨_, List.getElem?_eq_getElem hlt', ?_⟩
  have hread := hnodes.get hlt' hlt
  rw [List.get_eq_getElem, List.get_eq_getElem, hget] at hread
  rw [hnode]
  exact hread

theorem Lists.exists_entry {vs : List Visit} (h : s.Lists vs) {ts : List Statement}
    (hnodes : List.Forall₂ (fun t v => t.node = .ok v.node) ts vs) {t : Statement}
    (ht : ts[n]? = some t) : ∃ e, s.entry? n = some e ∧ t.node = .ok e.node := by
  have hlt : n < s.size := by
    rw [← h.length_eq, ← hnodes.length_eq]
    exact (List.getElem?_eq_some_iff.1 ht).1
  have he : s.entry? n = some s.entries[n] := List.getElem?_eq_getElem hlt
  obtain ⟨t', ht', hnode⟩ := h.exists_statement hnodes he
  obtain rfl := Option.some.inj (ht.symm.trans ht')
  exact ⟨_, he, hnode⟩

/-- Something is nested in a container that was read if the line behind its statement is deeper. -/
theorem children_ne_nil_iff_behind {name : String} {source after : Text} {lines : List Line}
    {vs : List Visit} {t : Statement} (h : parse name source = .ok s)
    (hlines : Line.ofTokens (scan source) = .ok (lines, after)) (hlists : s.Lists vs)
    (hnodes : List.Forall₂ (fun t v => t.node = .ok v.node) (Statement.group lines) vs)
    (hn : s.entry? n = some e) (ht : (Statement.group lines)[n]? = some t)
    (hcontainer : e.node.item.kind.isContainer = true) :
    e.children ≠ [] ↔ ∃ l ∈ (((Statement.group lines).drop (n + 1)).flatMap Statement.lines).head?,
      t.first.width < l.width := by
  have hwidth : ∀ {m : NodeId} {e' : Entry} {u : Statement}, s.entry? m = some e' →
      (Statement.group lines)[m]? = some u → e'.node.width = u.first.width := by
    intro m e' u he' hu
    obtain ⟨u', hu', hunode⟩ := hlists.exists_statement hnodes he'
    obtain rfl := Option.some.inj (hu.symm.trans hu')
    rw [Node.width, Statement.indentation_of_node hlines (List.mem_of_getElem? hu) hunode]
    rfl
  rw [children_ne_nil_iff (hosted_of_parse h) (linked_of_parse h) hn hcontainer,
    Statement.head?_flatMap_lines, List.head?_drop, hwidth hn ht]
  constructor
  · rintro ⟨e', hnext, hlt⟩
    obtain ⟨u, hu, -⟩ := hlists.exists_statement hnodes hnext
    exact ⟨u.first, by rw [hu]; rfl, hwidth hnext hu ▸ hlt⟩
  · rintro ⟨l, hl, hlt⟩
    obtain ⟨u, hu, rfl⟩ := Option.map_eq_some_iff.1 hl
    obtain ⟨e', hnext, -⟩ := hlists.exists_entry hnodes hu
    exact ⟨e', hnext, hwidth hnext hu ▸ hlt⟩

/-- Whether the nodes of a sheet were read from the statements of the text, one from each, as the first
line of that tells if it has a colon. -/
def Foretold (s : Sheet) (source : Text) : Prop :=
  ∃ lines, Line.ofTokens (scan source) = .ok (lines, s.after) ∧
    (Statement.group lines).length = s.size ∧
    ∀ {n : NodeId} {e : Entry}, s.entry? n = some e → ∃ t, (Statement.group lines)[n]? = some t ∧
      t.node = .ok e.node ∧ (t.first.hasColon = true →
        ColonLine t (((Statement.group lines).drop (n + 1)).flatMap Statement.lines) e)

theorem foretold_of_parse {name : String} {source : Text} (h : parse name source = .ok s) :
    s.Foretold source := by
  obtain ⟨lines, vs, hlines, hlists, hnodes⟩ := exists_of_parse h
  refine ⟨lines, hlines, hnodes.length_eq.trans hlists.length_eq, fun {n e} hn => ?_⟩
  obtain ⟨t, ht, hnode⟩ := hlists.exists_statement hnodes hn
  refine ⟨t, ht, hnode, fun hcolon => ?_⟩
  obtain ⟨hkind, hcont⟩ := (Statement.group_eq_iff.1 rfl).2.at ht
  have hkind' : e.node.item.kind = t.kind := by
    obtain ⟨i, hi, hn⟩ := Statement.node_eq_ok.1 hnode
    rw [hn]
    exact Statement.kind_of_item hi
  have hforesees : e.node.item.kind = .rule ↔ t.first.isComment = false ∧
      t.first.isAtRule = false ∧ t.first.Foresees
        (t.more ++ ((Statement.group lines).drop (n + 1)).flatMap Statement.lines) := by
    rw [hkind', hkind, Line.kind_eq_rule hcolon, Line.nestsDeclaration_iff]
  have hnested : e.node.item.kind = .rule → (e.children ≠ [] ↔ ∃ l ∈
      (((Statement.group lines).drop (n + 1)).flatMap Statement.lines).head?,
        t.first.width < l.width) := fun hrule =>
    children_ne_nil_iff_behind h hlines hlists hnodes hn ht (by rw [hrule]; rfl)
  refine ⟨hforesees, hnested, fun hrule hcomma hcomment => (hnested hrule).2 ?_⟩
  obtain ⟨-, -, hahead⟩ := hforesees.1 hrule
  have hmore := Statement.more_eq_nil_of_foresees (hkind'.symm.trans hrule) hcont hcomma hahead
  rw [hmore, List.nil_append] at hahead hcomment
  obtain ⟨comments, next, rest, hbehind, hcomments, -, -, -, hdeeper⟩ := hahead
  rw [hbehind] at hcomment ⊢
  cases comments with
  | nil => exact ⟨next, rfl, hdeeper⟩
  | cons c comments =>
    exact ⟨c, rfl, hcomment c rfl (hcomments c List.mem_cons_self)⟩

/-- The line that was looked at continues the rule that it made of the line before it. -/
theorem foretold_line_behind_comma :
    let source := Text.ofString "a: b,\n  c: d\n"
    ∃ s, parse "in" source = .ok s ∧ s.Foretold source ∧ s.entries.map (fun e =>
      (e.node.item, e.children)) = [(.rule ⟨Text.ofString "a: b,\n  c: d", none, some []⟩, [])] := by
  intro source
  have hitems : (parse "in" source).toOption.map (fun s => s.entries.map fun e =>
      (e.node.item, e.children)) =
      some [(.rule ⟨Text.ofString "a: b,\n  c: d", none, some []⟩, [])] := by
    decide +kernel
  obtain ⟨s, h, hs⟩ := exists_of_map_parse hitems
  exact ⟨s, h, foretold_of_parse h, hs⟩

/-- Not every rule whose first line has a colon has something nested in it: a comment that is not deeper
can stand between the rule and the line that was looked at. -/
theorem childless_rule_above_comment :
    ¬ ∀ {source : Text} {s : Sheet} {lines : List Line} {n : NodeId} {t : Statement} {e : Entry},
      parse "in" source = .ok s → Line.ofTokens (scan source) = .ok (lines, s.after) →
      (Statement.group lines)[n]? = some t → s.entry? n = some e → e.node.item.kind = .rule →
      t.first.hasColon = true → e.children ≠ [] := by
  intro hall
  let source := Text.ofString "a: b\n// c\n  d: e\n"
  have hentry : (parse "in" source).toOption.map (fun s =>
      (s.entry? 0).map fun e => (e.node.item.kind, e.children)) = some (some (.rule, [])) := by
    decide +kernel
  have hfirst : (Line.ofTokens (scan source)).toOption.map (fun x =>
      ((Statement.group x.1)[0]?).map (·.first.hasColon)) = some (some true) := by
    decide +kernel
  obtain ⟨s, h, hs⟩ := exists_of_map_parse hentry
  obtain ⟨lines, _, hlines, -⟩ := exists_of_parse h
  obtain ⟨e, he, hkind⟩ := Option.map_eq_some_iff.1 hs
  rw [hlines] at hfirst
  obtain ⟨t, ht, hcolon⟩ := Option.map_eq_some_iff.1 (Option.some.inj hfirst)
  obtain ⟨hrule, hnil⟩ := Prod.mk.inj hkind
  exact hall h hlines ht he hrule hcolon hnil

end Sheet

end OffsideCss
