import OffsideCss.Proofs.RoundTrip
import OffsideCss.Proofs.Seats

/-! The offside rule.  Each open level is held by what the widths of the nodes so far tell, whatever the
way in which it was opened, so what holds a node that was read can be told from the widths alone.  All
widths are multiples of the first one that is not zero, and no node is deeper than its width in these
units. -/

namespace OffsideCss

open Token (scan)
open Seat (host holder Hosted)

/-! ### The indentation of a statement -/

theorem Line.spaced_of_ofTokens {t : Text} {ls : List Line} {after : Text}
    (h : ofTokens (scan t) = .ok (ls, after)) {l : Line} (hl : l ∈ ls) :
    (l.gap = [] ∨ l.gap.getLast? = some '\n') ∧ '\n' ∉ l.indent := by
  obtain ⟨pre, post, rfl⟩ := List.append_of_mem hl
  have hlays : Lays t ((pre ++ l :: post).map unplaced) after := ⟨_, h, rfl⟩
  rw [List.map_append, List.map_cons] at hlays
  obtain ⟨u, v, -, -, hends, hu, hv⟩ := hlays.split
  obtain ⟨w, -, hblank, -⟩ := hv.unindent rfl
  constructor
  · by_cases hgap : l.gap = []
    · exact .inl hgap
    · have htext : u = (pre.map unplaced).flatMap text ++ l.gap := hu.text_eq
      have hne : u ≠ [] := by simp [htext, hgap]
      have hlast := (hends.resolve_left hne).getLast?_eq
      rw [htext, List.getLast?_append_of_ne_nil _ hgap] at hlast
      exact .inr hlast
  · intro hmem
    exact absurd (hblank _ hmem) (by decide)

/-- What stands before a node on its line is the indentation of its first line. -/
theorem Statement.indentation_of_node {t : Text} {ls : List Line} {after : Text}
    (h : Line.ofTokens (scan t) = .ok (ls, after)) {s : Statement} (hs : s ∈ group ls) {n : Node}
    (hn : s.node = .ok n) : n.indentation = s.first.indent := by
  obtain ⟨hgap, hindent⟩ := Line.spaced_of_ofTokens h (mem_of_mem_group hs List.mem_cons_self)
  obtain ⟨i, -, rfl⟩ := node_eq_ok.1 hn
  exact Text.lastLine_append hgap hindent

/-! ### Levels and widths -/

/-- The indentation of the first of some nodes that is indented. -/
def Seat.firstIndent (seats : List Seat) : Option Text :=
  (seats.find? fun q => q.node.width ≠ 0).map (·.node.indentation)

theorem Seat.firstIndent_concat (seats : List Seat) (q : Seat) : firstIndent (seats ++ [q]) =
    (firstIndent seats).or (if q.node.width = 0 then none else some q.node.indentation) := by
  rw [firstIndent, List.find?_append, Option.map_or, ← firstIndent]
  by_cases hq : q.node.width = 0 <;> simp [hq]

namespace Draft

/-- Whether the open levels of a draft are what the widths of its nodes tell, and all widths are
multiples of the unit.  Without a unit all of them are zero. -/
structure Nests (d : Draft) : Prop where
  hosted : Hosted d.sheet.seats
  host : ∀ l ∈ d.indentation.levels, l.container = host d.sheet.seats l.width
  steep : d.indentation.levels.Pairwise fun inner outer => outer.width < inner.width
  levels : ∀ l ∈ d.indentation.levels, d.indentation.unit.getD 0 ∣ l.width
  seats : ∀ q ∈ d.sheet.seats, d.indentation.unit.getD 0 ∣ q.node.width
  unit : d.indentation.unit = d.sheet.indent.map List.length

/-- A draft whose last node stands at the innermost level. -/
structure Settled (d : Draft) : Prop extends Nests d where
  fresh : d.indentation.started = false → d.indentation.innermost.width = 0
  indent : d.sheet.indent = Seat.firstIndent d.sheet.seats
  last : ∀ q ∈ d.sheet.seats.getLast?, q.node.width = d.indentation.innermost.width ∧
    q.parent = d.indentation.innermost.container

/-- A draft whose next node, indented by `indent`, belongs to the innermost level. -/
structure Ready (d : Draft) (indent : Text) : Prop extends Nests d where
  started : d.indentation.started = true
  width : indent.length = d.indentation.innermost.width
  indent : d.sheet.indent =
    (Seat.firstIndent d.sheet.seats).or (if indent.length = 0 then none else some indent)

theorem Settled.empty : Settled {} where
  hosted := .nil
  host := by simp [Indentation.levels, Sheet.seats, Seat.host_nil]
  steep := List.pairwise_singleton _ _
  levels := by simp [Indentation.levels]
  seats := by simp [Sheet.seats]
  unit := rfl
  fresh := fun _ => rfl
  indent := rfl
  last := by simp [Sheet.seats]

variable {d d' : Draft} {vs : List Sheet.Visit} {l : Line}

theorem Nests.width_le (h : d.Nests) : ∀ k ∈ d.indentation.levels,
    k.width ≤ d.indentation.innermost.width := by
  intro k hk
  rcases List.mem_cons.1 hk with rfl | hk
  · exact Nat.le_refl _
  · exact Nat.le_of_lt ((List.pairwise_cons.1 h.steep).1 k hk)

/-- Closing levels, or none of them, changes nothing about the others. -/
theorem Nests.suffix (h : d.Nests) {m : Indentation} (hlevels : m.levels <:+ d.indentation.levels)
    (hunit : m.unit = d.indentation.unit) : Nests { d with indentation := m } where
  hosted := h.hosted
  host := fun k hk => h.host k (hlevels.subset hk)
  steep := h.steep.sublist hlevels.sublist
  levels := fun k hk => hunit ▸ h.levels k (hlevels.subset hk)
  seats := fun q hq => hunit ▸ h.seats q hq
  unit := hunit ▸ h.unit

/-- As long as no node is indented, there is no unit and no line is. -/
theorem Settled.indent_eq (h : d.Settled) {indent : Text}
    (hdvd : d.indentation.unit.getD 0 ∣ indent.length) : d.sheet.indent =
      (Seat.firstIndent d.sheet.seats).or (if indent.length = 0 then none else some indent) := by
  rw [← h.indent]
  cases hi : d.sheet.indent with
  | some first => rfl
  | none =>
    have hunit : d.indentation.unit = none := by rw [h.unit, hi, Option.map_none]
    rw [hunit, Option.getD_none, Nat.zero_dvd] at hdvd
    rw [if_pos hdvd]
    rfl

/-- A line that is deeper than the last node is held by what the widths tell. -/
theorem Settled.owner_eq (h : d.Settled) (hr : d.Reads vs) (hs : d.indentation.started = true)
    {width : Nat} (hw : d.indentation.innermost.width < width) :
    d.owner = host d.sheet.seats width := by
  obtain ⟨vs, v, rfl⟩ := (List.eq_nil_or_concat vs).resolve_left (hr.started hs)
  rw [List.concat_eq_append] at hr
  have hlast := hr.last v (by simp)
  obtain ⟨e, he, hnode⟩ := hr.lists.outlined.entry_of_mem (v := v) (by simp)
  have hsize : d.sheet.size = v.id + 1 := by
    have hids := hr.lists.ids
    rw [← hr.lists.length_eq, List.length_append, List.length_singleton, List.range_succ,
      List.map_append] at hids
    obtain ⟨-, hid⟩ := List.append_inj' hids rfl
    have hid : v.id = vs.length := List.head_eq_of_cons_eq hid
    rw [← hr.lists.length_eq, List.length_append, List.length_singleton, hid]
  have hseat := Sheet.getElem?_seats he
  obtain ⟨seats, q, hseats⟩ : ∃ seats q, d.sheet.seats = seats ++ [q] := by
    obtain ⟨seats, q, hq⟩ := (List.eq_nil_or_concat d.sheet.seats).resolve_left (by
      rintro hnil
      simp [hnil] at hseat)
    exact ⟨seats, q, by rw [hq, List.concat_eq_append]⟩
  have hlength : seats.length = v.id := by
    have := d.sheet.length_seats
    rw [hseats, List.length_append, List.length_singleton] at this
    omega
  obtain ⟨hwidth, hparent⟩ := h.last q (by simp [hseats])
  obtain rfl : q = ⟨e.node, e.parent⟩ := by
    rw [hseats, ← hlength, List.getElem?_concat_length] at hseat
    exact Option.some.inj hseat
  rw [hseats, Seat.host_concat, if_pos (by omega), hlength, holder]
  simp only [owner, hlast, Sheet.isContainer, he, Option.any_some]
  rw [← hparent]

/-- A level that a line opens is held by what the widths tell. -/
theorem Settled.openLevel (h : d.Settled) {m : Indentation} {sheet : Sheet} {width unit : Nat}
    {container : Option NodeId} (hlevels : m.levels = d.indentation.levels)
    (hseats : sheet.seats = d.sheet.seats) (hcontainer : container = host d.sheet.seats width)
    (hlt : d.indentation.innermost.width < width) (hunit : m.unit = some unit)
    (hmultiple : ∀ w, d.indentation.unit.getD 0 ∣ w → unit ∣ w) (hdvd : unit ∣ width)
    (hindent : m.unit = sheet.indent.map List.length) :
    Nests ⟨sheet, m.openLevel ⟨width, container⟩⟩ where
  hosted := hseats ▸ h.hosted
  host := by
    rw [Indentation.levels_openLevel, hlevels, hseats]
    exact List.forall_mem_cons.2 ⟨hcontainer, h.host⟩
  steep := by
    rw [Indentation.levels_openLevel, hlevels]
    refine List.pairwise_cons.2 ⟨?_, h.steep⟩
    intro k hk
    exact Nat.lt_of_le_of_lt (h.width_le k hk) hlt
  levels := by
    rw [Indentation.levels_openLevel, hlevels, Indentation.unit_openLevel, hunit, Option.getD_some]
    refine List.forall_mem_cons.2 ⟨hdvd, ?_⟩
    intro k hk
    exact hmultiple _ (h.levels k hk)
  seats := by
    rw [Indentation.unit_openLevel, hunit, Option.getD_some, hseats]
    intro q hq
    exact hmultiple _ (h.seats q hq)
  unit := hindent

theorem Nests.innermost_width_eq_zero (h : d.Nests) (hu : d.indentation.unit = none) :
    d.indentation.innermost.width = 0 := by
  have htop := h.levels _ List.mem_cons_self
  rwa [hu, Option.getD_none, Nat.zero_dvd] at htop

theorem Nests.dvd_of_deeper (h : d.Nests) {width : Nat}
    (hlt : d.indentation.innermost.width < width)
    (hunit : d.indentation.unit = some (width - d.indentation.innermost.width)) :
    d.indentation.unit.getD 0 ∣ width := by
  have htop := h.levels _ List.mem_cons_self
  rw [hunit, Option.getD_some] at htop ⊢
  obtain ⟨n, hn⟩ := htop
  refine ⟨n + 1, ?_⟩
  rw [Nat.mul_succ, ← hn]
  omega

/-- A line that is not deeper belongs to a level that is open. -/
theorem Settled.enter_stays (h : d.Settled) {shift : Shift} {m : Indentation}
    (henter : d.indentation.enter l.indent = .ok (shift, m))
    (hshift : ∀ first, shift ≠ .deeper first) : Ready { d with indentation := m } l.indent := by
  obtain ⟨hstarted, -, hmoves⟩ := Indentation.moves_of_enter henter
  cases hmoves with
  | same hlevels hunit hwidth hzero =>
    have hinner : m.innermost = d.indentation.innermost := (List.cons.inj hlevels).1
    have hwidth : l.indent.length = d.indentation.innermost.width := by
      cases hs : d.indentation.started with
      | true => exact hwidth hs
      | false => rw [hzero hs, h.fresh hs]
    have hdvd : d.indentation.unit.getD 0 ∣ l.indent.length := by
      rw [hwidth]
      exact h.levels _ List.mem_cons_self
    refine ⟨h.toNests.suffix (hlevels ▸ List.suffix_refl _) hunit, hstarted, ?_, h.indent_eq hdvd⟩
    rw [hwidth]
    exact congrArg Level.width hinner.symm
  | shallower hlevels hunit hwidth =>
    have hdvd : d.indentation.unit.getD 0 ∣ l.indent.length := by
      rw [hwidth]
      exact h.levels _ (hlevels.subset List.mem_cons_self)
    exact ⟨h.toNests.suffix hlevels hunit, hstarted, hwidth, h.indent_eq hdvd⟩
  | deeper => exact absurd rfl (hshift _)

/-- A line that is deeper belongs to the level that it opens. -/
theorem Settled.enter_opens (h : d.Settled) (hr : d.Reads vs) {first : Bool} {m : Indentation}
    (henter : d.indentation.enter l.indent = .ok (.deeper first, m)) :
    Ready ⟨if first then { d.sheet with indent := some l.indent } else d.sheet,
      m.openLevel ⟨l.width, d.owner⟩⟩ l.indent := by
  obtain ⟨hstarted, -, hmoves⟩ := Indentation.moves_of_enter henter
  cases hmoves with
  | deeper hlevels hs hlt hunit hsame =>
    have howner := h.owner_eq hr hs hlt
    cases hu : d.indentation.unit with
    | none =>
      have hindent : d.sheet.indent = none := by
        rw [← Option.map_eq_none_iff, ← h.unit, hu]
      rw [h.innermost_width_eq_zero hu, Nat.sub_zero] at hunit
      refine ⟨h.openLevel hlevels rfl howner hlt hunit ?_ (Nat.dvd_refl _) hunit, hstarted, rfl, ?_⟩
      · intro w hw
        rw [hu, Option.getD_none, Nat.zero_dvd] at hw
        rw [hw]
        exact Nat.dvd_zero _
      · show some l.indent = (Seat.firstIndent d.sheet.seats).or _
        rw [← h.indent, hindent, if_neg (by omega)]
        rfl
    | some unit =>
      have hm : m.unit = some unit := hsame unit hu
      have hdvd := h.dvd_of_deeper hlt (by rw [hu, ← hm, hunit])
      refine ⟨h.openLevel hlevels rfl howner hlt hm ?_ (by rwa [hu] at hdvd) ?_, hstarted, rfl,
        h.indent_eq hdvd⟩
      · intro w hw
        rwa [hu] at hw
      · exact hm.trans (hu.symm.trans h.unit)

theorem Settled.enter (h : d.Settled) (hr : d.Reads vs) (he : d.enter l = .ok d') :
    d'.Ready l.indent := by
  cases entered_of_enter he with
  | stays henter hshift => exact h.enter_stays henter hshift
  | opens henter => exact h.enter_opens hr henter

/-- A node that is appended settles a draft that is ready for it. -/
theorem Ready.append {indent : Text} (h : d.Ready indent) {node : Node} {sheet : Sheet}
    (hnode : node.indentation = indent)
    (ha : d.sheet.append d.indentation.innermost.container (.detached node) = .ok sheet) :
    Settled { d with sheet } := by
  have hseats := Sheet.seats_of_append ha
  have hindent := Sheet.indent_of_append ha
  have hwidth : node.width = d.indentation.innermost.width := by rw [Node.width, hnode, h.width]
  refine ⟨⟨?_, ?_, h.steep, h.levels, ?_, ?_⟩, ?_, ?_, ?_⟩
  · show Hosted sheet.seats
    rw [hseats]
    refine .concat h.hosted ?_
    rw [hwidth]
    exact h.host _ List.mem_cons_self
  · intro k hk
    show k.container = host sheet.seats k.width
    have hle := h.toNests.width_le k hk
    rw [hseats, Seat.host_concat, hwidth, if_neg (Nat.not_lt.2 hle)]
    exact h.host k hk
  · show ∀ q ∈ sheet.seats, _
    rw [hseats]
    refine List.forall_mem_append.2 ⟨h.seats, List.forall_mem_singleton.2 ?_⟩
    rw [hwidth]
    exact h.levels _ List.mem_cons_self
  · show d.indentation.unit = sheet.indent.map List.length
    rw [hindent]
    exact h.unit
  · intro hs
    rw [h.started] at hs
    cases hs
  · show sheet.indent = Seat.firstIndent sheet.seats
    rw [hindent, h.indent, hseats, Seat.firstIndent_concat, Node.width, hnode]
  · show ∀ q ∈ sheet.seats.getLast?, _
    rw [hseats, List.getLast?_concat]
    rintro _ ⟨⟩
    exact ⟨hwidth, rfl⟩

theorem Settled.add (h : d.Settled) (hr : d.Reads vs) {s : Statement}
    (hs : ∀ n, s.node = .ok n → n.indentation = s.first.indent) (ha : d.add s = .ok d') :
    d'.Settled := by
  obtain ⟨d₁, node, sheet, he, hn, hsheet, rfl⟩ := add_eq_ok ha
  exact (h.enter hr he).append (hs node hn) hsheet

theorem Settled.foldlM {ss : List Statement} (h : d.Settled) (hr : d.Reads vs)
    (hs : ∀ s ∈ ss, ∀ n, s.node = .ok n → n.indentation = s.first.indent)
    (hf : ss.foldlM Draft.add d = .ok d') : d'.Settled := by
  refine (invariant_of_foldlM (P := fun _ d => d.Settled ∧ ∃ vs, d.Reads vs) ⟨h, vs, hr⟩ ?_ hf).1
  rintro pre s hmem d₁ d₂ ⟨hsettled, vs, hreads⟩ ha
  obtain ⟨v, -, hreads', -⟩ := hreads.add ha
  exact ⟨hsettled.add hreads (hs s hmem) ha, _, hreads'⟩

end Draft

/-! ### Sheets -/

namespace Sheet

/-- Whether `m`, which stands at `e`, is the last node before `n` that is less wide than `width`. -/
structure Nearest (s : Sheet) (n : NodeId) (width : Nat) (m : NodeId) (e : Entry) : Prop where
  entry : s.entry? m = some e
  before : m < n
  narrow : e.node.width < width
  last : ∀ k, m < k → k < n → ∀ e', s.entry? k = some e' → width ≤ e'.node.width

/-- Whether a sheet, numbered in document order, nests its nodes as their widths tell: in the nearest
node that is less wide, or in what holds that one if it is a leaf.  All widths are multiples of the
first one that is not zero, and none is smaller than the depth of its node in these units. -/
structure Offside (s : Sheet) : Prop where
  order : s.outline.map (·.id) = List.range s.size
  spelled : ∀ e ∈ s.entries, e.node.before.isSome = true
  top : ∀ {n : NodeId} {e : Entry}, s.entry? n = some e →
    (∀ m < n, ∀ e', s.entry? m = some e' → e.node.width ≤ e'.node.width) → e.parent = none
  nested : ∀ {n m : NodeId} {e owner : Entry}, s.entry? n = some e →
    s.Nearest n e.node.width m owner →
    e.parent = if owner.node.item.kind.isContainer then some m else owner.parent
  indent : s.indent = (s.entries.find? (·.node.width ≠ 0)).map (·.node.indentation)
  multiple : ∀ unit ∈ s.indent, ∀ e ∈ s.entries, unit.length ∣ e.node.width
  depth : ∀ unit ∈ s.indent, ∀ {n : NodeId} {e : Entry}, s.entry? n = some e →
    s.depth n * unit.length ≤ e.node.width

variable {s : Sheet} {n : NodeId} {e : Entry}

theorem exists_seats (h : s.entry? n = some e) : ∃ pre post,
    s.seats = pre ++ ⟨e.node, e.parent⟩ :: post ∧ pre.length = n :=
  Seat.exists_split (getElem?_seats h)

theorem entry_of_seats {pre post : List Seat} {q : Seat} (h : s.seats = pre ++ q :: post) :
    ∃ e, s.entry? pre.length = some e ∧ q = ⟨e.node, e.parent⟩ := by
  apply exists_entry
  rw [h]
  simp

/-- What holds a node comes before it and is less wide. -/
theorem parent_narrow (h : Hosted s.seats) (he : s.entry? n = some e) {p : NodeId}
    (hp : e.parent = some p) : ∃ owner, s.entry? p = some owner ∧ owner.node.width < e.node.width := by
  induction n using Nat.strong_induction_on generalizing e with
  | _ n ih =>
    obtain ⟨pre, post, hseats, hlength⟩ := exists_seats he
    have hhost : e.parent = host pre e.node.width := h.parent_eq hseats
    rcases Seat.nearest pre e.node.width with hall | ⟨before, q, between, rfl, hq, hlast⟩
    · rw [hhost, Seat.host_eq_none hall] at hp
      cases hp
    · rw [hhost, Seat.host_eq_holder hq hlast] at hp
      rw [List.append_assoc, List.cons_append] at hseats
      obtain ⟨owner, howner, rfl⟩ := entry_of_seats hseats
      rw [holder] at hp
      split at hp
      · obtain rfl := Option.some.inj hp
        exact ⟨owner, howner, hq⟩
      · have hlt : before.length < n := by simp [← hlength]
        obtain ⟨outer, houter, hwidth⟩ := ih _ hlt howner hp
        exact ⟨outer, houter, Nat.lt_trans hwidth hq⟩

/-- Each node above a node takes a unit of its width. -/
theorem depthFrom_mul_le (h : Hosted s.seats) {unit : Nat}
    (hunit : ∀ e ∈ s.entries, unit ∣ e.node.width) {fuel : Nat} (he : s.entry? n = some e) :
    s.depthFrom fuel n * unit ≤ e.node.width := by
  induction fuel generalizing n e with
  | zero =>
    rw [depthFrom, Nat.zero_mul]
    exact Nat.zero_le _
  | succ fuel ih =>
    rw [depthFrom, he, Option.bind_some]
    cases hp : e.parent with
    | none =>
      rw [Nat.zero_mul]
      exact Nat.zero_le _
    | some p =>
      obtain ⟨owner, howner, hlt⟩ := parent_narrow h he hp
      obtain ⟨a, ha⟩ := hunit e (List.mem_of_getElem? he)
      obtain ⟨b, hb⟩ := hunit owner (List.mem_of_getElem? howner)
      have hle : owner.node.width + unit ≤ e.node.width := by
        have hab : b < a := by
          rw [ha, hb] at hlt
          exact Nat.lt_of_mul_lt_mul_left hlt
        rw [ha, hb, ← Nat.mul_succ]
        exact Nat.mul_le_mul_left unit hab
      show (s.depthFrom fuel p + 1) * unit ≤ e.node.width
      rw [Nat.succ_mul]
      exact Nat.le_trans (Nat.add_le_add_right (ih howner) unit) hle

theorem firstIndent_seats (s : Sheet) : Seat.firstIndent s.seats =
    (s.entries.find? (·.node.width ≠ 0)).map (·.node.indentation) := by
  rw [Seat.firstIndent, seats, List.find?_map, Option.map_map]
  rfl

/-- Without a node before it that is less wide, a node stands at the top. -/
theorem parent_eq_none (h : Hosted s.seats) (he : s.entry? n = some e)
    (hall : ∀ m < n, ∀ e', s.entry? m = some e' → e.node.width ≤ e'.node.width) :
    e.parent = none := by
  obtain ⟨pre, post, hpre, rfl⟩ := exists_seats he
  have hhost : e.parent = host pre e.node.width := h.parent_eq hpre
  rw [hhost]
  apply Seat.host_eq_none
  intro q hq
  obtain ⟨front, back, rfl⟩ := List.append_of_mem hq
  rw [List.append_assoc, List.cons_append] at hpre
  obtain ⟨e', he', rfl⟩ := entry_of_seats hpre
  exact hall front.length (by simp) e' he'

/-- A node is held by the nearest one that is less wide, or by what holds that one. -/
theorem parent_eq_holder (h : Hosted s.seats) (he : s.entry? n = some e) {m : NodeId} {owner : Entry}
    (hnear : s.Nearest n e.node.width m owner) :
    e.parent = if owner.node.item.kind.isContainer then some m else owner.parent := by
  obtain ⟨pre, post, hpre, rfl⟩ := exists_seats he
  have hhost : e.parent = host pre e.node.width := h.parent_eq hpre
  have howner : pre[m]? = some ⟨owner.node, owner.parent⟩ := by
    rw [← getElem?_seats hnear.entry, hpre, List.getElem?_append_left hnear.before]
  obtain ⟨before, between, rfl, rfl⟩ := Seat.exists_split howner
  rw [hhost, Seat.host_eq_holder hnear.narrow]
  · rfl
  · intro r hr
    obtain ⟨front, back, rfl⟩ := List.append_of_mem hr
    rw [List.append_assoc, List.cons_append, List.append_assoc, List.cons_append, ← List.cons_append,
      ← List.append_assoc] at hpre
    obtain ⟨e', he', rfl⟩ := entry_of_seats hpre
    exact hnear.last _ (by simp) (by simp) e' he'

/-- A sheet that was read nests its nodes as their widths tell. -/
theorem offside_of_parse {name : String} {source : Text} (h : parse name source = .ok s) :
    s.Offside := by
  obtain ⟨lines, draft, hlines, hdraft, hs⟩ := draft_of_parse h
  obtain ⟨_, vs, -, hlists, hnodes⟩ := exists_of_parse h
  have hsettled : draft.Settled := Draft.Settled.empty.foldlM Draft.Reads.empty
    (fun t ht n hn => Statement.indentation_of_node hlines ht hn) hdraft
  have hseats : s.seats = draft.sheet.seats := by rw [hs]; rfl
  have hindent : s.indent = draft.sheet.indent := by rw [hs]
  have hhosted : Hosted s.seats := hseats ▸ hsettled.hosted
  have hmultiple : ∀ unit ∈ s.indent, ∀ e ∈ s.entries, unit.length ∣ e.node.width := by
    intro unit hunit e he
    have hu : draft.indentation.unit = some unit.length := by
      rw [hsettled.unit, ← hindent, hunit, Option.map_some]
    have hdvd := hsettled.seats ⟨e.node, e.parent⟩ (hseats ▸ List.mem_map_of_mem he)
    rwa [hu] at hdvd
  refine ⟨by rw [hlists.outline_eq, hlists.ids], ?_, parent_eq_none hhosted, ?_,
    by rw [hindent, hsettled.indent, ← hseats, firstIndent_seats], hmultiple, ?_⟩
  · intro e he
    obtain ⟨n, hn⟩ := List.mem_iff_getElem?.1 he
    obtain ⟨v, hv, -, hnode⟩ := hlists.exists_visit hn
    obtain ⟨t, -, ht⟩ := exists_mem_of_forall₂ hnodes hv
    obtain ⟨i, -, hv⟩ := Statement.node_eq_ok.1 ht
    rw [← hnode, hv]
    rfl
  · intro n m e owner he hnear
    exact parent_eq_holder hhosted he hnear
  · intro unit hunit n e he
    exact depthFrom_mul_le hhosted (hmultiple unit hunit) he

/-- A comment below a declaration is held by the rule around it, though it opens a level of its own, and
the lines behind it go back over two levels and over all of them. -/
theorem offside_comment_below_declaration :
    let source := Text.ofString "a\n\n  b\n    c: d\n      /*x*/\n  e: f\n\ng\n"
    ∃ s, parse "in" source = .ok s ∧ s.Offside ∧
      s.entries.map (fun e => (e.node.width, e.parent)) =
        [(0, none), (2, some 0), (4, some 1), (6, some 1), (2, some 0), (0, none)] := by
  intro source
  have hseats : (parse "in" source).toOption.map
      (fun s => s.entries.map fun e => (e.node.width, e.parent)) =
        some [(0, none), (2, some 0), (4, some 1), (6, some 1), (2, some 0), (0, none)] := by
    decide +kernel
  obtain ⟨s, h, hs⟩ := exists_of_map_parse hseats
  exact ⟨s, h, offside_of_parse h, hs⟩

end Sheet

end OffsideCss
