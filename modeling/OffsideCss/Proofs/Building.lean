import OffsideCss.Proofs.DepthRun

/-! Sheets that are built by appending.  Whatever the order in which the nodes were appended, a node
has a smaller number than its children, so the outline walks the whole sheet.  Two nodes that follow
each other in it at the same depth are siblings that follow each other. -/

namespace OffsideCss.Sheet

/-- Whether all nodes of a sheet were appended, in any order. -/
inductive Built : Sheet → Prop
  | fresh {s : Sheet} : s.entries = [] → s.top = [] → Built s
  | append {s s' : Sheet} {parent : Option NodeId} {entry : Entry} :
      Built s → s.append parent entry = .ok s' → Built s'

/-- Whether numbers grow from nodes to their children, which only containers have. -/
structure Sound (s : Sheet) : Prop where
  top : ∀ id ∈ s.top, id < s.size
  children : ∀ {id : NodeId} {e : Entry}, s.entry? id = some e →
    ∀ child ∈ e.children, id < child ∧ child < s.size
  container : ∀ {id : NodeId} {e : Entry}, s.entry? id = some e →
    e.children ≠ [] → e.node.item.kind.isContainer = true

variable {s s' : Sheet} {parent : Option NodeId} {entry : Entry}

/-! ### What appending changes -/

theorem isContainer_of_append {id : NodeId} (h : s.append (some id) entry = .ok s') :
    ∃ e, s.entry? id = some e ∧ e.node.item.kind.isContainer = true := by
  unfold append at h
  cases he : s.entry? id with
  | none => simp [he] at h
  | some e =>
    refine ⟨e, rfl, ?_⟩
    by_contra hleaf
    simp [he, hleaf] at h

theorem size_of_append (h : s.append parent entry = .ok s') : s'.size = s.size + 1 := by
  cases parent with
  | none =>
    obtain rfl := Except.ok.inj h
    simp [size]
  | some id =>
    obtain ⟨e, he, hcontainer⟩ := isContainer_of_append h
    rw [append_child he hcontainer, Except.ok.injEq] at h
    simp [← h, size]

theorem top_of_append (h : s.append parent entry = .ok s') :
    s'.top = s.top ∨ s'.top = s.top ++ [s.size] := by
  cases parent with
  | none =>
    obtain rfl := Except.ok.inj h
    exact .inr rfl
  | some id =>
    obtain ⟨e, he, hcontainer⟩ := isContainer_of_append h
    rw [append_child he hcontainer, Except.ok.injEq] at h
    exact .inl (by rw [← h])

/-- An entry is new, or is as it was but for one more child. -/
theorem entry?_of_append (h : s.append parent entry = .ok s') {id : NodeId} {e : Entry}
    (he : s'.entry? id = some e) : e.children = [] ∨ ∃ e₀, s.entry? id = some e₀ ∧
      (e = e₀ ∨ e₀.node.item.kind.isContainer = true ∧
        e = { e₀ with children := e₀.children ++ [s.size] }) := by
  cases parent with
  | none =>
    obtain rfl := Except.ok.inj h
    unfold entry? at he
    rw [List.getElem?_append] at he
    split at he
    · exact .inr ⟨e, he, .inl rfl⟩
    · rw [List.getElem?_singleton] at he
      split at he
      · exact .inl (by rw [← Option.some.inj he])
      · simp at he
  | some owner =>
    obtain ⟨e₀, he₀, hcontainer⟩ := isContainer_of_append h
    have hextends := extends_of_append he₀ hcontainer h
    by_cases howner : id = owner
    · subst howner
      obtain ⟨e₁, he₁, hcontainer₁, hlast⟩ := hextends.owner
      exact .inr ⟨e₁, he₁, .inr ⟨hcontainer₁, Option.some.inj (he.symm.trans hlast)⟩⟩
    · by_cases hsize : id = s.size
      · obtain ⟨parent, hnew⟩ := hextends.new
        rw [hsize, hnew] at he
        exact .inl (by rw [← Option.some.inj he])
      · exact .inr ⟨e, (hextends.others id howner hsize).symm.trans he, .inl rfl⟩

theorem lt_size_of_entry {id : NodeId} {e : Entry} (h : s.entry? id = some e) : id < s.size :=
  (List.getElem?_eq_some_iff.1 h).1

theorem Sound.append (hs : s.Sound) (h : s.append parent entry = .ok s') : s'.Sound := by
  have hsize := size_of_append h
  refine ⟨fun id hid => ?_, fun {id e} he child hchild => ?_, fun {id e} he hne => ?_⟩
  · rw [hsize]
    rcases top_of_append h with htop | htop
    · rw [htop] at hid
      exact Nat.lt_succ_of_lt (hs.top id hid)
    · rw [htop, List.mem_append, List.mem_singleton] at hid
      rcases hid with hid | rfl
      · exact Nat.lt_succ_of_lt (hs.top id hid)
      · exact Nat.lt_succ_self _
  · rw [hsize]
    rcases entry?_of_append h he with hnil | ⟨e₀, he₀, rfl | ⟨-, rfl⟩⟩
    · simp [hnil] at hchild
    · obtain ⟨hgt, hlt⟩ := hs.children he₀ child hchild
      exact ⟨hgt, Nat.lt_succ_of_lt hlt⟩
    · rcases List.mem_append.1 hchild with hchild | hchild
      · obtain ⟨hgt, hlt⟩ := hs.children he₀ child hchild
        exact ⟨hgt, Nat.lt_succ_of_lt hlt⟩
      · rw [List.mem_singleton.1 hchild]
        exact ⟨lt_size_of_entry he₀, Nat.lt_succ_self _⟩
  · rcases entry?_of_append h he with hnil | ⟨e₀, he₀, rfl | ⟨hcontainer, rfl⟩⟩
    · exact absurd hnil hne
    · exact hs.container he₀ hne
    · exact hcontainer

theorem Built.sound (h : s.Built) : s.Sound := by
  induction h with
  | fresh hentries htop =>
    refine ⟨by simp [htop], ?_, ?_⟩ <;> simp [hentries, entry?]
  | append _ ha ih => exact ih.append ha

/-! ### The outline -/

theorem Sound.outlinedFrom (hs : s.Sound) {fuel depth : Nat} {ids : List NodeId}
    (hids : ∀ id ∈ ids, id < s.size ∧ s.size ≤ id + fuel) :
    Outlined s depth ids (s.outlineFrom fuel depth ids) := by
  induction fuel generalizing depth ids with
  | zero =>
    cases ids with
    | nil => exact .nil
    | cons id ids =>
      obtain ⟨hlt, hle⟩ := hids id List.mem_cons_self
      exact absurd hlt (Nat.not_lt_of_le hle)
  | succ fuel ihfuel =>
    induction ids with
    | nil => exact .nil
    | cons id ids ihids =>
      obtain ⟨hlt, hfuel⟩ := hids id List.mem_cons_self
      have he : s.entry? id = some s.entries[id] := List.getElem?_eq_getElem hlt
      have hbelow : Outlined s (depth + 1) s.entries[id].children
          (s.outlineFrom fuel (depth + 1) s.entries[id].children) := ihfuel fun child hchild => by
        obtain ⟨hgt, hlt⟩ := hs.children he child hchild
        rw [← Nat.succ_add_eq_add_succ] at hfuel
        exact ⟨hlt, hfuel.trans (Nat.add_le_add_right hgt fuel)⟩
      have hrest := ihids fun id hid => hids id (List.mem_cons_of_mem _ hid)
      rw [outlineFrom, List.flatMap_cons, he]
      exact .cons he (hs.container he) hbelow hrest

/-- The outline of a sheet that was built walks the whole sheet. -/
theorem Sound.outlined (hs : s.Sound) : Outlined s 0 s.top s.outline :=
  hs.outlinedFrom fun id hid => ⟨hs.top id hid, Nat.le_add_left _ _⟩

/-- Whether `ids` are the nodes at the top of a sheet, or the children of one of its nodes. -/
def Siblings (s : Sheet) (ids : List NodeId) : Prop :=
  ids = s.top ∨ ∃ id e, s.entry? id = some e ∧ ids = e.children

/-- Whether a node can stand right behind another one in the outline of a sheet.  At the same depth, the
first one has no children and the second one is its next sibling. -/
structure Next (s : Sheet) (v w : Visit) : Prop where
  follows : Draft.Target.Follows ⟨v.depth, v.node.item⟩ ⟨w.depth, w.node.item⟩
  sibling : w.depth = v.depth → ∃ ids, s.Siblings ids ∧ [v.id, w.id] <:+: ids ∧
    ∃ e, s.entry? v.id = some e ∧ e.children = []

theorem Next.of_lt {v w : Visit} (h : w.depth < v.depth) : s.Next v w :=
  ⟨⟨by simp only; omega, by simp only; omega⟩, by omega⟩

theorem Outlined.head {depth : Nat} {ids : List NodeId} {vs : List Visit} {w : Visit}
    (h : Outlined s depth ids vs) (hw : w ∈ vs.head?) : w.depth = depth ∧ w.id ∈ ids.head? := by
  cases h with
  | nil => simp at hw
  | cons =>
    obtain rfl := Option.some.inj hw
    exact ⟨rfl, rfl⟩

theorem Outlined.isChain {depth : Nat} {ids all : List NodeId} {vs : List Visit}
    (h : Outlined s depth ids vs) (hall : s.Siblings all) (hids : ids <:+ all) :
    vs.IsChain s.Next := by
  induction h generalizing all with
  | nil => exact .nil
  | @cons depth id ids e below rest he hleaf hbelow hrest ihbelow ihrest =>
    have hchain := ihbelow (.inr ⟨id, e, he, rfl⟩) List.suffix_rfl
    have hchain' := ihrest hall ((List.suffix_cons id ids).trans hids)
    refine List.isChain_cons.2 ⟨fun w hw => ?_, List.isChain_append.2 ⟨hchain, hchain', ?_⟩⟩
    · cases hb : below with
      | nil =>
        rw [hb, List.nil_append] at hw
        obtain ⟨hdepth, hid⟩ := hrest.head hw
        obtain ⟨ids, rfl⟩ := List.head?_eq_some_iff.1 hid
        refine ⟨⟨by simp only; omega, by simp only; omega⟩, fun _ => ⟨all, hall, ?_, e, he, ?_⟩⟩
        · exact (List.prefix_append [id, w.id] ids).isInfix.trans hids.isInfix
        · exact (hb ▸ hbelow).eq_nil
      | cons x xs =>
        rw [hb, List.cons_append] at hw
        obtain rfl := Option.some.inj hw
        obtain ⟨hdepth, hid⟩ := hbelow.head (w := x) (by simp [hb])
        refine ⟨⟨by simp only; omega, fun _ => hleaf ?_⟩, by simp only; omega⟩
        rintro hnil
        simp [hnil] at hid
    · intro v hv w hw
      have hle := hbelow.depth_le v (List.mem_of_getLast? hv)
      have heq := (hrest.head hw).1
      exact .of_lt (by omega)

end OffsideCss.Sheet
