import Mathlib.Data.List.Chain
import OffsideCss.Proofs.ListFacts
import OffsideCss.Sheet

/-! The outline of a sheet.  `Sheet.Outlined` walks the sheet without counting how deep it goes, and
the walk is what `outline` lists.  A node that is appended to the last node of a depth, or to one that
holds it, comes last in the outline. -/

namespace OffsideCss

namespace Sheet

/-- Whether `vs` are the nodes `ids` at `depth`, each followed by the nodes below it.  Only containers
have nodes below them. -/
inductive Outlined (s : Sheet) : Nat → List NodeId → List Visit → Prop
  | nil {depth : Nat} : Outlined s depth [] []
  | cons {depth : Nat} {id : NodeId} {ids : List NodeId} {e : Entry} {below rest : List Visit} :
      s.entry? id = some e → (e.children ≠ [] → e.node.item.kind.isContainer = true) →
      Outlined s (depth + 1) e.children below → Outlined s depth ids rest →
      Outlined s depth (id :: ids) (⟨depth, id, e.node⟩ :: (below ++ rest))

variable {s : Sheet} {depth : Nat} {ids : List NodeId} {vs : List Visit}

namespace Outlined

theorem depth_le (h : Outlined s depth ids vs) : ∀ v ∈ vs, depth ≤ v.depth := by
  induction h with
  | nil => simp
  | cons _ _ _ _ ihbelow ihrest =>
    intro v hv
    rcases List.mem_cons.1 hv with rfl | hv
    · exact Nat.le_refl _
    · rcases List.mem_append.1 hv with hv | hv
      · exact Nat.le_of_succ_le (ihbelow v hv)
      · exact ihrest v hv

theorem eq_nil (h : Outlined s depth ids []) : ids = [] := by
  cases h
  rfl

theorem head_depth {v : Visit} {rest : List Visit} (h : Outlined s depth ids (v :: rest)) :
    v.depth = depth := by
  cases h
  rfl

theorem eq_nil_of_lt (h : Outlined s depth ids vs) (hlt : ∀ w ∈ vs, depth < w.depth) :
    vs = [] ∧ ids = [] := by
  cases vs with
  | nil => exact ⟨rfl, h.eq_nil⟩
  | cons v rest =>
    have := hlt v List.mem_cons_self
    rw [h.head_depth] at this
    exact absurd this (Nat.lt_irrefl _)

theorem append {ids' : List NodeId} {vs' : List Visit} (h : Outlined s depth ids vs)
    (h' : Outlined s depth ids' vs') : Outlined s depth (ids ++ ids') (vs ++ vs') := by
  induction h with
  | nil => exact h'
  | cons he hleaf hbelow _ _ ihrest =>
    rw [List.cons_append, List.cons_append, List.append_assoc]
    exact .cons he hleaf hbelow (ihrest h')

/-- An outline lists no more nodes than the walk goes levels deep. -/
theorem outlineFrom_eq (h : Outlined s depth ids vs) {fuel : Nat} (hfuel : vs.length ≤ fuel) :
    s.outlineFrom fuel depth ids = vs := by
  induction h generalizing fuel with
  | nil => cases fuel <;> rfl
  | @cons depth _ ids _ _ rest he _ _ _ ihbelow ihrest =>
    rw [List.length_cons, List.length_append] at hfuel
    cases fuel with
    | zero => omega
    | succ fuel =>
      have hrest : s.outlineFrom (fuel + 1) depth ids = rest := ihrest (by omega)
      rw [outlineFrom] at hrest ⊢
      rw [List.flatMap_cons, hrest, he]
      simp only
      rw [ihbelow (by omega), List.cons_append]

theorem ids_eq (h : Outlined s depth ids vs) {s' : Sheet}
    (hs : ∀ v ∈ vs, s'.entry? v.id = s.entry? v.id) : Outlined s' depth ids vs := by
  induction h with
  | nil => exact .nil
  | @cons depth id ids e below rest he hleaf _ _ ihbelow ihrest =>
    refine .cons ((hs _ List.mem_cons_self).trans he) hleaf (ihbelow fun v hv => hs v ?_)
      (ihrest fun v hv => hs v ?_) <;> simp [hv]

theorem entry_of_mem (h : Outlined s depth ids vs) {v : Visit} (hv : v ∈ vs) :
    ∃ e, s.entry? v.id = some e ∧ e.node = v.node := by
  induction h with
  | nil => simp at hv
  | cons he _ _ _ ihbelow ihrest =>
    rcases List.mem_cons.1 hv with rfl | hv
    · exact ⟨_, he, rfl⟩
    · exact (List.mem_append.1 hv).elim ihbelow ihrest

theorem children_of_mem (h : Outlined s depth ids vs) {v : Visit} (hv : v ∈ vs) {e : Entry}
    (he : s.entry? v.id = some e) (hne : e.children ≠ []) : e.node.item.kind.isContainer = true := by
  induction h with
  | nil => simp at hv
  | cons he' hleaf _ _ ihbelow ihrest =>
    rcases List.mem_cons.1 hv with rfl | hv
    · obtain rfl := Option.some.inj (he.symm.trans he')
      exact hleaf hne
    · exact (List.mem_append.1 hv).elim ihbelow ihrest

end Outlined

/-- A sheet in which one container got one more child. -/
structure Extends (s s' : Sheet) (id : NodeId) (node : Node) : Prop where
  owner : ∃ e, s.entry? id = some e ∧ e.node.item.kind.isContainer = true ∧
    s'.entry? id = some { e with children := e.children ++ [s.size] }
  others : ∀ i, i ≠ id → i ≠ s.size → s'.entry? i = s.entry? i
  new : ∃ parent, s'.entry? s.size = some ⟨node, parent, []⟩

namespace Extends

variable {s' : Sheet} {id : NodeId} {node : Node}

theorem frame (hs : Extends s s' id node) (h : Outlined s depth ids vs)
    (hvs : ∀ w ∈ vs, w.id ≠ id ∧ w.id ≠ s.size) : Outlined s' depth ids vs :=
  h.ids_eq fun w hw => hs.others w.id (hvs w hw).1 (hvs w hw).2

/-- The new child comes last below its parent. -/
theorem outlined_parent (hs : Extends s s' id node) {e : Entry} (he : s.entry? id = some e)
    {below : List Visit} (h : Outlined s (depth + 1) e.children below)
    (hbelow : ∀ w ∈ below, w.id ≠ id ∧ w.id ≠ s.size) :
    Outlined s' depth [id] (⟨depth, id, e.node⟩ :: (below ++ [⟨depth + 1, s.size, node⟩])) := by
  obtain ⟨e', he', hcontainer, hlast⟩ := hs.owner
  obtain rfl : e = e' := Option.some.inj (he.symm.trans he')
  obtain ⟨parent, hnew⟩ := hs.new
  have hone : Outlined s' (depth + 1) [s.size] [⟨depth + 1, s.size, node⟩] :=
    .cons hnew (by simp) .nil .nil
  simpa using Outlined.cons hlast (fun _ => hcontainer) ((hs.frame h hbelow).append hone) .nil

/-- The new child of the last node, or of one above it, comes last in the outline. -/
theorem outlined {v : Visit} {pre post : List Visit} (hs : Extends s s' v.id node)
    (h : Outlined s depth ids (pre ++ v :: post)) (hids : ∀ w ∈ pre ++ post, w.id ≠ v.id)
    (hsize : ∀ w ∈ pre ++ v :: post, w.id ≠ s.size) (hpost : ∀ w ∈ post, v.depth < w.depth) :
    Outlined s' depth ids (pre ++ v :: post ++ [⟨v.depth + 1, s.size, node⟩]) := by
  generalize hvs : pre ++ v :: post = vs at h
  induction h generalizing pre post with
  | nil => simp at hvs
  | @cons d id is e below rest he hleaf hbelow hrest ihbelow ihrest =>
    cases pre with
    | nil =>
      rw [List.nil_append, List.cons.injEq] at hvs
      obtain ⟨rfl, rfl⟩ := hvs
      obtain ⟨rfl, rfl⟩ := hrest.eq_nil_of_lt fun w hw => hpost w (List.mem_append_right _ hw)
      simpa using hs.outlined_parent he hbelow fun w hw =>
        ⟨hids w (by simp [hw]), hsize w (by simp [hw])⟩
    | cons w pre =>
      rw [List.cons_append, List.cons.injEq] at hvs
      obtain ⟨rfl, hvs⟩ := hvs
      have hid : id ≠ v.id := hids ⟨d, id, e.node⟩ (by simp)
      have he' := (hs.others id hid (hsize ⟨d, id, e.node⟩ (by simp))).trans he
      -- The parent is below the first node, and nothing follows that one, or it is in the rest.
      rcases append_eq_append_cons hvs.symm with ⟨mid, rfl, rfl⟩ | ⟨mid, rfl, rfl⟩
      · have hb := hs.frame hbelow fun w hw => ⟨hids w (by grind), hsize w (by grind)⟩
        have hr := @ihrest mid post (fun w hw => hids w (by grind)) (fun w hw => hsize w (by grind))
          hpost rfl
        simpa using Outlined.cons he' hleaf hb hr
      · obtain ⟨rfl, rfl⟩ := hrest.eq_nil_of_lt fun w hw => by
          have hlt := hpost w (List.mem_append_right _ hw)
          have hle := hbelow.depth_le v (by simp)
          omega
        have hb := @ihbelow pre mid (fun w hw => hids w (by grind)) (fun w hw => hsize w (by grind))
          (fun w hw => hpost w (by grind)) rfl
        simpa using Outlined.cons he' hleaf hb .nil

end Extends

/-! ### Sheets numbered in document order -/

/-- Whether a sheet lists the nodes `vs`, and numbered them in this order. -/
structure Lists (s : Sheet) (vs : List Visit) : Prop where
  outlined : Outlined s 0 s.top vs
  ids : vs.map (·.id) = List.range s.size

/-- Whether `container` holds nodes at `depth`, and nothing behind it in the outline stands less
deep. -/
def Holds (vs : List Visit) (container : Option NodeId) (depth : Nat) : Prop :=
  match container with
  | none => depth = 0
  | some id => ∃ pre v post, vs = pre ++ v :: post ∧ v.id = id ∧ v.depth + 1 = depth ∧
      v.node.item.kind.isContainer = true ∧ ∀ w ∈ post, v.depth < w.depth

theorem Holds.concat {container : Option NodeId} (h : Holds vs container depth) {v : Visit}
    (hv : depth ≤ v.depth) : Holds (vs ++ [v]) container depth := by
  cases container with
  | none => exact h
  | some id =>
    obtain ⟨pre, w, post, rfl, hid, hdepth, hcontainer, hpost⟩ := h
    refine ⟨pre, w, post ++ [v], by simp, hid, hdepth, hcontainer, fun u hu => ?_⟩
    rcases List.mem_append.1 hu with hu | hu
    · exact hpost u hu
    · rw [List.mem_singleton.1 hu]
      omega

theorem Holds.last {v : Visit} (hv : v.node.item.kind.isContainer = true) :
    Holds (vs ++ [v]) (some v.id) (v.depth + 1) :=
  ⟨vs, v, [], rfl, rfl, rfl, hv, by simp⟩

/-- Nothing that holds nodes at the end of an outline lies deeper than the last node. -/
theorem Holds.le_last {container : Option NodeId} {v : Visit}
    (h : Holds (vs ++ [v]) container depth) : depth ≤ v.depth + 1 := by
  cases container with
  | none =>
    obtain rfl : depth = 0 := h
    exact Nat.zero_le _
  | some id =>
    obtain ⟨pre, w, post, hvs, -, rfl, -, hpost⟩ := h
    rcases List.eq_nil_or_concat post with rfl | ⟨post, u, rfl⟩
    · obtain ⟨-, hw⟩ := List.append_inj' hvs rfl
      obtain rfl := List.head_eq_of_cons_eq hw
      exact Nat.le_refl _
    · rw [List.concat_eq_append, ← List.cons_append, ← List.append_assoc] at hvs
      obtain ⟨-, hu⟩ := List.append_inj' hvs rfl
      obtain rfl := List.head_eq_of_cons_eq hu
      exact Nat.le_succ_of_le (hpost v (by simp))

namespace Lists

theorem empty : Sheet.empty.Lists [] := ⟨.nil, rfl⟩

theorem length_eq (h : s.Lists vs) : vs.length = s.size := by
  simpa using congrArg List.length h.ids

theorem outline_eq (h : s.Lists vs) : s.outline = vs :=
  h.outlined.outlineFrom_eq (Nat.le_of_eq h.length_eq)

theorem id_lt (h : s.Lists vs) {v : Visit} (hv : v ∈ vs) : v.id < s.size := by
  have := List.mem_map_of_mem (f := (·.id)) hv
  rwa [h.ids, List.mem_range] at this

/-- Each node of a sheet is listed. -/
theorem exists_visit (h : s.Lists vs) {id : NodeId} {e : Entry} (he : s.entry? id = some e) :
    ∃ v ∈ vs, v.id = id ∧ v.node = e.node := by
  have hlt : id < s.size := (List.getElem?_eq_some_iff.1 he).1
  have hid : id ∈ vs.map (·.id) := by
    rw [h.ids]
    exact List.mem_range.2 hlt
  obtain ⟨v, hv, rfl⟩ := List.mem_map.1 hid
  obtain ⟨e', he', hnode⟩ := h.outlined.entry_of_mem hv
  obtain rfl := Option.some.inj (he.symm.trans he')
  exact ⟨v, hv, rfl, hnode.symm⟩

theorem id_ne (h : s.Lists vs) {pre post : List Visit} {v : Visit} (hvs : vs = pre ++ v :: post) :
    ∀ w ∈ pre ++ post, w.id ≠ v.id := by
  have hnodup : (vs.map (·.id)).Nodup := h.ids ▸ List.nodup_range
  rw [hvs, List.map_append, List.map_cons, List.perm_middle.nodup_iff, List.nodup_cons,
    ← List.map_append] at hnodup
  exact fun w hw he => hnodup.1 (he ▸ List.mem_map_of_mem hw)

end Lists

theorem append_child {id : NodeId} {e : Entry} (he : s.entry? id = some e)
    (hcontainer : e.node.item.kind.isContainer = true) (entry : Entry) :
    s.append (some id) entry = .ok { s with
      entries := s.entries.set id { e with children := e.children ++ [s.size] } ++
        [⟨entry.node, some id, []⟩] } := by
  simp [Sheet.append, he, hcontainer]

theorem extends_of_append {id : NodeId} {e entry : Entry} {s' : Sheet}
    (he : s.entry? id = some e) (hcontainer : e.node.item.kind.isContainer = true)
    (h : s.append (some id) entry = .ok s') : Extends s s' id entry.node := by
  rw [append_child he hcontainer, Except.ok.injEq] at h
  subst h
  have hlt : id < s.entries.length := (List.getElem?_eq_some_iff.1 he).1
  refine ⟨⟨e, he, hcontainer, ?_⟩, fun i hi hi' => ?_, ⟨some id, ?_⟩⟩
  · unfold entry?
    rw [List.getElem?_append_left (by simpa using hlt), List.getElem?_set_self hlt]
  · unfold entry?
    by_cases hi'' : i < s.entries.length
    · rw [List.getElem?_append_left (by simpa using hi''), List.getElem?_set_ne (Ne.symm hi)]
    · have hgt : s.entries.length < i := Nat.lt_of_le_of_ne (Nat.le_of_not_lt hi'') (Ne.symm hi')
      rw [List.getElem?_eq_none (by simpa using Nat.succ_le_of_lt hgt),
        List.getElem?_eq_none (Nat.le_of_lt hgt)]
  · simp [size, entry?]

/-- A node that is appended where the last one stands, or above it, comes last. -/
theorem Lists.append (h : s.Lists vs) {container : Option NodeId} (hc : Holds vs container depth)
    (entry : Entry) : ∃ s', s.append container entry = .ok s' ∧
      s'.Lists (vs ++ [⟨depth, s.size, entry.node⟩]) ∧ s'.lastChild? container = some s.size ∧
      s'.indent = s.indent := by
  cases container with
  | none =>
    obtain rfl : depth = 0 := hc
    obtain ⟨s', hs'⟩ : ∃ s', s.append none entry = .ok s' := ⟨_, rfl⟩
    have heq := (Except.ok.inj hs').symm
    refine ⟨s', hs', ⟨?_, ?_⟩, ?_, by rw [heq]⟩
    · have hframe : Outlined s' 0 s.top vs := h.outlined.ids_eq fun v hv => by
        rw [heq, entry?, List.getElem?_append_left (h.id_lt hv), entry?]
      have hnew : s'.entry? s.size = some ⟨entry.node, none, []⟩ := by simp [heq, entry?, size]
      have htop : s'.top = s.top ++ [s.size] := by rw [heq]
      rw [htop]
      exact hframe.append (.cons hnew (by simp) .nil .nil)
    · simp [h.ids, heq, size, List.range_succ]
    · simp [heq, lastChild?, children?]
  | some id =>
    obtain ⟨pre, v, post, hvs, rfl, rfl, hcontainer, hpost⟩ := hc
    obtain ⟨e, he, hnode⟩ := h.outlined.entry_of_mem (v := v) (by simp [hvs])
    rw [← hnode] at hcontainer
    obtain ⟨s', hs'⟩ : ∃ s', s.append (some v.id) entry = .ok s' :=
      ⟨_, append_child he hcontainer entry⟩
    have hextends := extends_of_append he hcontainer hs'
    obtain ⟨e', he', -, hlast⟩ := hextends.owner
    rw [append_child he hcontainer, Except.ok.injEq] at hs'
    refine ⟨s', by rw [append_child he hcontainer, hs'], ⟨?_, ?_⟩, ?_, by rw [← hs']⟩
    · have htop : s'.top = s.top := by rw [← hs']
      rw [htop, hvs]
      exact hextends.outlined (hvs ▸ h.outlined) (h.id_ne hvs)
        (fun w hw => Nat.ne_of_lt (h.id_lt (hvs ▸ hw))) hpost
    · simp [h.ids, ← hs', size, List.range_succ]
    · simp [lastChild?, children?, hlast]

end Sheet

end OffsideCss
