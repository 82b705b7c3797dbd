import Mathlib.Data.List.Perm.Basic
import OffsideCss.Proofs.Links

/-! The arena of a sheet.  The ways through a sheet agree whatever was done to it: the recursion over
lists of children that its outline is, the visit with a stack, and the way up from each node all end,
and meet each node once and equally deep. -/

namespace OffsideCss.Sheet

/-- Whether the way up from a node ends behind `n` parents. -/
inductive Climbs (s : Sheet) : NodeId → Nat → Prop
  | top {id : NodeId} : s.parent? id = some none → Climbs s id 0
  | up {id p : NodeId} {n : Nat} : s.parent? id = some (some p) → Climbs s p n → Climbs s id (n + 1)

/-- Whether `vs` are the nodes `ids` at `depth`, each followed by those below it.  Any node can have
others below it. -/
inductive Traversed (s : Sheet) : Nat → List NodeId → List Visit → Prop
  | nil {depth : Nat} : Traversed s depth [] []
  | cons {depth : Nat} {id : NodeId} {ids : List NodeId} {e : Entry} {below rest : List Visit} :
      s.entry? id = some e → Traversed s (depth + 1) e.children below → Traversed s depth ids rest →
      Traversed s depth (id :: ids) (⟨depth, id, e.node⟩ :: (below ++ rest))

/-- Whether a visit that starts with this stack meets the nodes `ids` and is then done. -/
inductive Walks (s : Sheet) : List NodeId → List NodeId → Prop
  | done : Walks s [] []
  | next {stack rest ids : List NodeId} {id : NodeId} :
      s.visitNext? stack = some (id, rest) → Walks s rest ids → Walks s stack (id :: ids)

/-- The children of a node, of which one that is not in the sheet has none. -/
def childrenOf (s : Sheet) (id : NodeId) : List NodeId := (s.children? (some id)).getD []

variable {s : Sheet} {owner : Option NodeId} {id p : NodeId} {e : Entry} {ids : List NodeId}
  {depth n : Nat} {vs : List Visit}

theorem childrenOf_eq (h : s.entry? id = some e) : s.childrenOf id = e.children := by
  rw [childrenOf, children?, h, Option.map_some, Option.getD_some]

/-! ### The way up -/

theorem Linked.exists_climbs (h : s.Linked) (hid : id < s.size) : ∃ n, s.Climbs id n := by
  induction id using Nat.strongRecOn with
  | ind id ih =>
    obtain ⟨owner, howner⟩ := exists_parent hid
    cases owner with
    | none => exact ⟨0, .top howner⟩
    | some p =>
      have hlt := h.older howner
      obtain ⟨n, hn⟩ := ih p hlt (hlt.trans hid)
      exact ⟨n + 1, .up howner hn⟩

/-- Each parent has a smaller number, so no way up is longer than the number it starts at. -/
theorem Climbs.le (hc : s.Climbs id n) (h : s.Linked) : n ≤ id := by
  induction hc with
  | top => exact Nat.zero_le _
  | up hp _ ih => exact Nat.succ_le_of_lt (Nat.lt_of_le_of_lt ih (h.older hp))

theorem Climbs.lt_size (hc : s.Climbs id n) : id < s.size := by
  cases hc with
  | top h => exact lt_size_of_parent h
  | up h => exact lt_size_of_parent h

theorem bind_parent (h : s.parent? id = some owner) : (s.entry? id).bind (·.parent) = owner := by
  obtain ⟨e, he, rfl⟩ := Option.map_eq_some_iff.1 h
  rw [he, Option.bind_some]

theorem Climbs.depthFrom_eq (hc : s.Climbs id n) {fuel : Nat} (hfuel : n ≤ fuel) :
    s.depthFrom fuel id = n := by
  induction hc generalizing fuel with
  | top h =>
    cases fuel with
    | zero => rfl
    | succ fuel => rw [depthFrom, bind_parent h]
  | up h _ ih =>
    cases fuel with
    | zero => omega
    | succ fuel =>
      rw [depthFrom, bind_parent h]
      exact congrArg (· + 1) (ih (Nat.le_of_succ_le_succ hfuel))

theorem Climbs.depth_eq (hc : s.Climbs id n) (h : s.Linked) : s.depth id = n :=
  hc.depthFrom_eq ((hc.le h).trans (Nat.le_of_lt hc.lt_size))

/-! ### The recursion -/

theorem Linked.traversedFrom (h : s.Linked) {fuel depth : Nat}
    (hids : ∀ id ∈ ids, id < s.size ∧ s.size ≤ id + fuel) :
    Traversed s depth ids (s.outlineFrom fuel depth ids) := by
  induction fuel generalizing depth ids with
  | zero =>
    cases ids with
    | nil => exact .nil
    | cons id ids =>
      obtain ⟨hlt, hle⟩ := hids id List.mem_cons_self
      exact absurd hlt (Nat.not_lt_of_le hle)
  | succ fuel ihfuel =>
    induction ids with
    | nil => exact .nil
    | cons id ids ihids =>
      obtain ⟨hlt, hfuel⟩ := hids id List.mem_cons_self
      have he : s.entry? id = some s.entries[id] := List.getElem?_eq_getElem hlt
      have hchildren : s.children? (some id) = some s.entries[id].children := by
        rw [children?, he, Option.map_some]
      have hbelow : Traversed s (depth + 1) s.entries[id].children _ := ihfuel fun child hchild => by
        have hparent := h.owned hchildren child hchild
        rw [← Nat.succ_add_eq_add_succ] at hfuel
        exact ⟨lt_size_of_parent hparent,
          hfuel.trans (Nat.add_le_add_right (h.older hparent) fuel)⟩
      have hrest := ihids fun id hid => hids id (List.mem_cons_of_mem _ hid)
      rw [outlineFrom, List.flatMap_cons, he]
      exact .cons he hbelow hrest

theorem Linked.parent_top (h : s.Linked) (hid : id ∈ s.top) : s.parent? id = some none :=
  h.owned (show s.children? none = some s.top from rfl) id hid

theorem Linked.traversed (h : s.Linked) : Traversed s 0 s.top s.outline :=
  h.traversedFrom fun _ hid => ⟨lt_size_of_parent (h.parent_top hid), Nat.le_add_left _ _⟩

namespace Traversed

theorem lt_size (h : Traversed s depth ids vs) : ∀ v ∈ vs, v.id < s.size := by
  induction h with
  | nil => simp
  | cons he _ _ ihbelow ihrest =>
    intro v hv
    rcases List.mem_cons.1 hv with rfl | hv
    · exact lt_size_of_entry he
    · exact (List.mem_append.1 hv).elim (ihbelow v) (ihrest v)

/-- A node stands as deep in the outline as its way up is long. -/
theorem climbs (h : Traversed s depth ids vs) (hs : s.Linked)
    (hids : ∀ id ∈ ids, s.Climbs id depth) : ∀ v ∈ vs, s.Climbs v.id v.depth := by
  induction h with
  | nil => simp
  | cons he _ _ ihbelow ihrest =>
    have hid := hids _ List.mem_cons_self
    have hchildren := fun child hchild =>
      hs.owned (show s.children? (some _) = _ by rw [children?, he, Option.map_some]) child hchild
    intro v hv
    rcases List.mem_cons.1 hv with rfl | hv
    · exact hid
    · rcases List.mem_append.1 hv with hv | hv
      · exact ihbelow (fun child hchild => .up (hchildren child hchild) hid) v hv
      · exact ihrest (fun id hid => hids id (List.mem_cons_of_mem _ hid)) v hv

theorem mem_map (h : Traversed s depth ids vs) : ∀ id ∈ ids, id ∈ vs.map (·.id) := by
  induction h with
  | nil => simp
  | cons _ _ _ _ ihrest =>
    intro id hid
    rcases List.mem_cons.1 hid with rfl | hid
    · simp
    · have := ihrest id hid
      simp only [List.map_cons, List.map_append, List.mem_cons, List.mem_append]
      exact .inr (.inr this)

/-- Nodes stand before those below them. -/
theorem sublist (h : Traversed s depth ids vs) : ∀ v ∈ vs, ∀ child ∈ s.childrenOf v.id,
    [v.id, child].Sublist (vs.map (·.id)) := by
  induction h with
  | nil => simp
  | cons he hbelow _ ihbelow ihrest =>
    intro v hv child hchild
    rw [List.map_cons, List.map_append]
    rcases List.mem_cons.1 hv with rfl | hv
    · rw [childrenOf_eq he] at hchild
      exact .cons_cons _ (List.singleton_sublist.2
        (List.mem_append_left _ (hbelow.mem_map child hchild)))
    · rcases List.mem_append.1 hv with hv | hv
      · exact ((ihbelow v hv child hchild).trans (List.sublist_append_left _ _)).cons _
      · exact ((ihrest v hv child hchild).trans (List.sublist_append_right _ _)).cons _

/-- Each node that is met is one of those that the walk starts with, or a child of one that is met. -/
theorem perm (h : Traversed s depth ids vs) :
    (vs.map (·.id)).Perm (ids ++ (vs.map (·.id)).flatMap s.childrenOf) := by
  induction h with
  | nil => exact .nil
  | @cons _ id ids e below rest he _ _ ihbelow ihrest =>
    rw [List.map_cons, List.flatMap_cons, childrenOf_eq he, List.map_append, List.flatMap_append,
      List.cons_append]
    refine List.Perm.cons id ((ihbelow.append ihrest).trans ?_)
    generalize (below.map (·.id)).flatMap s.childrenOf = inner
    generalize (rest.map (·.id)).flatMap s.childrenOf = outer
    have hcomm : ((e.children ++ inner) ++ ids ++ outer).Perm (ids ++ (e.children ++ inner) ++ outer) :=
      List.perm_append_comm.append_right _
    simpa only [List.append_assoc] using hcomm

end Traversed

/-! ### Each node once -/

/-- A node is in one list of children once, and in no other one. -/
theorem Linked.count_eq (h : s.Linked) (hid : s.parent? id = some owner) {other : Option NodeId}
    (hids : s.children? other = some ids) : ids.count id = if other = owner then 1 else 0 := by
  split
  · next hother =>
    obtain ⟨ids', hids', hmem⟩ := h.listed hid
    rw [← hother, hids, Option.some.injEq] at hids'
    rw [← hids'] at hmem
    have hnodup : ids.Nodup := (h.sorted hids).imp Nat.ne_of_lt
    rw [hnodup.count, if_pos hmem]
  · next hother =>
    exact List.count_eq_zero.2 fun hmem =>
      hother (Option.some.inj ((h.owned hids id hmem).symm.trans hid))

/-- The lists of children of a list of nodes have a node as often as the nodes have its parent. -/
theorem Linked.count_flatMap (h : s.Linked) (hid : s.parent? id = some owner) (l : List NodeId) :
    (l.flatMap s.childrenOf).count id =
      match owner with
      | none => 0
      | some p => l.count p := by
  have hone : ∀ i, (s.childrenOf i).count id = if some i = owner then 1 else 0 := by
    intro i
    rw [childrenOf]
    cases hi : s.children? (some i) with
    | some ids => exact h.count_eq hid hi
    | none =>
      refine (if_neg ?_).symm
      rintro rfl
      obtain ⟨ids, hids, -⟩ := h.listed hid
      simp [hi] at hids
  induction l with
  | nil => cases owner <;> rfl
  | cons i l ih =>
    rw [List.flatMap_cons, List.count_append, ih, hone]
    cases owner with
    | none => rfl
    | some p =>
      simp only [Option.some.injEq, List.count_cons, beq_iff_eq]
      exact Nat.add_comm _ _

theorem Linked.count_outline (h : s.Linked) (hid : id < s.size) :
    (s.outline.map (·.id)).count id = 1 := by
  induction id using Nat.strongRecOn with
  | ind id ih =>
    obtain ⟨owner, howner⟩ := exists_parent hid
    rw [h.traversed.perm.count_eq, List.count_append, h.count_flatMap howner,
      h.count_eq howner (show s.children? none = _ from rfl)]
    cases owner with
    | none => rfl
    | some p =>
      have hlt := h.older howner
      simp only [ih p hlt (hlt.trans hid), reduceCtorEq, if_false]

theorem Linked.outline_perm (h : s.Linked) :
    (s.outline.map (·.id)).Perm (List.range s.size) := by
  refine List.perm_iff_count.2 fun id => ?_
  by_cases hid : id < s.size
  · rw [h.count_outline hid, List.nodup_range.count, if_pos (List.mem_range.2 hid)]
  · rw [List.count_eq_zero.2 fun hmem => ?_, List.count_eq_zero.2 fun hmem => ?_]
    · exact hid (List.mem_range.1 hmem)
    · obtain ⟨v, hv, rfl⟩ := List.mem_map.1 hmem
      exact hid (h.traversed.lt_size v hv)

/-- Whether the outline of a sheet is the recursion over its lists of children, and meets each node
once. -/
structure Complete (s : Sheet) : Prop where
  traversed : Traversed s 0 s.top s.outline
  nodes : (s.outline.map (·.id)).Perm (List.range s.size)

theorem Linked.complete (h : s.Linked) : s.Complete := ⟨h.traversed, h.outline_perm⟩

/-! ### The visit with a stack -/

theorem Traversed.walks (h : Traversed s depth ids vs) {stack after : List NodeId}
    (hs : s.Walks stack after) : s.Walks (ids ++ stack) (vs.map (·.id) ++ after) := by
  induction h generalizing stack after with
  | nil => exact hs
  | cons he _ _ ihbelow ihrest =>
    rw [List.map_cons, List.map_append, List.cons_append, List.cons_append, List.append_assoc]
    refine .next (show s.visitNext? (_ :: _) = _ by rw [visitNext?, he, Option.map_some]) ?_
    exact ihbelow (ihrest hs)

theorem Walks.unique {stack ids ids' : List NodeId} (h : s.Walks stack ids)
    (h' : s.Walks stack ids') : ids = ids' := by
  induction h generalizing ids' with
  | done =>
    cases h' with
    | done => rfl
    | next hn _ => simp [visitNext?] at hn
  | next hn _ ih =>
    cases h' with
    | done => simp [visitNext?] at hn
    | next hn' hw =>
      obtain ⟨rfl, rfl⟩ := Prod.mk.inj (Option.some.inj (hn.symm.trans hn'))
      rw [ih hw]

/-! ### The arena -/

/-- What holds of a sheet whatever was done to it.  The lists of children are links both ways (`once`,
`older`, `sorted`).  The way up from a node ends, and is as long as the node is deep (`climbs`).  The
recursion over the lists of children and the visit with a stack end, and meet the same nodes in the
same order (`traversed`, `walks`), each node once (`perm`), nodes before their children (`before`),
each as deep as it is (`level`).  Appending in place is appending (`appended`): a leaf refuses it, which
changes nothing (`refused`), and a container or the top takes the node, whatever links that brings along,
which changes nothing but to add it without children at the end of one list (`grown`). -/
structure Arena (s : Sheet) : Prop where
  once : ∀ {id : NodeId}, id < s.size → ∃ owner, s.parent? id = some owner ∧
    (s.children? owner).isSome ∧ ∀ {other : Option NodeId} {ids : List NodeId},
      s.children? other = some ids → ids.count id = if other = owner then 1 else 0
  held : ∀ {owner : Option NodeId} {ids : List NodeId}, s.children? owner = some ids →
    ∀ id ∈ ids, id < s.size
  older : ∀ {id p : NodeId}, s.parent? id = some (some p) → p < id
  sorted : ∀ {owner : Option NodeId} {ids : List NodeId}, s.children? owner = some ids →
    ids.Pairwise (· < ·)
  climbs : ∀ {id : NodeId}, id < s.size → ∀ n, s.Climbs id n ↔ n = s.depth id
  traversed : Traversed s 0 s.top s.outline
  walks : ∀ ids, s.Walks s.top ids ↔ ids = s.outline.map (·.id)
  perm : (s.outline.map (·.id)).Perm (List.range s.size)
  before : ∀ {id p : NodeId}, s.parent? id = some (some p) →
    [p, id].Sublist (s.outline.map (·.id))
  level : ∀ v ∈ s.outline, v.depth = s.depth v.id
  appended : ∀ parent entry, (appendInPlace parent entry).run.run s = s.appended parent entry
  refused : ∀ {id : NodeId} {e : Entry}, s.entry? id = some e →
    e.node.item.kind.isContainer = false → ∀ entry,
      (appendInPlace (some id) entry).run.run s = some (.error (.leafParent e.node.item.kind), s)
  grown : ∀ {parent : Option NodeId}, (∀ id ∈ parent, ∃ e, s.entry? id = some e ∧
    e.node.item.kind.isContainer = true) → ∀ entry, ∃ s', s.append parent entry = .ok s' ∧
      (appendInPlace parent entry).run.run s = some (.ok s.size, s') ∧
      s.Grows parent entry.node s'

theorem Linked.climbs_iff (h : s.Linked) (hid : id < s.size) (n : Nat) :
    s.Climbs id n ↔ n = s.depth id := by
  obtain ⟨m, hm⟩ := h.exists_climbs hid
  refine ⟨fun hn => (hn.depth_eq h).symm, ?_⟩
  rintro rfl
  rwa [hm.depth_eq h]

theorem Linked.before (h : s.Linked) (hid : s.parent? id = some (some p)) :
    [p, id].Sublist (s.outline.map (·.id)) := by
  obtain ⟨ids, hids, hmem⟩ := h.listed hid
  have hp : p < s.size := (h.older hid).trans (lt_size_of_parent hid)
  have hin : p ∈ s.outline.map (·.id) := h.outline_perm.mem_iff.2 (List.mem_range.2 hp)
  obtain ⟨v, hv, rfl⟩ := List.mem_map.1 hin
  exact h.traversed.sublist v hv id (by rwa [childrenOf, hids, Option.getD_some])

theorem Linked.walks_iff (h : s.Linked) (ids : List NodeId) :
    s.Walks s.top ids ↔ ids = s.outline.map (·.id) := by
  have hw : s.Walks s.top (s.outline.map (·.id)) := by
    simpa using h.traversed.walks .done
  refine ⟨fun hids => hids.unique hw, ?_⟩
  rintro rfl
  exact hw

theorem Linked.level (h : s.Linked) : ∀ v ∈ s.outline, v.depth = s.depth v.id := by
  intro v hv
  have hclimbs := h.traversed.climbs h (fun id hid => .top (h.parent_top hid)) v hv
  exact (hclimbs.depth_eq h).symm

theorem Linked.once (h : s.Linked) (hid : id < s.size) : ∃ owner, s.parent? id = some owner ∧
    (s.children? owner).isSome ∧ ∀ {other : Option NodeId} {ids : List NodeId},
      s.children? other = some ids → ids.count id = if other = owner then 1 else 0 := by
  obtain ⟨owner, howner⟩ := exists_parent hid
  obtain ⟨ids, hids, -⟩ := h.listed howner
  exact ⟨owner, howner, by rw [hids, Option.isSome_some], fun hother => h.count_eq howner hother⟩

/-- Every sheet that can be made is an arena. -/
theorem arena_of_reached (h : s.Reached) : s.Arena where
  once := h.linked.once
  held hids id hid := lt_size_of_parent (h.linked.owned hids id hid)
  older := h.linked.older
  sorted := h.linked.sorted
  climbs := h.linked.climbs_iff
  traversed := h.linked.traversed
  walks := h.linked.walks_iff
  perm := h.linked.outline_perm
  before := h.linked.before
  level := h.linked.level
  appended := run_appendInPlace s
  refused he hleaf entry := by rw [run_appendInPlace, appended, append_leaf he hleaf]
  grown hparent entry := by
    obtain ⟨s', ha⟩ := exists_append hparent entry
    exact ⟨s', ha, by rw [run_appendInPlace, appended, ha], grows_of_append ha⟩

/-- A comment that took the place of a rule keeps the child of the rule and takes no other one; its copy
comes with that child in its links, and is appended without it. -/
theorem arena_of_reached_comment_with_child :
    let source := Text.ofString "a\n  b: c\n"
    let comment : Node := { item := .comment ⟨['k'], .block, none, none, none⟩ }
    let copied : Entry := ⟨comment, none, [1]⟩
    ∃ s s', parse "in" source = .ok s ∧ Sheet.entry? (s.setNode 0 comment) 0 = some copied ∧
      (s.setNode 0 comment).append none copied = .ok s' ∧
      s'.Arena ∧ s'.entries.map (fun e => (e.node.item.kind, e.parent, e.children)) =
        [(.comment, none, [1]), (.declaration, some 0, []), (.comment, none, [])] := by
  intro source comment copied
  have hentries : (parse "in" source).toOption.map (fun s =>
      ((s.setNode 0 comment).append none copied).toOption.map fun s' =>
        s'.entries.map fun e => (e.node.item.kind, e.parent, e.children)) =
      some (some [(.comment, none, [1]), (.declaration, some 0, []), (.comment, none, [])]) := by
    decide +kernel
  have hcopied : (parse "in" source).toOption.map (fun s => Sheet.entry? (s.setNode 0 comment) 0) =
      some (some copied) := by decide +kernel
  obtain ⟨s, h, hs⟩ := exists_of_map_parse hentries
  rw [h] at hcopied
  obtain ⟨s', hs'⟩ : ∃ s', (s.setNode 0 comment).append none copied = .ok s' := ⟨_, rfl⟩
  rw [hs'] at hs
  exact ⟨s, s', h, Option.some.inj hcopied, hs',
    arena_of_reached (((Reached.parse h).setNode 0 comment).append hs'), Option.some.inj hs⟩

end OffsideCss.Sheet
