import OffsideCss.Proofs.Building
import OffsideCss.Proofs.RoundTrip
import OffsideCss.Sheet.InPlace

/-! The links of a sheet.  Whatever was appended to a sheet and changed in it, each node is in one list
of children, that of its parent, and has a larger number than its parent.  An append that is refused
changes nothing, and another one adds the node and nothing else. -/

namespace OffsideCss.Sheet

/-- The sheets that can be made: an empty one, one that was read, and what appending, putting any node
in the place of another one, and changing what surrounds the nodes make of them.  What is appended can
be a copy of a node with its place in a sheet, its links included.  Appending to a number that no node
has makes no sheet. -/
inductive Reached : Sheet → Prop
  | empty : Reached Sheet.empty
  | parse {name : String} {source : Text} {s : Sheet} : parse name source = .ok s → Reached s
  | append {s s' : Sheet} {parent : Option NodeId} {entry : Entry} :
      Reached s → s.append parent entry = .ok s' → Reached s'
  | setNode {s : Sheet} (id : NodeId) (node : Node) : Reached s → Reached (s.setNode id node)
  | surround {s : Sheet} (after : Text) (indent : Option Text) (origin : Option Origin) :
      Reached s → Reached { s with after, indent, origin }

/-- What a node of the sheet is nested in, with `none` for the top. -/
def parent? (s : Sheet) (id : NodeId) : Option (Option NodeId) := (s.entry? id).map (·.parent)

/-- Whether each node is in the list of children of its parent and in no other one, and numbers grow
from a node to its children and from one child to the next. -/
structure Linked (s : Sheet) : Prop where
  older : ∀ {id p : NodeId}, s.parent? id = some (some p) → p < id
  listed : ∀ {id : NodeId} {owner : Option NodeId}, s.parent? id = some owner →
    ∃ ids, s.children? owner = some ids ∧ id ∈ ids
  owned : ∀ {owner : Option NodeId} {ids : List NodeId}, s.children? owner = some ids →
    ∀ id ∈ ids, s.parent? id = some owner
  sorted : ∀ {owner : Option NodeId} {ids : List NodeId}, s.children? owner = some ids →
    ids.Pairwise (· < ·)

/-- Whether a sheet has one more node, at the end of one list of children, and is the same
otherwise. -/
structure Grows (s : Sheet) (parent : Option NodeId) (node : Node) (s' : Sheet) : Prop where
  entries : ∀ id, s'.entry? id = if id = s.size then some ⟨node, parent, []⟩ else
    (s.entry? id).map fun e =>
      if parent = some id then { e with children := e.children ++ [s.size] } else e
  top : s'.top = if parent = none then s.top ++ [s.size] else s.top
  after : s'.after = s.after
  indent : s'.indent = s.indent
  origin : s'.origin = s.origin

variable {s s' : Sheet} {parent owner : Option NodeId} {node : Node} {id : NodeId} {e entry : Entry}
  {ids : List NodeId}

/-! ### Appending in place -/

section Run

variable {σ ε α β : Type} (s : σ)

theorem run_get_bind (f : σ → ExceptT ε (StateT σ Option) β) :
    (get >>= f).run.run s = (f s).run.run s := rfl

theorem run_modify_bind (g : σ → σ) (f : PUnit → ExceptT ε (StateT σ Option) β) :
    (modify g >>= f).run.run s = (f ⟨⟩).run.run (g s) := rfl

theorem run_lift_bind (o : Option α) (f : α → ExceptT ε (StateT σ Option) β) :
    ((liftM o : ExceptT ε (StateT σ Option) α) >>= f).run.run s =
      o.bind fun a => (f a).run.run s := by
  cases o <;> rfl

end Run

/-- What `append` tells of appending in place: the number of the new node and the sheet with it, or a
refusal and the sheet as it was, or that there is no answer. -/
def appended (s : Sheet) (parent : Option NodeId) (entry : Entry) :
    Option (Except AppendError NodeId × Sheet) :=
  match s.append parent entry with
  | .ok s' => some (.ok s.size, s')
  | .error (.leafParent kind) => some (.error (.leafParent kind), s)
  | .error (.unknownParent _) => none

/-- Appending in place does what `append` does, and a refusal leaves the sheet as it was. -/
theorem run_appendInPlace (s : Sheet) (parent : Option NodeId) (entry : Entry) :
    (appendInPlace parent entry).run.run s = s.appended parent entry := by
  cases parent with
  | none => rfl
  | some id =>
    unfold appendInPlace appended append
    rw [run_get_bind, run_lift_bind]
    cases he : s.entry? id with
    | none =>
      simp only [he]
      rfl
    | some e =>
      rw [Option.bind_some]
      cases hcontainer : e.node.item.kind.isContainer with
      | false =>
        simp only [he, hcontainer]
        rfl
      | true =>
        simp only [he, hcontainer, if_true]
        rw [run_get_bind, run_modify_bind, run_get_bind, run_lift_bind]
        -- the owner stands before the new node, so it is still found where it was
        obtain ⟨hlt, rfl⟩ := List.getElem?_eq_some_iff.1 he
        rw [ entry?, List.getElem?_append_left hlt, List.getElem?_eq_getElem hlt, Option.bind_some,
          run_modify_bind, List.set_append_left _ _ hlt]
        rfl

/-- Something can be appended to the top and to each container. -/
theorem exists_append (hparent : ∀ id ∈ parent, ∃ e, s.entry? id = some e ∧
    e.node.item.kind.isContainer = true) (entry : Entry) : ∃ s', s.append parent entry = .ok s' := by
  cases parent with
  | none => exact ⟨_, rfl⟩
  | some id =>
    obtain ⟨e, he, hcontainer⟩ := hparent id rfl
    exact ⟨_, append_child he hcontainer entry⟩

theorem append_leaf (he : s.entry? id = some e) (hleaf : e.node.item.kind.isContainer = false)
    (entry : Entry) : s.append (some id) entry = .error (.leafParent e.node.item.kind) := by
  simp [append, he, hleaf]

theorem entry?_of_size_le (h : s.size ≤ id) : s.entry? id = none :=
  List.getElem?_eq_none h

theorem grows_of_append (h : s.append parent entry = .ok s') : s.Grows parent entry.node s' := by
  cases parent with
  | none =>
    obtain rfl := Except.ok.inj h
    refine ⟨fun id => ?_, rfl, rfl, rfl, rfl⟩
    split
    · next hid =>
      rw [hid]
      exact List.getElem?_concat_length
    · next hid =>
      simp only [reduceCtorEq, if_false, Option.map_id']
      by_cases hlt : id < s.size
      · unfold entry?
        rw [List.getElem?_append_left hlt]
      · have hgt : s.size < id := Nat.lt_of_le_of_ne (Nat.le_of_not_lt hlt) (Ne.symm hid)
        rw [ entry?_of_size_le (Nat.le_of_lt hgt), entry?_of_size_le]
        simpa [size, Nat.succ_le_iff] using hgt
  | some owner =>
    obtain ⟨e, he, hcontainer⟩ := isContainer_of_append h
    have hextends := extends_of_append he hcontainer h
    obtain ⟨e', he', -, hlast⟩ := hextends.owner
    obtain rfl : e = e' := Option.some.inj (he.symm.trans he')
    rw [append_child he hcontainer, Except.ok.injEq] at h
    refine ⟨fun id => ?_, by rw [← h, if_neg (Option.some_ne_none _)], by rw [← h], by rw [← h],
      by rw [← h]⟩
    split
    · next hid =>
      rw [hid, ← h]
      simp [size, entry?]
    · next hid =>
      by_cases howner : id = owner
      · rw [howner, hlast, he, Option.map_some, if_pos rfl]
      · have hne : some owner ≠ some id := fun heq => howner (Option.some.inj heq).symm
        rw [hextends.others id howner hid]
        simp only [if_neg hne, Option.map_id']

/-! ### What a change does to the links -/

theorem lt_size_of_parent (h : s.parent? id = some owner) : id < s.size := by
  obtain ⟨e, he, -⟩ := Option.map_eq_some_iff.1 h
  exact lt_size_of_entry he

theorem exists_parent (h : id < s.size) : ∃ owner, s.parent? id = some owner :=
  ⟨_, by rw [parent?, entry?, List.getElem?_eq_getElem h, Option.map_some]⟩

/-- What a change of the entries leaves alone can be read before it. -/
theorem map_map_eq {α : Type} {f : Entry → α} {g : Entry → Entry} (h : ∀ e, f (g e) = f e)
    (o : Option Entry) : (o.map g).map f = o.map f := by
  rw [Option.map_map]
  exact congrArg (fun k => o.map k) (funext h)

theorem Grows.parent?_eq (h : s.Grows parent node s') (id : NodeId) :
    s'.parent? id = if id = s.size then some parent else s.parent? id := by
  rw [parent?, h.entries]
  split
  · rfl
  · exact map_map_eq (fun e => by split <;> rfl) _

theorem Grows.children?_eq (h : s.Grows parent node s') (owner : Option NodeId) :
    s'.children? owner = if owner = some s.size then some [] else
      (s.children? owner).map fun ids => if parent = owner then ids ++ [s.size] else ids := by
  cases owner with
  | none =>
    rw [if_neg (Option.some_ne_none _).symm]
    exact congrArg some h.top
  | some id =>
    rw [children?, h.entries]
    by_cases hid : id = s.size
    · rw [if_pos hid, if_pos (congrArg some hid), Option.map_some]
    · rw [if_neg hid, if_neg (by simpa using hid), Option.map_map, children?, Option.map_map]
      congr 1
      funext e
      simp only [Function.comp_apply]
      split <;> rfl

/-- Links do not depend on what the nodes are. -/
theorem Linked.congr (h : s.Linked) (hp : ∀ id, s'.parent? id = s.parent? id)
    (hc : ∀ owner, s'.children? owner = s.children? owner) : s'.Linked where
  older hid := h.older ((hp _).symm.trans hid)
  listed hid := by
    obtain ⟨ids, hids, hmem⟩ := h.listed ((hp _).symm.trans hid)
    exact ⟨ids, (hc _).trans hids, hmem⟩
  owned howner id hid := (hp id).trans (h.owned ((hc _).symm.trans howner) id hid)
  sorted howner := h.sorted ((hc _).symm.trans howner)

theorem entry?_setNode (s : Sheet) (id i : NodeId) (node : Node) :
    Sheet.entry? (s.setNode id node) i =
    (s.entry? i).map fun e => if id = i then { e with node } else e := by
  unfold entry?
  rw [setNode, List.getElem?_modify]
  rfl

theorem Linked.setNode (h : s.Linked) (id : NodeId) (node : Node) : (s.setNode id node).Linked := by
  refine h.congr (fun i => ?_) fun owner => ?_
  · rw [parent?, entry?_setNode]
    exact map_map_eq (fun e => by split <;> rfl) _
  · cases owner with
    | none => rfl
    | some i =>
      rw [children?, entry?_setNode]
      exact map_map_eq (fun e => by split <;> rfl) _

theorem Linked.surround (h : s.Linked) (after : Text) (indent : Option Text)
    (origin : Option Origin) : Linked { s with after, indent, origin } :=
  h.congr (fun _ => rfl) fun owner => by cases owner <;> rfl

theorem Linked.empty : Sheet.empty.Linked where
  older h := by simp [parent?, entry?, Sheet.empty] at h
  listed h := by simp [parent?, entry?, Sheet.empty] at h
  owned {owner ids} h id hid := by
    cases owner with
    | none =>
      obtain rfl : [] = ids := Option.some.inj h
      simp at hid
    | some p => simp [children?, entry?, Sheet.empty] at h
  sorted {owner ids} h := by
    cases owner with
    | none =>
      obtain rfl : [] = ids := Option.some.inj h
      exact .nil
    | some p => simp [children?, entry?, Sheet.empty] at h

theorem exists_children_of_append (h : s.append parent entry = .ok s') :
    parent ≠ some s.size ∧ ∃ ids, s.children? parent = some ids := by
  cases parent with
  | none => exact ⟨(Option.some_ne_none _).symm, s.top, rfl⟩
  | some p =>
    obtain ⟨e, he, -⟩ := isContainer_of_append h
    refine ⟨fun hp => Nat.ne_of_lt (lt_size_of_entry he) (Option.some.inj hp), e.children, ?_⟩
    rw [children?, he, Option.map_some]

/-- A list of children behind an append is that of the new node, which is empty, or the one that it
was, with the new node at its end if it is the one appended to. -/
theorem Grows.children_cases (h : s.Grows parent node s') (hids : s'.children? owner = some ids) :
    owner = some s.size ∧ ids = [] ∨ ∃ ids₀, s.children? owner = some ids₀ ∧
      ids = if parent = owner then ids₀ ++ [s.size] else ids₀ := by
  rw [h.children?_eq] at hids
  split at hids
  · next howner => exact .inl ⟨howner, (Option.some.inj hids).symm⟩
  · obtain ⟨ids₀, hids₀, rfl⟩ := Option.map_eq_some_iff.1 hids
    exact .inr ⟨ids₀, hids₀, rfl⟩

theorem Linked.lt_size (h : s.Linked) (hids : s.children? owner = some ids) (hid : id ∈ ids) :
    id < s.size :=
  lt_size_of_parent (h.owned hids id hid)

theorem Linked.append (h : s.Linked) (ha : s.append parent entry = .ok s') : s'.Linked := by
  have hgrows := grows_of_append ha
  obtain ⟨hne, children, hchildren⟩ := exists_children_of_append ha
  constructor
  case older =>
    intro id p hid
    rw [hgrows.parent?_eq] at hid
    split at hid
    · next hsize =>
      obtain rfl := Option.some.inj hid
      obtain ⟨e, he, -⟩ := isContainer_of_append ha
      exact hsize ▸ lt_size_of_entry he
    · exact h.older hid
  case listed =>
    intro id owner hid
    rw [hgrows.parent?_eq] at hid
    split at hid
    · next hsize =>
      obtain rfl := Option.some.inj hid
      refine ⟨children ++ [s.size], ?_, by simp [hsize]⟩
      rw [hgrows.children?_eq, if_neg hne, hchildren, Option.map_some, if_pos rfl]
    · obtain ⟨ids, hids, hmem⟩ := h.listed hid
      have howner : owner ≠ some s.size := by
        rintro rfl
        exact Nat.lt_asymm (h.older hid) (lt_size_of_parent hid)
      refine ⟨if parent = owner then ids ++ [s.size] else ids, ?_, ?_⟩
      · rw [hgrows.children?_eq, if_neg howner, hids, Option.map_some]
      · split
        · exact List.mem_append_left _ hmem
        · exact hmem
  case owned =>
    intro owner ids hids id hid
    rw [hgrows.parent?_eq]
    rcases hgrows.children_cases hids with ⟨-, rfl⟩ | ⟨ids₀, hids₀, rfl⟩
    · simp at hid
    · have hmem : id ∈ ids₀ ∨ id = s.size ∧ parent = owner := by
        split at hid
        · next howner => simpa [howner] using hid
        · exact .inl hid
      rcases hmem with hmem | ⟨hsize, howner⟩
      · rw [if_neg (Nat.ne_of_lt (h.lt_size hids₀ hmem))]
        exact h.owned hids₀ id hmem
      · rw [if_pos hsize, howner]
  case sorted =>
    intro owner ids hids
    rcases hgrows.children_cases hids with ⟨-, rfl⟩ | ⟨ids₀, hids₀, rfl⟩
    · exact .nil
    · split
      · refine List.pairwise_append.2 ⟨h.sorted hids₀, List.pairwise_singleton _ _, ?_⟩
        intro id hid last hlast
        rw [List.mem_singleton.1 hlast]
        exact h.lt_size hids₀ hid
      · exact h.sorted hids₀

/-! ### Reading -/

theorem Linked.enter {d d' : Draft} {l : Line} (h : d.sheet.Linked) (he : d.enter l = .ok d') :
    d'.sheet.Linked := by
  cases Draft.entered_of_enter he with
  | stays => exact h
  | opens =>
    dsimp only
    split
    · exact h.surround d.sheet.after (some l.indent) d.sheet.origin
    · exact h

theorem Linked.add {d d' : Draft} {t : Statement} (h : d.sheet.Linked) (ha : d.add t = .ok d') :
    d'.sheet.Linked := by
  obtain ⟨d₁, node, sheet, he, -, hsheet, rfl⟩ := Draft.add_eq_ok ha
  exact (h.enter he).append hsheet

theorem Linked.foldlM {d d' : Draft} {ts : List Statement} (h : d.sheet.Linked)
    (hf : ts.foldlM Draft.add d = .ok d') : d'.sheet.Linked :=
  invariant_of_foldlM (P := fun _ d => d.sheet.Linked) h (fun _ _ _ _ _ hd ha => hd.add ha) hf

theorem linked_of_parse {name : String} {source : Text} (h : parse name source = .ok s) :
    s.Linked := by
  obtain ⟨_, draft, -, hdraft, hs⟩ := draft_of_parse h
  rw [hs]
  exact (Linked.foldlM Linked.empty hdraft).surround _ _ _

theorem Reached.linked (h : s.Reached) : s.Linked := by
  induction h with
  | empty => exact .empty
  | parse h => exact linked_of_parse h
  | append _ ha ih => exact ih.append ha
  | setNode id node _ ih => exact ih.setNode id node
  | surround after indent origin _ ih => exact ih.surround after indent origin

theorem Built.linked (h : s.Built) : s.Linked := by
  induction h with
  | @fresh s hentries htop =>
    obtain ⟨entries, top, after, indent, origin⟩ := s
    obtain ⟨rfl, rfl⟩ : entries = [] ∧ top = [] := ⟨hentries, htop⟩
    exact Linked.empty.surround after indent origin
  | append _ ha ih => exact ih.append ha

end OffsideCss.Sheet
