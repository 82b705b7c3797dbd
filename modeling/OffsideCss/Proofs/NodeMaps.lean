import OffsideCss.Proofs.Arena

/-! Changing every node.  A sheet whose nodes are changed each by itself keeps its links, and its
outline lists the changed nodes where it listed the old ones. -/

namespace OffsideCss.Sheet

/-- A sheet with each of its nodes changed, in a way that may depend on the number of the node. -/
def mapNodes (s : Sheet) (f : NodeId → Node → Node) : Sheet :=
  { s with entries := s.entries.mapIdx fun id e => { e with node := f id e.node } }

/-- A visit with the visited node changed. -/
def Visit.map (f : NodeId → Node → Node) (v : Visit) : Visit := { v with node := f v.id v.node }

/-- Whether the nodes of a sheet are those of another one, each of them changed. -/
structure Revises (f : NodeId → Node → Node) (s s' : Sheet) : Prop where
  entries : ∀ id, s'.entry? id = (s.entry? id).map fun e => { e with node := f id e.node }
  size : s'.size = s.size
  top : s'.top = s.top

variable {s s' : Sheet} {f g : NodeId → Node → Node}

theorem revises_mapNodes (s : Sheet) (f : NodeId → Node → Node) : Revises f s (s.mapNodes f) where
  entries _ := List.getElem?_mapIdx
  size := List.length_mapIdx
  top := rfl

theorem Revises.surround (h : Revises f s s') (after : Text) (indent : Option Text)
    (origin : Option Origin) : Revises f s { s' with after, indent, origin } :=
  ⟨h.entries, h.size, h.top⟩

theorem Revises.trans {s'' : Sheet} (h : Revises f s s') (h' : Revises g s' s'') :
    Revises (fun id n => g id (f id n)) s s'' where
  entries id := by
    rw [h'.entries, h.entries, Option.map_map]
    rfl
  size := h'.size.trans h.size
  top := h'.top.trans h.top

namespace Revises

theorem parent?_eq (h : Revises f s s') (id : NodeId) : s'.parent? id = s.parent? id := by
  rw [parent?, h.entries, Option.map_map]
  rfl

theorem children?_eq (h : Revises f s s') (owner : Option NodeId) :
    s'.children? owner = s.children? owner := by
  cases owner with
  | none => exact congrArg some h.top
  | some id =>
    rw [children?, h.entries, Option.map_map]
    rfl

theorem outlineFrom_eq (h : Revises f s s') (fuel depth : Nat) (ids : List NodeId) :
    s'.outlineFrom fuel depth ids = (s.outlineFrom fuel depth ids).map (Visit.map f) := by
  induction fuel generalizing depth ids with
  | zero => rfl
  | succ fuel ih =>
    rw [outlineFrom, outlineFrom, List.map_flatMap]
    congr 1
    funext id
    rw [h.entries]
    cases s.entry? id with
    | none => rfl
    | some e => exact congrArg _ (ih (depth + 1) e.children)

theorem outline_eq (h : Revises f s s') : s'.outline = s.outline.map (Visit.map f) := by
  rw [outline, h.size, h.top, h.outlineFrom_eq, outline]

end Revises

/-- Sheets with outlines of which one is the other one changed are written alike where the visited
nodes are. -/
theorem passages_congr {spacing spacing' : Spacing} {k : Visit → Visit}
    (houtline : s'.outline = s.outline.map k) (h : ∀ isFirst, ∀ v ∈ s.outline,
      s'.passage spacing' isFirst (k v) = s.passage spacing isFirst v) :
    s'.passages spacing' = s.passages spacing := by
  rw [passages, passages, houtline]
  cases ho : s.outline with
  | nil => rfl
  | cons v vs =>
    rw [ho] at h
    have hrest : vs.map (s'.passage spacing' false ∘ k) = vs.map (s.passage spacing false) :=
      List.map_congr_left fun w hw => h false w (List.mem_cons_of_mem _ hw)
    rw [List.map_cons]
    simp only
    rw [h true v List.mem_cons_self, List.map_map, hrest]

end OffsideCss.Sheet
