import Mathlib.Data.List.Induction
import Mathlib.Data.List.TakeWhile
import OffsideCss.Proofs.Building

/-! Where nodes sit.  The widths of the nodes before a node tell which of them holds it: the nearest one
that is less wide, or the one that holds that one if it is a leaf.  `host` says this of a list of nodes
with what holds them, and grows with the list. -/

namespace OffsideCss

/-- The characters of a text behind its last line feed. -/
def Text.lastLine (t : Text) : Text := (t.reverse.takeWhile (· ≠ '\n')).reverse

theorem Text.lastLine_append {t u : Text} (ht : t = [] ∨ t.getLast? = some '\n') (hu : '\n' ∉ u) :
    (t ++ u).lastLine = u := by
  have hrun : u.reverse.takeWhile (fun c => decide (c ≠ '\n')) = u.reverse := by
    rw [List.takeWhile_eq_self_iff]
    intro c hc
    rw [decide_eq_true_eq]
    rintro rfl
    exact hu (List.mem_reverse.1 hc)
  have hstop : t.reverse.takeWhile (fun c => decide (c ≠ '\n')) = [] := by
    rcases ht with rfl | ht
    · rfl
    · obtain ⟨front, rfl⟩ := List.getLast?_eq_some_iff.1 ht
      simp
  rw [lastLine, List.reverse_append, List.takeWhile_append, hrun, if_pos rfl, hstop,
    List.append_nil, List.reverse_reverse]

/-- What stands before a node on its line. -/
def Node.indentation (n : Node) : Text := (n.before.getD []).lastLine

/-- The width of the indentation of a node, in characters. -/
def Node.width (n : Node) : Nat := n.indentation.length

/-- A node and the one that holds it. -/
structure Seat where
  node : Node
  parent : Option NodeId

namespace Seat

variable {seats pre post : List Seat} {q : Seat} {width : Nat}

/-- What a seat, which is that of the node `id`, holds the nodes that are nested in it with. -/
def holder (id : NodeId) (q : Seat) : Option NodeId :=
  if q.node.item.kind.isContainer then some id else q.parent

/-- What holds a node of that width behind the nodes of some seats. -/
def host (seats : List Seat) (width : Nat) : Option NodeId :=
  seats.zipIdx.foldl (fun found q => if q.1.node.width < width then q.1.holder q.2 else found) none

theorem host_nil : host [] width = none := rfl

theorem host_concat : host (seats ++ [q]) width =
    if q.node.width < width then q.holder seats.length else host seats width := by
  simp [host, List.zipIdx_append]

/-- Seats that are no less wide change nothing. -/
theorem host_append (h : ∀ r ∈ post, width ≤ r.node.width) :
    host (seats ++ post) width = host seats width := by
  induction post using List.reverseRecOn with
  | nil => rw [List.append_nil]
  | append_singleton post r ih =>
    have hr : width ≤ r.node.width := h r (by simp)
    rw [← List.append_assoc, host_concat, if_neg (Nat.not_lt.2 hr)]
    apply ih
    intro r' hr'
    exact h r' (List.mem_append_left _ hr')

theorem host_eq_none (h : ∀ r ∈ seats, width ≤ r.node.width) : host seats width = none := by
  rw [← List.nil_append seats, host_append h, host_nil]

theorem host_eq_holder (hq : q.node.width < width) (h : ∀ r ∈ post, width ≤ r.node.width) :
    host (pre ++ q :: post) width = q.holder pre.length := by
  rw [← List.singleton_append, ← List.append_assoc, host_append h, host_concat, if_pos hq]

/-- The seats before a seat and those behind it. -/
theorem exists_split {n : Nat} (h : seats[n]? = some q) :
    ∃ pre post, seats = pre ++ q :: post ∧ pre.length = n := by
  obtain ⟨hlt, rfl⟩ := List.getElem?_eq_some_iff.1 h
  refine ⟨seats.take n, seats.drop (n + 1), ?_, ?_⟩
  · rw [← List.drop_eq_getElem_cons, List.take_append_drop]
  · exact List.length_take_of_le (Nat.le_of_lt hlt)

/-- Either no seat is less wide, or there is a last one that is. -/
theorem nearest (seats : List Seat) (width : Nat) : (∀ r ∈ seats, width ≤ r.node.width) ∨
    ∃ pre q post, seats = pre ++ q :: post ∧ q.node.width < width ∧
      ∀ r ∈ post, width ≤ r.node.width := by
  induction seats using List.reverseRecOn with
  | nil => exact .inl (by simp)
  | append_singleton seats q ih =>
    by_cases hq : q.node.width < width
    · exact .inr ⟨seats, q, [], rfl, hq, by simp⟩
    · have hq : width ≤ q.node.width := Nat.not_lt.1 hq
      rcases ih with hall | ⟨pre, r, post, rfl, hr, hpost⟩
      · exact .inl (List.forall_mem_append.2 ⟨hall, List.forall_mem_singleton.2 hq⟩)
      · exact .inr ⟨pre, r, post ++ [q], by simp, hr,
          List.forall_mem_append.2 ⟨hpost, List.forall_mem_singleton.2 hq⟩⟩

/-- Whether each of the nodes of some seats is held as the widths before it tell. -/
inductive Hosted : List Seat → Prop
  | nil : Hosted []
  | concat {seats : List Seat} {q : Seat} :
      Hosted seats → q.parent = host seats q.node.width → Hosted (seats ++ [q])

theorem Hosted.parent_eq (h : Hosted seats) (hs : seats = pre ++ q :: post) :
    q.parent = host pre q.node.width := by
  induction h generalizing post with
  | nil => simp at hs
  | @concat seats r _ hr ih =>
    rcases List.eq_nil_or_concat post with rfl | ⟨post, last, rfl⟩
    · obtain ⟨rfl, hlast⟩ := List.append_inj' hs rfl
      obtain rfl : r = q := List.head_eq_of_cons_eq hlast
      exact hr
    · rw [List.concat_eq_append, ← List.cons_append, ← List.append_assoc] at hs
      exact ih (List.append_inj' hs rfl).1

end Seat

namespace Sheet

/-- The seats of the nodes of a sheet, by number. -/
def seats (s : Sheet) : List Seat := s.entries.map fun e => ⟨e.node, e.parent⟩

variable {s s' : Sheet} {parent : Option NodeId} {entry : Entry}

theorem length_seats (s : Sheet) : s.seats.length = s.size := by
  rw [seats, List.length_map, size]

theorem getElem?_seats {n : NodeId} {e : Entry} (h : s.entry? n = some e) :
    s.seats[n]? = some ⟨e.node, e.parent⟩ := by
  rw [seats, List.getElem?_map, show s.entries[n]? = some e from h]
  rfl

theorem exists_entry {n : NodeId} {q : Seat} (h : s.seats[n]? = some q) :
    ∃ e, s.entry? n = some e ∧ q = ⟨e.node, e.parent⟩ := by
  rw [seats, List.getElem?_map, Option.map_eq_some_iff] at h
  obtain ⟨e, he, rfl⟩ := h
  exact ⟨e, he, rfl⟩

/-- A node that is appended takes the next seat, and no other node changes its own. -/
theorem seats_of_append (h : s.append parent entry = .ok s') :
    s'.seats = s.seats ++ [⟨entry.node, parent⟩] := by
  cases parent with
  | none =>
    obtain rfl := Except.ok.inj h
    simp [seats]
  | some id =>
    obtain ⟨e, he, hcontainer⟩ := isContainer_of_append h
    rw [append_child he hcontainer, Except.ok.injEq] at h
    have hset : (s.entries.set id { e with children := e.children ++ [s.size] }).map
        (fun e => (⟨e.node, e.parent⟩ : Seat)) = s.seats := by
      obtain ⟨hlt, hseat⟩ := List.getElem?_eq_some_iff.1 (getElem?_seats he)
      rw [List.map_set, ← seats, ← hseat, List.set_getElem_self]
    rw [← h, seats, List.map_append, hset]
    rfl

theorem indent_of_append (h : s.append parent entry = .ok s') : s'.indent = s.indent := by
  cases parent with
  | none =>
    obtain rfl := Except.ok.inj h
    rfl
  | some id =>
    obtain ⟨e, he, hcontainer⟩ := isContainer_of_append h
    rw [append_child he hcontainer, Except.ok.injEq] at h
    rw [← h]

end Sheet

end OffsideCss
