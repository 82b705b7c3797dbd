import OffsideCss.Layout

/-! Where the nodes of a sheet were read and where they are written.  The map has one entry for the
start of each node with a source, and one more for the end of each leaf. -/

namespace OffsideCss

/-- The position of a written character and the position it was read at. -/
structure Mapping where
  written : Position
  read : Position
deriving DecidableEq, Repr

/-- A place in a text that is being written. -/
structure Cursor where
  next : Position := .first
  /-- The position of the last character, if there is one. -/
  last : Option Position := none
deriving DecidableEq, Repr

namespace Cursor

/-- The cursor behind one more character.  Its line and its column are counters. -/
def step (c : Cursor) (d : Char) : Cursor where
  next := (c.next.next d).wrap
  last := some c.next

/-- The cursor behind a text. -/
def write (c : Cursor) (t : Text) : Cursor := t.foldl step c

variable {c : Cursor} {p : Position}

/-- The cursor behind two texts is the one behind both of them together. -/
theorem write_append (c : Cursor) (t u : Text) : c.write (t ++ u) = (c.write t).write u :=
  List.foldl_append

theorem next_write (h : c.next = p.wrap) (t : Text) : (c.write t).next = (p.after t).wrap := by
  induction t generalizing c p with
  | nil => exact h
  | cons d t ih => exact ih (by rw [step, h, Position.wrap_next_wrap])

theorem last_write_concat (h : c.next = p.wrap) (t : Text) (d : Char) :
    (c.write (t ++ [d])).last = some (p.after t).wrap := by
  rw [write_append, ← next_write h t]
  rfl

end Cursor

namespace Passage

/-- The mapping of the start of a passage, which is where its own text begins. -/
def startMapping (c : Cursor) (p : Passage) : List Mapping :=
  match p.source with
  | some source => [⟨(c.write p.lead).next, source.start⟩]
  | none => []

/-- The mapping of the end of a leaf, which is the last character written so far. -/
def stopMapping (c : Cursor) (p : Passage) : List Mapping :=
  match p.source, (c.write p.text).last with
  | some source, some last => if p.kind.isContainer then [] else [⟨last, source.stop⟩]
  | _, _ => []

def mappingsFrom (c : Cursor) : List Passage → List Mapping
  | [] => []
  | p :: rest => p.startMapping c ++ p.stopMapping c ++ mappingsFrom (c.write p.text) rest

end Passage

/-- How a map is to be attached to the text it belongs to. -/
structure Attachment where
  /-- Whether the map goes into the text. -/
  inline : Bool
  /-- Whether a comment in the text points at the map. -/
  annotation : Bool
deriving DecidableEq, Repr

/-- The mappings of a written sheet, in the order of the text. -/
structure PositionMap where
  /-- The name of the input that the sheet was read from. -/
  input : Option String
  mappings : List Mapping
  attachment : Attachment
deriving DecidableEq, Repr

/-- The position that the character written at `written` was read at, if the map has it. -/
def PositionMap.read? (m : PositionMap) (written : Position) : Option Position :=
  (m.mappings.find? (·.written = written)).map (·.read)

namespace Sheet

/-- The mappings of a sheet as it is written. -/
def mappings (s : Sheet) (spacing : Spacing) : List Mapping :=
  Passage.mappingsFrom {} (s.passages spacing)

def positionMap (s : Sheet) (spacing : Spacing) (attachment : Attachment) : PositionMap :=
  ⟨s.origin.map (·.name), s.mappings spacing, attachment⟩

end Sheet

structure Written where
  text : Text
  /-- The map of the text, if one was asked for. -/
  map : Option PositionMap
deriving DecidableEq, Repr

/-- Writes a sheet, with a map that is to be attached in a given way or without one. -/
def Sheet.stringify (s : Sheet) (spacing : Spacing) (attachment : Option Attachment) : Written :=
  ⟨s.write spacing, attachment.map (s.positionMap spacing)⟩

end OffsideCss
