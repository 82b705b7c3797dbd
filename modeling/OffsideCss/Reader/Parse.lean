import OffsideCss.Reader.Items
import OffsideCss.Reader.Levels
import OffsideCss.Sheet.InPlace

/-! Reading a text as a sheet by offsets.  The parts of the text are read one statement at a time, from
an index on, and each node is appended in place.  There is no answer where a part, a level, or a node is
looked for that is not there, and where a step reads no part. -/

namespace OffsideCss.Reader

/-- What is read. -/
structure Input where
  source : Text
  index : LineIndex
  parts : List Part
deriving DecidableEq, Repr

/-- How far the input was read. -/
structure State where
  /-- The index of the next part. -/
  pos : Nat := 0
  levels : Levels := {}
  sheet : Sheet := {}
deriving DecidableEq, Repr

variable (input : Input)

/-- The node that holds what is nested in the last node that `current` holds: that node if it can hold
others, and otherwise `current`. -/
def owner? (sheet : Sheet) (current : Option NodeId) : Option (Option NodeId) := do
  match (← sheet.children? current).getLast? with
  | none => return current
  | some last =>
    let e ← sheet.entry? last
    return if e.node.item.kind.isContainer then some last else current

/-- Finds the node that holds a part. -/
def place? (state : State) (part : Part) : Reading (Option NodeId × State) := do
  let (shift, levels) ← state.levels.enter? part.indent part.indentSpan
  let current := (← levels.top?).container
  match shift with
  | .deeper first =>
    let sheet := if first then { state.sheet with indent := some part.indent } else state.sheet
    let owner ← owner? sheet current
    return (owner, { state with sheet, levels := levels.openLevel ⟨part.width, owner⟩ })
  | _ => return (current, { state with levels })

/-- Whether the next of the parts from `pos` on that is no comment is deeper and reads as a
declaration. -/
def nestsDeclaration? (pos : Nat) (part : Part) : Option Bool := do
  let (_, following) ← splitAt? pos input.parts
  return (following.find? fun next => !next.isComment).any fun next =>
    !next.isAtRule && next.hasColon && part.width < next.width

/-- The kind of the statement that a part begins, behind which reading goes on at `pos`. -/
def kind? (pos : Nat) (part : Part) : Option NodeKind :=
  if part.isComment then some .comment
  else if part.isAtRule then some .atRule
  else if part.hasColon then do
    return if ← nestsDeclaration? input pos part then .rule else .declaration
  else some .rule

/-- Whether `next` continues a statement of that kind that begins with `first` and goes up to
`last`. -/
def continues (kind : NodeKind) (first last next : Part) : Bool :=
  match kind with
  | .comment => false
  | .atRule => last.endsWithComma
  | .rule => last.endsWithComma || (next.width = first.width && next.isPlain)
  | .declaration => first.width < next.width && next.isPlain

/-- The lexemes `ts` together with those of the parts from `pos` on that continue the statement, and
the index of the first part that does not. -/
def absorbFrom? (kind : NodeKind) (first : Part) (ts : List Lexeme) (pos : Nat) :
    Option (List Lexeme × Nat) :=
  match _ : input.parts[pos]? with
  | none => some (ts, pos)
  | some next => do
    let last ← input.parts[← Counter.sub? pos 1]?
    if continues kind first last next then
      let joint ← next.joint? input.source
      absorbFrom? kind first (ts ++ joint :: next.tokens) (pos + 1)
    else return (ts, pos)
termination_by input.parts.length - pos
decreasing_by
  have hpos := (List.getElem?_eq_some_iff.1 ‹input.parts[pos]? = some next›).1
  omega

/-- The lexemes of the statement that begins with the part before `pos`, and the index of the first
part behind it. -/
def absorb? (kind : NodeKind) (first : Part) (pos : Nat) : Option (List Lexeme × Nat) := do
  let last ← input.parts[← Counter.sub? pos 1]?
  absorbFrom? input kind first last.tokens pos

/-- The position of the last character of the last lexeme that is not whitespace, where blanks at the
end of that lexeme do not count. -/
def contentEnd? (content : List Lexeme) : Option (Option Position) :=
  match content.reverse.find? fun t => !t.isWhitespace with
  | none => some none
  | some t => do
    let stop ← Counter.add? t.span.start t.text.trimEnd.bytes
    let span ← Span.make? t.span.start stop
    return some (← input.index.lastPosition? span)

/-- Appends the item that `part` begins and `content` ends. -/
def attach? (state : State) (parent : Option NodeId) (part : Part) (item : Item)
    (content : List Lexeme) : Reading State := do
  let head ← part.head?
  let start ← input.index.position? head.span.start
  let stop ← contentEnd? input content
  let joint ← part.joint? input.source
  let node : Node := { item, before := joint.text, source := some ⟨start, stop.getD start⟩ }
  match ← (Sheet.appendInPlace parent (.detached node)).run.run state.sheet with
  | (.ok _, sheet) => return { state with sheet }
  | (.error error, _) => throw ⟨.unattachable error, head.span⟩

/-- Reads the statement that the part before `state.pos` begins. -/
def statement? (state : State) (part : Part) : Reading State := do
  let (parent, state) ← place? state part
  let kind ← kind? input state.pos part
  let (tokens, pos) ← absorb? input kind part state.pos
  let (item, content) ← item? kind part tokens
  attach? input { state with pos } parent part item content

/-- Reads the statements from `state.pos` on. -/
def run? (state : State) : Reading State :=
  match _ : input.parts[state.pos]? with
  | none => return state
  | some part => do
    let next ← statement? input { state with pos := state.pos + 1 } part
    if state.pos < next.pos then run? next else liftM (none : Option State)
termination_by input.parts.length - state.pos
decreasing_by
  have hpos := (List.getElem?_eq_some_iff.1 ‹input.parts[state.pos]? = some part›).1
  omega

/-- The position of the last character that is not blank, if there is one. -/
def stop? (source : Text) (index : LineIndex) : Option (Option Position) :=
  let content := source.trimEnd
  if content = [] then some none
  else do
    let span ← Span.make? 0 (Counter.wrap content.bytes)
    return some (← index.lastPosition? span)

/-- Reads the input of that name, or gives the first blame in it. -/
def read? (name : String) (source : Text) (index : LineIndex) : Reading Sheet := do
  let tokens ← scan? source
  let (parts, after) ← lines? source index tokens
  let state ← run? ⟨source, index, parts⟩ {}
  let after ← source.slice? after
  let stop ← stop? source index
  return { state.sheet with after, origin := some ⟨name, .first, stop⟩ }

/-- Reads the input of that name. -/
def parse? (name : String) (source : Text) : Option (Except ParseError Sheet) := do
  let index := LineIndex.ofText source
  match ← (read? name source index).run with
  | .ok sheet => return .ok sheet
  | .error blame =>
    let position ← index.position? blame.span.start
    return .error ⟨name, position, blame.cause, blame.span⟩

end OffsideCss.Reader
