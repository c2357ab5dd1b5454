import LineComment.Job
import LineComment.Bytes
import LineComment.Selection

/-! A scan visits the lines of an input in order, chooses among them and carries out the action on the
chosen ones. It says for each line what a run writes and what a preview shows, and how the run ends. Labels
are looked for in the decoded text of a line, the action works on its bytes. -/

namespace LineComment

/-- What a reader gives: some bytes, and then the end of the input or a fault. -/
structure Reader where
  bytes : Bytes
  fault : Option Fault := none
  deriving DecidableEq, Repr, Inhabited

/-- The raw lines a reader gives before its end or its fault. A line cut off by a fault is lost. -/
def Reader.lines (reader : Reader) : List Bytes :=
  match reader.fault with
  | none => Line.raw reader.bytes
  | some _ => Line.terminated reader.bytes

/-- A line with its number, counted from 1, and what the action made of its content, if the line was chosen. -/
structure Visit where
  number : Nat
  line : Line
  outcome : Option Bytes
  deriving DecidableEq, Repr

/-- A chosen line before and after the action. -/
structure LineChange where
  number : Nat
  before : Bytes
  after : Bytes
  deriving DecidableEq, Repr

/-- The change as shown in a preview, with U+FFFD for each ill-formed run of bytes. -/
def LineChange.print (change : LineChange) : List Char :=
  "line ".toList ++ change.number.repr.toList ++ ": ".toList ++ Utf8.lossy change.before
    ++ " -> ".toList ++ Utf8.lossy change.after

namespace Visit

def change? (visit : Visit) : Option LineChange :=
  visit.outcome.map fun transformed => ⟨visit.number, visit.line.content, transformed⟩

def output (visit : Visit) : Bytes := visit.outcome.getD visit.line.content ++ visit.line.ending

/-- The bytes a preview shows for the line. -/
def record (visit : Visit) : Bytes :=
  match visit.change? with
  | some change => Utf8.encode change.print ++ [Bytes.lineFeed]
  | none => []

def isSelected (visit : Visit) : Bool := visit.outcome.isSome

/-- Whether the line was chosen and the action made it different. -/
def isChanged (visit : Visit) : Bool :=
  match visit.outcome with
  | some transformed => transformed != visit.line.content
  | none => false

end Visit

namespace Job

/-- The lines with their numbers, counted from 1, as a selection sees them. -/
def numbered (lines : List Line) : List (Nat × List Char) :=
  lines.mapIdx fun index line => (index + 1, Utf8.lossy line.content)

/-- The visits of the lines for which the choice is known, from the line `number` on. -/
def visitsFrom (job : Job) (number : Nat) : List Line → List Bool → List Visit
  | line :: lines, chosen :: choices =>
    let outcome := if chosen then some (job.action.apply job.marker line.content) else none
    ⟨number, line, outcome⟩ :: job.visitsFrom (number + 1) lines choices
  | _, _ => []

def count (visits : List Visit) : Counts :=
  ⟨visits.length, visits.countP Visit.isSelected, visits.countP Visit.isChanged⟩

end Job

/-- All that a run over an input does, but for where it writes. -/
structure Scan where
  visits : List Visit
  result : Except Error Counts

/-- Scans the lines a reader gives. A fault of the reader comes before anything the selection may find
wrong with the lines. -/
def Job.scan (job : Job) (reader : Reader) : Scan :=
  let lines := reader.lines.map Line.ofRaw
  let choice := job.selection.chooseAll (numbered lines)
  let visits := job.visitsFrom 1 lines choice.1
  let result := match reader.fault with
    | some fault => .error (.io .reading fault)
    | none => (job.selection.finish choice.2 lines.length).map fun _ => count visits
  { visits, result }

end LineComment
