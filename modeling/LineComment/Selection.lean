import LineComment.Error
import LineComment.Text

/-! Which lines a run changes: those of a range of line numbers, or those between lines that hold a start label and the
next lines that hold an end label. Bounds and labels are checked where a selection is made, so every selection is a
meaningful one. Lines are chosen as they come: a range needs the line's number only, labels need to know whether a
section is open. What is wrong with a selection, a range that ends after the last line or a label that never came,
shows only when the lines are over. -/

namespace LineComment

/-- An interval of line numbers, counted from 1, with both its ends. -/
structure LineRange where
  first : Nat
  last : Nat
  one_le_first : 1 ≤ first := by omega
  first_le_last : first ≤ last := by omega
  deriving DecidableEq, Repr

namespace LineRange

def ofBounds? (first last : Nat) : Option LineRange :=
  if h : 1 ≤ first ∧ first ≤ last then some ⟨first, last, h.1, h.2⟩ else none

def contains (range : LineRange) (line : Nat) : Bool := range.first ≤ line && line ≤ range.last

def print (range : LineRange) : String :=
  if range.first = range.last then range.first.repr else range.first.repr ++ "-" ++ range.last.repr

end LineRange

/-- The labels that open and close a section of lines. -/
structure LabelSection where
  start : String
  stop : String
  start_ne_empty : start ≠ ""
  stop_ne_empty : stop ≠ ""
  deriving DecidableEq, Repr

def LabelSection.ofLabels (start stop : String) : Except Error LabelSection :=
  if h : start ≠ "" ∧ stop ≠ "" then .ok ⟨start, stop, h.1, h.2⟩ else .error .emptyLabel

inductive Selection where
  | lines (range : LineRange)
  | labels (labels : LabelSection)
  deriving DecidableEq, Repr

/-- Where the lines so far leave a selection by labels. -/
inductive Phase where
  | unopened
  | inside
  | closed
  deriving DecidableEq, Repr

def holdsLabel (label : String) (text : List Char) : Bool := Text.occursIn label.toList text

namespace Selection

/-- Whether a line is chosen, and the phase after it. -/
def choose (selection : Selection) (phase : Phase) (number : Nat) (text : List Char) : Bool × Phase :=
  match selection with
  | lines range => (range.contains number, phase)
  | labels pair =>
    match phase with
    | .inside => if holdsLabel pair.stop text then (false, .closed) else (true, .inside)
    | _ => (false, if holdsLabel pair.start text then .inside else phase)

def chooseFrom (selection : Selection) (phase : Phase) : List (Nat × List Char) → List Bool × Phase
  | [] => ([], phase)
  | (number, text) :: rest =>
    let (chosen, next) := selection.choose phase number text
    let (more, last) := selection.chooseFrom next rest
    (chosen :: more, last)

def chooseAll (selection : Selection) (lines : List (Nat × List Char)) : List Bool × Phase :=
  selection.chooseFrom .unopened lines

/-- What is wrong with a selection once `total` lines have left it in a phase. -/
def finish (selection : Selection) (phase : Phase) (total : Nat) : Except Error Unit :=
  match selection with
  | lines range => if total < range.last then .error (.rangeOutOfBounds range.last total) else .ok ()
  | labels pair =>
    match phase with
    | .unopened => .error (.startLabelNotFound pair.start)
    | .inside => .error (.endLabelNotFound pair.stop)
    | .closed => .ok ()

end Selection

/-- A line number: a numeral other than 0, with blanks around it. -/
def lineNumber? (text : List Char) : Option Nat :=
  (Text.numeral? (Text.trim text)).filter (0 < ·)

/-- Reads a line range. The start is looked at before the end. -/
def LineRange.parse (text : String) : Except Error LineRange := do
  let invalid := Error.invalidRange text
  let (first, last) ← match (Text.trim text.toList).splitOn '-' with
    | [line] =>
      match lineNumber? line with
      | some line => .ok (line, line)
      | none => .error (invalid .single)
    | [first, last] =>
      match lineNumber? first, lineNumber? last with
      | some first, some last => .ok (first, last)
      | none, _ => .error (invalid .start)
      | some _, none => .error (invalid .stop)
    | _ => .error (invalid .parts)
  match ofBounds? first last with
  | some range => .ok range
  | none => .error (invalid .order)

/-- The selection given by a range or by a pair of labels, the range first. -/
def Selection.ofParts (lines : Option String) (labels : Option (String × String)) :
    Except Error (Option Selection) :=
  match lines, labels with
  | some text, _ => (LineRange.parse text).map fun range => some (.lines range)
  | none, some (start, stop) => (LabelSection.ofLabels start stop).map fun labels => some (.labels labels)
  | none, none => .ok none

end LineComment
