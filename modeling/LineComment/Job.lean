import LineComment.LineEdit
import LineComment.Selection

/-! A job is everything that one run over one input needs to know; a report is what is told about it. -/

namespace LineComment

inductive Source where
  | file (path : Path)
  | standardInput
  deriving DecidableEq, Repr

namespace Source

def path? : Source → Option Path
  | file path => some path
  | standardInput => none

/-- The path that stands for the source in messages. -/
def label : Source → Path
  | file path => path
  | standardInput => .ofString "<stdin>"

def display (source : Source) : String := source.label.display

end Source

/-- What to do with one input. -/
structure Job where
  source : Source
  selection : Selection
  marker : Marker
  action : Action
  dryRun : Bool
  deriving DecidableEq, Repr

/-- What became of the changed lines. -/
inductive Mode where
  | commit
  | preview
  | stream
  deriving DecidableEq, Repr

def Mode.name : Mode → String
  | commit => "commit"
  | preview => "preview"
  | stream => "stream"

/-- How many lines a run has seen, how many of them it has chosen, and how many of these the action made different. -/
structure Counts where
  scanned : Nat
  selected : Nat
  changed : Nat
  deriving DecidableEq, Repr

structure Report where
  source : Source
  mode : Mode
  counts : Counts
  deriving DecidableEq, Repr

end LineComment
