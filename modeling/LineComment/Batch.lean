import LineComment.Selection
import LineComment.Replacement
import LineComment.Language

/-! Carrying out a job, and jobs over several files one after the other, up to the first failure. The scanned lines of a
job go to the output, to a preview on the output, or into the file they came from. The files of a batch are given as
targets, each with lines of its own if it has a range behind a colon, with commas between them. -/

namespace LineComment

/-- A file to work on, with the lines given for it alone. -/
structure Target where
  path : Path
  selection : Option Selection := none
  deriving DecidableEq, Repr

namespace Target

/-- Whether a text is meant as a line range: digits, dashes and blanks, and not blanks alone. -/
def looksLikeRange (text : List Char) : Bool :=
  !Text.isAllBlank text && text.all fun c => c.isDigit || c == '-' || Text.isBlank c

/-- Reads a target, with blanks allowed around it. What stands behind the last colon is a range if it looks
like one; otherwise the colon belongs to the path. -/
def parse (text : List Char) : Except Error Target :=
  let text := Text.trim text
  let invalid := Error.invalidTarget (String.ofList text)
  if text = [] then .error invalid
  else match Text.splitLast? ':' text with
    | none => .ok { path := .ofText text }
    | some (path, lines) =>
      if looksLikeRange lines then
        if path = [] then .error invalid
        else (LineRange.parse (String.ofList lines)).map fun range => ⟨.ofText path, some (.lines range)⟩
      else if lines = [] then .error invalid
      else .ok { path := .ofText text }

/-- Reads a list of targets. Blank entries are skipped, but one entry must not be blank. -/
def parseList (text : String) : Except Error (List Target) := do
  let entries := (text.toList.splitOn ',').filter fun entry => !Text.isAllBlank entry
  let targets ← entries.mapM parse
  if targets = [] then .error (.invalidTarget text) else .ok targets

end Target

namespace Job

def report (job : Job) (mode : Mode) (counts : Counts) : Report := ⟨job.source, mode, counts⟩

/-- Shows the changes of the lines a reader gives. -/
def preview (job : Job) (reader : Reader) : Attempt Report := do
  let scan := job.scan reader
  printAll .writing (scan.visits.map Visit.record)
  let counts ← scan.result
  flushOutput "preview"
  return job.report .preview counts

/-- Writes all the lines a reader gives to the output, or shows their changes in a dry run. -/
def stream (job : Job) (reader : Reader) : Attempt Report := do
  if job.dryRun then job.preview reader
  else
    let scan := job.scan reader
    printAll .writing (scan.visits.map Visit.output)
    let counts ← scan.result
    flushOutput "output"
    return job.report .stream counts

/-- The commands that make the new content of a file: all lines, and then the failure of the scan, if it
fails. -/
def commands (scan : Scan) : List Command :=
  scan.visits.map (fun visit => .emit visit.output) ++
    match scan.result with
    | .ok _ => []
    | .error error => [.fail error]

/-- Replaces the content of a file by the lines a reader gives. -/
def commit (job : Job) (path : Path) (reader : Reader) : Attempt Report := do
  let scan := job.scan reader
  replaceFile path (commands scan)
  return job.report .commit (← scan.result)

def apply (job : Job) : Attempt Report := do
  match job.source with
  | .standardInput => job.stream (← Script.call .readInput)
  | .file path =>
    let reader ← attempt .opening (Script.call (.read path))
    if job.dryRun then job.preview reader else job.commit path reader

end Job

/-- What all files of a batch have in common. The lines count where a file has none of its own. -/
structure BatchOptions where
  selection : Option Selection := none
  language : Option String := none
  marker : Option Marker := none
  action : Action := .toggle
  dryRun : Bool := false
  deriving DecidableEq, Repr

namespace BatchOptions

/-- The job for one source. The lines are settled before the comment syntax. -/
def job (options : BatchOptions) (registry : Registry) (source : Source) (own : Option Selection) :
    Except Error Job := do
  let selection ← match own.or options.selection with
    | some selection => .ok selection
    | none => .error (.missingSelection source.label)
  let marker ← match options.marker with
    | some marker => .ok marker
    | none => registry.resolve options.language source.path?
  return ⟨source, selection, marker, options.action, options.dryRun⟩

/-- The line that names a previewed file. -/
def heading (path : Path) : Bytes :=
  Utf8.encode ("==> ".toList ++ path.display.toList ++ " <==\n".toList)

/-- Works on one target, under a heading if asked to. -/
def applyOne (options : BatchOptions) (registry : Registry) (headed : Bool) (target : Target) :
    Attempt Report := do
  let job ← options.job registry (.file target.path) target.selection
  if headed then attempt .heading (Script.call (.print (heading target.path)))
  job.apply

def applyEach (options : BatchOptions) (registry : Registry) (headed : Bool) :
    List Target → Attempt (List Report)
  | [] => return []
  | target :: rest => do
    let report ← (options.applyOne registry headed target).adapt (Error.inFile target.path)
    return report :: (← options.applyEach registry headed rest)

/-- Works on some targets in order and stops at the first failure, which is attributed to its file. The
files before it keep their new content. Several previews are told apart by headings. -/
def applyAll (options : BatchOptions) (registry : Registry) (targets : List Target) :
    Attempt (List Report) :=
  options.applyEach registry (options.dryRun && 1 < targets.length) targets

end BatchOptions

end LineComment
