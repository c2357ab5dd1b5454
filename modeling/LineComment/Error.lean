import LineComment.Path

/-! Everything that can go wrong: the faults of the file system, of a reader or a writer, and the errors of a run, with
one function for their wording. -/

namespace LineComment

inductive Fault where
  | notFound
  | alreadyExists
  | isADirectory
  | notADirectory
  | directoryNotEmpty
  | filesystemLoop
  | invalidFilename
  | storageFull
  | invalidInput
  | invalidData
  | permissionDenied
  | other
  deriving DecidableEq, Repr, Inhabited

/-- What is wrong with the text of a line range. -/
inductive RangeFlaw where
  | parts
  | start
  | stop
  | single
  | order
  deriving DecidableEq, Repr

def RangeFlaw.message : RangeFlaw → String
  | parts => "use 'start-end'"
  | start => "invalid start line number"
  | stop => "invalid end line number"
  | single => "expected a positive line number or a range"
  | order => "end line is before start line"

/-- What was being done when a file, a reader or a writer failed. What is inspected is the mode of the file to
replace. -/
inductive Activity where
  | opening
  | reading
  | writing
  | heading
  | flushing (what : String)
  | inspecting
  | backingUp (backup : Path)
  | creating (temp : Path)
  | completing (temp : Path)
  | permitting (temp : Path)
  | moving (temp : Path)
  deriving DecidableEq, Repr

def Activity.message : Activity → String
  | opening => "failed to open file"
  | reading => "failed to read input"
  | writing => "failed to write output"
  | heading => "failed to write header"
  | flushing what => "failed to flush " ++ what
  | inspecting => "failed to read file metadata"
  | backingUp backup => "failed to create backup " ++ backup.display
  | creating temp => "failed to create " ++ temp.display
  | completing temp => "failed to flush " ++ temp.display
  | permitting temp => "failed to copy permissions to " ++ temp.display
  | moving temp => "failed to move " ++ temp.display ++ " into place"

/-- Why a run, or the reading of what it was asked to do, failed. -/
inductive Error where
  | unsupportedLanguage (name : String)
  | unsupportedExtension (extension : String)
  | missingLanguage
  | invalidMarker (text : String)
  | invalidAction (word : String)
  | invalidRange (text : String) (flaw : RangeFlaw)
  | rangeOutOfBounds (last lines : Nat)
  | emptyLabel
  | startLabelNotFound (label : String)
  | endLabelNotFound (label : String)
  | invalidTarget (text : String)
  | missingSelection (input : Path)
  | artifactExists (path : Path)
  | io (activity : Activity) (fault : Fault)
  | inFile (path : Path) (error : Error)
  deriving DecidableEq, Repr

namespace Error

def message : Error → String
  | unsupportedLanguage name => "unsupported language: " ++ name
  | unsupportedExtension extension => "unsupported file extension: " ++ extension
  | missingLanguage => "language not specified and no filename provided"
  | invalidMarker text => "invalid marker '" ++ text ++ "'"
  | invalidAction word => "invalid action '" ++ word ++ "': use 'comment', 'uncomment', or 'toggle'"
  | invalidRange text flaw => "invalid range '" ++ text ++ "': " ++ flaw.message
  | rangeOutOfBounds last lines =>
    "line " ++ last.repr ++ " is out of range (input has " ++ lines.repr ++ " lines)"
  | emptyLabel => "start and end labels must be non-empty"
  | startLabelNotFound label => "start label '" ++ label ++ "' not found"
  | endLabelNotFound label => "end label '" ++ label ++ "' not found"
  | invalidTarget text => "invalid target '" ++ text ++ "': use '<file>' or '<file>:<lines>'"
  | missingSelection input =>
    "no lines selected for " ++ input.display ++ ": pass a line range or a label pair"
  | artifactExists path => "refusing to overwrite existing file " ++ path.display
  | io activity _ => activity.message
  | inFile path error => path.display ++ ": " ++ error.message

/-- The error without the files it is attributed to. -/
def root : Error → Error
  | inFile _ error => error.root
  | error => error

/-- A link in the chain of what led to a failure. -/
inductive Cause where
  | text (message : String)
  | fault (fault : Fault)
  deriving DecidableEq, Repr

/-- The error and what led to it, the outermost first. -/
def causes : Error → List Cause
  | io activity fault => [.text activity.message, .fault fault]
  | inFile path error => .text (inFile path error).message :: error.causes
  | error => [.text error.message]

end Error

end LineComment
