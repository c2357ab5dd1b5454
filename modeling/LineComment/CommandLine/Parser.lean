import LineComment.CommandLine.Arguments

/-! Reading a command line word by word. A value may be attached to its option or be the next word, but then
it must not start with a dash. A value that is the next word is looked at only when the next option comes or
when all words have been read, so a word that fits nowhere is reported before a wrong value in front of it.
Requests for help and for the version are granted when they are reached; what does not go together is looked
for at the end. -/

namespace LineComment.CommandLine

/-- A word of a command line by its form. After two dashes alone no word is an option. -/
inductive Word where
  | escape
  | long (name : Bytes) (value : Option Bytes)
  | short (letters : Bytes)
  | plain
  deriving DecidableEq, Repr

def dash : UInt8 := 0x2d

def equals : UInt8 := 0x3d

def Word.ofBytes : Bytes → Word
  | first :: second :: rest =>
    if first ≠ dash then plain
    else if second ≠ dash then short (second :: rest)
    else if rest = [] then escape
    else
      long (rest.takeWhile (· != equals)) <| match rest.dropWhile (· != equals) with
        | [] => none
        | _ :: value => some value
  | _ => plain

/-- What has been read but not looked at. -/
inductive Pending where
  | nothing
  | needsValue (flag : Flag)
  | hasValue (flag : Flag) (value : Bytes)
  | hasShell (name : Bytes)
  deriving DecidableEq, Repr

/-- What the words so far have said. -/
structure Progress where
  arguments : Arguments := {}
  verbosity : Nat := 0
  shell : Option Shell := none
  pending : Pending := .nothing
  anyFlag : Bool := false
  isEscaped : Bool := false
  deriving DecidableEq, Repr

namespace Progress

def valueText (value : Bytes) : Except Refusal String :=
  match Utf8.decode? value with
  | some text => .ok (String.ofList text)
  | none => .error .invalidUtf8

def named {α : Type} (ofName? : String → Option α) (value : Bytes) : Except Refusal α :=
  match (Utf8.decode? value).bind fun text => ofName? (String.ofList text) with
  | some thing => .ok thing
  | none => .error .invalidValue

def isGiven (arguments : Arguments) : Flag → Bool
  | .file => arguments.file.isSome
  | .line => arguments.line.isSome
  | .startLabel => arguments.startLabel.isSome
  | .endLabel => arguments.endLabel.isSome
  | .language => arguments.language.isSome
  | .marker => arguments.marker.isSome
  | .action => arguments.action.isSome
  | _ => false

/-- Gives an option its value. An option that has one already is refused, whatever the value is. -/
def assign (arguments : Arguments) (flag : Flag) (value : Bytes) : Except Refusal Arguments :=
  if isGiven arguments flag then .error .argumentConflict
  else match flag with
    | .file => do return { arguments with file := some (← valueText value) }
    | .line => do return { arguments with line := some (← valueText value) }
    | .startLabel => do return { arguments with startLabel := some (← valueText value) }
    | .endLabel => do return { arguments with endLabel := some (← valueText value) }
    | .language => do return { arguments with language := some (← valueText value) }
    | .marker => do return { arguments with marker := some (← valueText value) }
    | .action => do return { arguments with action := some (← named Action.ofName? value) }
    | _ => .ok arguments

/-- Looks at what has been read. -/
def settle (progress : Progress) : Except Refusal Progress :=
  match progress.pending with
  | .nothing => .ok progress
  | .needsValue _ => .error .invalidValue
  | .hasValue flag value => do
    return { progress with arguments := ← assign progress.arguments flag value, pending := .nothing }
  | .hasShell name => do
    return { progress with shell := some (← named Shell.ofName? name), pending := .nothing }

/-- Notes an option that takes no value. Asking to show the changes and asking to make them cancel each
other, so that the last of the two counts; the same twice in a row is refused. -/
def raise (progress : Progress) (flag : Flag) : Except Refusal Progress := do
  let progress ← progress.settle
  let arguments := progress.arguments
  match flag with
  | .dryRun =>
    if arguments.dryRun then throw .argumentConflict
    else return { progress with arguments := { arguments with dryRun := true, noDryRun := false } }
  | .noDryRun =>
    if arguments.noDryRun then throw .argumentConflict
    else return { progress with arguments := { arguments with dryRun := false, noDryRun := true } }
  | .verbose => return { progress with verbosity := min 255 (progress.verbosity + 1) }
  | .help => throw .displayHelp
  | .version => throw .displayVersion
  | _ => return progress

/-- Notes an option with its attached value, or without one yet. -/
def expect (progress : Progress) (flag : Flag) (value : Option Bytes) : Except Refusal Progress := do
  let progress ← progress.settle
  match value with
  | some value => return { progress with arguments := ← assign progress.arguments flag value }
  | none => return { progress with pending := .needsValue flag }

/-- Takes letters behind one dash. What follows the letter of an option with a value is that value, without
an equals sign in front of it. -/
def takeLetters (allowed : Flag → Bool) (progress : Progress) : Bytes → Except Refusal Progress
  | [] => .ok progress
  | letter :: rest =>
    match (Flag.ofShort? letter).filter allowed with
    | none => .error .unknownArgument
    | some flag =>
      let progress := { progress with anyFlag := true }
      if flag.takesValue then
        progress.expect flag <| match rest with
          | [] => none
          | first :: value => some (if first = equals then value else first :: value)
      else do takeLetters allowed (← progress.raise flag) rest

def takeName (allowed : Flag → Bool) (progress : Progress) (name : Bytes) (value : Option Bytes) :
    Except Refusal Progress :=
  match (Flag.ofLong? name).filter allowed with
  | none => .error .unknownArgument
  | some flag =>
    let progress := { progress with anyFlag := true }
    if flag.takesValue then progress.expect flag value
    else if value.isSome then .error .tooManyValues
    else progress.raise flag

/-- Takes a word; `plain` says what to do with one that has nothing to do with options. -/
def take (allowed : Flag → Bool) (plain : Progress → Bytes → Except Refusal Progress)
    (progress : Progress) (word : Bytes) : Except Refusal Progress :=
  if progress.isEscaped then plain progress word
  else match Word.ofBytes word with
    | .escape => .ok { progress with isEscaped := true }
    | .long name value => progress.takeName allowed name value
    | .short letters => progress.takeLetters allowed letters
    | .plain =>
      match progress.pending with
      | .needsValue flag => .ok { progress with pending := .hasValue flag word }
      | _ => plain progress word

/-- A word behind the subcommand that lists the languages fits nowhere. -/
def plainOfLanguages (_ : Progress) (_ : Bytes) : Except Refusal Progress := .error .unknownArgument

/-- The first word behind the subcommand that prints completions names the shell. -/
def plainOfCompletions (progress : Progress) (word : Bytes) : Except Refusal Progress :=
  match progress.shell, progress.pending with
  | none, .nothing => .ok { progress with pending := .hasShell word }
  | _, _ => .error .unknownArgument

def subcommands : List String := ["languages", "completions", "help"]

def isSubcommand (word : Bytes) : Bool := subcommands.any fun name => Utf8.encode name.toList == word

/-- A word that is neither an option nor the value of one has to be a subcommand in front of everything else.
Behind an option no subcommand can follow, so any word there is taken for one that does not go with the
option. -/
def plainOfTop (progress : Progress) (word : Bytes) : Except Refusal Progress :=
  if progress.anyFlag then .error .argumentConflict
  else if isSubcommand word then .error .unknownArgument
  else .error .invalidSubcommand

def hasConflict (arguments : Arguments) : Bool :=
  (arguments.line.isSome && (arguments.startLabel.isSome || arguments.endLabel.isSome)) ||
    (arguments.language.isSome && arguments.marker.isSome)

def finish (progress : Progress) : Except Refusal Invocation := do
  let progress ← progress.settle
  let arguments := progress.arguments
  if !progress.anyFlag then throw .displayHelpOnMissing
  else if hasConflict arguments then throw .argumentConflict
  else if arguments.startLabel.isSome != arguments.endLabel.isSome then throw .missingRequiredArgument
  else return { arguments, verbosity := progress.verbosity }

def parseLanguages (words : List Bytes) : Except Refusal Invocation := do
  let progress ← words.foldlM (take Flag.isGlobal plainOfLanguages) {}
  let progress ← progress.settle
  return { command := some .languages, verbosity := progress.verbosity }

def parseCompletions (words : List Bytes) : Except Refusal Invocation := do
  let progress ← words.foldlM (take Flag.isGlobal plainOfCompletions) {}
  let progress ← progress.settle
  match progress.shell with
  | some shell => return { command := some (.completions shell), verbosity := progress.verbosity }
  | none => throw .missingRequiredArgument

def parseHelp (words : List Bytes) : Except Refusal Invocation :=
  match words with
  | [] => .error .displayHelp
  | [word] => .error (if isSubcommand word then .displayHelp else .invalidSubcommand)
  | _ => .error .invalidSubcommand

end Progress

def parse (words : List Bytes) : Except Refusal Invocation :=
  match words with
  | [] => .error .displayHelpOnMissing
  | first :: rest =>
    if first = Utf8.encode "languages".toList then Progress.parseLanguages rest
    else if first = Utf8.encode "completions".toList then Progress.parseCompletions rest
    else if first = Utf8.encode "help".toList then Progress.parseHelp rest
    else do
      let progress ← words.foldlM (Progress.take (fun _ => true) Progress.plainOfTop) {}
      progress.finish

end LineComment.CommandLine
