import LineComment.Batch
import LineComment.CommandLine.Arguments
import LineComment.Settings

/-! Carrying out a command line: the settings are loaded first, then the languages, the lines, the comment
syntax and the targets are settled, in this order, and then the files or the standard input are worked on. -/

namespace LineComment.CommandLine

inductive Failure where
  | settings (error : SettingsError)
  | run (error : Error)
  | listing (fault : Fault)
  | flushing (fault : Fault)
  deriving DecidableEq, Repr

def Failure.causes : Failure → List Error.Cause
  | settings error => .text "failed to load configuration" :: error.causes
  | run error => error.causes
  | listing fault => [.fault fault]
  | flushing fault => [.text "failed to flush stdout", .fault fault]

/-- A script that may end in a failure of the program. -/
abbrev Run (α : Type) := ExceptT Failure Script α

def orFail {α : Type} (failure : Fault → Failure) (script : Script (Except Fault α)) : Run α := do
  match ← script with
  | .ok value => return value
  | .error fault => throw (failure fault)

def prepare (environment : Environment) : Run (Settings × Registry) := do
  let settings ← (Settings.load environment).adapt Failure.settings
  match Registry.builtin.extend settings.languages with
  | .ok registry => return (settings, registry)
  | .error error => throw (.run error)

namespace Arguments

def options (arguments : Arguments) (settings : Settings) : Except Error BatchOptions := do
  let labels := match arguments.startLabel, arguments.endLabel with
    | some start, some stop => some (start, stop)
    | _, _ => none
  let selection ← Selection.ofParts arguments.line labels
  let marker ← arguments.marker.mapM Marker.parse
  return { selection, marker, language := arguments.language
           action := arguments.action.getD settings.action
           dryRun := arguments.isDryRun settings.dryRun }

/-- Works on the standard input. The language of the settings counts only where none is given. -/
def runInput (options : BatchOptions) (settings : Settings) (registry : Registry) : Attempt Report := do
  let options := { options with language := options.language.or settings.language }
  (← options.job registry .standardInput none).apply

def execute (arguments : Arguments) (settings : Settings) (registry : Registry) :
    Attempt (List Report) := do
  let options ← arguments.options settings
  match arguments.file with
  | some list => options.applyAll registry (← Target.parseList list)
  | none => return [← runInput options settings registry]

end Arguments

def padded (width : Nat) (text : String) : List Char :=
  text.toList ++ List.replicate (width - text.length) ' '

def listingLine (language : Language) : Bytes :=
  let extensions := [' '].intercalate (language.extensions.map fun extension => '.' :: extension.toList)
  Utf8.encode
    (padded 12 language.name ++ ' ' :: padded 10 language.marker.print ++ ' ' :: extensions ++ ['\n'])

def listLanguages : List Language → Run Unit
  | [] => return
  | language :: rest => do
    orFail .listing (Script.call (.print (listingLine language)))
    listLanguages rest

/-- Carries out what a command line asks for; gives the reports on the files. What makes a shell complete command
lines is taken from `scripts`. -/
def Invocation.run (invocation : Invocation) (scripts : Shell → Bytes) (environment : Environment) :
    Run (List Report) := do
  match invocation.command with
  | some .languages =>
    let (_, registry) ← prepare environment
    listLanguages registry.languages
    return []
  | some (.completions shell) =>
    orFail .listing (Script.call (.print (scripts shell)))
    return []
  | none =>
    let (settings, registry) ← prepare environment
    let reports ← (invocation.arguments.execute settings registry).adapt Failure.run
    orFail .flushing (Script.call .flush)
    return reports

end LineComment.CommandLine
