import LineComment.LineEdit
import LineComment.Text.Utf8

/-! What a command line can say: the options, the subcommands, and the ways in which it can be wrong. -/

namespace LineComment.CommandLine

inductive Shell where
  | bash
  | elvish
  | fish
  | powershell
  | zsh
  deriving DecidableEq, Repr

namespace Shell

def name : Shell → String
  | bash => "bash"
  | elvish => "elvish"
  | fish => "fish"
  | powershell => "powershell"
  | zsh => "zsh"

def ofName? (name : String) : Option Shell :=
  [bash, elvish, fish, powershell, zsh].find? fun shell => shell.name == name

end Shell

inductive Flag where
  | file
  | line
  | startLabel
  | endLabel
  | language
  | marker
  | action
  | dryRun
  | noDryRun
  | verbose
  | help
  | version
  deriving DecidableEq, Repr

namespace Flag

def all : List Flag :=
  [file, line, startLabel, endLabel, language, marker, action, dryRun, noDryRun, verbose, help, version]

def long : Flag → String
  | file => "file"
  | line => "line"
  | startLabel => "start-label"
  | endLabel => "end-label"
  | language => "language"
  | marker => "marker"
  | action => "action"
  | dryRun => "dry-run"
  | noDryRun => "no-dry-run"
  | verbose => "verbose"
  | help => "help"
  | version => "version"

def short? : Flag → Option Char
  | file => some 'f'
  | line => some 'l'
  | startLabel => some 's'
  | endLabel => some 'e'
  | language => some 'L'
  | marker => some 'm'
  | action => some 'a'
  | dryRun => some 'd'
  | noDryRun => none
  | verbose => some 'v'
  | help => some 'h'
  | version => some 'V'

def takesValue : Flag → Bool
  | file | line | startLabel | endLabel | language | marker | action => true
  | dryRun | noDryRun | verbose | help | version => false

/-- Whether the option may stand behind a subcommand. -/
def isGlobal : Flag → Bool
  | verbose | help => true
  | _ => false

def ofLong? (name : Bytes) : Option Flag := all.find? fun flag => Utf8.encode flag.long.toList == name

def ofShort? (letter : UInt8) : Option Flag :=
  all.find? fun flag => flag.short?.map Utf8.encodeOne == some [letter]

end Flag

structure Arguments where
  file : Option String := none
  line : Option String := none
  startLabel : Option String := none
  endLabel : Option String := none
  language : Option String := none
  marker : Option String := none
  action : Option Action := none
  dryRun : Bool := false
  noDryRun : Bool := false
  deriving DecidableEq, Repr, Inhabited

/-- Whether to show changes instead of making them, the settings being consulted last. -/
def Arguments.isDryRun (arguments : Arguments) (configured : Bool) : Bool :=
  if arguments.noDryRun then false else arguments.dryRun || configured

inductive Subcommand where
  | languages
  | completions (shell : Shell)
  deriving DecidableEq, Repr

structure Invocation where
  command : Option Subcommand := none
  arguments : Arguments := {}
  verbosity : Nat := 0
  deriving DecidableEq, Repr, Inhabited

/-- Why a command line is not carried out: because it is wrong, or because it asks for a text about the
program. -/
inductive Refusal where
  | unknownArgument
  | invalidValue
  | tooManyValues
  | argumentConflict
  | missingRequiredArgument
  | invalidSubcommand
  | invalidUtf8
  | displayHelp
  | displayHelpOnMissing
  | displayVersion
  deriving DecidableEq, Repr

namespace Refusal

def isRequest : Refusal → Bool
  | displayHelp | displayVersion => true
  | _ => false

def exitCode (refusal : Refusal) : Nat := if refusal.isRequest then 0 else 2

end Refusal

def versionText : String := "tgcom 0.1.0\n"

end LineComment.CommandLine

namespace LineComment

inductive LogLevel where
  | warn
  | info
  | debug
  | trace
  deriving DecidableEq, Repr

namespace LogLevel

def ofVerbosity : Nat → LogLevel
  | 0 => warn
  | 1 => info
  | 2 => debug
  | _ => trace

def name : LogLevel → String
  | warn => "WARN"
  | info => "INFO"
  | debug => "DEBUG"
  | trace => "TRACE"

end LogLevel

end LineComment
