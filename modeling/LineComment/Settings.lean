import LineComment.LineEdit
import LineComment.Language
import LineComment.Toml.Document
import LineComment.Script

/-! The settings in force: built-in ones, under those of the user's configuration file, under those of the workspace's
configuration file, under those of the environment. A key that is absent from a configuration file leaves the layers
below it in force; keys with other names are ignored. -/

namespace LineComment

/-- What one configuration file says. -/
structure Layer where
  action : Option Action := none
  language : Option String := none
  dryRun : Option Bool := none
  languages : List (String × LanguageEntry) := []
  deriving DecidableEq, Repr, Inhabited

namespace Layer

open Toml (Value Entries)

/-- Decodes the value of a key, if the key is there. -/
def key? {α : Type} (entries : Entries) (key : String) (decode : Value → Option α) : Option (Option α) :=
  match entries.lookup key with
  | some value => (decode value).map some
  | none => some none

/-- Whether a value holds nothing. -/
def isHollow (value : Value) : Bool :=
  value.items?.any List.isEmpty || value.entries?.any List.isEmpty

/-- Decodes an action: its name, or a table in which the name stands over something that holds nothing. -/
def action? (value : Value) : Option Action :=
  match value with
  | .string name => Action.ofName? name
  | .table _ [(name, inner)] => (Action.ofName? name).filter fun _ => isHollow inner
  | _ => none

def strings? (value : Value) : Option (List String) := do (← value.items?).mapM Value.string?

/-- Decodes the defaults: a table, or an array of an action, a language and whether to make a dry run. -/
def defaults? (value : Value) : Option Layer :=
  match value with
  | .table _ entries => do
    return { action := ← key? entries "action" action?
             language := ← key? entries "language" Value.string?
             dryRun := ← key? entries "dry_run" Value.boolean? }
  | _ => do
    match ← value.items? with
    | action :: language :: dryRun :: _ =>
      return { action := some (← action? action), language := some (← language.string?)
               dryRun := some (← dryRun.boolean?) }
    | _ => none

/-- Decodes a language: a table, or an array of a marker and, if it goes on, extensions. -/
def language? (value : Value) : Option LanguageEntry :=
  match value with
  | .table _ entries => do
    return { marker := ← (← entries.lookup "marker").string?
             extensions := (← key? entries "extensions" strings?).getD [] }
  | _ => do
    match ← value.items? with
    | [marker] => return { marker := ← marker.string? }
    | marker :: extensions :: _ =>
      return { marker := ← marker.string?, extensions := ← strings? extensions }
    | [] => none

def ofEntries (entries : Entries) : Option Layer := do
  let defaults := (← key? entries "defaults" defaults?).getD {}
  let languages := (← key? entries "languages" Value.entries?).getD []
  let languages ← languages.mapM fun (name, value) => do return (name, ← language? value)
  return { defaults with languages }

def parse (text : List Char) : Option Layer := do ofEntries (← Toml.parse text)

end Layer

structure Settings where
  action : Action := .toggle
  language : Option String := none
  dryRun : Bool := false
  languages : List (String × LanguageEntry) := []
  deriving DecidableEq, Repr, Inhabited

structure Environment where
  home : Option Bytes := none
  configHome : Option Bytes := none
  action : Option Bytes := none
  language : Option Bytes := none
  deriving DecidableEq, Repr, Inhabited

inductive SettingsError where
  | unreadable (path : Path) (fault : Fault)
  | malformed (path : Path)
  | environmentAction (error : Error)
  deriving DecidableEq, Repr

/-- The error and what led to it, the outermost first. -/
def SettingsError.causes : SettingsError → List Error.Cause
  | unreadable path fault => [.text ("failed to read config file: " ++ path.display), .fault fault]
  | malformed path => [.text ("invalid config file: " ++ path.display), .text "failed to parse TOML config"]
  | environmentAction error => .text "invalid TGCOM_ACTION environment variable" :: error.causes

namespace Settings

/-- Puts an entry into its place among entries in the order of their names, instead of one of the same
name. -/
def place (name : String) (entry : LanguageEntry) :
    List (String × LanguageEntry) → List (String × LanguageEntry)
  | [] => [(name, entry)]
  | other :: rest =>
    if name = other.1 then (name, entry) :: rest
    else if name < other.1 then (name, entry) :: other :: rest
    else other :: place name entry rest

/-- Lays a layer over settings. A language of the layer replaces the one of the same name as a whole. -/
def overlay (settings : Settings) (layer : Layer) : Settings :=
  { action := layer.action.getD settings.action
    language := layer.language.or settings.language
    dryRun := layer.dryRun.getD settings.dryRun
    languages := layer.languages.foldl (fun all (name, entry) => place name entry all) settings.languages }

/-- The text of a variable that is set to UTF-8. -/
def textOf (bytes : Option Bytes) : Option String :=
  (bytes.bind Utf8.decode?).map String.ofList

/-- Lays the environment over settings. A blank language is ignored, a blank action means toggling. -/
def overlayEnvironment (settings : Settings) (environment : Environment) : Except SettingsError Settings := do
  let action ← match textOf environment.action with
    | none => pure settings.action
    | some word =>
      match Action.parse word with
      | .ok action => pure action
      | .error error => throw (.environmentAction error)
  let language := (textOf environment.language).filter fun name => !Text.isAllBlank name.toList
  return { settings with action, language := language.or settings.language }

/-- The user's configuration file. It lies in the directory of the user's configuration, which counts only as
an absolute path, or else under the home directory. -/
def userFile? (environment : Environment) : Option Path := do
  let base ← match (environment.configHome.map Path.mk).filter Path.isAbsolute with
    | some directory => some directory
    | none => (environment.home.filter (· ≠ [])).map fun home => (Path.mk home).join (.ofString ".config")
  return base.join (.ofString "tgcom/config.toml")

/-- The directory of the workspace: the nearest one from the working directory upwards that holds a
repository, or else the working directory. -/
def workspace (start : Path) : List Path → Script Path
  | [] => return start
  | directory :: above => do
    if ← Script.call (.isPresent (directory.join (.ofString ".git"))) then return directory
    else workspace start above

/-- Reads a configuration file, if there is one. -/
def readLayer (path : Path) : ExceptT SettingsError Script (Option Layer) := do
  if ← Script.call (.isFile path) then
    match ← (Script.call (.read path) : Script _) with
    | .error fault => throw (.unreadable path fault)
    | .ok ⟨_, some fault⟩ => throw (.unreadable path fault)
    | .ok ⟨bytes, none⟩ =>
      match Utf8.decode? bytes with
      | none => throw (.unreadable path .invalidData)
      | some text =>
        match Layer.parse text with
        | none => throw (.malformed path)
        | some layer => return some layer
  else return none

def overlayFiles (settings : Settings) : List Path → ExceptT SettingsError Script Settings
  | [] => return settings
  | path :: rest => do
    match ← readLayer path with
    | none => settings.overlayFiles rest
    | some layer => (settings.overlay layer).overlayFiles rest

def load (environment : Environment) : ExceptT SettingsError Script Settings := do
  let start ← Script.call .workingDirectory
  let workspace ← workspace start start.ancestors
  let files := (userFile? environment).toList ++ [workspace.join (.ofString ".tgcom/config.toml")]
  let settings ← ({} : Settings).overlayFiles files
  settings.overlayEnvironment environment

end Settings

end LineComment
