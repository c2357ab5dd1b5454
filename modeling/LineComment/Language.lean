import LineComment.LineEdit

/-! The languages known to a run, found by name, by alias, or by the extension of a file. Every extension belongs to the
language that claimed it last, and an index beside the languages says which one that is. Names and extensions are kept
in lower case. -/

namespace LineComment

structure Language where
  name : String
  marker : Marker
  extensions : List String
  deriving DecidableEq, Repr

/-- A language as a configuration describes it. -/
structure LanguageEntry where
  marker : String
  extensions : List String := []
  deriving DecidableEq, Repr, Inhabited

/-- An index: texts, each with the name of the language it stands for. -/
abbrev NameIndex := List (String × String)

namespace NameIndex

def without (index : NameIndex) (key : String) : NameIndex := index.filter fun item => item.1 != key

/-- An index with an entry for a text, in place of the one it had. -/
def assign (index : NameIndex) (key name : String) : NameIndex := (key, name) :: index.without key

end NameIndex

/-- The known languages in the order of their names, their other names, and the extensions, each with the name of the
language that has it. -/
structure Registry where
  languages : List Language := []
  aliases : NameIndex := []
  owners : NameIndex := []
  deriving DecidableEq, Repr, Inhabited

namespace Registry

def get? (registry : Registry) (name : String) : Option Language :=
  registry.languages.find? fun language => language.name == name

/-- The extensions of the language of this name, if there is one. -/
def listed (registry : Registry) (name : String) : List String :=
  ((registry.get? name).map Language.extensions).getD []

/-- Puts a language into its place among languages in the order of their names, instead of one of the same
name. -/
def place (language : Language) : List Language → List Language
  | [] => [language]
  | other :: rest =>
    if language.name = other.name then language :: rest
    else if language.name < other.name then language :: other :: rest
    else other :: place language rest

/-- An extension without the dots in front of it and in lower case. -/
def normalExtension (extension : String) : String :=
  Text.lowercase (String.ofList (extension.toList.dropWhile (· == '.')))

/-- The extensions in a list that are not empty. -/
def usable (extensions : List String) : List String := (extensions.map normalExtension).filter (· != "")

/-- The extensions a language has once it is entered: those given, or if none of them is usable, those it
has already. -/
def claimed (registry : Registry) (name : String) (extensions : List String) : List String :=
  if usable extensions = [] then registry.listed name else usable extensions

/-- Removes from the index what a language has so far and is not among the extensions it keeps. -/
def disown (registry : Registry) (name : String) (kept : List String) : Registry :=
  let dropped := (registry.listed name).filter fun extension => !kept.contains extension
  { registry with owners := dropped.foldl NameIndex.without registry.owners }

def release (extension : String) (language : Language) : Language :=
  { language with extensions := language.extensions.filter (· != extension) }

/-- Enters an extension in the index under the name of a language, and takes it away from the language under whose
name it stood there. -/
def claim (name : String) (registry : Registry) (extension : String) : Registry :=
  { registry with
    languages := match registry.owners.lookup extension with
      | none => registry.languages
      | some previous =>
        if previous = name then registry.languages
        else registry.languages.map fun language =>
          if language.name = previous then release extension language else language
    owners := registry.owners.assign extension name }

/-- Enters a language, in place of the one that has its name. It takes its extensions away from all other
languages, and its name is no alias any more. -/
def insert (registry : Registry) (name : String) (marker : Marker) (extensions : List String) : Registry :=
  let name := Text.lowercase name
  let extensions := registry.claimed name extensions
  let freed := extensions.foldl (claim name) (registry.disown name extensions)
  { freed with
    languages := place ⟨name, marker, extensions⟩ freed.languages
    aliases := freed.aliases.without name }

def addAlias (registry : Registry) (name language : String) : Registry :=
  { registry with aliases := registry.aliases.assign name language }

/-- Enters described languages one after the other, up to the first whose marker cannot be read. -/
def extend (registry : Registry) : List (String × LanguageEntry) → Except Error Registry
  | [] => .ok registry
  | (name, entry) :: rest => do
    (registry.insert name (← Marker.parse entry.marker) entry.extensions).extend rest

/-- The marker of a language by its name or an alias, in any ASCII case and with blanks around it. -/
def byName (registry : Registry) (name : String) : Except Error Marker :=
  let key := Text.lowercase (String.ofList (Text.trim name.toList))
  match registry.get? ((registry.aliases.lookup key).getD key) with
  | some language => .ok language.marker
  | none => .error (.unsupportedLanguage name)

/-- The language under whose name an extension in lower case stands in the index. -/
def owner? (registry : Registry) (extension : String) : Option Language :=
  (registry.owners.lookup extension).bind registry.get?

/-- The marker of the language whose files have the extension of a path, in any ASCII case. -/
def byPath (registry : Registry) (path : Path) : Except Error Marker :=
  match path.extension?.bind Utf8.decode? with
  | none => .error (.unsupportedExtension (path.display ++ " has no extension"))
  | some extension =>
    let extension := String.ofList extension
    match registry.owner? (Text.lowercase extension) with
    | some language => .ok language.marker
    | none => .error (.unsupportedExtension ("." ++ extension))

/-- The marker for an input: that of the language given, unless the name is blank, or else that of the file's
extension. -/
def resolve (registry : Registry) (language : Option String) (path : Option Path) : Except Error Marker :=
  match language.filter (fun name => !Text.isAllBlank name.toList), path with
  | some name, _ => registry.byName name
  | none, some path => registry.byPath path
  | none, none => .error .missingLanguage

end Registry

structure BuiltinLanguage extends Language where
  aliases : List String := []

namespace BuiltinLanguage

def ofToken (token name : String) (extensions : List String) (aliases : List String := []) :
    BuiltinLanguage :=
  ⟨⟨name, .simple token, extensions⟩, aliases⟩

def table : List BuiltinLanguage :=
  [ofToken "//" "go" ["go"] ["golang"],
   ofToken "//" "js" ["js"] ["javascript"],
   ofToken "//" "ts" ["ts"] ["typescript"],
   ofToken "#" "bash" ["sh", "bash"] ["sh", "shell"],
   ofToken "//" "c" ["c", "h", "cc", "cpp"] ["c++", "cpp"],
   ofToken "//" "java" ["java"],
   ofToken "#" "python" ["py"] ["py"],
   ofToken "#" "ruby" ["rb"] ["rb"],
   ofToken "#" "perl" ["pl"],
   ofToken "//" "php" ["php"],
   ofToken "//" "swift" ["swift"],
   ofToken "//" "kotlin" ["kt", "kts"],
   ofToken "#" "r" ["r"],
   ofToken "--" "haskell" ["hs"],
   ofToken "--" "sql" ["sql"],
   ofToken "//" "rust" ["rs"],
   ofToken "//" "scala" ["scala"],
   ofToken "//" "dart" ["dart"],
   ofToken "//" "objective-c" ["mm"] ["objc"],
   ofToken "%" "matlab" ["m"],
   ofToken "--" "lua" ["lua"],
   ofToken "%" "erlang" ["erl"],
   ofToken "#" "elixir" ["ex", "exs"],
   ofToken "--" "vhdl" ["vhdl", "vhd"],
   ofToken "//" "verilog" ["v", "sv"],
   ⟨⟨"html", .paired "<!--" "-->", ["html", "htm"]⟩, []⟩]

end BuiltinLanguage

namespace Registry

def insertBuiltin (registry : Registry) (language : BuiltinLanguage) : Registry :=
  language.aliases.foldl (fun registry name => registry.addAlias name language.name)
    (registry.insert language.name language.marker language.extensions)

def builtin : Registry := BuiltinLanguage.table.foldl insertBuiltin {}

end Registry

end LineComment
