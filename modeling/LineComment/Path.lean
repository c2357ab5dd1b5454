import LineComment.Text.Utf8
import LineComment.Text

/-! Paths are runs of bytes with slashes between the names. Nothing here looks at a file system: the
functions take a path apart, extend it, and show it to a reader. -/

namespace LineComment

structure Path where
  bytes : Bytes
  deriving DecidableEq, Repr, Inhabited

namespace Path

def slash : UInt8 := 0x2f

def dot : UInt8 := 0x2e

def ofText (text : List Char) : Path := ⟨Utf8.encode text⟩

def ofString (text : String) : Path := ofText text.toList

/-- The path as shown to a reader, with U+FFFD for each ill-formed run. -/
def display (path : Path) : String := String.ofList (Utf8.lossy path.bytes)

def isAbsolute (path : Path) : Bool := path.bytes.head? == some slash

/-- Whether a path ends in a slash, which asks for a directory. -/
def endsInSlash (path : Path) : Bool := path.bytes.getLast? == some slash

def withoutLastSlashes (path : Path) : Path := ⟨(path.bytes.reverse.dropWhile (· == slash)).reverse⟩

/-- A path with a text after its last byte, which names a file beside it. -/
def sibling (path : Path) (ending : Bytes) : Path := ⟨path.bytes ++ ending⟩

/-- A relative path, seen from a directory. -/
def join (directory path : Path) : Path :=
  if path.isAbsolute || directory.bytes.isEmpty then path
  else if directory.endsInSlash then ⟨directory.bytes ++ path.bytes⟩
  else ⟨directory.bytes ++ slash :: path.bytes⟩

/-- What stands between the slashes of a path. -/
def segments (path : Path) : List Bytes := (path.bytes.splitOn slash).filter (· ≠ [])

/-- The segments without the single dots, which lead nowhere. -/
def components (path : Path) : List Bytes := path.segments.filter (· ≠ [dot])

/-- The ways to the directories above the last component, the nearest first. -/
def above (path : Path) : List (List Bytes) :=
  (List.range path.components.length).reverse.filterMap fun depth =>
    if depth = 0 then none else some (path.components.take depth)

/-- The directories from an absolute path up to the root, the path itself first. -/
def ancestors (path : Path) : List Path :=
  let names := path.segments
  (List.range (names.length + 1)).reverse.map fun depth =>
    ⟨if depth = 0 then [slash] else (names.take depth).flatMap fun name => slash :: name⟩

/-- The name a path ends in, if it ends in one: slashes and single dots at the end are dropped, and `..`
is no name. -/
def fileName? (path : Path) : Option Bytes :=
  match path.components.getLast? with
  | some name => if name = [dot, dot] then none else some name
  | none => none

/-- What stands after the last dot of the file name, if there is a dot that is not its first byte. -/
def extension? (path : Path) : Option Bytes := do
  let (stem, extension) ← Text.splitLast? dot (← path.fileName?)
  guard (stem ≠ [])
  return extension

end Path

end LineComment
