import LineComment.Error
import LineComment.Files.Tree

/-! Following a path from a directory: name by name, through dots and symbolic links, to the place where
the last name stands or could be made. The number of links followed is bounded, so that links which lead in a
circle are noticed. -/

namespace LineComment

/-- The place a path leads to: its directory exists, the place itself may be free. -/
structure Spot where
  location : Location
  entry : Option Entry
  deriving DecidableEq, Repr

/-- The names to follow for a path, in order. A slash at the end asks for a directory, as an empty last name
does. -/
def Path.names (path : Path) : List Bytes :=
  path.segments ++ if path.endsInSlash then [[]] else []

namespace FileTree

def maxName : Nat := 255

def maxPath : Nat := 4095

/-- The number of symbolic links that may be followed on one way. -/
def maxLinks : Nat := 40

/-- What a path is followed for: the place it names, be it that of a link, what it leads to over all links, or a file
that it leads to or that can be made there, so that the last name cannot have a slash behind it. -/
inductive Aim where
  | place
  | target
  | file
  deriving DecidableEq, Repr

/-- Where following names stops. -/
inductive Halt where
  | arrived (spot : Spot)
  | atLink (directory : Location) (target : Path) (rest : List Bytes)
  deriving DecidableEq, Repr

/-- Goes on from a location by some names up to the first symbolic link that has to be followed. Looking up a
name, be it a dot, takes a directory that can be searched. -/
def advance (tree : FileTree) (aim : Aim) (location : Location) : List Bytes → Except Fault Halt
  | [] => .ok (.arrived ⟨location, tree.entry? location⟩)
  | name :: rest =>
    match tree.entry? location with
    | none => .error .notFound
    | some (.file _ _) => .error .notADirectory
    | some (.link _) => .error .notADirectory
    | some (.directory mode) =>
      if name = [] then tree.advance aim location rest
      else if ¬(Entry.directory mode).isSearchable then .error .permissionDenied
      else if name = [Path.dot] then tree.advance aim location rest
      else if name = [Path.dot, Path.dot] then tree.advance aim location.dropLast rest
      else if aim = .file ∧ rest = [[]] then .error .isADirectory
      else if maxName < name.length then .error .invalidFilename
      else
        match tree.entry? (location ++ [name]) with
        | none => if rest = [] then .ok (.arrived ⟨location ++ [name], none⟩) else .error .notFound
        | some (.link target) =>
          if rest = [] ∧ aim = .place then .ok (.arrived ⟨location ++ [name], some (.link target)⟩)
          else .ok (.atLink location target rest)
        | some _ => tree.advance aim (location ++ [name]) rest

/-- Goes on from a location by some names, with `links` symbolic links left to follow. -/
def walk (tree : FileTree) (aim : Aim) (links : Nat) (location : Location) (names : List Bytes) :
    Except Fault Spot :=
  match tree.advance aim location names with
  | .error fault => .error fault
  | .ok (.arrived spot) => .ok spot
  | .ok (.atLink directory target rest) =>
    match links with
    | 0 => .error .filesystemLoop
    | links + 1 =>
      tree.walk aim links (if target.isAbsolute then [] else directory) (target.names ++ rest)

def resolve (tree : FileTree) (directory : Location) (path : Path) (aim : Aim) : Except Fault Spot :=
  if path.bytes.contains 0 then .error .invalidInput
  else if path.bytes = [] then .error .notFound
  else if maxPath < path.bytes.length then .error .invalidFilename
  else tree.walk aim maxLinks (if path.isAbsolute then [] else directory) path.names

end FileTree

end LineComment
