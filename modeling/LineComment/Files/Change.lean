import LineComment.Files.System

/-! What others may do to a file system between two operations of a run. -/

namespace LineComment

inductive Change where
  | write (path : Path) (data : Bytes) (mode : Nat)
  | makeDirectory (path : Path)
  | remove (path : Path)
  | link (path target : Path)
  deriving DecidableEq, Repr

namespace FileSystem

/-- Makes the directory at the end of some names, unless one is there. -/
def makeDirectory (fs : FileSystem) (start : Location) (names : List Bytes) :
    FileSystem × Except Fault Unit :=
  let place := fs.tree.walk .place FileTree.maxLinks start names
  let target := fs.tree.walk .target FileTree.maxLinks start names
  match place, target with
  | .ok ⟨location, none⟩, _ =>
    if fs.tree.isChangeable location then
      (fs.withTree (fs.tree.put location (.directory directoryMode)), .ok ())
    else (fs, .error .permissionDenied)
  | _, .ok ⟨_, some (.directory _)⟩ => (fs, .ok ())
  | .ok _, _ => (fs, .error .alreadyExists)
  | .error fault, _ => (fs, .error fault)

/-- Makes the first of some directories, each of which stands in the next. The others are made only as far as
they are missing. -/
def makeNested (fs : FileSystem) (start : Location) : List (List Bytes) → FileSystem × Except Fault Unit
  | [] => (fs, .ok ())
  | names :: outer =>
    match fs.makeDirectory start names with
    | (fs, .error .notFound) =>
      match fs.makeNested start outer with
      | (fs, .ok ()) => fs.makeDirectory start names
      | failed => failed
    | done => done

/-- Makes the first of some directories that a path leads to, each of which stands in the next. -/
def makeDirectories (fs : FileSystem) (path : Path) (names : List (List Bytes)) :
    FileSystem × Except Fault Unit :=
  if path.bytes.contains 0 then (fs, .error .invalidInput)
  else if names = [] then (fs, .ok ())
  else if FileTree.maxPath < path.bytes.length then (fs, .error .invalidFilename)
  else fs.makeNested (if path.isAbsolute then [] else fs.directory) names

/-- Writes a file in place of what it held, and gives it a mode. -/
def writeFile (fs : FileSystem) (path : Path) (data : Bytes) (mode : Nat) : FileSystem × Except Fault Unit :=
  match fs.writable path with
  | .error fault => (fs, .error fault)
  | .ok location => (fs.withTree (fs.tree.put location (.file mode data)), .ok ())

end FileSystem

def Change.apply (change : Change) (fs : FileSystem) : FileSystem × Except Fault Unit :=
  match change with
  | write path data mode =>
    match fs.makeDirectories path path.above with
    | (fs, .ok ()) => fs.writeFile path data mode
    | failed => failed
  | makeDirectory path =>
    fs.makeDirectories path (if path.components = [] then [] else path.segments :: path.above)
  | remove path =>
    match fs.place path with
    | .error fault => (fs, .error fault)
    | .ok ⟨_, none⟩ => (fs, .error .notFound)
    | .ok ⟨location, some _⟩ =>
      if fs.tree.isChangeable location ∧ fs.tree.isClearable location then
        ({ fs with
            tree := fs.tree.eraseAll location, opened := fs.opened.map (OpenFile.detach location) }, .ok ())
      else (fs, .error .permissionDenied)
  | link path target =>
    match fs.place path.withoutLastSlashes with
    | .error fault => (fs, .error fault)
    | .ok ⟨_, some _⟩ => (fs, .error .alreadyExists)
    | .ok ⟨location, none⟩ =>
      if path.endsInSlash then (fs, .error .notFound)
      else if ¬fs.tree.isChangeable location then (fs, .error .permissionDenied)
      else (fs.withTree (fs.tree.put location (.link target)), .ok ())

end LineComment
