import LineComment.Files.Walk

/-! A file system is a tree, a working directory and at most one file that is open for writing. Each
operation here either happens as a whole or fails with a fault and changes nothing. An open file is known by
where it is linked, so that writes to a file that has been removed reach no location. -/

namespace LineComment

/-- A file open for writing: one that stands at a location, with the offset of the next byte, one that has been removed,
or one that takes no bytes, as on a full disk. -/
inductive OpenFile where
  | linked (location : Location) (offset : Nat)
  | unlinked
  | full
  deriving DecidableEq, Repr

/-- An open file after everything at and below a location is gone. -/
def OpenFile.detach (gone : Location) : OpenFile → OpenFile
  | linked location offset => if gone.isPrefixOf location then unlinked else linked location offset
  | file => file

/-- A file system as one process sees it, with the place where relative paths start. -/
structure FileSystem where
  tree : FileTree := {}
  directory : Location := []
  opened : Option OpenFile := none
  deriving DecidableEq, Repr, Inhabited

namespace FileSystem

def defaultMode : Nat := 0o644

def directoryMode : Nat := 0o755

/-- The place a path leads to. A link under the last name is followed. -/
def target (fs : FileSystem) (path : Path) : Except Fault Spot := fs.tree.resolve fs.directory path .target

/-- The place a path names. A link under the last name is not followed. -/
def place (fs : FileSystem) (path : Path) : Except Fault Spot := fs.tree.resolve fs.directory path .place

/-- Whether anything stands at a path, be it a link that leads nowhere. -/
def isOccupied (fs : FileSystem) (path : Path) : Bool :=
  match fs.place path with
  | .ok ⟨_, some _⟩ => true
  | _ => false

def isPresent (fs : FileSystem) (path : Path) : Bool :=
  match fs.target path with
  | .ok ⟨_, some _⟩ => true
  | _ => false

def isFile (fs : FileSystem) (path : Path) : Bool :=
  match fs.target path with
  | .ok ⟨_, some (.file _ _)⟩ => true
  | _ => false

def find (fs : FileSystem) (path : Path) : Except Fault (Location × Entry) :=
  match fs.target path with
  | .error fault => .error fault
  | .ok ⟨_, none⟩ => .error .notFound
  | .ok ⟨location, some entry⟩ => .ok (location, entry)

def mode (fs : FileSystem) (path : Path) : Except Fault Nat :=
  (fs.find path).map fun (_, entry) => entry.mode

/-- What a path leads to, if it can be opened for reading. -/
def readable (fs : FileSystem) (path : Path) : Except Fault Entry :=
  match fs.find path with
  | .error fault => .error fault
  | .ok (_, entry) => if entry.isReadable then .ok entry else .error .permissionDenied

/-- The location a path leads to, if a file can be opened for writing there, be it a new one. -/
def writable (fs : FileSystem) (path : Path) : Except Fault Location :=
  match fs.tree.resolve fs.directory path .file with
  | .error fault => .error fault
  | .ok ⟨_, some (.directory _)⟩ => .error .isADirectory
  | .ok ⟨location, some entry⟩ => if entry.isWritable then .ok location else .error .permissionDenied
  | .ok ⟨location, none⟩ =>
    if fs.tree.isChangeable location then .ok location else .error .permissionDenied

/-- The bytes of the file a path leads to, and the fault that ends the reading. A directory can be opened,
but reading it fails. -/
def read (fs : FileSystem) (path : Path) : Except Fault (Bytes × Option Fault) :=
  (fs.readable path).map fun
    | .file _ data => (data, none)
    | _ => ([], some .isADirectory)

def withTree (fs : FileSystem) (tree : FileTree) : FileSystem := { fs with tree }

/-- Opens `dest` for writing, emptied if it is a file already, and with the mode of the regular file
`source`; gives the bytes of `source`. -/
def openCopy (fs : FileSystem) (source dest : Path) : FileSystem × Except Fault Bytes :=
  match fs.readable source with
  | .error fault => (fs, .error fault)
  | .ok (.file mode data) =>
    match fs.writable dest with
    | .error fault => (fs, .error fault)
    | .ok location =>
      ({ fs with
          tree := fs.tree.put location (.file mode []), opened := some (.linked location 0) }, .ok data)
  | .ok _ => (fs, .error .invalidInput)

/-- Makes a file where nothing stands, and opens it for writing. -/
def openNew (fs : FileSystem) (path : Path) : FileSystem × Except Fault Unit :=
  match fs.place path with
  | .error fault => (fs, .error fault)
  | .ok ⟨_, some _⟩ => (fs, .error .alreadyExists)
  | .ok ⟨location, none⟩ =>
    if fs.tree.isChangeable location then
      ({ fs with
          tree := fs.tree.put location (.file defaultMode []), opened := some (.linked location 0) }, .ok ())
    else (fs, .error .permissionDenied)

/-- The bytes of a file after `data` has been written at an offset; a gap before it is filled with zeros. -/
def overwrite (old : Bytes) (offset : Nat) (data : Bytes) : Bytes :=
  old.take offset ++ List.replicate (offset - old.length) 0 ++ data ++ old.drop (offset + data.length)

def clearBit (mode bit : Nat) : Nat := mode ^^^ (mode &&& 1 <<< bit)

/-- What a write leaves of the mode of a file: set-user-ID goes, and so does set-group-ID where the group may
execute the file. -/
def writtenMode (mode : Nat) : Nat :=
  if mode.testBit 3 then clearBit (clearBit mode 11) 10 else clearBit mode 11

/-- The mode of a file after `data` has been written to it. No bytes are no write. -/
def modeAfter (mode : Nat) (data : Bytes) : Nat := if data = [] then mode else writtenMode mode

def append (fs : FileSystem) (data : Bytes) : FileSystem × Except Fault Unit :=
  match fs.opened with
  | none => (fs, .error .other)
  | some .unlinked => (fs, .ok ())
  | some .full => (fs, if data = [] then .ok () else .error .storageFull)
  | some (.linked location offset) =>
    match fs.tree.entry? location with
    | some (.file mode old) =>
      ({ fs with
          tree := fs.tree.put location (.file (modeAfter mode data) (overwrite old offset data))
          opened := some (.linked location (offset + data.length)) }, .ok ())
    | _ => (fs, .error .other)

/-- Makes sure that the bytes written to the open file are kept, and closes it. -/
def settle (fs : FileSystem) : FileSystem × Except Fault Unit :=
  ({ fs with opened := none }, if fs.opened = some .full then .error .invalidInput else .ok ())

/-- Puts a file that takes no bytes in the place of the open file. -/
def fillDisk (fs : FileSystem) : FileSystem := { fs with opened := some .full }

/-- Gives what a path leads to a mode. The root keeps its own. -/
def setMode (fs : FileSystem) (path : Path) (mode : Nat) : FileSystem × Except Fault Unit :=
  match fs.find path with
  | .error fault => (fs, .error fault)
  | .ok (location, entry) =>
    if location = [] then (fs, .error .permissionDenied)
    else (fs.withTree (fs.tree.put location (entry.withMode mode)), .ok ())

def unlink (fs : FileSystem) (path : Path) : FileSystem × Except Fault Unit :=
  match fs.place path with
  | .error fault => (fs, .error fault)
  | .ok ⟨_, none⟩ => (fs, .error .notFound)
  | .ok ⟨location, some entry⟩ =>
    if ¬fs.tree.isChangeable location then (fs, .error .permissionDenied)
    else if entry.isDirectory then (fs, .error .isADirectory)
    else
      ({ fs with tree := fs.tree.erase location, opened := fs.opened.map (OpenFile.detach location) }, .ok ())

/-- Moves what stands at `source` to `dest` in one step, in place of a file or a link that stands there. A
directory may only take the place of an empty one. -/
def rename (fs : FileSystem) (source dest : Path) : FileSystem × Except Fault Unit :=
  match fs.place source, fs.place dest with
  | .error fault, _ => (fs, .error fault)
  | _, .error fault => (fs, .error fault)
  | .ok ⟨_, none⟩, _ => (fs, .error .notFound)
  | .ok ⟨source, some (.directory _)⟩, .ok ⟨dest, old⟩ =>
    if source = dest then (fs, .ok ())
    else if source.isPrefixOf dest then (fs, .error .invalidInput)
    else if ¬(fs.tree.isChangeable source ∧ fs.tree.isChangeable dest) then (fs, .error .permissionDenied)
    else match old with
      | some (.directory _) =>
        if fs.tree.isBare dest then (fs.withTree (fs.tree.moveDirectory source dest), .ok ())
        else (fs, .error .directoryNotEmpty)
      | some _ => (fs, .error .notADirectory)
      | none => (fs.withTree (fs.tree.moveDirectory source dest), .ok ())
  | .ok ⟨source, some entry⟩, .ok ⟨dest, old⟩ =>
    if source = dest then (fs, .ok ())
    else if ¬(fs.tree.isChangeable source ∧ fs.tree.isChangeable dest) then (fs, .error .permissionDenied)
    else if old.any Entry.isDirectory then (fs, .error .isADirectory)
    else
      ({ fs with
          tree := (fs.tree.put dest entry).erase source
          opened := fs.opened.map (OpenFile.detach dest) }, .ok ())

end FileSystem

end LineComment
