import LineComment.Script

/-! Replacing the content of a file so that its path holds the old or the new content in full at every
moment. The old content is copied to a backup beside the file, the new content is written to a temporary
file beside it, and the temporary file is moved over the old one. A success removes the backup; a failure
removes the temporary file, if this run made it, and moves the backup back. Neither name may be taken at the
start. -/

namespace LineComment

def backupEnding : Bytes := Utf8.encode ".bak".toList

def tempEnding : Bytes := Utf8.encode ".tmp".toList

def Path.backup (path : Path) : Path := path.sibling backupEnding

def Path.temp (path : Path) : Path := path.sibling tempEnding

/-- A step in the making of the new content, or something that happens meanwhile: the disk becomes full, or someone else
changes the file system. -/
inductive Command where
  | emit (data : Bytes)
  | flush
  | fail (error : Error)
  | fillDisk
  | interfere (change : Change)
  deriving DecidableEq, Repr

/-- The bytes written but not yet handed on to the open file. -/
structure Buffer where
  pending : Bytes := []
  deriving DecidableEq, Repr

namespace Buffer

def capacity : Nat := 8192

/-- Hands on the bytes held back. -/
def drain (buffer : Buffer) : Script (Except Fault Unit × Buffer) := do
  if buffer.pending = [] then return (.ok (), buffer)
  else
    match ← Script.call (.append buffer.pending) with
    | .ok () => return (.ok (), {})
    | .error fault => return (.error fault, buffer)

/-- Takes bytes that have room among an empty buffer's bytes, or hands them on when they fill one alone. -/
def take (buffer : Buffer) (data : Bytes) : Script (Except Fault Unit × Buffer) := do
  if capacity ≤ data.length then return (← Script.call (.append data), buffer)
  else return (.ok (), ⟨buffer.pending ++ data⟩)

/-- Writes some bytes. The bytes held back are handed on first when the new ones do not fit beside them. -/
def write (buffer : Buffer) (data : Bytes) : Script (Except Fault Unit × Buffer) := do
  if buffer.pending.length + data.length < capacity then return (.ok (), ⟨buffer.pending ++ data⟩)
  else if buffer.pending.length + data.length = capacity then buffer.take data
  else
    match ← buffer.drain with
    | (.ok (), buffer) => buffer.take data
    | failed => return failed

end Buffer

namespace Replacement

/-- Carries out commands up to the first that fails; gives the bytes still held back too. -/
def perform (buffer : Buffer) : List Command → Script (Except Error Unit × Buffer)
  | [] => return (.ok (), buffer)
  | .emit data :: rest => do
    match ← buffer.write data with
    | (.ok (), buffer) => perform buffer rest
    | (.error fault, buffer) => return (.error (.io .writing fault), buffer)
  | .flush :: rest => do
    match ← buffer.drain with
    | (.ok (), buffer) => perform buffer rest
    | (.error fault, buffer) => return (.error (.io (.flushing "temp") fault), buffer)
  | .fail error :: _ => return (.error error, buffer)
  | .fillDisk :: rest => do
    Script.call .fillDisk
    perform buffer rest
  | .interfere change :: rest => do
    Script.call (.interfere change)
    perform buffer rest

/-- Hands on what it can of the bytes held back by a writer that is given up, and closes the open file. -/
def abandon (buffer : Buffer) : Script Unit := do
  discard buffer.drain
  discard (Script.call .settle)

/-- Hands on the last bytes, and makes sure that they are kept. -/
def complete (buffer : Buffer) : Script (Except Fault Unit) := do
  match ← buffer.drain with
  | (.ok (), _) => Script.call .settle
  | (.error fault, buffer) =>
    abandon buffer
    return .error fault

def fill (temp : Path) (commands : List Command) : Attempt Unit := do
  match ← (perform {} commands : Script _) with
  | (.ok (), buffer) => attempt (.completing temp) (complete buffer)
  | (.error error, buffer) =>
    abandon buffer
    throw error

/-- Fills the temporary file, gives it the old file's mode, and moves it over the old file. -/
def install (path : Path) (mode : Nat) (commands : List Command) : Attempt Unit := do
  fill path.temp commands
  attempt (.permitting path.temp) (Script.call (.setMode path.temp mode))
  attempt (.moving path.temp) (Script.call (.rename path.temp path))

def copyBackup (path : Path) : Script (Except Fault Unit) := do
  match ← Script.call (.openCopy path path.backup) with
  | .error fault => return .error fault
  | .ok data =>
    match ← Script.call (.append data) with
    | .error fault => return .error fault
    | .ok () => Script.call .settle

/-- Makes sure that neither name is taken, asks for the mode of the file and makes the backup. A backup that
could not be filled is removed. -/
def prepare (path : Path) : Attempt Nat := do
  if ← Script.call (.isOccupied path.backup) then throw (.artifactExists path.backup)
  if ← Script.call (.isOccupied path.temp) then throw (.artifactExists path.temp)
  let mode ← attempt .inspecting (Script.call (.mode path))
  match ← (copyBackup path : Script _) with
  | .ok () => return mode
  | .error fault =>
    discard (Script.call (.unlink path.backup) : Script _)
    throw (.io (.backingUp path.backup) fault)

/-- Moves the backup back, after removing the temporary file if this run made it. -/
def restore (path : Path) (madeTemp : Bool) : Script Unit := do
  if madeTemp then discard (Script.call (.unlink path.temp))
  discard (Script.call (.rename path.backup path))

end Replacement

/-- Replaces the content of a file by what some commands write. -/
def replaceFile (path : Path) (commands : List Command) : Attempt Unit := do
  let mode ← Replacement.prepare path
  match ← (Script.call (.openNew path.temp) : Script _) with
  | .error fault =>
    Replacement.restore path false
    throw (.io (.creating path.temp) fault)
  | .ok () =>
    try Replacement.install path mode commands
    catch error =>
      Replacement.restore path true
      throw error
    discard (Script.call (.unlink path.backup) : Script _)

end LineComment
