import LineComment.Files.Change
import LineComment.Scan

/-! A run as a script of steps on a world, which is the file system, the standard input and the output. Each step is one
operation with an answer of its own type; nothing else happens during it, and between two of them others may act. A
script is a step and, for each answer, the script that follows. -/

namespace LineComment

/-- The output of a run, with the pieces taken, the last one first. It may have room for only so many more bytes, and
handing them on may fail. -/
structure Sink where
  pieces : List Bytes := []
  room : Option Nat := none
  flushFault : Option Fault := none
  deriving DecidableEq, Repr, Inhabited

namespace Sink

def written (sink : Sink) : Bytes := sink.pieces.reverse.flatten

/-- Writes some bytes. Those for which there is no room are lost, and the write fails. -/
def write (sink : Sink) (data : Bytes) : Sink × Except Fault Unit :=
  match sink.room with
  | none => ({ sink with pieces := data :: sink.pieces }, .ok ())
  | some room =>
    if data.length ≤ room then
      ({ sink with pieces := data :: sink.pieces, room := some (room - data.length) }, .ok ())
    else ({ sink with pieces := data.take room :: sink.pieces, room := some 0 }, .error .other)

def flush (sink : Sink) : Except Fault Unit :=
  match sink.flushFault with
  | none => .ok ()
  | some fault => .error fault

end Sink

structure World where
  files : FileSystem := {}
  input : Reader := ⟨[], none⟩
  output : Sink := {}
  deriving Inhabited

/-- One step of a run. The last two are not taken by the program: the disk under the open file becomes full, or someone
else changes the file system. -/
inductive Operation where
  | workingDirectory
  | isOccupied (path : Path)
  | isPresent (path : Path)
  | isFile (path : Path)
  | mode (path : Path)
  | read (path : Path)
  | openCopy (source dest : Path)
  | openNew (path : Path)
  | append (data : Bytes)
  | settle
  | setMode (path : Path) (bits : Nat)
  | rename (source dest : Path)
  | unlink (path : Path)
  | readInput
  | print (data : Bytes)
  | flush
  | fillDisk
  | interfere (change : Change)

namespace Operation

@[reducible] def Answer : Operation → Type
  | workingDirectory => Path
  | isOccupied _ | isPresent _ | isFile _ => Bool
  | mode _ => Except Fault Nat
  | read _ => Except Fault Reader
  | openCopy _ _ => Except Fault Bytes
  | readInput => Reader
  | fillDisk | interfere _ => Unit
  | _ => Except Fault Unit

def pathOf (location : Location) : Path :=
  if location = [] then ⟨[Path.slash]⟩ else ⟨location.flatMap fun name => Path.slash :: name⟩

/-- Uses the outcome of an operation on the files as that of a step. -/
def onFiles {α : Type} (world : World) (outcome : FileSystem × α) : World × α :=
  ({ world with files := outcome.1 }, outcome.2)

def run (operation : Operation) (world : World) : World × operation.Answer :=
  match operation with
  | workingDirectory => (world, pathOf world.files.directory)
  | isOccupied path => (world, world.files.isOccupied path)
  | isPresent path => (world, world.files.isPresent path)
  | isFile path => (world, world.files.isFile path)
  | mode path => (world, world.files.mode path)
  | read path => (world, (world.files.read path).map fun (bytes, fault) => ⟨bytes, fault⟩)
  | openCopy source dest => onFiles world (world.files.openCopy source dest)
  | openNew path => onFiles world (world.files.openNew path)
  | append data => onFiles world (world.files.append data)
  | settle => onFiles world world.files.settle
  | setMode path bits => onFiles world (world.files.setMode path bits)
  | rename source dest => onFiles world (world.files.rename source dest)
  | unlink path => onFiles world (world.files.unlink path)
  | readInput => (world, world.input)
  | print data => ({ world with output := (world.output.write data).1 }, (world.output.write data).2)
  | flush => (world, world.output.flush)
  | fillDisk => onFiles world (world.files.fillDisk, ())
  | interfere change => onFiles world ((change.apply world.files).1, ())

end Operation

/-- A run that gives a value. -/
inductive Script (α : Type) where
  | done (value : α)
  | step (operation : Operation) (next : operation.Answer → Script α)

namespace Script

def bind {α β : Type} (script : Script α) (f : α → Script β) : Script β :=
  match script with
  | done value => f value
  | step operation next => step operation fun answer => (next answer).bind f

instance : Monad Script where
  pure := done
  bind := bind

def call (operation : Operation) : Script operation.Answer := step operation done

def run {α : Type} (script : Script α) (world : World) : World × α :=
  match script with
  | done value => (world, value)
  | step operation next =>
    let (world, answer) := operation.run world
    (next answer).run world

end Script

/-- A script that may end in an error, and then goes no further. -/
abbrev Attempt (α : Type) := ExceptT Error Script α

/-- Takes a step and reports a fault as an error of the activity it is part of. -/
def attempt {α : Type} (activity : Activity) (script : Script (Except Fault α)) : Attempt α := do
  match ← script with
  | .ok value => return value
  | .error fault => throw (.io activity fault)

/-- Writes some pieces to the output, up to the first that is not taken. -/
def printAll (activity : Activity) : List Bytes → Attempt Unit
  | [] => return
  | piece :: rest => do
    attempt activity (Script.call (.print piece))
    printAll activity rest

def flushOutput (what : String) : Attempt Unit := attempt (.flushing what) (Script.call .flush)

end LineComment
