import LineComment.Proofs.Edits

/-! Sessions: calls of the program or of its parts, one after the other, with nobody else at work. Between two calls
the input and the configuration can become others. One call leaves every name in place, every directory, and every
file with its mode or what a write leaves of it, and so do all of them together: no backup, no temporary file and no
mode of such a file is ever left. -/

namespace LineComment

open CommandLine

/-- A call of the program, or of a part of it that works on files. -/
inductive Call where
  | apply (job : Job)
  | batch (options : BatchOptions) (registry : Registry) (targets : List Target)
  | program (invocation : Invocation) (scripts : Shell → Bytes) (environment : Environment)
  | replace (path : Path) (commands : List Command) (own : ∀ change, .interfere change ∉ commands)

namespace Call

/-- The world after a call, however the call ends. -/
def after (call : Call) (world : World) : World :=
  match call with
  | apply job => (job.apply.run.run world).1
  | batch options registry targets => ((options.applyAll registry targets).run.run world).1
  | program invocation scripts environment => ((invocation.run scripts environment).run.run world).1
  | replace path commands _ => ((replaceFile path commands).run.run world).1

/-- The paths of the files that a call is to change: those that it lists, and none in a dry run. -/
def writes (call : Call) (world : World) : List Path :=
  match call with
  | apply job => job.writes
  | batch options _ targets => options.writes targets
  | program invocation _ environment => invocation.writes environment world
  | replace path _ _ => [path]

/-- One call. -/
theorem edited_after (call : Call) (world : World) :
    world.files.Edited (call.writes world) (call.after world).files := by
  cases call with
  | apply job => exact job.edits_apply world
  | batch options registry targets => exact options.edits_applyAll registry targets world
  | program invocation scripts environment => exact invocation.editsFrom_run scripts environment
  | replace path commands own => exact Replacement.edits_replaceFile path own world

end Call

/-- What there is outside some locations has lasted: the names are the same, a directory is the same directory, and a
file is a file with the same mode, or with what a write leaves of it. -/
structure FileTree.Lasts (isOut : Location → Prop) (tree later : FileTree) : Prop where
  names : ∀ location, ¬isOut location → (later.entry? location).isSome = (tree.entry? location).isSome
  directories : ∀ location mode, ¬isOut location → tree.entry? location = some (.directory mode) →
    later.entry? location = some (.directory mode)
  files : ∀ location mode old, ¬isOut location → tree.entry? location = some (.file mode old) →
    ∃ kept new, FileSystem.ModeLasts mode kept ∧ later.entry? location = some (.file kept new)

theorem FileTree.lasts_of_persists {isOut : Location → Prop} {tree later : FileTree}
    (h : ∀ location, ¬isOut location → Entry.Persists (tree.entry? location) (later.entry? location)) :
    tree.Lasts isOut later := by
  refine ⟨fun location hin => (h location hin).isSome_eq, fun location mode hin hentry => ?_,
    fun location mode old hin hentry => ?_⟩
  · have hlasts := h location hin
    rw [hentry] at hlasts
    exact hlasts.of_directory
  · have hlasts := h location hin
    rw [hentry] at hlasts
    exact hlasts.exists_of_file

/-- What can happen between two calls: there are another input, another output and another working directory, and
something else where the configuration is kept. -/
def Between (isConfig : Location → Prop) (world next : World) : Prop :=
  ∀ location, ¬isConfig location → next.files.tree.entry? location = world.files.tree.entry? location

theorem between_withInput (isConfig : Location → Prop) (world : World) (input : Reader) :
    Between isConfig world { world with input } := fun _ _ => rfl

theorem between_self (isConfig : Location → Prop) (world : World) : Between isConfig world world := fun _ _ => rfl

/-- The worlds to which calls lead, one after the other. -/
inductive Session (isConfig : Location → Prop) (start : World) : World → Prop where
  | start : Session isConfig start start
  | call {world next : World} (h : Session isConfig start world) (hbetween : Between isConfig world next)
      (call : Call) : Session isConfig start (call.after next)

namespace Session

variable {isConfig : Location → Prop} {start world next : World}

theorem persists (h : Session isConfig start world) : ∀ location, ¬isConfig location →
    Entry.Persists (start.files.tree.entry? location) (world.files.tree.entry? location) := by
  induction h with
  | start => exact fun location _ => .same _
  | @call world next _ hbetween call ih =>
      intro location hlocation
      have hnext := (call.edited_after next).persists location
      rw [hbetween location hlocation] at hnext
      exact (ih location hlocation).trans hnext

/-- After any call of a session, whether it has succeeded or failed, there are the same names as at the start of the
session and as before the call, with the same directories and with files of the same modes, from which no more than
set-user-ID and set-group-ID can have been lost. What stands at a location is not as it was before the call only if the
call is no dry run and lists a path that names this location. -/
theorem lasts (h : Session isConfig start world) (hbetween : Between isConfig world next) (call : Call) :
    start.files.tree.Lasts isConfig (call.after next).files.tree ∧
    next.files.tree.Lasts (fun _ => False) (call.after next).files.tree ∧
    ∀ location, (call.after next).files.tree.entry? location ≠ next.files.tree.entry? location →
      ∃ path ∈ call.writes next, next.files.place path = .ok ⟨location, next.files.tree.entry? location⟩ := by
  have hedited := call.edited_after next
  refine ⟨FileTree.lasts_of_persists (h.call hbetween call).persists,
    FileTree.lasts_of_persists fun location _ => hedited.persists location, fun location hchanged => ?_⟩
  obtain ⟨path, hpath, directory, name, hnames, rfl⟩ := hedited.named location hchanged
  exact ⟨path, hpath, hnames.place⟩

/-- The program changes a file, and then stops at one beside which the name of a backup is taken. A job on a link, with
other input, fails afterwards, and so does one on a file that runs as its owner, and does so no longer. -/
theorem lasts_taken_name_and_link :
    let start : World := { files := { tree := { entries := [
      ([[0x64]], .directory 0o755), ([[0x64], [0x66]], .file 0o600 [0x61, 0x0a]), ([[0x67]], .file 0o644 [0x62]),
      ([[0x67, 0x2e, 0x62, 0x61, 0x6b]], .file 0o444 []), ([[0x68]], .file 0o4711 [0x62]),
      ([[0x6c]], .link ⟨[0x67]⟩)] } } }
    let first : Call :=
      .program { arguments := { file := "d/f:1,g:1", marker := "//", action := some .comment } } (fun _ => []) {}
    let second : Call := .apply ⟨.file ⟨[0x6c]⟩, .lines ⟨9, 9, by decide, by decide⟩, .simple "//", .comment, false⟩
    let third : Call := .apply ⟨.file ⟨[0x68]⟩, .lines ⟨9, 9, by decide, by decide⟩, .simple "//", .comment, false⟩
    let next : World := { first.after start with input := ⟨[0x63], none⟩ }
    start.files.tree.Lasts (fun _ => False) (third.after (second.after next)).files.tree ∧
    (second.after next).files.tree.Lasts (fun _ => False) (third.after (second.after next)).files.tree ∧
    (third.after (second.after next)).files.tree.entry? [[0x64], [0x66]] =
      some (.file 0o600 [0x2f, 0x2f, 0x20, 0x61, 0x0a]) ∧
    (third.after (second.after next)).files.tree.entry? [[0x68]] = some (.file 0o711 [0x62]) ∧
    (third.after (second.after next)).files.tree.entry? [[0x6c]] = some (.file 0o644 [0x62]) := by
  intro start first second third next
  have hfirst : Session (fun _ => False) start (first.after start) :=
    Session.call .start (between_self _ start) first
  have hnext : Between (fun _ => False) (first.after start) next := between_withInput _ _ _
  obtain ⟨hstart, hlast, -⟩ := (hfirst.call hnext second).lasts (between_self _ (second.after next)) third
  refine ⟨hstart, hlast, ?_, ?_, ?_⟩
  · decide +kernel
  · decide +kernel
  · decide +kernel

end Session

end LineComment
