import LineComment.Proofs.Replacement.Site
import LineComment.Proofs.Stages

/-! The stages of a replacement. Three steps decide about the path and its backup: the temporary file is moved
over the path, the backup is moved over the path, the backup is removed. Which of them have been taken says
what stands under the three names of the site. -/

namespace LineComment

namespace Command

/-- All the bytes that some commands write, in order. -/
def emitted (commands : List Command) : Bytes :=
  commands.flatMap fun
    | emit data => data
    | _ => []

/-- What some commands write when every write is taken, or the error of the first that gives up. -/
def outcome : List Command → Except Error Bytes
  | [] => .ok []
  | emit data :: rest => (outcome rest).map (data ++ ·)
  | fail error :: _ => .error error
  | _ :: rest => outcome rest

theorem outcome_of_not_fail {commands : List Command} (h : ∀ error, fail error ∉ commands) :
    outcome commands = .ok (emitted commands) := by
  induction commands with
  | nil => rfl
  | cons command rest ih =>
      have hrest := ih fun error hmem => h error (List.mem_cons_of_mem _ hmem)
      cases command with
      | emit data =>
          rw [outcome, hrest]
          rfl
      | fail error => exact absurd List.mem_cons_self (h error)
      | flush | fillDisk | interfere change => exact hrest

theorem outcome_of_fail {commands : List Command} {error : Error} (h : fail error ∈ commands) :
    ∃ first, outcome commands = .error first ∧ fail first ∈ commands := by
  induction commands with
  | nil => cases h
  | cons command rest ih =>
      cases command with
      | fail first => exact ⟨first, rfl, List.mem_cons_self⟩
      | emit data =>
          obtain ⟨first, hfirst, hmem⟩ := ih (by simpa using h)
          exact ⟨first, by rw [outcome, hfirst]; rfl, List.mem_cons_of_mem _ hmem⟩
      | flush | fillDisk | interfere change =>
          obtain ⟨first, hfirst, hmem⟩ := ih (by simpa using h)
          exact ⟨first, hfirst, List.mem_cons_of_mem _ hmem⟩

/-- The commands give up exactly when one of them does, and otherwise write all they emit. -/
theorem outcome_eq_ok_iff {commands : List Command} {new : Bytes} :
    outcome commands = .ok new ↔ (∀ error, fail error ∉ commands) ∧ new = emitted commands := by
  constructor
  · intro houtcome
    have hnone : ∀ error, fail error ∉ commands := by
      intro error hmem
      obtain ⟨first, hfirst, _⟩ := outcome_of_fail hmem
      rw [houtcome] at hfirst
      cases hfirst
    rw [outcome_of_not_fail hnone] at houtcome
    exact ⟨hnone, (Except.ok.inj houtcome).symm⟩
  · rintro ⟨hnone, rfl⟩
    exact outcome_of_not_fail hnone

end Command

namespace Replacement

variable {path : Path} {world now : World} {past : List Operation}

theorem temp_ne_backup (path : Path) : path.temp ≠ path.backup := by
  intro heq
  have hendings : tempEnding = backupEnding := List.append_cancel_left (congrArg Path.bytes heq)
  exact absurd hendings (by decide)

/-- Whether a step decides about a path or its backup. -/
def isDecisive (path : Path) : Operation → Bool
  | .rename source dest => dest = path && (source = path.temp || source = path.backup)
  | .unlink gone => gone = path.backup
  | _ => false

/-- The steps that have decided about a path or its backup. -/
def decisions (path : Path) (past : List Operation) : List Operation := past.filter (isDecisive path)

theorem decisions_append_of_not {operation : Operation} (h : isDecisive path operation = false) :
    decisions path (past ++ [operation]) = decisions path past := by
  simp [decisions, h]

theorem decisions_append {operation : Operation} (h : isDecisive path operation) :
    decisions path (past ++ [operation]) = decisions path past ++ [operation] := by
  simp [decisions, h]

theorem mem_decisions {operation : Operation} (h : isDecisive path operation) :
    operation ∈ decisions path past ↔ operation ∈ past := by
  rw [decisions, List.mem_filter, and_iff_left h]

theorem isDecisive_install : isDecisive path (.rename path.temp path) := by simp [isDecisive]

theorem isDecisive_restore : isDecisive path (.rename path.backup path) := by simp [isDecisive]

theorem isDecisive_discard : isDecisive path (.unlink path.backup) := by simp [isDecisive]

theorem not_isDecisive_cleanup : isDecisive path (.unlink path.temp) = false := by
  simp [isDecisive, temp_ne_backup]

/-- A moment of a replacement after the backup has been made: which steps have decided, and what stands under
the three names. Nothing but files has been touched. -/
structure Site.At (site : Site world.files path) (decided : List Operation) (backup temp entry : Option Entry)
    (past : List Operation) (now : World) : Prop where
  decided : decisions path past = decided
  settled : Operation.settle ∈ past
  input : now.input = world.input
  output : now.output = world.output
  shows : site.Shows now.files backup temp entry

namespace Site

variable {site : Site world.files path} {decided : List Operation} {backup temp entry : Option Entry}

/-- The history of the deciding steps is known. -/
theorem At.mem_iff (h : site.At decided backup temp entry past now) {operation : Operation}
    (hoperation : isDecisive path operation) : operation ∈ past ↔ operation ∈ decided := by
  rw [← mem_decisions hoperation, h.decided]

/-- A step on the files that decides nothing. -/
theorem At.step {backup' temp' entry' : Option Entry} {later : FileSystem} {operation : Operation}
    (h : site.At decided backup temp entry past now) (hstep : isDecisive path operation = false)
    (hshows : site.Shows later backup' temp' entry') :
    site.At decided backup' temp' entry' (past ++ [operation]) { now with files := later } :=
  ⟨(decisions_append_of_not hstep).trans h.decided, List.mem_append_left _ h.settled, h.input, h.output, hshows⟩

/-- A step on the files that decides. -/
theorem At.decide {backup' temp' entry' : Option Entry} {later : FileSystem} {operation : Operation}
    (h : site.At decided backup temp entry past now) (hstep : isDecisive path operation)
    (hshows : site.Shows later backup' temp' entry') :
    site.At (decided ++ [operation]) backup' temp' entry' (past ++ [operation]) { now with files := later } :=
  ⟨by rw [decisions_append hstep, h.decided], List.mem_append_left _ h.settled, h.input, h.output, hshows⟩

variable (site)

/-- The backup holds a copy of the old file, and the path's own name is as it was. -/
def Kept (temp : Option Entry) : List Operation → World → Prop := site.At [] site.copy temp site.original

/-- The new file stands under the path's own name, and the backup is still there. -/
def Installed (new : Bytes) : List Operation → World → Prop :=
  site.At [.rename path.temp path] site.copy none (some (.file site.mode new))

/-- The new file stands under the path's own name alone. -/
def Finished (new : Bytes) : List Operation → World → Prop :=
  site.At [.rename path.temp path, .unlink path.backup] none none (some (.file site.mode new))

/-- The backup has been moved back. -/
def Restored : List Operation → World → Prop := site.At [.rename path.backup path] none none site.copy

end Site

/-- A replacement has not begun: nothing has been changed, and no backup has been made. -/
structure Untouched (path : Path) (world : World) (past : List Operation) (now : World) : Prop where
  same : now = world
  settled : Operation.settle ∉ past
  installed : Operation.rename path.temp path ∉ past

/-- The moments of a replacement by what some commands write. -/
inductive Stage (path : Path) (commands : List Command) (world : World) (past : List Operation) (now : World) :
    Prop where
  | untouched (h : Untouched path world past now)
  | copying (site : Site world.files path) (backup : Option Entry) (settled : Operation.settle ∉ past)
      (installed : Operation.rename path.temp path ∉ past)
      (shows : site.Shows now.files backup none site.original)
  | kept (site : Site world.files path) (temp : Option Entry) (h : site.Kept temp past now)
  | installed (site : Site world.files path) (new : Bytes) (outcome : Command.outcome commands = .ok new)
      (h : site.Installed new past now)
  | finished (site : Site world.files path) (new : Bytes) (outcome : Command.outcome commands = .ok new)
      (h : site.Finished new past now)
  | restored (site : Site world.files path) (h : site.Restored past now)

/-- Why a replacement can be refused before anything is changed. -/
inductive Refusal (path : Path) (world : World) : Error → Prop where
  | backup : world.files.isOccupied path.backup → Refusal path world (.artifactExists path.backup)
  | temp : world.files.isOccupied path.temp → Refusal path world (.artifactExists path.temp)
  | inspecting (fault : Fault) : Refusal path world (.io .inspecting fault)
  | backingUp (fault : Fault) : Refusal path world (.io (.backingUp path.backup) fault)

/-- How a replacement can end. -/
inductive Ending (path : Path) (commands : List Command) (world : World) (past : List Operation) (now : World) :
    Except Error Unit → Prop where
  | refused {error : Error} (refusal : Refusal path world error) (h : Untouched path world past now)
      (nosite : ¬Nonempty (Site world.files path)) :
      Ending path commands world past now (.error error)
  | restored {error : Error} (site : Site world.files path) (h : site.Restored past now)
      (outcome : .fillDisk ∉ commands → Command.outcome commands = .error error) :
      Ending path commands world past now (.error error)
  | finished (site : Site world.files path) (new : Bytes) (h : site.Finished new past now)
      (roomy : .fillDisk ∉ commands) (outcome : Command.outcome commands = .ok new) :
      Ending path commands world past now (.ok ())

theorem Ending.stage {commands : List Command} {result : Except Error Unit}
    (h : Ending path commands world past now result) : Stage path commands world past now := by
  cases h with
  | refused _ h _ => exact .untouched h
  | restored site h _ => exact .restored site h
  | finished site new h _ houtcome => exact .finished site new houtcome h

end Replacement

end LineComment
