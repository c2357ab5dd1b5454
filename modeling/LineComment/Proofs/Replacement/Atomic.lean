import LineComment.Proofs.Files.Resemblance

/-! A replacement is all or nothing. Where the path is not that of a link, an error leaves every entry as it
was, except that the file can lose set-user-ID and set-group-ID, which its backup has lost when it was written. A
success changes the one file and nothing else. -/

namespace LineComment.Replacement

open FileSystem Script

variable {fs now : FileSystem} {path : Path} {world : World} {commands : List Command}

/-- The name that is found to be taken: that of the backup is looked at first. -/
def artifact (fs : FileSystem) (path : Path) : Path := if fs.isOccupied path.backup then path.backup else path.temp

/-- Nothing but asking whether names are taken has been done. -/
def Asking (world : World) (past : List Operation) (now : World) : Prop :=
  now = world ∧ ∀ operation ∈ past, ∃ name, operation = .isOccupied name

/-- If one of the two names is taken, the run asks and gives up, whatever the commands are. -/
theorem upholds_asking (commands : List Command)
    (htaken : world.files.isOccupied path.backup ∨ world.files.isOccupied path.temp) :
    (replaceFile path commands).run.Upholds (Asking world) (fun past now result =>
      Asking world past now ∧ result = .error (.artifactExists (artifact world.files path))) [] world := by
  rw [replaceFile, Attempt.upholds_bind]
  unfold prepare
  refine Attempt.upholds_call_bind rfl ⟨rfl, by simp⟩ ?_
  by_cases hbackup : world.files.isOccupied path.backup
  · rw [if_pos hbackup, artifact, if_pos hbackup]
    exact ⟨⟨rfl, by simp⟩, rfl⟩
  · rw [if_neg hbackup, artifact, if_neg hbackup]
    refine Attempt.upholds_call_bind rfl ⟨rfl, by simp⟩ ?_
    rw [if_pos (htaken.resolve_left hbackup)]
    exact ⟨⟨rfl, by simp⟩, rfl⟩

namespace Site

variable {site : Site fs path}

/-- Where the path does not name a link, it names the file itself. -/
theorem original_of_not_link (site : Site fs path)
    (hplace : ∀ location target, fs.place path ≠ .ok ⟨location, some (.link target)⟩) :
    site.original = some (.file site.mode site.data) := by
  rcases site.original_cases with ⟨hfile, _⟩ | ⟨target, _, hlink, _⟩
  · exact hfile
  · refine absurd ?_ (hplace site.place target)
    rw [site.names.place, ← Site.place, ← hlink]
    rfl

theorem place_of_not_link (site : Site fs path)
    (hplace : ∀ location target, fs.place path ≠ .ok ⟨location, some (.link target)⟩) :
    fs.place path = .ok ⟨site.place, some (.file site.mode site.data)⟩ := by
  rw [site.names.place, ← site.original_of_not_link hplace]
  rfl

end Site

/-- The files after a replacement of a file has been given up. A copy of the file stands in its place, which was the
backup before, and all else is as it was. -/
structure Undone (fs : FileSystem) (path : Path) (location : Location) (mode : Nat) (old : Bytes) (later : FileSystem) :
    Prop where
  directory : later.directory = fs.directory
  place : fs.place path = .ok ⟨location, some (.file mode old)⟩
  entries : ∀ other, later.tree.entry? other =
    if other = location then some (.file (modeAfter mode old) old) else fs.tree.entry? other

theorem Undone.entry?_eq_iff {location : Location} {mode : Nat} {old : Bytes}
    (h : Undone fs path location mode old now) :
    (∀ other, now.tree.entry? other = fs.tree.entry? other) ↔ modeAfter mode old = mode := by
  have hfile : fs.tree.entry? location = some (.file mode old) := FileSystem.entry_of_resolve h.place
  constructor
  · intro hsame
    have hkept := (h.entries location).symm.trans ((hsame location).trans hfile)
    rw [if_pos rfl] at hkept
    exact (Entry.file.inj (Option.some.inj hkept)).1
  · intro hmode other
    rw [h.entries, hmode]
    split_ifs with hother
    · rw [hother, hfile]
    · rfl

namespace Ending

variable {past : List Operation} {later : World} {result : Except Error Unit}

/-- However a replacement ends, nothing but files has been touched. -/
theorem frame (h : Ending path commands world past later result) :
    later.input = world.input ∧ later.output = world.output ∧ later.files.directory = world.files.directory := by
  cases h with
  | refused _ huntouched _ =>
      rw [huntouched.same]
      exact ⟨rfl, rfl, rfl⟩
  | restored _ hrestored _ => exact ⟨hrestored.input, hrestored.output, hrestored.shows.directory⟩
  | finished _ _ hfinished _ _ => exact ⟨hfinished.input, hfinished.output, hfinished.shows.directory⟩

/-- A replacement that fails has changed nothing, or has been undone. -/
theorem undone_of_error {error : Error} (h : Ending path commands world past later (.error error))
    (hplace : ∀ location target, world.files.place path ≠ .ok ⟨location, some (.link target)⟩) :
    (¬Nonempty (Site world.files path) → later = world) ∧
      (Nonempty (Site world.files path) →
        ∃ location mode old, Undone world.files path location mode old later.files) := by
  cases h with
  | refused _ huntouched hnosite => exact ⟨fun _ => huntouched.same, fun hsite => absurd hsite hnosite⟩
  | restored site hrestored _ =>
      refine ⟨fun hnosite => absurd ⟨site⟩ hnosite, fun _ => ⟨site.place, site.mode, site.data, ?_⟩⟩
      exact ⟨hrestored.shows.directory, site.place_of_not_link hplace, hrestored.shows.entry?_eq⟩

theorem entry?_of_ok (h : Ending path commands world past later (.ok ()))
    (hplace : ∀ location target, world.files.place path ≠ .ok ⟨location, some (.link target)⟩) :
    ∃ location mode old, world.files.place path = .ok ⟨location, some (.file mode old)⟩ ∧
      (∀ error, .fail error ∉ commands) ∧
      (∀ other, later.files.tree.entry? other =
        if other = location then some (.file mode (Command.emitted commands)) else world.files.tree.entry? other) ∧
      later.files.isOccupied path.backup = false ∧ later.files.isOccupied path.temp = false := by
  cases h with
  | finished site new hfinished _ houtcome =>
      obtain ⟨hnone, rfl⟩ := Command.outcome_eq_ok_iff.mp houtcome
      have hshows := hfinished.shows
      exact ⟨site.place, site.mode, site.data, site.place_of_not_link hplace, hnone, hshows.entry?_eq,
        hshows.not_isOccupied⟩

/-- Where there is a site and room, the commands decide about the end. -/
theorem result_eq (h : Ending path commands world past later result) (hsite : Nonempty (Site world.files path))
    (hroomy : .fillDisk ∉ commands) : result = (Command.outcome commands).map fun _ => () := by
  cases h with
  | refused _ _ hnosite => exact absurd hsite hnosite
  | restored _ _ houtcome =>
      rw [houtcome hroomy]
      rfl
  | finished _ _ _ _ houtcome =>
      rw [houtcome]
      rfl

theorem exists_error (h : Ending path commands world past later result)
    (hbad : ¬Nonempty (Site world.files path) ∨ .fillDisk ∈ commands) : ∃ error, result = .error error := by
  cases h with
  | refused _ _ _ => exact ⟨_, rfl⟩
  | restored _ _ _ => exact ⟨_, rfl⟩
  | finished site _ _ hroomy _ =>
      rcases hbad with hnosite | hfull
      · exact absurd ⟨site⟩ hnosite
      · exact absurd hfull hroomy

end Ending

/-- A replacement is all or nothing, where the path does not name a link and no one else changes anything. If it
fails where the file cannot be replaced, nothing has been changed at all; if it fails elsewhere, every entry is as
before, except that the file has the mode of a copy, so that all is as before exactly if a write takes nothing from
its mode. If it succeeds, then the path named a regular file and no command gave up; the file holds what the
commands wrote, with its old mode, and every other entry is as before, so that no backup and no temporary file is
left. It ends as the commands do where the file can be replaced and the disk never becomes full, and otherwise in an
error. A taken name is an error that comes before any other step. -/
theorem replaceFile_atomic (world : World) (path : Path) (commands : List Command)
    (hplace : ∀ location target, world.files.place path ≠ .ok ⟨location, some (.link target)⟩)
    (hown : ∀ change, .interfere change ∉ commands) :
    ∃ later result, (replaceFile path commands).run.run world = (later, result) ∧
      later.input = world.input ∧ later.output = world.output ∧
      later.files.directory = world.files.directory ∧
      (∀ error, result = .error error →
        (¬Replaceable world.files path → later = world) ∧
        (Replaceable world.files path → ∃ location mode old,
          Undone world.files path location mode old later.files ∧
          ((∀ other, later.files.tree.entry? other = world.files.tree.entry? other) ↔
            modeAfter mode old = mode))) ∧
      (result = .ok () → ∃ location mode old,
        world.files.place path = .ok ⟨location, some (.file mode old)⟩ ∧
        (∀ error, .fail error ∉ commands) ∧
        (∀ other, later.files.tree.entry? other =
          if other = location then some (.file mode (Command.emitted commands))
          else world.files.tree.entry? other) ∧
        later.files.isOccupied path.backup = false ∧ later.files.isOccupied path.temp = false) ∧
      (world.files.isOccupied path.backup ∨ world.files.isOccupied path.temp →
        result = .error (.artifactExists (artifact world.files path)) ∧
        ∀ stage ∈ (replaceFile path commands).run.stages [] world, Asking world stage.1 stage.2) ∧
      (Replaceable world.files path → .fillDisk ∉ commands →
        result = (Command.outcome commands).map fun _ => ()) ∧
      (¬Replaceable world.files path ∨ .fillDisk ∈ commands → ∃ error, result = .error error) := by
  rw [← nonempty_site_iff]
  obtain ⟨past, hending⟩ := (replaceFile_upholds world path hown).goal_run
  rcases hrun : (replaceFile path commands).run.run world with ⟨later, result⟩
  rw [hrun] at hending
  obtain ⟨hinput, houtput, hdirectory⟩ := hending.frame
  refine ⟨later, result, rfl, hinput, houtput, hdirectory, fun error herror => ?_, fun hok => ?_, fun htaken => ?_,
    hending.result_eq, hending.exists_error⟩
  · rw [herror] at hending
    obtain ⟨hrefused, hundone⟩ := hending.undone_of_error hplace
    refine ⟨hrefused, fun hsite => ?_⟩
    obtain ⟨location, mode, old, h⟩ := hundone hsite
    exact ⟨location, mode, old, h, h.entry?_eq_iff⟩
  · rw [hok] at hending
    exact hending.entry?_of_ok hplace
  · have hasking := upholds_asking commands htaken
    obtain ⟨_, _, hresult⟩ := hasking.goal_run
    rw [hrun] at hresult
    exact ⟨hresult, fun stage hstage => hasking.safe_of_mem_stages (fun _ _ _ h => h.1) hstage⟩

/-- Two pieces with a flush between them, written over a file of one byte, and a command that gives up over a file that
runs as its owner: the file does so no longer. -/
theorem replaceFile_atomic_two_pieces :
    (∃ later, (replaceFile ⟨[0x66]⟩ [.emit [0x62], .flush, .emit [0x63]]).run.run
        { files := { tree := { entries := [([[0x66]], .file 0o644 [0x61])] } } } = (later, .ok ()) ∧
      later.files.tree.entry? [[0x66]] = some (.file 0o644 [0x62, 0x63]) ∧
      later.files.isOccupied (Path.backup ⟨[0x66]⟩) = false) ∧
    ∃ later, (replaceFile ⟨[0x66]⟩ [.fail .missingLanguage]).run.run
        { files := { tree := { entries := [([[0x66]], .file 0o4755 [0x61])] } } } = (later, .error .missingLanguage) ∧
      later.files.tree.entry? [[0x66]] = some (.file 0o755 [0x61]) := by
  have hplace (mode : Nat) : FileSystem.place { tree := { entries := [([[0x66]], .file mode [0x61])] } } ⟨[0x66]⟩ =
      .ok ⟨[[0x66]], some (.file mode [0x61])⟩ := by rfl
  constructor
  · have hok : ((replaceFile ⟨[0x66]⟩ [.emit [0x62], .flush, .emit [0x63]]).run.run
        { files := { tree := { entries := [([[0x66]], .file 0o644 [0x61])] } } }).2 = .ok () := by rfl
    obtain ⟨later, result, hrun, _, _, _, _, hdone, _⟩ :=
      replaceFile_atomic { files := { tree := { entries := [([[0x66]], .file 0o644 [0x61])] } } } ⟨[0x66]⟩
        [.emit [0x62], .flush, .emit [0x63]] (by simp [hplace]) (by simp)
    rw [hrun] at hok
    obtain ⟨location, mode, old, hfile, _, hentries, hbackup, _⟩ := hdone hok
    rw [hplace] at hfile
    cases hfile
    refine ⟨later, hok ▸ hrun, ?_, hbackup⟩
    rw [hentries, if_pos rfl]
    rfl
  · have herror : ((replaceFile ⟨[0x66]⟩ [.fail .missingLanguage]).run.run
        { files := { tree := { entries := [([[0x66]], .file 0o4755 [0x61])] } } }).2 = .error .missingLanguage := by rfl
    obtain ⟨later, result, hrun, _, _, _, hfailed, _⟩ :=
      replaceFile_atomic { files := { tree := { entries := [([[0x66]], .file 0o4755 [0x61])] } } } ⟨[0x66]⟩
        [.fail .missingLanguage] (by simp [hplace]) (by simp)
    rw [hrun] at herror
    have hreplaceable : Replaceable { tree := { entries := [([[0x66]], .file 0o4755 [0x61])] } } ⟨[0x66]⟩ :=
      ⟨⟨_, _, by rfl⟩, ⟨_, by rfl⟩, by rfl, by rfl⟩
    obtain ⟨location, mode, old, hundone, -⟩ := (hfailed _ herror).2 hreplaceable
    have hfile := hundone.place
    rw [hplace] at hfile
    cases hfile
    refine ⟨later, herror ▸ hrun, ?_⟩
    rw [hundone.entries, if_pos rfl]
    rfl

end LineComment.Replacement
