import LineComment.Proofs.Replacement.Run

/-! A replacement can be cut off at any moment. Whatever stage it is at, the path leads to the old file or to the new
one in full, and the backup is complete from the moment it has been made until a decisive step. -/

namespace LineComment

namespace FileSystem

/-- A path leads to a regular file with these bytes, and with what has been left of a mode. -/
def Holds (fs : FileSystem) (path : Path) (mode : Nat) (data : Bytes) : Prop :=
  ∃ location kept, ModeLasts mode kept ∧ fs.find path = .ok (location, .file kept data)

theorem holds_of_find {fs : FileSystem} {path : Path} {location : Location} {mode : Nat} {data : Bytes}
    (h : fs.find path = .ok (location, .file mode data)) : fs.Holds path mode data :=
  ⟨location, mode, .inl rfl, h⟩

/-- A file that may be read is read in full. -/
theorem Holds.read {fs : FileSystem} {path : Path} {mode : Nat} {data : Bytes} (h : fs.Holds path mode data)
    (hreadable : (Entry.file mode data).isReadable) : fs.read path = .ok (data, none) := by
  obtain ⟨location, kept, hkept, hfind⟩ := h
  rw [← hkept.isReadable_eq data data] at hreadable
  simp only [FileSystem.read, readable, hfind, if_pos hreadable]
  rfl

end FileSystem

namespace Replacement

open FileSystem

variable {path : Path} {commands : List Command} {world now : World} {past : List Operation}

/-- At every stage the path leads to the old file or, once the temporary file has been moved, to the new one, and a
backup that has been made and not yet been decided about is complete. -/
theorem Stage.holds (h : Stage path commands world past now) {location : Location} {mode : Nat} {old : Bytes}
    (hfile : world.files.find path = .ok (location, .file mode old)) :
    (.rename path.temp path ∉ past → now.files.Holds path mode old) ∧
      (.rename path.temp path ∈ past →
        (∀ error, .fail error ∉ commands) ∧ now.files.Holds path mode (Command.emitted commands)) ∧
      (.settle ∈ past → .unlink path.backup ∉ past → .rename path.backup path ∉ past →
        now.files.Holds path.backup mode old) := by
  have hsame (site : Site world.files path) : site.mode = mode ∧ site.data = old := by
    have hfound := site.found
    rw [hfile] at hfound
    cases hfound
    exact ⟨rfl, rfl⟩
  cases h with
  | untouched h =>
      obtain ⟨rfl, hsettled, hinstalled⟩ := h
      exact ⟨fun _ => holds_of_find hfile, fun hmem => absurd hmem hinstalled, fun hmem => absurd hmem hsettled⟩
  | copying site backup hsettled hinstalled hshows =>
      obtain ⟨rfl, rfl⟩ := hsame site
      exact ⟨fun _ => holds_of_find hshows.find_original, fun hmem => absurd hmem hinstalled,
        fun hmem => absurd hmem hsettled⟩
  | kept site temp h =>
      obtain ⟨rfl, rfl⟩ := hsame site
      have hinstall : .rename path.temp path ∉ past := by simp [h.mem_iff isDecisive_install]
      exact ⟨fun _ => holds_of_find h.shows.find_original, fun hmem => absurd hmem hinstall,
        fun _ _ _ => ⟨_, _, modeLasts_modeAfter _ _, h.shows.find_backup⟩⟩
  | installed site new houtcome h =>
      obtain ⟨rfl, rfl⟩ := hsame site
      obtain ⟨hnone, rfl⟩ := Command.outcome_eq_ok_iff.mp houtcome
      have hinstall : .rename path.temp path ∈ past := by simp [h.mem_iff isDecisive_install]
      exact ⟨fun hmem => absurd hinstall hmem, fun _ => ⟨hnone, holds_of_find h.shows.find_replaced⟩,
        fun _ _ _ => ⟨_, _, modeLasts_modeAfter _ _, h.shows.find_backup⟩⟩
  | finished site new houtcome h =>
      obtain ⟨rfl, rfl⟩ := hsame site
      obtain ⟨hnone, rfl⟩ := Command.outcome_eq_ok_iff.mp houtcome
      have hinstall : .rename path.temp path ∈ past := by simp [h.mem_iff isDecisive_install]
      have hdiscard : .unlink path.backup ∈ past := by simp [h.mem_iff isDecisive_discard]
      exact ⟨fun hmem => absurd hinstall hmem, fun _ => ⟨hnone, holds_of_find h.shows.find_replaced⟩,
        fun _ hmem => absurd hdiscard hmem⟩
  | restored site h =>
      obtain ⟨rfl, rfl⟩ := hsame site
      have hinstall : .rename path.temp path ∉ past := by simp [h.mem_iff isDecisive_install, temp_ne_backup]
      have hrestore : .rename path.backup path ∈ past := by simp [h.mem_iff isDecisive_restore]
      exact ⟨fun _ => ⟨_, _, modeLasts_modeAfter _ _, h.shows.find_replaced⟩, fun hmem => absurd hmem hinstall,
        fun _ _ hmem => absurd hrestore hmem⟩

/-- Between any two steps of a replacement the path leads to the old file in full, or, once the temporary file has been
moved over it, to all that the commands have written; if one of them gives up, it is the old file throughout. From the
end of the copying on the backup holds the old file, until it is removed or moved. A success ends with the new file. -/
theorem replaceFile_crash_safe (world : World) (path : Path) (commands : List Command) {location : Location}
    {mode : Nat} {old : Bytes} (hfile : world.files.find path = .ok (location, .file mode old))
    (hown : ∀ change, .interfere change ∉ commands) :
    (∀ stage ∈ (replaceFile path commands).run.stages [] world,
      (.rename path.temp path ∉ stage.1 → stage.2.files.Holds path mode old) ∧
      (.rename path.temp path ∈ stage.1 → stage.2.files.Holds path mode (Command.emitted commands)) ∧
      ((∃ error, .fail error ∈ commands) → stage.2.files.Holds path mode old) ∧
      (.settle ∈ stage.1 → .unlink path.backup ∉ stage.1 → .rename path.backup path ∉ stage.1 →
        stage.2.files.Holds path.backup mode old)) ∧
      (((replaceFile path commands).run.run world).2 = .ok () →
        ((replaceFile path commands).run.run world).1.files.Holds path mode (Command.emitted commands)) := by
  have hupholds := replaceFile_upholds world path hown
  refine ⟨fun stage hstage => ?_, fun hok => ?_⟩
  · have hsafe := hupholds.safe_of_mem_stages (fun _ _ _ => Ending.stage) hstage
    obtain ⟨hbefore, hafter, hbackup⟩ := hsafe.holds hfile
    refine ⟨hbefore, fun hmem => (hafter hmem).2, fun ⟨error, herror⟩ => hbefore fun hmem => ?_, hbackup⟩
    exact (hafter hmem).1 error herror
  · obtain ⟨past, hending⟩ := hupholds.goal_run
    rw [hok] at hending
    cases hending with
    | finished site new hfinished _ houtcome =>
        have hinstall : .rename path.temp path ∈ past := by simp [hfinished.mem_iff isDecisive_install]
        exact ((Stage.finished site new houtcome hfinished).holds hfile).2.1 hinstall |>.2

/-- A file reached over a link, and commands that give up after a write. -/
theorem replaceFile_crash_safe_given_up :
    let world : World := { files := { tree := { entries := [
      ([[0x66]], .file 0o644 [0x61]), ([[0x6c]], .link ⟨[0x66]⟩)] } } }
    let commands : List Command := [.emit [0x62], .flush, .fail .missingLanguage]
    ∀ stage ∈ (replaceFile ⟨[0x6c]⟩ commands).run.stages [] world,
      stage.2.files.Holds ⟨[0x6c]⟩ 0o644 [0x61] := by
  intro world commands stage hstage
  have hfile : world.files.find ⟨[0x6c]⟩ = .ok ([[0x66]], .file 0o644 [0x61]) := by rfl
  have hsafe := replaceFile_crash_safe world _ commands hfile (by simp [commands]) |>.1 stage hstage
  exact hsafe.2.2.1 ⟨.missingLanguage, by simp [commands]⟩

end Replacement

end LineComment
