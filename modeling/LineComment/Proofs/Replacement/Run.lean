import LineComment.Proofs.Replacement.Writing

/-! A whole replacement. Making the backup needs a site, and once there is a backup every step that is not
about the new content succeeds: either the new file gets into place, or the old file is moved back. -/

namespace LineComment

namespace Replacement

open FileTree FileSystem Script

variable {fs : FileSystem} {path : Path} {world now : World} {past : List Operation} {commands : List Command}

theorem free_of_isOccupied {directory : Location} {name : Bytes} (hnames : fs.Names path directory name)
    (hfree : fs.isOccupied path = false) : fs.tree.entry? (directory ++ [name]) = none := by
  rw [isOccupied, hnames.place] at hfree
  cases hentry : fs.tree.entry? (directory ++ [name]) with
  | none => rfl
  | some entry => simp [hentry] at hfree

theorem find_of_readable {entry : Entry} (h : fs.readable path = .ok entry) :
    ∃ final, fs.find path = .ok (final, entry) ∧ entry.isReadable := by
  rw [FileSystem.readable] at h
  cases hfind : fs.find path with
  | error fault => simp [hfind] at h
  | ok found =>
      obtain ⟨final, entry'⟩ := found
      simp only [hfind] at h
      split_ifs at h with hbit
      cases h
      exact ⟨final, rfl, hbit⟩

theorem resolve_of_writable {location : Location} (h : fs.writable path = .ok location) :
    ∃ spot, fs.tree.resolve fs.directory path .file = .ok spot := by
  rw [FileSystem.writable] at h
  cases hresolve : fs.tree.resolve fs.directory path .file with
  | error fault => simp [hresolve] at h
  | ok spot => exact ⟨spot, rfl⟩

/-- What it takes to replace a file: it can be read, a copy can be made beside it, and the two names beside it are
free. -/
structure Replaceable (fs : FileSystem) (path : Path) : Prop where
  readable : ∃ mode data, fs.readable path = .ok (.file mode data)
  copyable : ∃ location, fs.writable path.backup = .ok location
  backupFree : fs.isOccupied path.backup = false
  tempFree : fs.isOccupied path.temp = false

/-- This is all that makes a site. -/
theorem nonempty_site_iff : Nonempty (Site fs path) ↔ Replaceable fs path := by
  constructor
  · rintro ⟨site⟩
    obtain ⟨hbackup, htemp⟩ := site.shows_self.not_isOccupied
    exact ⟨⟨_, _, site.readable_eq⟩, ⟨_, site.writable_backup⟩, hbackup, htemp⟩
  · rintro ⟨⟨mode, data, hread⟩, ⟨location, hwrite⟩, hbackup, htemp⟩
    obtain ⟨final, hfound, hreadable⟩ := find_of_readable hread
    obtain ⟨directory, name, hnames⟩ := exists_names (target_of_find hfound) (by simp)
    obtain ⟨spot, hspot⟩ := resolve_of_writable hwrite
    have hlengths := hnames.lengths_of_resolve plainEnding_backup hspot
    have hbackupNames : fs.Names path.backup directory (name ++ backupEnding) :=
      hnames.sibling plainEnding_backup hlengths.1 hlengths.2
    have htempNames : fs.Names path.temp directory (name ++ tempEnding) := by
      rw [← length_tempEnding] at hlengths
      exact hnames.sibling plainEnding_temp hlengths.1 hlengths.2
    have hbackupFree := free_of_isOccupied hbackupNames hbackup
    have hwritable : (fs.tree.entry? directory).any Entry.isWritable := by
      rw [hbackupNames.writable hbackupFree] at hwrite
      split_ifs at hwrite with hchange
      rwa [FileTree.isChangeable, List.dropLast_concat] at hchange
    exact ⟨directory, name, final, mode, data, hnames, hbackupNames, htempNames, hfound, hreadable, hwritable,
      hbackupFree, free_of_isOccupied htempNames htemp⟩

/-- Copying a file to its backup, with both names free, is possible only at a site. -/
theorem openCopy_cases (hbackup : fs.isOccupied path.backup = false)
    (htemp : fs.isOccupied path.temp = false) :
    Nonempty (Site fs path) ∨ ∃ fault, fs.openCopy path path.backup = (fs, .error fault) := by
  cases hread : fs.readable path with
  | error fault => exact Or.inr ⟨fault, by simp only [FileSystem.openCopy, hread]⟩
  | ok entry =>
      cases entry with
      | file mode data =>
          cases hwrite : fs.writable path.backup with
          | error fault => exact Or.inr ⟨fault, by simp only [FileSystem.openCopy, hread, hwrite]⟩
          | ok location =>
              exact Or.inl (nonempty_site_iff.mpr ⟨⟨mode, data, hread⟩, ⟨location, hwrite⟩, hbackup, htemp⟩)
      | directory mode => exact Or.inr ⟨.invalidInput, by simp only [FileSystem.openCopy, hread]⟩
      | link target => exact Or.inr ⟨.invalidInput, by simp only [FileSystem.openCopy, hread]⟩

/-- Steps other than those that end a copy or put a new file in place leave a replacement unbegun. -/
theorem Untouched.step (h : Untouched path world past now) (operation : Operation)
    (hsettle : Operation.settle ≠ operation) (hinstall : Operation.rename path.temp path ≠ operation) :
    Untouched path world (past ++ [operation]) now := by
  refine ⟨h.same, ?_, ?_⟩
  · simp [h.settled, hsettle]
  · simp [h.installed, hinstall]

theorem Site.copyBackup (site : Site world.files path) (hsettled : Operation.settle ∉ past)
    (hdecided : decisions path past = []) :
    (copyBackup path).Upholds (Stage path commands world)
      (fun past now result => result = .ok () ∧ site.Kept none past now) past world := by
  have hinstalled : Operation.rename path.temp path ∉ past := by
    rw [← mem_decisions isDecisive_install, hdecided]
    exact List.not_mem_nil
  obtain ⟨copying, hcopy, hcopying, hopened⟩ := site.openCopy
  obtain ⟨copied, happend, hcopied, hlinked⟩ := hcopying.append_backup hopened site.data
  rw [Replacement.copyBackup, upholds_bind]
  refine ⟨.untouched ⟨rfl, hsettled, hinstalled⟩, ?_⟩
  simp only [Operation.run, hcopy, Operation.onFiles]
  refine upholds_bind.mpr ⟨?_, ?_⟩
  · exact .copying site _ (by simp [hsettled]) (by simp [hinstalled]) hcopying
  simp only [Operation.run, happend, Operation.onFiles]
  refine ⟨?_, ?_⟩
  · exact .copying site _ (by simp [hsettled]) (by simp [hinstalled]) hcopied
  simp only [Operation.run, settle, hlinked, Operation.onFiles]
  refine ⟨by simp, ?_, by simp, rfl, rfl, hcopied.of_tree rfl rfl⟩
  rw [decisions_append_of_not rfl, decisions_append_of_not rfl, decisions_append_of_not rfl, hdecided]

/-- A copy that cannot be begun changes nothing. -/
theorem Untouched.copyBackup {fault : Fault} (h : Untouched path world past now)
    (hcopy : now.files.openCopy path path.backup = (now.files, .error fault)) :
    (copyBackup path).Upholds (Stage path commands world)
      (fun past now result => result = .error fault ∧ Untouched path world past now) past now := by
  have hrun : (Operation.openCopy path path.backup).run now = (now, .error fault) :=
    congrArg (Operation.onFiles now) hcopy
  rw [Replacement.copyBackup, upholds_bind]
  exact upholds_call hrun (.untouched h) ⟨rfl, h.step _ (by simp) (by simp)⟩

/-- Preparing a replacement makes the backup at a site, or changes nothing. -/
theorem prepare_upholds :
    (prepare path).run.Upholds (Stage path commands world) (fun past now result => match result with
      | .ok mode => ∃ site : Site world.files path, mode = site.mode ∧ site.Kept none past now
      | .error error =>
          Refusal path world error ∧ Untouched path world past now ∧ ¬Nonempty (Site world.files path)) [] world := by
  have hstart : Untouched path world [] world := ⟨rfl, List.not_mem_nil, List.not_mem_nil⟩
  have hasked := hstart.step (.isOccupied path.backup) (by simp) (by simp)
  have hasked' := hasked.step (.isOccupied path.temp) (by simp) (by simp)
  have hmoded := hasked'.step (.mode path) (by simp) (by simp)
  unfold prepare
  refine Attempt.upholds_call_bind rfl (.untouched hstart) ?_
  by_cases hbackup : world.files.isOccupied path.backup
  · rw [if_pos hbackup]
    exact ⟨.backup hbackup, hasked, fun ⟨site⟩ => by simp [site.shows_self.not_isOccupied] at hbackup⟩
  rw [if_neg hbackup]
  refine Attempt.upholds_call_bind rfl (.untouched hasked) ?_
  by_cases htemp : world.files.isOccupied path.temp
  · rw [if_pos htemp]
    exact ⟨.temp htemp, hasked', fun ⟨site⟩ => by simp [site.shows_self.not_isOccupied] at htemp⟩
  rw [if_neg htemp]
  refine Attempt.upholds_bind.mpr (Attempt.upholds_attempt.mpr ?_)
  rw [Bool.not_eq_true] at hbackup htemp
  cases hmode : world.files.mode path with
  | error fault =>
      have hrun : (Operation.mode path).run world = (world, .error fault) := congrArg (world, ·) hmode
      refine upholds_call hrun (.untouched hasked') ⟨.inspecting fault, hmoded, fun ⟨site⟩ => ?_⟩
      rw [site.mode_eq] at hmode
      cases hmode
  | ok mode =>
      have hrun : (Operation.mode path).run world = (world, .ok mode) := congrArg (world, ·) hmode
      refine upholds_call hrun (.untouched hasked') (Attempt.upholds_lift_bind.mpr ?_)
      rcases openCopy_cases hbackup htemp with ⟨⟨site⟩⟩ | ⟨fault, hfault⟩
      · refine (site.copyBackup hmoded.settled rfl).imp ?_
        rintro past now result ⟨rfl, hkept⟩
        exact ⟨site, Except.ok.inj (hmode.symm.trans site.mode_eq), hkept⟩
      · refine (hmoded.copyBackup hfault).imp ?_
        rintro past now result ⟨rfl, hcopied⟩
        obtain rfl := hcopied.same
        obtain ⟨fault', hunlink⟩ := unlink_free hbackup
        have hremove : (Operation.unlink path.backup).run now = (now, .error fault') :=
          congrArg (Operation.onFiles now) hunlink
        refine Attempt.upholds_bind.mpr (Attempt.upholds_discard_lift.mpr ?_)
        refine upholds_call hremove (.untouched hcopied)
          ⟨.backingUp fault, hcopied.step _ (by simp) (by simp), fun ⟨site⟩ => ?_⟩
        obtain ⟨later, hdone, _⟩ := site.openCopy
        rw [hdone] at hfault
        cases hfault

namespace Site

variable {site : Site world.files path}

theorem Saving.stage (h : site.Saving past now) : Stage path commands world past now := by
  obtain ⟨mode, bytes, hkept⟩ := h
  exact .kept site _ hkept

/-- Once the temporary file is open, the new file gets into place, or the old file is kept and the temporary file is
there. -/
theorem install_upholds (h : site.Writing [] (some []) past now) (hown : ∀ change, .interfere change ∉ commands) :
    (install path site.mode commands).run.Upholds site.Saving (fun past now result => match result with
      | .ok () => ∃ new, .fillDisk ∉ commands ∧ Command.outcome commands = .ok new ∧ site.Installed new past now
      | .error error => (.fillDisk ∉ commands → Command.outcome commands = .error error) ∧
          ∃ bytes, site.Closed bytes past now) past now := by
  rw [install, Attempt.upholds_bind]
  refine (h.fill hown).imp ?_
  rintro past now (error | ⟨⟨⟩⟩) hfilled
  · exact hfilled
  · obtain ⟨new, hroomy, houtcome, hclosed⟩ := hfilled
    obtain ⟨permitted, hset, hpermitted⟩ := hclosed.shows.setMode site.mode
    obtain ⟨moved, hrename, hmoved⟩ := hpermitted.install original_not_directory
    have hset' : (Operation.setMode path.temp site.mode).run now = ({ now with files := permitted }, .ok ()) :=
      congrArg (Operation.onFiles now) hset
    have hrename' : (Operation.rename path.temp path).run { now with files := permitted } =
        ({ now with files := moved }, .ok ()) := congrArg (Operation.onFiles { now with files := permitted }) hrename
    have hkept : site.Kept _ (past ++ [.setMode path.temp site.mode]) { now with files := permitted } :=
      hclosed.step rfl hpermitted
    refine Attempt.upholds_bind.mpr (Attempt.upholds_attempt.mpr ?_)
    refine upholds_call hset' ⟨_, _, hclosed⟩ (Attempt.upholds_attempt.mpr ?_)
    exact upholds_call hrename' ⟨_, _, hkept⟩
      ⟨new, hroomy, houtcome, hkept.decide isDecisive_install hmoved⟩

theorem run_openNew (h : site.Kept none past now) : ∃ later, (Operation.openNew path.temp).run now = (later, .ok ()) ∧
    site.Writing [] (some []) (past ++ [.openNew path.temp]) later := by
  obtain ⟨later, hopen, hopened, hlinked⟩ := h.shows.openNew
  exact ⟨_, congrArg (Operation.onFiles now) hopen, [], h.step rfl hopened, hlinked, rfl⟩

theorem run_unlink_temp {bytes : Bytes} (h : site.Closed bytes past now) :
    ∃ later, (Operation.unlink path.temp).run now = (later, .ok ()) ∧
      site.Kept none (past ++ [.unlink path.temp]) later := by
  obtain ⟨later, hunlink, hlater⟩ := h.shows.unlink_temp
  exact ⟨_, congrArg (Operation.onFiles now) hunlink, h.step not_isDecisive_cleanup hlater⟩

theorem run_restore (h : site.Kept none past now) :
    ∃ later, (Operation.rename path.backup path).run now = (later, .ok ()) ∧
      site.Restored (past ++ [.rename path.backup path]) later := by
  obtain ⟨later, hrename, hlater⟩ := h.shows.restore original_not_directory
  exact ⟨_, congrArg (Operation.onFiles now) hrename, h.decide isDecisive_restore hlater⟩

theorem run_discard {new : Bytes} (h : site.Installed new past now) :
    ∃ later, (Operation.unlink path.backup).run now = (later, .ok ()) ∧
      site.Finished new (past ++ [.unlink path.backup]) later := by
  obtain ⟨later, hunlink, hlater⟩ := h.shows.unlink_backup
  exact ⟨_, congrArg (Operation.onFiles now) hunlink, h.decide isDecisive_discard hlater⟩

/-- Removing the temporary file and moving the backup back leaves the old file alone. -/
theorem restore_upholds {bytes : Bytes} (h : site.Closed bytes past now) :
    (restore path true).Upholds (Stage path commands world) (fun past now _ => site.Restored past now) past now := by
  obtain ⟨cleaned, hunlink, hkept⟩ := run_unlink_temp h
  obtain ⟨moved, hrename, hrestored⟩ := run_restore hkept
  rw [restore, if_pos rfl, upholds_bind, upholds_discard]
  refine upholds_call hunlink (.kept site _ h) (upholds_discard.mpr ?_)
  exact upholds_call hrename (.kept site _ hkept) hrestored

/-- The backup is removed once the new file is in place. -/
theorem discard_upholds {new : Bytes} (houtcome : Command.outcome commands = .ok new)
    (h : site.Installed new past now) :
    (call (.unlink path.backup)).Upholds (Stage path commands world) (fun past now _ => site.Finished new past now)
      past now := by
  obtain ⟨later, hunlink, hfinished⟩ := run_discard h
  exact upholds_call hunlink (.installed site new houtcome h) hfinished

end Site

/-- What is done once the backup has been made. -/
def swap (path : Path) (commands : List Command) (mode : Nat) : Attempt Unit := do
  match ← (Script.call (.openNew path.temp) : Script _) with
  | .error fault =>
    restore path false
    throw (.io (.creating path.temp) fault)
  | .ok () =>
    try install path mode commands
    catch error =>
      restore path true
      throw error
    discard (Script.call (.unlink path.backup) : Script _)

theorem replaceFile_eq (path : Path) (commands : List Command) :
    replaceFile path commands = prepare path >>= swap path commands := rfl

/-- Once the backup has been made, a replacement ends with the new file in place or with the old one restored. -/
theorem Site.swap_upholds {site : Site world.files path} (hkept : site.Kept none past now)
    (hown : ∀ change, .interfere change ∉ commands) :
    (swap path commands site.mode).run.Upholds (Stage path commands world) (Ending path commands world) past now := by
  obtain ⟨later, hopen, hwriting⟩ := Site.run_openNew hkept
  refine Attempt.upholds_call_bind hopen (.kept site _ hkept) ?_
  refine Attempt.upholds_bind.mpr (Attempt.upholds_tryCatch.mpr ?_)
  refine (Site.install_upholds hwriting hown).mono (fun _ _ => Site.Saving.stage) ?_
  rintro past now (error | ⟨⟨⟩⟩) hinstalled
  · obtain ⟨houtcome, bytes, hclosed⟩ := hinstalled
    refine Attempt.upholds_lift_bind.mpr ?_
    refine (Site.restore_upholds hclosed).imp ?_
    intro past now _ hrestored
    exact .restored site hrestored houtcome
  · obtain ⟨new, hroomy, houtcome, hnew⟩ := hinstalled
    refine Attempt.upholds_discard_lift.mpr ?_
    refine (Site.discard_upholds houtcome hnew).imp ?_
    intro past now _ hfinished
    exact .finished site new hfinished hroomy houtcome

/-- A replacement, whatever it is made of short of a change by someone else, goes through the stages and ends in one of
three ways. -/
theorem replaceFile_upholds (world : World) (path : Path) (hown : ∀ change, .interfere change ∉ commands) :
    (replaceFile path commands).run.Upholds (Stage path commands world) (Ending path commands world) [] world := by
  rw [replaceFile_eq, Attempt.upholds_bind]
  refine prepare_upholds.imp ?_
  rintro past now (error | mode) hprepared
  · obtain ⟨hrefusal, huntouched, hnosite⟩ := hprepared
    exact .refused hrefusal huntouched hnosite
  · obtain ⟨site, rfl, hkept⟩ := hprepared
    exact Site.swap_upholds hkept hown

end Replacement

end LineComment
