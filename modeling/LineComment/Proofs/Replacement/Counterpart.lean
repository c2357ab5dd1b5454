import LineComment.Proofs.Attribution
import LineComment.Proofs.Files.Correspondence
import LineComment.Proofs.Replacement.Atomic

/-! The same replacement at two paths, the second one in a file system with other names. It ends in the same way, with
an error that is the same but for the path it may say, and it leaves the same things under corresponding names. -/

namespace LineComment

/-- Two results of which both are errors, the second of them the first one retold for another path, or neither is. -/
inductive Error.Corresponds {α β : Type} (path path' : Path) : Except Error α → Except Error β → Prop where
  | ok (value : α) (value' : β) : Corresponds path path' (.ok value) (.ok value')
  | error {error error' : Error} (retold : Retold path path' error error') :
      Corresponds path path' (.error error) (.error error')

theorem Error.Corresponds.map {α β γ δ : Type} {path path' : Path} {result : Except Error α} {result' : Except Error β}
    (h : Corresponds path path' result result') (f : α → γ) (g : β → δ) :
    Corresponds path path' (result.map f) (result'.map g) := by
  cases h with
  | ok value value' => exact .ok _ _
  | error retold => exact .error retold

/-- The same result twice. -/
theorem Error.Corresponds.of_same {α : Type} {path path' : Path} {result : Except Error α}
    (h : ∀ error, result = .error error → Retold path path' error error) : Corresponds path path' result result := by
  cases result with
  | ok value => exact .ok _ _
  | error error => exact .error (h error rfl)

namespace Replacement

open FileSystem Script

variable {r : Renaming} {fs otherFs : FileSystem} {path path' : Path} {world other later : World}
  {commands : List Command} {past : List Operation} {result : Except Error Unit}

theorem run_replaceFile_of_taken (commands : List Command)
    (htaken : world.files.isOccupied path.backup ∨ world.files.isOccupied path.temp) :
    (replaceFile path commands).run.run world = (world, .error (.artifactExists (artifact world.files path))) := by
  obtain ⟨_, ⟨hsame, _⟩, hresult⟩ := (upholds_asking commands htaken).goal_run
  exact Prod.ext hsame hresult

/-- Where the names are free but no copy can be begun, that is what the run says. -/
theorem run_replaceFile_of_uncopyable (commands : List Command) {mode : Nat} {fault : Fault}
    (hbackup : world.files.isOccupied path.backup = false) (htemp : world.files.isOccupied path.temp = false)
    (hmode : world.files.mode path = .ok mode)
    (hcopy : world.files.openCopy path path.backup = (world.files, .error fault)) :
    (replaceFile path commands).run.run world = (world, .error (.io (.backingUp path.backup) fault)) := by
  obtain ⟨unremoved, hunlink⟩ := unlink_free hbackup
  have hcopy' : (Operation.openCopy path path.backup).run world = (world, .error fault) :=
    congrArg (Operation.onFiles world) hcopy
  have hunlink' : (Operation.unlink path.backup).run world = (world, .error unremoved) :=
    congrArg (Operation.onFiles world) hunlink
  have hmode' : (Operation.mode path).run world = (world, .ok mode) := congrArg (world, ·) hmode
  have hends : (replaceFile path commands).run.Upholds (fun _ _ => True) (fun _ now result =>
      now = world ∧ result = .error (.io (.backingUp path.backup) fault)) [] world := by
    rw [replaceFile, Attempt.upholds_bind]
    unfold prepare
    refine Attempt.upholds_call_bind rfl trivial ?_
    rw [if_neg (Bool.eq_false_iff.mp hbackup)]
    refine Attempt.upholds_call_bind rfl trivial ?_
    rw [if_neg (Bool.eq_false_iff.mp htemp)]
    refine Attempt.upholds_bind.mpr (Attempt.upholds_attempt.mpr (upholds_call hmode' trivial ?_))
    refine Attempt.upholds_lift_bind.mpr ?_
    rw [copyBackup, upholds_bind]
    refine upholds_call hcopy' trivial ?_
    refine Attempt.upholds_bind.mpr (Attempt.upholds_discard_lift.mpr ?_)
    exact upholds_call hunlink' trivial ⟨rfl, rfl⟩
  obtain ⟨_, hsame, hresult⟩ := hends.goal_run
  exact Prod.ext hsame hresult

theorem uncopyable_of_not_replaceable (hbackup : fs.isOccupied path.backup = false)
    (htemp : fs.isOccupied path.temp = false) (hnot : ¬Replaceable fs path) {entry : Entry}
    (hread : fs.readable path = .ok entry) :
    fs.openCopy path path.backup = (fs, .error (match entry, fs.writable path.backup with
      | .file _ _, .error fault => fault
      | _, _ => .invalidInput)) := by
  cases entry with
  | directory mode => simp only [openCopy, hread]
  | link target => simp only [openCopy, hread]
  | file mode data =>
      cases hwrite : fs.writable path.backup with
      | error fault => simp only [openCopy, hread, hwrite]
      | ok location => exact absurd ⟨⟨mode, data, hread⟩, ⟨location, hwrite⟩, hbackup, htemp⟩ hnot

/-- The file after a replacement at a site: a new one, or a copy of the old one. -/
def Site.content (site : Site fs path) (commands : List Command) : Option Entry :=
  match Command.outcome commands with
  | .ok new => some (.file site.mode new)
  | .error _ => site.copy

theorem Ending.exists_content (h : Ending path commands world past later result)
    (hsite : Nonempty (Site world.files path)) (hroomy : .fillDisk ∉ commands) :
    ∃ site : Site world.files path, ∀ location, later.files.tree.entry? location =
      if location = site.place then site.content commands else world.files.tree.entry? location := by
  cases h with
  | refused _ _ hnosite => exact absurd hsite hnosite
  | restored site hrestored houtcome =>
      refine ⟨site, fun location => ?_⟩
      rw [Site.content, houtcome hroomy, hrestored.shows.entry?_eq]
  | finished site new hfinished _ houtcome =>
      refine ⟨site, fun location => ?_⟩
      rw [Site.content, houtcome, hfinished.shows.entry?_eq]

/-- Sites at paths that lead to the same are the same site under other names. -/
theorem Site.eq_of_mirrors (h : Mirrors r fs otherFs path path') (site : Site fs path) (site' : Site otherFs path') :
    site'.place = r.place site.place ∧ site'.mode = site.mode ∧ site'.data = site.data := by
  have hplace := site'.names.place.symm.trans h.place
  rw [show fs.tree.resolve fs.directory path .place = _ from site.names.place] at hplace
  have hfound := site'.found.symm.trans h.target.find_eq
  rw [site.found] at hfound
  obtain ⟨hmode, hdata⟩ := Entry.file.inj (Prod.mk.inj (Except.ok.inj hfound)).2
  exact ⟨(Spot.mk.inj (Except.ok.inj hplace)).1, hmode, hdata⟩

/-- A taken name beside one of two paths that lead to the same is taken beside the other. -/
theorem exists_retold_of_taken (h : Mirrors r world.files other.files path path') (commands : List Command)
    (htaken : world.files.isOccupied path.backup ∨ world.files.isOccupied path.temp) :
    ∃ error error', (replaceFile path commands).run.run world = (world, .error error) ∧
      (replaceFile path' commands).run.run other = (other, .error error') ∧ Error.Retold path path' error error' := by
  have hbackup := h.backupPlace.isOccupied_eq
  have htaken' : other.files.isOccupied path'.backup ∨ other.files.isOccupied path'.temp := by
    rwa [hbackup, h.tempPlace.isOccupied_eq]
  refine ⟨_, _, run_replaceFile_of_taken commands htaken, run_replaceFile_of_taken commands htaken', ?_⟩
  rw [artifact, artifact, hbackup]
  split_ifs
  · exact .backupTaken
  · exact .tempTaken

/-- If no backup can be made of a file, none can be made of it under the other name. -/
theorem exists_retold_of_not_replaceable (hrenamed : world.files.Renamed r other.files)
    (h : Mirrors r world.files other.files path path') {entry : Entry} (hread : world.files.readable path = .ok entry)
    (commands : List Command) (hbackup : world.files.isOccupied path.backup = false)
    (htemp : world.files.isOccupied path.temp = false) (hnot : ¬Replaceable world.files path) :
    ∃ error error', (replaceFile path commands).run.run world = (world, .error error) ∧
      (replaceFile path' commands).run.run other = (other, .error error') ∧ Error.Retold path path' error error' := by
  have hread' : other.files.readable path' = .ok entry := h.target.readable_eq.trans hread
  have hbackup' := h.backupPlace.isOccupied_eq.trans hbackup
  have htemp' := h.tempPlace.isOccupied_eq.trans htemp
  have hcopy := uncopyable_of_not_replaceable hbackup htemp hnot hread
  have hcopy' := uncopyable_of_not_replaceable hbackup' htemp' (mt (h.replaceable_iff hrenamed).mp hnot) hread'
  obtain ⟨final, hfind, _⟩ := find_of_readable hread
  obtain ⟨final', hfind', _⟩ := find_of_readable hread'
  have hmode : world.files.mode path = .ok entry.mode := by rw [FileSystem.mode, hfind, Except.map]
  have hmode' : other.files.mode path' = .ok entry.mode := by rw [FileSystem.mode, hfind', Except.map]
  refine ⟨_, _, run_replaceFile_of_uncopyable commands hbackup htemp hmode hcopy,
    run_replaceFile_of_uncopyable commands hbackup' htemp' hmode' hcopy', ?_⟩
  rw [(h.backupFile hbackup).writable_eq hrenamed]
  cases world.files.writable path.backup <;> cases entry <;> exact .backingUp _

/-- A replacement at two paths that lead to the same ends alike, and leaves the same behind. -/
theorem replaceFile_corresponds
    (hrenamed : world.files.Renamed r other.files) (h : Mirrors r world.files other.files path path')
    {entry : Entry} (hread : world.files.readable path = .ok entry) (hown : ∀ change, .interfere change ∉ commands)
    (hroomy : .fillDisk ∉ commands)
    (hsame : ∀ error, Command.outcome commands = .error error → Error.Retold path path' error error) :
    ∃ later later' result result', (replaceFile path commands).run.run world = (later, result) ∧
      (replaceFile path' commands).run.run other = (later', result') ∧ Error.Corresponds path path' result result' ∧
      later.files.Renamed r later'.files ∧ later.output = world.output ∧ later'.output = other.output := by
  by_cases htaken : world.files.isOccupied path.backup ∨ world.files.isOccupied path.temp
  · obtain ⟨error, error', hrun, hrun', hretold⟩ := exists_retold_of_taken h commands htaken
    exact ⟨world, other, _, _, hrun, hrun', .error hretold, hrenamed, rfl, rfl⟩
  obtain ⟨hbackup, htemp⟩ := not_or.mp htaken
  rw [Bool.not_eq_true] at hbackup htemp
  by_cases hreplaceable : Replaceable world.files path
  swap
  · obtain ⟨error, error', hrun, hrun', hretold⟩ :=
      exists_retold_of_not_replaceable hrenamed h hread commands hbackup htemp hreplaceable
    exact ⟨world, other, _, _, hrun, hrun', .error hretold, hrenamed, rfl, rfl⟩
  have hsite := nonempty_site_iff.mpr hreplaceable
  have hsite' := nonempty_site_iff.mpr ((h.replaceable_iff hrenamed).mpr hreplaceable)
  obtain ⟨_, hending⟩ := (replaceFile_upholds world path hown).goal_run
  obtain ⟨_, hending'⟩ := (replaceFile_upholds other path' hown).goal_run
  rcases hrun : (replaceFile path commands).run.run world with ⟨later, result⟩
  rcases hrun' : (replaceFile path' commands).run.run other with ⟨later', result'⟩
  rw [hrun] at hending
  rw [hrun'] at hending'
  dsimp only at hending hending'
  refine ⟨later, later', result, result', rfl, rfl, ?_, ⟨?_, ?_⟩, hending.frame.2.1, hending'.frame.2.1⟩
  · rw [hending.result_eq hsite hroomy, hending'.result_eq hsite' hroomy]
    exact (Error.Corresponds.of_same hsame).map _ _
  · rw [hending.frame.2.2, hending'.frame.2.2, hrenamed.directory]
  · obtain ⟨site, hentries⟩ := hending.exists_content hsite hroomy
    obtain ⟨site', hentries'⟩ := hending'.exists_content hsite' hroomy
    obtain ⟨hplace, hmode, hdata⟩ := site.eq_of_mirrors h site'
    intro location
    have hcontent : site'.content commands = site.content commands := by
      rw [Site.content, Site.content, Site.copy, Site.copy, hmode, hdata]
    rw [hentries, hentries', hplace, hcontent, hrenamed.tree]
    simp only [r.place_injective.eq_iff]

end Replacement

end LineComment
