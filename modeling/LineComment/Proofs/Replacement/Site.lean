import LineComment.Replacement
import LineComment.Proofs.Files.System

/-! Where a file can be replaced. A site is a file that a path leads to, with its name and the two free names
beside it, all in one directory that can be written to. During a replacement only what stands under these three names
changes, and therefore they are found in the same place at every moment. -/

namespace LineComment.Replacement

open FileTree FileSystem

variable {fs now : FileSystem} {path : Path}

theorem plainEnding_backup : Path.PlainEnding backupEnding := ⟨by decide, by decide, by decide⟩

theorem plainEnding_temp : Path.PlainEnding tempEnding := ⟨by decide, by decide, by decide⟩

theorem length_tempEnding : tempEnding.length = backupEnding.length := by decide

/-- A readable file that a path leads to, directly or over a link under its last name, with free names for a
backup and a temporary file beside that name. -/
structure Site (fs : FileSystem) (path : Path) where
  directory : Location
  name : Bytes
  final : Location
  mode : Nat
  data : Bytes
  names : fs.Names path directory name
  backupNames : fs.Names path.backup directory (name ++ backupEnding)
  tempNames : fs.Names path.temp directory (name ++ tempEnding)
  found : fs.find path = .ok (final, .file mode data)
  readable : (Entry.file mode data).isReadable
  writable : (fs.tree.entry? directory).any Entry.isWritable
  backupFree : fs.tree.entry? (directory ++ [name ++ backupEnding]) = none
  tempFree : fs.tree.entry? (directory ++ [name ++ tempEnding]) = none

namespace Site

variable (site : Site fs path)

/-- The place of the path's own name. -/
def place : Location := site.directory ++ [site.name]

/-- The place of the backup. -/
def backupPlace : Location := site.directory ++ [site.name ++ backupEnding]

/-- The place of the temporary file. -/
def tempPlace : Location := site.directory ++ [site.name ++ tempEnding]

/-- What stands under the path's own name: the file, or a link to it. -/
def original : Option Entry := fs.tree.entry? site.place

/-- A copy of the file that the path leads to, with the mode that is left of the file's when its bytes have been
written. -/
def copy : Option Entry := some (.file (modeAfter site.mode site.data) site.data)

theorem backupPlace_ne_place : site.backupPlace ≠ site.place := by
  simp [backupPlace, place, plainEnding_backup.ne_nil]

theorem tempPlace_ne_place : site.tempPlace ≠ site.place := by
  simp [tempPlace, place, plainEnding_temp.ne_nil]

theorem backupPlace_ne_tempPlace : site.backupPlace ≠ site.tempPlace := by
  have hendings : backupEnding ≠ tempEnding := by decide
  simp [backupPlace, tempPlace, hendings]

theorem directory_ne_append (name : Bytes) : site.directory ≠ site.directory ++ [name] := by
  intro heq
  simpa using congrArg List.length heq

/-- Under the path's own name stands the file itself, or a link that leads to it. -/
theorem original_cases : (site.original = some (.file site.mode site.data) ∧ site.final = site.place) ∨
    ∃ target count, site.original = some (.link target) ∧
      fs.tree.Leads count (linkStart site.directory target) target.names site.final := by
  obtain ⟨outer, count, hnames, _, hleads⟩ := site.names.leads
  obtain ⟨_, _, _, hwalk⟩ := usable_of_resolve (target_of_find site.found)
  rw [hnames] at hwalk
  obtain ⟨_, left, dest, _, hother, hlast⟩ := exists_leads_of_walk (by simp) hwalk
  cases hleads.unique hother
  rcases walk_cons_ok hlast with ⟨next, henter, hnext⟩ | ⟨target, _, _, hlink, hfollow | hend⟩
  · rw [walk_nil, Except.ok.injEq, Spot.mk.injEq] at hnext
    obtain rfl : next = site.place := henter.unique (.down site.names.searchable site.names.proper fun target hlink =>
      henter.not_link site.names.proper hlink)
    exact Or.inl ⟨hnext.2, hnext.1.symm⟩
  · obtain ⟨fewer, _, hfewer⟩ := hfollow
    obtain ⟨count, left, dest, _, hleads, hlast⟩ := exists_leads_of_walk (by simp) hfewer
    rw [walk_nil, Except.ok.injEq, Spot.mk.injEq] at hlast
    obtain ⟨rfl, _⟩ := hlast
    exact Or.inr ⟨target, count, hlink, hleads⟩
  · simp at hend

theorem final_isFile : fs.tree.entry? site.final = some (.file site.mode site.data) := by
  rcases site.original_cases with ⟨horiginal, hfinal⟩ | _
  · rw [hfinal]
    exact horiginal
  · obtain ⟨_, _, _, hwalk⟩ := usable_of_resolve (target_of_find site.found)
    rw [← List.append_nil path.names] at hwalk
    obtain ⟨_, _, _, _, _, hlast⟩ := exists_leads_of_walk (by simp) hwalk
    rw [walk_nil, Except.ok.injEq, Spot.mk.injEq] at hlast
    exact hlast.1 ▸ hlast.2

theorem final_ne_directory : site.final ≠ site.directory := by
  intro heq
  obtain ⟨mode, hmode⟩ := site.names.searchable.isDirectoryAt
  simp [← heq, site.final_isFile] at hmode

/-- What stands under the path's own name is on no way to the directory it stands in. -/
theorem misses {entry : Entry} (hentry : site.original = some entry) :
    fs.tree.Misses site.directory site.place entry := by
  rcases site.original_cases with ⟨hfile, _⟩ | ⟨target, count, hlink, hleads⟩
  · cases hfile.symm.trans hentry
    exact (site.directory_ne_append site.name).symm
  · cases hlink.symm.trans hentry
    refine ⟨count, site.final, by rwa [place, List.dropLast_concat], ?_, site.final_ne_directory⟩
    rintro ⟨mode, hmode⟩
    simp [site.final_isFile] at hmode

/-- In a state the three names have these entries, and everything else is as it was. -/
structure Shows (site : Site fs path) (now : FileSystem) (backup temp entry : Option Entry) : Prop where
  directory : now.directory = fs.directory
  backup : now.tree.entry? site.backupPlace = backup
  temp : now.tree.entry? site.tempPlace = temp
  entry : now.tree.entry? site.place = entry
  others : ∀ location, location ≠ site.backupPlace → location ≠ site.tempPlace → location ≠ site.place →
    now.tree.entry? location = fs.tree.entry? location

variable {site} {backup temp entry : Option Entry}

theorem shows_self (site : Site fs path) : site.Shows fs none none site.original :=
  ⟨rfl, site.backupFree, site.tempFree, rfl, fun _ _ _ _ => rfl⟩

/-- The ways that do not go over the path's own name are kept, and so are all others while its entry stays. -/
theorem Shows.keepsWays (h : site.Shows now backup temp entry) {dest : Location}
    (hentry : ∀ old, site.original = some old → entry = some old ∨ fs.tree.Misses dest site.place old) :
    fs.tree.KeepsWays dest now.tree := by
  intro location old hold
  by_cases hbackup : location = site.backupPlace
  · exact absurd hold (by simp [hbackup, backupPlace, site.backupFree])
  by_cases htemp : location = site.tempPlace
  · exact absurd hold (by simp [htemp, tempPlace, site.tempFree])
  by_cases hplace : location = site.place
  · subst hplace
    rw [h.entry]
    exact hentry old hold
  · exact Or.inl ((h.others location hbackup htemp hplace).trans hold)

/-- The ways to the directory of the three names are kept. -/
theorem Shows.keepsDirectory (h : site.Shows now backup temp entry) : fs.tree.KeepsWays site.directory now.tree :=
  h.keepsWays fun _ hold => Or.inr (site.misses hold)

theorem Shows.names (h : site.Shows now backup temp entry) : now.Names path site.directory site.name :=
  site.names.of_keepsWays h.directory h.keepsDirectory

theorem Shows.backupNames (h : site.Shows now backup temp entry) :
    now.Names path.backup site.directory (site.name ++ backupEnding) :=
  site.backupNames.of_keepsWays h.directory h.keepsDirectory

theorem Shows.tempNames (h : site.Shows now backup temp entry) :
    now.Names path.temp site.directory (site.name ++ tempEnding) :=
  site.tempNames.of_keepsWays h.directory h.keepsDirectory

theorem Shows.place_own (h : site.Shows now backup temp entry) : now.place path = .ok ⟨site.place, entry⟩ := by
  rw [h.names.place, ← Site.place, h.entry]

theorem Shows.place_backup (h : site.Shows now backup temp entry) :
    now.place path.backup = .ok ⟨site.backupPlace, backup⟩ := by
  rw [h.backupNames.place, ← backupPlace, h.backup]

theorem Shows.place_temp (h : site.Shows now backup temp entry) :
    now.place path.temp = .ok ⟨site.tempPlace, temp⟩ := by
  rw [h.tempNames.place, ← tempPlace, h.temp]

theorem Shows.not_isOccupied (h : site.Shows now none none entry) :
    now.isOccupied path.backup = false ∧ now.isOccupied path.temp = false := by
  rw [isOccupied, isOccupied, h.place_backup, h.place_temp]
  exact ⟨rfl, rfl⟩

/-- Names can be made and removed in the directory of the three names. -/
theorem Shows.isChangeable (h : site.Shows now backup temp entry) (name : Bytes) :
    now.tree.isChangeable (site.directory ++ [name]) := by
  obtain ⟨mode, hmode⟩ := site.names.searchable.isDirectoryAt
  have hkept := (h.keepsDirectory _ _ hmode).resolve_right id
  have hwritable := site.writable
  rw [FileTree.isChangeable, List.dropLast_concat, hkept]
  rwa [hmode] at hwritable

/-- A state without the two further names differs only in what stands under the path's own name. -/
theorem Shows.entry?_eq {entry : Option Entry} (h : site.Shows now none none entry) (location : Location) :
    now.tree.entry? location = if location = site.place then entry else fs.tree.entry? location := by
  split_ifs with hplace
  · rw [hplace, h.entry]
  by_cases hbackup : location = site.backupPlace
  · rw [hbackup, h.backup]
    exact site.backupFree.symm
  by_cases htemp : location = site.tempPlace
  · rw [htemp, h.temp]
    exact site.tempFree.symm
  · exact h.others location hbackup htemp hplace

/-- While the path's own name is as it was, the path leads to the old file. -/
theorem Shows.find_original (h : site.Shows now backup temp site.original) :
    now.find path = .ok (site.final, .file site.mode site.data) := by
  have hkeeps : fs.tree.KeepsWays site.final now.tree := h.keepsWays fun _ hold => Or.inl hold
  have hfinal := (hkeeps _ _ site.final_isFile).resolve_right fun hmiss => hmiss rfl
  exact find_of_keepsWays site.found h.directory hkeeps hfinal

variable {mode : Nat} {data : Bytes}

theorem Shows.find_replaced (h : site.Shows now backup temp (some (.file mode data))) :
    now.find path = .ok (site.place, .file mode data) :=
  h.names.find h.entry (by simp)

theorem Shows.find_backup (h : site.Shows now (some (.file mode data)) temp entry) :
    now.find path.backup = .ok (site.backupPlace, .file mode data) :=
  h.backupNames.find h.backup (by simp)

theorem Shows.find_temp (h : site.Shows now backup (some (.file mode data)) entry) :
    now.find path.temp = .ok (site.tempPlace, .file mode data) :=
  h.tempNames.find h.temp (by simp)

variable {later : FileSystem} {new : Entry}

theorem Shows.of_tree (h : site.Shows now backup temp entry) (hdirectory : later.directory = now.directory)
    (htree : later.tree = now.tree) : site.Shows later backup temp entry := by
  obtain ⟨hdir, hbackup, htemp, hentry, hothers⟩ := h
  constructor
  all_goals simp only [htree, hdirectory]
  all_goals assumption

/-- After a change of one of the three entries the other two are as they were. -/
theorem Shows.change (h : site.Shows now backup temp entry) (hdirectory : later.directory = now.directory)
    {changed : Location} {value : Option Entry}
    (hchanged : changed = site.backupPlace ∨ changed = site.tempPlace ∨ changed = site.place)
    (hlater : ∀ location, later.tree.entry? location = if location = changed then value else now.tree.entry? location) :
    site.Shows later (if site.backupPlace = changed then value else backup)
      (if site.tempPlace = changed then value else temp) (if site.place = changed then value else entry) := by
  refine ⟨hdirectory.trans h.directory, ?_, ?_, ?_, fun location hbackup htemp hplace => ?_⟩
  · rw [hlater, h.backup]
  · rw [hlater, h.temp]
  · rw [hlater, h.entry]
  · have hother : location ≠ changed := by rcases hchanged with rfl | rfl | rfl <;> assumption
    rw [hlater, if_neg hother, h.others location hbackup htemp hplace]

theorem Shows.put_backup (h : site.Shows now backup temp entry) (hbackup : backup.any Entry.isDirectory = false)
    (hdirectory : later.directory = now.directory) (htree : later.tree = now.tree.put site.backupPlace new) :
    site.Shows later (some new) temp entry := by
  have hput := (isFilePlace_of_place h.place_backup hbackup).entry?_put new
  have hshows := h.change hdirectory (Or.inl rfl) (htree ▸ hput)
  rwa [if_pos rfl, if_neg site.backupPlace_ne_tempPlace.symm, if_neg site.backupPlace_ne_place.symm] at hshows

theorem Shows.put_temp (h : site.Shows now backup temp entry) (htemp : temp.any Entry.isDirectory = false)
    (hdirectory : later.directory = now.directory) (htree : later.tree = now.tree.put site.tempPlace new) :
    site.Shows later backup (some new) entry := by
  have hput := (isFilePlace_of_place h.place_temp htemp).entry?_put new
  have hshows := h.change hdirectory (Or.inr (Or.inl rfl)) (htree ▸ hput)
  rwa [if_neg site.backupPlace_ne_tempPlace, if_pos rfl, if_neg site.tempPlace_ne_place.symm] at hshows

theorem Shows.put_place (h : site.Shows now backup temp entry) (hentry : entry.any Entry.isDirectory = false)
    (hdirectory : later.directory = now.directory) (htree : later.tree = now.tree.put site.place new) :
    site.Shows later backup temp (some new) := by
  have hput := (isFilePlace_of_place h.place_own hentry).entry?_put new
  have hshows := h.change hdirectory (Or.inr (Or.inr rfl)) (htree ▸ hput)
  rwa [if_neg site.backupPlace_ne_place, if_neg site.tempPlace_ne_place, if_pos rfl] at hshows

theorem Shows.erase_backup (h : site.Shows now backup temp entry) (hbackup : backup.any Entry.isDirectory = false)
    (hdirectory : later.directory = now.directory) (htree : later.tree = now.tree.erase site.backupPlace) :
    site.Shows later none temp entry := by
  have herase := (isFilePlace_of_place h.place_backup hbackup).entry?_erase
  have hshows := h.change hdirectory (Or.inl rfl) (htree ▸ herase)
  rwa [if_pos rfl, if_neg site.backupPlace_ne_tempPlace.symm, if_neg site.backupPlace_ne_place.symm] at hshows

theorem Shows.erase_temp (h : site.Shows now backup temp entry) (htemp : temp.any Entry.isDirectory = false)
    (hdirectory : later.directory = now.directory) (htree : later.tree = now.tree.erase site.tempPlace) :
    site.Shows later backup none entry := by
  have herase := (isFilePlace_of_place h.place_temp htemp).entry?_erase
  have hshows := h.change hdirectory (Or.inr (Or.inl rfl)) (htree ▸ herase)
  rwa [if_neg site.backupPlace_ne_tempPlace, if_pos rfl, if_neg site.tempPlace_ne_place.symm] at hshows

/-- At the start the mode of the file can be asked for. -/
theorem mode_eq (site : Site fs path) : fs.mode path = .ok site.mode := by
  rw [FileSystem.mode, site.found]
  rfl

theorem readable_eq (site : Site fs path) : fs.readable path = .ok (.file site.mode site.data) := by
  simp only [FileSystem.readable, site.found, if_pos site.readable]

theorem writable_backup (site : Site fs path) : fs.writable path.backup = .ok site.backupPlace := by
  have hchange := site.shows_self.isChangeable (site.name ++ backupEnding)
  rw [site.backupNames.writable site.backupFree, if_pos hchange, backupPlace]

variable (site) in
/-- At the start the file can be copied to its backup. -/
theorem openCopy : ∃ later, fs.openCopy path path.backup = (later, .ok site.data) ∧
    site.Shows later (some (.file site.mode [])) none site.original ∧
    later.opened = some (.linked site.backupPlace 0) :=
  ⟨_, openCopy_file site.readable_eq site.writable_backup, site.shows_self.put_backup rfl rfl rfl, rfl⟩

theorem Shows.append_backup (h : site.Shows now (some (.file mode [])) temp entry)
    (hopened : now.opened = some (.linked site.backupPlace 0)) (data : Bytes) :
    ∃ later, now.append data = (later, .ok ()) ∧
      site.Shows later (some (.file (modeAfter mode data) data)) temp entry ∧
      later.opened = some (.linked site.backupPlace data.length) :=
  ⟨_, append_linked hopened h.backup data, h.put_backup rfl rfl rfl, rfl⟩

theorem Shows.openNew (h : site.Shows now backup none entry) :
    ∃ later, now.openNew path.temp = (later, .ok ()) ∧
      site.Shows later backup (some (.file defaultMode [])) entry ∧
      later.opened = some (.linked site.tempPlace 0) :=
  ⟨_, openNew_free h.place_temp (h.isChangeable _), h.put_temp rfl rfl rfl, rfl⟩

/-- The mode of a new file has nothing that a write could take. -/
theorem Shows.append_temp {old : Bytes} (h : site.Shows now backup (some (.file defaultMode old)) entry)
    (hopened : now.opened = some (.linked site.tempPlace old.length)) (data : Bytes) :
    ∃ later, now.append data = (later, .ok ()) ∧
      site.Shows later backup (some (.file defaultMode (old ++ data))) entry ∧
      later.opened = some (.linked site.tempPlace (old ++ data).length) := by
  have happend := append_linked hopened h.temp data
  rw [modeAfter_default] at happend
  exact ⟨_, happend, h.put_temp rfl rfl rfl, rfl⟩

theorem Shows.setMode (h : site.Shows now backup (some (.file mode data)) entry) (bits : Nat) :
    ∃ later, now.setMode path.temp bits = (later, .ok ()) ∧
      site.Shows later backup (some (.file bits data)) entry :=
  ⟨_, setMode_file h.find_temp (by simp [tempPlace]), h.put_temp rfl rfl rfl⟩

/-- A file beside the path's own name takes the place of what stands under that name. -/
theorem Shows.rename {source : Path} {name : Bytes} (h : site.Shows now backup temp entry)
    (hentry : entry.any Entry.isDirectory = false)
    (hsource : now.place source = .ok ⟨site.directory ++ [name], some (.file mode data)⟩)
    (hne : site.directory ++ [name] ≠ site.place) :
    ∃ middle later, now.rename source path = (later, .ok ()) ∧
      site.Shows middle backup temp (some (.file mode data)) ∧ later.directory = middle.directory ∧
      later.tree = middle.tree.erase (site.directory ++ [name]) := by
  have hrename := rename_file hsource h.place_own hne (h.isChangeable _) (h.isChangeable _) hentry
  exact ⟨now.withTree (now.tree.put site.place (.file mode data)), _, hrename, h.put_place hentry rfl rfl, rfl, rfl⟩

theorem Shows.install (h : site.Shows now backup (some (.file mode data)) entry)
    (hentry : entry.any Entry.isDirectory = false) :
    ∃ later, now.rename path.temp path = (later, .ok ()) ∧
      site.Shows later backup none (some (.file mode data)) := by
  obtain ⟨middle, later, hrename, hmiddle, hdirectory, htree⟩ := h.rename hentry h.place_temp site.tempPlace_ne_place
  exact ⟨later, hrename, hmiddle.erase_temp rfl hdirectory htree⟩

theorem Shows.restore (h : site.Shows now (some (.file mode data)) temp entry)
    (hentry : entry.any Entry.isDirectory = false) :
    ∃ later, now.rename path.backup path = (later, .ok ()) ∧
      site.Shows later none temp (some (.file mode data)) := by
  obtain ⟨middle, later, hrename, hmiddle, hdirectory, htree⟩ :=
    h.rename hentry h.place_backup site.backupPlace_ne_place
  exact ⟨later, hrename, hmiddle.erase_backup rfl hdirectory htree⟩

theorem Shows.unlink_backup (h : site.Shows now (some (.file mode data)) temp entry) :
    ∃ later, now.unlink path.backup = (later, .ok ()) ∧ site.Shows later none temp entry :=
  ⟨_, unlink_file h.place_backup (h.isChangeable _), h.erase_backup rfl rfl rfl⟩

theorem Shows.unlink_temp (h : site.Shows now backup (some (.file mode data)) entry) :
    ∃ later, now.unlink path.temp = (later, .ok ()) ∧ site.Shows later backup none entry :=
  ⟨_, unlink_file h.place_temp (h.isChangeable _), h.erase_temp rfl rfl rfl⟩

theorem original_not_directory : site.original.any Entry.isDirectory = false := by
  rcases site.original_cases with ⟨hfile, _⟩ | ⟨target, _, hlink, _⟩
  · simp [hfile, Entry.isDirectory]
  · simp [hlink, Entry.isDirectory]

end Site

end LineComment.Replacement
