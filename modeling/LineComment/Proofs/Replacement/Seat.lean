import LineComment.Proofs.Files.Resemblance
import LineComment.Proofs.Replacement.Run

/-! Where someone else's file can appear. Before the backup has been made nothing is known of the names beside a file:
they may be taken, and the file may not be readable. What is done at such a seat is told by what stands under the two
names, be it there from the start or made by someone else in the meantime. -/

namespace LineComment

/-- Makes a file where nothing stands, as another process does that leaves the open file alone. -/
def FileSystem.createFile (fs : FileSystem) (path : Path) (mode : Nat) (data : Bytes) : Except Fault FileSystem :=
  match fs.place path with
  | .error fault => .error fault
  | .ok ⟨_, some _⟩ => .error .alreadyExists
  | .ok ⟨location, none⟩ =>
    if fs.tree.isChangeable location then .ok (fs.withTree (fs.tree.put location (.file mode data)))
    else .error .permissionDenied

/-- A file that someone else makes. -/
structure ForeignFile where
  path : Path
  mode : Nat
  data : Bytes

namespace ForeignFile

variable (foreign : ForeignFile)

/-- What then stands there. -/
def entry : Entry := .file foreign.mode foreign.data

/-- The file is made, if nothing stands in its place. -/
def Made (world changed : World) : Prop :=
  ∃ files, world.files.createFile foreign.path foreign.mode foreign.data = .ok files ∧ changed = { world with files }

/-- The file stands where it was made, with its mode and its bytes. -/
def Stands (world : World) : Prop := ∃ location, world.files.place foreign.path = .ok ⟨location, some foreign.entry⟩

end ForeignFile

theorem ForeignFile.Made.unchanged {foreign : ForeignFile} {world changed : World} (h : foreign.Made world changed) :
    changed.files.opened = world.files.opened ∧ changed.input = world.input ∧ changed.output = world.output := by
  obtain ⟨files, hcreate, rfl⟩ := h
  rw [FileSystem.createFile] at hcreate
  split at hcreate
  · cases hcreate
  · cases hcreate
  · split_ifs at hcreate
    cases hcreate
    exact ⟨rfl, rfl, rfl⟩

namespace FileSystem

variable {fs later : FileSystem} {path : Path} {directory : Location} {name : Bytes} {mode : Nat} {data : Bytes}

theorem Names.of_createFile (h : fs.Names path directory name) (hcreate : fs.createFile path mode data = .ok later) :
    fs.tree.entry? (directory ++ [name]) = none ∧ fs.tree.isChangeable (directory ++ [name]) ∧
      later = fs.withTree (fs.tree.put (directory ++ [name]) (.file mode data)) := by
  rw [createFile, h.place] at hcreate
  cases hentry : fs.tree.entry? (directory ++ [name]) with
  | some entry => simp [hentry] at hcreate
  | none =>
      simp only [hentry] at hcreate
      split_ifs at hcreate with hchange
      exact ⟨rfl, hchange, (Except.ok.inj hcreate).symm⟩

theorem exists_place_of_createFile (hcreate : fs.createFile path mode data = .ok later) :
    ∃ location, fs.place path = .ok ⟨location, none⟩ := by
  rw [createFile] at hcreate
  cases hplace : fs.place path with
  | error fault => simp [hplace] at hcreate
  | ok spot =>
      obtain ⟨location, _ | entry⟩ := spot
      · exact ⟨location, rfl⟩
      · simp [hplace] at hcreate

/-- A file can be made under a free name where the directory can be written to. -/
theorem Names.exists_createFile (h : fs.Names path directory name) (hfree : fs.tree.entry? (directory ++ [name]) = none)
    (hchange : fs.tree.isChangeable (directory ++ [name])) (mode : Nat) (data : Bytes) :
    ∃ later, fs.createFile path mode data = .ok later := by
  rw [createFile, h.place, hfree]
  exact ⟨_, if_pos hchange⟩

/-- A file that stands in the way of a copy gives way to it if it can be written to. -/
theorem Names.writable_file (h : fs.Names path directory name)
    (hentry : fs.tree.entry? (directory ++ [name]) = some (.file mode data)) :
    fs.writable path =
      if (Entry.file mode data).isWritable then .ok (directory ++ [name]) else .error .permissionDenied := by
  have hresolve := h.resolve .file (Or.inr (by simp [hentry]))
  rw [FileSystem.writable, hresolve, hentry]

end FileSystem

namespace Replacement

open FileTree FileSystem Script

variable {fs now later : FileSystem} {path : Path}

/-- A file that a path leads to, with the two names beside it in a directory that can be written to. Other than at a
site the names may be taken, and the file need not be readable. -/
structure Seat (fs : FileSystem) (path : Path) where
  directory : Location
  name : Bytes
  final : Location
  mode : Nat
  data : Bytes
  names : fs.Names path directory name
  backupNames : fs.Names path.backup directory (name ++ backupEnding)
  tempNames : fs.Names path.temp directory (name ++ tempEnding)
  found : fs.find path = .ok (final, .file mode data)
  writable : (fs.tree.entry? directory).any Entry.isWritable

namespace Seat

variable (seat : Seat fs path)

/-- The place of the backup. -/
def backupPlace : Location := seat.directory ++ [seat.name ++ backupEnding]

/-- The place of the temporary file. -/
def tempPlace : Location := seat.directory ++ [seat.name ++ tempEnding]

theorem backupPlace_ne_tempPlace : seat.backupPlace ≠ seat.tempPlace := by
  have hendings : backupEnding ≠ tempEnding := by decide
  simp [backupPlace, tempPlace, hendings]

/-- With both names free and the file readable, this is a site. -/
def site (readable : (Entry.file seat.mode seat.data).isReadable)
    (backupFree : fs.tree.entry? seat.backupPlace = none) (tempFree : fs.tree.entry? seat.tempPlace = none) :
    Site fs path :=
  { seat with readable, backupFree, tempFree }

/-- In a state these entries stand under the two names, and everything else is as it was. -/
structure Shows (seat : Seat fs path) (now : FileSystem) (backup temp : Option Entry) : Prop where
  directory : now.directory = fs.directory
  kept : ∀ location entry, fs.tree.entry? location = some entry → now.tree.entry? location = some entry
  backup : now.tree.entry? seat.backupPlace = backup
  temp : now.tree.entry? seat.tempPlace = temp
  others : ∀ location, location ≠ seat.backupPlace → location ≠ seat.tempPlace →
    now.tree.entry? location = fs.tree.entry? location

variable {seat} {backup temp : Option Entry}

theorem shows_self (seat : Seat fs path) :
    seat.Shows fs (fs.tree.entry? seat.backupPlace) (fs.tree.entry? seat.tempPlace) :=
  ⟨rfl, fun _ _ => id, rfl, rfl, fun _ _ _ => rfl⟩

theorem Shows.keepsWays (h : seat.Shows now backup temp) (dest : Location) : fs.tree.KeepsWays dest now.tree :=
  fun location entry hentry => Or.inl (h.kept location entry hentry)

theorem Shows.place_backup (h : seat.Shows now backup temp) :
    now.place path.backup = .ok ⟨seat.backupPlace, backup⟩ := by
  rw [(seat.backupNames.of_keepsWays h.directory (h.keepsWays _)).place, ← backupPlace, h.backup]

theorem Shows.place_temp (h : seat.Shows now backup temp) : now.place path.temp = .ok ⟨seat.tempPlace, temp⟩ := by
  rw [(seat.tempNames.of_keepsWays h.directory (h.keepsWays _)).place, ← tempPlace, h.temp]

theorem Shows.isOccupied_backup (h : seat.Shows now backup temp) : now.isOccupied path.backup = backup.isSome := by
  rw [isOccupied, h.place_backup]
  cases backup <;> rfl

theorem Shows.isOccupied_temp (h : seat.Shows now backup temp) : now.isOccupied path.temp = temp.isSome := by
  rw [isOccupied, h.place_temp]
  cases temp <;> rfl

theorem Shows.find (h : seat.Shows now backup temp) : now.find path = .ok (seat.final, .file seat.mode seat.data) := by
  have hfinal : fs.tree.entry? seat.final = some (.file seat.mode seat.data) :=
    FileSystem.entry_of_resolve (target_of_find seat.found)
  exact find_of_keepsWays seat.found h.directory (h.keepsWays _) (h.kept _ _ hfinal)

theorem Shows.mode_eq (h : seat.Shows now backup temp) : now.mode path = .ok seat.mode := by
  rw [FileSystem.mode, h.find]
  rfl

theorem Shows.isChangeable (h : seat.Shows now backup temp) (name : Bytes) :
    now.tree.isChangeable (seat.directory ++ [name]) := by
  obtain ⟨mode, hmode⟩ := seat.names.searchable.isDirectoryAt
  have hwritable := seat.writable
  rw [FileTree.isChangeable, List.dropLast_concat, h.kept _ _ hmode]
  rwa [hmode] at hwritable

/-- After a change under a name that was free at the start everything else is as it was. -/
theorem Shows.change (h : seat.Shows now backup temp) (hdirectory : later.directory = now.directory)
    {changed : Location} {value : Option Entry} (hchanged : changed = seat.backupPlace ∨ changed = seat.tempPlace)
    (hfree : fs.tree.entry? changed = none)
    (hlater : ∀ location, later.tree.entry? location = if location = changed then value else now.tree.entry? location) :
    seat.Shows later (if seat.backupPlace = changed then value else backup)
      (if seat.tempPlace = changed then value else temp) := by
  refine ⟨hdirectory.trans h.directory, fun location old hold => ?_, ?_, ?_, fun location hbackup htemp => ?_⟩
  · have hother : location ≠ changed := by
      rintro rfl
      simp [hfree] at hold
    rw [hlater, if_neg hother, h.kept location old hold]
  · rw [hlater, h.backup]
  · rw [hlater, h.temp]
  · have hother : location ≠ changed := by rcases hchanged with rfl | rfl <;> assumption
    rw [hlater, if_neg hother, h.others location hbackup htemp]

/-- What is not there was not there at the start. -/
theorem Shows.free {location : Location} (h : seat.Shows now backup temp) (hnow : now.tree.entry? location = none) :
    fs.tree.entry? location = none := by
  by_contra hold
  obtain ⟨entry, hentry⟩ := Option.ne_none_iff_exists'.mp hold
  simp [h.kept location entry hentry] at hnow

theorem Shows.put_backup {entry : Entry} (h : seat.Shows now none temp) (hdirectory : later.directory = now.directory)
    (htree : later.tree = now.tree.put seat.backupPlace entry) : seat.Shows later (some entry) temp := by
  have hput := (isFilePlace_of_place h.place_backup rfl).entry?_put entry
  have hshows := h.change hdirectory (Or.inl rfl) (h.free h.backup) (htree ▸ hput)
  rwa [if_pos rfl, if_neg seat.backupPlace_ne_tempPlace.symm] at hshows

theorem Shows.put_temp {entry : Entry} (h : seat.Shows now backup none) (hdirectory : later.directory = now.directory)
    (htree : later.tree = now.tree.put seat.tempPlace entry) : seat.Shows later backup (some entry) := by
  have hput := (isFilePlace_of_place h.place_temp rfl).entry?_put entry
  have hshows := h.change hdirectory (Or.inr rfl) (h.free h.temp) (htree ▸ hput)
  rwa [if_neg seat.backupPlace_ne_tempPlace, if_pos rfl] at hshows

/-- The other's file appears under a free name, and nothing else happens. -/
theorem Shows.of_made {foreign : ForeignFile} {world changed : World} (h : seat.Shows world.files backup temp)
    (hname : foreign.path = path.backup ∨ foreign.path = path.temp) (hmade : foreign.Made world changed) :
    foreign.path = path.backup ∧ backup = none ∧ seat.Shows changed.files (some foreign.entry) temp ∨
      foreign.path = path.temp ∧ temp = none ∧ seat.Shows changed.files backup (some foreign.entry) := by
  obtain ⟨files, hcreate, rfl⟩ := hmade
  rcases hname with hname | hname
  · rw [hname] at hcreate
    obtain ⟨hfree, -, hfiles⟩ := (seat.backupNames.of_keepsWays h.directory (h.keepsWays _)).of_createFile hcreate
    obtain rfl : backup = none := h.backup.symm.trans hfree
    exact Or.inl ⟨hname, rfl, h.put_backup (by rw [hfiles]; rfl) (by rw [hfiles]; rfl)⟩
  · rw [hname] at hcreate
    obtain ⟨hfree, -, hfiles⟩ := (seat.tempNames.of_keepsWays h.directory (h.keepsWays _)).of_createFile hcreate
    obtain rfl : temp = none := h.temp.symm.trans hfree
    exact Or.inr ⟨hname, rfl, h.put_temp (by rw [hfiles]; rfl) (by rw [hfiles]; rfl)⟩

theorem Shows.erase_backup (h : seat.Shows now backup temp) (hbackup : backup.any Entry.isDirectory = false)
    (hfree : fs.tree.entry? seat.backupPlace = none) (hdirectory : later.directory = now.directory)
    (htree : later.tree = now.tree.erase seat.backupPlace) :
    seat.Shows later none temp := by
  have herase := (isFilePlace_of_place h.place_backup hbackup).entry?_erase
  have hshows := h.change hdirectory (Or.inl rfl) hfree (htree ▸ herase)
  rwa [if_pos rfl, if_neg seat.backupPlace_ne_tempPlace.symm] at hshows

/-- A file under the name of the backup, which was free at the start, is removed. -/
theorem Shows.unlink_backup {mode : Nat} {data : Bytes} (h : seat.Shows now (some (.file mode data)) temp)
    (hfree : fs.tree.entry? seat.backupPlace = none) :
    ∃ later, now.unlink path.backup = (later, .ok ()) ∧ seat.Shows later none temp :=
  ⟨_, unlink_file h.place_backup (h.isChangeable _), h.erase_backup rfl hfree rfl rfl⟩

variable {backupFree : fs.tree.entry? seat.backupPlace = none} {tempFree : fs.tree.entry? seat.tempPlace = none}
  {readable : (Entry.file seat.mode seat.data).isReadable}

theorem Shows.site (h : seat.Shows now backup temp) :
    (seat.site readable backupFree tempFree).Shows now backup temp (seat.site readable backupFree tempFree).original :=
  ⟨h.directory, h.backup, h.temp, h.others _ (Site.backupPlace_ne_place _).symm (Site.tempPlace_ne_place _).symm,
    fun location hbackup htemp _ => h.others location hbackup htemp⟩

/-- A copy to the backup can be made only there, even where a file stands. -/
theorem Shows.eq_of_writable (h : seat.Shows now backup temp)
    (hbackup : ∀ entry ∈ backup, ∃ mode data, entry = .file mode data) {location : Location}
    (hwritable : now.writable path.backup = .ok location) : location = seat.backupPlace := by
  have hnames := seat.backupNames.of_keepsWays h.directory (h.keepsWays _)
  cases backup with
  | none =>
      rw [hnames.writable h.backup, if_pos (h.isChangeable _)] at hwritable
      exact (Except.ok.inj hwritable).symm
  | some entry =>
      obtain ⟨mode, data, rfl⟩ := hbackup entry rfl
      rw [hnames.writable_file h.backup] at hwritable
      split_ifs at hwritable with hbit
      exact (Except.ok.inj hwritable).symm

/-- The copy cannot be begun, or it begins with an empty file under the name of the backup. -/
theorem Shows.openCopy_cases (h : seat.Shows now backup temp)
    (hbackup : ∀ entry ∈ backup, ∃ mode data, entry = .file mode data)
    (backupFree : fs.tree.entry? seat.backupPlace = none) (tempFree : fs.tree.entry? seat.tempPlace = none) :
    (∃ fault, now.openCopy path path.backup = (now, .error fault)) ∨
    ∃ readable later, now.openCopy path path.backup = (later, .ok seat.data) ∧
      later.opened = some (.linked seat.backupPlace 0) ∧
      (seat.site readable backupFree tempFree).Shows later (some (.file seat.mode [])) temp
        (seat.site readable backupFree tempFree).original := by
  by_cases hreadable : (Entry.file seat.mode seat.data).isReadable
  · have hread : now.readable path = .ok (.file seat.mode seat.data) := by
      simp only [FileSystem.readable, h.find, if_pos hreadable]
    cases hwritable : now.writable path.backup with
    | error fault => exact Or.inl ⟨fault, by simp only [FileSystem.openCopy, hread, hwritable]⟩
    | ok location =>
        obtain rfl := h.eq_of_writable hbackup hwritable
        have hfile : backup.any Entry.isDirectory = false := by
          cases backup with
          | none => rfl
          | some entry =>
              obtain ⟨mode, data, rfl⟩ := hbackup entry rfl
              rfl
        exact Or.inr ⟨hreadable, _, openCopy_file hread hwritable, rfl, h.site.put_backup hfile rfl rfl⟩
  · have hunread : now.readable path = .error .permissionDenied := by
      simp only [FileSystem.readable, h.find, if_neg hreadable]
    exact Or.inl ⟨.permissionDenied, by simp only [FileSystem.openCopy, hunread]⟩

end Seat

/-- At a site, too, the other's file appears under a free name, and nothing else happens. -/
theorem Site.Shows.of_made {site : Site fs path} {backup temp entry : Option Entry} {foreign : ForeignFile}
    {world changed : World} (h : site.Shows world.files backup temp entry)
    (hname : foreign.path = path.backup ∨ foreign.path = path.temp) (hmade : foreign.Made world changed) :
    foreign.path = path.backup ∧ backup = none ∧ site.Shows changed.files (some foreign.entry) temp entry ∨
      foreign.path = path.temp ∧ temp = none ∧ site.Shows changed.files backup (some foreign.entry) entry := by
  obtain ⟨files, hcreate, rfl⟩ := hmade
  rcases hname with hname | hname
  · rw [hname] at hcreate
    obtain ⟨hfree, -, hfiles⟩ := h.backupNames.of_createFile hcreate
    obtain rfl : backup = none := h.backup.symm.trans hfree
    exact Or.inl ⟨hname, rfl, h.put_backup rfl (by rw [hfiles]; rfl) (by rw [hfiles]; rfl)⟩
  · rw [hname] at hcreate
    obtain ⟨hfree, -, hfiles⟩ := h.tempNames.of_createFile hcreate
    obtain rfl : temp = none := h.temp.symm.trans hfree
    exact Or.inr ⟨hname, rfl, h.put_temp rfl (by rw [hfiles]; rfl) (by rw [hfiles]; rfl)⟩

/-- Where a file can be made under one of the two names, both names are found. -/
theorem exists_seat {foreign : ForeignFile} {world changed : World}
    (hfile : world.files.isFile path) (hname : foreign.path = path.backup ∨ foreign.path = path.temp)
    (hmade : foreign.Made world changed) : Nonempty (Seat world.files path) := by
  obtain ⟨files, hcreate, rfl⟩ := hmade
  obtain ⟨final, mode, data, htarget⟩ : ∃ final mode data,
      world.files.target path = .ok ⟨final, some (.file mode data)⟩ := by
    rw [FileSystem.isFile] at hfile
    split at hfile
    · next hspot => exact ⟨_, _, _, hspot⟩
    · cases hfile
  obtain ⟨directory, name, hnames⟩ := exists_names htarget (by simp)
  obtain ⟨location, hplace⟩ := exists_place_of_createFile hcreate
  have hlengths : path.bytes.length + backupEnding.length ≤ maxPath ∧ name.length + backupEnding.length ≤ maxName := by
    rcases hname with hname | hname
    · exact hnames.lengths_of_resolve plainEnding_backup (hname ▸ hplace)
    · rw [← length_tempEnding]
      exact hnames.lengths_of_resolve plainEnding_temp (hname ▸ hplace)
  have hbackupNames : world.files.Names path.backup directory (name ++ backupEnding) :=
    hnames.sibling plainEnding_backup hlengths.1 hlengths.2
  have htempNames : world.files.Names path.temp directory (name ++ tempEnding) := by
    rw [← length_tempEnding] at hlengths
    exact hnames.sibling plainEnding_temp hlengths.1 hlengths.2
  have hwritable : (world.files.tree.entry? directory).any Entry.isWritable := by
    rcases hname with hname | hname
    · rw [hname] at hcreate
      have hchange := (hbackupNames.of_createFile hcreate).2.1
      rwa [FileTree.isChangeable, List.dropLast_concat] at hchange
    · rw [hname] at hcreate
      have hchange := (htempNames.of_createFile hcreate).2.1
      rwa [FileTree.isChangeable, List.dropLast_concat] at hchange
  have hfound : world.files.find path = .ok (final, .file mode data) := by rw [FileSystem.find, htarget]
  exact ⟨directory, name, final, mode, data, hnames, hbackupNames, htempNames, hfound, hwritable⟩

end Replacement

end LineComment
