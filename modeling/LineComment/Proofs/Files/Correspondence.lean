import LineComment.Proofs.Files.Renaming
import LineComment.Proofs.Files.Resemblance

/-! What a path leads to in a file system, and what another path leads to in the same file system under other names.
Where the two lead to the same thing, every question about a file has the same answer, and what can be replaced at the
one can be replaced at the other. -/

namespace LineComment.FileSystem

open FileTree Replacement LineComment.Path

variable {r : Renaming} {fs other later : FileSystem} {path path' : Path} {outer : List Bytes} {name ending : Bytes}
  {aim : Aim}

/-- A file system with the same things under other names, as a process in the same directory sees it. -/
structure Renamed (r : Renaming) (fs other : FileSystem) : Prop where
  directory : other.directory = r.place fs.directory
  tree : fs.tree.Renamed r other.tree

/-- A file system under other names. -/
def renamed (fs : FileSystem) (r : Renaming) : FileSystem :=
  { fs with tree := fs.tree.renamed r, directory := r.place fs.directory }

theorem renamed_renamed (fs : FileSystem) (r : Renaming) : fs.Renamed r (fs.renamed r) :=
  ⟨rfl, fs.tree.renamed_renamed r⟩

/-- A path leads to something in a file system where another path leads to the same in another one. -/
def Meets (r : Renaming) (fs other : FileSystem) (path path' : Path) (aim : Aim) : Prop :=
  other.tree.resolve other.directory path' aim = (fs.tree.resolve fs.directory path aim).map r.spot

/-- A path that can be followed without looking up a name that has become another. -/
def Avoids (fs : FileSystem) (r : Renaming) (path : Path) : Prop :=
  ¬fs.tree.Crosses r (linkStart fs.directory path) path.names

/-- Two paths with the same names before the last one, which cross no renaming and lead to its directory, if anywhere.
The last name of the second path is the other name for that of the first. -/
structure Relabels (r : Renaming) (fs : FileSystem) (outer : List Bytes) (name : Bytes) (path path' : Path) : Prop where
  zero : path'.bytes.contains 0 = path.bytes.contains 0
  length : path'.bytes.length = path.bytes.length
  absolute : path'.isAbsolute = path.isAbsolute
  names : path.names = outer ++ [name]
  names' : path'.names = outer ++ [r.name name]
  ne_nil : name ≠ []
  ne_dot : name ≠ [dot]
  ne_dots : name ≠ [dot, dot]
  clear : ¬fs.tree.Crosses r (linkStart fs.directory path) outer
  leads : ∀ count dest, fs.tree.Leads count (linkStart fs.directory path) outer dest → fs.tree.IsDirectoryAt dest →
    dest = r.directory

theorem Avoids.of_persists (h : fs.Avoids r path) (hdirectory : later.directory = fs.directory)
    (hpersists : fs.tree.Persists later.tree) : later.Avoids r path := by
  intro hcross
  rw [hdirectory] at hcross
  exact h (hpersists.crosses hcross)

theorem Relabels.of_persists (h : Relabels r fs outer name path path') (hdirectory : later.directory = fs.directory)
    (hpersists : fs.tree.Persists later.tree) : Relabels r later outer name path path' := by
  refine ⟨h.zero, h.length, h.absolute, h.names, h.names', h.ne_nil, h.ne_dot, h.ne_dots, fun hcross => ?_,
    fun count dest hleads hdest => ?_⟩
  · rw [hdirectory] at hcross
    exact h.clear (hpersists.crosses hcross)
  · rw [hdirectory] at hleads
    exact h.leads count dest (hpersists.leads hleads hdest) (hpersists.isDirectoryAt hdest)

theorem Relabels.bytes_ne_nil (h : Relabels r fs outer name path path') : path.bytes ≠ [] := by
  intro hnil
  have hnames := h.names
  simp [Path.names, segments, endsInSlash, hnil] at hnames

theorem Relabels.bytes_ne_nil' (h : Relabels r fs outer name path path') : path'.bytes ≠ [] := by
  intro hnil
  have hlength := h.length
  rw [hnil] at hlength
  exact h.bytes_ne_nil (List.length_eq_zero_iff.mp hlength.symm)

/-- Two neighbours correspond if their names do. -/
theorem Relabels.sibling (h : Relabels r fs outer name path path') (hending : PlainEnding ending)
    (hname : r.name (name ++ ending) = r.name name ++ ending) :
    Relabels r fs outer (name ++ ending) (path.sibling ending) (path'.sibling ending) := by
  have hlong (small : Bytes) (hsmall : small.length ≤ 2) : name ++ ending ≠ small := by
    rintro rfl
    have hlength := hending.two_lt
    rw [List.length_append] at hsmall
    omega
  have habsolute (first : Path) (hfirst : first.bytes ≠ []) : (first.sibling ending).isAbsolute = first.isAbsolute := by
    obtain ⟨b, rest, hbytes⟩ := List.exists_cons_of_ne_nil hfirst
    simp [isAbsolute, Path.sibling, hbytes]
  have hstart : linkStart fs.directory (path.sibling ending) = linkStart fs.directory path :=
    linkStart_sibling h.bytes_ne_nil
  refine ⟨?_, ?_, ?_, names_sibling h.names h.ne_nil hending, ?_, hlong _ (by decide), hlong _ (by decide),
    hlong _ (by decide), ?_, ?_⟩
  · have hzero := h.zero
    simp only [Path.sibling, List.contains_eq_mem, List.mem_append] at hzero ⊢
    simp only [Bool.decide_or, hzero]
  · rw [Path.sibling, Path.sibling, List.length_append, List.length_append, h.length]
  · rw [habsolute _ h.bytes_ne_nil, habsolute _ h.bytes_ne_nil', h.absolute]
  · rw [hname]
    exact names_sibling h.names' (Renaming.name_ne_nil h.ne_nil) hending
  · rw [hstart]
    exact h.clear
  · rw [hstart]
    exact h.leads

/-- A path that avoids the renaming leads to the same as before. -/
theorem Renamed.meets (h : fs.Renamed r other) (hpath : fs.Avoids r path) (aim : Aim) :
    Meets r fs other path path aim := by
  rw [Meets, FileTree.resolve, FileTree.resolve, h.directory, ← linkStart, ← linkStart, ← r.place_linkStart]
  exact ite_eq_map rfl (ite_eq_map rfl (ite_eq_map rfl (h.tree.walk aim maxLinks hpath)))

/-- Two paths that correspond lead to the same, if a link under their last names is not followed over one of the names
that have become others. -/
theorem Renamed.meets_of_relabels (h : fs.Renamed r other) (hpath : Relabels r fs outer name path path') (aim : Aim)
    (hlink : aim ≠ .place → fs.Names path r.directory name → ∀ target,
      fs.tree.entry? (r.directory ++ [name]) = some (.link target) →
      ¬fs.tree.Crosses r (linkStart r.directory target) target.names) :
    Meets r fs other path path' aim := by
  rw [Meets, FileTree.resolve, FileTree.resolve, h.directory, hpath.zero, hpath.length, hpath.absolute,
    if_neg hpath.bytes_ne_nil, if_neg hpath.bytes_ne_nil', hpath.names, hpath.names', ← linkStart, ← linkStart,
    ← r.place_linkStart]
  refine ite_eq_map_of (fun _ => rfl) fun hzero => ite_eq_map_of (fun _ => rfl) fun hlength => ?_
  refine h.tree.walk_concat hpath.clear hpath.leads hpath.ne_nil hpath.ne_dot hpath.ne_dots ?_
  intro haim count hcount hleads hsearch hname
  exact hlink haim ⟨Bool.eq_false_iff.mpr hzero, Nat.not_lt.mp hlength, ⟨outer, count, hpath.names, hcount, hleads⟩,
    hsearch, hname⟩

theorem Meets.isOccupied_eq (h : Meets r fs other path path' .place) : other.isOccupied path' = fs.isOccupied path := by
  rw [isOccupied, isOccupied, place, place, h]
  rcases fs.tree.resolve fs.directory path .place with fault | ⟨location, _ | entry⟩ <;> rfl

theorem Meets.find_eq (h : Meets r fs other path path' .target) :
    other.find path' = (fs.find path).map fun found => (r.place found.1, found.2) := by
  rw [find, find, target, target, h]
  rcases fs.tree.resolve fs.directory path .target with fault | ⟨location, _ | entry⟩ <;> rfl

theorem Meets.readable_eq (h : Meets r fs other path path' .target) : other.readable path' = fs.readable path := by
  rw [readable, readable, h.find_eq]
  rcases fs.find path with fault | ⟨location, entry⟩ <;> rfl

theorem Meets.read_eq (h : Meets r fs other path path' .target) : other.read path' = fs.read path := by
  rw [read, read, h.readable_eq]

theorem Meets.writable_eq (h : Meets r fs other path path' .file) (hrenamed : fs.Renamed r other) :
    other.writable path' = (fs.writable path).map r.place := by
  rw [writable, writable, h]
  rcases fs.tree.resolve fs.directory path .file with fault | ⟨location, _ | entry⟩
  · rfl
  · dsimp only [Except.map, Renaming.spot]
    rw [hrenamed.tree.isChangeable]
    split_ifs <;> rfl
  · cases entry with
    | directory mode => rfl
    | file mode data =>
        dsimp only [Except.map, Renaming.spot]
        split_ifs <;> rfl
    | link target =>
        dsimp only [Except.map, Renaming.spot]
        split_ifs <;> rfl

/-- Two paths that lead to the same, and so do their neighbours, as far as a replacement follows them. -/
structure Mirrors (r : Renaming) (fs other : FileSystem) (path path' : Path) : Prop where
  place : Meets r fs other path path' .place
  target : Meets r fs other path path' .target
  backupPlace : Meets r fs other path.backup path'.backup .place
  tempPlace : Meets r fs other path.temp path'.temp .place
  backupFile : fs.isOccupied path.backup = false → Meets r fs other path.backup path'.backup .file

theorem Renamed.mirrors (h : fs.Renamed r other) (hpath : fs.Avoids r path) (hbackup : fs.Avoids r path.backup)
    (htemp : fs.Avoids r path.temp) : Mirrors r fs other path path :=
  ⟨h.meets hpath _, h.meets hpath _, h.meets hbackup _, h.meets htemp _, fun _ => h.meets hbackup _⟩

/-- A link that stands under a last name is not followed over a name that has become another. -/
def LinkClear (r : Renaming) (fs : FileSystem) (name : Bytes) : Prop :=
  ∀ target, fs.tree.entry? (r.directory ++ [name]) = some (.link target) →
    ¬fs.tree.Crosses r (linkStart r.directory target) target.names

theorem LinkClear.of_persists (h : LinkClear r fs name) (hpersists : fs.tree.Persists later.tree) :
    LinkClear r later name := by
  intro target hlink hcross
  have hlasts := hpersists (r.directory ++ [name])
  rw [hlink] at hlasts
  exact h target hlasts.eq_link (hpersists.crosses hcross)

theorem Renamed.mirrors_of_relabels (h : fs.Renamed r other) (hpath : Relabels r fs outer name path path')
    (hlink : LinkClear r fs name) (hbackup : r.name (name ++ backupEnding) = r.name name ++ backupEnding)
    (htemp : r.name (name ++ tempEnding) = r.name name ++ tempEnding) : Mirrors r fs other path path' := by
  have hbackups := hpath.sibling plainEnding_backup hbackup
  have htemps := hpath.sibling plainEnding_temp htemp
  refine ⟨h.meets_of_relabels hpath _ fun hplace => absurd rfl hplace, h.meets_of_relabels hpath _ fun _ _ => hlink,
    h.meets_of_relabels hbackups _ fun hplace => absurd rfl hplace,
    h.meets_of_relabels htemps _ fun hplace => absurd rfl hplace, fun hfree => ?_⟩
  refine h.meets_of_relabels hbackups _ fun _ hnames target htarget => ?_
  rw [free_of_isOccupied hnames hfree] at htarget
  cases htarget

/-- What can be replaced at one path can be replaced at the other. -/
theorem Mirrors.replaceable_iff (h : Mirrors r fs other path path') (hrenamed : fs.Renamed r other) :
    Replaceable other path' ↔ Replaceable fs path := by
  have hwritable (hfree : fs.isOccupied path.backup = false) :
      (∃ location, other.writable path'.backup = .ok location) ↔
        ∃ location, fs.writable path.backup = .ok location := by
    rw [(h.backupFile hfree).writable_eq hrenamed]
    cases fs.writable path.backup <;> simp [Except.map]
  constructor
  · rintro ⟨hread, hcopy, hbackup, htemp⟩
    rw [h.target.readable_eq] at hread
    rw [h.backupPlace.isOccupied_eq] at hbackup
    rw [h.tempPlace.isOccupied_eq] at htemp
    exact ⟨hread, (hwritable hbackup).mp hcopy, hbackup, htemp⟩
  · rintro ⟨hread, hcopy, hbackup, htemp⟩
    refine ⟨?_, (hwritable hbackup).mpr hcopy, ?_, ?_⟩
    · rwa [h.target.readable_eq]
    · rwa [h.backupPlace.isOccupied_eq]
    · rwa [h.tempPlace.isOccupied_eq]

end LineComment.FileSystem
