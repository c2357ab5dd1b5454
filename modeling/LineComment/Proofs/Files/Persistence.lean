import LineComment.Proofs.Files.System

/-! Trees in which everything lasts: every name is still there, a directory is the same directory, a file has what
is left of its mode and perhaps other bytes, and only a link may have given way to a file. A way to a directory in
the later tree was there before, so what a path names afterwards it has named from the start, and edits made one
after the other can be told by the paths as they were at first. -/

namespace LineComment

/-- What stands at a location at first and later. -/
inductive Entry.Persists : Option Entry → Option Entry → Prop where
  | same (entry : Option Entry) : Persists entry entry
  | file {mode kept : Nat} (old new : Bytes) (lasts : FileSystem.ModeLasts mode kept) :
      Persists (some (.file mode old)) (some (.file kept new))
  | replaced (target : Path) (mode : Nat) (data : Bytes) : Persists (some (.link target)) (some (.file mode data))

namespace Entry.Persists

variable {first second third : Option Entry} {mode : Nat} {data : Bytes} {target : Path}

theorem trans (h : Persists first second) (hnext : Persists second third) : Persists first third := by
  cases hnext with
  | same => exact h
  | replaced target mode data =>
      cases h with
      | same => exact .replaced target mode data
  | file old new lasts =>
      cases h with
      | same => exact .file old new lasts
      | file first old lasts' => exact .file first new (lasts'.trans lasts)
      | replaced target mode data => exact .replaced target _ new

theorem isSome_eq (h : Persists first second) : second.isSome = first.isSome := by
  cases h <;> rfl

theorem of_directory (h : Persists (some (.directory mode)) second) : second = some (.directory mode) := by
  cases h with
  | same => rfl

theorem exists_of_file (h : Persists (some (.file mode data)) second) :
    ∃ kept new, FileSystem.ModeLasts mode kept ∧ second = some (.file kept new) := by
  cases h with
  | same => exact ⟨mode, data, .inl rfl, rfl⟩
  | file _ new lasts => exact ⟨_, new, lasts, rfl⟩

theorem eq_directory (h : Persists first (some (.directory mode))) : first = some (.directory mode) := by
  cases h with
  | same => rfl

theorem eq_link (h : Persists first (some (.link target))) : first = some (.link target) := by
  cases h with
  | same => rfl

end Entry.Persists

namespace FileTree

variable {tree later : FileTree} {location dest : Location} {names : List Bytes} {count : Nat}

/-- Everything in a tree lasts to a later one. -/
def Persists (tree later : FileTree) : Prop :=
  ∀ location, Entry.Persists (tree.entry? location) (later.entry? location)

namespace Persists

theorem isDirectoryAt (h : tree.Persists later) (hlocation : later.IsDirectoryAt location) :
    tree.IsDirectoryAt location := by
  obtain ⟨mode, hmode⟩ := hlocation
  have hlasts := h location
  rw [hmode] at hlasts
  exact ⟨mode, hlasts.eq_directory⟩

theorem isSearchableAt (h : tree.Persists later) (hlocation : later.IsSearchableAt location) :
    tree.IsSearchableAt location := by
  obtain ⟨mode, hmode, hbit⟩ := hlocation
  have hlasts := h location
  rw [hmode] at hlasts
  exact ⟨mode, hlasts.eq_directory, hbit⟩

theorem enters {name : Bytes} {next : Location} (h : tree.Persists later) (henter : later.Enters location name next)
    (hnext : later.IsDirectoryAt next) : tree.Enters location name next := by
  cases henter with
  | stay hdirectory => exact .stay (h.isDirectoryAt hdirectory)
  | dot hsearch => exact .dot (h.isSearchableAt hsearch)
  | dots hsearch => exact .dots (h.isSearchableAt hsearch)
  | down hsearch hname _ =>
      refine .down (h.isSearchableAt hsearch) hname fun target hlink => ?_
      obtain ⟨mode, hmode⟩ := h.isDirectoryAt hnext
      cases hlink.symm.trans hmode

/-- A way to a directory goes over directories and links only, and these were there before. -/
theorem leads (h : tree.Persists later) (hleads : later.Leads count location names dest)
    (hdest : later.IsDirectoryAt dest) : tree.Leads count location names dest := by
  induction hleads with
  | arrive location => exact .arrive location
  | enter henter hleads ih =>
      -- A link that gave way to a file could not have been entered: behind it the way goes on, or ends at a directory.
      refine .enter (h.enters henter ?_) (ih hdest)
      rcases hleads.isDirectoryAt_or_eq with hnext | rfl
      · exact hnext
      · exact hdest
  | @follow count location dest name rest target hsearch hname hlink hleads ih =>
      have hlasts := h (location ++ [name])
      rw [hlink] at hlasts
      exact .follow (h.isSearchableAt hsearch) hname hlasts.eq_link (ih hdest)

end Persists

end FileTree

namespace FileSystem

variable {fs middle later : FileSystem} {paths more : List Path} {path : Path} {directory : Location} {name : Bytes}

/-- What a path names in the end it has named from the start. -/
theorem Names.of_persists (h : later.Names path directory name) (hdirectory : later.directory = fs.directory)
    (hpersists : fs.tree.Persists later.tree) : fs.Names path directory name := by
  obtain ⟨outer, count, hnames, hcount, hleads⟩ := h.leads
  rw [hdirectory] at hleads
  exact ⟨h.zero, h.length_le, ⟨outer, count, hnames, hcount, hpersists.leads hleads h.searchable.isDirectoryAt⟩,
    hpersists.isSearchableAt h.searchable, h.proper⟩

/-- A later state of the files in which everything lasts, and nothing is changed but what some paths name. -/
structure Edited (paths : List Path) (fs later : FileSystem) : Prop where
  directory : later.directory = fs.directory
  persists : fs.tree.Persists later.tree
  named : ∀ location, later.tree.entry? location ≠ fs.tree.entry? location →
    ∃ path ∈ paths, ∃ directory name, fs.Names path directory name ∧ location = directory ++ [name]

namespace Edited

theorem refl (fs : FileSystem) : fs.Edited paths fs :=
  ⟨rfl, fun _ => .same _, fun _ hchanged => absurd rfl hchanged⟩

theorem mono (h : fs.Edited paths later) (hmore : paths ⊆ more) : fs.Edited more later := by
  refine ⟨h.directory, h.persists, fun location hchanged => ?_⟩
  obtain ⟨path, hpath, hnamed⟩ := h.named location hchanged
  exact ⟨path, hmore hpath, hnamed⟩

/-- A path of the second edit names the same place before the first. -/
theorem trans (h : fs.Edited paths middle) (hnext : middle.Edited paths later) : fs.Edited paths later := by
  refine ⟨hnext.directory.trans h.directory, fun location => (h.persists location).trans (hnext.persists location),
    fun location hchanged => ?_⟩
  by_cases hfirst : middle.tree.entry? location = fs.tree.entry? location
  · obtain ⟨path, hpath, directory, name, hnames, hlocation⟩ := hnext.named location (hfirst ▸ hchanged)
    exact ⟨path, hpath, directory, name, hnames.of_persists h.directory h.persists, hlocation⟩
  · exact h.named location hfirst

end Edited

end FileSystem

end LineComment
