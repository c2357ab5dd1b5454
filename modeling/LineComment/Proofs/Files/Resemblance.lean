import LineComment.Files.System
import LineComment.Proofs.Files.Walk
import LineComment.Proofs.Replacement.Run

/-! Trees that differ only in the bytes of files. Following a path asks for the kinds of things, their modes and the
targets of links, but never for what is in a file, so every path leads to the same location in both trees, and what can
be done there is the same. -/

namespace LineComment

/-- What stands at a location in one tree and in another, the bytes of files aside. -/
inductive Entry.Alike : Option Entry → Option Entry → Prop where
  | none : Alike none none
  | file (mode : Nat) (data other : Bytes) : Alike (some (.file mode data)) (some (.file mode other))
  | directory (mode : Nat) : Alike (some (.directory mode)) (some (.directory mode))
  | link (target : Path) : Alike (some (.link target)) (some (.link target))

namespace Entry.Alike

variable {first second third : Option Entry}

theorem refl (entry : Option Entry) : Alike entry entry := by
  rcases entry with _ | ⟨mode, data⟩ | ⟨mode⟩ | ⟨target⟩
  · exact .none
  · exact .file mode data data
  · exact .directory mode
  · exact .link target

theorem symm (h : Alike first second) : Alike second first := by
  cases h with
  | none => exact .none
  | file mode data other => exact .file mode other data
  | directory mode => exact .directory mode
  | link target => exact .link target

theorem trans (h : Alike first second) (hnext : Alike second third) : Alike first third := by
  cases h with
  | none => exact hnext
  | directory mode => exact hnext
  | link target => exact hnext
  | file mode data other =>
      cases hnext with
      | file _ _ last => exact .file mode data last

theorem any_isWritable (h : Alike first second) : second.any Entry.isWritable = first.any Entry.isWritable := by
  cases h <;> rfl

end Entry.Alike

namespace FileTree

/-- Two trees that differ in the bytes of files at most. -/
def Resembles (tree other : FileTree) : Prop := ∀ location, Entry.Alike (tree.entry? location) (other.entry? location)

/-- The same place as it is in another tree. -/
def reread (tree : FileTree) (spot : Spot) : Spot := ⟨spot.location, tree.entry? spot.location⟩

/-- Where following names stops in another tree. -/
def rereadHalt (tree : FileTree) : Halt → Halt
  | .arrived spot => .arrived (tree.reread spot)
  | .atLink directory target rest => .atLink directory target rest

theorem ite_eq_map {α β : Type} {f : α → β} {condition : Prop} [Decidable condition] {first second : Except Fault β}
    {yes no : Except Fault α} (hyes : first = yes.map f) (hno : second = no.map f) :
    (if condition then first else second) = (if condition then yes else no).map f := by
  split_ifs
  · exact hyes
  · exact hno

namespace Resembles

variable {tree other third : FileTree}

theorem refl (tree : FileTree) : tree.Resembles tree := fun _ => .refl _

theorem symm (h : tree.Resembles other) : other.Resembles tree := fun location => (h location).symm

theorem trans (h : tree.Resembles other) (hnext : other.Resembles third) : tree.Resembles third := fun location =>
  (h location).trans (hnext location)

theorem isChangeable (h : tree.Resembles other) (location : Location) :
    other.isChangeable location = tree.isChangeable location := (h location.dropLast).any_isWritable

theorem advance (h : tree.Resembles other) (aim : Aim) (location : Location) (names : List Bytes) :
    other.advance aim location names = (tree.advance aim location names).map other.rereadHalt := by
  induction names generalizing location with
  | nil => rfl
  | cons name rest ih =>
      rw [FileTree.advance, FileTree.advance]
      have halike := h location
      generalize hfirst : tree.entry? location = first at halike
      generalize hsecond : other.entry? location = second at halike
      cases halike with
      | none => rfl
      | file mode data changed => rfl
      | link target => rfl
      | directory mode =>
          refine ite_eq_map (ih location) (ite_eq_map rfl (ite_eq_map (ih location) (ite_eq_map (ih location.dropLast)
            (ite_eq_map rfl (ite_eq_map rfl ?_)))))
          have hnext := h (location ++ [name])
          generalize hfirst : tree.entry? (location ++ [name]) = first at hnext
          generalize hsecond : other.entry? (location ++ [name]) = second at hnext
          cases hnext with
          | none => exact ite_eq_map (by rw [Except.map, rereadHalt, reread, hsecond]) rfl
          | link target => exact ite_eq_map (by rw [Except.map, rereadHalt, reread, hsecond]) rfl
          | file mode data changed => exact ih (location ++ [name])
          | directory mode => exact ih (location ++ [name])

theorem walk (h : tree.Resembles other) (aim : Aim) (links : Nat) (location : Location) (names : List Bytes) :
    other.walk aim links location names = (tree.walk aim links location names).map other.reread := by
  induction links generalizing location names with
  | zero =>
      rw [FileTree.walk, FileTree.walk, h.advance]
      rcases tree.advance aim location names with fault | spot | ⟨directory, target, rest⟩ <;> rfl
  | succ links ih =>
      rw [FileTree.walk, FileTree.walk, h.advance]
      rcases tree.advance aim location names with fault | spot | ⟨directory, target, rest⟩
      · rfl
      · rfl
      · exact ih _ _

/-- Every path leads to the same location. -/
theorem resolve (h : tree.Resembles other) (directory : Location) (path : Path) (aim : Aim) :
    other.resolve directory path aim = (tree.resolve directory path aim).map other.reread := by
  rw [FileTree.resolve, FileTree.resolve]
  exact ite_eq_map rfl (ite_eq_map rfl (ite_eq_map rfl (h.walk aim _ _ _)))

end Resembles

end FileTree

namespace FileSystem

variable {fs other third : FileSystem} {path : Path} {location : Location}

/-- Two file systems that differ in the bytes of files at most, for a process in the same directory. -/
structure Resembles (fs other : FileSystem) : Prop where
  directory : other.directory = fs.directory
  tree : fs.tree.Resembles other.tree

/-- Two file systems with the same things at the same locations, for a process in the same directory. -/
structure Same (fs other : FileSystem) : Prop where
  directory : other.directory = fs.directory
  entries : ∀ location, other.tree.entry? location = fs.tree.entry? location

namespace Resembles

theorem refl (fs : FileSystem) : fs.Resembles fs := ⟨rfl, .refl _⟩

theorem symm (h : fs.Resembles other) : other.Resembles fs := ⟨h.directory.symm, h.tree.symm⟩

theorem trans (h : fs.Resembles other) (hnext : other.Resembles third) : fs.Resembles third :=
  ⟨hnext.directory.trans h.directory, h.tree.trans hnext.tree⟩

theorem resolve (h : fs.Resembles other) (path : Path) (aim : FileTree.Aim) :
    other.tree.resolve other.directory path aim = (fs.tree.resolve fs.directory path aim).map other.tree.reread := by
  rw [h.directory]
  exact h.tree.resolve fs.directory path aim

theorem place (h : fs.Resembles other) {entry : Option Entry} (hplace : fs.place path = .ok ⟨location, entry⟩) :
    other.place path = .ok ⟨location, other.tree.entry? location⟩ ∧ Entry.Alike entry (other.tree.entry? location) := by
  refine ⟨(h.resolve path .place).trans (congrArg (Except.map other.tree.reread) hplace), ?_⟩
  rw [← show fs.tree.entry? location = entry from FileSystem.entry_of_resolve hplace]
  exact h.tree location

/-- Paths that name the same place in one of them do so in the other. -/
theorem place_inj (h : fs.Resembles other) {first second : Path} (hplace : other.place first = other.place second) :
    fs.place first = fs.place second := by
  have hback (path : Path) : fs.place path = (other.place path).map fs.tree.reread := h.symm.resolve path .place
  rw [hback, hback, hplace]

/-- A path that names no link names none in the other file system. -/
theorem not_link (h : fs.Resembles other)
    (hplace : ∀ location target, fs.place path ≠ .ok ⟨location, some (.link target)⟩) (location : Location)
    (target : Path) : other.place path ≠ .ok ⟨location, some (.link target)⟩ := by
  intro hlink
  obtain ⟨hback, halike⟩ := h.symm.place hlink
  generalize hentry : fs.tree.entry? location = entry at hback halike
  cases halike with
  | link target => exact hplace location target hback

theorem isOccupied (h : fs.Resembles other) (path : Path) : other.isOccupied path = fs.isOccupied path := by
  rw [FileSystem.isOccupied, FileSystem.isOccupied]
  cases hplace : fs.place path with
  | error fault =>
      have hother : other.place path = .error fault :=
        (h.resolve path .place).trans (congrArg (Except.map other.tree.reread) hplace)
      rw [hother]
  | ok spot =>
      obtain ⟨location, entry⟩ := spot
      obtain ⟨hother, halike⟩ := h.place hplace
      rw [hother]
      generalize other.tree.entry? location = second at halike
      cases halike <;> rfl

theorem readable (h : fs.Resembles other) {mode : Nat} {data : Bytes}
    (hread : fs.readable path = .ok (.file mode data)) :
    ∃ changed, other.readable path = .ok (.file mode changed) := by
  obtain ⟨final, hfind, hbit⟩ := Replacement.find_of_readable hread
  have htarget := target_of_find hfind
  have hother : other.target path = .ok ⟨final, other.tree.entry? final⟩ :=
    (h.resolve path .target).trans (congrArg (Except.map other.tree.reread) htarget)
  have halike := h.tree final
  rw [show fs.tree.entry? final = some (.file mode data) from FileSystem.entry_of_resolve htarget] at halike
  generalize other.tree.entry? final = second at hother halike
  cases halike with
  | file _ _ changed =>
      refine ⟨changed, ?_⟩
      have hfound : other.find path = .ok (final, .file mode changed) := by rw [find, hother]
      rw [FileSystem.readable, hfound]
      exact if_pos hbit

theorem writable (h : fs.Resembles other) (path : Path) : other.writable path = fs.writable path := by
  rw [FileSystem.writable, FileSystem.writable, h.resolve]
  cases hspot : fs.tree.resolve fs.directory path .file with
  | error fault => rfl
  | ok spot =>
      obtain ⟨location, entry⟩ := spot
      have halike := h.tree location
      rw [show fs.tree.entry? location = entry from FileSystem.entry_of_resolve hspot] at halike
      rw [Except.map, FileTree.reread]
      generalize other.tree.entry? location = second at halike
      cases halike with
      | none =>
          dsimp only
          rw [h.tree.isChangeable]
      | file mode data changed => rfl
      | directory mode => rfl
      | link target => rfl

/-- What can be replaced in one of them can be replaced in the other. -/
theorem replaceable (h : fs.Resembles other) (hfile : Replacement.Replaceable fs path) :
    Replacement.Replaceable other path := by
  obtain ⟨⟨mode, data, hread⟩, ⟨location, hwrite⟩, hbackup, htemp⟩ := hfile
  obtain ⟨changed, hother⟩ := h.readable hread
  refine ⟨⟨mode, changed, hother⟩, ⟨location, ?_⟩, ?_, ?_⟩
  · rw [h.writable, hwrite]
  · rw [h.isOccupied, hbackup]
  · rw [h.isOccupied, htemp]

end Resembles

end FileSystem

end LineComment
