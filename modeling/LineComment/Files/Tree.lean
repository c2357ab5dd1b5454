import LineComment.Path

/-! A file tree as a finite map from locations to what stands there. A location is the list of names that lead to it
from the root, which is a directory and is not listed. Locations are exact: no links are followed and no dots are
resolved here. Everything in a tree stands in a directory of it. It belongs to the one who uses the tree, so of the
bits of a mode only the owner's decide what can be done. -/

namespace LineComment

/-- The names that lead to a place from the root. -/
abbrev Location := List Bytes

inductive Entry where
  | file (mode : Nat) (data : Bytes)
  | directory (mode : Nat)
  | link (target : Path)
  deriving DecidableEq, Repr

namespace Entry

/-- The mode bits. Those of a link allow everything. -/
def mode : Entry → Nat
  | file mode _ => mode
  | directory mode => mode
  | link _ => 0o777

/-- The same with other mode bits. A link keeps its own. -/
def withMode (mode : Nat) : Entry → Entry
  | file _ data => file mode data
  | directory _ => directory mode
  | link target => link target

def isDirectory : Entry → Bool
  | directory _ => true
  | _ => false

/-- Whether the bytes of a file, or the names in a directory, can be read. -/
def isReadable (entry : Entry) : Bool := entry.mode.testBit 8

/-- Whether the bytes of a file, or the names in a directory, can be changed. -/
def isWritable (entry : Entry) : Bool := entry.mode.testBit 7

/-- Whether names can be looked up in a directory. -/
def isSearchable (entry : Entry) : Bool := entry.mode.testBit 6

end Entry

/-- The entries below the root, each location once. -/
abbrev Listing := List (Location × Entry)

namespace Listing

def rootMode : Nat := 0o755

def entry? (listing : Listing) (location : Location) : Option Entry :=
  if location = [] then some (.directory rootMode) else listing.lookup location

/-- Puts an entry at a location, in place of the one that is listed there. -/
def put (listing : Listing) (location : Location) (entry : Entry) : Listing :=
  if listing.any (·.1 == location) then
    listing.map fun item => if item.1 = location then (location, entry) else item
  else listing ++ [(location, entry)]

def erase (listing : Listing) (location : Location) : Listing :=
  listing.filter fun item => item.1 ≠ location

/-- The location that `location` gets when `source` is moved to `dest`. -/
def movedTo (source dest location : Location) : Location :=
  match source.isPrefixOf? location with
  | some below => dest ++ below
  | none => location

/-- Everything that is listed stands in a directory. -/
def Stands (listing : Listing) : Prop :=
  ∀ item ∈ listing, (listing.entry? item.1.dropLast).any Entry.isDirectory

instance (listing : Listing) : Decidable listing.Stands :=
  inferInstanceAs (Decidable (∀ item ∈ listing, (listing.entry? item.1.dropLast).any Entry.isDirectory))

end Listing

structure FileTree where
  entries : Listing := []
  stands : entries.Stands := by exact of_decide_eq_true rfl
  deriving DecidableEq, Repr

namespace FileTree

instance : Inhabited FileTree := ⟨{}⟩

def entry? (tree : FileTree) (location : Location) : Option Entry := tree.entries.entry? location

/-- The tree of other entries, if all of them stand in a directory. The changes that are made to the files never ask for
others. -/
def withEntries (tree : FileTree) (entries : Listing) : FileTree :=
  if stands : entries.Stands then ⟨entries, stands⟩ else tree

/-- Puts an entry at a location, in place of what stands there. -/
def put (tree : FileTree) (location : Location) (entry : Entry) : FileTree :=
  tree.withEntries (tree.entries.put location entry)

def erase (tree : FileTree) (location : Location) : FileTree := tree.withEntries (tree.entries.erase location)

/-- Removes what stands at a location and everything below it. -/
def eraseAll (tree : FileTree) (location : Location) : FileTree :=
  tree.withEntries (tree.entries.filter fun item => !location.isPrefixOf item.1)

/-- Moves a directory with everything below it to a location where nothing or an empty directory stands. -/
def moveDirectory (tree : FileTree) (source dest : Location) : FileTree :=
  tree.withEntries ((tree.entries.erase dest).map fun item => (Listing.movedTo source dest item.1, item.2))

/-- Whether nothing stands below a location. -/
def isBare (tree : FileTree) (location : Location) : Bool :=
  tree.entries.all fun item => item.1 = location || !location.isPrefixOf item.1

/-- Whether something can be put at a location or taken away from it: the directory in which its last name
stands has to be writable. -/
def isChangeable (tree : FileTree) (location : Location) : Bool :=
  (tree.entry? location.dropLast).any Entry.isWritable

/-- Whether everything below a location can be removed, name by name. -/
def isClearable (tree : FileTree) (location : Location) : Bool :=
  tree.entries.all fun (place, entry) =>
    !location.isPrefixOf place || !entry.isDirectory ||
      entry.isReadable && (tree.isBare place || entry.isWritable && entry.isSearchable)

end FileTree

end LineComment
