import LineComment.Proofs.Files.Names

/-! What the operations on a file system do where they cannot fail: each is given by what its paths name. -/

namespace LineComment.FileSystem

variable {fs : FileSystem} {path source dest : Path} {location place : Location} {mode : Nat} {data : Bytes}

/-- Bytes written at the end of a file join it. -/
theorem overwrite_end (old data : Bytes) : overwrite old old.length data = old ++ data := by
  simp [overwrite]

theorem testBit_clearBit (mode bit other : Nat) :
    (clearBit mode bit).testBit other = (mode.testBit other && decide (bit ≠ other)) := by
  rw [clearBit, Nat.testBit_xor, Nat.testBit_and, Nat.one_shiftLeft, Nat.testBit_two_pow]
  by_cases heq : bit = other <;> cases mode.testBit other <;> simp [heq]

/-- A write takes set-user-ID from a file, and set-group-ID if the group may execute it, and no other bit. -/
theorem testBit_writtenMode (mode bit : Nat) :
    (writtenMode mode).testBit bit =
      (mode.testBit bit && decide (bit ≠ 11 ∧ (mode.testBit 3 → bit ≠ 10))) := by
  rw [writtenMode]
  split_ifs with hgroup
  · simp [testBit_clearBit, hgroup, Bool.and_assoc, eq_comm]
  · simp [testBit_clearBit, hgroup, eq_comm]

theorem writtenMode_idem (mode : Nat) : writtenMode (writtenMode mode) = writtenMode mode := by
  refine Nat.eq_of_testBit_eq fun bit => ?_
  simp only [testBit_writtenMode]
  cases mode.testBit bit <;> simp

/-- A file keeps its mode when it is written to exactly if there is nothing to take. -/
theorem writtenMode_eq_self_iff {mode : Nat} :
    writtenMode mode = mode ↔ mode.testBit 11 = false ∧ (mode.testBit 3 → mode.testBit 10 = false) := by
  constructor
  · intro heq
    have huser := testBit_writtenMode mode 11
    have hgroup := testBit_writtenMode mode 10
    rw [heq] at huser hgroup
    exact ⟨by simpa using huser, fun hexecute => by simpa [hexecute] using hgroup⟩
  · rintro ⟨huser, hgroup⟩
    refine Nat.eq_of_testBit_eq fun bit => ?_
    rw [testBit_writtenMode]
    by_cases hbit : mode.testBit bit
    · have hkept : bit ≠ 11 ∧ (mode.testBit 3 → bit ≠ 10) := by
        constructor
        · rintro rfl
          simp [huser] at hbit
        · rintro hexecute rfl
          simp [hgroup hexecute] at hbit
      rw [decide_eq_true hkept, Bool.and_true]
    · simp [hbit]

theorem modeAfter_eq_self_iff :
    modeAfter mode data = mode ↔
      data = [] ∨ mode.testBit 11 = false ∧ (mode.testBit 3 → mode.testBit 10 = false) := by
  rw [modeAfter]
  split_ifs with hdata
  · simp [hdata]
  · rw [writtenMode_eq_self_iff, or_iff_right hdata]

/-- A later mode of a file with a mode at first: the same, or what a write leaves of it. -/
def ModeLasts (first later : Nat) : Prop := later = first ∨ later = writtenMode first

theorem modeLasts_modeAfter (mode : Nat) (data : Bytes) : ModeLasts mode (modeAfter mode data) := by
  rw [modeAfter]
  split_ifs
  · exact .inl rfl
  · exact .inr rfl

theorem ModeLasts.trans {first second third : Nat} (h : ModeLasts first second) (hnext : ModeLasts second third) :
    ModeLasts first third := by
  rcases h with rfl | rfl
  · exact hnext
  · rcases hnext with rfl | rfl
    · exact .inr rfl
    · exact .inr (writtenMode_idem first)

/-- A write does not change who may do what. -/
theorem ModeLasts.isReadable_eq {first later : Nat} (h : ModeLasts first later) (old new : Bytes) :
    (Entry.file later new).isReadable = (Entry.file first old).isReadable := by
  rcases h with rfl | rfl
  · rfl
  · simp [Entry.isReadable, Entry.mode, testBit_writtenMode]

theorem modeAfter_default (data : Bytes) : modeAfter defaultMode data = defaultMode :=
  modeAfter_eq_self_iff.mpr (.inr (by decide))

theorem append_linked {old : Bytes} (hopened : fs.opened = some (.linked location old.length))
    (hentry : fs.tree.entry? location = some (.file mode old)) (data : Bytes) :
    fs.append data = ({ fs with
      tree := fs.tree.put location (.file (modeAfter mode data) (old ++ data))
      opened := some (.linked location (old ++ data).length) }, .ok ()) := by
  simp only [append, hopened, hentry, overwrite_end, List.length_append]

theorem openNew_free (hplace : fs.place path = .ok ⟨location, none⟩) (hchange : fs.tree.isChangeable location) :
    fs.openNew path = ({ fs with
      tree := fs.tree.put location (.file defaultMode [])
      opened := some (.linked location 0) }, .ok ()) := by
  simp only [openNew, hplace, if_pos hchange]

theorem openCopy_file (hread : fs.readable source = .ok (.file mode data)) (hwrite : fs.writable dest = .ok location) :
    fs.openCopy source dest = ({ fs with
      tree := fs.tree.put location (.file mode [])
      opened := some (.linked location 0) }, .ok data) := by
  simp only [openCopy, hread, hwrite]

theorem setMode_file {old : Nat} (hfind : fs.find path = .ok (location, .file old data)) (hlocation : location ≠ []) :
    fs.setMode path mode = (fs.withTree (fs.tree.put location (.file mode data)), .ok ()) := by
  simp only [setMode, hfind, if_neg hlocation, Entry.withMode]

theorem unlink_file (hplace : fs.place path = .ok ⟨location, some (.file mode data)⟩)
    (hchange : fs.tree.isChangeable location) :
    fs.unlink path = ({ fs with
      tree := fs.tree.erase location
      opened := fs.opened.map (OpenFile.detach location) }, .ok ()) := by
  simp [unlink, hplace, hchange, Entry.isDirectory]

/-- A path at which nothing stands cannot be removed. -/
theorem unlink_free (hfree : fs.isOccupied path = false) : ∃ fault, fs.unlink path = (fs, .error fault) := by
  rw [isOccupied] at hfree
  rw [unlink]
  cases hplace : fs.place path with
  | error fault => exact ⟨fault, rfl⟩
  | ok spot =>
      obtain ⟨location, _ | entry⟩ := spot
      · exact ⟨.notFound, rfl⟩
      · simp [hplace] at hfree

theorem rename_file {old : Option Entry} (hsource : fs.place source = .ok ⟨location, some (.file mode data)⟩)
    (hdest : fs.place dest = .ok ⟨place, old⟩) (hne : location ≠ place) (hfrom : fs.tree.isChangeable location)
    (hto : fs.tree.isChangeable place) (hold : old.any Entry.isDirectory = false) :
    fs.rename source dest = ({ fs with
      tree := (fs.tree.put place (.file mode data)).erase location
      opened := fs.opened.map (OpenFile.detach place) }, .ok ()) := by
  simp [rename, hsource, hdest, hne, hfrom, hto, hold]

/-- A directory is moved with all that is below it, to a free place or in place of a directory with nothing in it. -/
theorem rename_directory {old : Option Entry} (hsource : fs.place source = .ok ⟨location, some (.directory mode)⟩)
    (hdest : fs.place dest = .ok ⟨place, old⟩) (hout : ¬location <+: place) (hfrom : fs.tree.isChangeable location)
    (hto : fs.tree.isChangeable place) (hold : ∀ entry ∈ old, entry.isDirectory ∧ fs.tree.isBare place) :
    ∃ later, fs.rename source dest = (later, .ok ()) ∧ later.tree.entries =
      (fs.tree.entries.erase place).map fun item => (Listing.movedTo location place item.1, item.2) := by
  have hne : location ≠ place := fun heq => hout (heq ▸ List.prefix_rfl)
  have hdirectory : fs.tree.IsDirectoryAt location := ⟨mode, entry_of_resolve hsource⟩
  cases old with
  | none =>
      have hfree : fs.tree.entry? place = none := entry_of_resolve hdest
      refine ⟨fs.withTree (fs.tree.moveDirectory location place), ?_, ?_⟩
      · simp [rename, hsource, hdest, hne, hout, hfrom, hto]
      · exact FileTree.entries_moveDirectory hdirectory (isFilePlace_of_place hdest rfl).above
          (FileTree.isBare_of_free hfree) hout
  | some entry =>
      obtain ⟨hkind, hbare⟩ := hold entry rfl
      cases entry with
      | directory other =>
          refine ⟨fs.withTree (fs.tree.moveDirectory location place), ?_, ?_⟩
          · simp [rename, hsource, hdest, hne, hout, hfrom, hto, hbare]
          · exact FileTree.entries_moveDirectory hdirectory
              (FileTree.isDirectoryAt_dropLast (entry_of_resolve hdest)) hbare hout
      | file mode data => cases hkind
      | link target => cases hkind

end LineComment.FileSystem
