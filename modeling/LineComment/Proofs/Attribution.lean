import LineComment.Proofs.Batch.Edit
import LineComment.Proofs.Utf8.Reading

/-! Errors that tell by themselves which file they are about, besides the file that they are attributed to. For another
file such an error has other words, unless the two paths look alike to a reader; every other error has the same. -/

namespace LineComment

theorem Utf8.lossy_append_encode {text : List Char} (htext : text ≠ []) (front : Bytes) :
    lossy (front ++ encode text) = lossy front ++ text := by
  have hunits := units_append_encode htext front []
  rw [List.append_nil] at hunits
  rw [lossy, lossy, hunits]
  simp [units, unitsFrom, Function.comp_def]

/-- A text behind a path is shown behind it. -/
theorem Path.display_sibling (path : Path) {text : List Char} (htext : text ≠ []) :
    (path.sibling (Utf8.encode text)).display = path.display ++ String.ofList text := by
  rw [display, display, sibling, Utf8.lossy_append_encode htext, String.ofList_append]

theorem Path.display_backup (path : Path) : path.backup.display = path.display ++ ".bak" :=
  path.display_sibling (by decide)

theorem Path.display_temp (path : Path) : path.temp.display = path.display ++ ".tmp" := path.display_sibling (by decide)

namespace Error

/-- The errors in the work on a file that say its path: that no lines are selected, that the path has no extension, that
one of the names beside it is taken, and that the backup beside it could not be made. -/
inductive Repeats (path : Path) : Error → Prop where
  | missingSelection : Repeats path (.missingSelection path)
  | noExtension (nameless : path.extension?.bind Utf8.decode? = none) :
      Repeats path (.unsupportedExtension (path.display ++ " has no extension"))
  | backupTaken : Repeats path (.artifactExists path.backup)
  | tempTaken : Repeats path (.artifactExists path.temp)
  | backingUp (fault : Fault) : Repeats path (.io (.backingUp path.backup) fault)

/-- An error in the work on one file, and the same error in the work on another. -/
inductive Retold (path path' : Path) : Error → Error → Prop where
  | same {error : Error} (bare : error.IsBare) (silent : ¬error.Repeats path) : Retold path path' error error
  | missingSelection : Retold path path' (.missingSelection path) (.missingSelection path')
  | noExtension (nameless : path.extension?.bind Utf8.decode? = none)
      (nameless' : path'.extension?.bind Utf8.decode? = none) :
      Retold path path' (.unsupportedExtension (path.display ++ " has no extension"))
        (.unsupportedExtension (path'.display ++ " has no extension"))
  | backupTaken : Retold path path' (.artifactExists path.backup) (.artifactExists path'.backup)
  | tempTaken : Retold path path' (.artifactExists path.temp) (.artifactExists path'.temp)
  | backingUp (fault : Fault) :
      Retold path path' (.io (.backingUp path.backup) fault) (.io (.backingUp path'.backup) fault)

variable {path path' : Path} {error error' : Error}

/-- What is shown of the path stands in the words of such an error. -/
theorem Repeats.exists_message (h : error.Repeats path) :
    ∃ front back, error.message = front ++ path.display ++ back := by
  cases h with
  | missingSelection => exact ⟨"no lines selected for ", ": pass a line range or a label pair", rfl⟩
  | noExtension _ => exact ⟨"unsupported file extension: ", " has no extension", String.append_assoc.symm⟩
  | backupTaken =>
      refine ⟨"refusing to overwrite existing file ", ".bak", ?_⟩
      unfold message
      rw [path.display_backup, String.append_assoc]
  | tempTaken =>
      refine ⟨"refusing to overwrite existing file ", ".tmp", ?_⟩
      unfold message
      rw [path.display_temp, String.append_assoc]
  | backingUp fault =>
      refine ⟨"failed to create backup ", ".bak", ?_⟩
      unfold message Activity.message
      dsimp only
      rw [path.display_backup, String.append_assoc]

theorem Retold.isBare (h : Retold path path' error error') : error.IsBare := by
  cases h with
  | same bare _ => exact bare
  | missingSelection | noExtension | backupTaken | tempTaken | backingUp => rintro file inner ⟨⟩

theorem Retold.eq_of_silent (h : Retold path path' error error') (hsilent : ¬error.Repeats path) : error' = error := by
  cases h with
  | same _ _ => rfl
  | missingSelection => exact absurd .missingSelection hsilent
  | noExtension nameless _ => exact absurd (.noExtension nameless) hsilent
  | backupTaken => exact absurd .backupTaken hsilent
  | tempTaken => exact absurd .tempTaken hsilent
  | backingUp fault => exact absurd (.backingUp fault) hsilent

/-- The two errors have the same words exactly if the first does not say the path, or the two paths look alike. -/
theorem Retold.message_eq_iff (h : Retold path path' error error') :
    error'.message = error.message ↔ ¬error.Repeats path ∨ path'.display = path.display := by
  by_cases hrepeats : error.Repeats path
  · rw [or_iff_right (not_not.mpr hrepeats)]
    unfold message
    cases h with
    | same _ hsilent => exact absurd hrepeats hsilent
    | missingSelection | noExtension => simp
    | backupTaken => simp [Path.display_backup]
    | tempTaken => simp [Path.display_temp]
    | backingUp fault =>
        unfold Activity.message
        simp [Path.display_backup]
  · rw [h.eq_of_silent hrepeats]
    exact iff_of_true rfl (Or.inl hrepeats)

end Error

end LineComment
