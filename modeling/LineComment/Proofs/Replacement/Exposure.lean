import LineComment.Proofs.Moments
import LineComment.Proofs.Replacement.Seat

/-! Someone else makes a file under the name of the backup or of the temporary file while a replacement is prepared:
while the names are looked at, while the backup is made, or while it is given up. What becomes of the file hangs on the
steps taken before it was made. -/

namespace LineComment

namespace Replacement

open FileSystem Script

variable {path : Path} {world now changed : World} {past before : List Operation} {foreign : ForeignFile}
  {backup temp : Option Entry}

/-- The steps after which a file that someone else makes is in danger: the name of the backup has been looked at and
found free, so has that of the temporary file, and the backup has neither been removed nor moved. -/
def Endangered (path : Path) (fs : FileSystem) (name : Path) (past : List Operation) : Prop :=
  name = path.backup ∧ fs.isOccupied path.temp = false ∧ .isOccupied path.backup ∈ past ∧
    .unlink path.backup ∉ past ∧ .rename path.backup path ∉ past

/-- A file made after some steps is gone in the end if it was in danger, and otherwise still stands. -/
def Fate (path : Path) (fs : FileSystem) (foreign : ForeignFile) (before : List Operation) (now : World) : Prop :=
  (Endangered path fs foreign.path before → now.files.isOccupied foreign.path = false) ∧
    (¬Endangered path fs foreign.path before → foreign.Stands now)

/-- The same at the end of a run. Until then nobody may have made the file, which can still be done. -/
def Ends (path : Path) (fs : FileSystem) (foreign : ForeignFile) (before : Option (List Operation))
    (past : List Operation) (now : World) : Prop :=
  match before with
  | some before => Fate path fs foreign before now
  | none => ∀ changed, foreign.Made now changed → Fate path fs foreign past changed

theorem fate_of_stands {fs : FileSystem} (hsafe : ¬Endangered path fs foreign.path before) (h : foreign.Stands now) :
    Fate path fs foreign before now :=
  ⟨fun hdanger => absurd hdanger hsafe, fun _ => h⟩

theorem not_endangered_temp {fs : FileSystem} (hname : foreign.path = path.temp) :
    ¬Endangered path fs foreign.path before :=
  fun h => temp_ne_backup path (hname.symm.trans h.1)

/-- A file under the name of the temporary file is never in danger. -/
theorem fate_temp {fs : FileSystem} (hname : foreign.path = path.temp) {location : Location}
    (h : now.files.place path.temp = .ok ⟨location, some foreign.entry⟩) : Fate path fs foreign before now :=
  fate_of_stands (not_endangered_temp hname) ⟨location, by rw [hname, h]⟩

namespace Seat

/-- A moment before the backup has been made. -/
structure At (seat : Seat world.files path) (backup temp : Option Entry) (past : List Operation) (now : World) :
    Prop where
  decided : decisions path past = []
  input : now.input = world.input
  output : now.output = world.output
  shows : seat.Shows now.files backup temp

variable {seat : Seat world.files path}

/-- A step that changes nothing and decides nothing. -/
theorem At.ask (h : seat.At backup temp past now) {operation : Operation} (hstep : isDecisive path operation = false) :
    seat.At backup temp (past ++ [operation]) now :=
  ⟨(decisions_append_of_not hstep).trans h.decided, h.input, h.output, h.shows⟩

/-- The other's file appears under a free name. -/
theorem At.of_made (h : seat.At backup temp past now) (hname : foreign.path = path.backup ∨ foreign.path = path.temp)
    (hmade : foreign.Made now changed) :
    foreign.path = path.backup ∧ backup = none ∧ seat.At (some foreign.entry) temp past changed ∨
      foreign.path = path.temp ∧ temp = none ∧ seat.At backup (some foreign.entry) past changed := by
  have hshows := h.shows.of_made hname hmade
  obtain ⟨files, -, rfl⟩ := hmade
  rcases hshows with ⟨hname, hfree, hshows⟩ | ⟨hname, hfree, hshows⟩
  · exact Or.inl ⟨hname, hfree, h.decided, h.input, h.output, hshows⟩
  · exact Or.inr ⟨hname, hfree, h.decided, h.input, h.output, hshows⟩

theorem At.endangered (h : seat.At backup temp past now) (hname : foreign.path = path.backup)
    (htemp : world.files.isOccupied path.temp = false) (hasked : .isOccupied path.backup ∈ past) :
    Endangered path world.files foreign.path past := by
  have hnone (operation : Operation) (hoperation : isDecisive path operation) : operation ∉ past := by
    rw [← mem_decisions hoperation, h.decided]
    exact List.not_mem_nil
  exact ⟨hname, htemp, hasked, hnone _ isDecisive_discard, hnone _ isDecisive_restore⟩

end Seat

/-- What stands under the two names before the copy, which were both free: nothing, or the other's file. -/
inductive Amid (path : Path) (fs : FileSystem) (foreign : ForeignFile) :
    Option (List Operation) → Option Entry → Option Entry → Prop where
  | nobody : Amid path fs foreign none none none
  | backup {before : List Operation} (danger : Endangered path fs foreign.path before) :
      Amid path fs foreign (some before) (some foreign.entry) none
  | temp {before : List Operation} (name : foreign.path = path.temp) :
      Amid path fs foreign (some before) none (some foreign.entry)

/-- Writes the copy and closes it. -/
def store (data : Bytes) : Script (Except Fault Unit) := do
  match ← call (.append data) with
  | .error fault => return .error fault
  | .ok () => call .settle

theorem copyBackup_eq (path : Path) : copyBackup path = call (.openCopy path path.backup) >>= fun
    | .error fault => return .error fault
    | .ok data => store data := rfl

namespace Site

variable {site : Site world.files path}

/-- The copy is being written, and holds these bytes so far. -/
structure Copying (site : Site world.files path) (bytes : Bytes) (temp : Option Entry) (past : List Operation)
    (now : World) : Prop where
  decided : decisions path past = []
  input : now.input = world.input
  output : now.output = world.output
  shows : site.Shows now.files (some (.file (modeAfter site.mode bytes) bytes)) temp site.original
  opened : now.files.opened = some (.linked site.backupPlace bytes.length)

/-- While the copy is being written the other's file can appear only under the name of the temporary file. -/
theorem Copying.of_made {bytes : Bytes} (h : site.Copying bytes temp past now)
    (hname : foreign.path = path.backup ∨ foreign.path = path.temp) (hmade : foreign.Made now changed) :
    foreign.path = path.temp ∧ temp = none ∧ site.Copying bytes (some foreign.entry) past changed := by
  obtain ⟨hopened, hinput, houtput⟩ := hmade.unchanged
  rcases h.shows.of_made hname hmade with ⟨_, hfree, _⟩ | ⟨hname, hfree, hshows⟩
  · cases hfree
  · exact ⟨hname, hfree, h.decided, hinput.trans h.input, houtput.trans h.output, hshows, hopened.trans h.opened⟩

theorem Copying.append (h : site.Copying [] temp past now) :
    ∃ later, (Operation.append site.data).run now = (later, .ok ()) ∧
      site.Copying site.data temp (past ++ [.append site.data]) later := by
  have hempty : site.Shows now.files (some (.file site.mode [])) temp site.original := h.shows
  obtain ⟨copied, happend, hcopied, hlinked⟩ := hempty.append_backup h.opened site.data
  exact ⟨_, congrArg (Operation.onFiles now) happend, (decisions_append_of_not rfl).trans h.decided, h.input, h.output,
    hcopied, hlinked⟩

theorem Copying.settle (h : site.Copying site.data temp past now) :
    ∃ later, Operation.settle.run now = (later, .ok ()) ∧ site.Kept temp (past ++ [.settle]) later := by
  refine ⟨{ now with files := now.files.settle.1 }, ?_, (decisions_append_of_not rfl).trans h.decided, by simp, h.input,
    h.output, h.shows.of_tree rfl rfl⟩
  simp only [Operation.run, FileSystem.settle, h.opened, Operation.onFiles]
  rfl

theorem Copying.store (h : site.Copying [] temp past now) : (store site.data).Upholds (fun _ _ => True)
    (fun past now result => result = .ok () ∧ site.Kept temp past now) past now := by
  obtain ⟨copied, happend, hcopied⟩ := h.append
  obtain ⟨later, hsettle, hkept⟩ := hcopied.settle
  rw [Replacement.store, upholds_bind]
  exact upholds_call happend trivial (upholds_call hsettle trivial ⟨rfl, hkept⟩)

/-- The backup has been made, whether the other's file has appeared or not. -/
def Stored (site : Site world.files path) (foreign : ForeignFile) (before : Option (List Operation))
    (past : List Operation) (now : World) : Prop :=
  ∃ backup temp, Amid path world.files foreign before backup temp ∧ site.Kept temp past now

theorem Copying.weathers_store (h : site.Copying [] none past now)
    (hname : foreign.path = path.backup ∨ foreign.path = path.temp) :
    (Replacement.store site.data).Weathers foreign.Made
      (fun before past now result => result = .ok () ∧ site.Stored foreign before past now) past now := by
  obtain ⟨copied, happend, hcopied⟩ := h.append
  obtain ⟨later, hsettle, hkept⟩ := hcopied.settle
  rw [Replacement.store]
  refine weathers_call_bind happend (fun changed hmade => ?_) (weathers_call hsettle (fun changed hmade => ?_) ?_)
  · obtain ⟨hname, -, hcopying⟩ := h.of_made hname hmade
    refine hcopying.store.imp ?_
    rintro past now result ⟨hresult, hkept⟩
    exact ⟨hresult, _, _, .temp hname, hkept⟩
  · obtain ⟨hname, -, hcopying⟩ := hcopied.of_made hname hmade
    obtain ⟨last, hclose, hkept⟩ := hcopying.settle
    exact upholds_call hclose trivial ⟨rfl, _, _, .temp hname, hkept⟩
  · exact ⟨rfl, _, _, .nobody, hkept⟩

end Site

namespace Seat

variable {seat : Seat world.files path}

/-- How a copy ends: with the backup, or without having begun. -/
def Copied (seat : Seat world.files path) (foreign : ForeignFile) (before : Option (List Operation))
    (past : List Operation) (now : World) : Except Fault Unit → Prop
  | .ok () => ∃ site : Site world.files path, site.mode = seat.mode ∧ site.Stored foreign before past now
  | .error _ => .isOccupied path.backup ∈ past ∧
      ∃ backup temp, Amid path world.files foreign before backup temp ∧ seat.At backup temp past now

theorem At.amid (h : seat.At none none past now) (hasked : .isOccupied path.backup ∈ past)
    (hname : foreign.path = path.backup ∨ foreign.path = path.temp) (hmade : foreign.Made now changed) :
    ∃ backup temp, Amid path world.files foreign (some past) backup temp ∧ seat.At backup temp past changed := by
  have htemp : world.files.isOccupied path.temp = false := by
    rw [seat.shows_self.isOccupied_temp, h.shows.free h.shows.temp]
    rfl
  rcases h.of_made hname hmade with ⟨hname, -, hchanged⟩ | ⟨hname, -, hchanged⟩
  · exact ⟨_, _, .backup (h.endangered hname htemp hasked), hchanged⟩
  · exact ⟨_, _, .temp hname, hchanged⟩

/-- A copy is made, or is not begun, with the other's file in its place or beside it. -/
theorem At.openCopy_cases {before : Option (List Operation)} (hamid : Amid path world.files foreign before backup temp)
    (h : seat.At backup temp past now) (backupFree : world.files.tree.entry? seat.backupPlace = none)
    (tempFree : world.files.tree.entry? seat.tempPlace = none) :
    (∃ fault, (Operation.openCopy path path.backup).run now = (now, .error fault)) ∨
    ∃ site : Site world.files path, ∃ later, (Operation.openCopy path path.backup).run now = (later, .ok site.data) ∧
      site.mode = seat.mode ∧ site.Copying [] temp (past ++ [.openCopy path path.backup]) later := by
  have hbackup : ∀ entry ∈ backup, ∃ mode data, entry = .file mode data := by
    rintro entry hentry
    cases hamid with
    | nobody => cases hentry
    | backup _ => exact ⟨_, _, (Option.mem_some_iff.mp hentry).symm⟩
    | temp _ => cases hentry
  rcases h.shows.openCopy_cases hbackup backupFree tempFree with
    ⟨fault, hfault⟩ | ⟨readable, later, hcopy, hopened, hlater⟩
  · exact Or.inl ⟨fault, congrArg (Operation.onFiles now) hfault⟩
  · exact Or.inr ⟨seat.site readable backupFree tempFree, _, congrArg (Operation.onFiles now) hcopy, rfl,
      (decisions_append_of_not rfl).trans h.decided, h.input, h.output, hlater, hopened⟩

theorem At.copyBackup {before : Option (List Operation)} (hamid : Amid path world.files foreign before backup temp)
    (h : seat.At backup temp past now) (hasked : .isOccupied path.backup ∈ past)
    (backupFree : world.files.tree.entry? seat.backupPlace = none)
    (tempFree : world.files.tree.entry? seat.tempPlace = none) :
    (copyBackup path).Upholds (fun _ _ => True) (seat.Copied foreign before) past now := by
  rw [copyBackup_eq, upholds_bind]
  rcases h.openCopy_cases hamid backupFree tempFree with ⟨fault, hrun⟩ | ⟨site, later, hrun, hmode, hcopying⟩
  · exact upholds_call hrun trivial ⟨List.mem_append_left _ hasked, _, _, hamid, h.ask rfl⟩
  · refine upholds_call hrun trivial (hcopying.store.imp ?_)
    rintro past now result ⟨rfl, hkept⟩
    exact ⟨site, hmode, _, _, hamid, hkept⟩

theorem At.weathers_copyBackup (h : seat.At none none past now) (hasked : .isOccupied path.backup ∈ past)
    (hname : foreign.path = path.backup ∨ foreign.path = path.temp) :
    (Replacement.copyBackup path).Weathers foreign.Made (seat.Copied foreign) past now := by
  have backupFree := h.shows.free h.shows.backup
  have tempFree := h.shows.free h.shows.temp
  have hother (changed : World) (hmade : foreign.Made now changed) :
      (Replacement.copyBackup path).Upholds (fun _ _ => True) (seat.Copied foreign (some past)) past changed := by
    obtain ⟨backup, temp, hamid, hchanged⟩ := h.amid hasked hname hmade
    exact hchanged.copyBackup hamid hasked backupFree tempFree
  rw [copyBackup_eq] at hother ⊢
  have hamid : Amid path world.files foreign none none none := .nobody
  rcases h.openCopy_cases hamid backupFree tempFree with ⟨fault, hrun⟩ | ⟨site, later, hrun, hmode, hcopying⟩
  · exact weathers_call_bind hrun hother ⟨List.mem_append_left _ hasked, _, _, .nobody, h.ask rfl⟩
  · refine weathers_call_bind hrun hother ((hcopying.weathers_store hname).imp ?_)
    rintro before past now result ⟨rfl, hstored⟩
    exact ⟨site, hmode, hstored⟩

end Seat

/-- Makes the backup, or removes what there is of it. -/
def backUp (path : Path) (mode : Nat) : Script (Except Error Nat) := do
  match ← copyBackup path with
  | .ok () => return .ok mode
  | .error fault =>
    discard (call (.unlink path.backup))
    return .error (.io (.backingUp path.backup) fault)

/-- Asks for the mode of the file and makes the backup. -/
def inspect (path : Path) : Script (Except Error Nat) := do
  match ← call (.mode path) with
  | .ok mode => backUp path mode
  | .error fault => return .error (.io .inspecting fault)

/-- Goes on only if the name of the temporary file is free. -/
def refuse (path : Path) : Script (Except Error Nat) := do
  if ← call (.isOccupied path.temp) then return .error (.artifactExists path.temp) else inspect path

theorem run_prepare (path : Path) : (prepare path).run =
    (do if ← call (.isOccupied path.backup) then return .error (.artifactExists path.backup) else refuse path) := by
  rw [prepare, Attempt.run_lift_bind]
  refine congrArg (call (.isOccupied path.backup) >>= ·) (funext fun backup => ?_)
  cases backup with
  | true => rfl
  | false =>
      change ExceptT.run (_ >>= _) = refuse path
      rw [Attempt.run_lift_bind]
      refine congrArg (call (.isOccupied path.temp) >>= ·) (funext fun temp => ?_)
      cases temp with
      | true => rfl
      | false =>
          change ExceptT.run (_ >>= _) = inspect path
          rw [Attempt.run_attempt_bind]
          refine congrArg (call (.mode path) >>= ·) (funext fun mode => ?_)
          cases mode with
          | error fault => rfl
          | ok mode =>
              change ExceptT.run (_ >>= _) = backUp path mode
              rw [Attempt.run_lift_bind]
              refine congrArg (copyBackup path >>= ·) (funext fun copied => ?_)
              cases copied <;> rfl

/-- How preparing ends: with the backup, or with an error. -/
def Prepared (path : Path) (world : World) (foreign : ForeignFile) (before : Option (List Operation))
    (past : List Operation) (now : World) : Except Error Nat → Prop
  | .ok mode => ∃ site : Site world.files path, mode = site.mode ∧ site.Stored foreign before past now
  | .error _ => Ends path world.files foreign before past now

namespace Seat

variable {seat : Seat world.files path}

theorem At.unlink_free (h : seat.At none temp past now) :
    ∃ fault, (Operation.unlink path.backup).run now = (now, .error fault) := by
  obtain ⟨fault, hunlink⟩ := FileSystem.unlink_free h.shows.isOccupied_backup
  exact ⟨fault, congrArg (Operation.onFiles now) hunlink⟩

/-- With no backup made, what stands under its name is removed nevertheless. -/
theorem At.giveUp (hamid : Amid path world.files foreign (some before) backup temp) (h : seat.At backup temp past now)
    (backupFree : world.files.tree.entry? seat.backupPlace = none) :
    (call (.unlink path.backup)).Upholds (fun _ _ => True)
      (fun _ now _ => Fate path world.files foreign before now) past now := by
  cases hamid with
  | backup hdanger =>
      obtain ⟨later, hunlink, hlater⟩ := h.shows.unlink_backup backupFree
      refine upholds_call (congrArg (Operation.onFiles now) hunlink) trivial ⟨fun _ => ?_, absurd hdanger⟩
      rw [hdanger.1]
      exact hlater.isOccupied_backup
  | temp hname =>
      obtain ⟨fault, hunlink⟩ := h.unlink_free
      exact upholds_call hunlink trivial (fate_temp hname h.shows.place_temp)

theorem At.weathers_giveUp (h : seat.At none none past now) (hasked : .isOccupied path.backup ∈ past)
    (hname : foreign.path = path.backup ∨ foreign.path = path.temp) :
    (call (.unlink path.backup)).Weathers foreign.Made
      (fun before past now _ => Ends path world.files foreign before past now) past now := by
  obtain ⟨fault, hunlink⟩ := h.unlink_free
  refine weathers_call hunlink (fun changed hmade => ?_) (fun changed hmade => ?_)
  · obtain ⟨backup, temp, hamid, hchanged⟩ := h.amid hasked hname hmade
    exact hchanged.giveUp hamid (h.shows.free h.shows.backup)
  · refine fate_of_stands (fun hdanger => hdanger.2.2.2.1 (by simp)) ?_
    rcases h.shows.of_made hname hmade with ⟨hname, -, hchanged⟩ | ⟨hname, -, hchanged⟩
    · exact ⟨_, hname ▸ hchanged.place_backup⟩
    · exact ⟨_, hname ▸ hchanged.place_temp⟩

theorem At.backUp (hamid : Amid path world.files foreign (some before) backup temp) (h : seat.At backup temp past now)
    (hasked : .isOccupied path.backup ∈ past) (backupFree : world.files.tree.entry? seat.backupPlace = none)
    (tempFree : world.files.tree.entry? seat.tempPlace = none) :
    (backUp path seat.mode).Upholds (fun _ _ => True) (Prepared path world foreign (some before)) past now := by
  rw [Replacement.backUp, upholds_bind]
  refine (h.copyBackup hamid hasked backupFree tempFree).imp ?_
  rintro past now (fault | ⟨⟨⟩⟩) hcopied
  · obtain ⟨-, backup, temp, hamid, hat⟩ := hcopied
    exact upholds_bind.mpr (upholds_discard.mpr (hat.giveUp hamid backupFree))
  · obtain ⟨site, hmode, hstored⟩ := hcopied
    exact ⟨site, hmode.symm, hstored⟩

theorem At.weathers_backUp (h : seat.At none none past now) (hasked : .isOccupied path.backup ∈ past)
    (hname : foreign.path = path.backup ∨ foreign.path = path.temp) :
    (Replacement.backUp path seat.mode).Weathers foreign.Made (Prepared path world foreign) past now := by
  have backupFree := h.shows.free h.shows.backup
  rw [Replacement.backUp, weathers_bind]
  refine (h.weathers_copyBackup hasked hname).imp ?_
  rintro before past now (fault | ⟨⟨⟩⟩) hcopied
  · obtain ⟨hasked, backup, temp, hamid, hat⟩ := hcopied
    cases before with
    | some before => exact upholds_bind.mpr (upholds_discard.mpr (hat.giveUp hamid backupFree))
    | none =>
        cases hamid
        refine weathers_bind.mpr (weathers_discard.mpr ((hat.weathers_giveUp hasked hname).imp ?_))
        rintro (_ | before) past now _ hends <;> exact hends
  · obtain ⟨site, hmode, hstored⟩ := hcopied
    cases before <;> exact ⟨site, hmode.symm, hstored⟩

/-- The other's file is in nobody's way while the mode of the file is asked for. -/
theorem At.inspect (hamid : Amid path world.files foreign (some before) backup temp) (h : seat.At backup temp past now)
    (hasked : .isOccupied path.backup ∈ past) (backupFree : world.files.tree.entry? seat.backupPlace = none)
    (tempFree : world.files.tree.entry? seat.tempPlace = none) :
    (inspect path).Upholds (fun _ _ => True) (Prepared path world foreign (some before)) past now := by
  have hmode : (Operation.mode path).run now = (now, .ok seat.mode) := congrArg (now, ·) h.shows.mode_eq
  rw [Replacement.inspect, upholds_bind]
  exact upholds_call hmode trivial ((h.ask rfl).backUp hamid (List.mem_append_left _ hasked) backupFree tempFree)

theorem At.weathers_inspect (h : seat.At none none past now) (hasked : .isOccupied path.backup ∈ past)
    (hname : foreign.path = path.backup ∨ foreign.path = path.temp) :
    (Replacement.inspect path).Weathers foreign.Made (Prepared path world foreign) past now := by
  have hmode : (Operation.mode path).run now = (now, .ok seat.mode) := congrArg (now, ·) h.shows.mode_eq
  refine weathers_call_bind hmode (fun changed hmade => ?_)
    ((h.ask rfl).weathers_backUp (List.mem_append_left _ hasked) hname)
  obtain ⟨backup, temp, hamid, hchanged⟩ := h.amid hasked hname hmade
  exact hchanged.inspect hamid hasked (h.shows.free h.shows.backup) (h.shows.free h.shows.temp)

/-- The other's file under the name of the temporary file ends a replacement that has not looked there yet. -/
theorem At.refuse_temp (hname : foreign.path = path.temp) (h : seat.At backup (some foreign.entry) past now) :
    (refuse path).Upholds (fun _ _ => True) (Prepared path world foreign (some before)) past now := by
  have htaken : (Operation.isOccupied path.temp).run now = (now, true) := congrArg (now, ·) h.shows.isOccupied_temp
  rw [refuse, upholds_bind]
  exact upholds_call htaken trivial (fate_temp hname h.shows.place_temp)

/-- Where the name of the temporary file was taken from the start, the other's file is safe. -/
theorem At.fate_taken {old : Entry} (hname : foreign.path = path.backup)
    (h : seat.At (some foreign.entry) (some old) past now)
    (hstart : world.files.tree.entry? seat.tempPlace = some old) : Fate path world.files foreign before now := by
  refine fate_of_stands (fun hdanger => ?_) ⟨_, hname ▸ h.shows.place_backup⟩
  have htaken := seat.shows_self.isOccupied_temp
  rw [hstart, hdanger.2.1] at htaken
  cases htaken

theorem At.refuse_made (h : seat.At none temp past now) (hstart : world.files.tree.entry? seat.tempPlace = temp)
    (hasked : .isOccupied path.backup ∈ past) (hname : foreign.path = path.backup ∨ foreign.path = path.temp)
    (hmade : foreign.Made now changed) :
    (refuse path).Upholds (fun _ _ => True) (Prepared path world foreign (some past)) past changed := by
  rcases h.of_made hname hmade with ⟨hname, -, hchanged⟩ | ⟨hname, -, hchanged⟩
  · have hlook : (Operation.isOccupied path.temp).run changed = (changed, temp.isSome) :=
      congrArg (changed, ·) hchanged.shows.isOccupied_temp
    rw [refuse, upholds_bind]
    cases temp with
    | some old => exact upholds_call hlook trivial (hchanged.fate_taken hname hstart)
    | none =>
        have htemp : world.files.isOccupied path.temp = false := by
          rw [seat.shows_self.isOccupied_temp, hstart]
          rfl
        have hdanger := h.endangered hname htemp hasked
        exact upholds_call hlook trivial ((hchanged.ask rfl).inspect (.backup hdanger) (List.mem_append_left _ hasked)
          (h.shows.free h.shows.backup) hstart)
  · exact hchanged.refuse_temp hname

theorem At.weathers_refuse (h : seat.At none temp past now) (hstart : world.files.tree.entry? seat.tempPlace = temp)
    (hasked : .isOccupied path.backup ∈ past) (hname : foreign.path = path.backup ∨ foreign.path = path.temp) :
    (refuse path).Weathers foreign.Made (Prepared path world foreign) past now := by
  have hlook : (Operation.isOccupied path.temp).run now = (now, temp.isSome) :=
    congrArg (now, ·) h.shows.isOccupied_temp
  refine weathers_call_bind hlook (fun changed hmade => h.refuse_made hstart hasked hname hmade) ?_
  cases temp with
  | none => exact (h.ask rfl).weathers_inspect (List.mem_append_left _ hasked) hname
  | some old =>
      intro changed hmade
      rcases h.of_made hname hmade with ⟨hname, -, hchanged⟩ | ⟨-, hfree, -⟩
      · exact hchanged.fate_taken hname hstart
      · cases hfree

/-- What preparing comes to, whenever the other's file appears. -/
theorem weathers_prepare (seat : Seat world.files path)
    (hname : foreign.path = path.backup ∨ foreign.path = path.temp) :
    (prepare path).run.Weathers foreign.Made (Prepared path world foreign) [] world := by
  obtain ⟨backup, hbackup⟩ : ∃ backup, world.files.tree.entry? seat.backupPlace = backup := ⟨_, rfl⟩
  have hstart : seat.At backup (world.files.tree.entry? seat.tempPlace) [] world :=
    ⟨rfl, rfl, rfl, hbackup ▸ seat.shows_self⟩
  have hlook : (Operation.isOccupied path.backup).run world = (world, backup.isSome) :=
    congrArg (world, ·) hstart.shows.isOccupied_backup
  rw [run_prepare]
  refine weathers_call_bind hlook (fun changed hmade => ?_) ?_
  · rw [upholds_bind]
    rcases hstart.of_made hname hmade with ⟨hname, -, hchanged⟩ | ⟨hname, -, hchanged⟩
    · have htaken : (Operation.isOccupied path.backup).run changed = (changed, true) :=
        congrArg (changed, ·) hchanged.shows.isOccupied_backup
      refine upholds_call htaken trivial (fate_of_stands (fun hdanger => ?_) ⟨_, hname ▸ hchanged.shows.place_backup⟩)
      exact absurd hdanger.2.2.1 List.not_mem_nil
    · have hlater : (Operation.isOccupied path.backup).run changed = (changed, backup.isSome) :=
        congrArg (changed, ·) hchanged.shows.isOccupied_backup
      refine upholds_call hlater trivial ?_
      cases backup with
      | none => exact (hchanged.ask rfl).refuse_temp hname
      | some old => exact fate_temp hname hchanged.shows.place_temp
  · cases backup with
    | none => exact (hstart.ask rfl).weathers_refuse rfl (by simp) hname
    | some old =>
        intro changed hmade
        rcases hstart.of_made hname hmade with ⟨-, hfree, -⟩ | ⟨hname, -, hchanged⟩
        · cases hfree
        · exact fate_temp hname hchanged.shows.place_temp

end Seat

end Replacement

end LineComment
