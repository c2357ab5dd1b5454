import LineComment.Proofs.Replacement.Exposure

/-! Someone else makes a file under the name of the backup or of the temporary file while a replacement runs. Under the
name of the temporary file it is safe at every moment, since the replacement makes its own file only where nothing
stands and removes only what it has made. Under the name of the backup it is lost when it appears between the look at
that name and the copy. -/

namespace LineComment

namespace Replacement

open FileSystem Script

variable {path : Path} {world now changed : World} {past before : List Operation} {commands : List Command}
  {foreign : ForeignFile} {backup temp entry : Option Entry}

namespace Site

variable {site : Site world.files path} {decided : List Operation}

/-- While there is a backup, the other's file can appear only under the name of the temporary file. -/
theorem At.of_made {old : Entry} (h : site.At decided (some old) temp entry past now)
    (hname : foreign.path = path.backup ∨ foreign.path = path.temp) (hmade : foreign.Made now changed) :
    foreign.path = path.temp ∧ temp = none ∧ site.At decided (some old) (some foreign.entry) entry past changed := by
  obtain ⟨-, hinput, houtput⟩ := hmade.unchanged
  rcases h.shows.of_made hname hmade with ⟨_, hfree, _⟩ | ⟨hname, hfree, hshows⟩
  · cases hfree
  · exact ⟨hname, hfree, h.decided, h.settled, hinput.trans h.input, houtput.trans h.output, hshows⟩

/-- At the end the other's file can appear under either name, and nothing happens to it any more. -/
theorem At.stands_of_made (h : site.At decided backup temp entry past now)
    (hname : foreign.path = path.backup ∨ foreign.path = path.temp) (hmade : foreign.Made now changed) :
    foreign.Stands changed := by
  rcases h.shows.of_made hname hmade with ⟨hname, -, hshows⟩ | ⟨hname, -, hshows⟩
  · exact ⟨_, hname ▸ hshows.place_backup⟩
  · exact ⟨_, hname ▸ hshows.place_temp⟩

theorem Saving.not_made (h : site.Saving past now) (hname : foreign.path = path.backup ∨ foreign.path = path.temp) :
    ¬foreign.Made now changed := by
  obtain ⟨mode, bytes, hkept⟩ := h
  intro hmade
  obtain ⟨-, hfree, -⟩ := At.of_made hkept hname hmade
  cases hfree

/-- The backup is moved back past the other's file. -/
theorem restore_beside (h : site.Kept (some foreign.entry) past now) (hname : foreign.path = path.temp) :
    (call (.rename path.backup path)).Upholds (fun _ _ => True)
      (fun _ now _ => Fate path world.files foreign before now) past now := by
  obtain ⟨moved, hrename, hmoved⟩ := h.shows.restore original_not_directory
  exact upholds_call (congrArg (Operation.onFiles now) hrename) trivial (fate_temp hname hmoved.place_temp)

/-- The other's file is found in the place of the temporary file, and the replacement is given up. -/
theorem swap_beside (h : site.Kept (some foreign.entry) past now) (hname : foreign.path = path.temp) :
    (swap path commands site.mode).run.Upholds (fun _ _ => True)
      (fun _ now _ => Fate path world.files foreign before now) past now := by
  have hopen : now.files.openNew path.temp = (now.files, .error .alreadyExists) := by
    simp only [FileSystem.openNew, h.shows.place_temp]
  have hopen' : (Operation.openNew path.temp).run now = (now, .error .alreadyExists) :=
    congrArg (Operation.onFiles now) hopen
  have hkept : site.Kept (some foreign.entry) (past ++ [.openNew path.temp]) now := h.step rfl h.shows
  refine Attempt.upholds_call_bind hopen' trivial (Attempt.upholds_lift_bind.mpr ?_)
  exact upholds_discard.mpr (restore_beside hkept hname)

/-- With the other's file gone, the replacement goes on as if it had never been there. -/
theorem swap_over (h : site.Kept none past now) (hdanger : Endangered path world.files foreign.path before)
    (hown : ∀ change, .interfere change ∉ commands) :
    (swap path commands site.mode).run.Upholds (fun _ _ => True)
      (fun _ now _ => Fate path world.files foreign before now) past now := by
  refine (swap_upholds h hown).mono (fun _ _ _ => trivial) ?_
  intro past now result hending
  have hfree : now.files.isOccupied path.backup = false := by
    cases hending with
    | refused _ _ hnosite => exact absurd ⟨site⟩ hnosite
    | restored _ hrestored _ => exact hrestored.shows.not_isOccupied.1
    | finished _ _ hfinished _ _ => exact hfinished.shows.not_isOccupied.1
  exact ⟨fun _ => hdanger.1 ▸ hfree, absurd hdanger⟩

theorem weathers_restore {bytes : Bytes} (h : site.Closed bytes past now)
    (hname : foreign.path = path.backup ∨ foreign.path = path.temp) :
    (restore path true).Weathers foreign.Made
      (fun before past now _ => Ends path world.files foreign before past now) past now := by
  obtain ⟨cleaned, hunlink, hkept⟩ := run_unlink_temp h
  obtain ⟨moved, hrename, hrestored⟩ := run_restore hkept
  rw [restore, if_pos rfl, weathers_bind, weathers_discard]
  refine weathers_call hunlink (fun changed hmade => ?_) (weathers_discard.mpr ?_)
  · have hsaving : site.Saving past now := ⟨_, _, h⟩
    exact absurd hmade (hsaving.not_made hname)
  · refine weathers_call hrename (fun changed hmade => ?_) (fun changed hmade => ?_)
    · obtain ⟨hname, -, hbeside⟩ := At.of_made hkept hname hmade
      exact restore_beside hbeside hname
    · exact fate_of_stands (fun hdanger => hdanger.2.2.2.2 (by simp)) (At.stands_of_made hrestored hname hmade)

theorem weathers_discard_backup {new : Bytes} (h : site.Installed new past now)
    (hname : foreign.path = path.backup ∨ foreign.path = path.temp) :
    (call (.unlink path.backup)).Weathers foreign.Made
      (fun before past now _ => Ends path world.files foreign before past now) past now := by
  obtain ⟨later, hunlink, hfinished⟩ := run_discard h
  refine weathers_call hunlink (fun changed hmade => ?_) (fun changed hmade => ?_)
  · obtain ⟨hname, -, hbeside⟩ := At.of_made h hname hmade
    obtain ⟨last, hremove, hlast⟩ := hbeside.shows.unlink_backup
    exact upholds_call (congrArg (Operation.onFiles changed) hremove) trivial (fate_temp hname hlast.place_temp)
  · exact fate_of_stands (fun hdanger => hdanger.2.2.2.1 (by simp)) (At.stands_of_made hfinished hname hmade)

/-- Between the copy and the end only the name of the temporary file is free, and only for a moment before it is
opened: whoever takes it then keeps it. -/
theorem weathers_swap (h : site.Kept none past now) (hname : foreign.path = path.backup ∨ foreign.path = path.temp)
    (hown : ∀ change, .interfere change ∉ commands) :
    (swap path commands site.mode).run.Weathers foreign.Made
      (fun before past now _ => Ends path world.files foreign before past now) past now := by
  obtain ⟨later, hopen, hwriting⟩ := run_openNew h
  refine Attempt.weathers_call_bind hopen (fun changed hmade => ?_) (Attempt.weathers_bind.mpr ?_)
  · obtain ⟨hname, -, hbeside⟩ := At.of_made h hname hmade
    exact swap_beside hbeside hname
  -- While the new file is written both names are taken, so nobody else can act.
  refine Attempt.weathers_tryCatch.mpr ?_
  refine (install_upholds hwriting hown).weathers (fun _ _ hsaving _ => hsaving.not_made hname) ?_
  rintro past now (error | ⟨⟨⟩⟩) hinstalled
  · obtain ⟨-, bytes, hclosed⟩ := hinstalled
    refine Attempt.weathers_lift_bind.mpr (weathers_bind.mpr ((weathers_restore hclosed hname).imp ?_))
    rintro (_ | before) past now _ hends <;> exact hends
  · obtain ⟨new, -, -, hnew⟩ := hinstalled
    exact Attempt.weathers_discard_lift.mpr (weathers_discard_backup hnew hname)

/-- At a site either name is free for someone else to take. -/
theorem exists_made (site : Site world.files path) (hname : foreign.path = path.backup ∨ foreign.path = path.temp) :
    ∃ changed, foreign.Made world changed := by
  obtain ⟨files, hcreate⟩ : ∃ files, world.files.createFile foreign.path foreign.mode foreign.data = .ok files := by
    rcases hname with hname | hname
    · rw [hname]
      exact site.backupNames.exists_createFile site.backupFree (site.shows_self.isChangeable _) _ _
    · rw [hname]
      exact site.tempNames.exists_createFile site.tempFree (site.shows_self.isChangeable _) _ _
  exact ⟨_, files, hcreate, rfl⟩

end Site

theorem replaceFile_weathers (hfile : world.files.isFile path)
    (hname : foreign.path = path.backup ∨ foreign.path = path.temp) (hown : ∀ change, .interfere change ∉ commands) :
    (replaceFile path commands).run.Weathers foreign.Made
      (fun before past now _ => Ends path world.files foreign before past now) [] world := by
  by_cases hcan : ∃ changed, foreign.Made world changed
  · obtain ⟨changed, hmade⟩ := hcan
    obtain ⟨seat⟩ := exists_seat hfile hname hmade
    rw [replaceFile_eq]
    refine Attempt.weathers_bind.mpr ((seat.weathers_prepare hname).imp ?_)
    rintro (_ | before) past now (error | mode) hprepared
    · exact hprepared
    · obtain ⟨site, rfl, backup, temp, hamid, hkept⟩ := hprepared
      cases hamid
      exact Site.weathers_swap hkept hname hown
    · exact hprepared
    · obtain ⟨site, rfl, backup, temp, hamid, hkept⟩ := hprepared
      cases hamid with
      | backup hdanger => exact Site.swap_over hkept hdanger hown
      | temp hname => exact Site.swap_beside hkept hname
  · -- Where nobody can make the file there is no site either, and the replacement is refused with nothing changed.
    have hnobody (past : List Operation) (now : World) (hstage : Stage path commands world past now)
        (changed : World) : ¬foreign.Made now changed := by
      have hnosite (site : Site world.files path) : False := hcan (site.exists_made hname)
      intro hmade
      cases hstage with
      | untouched h => exact hcan ⟨changed, h.same ▸ hmade⟩
      | copying site => exact hnosite site
      | kept site => exact hnosite site
      | installed site => exact hnosite site
      | finished site => exact hnosite site
      | restored site => exact hnosite site
    refine (replaceFile_upholds world path hown).weathers hnobody ?_
    intro past now result hending changed hmade
    exact absurd hmade (hnobody past now hending.stage changed)

/-- Someone else who makes a file under one of the two names, at any moment of a replacement of a file, finds it there
in the end with its bytes, unless it was made under the name of the backup between the look at that name and the copy
with the name of the temporary file free as well. Then nothing stands there in the end. -/
theorem replaceFile_intrusion (world : World) (path : Path) (commands : List Command) (foreign : ForeignFile)
    (hfile : world.files.isFile path)
    (hname : foreign.path = path.backup ∨ foreign.path = path.temp) (hown : ∀ change, .interfere change ∉ commands)
    {moment : Moment (Except Error Unit)} (hmoment : moment ∈ (replaceFile path commands).run.moments [] world)
    {changed : World} (hmade : foreign.Made moment.world changed) :
    (Endangered path world.files foreign.path moment.past →
      (moment.rest.run changed).1.files.isOccupied foreign.path = false) ∧
    (¬Endangered path world.files foreign.path moment.past → foreign.Stands (moment.rest.run changed).1) := by
  have hfate : Fate path world.files foreign moment.past (moment.rest.run changed).1 :=
    (replaceFile_weathers hfile hname hown).run_rest hmoment hmade
  exact hfate

/-- Once both names have been looked at, someone else makes a file under each in turn: the one under the name of the
backup is lost, the one under the name of the temporary file is kept. -/
theorem replaceFile_intrusion_after_looking :
    let path : Path := ⟨[0x66]⟩
    let world : World := { files := { tree := { entries := [([[0x66]], .file 0o644 [0x61])] } } }
    ∃ moment ∈ (replaceFile path [.emit [0x62]]).run.moments [] world,
      (∃ changed, (ForeignFile.mk path.backup 0o644 [0x63]).Made moment.world changed ∧
        (moment.rest.run changed).1.files.isOccupied path.backup = false) ∧
      (∃ changed, (ForeignFile.mk path.temp 0o644 [0x63]).Made moment.world changed ∧
        (ForeignFile.mk path.temp 0o644 [0x63]).Stands (moment.rest.run changed).1) := by
  intro path world
  have hfile : world.files.isFile path := by rfl
  have hmoment : (⟨[.isOccupied path.backup, .isOccupied path.temp], world, _⟩ : Moment (Except Error Unit)) ∈
      (replaceFile path [.emit [0x62]]).run.moments [] world := .tail _ (.tail _ (.head _))
  have hbackup := replaceFile_intrusion world path [.emit [0x62]] ⟨path.backup, 0o644, [0x63]⟩ hfile
    (Or.inl rfl) (by simp) hmoment ⟨_, rfl, rfl⟩
  have htemp := replaceFile_intrusion world path [.emit [0x62]] ⟨path.temp, 0o644, [0x63]⟩ hfile
    (Or.inr rfl) (by simp) hmoment ⟨_, rfl, rfl⟩
  refine ⟨_, hmoment, ⟨_, ⟨_, rfl, rfl⟩, hbackup.1 ⟨rfl, rfl, by simp, by simp, by simp⟩⟩, _, ⟨_, rfl, rfl⟩, htemp.2 ?_⟩
  exact fun hdanger => temp_ne_backup path hdanger.1

end Replacement

end LineComment
