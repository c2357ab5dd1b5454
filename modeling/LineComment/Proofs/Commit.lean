import LineComment.Batch
import LineComment.Proofs.Replacement.Run
import LineComment.Proofs.Selection

/-! A run that changes a file. It is the replacement of the file by what the scan of its lines writes, and it fails
after the replacement has begun only where the selection fails on the lines. A path that names a link then names a
file: the backup, which was copied from the file behind the link, is moved over the link itself. -/

namespace LineComment.Job

open FileSystem Replacement

variable {job : Job} {path : Path} {world later : World}

theorem mem_commands {scan : Scan} {command : Command} (h : command ∈ commands scan) :
    (∃ data, command = .emit data) ∨ ∃ error, command = .fail error := by
  rw [commands, List.mem_append, List.mem_map] at h
  rcases h with ⟨visit, _, rfl⟩ | h
  · exact Or.inl ⟨_, rfl⟩
  · cases hresult : scan.result with
    | ok counts => simp [hresult] at h
    | error error => exact Or.inr ⟨error, by simpa [hresult] using h⟩

theorem interfere_notMem_commands (scan : Scan) (change : Change) : .interfere change ∉ commands scan := by
  intro hmem
  simpa using mem_commands hmem

theorem fillDisk_notMem_commands (scan : Scan) : .fillDisk ∉ commands scan := by
  intro hmem
  simpa using mem_commands hmem

theorem outcome_emits (visits : List Visit) (rest : List Command) :
    Command.outcome (visits.map (fun visit => .emit visit.output) ++ rest) =
      (Command.outcome rest).map ((visits.map Visit.output).flatten ++ ·) := by
  induction visits with
  | nil => cases h : Command.outcome rest <;> simp [h, Except.map]
  | cons visit visits ih =>
      rw [List.map_cons, List.cons_append, Command.outcome, ih]
      cases Command.outcome rest <;> simp [Except.map]

/-- The commands of a scan write its output and end as the scan does. -/
theorem outcome_commands (scan : Scan) :
    Command.outcome (commands scan) = scan.result.map fun _ => (scan.visits.map Visit.output).flatten := by
  rw [commands, outcome_emits]
  cases scan.result with
  | ok counts => simp [Command.outcome, Except.map]
  | error error => rfl

/-- On an input without a fault only the selection can make a scan fail. -/
theorem exists_finish_error {input : Bytes} {error : Error} (h : (job.scan ⟨input, none⟩).result = .error error) :
    ∃ phase total, job.selection.finish phase total = .error error := by
  let lines := (Reader.lines ⟨input, none⟩).map Line.ofRaw
  let phase := (job.selection.chooseAll (numbered lines)).2
  have hresult : (job.selection.finish phase lines.length).map (fun _ => count (job.scan ⟨input, none⟩).visits) =
      .error error := h
  refine ⟨phase, lines.length, ?_⟩
  cases hfinish : job.selection.finish phase lines.length with
  | ok value =>
      rw [hfinish] at hresult
      cases hresult
  | error wrong =>
      rw [hfinish] at hresult
      cases hresult
      rfl

theorem run_apply_of_unreadable (hsource : job.source = .file path) {fault : Fault}
    (hread : world.files.read path = .error fault) :
    job.apply.run.run world = (world, .error (.io .opening fault)) := by
  have hopen : (attempt .opening (Script.call (.read path))).run.run world = (world, .error (.io .opening fault)) := by
    rw [Attempt.run_attempt, Script.run_call, Operation.run, hread]
    rfl
  rw [apply, hsource]
  exact Attempt.run_bind_of_error hopen _

theorem run_open_of_read {input : Bytes} {fault : Option Fault} (hread : world.files.read path = .ok (input, fault)) :
    (attempt .opening (Script.call (.read path))).run.run world = (world, .ok ⟨input, fault⟩) := by
  rw [Attempt.run_attempt, Script.run_call, Operation.run, hread]
  rfl

/-- Where the file can be opened, the replacement decides how the run ends. -/
theorem run_apply_of_read (hsource : job.source = .file path) (hwrite : job.dryRun = false) {input : Bytes}
    {fault : Option Fault} (hread : world.files.read path = .ok (input, fault)) :
    job.apply.run.run world =
      match (replaceFile path (commands (job.scan ⟨input, fault⟩))).run.run world with
      | (later, .ok ()) => (later, (job.scan ⟨input, fault⟩).result.map (job.report .commit))
      | (later, .error error) => (later, .error error) := by
  rw [apply, hsource]
  refine (Attempt.run_bind_of_ok (run_open_of_read hread) _).trans ?_
  rw [hwrite, if_neg Bool.false_ne_true, commit, Attempt.run_bind]
  rcases (replaceFile path (commands (job.scan ⟨input, fault⟩))).run.run world with ⟨later, error | ⟨⟨⟩⟩⟩
  · rfl
  · have hresult := Attempt.run_liftExcept (job.scan ⟨input, fault⟩).result later
    cases hscan : (job.scan ⟨input, fault⟩).result with
    | ok counts =>
        rw [hscan] at hresult
        exact Attempt.run_bind_of_ok hresult _
    | error error =>
        rw [hscan] at hresult
        exact Attempt.run_bind_of_error hresult _

/-- What a file that can be opened reads as. -/
theorem read_of_find {fs : FileSystem} {location : Location} {mode : Nat} {old : Bytes}
    (hfind : fs.find path = .ok (location, .file mode old)) :
    fs.read path = .ok (old, none) ∨ ∃ fault, fs.read path = .error fault := by
  by_cases hreadable : (Entry.file mode old).isReadable
  · left
    simp only [FileSystem.read, readable, hfind, if_pos hreadable]
    rfl
  · right
    refine ⟨.permissionDenied, ?_⟩
    simp only [FileSystem.read, readable, hfind, if_neg hreadable]
    rfl

theorem eq_of_read {fs : FileSystem} {location : Location} {mode : Nat} {old bytes : Bytes} {fault : Option Fault}
    (hfind : fs.find path = .ok (location, .file mode old)) (hread : fs.read path = .ok (bytes, fault)) :
    bytes = old ∧ fault = none := by
  rcases read_of_find hfind with hold | ⟨wrong, hwrong⟩
  · exact Prod.mk.inj (Except.ok.inj (hread.symm.trans hold))
  · rw [hread] at hwrong
    cases hwrong

/-- A run on a file with free names beside it fails before anything is changed, or after the old file has been moved
back from its backup, and then the selection is to blame. -/
theorem failed_apply_cases (hsource : job.source = .file path) (hwrite : job.dryRun = false) {location : Location}
    {mode : Nat} {old : Bytes}
    (hfile : world.files.find path = .ok (location, .file mode old))
    (hbackup : world.files.isOccupied path.backup = false) (htemp : world.files.isOccupied path.temp = false)
    {error : Error} (hrun : job.apply.run.run world = (later, .error error)) :
    (later = world ∧ ¬Nonempty (Site world.files path) ∧ ∃ activity fault, error = .io activity fault) ∨
      ∃ site : Site world.files path, site.Shows later.files none none (some (.file (modeAfter mode old) old)) ∧
        (job.scan ⟨old, none⟩).result = .error error := by
  rcases read_of_find hfile with hread | ⟨fault, hread⟩
  swap
  · rw [run_apply_of_unreadable hsource hread] at hrun
    cases hrun
    refine Or.inl ⟨rfl, fun ⟨site⟩ => ?_, _, _, rfl⟩
    rw [FileSystem.read, site.readable_eq] at hread
    cases hread
  rw [run_apply_of_read hsource hwrite hread] at hrun
  obtain ⟨past, hending⟩ := (replaceFile_upholds world path (interfere_notMem_commands _)).goal_run
  rcases hreplace : (replaceFile path (commands (job.scan ⟨old, none⟩))).run.run world with ⟨after, result⟩
  rw [hreplace] at hending hrun
  cases hending with
  | refused hrefusal huntouched hnosite =>
      cases hrun
      refine Or.inl ⟨huntouched.same, hnosite, ?_⟩
      cases hrefusal with
      | backup htaken => simp [hbackup] at htaken
      | temp htaken => simp [htemp] at htaken
      | inspecting fault => exact ⟨_, _, rfl⟩
      | backingUp fault => exact ⟨_, _, rfl⟩
  | restored site hrestored houtcome =>
      cases hrun
      have hscan := houtcome (fillDisk_notMem_commands _)
      rw [outcome_commands] at hscan
      have hcopy : site.copy = some (.file (modeAfter mode old) old) := by
        have hfound := site.found
        rw [hfile] at hfound
        cases hfound
        rfl
      refine Or.inr ⟨site, hcopy ▸ hrestored.shows, ?_⟩
      cases hresult : (job.scan ⟨old, none⟩).result with
      | ok counts => simp [hresult, Except.map] at hscan
      | error wrong => simpa [hresult, Except.map] using hscan
  | finished site new hfinished _ houtcome =>
      rw [outcome_commands] at houtcome
      cases hresult : (job.scan ⟨old, none⟩).result with
      | ok counts => simp [hresult, Except.map] at hrun
      | error wrong => simp [hresult, Except.map] at houtcome

/-- A run on a link that fails leaves everything as it was exactly if the file behind the link could not be replaced
at all, and then the error is that of a file operation. Otherwise the selection has failed, and the link is gone: in
its place stands a copy of the file it led to, with the mode that the writing of the copy has left. -/
theorem failed_apply_of_link (world : World) (job : Job) {path : Path} (hsource : job.source = .file path)
    (hwrite : job.dryRun = false) {place location : Location} {target : Path}
    {mode : Nat} {old : Bytes} (hlink : world.files.place path = .ok ⟨place, some (.link target)⟩)
    (hfile : world.files.find path = .ok (location, .file mode old))
    (hbackup : world.files.isOccupied path.backup = false) (htemp : world.files.isOccupied path.temp = false)
    {later : World} {error : Error} (hrun : job.apply.run.run world = (later, .error error)) :
    ((∀ other, later.files.tree.entry? other = world.files.tree.entry? other) ↔
        ¬Replaceable world.files path) ∧
      (¬Replaceable world.files path → ∃ activity fault, error = .io activity fault) ∧
      (Replaceable world.files path →
        (job.scan ⟨old, none⟩).result = .error error ∧
        (∀ activity fault, error ≠ .io activity fault) ∧
        ∀ other, later.files.tree.entry? other =
          if other = place then some (.file (modeAfter mode old) old)
          else world.files.tree.entry? other) := by
  rw [← nonempty_site_iff]
  rcases failed_apply_cases hsource hwrite hfile hbackup htemp hrun with
    ⟨hsame, hnosite, hio⟩ | ⟨site, hshows, hscan⟩
  · exact ⟨iff_of_true (fun other => by rw [hsame]) hnosite, fun _ => hio, fun hsite => absurd hsite hnosite⟩
  · obtain ⟨phase, total, hfinish⟩ := exists_finish_error hscan
    have hno := job.selection.finish_error_ne_io hfinish
    have hplace : site.place = place ∧ world.files.tree.entry? place = some (.link target) := by
      have hnamed := site.names.place
      rw [hlink, Except.ok.injEq, Spot.mk.injEq] at hnamed
      exact ⟨hnamed.1.symm, hnamed.1 ▸ hnamed.2.symm⟩
    have hentries : ∀ other, later.files.tree.entry? other =
        if other = place then some (.file (modeAfter mode old) old) else world.files.tree.entry? other := by
      intro other
      rw [hshows.entry?_eq, hplace.1]
    refine ⟨iff_of_false (fun hsame => ?_) (not_not.mpr ⟨site⟩), fun hnosite => absurd ⟨site⟩ hnosite,
      fun _ => ⟨hscan, hno, hentries⟩⟩
    have hlost := hsame place
    rw [hentries, if_pos rfl, hplace.2] at hlost
    cases hlost

/-- A range that ends behind the only line of the file to which a link leads. -/
theorem failed_apply_of_link_out_of_range :
    ∃ later, (apply ⟨.file ⟨[0x6c]⟩, .lines ⟨9, 9, by decide, by decide⟩, .simple "//", .comment, false⟩).run.run
        { files := { tree := { entries := [([[0x66]], .file 0o644 [0x61]), ([[0x6c]], .link ⟨[0x66]⟩)] } } } =
          (later, .error (.rangeOutOfBounds 9 1)) ∧
      later.files.tree.entry? [[0x6c]] = some (.file 0o644 [0x61]) := by
  have herror : ((apply ⟨.file ⟨[0x6c]⟩, .lines ⟨9, 9, by decide, by decide⟩, .simple "//", .comment, false⟩).run.run
      { files := { tree := { entries := [([[0x66]], .file 0o644 [0x61]), ([[0x6c]], .link ⟨[0x66]⟩)] } } }).2 =
        .error (.rangeOutOfBounds 9 1) := by rfl
  rcases hrun : (apply ⟨.file ⟨[0x6c]⟩, .lines ⟨9, 9, by decide, by decide⟩, .simple "//", .comment, false⟩).run.run
      { files := { tree := { entries := [([[0x66]], .file 0o644 [0x61]), ([[0x6c]], .link ⟨[0x66]⟩)] } } }
    with ⟨later, result⟩
  rw [hrun] at herror
  obtain rfl : result = .error (.rangeOutOfBounds 9 1) := herror
  have hlink : FileSystem.place { tree := { entries := [
      ([[0x66]], .file 0o644 [0x61]), ([[0x6c]], .link ⟨[0x66]⟩)] } } ⟨[0x6c]⟩ =
        .ok ⟨[[0x6c]], some (.link ⟨[0x66]⟩)⟩ := by rfl
  have hlost := failed_apply_of_link _ _ rfl rfl hlink (by rfl) (by rfl) (by rfl) hrun
  have hreplaceable := Classical.not_not.mp (mt hlost.2.1 (by simp))
  refine ⟨later, rfl, ?_⟩
  rw [(hlost.2.2 hreplaceable).2.2, if_pos rfl]
  rfl

end LineComment.Job
