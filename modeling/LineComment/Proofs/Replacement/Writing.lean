import LineComment.Proofs.Replacement.Stages

/-! Writing the temporary file. The bytes written so far are in the file and in the buffer together, in this order,
whatever the sizes of the writes, and they are lost only on a full disk. All the time the old file is kept. -/

namespace LineComment.Replacement.Site

open FileSystem Script

variable {path : Path} {world now : World} {past : List Operation} {site : Site world.files path}
  {total : Option Bytes} {pending : Bytes} {buffer : Buffer}

/-- The old file is kept and the temporary file is there, whatever it holds. -/
def Saving (site : Site world.files path) (past : List Operation) (now : World) : Prop :=
  ∃ mode bytes, site.Kept (some (.file mode bytes)) past now

/-- The temporary file is open, and what it holds and what is held back make up the bytes written so far; these
are no longer known once the disk is full. -/
def Writing (site : Site world.files path) (pending : Bytes) (total : Option Bytes) (past : List Operation)
    (now : World) : Prop :=
  ∃ written, site.Kept (some (.file defaultMode written)) past now ∧
    match total with
    | some bytes => now.files.opened = some (.linked site.tempPlace written.length) ∧ written ++ pending = bytes
    | none => now.files.opened = some .full

theorem Writing.saving (h : site.Writing pending total past now) : site.Saving past now := by
  obtain ⟨written, hkept, _⟩ := h
  exact ⟨_, _, hkept⟩

/-- On a full disk it does not matter what is held back. -/
theorem Writing.of_none (h : site.Writing pending none past now) (other : Bytes) : site.Writing other none past now := h

/-- What is held back can be seen as bytes still to be written. -/
theorem Writing.exists_drained (h : site.Writing pending total past now) :
    ∃ drained, site.Writing [] drained past now ∧ total = drained.map (· ++ pending) := by
  obtain ⟨written, hkept, htotal⟩ := h
  cases total with
  | none => exact ⟨none, ⟨written, hkept, htotal⟩, rfl⟩
  | some bytes => exact ⟨some written, ⟨written, hkept, htotal.1, List.append_nil _⟩, congrArg some htotal.2.symm⟩

/-- Bytes that are held back count as written. -/
theorem Writing.hold (h : site.Writing pending total past now) (data : Bytes) :
    site.Writing (pending ++ data) (total.map (· ++ data)) past now := by
  obtain ⟨written, hkept, htotal⟩ := h
  cases total with
  | none => exact ⟨written, hkept, htotal⟩
  | some bytes =>
      obtain ⟨hopened, rfl⟩ := htotal
      exact ⟨written, hkept, hopened, (List.append_assoc written pending data).symm⟩

/-- How a write ends: the bytes are written, or the disk is full. -/
def Wrote (site : Site world.files path) (pending : Bytes) (total : Option Bytes) (past : List Operation)
    (now : World) :
    Except Fault Unit → Prop
  | .ok () => site.Writing pending total past now
  | .error _ => total = none ∧ site.Writing [] none past now

/-- A write to the open file leaves the file longer by its bytes, unless the disk is full. -/
theorem Writing.append (h : site.Writing [] total past now) (data : Bytes) :
    (call (.append data)).Upholds site.Saving (site.Wrote [] (total.map (· ++ data))) past now := by
  refine ⟨h.saving, ?_⟩
  obtain ⟨written, hkept, htotal⟩ := h
  cases total with
  | some bytes =>
      obtain ⟨hopened, rfl⟩ := htotal
      obtain ⟨later, happend, hshows, hlater⟩ := hkept.shows.append_temp hopened data
      simp only [Operation.run, happend, Operation.onFiles]
      exact ⟨written ++ data, hkept.step rfl hshows, hlater, by simp⟩
  | none =>
      have hfull : now.files.append data = (now.files, if data = [] then .ok () else .error .storageFull) := by
        simp only [FileSystem.append, htotal]
      simp only [Operation.run, hfull, Operation.onFiles]
      have hwriting : site.Writing [] none (past ++ [.append data]) now := ⟨written, hkept.step rfl hkept.shows, htotal⟩
      by_cases hdata : data = []
      · rw [if_pos hdata]
        exact hwriting
      · rw [if_neg hdata]
        exact ⟨rfl, hwriting⟩

theorem Writing.drain (h : site.Writing buffer.pending total past now) :
    buffer.drain.Upholds site.Saving
      (fun past now result => site.Wrote [] total past now result.1 ∧ (result.1 = .ok () → result.2.pending = []))
      past now := by
  obtain ⟨drained, hdrained, rfl⟩ := h.exists_drained
  unfold Buffer.drain
  by_cases hpending : buffer.pending = []
  · rw [if_pos hpending]
    refine ⟨?_, fun _ => hpending⟩
    rw [hpending] at h ⊢
    exact h
  · rw [if_neg hpending, upholds_bind]
    refine (hdrained.append buffer.pending).imp ?_
    intro past now answer hanswer
    cases answer with
    | ok value => exact ⟨hanswer, fun _ => rfl⟩
    | error fault => exact ⟨hanswer, by simp⟩

theorem Writing.take (h : site.Writing buffer.pending total past now) (data : Bytes)
    (hempty : Buffer.capacity ≤ data.length → buffer.pending = []) :
    (buffer.take data).Upholds site.Saving
      (fun past now result => site.Wrote result.2.pending (total.map (· ++ data)) past now result.1) past now := by
  unfold Buffer.take
  by_cases hlarge : Buffer.capacity ≤ data.length
  · rw [if_pos hlarge, upholds_bind]
    rw [hempty hlarge] at h
    refine (h.append data).imp ?_
    intro past now answer hanswer
    cases answer with
    | ok value =>
        show site.Writing buffer.pending _ past now
        rw [hempty hlarge]
        exact hanswer
    | error fault => exact hanswer
  · rw [if_neg hlarge]
    exact h.hold data

/-- Writing over the buffer adds to the bytes written, in whatever pieces they reach the file. -/
theorem Writing.write (h : site.Writing buffer.pending total past now) (data : Bytes) :
    (buffer.write data).Upholds site.Saving
      (fun past now result => site.Wrote result.2.pending (total.map (· ++ data)) past now result.1) past now := by
  unfold Buffer.write
  by_cases hfits : buffer.pending.length + data.length < Buffer.capacity
  · rw [if_pos hfits]
    exact h.hold data
  by_cases hexact : buffer.pending.length + data.length = Buffer.capacity
  · rw [if_neg hfits, if_pos hexact]
    refine h.take data fun hlarge => List.eq_nil_of_length_eq_zero ?_
    omega
  · rw [if_neg hfits, if_neg hexact, upholds_bind]
    refine h.drain.imp ?_
    rintro past now ⟨result, later⟩ ⟨hwrote, hempty⟩
    cases result with
    | ok value =>
        have hpending : later.pending = [] := hempty rfl
        exact Writing.take (by rw [hpending]; exact hwrote) data fun _ => hpending
    | error fault => exact ⟨by rw [hwrote.1]; rfl, hwrote.2⟩

/-- How some commands end after some bytes have been written. All that they write follows these, unless the disk
becomes full; an error is that of a command that gives up, unless the disk is full. -/
def Performed (site : Site world.files path) (total : Option Bytes) (commands : List Command) (past : List Operation)
    (now : World) : Except Error Unit × Buffer → Prop
  | (.ok (), buffer) => ∃ new, Command.outcome commands = .ok new ∧
      site.Writing buffer.pending (if .fillDisk ∈ commands then none else total.map (· ++ new)) past now
  | (.error error, buffer) => ∃ left, site.Writing buffer.pending left past now ∧
      (.fillDisk ∉ commands → total ≠ none → Command.outcome commands = .error error)

theorem Performed.emit {data : Bytes} {rest : List Command} {result : Except Error Unit × Buffer}
    (h : site.Performed (total.map (· ++ data)) rest past now result) :
    site.Performed total (.emit data :: rest) past now result := by
  obtain ⟨result | ⟨⟨⟩⟩, buffer⟩ := result
  · obtain ⟨left, hleft, herror⟩ := h
    refine ⟨left, hleft, fun hroomy htotal => ?_⟩
    have houtcome := herror (fun hmem => hroomy (List.mem_cons_of_mem _ hmem)) (by simpa using htotal)
    rw [Command.outcome, houtcome]
    rfl
  · obtain ⟨new, houtcome, hnew⟩ := h
    refine ⟨data ++ new, by rw [Command.outcome, houtcome]; rfl, ?_⟩
    simpa [Function.comp_def] using hnew

theorem Performed.flush {rest : List Command} {result : Except Error Unit × Buffer}
    (h : site.Performed total rest past now result) : site.Performed total (.flush :: rest) past now result := by
  obtain ⟨result | ⟨⟨⟩⟩, buffer⟩ := result
  · obtain ⟨left, hleft, herror⟩ := h
    exact ⟨left, hleft, fun hroomy => herror fun hmem => hroomy (List.mem_cons_of_mem _ hmem)⟩
  · obtain ⟨new, houtcome, hnew⟩ := h
    exact ⟨new, houtcome, by simpa using hnew⟩

theorem Performed.fillDisk {rest : List Command} {result : Except Error Unit × Buffer}
    (h : site.Performed none rest past now result) : site.Performed total (.fillDisk :: rest) past now result := by
  obtain ⟨result | ⟨⟨⟩⟩, buffer⟩ := result
  · obtain ⟨left, hleft, _⟩ := h
    exact ⟨left, hleft, fun hroomy => absurd List.mem_cons_self hroomy⟩
  · obtain ⟨new, houtcome, hnew⟩ := h
    exact ⟨new, houtcome, by simpa using hnew⟩

theorem Writing.fillDisk (h : site.Writing pending total past now) :
    site.Writing pending none (past ++ [.fillDisk]) { now with files := now.files.fillDisk } := by
  obtain ⟨written, hkept, _⟩ := h
  exact ⟨written, hkept.step rfl (hkept.shows.of_tree rfl rfl), rfl⟩

/-- Carrying out commands writes what they say, in order. -/
theorem Writing.perform {commands : List Command} (h : site.Writing buffer.pending total past now)
    (hown : ∀ change, .interfere change ∉ commands) :
    (perform buffer commands).Upholds site.Saving (site.Performed total commands) past now := by
  -- The buffer and the bytes so far change with every command; what ties them together is `Writing`.
  induction commands generalizing buffer total past now with
  | nil => exact ⟨[], rfl, by simpa using h⟩
  | cons command rest ih =>
      have hrest : ∀ change, .interfere change ∉ rest := fun change hmem => hown change (List.mem_cons_of_mem _ hmem)
      cases command with
      | emit data =>
          rw [Replacement.perform, upholds_bind]
          refine (h.write data).imp ?_
          rintro past now ⟨result, later⟩ hwrote
          cases result with
          | ok value => exact (ih hwrote hrest).imp fun _ _ _ => Performed.emit
          | error fault =>
              obtain ⟨htotal, hfull⟩ := hwrote
              exact ⟨none, hfull.of_none _, fun _ hroom => absurd (Option.map_eq_none_iff.mp htotal) hroom⟩
      | flush =>
          rw [Replacement.perform, upholds_bind]
          refine h.drain.imp ?_
          rintro past now ⟨result, later⟩ ⟨hwrote, hempty⟩
          cases result with
          | ok value =>
              have hlater : site.Writing later.pending total past now := by
                rw [show later.pending = [] from hempty rfl]
                exact hwrote
              exact (ih hlater hrest).imp fun _ _ _ => Performed.flush
          | error fault =>
              obtain ⟨htotal, hfull⟩ := hwrote
              exact ⟨none, hfull.of_none _, fun _ hroom => absurd htotal hroom⟩
      | fail error => exact ⟨total, h, fun _ _ => rfl⟩
      | fillDisk =>
          rw [Replacement.perform, upholds_bind]
          refine ⟨h.saving, ?_⟩
          exact (ih h.fillDisk hrest).imp fun _ _ _ => Performed.fillDisk
      | interfere change => exact absurd List.mem_cons_self (hown change)

/-- The temporary file is closed with these bytes. -/
def Closed (site : Site world.files path) (bytes : Bytes) : List Operation → World → Prop :=
  site.Kept (some (.file defaultMode bytes))

/-- Closing the file shows whether the disk was full. -/
theorem Writing.settle (h : site.Writing [] total past now) :
    (call .settle).Upholds site.Saving (fun past now result => match result with
      | .ok () => ∃ bytes, total = some bytes ∧ site.Closed bytes past now
      | .error _ => total = none ∧ ∃ bytes, site.Closed bytes past now) past now := by
  refine ⟨h.saving, ?_⟩
  obtain ⟨written, hkept, htotal⟩ := h
  have hclosed : site.Closed written (past ++ [.settle]) { now with files := now.files.settle.1 } :=
    hkept.step rfl (hkept.shows.of_tree rfl rfl)
  cases total with
  | none =>
      simp only [Operation.run, settle, htotal, Operation.onFiles]
      exact ⟨trivial, written, hclosed⟩
  | some bytes =>
      obtain ⟨hopened, rfl⟩ := htotal
      simp only [Operation.run, FileSystem.settle, hopened, Operation.onFiles]
      exact ⟨written, by simp, hclosed⟩

theorem Writing.abandon (h : site.Writing buffer.pending total past now) :
    (abandon buffer).Upholds site.Saving (fun past now _ => ∃ bytes, site.Closed bytes past now) past now := by
  rw [Replacement.abandon, upholds_bind, upholds_discard]
  refine h.drain.imp ?_
  rintro past now ⟨result, later⟩ ⟨hwrote, _⟩
  have hwriting : ∃ left, site.Writing [] left past now := by
    cases result with
    | ok value => exact ⟨total, hwrote⟩
    | error fault => exact ⟨none, hwrote.2⟩
  obtain ⟨left, hleft⟩ := hwriting
  rw [upholds_discard]
  refine hleft.settle.imp ?_
  rintro past now (fault | ⟨⟨⟩⟩) hclosed
  · exact hclosed.2
  · obtain ⟨bytes, _, hbytes⟩ := hclosed
    exact ⟨bytes, hbytes⟩

theorem Writing.complete (h : site.Writing buffer.pending total past now) :
    (complete buffer).Upholds site.Saving (fun past now result => match result with
      | .ok () => ∃ bytes, total = some bytes ∧ site.Closed bytes past now
      | .error _ => total = none ∧ ∃ bytes, site.Closed bytes past now) past now := by
  rw [Replacement.complete, upholds_bind]
  refine h.drain.imp ?_
  rintro past now ⟨result, later⟩ ⟨hwrote, hempty⟩
  cases result with
  | ok value => exact Writing.settle hwrote
  | error fault =>
      obtain ⟨htotal, hfull⟩ := hwrote
      refine upholds_bind.mpr ?_
      refine (Writing.abandon (hfull.of_none later.pending)).imp ?_
      intro past now _ hclosed
      exact ⟨htotal, hclosed⟩

/-- Filling the temporary file leaves it closed. It holds what the commands say unless the disk was full, and then
there is an error. -/
theorem Writing.fill {commands : List Command} (h : site.Writing [] (some []) past now)
    (hown : ∀ change, .interfere change ∉ commands) :
    (fill path.temp commands).run.Upholds site.Saving (fun past now result => match result with
      | .ok () => ∃ new, .fillDisk ∉ commands ∧ Command.outcome commands = .ok new ∧ site.Closed new past now
      | .error error => (.fillDisk ∉ commands → Command.outcome commands = .error error) ∧
          ∃ bytes, site.Closed bytes past now) past now := by
  rw [Replacement.fill, Attempt.upholds_lift_bind]
  have hstart : site.Writing ({} : Buffer).pending (some []) past now := h
  refine (hstart.perform hown).imp ?_
  rintro past now ⟨error | ⟨⟨⟩⟩, buffer⟩ hperformed
  · obtain ⟨left, hleft, houtcome⟩ := hperformed
    refine Attempt.upholds_lift_bind.mpr ?_
    refine hleft.abandon.imp ?_
    intro past now _ hclosed
    exact ⟨fun hroomy => houtcome hroomy (by simp), hclosed⟩
  · obtain ⟨new, houtcome, hnew⟩ := hperformed
    refine Attempt.upholds_attempt.mpr ?_
    refine hnew.complete.imp ?_
    rintro past now (fault | ⟨⟨⟩⟩) hcompleted
    · obtain ⟨htotal, hclosed⟩ := hcompleted
      refine ⟨fun hroomy => ?_, hclosed⟩
      simp [hroomy] at htotal
    · obtain ⟨bytes, htotal, hclosed⟩ := hcompleted
      by_cases hfull : Command.fillDisk ∈ commands
      · simp [hfull] at htotal
      · obtain rfl : new = bytes := by simpa [hfull] using htotal
        exact ⟨new, hfull, houtcome, hclosed⟩

end LineComment.Replacement.Site
