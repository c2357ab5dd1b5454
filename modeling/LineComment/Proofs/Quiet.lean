import LineComment.Batch
import LineComment.Proofs.Script

/-! What never looks at the output. A quiet script does the same whatever output it is given and leaves that output
alone; a replacement is quiet, and so is a run that changes a file. -/

namespace LineComment

namespace Script

variable {α β : Type}

/-- A script for which it makes no difference what the output is. -/
def Quiet (script : Script α) : Prop :=
  ∀ (world : World) (sink : Sink), script.run { world with output := sink } =
    ({ (script.run world).1 with output := sink }, (script.run world).2)

/-- Given its own output, a quiet script gives it back. -/
theorem Quiet.output_eq {script : Script α} (h : script.Quiet) (world : World) :
    (script.run world).1.output = world.output :=
  congrArg (fun ended => ended.1.output) (h world world.output)

theorem quiet_pure (value : α) : (pure value : Script α).Quiet := fun _ _ => rfl

theorem Quiet.bind {script : Script α} {f : α → Script β} (hscript : script.Quiet) (hf : ∀ value, (f value).Quiet) :
    (script >>= f).Quiet := by
  intro world sink
  rw [run_bind, run_bind, hscript, hf]

theorem Quiet.discard {script : Script α} (h : script.Quiet) : (discard script).Quiet :=
  h.bind fun _ => quiet_pure ()

end Script

namespace Attempt

variable {α β : Type}

theorem quiet_pure (value : α) : (pure value : Attempt α).run.Quiet := fun _ _ => rfl

theorem quiet_throw (error : Error) : (throw error : Attempt α).run.Quiet := fun _ _ => rfl

theorem quiet_liftExcept (result : Except Error α) : (liftM result : Attempt α).run.Quiet := fun _ _ => rfl

theorem quiet_lift {script : Script α} (h : script.Quiet) : (liftM script : Attempt α).run.Quiet := by
  intro world sink
  rw [ExceptT.run_liftM, Script.run_map, Script.run_map, h]

theorem quiet_bind {first : Attempt α} {f : α → Attempt β} (hfirst : first.run.Quiet)
    (hf : ∀ value, (f value).run.Quiet) : (first >>= f).run.Quiet := by
  rw [ExceptT.run_bind]
  refine hfirst.bind fun result => ?_
  cases result with
  | error error => exact Script.quiet_pure _
  | ok value => exact hf value

theorem quiet_discard {first : Attempt α} (h : first.run.Quiet) : (discard first).run.Quiet :=
  quiet_bind h fun _ => quiet_pure ()

theorem quiet_tryCatch {first : Attempt α} {handler : Error → Attempt α} (hfirst : first.run.Quiet)
    (hhandler : ∀ error, (handler error).run.Quiet) : (tryCatch first handler : Attempt α).run.Quiet := by
  refine hfirst.bind fun result => ?_
  cases result with
  | error error => exact hhandler error
  | ok value => exact Script.quiet_pure _

theorem quiet_attempt {activity : Activity} {script : Script (Except Fault α)} (h : script.Quiet) :
    (attempt activity script).run.Quiet := by
  intro world sink
  rw [run_attempt, run_attempt, h]

end Attempt

namespace Buffer

open Script

theorem quiet_append (data : Bytes) : (call (.append data)).Quiet := fun _ _ => rfl

theorem quiet_drain (buffer : Buffer) : buffer.drain.Quiet := by
  unfold drain
  split
  · exact quiet_pure _
  · refine (quiet_append _).bind fun answer => ?_
    cases answer <;> exact quiet_pure _

theorem quiet_take (buffer : Buffer) (data : Bytes) : (buffer.take data).Quiet := by
  unfold take
  split
  · exact (quiet_append data).bind fun _ => quiet_pure _
  · exact quiet_pure _

theorem quiet_write (buffer : Buffer) (data : Bytes) : (buffer.write data).Quiet := by
  unfold write
  split
  · exact quiet_pure _
  · split
    · exact buffer.quiet_take data
    · refine buffer.quiet_drain.bind ?_
      rintro ⟨fault | ⟨⟨⟩⟩, rest⟩
      · exact quiet_pure _
      · exact rest.quiet_take data

end Buffer

namespace Replacement

open Script

theorem quiet_perform (buffer : Buffer) (commands : List Command) : (perform buffer commands).Quiet := by
  induction commands generalizing buffer with
  | nil => exact quiet_pure _
  | cons command rest ih =>
      cases command with
      | emit data =>
          refine (buffer.quiet_write data).bind ?_
          rintro ⟨fault | ⟨⟨⟩⟩, later⟩
          · exact quiet_pure _
          · exact ih later
      | flush =>
          refine buffer.quiet_drain.bind ?_
          rintro ⟨fault | ⟨⟨⟩⟩, later⟩
          · exact quiet_pure _
          · exact ih later
      | fail error => exact quiet_pure _
      | fillDisk => exact Quiet.bind (fun _ _ => rfl) fun _ => ih buffer
      | interfere change => exact Quiet.bind (fun _ _ => rfl) fun _ => ih buffer

theorem quiet_abandon (buffer : Buffer) : (abandon buffer).Quiet :=
  buffer.quiet_drain.discard.bind fun _ => Quiet.discard fun _ _ => rfl

theorem quiet_complete (buffer : Buffer) : (complete buffer).Quiet := by
  refine buffer.quiet_drain.bind ?_
  rintro ⟨fault | ⟨⟨⟩⟩, later⟩
  · exact (quiet_abandon later).bind fun _ => quiet_pure _
  · exact fun _ _ => rfl

theorem quiet_fill (temp : Path) (commands : List Command) : (fill temp commands).run.Quiet := by
  refine Attempt.quiet_bind (Attempt.quiet_lift (quiet_perform {} commands)) ?_
  rintro ⟨error | ⟨⟨⟩⟩, buffer⟩
  · exact Attempt.quiet_bind (Attempt.quiet_lift (quiet_abandon buffer)) fun _ => Attempt.quiet_throw error
  · exact Attempt.quiet_attempt (quiet_complete buffer)

theorem quiet_install (path : Path) (mode : Nat) (commands : List Command) :
    (install path mode commands).run.Quiet :=
  Attempt.quiet_bind (quiet_fill path.temp commands) fun _ =>
    Attempt.quiet_bind (Attempt.quiet_attempt fun _ _ => rfl) fun _ => Attempt.quiet_attempt fun _ _ => rfl

theorem quiet_copyBackup (path : Path) : (copyBackup path).Quiet := by
  refine Quiet.bind (fun _ _ => rfl) fun opened => ?_
  cases opened with
  | error fault => exact quiet_pure _
  | ok data =>
      refine (Buffer.quiet_append data).bind fun copied => ?_
      cases copied with
      | error fault => exact quiet_pure _
      | ok value => exact fun _ _ => rfl

theorem quiet_restore (path : Path) (madeTemp : Bool) : (restore path madeTemp).Quiet := by
  cases madeTemp with
  | true => exact Quiet.bind (Quiet.discard fun _ _ => rfl) fun _ => Quiet.discard fun _ _ => rfl
  | false => exact Quiet.discard fun _ _ => rfl

theorem quiet_prepare (path : Path) : (prepare path).run.Quiet := by
  refine Attempt.quiet_bind (Attempt.quiet_lift fun _ _ => rfl) fun backup => ?_
  cases backup with
  | true => exact Attempt.quiet_throw _
  | false =>
  refine Attempt.quiet_bind (Attempt.quiet_lift fun _ _ => rfl) fun temp => ?_
  cases temp with
  | true => exact Attempt.quiet_throw _
  | false =>
  refine Attempt.quiet_bind (Attempt.quiet_attempt fun _ _ => rfl) fun mode => ?_
  refine Attempt.quiet_bind (Attempt.quiet_lift (quiet_copyBackup path)) fun copied => ?_
  cases copied with
  | error fault =>
      exact Attempt.quiet_bind (Attempt.quiet_discard (Attempt.quiet_lift fun _ _ => rfl)) fun _ =>
        Attempt.quiet_throw _
  | ok value => exact Attempt.quiet_pure mode

theorem quiet_replaceFile (path : Path) (commands : List Command) : (replaceFile path commands).run.Quiet := by
  refine Attempt.quiet_bind (quiet_prepare path) fun mode => ?_
  refine Attempt.quiet_bind (Attempt.quiet_lift fun _ _ => rfl) fun made => ?_
  cases made with
  | error fault =>
      exact Attempt.quiet_bind (Attempt.quiet_lift (quiet_restore path false)) fun _ => Attempt.quiet_throw _
  | ok value =>
      refine Attempt.quiet_bind (Attempt.quiet_tryCatch (quiet_install path mode commands) fun error => ?_) fun _ => ?_
      · exact Attempt.quiet_bind (Attempt.quiet_lift (quiet_restore path true)) fun _ => Attempt.quiet_throw _
      · exact Attempt.quiet_discard (Attempt.quiet_lift fun _ _ => rfl)

end Replacement

namespace Job

theorem quiet_commit (job : Job) (path : Path) (reader : Reader) : (job.commit path reader).run.Quiet :=
  Attempt.quiet_bind (Replacement.quiet_replaceFile path _) fun _ =>
    Attempt.quiet_bind (Attempt.quiet_liftExcept _) fun _ => Attempt.quiet_pure _

/-- A run that changes a file writes nothing to the output, and what the output takes makes no difference to it. -/
theorem quiet_apply {job : Job} {path : Path} (hsource : job.source = .file path) (hwrite : job.dryRun = false) :
    job.apply.run.Quiet := by
  rw [apply, hsource]
  refine Attempt.quiet_bind (Attempt.quiet_attempt fun _ _ => rfl) fun reader => ?_
  rw [hwrite, if_neg Bool.false_ne_true]
  exact job.quiet_commit path reader

end Job

end LineComment
