import LineComment.Script
import Mathlib.Control.Lawful

/-! How scripts run. A script that goes on with another one runs the two in order, an attempt goes on only from
a result that is no error, and what is printed to an output with room for everything is all there
afterwards. -/

namespace LineComment

namespace Script

variable {α β γ : Type}

theorem bind_done (script : Script α) : script.bind done = script := by
  induction script with
  | done value => rfl
  | step operation next ih => exact congrArg (step operation) (funext ih)

theorem bind_assoc (script : Script α) (f : α → Script β) (g : β → Script γ) :
    (script.bind f).bind g = script.bind fun value => (f value).bind g := by
  induction script with
  | done value => rfl
  | step operation next ih => exact congrArg (step operation) (funext ih)

instance : LawfulMonad Script :=
  LawfulMonad.mk' Script bind_done (fun _ _ => rfl) bind_assoc

@[simp] theorem run_call (operation : Operation) (world : World) :
    (call operation).run world = operation.run world := rfl

@[simp] theorem run_bind (script : Script α) (f : α → Script β) (world : World) :
    (script >>= f).run world = (f (script.run world).2).run (script.run world).1 := by
  induction script generalizing world with
  | done value => rfl
  | step operation next ih => exact ih _ _

@[simp] theorem run_map (script : Script α) (f : α → β) (world : World) :
    (f <$> script).run world = ((script.run world).1, f (script.run world).2) := by
  rw [map_eq_pure_bind, run_bind]
  rfl

end Script

namespace Attempt

variable {ε α β : Type}

theorem run_bind (first : ExceptT ε Script α) (f : α → ExceptT ε Script β) (world : World) :
    (first >>= f).run.run world =
      match first.run.run world with
      | (later, .ok value) => (f value).run.run later
      | (later, .error error) => (later, .error error) := by
  rw [ExceptT.run_bind, Script.run_bind]
  rcases first.run.run world with ⟨later, error | value⟩ <;> rfl

theorem run_bind_of_ok {first : ExceptT ε Script α} {world later : World} {value : α}
    (h : first.run.run world = (later, .ok value)) (f : α → ExceptT ε Script β) :
    (first >>= f).run.run world = (f value).run.run later := by
  rw [run_bind, h]

theorem run_bind_of_error {first : ExceptT ε Script α} {world later : World} {error : ε}
    (h : first.run.run world = (later, .error error)) (f : α → ExceptT ε Script β) :
    (first >>= f).run.run world = (later, .error error) := by
  rw [run_bind, h]

/-- An attempt that ends without an error has done so in each of its parts. -/
theorem exists_of_run_bind {first : ExceptT ε Script α} {f : α → ExceptT ε Script β} {world later : World} {value : β}
    (h : (first >>= f).run.run world = (later, .ok value)) :
    ∃ middle a, first.run.run world = (middle, .ok a) ∧ (f a).run.run middle = (later, .ok value) := by
  rcases hrun : first.run.run world with ⟨middle, error | a⟩
  · rw [run_bind_of_error hrun] at h
    cases h
  · exact ⟨middle, a, rfl, run_bind_of_ok hrun f ▸ h⟩

/-- A result that is known beforehand takes no step. -/
theorem run_liftExcept (result : Except ε α) (world : World) :
    (liftM result : ExceptT ε Script α).run.run world = (world, result) := rfl

/-- What an error is turned into makes no difference to the steps taken. -/
theorem run_adapt {δ : Type} (first : ExceptT ε Script α) (f : ε → δ) (world : World) :
    (first.adapt f).run.run world = ((first.run.run world).1, (first.run.run world).2.mapError f) :=
  Script.run_map first.run (Except.mapError f) world

theorem run_attempt (activity : Activity) (script : Script (Except Fault α)) (world : World) :
    (attempt activity script).run.run world =
      ((script.run world).1, (script.run world).2.mapError (.io activity)) := by
  rw [attempt, run_bind, ExceptT.run_liftM, Script.run_map]
  cases (script.run world).2 <;> rfl

end Attempt

namespace Sink

/-- The output after it has taken some pieces more. -/
def takeAll (sink : Sink) (pieces : List Bytes) : Sink := { sink with pieces := pieces.reverse ++ sink.pieces }

theorem written_takeAll (sink : Sink) (pieces : List Bytes) :
    (sink.takeAll pieces).written = sink.written ++ pieces.flatten := by
  simp [takeAll, written]

theorem write_of_room {sink : Sink} (hroom : sink.room = none) (data : Bytes) :
    sink.write data = (sink.takeAll [data], .ok ()) := by
  unfold write
  split
  · rfl
  · next room hsome => simp [hroom] at hsome

theorem written_of_write {sink later : Sink} {data : Bytes} (h : sink.write data = (later, .ok ())) :
    later.written = sink.written ++ data := by
  unfold write at h
  split at h
  · cases h
    simp [written]
  · split at h
    · cases h
      simp [written]
    · cases h

end Sink

/-- What was printed without an error is all there, however much room the output had. -/
theorem written_of_printAll {activity : Activity} {pieces : List Bytes} {world later : World}
    (h : (printAll activity pieces).run.run world = (later, .ok ())) :
    later.output.written = world.output.written ++ pieces.flatten := by
  induction pieces generalizing world with
  | nil =>
      cases h
      exact (List.append_nil _).symm
  | cons piece rest ih =>
      obtain ⟨middle, _, hpiece, hrest⟩ := Attempt.exists_of_run_bind h
      rw [Attempt.run_attempt, Script.run_call, Operation.run] at hpiece
      obtain ⟨hmiddle, hwritten⟩ := Prod.mk.inj hpiece
      have hwrite : (world.output.write piece).2 = .ok () := by
        cases hresult : (world.output.write piece).2 with
        | ok value => rfl
        | error fault =>
            rw [hresult] at hwritten
            cases hwritten
      have hpieceWritten := Sink.written_of_write (Prod.ext rfl hwrite : world.output.write piece = (_, .ok ()))
      rw [ih hrest, ← hmiddle, hpieceWritten, List.flatten_cons, List.append_assoc]

/-- An output with room for any number of bytes takes every piece, and no other part of the world is touched. -/
theorem run_printAll (world : World) (hroom : world.output.room = none) (activity : Activity)
    (pieces : List Bytes) :
    (printAll activity pieces).run.run world =
      ({ world with output := world.output.takeAll pieces }, .ok ()) := by
  induction pieces generalizing world with
  | nil => rfl
  | cons piece rest ih =>
      have hpiece : (attempt activity (Script.call (.print piece))).run.run world =
          ({ world with output := world.output.takeAll [piece] }, .ok ()) := by
        rw [Attempt.run_attempt, Script.run_call]
        simp only [Operation.run, Sink.write_of_room hroom]
        rfl
      have hrest := ih { world with output := world.output.takeAll [piece] } hroom
      rw [printAll, Attempt.run_bind_of_ok hpiece, hrest]
      simp [Sink.takeAll]

/-- Flushing an output without a fault changes nothing. -/
theorem run_flushOutput (world : World) (hflush : world.output.flushFault = none) (what : String) :
    (flushOutput what).run.run world = (world, .ok ()) := by
  rw [flushOutput, Attempt.run_attempt, Script.run_call]
  simp only [Operation.run, Sink.flush, hflush]
  rfl

/-- An attempt that ends like this on every output that never fails, and that prints these pieces there and does nothing
else. -/
def Attempt.Prints {α : Type} (first : Attempt α) (world : World) (pieces : List Bytes) (result : Except Error α) :
    Prop :=
  ∀ sink : Sink, sink.room = none → sink.flushFault = none →
    first.run.run { world with output := sink } = ({ world with output := sink.takeAll pieces }, result)

namespace Attempt.Prints

variable {α β : Type} {first : Attempt α} {world : World} {pieces more : List Bytes}

theorem nothing {result : Except Error α} (h : ∀ sink : Sink,
    first.run.run { world with output := sink } = ({ world with output := sink }, result)) :
    first.Prints world [] result := fun sink _ _ => h sink

theorem bind_ok {value : α} {f : α → Attempt β} {result : Except Error β}
    (hfirst : first.Prints world pieces (.ok value))
    (hf : (f value).Prints world more result) : (first >>= f).Prints world (pieces ++ more) result := by
  intro sink hroom hflush
  rw [run_bind_of_ok (hfirst sink hroom hflush), hf (sink.takeAll pieces) hroom hflush]
  simp [Sink.takeAll]

end Attempt.Prints

/-- An attempt that leaves the files as they are in every world, however it ends there. -/
def Attempt.KeepsFiles {α : Type} (first : Attempt α) : Prop :=
  ∀ world : World, (first.run.run world).1.files = world.files

theorem Attempt.KeepsFiles.files_eq {α : Type} {first : Attempt α} (h : first.KeepsFiles) {world later : World}
    {result : Except Error α} (hrun : first.run.run world = (later, result)) : later.files = world.files := by
  have hkept := h world
  rwa [hrun] at hkept

theorem Attempt.KeepsFiles.bind {α β : Type} {first : Attempt α} {f : α → Attempt β} (hfirst : first.KeepsFiles)
    (hf : ∀ value, (f value).KeepsFiles) : (first >>= f).KeepsFiles := by
  intro world
  rcases hrun : first.run.run world with ⟨later, error | value⟩
  · rw [Attempt.run_bind_of_error hrun]
    exact hfirst.files_eq hrun
  · rw [Attempt.run_bind_of_ok hrun]
    exact (hf value later).trans (hfirst.files_eq hrun)

theorem Attempt.KeepsFiles.adapt {α : Type} {first : Attempt α} (hfirst : first.KeepsFiles) (f : Error → Error) :
    Attempt.KeepsFiles (first.adapt f) := by
  intro world
  rw [Attempt.run_adapt]
  exact hfirst world

theorem keepsFiles_attempt {α : Type} {activity : Activity} {script : Script (Except Fault α)}
    (hscript : ∀ world : World, (script.run world).1.files = world.files) : (attempt activity script).KeepsFiles := by
  intro world
  rw [Attempt.run_attempt]
  exact hscript world

theorem keepsFiles_printAll (activity : Activity) (pieces : List Bytes) : (printAll activity pieces).KeepsFiles := by
  induction pieces with
  | nil => exact fun _ => rfl
  | cons piece rest ih => exact (keepsFiles_attempt fun _ => rfl).bind fun _ => ih

theorem keepsFiles_flushOutput (what : String) : (flushOutput what).KeepsFiles := keepsFiles_attempt fun _ => rfl

end LineComment
