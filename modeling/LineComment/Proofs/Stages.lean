import LineComment.Proofs.Script

/-! What holds while a script runs. A stage is a moment between two steps: the steps taken so far and the world
they have led to. `Upholds` says that something is kept at every stage before the end and something
else is reached there; it is proved step by step along the script, with a rule for each way of composing
scripts. -/

namespace LineComment

namespace Script

variable {α β : Type} {safe weaker : List Operation → World → Prop} {past : List Operation} {world : World}

/-- The stages of a script that starts after some steps: before each of its own steps, and at the end. -/
def stages (past : List Operation) (script : Script α) (world : World) : List (List Operation × World) :=
  match script with
  | done _ => [(past, world)]
  | step operation next =>
    let (later, answer) := operation.run world
    (past, world) :: (next answer).stages (past ++ [operation]) later

/-- Every stage before the end is `safe`, and the end is a `goal`. -/
def Upholds (safe : List Operation → World → Prop) (goal : List Operation → World → α → Prop)
    (script : Script α) (past : List Operation) (world : World) : Prop :=
  match script with
  | done value => goal past world value
  | step operation next =>
    safe past world ∧
      (next (operation.run world).2).Upholds safe goal (past ++ [operation]) (operation.run world).1

variable {goal : List Operation → World → α → Prop}

theorem Upholds.safe_of_mem_stages {script : Script α} (h : script.Upholds safe goal past world)
    (hgoal : ∀ past world value, goal past world value → safe past world) {stage : List Operation × World}
    (hstage : stage ∈ script.stages past world) : safe stage.1 stage.2 := by
  induction script generalizing past world with
  | done value =>
      cases List.mem_singleton.mp hstage
      exact hgoal _ _ _ h
  | step operation next ih =>
      rcases List.mem_cons.mp hstage with rfl | hlater
      · exact h.1
      · exact ih _ h.2 hlater

theorem Upholds.goal_run {script : Script α} (h : script.Upholds safe goal past world) :
    ∃ steps, goal steps (script.run world).1 (script.run world).2 := by
  induction script generalizing past world with
  | done value => exact ⟨past, h⟩
  | step operation next ih => exact ih _ h.2

theorem Upholds.mono {script : Script α} {further : List Operation → World → α → Prop}
    (h : script.Upholds safe goal past world) (hsafe : ∀ past world, safe past world → weaker past world)
    (hgoal : ∀ past world value, goal past world value → further past world value) :
    script.Upholds weaker further past world := by
  induction script generalizing past world with
  | done value => exact hgoal _ _ _ h
  | step operation next ih => exact ⟨hsafe _ _ h.1, ih _ h.2⟩

theorem Upholds.imp {script : Script α} {further : List Operation → World → α → Prop}
    (h : script.Upholds safe goal past world)
    (hgoal : ∀ past world value, goal past world value → further past world value) :
    script.Upholds safe further past world :=
  h.mono (fun _ _ hsafe => hsafe) hgoal

theorem upholds_bind {goal : List Operation → World → β → Prop} {script : Script α} {f : α → Script β} :
    (script >>= f).Upholds safe goal past world ↔
      script.Upholds safe (fun past world value => (f value).Upholds safe goal past world) past world := by
  induction script generalizing past world with
  | done value => exact Iff.rfl
  | step operation next ih => exact and_congr_right fun _ => ih _

theorem upholds_map {goal : List Operation → World → β → Prop} {script : Script α} {f : α → β} :
    (f <$> script).Upholds safe goal past world ↔
      script.Upholds safe (fun past world value => goal past world (f value)) past world := by
  rw [map_eq_pure_bind, upholds_bind]
  rfl

/-- A step that is known to lead to another world with some answer. -/
theorem upholds_call {operation : Operation} {goal : List Operation → World → operation.Answer → Prop}
    {later : World} {answer : operation.Answer} (hrun : operation.run world = (later, answer))
    (hsafe : safe past world) (hgoal : goal (past ++ [operation]) later answer) :
    (call operation).Upholds safe goal past world := by
  refine ⟨hsafe, ?_⟩
  rw [hrun]
  exact hgoal

theorem upholds_discard {goal : List Operation → World → Unit → Prop} {script : Script α} :
    (discard script).Upholds safe goal past world ↔
      script.Upholds safe (fun past world _ => goal past world ()) past world := by
  induction script generalizing past world with
  | done value => exact Iff.rfl
  | step operation next ih => exact and_congr_right fun _ => ih _

end Script

namespace Attempt

variable {α β : Type} {safe : List Operation → World → Prop} {past : List Operation} {world : World}

theorem upholds_bind {goal : List Operation → World → Except Error β → Prop} {first : Attempt α}
    {f : α → Attempt β} :
    (first >>= f).run.Upholds safe goal past world ↔
      first.run.Upholds safe (fun past world result => match result with
        | .ok value => (f value).run.Upholds safe goal past world
        | .error error => goal past world (.error error)) past world := by
  rw [ExceptT.run_bind, Script.upholds_bind]
  refine iff_of_eq (congrArg (first.run.Upholds safe · past world) ?_)
  funext past world result
  cases result <;> rfl

/-- A script among attempts cannot fail. -/
theorem upholds_lift_bind {goal : List Operation → World → Except Error β → Prop} {script : Script α}
    {f : α → Attempt β} :
    ((liftM script : Attempt α) >>= f).run.Upholds safe goal past world ↔
      script.Upholds safe (fun past world value => (f value).run.Upholds safe goal past world) past world := by
  rw [upholds_bind, ExceptT.run_liftM, Script.upholds_map]

/-- A step among attempts, known to lead to another world with some answer. -/
theorem upholds_call_bind {goal : List Operation → World → Except Error β → Prop} {operation : Operation}
    {f : operation.Answer → Attempt β} {later : World} {answer : operation.Answer}
    (hrun : operation.run world = (later, answer)) (hsafe : safe past world)
    (h : (f answer).run.Upholds safe goal (past ++ [operation]) later) :
    ((liftM (Script.call operation) : Attempt operation.Answer) >>= f).run.Upholds safe goal past world :=
  upholds_lift_bind.mpr (Script.upholds_call hrun hsafe h)

theorem upholds_attempt {goal : List Operation → World → Except Error α → Prop} {activity : Activity}
    {script : Script (Except Fault α)} :
    (attempt activity script).run.Upholds safe goal past world ↔
      script.Upholds safe (fun past world result => goal past world (result.mapError (.io activity))) past world := by
  rw [attempt, upholds_lift_bind]
  refine iff_of_eq (congrArg (script.Upholds safe · past world) ?_)
  funext past world result
  cases result <;> rfl

theorem run_discard_lift (script : Script α) :
    (discard (liftM script : Attempt α)).run = (fun _ => .ok ()) <$> script := by
  rw [Functor.discard, map_const, Function.comp, ExceptT.run_map, ExceptT.run_liftM, Functor.map_map]
  rfl

/-- A script among attempts whose value is not asked for. -/
theorem upholds_discard_lift {goal : List Operation → World → Except Error Unit → Prop} {script : Script α} :
    (discard (liftM script : Attempt α)).run.Upholds safe goal past world ↔
      script.Upholds safe (fun past world _ => goal past world (.ok ())) past world := by
  rw [run_discard_lift, Script.upholds_map]

theorem run_tryCatch (first : Attempt α) (handler : Error → Attempt α) :
    (tryCatch first handler : Attempt α).run = first.run >>= fun result => match result with
      | .ok value => pure (.ok value)
      | .error error => (handler error).run := by
  refine congrArg (first.run >>= ·) (funext fun result => ?_)
  cases result <;> rfl

/-- An attempt that fails is followed by the handling of its error. -/
theorem upholds_tryCatch {goal : List Operation → World → Except Error α → Prop} {first : Attempt α}
    {handler : Error → Attempt α} :
    (tryCatch first handler : Attempt α).run.Upholds safe goal past world ↔
      first.run.Upholds safe (fun past world result => match result with
        | .ok value => goal past world (.ok value)
        | .error error => (handler error).run.Upholds safe goal past world) past world := by
  rw [run_tryCatch, Script.upholds_bind]
  refine iff_of_eq (congrArg (first.run.Upholds safe · past world) ?_)
  funext past world result
  cases result <;> rfl

end Attempt

end LineComment
