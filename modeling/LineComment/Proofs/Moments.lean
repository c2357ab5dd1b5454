import LineComment.Proofs.Stages

/-! What someone else can do to a run. At any one moment another may act on the world, and the run goes on from there
without having noticed. `Weathers` follows a script with both possibilities in mind: either nobody has acted yet, or
somebody has, and then it is known before which step. -/

namespace LineComment

namespace Script

variable {α β : Type}

/-- A moment of a run. -/
structure Moment (α : Type) where
  past : List Operation
  world : World
  rest : Script α

/-- The moments of a script that starts after some steps: one before each of its own steps, and one at the end. -/
def moments (past : List Operation) (script : Script α) (world : World) : List (Moment α) :=
  match script with
  | done value => [⟨past, world, done value⟩]
  | step operation next =>
    ⟨past, world, step operation next⟩ ::
      (next (operation.run world).2).moments (past ++ [operation]) (operation.run world).1

/-- Every end of the script is a `goal`, whether nobody acts, or another acts once before one of the steps. The goal is
told the steps that had been taken when the other acted. -/
def Weathers (other : World → World → Prop) (goal : Option (List Operation) → List Operation → World → α → Prop)
    (script : Script α) (past : List Operation) (world : World) : Prop :=
  match script with
  | done value => goal none past world value
  | step operation next =>
    (∀ changed, other world changed → (step operation next).Upholds (fun _ _ => True) (goal (some past)) past changed) ∧
      (next (operation.run world).2).Weathers other goal (past ++ [operation]) (operation.run world).1

variable {other : World → World → Prop} {safe : List Operation → World → Prop} {past : List Operation} {world : World}
  {goal : Option (List Operation) → List Operation → World → α → Prop}

/-- What a script weathers is so at every moment, the end included. -/
theorem Weathers.run_rest {fate : List Operation → World → Prop} {script : Script α}
    (h : script.Weathers other (fun before past world _ => match before with
      | some before => fate before world
      | none => ∀ changed, other world changed → fate past changed) past world)
    {moment : Moment α} (hmoment : moment ∈ script.moments past world) {changed : World}
    (hother : other moment.world changed) : fate moment.past (moment.rest.run changed).1 := by
  induction script generalizing past world with
  | done value =>
      obtain rfl := List.mem_singleton.mp hmoment
      exact h changed hother
  | step operation next ih =>
      rcases List.mem_cons.mp hmoment with rfl | hlater
      · obtain ⟨_, hfate⟩ := (h.1 changed hother).goal_run
        exact hfate
      · exact ih _ h.2 hlater

theorem Weathers.imp {further : Option (List Operation) → List Operation → World → α → Prop} {script : Script α}
    (h : script.Weathers other goal past world)
    (hgoal : ∀ before past world value, goal before past world value → further before past world value) :
    script.Weathers other further past world := by
  induction script generalizing past world with
  | done value => exact hgoal _ _ _ _ h
  | step operation next ih =>
      exact ⟨fun changed hother => (h.1 changed hother).imp (hgoal _), ih _ h.2⟩

/-- Where another cannot act, only the run itself counts. -/
theorem Upholds.weathers {target : List Operation → World → α → Prop} {script : Script α}
    (h : script.Upholds safe target past world)
    (hsafe : ∀ past world, safe past world → ∀ changed, ¬other world changed)
    (hgoal : ∀ past world value, target past world value → goal none past world value) :
    script.Weathers other goal past world := by
  induction script generalizing past world with
  | done value => exact hgoal _ _ _ h
  | step operation next ih =>
      exact ⟨fun changed hother => absurd hother (hsafe _ _ h.1 changed), ih _ h.2⟩

theorem weathers_bind {goal : Option (List Operation) → List Operation → World → β → Prop} {script : Script α}
    {f : α → Script β} :
    (script >>= f).Weathers other goal past world ↔
      script.Weathers other (fun before past world value => match before with
        | some before => (f value).Upholds (fun _ _ => True) (goal (some before)) past world
        | none => (f value).Weathers other goal past world) past world := by
  induction script generalizing past world with
  | done value => exact Iff.rfl
  | step operation next ih =>
      refine and_congr (forall_congr' fun changed => imp_congr_right fun _ => ?_) (ih _)
      change (step operation next >>= f).Upholds _ _ _ _ ↔ _
      exact upholds_bind

theorem weathers_discard {goal : Option (List Operation) → List Operation → World → Unit → Prop} {script : Script α} :
    (discard script).Weathers other goal past world ↔
      script.Weathers other (fun before past world _ => goal before past world ()) past world := by
  induction script generalizing past world with
  | done value => exact Iff.rfl
  | step operation next ih =>
      refine and_congr (forall_congr' fun changed => imp_congr_right fun _ => ?_) (ih _)
      change (discard (step operation next)).Upholds _ _ _ _ ↔ _
      exact upholds_discard

theorem weathers_map {goal : Option (List Operation) → List Operation → World → β → Prop} {script : Script α}
    {f : α → β} :
    (f <$> script).Weathers other goal past world ↔
      script.Weathers other (fun before past world value => goal before past world (f value)) past world := by
  rw [map_eq_pure_bind, weathers_bind]
  refine iff_of_eq (congrArg (script.Weathers other · past world) ?_)
  funext before past world value
  cases before <;> rfl

/-- A step that is known to lead to another world with some answer. -/
theorem weathers_call {operation : Operation}
    {goal : Option (List Operation) → List Operation → World → operation.Answer → Prop} {later : World}
    {answer : operation.Answer} (hrun : operation.run world = (later, answer))
    (hother : ∀ changed, other world changed →
      (call operation).Upholds (fun _ _ => True) (goal (some past)) past changed)
    (hgoal : goal none (past ++ [operation]) later answer) : (call operation).Weathers other goal past world := by
  refine ⟨hother, ?_⟩
  rw [hrun]
  exact hgoal

/-- The same with what follows it. -/
theorem weathers_call_bind {goal : Option (List Operation) → List Operation → World → β → Prop} {operation : Operation}
    {f : operation.Answer → Script β} {later : World} {answer : operation.Answer}
    (hrun : operation.run world = (later, answer))
    (hother : ∀ changed, other world changed →
      (call operation >>= f).Upholds (fun _ _ => True) (goal (some past)) past changed)
    (h : (f answer).Weathers other goal (past ++ [operation]) later) :
    (call operation >>= f).Weathers other goal past world := by
  refine ⟨hother, ?_⟩
  rw [hrun]
  exact h

end Script

namespace Attempt

variable {α β : Type} {other : World → World → Prop} {past : List Operation} {world later : World}
  {goal : Option (List Operation) → List Operation → World → Except Error β → Prop}

theorem run_lift_bind (script : Script α) (f : α → Attempt β) :
    ((liftM script : Attempt α) >>= f).run = script >>= fun value => (f value).run := by
  rw [ExceptT.run_bind, ExceptT.run_liftM, bind_map_left]

theorem weathers_lift_bind {script : Script α} {f : α → Attempt β} :
    ((liftM script : Attempt α) >>= f).run.Weathers other goal past world ↔
      (script >>= fun value => (f value).run).Weathers other goal past world := by
  rw [run_lift_bind]

theorem weathers_bind {first : Attempt α} {f : α → Attempt β} :
    (first >>= f).run.Weathers other goal past world ↔
      first.run.Weathers other (fun before past world result => match before, result with
        | before, .error error => goal before past world (.error error)
        | some before, .ok value => (f value).run.Upholds (fun _ _ => True) (goal (some before)) past world
        | none, .ok value => (f value).run.Weathers other goal past world) past world := by
  rw [ExceptT.run_bind, Script.weathers_bind]
  refine iff_of_eq (congrArg (first.run.Weathers other · past world) ?_)
  funext before past world result
  cases before <;> cases result <;> rfl

/-- A step among attempts, known to lead to another world with some answer. -/
theorem weathers_call_bind {operation : Operation} {f : operation.Answer → Attempt β} {answer : operation.Answer}
    (hrun : operation.run world = (later, answer))
    (hother : ∀ changed, other world changed →
      ((liftM (Script.call operation) : Attempt operation.Answer) >>= f).run.Upholds (fun _ _ => True)
        (goal (some past)) past changed)
    (h : (f answer).run.Weathers other goal (past ++ [operation]) later) :
    ((liftM (Script.call operation) : Attempt operation.Answer) >>= f).run.Weathers other goal past world := by
  rw [run_lift_bind] at hother ⊢
  exact Script.weathers_call_bind hrun hother h

theorem run_attempt_bind (activity : Activity) (script : Script (Except Fault α)) (f : α → Attempt β) :
    (attempt activity script >>= f).run = script >>= fun result => match result with
      | .ok value => (f value).run
      | .error fault => pure (.error (.io activity fault)) := by
  rw [attempt, bind_assoc, run_lift_bind]
  refine congrArg (script >>= ·) (funext fun result => ?_)
  cases result <;> rfl

theorem weathers_discard_lift {goal : Option (List Operation) → List Operation → World → Except Error Unit → Prop}
    {script : Script α} :
    (discard (liftM script : Attempt α)).run.Weathers other goal past world ↔
      script.Weathers other (fun before past world _ => goal before past world (.ok ())) past world := by
  rw [run_discard_lift, Script.weathers_map]

theorem weathers_tryCatch {goal : Option (List Operation) → List Operation → World → Except Error α → Prop}
    {first : Attempt α} {handler : Error → Attempt α} :
    (tryCatch first handler : Attempt α).run.Weathers other goal past world ↔
      first.run.Weathers other (fun before past world result => match before, result with
        | before, .ok value => goal before past world (.ok value)
        | some before, .error error => (handler error).run.Upholds (fun _ _ => True) (goal (some before)) past world
        | none, .error error => (handler error).run.Weathers other goal past world) past world := by
  rw [run_tryCatch, Script.weathers_bind]
  refine iff_of_eq (congrArg (first.run.Weathers other · past world) ?_)
  funext before past world result
  cases before <;> cases result <;> rfl

end Attempt

end LineComment
