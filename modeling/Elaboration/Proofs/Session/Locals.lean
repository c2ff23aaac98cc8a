import Mathlib.Algebra.GroupWithZero.Nat
import Elaboration.Proofs.Action
import Elaboration.Session.Evaluator

/-!
# The locals of a program

Whatever the host does, a command leaves the locals before it as they were and adds as many as it is
counted for. So a run of commands can be read as a function from the locals before it to those
after it.
-/

namespace Elaboration

open Evaluator List

/-- The number of locals that a command adds. -/
def Command.added : Command → Nat
  | .hole _ _ | .declare _ _ | .postulate _ _ | .define _ _ _ => 1
  | .rule _ _ _ _ _ _ | .check _ _ _ _ _ | .forAll _ _ _ => 0

namespace EvalM

variable {H α β : Type} {tele : Telescope} {locals : List TypedTerm}

/-! ### Actions from given locals -/

@[simp] private theorem run_onHost (x : StateT H KernelM α) :
    (onHost x).run locals = (do
      let a ← x
      pure (a, locals)) := rfl

@[simp] private theorem run_lift (y : KernelM α) :
    (liftM y : EvalM H α).run locals = (do
      let a ← (liftM y : StateT H KernelM α)
      pure (a, locals)) := rfl

@[simp] private theorem run_push (v : TypedTerm) :
    (push v : EvalM H Unit).run locals = pure ((), locals ++ [v]) := rfl

@[simp] private theorem run_truncate (n : Nat) :
    (truncate n : EvalM H Unit).run locals = pure ((), locals.take n) := rfl

private theorem run_pushCaptures (ts : List Term) :
    (pushCaptures tele ts : EvalM H Unit).run locals = (do
      let captures ← ts.mapM fun t => (typedCapture tele t : StateT H KernelM TypedTerm)
      pure ((), locals ++ captures)) := by
  induction ts generalizing locals with
  | nil => simp [pushCaptures]
  | cons t ts ih => simp [pushCaptures, ih, mapM_cons]

/-- From given locals, the action does what another does without any, and restores them. -/
def Restores (locals : List TypedTerm) (x : EvalM H α) (y : StateT H KernelM α) : Prop :=
  x.run locals = (do
    let a ← y
    pure (a, locals))

namespace Restores

private theorem pure (a : α) : Restores locals (pure a : EvalM H α) (pure a) := rfl

private theorem onHost (x : StateT H KernelM α) : Restores locals (onHost x) x := rfl

private theorem lift (y : KernelM α) : Restores locals (liftM y : EvalM H α) (liftM y) := rfl

private theorem bind {x : EvalM H α} {y : StateT H KernelM α} {f : α → EvalM H β}
    {g : α → StateT H KernelM β} (hx : Restores locals x y)
    (hf : ∀ a, Restores locals (f a) (g a)) : Restores locals (x >>= f) (y >>= g) := by
  unfold Restores at *
  simp only [StateT.run_bind, hx, hf, bind_assoc, pure_bind]

private theorem get_bind {f : List TypedTerm → EvalM H β} {y : StateT H KernelM β}
    (hf : Restores locals (f locals) y) : Restores locals (get >>= f) y := hf

end Restores

section Execution

variable {values : Nat → Telescope → List Term → EvalM H Term}
  {values' : Nat → Telescope → List Term → StateT H KernelM Term}
  (hvalues : ∀ index tele requested,
    Restores locals (values index tele requested) (values' index tele requested))

include hvalues

private theorem restores_runShards (node : NodeId) (p : Pattern.Partial)
    (shards : List Pattern.Shard) :
    Restores locals (Pattern.runShards node values p shards)
      (Pattern.runShards node values' p shards) := by
  induction shards generalizing p with
  | nil => exact .pure _
  | cons shard shards ih =>
    cases shard with
    | pull =>
      refine .bind (.lift _) fun bound => ?_
      cases bound with
      | none => exact .pure _
      | some bound => exact ih _
    | destructure shardId subject head count =>
      cases subject with
      | value position =>
        refine .bind (.pure _) fun t => .bind (.lift _) fun bound => ?_
        cases bound with
        | none => exact .pure _
        | some bound => exact .bind (.lift _) fun _ => .bind (.lift _) fun _ => ih _
      | subclause index requested =>
        refine .bind (hvalues _ _ _) fun t => .bind (.lift _) fun bound => ?_
        cases bound with
        | none => exact .pure _
        | some bound => exact .bind (.lift _) fun _ => .bind (.lift _) fun _ => ih _

private theorem restores_execute (flat : Pattern.Flat) :
    Restores locals (Pattern.execute tele flat values) (Pattern.execute tele flat values') := by
  unfold Pattern.execute
  split
  · exact .pure _
  · refine .bind (restores_runShards hvalues _ _ _) fun out => ?_
    cases out with
    | error f => exact .pure _
    | ok p =>
      refine .bind (.lift _) fun type => ?_
      cases type with
      | none => exact .pure _
      | some type => dsimp only; split <;> exact .pure _

end Execution

/-- From given locals, the action leaves them as they are but for `n` new ones after them. -/
def Adds (locals : List TypedTerm) (n : Nat) (x : EvalM H α) : Prop :=
  ∀ s k, EndsWith (x.run locals) s k
    (fun p _ _ => ∃ new, p.2 = locals ++ new ∧ new.length = n) fun _ _ => True

namespace Adds

private theorem of_restores {x : EvalM H α} {y : StateT H KernelM α} (h : Restores locals x y) :
    Adds locals 0 x := by
  intro s k
  rw [h, EndsWith.bind_iff]
  exact Ends.of_answer fun _ _ _ => ⟨[], (append_nil _).symm, rfl⟩

private theorem push (v : TypedTerm) : Adds locals 1 (push v : EvalM H Unit) :=
  fun _ _ => ⟨[v], rfl, rfl⟩

private theorem bind {x : EvalM H α} {f : α → EvalM H β} {n m : Nat} (hx : Adds locals n x)
    (hf : ∀ a new, new.length = n → Adds (locals ++ new) m (f a)) :
    Adds locals (n + m) (x >>= f) := by
  intro s k
  rw [StateT.run_bind]
  refine (hx s k).seq ?_
  rintro ⟨a, _⟩ s' k' ⟨new, rfl, hnew⟩
  refine (hf a new hnew s' k').imp ?_
  rintro ⟨b, _⟩ _ _ ⟨new', rfl, hnew'⟩
  exact ⟨new ++ new', append_assoc .., by rw [length_append, hnew, hnew']⟩

private theorem after {x : EvalM H α} {y : StateT H KernelM α} {f : α → EvalM H β} {n : Nat}
    (hx : Restores locals x y) (hf : ∀ a, Adds locals n (f a)) : Adds locals n (x >>= f) := by
  intro s k
  rw [StateT.run_bind, hx, bind_assoc, EndsWith.bind_iff]
  exact Ends.of_answer fun p k' _ => hf p.1 p.2 k'

private theorem get_bind {f : List TypedTerm → EvalM H β} {n : Nat}
    (hf : Adds locals n (f locals)) : Adds locals n (get >>= f) := hf

private theorem take {x : EvalM H α} {more : List TypedTerm} {n : Nat}
    (hx : Adds (locals ++ more) n x)
    (g : α × List TypedTerm → List TypedTerm → StateT H KernelM β) :
    (do let p ← x.run (locals ++ more); g p (p.2.take locals.length)) = (do
      let p ← x.run (locals ++ more)
      g p locals) := by
  funext s k
  change EStateM.bind _ _ _ = EStateM.bind _ _ _
  have h := hx s k
  unfold EndsWith Ends at h
  unfold EStateM.bind
  cases hrun : x.run (locals ++ more) s k with
  | error e k' => rfl
  | ok p k' =>
    rw [hrun] at h
    obtain ⟨new, hnew, _⟩ := h
    dsimp only
    rw [hnew, append_assoc, take_left]

end Adds

end EvalM

namespace Evaluator

variable {H : Type} [Host H]

/-! ### Evaluation from given locals -/

/-- The value of a subclause's expression, from the locals of the rule. -/
def subclauseValue (locals : List TypedTerm) (subclauses : List Subclause) (index : Nat)
    (tele : Telescope) (requested : List Term) : StateT H KernelM Term := do
  match subclauses[index]? with
  | none => pure default
  | some s =>
    let captures ← requested.mapM fun t => (typedCapture tele t : StateT H KernelM TypedTerm)
    let v ← eval tele (locals ++ captures) s.matched
    pure v.value

/-- Compiles the left side of a rule from given locals. -/
def compile (tele : Telescope) (locals : List TypedTerm) (node : NodeId) (pattern : Pat)
    (subclauses : List Subclause) (captures : Nat) :
    StateT H KernelM (Except Failure Pattern.Execution) :=
  Prod.fst <$> (EvalM.compile tele node pattern subclauses captures).run locals

/-- Runs a command from given locals and answers the locals after it. -/
def runCommand (tele : Telescope) (locals : List TypedTerm) (c : Command) :
    StateT H KernelM (List TypedTerm) :=
  Prod.snd <$> (EvalM.runCommand tele c).run locals

/-- The same of commands in order. -/
def runCommands (tele : Telescope) (locals : List TypedTerm) (commands : List Command) :
    StateT H KernelM (List TypedTerm) :=
  Prod.snd <$> (EvalM.runCommands tele commands).run locals

/-- Starts a command that quantifies: answers the telescope that its commands run below, and their
locals. -/
def openForAll (tele : Telescope) (locals : List TypedTerm) (id : NodeId) (type : Expr) :
    StateT H KernelM (Telescope × List TypedTerm) := do
  KernelM.note (.commandStarted id tele.depth)
  let type ← evalType tele locals .forAllType id type
  let inner ← tele.extend type
  pure (inner, locals ++ [⟨.arg tele.depth, type⟩])

/-- Starts a rule command: answers the compiled pattern and the locals of the commands below it. -/
def openRule (tele : Telescope) (locals : List TypedTerm) (id : NodeId) (pattern : Pat)
    (subclauses : List Subclause) (captures : Nat) :
    StateT H KernelM (Except Failure (Pattern.Execution × List TypedTerm)) := do
  KernelM.note (.commandStarted id tele.depth)
  match ← compile tele locals id pattern subclauses captures with
  | .error f => pure (.error f)
  | .ok x =>
    let bound ← x.captures.mapM fun t => (typedCapture x.telescope t : StateT H KernelM TypedTerm)
    pure (.ok (x, locals ++ bound))

end Evaluator

namespace EvalM

variable {H : Type} [Host H] {tele : Telescope} {locals : List TypedTerm}

private theorem restores_subclauseValue (subclauses : List Subclause) (index : Nat)
    (requested : List Term) :
    Restores locals (subclauseValue subclauses index tele requested : EvalM H Term)
      (Evaluator.subclauseValue locals subclauses index tele requested) := by
  unfold Restores subclauseValue Evaluator.subclauseValue
  cases subclauses[index]? with
  | none => simp
  | some s => simp [run_pushCaptures]

private theorem restores_flattened (node : NodeId) (pattern : Pat) (subclauses : List Subclause)
    (captures : Nat) :
    Restores locals (compile tele node pattern subclauses captures : EvalM H _) (do
      match ← flatten locals node pattern subclauses captures with
      | .error f => pure (.error f)
      | .ok flat => Pattern.execute tele flat (Evaluator.subclauseValue locals subclauses)) := by
  refine .get_bind (.bind (.onHost _) fun out => ?_)
  cases out with
  | error f => exact .pure _
  | ok flat => exact restores_execute (fun _ _ _ => restores_subclauseValue _ _ _) flat

/-! ### Commands -/

variable {commands : List Command} {n : Nat}

private theorem restores_forAll (id : NodeId) (type : Expr)
    (hcommands : ∀ inner bound, Adds bound n (runCommands inner commands : EvalM H Unit)) :
    Restores locals (runCommand tele (.forAll id type commands) : EvalM H Unit) (do
      let (inner, bound) ← openForAll tele locals id type
      let _ ← Evaluator.runCommands inner bound commands
      pure ()) := by
  rw [runCommand, openForAll]
  simp only [bind_assoc, pure_bind]
  refine .bind (.lift _) fun _ => .get_bind (.bind (.onHost _) fun type => ?_)
  refine .bind (.lift _) fun inner => ?_
  have htake := (hcommands inner (locals ++ [⟨.arg tele.depth, type⟩])).take
    fun _ locals => pure ((), locals)
  simpa [Restores, Evaluator.runCommands] using htake

private theorem restores_rule (id : NodeId) (pattern : Pat) (subclauses : List Subclause)
    (captures : Nat) (replacement : Expr)
    (hcommands : ∀ inner bound, Adds bound n (runCommands inner commands : EvalM H Unit)) :
    Restores locals
      (runCommand tele (.rule id pattern subclauses captures commands replacement) : EvalM H Unit)
      (do
        match ← openRule tele locals id pattern subclauses captures with
        | .error f => Host.report f
        | .ok (x, bound) =>
          let inner ← Evaluator.runCommands x.telescope bound commands
          let v ← eval x.telescope inner replacement
          poseRule id x v) := by
  rw [runCommand, openRule]
  simp only [bind_assoc]
  have hcompile : Restores locals (compile tele id pattern subclauses captures : EvalM H _)
      (Evaluator.compile tele locals id pattern subclauses captures) := by
    unfold Evaluator.compile Restores
    rw [restores_flattened]
    simp
  refine .bind (.lift _) fun _ => .get_bind (.bind hcompile fun out => ?_)
  cases out with
  | error f => exact .onHost _
  | ok x =>
    simp only [bind_assoc, pure_bind]
    unfold Restores
    simp only [StateT.run_bind, StateT.run_get, run_pushCaptures, run_onHost, run_truncate,
      bind_assoc, pure_bind, Evaluator.runCommands]
    refine congrArg _ (funext fun bound => ?_)
    have htake := (hcommands x.telescope (locals ++ bound)).take fun p locals => do
      let v ← eval x.telescope p.2 replacement
      let _ ← poseRule id x v
      pure ((), locals)
    simpa using htake

mutual

/-- A command leaves the locals as they are but for those that it adds, whatever its scope. -/
theorem adds_runCommand (tele : Telescope) (locals : List TypedTerm) (c : Command) :
    Adds locals c.added (runCommand tele c : EvalM H Unit) := by
  cases c with
  | hole id type | declare id type | postulate id type =>
    rw [runCommand]
    refine .after (.lift _) fun _ => .get_bind (.after (.onHost _) fun _ => ?_)
    exact .after (.onHost _) fun _ => .push _
  | define id value type =>
    rw [runCommand]
    refine .after (.lift _) fun _ => .get_bind (.after (.onHost _) fun _ => ?_)
    cases type with
    | none => exact .push _
    | some type => exact .after (.onHost _) fun _ => .after (.onHost _) fun _ => .push _
  | check id value type equals deduce =>
    rw [runCommand]
    exact .of_restores (.bind (.lift _) fun _ => .get_bind (.onHost _))
  | forAll id type commands =>
    exact .of_restores (restores_forAll id type fun inner bound =>
      adds_runCommands inner bound commands)
  | rule id pattern subclauses captures commands replacement =>
    exact .of_restores (restores_rule id pattern subclauses captures replacement
      fun inner bound => adds_runCommands inner bound commands)

private theorem adds_runCommands (tele : Telescope) (locals : List TypedTerm)
    (commands : List Command) :
    Adds locals (commands.map Command.added).sum (runCommands tele commands : EvalM H Unit) := by
  cases commands with
  | nil =>
    rw [runCommands]
    exact .of_restores (.pure ())
  | cons c commands =>
    rw [runCommands, map_cons, sum_cons]
    exact (adds_runCommand tele locals c).bind fun _ new _ =>
      adds_runCommands tele (locals ++ new) commands

end

end EvalM

namespace Evaluator

variable {H : Type} [Host H] (tele : Telescope) (locals : List TypedTerm) (id : NodeId)

/-! ### Commands from given locals -/

/-- Compiling a rule, from given locals. -/
theorem compile_eq (pattern : Pat) (subclauses : List Subclause) (captures : Nat) :
    compile (H := H) tele locals id pattern subclauses captures = (do
      match ← flatten locals id pattern subclauses captures with
      | .error f => pure (.error f)
      | .ok flat => Pattern.execute tele flat (subclauseValue locals subclauses)) := by
  rw [compile, EvalM.restores_flattened]
  simp

theorem runCommand_hole (type : Expr) :
    runCommand (H := H) tele locals (.hole id type) = (do
      KernelM.note (.commandStarted id tele.depth)
      let type ← evalType tele locals .holeType id type
      let p ← makeUnknown tele type true .hole id
      pure (locals ++ [⟨p.2, type⟩])) := by
  rw [runCommand, EvalM.runCommand]
  simp
  rfl

theorem runCommand_declare (type : Expr) :
    runCommand (H := H) tele locals (.declare id type) = (do
      KernelM.note (.commandStarted id tele.depth)
      let type ← evalType tele locals .declarationType id type
      let p ← makeUnknown tele type false .declaration id
      pure (locals ++ [⟨p.2, type⟩])) := by
  rw [runCommand, EvalM.runCommand]
  simp
  rfl

theorem runCommand_postulate (type : Expr) :
    runCommand (H := H) tele locals (.postulate id type) = (do
      KernelM.note (.commandStarted id tele.depth)
      let type ← evalType tele locals .postulateType id type
      let v ← makePostulate tele id type
      pure (locals ++ [v])) := by
  rw [runCommand, EvalM.runCommand]
  simp
  rfl

theorem runCommand_define (value : Expr) (type : Option Expr) :
    runCommand (H := H) tele locals (.define id value type) = (do
      KernelM.note (.commandStarted id tele.depth)
      let v ← eval tele locals value
      match type with
      | none => pure (locals ++ [v])
      | some type =>
        let type ← evalType tele locals .letType id type
        let value ← cast tele .letValue id v type
        pure (locals ++ [⟨value, type⟩])) := by
  rw [runCommand, EvalM.runCommand]
  cases type <;> simp <;> rfl

theorem runCommand_check (value : Expr) (type equals : Option Expr) (deduce : Bool) :
    runCommand (H := H) tele locals (.check id value type equals deduce) = (do
      KernelM.note (.commandStarted id tele.depth)
      runCheck tele locals id value type equals deduce
      pure locals) := by
  rw [runCommand, EvalM.runCommand]
  simp
  rfl

/-- Commands below a bound argument, from given locals. -/
theorem runCommand_forAll (type : Expr) (commands : List Command) :
    runCommand (H := H) tele locals (.forAll id type commands) = (do
      let (inner, bound) ← openForAll tele locals id type
      let _ ← runCommands inner bound commands
      pure locals) := by
  rw [runCommand, EvalM.restores_forAll id type fun inner bound =>
    EvalM.adds_runCommands inner bound commands]
  simp

/-- A rule, from given locals. -/
theorem runCommand_rule (pattern : Pat) (subclauses : List Subclause) (captures : Nat)
    (commands : List Command) (replacement : Expr) :
    runCommand (H := H) tele locals (.rule id pattern subclauses captures commands replacement) =
      (do
        match ← openRule tele locals id pattern subclauses captures with
        | .error f =>
          Host.report f
          pure locals
        | .ok (x, bound) =>
          let inner ← runCommands x.telescope bound commands
          let v ← eval x.telescope inner replacement
          poseRule id x v
          pure locals) := by
  rw [runCommand, EvalM.restores_rule id pattern subclauses captures replacement
    fun inner bound => EvalM.adds_runCommands inner bound commands]
  simp only [map_bind, bind_assoc, map_pure]
  refine congrArg _ (funext fun out => ?_)
  cases out with
  | error f => rfl
  | ok x => simp only [bind_assoc]

/-- No commands, from given locals. -/
theorem runCommands_nil : runCommands (H := H) tele locals [] = pure locals := by
  rw [runCommands, EvalM.runCommands]
  rfl

/-- Commands in order, from given locals. -/
theorem runCommands_cons (c : Command) (commands : List Command) :
    runCommands (H := H) tele locals (c :: commands) = (do
      let locals ← runCommand tele locals c
      runCommands tele locals commands) := by
  rw [runCommands, EvalM.runCommands]
  simp [runCommand, runCommands]

/-- A program has no locals to begin with. -/
theorem evalProgram_eq (p : Program) :
    evalProgram (H := H) p = (do
      let tele ← Telescope.root
      let locals ← runCommands tele [] p.commands
      let v ← eval tele locals p.value
      KernelM.note (.evaluated v.value v.type)
      pure v) := by
  unfold evalProgram EvalM.program runCommands
  simp

/-- A session allows rules for a declaration as it makes it. -/
theorem makeUnknown_eq (type : Term) (definable : Bool) (role : Role) :
    makeUnknown (H := Session) tele type definable role id = (do
      let v ← KernelM.declare
      if definable then
        SessionM.onStore (StoreM.registerIndeterminate v)
      let closed ← tele.instanceOf type
      KernelM.setType v closed
      KernelM.setName v (role.name id)
      pure (v, tele.applyArgs v)) := by
  unfold makeUnknown KernelM.declare
  simp only [liftM_bind, bind_assoc, liftM_pure, pure_bind]
  rfl

end Evaluator
end Elaboration
