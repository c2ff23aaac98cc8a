import Elaboration.Session.Basic

/-!
# Evaluation of programs

Expressions evaluate to typed terms. Where a value is used at a type that is not its own, an unknown
takes its place and a cast is posed; evaluation never stops at a failure. Unknowns, casts and
failures are up to a host, such as a session. The locals in scope are one list: commands push to it,
and a scope that ends truncates it.

A session evaluates a program, then runs its obligations. Finishing gives up what is undecided.
-/

namespace Elaboration
namespace Evaluator

/-- Why an unknown or a symbol was made (`VariableExplanation`). -/
inductive Role where
  | domain
  | codomain
  | function
  | argument
  | cast
  | hole
  | declaration
  | postulate
deriving DecidableEq, Repr

/-- The stem of the names of symbols made for a role. -/
def Role.stem : Role → String
  | domain => "?dom"
  | codomain => "?cod"
  | function => "?fn"
  | argument => "?arg"
  | cast => "?cast"
  | hole => "?hole"
  | declaration => "decl"
  | postulate => "ax"

/-- The name of a symbol made for a role by an instruction. -/
def Role.name (r : Role) (node : NodeId) : String := r.stem ++ node.written

/-- What evaluation asks of its host, which has a state of its own (`EvaluatorInterface`). -/
class Host (H : Type) where
  /-- Allows rules for a new declaration. -/
  registerDeclaration : Term → StateT H KernelM Unit
  /-- Allows a declaration to be defined by equations. -/
  registerIndeterminate : Term → StateT H KernelM Unit
  registerType : Term → Term → StateT H KernelM Unit
  /-- Tells why an instruction made a symbol. -/
  explain : Term → Role → NodeId → StateT H KernelM Unit
  isDefinable : Term → StateT H KernelM Bool
  poseEquation : Equation → Failure.Purpose → NodeId → StateT H KernelM Unit
  poseCast : Cast → Failure.Purpose → NodeId → StateT H KernelM Unit
  poseApplication : Application → NodeId → StateT H KernelM Unit
  /-- Poses a rule with the instructions that demand its checks. -/
  poseRule : RuleRequest → NodeId → List NodeId → StateT H KernelM Unit
  /-- A value that the host made available. -/
  embedded : Nat → StateT H KernelM TypedTerm
  report : Failure → StateT H KernelM Unit

instance : Host Session where
  registerDeclaration t := liftM (KernelM.register t)
  registerIndeterminate t := SessionM.onStore (StoreM.registerIndeterminate t)
  registerType t type := liftM (KernelM.setType t type)
  explain t role node := liftM (KernelM.setName t (role.name node))
  isDefinable t := do return (← get).store.isIndeterminate (t.declId?.getD 0)
  poseEquation e purpose node := do
    let id ← SessionM.onStore (StoreM.poseEquation e)
    SessionM.rememberPurpose id (.equation purpose node)
  poseCast c purpose node := do
    let id ← SessionM.onStore (StoreM.poseCast c)
    SessionM.rememberPurpose id (.equation purpose node)
  poseApplication a node := do
    let id ← SessionM.onStore (StoreM.poseApplication a)
    SessionM.rememberPurpose id (.application node)
  poseRule r node checks := do
    let id ← SessionM.onStore (StoreM.poseRule r)
    SessionM.rememberPurpose id (.rule node checks false)
  embedded := SessionM.embedded
  report := SessionM.report

variable {H : Type} [Host H]

/-- The local at a position (`local`). -/
def lookup (locals : List TypedTerm) (index : Nat) : StateT H KernelM TypedTerm :=
  match locals[index]? with
  | some v => pure v
  | none => KernelM.violate (.localOutOfScope index locals.length)

/-- A new declaration `v` such that `v $0 .. $(d - 1)` has a given type below a telescope
(`make_variable`): the declaration, and it applied. -/
def makeUnknown (tele : Telescope) (type : Term) (definable : Bool) (role : Role) (node : NodeId) :
    StateT H KernelM (Term × Term) := do
  let v ← KernelM.freshDeclaration
  Host.registerDeclaration v
  if definable then
    Host.registerIndeterminate v
  let closed ← tele.instanceOf type
  Host.registerType v closed
  Host.explain v role node
  pure (v, tele.applyArgs v)

/-- The value at a given type, by a cast unless that is its type already. -/
def cast (tele : Telescope) (purpose : Failure.Purpose) (node : NodeId) (v : TypedTerm)
    (type : Term) : StateT H KernelM Term := do
  let source ← tele.reduceClean v.type
  let target ← tele.reduceClean type
  if source = target then
    pure v.value
  else
    let (unknown, applied) ← makeUnknown tele type false .cast node
    Host.poseCast ⟨tele, unknown, v.type, v.value, type⟩ purpose node
    pure applied

/-- The value as a type. -/
def castToType (tele : Telescope) (purpose : Failure.Purpose) (node : NodeId) (v : TypedTerm) :
    StateT H KernelM Term :=
  cast tele purpose node v Primitive.type

/-- Applies a value whose type is not a function type as it stands. -/
def applyUnknown (tele : Telescope) (node : NodeId) (f x : TypedTerm) :
    StateT H KernelM TypedTerm := do
  let (_, domain) ← makeUnknown tele Primitive.type true .domain node
  let (_, codomain) ← makeUnknown tele (Primitive.typeFamilyOf domain) true .codomain node
  let expected := Primitive.arrowOf domain codomain
  let (functionUnknown, function) ← makeUnknown tele expected false .function node
  let (argumentUnknown, argument) ← makeUnknown tele domain false .argument node
  Host.poseApplication
    ⟨tele, functionUnknown, f.type, f.value, expected, argumentUnknown, x.type, x.value,
      domain⟩ node
  pure ⟨.app function argument, .app codomain argument⟩

/-- Applies a value to another. -/
def apply (tele : Telescope) (node : NodeId) (f x : TypedTerm) :
    StateT H KernelM TypedTerm := do
  let type ← tele.reduceClean f.type
  match Primitive.asArrow? type with
  | some (domain, codomain) =>
    let x ← cast tele .argumentType node x domain
    pure ⟨.app f.value x, .app codomain x⟩
  | none =>
    KernelM.note (.nonFunctionApplied node type)
    applyUnknown tele node f x

/-- Evaluates an expression. -/
def eval (tele : Telescope) (locals : List TypedTerm) : Expr → StateT H KernelM TypedTerm
  | .app id f x => do
    let f ← eval tele locals f
    let x ← eval tele locals x
    apply tele id f x
  | .var _ index => lookup locals index
  | .embed _ index => Host.embedded index
  | .type _ => pure ⟨Primitive.type, Primitive.type⟩
  | .arrow _ => pure ⟨Primitive.arrow, Primitive.arrowType⟩
  | .typeFamily id base => do
    let base ← eval tele locals base
    let base ← castToType tele .typeFamilyType id base
    pure ⟨Primitive.typeFamilyOf base, Primitive.type⟩

/-- Evaluates an expression that must be a type. -/
def evalType (tele : Telescope) (locals : List TypedTerm) (purpose : Failure.Purpose)
    (node : NodeId) (e : Expr) : StateT H KernelM Term := do
  let v ← eval tele locals e
  castToType tele purpose node v

/-- Poses an equation that an instruction requires. -/
def require (tele : Telescope) (deduce : Bool) (purpose : Failure.Purpose) (node : NodeId)
    (lhs rhs : Term) : StateT H KernelM Unit :=
  Host.poseEquation ⟨lhs, rhs, tele, deduce⟩ purpose node

/-- Requires that a value has a type and is equal to another, as far as these are given. -/
def runCheck (tele : Telescope) (locals : List TypedTerm) (node : NodeId) (value : Expr)
    (type equals : Option Expr) (deduce : Bool) : StateT H KernelM Unit := do
  let v ← eval tele locals value
  let required ←
    match type with
    | none => pure v.type
    | some type => do
      let type ← evalType tele locals .requirementType node type
      require tele deduce .typeRequirement node v.type type
      pure type
  match equals with
  | none => pure ()
  | some equals =>
    let expected ← eval tele locals equals
    require tele deduce .requirementValueType node expected.type required
    require tele deduce .valueRequirement node v.value expected.value

/-- A captured argument with its type (`type_of_capture`). -/
def typedCapture (tele : Telescope) (t : Term) : KernelM TypedTerm :=
  match t.argIndex?.bind tele.typeOfArg? with
  | some type => pure ⟨t, type⟩
  | none => KernelM.violate (.captureUnbound t)

/-- Reads the locals and the embedded values that a pattern refers to. -/
def resolve (locals : List TypedTerm) (pattern : Pat) : StateT H KernelM Pattern.Resolved :=
  Pattern.Resolved.ofPat (fun index => TypedTerm.value <$> lookup locals index)
    (fun index => TypedTerm.value <$> Host.embedded index) pattern

/-- The flat pattern of a rule's left side. A head that is definable or owns a rule is rejected. -/
def flatten (locals : List TypedTerm) (node : NodeId) (pattern : Pat) (subclauses : List Subclause)
    (captures : Nat) : StateT H KernelM (Except Failure Pattern.Flat) := do
  let primary ← resolve locals pattern
  let others ← subclauses.mapM fun s => do
    let p ← resolve locals s.pattern
    pure (⟨s.id, s.used, p⟩ : Pattern.ResolvedSubclause)
  match Pattern.Folded.ofResolved node primary others captures with
  | .error f => pure (.error f)
  | .ok folded =>
    let definable ← Host.isDefinable folded.head
    let k ← getThe Kernel
    if definable || k.rules.hasRule (folded.head.declId?.getD 0) then
      pure (.error (.rejected .invalidRuleHead node))
    else
      pure (Pattern.Flat.ofFolded folded)

/-- A new postulate of a type below a telescope, applied to the arguments. -/
def makePostulate (tele : Telescope) (id : NodeId) (type : Term) : StateT H KernelM TypedTerm := do
  let p ← KernelM.freshPostulate
  let closed ← tele.instanceOf type
  Host.registerType p closed
  Host.explain p .postulate id
  pure ⟨tele.applyArgs p, type⟩

/-- Poses a compiled rule with its replacement (in `run_rule`). -/
def poseRule (node : NodeId) (x : Pattern.Execution) (replacement : TypedTerm) :
    StateT H KernelM Unit :=
  Host.poseRule ⟨x.telescope, ⟨x.head, x.arity, x.steps, replacement.value⟩,
    x.checks.map Prod.snd, x.type, replacement.type⟩ node (x.checks.map Prod.fst)

end Evaluator

/-- Evaluation with the locals in scope as its state (`Evaluator`). -/
abbrev EvalM (H : Type) := StateT (List TypedTerm) (StateT H KernelM)

namespace EvalM

open Evaluator

variable {H : Type} [Host H]

/-- Acts with the host, whatever the locals. -/
def onHost {α : Type} (x : StateT H KernelM α) : EvalM H α := liftM x

/-- Adds a local. -/
def push (v : TypedTerm) : EvalM H Unit := modify (· ++ [v])

/-- Drops all locals but the first ones. -/
def truncate (count : Nat) : EvalM H Unit := modify (·.take count)

/-- Adds captured arguments with their types, in order. -/
def pushCaptures (tele : Telescope) : List Term → EvalM H Unit
  | [] => pure ()
  | t :: rest => do
    let v ← typedCapture tele t
    push v
    pushCaptures tele rest

/-- The value of a subclause's expression, which sees the captures that it requests as its last
locals (in `run_rule`). -/
def subclauseValue (subclauses : List Subclause) (index : Nat) (tele : Telescope)
    (requested : List Term) : EvalM H Term := do
  match subclauses[index]? with
  | none => pure default
  | some s =>
    let base ← get
    pushCaptures tele requested
    let v ← onHost (eval tele (← get) s.matched)
    truncate base.length
    pure v.value

/-- Compiles the left side of a rule below a telescope (in `run_rule`). -/
def compile (tele : Telescope) (node : NodeId) (pattern : Pat) (subclauses : List Subclause)
    (captures : Nat) : EvalM H (Except Failure Pattern.Execution) := do
  match ← onHost (flatten (← get) node pattern subclauses captures) with
  | .error f => pure (.error f)
  | .ok flat => Pattern.execute tele flat (subclauseValue subclauses)

mutual

/-- Runs a command. -/
def runCommand (tele : Telescope) (c : Command) : EvalM H Unit := do
  KernelM.note (.commandStarted c.id tele.depth)
  let locals ← get
  match c with
  | .hole id type =>
    let type ← onHost (evalType tele locals .holeType id type)
    let (_, value) ← onHost (makeUnknown tele type true .hole id)
    push ⟨value, type⟩
  | .declare id type =>
    let type ← onHost (evalType tele locals .declarationType id type)
    let (_, value) ← onHost (makeUnknown tele type false .declaration id)
    push ⟨value, type⟩
  | .postulate id type =>
    let type ← onHost (evalType tele locals .postulateType id type)
    let v ← onHost (makePostulate tele id type)
    push v
  | .define id value type =>
    let v ← onHost (eval tele locals value)
    match type with
    | none => push v
    | some type =>
      let type ← onHost (evalType tele locals .letType id type)
      let value ← onHost (cast tele .letValue id v type)
      push ⟨value, type⟩
  | .check id value type equals deduce =>
    onHost (runCheck tele locals id value type equals deduce)
  | .forAll id type commands =>
    let type ← onHost (evalType tele locals .forAllType id type)
    let inner ← tele.extend type
    push ⟨.arg tele.depth, type⟩
    runCommands inner commands
    truncate locals.length
  | .rule id pattern subclauses captures commands replacement =>
    match ← compile tele id pattern subclauses captures with
    | .error f => onHost (Host.report f)
    | .ok x =>
      let base ← get
      pushCaptures x.telescope x.captures
      runCommands x.telescope commands
      let replacement ← onHost (eval x.telescope (← get) replacement)
      truncate base.length
      onHost (poseRule id x replacement)

/-- Runs commands in order. -/
def runCommands (tele : Telescope) : List Command → EvalM H Unit
  | [] => pure ()
  | c :: rest => do
    runCommand tele c
    runCommands tele rest

end

/-- Evaluates a program below a telescope, from no locals. -/
def program (tele : Telescope) (p : Program) : EvalM H TypedTerm := do
  runCommands tele p.commands
  onHost (eval tele (← get) p.value)

end EvalM

/-- Evaluates a program below the empty telescope (`evaluate`). -/
def Evaluator.evalProgram {H : Type} [Evaluator.Host H] (p : Program) :
    StateT H KernelM TypedTerm := do
  let tele ← Telescope.root
  let (v, _) ← (EvalM.program tele p).run []
  KernelM.note (.evaluated v.value v.type)
  pure v

namespace SessionM

/-- Elaborates a program. -/
def elaborate (p : Program) : SessionM TypedTerm := do
  let v ← Evaluator.evalProgram p
  onStore StoreM.run
  let s ← get
  KernelM.note (.elaborated s.failures.length s.store.pending)
  pure v

/-- Gives up every undecided equation and answers all failures. The values that were made available
are released. -/
def finish : SessionM (List Failure) := do
  onStore StoreM.close
  let s ← get
  set { s with embeds := [], failures := [] }
  KernelM.note (.finished s.failures.length)
  pure s.failures

end SessionM
end Elaboration
