import Elaboration.Obligation.Basic

/-!
# Settling and running obligations

When a root equation ends, its obligation takes effect and the answer is recorded. A cast defines
its unknown. An application defines the unknown function, then poses the equation of the argument.
A rule is installed when its last side condition is solved, and refused at the first that is not;
then the others are still decided, but define nothing.

Equations are looked at in the order in which they became ready, stalled ones again whenever rules
were installed. Closing the store settles what is left as failed.
-/

namespace Elaboration
namespace StoreM

/-- Records the answer of an obligation. -/
def answer (s : Settlement) : StoreM Unit := KernelM.note (.settled s)

/-- Counts a failed obligation (`count`). -/
def countFailure : StoreM Unit := modify fun s => { s with failed := s.failed + 1 }

/-- Defines an unknown over the arguments of a telescope. -/
def installDefinition (tele : Telescope) (unknown value : Term) : KernelM Unit := do
  let value ← tele.eliminate value
  KernelM.note (.castInstalled unknown value)
  KernelM.addRule (.lambda unknown tele.depth value)

/-- Removes the placeholders from a step of a match program. -/
def eliminateInStep (tele : Telescope) : Rule.Step → KernelM Rule.Step
  | .pull => pure .pull
  | .destructure subject head count => do
    let subject ← tele.eliminate subject
    pure (.destructure subject head count)

/-- Installs a rule whose side conditions hold, unless its head has a rule by now. -/
def commitRule (request : RuleRequest) : KernelM Bool := do
  let head ← KernelM.ruleHead request.rule
  let k ← get
  if k.rules.hasRule head then
    KernelM.note (.ruleOvertaken head)
    pure false
  else
    let steps ← request.rule.steps.mapM (eliminateInStep request.telescope)
    let replacement ← request.telescope.eliminate request.rule.replacement
    KernelM.note (.ruleCommitted head)
    KernelM.addRule { request.rule with steps, replacement }
    pure true

/-- The equation that an application poses for its argument. -/
def argumentEquation (a : Application) : Equation :=
  ⟨a.argumentType, a.expectedArgumentType, a.telescope, true⟩

/-- Settles a part of an application (`resolve_function_cast`). -/
def resolveApplication (owner : Owner) (a : Application) (outcome : Outcome) : StoreM Unit := do
  match owner.slot, outcome.isSolved with
  | .main, true =>
    installDefinition a.telescope a.functionUnknown a.function
    modify fun s => { s with obligations := s.obligations.set owner.obligation (.application a) }
    addRoot (argumentEquation a) { owner with slot := .argument }
  | .main, false =>
    countFailure
    answer (.application owner.obligation outcome false)
  | _, true =>
    installDefinition a.telescope a.argumentUnknown a.argument
    answer (.application owner.obligation outcome true)
  | _, false =>
    countFailure
    answer (.application owner.obligation outcome true)

/-- Whether the side condition of a slot is not settled yet. -/
def conditionIsOpen (p : RuleProgress) : Slot → Bool
  | .check index => p.openChecks[index]?.getD false
  | _ => p.openTypes

/-- Marks the side condition of a slot as settled. -/
def closeCondition (p : RuleProgress) : Slot → RuleProgress
  | .check index => { p with openChecks := p.openChecks.set index false }
  | _ => { p with openTypes := false }

/-- Records that a rule is given up. Where the log shows that, it names the head, which must be a
declaration. -/
def noteDropped (r : Rule) : KernelM Unit := do
  match r.head with
  | .decl head => KernelM.note (.ruleDropped head)
  | head =>
    if (← get).logs .debug then KernelM.violate (.ruleHeadNotDeclaration head) else pure ()

/-- Gives up a rule (`stop_deducing`): what is left of its side conditions may define nothing any
more. -/
def refuseRule (id : Nat) (request : Option RuleRequest) : StoreM Unit := do
  match request with
  | some request => noteDropped request.rule
  | none => pure ()
  modify fun s =>
    let own := (Store.roots s.nodes).filter fun (_, owner) => owner.obligation = id
    { s with nodes := (own.map Prod.fst).foldl (Store.forbidDeducing s.nodes.size) s.nodes }

/-- Whether the outcome of a side condition refuses the rule. -/
def refuses (p : RuleProgress) (outcome : Outcome) : Bool := !outcome.isSolved && p.undecided

/-- What is left of a rule's derivation after a side condition, `outstanding` more being left (in
`resolve_rule`). -/
def afterCondition (p : RuleProgress) (slot : Slot) (outcome : Outcome) (outstanding : Nat) :
    RuleProgress :=
  let settled := closeCondition { p with outstanding } slot
  if refuses p outcome then { settled with request := none, undecided := false } else settled

/-- Installs a rule if no side condition is left and none failed (in `resolve_rule`). -/
def commitIfDecided (id : Nat) (p : RuleProgress) : StoreM Unit :=
  match p.request with
  | some request =>
    if p.outstanding = 0 && p.undecided then do
      let installed ← commitRule request
      answer (.commitment id installed)
    else
      pure ()
  | none => pure ()

/-- Settles a side condition of a rule. The condition is answered before the rule is. -/
def resolveRule (owner : Owner) (p : RuleProgress) (outcome : Outcome) : StoreM Unit := do
  let id := owner.obligation
  match p.outstanding with
  | 0 => KernelM.violate .countBelowZero
  | outstanding + 1 =>
    if refuses p outcome then
      refuseRule id p.request
    let left := afterCondition p owner.slot outcome outstanding
    if outstanding ≠ 0 then
      modify fun s => { s with obligations := s.obligations.set id (.rule left) }
    if conditionIsOpen p owner.slot then
      answer (.condition id owner.slot outcome)
    if refuses p outcome then
      countFailure
      answer (.commitment id false)
    commitIfDecided id left

/-- Settles a part of an obligation. -/
def resolve (owner : Owner) (outcome : Outcome) : StoreM Unit := do
  let id := owner.obligation
  match (← get).obligations.get? id with
  | none => KernelM.violate (.obligationSettledTwice id)
  | some o =>
    modify fun s => { s with obligations := s.obligations.erase id }
    KernelM.note (.settling id owner.slot outcome.isSolved)
    match o with
    | .equation =>
      if !outcome.isSolved then countFailure
      answer (.equation id outcome)
    | .cast c =>
      if outcome.isSolved then
        installDefinition c.telescope c.unknown c.source
      else
        countFailure
      answer (.equation id outcome)
    | .application a => resolveApplication owner a outcome
    | .rule p => resolveRule owner p outcome

/-- Removes an equation and all that were derived from it. -/
def removeTree (index : Nat) : StoreM Unit :=
  modify fun s => { s with nodes := Store.removeTree s.nodes.size s.nodes index }

/-- Marks an equation as solved, then those above it of which all derived ones are, to a bounded
height; settles a root. -/
def markSolved : Nat → Nat → StoreM Unit
  | 0, _ => throw .exhausted
  | height + 1, index => do
    setProgress index .solved
    match (← node index).parent with
    | .root owner =>
      removeTree index
      resolve owner .solved
    | .child above =>
      match (← node above).progress with
      | .decomposed 0 => KernelM.violate .countBelowZero
      | .decomposed (remaining + 1) =>
        setProgress above (.decomposed remaining)
        if remaining = 0 then markSolved height above
      | _ => pure ()

/-- Marks an equation and all above it as failed, to a bounded height, and settles the obligation of
their root. -/
def markFailed : Nat → Nat → StoreM Unit
  | 0, _ => throw .exhausted
  | height + 1, index => do
    setProgress index .failed
    let n ← node index
    match n.parent with
    | .root owner =>
      let s ← get
      let report := Store.reportTree s.nodes s.nodes.size n .failed
      removeTree index
      resolve owner (.failed report)
    | .child above => markFailed height above

/-- Poses an equation (`register_equation`). -/
def poseEquation (e : Equation) : StoreM Nat := do
  let id ← addObligation .equation
  addRoot e ⟨id, .main⟩
  pure id

/-- Poses a cast (`register_cast`). -/
def poseCast (c : Cast) : StoreM Nat := do
  let id ← addObligation (.cast c)
  addRoot ⟨c.sourceType, c.targetType, c.telescope, true⟩ ⟨id, .main⟩
  pure id

/-- Poses an application (`register_function_cast`). -/
def poseApplication (a : Application) : StoreM Nat := do
  let id ← addObligation (.application a)
  addRoot ⟨a.functionType, a.expectedFunctionType, a.telescope, true⟩ ⟨id, .main⟩
  pure id

/-- Adds the root equations of a rule's checks, numbered from `index` on. -/
def addChecks (tele : Telescope) (id : Nat) : Nat → List (Term × Term) → StoreM Unit
  | _, [] => pure ()
  | index, (lhs, rhs) :: rest => do
    addRoot ⟨lhs, rhs, tele, true⟩ ⟨id, .check index⟩
    addChecks tele id (index + 1) rest

/-- Poses a rule (`register_rule`). -/
def poseRule (r : RuleRequest) : StoreM Nat := do
  let id ← addObligation
    (.rule ⟨some r, r.checks.map fun _ => true, true, true, r.checks.length + 1⟩)
  addChecks r.telescope id 0 r.checks
  addRoot ⟨r.patternType, r.replacementType, r.telescope, true⟩ ⟨id, .replacementType⟩
  pure id

/-- Puts an equation that stalled back into the queue. -/
def wake (s : Store) (index : Nat) : Store :=
  match s.nodes.get? index with
  | some n =>
    if n.progress = .stalled then
      { s with nodes := s.nodes.set index { n with progress := .ready }
               ready := s.ready ++ [index] }
    else s
  | none => s

/-- Wakes the stalled equations if rules were installed since they were last woken. -/
def wakeIfRulesChanged : StoreM Unit := do
  let k ← getThe Kernel
  let s ← get
  if k.rules.generation = s.generation then
    pure ()
  else
    if s.stalled.length ≠ 0 then
      KernelM.note (.waking s.stalled.length)
    set (s.stalled.foldl wake { s with generation := k.rules.generation, stalled := [] })

/-- Adds derived equations and answers their numbers. -/
def addChildren (above : Nat) : List Equation → StoreM (List Nat)
  | [] => pure []
  | e :: rest => do
    let index ← addNode e (.child above)
    let others ← addChildren above rest
    pure (index :: others)

/-- Makes one step on an equation. -/
def stepEquation (e : Equation) : StoreM Verdict := do
  let s ← get
  let (verdict, indeterminates) ← (Solver.step e).run s.indeterminates
  set { s with indeterminates }
  pure verdict

/-- Acts on a verdict about an equation (in `process`). -/
def actOn (index : Nat) : Verdict → StoreM Unit
  | .solved => do markSolved (← get).nodes.size index
  | .failed => do markFailed (← get).nodes.size index
  | .stalled => do
    setProgress index .stalled
    modify fun s => { s with stalled := s.stalled ++ [index] }
  | .derived [] => do markSolved (← get).nodes.size index
  | .derived (e :: rest) => do
    setProgress index (.decomposed (rest.length + 1))
    let children ← addChildren index (e :: rest)
    let n ← node index
    modify fun s => { s with nodes := s.nodes.set index { n with children } }

/-- Looks at an equation, if it is still there and ready. -/
def process (index : Nat) : StoreM Unit := do
  match (← get).nodes.get? index with
  | some ⟨e, .ready, _, _⟩ =>
    let verdict ← stepEquation e
    KernelM.note (.stepped index verdict)
    actOn index verdict
  | _ => pure ()

/-- Looks at equations until none is ready and none can have become so, in a bounded number of
steps. -/
def runTo : Nat → StoreM Unit
  | 0 => throw .exhausted
  | bound + 1 => do
    match (← get).ready with
    | index :: rest =>
      modify fun s => { s with ready := rest }
      process index
      wakeIfRulesChanged
      runTo bound
    | [] =>
      wakeIfRulesChanged
      if (← get).ready.isEmpty then pure () else runTo bound

/-- Looks at equations until none is ready and none can have become so. -/
def run : StoreM Unit := do
  runTo (← getThe Kernel).limit

/-- Settles root equations that are still there as undecided (in `close`). -/
def closeRoots : List (Nat × Owner) → StoreM Unit
  | [] => pure ()
  | (index, owner) :: rest => do
    let s ← get
    match s.nodes.get? index with
    | some n =>
      let report := Store.reportTree s.nodes s.nodes.size n .stalled
      removeTree index
      resolve owner (.failed report)
    | none => pure ()
    closeRoots rest

/-- Settles everything that is left as failed and empties the store. -/
def close : StoreM Unit := do
  closeRoots (Store.roots (← get).nodes)
  modify fun s =>
    { s with failed := s.failed + s.obligations.size, nodes := .empty, ready := [], stalled := []
             obligations := .empty, indeterminates := [] }
  KernelM.note (.closed (← get).failed)

/-- Gives the store up (`drop`): it is closed if obligations are left. -/
def abandon : StoreM Unit := do
  if (← get).obligations.isEmpty then pure () else close

end StoreM
end Elaboration
