import Elaboration.Failure

/-!
# The journal

Everything that happens in the kernel is recorded in order: rules, assumptions, definitions,
verdicts, settled obligations and failures. The settled obligations are the answers to clients; all
other events have a level and a message.
-/

namespace Elaboration

/-- Importance of an event. -/
inductive Level where
  | warn
  | debug
  | trace
deriving DecidableEq, Repr

/-- Whether an event of level `l` is shown where events down to `least` are. -/
def Level.shownAt (l least : Level) : Bool :=
  match l, least with
  | warn, _ => true
  | debug, warn => false
  | debug, _ => true
  | trace, trace => true
  | trace, _ => false

/-- The name of a level. -/
def Level.name : Level → String
  | warn => "warn"
  | debug => "debug"
  | trace => "trace"

/-- Which part of an obligation an equation decides. -/
inductive Slot where
  | main
  | argument
  | check (index : Nat)
  | replacementType
deriving DecidableEq, Repr

/-- The written form of a slot. -/
def Slot.written : Slot → String
  | main => "Main"
  | argument => "Argument"
  | check index => "Check(" ++ toString index ++ ")"
  | replacementType => "ReplacementType"

/-- How an equation ended. -/
inductive Outcome where
  | solved
  /-- It failed, or was undecided when the store was closed. -/
  | failed (report : Report)
deriving Repr

/-- Whether the equation was solved. -/
def Outcome.isSolved : Outcome → Bool
  | solved => true
  | failed _ => false

/-- What an obligation answers, by its number. -/
inductive Settlement where
  /-- An equation or a cast ended. -/
  | equation (id : Nat) (outcome : Outcome)
  /-- An application ended; if it failed, `wasFunction` tells that it was for its argument. -/
  | application (id : Nat) (outcome : Outcome) (wasFunction : Bool)
  /-- A side condition of a rule ended. -/
  | condition (id : Nat) (slot : Slot) (outcome : Outcome)
  /-- A rule was installed or refused. -/
  | commitment (id : Nat) (installed : Bool)
deriving Repr

/-- An event of the kernel. -/
inductive Event where
  | ruleInstalled (head captures : Nat)
  | assuming (lhs rhs : Term)
  | cyclicAssumptionDropped (t : Term)
  | contextUnsettled (rounds : Nat)
  | contradiction (lhs rhs : Term)
  | vacuous
  | defining (id : Nat) (value : Term)
  | argumentUnmentionable (pattern : Term) (index : Nat)
  | deepening (depth : Nat)
  | waking (count : Nat)
  | stepped (index : Nat) (verdict : Verdict)
  | settling (id : Nat) (slot : Slot) (solved : Bool)
  | ruleDropped (head : Nat)
  | ruleOvertaken (head : Nat)
  | ruleCommitted (head : Nat)
  | castInstalled (unknown value : Term)
  | closed (failed : Nat)
  | patternMatched (subject destructured : Term)
  | commandStarted (node : NodeId) (depth : Nat)
  | nonFunctionApplied (node : NodeId) (type : Term)
  | evaluated (value type : Term)
  | elaborated (failures pending : Nat)
  | finished (failures : Nat)
  | reported (f : Failure)
  | settled (s : Settlement)
deriving Repr

namespace Event

/-- The message about a contradictory assumption. -/
def contradictionMessage (lhs rhs : Term) : String :=
  "the assumption " ++ lhs.written ++ " ~ " ++ rhs.written ++ " contradicts the context"

/-- Level and message of an event; a settled obligation has none. -/
def entry? : Event → Option (Level × String)
  | ruleInstalled head captures =>
    some (.trace,
      "installing rule for d" ++ toString head ++ " with " ++ toString captures ++ " captures")
  | assuming lhs rhs => some (.trace, "assuming " ++ lhs.written ++ " ~ " ++ rhs.written)
  | cyclicAssumptionDropped t => some (.warn, "dropping cyclic assumption on " ++ t.written)
  | contextUnsettled rounds =>
    some (.warn, "local context did not settle after " ++ toString rounds ++ " rounds")
  | contradiction lhs rhs => some (.debug, contradictionMessage lhs rhs)
  | vacuous => some (.trace, "vacuous equation below inconsistent assumptions")
  | defining id value => some (.debug, "defining d" ++ toString id ++ " := " ++ value.written)
  | argumentUnmentionable pattern index =>
    some (.trace, pattern.written ++ " cannot mention the argument $" ++ toString index)
  | deepening depth => some (.trace, "deepening to depth " ++ toString depth)
  | waking count => some (.trace, "waking " ++ toString count ++ " stalled equations")
  | stepped index verdict =>
    some (.trace, "equation " ++ toString index ++ ": " ++ verdict.written)
  | settling id slot solved =>
    some (.trace, "settling obligation " ++ toString id ++ " (" ++ slot.written ++ "): solved = " ++
      (if solved then "true" else "false"))
  | ruleDropped head => some (.debug, "dropping rule for d" ++ toString head)
  | ruleOvertaken head =>
    some (.debug, "d" ++ toString head ++ " gained a rule before its derivation finished")
  | ruleCommitted head => some (.debug, "committing rule for d" ++ toString head)
  | castInstalled unknown value =>
    some (.debug, "installing cast " ++ unknown.written ++ " := " ++ value.written)
  | closed failed =>
    some (.debug, "manager closed with " ++ toString failed ++ " failed obligations")
  | patternMatched subject destructured =>
    some (.trace, "pattern match " ++ subject.written ++ " ~ " ++ destructured.written)
  | commandStarted node depth =>
    some (.trace, node.written ++ ": running command at depth " ++ toString depth)
  | nonFunctionApplied node type =>
    some (.trace, node.written ++ ": applying a term of type " ++ type.written)
  | evaluated value type =>
    some (.debug, "evaluated program to " ++ value.written ++ " : " ++ type.written)
  | elaborated failures pending =>
    some (.debug, "elaborated program: " ++ toString failures ++ " errors, " ++ toString pending ++
      " equations pending")
  | finished failures =>
    some (.debug, "session finished with " ++ toString failures ++ " errors")
  | reported f => some (.debug, f.message)
  | settled _ => none

/-- The line of an event in a log of a given level. -/
def line? (least : Level) (e : Event) : Option String :=
  match e.entry? with
  | some (level, message) =>
    if level.shownAt least then some (level.name ++ ": " ++ message) else none
  | none => none

/-- The answer in an event. -/
def settlement? : Event → Option Settlement
  | settled s => some s
  | _ => none

end Event
end Elaboration
