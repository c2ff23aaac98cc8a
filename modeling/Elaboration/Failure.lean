import Elaboration.Equation.Basic

/-!
# Failures of an elaboration

A failure names the instruction that it is about. It comes from an equation that was not solved,
and then carries the rendered report, or from the shape of a rule's pattern.
-/

namespace Elaboration

/-- The number of an instruction. -/
abbrev NodeId := Nat

/-- The written form of an instruction's number. -/
def NodeId.written (n : NodeId) : String := "#" ++ toString n

/-- What an equation was needed for. -/
inductive Failure.Purpose where
  | functionApplied
  | argumentType
  | typeFamilyType
  | holeType
  | declarationType
  | postulateType
  | letType
  | letValue
  | forAllType
  | requirementType
  | requirementValueType
  | typeRequirement
  | valueRequirement
  | replacementType
  | patternCheck
deriving DecidableEq, Repr

/-- What is wrong with a rule. -/
inductive Failure.Shape where
  | unmatchableSubclause
  | captureUnboundInSubclause (capture : Nat)
  | captureUnboundInRule (capture : Nat)
  | badApplicationInPattern
  | badApplicationInSubclause
  | captureRequestedTwice (capture : Nat)
  | undestructurable
  | invalidRuleHead
deriving DecidableEq, Repr

/-- A failure of an elaboration (`ElabError`). -/
inductive Failure where
  /-- An equation needed for some purpose was not solved. -/
  | unsolved (purpose : Failure.Purpose) (node : NodeId) (trace : Trace)
  /-- A rule was rejected. -/
  | rejected (shape : Failure.Shape) (node : NodeId)
deriving DecidableEq, Repr

namespace Failure

/-- The sentence that describes an equation's purpose. -/
def Purpose.sentence : Purpose → String
  | functionApplied => "the applied term is not a function"
  | argumentType => "the argument does not have the domain type of the function"
  | typeFamilyType => "type families can only be formed over types"
  | holeType => "the type of a hole must be a type"
  | declarationType => "the type of a declaration must be a type"
  | postulateType => "the type of an axiom must be a type"
  | letType => "the annotation of a let must be a type"
  | letValue => "the value of a let does not have the annotated type"
  | forAllType => "the bound of a for-all must be a type"
  | requirementType => "the required type is not a type"
  | requirementValueType => "the expected value does not have the required type"
  | typeRequirement => "the value does not have the required type"
  | valueRequirement => "the value is not equal to the expected value"
  | replacementType => "the replacement does not have the type of the pattern"
  | patternCheck => "a value matched by the pattern is not equal to what the pattern demands"

/-- The sentence that describes what is wrong with a rule. -/
def Shape.sentence : Shape → String
  | unmatchableSubclause => "subclause patterns must be headed by an axiom"
  | captureUnboundInSubclause capture =>
    "the subclause uses capture " ++ toString capture ++ ", which is not bound before it"
  | captureUnboundInRule capture =>
    "capture " ++ toString capture ++ " is never bound by the pattern"
  | badApplicationInPattern =>
    "a pattern must apply a declaration to the arguments in scope, then to others"
  | badApplicationInSubclause =>
    "the matched axiom is applied to more arguments than its type allows"
  | captureRequestedTwice capture =>
    "capture " ++ toString capture ++ " is requested twice by the subclause"
  | undestructurable => "this part of the pattern can neither be destructured nor checked"
  | invalidRuleHead =>
    "rules can only be given for declarations that are neither holes nor defined"

/-- The code of an equation's purpose. -/
def Purpose.code : Purpose → String
  | functionApplied => "E-001"
  | argumentType => "E-002"
  | typeFamilyType => "E-003"
  | holeType => "E-004"
  | declarationType => "E-005"
  | postulateType => "E-006"
  | letType => "E-007"
  | letValue => "E-008"
  | forAllType => "E-009"
  | requirementType => "E-010"
  | requirementValueType => "E-011"
  | typeRequirement => "E-012"
  | valueRequirement => "E-013"
  | replacementType => "E-021"
  | patternCheck => "E-022"

/-- The code of what is wrong with a rule. -/
def Shape.code : Shape → String
  | unmatchableSubclause => "E-014"
  | captureUnboundInSubclause _ => "E-015"
  | captureUnboundInRule _ => "E-016"
  | badApplicationInPattern => "E-017"
  | badApplicationInSubclause => "E-018"
  | captureRequestedTwice _ => "E-019"
  | undestructurable => "E-020"
  | invalidRuleHead => "E-023"

/-- The instruction that the failure is about. -/
def node : Failure → NodeId
  | unsolved _ n _ => n
  | rejected _ n => n

/-- The rendered report of the equation behind the failure. -/
def trace? : Failure → Option Trace
  | unsolved _ _ t => some t
  | rejected _ _ => none

/-- The message of the failure. -/
def message (f : Failure) : String :=
  f.node.written ++ ": " ++
    match f with
    | unsolved p _ _ => p.sentence
    | rejected s _ => s.sentence

/-- The code of the failure. -/
def code : Failure → String
  | unsolved p _ _ => p.code
  | rejected s _ => s.code

/-- Further help: the report of the equation, or advice on the pattern. -/
def help? : Failure → Option String
  | unsolved _ _ t => some ("\n".intercalate t.lines)
  | rejected .undestructurable _ => some "Holes and captures cannot be applied to arguments"
  | rejected _ _ => none

/-- Whether the failure only stems from an equation left undecided. -/
def isSoft (f : Failure) : Bool :=
  match f.trace? with
  | some t => t.stalled
  | none => false

end Failure
end Elaboration
