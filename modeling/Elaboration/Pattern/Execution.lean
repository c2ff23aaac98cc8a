import Elaboration.Pattern.Flat
import Elaboration.Telescope.Scope

/-!
# Typing a flat pattern

The shards are run below a telescope: every value that a shard produces becomes a bound argument of
the type that the head demands, and every match is assumed. This gives the match program of the
rule and the telescope in which its replacement is elaborated.
-/

namespace Elaboration
namespace Pattern

/-- A typed pattern (`PatternExecution`). -/
structure Execution where
  head : Term
  arity : Nat
  steps : List Rule.Step
  /-- The type of the head applied to all arguments that the pattern consumes. -/
  type : Term
  /-- For every capture, the bound argument that stands for it. -/
  captures : List Term
  /-- Equations that must hold, each with the instruction that demands it. -/
  checks : List (NodeId × Term × Term)
  /-- Binds every value and assumes every match. -/
  telescope : Telescope
deriving Repr

/-- Binds the next argument of a function and applies the function to it. -/
def pullArgument (tele : Telescope) (function : Term) : KernelM (Option (Telescope × Term)) := do
  match ← tele.functionParts function with
  | none => pure none
  | some (domain, _) =>
    let extended ← tele.extend domain
    pure (some (extended, .app function (.arg tele.depth)))

/-- Binds a number of arguments of a function and applies the function to them. -/
def pullArguments : Nat → Telescope → Term → KernelM (Option (Telescope × Term))
  | 0, tele, function => pure (some (tele, function))
  | count + 1, tele, function => do
    match ← pullArgument tele function with
    | none => pure none
    | some (tele, function) => pullArguments count tele function

/-- How far the shards have been run. -/
structure Partial where
  telescope : Telescope
  /-- The head of the rule applied to the arguments pulled so far. -/
  applied : Term
  steps : List Rule.Step
deriving Repr

variable {m : Type → Type} [Monad m] [MonadLiftT KernelM m]

/-- Runs shards. `subclauseValue` evaluates the expression of a subclause below a telescope, from
the captures requested. -/
def runShards (id : NodeId) (subclauseValue : Nat → Telescope → List Term → m Term) :
    Partial → List Shard → m (Except Failure Partial)
  | p, [] => pure (.ok p)
  | p, .pull :: rest => do
    match ← (pullArgument p.telescope p.applied : KernelM _) with
    | none => pure (.error (.rejected .badApplicationInPattern id))
    | some (tele, applied) =>
      runShards id subclauseValue ⟨tele, applied, p.steps ++ [.pull]⟩ rest
  | p, .destructure shardId subject head count :: rest => do
    let value ←
      match subject with
      | .value position => pure (Term.arg position)
      | .subclause index requested => subclauseValue index p.telescope requested
    match ← (pullArguments count p.telescope head : KernelM _) with
    | none => pure (.error (.rejected .badApplicationInSubclause shardId))
    | some (tele, destructured) =>
      (KernelM.note (.patternMatched value destructured) : KernelM Unit)
      let tele ← (tele.assume value destructured : KernelM Telescope)
      runShards id subclauseValue ⟨tele, p.applied, p.steps ++ [.destructure value head count]⟩ rest

/-- The equation that a check demands. -/
def FlatCheck.equation (captures : List Term) (c : FlatCheck) :
    Except Failure (NodeId × Term × Term) := do
  let expected ← c.expected.expression captures
  pure (c.id, .arg c.position, expected)

/-- Types a flat pattern below a telescope, which must bind the arguments in scope of the pattern
and no others (`execute_pattern`). -/
def execute (tele : Telescope) (flat : Flat)
    (subclauseValue : Nat → Telescope → List Term → m Term) : m (Except Failure Execution) := do
  if tele.depth ≠ flat.inScope then
    pure (.error (.rejected .badApplicationInPattern flat.id))
  else
    let start : Partial :=
      ⟨tele, flat.head.applyArgs flat.inScope, List.replicate flat.inScope .pull⟩
    match ← runShards flat.id subclauseValue start flat.shards with
    | .error e => pure (.error e)
    | .ok p =>
      match ← (p.telescope.typeOf p.applied : KernelM _) with
      | none => pure (.error (.rejected .badApplicationInPattern flat.id))
      | some type =>
        match flat.checks.mapM (FlatCheck.equation flat.captures) with
        | .error e => pure (.error e)
        | .ok checks =>
          pure (.ok ⟨flat.head, flat.arity, p.steps, type, flat.captures, checks, p.telescope⟩)

end Pattern
end Elaboration
