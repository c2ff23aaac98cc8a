import Elaboration.Program.Basic

/-!
# Resolved patterns

A pattern in which the locals and values of the session are replaced by the terms that they stand
for.
-/

namespace Elaboration
namespace Pattern

/-- A pattern over terms (`PatternExpr`). -/
inductive Resolved where
  | app (id : NodeId) (fn x : Resolved)
  | term (id : NodeId) (value : Term)
  | capture (id : NodeId) (index : Nat)
  | hole (id : NodeId)
deriving DecidableEq, Repr

/-- A subclause with a resolved pattern. -/
structure ResolvedSubclause where
  id : NodeId
  used : List Nat
  pattern : Resolved
deriving DecidableEq, Repr

namespace Resolved

/-- The number of the instruction. -/
def id : Resolved → NodeId
  | app id _ _ => id
  | term id _ => id
  | capture id _ => id
  | hole id => id

/-- Resolves a pattern, left parts first (`resolve_pattern`). -/
def ofPat {m : Type → Type} [Monad m] (getLocal getEmbed : Nat → m Term) : Pat → m Resolved
  | .app id f x => do
    let f ← ofPat getLocal getEmbed f
    let x ← ofPat getLocal getEmbed x
    pure (app id f x)
  | .var id index => do
    let t ← getLocal index
    pure (term id t)
  | .embed id index => do
    let t ← getEmbed index
    pure (term id t)
  | .capture id index => pure (capture id index)
  | .hole id => pure (hole id)

/-- The term that a pattern demands, its captures replaced by those in a list (`as_expression`). -/
def expression (captures : List Term) : Resolved → Except Failure Term
  | app _ f x => do
    let f ← expression captures f
    let x ← expression captures x
    pure (.app f x)
  | term _ value => pure value
  | capture id index =>
    match captures[index]? with
    | some t => pure t
    | none => throw (.rejected (.captureUnboundInRule index) id)
  | hole id => throw (.rejected .undestructurable id)

/-- The leftmost part of a pattern's spine. -/
def head : Resolved → Resolved
  | app _ f _ => f.head
  | p => p

/-- The arguments of the spine, each with the number of the application that supplies it, put before
`acc`. -/
def argsBefore : Resolved → List (NodeId × Resolved) → List (NodeId × Resolved)
  | app id f x, acc => f.argsBefore ((id, x) :: acc)
  | _, acc => acc

/-- The arguments of the spine, each with the number of the application that supplies it. -/
def args (p : Resolved) : List (NodeId × Resolved) := p.argsBefore []

end Resolved
end Pattern
end Elaboration
