import Elaboration.Failure

/-!
# Programs

The instructions that are elaborated. Names are resolved: locals are referred to by their position
among the locals in scope, values of the session by their number. Every instruction has a number, by
which failures refer to it.
-/

namespace Elaboration

/-- Expressions. -/
inductive Expr where
  | app (id : NodeId) (fn x : Expr)
  | var (id : NodeId) (index : Nat)
  /-- A value that the session provides. -/
  | embed (id : NodeId) (index : Nat)
  | type (id : NodeId)
  | arrow (id : NodeId)
  /-- The type of families over a type. -/
  | typeFamily (id : NodeId) (base : Expr)
deriving DecidableEq, Repr

/-- Patterns, as on the left of a rule. -/
inductive Pat where
  | app (id : NodeId) (fn x : Pat)
  | var (id : NodeId) (index : Nat)
  | embed (id : NodeId) (index : Nat)
  | capture (id : NodeId) (index : Nat)
  | hole (id : NodeId)
deriving DecidableEq, Repr

/-- A further condition of a rule: the value of `matched`, which sees the captures in `used` as its
last locals, must match `pattern`. -/
structure Subclause where
  id : NodeId
  used : List Nat
  matched : Expr
  pattern : Pat
deriving DecidableEq, Repr

/-- Commands. -/
inductive Command where
  /-- A value to be found by solving equations. -/
  | hole (id : NodeId) (type : Expr)
  /-- A symbol that may be given a rule. -/
  | declare (id : NodeId) (type : Expr)
  /-- A symbol that never reduces. -/
  | postulate (id : NodeId) (type : Expr)
  | define (id : NodeId) (value : Expr) (type : Option Expr)
  /-- A rule for a declared symbol. Its commands and replacement see the captures as their last
  locals. -/
  | rule (id : NodeId) (pattern : Pat) (subclauses : List Subclause) (captures : Nat)
      (commands : List Command) (replacement : Expr)
  /-- Requires that a value has a type and is equal to another. -/
  | check (id : NodeId) (value : Expr) (type : Option Expr) (equals : Option Expr) (deduce : Bool)
  /-- Commands below a bound argument. -/
  | forAll (id : NodeId) (type : Expr) (commands : List Command)
deriving Repr

/-- The number of a command. -/
def Command.id : Command → NodeId
  | hole id _ => id
  | declare id _ => id
  | postulate id _ => id
  | define id _ _ => id
  | rule id _ _ _ _ _ => id
  | check id _ _ _ _ => id
  | forAll id _ _ => id

/-- A program: commands, then the value that it stands for. -/
structure Program where
  commands : List Command
  value : Expr
deriving Repr

end Elaboration
