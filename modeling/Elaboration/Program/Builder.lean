import Elaboration.Program.Basic

/-!
# Building programs

Instructions are numbered in the order in which they are built, each after its parts.
-/

namespace Elaboration

/-- Building instructions: the state is the next number. -/
abbrev Builder := StateM NodeId

namespace Builder

/-- The next number. -/
def fresh : Builder NodeId := fun n => (n, n + 1)

/-- Application of an expression. -/
def app (f x : Expr) : Builder Expr := do return .app (← fresh) f x

/-- A local. -/
def var (index : Nat) : Builder Expr := do return .var (← fresh) index

/-- A value of the session. -/
def embed (index : Nat) : Builder Expr := do return .embed (← fresh) index

/-- The type of types. -/
def type : Builder Expr := do return .type (← fresh)

/-- The former of function types. -/
def arrow : Builder Expr := do return .arrow (← fresh)

/-- The type of families over a type. -/
def typeFamily (base : Expr) : Builder Expr := do return .typeFamily (← fresh) base

/-- Application of a pattern. -/
def patApp (f x : Pat) : Builder Pat := do return .app (← fresh) f x

/-- A local in a pattern. -/
def patVar (index : Nat) : Builder Pat := do return .var (← fresh) index

/-- A value of the session in a pattern. -/
def patEmbed (index : Nat) : Builder Pat := do return .embed (← fresh) index

/-- A capture. -/
def capture (index : Nat) : Builder Pat := do return .capture (← fresh) index

/-- A part of a pattern that matches anything. -/
def patHole : Builder Pat := do return .hole (← fresh)

/-- A subclause. -/
def subclause (used : List Nat) (matched : Expr) (pattern : Pat) : Builder Subclause := do
  return ⟨← fresh, used, matched, pattern⟩

/-- A hole. -/
def hole (type : Expr) : Builder Command := do return .hole (← fresh) type

/-- A declaration. -/
def declare (type : Expr) : Builder Command := do return .declare (← fresh) type

/-- A postulate. -/
def postulate (type : Expr) : Builder Command := do return .postulate (← fresh) type

/-- A definition. -/
def define (value : Expr) (type : Option Expr) : Builder Command := do
  return .define (← fresh) value type

/-- A rule. -/
def rule (pattern : Pat) (subclauses : List Subclause) (captures : Nat)
    (commands : List Command) (replacement : Expr) : Builder Command := do
  return .rule (← fresh) pattern subclauses captures commands replacement

/-- A requirement. -/
def check (value : Expr) (type equals : Option Expr) (deduce : Bool) : Builder Command := do
  return .check (← fresh) value type equals deduce

/-- Commands below a bound argument. -/
def forAll (type : Expr) (commands : List Command) : Builder Command := do
  return .forAll (← fresh) type commands

/-- Builds from the number 0 on. -/
def build {α : Type} (b : Builder α) : α := (b.run 0).1

end Builder
end Elaboration
