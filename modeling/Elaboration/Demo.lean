import Elaboration.Program.Builder
import Elaboration.Session.Evaluator

/-!
# Bundled programs

Every demo starts from a fresh session in which `nat : Type` is the value 0.
-/

namespace Elaboration

/-- A bundled program. -/
structure Demo where
  name : String
  description : String
  /-- Prepares a session and gives the program, from the term for `nat`. -/
  program : Term → SessionM Program

/-- What elaborating a demo gives. -/
structure Demo.Result where
  nat : Term
  value : TypedTerm
  /-- The normal forms of the value and of its type. -/
  reduced : TypedTerm
  /-- Whether everything was solved before undecided equations were given up. -/
  solved : Bool
  failures : List Failure
  names : Names

namespace Demo

/-- The value of a program, after its commands. -/
def programOf (commands : List (Builder Command)) (value : Builder Expr) : Program :=
  Builder.build do
    let commands ← commands.mapM fun c => c
    let value ← value
    return ⟨commands, value⟩

private def postulateProgram (_nat : Term) : SessionM Program :=
  pure (programOf [] (Builder.embed 0))

private def arrowProgram (_nat : Term) : SessionM Program :=
  pure (programOf [] do Builder.app (← Builder.arrow) (← Builder.embed 0))

private def declarationProgram (_nat : Term) : SessionM Program :=
  pure (programOf [do Builder.declare (← Builder.embed 0)] (Builder.var 0))

private def holeProgram (nat : Term) : SessionM Program := do
  let (zero, _) ← SessionM.declarePostulate "zero" nat
  let nonneg ← KernelM.freshPostulate
  KernelM.setType nonneg (Primitive.typeFamilyOf nat)
  KernelM.setName nonneg "Nonneg"
  let codomain ← KernelM.declare
  KernelM.addRule (.lambda codomain 1 (Primitive.functionType (.app nonneg (.arg 0)) nat))
  let (_, f) ← SessionM.declarePostulate "f" (Primitive.arrowOf nat codomain)
  let (_, x) ← SessionM.declarePostulate "x" (.app nonneg zero)
  pure (programOf [do Builder.hole (← Builder.embed 0)] do
    let applied ← Builder.app (← Builder.embed f) (← Builder.var 0)
    Builder.app applied (← Builder.embed x))

private def notAFunctionProgram (_nat : Term) : SessionM Program :=
  pure (programOf [] do Builder.app (← Builder.embed 0) (← Builder.embed 0))

private def predProgram (nat : Term) : SessionM Program := do
  let (_, zeroIndex) ← SessionM.declarePostulate "zero" nat
  let endoType := Primitive.functionType nat nat
  let (_, succ) ← SessionM.declarePostulate "succ" endoType
  let endo ← SessionM.embed ⟨endoType, Primitive.type⟩
  pure (Builder.build do
    let head ← Builder.patVar 0
    let argument ← Builder.patApp (← Builder.patEmbed succ) (← Builder.capture 0)
    let pattern ← Builder.patApp head argument
    let declaration ← Builder.declare (← Builder.embed endo)
    let rule ← Builder.rule pattern [] 1 [] (← Builder.var 1)
    let pred ← Builder.var 0
    let one ← Builder.app (← Builder.embed succ) (← Builder.embed zeroIndex)
    return ⟨[declaration, rule], ← Builder.app pred one⟩)

/-- All demos. -/
def all : List Demo :=
  [⟨"axiom", "an embedded axiom elaborates to itself", postulateProgram⟩,
   ⟨"arrow", "the arrow primitive applied to a type", arrowProgram⟩,
   ⟨"declaration", "a declaration of type nat", declarationProgram⟩,
   ⟨"hole", "a hole deduced from a dependent argument", holeProgram⟩,
   ⟨"not-a-function", "applying nat to itself fails", notAFunctionProgram⟩,
   ⟨"pred", "defining pred by the rule pred (succ n) = n", predProgram⟩]

/-- The demo of a given name. -/
def find? (name : String) : Option Demo := all.find? fun d => d.name = name

/-- Elaborates a demo and gives up what is undecided. -/
def elaborate (d : Demo) : SessionM Result := do
  let (nat, _) ← SessionM.declarePostulate "nat" Primitive.type
  let program ← d.program nat
  let value ← SessionM.elaborate program
  let solved := (← get).isSolved
  let failures ← SessionM.finish
  let reducedValue ← KernelM.reduce value.value
  let reducedType ← KernelM.reduce value.type
  let k ← getThe Kernel
  pure ⟨nat, value, ⟨reducedValue, reducedType⟩, solved, failures, k.names⟩

/-- The result of a demo from a fresh kernel; none if the kernel's rules were violated. -/
def result? (d : Demo) : Option Result :=
  match d.elaborate (Session.initial Kernel.initial) Kernel.initial with
  | .ok (r, _) _ => some r
  | .error _ _ => none

end Demo
end Elaboration
