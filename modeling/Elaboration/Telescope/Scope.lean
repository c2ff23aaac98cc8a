import Elaboration.Kernel.Basic

/-!
# Working below a telescope

Binding an argument adds five declarations, so that types over the longer telescope unfold into
types over the shorter one. With `F` the type of the new argument, over `$0 .. $(d - 1)`:

* `ext $0 .. $(d - 1) := F`;
* `icf $0 .. $d := Type`;
* `fam_over $0 .. $(d - 1) := arrow F (icf $0 .. $(d - 1))`;
* `fib $0 $1 .. $d := arrow (ext $1 .. $d) ($0 $1 .. $d)`;
* `var $0 := pi (fib $0)`, where `pi` is that of the shorter telescope.

The family type of the longer telescope is `pi fam_over` and its `pi` is `var`.
-/

namespace Elaboration
namespace Telescope

/-- The empty telescope, with an equality context of its own (`empty`). -/
def root : KernelM Telescope := do
  let c ← KernelM.freshContext .empty
  pure ⟨[], Primitive.type, .app Primitive.identity Primitive.type, c⟩

/-- A new declaration named after its role and the depth. -/
def declareNamed (stem : String) (depth : Nat) (d : Term) : KernelM Unit :=
  KernelM.setName d (stem ++ toString depth)

/-- Binds an argument of a type over the arguments bound so far. -/
@[irreducible] def extend (tele : Telescope) (type : Term) : KernelM Telescope := do
  let depth := tele.depth
  let ext ← KernelM.declare
  let innerConstant ← KernelM.declare
  let familyOver ← KernelM.declare
  let fibration ← KernelM.declare
  let pi ← KernelM.declare
  declareNamed "ext" depth ext
  declareNamed "icf" depth innerConstant
  declareNamed "fam_over" depth familyOver
  declareNamed "fib" depth fibration
  declareNamed "var" depth pi
  let shifted := (List.range depth).map fun i => Term.arg (i + 1)
  KernelM.addRule (.lambda ext depth type)
  KernelM.addRule (.lambda innerConstant (depth + 1) Primitive.type)
  KernelM.addRule
    (.lambda familyOver depth (Primitive.arrowOf type (innerConstant.applyArgs depth)))
  KernelM.addRule
    (.lambda fibration (depth + 1)
      (Primitive.arrowOf (ext.apply shifted) ((Term.arg 0).apply shifted)))
  KernelM.addRule (.lambda pi 1 (.app tele.pi (.app fibration (.arg 0))))
  pure ⟨.bound type :: tele.entries, .app tele.pi familyOver, pi, tele.context⟩

/-- Assumes an equation, in an equality context of its own (`extend_by_assumption`). A contradictory
assumption is kept: everything holds below it. -/
def assume (tele : Telescope) (lhs rhs : Term) : KernelM Telescope := do
  let q ← KernelM.context tele.context
  let c ← KernelM.freshContext q
  match ← KernelM.changeContext c fun env => Equalities.assume env lhs rhs with
  | .error e => KernelM.note (.contradiction e.lhs e.rhs)
  | .ok () => pure ()
  pure { tele with entries := .assumed lhs rhs :: tele.entries, context := c }

/-- The closed type of functions over the telescope into the type `e` over its arguments, by a new
declaration `v $0 .. $(d - 1) := e` (`instance_of_type_family`). -/
def instanceOf (tele : Telescope) (e : Term) : KernelM Term := do
  let v ← KernelM.declare
  KernelM.addRule (.lambda v tele.depth e)
  KernelM.setType v tele.family
  pure (.app tele.pi v)

/-- Whether the assumptions are known to contradict each other. -/
def isInconsistent (tele : Telescope) : KernelM Bool := do
  let q ← KernelM.context tele.context
  pure q.inconsistent

/-- The normal form of a term under the installed rules and the assumptions, which are brought up to
date with the rules first. -/
def reduce (tele : Telescope) (t : Term) : KernelM Term := do
  let q ← KernelM.context tele.context
  let k ← get
  if q.hasClasses && q.generation != k.rules.generation then
    KernelM.changeContext tele.context Equalities.canonicalize
  KernelM.changeContext tele.context fun env => Equalities.normalize env t

/-- Replaces the placeholders that reduction introduced (`eliminate_conglomerates`). None may be
left. -/
def eliminate (tele : Telescope) (t : Term) : KernelM Term := do
  let q ← KernelM.context tele.context
  let u := q.eliminate t
  if u.hasPlaceholder then KernelM.violate (.placeholderLeaked t) else pure u

/-- The normal form of a term without placeholders. -/
def reduceClean (tele : Telescope) (t : Term) : KernelM Term := do
  let u ← tele.reduce t
  tele.eliminate u

/-- The type of a function of a given type applied to arguments. -/
def typeOfApplied (tele : Telescope) : Term → List Term → KernelM (Option Term)
  | type, [] => pure (some type)
  | type, x :: args => do
    let reduced ← tele.reduceClean type
    match Primitive.asArrow? reduced with
    | some (_, codomain) => tele.typeOfApplied (.app codomain x) args
    | none => pure none

/-- The type of a term, read off the type of its head and the function types that it is applied
through. -/
def typeOf (tele : Telescope) (t : Term) : KernelM (Option Term) := do
  let k ← get
  let headType :=
    match t.head with
    | .arg i => tele.typeOfArg? i
    | head => k.typeOfSymbol? head
  match headType with
  | some type => tele.typeOfApplied type t.args
  | none => pure none

/-- Domain and codomain of a term, if its type is a function type. -/
def functionParts (tele : Telescope) (t : Term) : KernelM (Option (Term × Term)) := do
  match ← tele.typeOf t with
  | some type =>
    let reduced ← tele.reduceClean type
    pure (Primitive.asArrow? reduced)
  | none => pure none

end Telescope
end Elaboration
