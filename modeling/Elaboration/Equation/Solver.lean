import Elaboration.Rule.Dependency
import Elaboration.Telescope.Scope

/-!
# One step on an equation

The sides are reduced, then the first of these that applies decides:

1. extraction defines an indeterminate applied to distinct arguments as the other side;
2. deepening applies both sides to a new argument where one of them expects more;
3. symmetric explosion takes two sides with closed heads apart into their arguments;
4. asymmetric explosion gives an indeterminate the closed head of the other side, with new
   indeterminates for its arguments;
5. the two sides are compared.

Extraction and asymmetric explosion are tried in both directions, on equations that may define
indeterminates only.
-/

namespace Elaboration

/-- The declarations that may still be defined by solving equations. -/
abbrev Indeterminates := List Nat

/-- Steps on equations, which may define indeterminates and make new ones. -/
abbrev SolverM := StateT Indeterminates KernelM

/-- An indeterminate applied to distinct bound arguments (`Flex`). -/
structure Flexible where
  id : Nat
  /-- The bound arguments, in the order in which it is applied to them. -/
  levels : List Nat
deriving DecidableEq, Repr

namespace Flexible

/-- Reads a term as an indeterminate applied to distinct bound arguments (`flex`). -/
def of? (indeterminates : Indeterminates) (t : Term) : Option Flexible :=
  match t.head, t.args.mapM Term.argIndex? with
  | .decl id, some levels =>
    if id ∈ indeterminates ∧ levels.Nodup then some ⟨id, levels⟩ else none
  | _, _ => none

/-- The position at which the indeterminate is applied to a bound argument, as an argument of its
definition. -/
def slot? (f : Flexible) (level : Nat) : Option Term := (f.levels.idxOf? level).map Term.arg

/-- The bound arguments as terms. -/
def args (f : Flexible) : List Term := f.levels.map Term.arg

end Flexible

namespace Solver

/-- Defines an indeterminate, which is one no longer. -/
def define (f : Flexible) (replacement : Term) : SolverM Unit := do
  KernelM.note (.defining f.id replacement)
  modify fun indeterminates => indeterminates.filter (· ≠ f.id)
  KernelM.addRule (.lambda (.decl f.id) f.levels.length replacement)

/-- Defines the indeterminate in `pattern` as `value`, if the value mentions neither it nor an
argument that it is not applied to (`extract_definition`). -/
def extract (tele : Telescope) (pattern value : Term) : SolverM (Option Verdict) := do
  match Flexible.of? (← get) pattern with
  | none => pure none
  | some f =>
    let value ← tele.eliminate value
    let k ← getThe Kernel
    if k.rules.dependsOn value f.id then
      pure none
    else
      match value.mapArgs? f.slot? with
      | none => pure none
      | some replacement =>
        define f replacement
        pure (some .solved)

/-- Applies both sides to a new argument, of a postulated type, if one of them is the head of a rule
that expects more. -/
def deepen (e : Equation) (lhs rhs : Term) : SolverM (Option Verdict) := do
  let k ← getThe Kernel
  if k.rules.isLambdaLike lhs || k.rules.isLambdaLike rhs then
    let x := Term.arg e.telescope.depth
    let type ← KernelM.freshPostulate
    let deeper ← e.telescope.extend type
    KernelM.note (.deepening deeper.depth)
    pure (some (.derived [⟨.app lhs x, .app rhs x, deeper, e.deduce⟩]))
  else
    pure none

/-- Compares two sides with closed heads argument by argument. -/
def explodeSymmetric (e : Equation) (lhs rhs : Term) : Option Verdict :=
  if lhs.isHeadClosed && rhs.isHeadClosed then
    if lhs.head = rhs.head ∧ lhs.args.length = rhs.args.length then
      if lhs.args.isEmpty then some .solved
      else some (.derived ((lhs.args.zip rhs.args).map fun (x, y) => e.derive x y))
    else
      some .failed
  else
    none

/-- As many new indeterminates as there are terms in the list. -/
def freshIndeterminates : List Term → SolverM (List Term)
  | [] => pure []
  | _ :: rest => do
    let id ← KernelM.freshSymbol
    KernelM.register (.decl id)
    modify fun indeterminates => id :: indeterminates
    let others ← freshIndeterminates rest
    pure (.decl id :: others)

/-- Gives the indeterminate in `pattern` a head and, for each argument of `rigid`, a new
indeterminate over its arguments (in `explode_asymmetric`). -/
def imitate (e : Equation) (pattern rigid head : Term) (f : Flexible) :
    SolverM (Option Verdict) := do
  let k ← getThe Kernel
  if k.rules.dependsOn rigid f.id then
    pure none
  else
    let fresh ← freshIndeterminates rigid.args
    define f (head.apply (fresh.map fun v => v.applyArgs f.levels.length))
    let exposed ← e.telescope.reduce pattern
    if exposed.head = rigid.head then
      pure (some (.derived ((fresh.zip rigid.args).map fun (v, x) => e.derive (v.apply f.args) x)))
    else
      KernelM.violate (.headNotExposed pattern rigid exposed.head rigid.head)

/-- Makes the indeterminate in `pattern` imitate a side with a closed head, unless that is an
argument that it is not applied to. -/
def explodeAsymmetric (e : Equation) (pattern rigid : Term) : SolverM (Option Verdict) := do
  if rigid.isHeadClosed then
    match Flexible.of? (← get) pattern with
    | none => pure none
    | some f =>
      let rigid ← e.telescope.eliminate rigid
      match rigid.head with
      | .arg level =>
        match f.slot? level with
        | some head => imitate e pattern rigid head f
        | none =>
          KernelM.note (.argumentUnmentionable pattern level)
          pure (some .failed)
      | head => imitate e pattern rigid head f
  else
    pure none

/-- The first verdict that one of the attempts reaches. -/
def firstVerdict (otherwise : Verdict) : List (SolverM (Option Verdict)) → SolverM Verdict
  | [] => pure otherwise
  | attempt :: rest => do
    match ← attempt with
    | some verdict => pure verdict
    | none => firstVerdict otherwise rest

/-- One step on an equation. Below contradictory assumptions every equation is solved. -/
def step (e : Equation) : SolverM Verdict := do
  if ← e.telescope.isInconsistent then
    KernelM.note .vacuous
    pure .solved
  else
    let lhs ← e.telescope.reduce e.lhs
    let rhs ← e.telescope.reduce e.rhs
    let whenDeducing := fun attempts : List (SolverM (Option Verdict)) =>
      if e.deduce then attempts else []
    firstVerdict (if lhs = rhs then .solved else .stalled)
      (whenDeducing [extract e.telescope lhs rhs, extract e.telescope rhs lhs] ++
        [deepen e lhs rhs, pure (explodeSymmetric e lhs rhs)] ++
        whenDeducing [explodeAsymmetric e lhs rhs, explodeAsymmetric e rhs lhs])

end Solver
end Elaboration
