import Elaboration.Telescope.Basic
import Elaboration.Term.Printer

/-!
# Equations, verdicts and reports

An equation asks whether two terms are equal below a telescope. One step of the solver answers with
a verdict. The report on an equation that was not solved is a tree: the equation as it was posed
and, below it, the derived equations that are responsible.
-/

namespace Elaboration

/-- The question whether two terms are equal below a telescope. -/
structure Equation where
  lhs : Term
  rhs : Term
  telescope : Telescope
  /-- Whether solving may define indeterminates. -/
  deduce : Bool
deriving DecidableEq, Repr

namespace Equation

/-- An equation between other sides, below the same telescope and in the same mode. -/
def derive (e : Equation) (lhs rhs : Term) : Equation := { e with lhs, rhs }

/-- The document of an equation. -/
def doc (cfg : PrintConfig) (names : Names) (e : Equation) : Doc :=
  .group (e.lhs.doc cfg names ++ .plain " " ++ .text (some .keyword) "=?=" ++
    .nest cfg.indent (.line ++ e.rhs.doc cfg names))

/-- The equation printed without colours. -/
def pretty (cfg : PrintConfig) (names : Names) (e : Equation) : String :=
  (e.doc cfg names).render cfg.width

/-- The written form of an equation's sides and mode. -/
def written (e : Equation) : String :=
  "Equation \x7b lhs: " ++ e.lhs.written ++ ", rhs: " ++ e.rhs.written ++ ", deduce: " ++
    (if e.deduce then "true" else "false") ++ " \x7d"

end Equation

/-- What one step found out about an equation (`Step`). -/
inductive Verdict where
  | solved
  | failed
  /-- Undecided until some indeterminate is defined. -/
  | stalled
  /-- The equation holds if and only if the derived equations do. -/
  | derived (children : List Equation)
deriving DecidableEq, Repr

/-- The written form of a verdict. -/
def Verdict.written : Verdict → String
  | solved => "Solved"
  | failed => "Failed"
  | stalled => "Stalled"
  | derived children => "Derived([" ++ ", ".intercalate (children.map Equation.written) ++ "])"

/-- Why an equation was not solved. -/
inductive Report.Status where
  | failed
  | stalled
deriving DecidableEq, Repr

/-- An equation that was not solved, with the derived equations responsible (`EquationReport`). -/
inductive Report where
  | node (equation : Equation) (status : Report.Status) (causes : List Report)
deriving Repr

/-- A report as text (`EquationTrace`). -/
structure Trace where
  lines : List String
  /-- Whether the equation was left undecided. -/
  stalled : Bool
deriving DecidableEq, Repr

namespace Report

/-- The equation of the root. -/
def equation : Report → Equation
  | node e _ _ => e

/-- The status of the root. -/
def status : Report → Status
  | node _ s _ => s

/-- The reports below the root. -/
def causes : Report → List Report
  | node _ _ cs => cs

/-- Whether the root was left undecided. -/
def isStalled (r : Report) : Bool := r.status = .stalled

/-- Reports are printed on lines of this width. -/
def printConfig : PrintConfig := { width := 10000 }

/-- The word before an equation in a report. -/
def Status.label : Status → String
  | failed => "Failed:"
  | stalled => "Stalled:"

mutual

/-- Number of innermost reports. -/
def leafCount : Report → Nat
  | node _ _ [] => 1
  | node _ _ (c :: cs) => leafCountAll (c :: cs)

/-- Number of innermost reports of a list. -/
def leafCountAll : List Report → Nat
  | [] => 0
  | c :: cs => leafCount c + leafCountAll cs

end

mutual

/-- One line a report, root first, each indented by twice its depth. -/
def treeLines (names : Names) (depth : Nat) : Report → List String
  | node e s cs =>
    (String.ofList (List.replicate (2 * depth) ' ') ++ s.label ++ " " ++ e.pretty printConfig
      names) ::
      treeLinesAll names (depth + 1) cs

/-- The lines of a list of reports. -/
def treeLinesAll (names : Names) (depth : Nat) : List Report → List String
  | [] => []
  | c :: cs => treeLines names depth c ++ treeLinesAll names depth cs

end

/-- The line of an assumption. -/
def assumptionLine (names : Names) (a : Term × Term) : String :=
  "Assuming: " ++ a.1.pretty printConfig names ++ " ~ " ++ a.2.pretty printConfig names

/-- The report as text: the tree, then the assumptions in scope of its root, outermost first. -/
def render (names : Names) (r : Report) : Trace :=
  ⟨treeLines names 0 r ++ r.equation.telescope.assumptions.reverse.map (assumptionLine names),
    r.isStalled⟩

end Report
end Elaboration
