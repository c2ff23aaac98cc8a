import Elaboration.Term.Basic

/-!
# Telescopes

A telescope lists the bound arguments with their types, each over the arguments before it, and the
assumed equations. It carries two terms that encode types over it, the type `family` of type
families and the map `pi` from a family to the type of its dependent functions, and the number of
the context that keeps its assumptions, which telescopes that differ in arguments only share.
-/

namespace Elaboration

/-- One entry of a telescope. -/
inductive Telescope.Entry where
  | bound (type : Term)
  | assumed (lhs rhs : Term)
deriving DecidableEq, Repr

/-- What is in scope of a term (`Stack`). -/
structure Telescope where
  /-- Innermost entry first. -/
  entries : List Telescope.Entry
  /-- The type of type families over the telescope. -/
  family : Term
  /-- Maps a type family over the telescope to the type of its dependent functions. -/
  pi : Term
  /-- The local equality context of the assumptions. -/
  context : Nat
deriving DecidableEq, Repr

namespace Telescope

/-- Types of the bound arguments, innermost first. -/
def boundTypes (tele : Telescope) : List Term :=
  tele.entries.filterMap fun
    | .bound type => some type
    | .assumed _ _ => none

/-- Number of bound arguments. -/
def depth (tele : Telescope) : Nat := tele.boundTypes.length

/-- The assumptions in scope, innermost first. -/
def assumptions (tele : Telescope) : List (Term × Term) :=
  tele.entries.filterMap fun
    | .bound _ => none
    | .assumed lhs rhs => some (lhs, rhs)

/-- The type of a bound argument. -/
def typeOfArg? (tele : Telescope) (index : Nat) : Option Term := tele.boundTypes.reverse[index]?

/-- `t` applied to every bound argument. -/
def applyArgs (tele : Telescope) (t : Term) : Term := t.applyArgs tele.depth

/-- The written form of a telescope: its depth and its assumptions. -/
def written (tele : Telescope) : String :=
  "Stack \x7b depth: " ++ toString tele.depth ++ ", assumptions: [" ++
    ", ".intercalate (tele.assumptions.map fun a =>
      "(" ++ a.1.written ++ ", " ++ a.2.written ++ ")") ++ "] \x7d"

end Telescope
end Elaboration
