import Elaboration.Rule.Basic

/-!
# Dependency on a declaration

A term depends on a declaration if it mentions it, directly or through the rules of declarations
that it mentions. The search follows each rule at most once, so it ends on any table, cycles
included.
-/

namespace Elaboration
namespace RuleTable

/-- What the rule of a declaration leads to: the declarations that it mentions, the last one first.
-/
def successors (rules : Table Rule) (id : Nat) : List Nat :=
  match rules.get? id with
  | some r => r.decls.reverse
  | none => []

/-- Depth-first search for `target`. Those in `work`, maybe more than once, are still to be looked
at, the rules of those in `visited` were followed. `none` if there is more to look at than `bound`.
-/
def search (rules : Table Rule) (target : Nat) : Nat → List Nat → List Nat → Option Bool
  | _, _, [] => some false
  | 0, _, _ :: _ => none
  | bound + 1, visited, id :: work =>
    if id = target then some true
    else if id ∈ visited then search rules target bound visited work
    else search rules target bound (id :: visited) (successors rules id ++ work)

/-- No search looks at more declarations than the term and all rules mention. -/
def searchBound (rules : Table Rule) (work : List Nat) : Nat :=
  rules.entries.foldr (fun e n => e.2.decls.length + n) work.length

/-- Whether the term mentions the declaration, directly or through installed rules
(`term_depends_on`). -/
def dependsOn (R : RuleTable) (t : Term) (target : Nat) : Bool :=
  (search R.rules target (searchBound R.rules t.decls) [] t.decls.reverse).getD false

end RuleTable
end Elaboration
