import Elaboration.Table
import Elaboration.Term.Basic

/-!
# Reduction rules

A rule turns its head, applied to enough arguments, into a replacement. Its pattern is a match
program: a list of steps that capture arguments one after another, in the order in which the
replacement numbers them.
-/

namespace Elaboration

/-- One instruction of a match program (`PatternStep`). -/
inductive Rule.Step where
  /-- Capture the next argument of the head. -/
  | pull
  /-- Normalise `subject`, instantiated with the captures so far; it must be `head` applied to
  exactly `count` arguments, which are captured. -/
  | destructure (subject head : Term) (count : Nat)
deriving DecidableEq, Repr

/-- Number of values that a step captures. -/
def Rule.Step.captures : Rule.Step → Nat
  | .pull => 1
  | .destructure _ _ count => count

/-- The term that a step normalises. -/
def Rule.Step.subject? : Rule.Step → Option Term
  | .pull => none
  | .destructure subject _ _ => some subject

/-- A reduction rule. The arguments of `replacement` refer to the captures in order. -/
structure Rule where
  head : Term
  /-- Number of arguments of the head that the pattern consumes. -/
  arity : Nat
  steps : List Rule.Step
  replacement : Term
deriving DecidableEq, Repr

namespace Rule

/-- The rule `head $0 ... $(arity - 1) := replacement`, capturing every argument. -/
def lambda (head : Term) (arity : Nat) (replacement : Term) : Rule :=
  ⟨head, arity, List.replicate arity .pull, replacement⟩

/-- Number of values that the whole pattern captures. -/
def captureCount (r : Rule) : Nat := r.steps.foldr (fun s n => s.captures + n) 0

/-- The terms that the rule mentions: the match subjects in order, then the replacement. -/
def terms (r : Rule) : List Term := r.steps.filterMap Step.subject? ++ [r.replacement]

/-- The declarations that the rule mentions. -/
def decls (r : Rule) : List Nat := r.terms.flatMap Term.decls

end Rule

/-- The installed rules (`RuleCollector`). A rule can be installed for a registered declaration
only, and a declaration owns at most one. -/
structure RuleTable where
  registered : List Nat := []
  rules : Table Rule := .empty
  /-- Number of rules installed so far. -/
  generation : Nat := 0
deriving Repr

namespace RuleTable

/-- The rule of a declaration. -/
def ruleFor? (R : RuleTable) (id : Nat) : Option Rule := R.rules.get? id

/-- Whether a declaration owns a rule. -/
def hasRule (R : RuleTable) (id : Nat) : Bool := (R.ruleFor? id).isSome

/-- Allows rules for a declaration (`register_declaration`). -/
def register (R : RuleTable) (id : Nat) : RuleTable :=
  if id ∈ R.registered then R else { R with registered := id :: R.registered }

/-- Gives `id` the rule `r` (`add_rule`). -/
def install (R : RuleTable) (id : Nat) (r : Rule) : RuleTable :=
  { R with rules := R.rules.set id r, generation := R.generation + 1 }

/-- Whether the term is the head of a rule applied to fewer arguments than the rule consumes. -/
def isLambdaLike (R : RuleTable) (t : Term) : Bool :=
  match t.head.declId? with
  | none => false
  | some id =>
    match R.ruleFor? id with
    | none => false
    | some r => t.args.length < r.arity

/-- Registering a declaration changes no rule. -/
@[simp] theorem ruleFor?_register (R : RuleTable) (id j : Nat) :
    (R.register id).ruleFor? j = R.ruleFor? j := by
  unfold register
  split <;> rfl

/-- Installing a rule changes the rule of its own head only. -/
theorem ruleFor?_install (R : RuleTable) (id j : Nat) (r : Rule) :
    (R.install id r).ruleFor? j = if id = j then some r else R.ruleFor? j :=
  Table.get?_set _ _ _ _

end RuleTable
end Elaboration
