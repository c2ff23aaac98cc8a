import Elaboration.Rule.Basic

/-!
# Reduction

Normal forms by a rule table and, optionally, a local replacement of normal terms. One pass over a
term is written once, for any monad and continuations; plain and memoising reduction are its two
instances. Reduction need not end, so it is indexed by a depth, which may not suffice.
-/

namespace Elaboration

/-- Replaces terms that are normal with respect to the rule table (`ReductionHook`). -/
abbrev Replacer := Term → Option Term

/-- Replaces nothing. -/
def Replacer.none : Replacer := fun _ => Option.none

/-- The replacement of a term, if there is one and it differs from the term. -/
def Replacer.change? (h : Replacer) (t : Term) : Option Term :=
  match h t with
  | some u => if u = t then Option.none else some u
  | Option.none => Option.none

namespace Reduction

/-- How far a term is reduced. -/
inductive Mode where
  /-- Until no rule applies at the head. -/
  | weak
  /-- Head and arguments, without offering the result itself for replacement. -/
  | spine
  /-- To normal form. -/
  | full
deriving DecidableEq, Repr

variable {m : Type → Type} [Monad m]

/-- Runs a match program on the arguments of a head: the captures and the arguments left over, or
`none` if a step does not match. -/
def runSteps (normalize : Term → m Term) :
    List Rule.Step → List Term → List Term → m (Option (List Term × List Term))
  | [], captures, args => pure (some (captures, args))
  | .pull :: _, _, [] => pure none
  | .pull :: steps, captures, x :: args => runSteps normalize steps (captures ++ [x]) args
  | .destructure subject head count :: steps, captures, args => do
    let value ← normalize (subject.subst captures)
    if value.head = head ∧ value.args.length = count then
      runSteps normalize steps (captures ++ value.args) args
    else
      pure none

/-- Applies a rule to the arguments of its head (`try_rule`). -/
def fire (normalize : Term → m Term) (r : Rule) (args : List Term) : m (Option Term) := do
  match ← runSteps normalize r.steps [] args with
  | some (captures, rest) => pure (some ((r.replacement.subst captures).apply rest))
  | none => pure none

/-- Replaces the head of a term once, if it is a declaration whose rule applies. -/
def headStep (R : RuleTable) (normalize : Term → m Term) (t : Term) : m (Option Term) :=
  match t.head.declId? with
  | none => pure none
  | some id =>
    match R.ruleFor? id with
    | none => pure none
    | some r => if t.args.length < r.arity then pure none else fire normalize r t.args

/-- One pass over a term in a mode (`normalize_uncached`): `self` does the reductions that it asks
for, and `again` passes over the term that has taken its place. -/
def pass (R : RuleTable) (h : Replacer) (self again : Mode → Term → m Term) :
    Mode → Term → m Term
  | .weak, t => do
    match ← headStep R (self .full) t with
    | some u => again .weak u
    | none => pure t
  | mode, t => do
    let w ← self .weak t
    match if w.args.isEmpty then none else h.change? w.head with
    | some head => again mode (head.apply w.args)
    | none =>
      let args ← w.args.mapM (self .full)
      let rebuilt := w.head.apply args
      match if mode = .full then h.change? rebuilt else none with
      | some u => again mode u
      | none => pure rebuilt

/-- Reduction to a given depth (`normalize`). -/
def reduce (R : RuleTable) (h : Replacer) : Nat → Mode → Term → Option Term
  | 0, _, _ => none
  | depth + 1, mode, t => pass R h (reduce R h depth) (reduce R h depth) mode t

end Reduction
end Elaboration
