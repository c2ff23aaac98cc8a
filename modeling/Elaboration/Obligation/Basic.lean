import Elaboration.Equation.Solver

/-!
# Obligations and the store of equations

An obligation is work that waits for equations: a plain one, a cast, an application or a rule. Each
poses root equations, which the solver decomposes into trees. The store keeps what is live. An
equation that is ready waits in a queue; one that is stalled waits for the rules to change.
-/

namespace Elaboration

/-- `unknown` stands for `source` used at another type; it is defined as `source` once the two types
are equal. -/
structure Cast where
  telescope : Telescope
  unknown : Term
  sourceType : Term
  source : Term
  targetType : Term
deriving Repr

/-- The two casts that an application needs whose head is not known to be a function
(`FunctionCast`): first of the function, then of its argument. -/
structure Application where
  telescope : Telescope
  functionUnknown : Term
  functionType : Term
  function : Term
  expectedFunctionType : Term
  argumentUnknown : Term
  argumentType : Term
  argument : Term
  expectedArgumentType : Term
deriving Repr

/-- A rule that waits for its side conditions: the checks, and that pattern and replacement have the
same type. -/
structure RuleRequest where
  telescope : Telescope
  rule : Rule
  checks : List (Term × Term)
  patternType : Term
  replacementType : Term
deriving Repr

/-- What is left of a rule's derivation (`RuleState`). -/
structure RuleProgress where
  /-- Given up as soon as the rule is refused. -/
  request : Option RuleRequest
  /-- Which checks are not settled yet. -/
  openChecks : List Bool
  /-- Whether the equation of the types is not settled yet. -/
  openTypes : Bool
  /-- Whether it is not settled yet if the rule is installed. -/
  undecided : Bool
  /-- Number of side conditions that are not settled yet. -/
  outstanding : Nat
deriving Repr

/-- Work that waits for equations. -/
inductive Obligation where
  | equation
  | cast (c : Cast)
  | application (a : Application)
  | rule (p : RuleProgress)
deriving Repr

/-- The part of an obligation that a root equation decides. -/
structure Owner where
  obligation : Nat
  slot : Slot
deriving DecidableEq, Repr

/-- What an equation was posed for. -/
inductive Parent where
  | root (owner : Owner)
  | child (above : Nat)
deriving DecidableEq, Repr

/-- The state of a live equation (`Status`). -/
inductive Progress where
  | ready
  | stalled
  /-- Replaced by derived equations, of which `remaining` are not solved. -/
  | decomposed (remaining : Nat)
  | solved
  | failed
deriving DecidableEq, Repr

/-- A live equation. -/
structure Node where
  equation : Equation
  progress : Progress
  parent : Parent
  children : List Nat
deriving Repr

/-- The store of equations and obligations (`Manager`). One counter numbers both. -/
structure Store where
  nodes : Table Node := .empty
  /-- Equations to look at, first one first. -/
  ready : List Nat := []
  /-- Equations that wait for the rules to change, in the order in which they stalled. -/
  stalled : List Nat := []
  obligations : Table Obligation := .empty
  nextId : Nat := 0
  indeterminates : Indeterminates := []
  /-- Number of obligations that failed. -/
  failed : Nat := 0
  /-- Number of rules when stalled equations were last woken. -/
  generation : Nat := 0
deriving Repr

/-- Actions on the store. -/
abbrev StoreM := StateT Store KernelM

namespace Store

/-- The empty store, up to date with the rules of a kernel. -/
def initial (k : Kernel) : Store := { generation := k.rules.generation }

/-- Whether every obligation was settled with success (`solved`). -/
def isSolved (s : Store) : Bool := s.failed = 0 && s.obligations.isEmpty

/-- Number of live equations (`pending_equations`). -/
def pending (s : Store) : Nat := s.nodes.size

/-- Whether a declaration may be defined by solving equations. -/
def isIndeterminate (s : Store) (id : Nat) : Bool := id ∈ s.indeterminates

/-- Removes an equation and those derived from it, to a bounded depth (`remove_subtree`). -/
def removeTree : Nat → Table Node → Nat → Table Node
  | 0, nodes, _ => nodes
  | depth + 1, nodes, index =>
    match nodes.get? index with
    | none => nodes
    | some node => node.children.foldl (removeTree depth) (nodes.erase index)

/-- The report on a live equation and on the derived ones that are responsible (`report`): those
that failed as it did, or are not solved. -/
def reportTree (nodes : Table Node) : Nat → Node → Report.Status → Report
  | 0, node, status => .node node.equation status []
  | depth + 1, node, status =>
    let status := if node.progress = .failed then .failed else status
    .node node.equation status (node.children.filterMap fun child =>
      match nodes.get? child with
      | none => none
      | some child =>
        match child.progress with
        | .solved => none
        | .failed => some (reportTree nodes depth child .failed)
        | _ =>
          if status = .failed then none else some (reportTree nodes depth child .stalled))

/-- Forbids the equations of a tree to define indeterminates, to a depth (`stop_deducing`). -/
def forbidDeducing : Nat → Table Node → Nat → Table Node
  | 0, nodes, _ => nodes
  | depth + 1, nodes, index =>
    match nodes.get? index with
    | none => nodes
    | some node =>
      node.children.foldl (forbidDeducing depth)
        (nodes.set index { node with equation := { node.equation with deduce := false } })

/-- The root equations with the parts of obligations that they decide, oldest first. -/
def roots (nodes : Table Node) : List (Nat × Owner) :=
  nodes.entries.filterMap fun (index, node) =>
    match node.parent with
    | .root owner => some (index, owner)
    | .child _ => none

end Store

namespace StoreM

/-- A live equation. -/
def node (index : Nat) : StoreM Node := do
  match (← get).nodes.get? index with
  | some n => pure n
  | none => KernelM.violate (.equationReleased index)

/-- Changes the state of a live equation. -/
def setProgress (index : Nat) (progress : Progress) : StoreM Unit := do
  let n ← node index
  modify fun s => { s with nodes := s.nodes.set index { n with progress } }

/-- A new number. -/
def freshId : StoreM Nat := do
  let s ← get
  set { s with nextId := s.nextId + 1 }
  pure s.nextId

/-- Adds an equation, which is ready. -/
def addNode (equation : Equation) (parent : Parent) : StoreM Nat := do
  let index ← freshId
  modify fun s => { s with
    nodes := s.nodes.set index ⟨equation, .ready, parent, []⟩
    ready := s.ready ++ [index] }
  pure index

/-- Adds a root equation. -/
def addRoot (equation : Equation) (owner : Owner) : StoreM Unit := do
  let _ ← addNode equation (.root owner)

/-- Adds an obligation. -/
def addObligation (o : Obligation) : StoreM Nat := do
  let id ← freshId
  modify fun s => { s with obligations := s.obligations.set id o }
  pure id

/-- Allows a declaration to be defined by solving equations (`register_definable_indeterminate`). -/
def registerIndeterminate (t : Term) : StoreM Unit :=
  match t with
  | .decl id => modify fun s =>
      { s with indeterminates := if id ∈ s.indeterminates then s.indeterminates
                                 else id :: s.indeterminates }
  | _ => KernelM.violate (.notIndeterminate t)

end StoreM
end Elaboration
