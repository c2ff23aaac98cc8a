import Elaboration.Equalities.Assume
import Elaboration.Primitive

/-!
# The kernel's state

The symbols made so far with their rules, types and names, the local equality contexts of
telescopes, and the journal. Actions of the kernel change this state and stop at a violation.
-/

namespace Elaboration

/-- A term with its type. -/
structure TypedTerm where
  value : Term
  type : Term
deriving DecidableEq, Repr

/-- The kernel's state (`BasicContext`). -/
structure Kernel where
  /-- Bound on the depth of reduction and on the number of steps of a run. -/
  limit : Nat
  /-- The order in which members of local equality contexts are visited. -/
  order : Equalities.Order := .recorded
  nextSymbol : Nat
  rules : RuleTable
  /-- Types of postulates and declarations. -/
  types : Table Term
  integerType : Option Term
  textType : Option Term
  names : Names
  /-- Local equality contexts, by the number that telescopes refer to. -/
  contexts : Array Equalities
  /-- Latest event first. -/
  journal : List Event
  /-- Where a log is kept, the level down to which it shows events. -/
  logLevel : Option Level := none

namespace Kernel

/-- Far beyond what any reduction that ends here needs. -/
def defaultLimit : Nat := 1000000000

/-- The kernel with the primitives and nothing else. -/
def initial : Kernel where
  limit := defaultLimit
  nextSymbol := Primitive.count
  rules :=
    { registered := (Primitive.rules.map Prod.fst).reverse
      rules := ⟨Primitive.rules⟩
      generation := Primitive.rules.length }
  types := ⟨Primitive.types⟩
  integerType := none
  textType := none
  names := ⟨Primitive.names⟩
  contexts := #[]
  journal := (Primitive.rules.map fun r => Event.ruleInstalled r.1 r.2.captureCount).reverse

/-- The registered type of a postulate, declaration or leaf. -/
def typeOfSymbol? (k : Kernel) : Term → Option Term
  | .postulate id => k.types.get? id
  | .decl id => k.types.get? id
  | .leaf l =>
    match l.kind with
    | .integer => k.integerType
    | .text => k.textType
  | _ => none

/-- The setting in which local equalities change now. -/
def setting (k : Kernel) : Equalities.Setting := ⟨k.rules, k.limit, k.order⟩

/-- Whether a log is kept that shows events of a level. -/
def logs (k : Kernel) (l : Level) : Bool := k.logLevel.any l.shownAt

/-- The events of the journal, in the order in which they happened. -/
def events (k : Kernel) : List Event := k.journal.reverse

end Kernel

/-- Actions of the kernel. -/
abbrev KernelM := EStateM Stop Kernel

namespace KernelM

/-- Stops the work. -/
def violate {α : Type} (v : Violation) : KernelM α := fun k => .error (.violation v) k

/-- Records an event. -/
def note (e : Event) : KernelM Unit := fun k => .ok () { k with journal := e :: k.journal }

/-- A number for a new symbol. -/
def freshSymbol : KernelM Nat := fun k => .ok k.nextSymbol { k with nextSymbol := k.nextSymbol + 1 }

/-- A new postulate. -/
def freshPostulate : KernelM Term := do
  pure (.postulate (← freshSymbol))

/-- A new declaration that can own no rule yet. -/
def freshDeclaration : KernelM Term := do
  pure (.decl (← freshSymbol))

/-- Allows a rule for a declaration (`register_declaration`). -/
def register (t : Term) : KernelM Unit :=
  match t with
  | .decl id => fun k => .ok () { k with rules := k.rules.register id }
  | _ => violate (.notRegistrable t)

/-- A new declaration that may own a rule. -/
def declare : KernelM Term := do
  let d ← freshDeclaration
  register d
  pure d

/-- The number of a rule's head. -/
def ruleHead (r : Rule) : KernelM Nat :=
  match r.head with
  | .decl id => pure id
  | _ => violate (.ruleHeadNotDeclaration r.head)

/-- Installs a rule for its head, which must be registered and own none. -/
def addRule (r : Rule) : KernelM Unit := do
  let id ← ruleHead r
  let k ← get
  if id ∉ k.rules.registered then
    violate (.headUnregistered id)
  else if k.rules.hasRule id then
    violate (.headOwnsRule id)
  else
    note (.ruleInstalled id r.captureCount)
    modify fun k => { k with rules := k.rules.install id r }

/-- Gives a symbol a type, in place of the one it had (`register_type`). -/
def setType (t type : Term) : KernelM Unit :=
  match t.symbol? with
  | some id => fun k => .ok () { k with types := k.types.set id type }
  | none => violate (.notTypable t)

/-- Gives all leaves of a kind a type (`register_data_type`). -/
def setLeafType (kind : LeafKind) (type : Term) : KernelM Unit := fun k =>
  match kind with
  | .integer => .ok () { k with integerType := some type }
  | .text => .ok () { k with textType := some type }

/-- Names a symbol, unless it has a name (`name`). -/
def setName (t : Term) (name : String) : KernelM Unit := fun k =>
  match t.symbol? with
  | some id => .ok () (if k.names.contains id then k else { k with names := k.names.set id name })
  | none => .ok () k

/-- Reduces a term by the installed rules alone. -/
def reduceMode (mode : Reduction.Mode) (t : Term) : KernelM Term := fun k =>
  match Reduction.run? k.rules Replacer.none k.limit mode t with
  | some u => .ok u k
  | none => .error .exhausted k

/-- The normal form of a term under the installed rules alone. -/
def reduce (t : Term) : KernelM Term := reduceMode .full t

/-- A new local equality context. -/
def freshContext (q : Equalities) : KernelM Nat := fun k =>
  .ok k.contexts.size { k with contexts := k.contexts.push q }

/-- A local equality context. -/
def context (c : Nat) : KernelM Equalities := fun k =>
  .ok (k.contexts[c]?.getD .empty) k

/-- Changes a local equality context. -/
def changeContext {α : Type} (c : Nat) (x : Equalities.Setting → Equalities.Change α) : KernelM α :=
  fun k =>
    match x k.setting ⟨k.contexts[c]?.getD .empty, k.journal⟩ with
    | .ok a s =>
      .ok a { k with contexts := k.contexts.setIfInBounds c s.equalities, journal := s.journal }
    | .error e s =>
      .error e { k with contexts := k.contexts.setIfInBounds c s.equalities, journal := s.journal }

end KernelM
end Elaboration
