import Elaboration.Term.Basic

/-!
# Violations

A violation is a breach of the kernel's own rules: of the rule table, of the equality contexts or
of the equation store, or a reference that a program leaves dangling. Work stops at the first one.
-/

namespace Elaboration

/-- A breach of the kernel's rules. -/
inductive Violation where
  | ruleHeadNotDeclaration (head : Term)
  | notRegistrable (t : Term)
  | headUnregistered (id : Nat)
  | headOwnsRule (id : Nat)
  | notTypable (t : Term)
  | placeholderLeaked (t : Term)
  | notIndeterminate (t : Term)
  | classOutOfRange (count index : Nat)
  | headNotExposed (pattern rigid exposed expected : Term)
  | equationReleased (index : Nat)
  | obligationSettledTwice (id : Nat)
  | countBelowZero
  | localOutOfScope (index count : Nat)
  | nothingEmbedded (index : Nat)
  | captureUnbound (t : Term)
deriving DecidableEq, Repr

/-- The message of a violation. -/
def Violation.message : Violation → String
  | ruleHeadNotDeclaration head => "rule head " ++ head.written ++ " is not a declaration"
  | notRegistrable t => "cannot register " ++ t.written ++ " as a declaration"
  | headUnregistered id => "rule for unregistered declaration d" ++ toString id
  | headOwnsRule id => "declaration d" ++ toString id ++ " already owns a rule"
  | notTypable t => "cannot register a type for " ++ t.written
  | placeholderLeaked t => "conglomerate leaked out of " ++ t.written
  | notIndeterminate t => "only declarations can be indeterminates, got " ++ t.written
  | classOutOfRange count index =>
    "index out of bounds: the len is " ++ toString count ++ " but the index is " ++ toString index
  | headNotExposed pattern rigid exposed expected =>
    "assertion `left == right` failed: explosion of " ++ pattern.written ++
      " did not produce the head of " ++ rigid.written ++ "\n  left: " ++ exposed.written ++
      "\n right: " ++ expected.written
  | equationReleased index => "equation " ++ toString index ++ " was already released"
  | obligationSettledTwice id => "obligation " ++ toString id ++ " settled twice"
  | countBelowZero => "attempt to subtract with overflow"
  | localOutOfScope index count =>
    "local " ++ toString index ++ " is not in scope (" ++ toString count ++ " locals)"
  | nothingEmbedded index => "no value is embedded at " ++ toString index
  | captureUnbound t => "capture " ++ t.written ++ " is not bound by the pattern"

/-- Why work stopped. -/
inductive Stop where
  | violation (v : Violation)
  /-- The bound on the depth of reduction and on the number of steps did not suffice. -/
  | exhausted
deriving DecidableEq, Repr

end Elaboration
