import Elaboration.Obligation.Run
import Elaboration.Pattern.Execution

/-!
# Sessions

A session elaborates programs one after another. It keeps the store, the values that programs may
refer to, the failures so far, and what every obligation was posed for. The failure that follows
from an answer is reported right after it.
-/

namespace Elaboration

/-- What a session posed an obligation for. -/
inductive Purpose where
  /-- An equation or a cast. -/
  | equation (purpose : Failure.Purpose) (node : NodeId)
  | application (node : NodeId)
  /-- A rule with the instructions that demand its checks; `failed` tells whether a side condition
  failed. -/
  | rule (node : NodeId) (checks : List NodeId) (failed : Bool)
deriving DecidableEq, Repr

/-- A session. -/
structure Session where
  store : Store
  embeds : List TypedTerm := []
  failures : List Failure := []
  purposes : Table Purpose := .empty

/-- Actions of a session. -/
abbrev SessionM := StateT Session KernelM

namespace Session

/-- A session without programs. -/
def initial (k : Kernel) : Session := { store := .initial k }

/-- Whether nothing failed and nothing is undecided (`solved`). -/
def isSolved (s : Session) : Bool := s.failures.isEmpty && s.store.isSolved

/-- The failure of an equation that was not solved. -/
def unsolved? (names : Names) (purpose : Failure.Purpose) (node : NodeId) :
    Outcome → Option Failure
  | .solved => none
  | .failed report => some (.unsolved purpose node (report.render names))

/-- The purpose and the instruction of a side condition. -/
def conditionPurpose (node : NodeId) (checks : List NodeId) : Slot → Failure.Purpose × NodeId
  | .check index => (.patternCheck, checks[index]?.getD node)
  | _ => (.replacementType, node)

/-- The failure that follows from an answer. A refused rule is a failure of its own only if all its
side conditions were solved. -/
def failureOf? (names : Names) (purposes : Table Purpose) : Settlement → Option Failure
  | .equation id outcome =>
    match purposes.get? id with
    | some (.equation purpose node) => unsolved? names purpose node outcome
    | _ => none
  | .application id outcome wasFunction =>
    match purposes.get? id with
    | some (.application node) =>
      unsolved? names (if wasFunction then .argumentType else .functionApplied) node outcome
    | _ => none
  | .condition id slot outcome =>
    match purposes.get? id with
    | some (.rule node checks _) =>
      let (purpose, node) := conditionPurpose node checks slot
      unsolved? names purpose node outcome
    | _ => none
  | .commitment id installed =>
    match purposes.get? id with
    | some (.rule node _ failed) =>
      if installed || failed then none else some (.rejected .invalidRuleHead node)
    | _ => none

/-- Remembers that a side condition of a rule failed. -/
def rememberFailed (purposes : Table Purpose) : Settlement → Table Purpose
  | .condition id _ outcome =>
    match purposes.get? id with
    | some (.rule node checks failed) =>
      purposes.set id (.rule node checks (failed || !outcome.isSolved))
    | _ => purposes
  | _ => purposes

/-- Goes through new events in order, reporting a failure right after the answer that it follows
from (`report_on_failure`). They are put before those of `journal`, latest first. -/
def absorb (names : Names) : Session → List Event → List Event → Session × List Event
  | s, journal, [] => (s, journal)
  | s, journal, .settled a :: rest =>
    let s' := { s with purposes := rememberFailed s.purposes a }
    match failureOf? names s.purposes a with
    | none => absorb names s' (.settled a :: journal) rest
    | some f =>
      absorb names { s' with failures := s'.failures ++ [f] }
        (.reported f :: .settled a :: journal) rest
  | s, journal, e :: rest => absorb names s (e :: journal) rest

end Session

namespace SessionM

/-- Acts on the store and reports the failures that follow from its answers. -/
def onStore {α : Type} (x : StoreM α) : SessionM α := fun s k =>
  match x s.store { k with journal := [] } with
  | .ok (a, store) k' =>
    let (s', journal) := Session.absorb k'.names { s with store } k.journal k'.journal.reverse
    .ok (a, s') { k' with journal }
  | .error e k' =>
    let (_, journal) := Session.absorb k'.names s k.journal k'.journal.reverse
    .error e { k' with journal }

/-- Reports a failure. -/
def report (f : Failure) : SessionM Unit := do
  KernelM.note (.reported f)
  modify fun s => { s with failures := s.failures ++ [f] }

/-- Remembers what an obligation was posed for (in `report_on_failure`). -/
def rememberPurpose (id : Nat) (p : Purpose) : SessionM Unit :=
  modify fun s => { s with purposes := s.purposes.set id p }

/-- Makes a value available to programs and answers its number (`embed_value`). -/
def embed (v : TypedTerm) : SessionM Nat := do
  let s ← get
  set { s with embeds := s.embeds ++ [v] }
  pure s.embeds.length

/-- A value that was made available (`embed`). -/
def embedded (index : Nat) : SessionM TypedTerm := do
  match (← get).embeds[index]? with
  | some v => pure v
  | none => KernelM.violate (.nothingEmbedded index)

/-- Makes a new named postulate and makes it available to programs (`declare_axiom`). -/
def declarePostulate (name : String) (type : Term) : SessionM (Term × Nat) := do
  let p ← KernelM.freshPostulate
  KernelM.setType p type
  KernelM.setName p name
  let index ← embed ⟨p, type⟩
  pure (p, index)

end SessionM
end Elaboration
