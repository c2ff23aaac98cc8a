import Elaboration.Table
import Elaboration.Term.Basic

/-!
# Shared terms

An arena stores every shape of term once. Terms are held by the numbers of their nodes, and an
application is stored by those of its parts. A node counts what refers to it and goes, with whatever
only it referred to, when that does. Numbers of nodes and symbols are never used again.
-/

namespace Elaboration

/-- The shape of a node (`NodeKey`): a term with its parts replaced by their numbers. -/
inductive Arena.Shape where
  | app (fn x : Nat)
  | arg (index : Nat)
  | postulate (id : Nat)
  | decl (id : Nat)
  | leaf (value : Leaf)
  | placeholder (index : Nat)
deriving DecidableEq, Repr

/-- The nodes that a shape refers to. -/
def Arena.Shape.parts : Arena.Shape → List Nat
  | app f x => [f, x]
  | _ => []

/-- A stored node (`TermNode`). -/
structure Arena.Node where
  shape : Arena.Shape
  /-- Number of handles and of nodes that refer to this one. -/
  references : Nat
deriving DecidableEq, Repr

/-- A store of shared terms. -/
structure Arena where
  nodes : Table Arena.Node := .empty
  nextNode : Nat := 0
  nextSymbol : Nat := 0
deriving Repr

/-- The number of a node that is held from outside. -/
abbrev Arena.Handle := Nat

namespace Arena

/-- The arena without terms. -/
def empty : Arena := {}

/-- Number of stored nodes (`live_terms`). -/
def liveCount (a : Arena) : Nat := a.nodes.size

/-- The node that has a given shape. -/
def findIn? (shape : Shape) : List (Nat × Node) → Option Nat
  | [] => none
  | (n, node) :: rest => if node.shape = shape then some n else findIn? shape rest

/-- Adds one reference to a node. -/
def retain (a : Arena) (n : Handle) : Arena :=
  match a.nodes.get? n with
  | some node => { a with nodes := a.nodes.set n { node with references := node.references + 1 } }
  | none => a

/-- A handle to the node of a given shape, which is made if there is none. -/
def intern (a : Arena) (shape : Shape) : Handle × Arena :=
  match findIn? shape a.nodes.entries with
  | some n => (n, a.retain n)
  | none =>
    let a' := shape.parts.foldl retain a
    (a.nextNode,
      { a' with nodes := a'.nodes.set a.nextNode ⟨shape, 1⟩, nextNode := a.nextNode + 1 })

/-- Takes one reference from each node of a work list, to which the parts of nodes that go are
added. `bound`, the number of all references, is enough steps. -/
def releaseAll : Nat → List Nat → Arena → Arena
  | _, [], a => a
  | 0, _ :: _, a => a
  | bound + 1, n :: work, a =>
    match a.nodes.get? n with
    | none => releaseAll bound work a
    | some node =>
      if node.references ≤ 1 then
        releaseAll bound (node.shape.parts ++ work) { a with nodes := a.nodes.erase n }
      else
        releaseAll bound work
          { a with nodes := a.nodes.set n { node with references := node.references - 1 } }

/-- Gives a handle back (`drop`). -/
def release (a : Arena) (n : Handle) : Arena :=
  releaseAll (a.nodes.entries.foldr (fun e count => e.2.references + count) 1) [n] a

/-- A handle to a new postulate (`axiom`). -/
def postulate (a : Arena) : Handle × Arena :=
  { a with nextSymbol := a.nextSymbol + 1 }.intern (.postulate a.nextSymbol)

/-- A handle to a new declaration. -/
def declaration (a : Arena) : Handle × Arena :=
  { a with nextSymbol := a.nextSymbol + 1 }.intern (.decl a.nextSymbol)

/-- A handle to a bound argument. -/
def argument (a : Arena) (index : Nat) : Handle × Arena := a.intern (.arg index)

/-- A handle to a placeholder (`conglomerate`). -/
def placeholder (a : Arena) (index : Nat) : Handle × Arena := a.intern (.placeholder index)

/-- A handle to a leaf (`data`). -/
def leaf (a : Arena) (value : Leaf) : Handle × Arena := a.intern (.leaf value)

/-- A handle to the application of one term to another. -/
def apply (a : Arena) (f x : Handle) : Handle × Arena := a.intern (.app f x)

/-- Applies a term, whose handle is given up, to the bound arguments in a list. -/
def applyEach : List Nat → Handle → Arena → Handle × Arena
  | [], f, a => (f, a)
  | i :: rest, f, a =>
    let (x, a) := a.argument i
    let (g, a) := a.apply f x
    applyEach rest g ((a.release x).release f)

/-- A handle to `f $0 ... $(count - 1)`. -/
def applyArguments (a : Arena) (f : Handle) (count : Nat) : Handle × Arena :=
  applyEach (List.range count) f (a.retain f)

/-- The term below a node, to a bounded depth. -/
def unfoldTo (a : Arena) : Nat → Nat → Option Term
  | 0, _ => none
  | depth + 1, n =>
    match a.nodes.get? n with
    | none => none
    | some node =>
      match node.shape with
      | .app f x =>
        match a.unfoldTo depth f, a.unfoldTo depth x with
        | some f, some x => some (.app f x)
        | _, _ => none
      | .arg i => some (.arg i)
      | .postulate id => some (.postulate id)
      | .decl id => some (.decl id)
      | .leaf l => some (.leaf l)
      | .placeholder i => some (.placeholder i)

/-- The term that a handle stands for. The parts of a node have smaller numbers than the node. -/
def term? (a : Arena) (n : Handle) : Option Term := a.unfoldTo (n + 1) n

/-- The written form of the arena. -/
def written (a : Arena) : String :=
  "Arena \x7b live_terms: " ++ toString a.liveCount ++ " \x7d"

end Arena
end Elaboration
