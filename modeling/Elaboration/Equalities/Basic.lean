import Elaboration.Reduction.Basic

/-!
# Local equalities

Equalities that hold in a part of a program only, recorded as classes of terms in normal form. A
class is a node of a forest; its root has a canonical term and is rigid if that term is headed by a
postulate or a leaf. Reduction replaces a member of a class by the canonical term of a rigid class
and by the placeholder of the class otherwise.
-/

namespace Elaboration

/-- A class of equal terms. -/
structure Equalities.Class where
  /-- The class that this one was merged into, or the class itself. -/
  parent : Nat
  /-- A member without placeholders. -/
  canonical : Term
  /-- Whether the canonical term is headed by a postulate or a leaf. -/
  rigid : Bool
deriving DecidableEq, Repr

/-- Local equalities (`LocalContext`). -/
structure Equalities where
  classes : Array Equalities.Class := #[]
  /-- The class of each known member. -/
  members : List (Term × Nat) := []
  /-- Whether applications of different heads were found equal. -/
  inconsistent : Bool := false
  /-- The number of rules against which the members were last normalised. -/
  generation : Nat := 0
deriving DecidableEq, Repr

namespace Equalities

/-- No equalities. -/
def empty : Equalities := {}

/-- Whether anything is recorded (`has_assumptions`). -/
def hasClasses (q : Equalities) : Bool := !q.classes.isEmpty

/-- Follows the parents of a class, at most `steps` of them. -/
def rootFrom (classes : Array Class) : Nat → Nat → Nat
  | 0, c => c
  | steps + 1, c =>
    match classes[c]? with
    | some cls => if cls.parent = c then c else rootFrom classes steps cls.parent
    | none => c

/-- The root of a class (`find`). Parents never have a larger number, so a path has fewer steps than
there are classes. -/
def root (q : Equalities) (c : Nat) : Nat := rootFrom q.classes q.classes.size c

/-- The class recorded for a member, in a list of members. -/
def memberIn? (t : Term) : List (Term × Nat) → Option Nat
  | [] => none
  | (u, c) :: rest => if u = t then some c else memberIn? t rest

/-- The class recorded for a member. -/
def member? (q : Equalities) (t : Term) : Option Nat := memberIn? t q.members

/-- The root of the class recorded for a member. -/
def memberRoot? (q : Equalities) (t : Term) : Option Nat := (q.member? t).map q.root

/-- What reduction writes for a member of a class. -/
def output (q : Equalities) (c : Nat) : Term :=
  let r := q.root c
  match q.classes[r]? with
  | some cls => if cls.rigid then cls.canonical else .placeholder r
  | none => .placeholder r

/-- The replacement of a term in normal form. -/
def replacer (q : Equalities) : Replacer
  | .placeholder i => if i < q.classes.size then some (q.output i) else none
  | t => (q.member? t).map q.output

/-- The canonical term of a class, if there is such a class. -/
def canonical? (q : Equalities) (c : Nat) : Option Term :=
  (q.classes[q.root c]?).map Class.canonical

/-- Replaces the placeholders of classes by the canonical terms (`eliminate_conglomerates`). -/
def eliminate (q : Equalities) : Term → Term
  | .app f x => .app (q.eliminate f) (q.eliminate x)
  | .placeholder i => (q.canonical? i).getD (.placeholder i)
  | t => t

/-- Whether a member of the class `c`, a root, occurs in the term, or a placeholder of it
(`mentions_class`). -/
def mentions (q : Equalities) (c : Nat) : Term → Bool
  | .app f x => q.memberRoot? (.app f x) = some c || q.mentions c f || q.mentions c x
  | .placeholder i =>
    q.memberRoot? (.placeholder i) = some c || (i < q.classes.size && q.root i = c)
  | t => q.memberRoot? t = some c

end Equalities
end Elaboration
