import Elaboration.Text.Quoted

/-!
# Terms

Terms of the calculus: application, bound arguments numbered from the root of their telescope,
postulates (symbols that never reduce), declarations (symbols that may own a rule), data
leaves, and placeholders that stand for a class of a local equality context. Postulates and
declarations are numbered by one common counter. A name in parentheses is the elaborator's own.
-/

namespace Elaboration

/-- Data carried by a leaf (`DataLeaf`). -/
inductive Leaf where
  | integer (n : Int)
  | text (s : String)
deriving DecidableEq, Repr

/-- The two kinds of leaf data (`DataKind`). -/
inductive LeafKind where
  | integer
  | text
deriving DecidableEq, Repr

/-- The kind of a leaf's data. -/
def Leaf.kind : Leaf → LeafKind
  | .integer _ => .integer
  | .text _ => .text

/-- Terms of the calculus (`TermKind`). -/
inductive Term where
  /-- A function applied to one argument. -/
  | app (fn x : Term)
  /-- A bound argument, numbered from the root of its telescope. -/
  | arg (index : Nat)
  /-- A symbol that never reduces. -/
  | postulate (id : Nat)
  /-- A symbol that may own a rule. -/
  | decl (id : Nat)
  /-- Opaque data. -/
  | leaf (value : Leaf)
  /-- Stands for an equality class of a local context. -/
  | placeholder (index : Nat)
deriving DecidableEq, Repr, Inhabited

namespace Term

/-- The index of a bound argument. -/
def argIndex? : Term → Option Nat
  | arg i => some i
  | _ => none

/-- The number of a postulate. -/
def postulateId? : Term → Option Nat
  | postulate id => some id
  | _ => none

/-- The number of a declaration. -/
def declId? : Term → Option Nat
  | decl id => some id
  | _ => none

/-- The index of a placeholder. -/
def placeholderIndex? : Term → Option Nat
  | placeholder i => some i
  | _ => none

/-- The two parts of an application. -/
def appParts? : Term → Option (Term × Term)
  | app f x => some (f, x)
  | _ => none

/-- The number of a postulate or declaration. -/
def symbol? : Term → Option Nat
  | postulate id => some id
  | decl id => some id
  | _ => none

/-- The leftmost term of the application spine. -/
def head : Term → Term
  | app f _ => f.head
  | t => t

/-- The arguments of the spine, put before `acc`. -/
def argsBefore : Term → List Term → List Term
  | app f x, acc => f.argsBefore (x :: acc)
  | _, acc => acc

/-- The arguments of the application spine, first argument first. -/
def args (t : Term) : List Term := t.argsBefore []

/-- `t` applied to each term of a list in turn. -/
def apply (t : Term) (xs : List Term) : Term := xs.foldl app t

/-- The bound arguments `$0` to `$(n - 1)`. -/
def firstArgs (n : Nat) : List Term := (List.range n).map arg

/-- `t $0 $1 ... $(n - 1)`. -/
def applyArgs (t : Term) (n : Nat) : Term := t.apply (firstArgs n)

/-- `f` applied `n` times over `x`. -/
def iterate (f : Term) : Nat → Term → Term
  | 0, x => x
  | n + 1, x => iterate f n (app f x)

/-- Replaces every `$i` with `i < xs.length` by the `i`-th term of `xs`; arguments beyond the list
are left alone. -/
def subst (xs : List Term) : Term → Term
  | app f x => app (subst xs f) (subst xs x)
  | arg i => xs[i]?.getD (arg i)
  | t => t

/-- Maps every bound argument, from left to right, by an action that may fail or have effects
(`try_map_arguments`). -/
def mapArgsM {m : Type → Type} [Monad m] (f : Nat → m Term) : Term → m Term
  | app g x => do
    let g' ← mapArgsM f g
    let x' ← mapArgsM f x
    pure (app g' x')
  | arg i => f i
  | t => pure t

/-- Maps every bound argument; fails if one of them has no image. -/
def mapArgs? (f : Nat → Option Term) (t : Term) : Option Term := t.mapArgsM f

/-- Whether a placeholder occurs in the term (`contains_conglomerate`). -/
def hasPlaceholder : Term → Bool
  | app f x => f.hasPlaceholder || x.hasPlaceholder
  | placeholder _ => true
  | _ => false

/-- The declarations occurring in the term, from left to right, once an occurrence
(`visit_declarations`). -/
def decls : Term → List Nat
  | app f x => f.decls ++ x.decls
  | decl id => [id]
  | _ => []

/-- Whether the head is a postulate or a leaf. -/
def isRigid (t : Term) : Bool :=
  match t.head with
  | postulate _ => true
  | leaf _ => true
  | _ => false

/-- Whether the head can never change, neither by reduction nor by further arguments. -/
def isHeadClosed (t : Term) : Bool :=
  match t.head with
  | postulate _ => true
  | arg _ => true
  | leaf _ => true
  | _ => false

/-- The decimal digits of an integer, a minus sign before those of a negative one. -/
def integerChars : Int → List Char
  | .ofNat n => Nat.toDigits 10 n
  | .negSucc n => '-' :: Nat.toDigits 10 (n + 1)

/-- The written form of a leaf. -/
def leafChars : Leaf → List Char
  | .integer n => integerChars n
  | .text s => Text.quoteChars s.toList

/-- Writes the term in front of `rest`: applications in parentheses, `$i` for an argument, `ax` or
`d` and the number for a symbol, `#i` for a placeholder. -/
def write : Term → List Char → List Char
  | app f x, rest => '(' :: f.write (' ' :: x.write (')' :: rest))
  | arg i, rest => '$' :: (Nat.toDigits 10 i ++ rest)
  | postulate id, rest => 'a' :: 'x' :: (Nat.toDigits 10 id ++ rest)
  | decl id, rest => 'd' :: (Nat.toDigits 10 id ++ rest)
  | leaf l, rest => leafChars l ++ rest
  | placeholder i, rest => '#' :: (Nat.toDigits 10 i ++ rest)

/-- The written form of the term. -/
def written (t : Term) : String := String.ofList (t.write [])

instance : ToString Term := ⟨written⟩

end Term
end Elaboration
