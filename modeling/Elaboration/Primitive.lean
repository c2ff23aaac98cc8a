import Elaboration.Rule.Basic

/-!
# Primitives

The built-in type formers. `arrow A B` is the type of dependent functions from `A` to the type
family `B` over `A`. Type families are built from declarations that reduce:

* `type_family T := arrow T (constant Type Type T)`, the type of families over `T`;
* `constant A a B b := a`, the family over `B` that is `a : A` everywhere;
* `id T x := x`.

The remaining declarations are the codomains that the types of these need.
-/

namespace Elaboration
namespace Primitive

/-- The type of types. -/
def type : Term := .postulate 0

/-- The former of dependent function types. -/
def arrow : Term := .postulate 1

/-- The type of families over a type. -/
def typeFamily : Term := .decl 2

/-- Constant families. -/
def constant : Term := .decl 3

/-- Identity functions. -/
def identity : Term := .decl 4

/-- The codomain of `arrow`. -/
def arrowCodomain : Term := .decl 5

/-- The codomain of `constant`. -/
def constantCodomain1 : Term := .decl 6

/-- The codomain of `constant A`. -/
def constantCodomain2 : Term := .decl 7

/-- The codomain of `constant A a`. -/
def constantCodomain3 : Term := .decl 8

/-- The codomain of `id`. -/
def identityCodomain : Term := .decl 9

/-- Number of built-in symbols. -/
def count : Nat := 10

/-- `arrow domain codomain`. -/
def arrowOf (domain codomain : Term) : Term := arrow.apply [domain, codomain]

/-- `type_family type`. -/
def typeFamilyOf (type : Term) : Term := .app typeFamily type

/-- The family over `domain` that is the type `codomain` everywhere. -/
def constantFamily (codomain domain : Term) : Term := constant.apply [type, codomain, domain]

/-- The type of functions from `domain` to `codomain` that are not dependent. -/
def functionType (domain codomain : Term) : Term :=
  arrowOf domain (constantFamily codomain domain)

/-- The type of `arrow`. -/
def arrowType : Term := arrowOf type arrowCodomain

/-- Domain and codomain of a dependent function type. -/
def asArrow? (t : Term) : Option (Term × Term) :=
  match t.args with
  | [domain, codomain] => if t.head = arrow then some (domain, codomain) else none
  | _ => none

/-- The rules of the built-in declarations, in the order of their installation. -/
def rules : List (Nat × Rule) :=
  let x : Term := .arg 0
  let y : Term := .arg 1
  [(2, .lambda typeFamily 1 (arrowOf x (constantFamily type x))),
   (3, .lambda constant 4 y),
   (4, .lambda identity 2 y),
   (5, .lambda arrowCodomain 1 (arrowOf (typeFamilyOf x) (constantFamily type (typeFamilyOf x)))),
   (6, .lambda constantCodomain1 1 (arrowOf x (.app constantCodomain2 x))),
   (7, .lambda constantCodomain2 2 (arrowOf type (.app constantCodomain3 x))),
   (8, .lambda constantCodomain3 2 (arrowOf y (constantFamily x y))),
   (9, .lambda identityCodomain 1 (arrowOf x (constantFamily x x)))]

/-- The types of the built-in symbols. -/
def types : List (Nat × Term) :=
  let endo := typeFamilyOf type
  [(0, type),
   (1, arrowType),
   (2, arrowOf type (constantFamily type type)),
   (3, arrowOf type constantCodomain1),
   (4, arrowOf type identityCodomain),
   (5, endo),
   (6, endo),
   (7, arrowOf type typeFamily),
   (8, arrowOf type (constant.apply [endo, endo, type])),
   (9, endo)]

/-- The names of the built-in symbols. -/
def names : List (Nat × String) :=
  [(0, "Type"), (1, "arrow"), (2, "type_family"), (3, "constant"), (4, "id"),
   (5, "arrow_codomain"), (6, "constant_codomain_1"), (7, "constant_codomain_2"),
   (8, "constant_codomain_3"), (9, "id_codomain")]

end Primitive
end Elaboration
