import Elaboration.Layout.Basic
import Elaboration.Table
import Elaboration.Term.Basic

/-!
# Printing terms

Applications are printed without their outer parentheses, arguments that are applications between
parentheses, and symbols by their name if they have one.
-/

namespace Elaboration

/-- How terms are printed. -/
structure PrintConfig where
  width : Nat := 100
  /-- Columns by which the arguments of a broken application are indented. -/
  indent : Int := 4
  /-- Whether the number of a named symbol is printed after its name. -/
  showIds : Bool := false
deriving Repr

/-- Names of symbols. -/
abbrev Names := Table String

namespace Term

/-- The text of a symbol (`print_symbol`): its name, or a stem and its number. -/
def symbolText (cfg : PrintConfig) (names : Names) (stem : String) (id : Nat) : String :=
  match names.get? id with
  | some name => if cfg.showIds then name ++ "@" ++ toString id else name
  | none => stem ++ toString id

/-- The document of a head with the documents of its arguments. -/
def spineDoc (cfg : PrintConfig) (head : Doc) : List Doc → Doc
  | [] => head
  | args => .group (head ++ .nest cfg.indent (.line ++ .separated args))

/-- The document of a term applied to arguments whose documents are given (`print_term`). -/
def docWith (cfg : PrintConfig) (names : Names) : Term → List Doc → Doc
  | app f x, args =>
    let inner := x.docWith cfg names []
    let arg := if x.args.isEmpty then inner else inner.parens
    f.docWith cfg names (arg :: args)
  | arg i, args => spineDoc cfg (.text (some .argument) ("$" ++ toString i)) args
  | postulate id, args => spineDoc cfg (.text (some .postulate) (symbolText cfg names "ax" id)) args
  | decl id, args => spineDoc cfg (.text (some .declaration) (symbolText cfg names "d" id)) args
  | leaf l, args => spineDoc cfg (.plain (String.ofList (leafChars l))) args
  | placeholder i, args => spineDoc cfg (.text (some .placeholder) ("#" ++ toString i)) args

/-- The document of a term. -/
def doc (cfg : PrintConfig) (names : Names) (t : Term) : Doc := t.docWith cfg names []

/-- The term printed without colours. -/
def pretty (cfg : PrintConfig) (names : Names) (t : Term) : String :=
  (t.doc cfg names).render cfg.width

end Term
end Elaboration
