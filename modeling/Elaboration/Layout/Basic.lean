import Elaboration.Text.Width

/-!
# Documents and their layout

A document is text with places where a line may end. A group is written on one line if its text, and
what follows it up to the next place where a line certainly ends, fits in the width; otherwise its
own lines end. Texts may carry a style, which takes no room.
-/

namespace Elaboration

/-- Styles of text. -/
inductive Style where
  | keyword
  | postulate
  | declaration
  | argument
  | placeholder
deriving DecidableEq, Repr

/-- Documents. -/
inductive Doc where
  | nil
  | text (style : Option Style) (s : String)
  /-- One space, or the end of a line. -/
  | line
  | append (a b : Doc)
  /-- Changes the indentation of the lines inside. -/
  | nest (amount : Int) (a : Doc)
  | group (a : Doc)
deriving Repr

namespace Doc

instance : Append Doc := ⟨append⟩

/-- Text without a style. -/
def plain (s : String) : Doc := text none s

/-- A document between parentheses. -/
def parens (a : Doc) : Doc := plain "(" ++ a ++ plain ")"

/-- Documents separated by lines. -/
def separated : List Doc → Doc
  | [] => nil
  | [a] => a
  | a :: rest => a ++ line ++ separated rest

/-- Width of the document on one line. -/
def flatWidth : Doc → Nat
  | nil => 0
  | text _ s => Text.width s
  | line => 1
  | append a b => a.flatWidth + b.flatWidth
  | nest _ a => a.flatWidth
  | group a => a.flatWidth

/-- The width up to the first line of a document in which every line ends, and whether there is a
line at all. -/
def lead : Doc → Nat × Bool
  | nil => (0, false)
  | text _ s => (Text.width s, false)
  | line => (0, true)
  | append a b =>
    match a.lead with
    | (w, true) => (w, true)
    | (w, false) =>
      let (v, ends) := b.lead
      (w + v, ends)
  | nest _ a => a.lead
  | group a => a.lead

/-- How far text goes on before a line ends, in a document in which every line does and where
something that goes on for `after` follows. -/
def extent (a : Doc) (after : Nat) : Nat :=
  match a.lead with
  | (w, true) => w
  | (w, false) => w + after

/-- A piece of laid out text. -/
inductive Piece where
  | text (style : Option Style) (s : String)
  /-- The end of a line and the indentation of the next. -/
  | newline (indent : Nat)
deriving Repr

/-- Lays out a document from a column on: its pieces and the column after them. `flat` tells whether
its lines are spaces, `after` how far the text goes on that follows. -/
def layout (width : Nat) : Doc → Bool → Nat → Nat → Nat → List Piece × Nat
  | nil, _, _, _, column => ([], column)
  | text style s, _, _, _, column => ([.text style s], column + Text.width s)
  | line, true, _, _, column => ([.text none " "], column + 1)
  | line, false, indent, _, _ => ([.newline indent], indent)
  | append a b, flat, indent, after, column =>
    let (first, column) := a.layout width flat indent (b.extent after) column
    let (second, column) := b.layout width flat indent after column
    (first ++ second, column)
  | nest amount a, flat, indent, after, column =>
    a.layout width flat (Int.toNat (indent + amount)) after column
  | group a, flat, indent, after, column =>
    let fits := column + a.flatWidth + after ≤ width
    a.layout width (flat || fits) indent after column

/-- The pieces of a whole document. -/
def pieces (width : Nat) (a : Doc) : List Piece := (a.layout width false 0 0 0).1

/-- The text of a piece without styles. -/
def Piece.plainText : Piece → String
  | .text _ s => s
  | .newline indent => "\n" ++ String.ofList (List.replicate indent ' ')

/-- The document written without styles. -/
def render (width : Nat) (a : Doc) : String := String.join ((a.pieces width).map Piece.plainText)

end Doc

/-- The terminal's number of a style's colour. -/
def Style.colour : Style → String
  | .keyword => "35"
  | .postulate => "34"
  | .declaration => "32"
  | .argument => "31"
  | .placeholder => "36"

namespace Doc

/-- The terminal sequence with a given parameter. -/
def colourSequence (parameter : String) : String := "\x1b[" ++ parameter ++ "m"

/-- The text of a piece with its colour. -/
def Piece.colouredText : Piece → String
  | .text (some style) s =>
    colourSequence "0" ++ colourSequence style.colour ++ s ++ colourSequence "0"
  | p => p.plainText

/-- The document written with colours. -/
def renderColoured (width : Nat) (a : Doc) : String :=
  String.join ((a.pieces width).map Piece.colouredText)

end Doc
end Elaboration
