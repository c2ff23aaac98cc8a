import Elaboration.Reduction.Basic
import Elaboration.Term.Substitution

/-!
# Memoising reduction

The reduction that runs: it remembers the normal form of every term that it has normalised. A
failed match normalises arguments that are normalised again afterwards, so without the memory the
work doubles with every nesting of stuck heads.
-/

namespace Elaboration
namespace Reduction

/-- Normal forms found so far. -/
abbrev Memo := TermMap Term

/-- Looks up the normal form of a term, and otherwise finds it by `self` and records it. -/
def remembering (self : Mode → Term → StateT Memo Option Term) :
    Mode → Term → StateT Memo Option Term
  | .full, t => fun memo =>
    match memo.find? t with
    | some n => some (n, memo)
    | none =>
      match self .full t memo with
      | some (n, memo) => some (n, memo.insert t n)
      | none => none
  | mode, t => self mode t

/-- Reduction to a given depth, pass after pass: what a pass asks for is remembered, what takes the
place of the term is not. -/
def reduceLoop (R : RuleTable) (h : Replacer) : Nat → Mode → Term → StateT Memo Option Term
  | 0, _, _ => fun _ => none
  | depth + 1, mode, t =>
    pass R h (remembering (reduceLoop R h depth)) (reduceLoop R h depth) mode t

/-- Reduction to a given depth that looks up and records normal forms. -/
def reduceMemo (R : RuleTable) (h : Replacer) : Nat → Mode → Term → StateT Memo Option Term
  | 0, _, _ => fun _ => none
  | depth + 1, mode, t => remembering (reduceLoop R h (depth + 1)) mode t

/-- Reduces one term, starting without any memory. -/
def run? (R : RuleTable) (h : Replacer) (depth : Nat) (mode : Mode) (t : Term) : Option Term :=
  (reduceMemo R h depth mode t .empty).map Prod.fst

/-- Reduces a list of terms, the later ones with the memory of the earlier ones. -/
def runAll? (R : RuleTable) (h : Replacer) (depth : Nat) (mode : Mode) (ts : List Term) :
    Option (List Term) :=
  (ts.mapM (reduceMemo R h depth mode) TermMap.empty).map Prod.fst

end Reduction
end Elaboration
