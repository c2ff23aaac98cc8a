import Elaboration.Term.Basic

/-!
# Maps keyed by terms

A search tree over fingerprints of terms: each node holds one entry, and the binary digits of a
key's fingerprint lead to it. Substitution remembers in one the result for every part of a term that
it has dealt with.
-/

namespace Elaboration

namespace Term

/-- Bound of the fingerprints. -/
def fingerprintBound : Nat := 2147483647

/-- A number computed from the shape of a term; unequal terms mostly have unequal fingerprints. -/
def fingerprint : Term → Nat
  | app f x => (f.fingerprint * 31 + x.fingerprint * 173 + 11) % fingerprintBound
  | arg i => (i * 7919 + 1) % fingerprintBound
  | postulate id => (id * 104729 + 2) % fingerprintBound
  | decl id => (id * 15485863 + 3) % fingerprintBound
  | leaf (.integer n) => (n.natAbs * 179 + 4) % fingerprintBound
  | leaf (.text s) => s.toList.foldl (fun h c => (h * 33 + c.toNat) % fingerprintBound) 5
  | placeholder i => (i * 32452843 + 6) % fingerprintBound

end Term

/-- A finite map from terms. -/
inductive TermMap (α : Type) where
  | empty
  | node (mark : Nat) (key : Term) (value : α) (even odd : TermMap α)

namespace TermMap

variable {α : Type}

/-- Look-up below a node: `mark` is the key's fingerprint and `path` its digits still to follow. -/
def findFrom : TermMap α → Nat → Nat → Term → Option α
  | empty, _, _, _ => none
  | node mark' key value even odd, mark, path, t =>
    if mark' = mark ∧ key = t then some value
    else if path % 2 = 0 then even.findFrom mark (path / 2) t
    else odd.findFrom mark (path / 2) t

/-- Insertion below a node. -/
def insertFrom : TermMap α → Nat → Nat → Term → α → TermMap α
  | empty, mark, _, t, a => node mark t a empty empty
  | node mark' key value even odd, mark, path, t, a =>
    if mark' = mark ∧ key = t then node mark' key a even odd
    else if path % 2 = 0 then node mark' key value (even.insertFrom mark (path / 2) t a) odd
    else node mark' key value even (odd.insertFrom mark (path / 2) t a)

/-- The value at a term. -/
def find? (m : TermMap α) (t : Term) : Option α :=
  m.findFrom t.fingerprint t.fingerprint t

/-- Sets the value at a term. -/
def insert (m : TermMap α) (t : Term) (a : α) : TermMap α :=
  m.insertFrom t.fingerprint t.fingerprint t a

private theorem findFrom_insertFrom_self (m : TermMap α) (mark path : Nat) (t : Term) (a : α) :
    (m.insertFrom mark path t a).findFrom mark path t = some a := by
  induction m generalizing path with
  | empty => simp [insertFrom, findFrom]
  | node mark' key value even odd ihEven ihOdd =>
    by_cases h : mark' = mark ∧ key = t
    · simp [insertFrom, findFrom, h]
    · by_cases hp : path % 2 = 0 <;> simp [insertFrom, findFrom, h, hp, ihEven, ihOdd]

private theorem findFrom_insertFrom_ne (m : TermMap α) (mark path mark2 path2 : Nat) (t u : Term)
    (a : α) (h : t ≠ u) :
    (m.insertFrom mark path t a).findFrom mark2 path2 u = m.findFrom mark2 path2 u := by
  induction m generalizing path path2 with
  | empty => simp [insertFrom, findFrom, h]
  | node mark' key value even odd ihEven ihOdd =>
    by_cases ht : mark' = mark ∧ key = t
    · obtain ⟨rfl, rfl⟩ := ht
      simp [insertFrom, findFrom, h]
    · by_cases hp : path % 2 = 0 <;> simp [insertFrom, findFrom, ht, hp, ihEven, ihOdd]

@[simp] private theorem find?_empty (t : Term) : (empty : TermMap α).find? t = none := rfl

/-- Inserting at a term changes the value of that term only. -/
theorem find?_insert (m : TermMap α) (t u : Term) (a : α) :
    (m.insert t a).find? u = if t = u then some a else m.find? u := by
  by_cases h : t = u
  · subst h
    simp [insert, find?, findFrom_insertFrom_self]
  · simp [insert, find?, findFrom_insertFrom_ne _ _ _ _ _ _ _ _ h, h]

end TermMap

namespace Term

/-- Substitution that looks up and records the results for parts (`substitute_memo`). -/
def substMemo (xs : List Term) (t : Term) : StateM (TermMap Term) Term := fun memo =>
  match memo.find? t with
  | some u => (u, memo)
  | none =>
    match t with
    | app f x =>
      let (f', memo) := substMemo xs f memo
      let (x', memo) := substMemo xs x memo
      (app f' x', memo.insert (app f x) (app f' x'))
    | arg i => (xs[i]?.getD (arg i), memo.insert (arg i) (xs[i]?.getD (arg i)))
    | u => (u, memo.insert u u)

/-- Replaces every `$i` with `i < xs.length` by the `i`-th term of `xs`, starting without any memory
(`substitute`). -/
def substShared (xs : List Term) (t : Term) : Term := (t.substMemo xs .empty).1

end Term
end Elaboration
