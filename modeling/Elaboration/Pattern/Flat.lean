import Elaboration.Pattern.Resolved

/-!
# Folded and flat patterns

In a folded pattern every position is destructured, captured, checked against an expression, or
ignored. A flat pattern writes it out as shards. The values that they produce are numbered in order,
after the arguments in scope, and a capture is the number of the value at which it first occurs. An
argument is pulled only when it is needed: a subclause is matched once its captures are bound.
-/

namespace Elaboration
namespace Pattern

/-- What to do with a value at a position (`PatternNode`). -/
inductive Position where
  /-- It must reduce to `head` applied to one value a sub-position. -/
  | destructure (id : NodeId) (head : Term) (args : List Position)
  | capture (id : NodeId) (index : Nat)
  /-- It must be equal to an expression. -/
  | check (id : NodeId) (expected : Resolved)
  | ignore
deriving Repr

/-- A subclause, whose value must reduce to `head` applied to one value a position. -/
structure FoldedSubclause where
  id : NodeId
  used : List Nat
  head : Term
  args : List Position
deriving Repr

/-- The left side of a rule (`FoldedPattern`). -/
structure Folded where
  id : NodeId
  /-- The declaration that the rule is for. -/
  head : Term
  /-- Number of leading arguments of the head, which are the bound arguments in scope. -/
  inScope : Nat
  captures : Nat
  /-- The other arguments of the head. -/
  matched : List Position
  subclauses : List FoldedSubclause
deriving Repr

namespace Position

/-- The positions of the arguments that a term at the head of a spine brings along: they are
checked. -/
def ofHeadArgs (id : NodeId) (args : List Term) : List Position :=
  args.map fun x => .check id (.term id x)

/-- Whether a term is a postulate or a leaf. -/
def canDestructure : Term → Bool
  | .postulate _ => true
  | .leaf _ => true
  | _ => false

/-- Folds a pattern applied to arguments that are folded already, the last one by the application
`last`; `whole` is the pattern with them. The first failure among the arguments counts. -/
def ofSpine (whole : Resolved) (last : Option NodeId) :
    Resolved → List (Except Failure Position) → Except Failure Position
  | .app id f x, args =>
    ofSpine whole (some (last.getD id)) f (ofSpine x none x [] :: args)
  | .term id value, args =>
    if canDestructure value.head then do
      let args ← args.mapM fun p => p
      pure (.destructure id value.head (ofHeadArgs id value.args ++ args))
    else
      pure (.check (last.getD id) whole)
  | .capture id index, args =>
    if args.isEmpty then pure (.capture id index) else throw (.rejected .undestructurable id)
  | .hole id, args =>
    if args.isEmpty then pure .ignore else throw (.rejected .undestructurable id)

/-- Folds a pattern (`convert_to_node`): one headed by a postulate or a leaf is destructured, one
headed by another term is checked. -/
def ofResolved (p : Resolved) : Except Failure Position := ofSpine p none p []

end Position

/-- Checks the captures that a subclause requests: each once, and all below the number of captures
of the rule. -/
def checkUsed (id : NodeId) (captures : Nat) : List Nat → List Nat → Except Failure Unit
  | _, [] => pure ()
  | seen, c :: rest =>
    if c ∈ seen then throw (.rejected (.captureRequestedTwice c) id)
    else if captures ≤ c then throw (.rejected (.captureUnboundInSubclause c) id)
    else checkUsed id captures (c :: seen) rest

/-- Folds a subclause, which must be headed by a postulate. -/
def FoldedSubclause.ofResolved (captures : Nat) (s : ResolvedSubclause) :
    Except Failure FoldedSubclause := do
  checkUsed s.id captures [] s.used
  match ← Position.ofResolved s.pattern with
  | .destructure _ (.postulate p) args => pure ⟨s.id, s.used, .postulate p, args⟩
  | _ => throw (.rejected .unmatchableSubclause s.id)

/-- Folds the left side of a rule, which must apply a declaration to the arguments in scope, then to
the positions matched (`normalize_pattern`). -/
def Folded.ofResolved (id : NodeId) (pattern : Resolved) (subclauses : List ResolvedSubclause)
    (captures : Nat) : Except Failure Folded := do
  match pattern.head with
  | .term headId value =>
    match value.head with
    | .decl d =>
      if value.args = Term.firstArgs value.args.length then
        let matched ← pattern.args.mapM fun x => Position.ofResolved x.2
        let subclauses ← subclauses.mapM (FoldedSubclause.ofResolved captures)
        pure ⟨id, .decl d, value.args.length, captures, matched, subclauses⟩
      else
        throw (.rejected .badApplicationInPattern headId)
    | _ => throw (.rejected .badApplicationInPattern headId)
  | p => throw (.rejected .badApplicationInPattern p.id)

/-- The value that a shard destructures (`Matched`). -/
inductive Subject where
  /-- A value produced by an earlier shard. -/
  | value (position : Nat)
  /-- The value of a subclause's expression, with the captures that it requests. -/
  | subclause (index : Nat) (requested : List Term)
deriving DecidableEq, Repr

/-- One step of a flat pattern (`FlatShard`). -/
inductive Shard where
  /-- Produces the next argument of the head. -/
  | pull
  /-- Produces the `count` arguments to which `head` is applied in the subject. -/
  | destructure (id : NodeId) (subject : Subject) (head : Term) (count : Nat)
deriving DecidableEq, Repr

/-- The value at a position must be equal to an expression. -/
structure FlatCheck where
  id : NodeId
  position : Nat
  expected : Resolved
deriving DecidableEq, Repr

/-- The left side of a rule as a list of shards (`FlatPattern`). -/
structure Flat where
  id : NodeId
  head : Term
  inScope : Nat
  /-- Number of arguments of the head that are consumed, those in scope included. -/
  arity : Nat
  shards : List Shard
  /-- For every capture, the value that stands for it. -/
  captures : List Term
  checks : List FlatCheck
deriving Repr

/-- A flat pattern in the making (`Flattener`). -/
structure Flattening where
  /-- For every capture, the position at which it is bound. -/
  bound : List (Option Nat)
  /-- The number of the next value. -/
  next : Nat
  shards : List Shard
  checks : List FlatCheck
deriving Repr

namespace Flattening

/-- Adds a shard that produces a number of values. -/
def addShard (f : Flattening) (s : Shard) (count : Nat) : Flattening :=
  { f with shards := f.shards ++ [s], next := f.next + count }

/-- Adds a check. -/
def addCheck (f : Flattening) (c : FlatCheck) : Flattening := { f with checks := f.checks ++ [c] }

/-- Binds a capture to the value at a position. If it is bound already the two values must be
equal. -/
def bindCapture (f : Flattening) (id : NodeId) (index position : Nat) :
    Except Failure Flattening :=
  match f.bound[index]? with
  | none => throw (.rejected (.captureUnboundInRule index) id)
  | some (some _) => pure (f.addCheck ⟨id, position, .capture id index⟩)
  | some none => pure { f with bound := f.bound.set index (some position) }

mutual

/-- Deals with the value at a position. -/
def bind (f : Flattening) (position : Nat) : Position → Except Failure Flattening
  | .destructure id head args =>
    bindAll (f.addShard (.destructure id (.value position) head args.length) args.length)
      f.next args
  | .capture id index => f.bindCapture id index position
  | .check id expected => pure (f.addCheck ⟨id, position, expected⟩)
  | .ignore => pure f

/-- Deals with the values at successive positions. -/
def bindAll (f : Flattening) (position : Nat) : List Position → Except Failure Flattening
  | [] => pure f
  | p :: rest => do
    let f ← bind f position p
    bindAll f (position + 1) rest

end

/-- Pulls an argument of the head. -/
def pull (f : Flattening) (p : Position) : Except Failure Flattening :=
  bind (f.addShard .pull 1) f.next p

/-- Pulls arguments in order. -/
def pullAll (f : Flattening) : List Position → Except Failure Flattening
  | [] => pure f
  | p :: rest => do
    let f ← f.pull p
    pullAll f rest

/-- The first requested capture that is not bound (`missing`). -/
def unbound? (f : Flattening) (used : List Nat) : Option Nat :=
  used.find? fun c => (f.bound[c]?.getD none).isNone

/-- Pulls arguments until the captures that a subclause requests are bound. -/
def pullFor (id : NodeId) (used : List Nat) (f : Flattening) :
    List Position → Except Failure (List Position × Flattening)
  | [] =>
    match f.unbound? used with
    | none => pure ([], f)
    | some c => throw (.rejected (.captureUnboundInSubclause c) id)
  | p :: rest =>
    match f.unbound? used with
    | none => pure (p :: rest, f)
    | some _ => do
      let f ← f.pull p
      pullFor id used f rest

/-- The values of the requested captures. -/
def requested (f : Flattening) (used : List Nat) : List Term :=
  used.filterMap fun c => (f.bound[c]?.getD none).map Term.arg

/-- Flattens subclauses, numbered from `index` on; answers the arguments of the head that are left.
-/
def subclauses (f : Flattening) (left : List Position) :
    Nat → List FoldedSubclause → Except Failure (List Position × Flattening)
  | _, [] => pure (left, f)
  | index, s :: rest => do
    let (left, f) ← pullFor s.id s.used f left
    let shard :=
      Shard.destructure s.id (.subclause index (f.requested s.used)) s.head s.args.length
    let f ← bindAll (f.addShard shard s.args.length) f.next s.args
    subclauses f left (index + 1) rest

/-- The values of all captures, numbered from `index` on; all must be bound. -/
def captures (id : NodeId) : Nat → List (Option Nat) → Except Failure (List Term)
  | _, [] => pure []
  | index, none :: _ => throw (.rejected (.captureUnboundInRule index) id)
  | index, some position :: rest => do
    let others ← captures id (index + 1) rest
    pure (.arg position :: others)

end Flattening

/-- Flattens a pattern (`flatten_pattern`). -/
def Flat.ofFolded (p : Folded) : Except Failure Flat := do
  let start : Flattening := ⟨List.replicate p.captures none, p.inScope, [], []⟩
  let (left, f) ← start.subclauses p.matched 0 p.subclauses
  let f ← f.pullAll left
  let captures ← Flattening.captures p.id 0 f.bound
  pure ⟨p.id, p.head, p.inScope, p.inScope + p.matched.length, f.shards, captures, f.checks⟩

end Pattern
end Elaboration
