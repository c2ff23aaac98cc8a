import Elaboration.Equalities.Basic
import Elaboration.Journal
import Elaboration.Reduction.Memo
import Elaboration.Violation

/-!
# Recording and maintaining local equalities

Assuming an equation normalises both sides and merges their classes. Two rigid terms are merged by
their arguments, and contradict each other if their heads or numbers of arguments differ. A rigid
term that mentions its own class is dropped. Then, and whenever rules were installed, the members
are normalised again until no two classes meet.
-/

namespace Elaboration

/-- An assumption that equates applications of different heads (`Inconsistent`). -/
structure Contradiction where
  lhs : Term
  rhs : Term
deriving DecidableEq, Repr

namespace Equalities

/-- Equalities under change, and the events on the way. -/
structure State where
  equalities : Equalities
  journal : List Event

/-- Changes of equalities. -/
abbrev Change := EStateM Stop State

/-- An order in which a round visits members. It may be any, and another one for other members, as
that of a hash table. -/
structure Order where
  visit : List (Term × Nat) → List (Term × Nat)
  perm : ∀ members, (visit members).Perm members

/-- The order in which members were recorded. -/
def Order.recorded : Order := ⟨id, fun _ => .refl _⟩

/-- The rules, the bounds and the order of visits under which equalities change. -/
structure Setting where
  rules : RuleTable
  /-- Bound on the depth of reduction and of merging. -/
  limit : Nat
  order : Order

/-- The equalities as they are now. -/
def current : Change Equalities := fun s => .ok s.equalities s

/-- Replaces the equalities. -/
def replace (q : Equalities) : Change Unit := fun s => .ok () { s with equalities := q }

/-- Records an event. -/
def note (e : Event) : Change Unit := fun s => .ok () { s with journal := e :: s.journal }

/-- Reduces a term under the rules and the equalities as they are now. -/
def reduceIn (env : Setting) (mode : Reduction.Mode) (t : Term) : Change Term := fun s =>
  match Reduction.run? env.rules s.equalities.replacer env.limit mode t with
  | some u => .ok u s
  | none => .error .exhausted s

/-- Reduces a list of terms under the rules and the equalities as they are now. -/
def reduceAllIn (env : Setting) (mode : Reduction.Mode) (ts : List Term) : Change (List Term) :=
  fun s =>
    match Reduction.runAll? env.rules s.equalities.replacer env.limit mode ts with
    | some us => .ok us s
    | none => .error .exhausted s

/-- The normal form of a term under the rules and the equalities as they are now (`reduce`). -/
def normalize (env : Setting) (t : Term) : Change Term := reduceIn env .full t

/-- The root of a class, which must exist (`find`). -/
def existingRoot (c : Nat) : Change Nat := do
  let q ← current
  if c < q.classes.size then pure (q.root c)
  else throw (.violation (.classOutOfRange q.classes.size c))

/-- The root of a term's class; a term without one gets a class of its own. -/
def classOf (t : Term) : Change Nat := do
  let q ← current
  let known :=
    match t with
    | .placeholder i => if i < q.classes.size then some i else q.member? t
    | _ => q.member? t
  match known with
  | some c => pure (q.root c)
  | none =>
    let c := q.classes.size
    replace { q with
      classes := q.classes.push ⟨c, q.eliminate t, false⟩
      members := q.members ++ [(t, c)] }
    pure c

/-- Makes a term the rigid canonical term of a class, unless it mentions the class (in
`attach_rigid` and `union`). -/
def settleRigid (c : Nat) (canonical : Term) : Change (Except Contradiction Unit) := do
  let q ← current
  if q.mentions c canonical then
    note (.cyclicAssumptionDropped canonical)
  else
    replace { q with
      classes := q.classes.modify c fun cls => { cls with canonical, rigid := true } }
  pure (.ok ())

/-- Adds a rigid term to a class (`attach_rigid`). If the class is rigid already the two terms are
merged. -/
def attach (env : Setting) (merge : Term → Term → Change (Except Contradiction Unit))
    (c : Nat) (rigid : Term) : Change (Except Contradiction Unit) := do
  let q ← current
  let c := q.root c
  match q.classes[c]? with
  | some ⟨_, canonical, true⟩ =>
    let known ← normalize env canonical
    merge known rigid
  | _ => settleRigid c (q.eliminate rigid)

/-- Joins two classes (`union`): the later one is put below the earlier one, which inherits its
rigid term. -/
def unite (env : Setting) (merge : Term → Term → Change (Except Contradiction Unit))
    (c d : Nat) : Change (Except Contradiction Unit) := do
  let c ← existingRoot c
  let d ← existingRoot d
  if c = d then
    pure (.ok ())
  else
    let top := min c d
    let below := max c d
    let q ← current
    replace { q with classes := q.classes.modify below fun cls => { cls with parent := top } }
    match q.classes[below]? with
    | some ⟨_, canonical, true⟩ =>
      match q.classes[top]? with
      | some ⟨_, known, true⟩ =>
        let known ← normalize env known
        let canonical ← normalize env canonical
        merge known canonical
      | _ => settleRigid top canonical
    | _ => pure (.ok ())

/-- Merges the arguments of two applications of one head, in order, up to the first contradiction
(in `merge`). -/
def mergeArgs (env : Setting) (merge : Term → Term → Change (Except Contradiction Unit)) :
    List (Term × Term) → Change (Except Contradiction Unit)
  | [] => pure (.ok ())
  | (x, y) :: rest => do
    let x ← normalize env x
    let y ← normalize env y
    match ← merge x y with
    | .error e => pure (.error e)
    | .ok () => mergeArgs env merge rest

/-- Merges the classes of two terms in normal form, to a bounded depth. -/
def merge (env : Setting) : Nat → Term → Term → Change (Except Contradiction Unit)
  | 0, _, _ => throw .exhausted
  | depth + 1, lhs, rhs => do
    if lhs = rhs then
      pure (.ok ())
    else
      match lhs.isRigid, rhs.isRigid with
      | true, true =>
        if lhs.head = rhs.head ∧ lhs.args.length = rhs.args.length then
          mergeArgs env (merge env depth) (lhs.args.zip rhs.args)
        else
          let q ← current
          replace { q with inconsistent := true }
          pure (.error ⟨lhs, rhs⟩)
      | true, false =>
        let c ← classOf rhs
        attach env (merge env depth) c lhs
      | false, true =>
        let c ← classOf lhs
        attach env (merge env depth) c rhs
      | false, false =>
        let c ← classOf lhs
        let d ← classOf rhs
        unite env (merge env depth) c d

/-- Members are normalised again at most this often (`MAX_CANONICALIZATION_ROUNDS`). -/
def maxRounds : Nat := 16

/-- The members, read without placeholders, whose normal form is a new one, with that form, which is
not replaced by that of its class (in `canonicalize`). -/
def moved (env : Setting) : Change (List (Term × Nat)) := do
  let q ← current
  let members := env.order.visit q.members
  let forms ← reduceAllIn env .spine (members.map fun m => q.eliminate m.1)
  pure ((members.zip forms).filterMap fun (m, fresh) =>
    if fresh = m.1 then none else some (fresh, m.2))

/-- Records the new form of a member and tells whether it is a new one (in `canonicalize`). A
contradiction is kept as the inconsistency of the context. -/
def recordMoved (env : Setting) (fresh : Term) (c : Nat) : Change Bool := do
  let q ← current
  let c := q.root c
  if q.memberRoot? fresh = some c then
    pure false
  else
    if fresh.isRigid then
      let _ ← attach env (merge env env.limit) c fresh
    else
      match q.member? fresh with
      | some d =>
        let _ ← unite env (merge env env.limit) c d
      | none =>
        match fresh with
        | .placeholder d =>
          let _ ← unite env (merge env env.limit) c d
        | _ => replace { q with members := q.members ++ [(fresh, c)] }
    pure true

/-- Records the new forms of members, in order. -/
def recordAllMoved (env : Setting) : List (Term × Nat) → Change Bool
  | [] => pure false
  | (fresh, c) :: rest => do
    let first ← recordMoved env fresh c
    let others ← recordAllMoved env rest
    pure (first || others)

/-- One round of normalising the members (in `canonicalize`). The answer tells whether a new form
was found. -/
def round (env : Setting) : Change Bool := do
  let pending ← moved env
  recordAllMoved env pending

/-- Rounds of normalising the members, until one finds nothing new. -/
def rounds (env : Setting) : Nat → Change Unit
  | 0 => note (.contextUnsettled maxRounds)
  | n + 1 => do
    if ← round env then rounds env n else pure ()

/-- Normalises the members again, so that those which became reducible are still recognised. -/
def canonicalize (env : Setting) : Change Unit := do
  let q ← current
  replace { q with generation := env.rules.generation }
  if q.hasClasses then rounds env maxRounds else pure ()

/-- Assumes an equation (`assume_equal`). A contradiction marks the context as inconsistent. -/
def assume (env : Setting) (lhs rhs : Term) : Change (Except Contradiction Unit) := do
  let lhs ← normalize env lhs
  let rhs ← normalize env rhs
  note (.assuming lhs rhs)
  match ← merge env env.limit lhs rhs with
  | .error e => pure (.error e)
  | .ok () =>
    canonicalize env
    pure (.ok ())

end Equalities
end Elaboration
