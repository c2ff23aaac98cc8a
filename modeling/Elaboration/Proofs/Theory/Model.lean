import Elaboration.Kernel.Basic
import Elaboration.Proofs.Theory.Basic

/-!
# A model of the built-in rules

The built-in declarations have values in a structure in which application is extensional and spines
with rigid heads are free. So equality under the built-in rules, and under further rules that hold
in the model, does not relate everything.
-/

namespace Elaboration

open Function List Term

/-- The values of terms: spines whose head never changes, and what built-in declarations and their
partial applications are. -/
inductive Value where
  /-- A postulate, a leaf or a placeholder. -/
  | atom (a : Term)
  /-- A value that is no function, applied. -/
  | spine (f x : Value)
  /-- The function that is `v` everywhere. -/
  | always (v : Value)
  /-- Maps `x` to itself. -/
  | same
  /-- Maps `x` to the type of functions from `x` to `v`. -/
  | into (v : Value)
  /-- Maps `x` to the function of two values that is `x` everywhere. -/
  | constants
  | arrowCodomain
  | constantCodomain1
  | constantCodomain2
  | constantCodomain3
  | identityCodomain

namespace Value

/-- `arrow domain codomain`. -/
def arrowOf (domain codomain : Value) :
    Value := spine (spine (atom Primitive.arrow) domain) codomain

/-- The type of types. -/
def type : Value := atom Primitive.type

/-- The value of an application. -/
def apply : Value → Value → Value
  | atom a, x => spine (atom a) x
  | spine f y, x => spine (spine f y) x
  | always v, _ => v
  | same, x => x
  | into v, x => arrowOf x (always v)
  | constants, x => always (always x)
  | arrowCodomain, x => arrowOf (arrowOf x (always type)) (always type)
  | constantCodomain1, x => arrowOf x (always (arrowOf type (into x)))
  | constantCodomain2, x => always (arrowOf type (into x))
  | constantCodomain3, x => into x
  | identityCodomain, x => arrowOf x (always x)

private theorem eq_of_apply_eq {f g : Value} (h : ∀ x, f.apply x = g.apply x) : f = g := by
  have h0 := h (atom (.arg 0))
  have h1 := h (atom (.arg 1))
  clear h
  cases f <;> cases g <;> grind [apply, arrowOf, type]

/-- The head of a spine and what it is applied to. -/
def unfold : Value → Value × List Value
  | spine f x => (f.unfold.1, f.unfold.2 ++ [x])
  | v => (v, [])

private theorem unfold_apply {f : Value} {a : Term} {xs : List Value} (h : f.unfold = (atom a, xs))
    (x : Value) : (f.apply x).unfold = (atom a, xs ++ [x]) := by
  cases f with
  | atom b => cases h; rfl
  | spine g y => rw [apply, unfold, h]
  | _ => cases h

/-- The value of a term, declarations and arguments having given values. -/
def ofTerm (δ ρ : Nat → Value) : Term → Value
  | .app f x => (ofTerm δ ρ f).apply (ofTerm δ ρ x)
  | .arg i => ρ i
  | .decl id => δ id
  | t => atom t

variable {δ ρ : Nat → Value} {t u : Term}

private theorem unfold_ofTerm (ht : t.isRigid) :
    (ofTerm δ ρ t).unfold = (atom t.head, t.args.map (ofTerm δ ρ)) := by
  induction t with
  | app f x ihf _ =>
    rw [ofTerm, unfold_apply (ihf ht), args_app, map_append]
    rfl
  | arg i | decl id | placeholder i => cases ht
  | postulate id | leaf l => rfl

private theorem ofTerm_apply (t : Term) (xs : List Term) :
    ofTerm δ ρ (t.apply xs) = (xs.map (ofTerm δ ρ)).foldl apply (ofTerm δ ρ t) := by
  induction xs generalizing t with
  | nil => rfl
  | cons x xs ih =>
    rw [apply_cons, ih]
    rfl

private theorem ofTerm_subst (t : Term) (xs : List Term) :
    ofTerm δ ρ (t.subst xs) = ofTerm δ (fun i => ofTerm δ ρ (places xs i)) t := by
  induction t with
  | app f x ihf ihx => rw [subst_app, ofTerm, ihf, ihx, ofTerm]
  | _ => rfl

private theorem ofTerm_update {n : Nat} (ht : ¬ t.Mentions n) (v : Value) :
    ofTerm δ (update ρ n v) t = ofTerm δ ρ t := by
  rw [Mentions, not_not] at ht
  induction t with
  | app f x ihf ihx => rw [ofTerm, ihf ht.1, ihx ht.2, ofTerm]
  | arg i =>
    refine update_of_ne ?_ _ _
    rintro rfl
    exact ht rfl
  | _ => rfl

/-! ### Equality in the model -/

/-- The terms have one value, whatever the values of arguments are. -/
def Equates (δ : Nat → Value) (t u : Term) : Prop := ∀ ρ, ofTerm δ ρ t = ofTerm δ ρ u

/-- The rule, read as a conditional equation about a declaration, holds in the model. -/
def Models (δ : Nat → Value) (id : Nat) (r : Rule) : Prop :=
  ∀ args caps rest, Rule.MatchedBy (Equates δ) r.steps [] args caps rest →
    Equates δ ((Term.decl id).apply args) ((r.replacement.subst caps).apply rest)

private theorem Equates.subst (h : Equates δ t u) (xs : List Term) :
    Equates δ (t.subst xs) (u.subst xs) := by
  intro ρ
  rw [ofTerm_subst, ofTerm_subst]
  exact h _

theorem Equates.apply (h : Equates δ t u) (xs : List Term) :
    Equates δ (t.apply xs) (u.apply xs) := by
  intro ρ
  rw [ofTerm_apply, ofTerm_apply, h ρ]

/-- Equality in the model has the properties that equality is the least relation with. -/
theorem theory_equates {R : RuleTable} (hR : ∀ id r, R.ruleFor? id = some r → Models δ id r) :
    Theory R [] (Equates δ) where
  refl _ _ := rfl
  symm h ρ := (h ρ).symm
  trans h h' ρ := (h ρ).trans (h' ρ)
  app h h' ρ := by rw [ofTerm, h ρ, h' ρ, ofTerm]
  rule id r args caps rest hr _ hmatched := hR id r hr args caps rest hmatched
  injective t u ht hu hs h := by
    refine forall₂_iff_get.2 ⟨hs.2, fun i hi hi' ρ => ?_⟩
    have hunfold := congrArg unfold (h ρ)
    rw [unfold_ofTerm ht, unfold_ofTerm hu] at hunfold
    have hargs := getElem_of_eq (Prod.mk.inj hunfold).2 (by simpa using hi)
    simpa using hargs
  assumed _ ha := nomatch ha
  clash := by
    rintro ⟨t, u, ht, hu, hs, h⟩
    have hunfold := congrArg unfold (h fun _ => type)
    rw [unfold_ofTerm ht, unfold_ofTerm hu] at hunfold
    obtain ⟨hhead, hargs⟩ := Prod.mk.inj hunfold
    refine absurd ⟨Value.atom.inj hhead, ?_⟩ hs
    simpa using congrArg length hargs
  extensional n ht hu _ h ρ := by
    refine eq_of_apply_eq fun v => ?_
    have happ := h (update ρ n v)
    rwa [ofTerm, ofTerm, ofTerm_update ht, ofTerm_update hu, ofTerm, update_self] at happ

/-! ### Rules that hold -/

private theorem exists_of_matchedBy_pulls {E : Term → Term → Prop} {n : Nat}
    {caps args caps' rest : List Term}
    (h : Rule.MatchedBy E (replicate n .pull) caps args caps' rest) :
    ∃ taken, taken.length = n ∧ args = taken ++ rest ∧ caps' = caps ++ taken := by
  induction n generalizing caps args with
  | zero => exact ⟨[], rfl, h.2.symm, by rw [h.1, append_nil]⟩
  | succ n ih =>
    cases args with
    | nil => exact h.elim
    | cons x args =>
      obtain ⟨taken, hlength, rfl, rfl⟩ := ih h
      exact ⟨x :: taken, congrArg (· + 1) hlength, rfl, by rw [append_assoc]; rfl⟩

/-- A rule that only names its arguments holds if both its sides have one value. -/
theorem models_lambda {id arity : Nat} {head replacement : Term}
    (h : Equates δ ((decl id).applyArgs arity) replacement) :
    Models δ id (.lambda head arity replacement) := by
  intro args caps rest hmatched
  obtain ⟨_, rfl, rfl, rfl⟩ := exists_of_matchedBy_pulls hmatched
  have hinstance := (h.subst caps).apply rest
  rw [applyArgs, subst_apply, map_subst_firstArgs] at hinstance
  rwa [apply_append]

/-- The values of the built-in declarations. -/
def ofBuiltIn : Nat → Value
  | 2 => into type
  | 3 => always constants
  | 4 => always same
  | 5 => arrowCodomain
  | 6 => constantCodomain1
  | 7 => constantCodomain2
  | 8 => constantCodomain3
  | 9 => identityCodomain
  | id => atom (.decl id)

/-- The built-in rules hold wherever the built-in declarations have their values. -/
theorem models_of_mem_rules (hδ : ∀ id < Primitive.count, δ id = ofBuiltIn id) :
    ∀ x ∈ Primitive.rules, Models δ x.1 x.2 := by
  have hvalue : ∀ id, id < 10 → δ id = ofBuiltIn id := hδ
  simp only [Primitive.rules, forall_mem_cons]
  refine ⟨?_, ?_, ?_, ?_, ?_, ?_, ?_, ?_, forall_mem_nil _⟩ <;>
    refine models_lambda fun ρ => ?_ <;>
    simp [applyArgs, firstArgs, range_succ, ofTerm, apply, ofBuiltIn, arrowOf, type,
      Primitive.arrowOf, Primitive.typeFamilyOf, Primitive.constantFamily, Primitive.typeFamily,
      Primitive.constant, Primitive.constantCodomain2, Primitive.constantCodomain3, Primitive.arrow,
      Primitive.type, hvalue]

end Value

end Elaboration
