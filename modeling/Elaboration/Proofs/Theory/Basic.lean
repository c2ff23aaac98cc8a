import Elaboration.Proofs.Rule.Closed

/-!
# Equality of terms

The equality that solving is about: the least congruence that reads the installed rules as
conditional equations, contains the assumptions of a telescope, is injective on spines with one
rigid head, relates everything if it relates rigid spines of different shapes, and is extensional.
Under closed rules it holds of all instances under which the assumptions hold.
-/

namespace Elaboration

open List

/-- A congruence on terms. -/
structure Congruence (E : Term → Term → Prop) : Prop where
  refl : ∀ t, E t t
  symm : ∀ {t u}, E t u → E u t
  trans : ∀ {t u v}, E t u → E u v → E t v
  app : ∀ {f g x y}, E f g → E x y → E (.app f x) (.app g y)

/-- A congruence that reads the rules of a table as conditional equations. -/
structure RuleCongruence (R : RuleTable) (E : Term → Term → Prop) : Prop extends Congruence E where
  rule : ∀ id r args caps rest, R.ruleFor? id = some r → r.arity ≤ args.length →
    Rule.MatchedBy E r.steps [] args caps rest →
    E ((Term.decl id).apply args) ((r.replacement.subst caps).apply rest)

/-- Two terms are spines with rigid heads, of one head and one length. -/
def Term.SameShape (t u : Term) : Prop := t.head = u.head ∧ t.args.length = u.args.length

instance (t u : Term) : Decidable (t.SameShape u) := inferInstanceAs (Decidable (_ ∧ _))

/-- A relation that is injective on spines of one rigid head and one length. -/
def Injective (E : Term → Term → Prop) : Prop :=
  ∀ t u, t.isRigid → u.isRigid → t.SameShape u → E t u → List.Forall₂ E t.args u.args

/-- Some spines with rigid heads are related that differ in their heads or lengths. -/
def Clash (E : Term → Term → Prop) : Prop :=
  ∃ t u, t.isRigid ∧ u.isRigid ∧ ¬ t.SameShape u ∧ E t u

/-- The relations that a local equality context is sound for. -/
structure LocalTheory (R : RuleTable) (E : Term → Term → Prop) : Prop
    extends RuleCongruence R E where
  injective : Injective E

/-- The argument of a number occurs in the term. -/
def Term.Mentions (n : Nat) (t : Term) : Prop := ¬ t.All (· ≠ .arg n)

/-- The relations that solving below assumptions is sound for. -/
structure Theory (R : RuleTable) (assumptions : List (Term × Term)) (E : Term → Term → Prop) : Prop
    extends LocalTheory R E where
  assumed : ∀ a ∈ assumptions, E a.1 a.2
  clash : Clash E → ∀ t u, E t u
  extensional : ∀ {t u} n, ¬ t.Mentions n → ¬ u.Mentions n →
    (∀ a ∈ assumptions, ¬ a.1.Mentions n ∧ ¬ a.2.Mentions n) →
    E (.app t (.arg n)) (.app u (.arg n)) → E t u

/-- Equality under the rules of a table and assumptions. -/
def Equal (R : RuleTable) (assumptions : List (Term × Term)) (t u : Term) : Prop :=
  ∀ E, Theory R assumptions E → E t u

variable {R S : RuleTable} {E : Term → Term → Prop} {assumptions : List (Term × Term)}
  {xs ys : List Term}

/-- Congruences pass to spines. -/
theorem Congruence.apply (hE : Congruence E) {t u : Term} (htu : E t u)
    (hxy : Forall₂ E xs ys) : E (t.apply xs) (u.apply ys) := by
  induction hxy generalizing t u with
  | nil => exact htu
  | cons hx _ ih => exact ih (hE.app htu hx)

private theorem RuleCongruence.of_sub (hE : RuleCongruence S E) (h : R.Sub S) :
    RuleCongruence R E where
  toCongruence := hE.toCongruence
  rule id r args caps rest hr := hE.rule id r args caps rest (h id r hr)

/-- Theories of more rules are theories of fewer. -/
theorem LocalTheory.of_sub (hE : LocalTheory S E) (h : R.Sub S) : LocalTheory R E where
  toRuleCongruence := hE.toRuleCongruence.of_sub h
  injective := hE.injective

/-- Theories of more rules are theories of fewer. -/
theorem Theory.of_sub (hE : Theory S assumptions E) (h : R.Sub S) : Theory R assumptions E where
  __ := hE
  toLocalTheory := hE.toLocalTheory.of_sub h

/-! ### Equality is the least such relation -/

private theorem forall₂_of_forall {ι : Type} {p : ι → Prop} {F : ι → Term → Term → Prop}
    (hlen : xs.length = ys.length) (h : ∀ i, p i → Forall₂ (F i) xs ys) :
    Forall₂ (fun x y => ∀ i, p i → F i x y) xs ys :=
  forall₂_iff_get.2 ⟨hlen, fun n hn hn' i hi => (forall₂_iff_get.1 (h i hi)).2 n hn hn'⟩

/-- Equality has all the properties that it is the least one of. -/
theorem theory_equal (R : RuleTable) (assumptions : List (Term × Term)) :
    Theory R assumptions (Equal R assumptions) where
  refl t E hE := hE.refl t
  symm h E hE := hE.symm (h E hE)
  trans h h' E hE := hE.trans (h E hE) (h' E hE)
  app h h' E hE := hE.app (h E hE) (h' E hE)
  rule id r args caps rest hr harity hm E hE :=
    hE.rule id r args caps rest hr harity (hm.mono fun t u h => h E hE)
  injective t u ht hu hs h :=
    forall₂_of_forall hs.2 fun E hE => hE.injective t u ht hu hs (h E hE)
  assumed a ha E hE := hE.assumed a ha
  clash := by
    rintro ⟨t, u, ht, hu, hs, h⟩ t' u' E hE
    exact hE.clash ⟨t, u, ht, hu, hs, h E hE⟩ t' u'
  extensional n ht hu ha h E hE := hE.extensional n ht hu ha (h E hE)

/-- It is below any relation with these properties. -/
theorem equal_le {t u : Term} (hE : Theory R assumptions E) (h : Equal R assumptions t u) : E t u :=
  h E hE

/-- Equality in a local context: the least relation that such a context is sound for and that
contains its assumptions. -/
def LocallyEqual (R : RuleTable) (assumptions : List (Term × Term)) (t u : Term) : Prop :=
  ∀ E, LocalTheory R E → (∀ a ∈ assumptions, E a.1 a.2) → E t u

/-- Local equality has the properties that it is the least one of. -/
theorem localTheory_locallyEqual (R : RuleTable) (assumptions : List (Term × Term)) :
    LocalTheory R (LocallyEqual R assumptions) where
  refl t _ hE _ := hE.refl t
  symm h E hE hA := hE.symm (h E hE hA)
  trans h h' E hE hA := hE.trans (h E hE hA) (h' E hE hA)
  app h h' E hE hA := hE.app (h E hE hA) (h' E hE hA)
  rule id r args caps rest hr harity hm E hE hA :=
    hE.rule id r args caps rest hr harity (hm.mono fun _ _ h => h E hE hA)
  injective t u ht hu hs h :=
    forall₂_iff_get.2 ⟨hs.2, fun n hn hn' E hE hA =>
      (forall₂_iff_get.1 (hE.injective t u ht hu hs (h E hE hA))).2 n hn hn'⟩

theorem locallyEqual_of_mem {a : Term × Term} (ha : a ∈ assumptions) :
    LocallyEqual R assumptions a.1 a.2 :=
  fun _ _ hA => hA a ha

/-- A local equality context can be read against the relation that holds always. -/
theorem localTheory_true (R : RuleTable) : LocalTheory R fun _ _ => True where
  refl _ := trivial
  symm _ := trivial
  trans _ _ := trivial
  app _ _ := trivial
  rule _ _ _ _ _ _ _ _ := trivial
  injective _ _ _ _ hs _ := forall₂_iff_get.2 ⟨hs.2, fun _ _ _ => trivial⟩

open Function Term

namespace Term

/-- Replaces every argument. -/
def instantiate (σ : Nat → Term) : Term → Term
  | app f x => app (f.instantiate σ) (x.instantiate σ)
  | arg i => σ i
  | t => t

/-- The terms in the places of the first arguments, the other arguments staying as they are. -/
def places (xs : List Term) (i : Nat) : Term := xs[i]?.getD (arg i)

variable {σ τ : Nat → Term} {t u : Term} {n : Nat}

theorem subst_eq_instantiate (t : Term) (xs : List Term) :
    t.subst xs = t.instantiate (places xs) := by
  induction t with
  | app f x ihf ihx => rw [subst, instantiate, ihf, ihx]
  | _ => rfl

private theorem instantiate_apply (t : Term) (xs : List Term) :
    (t.apply xs).instantiate σ = (t.instantiate σ).apply (xs.map (instantiate σ)) := by
  induction xs generalizing t with
  | nil => rfl
  | cons x xs ih =>
    rw [apply_cons, ih, map_cons, apply_cons]
    rfl

private theorem instantiate_congr (h : t.All fun a => ∀ i, a = arg i → σ i = τ i) :
    t.instantiate σ = t.instantiate τ := by
  induction t with
  | app f x ihf ihx => rw [instantiate, instantiate, ihf h.1, ihx h.2]
  | arg i => exact h i rfl
  | _ => rfl

private theorem instantiate_update (ht : ¬ t.Mentions n) :
    t.instantiate (update σ n u) = t.instantiate σ := by
  refine instantiate_congr ((not_not.1 ht).mono ?_)
  rintro a ha i rfl
  refine update_of_ne ?_ _ _
  rintro rfl
  exact ha rfl

theorem Below.instantiate_eq (ht : t.Below 0) : t.instantiate σ = t := by
  induction t with
  | app f x ihf ihx => rw [instantiate, ihf ht.1, ihx ht.2]
  | arg i => exact absurd ht (Nat.not_lt_zero i)
  | _ => rfl

private theorem Below.instantiate_subst (ht : t.Below xs.length) :
    (t.subst xs).instantiate σ = t.subst (xs.map (instantiate σ)) := by
  induction t with
  | app f x ihf ihx => rw [subst, instantiate, ihf ht.1, ihx ht.2, subst]
  | arg i =>
    have hi : i < xs.length := ht
    rw [subst_arg_of_lt hi, subst_arg_of_lt (by simpa using hi), getElem_map]
  | _ => rfl

private theorem head_instantiate (ht : t.isRigid) : (t.instantiate σ).head = t.head := by
  induction t with
  | app f x ihf _ => exact ihf ht
  | arg i => cases ht
  | _ => rfl

private theorem args_instantiate (ht : t.isRigid) :
    (t.instantiate σ).args = t.args.map (instantiate σ) := by
  induction t with
  | app f x ihf _ =>
    rw [instantiate, args_app, ihf ht, args_app, map_append]
    rfl
  | arg i => cases ht
  | _ => rfl

private theorem isRigid_instantiate (ht : t.isRigid) : (t.instantiate σ).isRigid := by
  unfold isRigid at ht ⊢
  rwa [head_instantiate ht]

private theorem sameShape_instantiate (ht : t.isRigid) (hu : u.isRigid) :
    (t.instantiate σ).SameShape (u.instantiate σ) ↔ t.SameShape u := by
  unfold SameShape
  rw [head_instantiate ht, head_instantiate hu, args_instantiate ht, args_instantiate hu,
    length_map, length_map]

private theorem exists_below (t : Term) : ∃ d, t.Below d := by
  induction t with
  | app f x ihf ihx =>
    obtain ⟨d, hf⟩ := ihf
    obtain ⟨d', hx⟩ := ihx
    exact ⟨max d d', hf.mono (Nat.le_max_left ..), hx.mono (Nat.le_max_right ..)⟩
  | arg i => exact ⟨i + 1, Nat.lt_succ_self i⟩
  | _ => exact ⟨0, trivial⟩

private theorem Below.not_mentions (ht : t.Below n) : ¬ t.Mentions n := by
  refine not_not.2 ((below_iff_all.1 ht).mono ?_)
  rintro a ha rfl
  exact Nat.lt_irrefl n ha

private theorem exists_not_mentions (ts : List Term) : ∃ n, ∀ t ∈ ts, ¬ t.Mentions n := by
  suffices h : ∃ d, ∀ t ∈ ts, t.Below d by
    obtain ⟨d, hd⟩ := h
    exact ⟨d, fun t ht => (hd t ht).not_mentions⟩
  induction ts with
  | nil => exact ⟨0, forall_mem_nil _⟩
  | cons t ts ih =>
    obtain ⟨d, ht⟩ := t.exists_below
    obtain ⟨d', hts⟩ := ih
    refine ⟨max d d', forall_mem_cons.2 ⟨ht.mono (Nat.le_max_left ..), fun u hu => ?_⟩⟩
    exact (hts u hu).mono (Nat.le_max_right ..)

end Term

/-- The head that the step expects mentions no argument. -/
def Rule.Step.HeadClosed : Rule.Step → Prop
  | .pull => True
  | .destructure _ head _ => head.Below 0

/-- No match step of a rule expects a head with an argument. -/
def RuleTable.HeadsClosed (R : RuleTable) : Prop :=
  ∀ id r, R.ruleFor? id = some r → ∀ s ∈ r.steps, s.HeadClosed

private theorem Rule.MatchedBy.instantiate {E F : Term → Term → Prop} {σ : Nat → Term}
    {steps : List Step}
    {caps args caps' rest : List Term} (h : MatchedBy E steps caps args caps' rest)
    (hEF : ∀ t u, E t u → F (t.instantiate σ) (u.instantiate σ))
    (hsteps : StepsClosed caps.length steps) (hheads : ∀ s ∈ steps, s.HeadClosed) :
    MatchedBy F steps (caps.map (instantiate σ)) (args.map (instantiate σ))
      (caps'.map (instantiate σ)) (rest.map (instantiate σ)) := by
  induction steps generalizing caps args with
  | nil =>
    obtain ⟨rfl, rfl⟩ := h
    exact ⟨rfl, rfl⟩
  | cons s steps ih =>
    rw [forall_mem_cons] at hheads
    cases s with
    | pull =>
      cases args with
      | nil => exact h.elim
      | cons x args =>
        have hrest := ih h (by rwa [length_append]) hheads.2
        rwa [map_append] at hrest
    | destructure subject head count =>
      obtain ⟨ys, hys, hsubject, hrest⟩ := h
      have hrest' := ih hrest (by rw [length_append, hys]; exact hsteps.2) hheads.2
      rw [map_append] at hrest'
      refine ⟨ys.map (Term.instantiate σ), by rwa [length_map], ?_, hrest'⟩
      have hhead : head.Below 0 := hheads.1
      have hsubject' := hEF _ _ hsubject
      rwa [hsteps.1.instantiate_subst, instantiate_apply, hhead.instantiate_eq] at hsubject'

/-! ### Instances -/

variable {A B : List (Term × Term)} {t u : Term}

/-- All instances of the terms under which the assumptions `A` hold are equal. -/
def EqualInstances (A : List (Term × Term)) (S : RuleTable) (B : List (Term × Term)) (t u : Term) :
    Prop :=
  ∀ σ, (∀ a ∈ A, Equal S B (a.1.instantiate σ) (a.2.instantiate σ)) →
    Equal S B (t.instantiate σ) (u.instantiate σ)

private theorem equalInstances_extensional {n : Nat} (ht : ¬ t.Mentions n) (hu : ¬ u.Mentions n)
    (hA : ∀ a ∈ A, ¬ a.1.Mentions n ∧ ¬ a.2.Mentions n)
    (h : EqualInstances A S B (.app t (.arg n)) (.app u (.arg n))) : EqualInstances A S B t u := by
  intro σ hσ
  obtain ⟨m, hm⟩ := exists_not_mentions
    (t.instantiate σ :: u.instantiate σ :: (B.map Prod.fst ++ B.map Prod.snd))
  simp only [forall_mem_cons, forall_mem_append, forall_mem_map] at hm
  obtain ⟨htm, hum, hfst, hsnd⟩ := hm
  -- the bound argument is instantiated by one that nothing else mentions
  have happ := h (update σ n (.arg m)) fun a ha => by
    rw [instantiate_update (hA a ha).1, instantiate_update (hA a ha).2]
    exact hσ a ha
  simp only [instantiate, instantiate_update ht, instantiate_update hu, update_self] at happ
  exact (theory_equal S B).extensional m htm hum (fun b hb => ⟨hfst b hb, hsnd b hb⟩) happ

private theorem theory_equalInstances (hR : R.Closed) (hheads : R.HeadsClosed) (hRS : R.Sub S) :
    Theory R A (EqualInstances A S B) := by
  have hE := theory_equal S B
  refine ⟨⟨⟨⟨?_, ?_, ?_, ?_⟩, ?_⟩, ?_⟩, ?_, ?_, ?_⟩
  · exact fun t σ _ => hE.refl _
  · exact fun h σ hσ => hE.symm (h σ hσ)
  · exact fun h h' σ hσ => hE.trans (h σ hσ) (h' σ hσ)
  · exact fun h h' σ hσ => hE.app (h σ hσ) (h' σ hσ)
  · intro id r args caps rest hr harity hmatched σ hσ
    have hclosed := hR id r hr
    have hmatched' := hmatched.instantiate (fun _ _ h => h σ hσ) hclosed.steps (hheads id r hr)
    have hlength : caps.length = r.captureCount := by
      simpa [Rule.captureCount] using hmatched.length
    rw [instantiate_apply, instantiate_apply,
      Below.instantiate_subst (hlength ▸ hclosed.replacement)]
    exact hE.rule id r _ _ _ (hRS id r hr) (by simpa using harity) hmatched'
  · intro t u ht hu hs h
    refine forall₂_iff_get.2 ⟨hs.2, fun i hi hi' σ hσ => ?_⟩
    have hargs := hE.injective _ _ (isRigid_instantiate ht) (isRigid_instantiate hu)
      ((sameShape_instantiate ht hu).2 hs) (h σ hσ)
    rw [args_instantiate ht, args_instantiate hu, forall₂_map_left_iff,
      forall₂_map_right_iff] at hargs
    exact (forall₂_iff_get.1 hargs).2 i hi hi'
  · exact fun a ha σ hσ => hσ a ha
  · rintro ⟨t, u, ht, hu, hs, h⟩ t' u' σ hσ
    refine hE.clash ⟨_, _, isRigid_instantiate ht, isRigid_instantiate hu, ?_, h σ hσ⟩ _ _
    exact fun hshape => hs ((sameShape_instantiate ht hu).1 hshape)
  · exact fun n ht hu hA h => equalInstances_extensional ht hu hA h

/-- An equality under closed rules and assumptions holds after substitution of terms for which the
assumptions hold, under more rules and other assumptions. -/
theorem Equal.subst (h : Equal R A t u) (hR : R.Closed) (hheads : R.HeadsClosed) (hRS : R.Sub S)
    (xs : List Term) (hA : ∀ a ∈ A, Equal S B (a.1.subst xs) (a.2.subst xs)) :
    Equal S B (t.subst xs) (u.subst xs) := by
  simp only [subst_eq_instantiate] at hA ⊢
  exact h _ (theory_equalInstances hR hheads hRS) _ hA

end Elaboration
