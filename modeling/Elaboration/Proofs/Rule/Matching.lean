import Elaboration.Proofs.Term.Spine
import Elaboration.Rule.Basic

/-!
# Matching up to a relation

A rule meets a condition on atoms if every term that it normalises or writes does, captures apart.
Its match program is run up to a relation: with the normal form this is what reduction does, with an
equality it is the reading of a rule as a conditional equation.
-/

namespace Elaboration

open List
namespace Rule

variable {p q : Term → Prop} {steps : List Step}

/-- The subjects of steps run after `n` captures mention these captures and atoms in `p` only, and
no step expects a placeholder. -/
def StepsOver (p : Term → Prop) : Nat → List Step → Prop
  | _, [] => True
  | n, .pull :: steps => StepsOver p (n + 1) steps
  | n, .destructure subject head count :: steps =>
    (subject.All (Term.CaptureOr n p) ∧ head.hasPlaceholder = false) ∧ StepsOver p (n + count) steps

/-- The same of the subjects alone. -/
def SubjectsOver (p : Term → Prop) : Nat → List Step → Prop
  | _, [] => True
  | n, .pull :: steps => SubjectsOver p (n + 1) steps
  | n, .destructure subject _ count :: steps =>
    subject.All (Term.CaptureOr n p) ∧ SubjectsOver p (n + count) steps

/-- The rule mentions its captures and atoms in `p` only. -/
def Over (p : Term → Prop) (r : Rule) : Prop :=
  StepsOver p 0 r.steps ∧ r.replacement.All (Term.CaptureOr r.captureCount p)

private theorem StepsOver.subjects {n : Nat} (h : StepsOver p n steps) :
    SubjectsOver p n steps := by
  induction steps generalizing n with
  | nil => trivial
  | cons s steps ih =>
    cases s with
    | pull => exact ih h
    | destructure subject head count => exact ⟨h.1.1, ih h.2⟩

/-- More atoms may be allowed. -/
theorem StepsOver.mono {n : Nat} (h : StepsOver p n steps)
    (hpq : ∀ a, p a → q a) : StepsOver q n steps := by
  induction steps generalizing n with
  | nil => trivial
  | cons s steps ih =>
    cases s with
    | pull => exact ih h
    | destructure subject head count =>
      exact ⟨h.1.imp_left fun hs => hs.mono fun a ha => ha.imp_right (hpq a), ih h.2⟩

/-- More atoms may be allowed. -/
theorem Over.mono {r : Rule} (h : r.Over p) (hpq : ∀ a, p a → q a) : r.Over q :=
  ⟨h.1.mono hpq, h.2.mono fun a ha => ha.imp_right (hpq a)⟩

private theorem stepsOver_replicate_pull (n count : Nat) :
    StepsOver p n (replicate count .pull) := by
  induction count generalizing n with
  | zero => trivial
  | succ count ih => exact ih (n + 1)

/-- A definition captures its arguments. -/
@[simp] theorem captureCount_lambda (head : Term) (arity : Nat) (replacement : Term) :
    (lambda head arity replacement).captureCount = arity := by
  have h : ∀ n : Nat, (replicate n Step.pull).foldr (fun s m => s.captures + m) 0 = n := by
    intro n
    induction n with
    | zero => rfl
    | succ n ih => rw [replicate_succ, foldr_cons, ih, Step.captures, Nat.add_comm]
  exact h arity

/-- A rule without matches mentions what its replacement mentions. -/
theorem over_lambda {head : Term} {arity : Nat} {replacement : Term} :
    (lambda head arity replacement).Over p ↔ replacement.All (Term.CaptureOr arity p) := by
  unfold Over
  rw [captureCount_lambda]
  exact ⟨fun h => h.2, fun h => ⟨stepsOver_replicate_pull 0 arity, h⟩⟩

end Rule

namespace RuleTable

/-- Every installed rule mentions its captures and atoms in `p` only. -/
def Over (p : Term → Prop) (R : RuleTable) : Prop := ∀ id r, R.ruleFor? id = some r → r.Over p

variable {R : RuleTable} {id : Nat}

/-- More atoms may be allowed. -/
theorem Over.mono {p q : Term → Prop} (h : R.Over p) (hpq : ∀ a, p a → q a) : R.Over q :=
  fun id r hr => (h id r hr).mono hpq

/-- Every rule of one table is a rule of the other. -/
def Sub (R S : RuleTable) : Prop := ∀ id r, R.ruleFor? id = some r → S.ruleFor? id = some r

/-- A table extends itself. -/
theorem Sub.refl (R : RuleTable) : R.Sub R := fun _ _ h => h

/-- Extensions add up. -/
theorem Sub.trans {S T : RuleTable} (h : R.Sub S) (h' : S.Sub T) : R.Sub T :=
  fun id r hr => h' id r (h id r hr)

/-- Installing a rule for a declaration without one keeps the others. -/
theorem sub_install (r : Rule) (h : R.ruleFor? id = none) : R.Sub (R.install id r) := by
  intro j s hs
  rw [ruleFor?_install, if_neg]
  · exact hs
  · rintro rfl
    rw [h] at hs
    cases hs

/-- Installing a rule over `p` keeps tables over `p`. -/
theorem Over.install {p : Term → Prop} {r : Rule} (hR : R.Over p) (hr : r.Over p) :
    (R.install id r).Over p := by
  intro j s hs
  rw [ruleFor?_install] at hs
  split at hs
  · cases hs
    exact hr
  · exact hR j s hs

/-- Allows rules for several declarations. -/
def registerAll (R : RuleTable) (ids : List Nat) : RuleTable := ids.foldl register R

/-- Registering changes no rule. -/
@[simp] theorem ruleFor?_registerAll (R : RuleTable) (ids : List Nat) (j : Nat) :
    (R.registerAll ids).ruleFor? j = R.ruleFor? j := by
  induction ids generalizing R with
  | nil => rfl
  | cons id ids ih =>
    rw [registerAll, foldl_cons]
    exact (ih _).trans (ruleFor?_register R id j)

/-- What is registered after one declaration more. -/
theorem mem_registered_register {j : Nat} :
    j ∈ (R.register id).registered ↔ j = id ∨ j ∈ R.registered := by
  unfold register
  split
  · next h =>
    refine ⟨.inr, ?_⟩
    rintro (rfl | hj)
    · exact h
    · exact hj
  · exact mem_cons

theorem mem_registered_registerAll {ids : List Nat} {j : Nat} :
    j ∈ (R.registerAll ids).registered ↔ j ∈ ids ∨ j ∈ R.registered := by
  induction ids generalizing R with
  | nil => simp [registerAll]
  | cons id ids ih =>
    rw [registerAll, foldl_cons]
    refine ih.trans ?_
    rw [mem_registered_register, mem_cons]
    rw [or_left_comm, or_assoc]

end RuleTable

open Term
namespace Rule

/-- The steps, run with `caps` captured and `args` to come, capture `caps'` in all and leave `rest`
over. -/
def MatchedBy (E : Term → Term → Prop) :
    List Step → List Term → List Term → List Term → List Term → Prop
  | [], caps, args, caps', rest => caps' = caps ∧ rest = args
  | .pull :: _, _, [], _, _ => False
  | .pull :: steps, caps, x :: args, caps', rest => MatchedBy E steps (caps ++ [x]) args caps' rest
  | .destructure subject head count :: steps, caps, args, caps', rest =>
    ∃ ys : List Term, ys.length = count ∧ E (subject.subst caps) (head.apply ys) ∧
      MatchedBy E steps (caps ++ ys) args caps' rest

variable {E F : Term → Term → Prop} {p : Term → Prop} {steps : List Step}
  {caps args caps' rest : List Term}

section

variable (h : MatchedBy E steps caps args caps' rest)
include h

/-- Weaker relations match as well. -/
theorem MatchedBy.mono (hEF : ∀ t u, E t u → F t u) : MatchedBy F steps caps args caps' rest := by
  induction steps generalizing caps args with
  | nil => exact h
  | cons s steps ih =>
    cases s with
    | pull =>
      cases args with
      | nil => exact h
      | cons x args => exact ih h
    | destructure subject head count =>
      obtain ⟨ys, hys, hE, hrest⟩ := h
      exact ⟨ys, hys, hEF _ _ hE, ih hrest⟩

/-- A run captures as many values as its steps say. -/
theorem MatchedBy.length :
    caps'.length = caps.length + steps.foldr (fun s n => s.captures + n) 0 := by
  induction steps generalizing caps args with
  | nil => simp [h.1]
  | cons s steps ih =>
    cases s with
    | pull =>
      cases args with
      | nil => exact h.elim
      | cons x args =>
        have := ih h
        simp only [length_append, length_singleton, foldr_cons, Step.captures] at *
        omega
    | destructure subject head count =>
      obtain ⟨ys, hys, _, hrest⟩ := h
      have := ih hrest
      simp only [length_append, foldr_cons, Step.captures] at *
      omega

private theorem MatchedBy.all
    (hE : ∀ t u, E t u → t.All p → u.All p) (hs : SubjectsOver p caps.length steps)
    (hcaps : ∀ x ∈ caps, x.All p) (hargs : ∀ x ∈ args, x.All p) :
    (∀ x ∈ caps', x.All p) ∧ ∀ x ∈ rest, x.All p := by
  induction steps generalizing caps args with
  | nil =>
    obtain ⟨rfl, rfl⟩ := h
    exact ⟨hcaps, hargs⟩
  | cons s steps ih =>
    cases s with
    | pull =>
      cases args with
      | nil => exact h.elim
      | cons x args =>
        rw [forall_mem_cons] at hargs
        apply ih h
        · rw [length_append]
          exact hs
        · exact forall_mem_append.2 ⟨hcaps, forall_mem_singleton.2 hargs.1⟩
        · exact hargs.2
    | destructure subject head count =>
      obtain ⟨ys, hys, hE', hrest⟩ := h
      have hsubject : (subject.subst caps).All p := hs.1.subst hcaps
      have hys' : ∀ y ∈ ys, y.All p := (all_apply.1 (hE _ _ hE' hsubject)).2
      apply ih hrest
      · rw [length_append, hys]
        exact hs.2
      · exact forall_mem_append.2 ⟨hcaps, hys'⟩
      · exact hargs

end

/-- What a rule writes satisfies `p` if what it mentions and what it matched do. -/
theorem MatchedBy.result {r : Rule} (h : MatchedBy E r.steps [] args caps' rest)
    (hE : ∀ t u, E t u → t.All p → u.All p) (hs : SubjectsOver p 0 r.steps)
    (hr : r.replacement.All (CaptureOr r.captureCount p)) (hargs : ∀ x ∈ args, x.All p) :
    ((r.replacement.subst caps').apply rest).All p := by
  obtain ⟨hcaps, hrest⟩ := h.all hE hs (by simp) hargs
  have hlen : caps'.length = r.captureCount := by simpa [captureCount] using h.length
  refine all_apply.2 ⟨All.subst ?_ hcaps, hrest⟩
  rw [hlen]
  exact hr

theorem Over.result {r : Rule} (hr : r.Over p) (h : MatchedBy E r.steps [] args caps' rest)
    (hE : ∀ t u, E t u → t.All p → u.All p) (hargs : ∀ x ∈ args, x.All p) :
    ((r.replacement.subst caps').apply rest).All p :=
  h.result hE hr.1.subjects hr.2 hargs

end Rule
end Elaboration
