import Mathlib.Algebra.GroupWithZero.Nat
import Elaboration.Proofs.Reduction.Pass

/-!
# Closed rules

A term is below a level if all its arguments are numbered below it. A rule is closed if every match
looks at a term below the number of captures made before it and the replacement is below the number
of all captures. Such rules keep terms below any level.
-/

namespace Elaboration

open List Term

namespace Term

/-- Every argument that the term mentions is numbered below `d`. -/
def Below (d : Nat) : Term → Prop
  | app f x => f.Below d ∧ x.Below d
  | arg i => i < d
  | _ => True

instance decidableBelow (d : Nat) : (t : Term) → Decidable (t.Below d)
  | app f x => @instDecidableAnd _ _ (decidableBelow d f) (decidableBelow d x)
  | arg i => inferInstanceAs (Decidable (i < d))
  | postulate _ | decl _ | leaf _ | placeholder _ => .isTrue trivial

variable {d d' : Nat} {t : Term} {xs : List Term}

@[simp] private theorem below_app (f x : Term) : (app f x).Below d ↔ f.Below d ∧ x.Below d := .rfl
@[simp] private theorem below_arg (i : Nat) : (arg i).Below d ↔ i < d := .rfl
@[simp] theorem below_postulate (id : Nat) : (postulate id).Below d := trivial
@[simp] private theorem below_decl (id : Nat) : (decl id).Below d := trivial
@[simp] private theorem below_leaf (l : Leaf) : (leaf l).Below d := trivial
@[simp] private theorem below_placeholder (i : Nat) : (placeholder i).Below d := trivial

/-- Being below a level is a condition on atoms. -/
theorem below_iff_all : t.Below d ↔ t.All (Below d) := by
  induction t with
  | app f x ihf ihx => rw [below_app, all_app, ihf, ihx]
  | _ => rfl

/-- A higher bound is one as well. -/
theorem Below.mono (h : t.Below d) (hd : d ≤ d') : t.Below d' := by
  induction t with
  | app f x ihf ihx => exact ⟨ihf h.1, ihx h.2⟩
  | arg i => exact Nat.lt_of_lt_of_le h hd
  | _ => trivial

@[simp] theorem below_apply : (t.apply xs).Below d ↔ t.Below d ∧ ∀ x ∈ xs, x.Below d := by
  simp only [below_iff_all, all_apply]

theorem Below.args (h : t.Below d) : ∀ x ∈ t.args, x.Below d :=
  fun x hx => below_iff_all.2 ((below_iff_all.1 h).args x hx)

private theorem below_firstArgs : ∀ x ∈ firstArgs d, x.Below d := by
  intro x hx
  obtain ⟨i, hi, rfl⟩ := mem_map.1 hx
  exact mem_range.1 hi

theorem below_applyArgs (h : t.Below d) : (t.applyArgs d).Below d :=
  below_apply.2 ⟨h, below_firstArgs⟩

private theorem Below.captureOr {p : Term → Prop} (hp : ∀ a, a.Below 0 → p a) (h : t.Below d) :
    t.All (CaptureOr d p) := by
  induction t with
  | app f x ihf ihx => exact ⟨ihf h.1, ihx h.2⟩
  | arg i => exact .inl ⟨i, h, rfl⟩
  | _ => exact .inr (hp _ trivial)

end Term

namespace Rule

/-- Every step, run after `n` captures and those of the steps before it, looks at a term below the
number of these captures. -/
def StepsClosed : Nat → List Step → Prop
  | _, [] => True
  | n, .pull :: steps => StepsClosed (n + 1) steps
  | n, .destructure subject _ count :: steps => subject.Below n ∧ StepsClosed (n + count) steps

instance decidableStepsClosed : (n : Nat) → (steps : List Step) → Decidable (StepsClosed n steps)
  | _, [] => .isTrue trivial
  | n, .pull :: steps => decidableStepsClosed (n + 1) steps
  | n, .destructure _ _ count :: steps =>
    @instDecidableAnd _ _ (Term.decidableBelow n _) (decidableStepsClosed (n + count) steps)

/-- The rule mentions captures only, and every step captures of earlier steps only. -/
structure Closed (r : Rule) : Prop where
  steps : StepsClosed 0 r.steps
  replacement : r.replacement.Below r.captureCount

instance (r : Rule) : Decidable r.Closed :=
  decidable_of_iff (StepsClosed 0 r.steps ∧ r.replacement.Below r.captureCount)
    ⟨fun h => ⟨h.1, h.2⟩, fun h => ⟨h.steps, h.replacement⟩⟩

variable {n : Nat} {steps : List Step}

private theorem stepsClosed_replicate_pull (count : Nat) :
    StepsClosed n (replicate count .pull) := by
  induction count generalizing n with
  | zero => trivial
  | succ count ih => exact ih

/-- A rule captures what its steps do. -/
theorem captureCount_eq_sum (r : Rule) : r.captureCount = (r.steps.map Step.captures).sum := by
  unfold captureCount
  induction r.steps with
  | nil => rfl
  | cons s steps ih => rw [foldr_cons, ih, map_cons, sum_cons]

theorem closed_lambda {head replacement : Term} {arity : Nat} (h : replacement.Below arity) :
    (lambda head arity replacement).Closed :=
  ⟨stepsClosed_replicate_pull arity, by rw [captureCount_lambda]; exact h⟩

private theorem StepsClosed.subjectsOver {p : Term → Prop} (hp : ∀ a, a.Below 0 → p a)
    (h : StepsClosed n steps) : SubjectsOver p n steps := by
  induction steps generalizing n with
  | nil => trivial
  | cons s steps ih =>
    cases s with
    | pull => exact ih h
    | destructure subject head count => exact ⟨h.1.captureOr hp, ih h.2⟩

end Rule

namespace RuleTable

/-- Every installed rule is closed. -/
def Closed (R : RuleTable) : Prop := ∀ id r, R.ruleFor? id = some r → r.Closed

variable {R : RuleTable}

theorem Closed.install {id : Nat} {r : Rule} (hR : R.Closed) (hr : r.Closed) :
    (R.install id r).Closed := by
  intro j s hs
  rw [ruleFor?_install] at hs
  split at hs
  · cases hs
    exact hr
  · exact hR j s hs

theorem Closed.register (hR : R.Closed) (id : Nat) : (R.register id).Closed :=
  fun j r hr => hR j r (by simpa using hr)

end RuleTable

namespace Reduction

variable {R : RuleTable} {h : Replacer} {p : Term → Prop} {d : Nat} {t u : Term}

private theorem all_change? (hh : ∀ t u, h t = some u → u.All p) (hu : h.change? t = some u) :
    u.All p := by
  unfold Replacer.change? at hu
  split at hu
  · next v hv =>
    split at hu
    · cases hu
    · cases hu
      exact hh t _ hv
  · cases hu

/-- Reducing by closed rules brings in no arguments: what holds of the atoms of a term holds of
those of its normal form, if it holds of all others and of what replaces normal terms. -/
theorem closed_all (hR : R.Closed) (hp : ∀ a, a.Below 0 → p a)
    (hh : ∀ t u, h t = some u → u.All p) :
    Closed R h fun _ t u => t.All p → u.All p := by
  intro mode t u hpass ht
  cases hpass with
  | done => exact ht
  | rewrite hrewrites hu =>
    obtain ⟨id, r, caps, rest, _, hr, _, hmatched, rfl⟩ := hrewrites
    have hclosed := hR id r hr
    exact hu (hmatched.result (fun x y hxy => hxy) (hclosed.steps.subjectsOver hp)
      (hclosed.replacement.captureOr hp) ht.args)
  | replaceHead hw hg hu => exact hu (all_apply.2 ⟨all_change? hh hg, (hw ht).args⟩)
  | replaceTop hw hargs hv hu => exact hu (all_change? hh hv)
  | rebuild hw hargs => exact all_apply.2 ⟨(hw ht).head, all_of_forall₂ hargs (hw ht).args⟩

private theorem closed_below (hR : R.Closed) (hh : ∀ t u, h t = some u → u.Below d) :
    Closed R h fun _ t u => t.Below d → u.Below d := by
  have hclosed : Closed R h fun _ t u => t.All (Below d) → u.All (Below d) :=
    closed_all hR (fun a ha => ha.mono (Nat.zero_le d))
      fun t u hu => below_iff_all.1 (hh t u hu)
  simpa only [below_iff_all] using hclosed

/-- Reduction mentions no new arguments. -/
theorem below_run? (hR : R.Closed) (hh : ∀ t u, h t = some u → u.Below d) {depth : Nat}
    {mode : Mode}
    (hr : run? R h depth mode t = some u) (ht : t.Below d) : u.Below d :=
  run?_induction (closed_below hR hh) hr ht

theorem below_runAll? (hR : R.Closed) (hh : ∀ t u, h t = some u → u.Below d) {depth : Nat}
    {mode : Mode} {ts us : List Term} (hr : runAll? R h depth mode ts = some us)
    (hts : ∀ t ∈ ts, t.Below d) : ∀ u ∈ us, u.Below d := by
  have hbelow := runAll?_induction (closed_below hR hh) hr
  simp only [below_iff_all] at hbelow hts ⊢
  exact all_of_forall₂ hbelow hts

end Reduction
end Elaboration
