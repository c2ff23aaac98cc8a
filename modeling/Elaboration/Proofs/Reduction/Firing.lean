import Elaboration.Proofs.Equalities.Sound

/-!
# What holds where a rule fires

A match program expects each of its subjects to be a head applied to values. These expectations
hold, up to whatever normal forms are equal to, of the values that a successful run captures.
-/

namespace Elaboration

open List Rule Term

namespace Term

variable {t : Term} {xs ys : List Term}

private theorem Below.subst_append (ht : t.Below xs.length) : t.subst (xs ++ ys) = t.subst xs := by
  induction t with
  | app f x ihf ihx => rw [subst_app, ihf ht.1, ihx ht.2, subst_app]
  | arg i =>
    have hi : i < xs.length := ht
    rw [subst, subst, getElem?_append_left hi]
  | _ => rfl

private theorem Below.subst_eq (ht : t.Below 0) : t.subst xs = t := by
  rw [subst_eq_instantiate, ht.instantiate_eq]

/-- The arguments from one number on, `count` of them. -/
def argsFrom (n count : Nat) : List Term := (range' n count).map arg

private theorem map_subst_argsFrom (xs ys zs : List Term) :
    (argsFrom xs.length ys.length).map (subst (xs ++ (ys ++ zs))) = ys := by
  refine ext_getElem (by simp [argsFrom]) fun i hi hi' => ?_
  have hle : xs.length ≤ xs.length + i := Nat.le_add_right _ _
  simp [argsFrom, subst, getElem?_append_right hle, getElem?_append_left hi', hi']

end Term

namespace Rule

/-- What the match steps expect, after `n` captures: each subject is the head applied to the
arguments that stand for the values captured next. -/
def expectations : Nat → List Step → List (Term × Term)
  | _, [] => []
  | n, .pull :: steps => expectations (n + 1) steps
  | n, .destructure subject head count :: steps =>
    (subject, head.apply (Term.argsFrom n count)) :: expectations (n + count) steps

theorem expectations_append (n : Nat) (steps steps' : List Step) :
    expectations n (steps ++ steps') =
      expectations n steps ++ expectations (n + (steps.map Step.captures).sum) steps' := by
  induction steps generalizing n with
  | nil => rfl
  | cons s steps ih =>
    cases s with
    | pull =>
      rw [cons_append, expectations, ih, expectations, map_cons, sum_cons, Nat.add_assoc]
      rfl
    | destructure subject head count =>
      rw [cons_append, expectations, ih, expectations, map_cons, sum_cons,
        Nat.add_assoc, cons_append]
      rfl

variable {E : Term → Term → Prop} {steps : List Step} {caps args caps' rest : List Term}

private theorem MatchedBy.exists_append (h : MatchedBy E steps caps args caps' rest) :
    ∃ more, caps' = caps ++ more := by
  induction steps generalizing caps args with
  | nil => exact ⟨[], by rw [h.1, append_nil]⟩
  | cons s steps ih =>
    cases s with
    | pull =>
      cases args with
      | nil => exact h.elim
      | cons x args =>
        obtain ⟨more, hmore⟩ := ih h
        exact ⟨[x] ++ more, by rw [hmore, append_assoc]⟩
    | destructure subject head count =>
      obtain ⟨ys, _, _, hrest⟩ := h
      obtain ⟨more, hmore⟩ := ih hrest
      exact ⟨ys ++ more, by rw [hmore, append_assoc]⟩

/-- The expectations hold of what was captured. -/
theorem MatchedBy.expected (h : MatchedBy E steps caps args caps' rest)
    (hsteps : StepsClosed caps.length steps) (hheads : ∀ s ∈ steps, s.HeadClosed) :
    ∀ a ∈ expectations caps.length steps, E (a.1.subst caps') (a.2.subst caps') := by
  induction steps generalizing caps args with
  | nil => exact forall_mem_nil _
  | cons s steps ih =>
    rw [forall_mem_cons] at hheads
    cases s with
    | pull =>
      cases args with
      | nil => exact h.elim
      | cons x args =>
        have hrest := ih h (by rwa [length_append]) hheads.2
        rwa [length_append] at hrest
    | destructure subject head count =>
      obtain ⟨ys, rfl, hsubject, hrest⟩ := h
      have hrest' := ih hrest (by rw [length_append]; exact hsteps.2) hheads.2
      rw [length_append] at hrest'
      refine forall_mem_cons.2 ⟨?_, hrest'⟩
      obtain ⟨more, rfl⟩ := hrest.exists_append
      have hhead : head.Below 0 := hheads.1
      rw [append_assoc, hsteps.1.subst_append, subst_apply, hhead.subst_eq, map_subst_argsFrom]
      exact hsubject

end Rule

namespace Reduction

variable {R : RuleTable} {h : Replacer} {r : Rule} {args caps : List Term}

/-- A reducer that remembers normal forms only runs the match program of the rule on arguments, with
success. -/
def FiresOn (R : RuleTable) (h : Replacer) (r : Rule) (args caps : List Term) : Prop :=
  ∃ depth memo memo' rest, Valid (Reaches R h) memo ∧
    runSteps (reduceMemo R h depth .full) r.steps [] args memo = some (some (caps, rest), memo')

private theorem FiresOn.matchedBy (hf : FiresOn R h r args caps) :
    ∃ rest, MatchedBy (Reaches R h .full) r.steps [] args caps rest := by
  obtain ⟨depth, memo, memo', rest, hmemo, hrun⟩ := hf
  have hyields := (alike _).runSteps (yields_reaches (R := R) (h := h) depth .full) r.steps [] args
  exact ⟨rest, ((hyields memo hmemo).2 _ memo' hrun).1 caps rest rfl⟩

private theorem closed_ruleCongruence {E : Term → Term → Prop} (hE : RuleCongruence R E) :
    Closed R .none fun _ => E := by
  intro mode t u hpass
  cases hpass with
  | done => exact hE.refl t
  | rewrite hrewrites hu =>
    obtain ⟨id, r, caps, rest, hhead, hr, harity, hmatched, rfl⟩ := hrewrites
    have hrule := hE.rule id r t.args caps rest hr harity hmatched
    rw [← hhead, apply_head_args] at hrule
    exact hE.trans hrule hu
  | replaceHead _ hg _ => cases hg
  | replaceTop _ _ hv _ => cases hv
  | @rebuild _ _ w args hw hargs =>
    have hspine := hE.toCongruence.apply (hE.refl w.head) hargs
    rw [apply_head_args] at hspine
    exact hE.trans hw hspine

/-- Where a rule fires by rules alone, its match program passes up to equality. -/
theorem FiresOn.matchedBy_equal (hf : FiresOn R .none r args caps) (A : List (Term × Term)) :
    ∃ rest, MatchedBy (Equal R A) r.steps [] args caps rest := by
  obtain ⟨rest, hmatched⟩ := hf.matchedBy
  refine ⟨rest, hmatched.mono fun t u htu => ?_⟩
  obtain ⟨depth, hrun⟩ := reaches_iff_run?.1 htu
  exact run?_induction (closed_ruleCongruence (theory_equal R A).toRuleCongruence) hrun

/-- Where a rule fires in a local context, its match program passes up to equality under the
assumptions, on what arguments and captures stand for. -/
theorem FiresOn.matchedBy_eliminate {A : List (Term × Term)} {q : Equalities}
    (hf : FiresOn R q.replacer r args caps) (hq : Equalities.Reached R A q) (hR : R.Over Plain)
    (hr : StepsOver Plain 0 r.steps) (hargs : ∀ x ∈ args, x.All (ClassOr q.classes.size Plain)) :
    ∃ rest, MatchedBy (Equal R A) r.steps [] (args.map q.eliminate) (caps.map q.eliminate)
      rest := by
  obtain ⟨rest, hmatched⟩ := hf.matchedBy
  have hE := theory_equal R A
  have hsound := hq.sound hR hE.toLocalTheory hE.assumed
  refine ⟨rest.map q.eliminate, Equalities.matchedBy_eliminate Term.not_plain_placeholder
    (hmatched.mono fun t u htu ht => ?_) hr (forall_mem_nil _) hargs⟩
  obtain ⟨depth, hrun⟩ := reaches_iff_run?.1 htu
  exact Equalities.related_run? hE.toRuleCongruence not_plain_placeholder hR hsound ht hrun

end Reduction
end Elaboration
