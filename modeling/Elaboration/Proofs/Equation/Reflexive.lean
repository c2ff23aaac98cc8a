import Elaboration.Proofs.Equation.Advance

/-!
# Contradictory assumptions and equal sides

A step asks for contradictions before it reduces anything. So the first step after a rule that makes
assumptions contradictory may decide otherwise; those after it solve their equations. Equal sides
are compared after everything else was tried, and nothing of that misfires.
-/

namespace Elaboration

open EndsWith Telescope

namespace EndsWith

variable {ε σ τ α : Type}

private theorem eq_of_forall {x y : StateT τ (EStateM ε σ) α} {t t' : τ} {s s' : σ}
    (h : ∀ Q X, EndsWith y t' s' Q X → EndsWith x t s Q X) : x t s = y t' s' := by
  cases hy : y t' s' with
  | ok p r =>
    refine eq_ok (h _ _ ?_)
    rw [EndsWith, Ends.iff_of_ok hy]
    exact ⟨rfl, rfl, rfl⟩
  | error e r =>
    have hstops : EndsWith x t s (fun _ _ _ => False) fun e' r' => e' = e ∧ r' = r := by
      refine h _ _ ?_
      unfold EndsWith Ends
      rw [hy]
      exact ⟨rfl, rfl⟩
    unfold EndsWith Ends at hstops
    cases hx : x t s with
    | ok p r' =>
      rw [hx] at hstops
      exact hstops.elim
    | error e' r' =>
      rw [hx] at hstops
      rw [hstops.1, hstops.2]

end EndsWith

namespace Solver

variable {e : Equation} {t u : Term} {free : Indeterminates} {k k1 : Kernel}

/-- Decides an equation whatever is assumed. -/
def judge (e : Equation) : SolverM Verdict := do
  let lhs ← e.telescope.reduce e.lhs
  let rhs ← e.telescope.reduce e.rhs
  verdictOn e lhs rhs

/-- The kernel in which an equation was solved because of contradictory assumptions. -/
def vacuous (k : Kernel) : Kernel := { k with journal := .vacuous :: k.journal }

private theorem step_eq (e : Equation) (free : Indeterminates) (k : Kernel) :
    step e free k =
      if (k.equalities e.telescope.context).inconsistent then
        .ok (.solved, free) (vacuous k)
      else judge e free k := by
  have hends : ∀ Q X, EndsWith (step e) free k Q X ↔
      if (k.equalities e.telescope.context).inconsistent then Q .solved free (vacuous k)
      else EndsWith (judge e) free k Q X := by
    intro Q X
    unfold step isInconsistent
    rw [bind_iff, lift_iff, Ends.bind_iff, KernelM.ends_context, Ends.pure_iff]
    split <;> rfl
  split
  · next h =>
    refine eq_ok ((hends _ _).2 ?_)
    rw [if_pos h]
    exact ⟨rfl, rfl, rfl⟩
  · next h =>
    refine eq_of_forall fun Q X hjudge => (hends Q X).2 ?_
    rwa [if_neg h]

private theorem step_of_inconsistent (h : (k.equalities e.telescope.context).inconsistent) :
    step e free k = .ok (.solved, free) (vacuous k) := by
  rw [step_eq, if_pos h]

private theorem refresh_of_reduce (h : e.telescope.reduce t k = .ok u k1) :
    e.telescope.refresh k = .ok () k1 ∧
      Reduction.run? k1.rules (k1.equalities e.telescope.context).replacer k1.limit .full t =
        some u := by
  have hends := (ends_reduce_iff (Q := fun u' k' => e.telescope.reduce t k = .ok u' k')
    (X := fun e' k' => e.telescope.reduce t k = .error e' k')).1
    (Ends.of_cases (fun _ _ h => h) fun _ _ h => h)
  cases hrefresh : e.telescope.refresh k with
  | ok _ k2 =>
    have hk2 := hends.of_ok hrefresh
    split at hk2
    · next hrun =>
      cases h.symm.trans hk2
      exact ⟨rfl, hrun⟩
    · cases h.symm.trans hk2
  | error stop k2 => cases h.symm.trans (hends.of_error hrefresh)

private theorem judge_of_refresh (h : e.telescope.refresh k = .ok () k1) :
    judge e free k = judge e free k1 := by
  have hagain : e.telescope.refresh k1 = .ok () k1 :=
    refresh_of_not_isStale (not_isStale_of_refresh h)
  refine eq_of_forall fun Q X hjudge => ?_
  unfold judge at hjudge ⊢
  rw [bind_iff, lift_iff, ends_reduce_iff, Ends.iff_of_ok hagain] at hjudge
  rw [bind_iff, lift_iff, ends_reduce_iff, Ends.iff_of_ok h]
  exact hjudge

private theorem remembers_judge (e : Equation) (free : Indeterminates) (k : Kernel) :
    EndsWith (judge e) free k (fun _ _ k' => k.Remembers k') fun _ _ => True := by
  have hR := Kernel.lasting_remembers
  have hjudge : (stepping hR.course).Keeps (judge e) free k fun v _ k' =>
      Derives hR.footing v k' :=
    .bind (keeps_lift (hR.solves.reduce trivial (Term.all_trivial e.lhs))) fun lhs _ _ _ _ _ hlhs =>
      .bind (keeps_lift (hR.solves.reduce trivial (Term.all_trivial e.rhs)))
        fun rhs _ _ _ _ _ hrhs =>
        keeps_verdictOn hR.solves trivial hlhs hrhs
  exact (hjudge ⟨trivial, trivial⟩).imp (fun _ _ _ h => h.2.1)

/-- Vacuity is judged against the rules as of the last reduction below the telescope. If reducing a
term finds the assumptions contradictory, a step after it solves the equation; a step instead of it
may decide otherwise, but then all later ones below the same context solve theirs. If it does not
find them so, a step answers the same after it as without it. -/
theorem step_after_reduce (h : e.telescope.reduce t k = .ok u k1)
    (free : Indeterminates) :
    e.telescope.isStale k1 = false ∧
      ((k1.equalities e.telescope.context).inconsistent →
        step e free k1 = .ok (.solved, free) (vacuous k1) ∧
          ∀ v left k', step e free k = .ok (v, left) k' →
            ∀ e' : Equation, e'.telescope.context = e.telescope.context → ∀ free',
              step e' free' k' = .ok (.solved, free') (vacuous k')) ∧
      (¬ (k1.equalities e.telescope.context).inconsistent →
        step e free k = step e free k1) := by
  have hrefresh := (refresh_of_reduce h).1
  have hkept : k.Remembers k1 :=
    (e.telescope.abides_reduce Kernel.lasting_remembers t k).of_ok h
  refine ⟨not_isStale_of_refresh hrefresh, fun hcontradictory => ?_,
    fun hconsistent => ?_⟩
  · refine ⟨step_of_inconsistent hcontradictory, fun v left k' hstep e' he' free' => ?_⟩
    apply step_of_inconsistent
    rw [he']
    rw [step_eq] at hstep
    split at hstep
    · next hknown =>
      cases hstep
      exact hknown
    · rw [judge_of_refresh hrefresh] at hstep
      exact (remembers_judge e free k1).of_ok hstep _ hcontradictory
  · rw [step_eq, step_eq, if_neg hconsistent, if_neg fun hknown => hconsistent (hkept _ hknown)]
    exact judge_of_refresh hrefresh

/-! ### A contradiction that is noticed late -/

/-- A kernel with the postulates `10` to `13` and the declaration `14`. -/
def fourPostulates : Kernel :=
  { Kernel.initial with
    nextSymbol := Primitive.count + 5
    rules := Kernel.initial.rules.register 14 }

/-- The declaration is assumed to be `10`, then defined as `11`. -/
def assumeThenDefine : KernelM Telescope := do
  let tele ← Telescope.root
  let tele ← tele.assume (.decl 14) (.postulate 10)
  KernelM.addRule (.lambda (.decl 14) 0 (.postulate 11))
  pure tele

/-- The equation of the other two postulates. -/
def unequalPostulates (tele : Telescope) : Equation := ⟨.postulate 12, .postulate 13, tele, true⟩

/-- A step on that equation fails, although reducing a term finds a contradiction. -/
theorem step_after_reduce_unequalPostulates :
    ∃ (tele : Telescope) (k k1 k' : Kernel) (u : Term) (left : Indeterminates),
      tele.reduce (.postulate 12) k = .ok u k1 ∧ (k1.equalities tele.context).inconsistent ∧
      step (unequalPostulates tele) [] k1 = .ok (.solved, []) (vacuous k1) ∧
      step (unequalPostulates tele) [] k = .ok (.failed, left) k' ∧
      step (unequalPostulates tele) left k' = .ok (.solved, left) (vacuous k') := by
  obtain ⟨tele, k, -, ⟨u, k1, hreduce, hfound⟩, ⟨_, left⟩, k', hstep, rfl⟩ :
      ∃ tele k, assumeThenDefine fourPostulates = .ok tele k ∧
      (∃ u k1, tele.reduce (.postulate 12) k = .ok u k1 ∧
        (k1.equalities tele.context).inconsistent) ∧
      ∃ x k', step (unequalPostulates tele) [] k = .ok x k' ∧ x.1 = .failed := by decide +kernel
  obtain ⟨_, hafter, _⟩ := step_after_reduce (e := unequalPostulates tele) hreduce []
  exact ⟨tele, k, k1, k', u, left, hreduce, hfound, (hafter hfound).1, hstep,
    (hafter hfound).2 _ _ _ hstep _ rfl left⟩

end Solver

open Kernel List Term

/-- The equations that a verdict leaves to be solved. -/
def Verdict.children : Verdict → List Equation
  | .derived es => es
  | _ => []

namespace Solver

variable {e : Equation} {u : Term} {f : Flexible} {free left : Indeterminates}
  {k k1 k' : Kernel} {v : Verdict}

private theorem reduce_again {t : Term} (h : e.telescope.reduce t k = .ok u k1) :
    e.telescope.reduce t k1 = .ok u k1 := by
  obtain ⟨hrefresh, hrun⟩ := refresh_of_reduce h
  refine Ends.eq_ok (ends_reduce_iff.2 ?_)
  rw [Ends.iff_of_ok (refresh_of_not_isStale (not_isStale_of_refresh hrefresh)), hrun]
  exact ⟨rfl, rfl⟩

private theorem not_isHeadClosed_of_flexible (hf : Flexible.of? free u = some f) :
    ¬ u.isHeadClosed := by
  rw [(Flexible.of?_eq_some hf).1, isHeadClosed, head_apply]
  exact Bool.false_ne_true

private theorem dependsOn_of_flexible (hf : Flexible.of? free u = some f)
    (q : Equalities) :
    (q.eliminate u).hasPlaceholder = false ∧ k.rules.dependsOn (q.eliminate u) f.id = true := by
  have hplain : u.All fun a => ∀ i, a ≠ .placeholder i := by
    rw [(Flexible.of?_eq_some hf).1, all_apply]
    simp [Flexible.args]
  rw [q.eliminate_eq_self hplain]
  refine ⟨all_hasPlaceholder.2 hplain, RuleTable.dependsOn_iff.2 ⟨f.id, ?_, .refl⟩⟩
  rw [(Flexible.of?_eq_some hf).1, mem_decls_apply]
  exact .inl (mem_singleton_self _)

private theorem Sides.self {t t' : Term} (h : Sides u u t t') : t = u ∧ t' = u := h.elim id id

private theorem Decided.of_self (h : Decided e u u free k v left k') :
    left = free ∧ v ≠ .failed ∧ v ≠ .stalled ∧ ∀ c ∈ v.children, c.lhs = c.rhs := by
  cases h with
  | extracted _ hs hf _ hindependent =>
    obtain ⟨rfl, rfl⟩ := hs.self
    cases hindependent.symm.trans (dependsOn_of_flexible hf _).2
  | deepened => exact ⟨rfl, by simp, by simp, by simp [Verdict.children]⟩
  | symmetric hv =>
    unfold explodeSymmetric at hv
    split at hv
    · rw [if_pos ⟨rfl, rfl⟩] at hv
      split at hv
      · cases hv
        exact ⟨rfl, by simp, by simp, by simp [Verdict.children]⟩
      · cases hv
        refine ⟨rfl, by simp, by simp, fun c hc => ?_⟩
        obtain ⟨⟨x, y⟩, hxy, rfl⟩ := mem_map.1 hc
        exact forall₂_zip (forall₂_same.2 fun _ _ => rfl) hxy
    · cases hv
  | unmentionable _ hs hf hclosed | imitated _ hs hf _ _ _ _ hclosed =>
    obtain ⟨rfl, rfl⟩ := hs.self
    exact absurd hclosed (not_isHeadClosed_of_flexible hf)
  | compared => exact ⟨rfl, by simp, by simp, by simp [Verdict.children]⟩

private theorem Halted.of_self {stop : Stop} (h : Halted e u u free k stop k') :
    ¬ k.RulesMade := by
  cases h with
  | leaked hs hf hleaked =>
    obtain ⟨rfl, rfl⟩ := hs.self
    cases hleaked.symm.trans (dependsOn_of_flexible (k := k) hf _).1
  | unbound _ hmade => exact hmade
  | undefinable hs hf hindependent =>
    obtain ⟨rfl, rfl⟩ := hs.self
    cases hindependent.symm.trans (dependsOn_of_flexible hf _).2
  | unexposed hs hf _ hclosed =>
    obtain ⟨rfl, rfl⟩ := hs.self
    exact absurd hclosed (not_isHeadClosed_of_flexible hf)

section Judged

variable (he : e.lhs = e.rhs)

include he

private theorem judge_of_self (h : e.telescope.reduce e.lhs k = .ok u k1) :
    judge e free k = verdictOn e u u free k1 := by
  refine eq_of_forall fun Q X hverdict => ?_
  unfold judge
  rw [bind_iff, lift_iff, Ends.iff_of_ok h, bind_iff, lift_iff, ← he,
    Ends.iff_of_ok (reduce_again h)]
  exact hverdict

private theorem step_of_self (h : step e free k = .ok (v, left) k') :
    left = free ∧ v ≠ .failed ∧ v ≠ .stalled ∧ ∀ c ∈ v.children, c.lhs = c.rhs := by
  rw [step_eq] at h
  split at h
  · cases h
    exact ⟨rfl, by simp, by simp, by simp [Verdict.children]⟩
  · cases hreduce : e.telescope.reduce e.lhs k with
    | ok u k1 =>
      rw [judge_of_self he hreduce] at h
      exact ((ends_verdictOn e u u free k1).of_ok h).of_self
    | error stop k1 =>
      have hstops : EndsWith (judge e) free k (fun _ _ _ => False) fun _ _ => True := by
        unfold judge
        rw [bind_iff, lift_iff, Ends, hreduce]
        trivial
      exact (hstops.of_ok h).elim

private theorem exists_step_of_self (hmade : k.RulesMade)
    (h : e.telescope.reduce e.lhs k = .ok u k1) :
    ∃ v left k', step e free k = .ok (v, left) k' := by
  rw [step_eq]
  split
  · exact ⟨_, _, _, rfl⟩
  · rw [judge_of_self he h]
    cases hverdict : verdictOn e u u free k1 with
    | ok p k' => exact ⟨p.1, p.2, k', rfl⟩
    | error stop k' =>
      refine absurd ?_ ((ends_verdictOn e u u free k1).of_error hverdict).of_self
      have hcalm := ((e.telescope.ends_reduce _ _).of_ok h).toCalm
      rwa [RulesMade, hcalm.rules, hcalm.symbols]

end Judged

/-- The equations met from one equation on, when any of them is taken up at any time, any number of
times. -/
inductive Explored (start : Equation) (free : Indeterminates) (k : Kernel) :
    List Equation → Indeterminates → Kernel → Prop where
  | start : Explored start free k [start] free k
  | step {es : List Equation} {e : Equation} {v : Verdict} {left left' : Indeterminates}
    {k1 k2 : Kernel} : Explored start free k es left k1 → e ∈ es →
    step e left k1 = .ok (v, left') k2 →
    Explored start free k (es ++ v.children) left' k2

private theorem Explored.of_self {start : Equation} {es : List Equation}
    (hstart : start.lhs = start.rhs) (h : Explored start free k es left k') :
    left = free ∧ (∀ e ∈ es, e.lhs = e.rhs) ∧ k.Extends k' ∧
      k.Adds (fun id => id ∈ free ∧ id ∉ free) k' := by
  induction h with
  | start => exact ⟨rfl, forall_mem_singleton.2 hstart, .refl k, .of_same rfl⟩
  | step _ he hstep ih =>
    obtain ⟨rfl, hes, hk, hadds⟩ := ih
    obtain ⟨rfl, _, _, hchildren⟩ := step_of_self (hes _ he) hstep
    have hstepped := (ends_step _ _ _).of_ok hstep
    exact ⟨rfl, forall_mem_append.2 ⟨hes, hchildren⟩, hk.trans hstepped.extends,
      hadds.trans hstepped.adds hk.symbols hstepped.extends.symbols⟩

/-- Whatever is derived from an equation of a term with itself, in any order: its sides are reduced
to the same term, it neither fails nor stalls, and it is decided if its sides can be reduced at all.
No indeterminate is defined, and no declaration that was there before gets a rule. -/
theorem self_equation_never_fails {start : Equation} {es : List Equation}
    (hstart : start.lhs = start.rhs) (h : Explored start free k es left k') :
    left = free ∧
      (∀ id < k.nextSymbol, k'.rules.ruleFor? id = k.rules.ruleFor? id) ∧
      ∀ e ∈ es,
        (∀ v left' k'', step e left k' = .ok (v, left') k'' → v ≠ .failed ∧ v ≠ .stalled) ∧
        ∀ u k1, e.telescope.reduce e.lhs k' = .ok u k1 →
          e.telescope.reduce e.rhs k1 = .ok u k1 ∧
          (k.RulesMade → ∃ v left' k'', step e left k' = .ok (v, left') k'') := by
  obtain ⟨hleft, hes, hk, hadds⟩ := h.of_self hstart
  refine ⟨hleft, fun id hid => ?_, fun e he => ⟨fun v left' k'' hstep => ?_, fun u k1 hu => ?_⟩⟩
  · cases hr : k'.rules.ruleFor? id with
    | none =>
      refine (Option.eq_none_iff_forall_ne_some.2 fun r hr' => ?_).symm
      cases hr.symm.trans (hk.rules id r hr')
    | some r =>
      obtain hr | hr | hr := hadds.ruled id r hr
      · exact hr.symm
      · exact absurd hr.1 hr.2
      · exact absurd hid (not_lt.2 hr.1)
  · obtain ⟨_, hfailed, hstalled, _⟩ := step_of_self (hes e he) hstep
    exact ⟨hfailed, hstalled⟩
  · refine ⟨hes e he ▸ reduce_again hu, fun hmade => exists_step_of_self (hes e he) ?_ hu⟩
    intro id r hr
    obtain hr | hr | hr := hadds.ruled id r hr
    · exact (hmade id r hr).trans_le hk.symbols
    · exact absurd hr.1 hr.2
    · exact hr.2

/-- The equation of `a10 d14` with itself, where `d14` is an indeterminate. -/
def appliedUnknown : Equation :=
  let t := Term.app (.postulate 10) (.decl 14)
  ⟨t, t, ⟨[], Primitive.type, Primitive.identity, 0⟩, true⟩

/-- It is decomposed into one of the indeterminate with itself, which is not defined. -/
theorem self_equation_never_fails_appliedUnknown :
    ∃ es k', es.length = 2 ∧ Explored appliedUnknown [14] fourPostulates es [14] k' ∧
      k'.rules.ruleFor? 14 = fourPostulates.rules.ruleFor? 14 ∧
      ∀ e ∈ es, ∀ v left k'', step e [14] k' = .ok (v, left) k'' → v ≠ .failed ∧ v ≠ .stalled := by
  obtain ⟨⟨v, left⟩, k', hstep, hlength, rfl⟩ : ∃ x k',
      step appliedUnknown [14] fourPostulates = .ok x k' ∧ x.1.children.length = 1 ∧
        x.2 = [14] := by
    decide +kernel
  have hexplored := Explored.start.step (mem_singleton_self appliedUnknown) hstep
  obtain ⟨_, hrules, hes⟩ := self_equation_never_fails rfl hexplored
  exact ⟨_, k', by simp [hlength], hexplored, hrules 14 (by decide), fun e he => (hes e he).1⟩

end Solver
end Elaboration
