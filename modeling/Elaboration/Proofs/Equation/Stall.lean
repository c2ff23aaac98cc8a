import Elaboration.Proofs.Equation.Advance
import Elaboration.Proofs.Reduction.Relevance

/-!
# Equations that stall

A step that stalls leaves no trace. Below a telescope without assumptions, whether it does depends
on the rules and on which declarations at the heads of the normal forms may be defined. So an
equation that stalled stalls again as long as the count of rules stands still.
-/

namespace Elaboration

open EndsWith Flexible List Reduction RuleTable Term
namespace Solver

variable {e : Equation} {tele : Telescope} {lhs rhs pattern value rigid head : Term} {f : Flexible}
  {otherwise v : Verdict} {free left : Indeterminates} {k k' : Kernel}
  {attempts : List (SolverM (Option Verdict))}

/-- The attempt comes to nothing. -/
def Idles (x : SolverM (Option Verdict)) (free : Indeterminates) (k : Kernel) : Prop :=
  EndsWith x free k (fun out left k' => out = none ∧ left = free ∧ k' = k)
    fun _ _ => False

/-! ### What comes to nothing -/

/-- The side `pattern` is no indeterminate applied to distinct arguments, or its definition as
`value` would be circular or mention other arguments. -/
def Unextracted (R : RuleTable) (free : Indeterminates) (pattern value : Term) : Prop :=
  ∀ f, Flexible.of? free pattern = some f → value.hasPlaceholder = false ∧
    (R.dependsOn value f.id ∨ value.mapArgs? f.slot? = none)

/-- The side `pattern` is no indeterminate applied to distinct arguments, or `rigid` has no closed
head, or the definition would be circular. -/
def Unimitated (R : RuleTable) (free : Indeterminates) (pattern rigid : Term) : Prop :=
  rigid.isHeadClosed → ∀ f, Flexible.of? free pattern = some f →
    rigid.hasPlaceholder = false ∧ (∀ level, rigid.head = .arg level → (f.slot? level).isSome) ∧
      R.dependsOn rigid f.id

private theorem idles_extract_iff (h : tele.AssumesNothing k) :
    Idles (extract tele pattern value) free k ↔
      Unextracted k.rules free pattern value := by
  unfold Idles Unextracted extract
  rw [bind_iff, get_iff]
  cases hf : of? free pattern with
  | none => simp
  | some f =>
    simp only [bind_iff, lift_iff, h.ends_eliminate_iff, getThe_iff, Option.some.injEq, forall_eq']
    by_cases hplain : value.hasPlaceholder
    · simp [hplain]
    · by_cases hdepends : k.rules.dependsOn value f.id
      · simp [hplain, hdepends]
      · cases hreplacement : value.mapArgs? f.slot? with
        | none => simp [hplain, hdepends]
        | some replacement =>
          have hdefines : ¬ EndsWith (define f replacement >>= fun _ => pure (some Verdict.solved))
              free k (fun out left k' => out = none ∧ left = free ∧ k' = k)
              fun _ _ => False := by
            rw [bind_iff]
            exact fun h => h.elim (by simp)
          simpa [hplain, hdepends] using hdefines

private theorem idles_deepen_iff : Idles (deepen e lhs rhs) free k ↔
      (k.rules.isLambdaLike lhs || k.rules.isLambdaLike rhs) = false := by
  unfold Idles deepen
  rw [bind_iff, getThe_iff]
  split
  · next hlambda =>
    rw [hlambda]
    refine iff_of_false (fun h => ?_) (by simp)
    simp only [bind_iff] at h
    refine h.elim fun _ _ _ h => h.elim fun _ _ _ h => h.elim ?_
    simp
  · next hlambda => exact iff_of_true ⟨rfl, rfl, rfl⟩ (Bool.eq_false_iff.2 hlambda)

private theorem idles_imitate_iff :
    Idles (imitate e pattern rigid head f) free k ↔ k.rules.dependsOn rigid f.id := by
  unfold Idles imitate
  rw [bind_iff, getThe_iff]
  split
  · next hdepends => exact iff_of_true ⟨rfl, rfl, rfl⟩ hdepends
  · next hdepends =>
    refine iff_of_false (fun h => ?_) hdepends
    simp only [bind_iff] at h
    refine h.elim fun _ _ _ h => h.elim fun _ _ _ h => h.elim fun _ _ _ h => ?_
    split at h
    · simp at h
    · exact lift_iff.1 h

private theorem idles_explodeAsymmetric_iff (h : e.telescope.AssumesNothing k) :
    Idles (explodeAsymmetric e pattern rigid) free k ↔
      Unimitated k.rules free pattern rigid := by
  unfold Idles Unimitated explodeAsymmetric
  by_cases hclosed : rigid.isHeadClosed
  · rw [if_pos hclosed, bind_iff, get_iff]
    cases hf : Flexible.of? free pattern with
    | none => simp
    | some f =>
      simp only [bind_iff, lift_iff, h.ends_eliminate_iff, Option.some.injEq,
        forall_eq', hclosed, forall_const]
      by_cases hplain : rigid.hasPlaceholder
      · simp [hplain]
      · rw [if_neg hplain]
        split
        · next level hlevel =>
          split
          · next head hslot =>
            refine Iff.trans idles_imitate_iff ?_
            simp [hplain, hlevel, hslot]
          · next hslot =>
            refine iff_of_false (fun h => ?_) (by simp [hlevel, hslot])
            rw [bind_iff] at h
            exact h.elim (by simp)
        · next hno =>
          refine Iff.trans idles_imitate_iff ?_
          have hno' : ∀ level, rigid.head = .arg level → (f.slot? level).isSome :=
            fun level hlevel => (hno level hlevel).elim
          simp only [hplain, and_iff_right hno', true_and]
  · simp [hclosed]

/-! ### What stalls -/

/-- Nothing can be done about two normal forms. -/
structure Deadlocked (R : RuleTable) (free : Indeterminates) (deduce : Bool)
    (lhs rhs : Term) : Prop where
  differ : lhs ≠ rhs
  complete : (R.isLambdaLike lhs || R.isLambdaLike rhs) = false
  flexible : (lhs.isHeadClosed && rhs.isHeadClosed) = false
  unextracted : deduce → Unextracted R free lhs rhs ∧ Unextracted R free rhs lhs
  unimitated : deduce → Unimitated R free lhs rhs ∧ Unimitated R free rhs lhs

private theorem firstVerdict_stalls_iff
    (h : ∀ x ∈ attempts, Attempts e lhs rhs free k x) :
    EndsWith (firstVerdict otherwise attempts) free k
        (fun v left k' => v = .stalled ∧ left = free ∧ k' = k) (fun _ _ => False) ↔
      otherwise = .stalled ∧ ∀ x ∈ attempts, Idles x free k := by
  induction attempts with
  | nil => simp [firstVerdict]
  | cons x rest ih =>
    rw [forall_mem_cons] at h ⊢
    unfold firstVerdict
    rw [bind_iff]
    unfold Idles
    cases hx : x free k with
    | error stop k' =>
      have hstops : ∀ Q, ¬ EndsWith x free k Q fun _ _ => False :=
        fun _ hends => hends.of_error hx
      exact iff_of_false (hstops _) fun hidle => hstops _ hidle.2.1
    | ok out k' =>
      obtain ⟨out, left⟩ := out
      rw [EndsWith, EndsWith, Ends.iff_of_ok hx, Ends.iff_of_ok hx]
      obtain ⟨v, rfl, hv, -⟩ | ⟨rfl, rfl, rfl⟩ := h.1.of_ok hx
      · exact iff_of_false (fun hs => hv hs.1) fun hidle => nomatch hidle.2.1.1
      · simpa [Idles] using ih h.2

private theorem idles_attemptsOn_iff (h : e.telescope.AssumesNothing k) :
    (∀ x ∈ attemptsOn e lhs rhs, Idles x free k) ↔
      (k.rules.isLambdaLike lhs || k.rules.isLambdaLike rhs) = false ∧
      (lhs.isHeadClosed && rhs.isHeadClosed) = false ∧
      (e.deduce → Unextracted k.rules free lhs rhs ∧
        Unextracted k.rules free rhs lhs) ∧
      (e.deduce → Unimitated k.rules free lhs rhs ∧
        Unimitated k.rules free rhs lhs) := by
  have hsymmetric : Idles (pure (explodeSymmetric e lhs rhs)) free k ↔
      (lhs.isHeadClosed && rhs.isHeadClosed) = false := by
    unfold Idles explodeSymmetric
    rw [pure_iff]
    by_cases hclosed : (lhs.isHeadClosed && rhs.isHeadClosed) = true
    · rw [if_pos hclosed, hclosed]
      refine iff_of_false (fun hidle => ?_) (by simp)
      have hnone := hidle.1
      split at hnone
      · split at hnone <;> cases hnone
      · cases hnone
    · simp [hclosed]
  unfold attemptsOn
  by_cases hd : e.deduce
  · simp only [hd, if_true, cons_append, nil_append, forall_mem_cons,
      idles_extract_iff h, idles_deepen_iff, hsymmetric, idles_explodeAsymmetric_iff h,
        forall_const]
    tauto
  · simp [hd, idles_deepen_iff, hsymmetric]

/-- A step on the equation stalls. -/
def Stalls (e : Equation) (free : Indeterminates) (k : Kernel) : Prop :=
  step e free k = .ok (.stalled, free) k

private theorem stalls_iff (h : e.telescope.AssumesNothing k) : Stalls e free k ↔
      ∃ lhs rhs, run? k.rules .none k.limit .full e.lhs = some lhs ∧
        run? k.rules .none k.limit .full e.rhs = some rhs ∧
        Deadlocked k.rules free e.deduce lhs rhs := by
  have hverdict : ∀ lhs rhs, EndsWith (verdictOn e lhs rhs) free k
        (fun v left k' => v = .stalled ∧ left = free ∧ k' = k) (fun _ _ => False) ↔
      Deadlocked k.rules free e.deduce lhs rhs := by
    intro lhs rhs
    have hcompared : (if lhs = rhs then Verdict.solved else .stalled) = .stalled ↔ lhs ≠ rhs := by
      split <;> simp_all
    unfold verdictOn
    rw [firstVerdict_stalls_iff (attempts_of_mem free k), idles_attemptsOn_iff h,
      hcompared]
    exact ⟨fun ⟨h1, h2, h3, h4, h5⟩ => ⟨h1, h2, h3, h4, h5⟩,
      fun ⟨h1, h2, h3, h4, h5⟩ => ⟨h1, h2, h3, h4, h5⟩⟩
  have hstep : Stalls e free k ↔ EndsWith (step e) free k
      (fun v left k' => v = .stalled ∧ left = free ∧ k' = k) fun _ _ => False := by
    refine ⟨fun hs => ?_, eq_ok⟩
    rw [EndsWith, Ends.iff_of_ok hs]
    exact ⟨rfl, rfl, rfl⟩
  rw [hstep, ends_step_iff h]
  cases run? k.rules .none k.limit .full e.lhs with
  | none => simp
  | some lhs =>
    cases run? k.rules .none k.limit .full e.rhs with
    | none => simp
    | some rhs => simp [hverdict]

/-- A step that stalls changes nothing. -/
theorem stalls_of_step (h : e.telescope.AssumesNothing k)
    (hstep : step e free k = .ok (.stalled, left) k') :
    Stalls e free k ∧ left = free ∧ k' = k := by
  obtain ⟨lhs, rhs, _, _, hdecided⟩ := exists_decided h hstep
  have hsame : left = free ∧ k' = k := by
    generalize hv : Verdict.stalled = v at hdecided
    cases hdecided with
    | extracted | deepened | unmentionable | imitated => cases hv
    | symmetric | compared => exact ⟨rfl, rfl⟩
  obtain ⟨rfl, rfl⟩ := hsame
  exact ⟨hstep, rfl, rfl⟩

/-! ### What stalls again -/

section Again

variable {R S : RuleTable} {free' : Indeterminates} {d d' : Bool}

private theorem Deadlocked.congr (hd : Deadlocked R free d lhs rhs)
    (hrules : S.rules = R.rules) (hlhs : of? free' lhs = of? free lhs)
    (hrhs : of? free' rhs = of? free rhs) (hdeduce : d' → d) :
    Deadlocked S free' d' lhs rhs := by
  have hlambda : ∀ t, S.isLambdaLike t = R.isLambdaLike t := fun t => by
    simp only [isLambdaLike, ruleFor?, hrules]
  have hdepends : ∀ t id, S.dependsOn t id = R.dependsOn t id := fun t id => by
    simp only [dependsOn, hrules]
  refine ⟨hd.differ, ?_, hd.flexible, fun h => ?_, fun h => ?_⟩
  · rw [hlambda, hlambda]
    exact hd.complete
  · simpa only [Unextracted, hlhs, hrhs, hdepends] using hd.unextracted (hdeduce h)
  · simpa only [Unimitated, hlhs, hrhs, hdepends] using hd.unimitated (hdeduce h)

private theorem all_of_none {p : Term → Prop} (t u : Term) (h : Replacer.none t = some u) :
    u.All p := by
  cases h

variable (hs : Stalls e free k) (h : e.telescope.AssumesNothing k)
include hs h

/-- An equation stalls again while the rules stand still. -/
theorem Stalls.advances
    (hk : k.Advances k') (hgeneration : k'.rules.generation = k.rules.generation) :
    Stalls e free k' := by
  have hrules := hk.rules hgeneration
  have hagree : k.rules.AgreeOn (fun _ => True) k'.rules := by
    refine ⟨fun id _ => ?_, fun _ _ _ _ _ _ => all_declIn.2 fun _ _ => trivial⟩
    rw [ruleFor?, hrules]
    rfl
  have hrun : ∀ t, run? k'.rules .none k'.limit .full t =
      run? k.rules .none k.limit .full t := by
    intro t
    rw [hk.limit]
    exact run?_of_agreeOn hagree all_of_none _ _ (all_declIn.2 fun _ _ => trivial)
  obtain ⟨lhs, rhs, hl, hr, hd⟩ := (stalls_iff h).1 hs
  refine (stalls_iff (h.advances hk)).2 ⟨lhs, rhs, ?_, ?_, hd.congr hrules rfl rfl id⟩
  · rw [hrun, hl]
  · rw [hrun, hr]

/-- An equation stalls again if it may define nothing any more. -/
theorem Stalls.muted
    {may : Bool} (hmay : may → e.deduce) : Stalls { e with deduce := may } free k := by
  obtain ⟨lhs, rhs, hl, hr, hd⟩ := (stalls_iff h).1 hs
  exact (stalls_iff (e := { e with deduce := may }) h).2
    ⟨lhs, rhs, hl, hr, hd.congr rfl rfl rfl hmay⟩

private theorem Stalls.allowing
    {id : Nat} (hid : ∀ lhs rhs, run? k.rules .none k.limit .full e.lhs = some lhs →
      run? k.rules .none k.limit .full e.rhs = some rhs →
      Deadlocked k.rules free e.deduce lhs rhs →
      lhs.head ≠ .decl id ∧ rhs.head ≠ .decl id) : Stalls e (id :: free) k := by
  have hof : ∀ t : Term, t.head ≠ .decl id →
      of? (id :: free) t = of? free t := by
    intro t ht
    unfold of?
    split
    · next j levels hj _ =>
      have hne : j ≠ id := fun heq => ht (heq ▸ hj)
      simp [hne]
    · rfl
  obtain ⟨lhs, rhs, hl, hr, hd⟩ := (stalls_iff h).1 hs
  obtain ⟨hlhs, hrhs⟩ := hid lhs rhs hl hr hd
  exact (stalls_iff h).2 ⟨lhs, rhs, hl, hr, hd.congr rfl (hof lhs hlhs) (hof rhs hrhs) fun h => h⟩

/-- An equation stalls again if a declaration may be defined that neither it nor any rule mentions.
-/
theorem Stalls.allowing_unmentioned {id : Nat} (hlhs : id ∉ e.lhs.decls)
    (hrhs : id ∉ e.rhs.decls) (hrules : ∀ j r, k.rules.ruleFor? j = some r → id ∉ r.decls) :
    Stalls e (id :: free) k := by
  have hagree : k.rules.AgreeOn (· ≠ id) k.rules := by
    refine ⟨fun _ _ => rfl, fun j r _ hr t ht => all_declIn.2 ?_⟩
    rintro j hj rfl
    exact hrules _ r hr (Rule.mem_decls.2 ⟨t, ht, hj⟩)
  have hhead : ∀ t u : Term, id ∉ t.decls →
      run? k.rules .none k.limit .full t = some u → u.head ≠ .decl id := by
    intro t u ht hu hhead
    have hall : t.All (DeclIn (· ≠ id)) := all_declIn.2 fun j hj heq => ht (heq ▸ hj)
    have hu' := (all_declIn_of_run? hagree all_of_none _ _ hall hu).head
    rw [hhead] at hu'
    exact hu' id rfl rfl
  exact hs.allowing h fun lhs rhs hl hr _ => ⟨hhead _ lhs hlhs hl, hhead _ rhs hrhs hr⟩

/-- An equation stalls again if a declaration may be defined that was defined before. -/
theorem Stalls.allowing_defined {id arity : Nat} {head body : Term}
    (hr : k.rules.ruleFor? id = some (.lambda head arity body)) :
    Stalls e (id :: free) k := by
  refine hs.allowing h fun lhs rhs hl hrhs hd => ?_
  have hcomplete := Bool.or_eq_false_iff.1 hd.complete
  constructor
  · exact fun hhead => Bool.eq_false_iff.1 hcomplete.1 (isLambdaLike_of_run? hr hl hhead)
  · exact fun hhead => Bool.eq_false_iff.1 hcomplete.2 (isLambdaLike_of_run? hr hrhs hhead)

end Again

/-- A step that changes which declarations may be defined installs a rule. -/
theorem generation_lt_or_eq (h : e.telescope.AssumesNothing k)
    (hstep : step e free k = .ok (v, left) k') :
    k.rules.generation < k'.rules.generation ∨ left = free := by
  obtain ⟨lhs, rhs, _, _, hdecided⟩ := exists_decided h hstep
  cases hdecided with
  | extracted => exact .inl (Nat.lt_succ_self _)
  | imitated _ _ _ _ _ hk1 _ _ _ _ _ _ hreduced =>
    refine .inl ?_
    rw [hreduced.toCalm.rules, hk1]
    change _ < (withFresh k _).rules.generation + 1
    rw [withFresh, generation_registerAll]
    exact Nat.lt_succ_self _
  | deepened | symmetric | unmentionable | compared => exact .inr rfl

/-- Derived equations are below telescopes without assumptions, too. -/
theorem assumesNothing_of_derived (h : e.telescope.AssumesNothing k) {es : List Equation}
    (hstep : step e free k = .ok (.derived es, left) k') :
    ∀ e' ∈ es, e'.telescope.AssumesNothing k' := by
  have hadvances : k.Advances k' :=
    (abides_step Kernel.lasting_advances e free k).of_ok hstep
  have hsame : ∀ e' : Equation, e'.telescope = e.telescope → e'.telescope.AssumesNothing k' :=
    fun e' he' => he' ▸ h.advances hadvances
  obtain ⟨lhs, rhs, _, _, hdecided⟩ := exists_decided h hstep
  generalize hv : Verdict.derived es = v at hdecided
  cases hdecided with
  | extracted | unmentionable => cases hv
  | deepened _ hbound =>
    cases hv
    have hold : e.telescope.AssumesNothing { k with nextSymbol := k.nextSymbol + 1 } := h
    have hdeeper := hold.bound hbound
    rintro e' he'
    cases mem_singleton.1 he'
    exact hdeeper
  | imitated =>
    cases hv
    rintro e' he'
    obtain ⟨x, _, rfl⟩ := mem_map.1 he'
    exact hsame _ rfl
  | symmetric hsymmetric =>
    subst hv
    unfold explodeSymmetric at hsymmetric
    split at hsymmetric
    · split at hsymmetric
      · split at hsymmetric
        · cases hsymmetric
        · cases hsymmetric
          rintro e' he'
          obtain ⟨x, _, rfl⟩ := mem_map.1 he'
          exact hsame _ rfl
      · cases hsymmetric
    · cases hsymmetric
  | compared => split at hv <;> cases hv

end Solver
end Elaboration
