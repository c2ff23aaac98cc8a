import Elaboration.Proofs.Equation.Sound
import Elaboration.Proofs.Reduction.Extension
import Elaboration.Proofs.Reduction.Relevance

/-!
# Steps keep solutions

Below a telescope without assumptions later rules solve an equation if they give its sides the same
normal form. None do if a step fails, and if it takes the sides apart, exactly those that solve all
derived equations. A step that installs a rule has read a definition off the equation.
-/

namespace Elaboration

open Flexible List Table Term

namespace Reduction

variable {R : RuleTable} {t u n m head body : Term} {xs ys ns ms : List Term} {id : Nat}

private theorem Normalizes.of_isHeadClosed (h : Normalizes R t n) (ht : t.isHeadClosed) :
    n.head = t.head ∧ Forall₂ (Normalizes R) t.args n.args := by
  obtain ⟨hhead, hargs⟩ := (normalizes_iff.1 h).of_isHeadClosed ht
  exact ⟨hhead, hargs.imp fun _ _ => normalizes_iff.2⟩

private theorem eq_iff_of_forall₂ (hxs : Forall₂ (Normalizes R) xs ns)
    (hys : Forall₂ (Normalizes R) ys ms) (hlen : xs.length = ys.length) :
    ns = ms ↔ ∀ a ∈ xs.zip ys, ∃ w, Normalizes R a.1 w ∧ Normalizes R a.2 w := by
  induction hxs generalizing ys ms with
  | nil =>
    cases hys with
    | nil => simp
    | cons => cases hlen
  | @cons x n xs ns hx hxs ih =>
    cases hys with
    | nil => cases hlen
    | @cons y m ys ms hy hys =>
      have hhead : n = m ↔ ∃ w, Normalizes R x w ∧ Normalizes R y w := by
        constructor
        · rintro rfl
          exact ⟨n, hx, hy⟩
        · rintro ⟨w, hxw, hyw⟩
          exact (hx.unique hxw).trans (hyw.unique hy)
      rw [cons.injEq, zip_cons_cons, forall_mem_cons, hhead, ih hys (Nat.succ.inj hlen)]

private theorem eq_iff_of_isHeadClosed (ht : t.isHeadClosed) (hu : u.isHeadClosed)
    (hn : Normalizes R t n) (hm : Normalizes R u m) :
    n = m ↔ (t.head = u.head ∧ t.args.length = u.args.length) ∧
      ∀ a ∈ t.args.zip u.args, ∃ w, Normalizes R a.1 w ∧ Normalizes R a.2 w := by
  obtain ⟨hnhead, hnargs⟩ := hn.of_isHeadClosed ht
  obtain ⟨hmhead, hmargs⟩ := hm.of_isHeadClosed hu
  constructor
  · rintro rfl
    have hlen : t.args.length = u.args.length := hnargs.length_eq.trans hmargs.length_eq.symm
    exact ⟨⟨hnhead.symm.trans hmhead, hlen⟩, (eq_iff_of_forall₂ hnargs hmargs hlen).1 rfl⟩
  · rintro ⟨⟨hhead, hlen⟩, hargs⟩
    apply eq_of_head_args
    · rw [hnhead, hmhead, hhead]
    · exact (eq_iff_of_forall₂ hnargs hmargs hlen).2 hargs

private theorem Normalizes.of_lambda (hr : R.ruleFor? id = some (.lambda head xs.length body))
    (h : Normalizes R ((decl id).apply xs) n) : Normalizes R (body.subst xs) n := by
  obtain ⟨d, hd⟩ := normalizes_iff.1 h
  cases d with
  | zero => cases hd
  | succ d =>
    obtain ⟨w, args, hw, hargs, rfl⟩ := reduce_full_succ.1 hd
    cases d with
    | zero => cases hw
    | succ d =>
      have hfires : headStep R (reduce R .none d .full) ((decl id).apply xs) =
          some (some (body.subst xs)) := headStep_lambda hr _
      obtain ⟨hstuck, _⟩ | ⟨v, hv, hw⟩ := reduce_weak_succ.1 hw
      · cases hfires.symm.trans hstuck
      · cases hfires.symm.trans hv
        exact normalizes_iff.2
          (reaches_full_of_weak ⟨d, hw⟩ (hargs.imp fun _ _ hxy => ⟨d + 1, hxy⟩))

private theorem Normalizes.of_mentions {i : Nat} (hR : R.Closed) (h : Normalizes R t n)
    (hn : n.Mentions i) : t.Mentions i := by
  obtain ⟨depth, hrun⟩ := h
  refine fun ht => hn (run?_induction (closed_all hR ?_ fun _ _ h => by cases h) hrun ht)
  rintro a ha rfl
  exact absurd ha (Nat.not_lt_zero i)

end Reduction

open Reduction

/-- The rules give both sides of the equation the same normal form. -/
def Equation.SolvedBy (S : RuleTable) (e : Equation) : Prop :=
  ∃ n, Normalizes S e.lhs n ∧ Normalizes S e.rhs n

namespace Solver

variable {S : RuleTable} {e : Equation} {lhs rhs pattern rigid l r : Term} {f : Flexible}
  {free left : Indeterminates} {k k' : Kernel} {v : Verdict}

/-- What a verdict says about the normal forms of the sides. A derived equation below the same
telescope comes from taking the sides apart. -/
structure Preserves (S : RuleTable) (e : Equation) (l r : Term) (v : Verdict) : Prop where
  failed : v = .failed → l ≠ r
  derived : ∀ cs, v = .derived cs → (∀ c ∈ cs, c.telescope = e.telescope) →
    (l = r ↔ ∀ c ∈ cs, c.SolvedBy S)

private theorem Preserves.symm (h : Preserves S e l r v) : Preserves S e r l v where
  failed hv := (h.failed hv).symm
  derived cs hv hcs := eq_comm.trans (h.derived cs hv hcs)

private theorem preserves_of_sides {t u n m : Term} (hs : Sides lhs rhs t u)
    (hl : Normalizes S lhs l)
    (hr : Normalizes S rhs r) (ht : Normalizes S t n) (hu : Normalizes S u m)
    (h : Preserves S e n m v) : Preserves S e l r v := by
  obtain ⟨rfl, rfl⟩ | ⟨rfl, rfl⟩ := hs
  · rwa [hl.unique ht, hr.unique hu]
  · rw [hl.unique hu, hr.unique ht]
    exact h.symm

private theorem preserves_symmetric (hl : Normalizes S lhs l) (hr : Normalizes S rhs r)
    (hv : explodeSymmetric e lhs rhs = some v) : Preserves S e l r v := by
  unfold explodeSymmetric at hv
  split at hv
  · next hclosed =>
    rw [Bool.and_eq_true] at hclosed
    have hiff := eq_iff_of_isHeadClosed hclosed.1 hclosed.2 hl hr
    split at hv
    · next hshape =>
      rw [and_iff_right hshape] at hiff
      split at hv
      · cases hv
        exact ⟨nofun, nofun⟩
      · cases hv
        refine ⟨nofun, ?_⟩
        rintro cs ⟨⟩ -
        rw [hiff, forall_mem_map]
        rfl
    · next hshape =>
      cases hv
      exact ⟨fun _ heq => hshape (hiff.1 heq).1, nofun⟩
  · cases hv

private theorem preserves_unmentionable {level : Nat} (hS : S.Closed)
    (hf : of? free pattern = some f) (hclosed : rigid.isHeadClosed)
    (hlevel : rigid.head = .arg level) (hslot : f.slot? level = none)
    (hl : Normalizes S pattern l) (hr : Normalizes S rigid r) : Preserves S e l r .failed := by
  refine ⟨fun _ heq => ?_, nofun⟩
  have hmentions : l.Mentions level := by
    rw [heq]
    intro hr'
    have hhead := hr'.head
    rw [(hr.of_isHeadClosed hclosed).1, hlevel] at hhead
    exact hhead rfl
  have hlevels : level ∉ f.levels := by
    intro hmem
    simp [slot?, idxOf?, findIdx?_eq_none_iff] at hslot
    exact hslot level hmem rfl
  apply hl.of_mentions hS hmentions
  rw [(of?_eq_some hf).1]
  refine all_apply.2 ⟨nofun, fun x hx => ?_⟩
  obtain ⟨i, hi, rfl⟩ := mem_map.1 hx
  rintro ⟨⟩
  exact hlevels hi

private theorem preserves_imitated {head : Term} (hf : of? free pattern = some f)
    (hclosed : rigid.isHeadClosed) (hhead : Imitates f rigid head)
    (hrule : S.ruleFor? f.id =
      some (.lambda (.decl f.id) f.levels.length (imitation k f rigid head)))
    (hl : Normalizes S pattern l) (hr : Normalizes S rigid r) :
    Preserves S e l r (.derived (((freshTerms k rigid.args.length).zip rigid.args).map
      fun (v, x) => e.derive (v.apply f.args) x)) := by
  refine ⟨nofun, ?_⟩
  rintro cs ⟨⟩ -
  -- the indeterminate stands for the imitation, whose arguments are the new indeterminates
  let imitation := rigid.head.apply ((freshTerms k rigid.args.length).map fun v => v.apply f.args)
  have himitation : Normalizes S imitation l := by
    rw [(of?_eq_some hf).1] at hl
    rw [← f.length_args] at hrule
    have hbody := hl.of_lambda hrule
    rwa [hhead.subst_imitation hclosed] at hbody
  have hargs : imitation.args = (freshTerms k rigid.args.length).map fun v => v.apply f.args := by
    rw [args_apply, args_head, nil_append]
  have hhead' : imitation.head = rigid.head := by rw [head_apply, head_head]
  have hclosed' : imitation.isHeadClosed := by rwa [isHeadClosed, hhead']
  have hlen : imitation.args.length = rigid.args.length := by simp [hargs, freshTerms]
  rw [eq_iff_of_isHeadClosed hclosed' hclosed himitation hr, and_iff_right ⟨hhead', hlen⟩, hargs,
    zip_map_left, forall_mem_map, forall_mem_map]
  rfl

private theorem Decided.preserves (hempty : e.telescope.AssumesNothing k)
    (h : Decided e lhs rhs free k v left k') (hsub : k'.rules.Sub S) (hS : S.Closed)
    (hl : Normalizes S lhs l) (hr : Normalizes S rhs r) : Preserves S e l r v := by
  have hnormal : ∀ {t u}, Sides lhs rhs t u → ∃ n m, Normalizes S t n ∧ Normalizes S u m := by
    rintro t u (⟨rfl, rfl⟩ | ⟨rfl, rfl⟩)
    · exact ⟨l, r, hl, hr⟩
    · exact ⟨r, l, hr, hl⟩
  cases h with
  | extracted => exact ⟨nofun, nofun⟩
  | deepened _ hbound =>
    refine ⟨nofun, ?_⟩
    rintro cs ⟨⟩ hcs
    -- the derived equation stands below a longer telescope
    have hsame := congrArg (fun tele => tele.entries.length) (hcs _ (mem_singleton.2 rfl))
    rw [hbound.telescope] at hsame
    exact absurd hsame (Nat.succ_ne_self _)
  | symmetric hv => exact preserves_symmetric hl hr hv
  | unmentionable _ hs hf hclosed hlevel hslot _ =>
    obtain ⟨n, m, hn, hm⟩ := hnormal hs
    rw [hempty.equalities, Equalities.eliminate_empty] at hlevel
    exact preserves_of_sides hs hl hr hn hm
      (preserves_unmentionable hS hf hclosed hlevel hslot hn hm)
  | imitated _ hs hf hrigid hfresh hk1 _ hclosed hhead _ _ _ hreduced _ =>
    obtain ⟨n, m, hn, hm⟩ := hnormal hs
    rw [hempty.equalities, Equalities.eliminate_empty] at hrigid
    subst hrigid hfresh hk1
    refine preserves_of_sides hs hl hr hn hm (preserves_imitated hf hclosed hhead ?_ hn hm)
    refine hsub _ _ ?_
    rw [hreduced.rules]
    exact ruleFor?_defined _ _ _
  | compared =>
    split
    · exact ⟨nofun, nofun⟩
    · exact ⟨nofun, nofun⟩

/-- A step below a telescope without assumptions keeps solutions. Under any later rules that are
closed and match on postulates and leaves only, and that normalise both sides, the sides of an
equation that failed have different normal forms, and the sides of one that was taken apart have the
same one exactly if those of every derived equation do. -/
theorem step_preserves_solutions (hempty : e.telescope.AssumesNothing k)
    (h : step e free k = .ok (v, left) k') (hsub : k'.rules.Sub S) (hS : S.Closed)
    (hrigid : S.MatchesRigid) (hl : Normalizes S e.lhs l) (hr : Normalizes S e.rhs r) :
    (v = .failed → l ≠ r) ∧
    ∀ cs, v = .derived cs → (∀ c ∈ cs, c.telescope = e.telescope) →
      (l = r ↔ ∀ c ∈ cs, c.SolvedBy S) := by
  have hkept : k.rules.Sub S := ((ends_step e free k).of_ok h).extends.rules.trans hsub
  have hrigid' : k.rules.MatchesRigid := fun id rule hrule => hrigid id rule (hkept id rule hrule)
  have hlater := (normalizes_of_sub hkept hrigid').1
  obtain ⟨lhs, rhs, hlhs, hrhs, hdecided⟩ := exists_decided hempty h
  have hpreserves := hdecided.preserves hempty hsub hS (hlater _ _ _ ⟨_, hlhs⟩ hl)
    (hlater _ _ _ ⟨_, hrhs⟩ hr)
  exact ⟨hpreserves.failed, hpreserves.derived⟩

/-! ### A successor whose predecessor is defined later -/

/-- Nothing is defined yet: neither the indeterminate `d2` nor the declaration `d3`. -/
def undefinedPredecessor : Kernel :=
  { Kernel.initial with
    nextSymbol := 4, rules := { registered := [2, 3] }, contexts := #[Equalities.empty] }

/-- The indeterminate at `$0` is the successor `a0` of `d3` at `$1`. -/
def successorEquation : Equation where
  lhs := .app (.decl 2) (.arg 0)
  rhs := .app (.postulate 0) (.app (.decl 3) (.arg 1))
  telescope := ⟨[], Primitive.type, .app Primitive.identity Primitive.type, 0⟩
  deduce := true

/-- A step gave `d2` the successor of a new indeterminate, `d4`; later `d3` and `d4` are defined as
`a1` everywhere. -/
def definedPredecessor : RuleTable where
  rules := ⟨[(2, .lambda (.decl 2) 1 (.app (.postulate 0) (.app (.decl 4) (.arg 0)))),
    (3, .lambda (.decl 3) 1 (.postulate 1)), (4, .lambda (.decl 4) 1 (.postulate 1))]⟩

/-- What is left to solve. -/
def predecessorEquation : Equation :=
  successorEquation.derive (.app (.decl 4) (.arg 0)) (.app (.decl 3) (.arg 1))

/-- The equation is taken apart. The later rules solve it, so they solve what was derived. -/
theorem step_preserves_solutions_successor : ∃ left k',
    step successorEquation [2] undefinedPredecessor =
      .ok (.derived [predecessorEquation], left) k' ∧
      k'.rules.Sub definedPredecessor ∧ successorEquation.SolvedBy definedPredecessor ∧
      predecessorEquation.SolvedBy definedPredecessor := by
  obtain ⟨⟨_, left⟩, k', hstep, rfl, hentries⟩ :
      ∃ x k', step successorEquation [2] undefinedPredecessor = .ok x k' ∧
        x.1 = .derived [predecessorEquation] ∧
        ∀ x ∈ k'.rules.rules.entries, definedPredecessor.ruleFor? x.1 = some x.2 := by
          decide +kernel
  have hsub : k'.rules.Sub definedPredecessor := forall_get? hentries
  have hclosed : definedPredecessor.Closed :=
    forall_get? (t := definedPredecessor.rules) (by decide)
  have hrigid : definedPredecessor.MatchesRigid :=
    forall_get? (t := definedPredecessor.rules) (by decide)
  have hl : Normalizes definedPredecessor successorEquation.lhs
      (.app (.postulate 0) (.postulate 1)) := ⟨8, by decide +kernel⟩
  have hr : Normalizes definedPredecessor successorEquation.rhs
      (.app (.postulate 0) (.postulate 1)) := ⟨8, by decide +kernel⟩
  have hempty : successorEquation.telescope.AssumesNothing undefinedPredecessor := rfl
  have hpreserves := step_preserves_solutions hempty hstep hsub hclosed hrigid hl hr
  have hsolved := (hpreserves.2 _ rfl (forall_mem_singleton.2 rfl)).1 rfl
  exact ⟨left, k', hstep, hsub, ⟨_, hl, hr⟩, hsolved _ (mem_singleton.2 rfl)⟩

end Solver

open RuleTable

namespace Flexible

variable {free : Indeterminates} {t r : Term} {f : Flexible}

private theorem nodup_of_of? (h : of? free t = some f) : f.levels.Nodup := by
  unfold of? at h
  split at h
  · split at h
    · next hid =>
      cases h
      exact hid.2
    · cases h
  · cases h

private theorem lt_of_mentions_of_mapArgs? (h : t.mapArgs? f.slot? = some r) {i : Nat}
    (hi : r.Mentions i) : i < f.levels.length := by
  induction t generalizing r with
  | app g x ihg ihx =>
    obtain ⟨g', x', hg, hx, rfl⟩ := mapArgs?_app.1 h
    rw [Mentions, all_app, not_and_or] at hi
    exact hi.elim (ihg hg) (ihx hx)
  | arg level =>
    obtain ⟨j, hj, rfl, _⟩ := slot?_eq_some h
    have hij : arg j = .arg i := not_not.1 hi
    cases hij
    exact hj
  | _ =>
    cases h
    exact absurd nofun hi

end Flexible

namespace Solver

variable {e : Equation} {t n value replacement : Term} {f : Flexible}
  {free left : Indeterminates} {k k' : Kernel}

private theorem ruleFor?_defined_of_ne (k : Kernel) (f : Flexible) (replacement : Term) {id : Nat}
    (hid : id ≠ f.id) : (defined k f replacement).rules.ruleFor? id = k.rules.ruleFor? id := by
  rw [defined, Kernel.withRule, ruleFor?_install, if_neg hid.symm]

private theorem normalizes_defined (replacement : Term) (ht : k.rules.dependsOn t f.id = false)
    (h : Normalizes k.rules t n) : Normalizes (defined k f replacement).rules t n := by
  obtain ⟨depth, hrun⟩ := h
  refine ⟨depth, ?_⟩
  rw [run?_of_agreeOn (agreeOn_of_dependsOn k.rules (defined k f replacement).rules)
    fun _ _ h => by cases h]
  · exact hrun
  · refine all_declIn.2 fun id hid j hj => ?_
    have hj : j = f.id := by
      by_contra hne
      exact hj (ruleFor?_defined_of_ne k f replacement hne)
    rw [hj]
    exact dependsOn_decl_of_mem ht hid

/-- The definition of `f` by `replacement`, which took `R` to `S`, makes the indeterminate at its
arguments the normal term `value`; nothing else was changed. -/
structure Extracts (R S : RuleTable) (free left : Indeterminates) (f : Flexible)
    (replacement value : Term) : Prop where
  definable : f.id ∈ free
  distinct : f.levels.Nodup
  rule : S.ruleFor? f.id = some (.lambda (.decl f.id) f.levels.length replacement)
  captured : ∀ i, replacement.Mentions i → i < f.levels.length
  solves : Normalizes S ((Term.decl f.id).apply f.args) value
  normal : Normalizes S value value
  undefinable : f.id ∉ left
  others : ∀ id, id ≠ f.id → S.ruleFor? id = R.ruleFor? id ∧ (id ∈ left ↔ id ∈ free)

private theorem extracts_defined (hid : f.id ∈ free) (hdistinct : f.levels.Nodup)
    (hvalue : Normalizes k.rules value value) (hfree : k.rules.dependsOn value f.id = false)
    (habstract : value.mapArgs? f.slot? = some replacement) :
    Extracts k.rules (defined k f replacement).rules free
      (free.filter (· ≠ f.id)) f replacement value := by
  have hkept := normalizes_defined replacement hfree hvalue
  have hrule := ruleFor?_defined k f replacement
  refine ⟨hid, hdistinct, hrule, fun i hi => lt_of_mentions_of_mapArgs? habstract hi, ?_,
    hkept, by simp, fun id hne => ⟨ruleFor?_defined_of_ne k f replacement hne, by simp [hne]⟩⟩
  rw [← f.length_args] at hrule
  refine normalizes_lambda hrule ?_
  rwa [subst_of_mapArgs? habstract]

/-- A step without assumptions that solves an equation, and changes the rules or the indeterminates,
has extracted a definition from the reduced sides, which solves the equation. -/
theorem step_extracts_solution (hempty : e.telescope.AssumesNothing k)
    (h : step e free k = .ok (.solved, left) k')
    (hchanged : left ≠ free ∨ k'.rules ≠ k.rules) :
    e.deduce ∧ ∃ lhs rhs f replacement value,
      Normalizes k.rules e.lhs lhs ∧ Normalizes k.rules e.rhs rhs ∧
      Sides lhs rhs ((Term.decl f.id).apply f.args) value ∧
      Extracts k.rules k'.rules free left f replacement value := by
  obtain ⟨lhs, rhs, hlhs, hrhs, hdecided⟩ := exists_decided hempty h
  generalize hv : Verdict.solved = v at hdecided
  cases hdecided with
  | @extracted pattern value replacement f hdeduce hsides hf _ hfree habstract _ _ =>
    rw [hempty.equalities, Equalities.eliminate_empty] at hfree habstract
    obtain ⟨rfl, hid⟩ := of?_eq_some hf
    have hvalue : Normalizes k.rules value value := by
      obtain ⟨_, rfl⟩ | ⟨_, rfl⟩ := hsides
      · exact (normalizes_of_replaced ⟨_, hrhs⟩).2
      · exact (normalizes_of_replaced ⟨_, hlhs⟩).2
    exact ⟨hdeduce, lhs, rhs, f, replacement, value, ⟨_, hlhs⟩, ⟨_, hrhs⟩, hsides,
      extracts_defined hid (nodup_of_of? hf) hvalue hfree habstract⟩
  | deepened | imitated => cases hv
  | symmetric | unmentionable | compared => exact absurd hchanged (by simp)

/-- The indeterminate `d2` at `$4` and `$1`, in this order, is on the right of the successor `a0` of
`d3` at `$1`. -/
def flippedEquation : Equation :=
  { successorEquation with
    lhs := .app (.postulate 0) (.app (.decl 3) (.arg 1))
    rhs := .app (.app (.decl 2) (.arg 4)) (.arg 1) }

/-- The definition captures two arguments and uses the second one; `d3` can still be defined. -/
theorem step_extracts_solution_flipped : ∃ left k',
    step flippedEquation [3, 2] undefinedPredecessor = .ok (.solved, left) k' ∧ left = [3] ∧
    ∃ lhs rhs f replacement value, Normalizes undefinedPredecessor.rules flippedEquation.lhs lhs ∧
      Normalizes undefinedPredecessor.rules flippedEquation.rhs rhs ∧
      Sides lhs rhs ((Term.decl f.id).apply f.args) value ∧
      Extracts undefinedPredecessor.rules k'.rules [3, 2] left f replacement value := by
  obtain ⟨_, k', hstep, rfl⟩ : ∃ x k', step flippedEquation [3, 2] undefinedPredecessor = .ok x k' ∧
      x = (.solved, [3]) := by decide +kernel
  have hempty : flippedEquation.telescope.AssumesNothing undefinedPredecessor := rfl
  exact ⟨[3], k', hstep, rfl, (step_extracts_solution hempty hstep (.inl (by decide))).2⟩

end Solver
end Elaboration
