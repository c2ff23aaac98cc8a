import Elaboration.Proofs.Reduction.Stability
import Elaboration.Proofs.Telescope.Client
import Elaboration.Proofs.Telescope.Plain

/-!
# Types over a telescope

A telescope encodes the type of functions over its arguments by declarations. It is normalised to a
function type from the type of the first argument, its codomain at any argument to one from the type
of the second argument there, and so on, up to the result. The proof is by induction on the depth,
for all families: that of functions from the last argument is one over one argument less.
-/

namespace Elaboration

open Ends Equalities Kernel List Primitive RuleTable Table Term
namespace Telescope

open Reduction
open Term (Plain firstArgs)

/-- The telescope was built by binding arguments of the given types in turn, while the kernel grew
and the context stayed as it was. -/
inductive Built : List Term → Telescope → Kernel → Prop where
  | root {tele : Telescope} {k k' : Kernel} : Kernel.initial.rules.Sub k.rules → k.RulesMade →
      Telescope.root k = .ok tele k' → Built [] tele k'
  | extend {types : List Term} {tele tele' : Telescope} {k k' : Kernel} {type : Term} :
      Built types tele k → tele.extend type k = .ok tele' k' → Built (types ++ [type]) tele' k'
  | later {types : List Term} {tele : Telescope} {k k' : Kernel} : Built types tele k →
      k.rules.Sub k'.rules → k'.RulesMade →
      k'.contexts[tele.context]? = k.contexts[tele.context]? → Built types tele k'

/-- The term is normalised to a function type, whose codomain at the first argument is one, and so
on; `domains` are the domains on the way, and the last codomain is normalised to `n`. -/
inductive Unfolds (R : RuleTable) : List Term → List Term → Term → Term → Prop where
  | done {t n : Term} : Normalizes R t n → Unfolds R [] [] t n
  | step {domain codomain a t n : Term} {domains args : List Term} :
      Normalizes R t (Primitive.arrowOf domain codomain) →
      Unfolds R domains args (.app codomain a) n → Unfolds R (domain :: domains) (a :: args) t n

/-- The normal forms of types, each over the arguments before it, at arguments that have normal
forms. -/
structure DomainsAt (R : RuleTable) (types args domains : List Term) : Prop where
  args_length : args.length = types.length
  domains_length : domains.length = types.length
  arg : ∀ a ∈ args, ∃ n, Normalizes R a n
  domain : ∀ (i : Nat) (type domain : Term), types[i]? = some type → domains[i]? = some domain →
    Normalizes R (type.subst (args.take i)) domain

/-- The term has a normal form when it is applied to fewer than `d` arguments. -/
def FamilyOver (R : RuleTable) (d : Nat) (g : Term) : Prop :=
  ∀ xs : List Term, xs.length < d → (∀ x ∈ xs, ∃ n, Normalizes R x n) →
    ∃ n, Normalizes R (g.apply xs) n

variable {R : RuleTable} {tele tele' : Telescope} {k k' : Kernel}
  {types args domains ns : List Term} {t u n e g type domain codomain a : Term} {id : Nat}

private theorem Unfolds.of_normalizes (h : Unfolds R domains args t n)
    (htu : ∀ m, Normalizes R t m → Normalizes R u m) : Unfolds R domains args u n := by
  cases h with
  | done ht => exact .done (htu _ ht)
  | step ht h => exact .step (htu _ ht) h

private theorem Unfolds.snoc (h : Unfolds R domains args t (arrowOf domain codomain))
    (hn : Normalizes R (.app codomain a) n) :
    Unfolds R (domains ++ [domain]) (args ++ [a]) t n := by
  generalize hm : arrowOf domain codomain = m at h
  induction h with
  | done ht => exact .step (hm ▸ ht) (.done hn)
  | step ht _ ih => exact .step ht (ih hm)

private theorem DomainsAt.of_append (h : DomainsAt R (types ++ [type]) args domains) :
    ∃ args' a domains' domain, args = args' ++ [a] ∧ domains = domains' ++ [domain] ∧
      DomainsAt R types args' domains' ∧ Normalizes R (type.subst args') domain := by
  obtain ⟨hargs, hdomains, harg, hdomain⟩ := h
  rw [length_append, length_singleton] at hargs hdomains
  obtain rfl | ⟨args', a, rfl⟩ := args.eq_nil_or_concat'
  · cases hargs
  obtain rfl | ⟨domains', domain, rfl⟩ := domains.eq_nil_or_concat'
  · cases hdomains
  rw [length_append, length_singleton, Nat.add_right_cancel_iff] at hargs hdomains
  refine ⟨args', a, domains', domain, rfl, rfl, ⟨hargs, hdomains, ?_, ?_⟩, ?_⟩
  · exact fun x hx => harg x (mem_append_left _ hx)
  · intro i type' domain' htype' hdomain'
    have hi : i < types.length := (List.getElem?_eq_some_iff.1 htype').1
    have hshown := hdomain i type' domain' (by rwa [getElem?_append_left hi])
      (by rwa [getElem?_append_left (hdomains ▸ hi)])
    rwa [take_append_of_le_length (by omega)] at hshown
  · have hlast := hdomain types.length type domain (by simp) (by simp [← hdomains])
    rwa [← hargs, take_left'] at hlast
    rfl

/-! ### Built telescopes -/

/-- What holds of a telescope that was built and of the kernel. -/
structure Standing (types : List Term) (tele : Telescope) (k : Kernel) : Prop where
  depth : tele.depth = types.length
  pi : ∀ xs, tele.pi.subst xs = tele.pi
  plain : tele.pi.All Plain
  context : tele.AssumesNothing k
  primitives : Kernel.initial.rules.Sub k.rules
  made : k.RulesMade

/-- A telescope that was built stands. -/
theorem Built.standing (h : Built types tele k) : Standing types tele k := by
  induction h with
  | root hsub hmade hroot =>
    cases hroot
    exact ⟨rfl, fun _ => rfl, ⟨nofun, nofun⟩, assumesNothing_root rfl, hsub, hmade⟩
  | @extend types tele tele' k k' type _ hextend ih =>
    have hbound := (ends_extend tele type k).of_ok hextend
    have hextends := hbound.extends
    have hcontext := ih.context.bound hbound
    obtain rfl := hbound.telescope
    refine ⟨?_, fun _ => rfl, nofun, hcontext, ih.primitives.trans hextends.rules, ?_⟩
    · rw [length_append, ← ih.depth]
      rfl
    · intro id r hr
      have hadds : k.Adds (fun _ => False) k' := hbound.adds
      obtain hr | hold | hnew := hadds.ruled id r hr
      · exact (ih.made id r hr).trans_le hextends.symbols
      · exact hold.elim
      · exact hnew.2
  | later _ hsub hmade hcontext ih =>
    exact { ih with
      context := hcontext.trans ih.context
      primitives := ih.primitives.trans hsub
      made := hmade }

private theorem not_hasRule (hmade : k.RulesMade) (hid : k.nextSymbol ≤ id) :
    ¬ k.rules.hasRule id := by
  intro hrule
  obtain ⟨r, hr⟩ := Option.isSome_iff_exists.1 hrule
  exact absurd (hmade id r hr) (not_lt.2 hid)

private theorem Built.exists_extend (h : Built types tele k) (type : Term) :
    ∃ tele' k', tele.extend type k = .ok tele' k' := by
  cases hextend : tele.extend type k with
  | ok tele' k' => exact ⟨tele', k', rfl⟩
  | error stop k' =>
    obtain ⟨-, id, hid, hrule, -⟩ := (ends_extend tele type k).of_error hextend
    exact absurd hrule (not_hasRule h.standing.made hid)

private theorem Built.exists_instanceOf (h : Built types tele k) (e : Term) :
    ∃ t k', tele.instanceOf e k = .ok t k' := by
  cases hinstance : tele.instanceOf e k with
  | ok t k' => exact ⟨t, k', rfl⟩
  | error stop k' =>
    obtain ⟨-, id, hid, hrule, -⟩ := (ends_instanceOf tele e k).of_error hinstance
    exact absurd hrule (not_hasRule h.standing.made hid)

/-! ### Binding one more argument -/

private theorem map_subst_shifted (x : Term) (xs : List Term) :
    ((range xs.length).map fun i => arg (i + 1)).map (subst (x :: xs)) = xs := by
  apply ext_getElem
  · simp
  · intro i hi hi'
    simp [subst, hi']

section Bound

variable {first : Nat} (hrules : ∀ x ∈ tele.boundRules type first, R.ruleFor? x.1 = some x.2)

include hrules

private theorem familyOver_fibration (hg : FamilyOver R (tele.depth + 1) g) :
    FamilyOver R tele.depth (.app (.decl (first + 3)) g) := by
  simp only [boundRules, forall_mem_cons] at hrules
  obtain ⟨-, -, -, hfibration, -⟩ := hrules
  intro xs hxs hnormal
  obtain ⟨m, hm⟩ := hg [] (Nat.succ_pos _) (forall_mem_nil _)
  obtain ⟨ns, hns⟩ := exists_normalizes hnormal
  have hlen : (g :: xs).length < tele.depth + 1 := Nat.succ_lt_succ hxs
  exact ⟨_, normalizes_partial hfibration hlen (.cons hm hns)⟩

/-- At the other arguments this family is a function type. -/
theorem normalizes_fibration (hlen : args.length = tele.depth)
    (hdomain : Normalizes R (type.subst args) domain)
    (hcodomain : Normalizes R (g.apply args) codomain) :
    Normalizes R ((app (.decl (first + 3)) g).apply args) (arrowOf domain codomain) := by
  simp only [boundRules, forall_mem_cons, ← hlen] at hrules
  obtain ⟨hext, -, -, hfibration, -⟩ := hrules
  change Normalizes R ((decl (first + 3)).apply (g :: args)) _
  refine normalizes_lambda hfibration ?_
  simp only [arrowOf, subst_apply, map_cons, map_nil, map_subst_shifted]
  exact normalizes_postulate (.cons (normalizes_lambda hext hdomain) (.cons hcodomain .nil))

theorem normalizes_pi (hpi : ∀ xs, tele.pi.subst xs = tele.pi)
    (hn : Normalizes R (.app tele.pi (.app (.decl (first + 3)) g)) n) :
    Normalizes R (.app (.decl (first + 4)) g) n := by
  simp only [boundRules, forall_mem_cons] at hrules
  obtain ⟨-, -, -, -, hrule, -⟩ := hrules
  change Normalizes R ((decl (first + 4)).apply [g]) n
  refine normalizes_lambda hrule ?_
  rw [subst_app, hpi]
  exact hn

private theorem normalizes_familyOver (hlen : args.length = tele.depth)
    (hargs : Forall₂ (Normalizes R) args ns) (hdomain : Normalizes R (type.subst args) domain) :
    Normalizes R ((Term.decl (first + 2)).apply args)
      (Primitive.arrowOf domain ((Term.decl (first + 1)).apply ns)) := by
  simp only [boundRules, forall_mem_cons, ← hlen] at hrules
  obtain ⟨-, hconstant, hfamily, -⟩ := hrules
  refine normalizes_lambda hfamily ?_
  simp only [Primitive.arrowOf, Term.applyArgs, Term.subst_apply, map_cons, map_nil,
    Term.map_subst_firstArgs]
  have hcodomain : Normalizes R ((Term.decl (first + 1)).apply args)
      ((Term.decl (first + 1)).apply ns) :=
    normalizes_partial hconstant (Nat.lt_succ_self _) hargs
  exact normalizes_postulate (.cons hdomain (.cons hcodomain .nil))

private theorem normalizes_innerConstant (hlen : args.length = tele.depth) :
    Normalizes R (.app ((decl (first + 1)).apply args) a) Primitive.type := by
  simp only [boundRules, forall_mem_cons] at hrules
  obtain ⟨-, hconstant, -⟩ := hrules
  have hlen' : (args ++ [a]).length = tele.depth + 1 := by rw [length_append, hlen]; rfl
  have happ : app ((decl (first + 1)).apply args) a = (decl (first + 1)).apply (args ++ [a]) := by
    rw [apply_append]
    rfl
  rw [← hlen'] at hconstant
  rw [happ]
  exact normalizes_lambda hconstant (normalizes_postulate .nil)

end Bound

theorem Bound.hasRules (h : Bound tele type k tele' k') (hR : k'.rules.Sub R) :
    ∀ x ∈ tele.boundRules type k.nextSymbol, R.ruleFor? x.1 = some x.2 :=
  fun _ hx => hR _ _ (h.installed hx)

private theorem Built.unfolds_pi (h : Built types tele k) (hR : k.rules.Sub R)
    (hg : FamilyOver R types.length g) (hdomains : DomainsAt R types args domains)
    (hn : Normalizes R (g.apply args) n) : Unfolds R domains args (.app tele.pi g) n := by
  induction h generalizing g args domains n with
  | @root tele k k' hsub _ hroot =>
    cases hroot
    obtain rfl := length_eq_zero_iff.1 hdomains.args_length
    obtain rfl := length_eq_zero_iff.1 hdomains.domains_length
    have hidentity : R.ruleFor? 4 = some (.lambda Primitive.identity 2 (.arg 1)) :=
      hR _ _ (hsub _ _ rfl)
    have hlambda : Normalizes R ((decl 4).apply [Primitive.type, g]) n :=
      normalizes_lambda hidentity hn
    exact .done hlambda
  | @extend types tele tele' k k' type hbuilt hextend ih =>
    have hbound := (ends_extend tele type k).of_ok hextend
    have hrules := hbound.hasRules hR
    have hstanding := hbuilt.standing
    obtain ⟨args', a, domains', domain, rfl, rfl, hdomains', hdomain⟩ := hdomains.of_append
    obtain rfl := hbound.telescope
    have hlen : args'.length = tele.depth := hdomains'.args_length.trans hstanding.depth.symm
    rw [length_append, length_singleton, ← hstanding.depth] at hg
    obtain ⟨codomain, hcodomain⟩ := hg args' (hlen ▸ Nat.lt_succ_self _) hdomains'.arg
    -- the functions from the last argument unfold over the arguments before it
    have hunfolds := ih (hbound.extends.rules.trans hR)
      (hstanding.depth ▸ familyOver_fibration hrules hg) hdomains'
      (normalizes_fibration hrules hlen hdomain hcodomain)
    rw [apply_append] at hn
    refine (hunfolds.snoc (Normalizes.app_left hn hcodomain)).of_normalizes fun m hm => ?_
    exact normalizes_pi hrules hstanding.pi hm
  | later _ hsub _ _ ih => exact ih (hsub.trans hR) hg hdomains hn

private theorem Built.unfolds_family (h : Built types tele k) (hR : k.rules.Sub R)
    (hdomains : DomainsAt R types args domains) :
    Unfolds R domains args tele.family Primitive.type := by
  induction h generalizing args domains with
  | @root tele k k' hsub _ hroot =>
    cases hroot
    obtain rfl := length_eq_zero_iff.1 hdomains.args_length
    obtain rfl := length_eq_zero_iff.1 hdomains.domains_length
    exact .done (normalizes_postulate .nil)
  | @extend types tele tele' k k' type hbuilt hextend ih =>
    have hbound := (ends_extend tele type k).of_ok hextend
    have hrules := hbound.hasRules hR
    have hstanding := hbuilt.standing
    obtain ⟨args', a, domains', domain, rfl, rfl, hdomains', hdomain⟩ := hdomains.of_append
    obtain rfl := hbound.telescope
    have hlen : args'.length = tele.depth := hdomains'.args_length.trans hstanding.depth.symm
    obtain ⟨ns, hns⟩ := exists_normalizes hdomains'.arg
    have hfamily : FamilyOver R types.length (.decl (k.nextSymbol + 2)) := by
      simp only [boundRules, forall_mem_cons] at hrules
      obtain ⟨-, -, hfamily, -⟩ := hrules
      intro xs hxs hnormal
      obtain ⟨ns, hns⟩ := exists_normalizes hnormal
      exact ⟨_, normalizes_partial hfamily (hstanding.depth.symm ▸ hxs) hns⟩
    have hunfolds := hbuilt.unfolds_pi (hbound.extends.rules.trans hR) hfamily hdomains'
      (normalizes_familyOver hrules hlen hns hdomain)
    exact hunfolds.snoc (normalizes_innerConstant hrules (hns.length_eq ▸ hlen))
  | later _ hsub _ _ ih => exact ih (hsub.trans hR) hdomains

private theorem Instantiated.unfolds (hbuilt : Built types tele k) (h : Instantiated tele e k t k')
    (hR : k'.rules.Sub R) (hdomains : DomainsAt R types args domains)
    (hn : Normalizes R (e.subst args) n) : Unfolds R domains args t n := by
  have hdepth := hbuilt.standing.depth
  have hrule : R.ruleFor? k.nextSymbol = some (.lambda (.decl k.nextSymbol) types.length e) := by
    refine hR _ _ ?_
    obtain ⟨_, rfl⟩ := h.kernel
    rw [← hdepth]
    simp [withRule, ruleFor?_install]
  have hkept : k.rules.Sub R := h.extends.rules.trans hR
  have hfamily : FamilyOver R types.length (.decl k.nextSymbol) := by
    intro xs hxs hnormal
    obtain ⟨ns, hns⟩ := exists_normalizes hnormal
    exact ⟨_, normalizes_partial hrule hxs hns⟩
  rw [← hdomains.args_length] at hrule
  rw [h.term]
  exact hbuilt.unfolds_pi hkept hfamily hdomains (normalizes_lambda hrule hn)

/-! ### Types of applied declarations -/

private theorem plain_of_normalizes (hR : R.Over Plain) (h : Normalizes R t n) (ht : t.All Plain) :
    n.All Plain := by
  obtain ⟨depth, hrun⟩ := h
  rw [← replacer_empty] at hrun
  have hrelated := related_run? (localTheory_true R).toRuleCongruence
    not_plain_placeholder hR sound_empty ht.classOr hrun
  exact hrelated.right.mono fun a ha => ha.resolve_right (by rintro ⟨i, hi, _⟩; cases hi)

theorem ends_reduce_of_run? (hcontext : tele.AssumesNothing k)
    (hrun : run? k.rules .none k.limit .full t = some n) :
    Ends (tele.reduce t) k (fun u k' => u = n ∧ k' = k) fun _ _ => False := by
  refine (hcontext.ends_reduce t).mono ?_ fun _ _ hnone => ?_
  · rintro u k' ⟨hu, hk⟩
    exact ⟨Option.some.inj (hu.symm.trans hrun), hk⟩
  · cases hnone.symm.trans hrun

theorem ends_reduceClean_of_run? (hcontext : tele.AssumesNothing k)
    (hrun : run? k.rules .none k.limit .full t = some n) (hn : n.All Plain) :
    Ends (tele.reduceClean t) k (fun u k' => u = n ∧ k' = k) fun _ _ => False := by
  refine (ends_reduce_of_run? hcontext hrun).seq ?_
  rintro u k' ⟨rfl, rfl⟩
  unfold eliminate
  simp only [bind_iff, KernelM.ends_context]
  rw [eliminate_eq_self _ hn, if_neg (by simp [all_hasPlaceholder.2 hn])]
  exact ⟨rfl, rfl⟩

private theorem typeOfApplied_of_unfolds (hR : R.Over Plain) (h : Unfolds R domains args t n)
    (ht : t.All Plain) (hargs : ∀ a ∈ args, a.All Plain) :
    ∃ type, Normalizes R type n ∧ ∃ bound, ∀ k : Kernel, k.rules = R → bound ≤ k.limit →
      k.contexts[tele.context]? = some .empty →
      Ends (tele.typeOfApplied t args) k (fun u k' => u = some type ∧ k' = k) fun _ _ => False := by
  induction h with
  | @done t n hn => exact ⟨t, hn, 0, fun k _ _ _ => ⟨rfl, rfl⟩⟩
  | @step domain codomain a t n domains args hfunction _ ih =>
    rw [forall_mem_cons] at hargs
    have hplain := plain_of_normalizes hR hfunction ht
    obtain ⟨type, htype, bound, hbound⟩ := ih ⟨hplain.2, hargs.1⟩ hargs.2
    obtain ⟨bound', hbound'⟩ := hfunction.eventually
    refine ⟨type, htype, max bound bound', fun k hk hlimit hcontext => ?_⟩
    subst hk
    have hclean := ends_reduceClean_of_run? hcontext
      (hbound' _ ((le_max_right ..).trans hlimit)) hplain
    have hrest := hbound k rfl ((le_max_left ..).trans hlimit) hcontext
    unfold typeOfApplied
    refine hclean.seq ?_
    rintro u k' ⟨rfl, rfl⟩
    exact hrest

private theorem ends_typeOf_applyArgs {v : Nat} (hv : k.types.get? v = some t)
    {Q : Option Term → Kernel → Prop} {X : Stop → Kernel → Prop}
    (h : Ends (tele.typeOfApplied t (firstArgs tele.depth)) k Q X) :
    Ends (tele.typeOf (tele.applyArgs (.decl v))) k Q X := by
  have hhead : (tele.applyArgs (.decl v)).head = .decl v := head_apply ..
  have hspine : (tele.applyArgs (.decl v)).args = firstArgs tele.depth := args_apply ..
  unfold typeOf
  rw [bind_iff, get_iff, hhead, hspine]
  simp only [show k.typeOfSymbol? (.decl v) = some t from hv]
  exact h

theorem subst_firstArgs (d : Nat) (t : Term) : t.subst (firstArgs d) = t := by
  induction t with
  | app f x ihf ihx => rw [subst_app, ihf, ihx]
  | arg i => by_cases hi : i < d <;> simp [subst, firstArgs, hi]
  | _ => rfl

private theorem exists_domainsAt_firstArgs
    (h : ∀ type ∈ types, ∃ domain, Normalizes R type domain) :
    ∃ domains, DomainsAt R types (firstArgs types.length) domains := by
  obtain ⟨domains, hdomains⟩ := exists_normalizes h
  refine ⟨domains, length_firstArgs _, hdomains.length_eq.symm, fun a ha => ?_, ?_⟩
  · obtain ⟨i, -, rfl⟩ := mem_map.1 ha
    exact ⟨_, normalizes_arg R i⟩
  · intro i type domain htype hdomain
    obtain ⟨hi, rfl⟩ := List.getElem?_eq_some_iff.1 htype
    obtain ⟨hi', rfl⟩ := List.getElem?_eq_some_iff.1 hdomain
    have htake : (firstArgs types.length).take i = firstArgs i := by
      rw [firstArgs, ← map_take, take_range, min_eq_left hi.le, firstArgs]
    rw [htake, subst_firstArgs]
    exact (forall₂_iff_get.1 hdomains).2 i hi hi'

/-- The type of functions over a telescope unfolds, at any arguments, to the types of the arguments
and the result there, and the type of families unfolds to the type of types. A declaration of that
type applied to the arguments of the telescope has the type that it was made for, if no rule
mentions a placeholder. -/
theorem Built.unfolds_instanceOf (hbuilt : Built types tele k) (e : Term) :
    ∃ t k', tele.instanceOf e k = .ok t k' ∧
      (∀ R, k'.rules.Sub R → ∀ args domains, DomainsAt R types args domains →
        Unfolds R domains args tele.family Primitive.type ∧
          ∀ n, Normalizes R (e.subst args) n → Unfolds R domains args t n) ∧
      ∀ (k1 : Kernel) (v : Nat) (n : Term), k'.rules.Sub k1.rules → k1.rules.Over Plain →
        k1.contexts[tele.context]? = k'.contexts[tele.context]? → k1.types.get? v = some t →
        (∀ type ∈ types, ∃ domain, Normalizes k1.rules type domain) → Normalizes k1.rules e n →
        ∃ bound, ∀ limit ≥ bound, ∃ type, tele.typeOf (tele.applyArgs (.decl v)) { k1 with limit } =
            .ok (some type) { k1 with limit } ∧
          tele.reduce type { k1 with limit } = .ok n { k1 with limit } := by
  have hstanding := hbuilt.standing
  obtain ⟨t, k', hinstance⟩ := hbuilt.exists_instanceOf e
  have hmade := (ends_instanceOf tele e k).of_ok hinstance
  refine ⟨t, k', hinstance, fun R hR args domains hdomains => ⟨?_, fun n hn => ?_⟩, ?_⟩
  · exact hbuilt.unfolds_family (hmade.extends.rules.trans hR) hdomains
  · exact hmade.unfolds hbuilt hR hdomains hn
  · intro k1 v n hsub hplain hcontext hv htypes hn
    obtain ⟨domains, hdomains⟩ := exists_domainsAt_firstArgs htypes
    have hunfolds := hmade.unfolds hbuilt hsub hdomains (by rwa [subst_firstArgs])
    have ht : t.All Plain := by
      rw [hmade.term]
      exact ⟨hstanding.plain, nofun⟩
    have hargs : ∀ a ∈ firstArgs types.length, a.All Plain := by
      intro a ha
      obtain ⟨i, -, rfl⟩ := mem_map.1 ha
      exact nofun
    rw [hmade.contexts, hstanding.context] at hcontext
    obtain ⟨type, htype, bound, hbound⟩ := typeOfApplied_of_unfolds hplain hunfolds ht hargs
    obtain ⟨bound', hbound'⟩ := htype.eventually
    refine ⟨max bound bound', fun limit hlimit => ⟨type, ?_, ?_⟩⟩
    · have happlied := hbound { k1 with limit } rfl ((le_max_left ..).trans hlimit) hcontext
      rw [← hstanding.depth] at happlied
      refine eq_ok (ends_typeOf_applyArgs ?_ happlied)
      exact hv
    · refine eq_ok (ends_reduce_of_run? hcontext ?_)
      exact hbound' limit ((le_max_right ..).trans hlimit)

/-! ### Two arguments, the second one depending on the first -/

private theorem rulesMade_initial : initial.RulesMade :=
  forall_get? (t := initial.rules.rules) (by decide)

/-- The types `p20` and `p21 $0`. -/
def nestedTypes : List Term := [.postulate 20, .app (.postulate 21) (.arg 0)]

/-- A type over two arguments, `p22 x y`. -/
def nestedResult (x y : Term) : Term := (Term.postulate 22).apply [x, y]

private theorem domainsAt_nestedTypes (R : RuleTable) :
    DomainsAt R nestedTypes [.postulate 23, .postulate 24]
      [.postulate 20, .app (.postulate 21) (.postulate 23)] where
  args_length := rfl
  domains_length := rfl
  arg := by
    have hpostulate : ∀ id, ∃ n, Normalizes R (.postulate id) n :=
      fun id => ⟨_, normalizes_postulate .nil⟩
    simp [hpostulate]
  domain i type domain htype hdomain := by
    match i with
    | 0 =>
      cases htype
      cases hdomain
      exact normalizes_postulate .nil
    | 1 =>
      cases htype
      cases hdomain
      exact normalizes_postulate (.cons (normalizes_postulate .nil) .nil)

/-- At `p23` and `p24` the type of functions into `p22 $0 $1` unfolds to `p20`, `p21 p23` and
`p22 p23 p24`, and a declaration of that type applied to both arguments has the type `p22 $0 $1`. -/
theorem unfolds_nestedTypes : ∃ tele k t k',
    Built nestedTypes tele k ∧ tele.instanceOf (nestedResult (.arg 0) (.arg 1)) k = .ok t k' ∧
    Unfolds k'.rules [.postulate 20, .app (.postulate 21) (.postulate 23)]
      [.postulate 23, .postulate 24] tele.family Primitive.type ∧
    Unfolds k'.rules [.postulate 20, .app (.postulate 21) (.postulate 23)]
      [.postulate 23, .postulate 24] t (nestedResult (.postulate 23) (.postulate 24)) ∧
    ∃ k1 type, tele.typeOf (tele.applyArgs (.decl 40)) k1 = .ok (some type) k1 ∧
      tele.reduce type k1 = .ok (nestedResult (.arg 0) (.arg 1)) k1 := by
  have hroot : Built [] _ _ := .root (.refl _) rulesMade_initial rfl
  obtain ⟨tele1, k1, hextend1⟩ := hroot.exists_extend (.postulate 20)
  obtain ⟨tele, k, hextend⟩ := (hroot.extend hextend1).exists_extend (.app (.postulate 21) (.arg 0))
  have hbuilt : Built nestedTypes tele k := (hroot.extend hextend1).extend hextend
  obtain ⟨t, k', hinstance, hunfolds, htyped⟩ :=
    hbuilt.unfolds_instanceOf (nestedResult (.arg 0) (.arg 1))
  obtain ⟨hfamily, hresult⟩ := hunfolds k'.rules (.refl _) _ _ (domainsAt_nestedTypes _)
  have hnormal : ∀ x y, Normalizes k'.rules x x → Normalizes k'.rules y y →
      Normalizes k'.rules (nestedResult x y) (nestedResult x y) :=
    fun x y hx hy => normalizes_postulate (.cons hx (.cons hy .nil))
  have hplain : k'.rules.Over Plain := by
    have hscoped : initial.rules.Over (InScope (fun _ => True) 0) := over_initial fun _ _ => trivial
    have hinitial : Over Plain { initial with contexts := initial.contexts.push .empty }.rules :=
      hscoped.mono fun a ha i hi => by simp [hi, InScope] at ha
    have htype : (app (.postulate 21) (.arg 0)).All Plain := ⟨plain_postulate _, plain_arg _⟩
    have hresult : (nestedResult (.arg 0) (.arg 1)).All Plain :=
      ⟨⟨plain_postulate _, plain_arg _⟩, plain_arg _⟩
    obtain ⟨hR1, -, htele1⟩ :=
      (clears_extend hroot.standing.plain (plain_postulate 20) hinitial).of_ok hextend1
    obtain ⟨hR, -, htele⟩ := (clears_extend htele1 htype hR1).of_ok hextend
    exact ((Footing.keeps_instanceOf plainFooting_reads htele hresult hR).of_ok hinstance).1
  have htypes : ∀ type ∈ nestedTypes, ∃ domain, Normalizes k'.rules type domain := by
    have harg : Normalizes k'.rules ((postulate 21).apply [.arg 0]) _ :=
      normalizes_postulate (.cons (normalizes_arg k'.rules 0) .nil)
    exact forall_mem_cons.2 ⟨⟨_, normalizes_postulate .nil⟩, by simpa using ⟨_, harg⟩⟩
  obtain ⟨bound, hbound⟩ := htyped { k' with types := k'.types.set 40 t } 40
    (nestedResult (.arg 0) (.arg 1)) (.refl _) hplain rfl (by simp [get?_set]) htypes
    (hnormal _ _ (normalizes_arg _ _) (normalizes_arg _ _))
  obtain ⟨type, htype, hreduce⟩ := hbound bound le_rfl
  refine ⟨tele, k, t, k', hbuilt, hinstance, hfamily, ?_, _, type, htype, hreduce⟩
  exact hresult _ (hnormal _ _ (normalizes_postulate .nil) (normalizes_postulate .nil))

/-! ### A type that reduces to a placeholder -/

/-- The kernel in which `d10` is another name of the placeholder `#0`. -/
def leakingKernel : Kernel :=
  { Kernel.initial with
    nextSymbol := 11
    rules := (Kernel.initial.rules.register 10).install 10 (.lambda (.decl 10) 0 (.placeholder 0)) }

private theorem exists_built_leakingKernel :
    ∃ tele k, Built [.decl 10] tele k ∧ leakingKernel.rules.Sub k.rules := by
  have hfree : (initial.rules.register 10).ruleFor? 10 = none := rfl
  have hsub : initial.rules.Sub leakingKernel.rules := fun id r hr =>
    sub_install _ hfree id r (by rwa [ruleFor?_register])
  have hmade : leakingKernel.RulesMade := by
    intro id r hr
    rw [leakingKernel, ruleFor?_install, ruleFor?_register] at hr
    split at hr
    · next hid => exact hid ▸ Nat.lt_succ_self 10
    · exact Nat.lt_succ_of_lt (rulesMade_initial id r hr)
  have hroot : Built [] _ _ := .root hsub hmade rfl
  obtain ⟨tele, k, hextend⟩ := hroot.exists_extend (.decl 10)
  exact ⟨tele, k, hroot.extend hextend, ((ends_extend _ _ _).of_ok hextend).extends.rules⟩

private theorem ends_typeOfApplied_of_leak (hcontext : tele.AssumesNothing k)
    (h : Normalizes k.rules t n) (hn : n.hasPlaceholder) :
    Ends (tele.typeOfApplied t (a :: args)) k (fun _ _ => False) fun _ _ => True := by
  have hclean : Ends (tele.reduceClean t) k (fun _ _ => False) fun _ _ => True := by
    refine (hcontext.ends_reduce t).bind ?_ fun _ _ _ => trivial
    rintro u k' ⟨hu, rfl⟩
    obtain rfl := Normalizes.unique ⟨_, hu⟩ h
    rw [hcontext.ends_eliminate_iff, if_pos hn]
    trivial
  exact hclean.bind (fun _ _ h => h.elim) fun _ _ h => h

/-- If a rule mentions a placeholder, a declaration applied to the arguments of a telescope need not
have a type, though the types of the arguments mention none and have normal forms. -/
theorem exists_typeOf_ne_ok : ∃ types tele k e t k' n v,
    Built types tele k ∧ tele.instanceOf e k = .ok t k' ∧
    (∀ type ∈ types, type.All (Term.InScope (fun _ => True) 0) ∧
      ∃ domain, Normalizes k'.rules type domain) ∧
    e.All (Term.InScope (fun _ => True) 0) ∧ Normalizes k'.rules e n ∧
    ∀ limit type k1, tele.typeOf (tele.applyArgs (.decl v))
      { k' with types := k'.types.set v t, limit } ≠ .ok (some type) k1 := by
  obtain ⟨tele, k, hbuilt, hsub⟩ := exists_built_leakingKernel
  obtain ⟨t, k', hinstance⟩ := hbuilt.exists_instanceOf Primitive.type
  have hmade := (ends_instanceOf _ _ _).of_ok hinstance
  have hstanding := hbuilt.standing
  have hplaceholder : Normalizes k'.rules (.placeholder 0) (.placeholder 0) :=
    normalizes_of_applicable? (a := .placeholder 0) rfl rfl .nil
  have hleaks : Normalizes k'.rules (.decl 10) (.placeholder 0) := by
    have hrule : k'.rules.ruleFor? 10 = some (.lambda (.decl 10) 0 (.placeholder 0)) :=
      hmade.extends.rules _ _ (hsub _ _ rfl)
    change Normalizes k'.rules ((decl 10).apply []) _
    exact normalizes_lambda hrule hplaceholder
  have hnormal : ∀ type ∈ [decl 10], ∃ domain, Normalizes k'.rules type domain := by
    simpa using ⟨_, hleaks⟩
  refine ⟨[.decl 10], tele, k, Primitive.type, t, k', Primitive.type, 40, hbuilt, hinstance, ?_,
    trivial, normalizes_postulate .nil, fun limit type k1 htype => ?_⟩
  · exact fun type htype => ⟨mem_singleton.1 htype ▸ trivial, hnormal type htype⟩
  · obtain ⟨domains, hdomains⟩ := exists_domainsAt_firstArgs hnormal
    have hunfolds : Unfolds k'.rules domains [.arg 0] t Primitive.type :=
      hmade.unfolds hbuilt (.refl _) hdomains (normalizes_postulate .nil)
    cases hunfolds with
    | @step domain codomain _ _ _ _ _ hfunction _ =>
      obtain rfl := (hdomains.domain 0 _ _ rfl rfl).unique hleaks
      have hcontext : k'.contexts[tele.context]? = some .empty := by
        rw [hmade.contexts, hstanding.context]
      have hstops : Ends (tele.typeOfApplied t (firstArgs tele.depth))
          { k' with types := k'.types.set 40 t, limit } (fun _ _ => False) fun _ _ => True := by
        rw [hstanding.depth]
        exact ends_typeOfApplied_of_leak hcontext hfunction rfl
      refine (ends_typeOf_applyArgs ?_ hstops).of_ok htype
      simp [get?_set]

end Telescope
end Elaboration
