import Elaboration.Proofs.Reduction.Stability
import Elaboration.Proofs.Rule.Reachability
import Elaboration.Proofs.Telescope.Actions

/-!
# Rules that do not matter

Two tables that give the same rules to the declarations in a set, which is closed under what these
rules mention, reduce every term over the set alike, to the step. So a term is left alone by the
definition of an indeterminate on which it does not depend.
-/

namespace Elaboration

open List Term

namespace RuleTable

/-- The tables agree on the declarations that depend on no declaration to which they give different
rules. -/
theorem agreeOn_of_dependsOn (R S : RuleTable) :
    AgreeOn (fun id => ∀ j, S.ruleFor? j ≠ R.ruleFor? j → R.dependsOn (.decl id) j = false)
      R S where
  same id hid := by
    by_contra hne
    exact Bool.eq_false_iff.1 (hid id hne) (dependsOn_decl_iff.2 .refl)
  closed id r hid hr t ht := by
    refine all_declIn.2 fun id' hid' j hj => Bool.eq_false_iff.2 fun hdep => ?_
    refine Bool.eq_false_iff.1 (hid j hj) (dependsOn_decl_iff.2 ?_)
    exact (dependsOn_decl_iff.1 hdep).head ⟨r, hr, Rule.mem_decls.2 ⟨t, ht, hid'⟩⟩

end RuleTable

namespace Reduction

variable {p : Nat → Prop} {R S : RuleTable} {h : Replacer}

section Runs

variable (hRS : R.AgreeOn p S) (hh : ∀ t u, h t = some u → u.All (DeclIn p)) (depth : Nat)
  (mode : Mode)

include hRS hh

private theorem alike_of_agreeOn {t : Term} (ht : t.All (DeclIn p)) :
    (alike fun _ _ n => n.All (DeclIn p)).Rel (reduceMemo R h depth mode t)
      (reduceMemo S h depth mode t) fun n => n.All (DeclIn p) :=
  alike_reduceMemo (P := fun _ _ n => n.All (DeclIn p)) (fun _ _ _ _ hself hagain mode _ ht =>
    (alike _).mono ((alike _).pass_within hRS hh (fun _ _ _ hn => hn) hself hagain mode ht)
      fun _ hn => hn.2) depth mode t ht

/-- Tables that agree on what matters run alike. -/
theorem run?_of_agreeOn {t : Term} (ht : t.All (DeclIn p)) :
    run? S h depth mode t = run? R h depth mode t := by
  unfold run?
  rw [(alike_of_agreeOn hRS hh depth mode ht .empty valid_empty).1]

/-- What is reached mentions nothing else. -/
theorem all_declIn_of_run? {t u : Term} (ht : t.All (DeclIn p))
    (hu : run? R h depth mode t = some u) : u.All (DeclIn p) := by
  have halike := alike_of_agreeOn hRS hh depth mode ht .empty valid_empty
  unfold run? at hu
  obtain ⟨⟨v, memo⟩, hv, rfl⟩ := Option.map_eq_some_iff.1 hu
  exact (halike.2 v memo hv).1

/-- What a list of terms reaches mentions nothing else. -/
theorem all_declIn_of_runAll? {ts us : List Term} (hts : ∀ t ∈ ts, t.All (DeclIn p))
    (hus : runAll? R h depth mode ts = some us) : ∀ u ∈ us, u.All (DeclIn p) := by
  have hmapM := (alike _).mapM fun t ht => alike_of_agreeOn hRS hh depth mode (hts t ht)
  unfold runAll? at hus
  obtain ⟨⟨vs, memo⟩, hvs, rfl⟩ := Option.map_eq_some_iff.1 hus
  refine all_of_forall₂ (Forall₂.imp ?_ ((hmapM .empty valid_empty).2 vs memo hvs).1) hts
  exact fun _ _ hn _ => hn

/-- Lists of terms are reduced alike. -/
theorem runAll?_of_agreeOn {ts : List Term} (hts : ∀ t ∈ ts, t.All (DeclIn p)) :
    runAll? S h depth mode ts = runAll? R h depth mode ts := by
  have hmapM := (alike _).mapM fun t ht => alike_of_agreeOn hRS hh depth mode (hts t ht)
  unfold runAll?
  rw [(hmapM .empty valid_empty).1]

end Runs

end Reduction

open Reduction RuleTable
namespace KernelM

open Reduction (Normalizes)

variable {r : Rule} {k : Kernel} {v : Nat} {t : Term}

/-- A rule for a declaration on which the term does not depend is accepted and leaves the normal
form as it was, also whether there is one. The normal form does not mention the declaration. -/
theorem normalizes_after_addRule (hhead : r.head = .decl v) (hv : v ∈ k.rules.registered)
    (hfree : k.rules.ruleFor? v = none) (ht : k.rules.dependsOn t v = false) :
    ∃ k', addRule r k = .ok () k' ∧
      (∀ n, Normalizes k'.rules t n ↔ Normalizes k.rules t n) ∧
      ∀ n, Normalizes k.rules t n → v ∉ n.decls := by
  -- the tables before and after differ in the rule of `v` alone
  have hdiffers : ∀ j, (k.withRule v r).rules.ruleFor? j ≠ k.rules.ruleFor? j ↔ j = v := by
    intro j
    rw [Kernel.withRule, ruleFor?_install]
    split
    · next hj => simp [← hj, hfree]
    · next hj => simp [Ne.symm hj]
  have hagree := agreeOn_of_dependsOn k.rules (k.withRule v r).rules
  simp only [hdiffers, forall_eq] at hagree
  have hall : t.All (DeclIn fun id => k.rules.dependsOn (.decl id) v = false) :=
    all_declIn.2 fun _ => dependsOn_decl_of_mem ht
  have hreplacer : ∀ a b, Replacer.none a = some b →
      b.All (DeclIn fun id => k.rules.dependsOn (.decl id) v = false) :=
    fun _ _ h => by cases h
  refine ⟨k.withRule v r, ?_, fun n => ?_, fun n hn hmem => ?_⟩
  · refine Ends.eq_ok ((ends_addRule_registered hhead hv).mono ?_ ?_)
    · rintro _ _ ⟨_, rfl⟩
      exact ⟨rfl, rfl⟩
    · rintro _ _ ⟨_, hrule, _⟩
      rw [hasRule, hfree] at hrule
      cases hrule
  · refine exists_congr fun depth => ?_
    rw [run?_of_agreeOn hagree hreplacer depth .full hall]
  · obtain ⟨depth, hn⟩ := hn
    have hn := all_declIn_of_run? hagree hreplacer depth .full hall hn
    exact Bool.eq_false_iff.1 (all_declIn.1 hn v hmem) (dependsOn_decl_iff.2 .refl)

/-- Predecessors are computed as before when `d5` is defined by a term that mentions `d5` and them.
-/
theorem normalizes_after_addRule_predecessors :
    ∃ k', addRule (.lambda (.decl 5) 0 (.app (.decl 3) (.decl 5)))
        { Kernel.initial with rules := { Reduction.predecessors with registered := [5] } } =
          .ok () k' ∧
      Normalizes k'.rules (.app (.decl 3) (.decl 4)) (.app (.postulate 0) (.postulate 1)) := by
  obtain ⟨k', hk', hsame, -⟩ := normalizes_after_addRule
    (r := .lambda (.decl 5) 0 (.app (.decl 3) (.decl 5)))
    (k := { Kernel.initial with rules := { predecessors with registered := [5] } })
    (t := .app (.decl 3) (.decl 4)) rfl (by decide) (by decide) (by decide +kernel)
  exact ⟨k', hk', (hsame _).2 ⟨8, by decide +kernel⟩⟩

end KernelM
end Elaboration
