import Elaboration.Proofs.Telescope.Actions

/-!
# Telescopes without assumptions

The members of a context are normalised again before a term is reduced if rules were installed since
they last were. Where nothing is assumed, terms are reduced by the rules alone and no placeholder
stands for anything.
-/

namespace Elaboration

open Array Ends Equalities Kernel KernelM Reduction

namespace Equalities

variable {env : Setting} {s s' : State}

/-- Equalities that are up to date stay so. -/
def dating (env : Setting) : Discipline env where
  Holds s := s.equalities.generation = env.rules.generation
  Leads _ _ := True
  Stops _ _ _ := True
  refl _ := trivial
  trans _ _ := trivial
  stops _ _ := trivial
  Equates _ _ _ := True
  symm _ := trivial
  chain _ _ := trivial
  later _ _ _ _ := trivial
  reduces _ _ _ := trivial
  reducesAll _ _ _ _ _ := trivial
  args _ _ _ _ _ _ _ := trivial
  member _ _ := trivial
  root _ _ := trivial
  canonical _ _ _ := trivial
  eliminate _ _ := trivial
  update hs _ hdate := ⟨hdate.elim (·.trans hs) id, trivial⟩
  noted hs _ := ⟨hs, trivial⟩
  exhausted _ := trivial
  outOfRange _ _ _ := trivial

private theorem generation_of_canonicalize (h : canonicalize env s = .ok () s') :
    s'.equalities.generation = env.rules.generation := by
  change (if s.equalities.hasClasses then rounds env maxRounds else pure ()) _ = _ at h
  split at h
  · refine (Ends.of_ok (Discipline.keeps_rounds (D := dating env) maxRounds ?_) h).1
    rfl
  · cases h
    rfl

end Equalities

namespace Kernel

@[simp] private theorem withContext_equalities (k : Kernel) (c : Nat) :
    k.withContext c ⟨k.equalities c, k.journal⟩ = k := by
  have hcontexts : k.contexts.setIfInBounds c (k.equalities c) = k.contexts := by
    apply ext_getElem?
    intro d
    rw [getElem?_setIfInBounds]
    split
    · next hcd =>
      subst hcd
      split
      · next hlt => rw [equalities, getElem?_eq_getElem hlt, Option.getD_some]
      · next hlt => rw [getElem?_eq_none (not_lt.1 hlt)]
    · rfl
  rw [withContext, hcontexts]

end Kernel

namespace Telescope

variable {tele : Telescope} {k k1 : Kernel} {t : Term} {X : Stop → Kernel → Prop}

/-- Whether rules were installed since the members of the context were last normalised. -/
def isStale (tele : Telescope) (k : Kernel) : Bool :=
  (k.equalities tele.context).hasClasses &&
    (k.equalities tele.context).generation != k.rules.generation

/-- Brings the context up to date with the rules. -/
def refresh (tele : Telescope) : KernelM Unit := do
  if tele.isStale (← get) then KernelM.changeContext tele.context Equalities.canonicalize

/-- How bringing a context up to date ends. -/
theorem ends_refresh_iff {Q : Unit → Kernel → Prop} : Ends tele.refresh k Q X ↔
      if tele.isStale k then Ends (changeContext tele.context canonicalize) k Q X
      else Q () k := by
  unfold refresh
  rw [bind_iff, get_iff]
  split <;> rfl

/-- Terms are normalised in the context once it is up to date, which changes nothing any more. -/
theorem ends_reduce_iff {Q : Term → Kernel → Prop} : Ends (tele.reduce t) k Q X ↔
      Ends tele.refresh k (fun _ k1 =>
        match run? k1.rules (k1.equalities tele.context).replacer k1.limit .full t with
        | some u => Q u k1
        | none => X .exhausted k1) X := by
  have hnormalize : ∀ k1, Ends (changeContext tele.context fun env => normalize env t) k1 Q X ↔
        match run? k1.rules (k1.equalities tele.context).replacer k1.limit .full t with
        | some u => Q u k1
        | none => X .exhausted k1 := by
    intro k1
    rw [ends_changeContext]
    unfold Ends Equalities.normalize reduceIn
    dsimp only [setting]
    cases run? k1.rules (k1.equalities tele.context).replacer k1.limit .full t with
    | some u => simp
    | none => simp
  rw [ends_refresh_iff]
  unfold reduce
  rw [bind_iff, ends_context, bind_iff, get_iff]
  unfold isStale
  split
  · rw [bind_iff]
    simp only [hnormalize]
  · exact hnormalize k

/-- A context that is up to date is left alone. -/
theorem refresh_of_not_isStale (h : tele.isStale k = false) : tele.refresh k = .ok () k := by
  refine eq_ok (ends_refresh_iff.2 ?_)
  rw [if_neg (by simp [h])]
  exact ⟨rfl, rfl⟩

/-- After it was brought up to date, a context is. -/
theorem not_isStale_of_refresh (h : tele.refresh k = .ok () k1) : tele.isStale k1 = false := by
  have hends : Ends tele.refresh k (fun _ k1 => tele.isStale k1 = false) fun _ _ => True := by
    rw [ends_refresh_iff]
    split
    · next hstale =>
      rw [ends_changeContext]
      refine of_answer fun _ s hs => ?_
      have hgeneration := generation_of_canonicalize hs
      have hlt : tele.context < k.contexts.size := by
        by_contra hlt
        simp [isStale, equalities, getElem?_eq_none (not_lt.1 hlt),
          hasClasses, Equalities.empty] at hstale
      rw [isStale, equalities_withContext hlt, hgeneration]
      exact Bool.and_eq_false_iff.2 (.inr (by simp [setting, withContext]))
    · next hstale => exact Bool.eq_false_iff.2 hstale
  exact hends.of_ok h

end Telescope

namespace Equalities

theorem replacer_empty : empty.replacer = Replacer.none := by
  funext t
  cases t <;> rfl

@[simp] theorem eliminate_empty (t : Term) : empty.eliminate t = t := by
  induction t with
  | app f x ihf ihx => rw [eliminate_app, ihf, ihx]
  | _ => rfl

end Equalities

namespace Telescope

/-- Nothing is assumed in the telescope's context. -/
def AssumesNothing (tele : Telescope) (k : Kernel) : Prop :=
  k.contexts[tele.context]? = some .empty

variable {tele tele' : Telescope} {k k' : Kernel}

/-- The empty telescope assumes nothing. -/
theorem assumesNothing_root (h : root k = .ok tele k') : tele.AssumesNothing k' := by
  cases h
  simp [AssumesNothing]

namespace AssumesNothing

variable {X : Stop → Kernel → Prop} {Q : Term → Kernel → Prop}

variable (h : tele.AssumesNothing k)
include h

/-- Binding an argument assumes nothing. -/
theorem bound {type : Term} (hbound : Bound tele type k tele' k') : tele'.AssumesNothing k' := by
  unfold AssumesNothing
  rw [hbound.telescope, hbound.contexts]
  exact h

/-- The context is empty. -/
theorem equalities : k.equalities tele.context = .empty := by
  rw [Kernel.equalities, h, Option.getD_some]

/-- Reduction is by the rules alone. -/
theorem ends_reduce_iff {t : Term} : Ends (tele.reduce t) k Q X ↔
      match run? k.rules .none k.limit .full t with
      | some u => Q u k
      | none => X .exhausted k := by
  have hstale : tele.isStale k = false := by
    rw [isStale, h.equalities]
    rfl
  have hnone : (k.equalities tele.context).replacer = .none :=
    (congrArg replacer h.equalities).trans replacer_empty
  rw [Telescope.ends_reduce_iff, iff_of_ok (refresh_of_not_isStale hstale)]
  cases hrun : run? k.rules .none k.limit .full t <;> simp only [hnone, hrun]

theorem ends_isInconsistent_iff {Q : Bool → Kernel → Prop} :
    Ends tele.isInconsistent k Q X ↔ Q false k := by
  unfold isInconsistent
  rw [bind_iff, KernelM.ends_context, h.equalities, pure_iff]
  rfl

/-- How reduction ends without assumptions. -/
theorem ends_reduce (t : Term) : Ends (tele.reduce t) k
      (fun u k' => run? k.rules .none k.limit .full t = some u ∧ k' = k)
      fun _ _ => run? k.rules .none k.limit .full t = none := by
  rw [h.ends_reduce_iff]
  cases hrun : run? k.rules .none k.limit .full t with
  | none => rfl
  | some u => exact ⟨rfl, rfl⟩

/-- Elimination stops at placeholders and otherwise answers the term itself. -/
theorem ends_eliminate_iff {t : Term} : Ends (tele.eliminate t) k Q X ↔
      if t.hasPlaceholder then X (.violation (.placeholderLeaked t)) k else Q t k := by
  unfold eliminate
  rw [bind_iff, KernelM.ends_context, h.equalities, eliminate_empty]
  dsimp only
  split <;> rfl

end AssumesNothing
end Telescope
end Elaboration
