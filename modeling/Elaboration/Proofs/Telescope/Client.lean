import Elaboration.Proofs.Equation.Step

/-!
# Clients of the kernel

Between requests to the store, clients make symbols, telescopes and closed rules, and reduce terms.
All of it makes the kernel grow and keeps the rules closed and the telescopes valid.
-/

namespace Elaboration

open Kernel List Primitive RuleTable Telescope Term
namespace Kernel

/-- One thing that a client does with the kernel, `teles` being the telescopes that it made. -/
inductive Prepares (known : Nat → Prop) (teles : List Telescope) (k : Kernel) :
    List Telescope → Kernel → Prop where
  | postulate {t : Term} {k' : Kernel} : KernelM.freshPostulate k = .ok t k' →
    Prepares known teles k teles k'
  | declare {t : Term} {k' : Kernel} :
      KernelM.declare k = .ok t k' → Prepares known teles k teles k'
  | typed {t type : Term} {k' : Kernel} : KernelM.setType t type k = .ok () k' →
    Prepares known teles k teles k'
  | rule {r : Rule} {k' : Kernel} :
      r.Over (Term.InScope known 0) → KernelM.addRule r k = .ok () k' →
    Prepares known teles k teles k'
  | root {tele : Telescope} {k' : Kernel} : Telescope.root k = .ok tele k' →
    Prepares known teles k (tele :: teles) k'
  | extend {tele tele' : Telescope} {type : Term} {k' : Kernel} : tele ∈ teles →
    type.All (Term.InScope known tele.depth) → tele.extend type k = .ok tele' k' →
    Prepares known teles k (tele' :: teles) k'
  | assume {tele tele' : Telescope} {lhs rhs : Term} {k' : Kernel} : tele ∈ teles →
    lhs.All (Term.InScope known tele.depth) → rhs.All (Term.InScope known tele.depth) →
    tele.assume lhs rhs k = .ok tele' k' → Prepares known teles k (tele' :: teles) k'
  | instanceOf {tele : Telescope} {e t : Term} {k' : Kernel} : tele ∈ teles →
    e.All (Term.InScope known tele.depth) → tele.instanceOf e k = .ok t k' →
    Prepares known teles k teles k'
  | reduce {tele : Telescope} {t u : Term} {k' : Kernel} : tele ∈ teles →
    tele.reduce t k = .ok u k' → Prepares known teles k teles k'

variable {known : Nat → Prop}

/-- The built-in rules are closed. -/
theorem over_initial (hprimitive : ∀ id < Primitive.count, known id) :
    Kernel.initial.rules.Over (InScope known 0) := by
  have hrules : ∀ x ∈ Primitive.rules, x.2.Over (InScope known 0) := by
    have hknown : ∀ id, id < 10 → known id := hprimitive
    simp only [Primitive.rules, forall_mem_cons, Rule.over_lambda, all_captureOr_iff]
    simp [arrowOf, constantFamily, typeFamilyOf, arrow,
      constant, typeFamily, Primitive.type, constantCodomain2,
      constantCodomain3, InScope, hknown]
  exact fun id r h => hrules (id, r) (Table.mem_of_get? h)

/-- A new context leaves the others as they were. -/
theorem grows_push (k : Kernel) (q : Equalities) :
    k.Grows { k with contexts := k.contexts.push q } where
  toExpands := ⟨le_rfl, .refl _, fun _ h => h⟩
  contexts := by simp
  evolves c hc p E _ _ hE hs := by
    have hsame : equalities { k with contexts := k.contexts.push q } c = k.equalities c := by
      simp [equalities, Array.getElem?_push, hc.ne]
    rw [hsame]
    exact ⟨hs, .refl hE.toCongruence _⟩

end Kernel

namespace Telescope

variable {known : Nat → Prop} {k k' : Kernel} {tele : Telescope} {e t : Term}

/-- How making the empty telescope ends. -/
theorem ends_root {k : Kernel} {Q : Telescope → Kernel → Prop} {X : Stop → Kernel → Prop} :
    Ends root k Q X ↔
      Q ⟨[], Primitive.type, .app Primitive.identity Primitive.type, k.contexts.size⟩
      { k with contexts := k.contexts.push .empty } := .rfl

/-- The empty telescope is valid. -/
theorem valid_root (hprimitive : ∀ id < Primitive.count, known id) :
    Valid known { k with contexts := k.contexts.push .empty }
      ⟨[], Primitive.type, .app Primitive.identity Primitive.type, k.contexts.size⟩ where
  context := by simp
  assumptions a ha := nomatch ha
  pi := ⟨hprimitive _ (by decide), hprimitive _ (by decide)⟩
  sound E _ _ := by
    have hempty : equalities { k with contexts := k.contexts.push .empty }
        k.contexts.size = .empty := by simp [equalities]
    rw [hempty]
    exact Equalities.sound_empty

/-- A normal form is in scope if the term is. -/
theorem ends_reduceClean (tele : Telescope) (t : Term) (k : Kernel) : Ends (tele.reduceClean t) k
      (fun u k' => k.Calm k' ∧ k.Grows k' ∧ ∀ known, tele.Valid known k →
        k.rules.Over (InScope known 0) → t.All (InScope known tele.depth) →
        u.All (InScope known tele.depth))
      fun e k' => e.ofTable = false ∧ k.Extends k' := by
  unfold reduceClean
  refine Ends.bind (tele.ends_reduce t k) (fun u k1 hreduced => ?_) ?_
  · refine (tele.ends_eliminate u k1).mono ?_ ?_
    · rintro v k' ⟨rfl, rfl, _⟩
      refine ⟨hreduced.toCalm, hreduced.grows, fun known hvalid hR ht => ?_⟩
      obtain ⟨hvalid', hcovers, _⟩ := hvalid.reduced hR (covers_of_all ht) hreduced
      exact hvalid'.eliminated hcovers
    · rintro e k' ⟨rfl, rfl, _⟩
      exact ⟨rfl, hreduced.toCalm.extends⟩
  · rintro e k' ⟨he, hcalm⟩
    exact ⟨Bool.eq_false_iff.2 (Stop.not_ofTable he), hcalm.extends⟩

section

variable (h : Instantiated tele e k t k')
include h

/-- Closing a type extends the kernel. -/
theorem Instantiated.extends : k.Extends k' := by
  obtain ⟨types, rfl⟩ := h.kernel
  have hdeclared : k.Extends { k with
      nextSymbol := k.nextSymbol + 1
      rules := k.rules.register k.nextSymbol } :=
    ⟨Nat.le_succ _, fun id r hr => by simpa using hr,
      fun id hid => mem_registered_register.2 (.inr hid), .refl _⟩
  have hruled := hdeclared.trans (extends_withRule
    (r := .lambda (.decl k.nextSymbol) tele.depth e) (by simpa using h.free))
  exact { hruled with }

/-- Closing a type leaves the contexts. -/
theorem Instantiated.contexts : k'.contexts = k.contexts := by
  obtain ⟨types, rfl⟩ := h.kernel
  rfl

/-- Only the new declaration gets a rule. -/
theorem Instantiated.adds {old : Nat → Prop} : k.Adds old k' := by
  obtain ⟨types, rfl⟩ := h.kernel
  refine ⟨fun id hid => ?_, fun id r hr => ?_⟩
  · obtain rfl | hid := mem_registered_register.1 hid
    · exact .inr ⟨le_rfl, Nat.lt_succ_self _⟩
    · exact .inl hid
  · rw [withRule, ruleFor?_install] at hr
    split at hr
    · next heq => exact .inr (.inr ⟨heq.le, heq ▸ Nat.lt_succ_self _⟩)
    · exact .inl (by simpa using hr)

theorem Instantiated.over
    (hR : k.rules.Over (InScope known 0)) (he : e.All (InScope known tele.depth)) :
    k'.rules.Over (InScope known 0) := by
  obtain ⟨types, rfl⟩ := h.kernel
  refine Over.install (fun id r hr => hR id r (by simpa using hr)) ?_
  exact Rule.over_lambda.2 (all_captureOr_iff.2 he)

end

end Telescope

namespace Kernel

variable {known : Nat → Prop} {teles teles' : List Telescope} {k k' : Kernel}

/-- What a client does makes the kernel grow, answers nothing, and keeps rules closed and telescopes
valid. -/
theorem Prepares.sound (h : Prepares known teles k teles' k')
    (hR : k.rules.Over (InScope known 0)) (hteles : ∀ tele ∈ teles, tele.Valid known k)
    (hprimitive : ∀ id < Primitive.count, known id) (hmade : ∀ id < k'.nextSymbol, known id) :
    k.Grows k' ∧ Quiet k.journal k'.journal ∧ k'.rules.Over (InScope known 0) ∧
      ∀ tele ∈ teles', tele.Valid known k' := by
  have hsame : k.Extends k' → k'.contexts = k.contexts → k'.rules.Over (InScope known 0) →
      k.Grows k' ∧ Quiet k.journal k'.journal ∧ k'.rules.Over (InScope known 0) ∧
        ∀ tele ∈ teles, tele.Valid known k' := fun he hc hR' =>
    ⟨he.grows hc, he.quiet, hR', fun tele ht => (hteles tele ht).grows (he.grows hc) hR'⟩
  cases h with
  | postulate h =>
    cases h
    exact hsame ⟨Nat.le_succ _, .refl _, fun _ h => h, .refl _⟩ rfl hR
  | declare h =>
    cases h
    refine hsame ⟨Nat.le_succ _, fun id r hr => by simpa using hr,
      fun id hid => mem_registered_register.2 (.inr hid), .refl _⟩ rfl ?_
    exact fun id r hr => hR id r (by simpa using hr)
  | typed h =>
    obtain ⟨types, rfl⟩ := (KernelM.ends_setType (Q := fun _ k' => ∃ types, k' = { k with types })
      (X := fun _ _ => True) (fun _ => ⟨_, rfl⟩) trivial).of_ok h
    exact hsame ⟨le_rfl, .refl _, fun _ h => h, .refl _⟩ rfl hR
  | rule hr h =>
    obtain ⟨id, _, _, hfree, rfl⟩ := (KernelM.ends_addRule _ k).of_ok h
    exact hsame (extends_withRule hfree) rfl (hR.install hr)
  | root h =>
    cases h
    have hgrows := k.grows_push .empty
    refine ⟨hgrows, .refl _, hR, forall_mem_cons.2 ⟨valid_root hprimitive, ?_⟩⟩
    exact fun tele ht => (hteles tele ht).grows hgrows hR
  | extend htele htype h =>
    have hbound := (ends_extend _ _ k).of_ok h
    obtain ⟨hR', hvalid⟩ := (hteles _ htele).bound hR htype hbound hprimitive fun id _ => hmade id
    obtain ⟨hgrows, hquiet, _, hkept⟩ := hsame hbound.extends hbound.contexts hR'
    exact ⟨hgrows, hquiet, hR', forall_mem_cons.2 ⟨hvalid, hkept⟩⟩
  | assume htele hl hr h =>
    have hassumed := (ends_assume _ _ _ k).of_ok h
    have hR' : k'.rules.Over (InScope known 0) := hassumed.rules ▸ hR
    refine ⟨hassumed.grows, hassumed.quiet, hR', forall_mem_cons.2 ⟨?_, fun tele ht => ?_⟩⟩
    · exact (hteles _ htele).assumed hR hl hr hassumed
    · exact (hteles tele ht).grows hassumed.grows hR'
  | instanceOf htele he h =>
    have hmade := (ends_instanceOf _ _ k).of_ok h
    exact hsame hmade.extends hmade.contexts (hmade.over hR he)
  | reduce htele h =>
    have hreduced := (ends_reduce _ _ k).of_ok h
    have hR' : k'.rules.Over (InScope known 0) := hreduced.rules ▸ hR
    refine ⟨hreduced.grows, hreduced.quiet, hR', fun tele ht => ?_⟩
    exact (hteles tele ht).grows hreduced.grows hR'

end Kernel
end Elaboration
