import Elaboration.Proofs.Equation.Advance
import Elaboration.Proofs.Obligation.Sound
import Elaboration.Proofs.Telescope.Client
import Elaboration.Proofs.Telescope.Level

/-!
# Sealed kernels

A kernel is sealed if its rules and registered types mention no argument and no placeholder from
outside. Below a sealed telescope terms in scope stay in scope. This lets equations be read in any
instance of the telescope.
-/

namespace Elaboration

open Kernel List Rule Term

variable {α : Type} {d d' : Nat} {k k' k'' : Kernel}

namespace Term

/-- The term mentions arguments below `d` and no placeholder. -/
abbrev Sealed (d : Nat) (t : Term) : Prop := t.All (InScope anySymbol d)

private theorem Sealed.mono {t : Term} (h : t.Sealed d) (hd : d ≤ d') : t.Sealed d' :=
  All.mono h fun _ ha => ha.mono hd fun _ hid => hid

private theorem Sealed.below {t : Term} (h : t.Sealed d) : t.Below d := by
  refine below_iff_all.2 (All.mono h fun a ha => ?_)
  cases a with
  | arg i => exact ha
  | app | placeholder => exact ha.elim
  | _ => trivial

end Term

theorem Rule.StepsOver.closed {known : Nat → Prop} {n : Nat} {steps : List Step}
    (h : StepsOver (InScope known 0) n steps) : StepsClosed n steps := by
  induction steps generalizing n with
  | nil => trivial
  | cons s steps ih =>
    cases s with
    | pull => exact ih h
    | destructure subject head count =>
      have hsubject : subject.Sealed n :=
        (all_captureOr_iff.1 h.1.1).mono fun _ ha => ha.mono le_rfl fun _ _ => trivial
      exact ⟨hsubject.below, ih h.2⟩

/-- Rules in scope of their captures are closed. -/
theorem RuleTable.Over.closed {R : RuleTable} (h : R.Over (InScope anySymbol 0)) : R.Closed :=
  fun id r hr =>
    ⟨(h id r hr).1.closed, Sealed.below (all_captureOr_iff.1 (h id r hr).2)⟩

private theorem Rule.headClosed_lambda {head replacement : Term} {arity : Nat} :
    ∀ s ∈ (lambda head arity replacement).steps, s.HeadClosed := by
  intro s hs
  rw [eq_of_mem_replicate hs]
  trivial

namespace Kernel

/-- Match steps expect heads that mention no argument, and registered types are in scope of nothing.
-/
structure Guarded (k : Kernel) : Prop where
  heads : k.rules.HeadsClosed
  types : ∀ t type, k.typeOfSymbol? t = some type → type.Sealed 0

/-- Rules, the heads that they match on, and registered types mention no argument and no placeholder
from outside. -/
structure Sealed (k : Kernel) : Prop extends Guarded k where
  rules : k.rules.Over (Term.InScope anySymbol 0)

theorem sealed_initial : Kernel.initial.Sealed where
  heads id r h := by
    have hrules : ∀ x ∈ Primitive.rules, ∀ s ∈ x.2.steps, s = .pull := by decide
    intro s hs
    rw [hrules (id, r) (Table.mem_of_get? h) s hs]
    trivial
  types t type h := by
    have htypes : ∀ x ∈ Primitive.types, x.2.Sealed 0 := by
      simp [Primitive.types, Primitive.arrowType, Primitive.arrowOf, Primitive.arrowCodomain,
        Primitive.constantFamily, Primitive.typeFamilyOf, Primitive.arrow, Primitive.constant,
        Primitive.typeFamily, Primitive.type, Primitive.constantCodomain1,
        Primitive.identityCodomain, Term.InScope, anySymbol]
    cases t with
    | postulate id | decl id => exact htypes (id, type) (Table.mem_of_get? h)
    | leaf l =>
      rw [typeOfSymbol?] at h
      split at h <;> cases h
    | _ => cases h
  rules := over_initial fun _ _ => trivial

/-- The kernel stays guarded. -/
abbrev Guards (k k' : Kernel) : Prop := k.Guarded → k'.Guarded

theorem guards_withRule {id : Nat} {r : Rule} (hr : ∀ s ∈ r.steps, s.HeadClosed) :
    k.Guards (k.withRule id r) := by
  refine fun h => ⟨fun id' r' hr' => ?_, h.types⟩
  rw [withRule, RuleTable.ruleFor?_install] at hr'
  split at hr'
  · cases hr'
    exact hr
  · exact h.heads id' r' hr'

theorem lasting_guards : Lasting Guards where
  trans h h' hk := h' (h hk)
  same _ hrules _ htypes hk := ⟨hrules ▸ hk.heads, htypes ▸ hk.types⟩
  register k id hk := ⟨fun id' r hr => hk.heads id' r (by simpa using hr), hk.types⟩
  define k id head arity replacement := guards_withRule headClosed_lambda
  update _ _ hk := ⟨hk.heads, hk.types⟩
  assume _ hk := ⟨hk.heads, hk.types⟩

/-- The kernel has grown and is sealed. -/
structure Leads (k k' : Kernel) : Prop where
  grows : k.Grows k'
  isSealed : k'.Sealed

/-- Nothing happens. -/
theorem Leads.refl (hk : k.Sealed) : k.Leads k := ⟨.refl k, hk⟩

/-- Growth adds up. -/
theorem Leads.trans (h : k.Leads k') (h' : k'.Leads k'') : k.Leads k'' :=
  ⟨h.grows.trans h'.grows, h'.isSealed⟩

end Kernel

/-! ### Actions -/

namespace KernelM

open Kernel (Guards lasting_guards)

/-- The kernel stays sealed, and no obligation is answered. -/
def sealing : Course Stop Kernel where
  Holds := Kernel.Sealed
  Leads k k' := k.Leads k' ∧ Quiet k.journal k'.journal
  Stops _ _ _ := True
  refl hk := ⟨.refl hk, .refl _⟩
  trans h h' := ⟨h.1.trans h'.1, h.2.trans h'.2⟩
  stops _ h := h

variable {x : KernelM α} {Q : α → Kernel → Prop}

private theorem Abides.seals (hx : Abides Guards x)
    (h : k.Sealed → Ends x k (fun a k' => k.Grows k' ∧
      Quiet k.journal k'.journal ∧ k'.rules.Over (InScope anySymbol 0) ∧ Q a k')
      fun _ _ => True) : sealing.Keeps x k Q := by
  intro hk
  refine Ends.of_answer fun a k' hok => ?_
  obtain ⟨hgrows, hquiet, hrules, ha⟩ := (h hk).of_ok hok
  have hsealed : k'.Sealed := ⟨(hx k).of_ok hok hk.toGuarded, hrules⟩
  exact ⟨hsealed, ⟨⟨hgrows, hsealed⟩, hquiet⟩, ha⟩

/-- Noting an event keeps kernels sealed. -/
theorem seals_note {e : Event} (he : e.ofObligation = false) :
    sealing.Keeps (note e) k fun _ _ => True :=
  (abides_note lasting_guards e).seals fun hk =>
    ⟨k.grows_noted e, quiet_cons he _, hk.rules, trivial⟩

theorem seals_setName (t : Term) (name : String) : sealing.Keeps (setName t name) k fun _ _ =>
    True := by
  refine (abides_setName lasting_guards t name).seals fun hk => ends_setName fun _ => ?_
  exact ⟨Expands.grows ⟨le_rfl, .refl _, fun _ h => h⟩ rfl, .refl _, hk.rules, trivial⟩

private theorem seals_freshSymbol : sealing.Keeps freshSymbol k fun _ _ => True :=
  (abides_freshSymbol lasting_guards).seals fun hk =>
    ⟨Expands.grows ⟨Nat.le_succ _, .refl _, fun _ h => h⟩ rfl, .refl _, hk.rules, trivial⟩

private theorem seals_register (id : Nat) : sealing.Keeps (register (.decl id)) k fun _ _ =>
    True := by
  refine (abides_register lasting_guards _).seals fun hk => ⟨?_, .refl _, ?_, trivial⟩
  · exact Expands.grows ⟨le_rfl, fun id r hr => by simpa using hr,
      fun id hid => RuleTable.mem_registered_register.2 (.inr hid)⟩ rfl
  · exact fun id r hr => hk.rules id r (by simpa using hr)

private theorem seals_addLambda (head : Term) {arity : Nat} {replacement : Term}
    (h : replacement.Sealed arity) :
    sealing.Keeps (addRule (.lambda head arity replacement)) k fun _ _ => True := by
  refine (abides_define lasting_guards _ _ _).seals fun hk => ?_
  refine (ends_addRule _ k).answer ?_
  rintro _ k' ⟨id, _, _, hfree, rfl⟩
  have hextends := extends_withRule hfree (r := .lambda head arity replacement)
  exact ⟨hextends.grows rfl, hextends.quiet,
    hk.rules.install (over_lambda.2 (all_captureOr_iff.2 h)), trivial⟩

theorem seals_setType (t : Term) {type : Term} (h : type.Sealed 0) :
    sealing.Keeps (setType t type) k fun _ _ => True := by
  intro hk
  unfold setType
  split
  · next id hid =>
    have hgrows : k.Grows { k with types := k.types.set id type } :=
      Expands.grows ⟨le_rfl, .refl _, fun _ h => h⟩ rfl
    -- only the type of the symbol was changed
    have hget : ∀ id' v, (k.types.set id type).get? id' = some v → v.Sealed 0 ∨
        k.types.get? id' = some v := by
      intro id' v h'
      rw [Table.get?_set] at h'
      split at h'
      · cases h'
        exact .inl h
      · exact .inr h'
    have hsealed : { k with types := k.types.set id type }.Sealed := by
      refine ⟨⟨hk.heads, fun u v hv => ?_⟩, hk.rules⟩
      cases u with
      | postulate id' => exact (hget id' v hv).elim (fun h => h) (hk.types (.postulate id') v)
      | decl id' => exact (hget id' v hv).elim (fun h => h) (hk.types (.decl id') v)
      | leaf l => exact hk.types (.leaf l) v hv
      | _ => cases hv
    exact ⟨hsealed, ⟨⟨hgrows, hsealed⟩, .refl _⟩, trivial⟩
  · trivial

end KernelM

/-! ### Telescopes -/

namespace Telescope

open KernelM
open Kernel (Guards lasting_guards)

/-- The telescope is valid, and the types that it binds are in scope. -/
structure Sealed (k : Kernel) (tele : Telescope) : Prop where
  valid : tele.Valid anySymbol k
  types : ∀ type ∈ tele.boundTypes, type.Sealed tele.depth
  family : tele.family.Sealed 0

variable {tele : Telescope} {t u type : Term}

/-- Telescopes stay sealed. -/
theorem Sealed.later (h : tele.Sealed k) (hk : k.Leads k') : tele.Sealed k' :=
  ⟨h.valid.grows hk.grows hk.isSealed.rules, h.types, h.family⟩

private theorem Sealed.typeOfArg? (h : tele.Sealed k) {i : Nat}
    (hi : tele.typeOfArg? i = some type) :
    type.Sealed tele.depth :=
  h.types type (mem_reverse.1 (mem_of_getElem? hi))

theorem seals_root (hk : k.Sealed) : Ends root k (fun tele k' => k.Leads k' ∧
    Quiet k.journal k'.journal ∧ tele.depth = 0 ∧ tele.assumptions = [] ∧ tele.Sealed k')
    fun _ _ => True := by
  rw [ends_root]
  exact ⟨⟨k.grows_push .empty, ⟨hk.heads, hk.types⟩, hk.rules⟩, .refl _, rfl, rfl,
    valid_root fun _ _ => trivial, forall_mem_nil _, trivial⟩

private theorem seals_extend (h : tele.Sealed k) (htype : type.Sealed tele.depth) :
    sealing.Keeps (tele.extend type) k fun tele' k' => tele'.Sealed k' := by
  refine (tele.abides_extend lasting_guards type).seals fun hk => ?_
  refine (tele.ends_extend type k).answer (fun tele' k' hbound => ?_)
  obtain ⟨hrules, hvalid⟩ := h.valid.bound hk.rules htype hbound (fun _ _ => trivial)
    fun _ _ _ => trivial
  refine ⟨hbound.extends.grows hbound.contexts, hbound.extends.quiet, hrules, ?_⟩
  have htele := hbound.telescope
  subst htele
  refine ⟨hvalid, forall_mem_cons.2 ⟨?_, fun u hu => ?_⟩, h.valid.pi, trivial⟩
  · exact htype.mono (Nat.le_succ _)
  · exact (h.types u hu).mono (Nat.le_succ _)

private theorem seals_assume (h : tele.Sealed k) (ht : t.Sealed tele.depth)
    (hu : u.Sealed tele.depth) :
    sealing.Keeps (tele.assume t u) k fun tele' k' => tele'.Sealed k' := by
  refine (tele.abides_assume lasting_guards t u).seals fun hk => ?_
  refine (tele.ends_assume t u k).answer (fun tele' k' hassumed => ?_)
  have hvalid := h.valid.assumed hk.rules ht hu hassumed
  refine ⟨hassumed.grows, hassumed.quiet, hassumed.rules ▸ hk.rules, ?_⟩
  have htele := hassumed.telescope
  subst htele
  exact ⟨hvalid, h.types, h.family⟩

private theorem seals_reduceClean (h : tele.Sealed k) (ht : t.Sealed tele.depth) :
    sealing.Keeps (tele.reduceClean t) k fun u _ => u.Sealed tele.depth := by
  have habides : Abides Guards (tele.reduceClean t) :=
    (tele.abides_reduce lasting_guards t).bind lasting_guards fun _ =>
      tele.abides_eliminate lasting_guards _
  refine habides.seals fun hk => (tele.ends_reduceClean t k).answer ?_
  rintro u k' ⟨hcalm, hgrows, hscope⟩
  exact ⟨hgrows, hcalm.quiet, hcalm.rules ▸ hk.rules, hscope _ h.valid hk.rules ht⟩

/-- Terms below a sealed telescope are in scope of its depth. -/
def sealFooting : Footing sealing where
  Tele tele k := tele.Sealed k
  value := Term.InScope anySymbol
  side := Term.InScope anySymbol
  tele_later hk h := h.later hk.1
  value_mono hd h := h.mono hd fun _ hid => hid
  side_mono hd h := h.mono hd fun _ hid => hid
  side_value h := h
  value_arg hi := hi
  value_postulate := trivial
  value_decl := trivial
  value_leaf := trivial
  note he := seals_note he
  freshSymbol := seals_freshSymbol
  register := seals_register
  addLambda head h := seals_addLambda head h
  extend h ht := seals_extend h ht

theorem sealFooting_reads : sealFooting.Reads where
  family h := h.family
  pi h := h.valid.pi
  typeOfArg h hi := h.typeOfArg? hi
  typeOfSymbol hk h := hk.types _ _ h
  setName := seals_setName
  setType t h := seals_setType t h
  reduceClean h ht := seals_reduceClean h ht
  assume h ht hu := seals_assume h ht hu

end Telescope
end Elaboration
