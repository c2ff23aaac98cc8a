import Elaboration.Proofs.Telescope.Actions

/-!
# Valid telescopes

A telescope is valid if what it carries is in scope and its equality context is sound for every
relation that has its assumptions. It stays valid when the kernel grows, and binding and assuming
lead to valid telescopes. Symbols may be restricted to a set `known`.
-/

namespace Elaboration

open Equalities List Term

namespace Term

/-- An atom in the scope of `depth` bound arguments, its symbol in `known`. -/
def InScope (known : Nat → Prop) (depth : Nat) : Term → Prop
  | arg i => i < depth
  | postulate id => known id
  | decl id => known id
  | leaf _ => True
  | placeholder _ => False
  | app _ _ => False

variable {known known' : Nat → Prop} {d d' : Nat}

/-- Placeholders are out of scope. -/
theorem not_inScope_placeholder (i : Nat) : ¬ InScope known d (.placeholder i) := id

/-- Scopes may widen. -/
theorem InScope.mono {a : Term} (hd : d ≤ d') (hknown : ∀ id, known id → known' id)
    (h : InScope known d a) : InScope known' d' a := by
  cases a with
  | arg i => exact h.trans_le hd
  | postulate id => exact hknown id h
  | decl id => exact hknown id h
  | leaf l => trivial
  | placeholder i => exact h
  | app f x => exact h

private theorem inScope_iff_captureOr {a : Term} :
    InScope known d a ↔ CaptureOr d (InScope known 0) a := by
  constructor
  · intro h
    cases a with
    | arg i => exact .inl ⟨i, h, rfl⟩
    | _ => exact .inr h
  · rintro (⟨i, hi, rfl⟩ | h)
    · exact hi
    · exact h.mono (Nat.zero_le _) fun _ hid => hid

/-- Captures are arguments in scope. -/
theorem all_captureOr_iff {t : Term} : t.All (CaptureOr d (InScope known 0)) ↔
    t.All (InScope known d) :=
  ⟨fun h => h.mono fun _ => inScope_iff_captureOr.2, fun h => h.mono fun _ =>
    inScope_iff_captureOr.1⟩

/-- The first arguments are in scope. -/
theorem all_inScope_firstArgs : ∀ x ∈ firstArgs d, x.All (InScope known d) := by
  intro x hx
  obtain ⟨i, hi, rfl⟩ := mem_map.1 hx
  exact mem_range.1 hi

theorem hasPlaceholder_of_inScope {t : Term} (h : t.All (InScope known d)) :
    t.hasPlaceholder = false := by
  refine all_hasPlaceholder.2 (h.mono ?_)
  rintro a ha i rfl
  exact ha

end Term

namespace Telescope

variable {known known' : Nat → Prop} {k k' : Kernel} {tele tele' : Telescope} {t u type : Term}

/-- The telescope is valid in the kernel, over the symbols in `known`. -/
structure Valid (known : Nat → Prop) (k : Kernel) (tele : Telescope) : Prop where
  context : tele.context < k.contexts.size
  assumptions : ∀ a ∈ tele.assumptions,
    a.1.All (Term.InScope known tele.depth) ∧ a.2.All (Term.InScope known tele.depth)
  pi : tele.pi.All (Term.InScope known 0)
  sound : ∀ E, LocalTheory k.rules E → (∀ a ∈ tele.assumptions, E a.1 a.2) →
    Equalities.Sound (Term.InScope known tele.depth) E (k.equalities tele.context)

/-- A term below the telescope, which may mention classes of its context. -/
def Covers (known : Nat → Prop) (k : Kernel) (tele : Telescope) (t : Term) : Prop :=
  t.All (Term.ClassOr (k.equalities tele.context).classes.size (Term.InScope known tele.depth))

/-- The terms stand for equal terms, under the rules and the assumptions. -/
def Equates (k : Kernel) (tele : Telescope) (t u : Term) : Prop :=
  Equal k.rules tele.assumptions ((k.equalities tele.context).eliminate t)
    ((k.equalities tele.context).eliminate u)

/-- Terms in scope are covered. -/
theorem covers_of_all (h : t.All (InScope known tele.depth)) : Covers known k tele t :=
  h.classOr

/-- Between terms without placeholders, equal below a telescope means equal. -/
theorem equates_iff_equal (ht : t.hasPlaceholder = false) (hu : u.hasPlaceholder = false) :
    Equates k tele t u ↔ Equal k.rules tele.assumptions t u := by
  rw [Equates, eliminate_eq_self _ (all_hasPlaceholder.1 ht),
    eliminate_eq_self _ (all_hasPlaceholder.1 hu)]

/-! ### Growth -/

section

variable (hv : Valid known k tele) (hg : k.Grows k') (hR : k'.rules.Over (InScope known 0))
include hv hg hR

theorem Valid.evolves {E : Term → Term → Prop}
    (hE : LocalTheory k'.rules E) (ha : ∀ a ∈ tele.assumptions, E a.1 a.2) :
    Sound (InScope known tele.depth) E (k'.equalities tele.context) ∧
      Evolves E (k.equalities tele.context) (k'.equalities tele.context) := by
  refine hg.evolves _ hv.context _ E not_inScope_placeholder ?_ hE
    (hv.sound E (hE.of_sub hg.rules) ha)
  exact hR.mono fun _ h => h.mono (Nat.zero_le _) fun _ hid => hid

/-- A valid telescope stays valid. -/
theorem Valid.grows : Valid known k' tele where
  __ := hv
  context := hv.context.trans_le hg.contexts
  sound _ hE ha := (hv.evolves hg hR hE ha).1

/-- Covered terms stay covered. -/
theorem Valid.covers (ht : Covers known k tele t) : Covers known k' tele t := by
  have hev := (hv.evolves hg hR (localTheory_true _) fun _ _ => trivial).2
  exact ht.mono fun _ h => h.mono hev.size

end

/-- What was equal stays equal. -/
theorem Equates.grows (h : Equates k tele t u) (hv : Valid known k tele) (hg : k.Grows k')
    (hR : k'.rules.Over (InScope known 0)) (ht : Covers known k tele t)
    (hu : Covers known k tele u) : Equates k' tele t u := by
  intro E hE
  obtain ⟨hs', hev⟩ := hv.evolves hg hR hE.toLocalTheory hE.assumed
  have hs := hv.sound E (hE.toLocalTheory.of_sub hg.rules) hE.assumed
  have hC := hE.toCongruence
  have ht' := hev.eliminate hC hs hs' not_inScope_placeholder ht
  have hu' := hev.eliminate hC hs hs' not_inScope_placeholder hu
  exact hC.trans (hC.symm ht') (hC.trans (h E (hE.of_sub hg.rules)) hu')

/-- A term reduced below a valid telescope is equal to its reduct. -/
theorem Valid.reduced (hv : Valid known k tele) (hR : k.rules.Over (InScope known 0))
    (ht : Covers known k tele t) (h : Reduced tele t u k k') :
    Valid known k' tele ∧ Covers known k' tele u ∧ Equates k' tele t u := by
  have hR' : k'.rules.Over (InScope known 0) := h.rules ▸ hR
  have hv' := hv.grows h.grows hR'
  have ht' := hv.covers h.grows hR' ht
  obtain ⟨depth, hrun⟩ := h.run
  have hrelated : ∀ E, LocalTheory k.rules E → (∀ a ∈ tele.assumptions, E a.1 a.2) →
      Related (InScope known tele.depth) E (k'.equalities tele.context) t u := by
    intro E hE ha
    have hR'' : k.rules.Over (InScope known tele.depth) :=
      hR.mono fun _ h => h.mono (Nat.zero_le _) fun _ hid => hid
    exact related_run? hE.toRuleCongruence not_inScope_placeholder hR''
      (hv'.sound E (h.rules ▸ hE) ha) ht' hrun
  refine ⟨hv', ?_, fun E hE => ?_⟩
  · exact (hrelated _ (localTheory_true _) fun _ _ => trivial).right
  · exact (hrelated E (h.rules ▸ hE.toLocalTheory) hE.assumed).holds

/-- What a term below a valid telescope stands for is in scope. -/
theorem Valid.eliminated (hv : Valid known k tele) (ht : Covers known k tele t) :
    ((k.equalities tele.context).eliminate t).All (InScope known tele.depth) := by
  have hE := localTheory_true k.rules
  exact all_eliminate hE.toCongruence not_inScope_placeholder (hv.sound _ hE fun _ _ => trivial) ht

/-- More symbols may be known. -/
theorem Valid.mono (hv : Valid known k tele) (hknown : ∀ id, known id → known' id) :
    Valid known' k tele where
  context := hv.context
  assumptions a ha :=
    ⟨(hv.assumptions a ha).1.mono fun _ h => h.mono le_rfl hknown,
      (hv.assumptions a ha).2.mono fun _ h => h.mono le_rfl hknown⟩
  pi := hv.pi.mono fun _ h => h.mono le_rfl hknown
  sound E hE ha := (hv.sound E hE ha).mono fun _ h => h.mono le_rfl hknown

/-! ### Longer telescopes -/

/-- Binding adds one level. -/
@[simp] theorem depth_bound (tele : Telescope) (type : Term) (n : Nat) :
    (tele.bound type n).depth = tele.depth + 1 := rfl

private theorem over_boundRules {n : Nat} (hpi : tele.pi.All (InScope known 0))
    (htype : type.All (InScope known tele.depth)) (hprimitive : ∀ id < Primitive.count, known id)
    (hnew : ∀ id, n ≤ id → id < n + 5 → known id) :
    ∀ x ∈ tele.boundRules type n, x.2.Over (InScope known 0) := by
  have hshifted : ∀ x ∈ (range tele.depth).map fun i => arg (i + 1),
      x.All (InScope known (tele.depth + 1)) := by
    intro x hx
    obtain ⟨i, hi, rfl⟩ := mem_map.1 hx
    exact Nat.succ_lt_succ (mem_range.1 hi)
  have h0 : known 0 := hprimitive 0 (by decide)
  have h1 : known 1 := hprimitive 1 (by decide)
  have hpi' : tele.pi.All (InScope known 1) :=
    hpi.mono fun _ h => h.mono (Nat.zero_le _) fun _ hid => hid
  simp only [boundRules, forall_mem_cons, Rule.over_lambda, all_captureOr_iff]
  simp only [Primitive.arrowOf, Primitive.arrow, Primitive.type, Term.applyArgs, Term.all_apply,
    all_postulate, all_decl, all_app, all_arg, forall_mem_cons]
  refine ⟨htype, h0,
    ⟨h1, htype, ⟨hnew _ (by omega) (by omega), Term.all_inScope_firstArgs⟩, by simp⟩,
    ⟨h1, ⟨hnew _ (by omega) (by omega), hshifted⟩, ⟨Nat.zero_lt_succ _, hshifted⟩, by simp⟩,
    ⟨hpi', hnew _ (by omega) (by omega), Nat.zero_lt_one⟩, by simp⟩

/-- Binding an argument of a type in scope leads to a valid telescope, and keeps the rules closed.
-/
theorem Valid.bound (hv : Valid known k tele) (hR : k.rules.Over (InScope known 0))
    (htype : type.All (InScope known tele.depth)) (h : Bound tele type k tele' k')
    (hprimitive : ∀ id < Primitive.count, known id)
    (hnew : ∀ id, k.nextSymbol ≤ id → id < k'.nextSymbol → known id) :
    k'.rules.Over (InScope known 0) ∧ Valid known k' tele' := by
  have hcontexts := h.contexts
  have hgrows := h.extends.grows hcontexts
  rw [h.symbols] at hnew
  have hR' : k'.rules.Over (InScope known 0) := by
    obtain ⟨names, rfl⟩ := h.kernel
    refine Kernel.over_withRules (fun id r hr => hR id r (by simpa using hr)) ?_
    exact over_boundRules hv.pi htype hprimitive hnew
  have hv' := hv.grows hgrows hR'
  refine ⟨hR', ?_⟩
  rw [h.telescope]
  refine ⟨hv'.context, fun a ha => ?_, hnew _ (by omega) (by omega), fun E hE ha => ?_⟩
  · obtain ⟨hl, hr⟩ := hv.assumptions a ha
    exact ⟨hl.mono fun _ h => h.mono (Nat.le_succ _) fun _ hid => hid,
      hr.mono fun _ h => h.mono (Nat.le_succ _) fun _ hid => hid⟩
  · exact (hv'.sound E hE ha).mono fun _ h => h.mono (Nat.le_succ _) fun _ hid => hid

/-- Assuming an equation of terms in scope leads to a valid telescope. -/
theorem Valid.assumed (hv : Valid known k tele) (hR : k.rules.Over (InScope known 0))
    (ht : t.All (InScope known tele.depth)) (hu : u.All (InScope known tele.depth))
    (h : Assumed tele t u k tele' k') : Valid known k' tele' := by
  rw [h.telescope]
  refine ⟨h.size ▸ Nat.lt_succ_self _, ?_, hv.pi, fun E hE ha => ?_⟩
  · exact forall_mem_cons.2 ⟨⟨ht, hu⟩, hv.assumptions⟩
  · obtain ⟨htu, ha⟩ := forall_mem_cons.1 ha
    rw [h.rules] at hE
    have hsound := hv.sound E hE ha
    refine h.sound _ E not_inScope_placeholder ?_ hE hsound ⟨ht.classOr, hu.classOr, ?_⟩
    · exact hR.mono fun _ h => h.mono (Nat.zero_le _) fun _ hid => hid
    · rw [eliminate_of_all _ ht not_inScope_placeholder,
        eliminate_of_all _ hu not_inScope_placeholder]
      exact htu

end Telescope
end Elaboration
