import Elaboration.Proofs.Equation.Step

/-!
# Soundness of one step

A step that solves an equation leaves a kernel in which the equation holds, and a step that derives
equations derives valid ones from which it follows, now and in every later state of the kernel. An
equation holds if what its sides stand for is equal.
-/

namespace Elaboration

open Equalities Flexible List Telescope Term

namespace Equation

/-- The equation is between terms below a valid telescope. -/
structure Valid (known : Nat → Prop) (k : Kernel) (e : Equation) : Prop where
  telescope : e.telescope.Valid known k
  lhs : e.telescope.Covers known k e.lhs
  rhs : e.telescope.Covers known k e.rhs

/-- The sides stand for equal terms. -/
def Holds (k : Kernel) (e : Equation) : Prop := e.telescope.Equates k e.lhs e.rhs

/-- Whenever the other equations hold from now on, the equation does. -/
def Follows (known : Nat → Prop) (k : Kernel) (e : Equation) (others : List Equation) : Prop :=
  ∀ k', k.Grows k' → k'.rules.Over (Term.InScope known 0) → (∀ c ∈ others, c.Holds k') → e.Holds k'

variable {known : Nat → Prop} {k k' : Kernel} {e : Equation}

theorem Valid.grows (h : e.Valid known k) (hg : k.Grows k')
    (hR : k'.rules.Over (InScope known 0)) : e.Valid known k' :=
  ⟨h.telescope.grows hg hR, h.telescope.covers hg hR h.lhs, h.telescope.covers hg hR h.rhs⟩

theorem Holds.grows (h : e.Holds k) (hv : e.Valid known k) (hg : k.Grows k')
    (hR : k'.rules.Over (InScope known 0)) : e.Holds k' :=
  Equates.grows h hv.telescope hg hR hv.lhs hv.rhs

end Equation

namespace Solver

variable {known : Nat → Prop} {k k' : Kernel} {e : Equation} {lhs rhs t u : Term}
  {free left : Indeterminates} {v : Verdict} {tele : Telescope} {f : Flexible}

/-- What a verdict says about the terms that were compared. -/
structure Justified (known : Nat → Prop) (e : Equation) (lhs rhs : Term) (k' : Kernel)
    (v : Verdict) : Prop where
  rules : k'.rules.Over (Term.InScope known 0)
  solved : v = .solved → e.telescope.Equates k' lhs rhs
  valid : ∀ others, v = .derived others → ∀ c ∈ others, c.Valid known k'
  derived : ∀ others, v = .derived others → ∀ k'', k'.Grows k'' →
    k''.rules.Over (Term.InScope known 0) → (∀ c ∈ others, c.Holds k'') →
    e.telescope.Equates k'' lhs rhs

private theorem equates_refl (k : Kernel) (tele : Telescope) (t : Term) : tele.Equates k t t :=
  fun _ hE => hE.refl _

private theorem equates_symm (h : tele.Equates k t u) : tele.Equates k u t :=
  fun E hE => hE.symm (h E hE)

private theorem equates_of_sides (hs : Sides lhs rhs t u) (h : tele.Equates k t u) :
    tele.Equates k lhs rhs := by
  obtain ⟨rfl, rfl⟩ | ⟨rfl, rfl⟩ := hs
  · exact h
  · exact equates_symm h

section Sides

variable (hR : k.rules.Over (InScope known 0)) (htele : e.telescope.Valid known k)
  (hl : e.telescope.Covers known k lhs) (hr : e.telescope.Covers known k rhs)

private theorem equates_of_args (hhead : lhs.head = rhs.head)
    (hlen : lhs.args.length = rhs.args.length)
    (h : ∀ a ∈ lhs.args.zip rhs.args, tele.Equates k a.1 a.2) : tele.Equates k lhs rhs := by
  intro E hE
  have hC := hE.toCongruence
  rw [eliminate_eq_apply _ lhs, eliminate_eq_apply _ rhs, ← hhead]
  refine hC.apply (hC.refl _) (forall₂_iff_get.2 ⟨by simpa using hlen, fun i hi hi' => ?_⟩)
  have hi1 : i < lhs.args.length := by simpa using hi
  have hi2 : i < rhs.args.length := by simpa using hi'
  have hmem : (lhs.args[i], rhs.args[i]) ∈ lhs.args.zip rhs.args := by
    rw [mem_iff_getElem]
    exact ⟨i, by rw [length_zip]; exact Nat.lt_min.2 ⟨hi1, hi2⟩, by simp⟩
  simpa using h _ hmem E hE

include hR htele hl hr in
private theorem justified_symmetric (hv : explodeSymmetric e lhs rhs = some v) :
    Justified known e lhs rhs k v := by
  unfold explodeSymmetric at hv
  split at hv
  · split at hv
    · next hshape =>
      split at hv
      · next hempty =>
        cases hv
        refine ⟨hR, fun _ => ?_, nofun, nofun⟩
        have hargs : lhs.args = rhs.args := by
          rw [List.isEmpty_iff] at hempty
          rw [hempty]
          exact (eq_nil_of_length_eq_zero (by rw [← hshape.2, hempty]; rfl)).symm
        rw [eq_of_head_args hshape.1 hargs]
        exact equates_refl _ _ _
      · cases hv
        refine ⟨hR, nofun, ?_, ?_⟩
        · rintro others ⟨⟩ c hc
          obtain ⟨⟨x, y⟩, hxy, rfl⟩ := mem_map.1 hc
          obtain ⟨hx, hy⟩ := of_mem_zip hxy
          exact ⟨htele, hl.args x hx, hr.args y hy⟩
        · rintro others ⟨⟩ k'' _ _ hothers
          refine equates_of_args hshape.1 hshape.2 fun a ha => ?_
          exact hothers _ (mem_map_of_mem ha)
    · cases hv
      exact ⟨hR, nofun, nofun, nofun⟩
  · cases hv

private theorem not_mentions {n : Nat} (ht : t.All (InScope known n)) : ¬ t.Mentions n := by
  intro hmentions
  refine hmentions (ht.mono ?_)
  rintro a ha rfl
  exact lt_irrefl n ha

include hR htele hl hr in
private theorem justified_deepened (hprimitive : ∀ id < Primitive.count, known id)
    {deeper : Telescope}
    (hbound : Bound e.telescope (.postulate k.nextSymbol)
      { k with nextSymbol := k.nextSymbol + 1 } deeper k')
    (hnew : ∀ id, k.nextSymbol ≤ id → id < k'.nextSymbol → known id) {journal : List Event}
    (hgrows : k.Grows { k' with journal }) :
    Justified known e lhs rhs { k' with journal }
      (.derived [⟨.app lhs (.arg e.telescope.depth), .app rhs (.arg e.telescope.depth), deeper,
        e.deduce⟩]) := by
  have htele1 : e.telescope.Valid known { k with nextSymbol := k.nextSymbol + 1 } :=
    { htele with }
  have hsymbol : k.nextSymbol < k'.nextSymbol := hbound.extends.symbols
  have htype : (postulate k.nextSymbol).All (InScope known e.telescope.depth) :=
    hnew _ le_rfl hsymbol
  obtain ⟨hR', hdeeper⟩ := htele1.bound hR htype hbound hprimitive
    fun id hid => hnew id (Nat.le_of_succ_le hid)
  have hcovers : ∀ t, e.telescope.Covers known k t →
      deeper.Covers known k' (.app t (.arg e.telescope.depth)) := by
    intro t ht
    have hsize : (k'.equalities deeper.context).classes.size =
        (k.equalities e.telescope.context).classes.size := by
      rw [Kernel.equalities, hbound.contexts, hbound.telescope]
      rfl
    have hdepth : deeper.depth = e.telescope.depth + 1 := by rw [hbound.telescope]; rfl
    unfold Covers
    rw [hsize, hdepth]
    refine ⟨ht.mono fun _ h => ?_, .inl (Nat.lt_succ_self _)⟩
    exact h.imp_left fun h => h.mono (Nat.le_succ _) fun _ hid => hid
  refine ⟨hR', fun h => (by cases h), ?_, ?_⟩
  · rintro others ⟨⟩ c hc
    cases mem_singleton.1 hc
    exact ⟨{ hdeeper with }, hcovers lhs hl, hcovers rhs hr⟩
  · rintro others ⟨⟩ k'' hg hR'' hothers E hE
    have hchild := hothers _ (mem_singleton_self _)
    rw [hbound.telescope] at hchild
    -- the new argument occurs neither in the sides nor in the assumptions
    have hg' : k.Grows k'' := hgrows.trans hg
    have htele' := htele.grows hg' hR''
    have hl' := htele'.eliminated (htele.covers hg' hR'' hl)
    have hr' := htele'.eliminated (htele.covers hg' hR'' hr)
    refine hE.extensional e.telescope.depth (not_mentions hl') (not_mentions hr')
      (fun a ha => ?_) (hchild E hE)
    obtain ⟨h1, h2⟩ := htele.assumptions a ha
    exact ⟨not_mentions h1, not_mentions h2⟩

/-! ### Definitions -/

theorem ruleFor?_defined (k : Kernel) (f : Flexible) (replacement : Term) :
    (defined k f replacement).rules.ruleFor? f.id =
      some (.lambda (.decl f.id) f.levels.length replacement) := by
  rw [defined, Kernel.withRule, RuleTable.ruleFor?_install, if_pos rfl]

private theorem over_defined {replacement : Term} (hR : k.rules.Over (InScope known 0))
    (h : replacement.All (InScope known f.levels.length)) :
    (defined k f replacement).rules.Over (InScope known 0) :=
  RuleTable.Over.install hR (Rule.over_lambda.2 (all_captureOr_iff.2 h))

private theorem eliminate_flexible {pattern : Term}
    (hf : of? free pattern = some f) (q : Equalities) :
    q.eliminate pattern = (decl f.id).apply f.args := by
  rw [(of?_eq_some hf).1, eliminate_apply, eliminate_decl]
  congr 1
  simp [Flexible.args, Function.comp_def]

include hl hr in
private theorem covers_of_sides (hs : Sides lhs rhs t u) :
    e.telescope.Covers known k t ∧ e.telescope.Covers known k u := by
  obtain ⟨rfl, rfl⟩ | ⟨rfl, rfl⟩ := hs
  · exact ⟨hl, hr⟩
  · exact ⟨hr, hl⟩

include hR htele hl hr in
private theorem justified_extracted {pattern value replacement : Term}
    (hs : Sides lhs rhs pattern value) (hf : of? free pattern = some f)
    (hreplacement : ((k.equalities e.telescope.context).eliminate value).mapArgs? f.slot? =
      some replacement) : Justified known e lhs rhs (defined k f replacement) .solved := by
  have hvalue := htele.eliminated (covers_of_sides hl hr hs).2
  refine ⟨over_defined hR (all_of_mapArgs? hvalue hreplacement), fun _ => ?_, nofun, nofun⟩
  refine equates_of_sides hs fun E hE => ?_
  rw [eliminate_flexible hf]
  have hrule := hE.toRuleCongruence.lambda (ruleFor?_defined k f replacement) f.length_args
  rw [subst_of_mapArgs? hreplacement] at hrule
  exact hrule

section Imitation

variable {pattern rigid rigid' head exposed : Term}

private theorem all_imitated_head (hrigid : rigid'.All (InScope known e.telescope.depth))
    (hhead : Imitates f rigid' head) :
    head.All (InScope known f.levels.length) := by
  obtain ⟨level, _, hslot⟩ | ⟨hno, rfl⟩ := hhead
  · obtain ⟨j, hj, rfl, _⟩ := slot?_eq_some hslot
    exact hj
  · have hall := hrigid.head
    have hhead := head_head rigid'
    cases hh : rigid'.head with
    | app g x =>
      have := args_head rigid'
      rw [hh] at this
      simp at this
    | arg i => exact absurd hh (hno i)
    | _ =>
      rw [hh] at hall
      exact hall

private theorem all_flexible_args (hf : of? free pattern = some f)
    (hpattern : e.telescope.Covers known k pattern) :
    ∀ x ∈ f.args, x.All (InScope known e.telescope.depth) := by
  intro x hx
  unfold Covers at hpattern
  rw [(of?_eq_some hf).1, all_apply] at hpattern
  obtain ⟨level, _, rfl⟩ := mem_map.1 hx
  exact (hpattern.2 _ hx).resolve_right (by rintro ⟨_, _, h⟩; cases h)

private theorem known_of_mem_freshTerms {count : Nat}
    (hnew : ∀ id, k.nextSymbol ≤ id → id < k.nextSymbol + count → known id) :
    ∀ v ∈ freshTerms k count, ∃ id, v = .decl id ∧ known id := by
  intro v hv
  obtain ⟨id, hid, rfl⟩ := mem_map.1 hv
  obtain ⟨hle, hlt⟩ := mem_range'_1.1 hid
  exact ⟨id, rfl, hnew id hle hlt⟩

private theorem all_imitation
    (hfresh : ∀ v ∈ freshTerms k rigid'.args.length, ∃ id, v = .decl id ∧ known id)
    (hhead : head.All (InScope known f.levels.length)) :
    (imitation k f rigid' head).All (InScope known f.levels.length) := by
  refine all_apply.2 ⟨hhead, fun x hx => ?_⟩
  obtain ⟨v, hv, rfl⟩ := mem_map.1 hx
  obtain ⟨id, rfl, hid⟩ := hfresh v hv
  exact all_apply.2 ⟨hid, all_inScope_firstArgs⟩

include htele hl hr in
private theorem equates_imitated (hs : Sides lhs rhs pattern rigid)
    (hf : of? free pattern = some f)
    (hrigid : rigid' = (k.equalities e.telescope.context).eliminate rigid)
    (hclosed : rigid.isHeadClosed) (hhead : Imitates f rigid' head)
    (hg : k.Grows k') (hR' : k'.rules.Over (InScope known 0))
    (hrule : k'.rules.ruleFor? f.id =
      some (.lambda (.decl f.id) f.levels.length (imitation k f rigid' head)))
    (hchildren : ∀ v x, (v, x) ∈ (freshTerms k rigid'.args.length).zip rigid'.args →
      Equal k'.rules e.telescope.assumptions (v.apply f.args) x) :
    e.telescope.Equates k' lhs rhs := by
  refine equates_of_sides hs fun E hE => ?_
  have hC := hE.toCongruence
  -- by its definition the indeterminate is the head applied to the new indeterminates
  have hdefinition := hE.toRuleCongruence.lambda hrule f.length_args
  have hclosed' : rigid'.isHeadClosed := by
    rwa [hrigid, isHeadClosed, head_eliminate _ hclosed]
  rw [hhead.subst_imitation hclosed'] at hdefinition
  -- these are the arguments of the other side
  have hargs : Forall₂ E
      ((freshTerms k rigid'.args.length).map fun v => v.apply f.args) rigid'.args := by
    rw [forall₂_map_left_iff]
    exact forall₂_iff_zip.2 ⟨by simp [freshTerms], fun hvx => hchildren _ _ hvx E hE⟩
  have hspine := hC.apply (hC.refl rigid'.head) hargs
  rw [apply_head_args] at hspine
  -- and that side stands for the same as before
  obtain ⟨hsound, hev⟩ := htele.evolves hg hR' hE.toLocalTheory hE.assumed
  have hkept := hev.eliminate hC
    (htele.sound E (hE.toLocalTheory.of_sub hg.rules) hE.assumed) hsound
    not_inScope_placeholder (covers_of_sides hl hr hs).2
  rw [← hrigid] at hkept
  rw [eliminate_flexible hf]
  exact hC.trans hdefinition (hC.trans hspine hkept)

include hR htele hl hr in
private theorem justified_imitated (hs : Sides lhs rhs pattern rigid)
    (hf : of? free pattern = some f)
    (hrigid : rigid' = (k.equalities e.telescope.context).eliminate rigid)
    (hclosed : rigid.isHeadClosed) (hhead : Imitates f rigid' head)
    (hreduced : Reduced e.telescope pattern exposed
      (defined (withFresh k rigid'.args.length) f (imitation k f rigid' head)) k')
    (hnew : ∀ id, k.nextSymbol ≤ id → id < k'.nextSymbol → known id) (hgrows : k.Grows k') :
    Justified known e lhs rhs k'
      (.derived (((freshTerms k rigid'.args.length).zip rigid'.args).map fun (v, x) =>
        e.derive (v.apply f.args) x)) := by
  obtain ⟨hpattern, hother⟩ := covers_of_sides hl hr hs
  have hall : rigid'.All (InScope known e.telescope.depth) := hrigid ▸ htele.eliminated hother
  have hfresh := known_of_mem_freshTerms (k := k) fun id hle hlt =>
    hnew id hle (hreduced.symbols ▸ hlt)
  have hR1 : (withFresh k rigid'.args.length).rules.Over (InScope known 0) :=
    fun id r h => hR id r (by simpa [withFresh] using h)
  have hR' : k'.rules.Over (InScope known 0) :=
    hreduced.rules ▸ over_defined hR1 (all_imitation hfresh (all_imitated_head hall hhead))
  have hvalid : ∀ v x, (v, x) ∈ (freshTerms k rigid'.args.length).zip rigid'.args →
      (v.apply f.args).All (InScope known e.telescope.depth) ∧
        x.All (InScope known e.telescope.depth) := by
    intro v x hvx
    obtain ⟨hv, hx⟩ := of_mem_zip hvx
    obtain ⟨id, rfl, hid⟩ := hfresh v hv
    exact ⟨all_apply.2 ⟨hid, all_flexible_args hf hpattern⟩, hall.args x hx⟩
  refine ⟨hR', fun h => (by cases h), ?_, ?_⟩
  · rintro others ⟨⟩ c hc
    obtain ⟨⟨v, x⟩, hvx, rfl⟩ := mem_map.1 hc
    obtain ⟨hv, hx⟩ := hvalid v x hvx
    exact ⟨htele.grows hgrows hR', covers_of_all hv, covers_of_all hx⟩
  · rintro others ⟨⟩ k'' hg hR'' hothers
    have hrule := hg.rules _ _ (hreduced.rules ▸ ruleFor?_defined _ _ _)
    refine equates_imitated htele hl hr hs hf hrigid hclosed hhead (hgrows.trans hg) hR'' hrule ?_
    intro v x hvx E hE
    obtain ⟨hv, hx⟩ := hvalid v x hvx
    have hchild := hothers _ (mem_map_of_mem hvx) E hE
    dsimp only [Equation.derive] at hchild
    rwa [eliminate_of_all _ hv not_inScope_placeholder,
      eliminate_of_all _ hx not_inScope_placeholder] at hchild

end Imitation

include hR htele hl hr in
private theorem Decided.justified (hprimitive : ∀ id < Primitive.count, known id)
    (h : Decided e lhs rhs free k v left k')
    (hnew : ∀ id, k.nextSymbol ≤ id → id < k'.nextSymbol → known id) :
    Justified known e lhs rhs k' v := by
  have hgrows := h.grows
  cases h with
  | extracted _ hs hf _ _ hreplacement _ _ =>
    exact justified_extracted hR htele hl hr hs hf hreplacement
  | deepened _ hbound => exact justified_deepened hR htele hl hr hprimitive hbound hnew hgrows
  | symmetric hv => exact justified_symmetric hR htele hl hr hv
  | unmentionable =>
    exact ⟨hR, nofun, nofun, nofun⟩
  | imitated _ hs hf hrigid hfresh hk1 _ hclosed hhead _ _ _ hreduced _ =>
    subst hfresh hk1
    exact justified_imitated hR htele hl hr hs hf hrigid hclosed hhead hreduced hnew hgrows
  | compared =>
    split
    · next heq =>
      exact ⟨hR, fun _ => heq ▸ equates_refl _ _ _, nofun, nofun⟩
    · exact ⟨hR, nofun, nofun, nofun⟩

end Sides

/-- One step on a valid equation is sound. -/
theorem Stepped.sound (hprimitive : ∀ id < Primitive.count, known id)
    (hR : k.rules.Over (InScope known 0)) (he : e.Valid known k)
    (h : Stepped e free k v left k')
    (hnew : ∀ id, k.nextSymbol ≤ id → id < k'.nextSymbol → known id) :
    k'.rules.Over (InScope known 0) ∧ (v = .solved → e.Holds k') ∧
      ∀ others, v = .derived others →
        (∀ c ∈ others, c.Valid known k') ∧ e.Follows known k' others := by
  cases h with
  | vacuous hinconsistent =>
    refine ⟨hR, fun _ E hE => ?_, nofun⟩
    exact hE.clash ((he.telescope.sound E hE.toLocalTheory hE.assumed).clash hinconsistent) _ _
  | @decided lhs rhs k1 k2 _ _ _ hlhs hrhs hd =>
    obtain ⟨htele1, hl1, hel⟩ := he.telescope.reduced hR he.lhs hlhs
    have hR1 : k1.rules.Over (InScope known 0) := hlhs.rules ▸ hR
    have hr1 := he.telescope.covers hlhs.grows hR1 he.rhs
    obtain ⟨htele2, hr2, her⟩ := htele1.reduced hR1 hr1 hrhs
    have hR2 : k2.rules.Over (InScope known 0) := hrhs.rules ▸ hR1
    have hl2 := htele1.covers hrhs.grows hR2 hl1
    have hj := hd.justified hR2 htele2 hl2 hr2 hprimitive fun id hid => by
      rw [hrhs.symbols, hlhs.symbols] at hid
      exact hnew id hid
    -- what the reduced sides say, the sides say, from now on
    have hsides : ∀ k'', k2.Grows k'' → k''.rules.Over (InScope known 0) →
        e.telescope.Equates k'' lhs rhs → e.Holds k'' := by
      intro k'' hg hR'' h E hE
      have hlE := hel.grows htele1 (hrhs.grows.trans hg) hR''
        (he.telescope.covers hlhs.grows hR1 he.lhs) hl1 E hE
      have hrE := her.grows htele2 hg hR'' (htele1.covers hrhs.grows hR2 hr1) hr2 E hE
      exact hE.trans hlE (hE.trans (h E hE) (hE.symm hrE))
    refine ⟨hj.rules, fun hv => hsides k' hd.grows hj.rules (hj.solved hv), fun others hv => ?_⟩
    refine ⟨hj.valid others hv, fun k'' hg hR'' hothers => ?_⟩
    exact hsides k'' (hd.grows.trans hg) hR'' (hj.derived others hv k'' hg hR'' hothers)

end Solver
end Elaboration
