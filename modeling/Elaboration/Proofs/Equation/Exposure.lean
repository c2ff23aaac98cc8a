import Elaboration.Proofs.Equation.Step
import Elaboration.Proofs.Reduction.Extension

/-!
# Heads that an explosion exposes

An asymmetric explosion gives an indeterminate a closed head and expects to find it when it reduces
the indeterminate again. Postulates and leaves are found, since they head no member of a context; a
bound argument is, unless something that it heads has become a member.
-/

namespace Elaboration

open EndsWith Equalities Kernel Term

namespace Reduction

variable {R : RuleTable} {h : Replacer} {head body n : Term} {xs : List Term} {id : Nat}

private theorem Reaches.head_of_lambda (hr : R.ruleFor? id = some (.lambda head xs.length body))
    (hclosed : (body.subst xs).isHeadClosed) (hn : Reaches R h .full ((decl id).apply xs) n) :
    n.head = (body.subst xs).head ∨
      ∃ w u, w.head = (body.subst xs).head ∧ h.change? w = some u := by
  have hweak : ∀ {d w}, reduce R h d .weak ((decl id).apply xs) = some w →
      w = body.subst xs := by
    intro d w hw
    cases d with
    | zero => cases hw
    | succ d =>
      obtain ⟨hnone, _⟩ | ⟨v, hv, hw⟩ := reduce_weak_succ.1 hw
      · cases (headStep_lambda hr _).symm.trans hnone
      · cases (headStep_lambda hr _).symm.trans hv
        cases d with
        | zero => cases hw
        | succ d =>
          obtain ⟨_, rfl⟩ | ⟨v, hv, _⟩ := reduce_weak_succ.1 hw
          · rfl
          · cases (headStep_of_isHeadClosed hclosed _).symm.trans hv
  obtain ⟨d, hd⟩ := hn
  cases d with
  | zero => cases hd
  | succ d =>
    obtain ⟨w, hw, hcases⟩ := reduce_full_cases hd
    cases hweak hw
    obtain ⟨g, hg, _⟩ | ⟨_, args, _, ⟨u, _, hu, _⟩ | ⟨_, rfl⟩⟩ := hcases
    · exact .inr ⟨_, g, by simp, hg⟩
    · exact .inr ⟨_, u, by simp, hu⟩
    · exact .inl (by simp)

end Reduction

namespace Equalities

variable {q q' q'' : Equalities} {t u : Term}

/-- The context is the same, or was updated because something is assumed. -/
def Refreshed (q q' : Equalities) : Prop := q' = q ∨ q.hasClasses ∧ Updates q q'

private theorem Refreshed.trans (h : Refreshed q q') (h' : Refreshed q' q'') : Refreshed q q'' := by
  obtain rfl | ⟨hq, h⟩ := h
  · exact h'
  · obtain rfl | ⟨_, h'⟩ := h'
    · exact .inr ⟨hq, h⟩
    · exact .inr ⟨hq, h.trans h'⟩

private theorem Refreshed.wellShaped (h : Refreshed q q') (hq : q.WellShaped) : q'.WellShaped := by
  obtain rfl | ⟨_, h⟩ := h
  · exact hq
  · exact h.wellShaped hq

private theorem exists_mem_of_change? (ht : t.isHeadClosed) (h : q.replacer.change? t = some u) :
    ∃ c, (t, c) ∈ q.members := by
  unfold Replacer.change? replacer at h
  cases t with
  | placeholder => cases ht
  | _ =>
    dsimp only at h
    split at h
    · next hoffered =>
      obtain ⟨c, hc, _⟩ := Option.map_eq_some_iff.1 hoffered
      exact ⟨c, mem_of_memberIn? hc⟩
    · cases h

end Equalities

open Equalities (Refreshed)

private theorem Telescope.ends_reduce_refreshed (tele : Telescope) (t : Term) (k : Kernel) :
    Ends (tele.reduce t) k
      (fun u k' => k'.rules = k.rules ∧
        Refreshed (k.equalities tele.context) (k'.equalities tele.context) ∧
        Reduction.Reaches k.rules (k'.equalities tele.context).replacer .full t u)
      fun e _ => e.ofContext := by
  have hrefresh : Ends tele.refresh k (fun _ k1 => k1.rules = k.rules ∧
      Refreshed (k.equalities tele.context) (k1.equalities tele.context)) fun e _ =>
        e.ofContext := by
    rw [ends_refresh_iff]
    split
    · next hstale =>
      rw [KernelM.ends_changeContext]
      refine traces_canonicalize.ends.mono (fun _ s hs => ⟨rfl, ?_⟩) fun _ _ h => h.1
      by_cases hlt : tele.context < k.contexts.size
      · rw [equalities_withContext hlt]
        exact .inr ⟨(Bool.and_eq_true_iff.1 hstale).1, hs.updates⟩
      · exact .inl (by simp [equalities, withContext, hlt])
    · exact ⟨rfl, .inl rfl⟩
  rw [ends_reduce_iff]
  refine hrefresh.imp (fun _ k1 h => ?_)
  split
  · next hrun => exact ⟨h.1, h.2, h.1 ▸ Reduction.reaches_iff_run?.2 ⟨_, hrun⟩⟩
  · rfl

namespace Solver

variable {e : Equation} {lhs rhs pattern rigid head : Term} {f : Flexible}
  {free : Indeterminates} {k k' : Kernel} {stop : Stop} {q : Equalities}

/-- Where a head is not exposed, something with that head is a member of the context. -/
def Hides (c : Nat) (q : Equalities) (stop : Stop) (k' : Kernel) : Prop :=
  ∀ pattern rigid found expected,
    stop = .violation (.headNotExposed pattern rigid found expected) →
    Refreshed q (k'.equalities c) ∧ expected.isHeadClosed ∧
      ∃ m ∈ (k'.equalities c).members, m.1.head = expected

/-- If anything stops for want of an exposed head, then because of such a member. -/
abbrev Exposes {α : Type} (e : Equation) (k : Kernel) (x : SolverM α)
    (free : Indeterminates) : Prop :=
  EndsWith x free k (fun _ _ _ => True)
    (Hides e.telescope.context (k.equalities e.telescope.context))

private theorem hides_of_ofTable {c : Nat} (h : stop.ofTable) :
    Hides c q stop k' := by
  rintro _ _ _ _ rfl
  cases h

private theorem hides_of_ofContext {c : Nat} (h : stop.ofContext) :
    Hides c q stop k' := by
  rintro _ _ _ _ rfl
  cases h

private theorem hides_of_unexposed (hpattern : pattern = (decl f.id).apply f.args)
    (hhead : Imitates f rigid head) (hclosed : rigid.isHeadClosed) {k1 : Kernel}
    (hk1 : k1 = defined (withFresh k rigid.args.length) f (imitation k f rigid head))
    {exposed : Term} (hreduce : e.telescope.reduce pattern k1 = .ok exposed k')
    (hne : exposed.head ≠ rigid.head) :
    Hides e.telescope.context (k.equalities e.telescope.context)
      (.violation (.headNotExposed pattern rigid exposed.head rigid.head)) k' := by
  rintro _ _ _ _ ⟨⟩
  obtain ⟨_, hrefreshed, hreaches⟩ := (e.telescope.ends_reduce_refreshed _ _).of_ok hreduce
  have hrule : k1.rules.ruleFor? f.id =
      some (.lambda (.decl f.id) f.args.length (imitation k f rigid head)) := by
    rw [hk1, Flexible.length_args]
    simp [defined, Kernel.withRule, RuleTable.ruleFor?_install]
  have hsubst : ((imitation k f rigid head).subst f.args).head = rigid.head := by
    rw [hhead.subst_imitation hclosed, head_apply, head_head]
  have hclosed' : ∀ {t : Term}, t.head = rigid.head → t.isHeadClosed := by
    intro t ht
    rwa [isHeadClosed, ht]
  subst hpattern
  obtain hfound | ⟨w, u, hw, hu⟩ := hreaches.head_of_lambda hrule (hclosed' hsubst)
  · exact absurd (hfound.trans hsubst) hne
  · obtain ⟨c, hc⟩ := exists_mem_of_change? (hclosed' (hw.trans hsubst)) hu
    refine ⟨?_, hclosed' (head_head _), _, hc, hw.trans hsubst⟩
    rwa [hk1] at hrefreshed

private theorem Halted.hides (h : Halted e lhs rhs free k stop k') :
    Hides e.telescope.context (k.equalities e.telescope.context) stop k' := by
  cases h with
  | leaked | unbound => exact nofun
  | undefinable _ _ _ _ _ htable => exact hides_of_ofTable htable
  | @unexposed _ _ rigid' _ _ _ _ _ _ hf hrigid hclosed hhead _ hk1 _ hreduce =>
    obtain hreduce | ⟨exposed, hreduce, hne, rfl⟩ := hreduce
    · exact hides_of_ofContext ((e.telescope.ends_reduce_refreshed _ _).of_error hreduce)
    · have hclosed' : rigid'.isHeadClosed := by
        rwa [hrigid, isHeadClosed, head_eliminate _ hclosed]
      exact hides_of_unexposed (Flexible.of?_eq_some hf).1 hhead hclosed' hk1 hreduce hne

private theorem exposes_step (e : Equation) (free : Indeterminates) (k : Kernel) :
    Exposes e k (step e) free := by
  unfold step Telescope.isInconsistent Exposes
  simp only [bind_iff, lift_iff, Ends.bind_iff, KernelM.ends_context, Ends.pure_iff]
  split
  · trivial
  · simp only [bind_iff, lift_iff]
    refine (e.telescope.ends_reduce_refreshed e.lhs k).mono ?_ fun _ _ h => hides_of_ofContext h
    rintro lhs k1 ⟨_, h1, _⟩
    refine (e.telescope.ends_reduce_refreshed e.rhs k1).mono ?_ fun _ _ h => hides_of_ofContext h
    rintro rhs k2 ⟨_, h2, _⟩
    refine (ends_verdictOn e lhs rhs free k2).mono (fun _ _ _ _ => trivial) ?_
    intro stop k' h _ _ _ _ hstop
    obtain ⟨h3, hmember⟩ := h.hides _ _ _ _ hstop
    exact ⟨(h1.trans h2).trans h3, hmember⟩

/-- A step stops because a head is not exposed only if that head is an argument, something is
assumed, and a term headed by the argument is a member of the context once it is up to date. -/
theorem exists_member_of_headNotExposed {pattern rigid found expected : Term}
    (hq : (k.equalities e.telescope.context).WellShaped)
    (h : step e free k =
      .error (.violation (.headNotExposed pattern rigid found expected)) k') :
    ¬ e.telescope.AssumesNothing k ∧ ∃ level, expected = .arg level ∧
      ∃ m ∈ (k'.equalities e.telescope.context).members, m.1.head = .arg level := by
  obtain ⟨hrefreshed, hclosed, m, hm, hhead⟩ :=
    (exposes_step e free k).of_error h _ _ _ _ rfl
  refine ⟨fun hnothing => ?_, ?_⟩
  · rw [hnothing.equalities] at hrefreshed
    obtain heq | ⟨hclasses, _⟩ := hrefreshed
    · rw [heq] at hm
      cases hm
    · cases hclasses
  · have hrigid := (hrefreshed.wellShaped hq).member m hm
    unfold isRigid at hrigid
    unfold isHeadClosed at hclosed
    subst hhead
    rw [head_head] at hclosed
    cases hatom : m.1.head with
    | arg level => exact ⟨level, rfl, m, hm, hatom⟩
    | postulate | leaf =>
      rw [hatom] at hrigid
      cases hrigid
    | _ =>
      rw [hatom] at hclosed
      cases hclosed

/-! ### A head that is not exposed -/

/-- The rule `d11 (a10 _) $1 := $1` and the declarations `d12` and `d13`. -/
def secondOfTwo : RuleTable :=
  let taken := [.pull, .pull, .destructure (.arg 0) (.postulate 10) 1]
  (((Kernel.initial.rules.register 11).install 11 ⟨.decl 11, 2, taken, .arg 1⟩).register
    12).register 13

/-- The left side of the assumption `d11 (d13 a10) $1 = d12`. -/
def blockedSecond : Term := (Term.decl 11).apply [.app (.decl 13) (.postulate 10), .arg 1]

/-- A kernel with these rules in which an equality context is the first. -/
def withAssumption (q : Equalities) : Kernel :=
  { Kernel.initial with nextSymbol := 14, rules := secondOfTwo, contexts := #[q] }

/-- The equation `d13 $1 = $1 $0` below the assumption. It gives `d13` the head of its argument, and
then `$1` is equated to `d12`. -/
def argumentHead : Equation where
  lhs := .app (.decl 13) (.arg 1)
  rhs := .app (.arg 1) (.arg 0)
  telescope := ⟨[.assumed blockedSecond (.decl 12), .bound Primitive.type, .bound Primitive.type],
    Primitive.type, Primitive.identity, 0⟩
  deduce := true

/-- Whether a step stopped because a head was not exposed. -/
def stopsUnexposed {α : Type} : EStateM.Result Stop Kernel α → Bool
  | .error (.violation (.headNotExposed ..)) _ => true
  | _ => false

/-- A step on the equation, below the assumption as it is recorded, stops. -/
theorem exists_member_of_headNotExposed_argumentHead : ∃ s pattern rigid found expected k',
    Equalities.assume (withAssumption .empty).setting blockedSecond (.decl 12) ⟨.empty, []⟩ =
      .ok (.ok ()) s ∧ s.equalities.inconsistent = false ∧
    step argumentHead [13] (withAssumption s.equalities) =
      .error (.violation (.headNotExposed pattern rigid found expected)) k' ∧
    ∃ level, expected = .arg level ∧ ∃ m ∈ (k'.equalities 0).members, m.1.head = .arg level := by
  obtain ⟨_, s, hassume, rfl, hconsistent, hstops⟩ : ∃ x s,
      assume (withAssumption .empty).setting blockedSecond (.decl 12) ⟨.empty, []⟩ =
        .ok x s ∧ x = .ok () ∧ s.equalities.inconsistent = false ∧
      stopsUnexposed (step argumentHead [13] (withAssumption s.equalities)) := by decide +kernel
  have hshaped : ((withAssumption s.equalities).equalities 0).WellShaped :=
    ((traces_assume _ _).ends.of_ok hassume).updates.wellShaped wellShaped_empty
  unfold stopsUnexposed at hstops
  split at hstops
  · next hstep =>
    exact ⟨s, _, _, _, _, _, hassume, hconsistent, hstep,
      (exists_member_of_headNotExposed (e := argumentHead) hshaped hstep).2⟩
  · cases hstops

end Solver
end Elaboration
