import Mathlib.Logic.Relation
import Elaboration.Proofs.Reduction.Stability

/-!
# Normal forms and later rules

If the rules of a table match on postulates and leaves only, a term and its normal form have the
same normal form under any table with more rules, as soon as the term has one. The proof replays the
steps of the first table, with captures that are normal forms of its captures.
-/

namespace Elaboration

open List Option Term

/-- Whether a step that matches expects a postulate or a leaf. -/
def Rule.Step.matchesRigid : Rule.Step → Bool
  | .pull => true
  | .destructure _ head _ => head.isRigid

/-- Every installed rule matches on postulates and leaves only. -/
def RuleTable.MatchesRigid (R : RuleTable) : Prop :=
  ∀ id r, R.ruleFor? id = some r → ∀ s ∈ r.steps, s.matchesRigid

namespace Reduction

variable {R S : RuleTable} {t t' u v w n p p' : Term}
  {xs ys caps caps' caps1 args rest : List Term} {steps : List Rule.Step} {d e : Nat}

/-- No rule applies to a closed head. -/
theorem headStep_of_isHeadClosed (ht : t.isHeadClosed) (f : Term → Option Term) :
    headStep R f t = some none := by
  unfold headStep
  unfold isHeadClosed at ht
  cases hhead : t.head <;> simp_all [declId?]

/-- A spine with a closed head is normalised argument by argument. -/
theorem Reaches.of_isHeadClosed (h : Reaches R .none .full t n) (ht : t.isHeadClosed) :
    n.head = t.head ∧ Forall₂ (Reaches R .none .full) t.args n.args := by
  obtain ⟨d, hd⟩ := h
  cases d with
  | zero => cases hd
  | succ d =>
    obtain ⟨w, args, hw, hargs, rfl⟩ := reduce_full_succ.1 hd
    cases d with
    | zero => cases hw
    | succ d =>
      obtain ⟨_, rfl⟩ | ⟨v, hv, _⟩ := reduce_weak_succ.1 hw
      · refine ⟨by simp, ?_⟩
        rw [args_apply, args_head, nil_append]
        exact hargs.imp fun x y hxy => ⟨d + 1, hxy⟩
      · cases (headStep_of_isHeadClosed ht _).symm.trans hv

private theorem Reaches.of_isRigid (h : Reaches R .none .full t n) (ht : t.isRigid) :
    n.head = t.head ∧ Forall₂ (Reaches R .none .full) t.args n.args :=
  h.of_isHeadClosed (isHeadClosed_of_isRigid ht)

/-- What `R` finds at depth `e` has the normal forms under `S` that the term itself has. -/
def Agrees (R S : RuleTable) (e : Nat) : Prop :=
  ∀ {t n w}, reduce R .none e .full t = some n → Reaches S .none .full t w →
    Reaches S .none .full n w

private theorem runSteps_extended (hagrees : Agrees R S e)
    (hrigid : ∀ s ∈ steps, s.matchesRigid) (hcaps : Forall₂ (Replaced S) caps caps')
    (h : runSteps (reduce R .none e .full) steps caps args = some (some (caps1, rest)))
    {out : Option (List Term × List Term)}
    (h' : runSteps (reduce S .none d .full) steps caps' (args ++ xs) = some out) :
    ∃ caps2, out = some (caps2, rest ++ xs) ∧ Forall₂ (Replaced S) caps1 caps2 := by
  induction steps generalizing caps caps' args with
  | nil =>
    cases h
    cases h'
    exact ⟨caps', rfl, hcaps⟩
  | cons step steps ih =>
    obtain ⟨hstep, hrigid'⟩ := forall_mem_cons.1 hrigid
    cases step with
    | pull =>
      cases args with
      | nil => cases h
      | cons x args => exact ih hrigid' (rel_append hcaps (.cons (.same x) .nil)) h h'
    | destructure subject head count =>
      obtain ⟨value, hvalue, h⟩ := bind_eq_some_iff.1 h
      obtain ⟨value', hvalue', h'⟩ := bind_eq_some_iff.1 h'
      split at h
      · next hmatch =>
        obtain ⟨hhead, hcount⟩ := hmatch
        -- the subject under `S` is made of normal forms, which does not change its own
        have hsubject : Reaches S .none .full (subject.subst caps) value' :=
          (stable_flip S d).full hvalue' ((compatible_replaced S).subst hcaps subject)
        have hvalues := hagrees hvalue hsubject
        have hvalueRigid : value.isRigid := by
          rw [Rule.Step.matchesRigid, ← hhead] at hstep
          simpa [isRigid] using hstep
        obtain ⟨hhead', hargs'⟩ := hvalues.of_isRigid hvalueRigid
        rw [if_pos ⟨hhead'.trans hhead, hargs'.length_eq ▸ hcount⟩] at h'
        refine ih hrigid' (rel_append hcaps (hargs'.imp fun x y hxy => ?_)) h h'
        exact .normal (normalizes_iff.2 hxy)
      · cases h

private theorem headStep_extended (hsub : R.Sub S) (hrigid : R.MatchesRigid)
    (hagrees : Agrees R S e) (h : headStep R (reduce R .none e .full) p = some (some p'))
    {out : Option Term} (h' : headStep S (reduce S .none d .full) (p.apply xs) = some out) :
    ∃ v, out = some (v.apply xs) ∧ Replaced S p' v := by
  rw [headStep_eq] at h h'
  split at h
  · cases h
  · next r hr =>
    have hlen : p.args.length ≤ (p.apply xs).args.length := by simp
    rw [head_apply, applicable?_mono hsub hlen hr] at h'
    obtain ⟨found, hfound, h⟩ := bind_eq_some_iff.1 h
    obtain ⟨found', hfound', h'⟩ := bind_eq_some_iff.1 h'
    cases found with
    | none => cases h
    | some found =>
      obtain ⟨id, -, hid⟩ := bind_eq_some_iff.1 (filter_eq_some_iff.1 hr).1
      rw [args_apply] at hfound'
      obtain ⟨caps2, rfl, hcaps⟩ := runSteps_extended hagrees (hrigid id r hid) .nil hfound hfound'
      cases h
      cases h'
      refine ⟨(r.replacement.subst caps2).apply found.2, by rw [apply_append], ?_⟩
      exact (compatible_replaced S).apply ((compatible_replaced S).subst hcaps r.replacement)
        ((compatible_replaced S).forall₂_refl _)

/-! ### Steps in parts of a term -/

/-- A rule of `R` that matches at depth `e` replaces the head of the term. -/
def Fires (R : RuleTable) (e : Nat) (t t' : Term) : Prop :=
  headStep R (reduce R .none e .full) t = some (some t')

/-- `y` has the normal forms of a term that comes from `x` by rules of `R` in some parts. -/
def Behind (R S : RuleTable) (e : Nat) (x y : Term) : Prop :=
  ∃ z, Term.Parallel (Fires R e) x z ∧ ∀ n, Reaches S .none .full z n → Reaches S .none .full y n

/-- What `S` finds at depth `d` is found after rules of `R` were applied in parts of the term. -/
private abbrev Passes (R S : RuleTable) (e d : Nat) : Prop :=
  Follows S (Term.Parallel (Fires R e)) (Behind R S e) d

private theorem Behind.of_parallel (h : Parallel (Fires R e) u v) : Behind R S e u v :=
  ⟨v, h, fun _ hn => hn⟩

private theorem weak_succ_of_fires (hsub : R.Sub S) (hrigid : R.MatchesRigid)
    (hagrees : Agrees R S e) (hd : Passes R S e d) (hp : Fires R e p p')
    (hxs : Forall₂ (Parallel (Fires R e)) xs ys)
    (hw : reduce S .none (d + 1) .weak (p.apply xs) = some w) :
    ∃ w', Reaches S .none .weak (p'.apply ys) w' ∧ SpineRelated (Behind R S e) w w' := by
  obtain ⟨hstuck, _⟩ | ⟨v, hv, hw⟩ := reduce_weak_succ.1 hw
  · obtain ⟨v, hv, _⟩ := headStep_extended hsub hrigid hagrees hp hstuck
    cases hv
  · obtain ⟨v, ⟨⟩, hreplaced⟩ := headStep_extended hsub hrigid hagrees hp hv
    -- the arguments change below the result of `S`, which is a replacement of the result of `R`
    have hargs : Parallel (Fires R e) (v.apply xs) (v.apply ys) :=
      (compatible_parallel _).apply (.same v) hxs
    obtain ⟨w1, ⟨d1, hw1⟩, hhead1, hww1⟩ := hd.weak hw hargs
    have hresult : Replaced S (p'.apply ys) (v.apply ys) :=
      (compatible_replaced S).apply hreplaced ((compatible_replaced S).forall₂_refl ys)
    obtain ⟨w', hw', hhead', hww'⟩ := (stable_flip S d1).weak hw1 hresult
    refine ⟨w', hw', hhead1.trans hhead', ?_⟩
    refine forall₂_iff_get.2 ⟨hww1.length_eq.trans hww'.length_eq, fun i hi hi' => ?_⟩
    have hi1 : i < w1.args.length := hww1.length_eq ▸ hi
    obtain ⟨z, hz, hbehind⟩ := (forall₂_iff_get.1 hww1).2 i hi hi1
    refine ⟨z, hz, fun n hn => ?_⟩
    obtain ⟨d2, hd2⟩ := hbehind n hn
    exact (stable_flip S d2).full hd2 ((forall₂_iff_get.1 hww').2 i hi1 hi')

private theorem Passes.succ (hsub : R.Sub S) (hrigid : R.MatchesRigid) (hagrees : Agrees R S e)
    (hd : Passes R S e d) : Passes R S e (d + 1) where
  weak {t t' w} hw ht := by
    obtain ht | ⟨p, p', xs, ys, rfl, rfl, hp, hxs⟩ := ht.spine
    · exact hd.weak_succ_of_spine (compatible_parallel _) (fun _ _ => Behind.of_parallel) ht hw
    · exact weak_succ_of_fires hsub hrigid hagrees hd hp hxs hw
  full {t t' n} hn ht := by
    obtain ⟨w, args, hw, hargs, rfl⟩ := reduce_full_succ.1 hn
    obtain ⟨w', hw', hhead, hww⟩ := hd.weak hw ht
    rw [hhead]
    refine reaches_full_of_weak hw' (forall₂_reaches ?_ hww hargs)
    rintro x y m hx ⟨z, hz, hbehind⟩
    exact hbehind m (hd.full hx hz)

private theorem passes (hsub : R.Sub S) (hrigid : R.MatchesRigid) (hagrees : Agrees R S e)
    (d : Nat) : Passes R S e d := by
  induction d with
  | zero => exact ⟨nofun, nofun⟩
  | succ d ih => exact Passes.succ hsub hrigid hagrees ih

/-! ### Reductions in parts of a term -/

private theorem Fires.mono {e' : Nat} (hle : e ≤ e') (h : Fires R e t t') : Fires R e' t t' :=
  headStep_mono (fun _ _ => reduce_mono hle) h

private theorem exists_fires (h : reduce R .none e .weak t = some u) :
    Relation.ReflTransGen (Fires R e) t u := by
  induction e generalizing t with
  | zero => cases h
  | succ e ih =>
    obtain ⟨_, rfl⟩ | ⟨v, hv, hu⟩ := reduce_weak_succ.1 h
    · exact .refl
    · refine .head (Fires.mono (Nat.le_succ e) hv) ?_
      exact (ih hu).lift id fun _ _ => Fires.mono (Nat.le_succ e)

private theorem exists_of_parallel_reduce
    (h : Parallel (fun t n => reduce R .none (e + 1) .full t = some n) t t') :
    ∃ u, Relation.ReflTransGen (Parallel (Fires R e)) t u ∧
      Parallel (fun t n => reduce R .none e .full t = some n) u t' := by
  induction h with
  | same t => exact ⟨t, .refl, .same t⟩
  | part h =>
    obtain ⟨u, args, hu, hargs, rfl⟩ := reduce_full_succ.1 h
    refine ⟨u, (exists_fires hu).lift id fun _ _ => .part, ?_⟩
    have hspine := (compatible_parallel fun t n => reduce R .none e .full t = some n).apply
      (.same u.head) (hargs.imp fun _ _ hxy => .part hxy)
    rwa [apply_head_args] at hspine
  | @app f g x y _ _ ihf ihx =>
    obtain ⟨f', hf, hf'⟩ := ihf
    obtain ⟨x', hx, hx'⟩ := ihx
    refine ⟨.app f' x', ?_, hf'.app hx'⟩
    have hleft : Relation.ReflTransGen (Parallel (Fires R e)) (.app f x) (.app f' x) :=
      hf.lift (fun f => app f x) fun _ _ h => h.app (.same x)
    exact hleft.trans (hx.lift (fun x => app f' x) fun _ _ h => .app (.same f') h)

private theorem reaches_of_fires (hsub : R.Sub S) (hrigid : R.MatchesRigid)
    (hagrees : Agrees R S e) (h : Relation.ReflTransGen (Parallel (Fires R e)) t u)
    (hw : Reaches S .none .full t w) : Reaches S .none .full u w := by
  induction h with
  | refl => exact hw
  | tail _ hstep ih =>
    obtain ⟨d, hd⟩ := ih
    exact (passes hsub hrigid hagrees d).full hd hstep

private theorem reaches_of_parallel (hsub : R.Sub S) (hrigid : R.MatchesRigid) (e : Nat)
    (h : Parallel (fun t n => reduce R .none e .full t = some n) t t')
    (hw : Reaches S .none .full t w) : Reaches S .none .full t' w := by
  induction e generalizing t t' w with
  | zero =>
    obtain rfl := h.eq_of_le nofun
    exact hw
  | succ e ih =>
    have hagrees : Agrees R S e := fun hn => ih (.part hn)
    obtain ⟨u, hu, ht'⟩ := exists_of_parallel_reduce h
    exact ih ht' (reaches_of_fires hsub hrigid hagrees hu hw)

/-! ### Chains of steps -/

/-- Rules that `S` has, and that match on postulates and leaves only, were applied in parts of a
term again and again. Whether they match may have been found without the other rules of `S`. -/
def Leads (S : RuleTable) : Term → Term → Prop :=
  Relation.ReflTransGen fun t u =>
    ∃ R e, R.Sub S ∧ R.MatchesRigid ∧ Term.Parallel (Fires R e) t u

namespace Leads

theorem refl (t : Term) : Leads S t t := Relation.ReflTransGen.refl

theorem trans (h : Leads S t u) (h' : Leads S u v) : Leads S t v := Relation.ReflTransGen.trans h h'

theorem of_fires (hsub : R.Sub S) (hrigid : R.MatchesRigid) (h : Fires R e t u) : Leads S t u :=
  .single ⟨R, e, hsub, hrigid, .part h⟩

/-- A term leads to its normal form. -/
theorem of_reaches (hsub : R.Sub S) (hrigid : R.MatchesRigid) (h : Reaches R .none .full t n) :
    Leads S t n := by
  have hparallel : ∀ (e : Nat) {t t' : Term},
      Parallel (fun t n => reduce R .none e .full t = some n) t t' → Leads S t t' := by
    intro e
    induction e with
    | zero =>
      intro t t' h
      obtain rfl := h.eq_of_le nofun
      exact refl t
    | succ e ih =>
      intro t t' h
      obtain ⟨u, hu, ht'⟩ := exists_of_parallel_reduce h
      have hsteps : Leads S t u := hu.lift id fun _ _ hstep => ⟨R, e, hsub, hrigid, hstep⟩
      exact hsteps.trans (ih ht')
  obtain ⟨e, he⟩ := h
  exact hparallel e (.part he)

theorem mono (h : Leads R t u) (hsub : R.Sub S) : Leads S t u := by
  unfold Leads at h
  exact h.lift id fun _ _ ⟨R', e, hsub', hrest⟩ => ⟨R', e, hsub'.trans hsub, hrest⟩

theorem app {f g x y : Term} (hf : Leads S f g) (hx : Leads S x y) :
    Leads S (.app f x) (.app g y) := by
  unfold Leads at hf hx
  have hleft : Leads S (.app f x) (.app g x) := hf.lift (fun f => Term.app f x)
    fun _ _ ⟨R, e, hsub, hrigid, h⟩ => ⟨R, e, hsub, hrigid, h.app (.same x)⟩
  have hright : Leads S (.app g x) (.app g y) := hx.lift (fun x => Term.app g x)
    fun _ _ ⟨R, e, hsub, hrigid, h⟩ => ⟨R, e, hsub, hrigid, .app (.same g) h⟩
  exact hleft.trans hright

/-- What a term leads to has its normal form. -/
theorem reaches (h : Leads S t u) (hw : Reaches S .none .full t w) : Reaches S .none .full u w := by
  induction h with
  | refl => exact hw
  | tail _ hstep ih =>
    obtain ⟨R, e, hsub, hrigid, hstep⟩ := hstep
    have hagrees : Agrees R S e := fun hn => reaches_of_parallel hsub hrigid e (.part hn)
    exact reaches_of_fires hsub hrigid hagrees (.single hstep) ih

end Leads

/-- What is normal under some rules has, under more, the normal form of the term that it came from,
if that has one. So equal terms stay equal when rules are added, as long as both have normal forms.
-/
theorem normalizes_of_sub (hsub : R.Sub S) (hrigid : R.MatchesRigid) :
    (∀ t n w, Normalizes R t n → Normalizes S t w → Normalizes S n w) ∧
      ∀ t u n v w, Normalizes R t n → Normalizes R u n → Normalizes S t v → Normalizes S u w →
        v = w := by
  have hkept : ∀ t n w, Normalizes R t n → Normalizes S t w → Normalizes S n w := by
    intro t n w hn hw
    obtain ⟨e, he⟩ := normalizes_iff.1 hn
    exact normalizes_iff.2 (reaches_of_parallel hsub hrigid e (.part he) (normalizes_iff.1 hw))
  refine ⟨hkept, fun t u n v w ht hu hv hw => ?_⟩
  have hv' := normalizes_iff.1 (hkept t n v ht hv)
  have hw' := normalizes_iff.1 (hkept u n w hu hw)
  exact hv'.unique hw'

/-! ### A number that is defined later -/

/-- The predecessor `d2` under two names, as in `predecessors`, where `d4` is not defined yet. -/
def undefinedNumber : RuleTable where
  rules := ⟨[(2, ⟨.decl 2, 1, [.pull, .destructure (.arg 0) (.postulate 0) 1], .arg 1⟩),
    (3, .lambda (.decl 3) 0 (.decl 2))]⟩

/-- The predecessor of `d4` is stuck until `d4` is defined as two; then its normal form is that of
the term that it came from. -/
theorem normalizes_predecessor_later :
    Normalizes undefinedNumber (.app (.decl 3) (.decl 4)) (.app (.decl 2) (.decl 4)) ∧
    Normalizes predecessors (.app (.decl 2) (.decl 4)) (.app (.postulate 0) (.postulate 1)) := by
  have hsub : undefinedNumber.Sub predecessors :=
    Table.forall_get? (t := undefinedNumber.rules) (by decide)
  have hrigid : undefinedNumber.MatchesRigid :=
    Table.forall_get? (t := undefinedNumber.rules) (by decide)
  have hstuck : Normalizes undefinedNumber (.app (.decl 3) (.decl 4)) (.app (.decl 2) (.decl 4)) :=
    ⟨8, by decide +kernel⟩
  have hlater : Normalizes predecessors (.app (.decl 3) (.decl 4))
      (.app (.postulate 0) (.postulate 1)) := ⟨8, by decide +kernel⟩
  exact ⟨hstuck, (normalizes_of_sub hsub hrigid).1 _ _ _ hstuck hlater⟩

end Reduction
end Elaboration
