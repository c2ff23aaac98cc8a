import Elaboration.Proofs.Reduction.Pass

/-!
# Normal forms are stable

Parts of a term may be replaced by their normal forms before the term is normalised, whatever the
rules are. Rules fire on arguments that are not normalised, so the proof follows the reduction of
the term and carries along which parts were replaced.
-/

namespace Elaboration

open List
namespace Term

/-- A relation that holds of equal terms and passes to applications. -/
structure Compatible (S : Term → Term → Prop) : Prop where
  refl : ∀ t, S t t
  app : ∀ {f g x y}, S f g → S x y → S (app f x) (app g y)

/-- Some parts of a term, none inside another, were exchanged for terms that `S` relates them to. -/
inductive Parallel (S : Term → Term → Prop) : Term → Term → Prop where
  | same (t : Term) : Parallel S t t
  | part {t t' : Term} : S t t' → Parallel S t t'
  | app {f g x y : Term} : Parallel S f g → Parallel S x y → Parallel S (app f x) (app g y)

/-- Two spines of one head, whose arguments are related. -/
def SpineRelated (S : Term → Term → Prop) (t t' : Term) : Prop :=
  t.head = t'.head ∧ List.Forall₂ S t.args t'.args

variable {S : Term → Term → Prop} {t t' : Term} {xs ys caps caps' : List Term}

theorem compatible_parallel (S : Term → Term → Prop) : Compatible (Parallel S) :=
  ⟨.same, .app⟩

namespace Compatible

private theorem flip (hS : Compatible S) : Compatible fun t t' => S t' t := ⟨hS.refl, hS.app⟩

theorem forall₂_refl (hS : Compatible S) (xs : List Term) : Forall₂ S xs xs :=
  forall₂_same.2 fun x _ => hS.refl x

/-- Compatible relations pass to spines. -/
theorem apply (hS : Compatible S) (h : S t t') (hxs : Forall₂ S xs ys) :
    S (t.apply xs) (t'.apply ys) := by
  induction hxs generalizing t t' with
  | nil => exact h
  | cons hx _ ih => exact ih (hS.app h hx)

/-- Related captures may be substituted in a term. -/
theorem subst (hS : Compatible S) (h : Forall₂ S caps caps') (t : Term) :
    S (t.subst caps) (t.subst caps') := by
  induction t with
  | app f x ihf ihx => exact hS.app ihf ihx
  | arg i =>
    unfold Term.subst
    by_cases hi : i < caps.length
    · have hi' : i < caps'.length := h.length_eq ▸ hi
      rw [getElem?_eq_getElem hi, getElem?_eq_getElem hi']
      exact h.get hi hi'
    · have hi' : ¬ i < caps'.length := h.length_eq ▸ hi
      rw [getElem?_eq_none (Nat.le_of_not_lt hi), getElem?_eq_none (Nat.le_of_not_lt hi')]
      exact hS.refl _
  | _ => exact hS.refl _

end Compatible

namespace Parallel

/-- Exchanging parts for themselves changes nothing. -/
theorem eq_of_le (h : Parallel S t t') (hS : ∀ u u', S u u' → u = u') : t = t' := by
  induction h with
  | same t => rfl
  | part h => exact hS _ _ h
  | app _ _ ihf ihx => rw [ihf, ihx]

/-- Either the head stands, or some arguments belong to a part that was exchanged as a whole. -/
theorem spine (h : Parallel S t t') :
    SpineRelated (Parallel S) t t' ∨ ∃ p n xs ys, t = p.apply xs ∧ t' = n.apply ys ∧ S p n ∧
      Forall₂ (Parallel S) xs ys := by
  induction h with
  | same t => exact .inl ⟨rfl, (compatible_parallel S).forall₂_refl _⟩
  | part h => exact .inr ⟨_, _, [], [], rfl, rfl, h, .nil⟩
  | @app f f' x x' _ hx ihf _ =>
    obtain ⟨hhead, hargs⟩ | ⟨p, n, xs, ys, rfl, rfl, hp, hxs⟩ := ihf
    · refine .inl ⟨hhead, ?_⟩
      rw [args_app, args_app]
      exact rel_append hargs (.cons hx .nil)
    · refine .inr ⟨p, n, xs ++ [x], ys ++ [x'], ?_, ?_, hp, rel_append hxs (.cons hx .nil)⟩
      · rw [apply_append]
        rfl
      · rw [apply_append]
        rfl

end Parallel
end Term

open Option Term
namespace Reduction

/-- Normalising the term by the rules alone ends, with `n`. -/
def Normalizes (R : RuleTable) (t n : Term) : Prop :=
  ∃ depth, run? R .none depth .full t = some n

/-- Some parts of the term were replaced by their normal forms. -/
inductive Replaced (R : RuleTable) : Term → Term → Prop where
  | same (t : Term) : Replaced R t t
  | normal {t n : Term} : Normalizes R t n → Replaced R t n
  | app {f f' x x' : Term} : Replaced R f f' → Replaced R x x' → Replaced R (.app f x) (.app f' x')

variable {R : RuleTable} {t t' u v w n p : Term} {xs ys caps caps' args args' : List Term} {d : Nat}
  {h : Replacer}

theorem normalizes_iff : Normalizes R t n ↔ Reaches R .none .full t n := reaches_iff_run?.symm

private theorem replaced_iff : Replaced R t t' ↔ Parallel (Normalizes R) t t' := by
  constructor
  · intro h
    induction h with
    | same t => exact .same t
    | normal h => exact .part h
    | app _ _ ihf ihx => exact ihf.app ihx
  · intro h
    induction h with
    | same t => exact .same t
    | part h => exact .normal h
    | app _ _ ihf ihx => exact ihf.app ihx

theorem compatible_replaced (R : RuleTable) : Compatible (Replaced R) := ⟨.same, .app⟩

private theorem Replaced.spine (h : Replaced R t t') :
    SpineRelated (Replaced R) t t' ∨ ∃ p n xs ys, t = p.apply xs ∧ t' = n.apply ys ∧
      Normalizes R p n ∧ Forall₂ (Replaced R) xs ys := by
  have hreplaced : Replaced R = Parallel (Normalizes R) :=
    funext fun _ => funext fun _ => propext replaced_iff
  rw [hreplaced] at h ⊢
  exact h.spine

/-! ### Reduction taken apart -/

private theorem mapM_eq_some_iff {f : Term → Option Term} :
    xs.mapM f = some ys ↔ Forall₂ (fun x y => f x = some y) xs ys := by
  induction xs generalizing ys with
  | nil => cases ys <;> simp
  | cons x xs ih =>
    rw [mapM_cons, forall₂_cons_left_iff]
    simp only [Option.bind_eq_bind, Option.bind_eq_some_iff, Option.pure_def, Option.some.injEq, ih]
    constructor
    · rintro ⟨y, hy, zs, hzs, rfl⟩
      exact ⟨y, zs, hy, hzs, rfl⟩
    · rintro ⟨y, zs, hy, hzs, rfl⟩
      exact ⟨y, hy, zs, hzs, rfl⟩

/-- Terms that reduction answers for one by one are reduced in one run. -/
theorem runAll?_of_forall₂ {mode : Mode} {ts us : List Term}
    (hus : Forall₂ (fun t u => reduce R h d mode t = some u) ts us) :
    runAll? R h d mode ts = some us := by
  have hsimulated := (recalls (Reaches R h)).mapM fun t (_ : t ∈ ts) => recalls_reduce d mode t
  obtain ⟨memo, hmemo, _⟩ := (hsimulated us (mapM_eq_some_iff.2 hus)).2 .empty valid_empty
  rw [runAll?, hmemo]
  rfl

/-- A normal form is a weak one with normal arguments. -/
theorem reduce_full_succ : reduce R .none (d + 1) .full t = some n ↔
    ∃ w args, reduce R .none d .weak t = some w ∧
      Forall₂ (fun x y => reduce R .none d .full x = some y) w.args args ∧
      n = w.head.apply args := by
  have hnone : ∀ t, Replacer.none.change? t = none := fun _ => rfl
  rw [reduce, pass]
  · simp only [hnone, ite_self, Option.bind_eq_bind, Option.bind_eq_some_iff, Option.pure_def,
      Option.some.injEq, mapM_eq_some_iff]
    constructor
    · rintro ⟨w, hw, args, hargs, rfl⟩
      exact ⟨w, args, hw, hargs, rfl⟩
    · rintro ⟨w, args, hw, hargs, rfl⟩
      exact ⟨w, hw, args, hargs, rfl⟩
  · exact nofun

/-- With a replacer, the head of the weak normal form is replaced, or its arguments are normalised
and the result may be replaced. -/
theorem reduce_full_cases (hn : reduce R h (d + 1) .full t = some n) :
    ∃ w, reduce R h d .weak t = some w ∧
      ((∃ g, h.change? w.head = some g ∧ reduce R h d .full (g.apply w.args) = some n) ∨
        h.change? w.head = none ∧ ∃ args,
          Forall₂ (fun x y => reduce R h d .full x = some y) w.args args ∧
          ((∃ u, args ≠ [] ∧ h.change? (w.head.apply args) = some u ∧
              reduce R h d .full u = some n) ∨
            h.change? (w.head.apply args) = none ∧ n = w.head.apply args)) := by
  rw [reduce, pass] at hn
  · obtain ⟨w, hw, hn⟩ := bind_eq_some_iff.1 hn
    refine ⟨w, hw, ?_⟩
    split at hn
    · next g hg =>
      split at hg
      · cases hg
      · exact .inl ⟨g, hg, hn⟩
    · next hg =>
      obtain ⟨args, hargs, hn⟩ := bind_eq_some_iff.1 hn
      rw [mapM_eq_some_iff] at hargs
      simp only [if_true] at hn
      by_cases hempty : args = []
      · subst hempty
        have hnone : w.args = [] := forall₂_nil_right_iff.1 hargs
        cases hchange : h.change? w.head with
        | none => exact .inr ⟨rfl, [], hargs, .inr ⟨hchange, by simpa [hchange] using hn.symm⟩⟩
        | some u => exact .inl ⟨u, rfl, by simpa [hchange, hnone] using hn⟩
      · have hargs' : w.args ≠ [] := fun hnone =>
          hempty (forall₂_nil_left_iff.1 (hnone ▸ hargs))
        refine .inr ⟨by simpa [hargs'] using hg, args, hargs, ?_⟩
        cases hchange : h.change? (w.head.apply args) with
        | none => exact .inr ⟨rfl, by simpa [hchange] using hn.symm⟩
        | some u => exact .inl ⟨u, hempty, rfl, by simpa [hchange] using hn⟩
  · exact nofun

/-- The head of the weak normal form is replaced. -/
theorem reduce_full_of_head {g : Term} (hw : reduce R h d .weak t = some w)
    (hg : h.change? w.head = some g) (hn : reduce R h d .full (g.apply w.args) = some n) :
    reduce R h (d + 1) .full t = some n := by
  rw [reduce, pass]
  · refine bind_eq_some_iff.2 ⟨w, hw, ?_⟩
    by_cases hargs : w.args = []
    · have hhead : w.head = w := by simpa [hargs] using w.apply_head_args
      rw [hhead] at hg
      simpa [hargs, hhead, hg] using hn
    · simpa [hargs, hg] using hn
  · exact nofun

/-- Neither the head of the weak normal form nor the term that is put together is replaced. -/
theorem reduce_full_of_args (hw : reduce R h d .weak t = some w) (hhead : h.change? w.head = none)
    (hargs : Forall₂ (fun x y => reduce R h d .full x = some y) w.args args)
    (hn : h.change? (w.head.apply args) = none) :
    reduce R h (d + 1) .full t = some (w.head.apply args) := by
  rw [reduce, pass]
  · refine bind_eq_some_iff.2 ⟨w, hw, ?_⟩
    simp only [hhead, ite_self]
    refine bind_eq_some_iff.2 ⟨args, mapM_eq_some_iff.2 hargs, ?_⟩
    simp [hn]
  · exact nofun

/-- A weak normal form is the term itself or one of what a rule makes of it. -/
theorem reduce_weak_succ : reduce R h (d + 1) .weak t = some w ↔
    headStep R (reduce R h d .full) t = some none ∧ w = t ∨
      ∃ v, headStep R (reduce R h d .full) t = some (some v) ∧ reduce R h d .weak v = some w := by
  rw [reduce, pass, bind_eq_bind, bind_eq_some_iff]
  constructor
  · rintro ⟨out, hout, hw⟩
    cases out with
    | none => exact .inl ⟨hout, (some.inj hw).symm⟩
    | some v => exact .inr ⟨v, hout, hw⟩
  · rintro (⟨hout, rfl⟩ | ⟨v, hout, hw⟩)
    · exact ⟨none, hout, rfl⟩
    · exact ⟨some v, hout, hw⟩

/-! ### More arguments -/

variable {f : Term → Option Term} {steps : List Rule.Step} {rest : List Term}

private theorem runSteps_append (h : runSteps f steps caps args = some (some (caps', rest)))
    (ys : List Term) : runSteps f steps caps (args ++ ys) = some (some (caps', rest ++ ys)) := by
  induction steps generalizing caps args with
  | nil =>
    cases h
    rfl
  | cons step steps ih =>
    cases step with
    | pull =>
      cases args with
      | nil => cases h
      | cons x args => exact ih h
    | destructure subject head count =>
      obtain ⟨value, hvalue, h⟩ := bind_eq_some_iff.1 h
      refine bind_eq_some_iff.2 ⟨value, hvalue, ?_⟩
      split at h
      · next hmatch => exact (if_pos hmatch).trans (ih h)
      · cases h

/-- The rule of a head that is applied to enough arguments for it. -/
def applicable? (R : RuleTable) (head : Term) (count : Nat) : Option Rule :=
  (head.declId?.bind R.ruleFor?).filter fun r => r.arity ≤ count

theorem headStep_eq (f : Term → Option Term) (t : Term) : headStep R f t =
    match applicable? R t.head t.args.length with
    | none => some none
    | some r => fire f r t.args := by
  unfold headStep applicable?
  cases t.head.declId? with
  | none => rfl
  | some id =>
    dsimp only [bind_some]
    cases R.ruleFor? id with
    | none => rfl
    | some r =>
      by_cases hlen : t.args.length < r.arity
      · simp [Option.filter, hlen, Nat.not_le.2 hlen]
      · simp [Option.filter, hlen, Nat.not_lt.1 hlen]

theorem applicable?_mono {R' : RuleTable} {r : Rule} {head : Term} {count count' : Nat}
    (hsub : R.Sub R') (hle : count ≤ count') (h : applicable? R head count = some r) :
    applicable? R' head count' = some r := by
  unfold applicable? at h ⊢
  rw [filter_eq_some_iff] at h ⊢
  simp only [decide_eq_true_eq] at h ⊢
  obtain ⟨id, hid, hr⟩ := bind_eq_some_iff.1 h.1
  exact ⟨bind_eq_some_iff.2 ⟨id, hid, hsub id r hr⟩, Nat.le_trans h.2 hle⟩

private theorem headStep_apply (h : headStep R f p = some (some v)) (ys : List Term) :
    headStep R f (p.apply ys) = some (some (v.apply ys)) := by
  rw [headStep_eq] at h ⊢
  rw [head_apply, args_apply]
  split at h
  · cases h
  · next r hr =>
    have hlen : p.args.length ≤ (p.args ++ ys).length := by simp
    have hmore := applicable?_mono (.refl R) hlen hr
    obtain ⟨out, hout, h⟩ := bind_eq_some_iff.1 h
    cases out with
    | none => cases h
    | some out =>
      cases h
      rw [hmore, ← apply_append]
      exact bind_eq_some_iff.2 ⟨_, runSteps_append hout ys, rfl⟩

private theorem reduce_weak_apply {e : Nat} (hp : reduce R .none e .weak p = some u)
    (hw : reduce R .none d .weak (p.apply ys) = some w) :
    reduce R .none d .weak (u.apply ys) = some w := by
  induction e generalizing p d with
  | zero => cases hp
  | succ e ih =>
    obtain ⟨_, rfl⟩ | ⟨v, hv, hp⟩ := reduce_weak_succ.1 hp
    · exact hw
    · cases d with
      | zero => cases hw
      | succ d =>
        -- both depths see the same rule fire
        have hdeep : ∀ {a b : Nat}, a ≤ b → ∀ {out},
            headStep R (reduce R .none a .full) (p.apply ys) = some out →
            headStep R (reduce R .none b .full) (p.apply ys) = some out :=
          fun hle _ => headStep_mono fun _ _ => reduce_mono hle
        have hsame := hdeep (Nat.le_max_left e d) (headStep_apply hv ys)
        obtain ⟨hstuck, _⟩ | ⟨v', hv', hw⟩ := reduce_weak_succ.1 hw
        · cases hsame.symm.trans (hdeep (Nat.le_max_right e d) hstuck)
        · cases hsame.symm.trans (hdeep (Nat.le_max_right e d) hv')
          exact reduce_mono (Nat.le_succ d) (ih hp hw)

private theorem reaches_weak_apply {e : Nat} (hp : reduce R .none e .weak p = some u)
    (hw : Reaches R .none .weak (u.apply ys) w) : Reaches R .none .weak (p.apply ys) w := by
  induction e generalizing p with
  | zero => cases hp
  | succ e ih =>
    obtain ⟨_, rfl⟩ | ⟨v, hv, hp⟩ := reduce_weak_succ.1 hp
    · exact hw
    · obtain ⟨d, hd⟩ := ih hp
      refine ⟨max e d + 1, reduce_weak_succ.2 (.inr ⟨v.apply ys, ?_, ?_⟩)⟩
      · exact headStep_mono (fun _ _ => reduce_mono (Nat.le_max_left ..)) (headStep_apply hv ys)
      · exact reduce_mono (Nat.le_max_right ..) hd

/-! ### Reduction of related terms -/

section Related

variable {S : Term → Term → Prop} (hS : Compatible S)
  (hfull : ∀ {t t' n}, reduce R .none d .full t = some n → S t t' → Reaches R .none .full t' n)

include hS hfull

private theorem runSteps_related (hcaps : Forall₂ S caps caps') (hargs : Forall₂ S args args')
    {out : Option (List Term × List Term)}
    (h : runSteps (reduce R .none d .full) steps caps args = some out) :
    ∃ d' out', runSteps (reduce R .none d' .full) steps caps' args' = some out' ∧
      Rel (fun a b => Forall₂ S a.1 b.1 ∧ Forall₂ S a.2 b.2) out out' := by
  induction steps generalizing caps caps' args args' with
  | nil =>
    cases h
    exact ⟨0, _, rfl, .some ⟨hcaps, hargs⟩⟩
  | cons step steps ih =>
    cases step with
    | pull =>
      cases hargs with
      | nil =>
        cases h
        exact ⟨0, _, rfl, .none⟩
      | cons hx hargs => exact ih (rel_append hcaps (.cons hx .nil)) hargs h
    | destructure subject head count =>
      obtain ⟨value, hvalue, h⟩ := bind_eq_some_iff.1 h
      obtain ⟨d1, hd1⟩ := hfull hvalue (hS.subst hcaps subject)
      split at h
      · next hmatch =>
        have hvalues : Forall₂ S (caps ++ value.args) (caps' ++ value.args) :=
          rel_append hcaps (hS.forall₂_refl _)
        obtain ⟨d2, out', hout', hrel⟩ := ih hvalues hargs h
        refine ⟨max d1 d2, out', bind_eq_some_iff.2 ⟨value, ?_, ?_⟩, hrel⟩
        · exact reduce_mono (Nat.le_max_left ..) hd1
        · rw [if_pos hmatch]
          exact runSteps_mono (fun _ _ => reduce_mono (Nat.le_max_right ..)) hout'
      · next hmatch =>
        cases h
        exact ⟨d1, _, bind_eq_some_iff.2 ⟨value, hd1, if_neg hmatch⟩, .none⟩

private theorem headStep_related (ht : SpineRelated S t t') {out : Option Term}
    (h : headStep R (reduce R .none d .full) t = some out) :
    ∃ d' out', headStep R (reduce R .none d' .full) t' = some out' ∧ Rel S out out' := by
  obtain ⟨hhead, hargs⟩ := ht
  simp only [headStep_eq, ← hhead, ← hargs.length_eq] at h ⊢
  split at h
  · cases h
    exact ⟨0, _, rfl, .none⟩
  · next r hr =>
    obtain ⟨out, hout, h⟩ := bind_eq_some_iff.1 h
    obtain ⟨d', out', hout', hrel⟩ := runSteps_related hS hfull .nil hargs hout
    cases hrel with
    | none =>
      cases h
      exact ⟨d', _, bind_eq_some_iff.2 ⟨_, hout', rfl⟩, .none⟩
    | some hrel =>
      cases h
      exact ⟨d', _, bind_eq_some_iff.2 ⟨_, hout', rfl⟩,
        .some (hS.apply (hS.subst hrel.1 r.replacement) hrel.2)⟩

end Related

/-- Arguments in a relation that keeps normal forms have the same normal forms. -/
theorem forall₂_reaches {T : Term → Term → Prop}
    (hT : ∀ {x y n}, reduce R .none d .full x = some n → T x y → Reaches R .none .full y n)
    (h : Forall₂ T xs ys) (hargs : Forall₂ (fun x y => reduce R .none d .full x = some y) xs args) :
    Forall₂ (Reaches R .none .full) ys args := by
  induction h generalizing args with
  | nil =>
    cases hargs
    exact .nil
  | cons hxy _ ih =>
    cases hargs with
    | cons hx hargs => exact .cons (hT hx hxy) (ih hargs)

/-- A normal form is found by way of a weak one. -/
theorem reaches_full_of_weak (hw : Reaches R .none .weak t w)
    (hargs : Forall₂ (Reaches R .none .full) w.args args) :
    Reaches R .none .full t (w.head.apply args) := by
  obtain ⟨d1, hw⟩ := hw
  obtain ⟨d2, hargs⟩ := Reaches.forall₂ hargs
  refine ⟨max d1 d2 + 1, reduce_full_succ.2 ⟨w, args, ?_, hargs.imp fun x y hxy => ?_, rfl⟩⟩
  · exact reduce_mono (Nat.le_max_left ..) hw
  · exact reduce_mono (Nat.le_max_right ..) hxy

/-- What is found of a term at this depth is found of related terms too, the arguments of weak
normal forms being related by `Q`. -/
structure Follows (R : RuleTable) (S Q : Term → Term → Prop) (d : Nat) : Prop where
  weak {t t' w : Term} : reduce R .none d .weak t = some w → S t t' →
    ∃ w', Reaches R .none .weak t' w' ∧ Term.SpineRelated Q w w'
  full {t t' n : Term} : reduce R .none d .full t = some n → S t t' → Reaches R .none .full t' n

/-- Related terms come to spines with one head and related arguments, the first without losing its
weak normal form, the second without gaining one. -/
def Exposes (R : RuleTable) (S : Term → Term → Prop) : Prop :=
  ∀ {t t'}, S t t' → ∃ u u', Term.SpineRelated S u u' ∧
    (∀ {d w}, reduce R .none d .weak t = some w → reduce R .none d .weak u = some w) ∧
    ∀ {w}, Reaches R .none .weak u' w → Reaches R .none .weak t' w

section Follows

variable {S : Term → Term → Prop} (hS : Compatible S)

include hS

/-- The head stands: the same is done on both sides. -/
theorem Follows.weak_succ_of_spine {Q : Term → Term → Prop} (hQ : ∀ x y, S x y → Q x y)
    (hd : Follows R S Q d) (ht : SpineRelated S t t')
    (hw : reduce R .none (d + 1) .weak t = some w) :
    ∃ w', Reaches R .none .weak t' w' ∧ SpineRelated Q w w' := by
  obtain ⟨hstuck, rfl⟩ | ⟨v, hv, hw⟩ := reduce_weak_succ.1 hw
  · obtain ⟨d', out', hout', hrel⟩ := headStep_related hS hd.full ht hstuck
    cases hrel
    exact ⟨t', ⟨d' + 1, reduce_weak_succ.2 (.inl ⟨hout', rfl⟩)⟩, ht.1, ht.2.imp hQ⟩
  · obtain ⟨d', out', hout', hrel⟩ := headStep_related hS hd.full ht hv
    cases hrel with
    | some hvv =>
      obtain ⟨w', ⟨e, he⟩, hww⟩ := hd.weak hw hvv
      have hshown := reduce_mono (Nat.le_max_right d' e) he
      refine ⟨w', ⟨max d' e + 1, reduce_weak_succ.2 (.inr ⟨_, ?_, hshown⟩)⟩, hww⟩
      · exact headStep_mono (fun _ _ => reduce_mono (Nat.le_max_left ..)) hout'

private theorem Follows.succ (hexposes : Exposes R S) (hd : Follows R S S d) :
    Follows R S S (d + 1) where
  weak {t t' w} hw ht := by
    obtain ⟨u, u', hu, hlost, hgained⟩ := hexposes ht
    obtain ⟨w', hw', hww⟩ := hd.weak_succ_of_spine hS (fun _ _ h => h) hu (hlost hw)
    exact ⟨w', hgained hw', hww⟩
  full {t t' n} hn ht := by
    obtain ⟨w, args, hw, hargs, rfl⟩ := reduce_full_succ.1 hn
    obtain ⟨w', hw', hhead, hww⟩ := hd.weak hw ht
    rw [hhead]
    exact reaches_full_of_weak hw' (forall₂_reaches hd.full hww hargs)

private theorem follows (hexposes : Exposes R S) (d : Nat) : Follows R S S d := by
  induction d with
  | zero => exact ⟨nofun, nofun⟩
  | succ d ih => exact ih.succ hS hexposes

end Follows

/-! ### Reduction after a replacement -/

private theorem spineRelated_replaced (h : Replaced R t t') :
    SpineRelated (Replaced R) t t' ∨ ∃ e p u xs, t = p.apply xs ∧
      reduce R .none e .weak p = some u ∧ SpineRelated (Replaced R) (u.apply xs) t' := by
  obtain ht | ⟨p, n, xs, ys, rfl, rfl, hp, hxs⟩ := h.spine
  · exact .inl ht
  · obtain ⟨e, he⟩ := normalizes_iff.1 hp
    cases e with
    | zero => cases he
    | succ e =>
      obtain ⟨u, args, hu, hargs, rfl⟩ := reduce_full_succ.1 he
      refine .inr ⟨e, p, u, xs, rfl, hu, by simp, ?_⟩
      rw [args_apply, args_apply, args_apply, args_head, nil_append]
      refine rel_append (hargs.imp fun x y hxy => ?_) hxs
      exact .normal (normalizes_iff.2 ⟨e, hxy⟩)

private theorem stable (R : RuleTable) (d : Nat) : Follows R (Replaced R) (Replaced R) d := by
  refine follows (compatible_replaced R) (fun {t t'} h => ?_) d
  obtain ht | ⟨e, p, u, xs, rfl, hu, ht⟩ := spineRelated_replaced h
  · exact ⟨t, t', ht, fun hw => hw, fun hw => hw⟩
  · exact ⟨u.apply xs, t', ht, reduce_weak_apply hu, fun hw => hw⟩

/-- Nothing is gained by a replacement: what is found after it is found without it. -/
theorem stable_flip (R : RuleTable) (d : Nat) :
    Follows R (fun t t' => Replaced R t' t) (fun t t' => Replaced R t' t) d := by
  refine follows (compatible_replaced R).flip (fun {t t'} h => ?_) d
  obtain ht | ⟨e, p, u, xs, rfl, hu, ht⟩ := spineRelated_replaced h
  · exact ⟨t, t', ⟨ht.1.symm, ht.2.flip⟩, fun hw => hw, fun hw => hw⟩
  · exact ⟨t, u.apply xs, ⟨ht.1.symm, ht.2.flip⟩, fun hw => hw, reaches_weak_apply hu⟩

/-- The normal form of a term is found after parts of the term were replaced by their normal forms,
and is its own normal form. -/
theorem normalizes_of_replaced (h : Normalizes R t n) :
    (∀ t', Replaced R t t' → Normalizes R t' n) ∧ Normalizes R n n := by
  have hall : ∀ t', Replaced R t t' → Normalizes R t' n := by
    obtain ⟨d, hd⟩ := normalizes_iff.1 h
    exact fun t' ht => normalizes_iff.2 ((stable R d).full hd ht)
  exact ⟨hall, hall n (.normal h)⟩

/-! ### A predecessor under another name -/

/-- `0` and `1` stand for a successor and a zero. The predecessor `d2` matches on its argument, `d3`
is the predecessor and `d4` is two. -/
def predecessors : RuleTable where
  rules := ⟨[(2, ⟨.decl 2, 1, [.pull, .destructure (.arg 0) (.postulate 0) 1], .arg 1⟩),
    (3, .lambda (.decl 3) 0 (.decl 2)),
    (4, .lambda (.decl 4) 0 (.app (.postulate 0) (.app (.postulate 0) (.postulate 1))))]⟩

/-- Both the head and the argument of a predecessor may be replaced first, after which its rule
matches on another term. -/
theorem normalizes_predecessor :
    Normalizes predecessors (.app (.decl 3) (.decl 4)) (.app (.postulate 0) (.postulate 1)) ∧
    Normalizes predecessors
      (.app (.decl 2) (.app (.postulate 0) (.app (.postulate 0) (.postulate 1))))
      (.app (.postulate 0) (.postulate 1)) := by
  have hterm : Normalizes predecessors (.app (.decl 3) (.decl 4))
      (.app (.postulate 0) (.postulate 1)) := ⟨8, by decide +kernel⟩
  have hhead : Normalizes predecessors (.decl 3) (.decl 2) := ⟨8, by decide +kernel⟩
  have harg : Normalizes predecessors (.decl 4)
      (.app (.postulate 0) (.app (.postulate 0) (.postulate 1))) := ⟨8, by decide +kernel⟩
  exact ⟨hterm, (normalizes_of_replaced hterm).1 _ (.app (.normal hhead) (.normal harg))⟩

end Reduction

namespace Reduction

variable {R : RuleTable} {t t' u n m head body : Term} {xs ns : List Term} {id : Nat}

/-- Normal forms are unique. -/
theorem Normalizes.unique (h : Normalizes R t n) (h' : Normalizes R t m) : n = m :=
  (normalizes_iff.1 h).unique (normalizes_iff.1 h')

/-- From some depth on, the normal form is found. -/
theorem Normalizes.eventually (h : Normalizes R t n) :
    ∃ bound, ∀ depth ≥ bound, run? R .none depth .full t = some n := by
  obtain ⟨bound, hn⟩ := normalizes_iff.1 h
  refine ⟨bound, fun depth hdepth => ?_⟩
  obtain ⟨memo, hmemo, _⟩ :=
    (recalls_reduce depth .full t n (reduce_mono hdepth hn)).2 .empty valid_empty
  rw [run?, hmemo]
  rfl

private theorem Normalizes.replaced (h : Normalizes R t n) (ht : Replaced R t t') :
    Normalizes R t' n := by
  obtain ⟨d, hd⟩ := normalizes_iff.1 h
  exact normalizes_iff.2 ((stable R d).full hd ht)

/-- The head of an application may be normalised first. -/
theorem Normalizes.app_left {x : Term} (h : Normalizes R (.app t x) n) (ht : Normalizes R t u) :
    Normalizes R (.app u x) n :=
  h.replaced (.app (.normal ht) (.same x))

theorem exists_normalizes (h : ∀ x ∈ xs, ∃ n, Normalizes R x n) :
    ∃ ns, Forall₂ (Normalizes R) xs ns := by
  induction xs with
  | nil => exact ⟨[], .nil⟩
  | cons x xs ih =>
    rw [forall_mem_cons] at h
    obtain ⟨n, hn⟩ := h.1
    obtain ⟨ns, hns⟩ := ih h.2
    exact ⟨n :: ns, .cons hn hns⟩

/-! ### Heads that stand -/

/-- An atom without a rule for its arguments is normalised argument by argument. -/
theorem normalizes_of_applicable? {a : Term} (ha : a.head = a)
    (h : applicable? R a xs.length = none) (hxs : Forall₂ (Normalizes R) xs ns) :
    Normalizes R (a.apply xs) (a.apply ns) := by
  have hhead : (a.apply xs).head = a := (head_apply ..).trans ha
  have hargs : (a.apply xs).args = xs := by
    rw [args_apply, ← ha, args_head, nil_append]
  have hstuck : reduce R .none 1 .weak (a.apply xs) = some (a.apply xs) :=
    reduce_weak_succ.2 (.inl ⟨by rw [headStep_eq, hhead, hargs, h], rfl⟩)
  have hnormal : Forall₂ (Reaches R .none .full) (a.apply xs).args ns := by
    rw [hargs]
    exact hxs.imp fun _ _ => normalizes_iff.1
  have hfull := reaches_full_of_weak ⟨1, hstuck⟩ hnormal
  rw [hhead] at hfull
  exact normalizes_iff.2 hfull

/-- Arguments are normal. -/
theorem normalizes_arg (R : RuleTable) (i : Nat) : Normalizes R (.arg i) (.arg i) :=
  normalizes_of_applicable? (a := .arg i) rfl rfl .nil

/-- A postulate is normal, applied to normal arguments. -/
theorem normalizes_postulate (h : Forall₂ (Normalizes R) xs ns) :
    Normalizes R ((postulate id).apply xs) ((postulate id).apply ns) :=
  normalizes_of_applicable? rfl rfl h

/-- A declaration with too few arguments for its rule is normalised argument by argument. -/
theorem normalizes_partial {r : Rule} (hr : R.ruleFor? id = some r) (hlen : xs.length < r.arity)
    (h : Forall₂ (Normalizes R) xs ns) :
    Normalizes R ((decl id).apply xs) ((decl id).apply ns) := by
  refine normalizes_of_applicable? rfl ?_ h
  change Option.filter _ (R.ruleFor? id) = none
  simp [hr, Option.filter, hlen]

/-! ### Rules without matches -/

private theorem runSteps_pull (f : Term → Option Term) (caps xs : List Term) :
    runSteps f (replicate xs.length .pull) caps xs = some (some (caps ++ xs, [])) := by
  induction xs generalizing caps with
  | nil => simp [runSteps]
  | cons x xs ih =>
    change runSteps f (replicate xs.length .pull) (caps ++ [x]) xs = _
    rw [ih, append_assoc, singleton_append]

/-- A definition unfolds at once. -/
theorem headStep_lambda (hr : R.ruleFor? id = some (.lambda head xs.length body))
    (f : Term → Option Term) :
    headStep R f ((decl id).apply xs) = some (some (body.subst xs)) := by
  unfold headStep fire
  simp [declId?, Term.head, hr, Rule.lambda, runSteps_pull]

private theorem exists_headStep_eq_none {h : Replacer} {d : Nat} {w : Term}
    (hw : reduce R h d .weak t = some w) : ∃ f, headStep R f w = some none := by
  induction d generalizing t with
  | zero => cases hw
  | succ d ih =>
    obtain ⟨hstuck, rfl⟩ | ⟨v, _, hv⟩ := reduce_weak_succ.1 hw
    · exact ⟨_, hstuck⟩
    · exact ih hv

/-- A rule without matches applies wherever it has its arguments, so a normal form that its head
heads has too few. -/
theorem isLambdaLike_of_run? {depth arity : Nat}
    (hr : R.ruleFor? id = some (.lambda head arity body))
    (hn : run? R .none depth .full t = some n) (hhead : n.head = .decl id) : R.isLambdaLike n := by
  obtain ⟨d, hd⟩ := normalizes_iff.1 ⟨depth, hn⟩
  cases d with
  | zero => cases hd
  | succ d =>
    obtain ⟨w, args, hw, hargs, rfl⟩ := reduce_full_succ.1 hd
    have hw' : w.head = .decl id := by simpa using hhead
    obtain ⟨f, hf⟩ := exists_headStep_eq_none hw
    by_contra hlambda
    have hlen : arity ≤ w.args.length := by
      simpa [RuleTable.isLambdaLike, hw', Term.head, declId?, hr, Rule.lambda, hargs.length_eq]
        using hlambda
    -- the rule takes its share of the arguments, and the others do not matter
    have hw'' : w = ((decl id).apply (w.args.take arity)).apply (w.args.drop arity) := by
      rw [← apply_append, take_append_drop, ← hw', apply_head_args]
    have hr' : R.ruleFor? id = some (.lambda head (w.args.take arity).length body) := by
      rw [hr, length_take, Nat.min_eq_left hlen]
    rw [hw'', headStep_apply (headStep_lambda hr' f)] at hf
    cases hf

/-- A declaration with exactly the arguments for its rule has the normal form of the replacement. -/
theorem normalizes_lambda (hr : R.ruleFor? id = some (.lambda head xs.length body))
    (h : Normalizes R (body.subst xs) n) : Normalizes R ((decl id).apply xs) n := by
  obtain ⟨d, hd⟩ := normalizes_iff.1 h
  cases d with
  | zero => cases hd
  | succ d =>
    obtain ⟨w, args, hw, hargs, rfl⟩ := reduce_full_succ.1 hd
    have hweak : reduce R .none (d + 1) .weak ((decl id).apply xs) = some w :=
      reduce_weak_succ.2 (.inr ⟨_, headStep_lambda hr _, hw⟩)
    exact normalizes_iff.2 (reaches_full_of_weak ⟨d + 1, hweak⟩ (hargs.imp fun _ _ hxy => ⟨d, hxy⟩))

end Reduction
end Elaboration
