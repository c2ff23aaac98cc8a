import Elaboration.Proofs.Equalities.Sound
import Elaboration.Proofs.Reduction.Extension

/-!
# Bare local equalities as rules

A context whose members are arguments and declarations without rules does what rules would do. Terms
are coded so that arguments, declarations and placeholders become declarations of three kinds; then
reduction in the context is reduction by a larger table.
-/

namespace Elaboration

open List Option Rule Table Term

namespace Term

/-- The term with a declaration of its own for every argument but the first `n`, for every
declaration and for every placeholder. -/
def coded (n : Nat) : Term → Term
  | app f x => app (f.coded n) (x.coded n)
  | arg i => if i < n then arg i else decl (3 * i)
  | decl id => decl (3 * id + 1)
  | placeholder i => decl (3 * i + 2)
  | t => t

/-- The code of a term that refers to no captures. -/
abbrev code (t : Term) : Term := t.coded 0

private theorem code_apply (t : Term) (xs : List Term) :
    (t.apply xs).code = t.code.apply (xs.map code) := by
  induction xs generalizing t with
  | nil => rfl
  | cons x xs ih => exact ih (app t x)

@[simp] private theorem head_code (t : Term) : t.code.head = t.head.code := by
  induction t with
  | app f x ihf _ => exact ihf
  | _ => rfl

@[simp] private theorem args_code (t : Term) : t.code.args = t.args.map code := by
  induction t with
  | app f x ihf _ => simp [coded, ihf]
  | _ => rfl

/-- Different terms have different codes. -/
theorem code_injective : Function.Injective code := by
  intro t
  induction t with
  | app f x ihf ihx =>
    intro u h
    cases u with
    | app g y =>
      obtain ⟨hf, hx⟩ := app.inj h
      rw [ihf hf, ihx hx]
    | _ => cases h
  | _ =>
    intro u h
    cases u <;> simp [code, coded] at h ⊢ <;> omega

@[simp] private theorem isRigid_code (t : Term) : t.code.isRigid = t.isRigid := by
  unfold isRigid
  rw [head_code]
  cases t.head <;> rfl

private theorem code_subst (t : Term) (xs : List Term) :
    (t.subst xs).code = (t.coded xs.length).subst (xs.map code) := by
  induction t with
  | app f x ihf ihx => simp only [subst_app, coded, ihf, ihx]
  | arg i =>
    by_cases hi : i < xs.length
    · simp [subst, coded, hi]
    · simp [subst, coded, hi]
  | _ => rfl

end Term

namespace Rule

/-- The code of match steps that run after `n` captures. -/
def codedSteps : Nat → List Step → List Step
  | _, [] => []
  | n, .pull :: steps => .pull :: codedSteps (n + 1) steps
  | n, .destructure subject head count :: steps =>
    .destructure (subject.coded n) head.code count :: codedSteps (n + count) steps

/-- The code of a rule, in which captures stay what they are. -/
def coded (r : Rule) : Rule :=
  ⟨r.head.code, r.arity, codedSteps 0 r.steps, r.replacement.coded r.captureCount⟩

private theorem matchesRigid_codedSteps {steps : List Step} (h : ∀ s ∈ steps, s.matchesRigid)
    (n : Nat) :
    ∀ s ∈ codedSteps n steps, s.matchesRigid := by
  induction steps generalizing n with
  | nil => exact forall_mem_nil _
  | cons step steps ih =>
    rw [forall_mem_cons] at h
    cases step with
    | pull => exact forall_mem_cons.2 ⟨rfl, ih h.2 _⟩
    | destructure subject head count =>
      exact forall_mem_cons.2 ⟨(isRigid_code head).trans h.1, ih h.2 _⟩

/-- The rule by which one term without arguments is another. -/
def equation (a t : Term) : Rule := .lambda a.code 0 t.code

end Rule

namespace RuleTable

/-- The rules of some declarations. -/
def ofKeys (rule? : Nat → Option Rule) (keys : List Nat) : RuleTable where
  rules := keys.foldl (fun t id => (rule? id).elim t fun r => t.set id r) .empty

private theorem ruleFor?_ofKeys {rule? : Nat → Option Rule} {keys : List Nat}
    (h : ∀ id r, rule? id = some r → id ∈ keys) (id : Nat) :
    (ofKeys rule? keys).ruleFor? id = rule? id := by
  have hfold : ∀ (keys : List Nat) (t : Table Rule),
      (keys.foldl (fun t id => (rule? id).elim t fun r => t.set id r) t).get? id =
        if id ∈ keys ∧ (rule? id).isSome then rule? id else t.get? id := by
    intro keys
    induction keys with
    | nil => simp
    | cons k keys ih =>
      intro t
      rw [foldl_cons, ih]
      by_cases hk : k = id
      · subst hk
        cases hr : rule? k with
        | none => simp
        | some r => simp [get?_set]
      · cases hr : rule? k with
        | none => simp [Ne.symm hk]
        | some r => simp [get?_set, hk, Ne.symm hk]
  refine (hfold keys .empty).trans ?_
  cases hr : rule? id with
  | none => simp
  | some r => simp [h id r hr]

end RuleTable

namespace Equalities

open Reduction

variable {R S : RuleTable} {q : Equalities} {t u n a g : Term} {c d : Nat}

/-- What an atom unfolds to, by its rule or by its class. -/
def unfolding? (R : RuleTable) (q : Equalities) : Term → Option Rule
  | .arg i => (q.member? (.arg i)).map fun c => .equation (.arg i) (.placeholder c)
  | .decl id =>
    match R.ruleFor? id with
    | some r => some r.coded
    | none => (q.member? (.decl id)).map fun c => .equation (.decl id) (.placeholder c)
  | .placeholder c =>
    q.classes[c]?.bind fun cls =>
      if cls.parent ≠ c then some (.equation (.placeholder c) (.placeholder cls.parent))
      else if cls.rigid then some (.equation (.placeholder c) cls.canonical)
      else none
  | _ => none

/-- The atom that a declaration is the code of. -/
def atomOf (id : Nat) : Term :=
  if id % 3 = 0 then .arg (id / 3)
  else if id % 3 = 1 then .decl (id / 3)
  else .placeholder (id / 3)

/-- The declaration that is the code of an atom. -/
def keyOf : Term → Nat
  | .arg i => 3 * i
  | .decl id => 3 * id + 1
  | .placeholder i => 3 * i + 2
  | _ => 0

private theorem code_atomOf (id : Nat) : (atomOf id).code = .decl id := by
  unfold atomOf
  split_ifs <;> simp [Term.coded] <;> omega

@[simp] theorem atomOf_arg (i : Nat) : atomOf (3 * i) = .arg i :=
  Term.code_injective ((code_atomOf _).trans (by simp [Term.coded]))

@[simp] theorem atomOf_decl (id : Nat) : atomOf (3 * id + 1) = .decl id :=
  code_injective (code_atomOf _)

@[simp] theorem atomOf_placeholder (c : Nat) : atomOf (3 * c + 2) = .placeholder c :=
  code_injective (code_atomOf _)

private theorem keyOf_atomOf (id : Nat) : keyOf (atomOf id) = id := by
  unfold atomOf
  split_ifs <;> simp [keyOf] <;> omega

/-- The rules with the context. -/
def table (R : RuleTable) (q : Equalities) : RuleTable :=
  .ofKeys (fun id => unfolding? R q (atomOf id))
    (q.members.map (fun m => keyOf m.1) ++ R.rules.keys.map (fun id => keyOf (.decl id)) ++
      (range q.classes.size).map fun c => keyOf (.placeholder c))

/-- The table has for each code what its atom unfolds to. -/
theorem ruleFor?_table (R : RuleTable) (q : Equalities) (id : Nat) :
    (table R q).ruleFor? id = unfolding? R q (atomOf id) := by
  refine RuleTable.ruleFor?_ofKeys (fun id r hr => ?_) id
  have hmember : ∀ {a c}, q.member? a = some c → keyOf a ∈ q.members.map (fun m => keyOf m.1) :=
    fun hc => mem_map.2 ⟨_, mem_of_memberIn? hc, rfl⟩
  rw [mem_append, mem_append, ← keyOf_atomOf id]
  generalize atomOf id = a at hr
  cases a with
  | arg i =>
    obtain ⟨c, hc, _⟩ := map_eq_some_iff.1 hr
    exact .inl (.inl (hmember hc))
  | decl id =>
    simp only [unfolding?] at hr
    split at hr
    · next r' hr' =>
      exact .inl (.inr (mem_map.2 ⟨id, mem_map.2 ⟨_, mem_of_get? hr', rfl⟩, rfl⟩))
    · obtain ⟨c, hc, _⟩ := map_eq_some_iff.1 hr
      exact .inl (.inl (hmember hc))
  | placeholder c =>
    obtain ⟨cls, hcls, _⟩ := bind_eq_some_iff.1 hr
    have hlt := (Array.getElem?_eq_some_iff.1 hcls).1
    exact .inr (mem_map.2 ⟨c, mem_range.2 hlt, rfl⟩)
  | _ => cases hr

theorem matchesRigid_table (h : R.MatchesRigid) (q : Equalities) : (table R q).MatchesRigid := by
  intro id r hr
  rw [ruleFor?_table] at hr
  have hequation : ∀ a t : Term, ∀ s ∈ (equation a t).steps, s.matchesRigid :=
    fun _ _ => forall_mem_nil _
  generalize atomOf id = a at hr
  cases a with
  | arg i =>
    obtain ⟨c, _, rfl⟩ := map_eq_some_iff.1 hr
    exact hequation _ _
  | decl id =>
    simp only [unfolding?] at hr
    split at hr
    · next r' hr' =>
      cases hr
      exact matchesRigid_codedSteps (h id r' hr') 0
    · obtain ⟨c, _, rfl⟩ := map_eq_some_iff.1 hr
      exact hequation _ _
  | placeholder c =>
    obtain ⟨cls, _, hr⟩ := bind_eq_some_iff.1 hr
    split_ifs at hr <;> cases hr <;> exact hequation _ _
  | _ => cases hr

private theorem applicable?_code (R : RuleTable) (q : Equalities) (ha : a.head = a) (count : Nat) :
    applicable? (table R q) a.code count = (unfolding? R q a).filter fun r => r.arity ≤ count := by
  unfold applicable?
  cases a with
  | app f x => exact absurd ha (head_ne_app _ _ _)
  | postulate id => rfl
  | leaf l => rfl
  | _ => simp [Term.coded, Term.declId?, ruleFor?_table]

/-! ### Unfolding at the head -/

/-- Every weak normal form of `u` is one of `t`. -/
def Continues (S : RuleTable) (u t : Term) : Prop :=
  ∀ w, Reaches S .none .weak u w → Reaches S .none .weak t w

private theorem Continues.trans (h : Continues S u t) {v : Term} (h' : Continues S v u) :
    Continues S v t :=
  fun w hw => h w (h' w hw)

private theorem Continues.of_headStep (h : headStep S (reduce S .none d .full) t = some (some u)) :
    Continues S u t := by
  rintro w ⟨e, he⟩
  refine ⟨max d e + 1, reduce_weak_succ.2 (.inr ⟨u, ?_, reduce_mono (le_max_right ..) he⟩)⟩
  exact headStep_mono (fun _ _ => reduce_mono (le_max_left ..)) h

private theorem Continues.full (h : Continues S u t) (hn : Reaches S .none .full u n) :
    Reaches S .none .full t n := by
  obtain ⟨d, hd⟩ := hn
  cases d with
  | zero => cases hd
  | succ d =>
    obtain ⟨w, args, hw, hargs, rfl⟩ := reduce_full_succ.1 hd
    exact reaches_full_of_weak (h w ⟨d, hw⟩) (hargs.imp fun _ _ hx => ⟨d, hx⟩)

private theorem subst_nil (t : Term) : t.subst [] = t := by
  induction t with
  | app f x ihf ihx => rw [subst_app, ihf, ihx]
  | _ => rfl

/-- An atom that is another term by an equation unfolds to it, whatever it is applied to. -/
theorem headStep_equation (f : Term → Option Term) (ha : a.head = a)
    (h : unfolding? R q a = some (.equation a t)) (ys : List Term) :
    headStep (table R q) f (a.code.apply ys) = some (some (t.code.apply ys)) := by
  have hargs : (a.code.apply ys).args = ys := by
    rw [args_apply, args_code, ← ha, args_head]
    rfl
  have hrule : applicable? (table R q) (a.code.apply ys).head (a.code.apply ys).args.length =
      some (.equation a t) := by
    rw [head_apply, head_code, ha, applicable?_code R q ha, h]
    rfl
  rw [headStep_eq, hrule, hargs]
  simp [fire, runSteps, equation, lambda, subst_nil]

private theorem Continues.of_equation (ha : a.head = a)
    (h : unfolding? R q a = some (.equation a t))
    (ys : List Term) : Continues (table R q) (t.code.apply ys) (a.code.apply ys) :=
  .of_headStep (d := 0) (headStep_equation _ ha h ys)

private theorem continues_root (R : RuleTable) (q : Equalities) (c : Nat) (ys : List Term) :
    Continues (table R q) ((placeholder (q.root c)).code.apply ys)
      ((placeholder c).code.apply ys) := by
  have hfrom : ∀ steps c, Continues (table R q)
      ((placeholder (rootFrom q.classes steps c)).code.apply ys)
      ((placeholder c).code.apply ys) := by
    intro steps
    induction steps with
    | zero => exact fun c w hw => hw
    | succ steps ih =>
      intro c
      unfold rootFrom
      split
      · next cls hcls =>
        split
        · exact fun w hw => hw
        · next hparent =>
          have hunfold : unfolding? R q (.placeholder c) =
              some (.equation (.placeholder c) (.placeholder cls.parent)) := by
            simp [unfolding?, hcls, hparent]
          exact (Continues.of_equation rfl hunfold ys).trans (ih cls.parent)
      · exact fun w hw => hw
  exact hfrom _ c

/-! ### Bare contexts -/

/-- The class is its own parent and not rigid. -/
def IsOpen (q : Equalities) (c : Nat) : Prop :=
  ∃ cls, q.classes[c]? = some cls ∧ cls.parent = c ∧ cls.rigid = false

/-- The term is an argument or a declaration without a rule. -/
def IsBare (R : RuleTable) : Term → Prop
  | .arg _ => True
  | .decl id => R.ruleFor? id = none
  | _ => False

/-- Every member is an argument or a declaration without a rule, and has a class. -/
structure Bare (R : RuleTable) (q : Equalities) : Prop where
  shaped : q.WellShaped
  member : ∀ m ∈ q.members, IsBare R m.1
  placed : ∀ m ∈ q.members, m.2 < q.classes.size

namespace Bare

/-- Members are bare. -/
theorem isBare_of_member? (hq : Bare R q) (h : q.member? t = some c) : IsBare R t :=
  hq.member _ (mem_of_memberIn? h)

/-- Members belong to classes that there are. -/
theorem lt_of_member? (hq : Bare R q) (h : q.member? t = some c) : c < q.classes.size :=
  hq.placed _ (mem_of_memberIn? h)

private theorem continues_output (hq : Bare R q) (hc : c < q.classes.size) (ys : List Term) :
    Continues (table R q) ((q.output c).code.apply ys) ((placeholder c).code.apply ys) := by
  refine (continues_root R q c ys).trans ?_
  obtain ⟨cls, hcls, hparent⟩ := hq.shaped.exists_root hc
  unfold output
  simp only [hcls]
  split
  · next hrigid =>
    have hunfold : unfolding? R q (.placeholder (q.root c)) =
        some (.equation (.placeholder (q.root c)) cls.canonical) := by
      simp [unfolding?, hcls, hparent, hrigid]
    exact .of_equation rfl hunfold ys
  · exact fun w hw => hw

/-- What a member or a placeholder is replaced by. -/
theorem exists_of_change? (hq : Bare R q) (h : q.replacer.change? t = some g) :
    (∃ c, q.member? t = some c ∧ IsBare R t ∧ g = q.output c) ∨
      ∃ c < q.classes.size, t = .placeholder c ∧ g = q.output c := by
  have hreplaced : q.replacer t = some g := by
    unfold Replacer.change? at h
    split at h
    · next u hu =>
      split at h
      · cases h
      · rwa [h] at hu
    · cases h
  cases t with
  | placeholder c =>
    simp only [replacer] at hreplaced
    split at hreplaced
    · next hc => exact .inr ⟨c, hc, rfl, (some.inj hreplaced).symm⟩
    · cases hreplaced
  | _ =>
    obtain ⟨c, hc, rfl⟩ := map_eq_some_iff.1 hreplaced
    exact .inl ⟨c, hc, hq.isBare_of_member? hc, rfl⟩

/-- No application is replaced. -/
theorem change?_of_args (hq : Bare R q) (h : t.args ≠ []) : q.replacer.change? t = none := by
  cases hg : q.replacer.change? t with
  | none => rfl
  | some g =>
    obtain ⟨_, _, hbare, _⟩ | ⟨_, _, rfl, _⟩ := hq.exists_of_change? hg
    · cases t with
      | arg | decl => exact absurd rfl h
      | _ => cases hbare
    · exact absurd rfl h

theorem unfolding?_of_member? (hbare : IsBare R a) (h : q.member? a = some c) :
    unfolding? R q a = some (.equation a (.placeholder c)) := by
  cases a with
  | arg i => simp [unfolding?, h]
  | decl id =>
    have hnone : R.ruleFor? id = none := hbare
    simp [unfolding?, h, hnone]
  | _ => cases hbare

/-- Bare terms are their own heads. -/
theorem head_of_isBare (h : IsBare R a) : a.head = a := by
  cases a with
  | app f x => cases h
  | _ => rfl

private theorem continues_change? (hq : Bare R q) (h : q.replacer.change? a = some g)
    (ys : List Term) :
    Continues (table R q) (g.code.apply ys) (a.code.apply ys) := by
  obtain ⟨c, hc, hbare, rfl⟩ | ⟨c, hc, rfl, rfl⟩ := hq.exists_of_change? h
  · have hstep := Continues.of_equation (head_of_isBare hbare) (unfolding?_of_member? hbare hc) ys
    exact hstep.trans (hq.continues_output (hq.lt_of_member? hc) ys)
  · exact hq.continues_output hc ys

/-- What reduction writes for a class is no argument and no declaration. -/
theorem output_ne (hq : q.WellShaped) (hbare : IsBare R a) : q.output c ≠ a := by
  unfold output
  dsimp only
  split
  · next cls hcls =>
    split
    · next hrigid =>
      rintro rfl
      have := hq.rigid _ cls hcls hrigid
      cases hcanonical : cls.canonical <;> simp_all [IsBare, isRigid, Term.head]
    · rintro rfl
      cases hbare
  · rintro rfl
    cases hbare

/-- The placeholder of a class that is not replaced is that of an open class. -/
theorem isOpen_of_change? (hq : q.WellShaped) (hc : c < q.classes.size)
    (h : q.replacer.change? (.placeholder c) = none) : q.IsOpen c := by
  obtain ⟨cls, hcls, hparent⟩ := hq.exists_root hc
  have hsame : q.output c = .placeholder c := by
    by_contra hne
    simp [Replacer.change?, replacer, hc, hne] at h
  unfold output at hsame
  simp only [hcls] at hsame
  split at hsame
  · next hrigid =>
    have := hq.rigid _ cls hcls hrigid
    rw [hsame] at this
    cases this
  · next hrigid =>
    have hroot : q.root c = c := placeholder.inj hsame
    rw [hroot] at hcls hparent
    exact ⟨cls, hcls, hparent, Bool.eq_false_iff.2 hrigid⟩

/-- An atom that is not replaced unfolds by a rule only. -/
theorem unfolding?_of_change? (hq : Bare R q) (h : q.replacer.change? a = none) :
    unfolding? R q a = (a.declId?.bind R.ruleFor?).map Rule.coded := by
  have hmember : ∀ {c}, q.member? a = some c → q.replacer a ≠ some (q.output c) := by
    intro c hc hreplaced
    have hne := output_ne (c := c) hq.shaped (hq.isBare_of_member? hc)
    simp [Replacer.change?, hreplaced, hne] at h
  cases a with
  | arg i =>
    cases hc : q.member? (.arg i) with
    | none => simp [unfolding?, hc, declId?]
    | some c => exact absurd (by simp [replacer, hc]) (hmember hc)
  | decl id =>
    cases hr : R.ruleFor? id with
    | some r => simp [unfolding?, hr, declId?]
    | none =>
      cases hc : q.member? (.decl id) with
      | none => simp [unfolding?, hr, hc, declId?]
      | some c => exact absurd (by simp [replacer, hc]) (hmember hc)
  | placeholder c =>
    by_cases hc : c < q.classes.size
    · obtain ⟨cls, hcls, hparent, hrigid⟩ := isOpen_of_change? hq.shaped hc h
      simp [unfolding?, hcls, hparent, hrigid, declId?]
    · have hnone : q.classes[c]? = none := Array.getElem?_eq_none (not_lt.1 hc)
      simp [unfolding?, hnone, declId?]
  | _ => rfl

/-! ### Simulation -/

/-- Coded terms have the codes of the normal forms that are found at this depth. -/
private structure Simulates (R : RuleTable) (q : Equalities) (d : Nat) : Prop where
  weak {t w : Term} : reduce R q.replacer d .weak t = some w → Continues (table R q) w.code t.code ∧
    (q.replacer.change? w.head = none → Reaches (table R q) .none .weak w.code w.code)
  full {t n : Term} : reduce R q.replacer d .full t = some n →
    Reaches (table R q) .none .full t.code n.code

private theorem Simulates.runSteps (hd : Simulates R q d) {steps : List Step}
    {caps args : List Term} {out : Option (List Term × List Term)}
    (h : runSteps (reduce R q.replacer d .full) steps caps args = some out) :
    (∃ d', runSteps (reduce (table R q) .none d' .full) (codedSteps caps.length steps)
      (caps.map code) (args.map code) =
        some (out.map fun p => (p.1.map code, p.2.map code))) ∧
      ∀ p, out = some p →
        p.1.length = caps.length + steps.foldr (fun s n => s.captures + n) 0 := by
  induction steps generalizing caps args with
  | nil =>
    cases h
    exact ⟨⟨0, rfl⟩, by rintro _ ⟨⟩; rfl⟩
  | cons step steps ih =>
    cases step with
    | pull =>
      cases args with
      | nil =>
        cases h
        exact ⟨⟨0, rfl⟩, nofun⟩
      | cons x args =>
        obtain ⟨⟨d', hd'⟩, hlength⟩ := ih h
        rw [length_append, length_singleton, map_append] at hd'
        refine ⟨⟨d', hd'⟩, fun p hp => ?_⟩
        rw [hlength p hp, length_append, length_singleton, foldr_cons, Nat.add_assoc]
        rfl
    | destructure subject head count =>
      obtain ⟨value, hvalue, h⟩ := bind_eq_some_iff.1 h
      obtain ⟨d1, hd1⟩ := hd.full hvalue
      rw [code_subst] at hd1
      have hmatch : (value.code.head = head.code ∧ value.code.args.length = count) ↔
          value.head = head ∧ value.args.length = count := by
        rw [head_code, args_code, length_map]
        exact and_congr_left' code_injective.eq_iff
      split at h
      · next hmatched =>
        obtain ⟨⟨d2, hd2⟩, hlength⟩ := ih h
        have hcount : (caps ++ value.args).length = caps.length + count := by
          rw [length_append, hmatched.2]
        rw [hcount, map_append, ← args_code] at hd2
        refine ⟨⟨max d1 d2, bind_eq_some_iff.2 ⟨value.code, ?_, ?_⟩⟩, fun p hp => ?_⟩
        · exact reduce_mono (le_max_left ..) hd1
        · rw [if_pos (hmatch.2 hmatched)]
          exact runSteps_mono (fun _ _ => reduce_mono (le_max_right ..)) hd2
        · rw [hlength p hp, hcount, foldr_cons, Nat.add_assoc]
          rfl
      · next hmatched =>
        cases h
        refine ⟨⟨d1, bind_eq_some_iff.2 ⟨value.code, hd1, ?_⟩⟩, nofun⟩
        exact if_neg fun h => hmatched (hmatch.1 h)

private theorem Simulates.headStep (hd : Simulates R q d)
    (hrule : unfolding? R q t.head = (t.head.declId?.bind R.ruleFor?).map Rule.coded)
    {out : Option Term} (h : headStep R (reduce R q.replacer d .full) t = some out) :
    ∃ d', headStep (table R q) (reduce (table R q) .none d' .full) t.code =
      some (out.map code) := by
  have happlicable : applicable? (table R q) t.code.head t.code.args.length =
      (applicable? R t.head t.args.length).map Rule.coded := by
    rw [head_code, applicable?_code R q t.head_head, hrule, args_code, length_map]
    unfold applicable?
    cases t.head.declId?.bind R.ruleFor? with
    | none => rfl
    | some r =>
      by_cases hr : r.arity ≤ t.args.length
      · simp [Option.filter, Rule.coded, hr]
      · simp [Option.filter, Rule.coded, hr]
  simp only [headStep_eq, happlicable] at h ⊢
  cases hr : applicable? R t.head t.args.length with
  | none =>
    rw [hr] at h
    cases h
    exact ⟨0, rfl⟩
  | some r =>
    rw [hr] at h
    obtain ⟨found, hfound, h⟩ := bind_eq_some_iff.1 h
    obtain ⟨⟨d', hd'⟩, hlength⟩ := hd.runSteps hfound
    refine ⟨d', bind_eq_some_iff.2 ⟨_, by rw [args_code]; exact hd', ?_⟩⟩
    cases found with
    | none =>
      cases h
      rfl
    | some found =>
      cases h
      have hcount : r.captureCount = found.1.length := by
        simpa [captureCount] using (hlength found rfl).symm
      simp only [Option.map_some, Rule.coded, hcount, ← code_subst, ← code_apply]
      rfl

private theorem Simulates.succ (hq : Bare R q) (hd : Simulates R q d) : Simulates R q (d + 1) where
  weak {t w} hw := by
    obtain ⟨hstuck, rfl⟩ | ⟨v, hv, hw⟩ := reduce_weak_succ.1 hw
    · refine ⟨fun _ h => h, fun hchange => ?_⟩
      obtain ⟨d', hd'⟩ := hd.headStep (hq.unfolding?_of_change? hchange) hstuck
      exact ⟨d' + 1, reduce_weak_succ.2 (.inl ⟨hd', rfl⟩)⟩
    · obtain ⟨hcontinues, hstands⟩ := hd.weak hw
      have hrule : unfolding? R q t.head = (t.head.declId?.bind R.ruleFor?).map Rule.coded := by
        -- a rule fires, so the head is a declaration with a rule
        unfold Reduction.headStep at hv
        split at hv
        · cases hv
        · next id hid =>
          split at hv
          · cases hv
          · next r hr =>
            cases hhead : t.head <;> simp_all [declId?, unfolding?]
      obtain ⟨d', hd'⟩ := hd.headStep hrule hv
      exact ⟨(Continues.of_headStep hd').trans hcontinues, hstands⟩
  full {t n} hn := by
    obtain ⟨w, hw, hn⟩ := reduce_full_cases hn
    obtain ⟨hcontinues, hstands⟩ := hd.weak hw
    refine hcontinues.full ?_
    have hspine : w.code = w.head.code.apply (w.args.map code) := by
      rw [← code_apply, apply_head_args]
    obtain ⟨g, hg, hn⟩ | ⟨hchange, args, hargs, hn⟩ := hn
    · have hreaches := hd.full hn
      rw [code_apply] at hreaches
      rw [hspine]
      exact (hq.continues_change? hg _).full hreaches
    · have hargs' : Forall₂ (Reaches (table R q) .none .full) w.code.args (args.map code) := by
        rw [args_code, forall₂_map_left_iff, forall₂_map_right_iff]
        exact hargs.imp fun _ _ hx => hd.full hx
      obtain ⟨u, hne, hu, _⟩ | ⟨_, rfl⟩ := hn
      · have happlied : (w.head.apply args).args ≠ [] := by simpa using hne
        cases (hq.change?_of_args happlied).symm.trans hu
      · rw [code_apply, ← head_code]
        exact reaches_full_of_weak (hstands hchange) hargs'

/-- Reduction in a bare context is reduction of codes by the rules with the context. -/
theorem reaches_code (hq : Bare R q) (h : Reaches R q.replacer .full t n) :
    Reaches (table R q) .none .full t.code n.code := by
  have hall : ∀ d, Simulates R q d := by
    intro d
    induction d with
    | zero => exact ⟨nofun, nofun⟩
    | succ d ih => exact ih.succ hq
  obtain ⟨d, hd⟩ := h
  exact (hall d).full hd

end Bare

end Equalities
end Elaboration
