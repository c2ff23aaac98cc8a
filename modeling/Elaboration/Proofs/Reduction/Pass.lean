import Mathlib.Data.List.Forall2
import Elaboration.Proofs.Rule.Matching
import Elaboration.Reduction.Memo

/-!
# What a reduction does

A relation that holds along each way of one pass to an answer, if it holds between the parts that
the pass has reduced, holds between a term and its reduct. It follows that more depth changes no
answer, and that the memory of earlier reductions changes none either.
-/

namespace Elaboration

open List Rule Term

namespace Term

variable {p : Nat → Prop}

/-- A declaration in `p`, or an atom of another kind. -/
def DeclIn (p : Nat → Prop) (a : Term) : Prop := ∀ id, a = decl id → p id

/-- Declarations of a term, atom by atom. -/
theorem all_declIn {t : Term} : t.All (DeclIn p) ↔ ∀ id ∈ t.decls, p id := by
  induction t with
  | app f x ihf ihx => simp only [all_app, ihf, ihx, decls, mem_append, or_imp, forall_and]
  | decl id => simp [DeclIn, decls]
  | _ => simp [DeclIn, decls]

/-- What holds of terms holds of terms to which it is passed on. -/
theorem all_of_forall₂ {p : Term → Prop} {xs ys : List Term}
    (hxy : Forall₂ (fun x y => x.All p → y.All p) xs ys) (hxs : ∀ x ∈ xs, x.All p) :
    ∀ y ∈ ys, y.All p := by
  induction hxy with
  | nil => exact hxs
  | cons hhead _ ih =>
    rw [forall_mem_cons] at hxs ⊢
    exact ⟨hhead hxs.1, ih hxs.2⟩

/-- Every term is over all declarations. -/
theorem all_declIn_true (t : Term) : t.All (DeclIn fun _ => True) :=
  all_declIn.2 fun _ _ => trivial

private theorem All.substDeclIn {t : Term} {xs : List Term} (ht : t.All (DeclIn p))
    (hxs : ∀ x ∈ xs, x.All (DeclIn p)) : (t.subst xs).All (DeclIn p) :=
  All.subst (ht.mono fun _ => Or.inr) hxs

end Term

namespace RuleTable

/-- The tables give the same rules to the declarations in `p`, and these rules mention declarations
in `p` only. -/
structure AgreeOn (p : Nat → Prop) (R S : RuleTable) : Prop where
  same : ∀ id, p id → S.ruleFor? id = R.ruleFor? id
  closed : ∀ id r, p id → R.ruleFor? id = some r → ∀ t ∈ r.terms, t.All (Term.DeclIn p)

/-- A table agrees with itself. -/
theorem AgreeOn.refl (R : RuleTable) : AgreeOn (fun _ => True) R R :=
  ⟨fun _ _ => rfl, fun _ _ _ _ t _ => all_declIn_true t⟩

end RuleTable

namespace Reduction

/-- A rule of the table replaces the head of the term, `E` relating the matched subjects to their
values. -/
def Rewrites (R : RuleTable) (E : Term → Term → Prop) (t v : Term) : Prop :=
  ∃ id r caps rest, t.head = .decl id ∧ R.ruleFor? id = some r ∧ r.arity ≤ t.args.length ∧
    Rule.MatchedBy E r.steps [] t.args caps rest ∧ v = (r.replacement.subst caps).apply rest

/-- The ways in which a pass gets an answer from reductions `P` of the parts. -/
inductive Pass (R : RuleTable) (h : Replacer) (P : Mode → Term → Term → Prop) :
    Mode → Term → Term → Prop where
  | done {t : Term} : Pass R h P .weak t t
  | rewrite {t v u : Term} : Rewrites R (P .full) t v → P .weak v u → Pass R h P .weak t u
  | replaceHead {mode : Mode} {t w g u : Term} : P .weak t w → h.change? w.head = some g →
    P mode (g.apply w.args) u → Pass R h P mode t u
  | replaceTop {t w v u : Term} {args : List Term} : P .weak t w →
    List.Forall₂ (P .full) w.args args → h.change? (w.head.apply args) = some v → P .full v u →
    Pass R h P .full t u
  | rebuild {mode : Mode} {t w : Term} {args : List Term} : P .weak t w →
    List.Forall₂ (P .full) w.args args → Pass R h P mode t (w.head.apply args)

/-- The relation holds between a term and its reduct if it holds between all parts and theirs. -/
def Closed (R : RuleTable) (h : Replacer) (P : Mode → Term → Term → Prop) : Prop :=
  ∀ mode t u, Pass R h P mode t u → P mode t u

/-! ### Simulations -/

/-- A relation between computations in two monads that follows their structure. The computations
agree on their answers, which have a property. -/
structure Simulation (m n : Type → Type) [Monad m] [Monad n] where
  Rel : {α : Type} → m α → n α → (α → Prop) → Prop
  pure {α : Type} {a : α} {Q : α → Prop} : Q a → Rel (pure a) (pure a) Q
  bind {α β : Type} {x : m α} {y : n α} {f : α → m β} {g : α → n β} {Q : α → Prop}
    {Q' : β → Prop} : Rel x y Q → (∀ a, Q a → Rel (f a) (g a) Q') → Rel (x >>= f) (y >>= g) Q'

namespace Simulation

variable {m n : Type → Type} [Monad m] [Monad n] [LawfulMonad m] [LawfulMonad n]
  (S : Simulation m n) {R R' : RuleTable} {h : Replacer} {p : Nat → Prop}

theorem mono {α : Type} {x : m α} {y : n α} {Q Q' : α → Prop} (hxy : S.Rel x y Q)
    (hQ : ∀ a, Q a → Q' a) : S.Rel x y Q' := by
  have hbind := S.bind hxy fun a ha => S.pure (hQ a ha)
  rwa [bind_pure, bind_pure] at hbind

variable {f : Term → m Term} {g : Term → n Term} {E : Term → Term → Prop}

/-- Passes that are related are so along a list. -/
theorem mapM {ts : List Term} (hfg : ∀ t ∈ ts, S.Rel (f t) (g t) (E t)) :
    S.Rel (ts.mapM f) (ts.mapM g) (Forall₂ E ts) := by
  induction ts with
  | nil => exact S.pure .nil
  | cons t ts ih =>
    rw [forall_mem_cons] at hfg
    rw [mapM_cons, mapM_cons]
    exact S.bind hfg.1 fun u hu => S.bind (ih hfg.2) fun us hus => S.pure (.cons hu hus)

section Within

variable (hE : ∀ t u, E t u → u.All (DeclIn p))
  (hfg : ∀ t : Term, t.All (DeclIn p) → S.Rel (f t) (g t) (E t))

include hE hfg

private theorem runSteps_within {steps : List Step} {caps args : List Term}
    (hsteps : ∀ t ∈ steps.filterMap Step.subject?, t.All (DeclIn p))
    (hcaps : ∀ c ∈ caps, c.All (DeclIn p)) (hargs : ∀ a ∈ args, a.All (DeclIn p)) :
    S.Rel (runSteps f steps caps args) (runSteps g steps caps args) fun out =>
      ∀ caps' rest, out = some (caps', rest) → MatchedBy E steps caps args caps' rest ∧
        (∀ c ∈ caps', c.All (DeclIn p)) ∧ ∀ a ∈ rest, a.All (DeclIn p) := by
  induction steps generalizing caps args with
  | nil =>
    refine S.pure fun caps' rest hout => ?_
    cases hout
    exact ⟨⟨rfl, rfl⟩, hcaps, hargs⟩
  | cons s steps ih =>
    cases s with
    | pull =>
      cases args with
      | nil => exact S.pure nofun
      | cons x args =>
        rw [forall_mem_cons] at hargs
        refine ih hsteps ?_ hargs.2
        exact forall_mem_append.2 ⟨hcaps, forall_mem_singleton.2 hargs.1⟩
    | destructure subject head count =>
      have hsubjects := forall_mem_cons.1 hsteps
      refine S.bind (hfg _ (hsubjects.1.substDeclIn hcaps)) fun value hvalue => ?_
      split
      · next hv =>
        have hvalues := (hE _ _ hvalue).args
        refine S.mono (ih hsubjects.2 (forall_mem_append.2 ⟨hcaps, hvalues⟩) hargs) ?_
        intro out hout caps' rest hsome
        obtain ⟨hmatched, hall⟩ := hout caps' rest hsome
        refine ⟨⟨value.args, hv.2, ?_, hmatched⟩, hall⟩
        rw [← hv.1, apply_head_args]
        exact hvalue
      · exact S.pure nofun

private theorem headStep_within (hR : R.AgreeOn p R') {t : Term} (ht : t.All (DeclIn p)) :
    S.Rel (headStep R f t) (headStep R' g t) fun out =>
      ∀ v, out = some v → Rewrites R E t v ∧ v.All (DeclIn p) := by
  unfold Reduction.headStep
  cases hid : t.head.declId? with
  | none => exact S.pure nofun
  | some id =>
    have hhead : t.head = .decl id := by
      cases hh : t.head <;> simp_all [declId?]
    have hp : p id := by
      have := ht.head
      rw [hhead] at this
      exact this id rfl
    dsimp only
    rw [hR.same id hp]
    cases hr : R.ruleFor? id with
    | none => exact S.pure nofun
    | some r =>
      dsimp only
      split
      · exact S.pure nofun
      · next hlen =>
        have hterms := forall_mem_append.1 (hR.closed id r hp hr)
        have hrun := S.runSteps_within hE hfg hterms.1 (forall_mem_nil _) ht.args
        refine S.bind hrun fun out hout => ?_
        cases out with
        | none => exact S.pure nofun
        | some out =>
          refine S.pure fun v hv => ?_
          cases hv
          obtain ⟨hmatched, hcaps, hrest⟩ := hout _ _ rfl
          refine ⟨⟨id, r, _, _, hhead, hr, Nat.le_of_not_lt hlen, hmatched, rfl⟩, ?_⟩
          exact all_apply.2 ⟨(forall_mem_singleton.1 hterms.2).substDeclIn hcaps, hrest⟩

end Within

variable {P : Mode → Term → Term → Prop} {self again : Mode → Term → m Term}
  {self' again' : Mode → Term → n Term}

/-- Passes over terms that mention declarations in `p` are related if the reductions that they ask
for are, and get their answer in one of the five ways. -/
theorem pass_within (hR : R.AgreeOn p R') (hh : ∀ t u, h t = some u → u.All (DeclIn p))
    (hP : ∀ mode t u, P mode t u → u.All (DeclIn p))
    (hself : ∀ mode t, t.All (DeclIn p) → S.Rel (self mode t) (self' mode t) (P mode t))
    (hagain : ∀ mode t, t.All (DeclIn p) → S.Rel (again mode t) (again' mode t) (P mode t))
    (mode : Mode) {t : Term} (ht : t.All (DeclIn p)) :
    S.Rel (pass R h self again mode t) (pass R' h self' again' mode t) fun u =>
      Pass R h P mode t u ∧ u.All (DeclIn p) := by
  have hchange : ∀ {t u}, h.change? t = some u → u.All (DeclIn p) := by
    intro t u hu
    unfold Replacer.change? at hu
    split at hu
    · next v hv =>
      split at hu
      · cases hu
      · cases hu
        exact hh t _ hv
    · cases hu
  have hcontinue : ∀ {v}, v.All (DeclIn p) → (∀ u, P mode v u → Pass R h P mode t u) →
      S.Rel (again mode v) (again' mode v) fun u => Pass R h P mode t u ∧ u.All (DeclIn p) :=
    fun hv hpass => S.mono (hagain mode _ hv) fun u hu => ⟨hpass u hu, hP _ _ _ hu⟩
  unfold Reduction.pass
  split
  · refine S.bind (S.headStep_within (hP .full) (hself .full) hR ht) fun out hout => ?_
    cases out with
    | none => exact S.pure ⟨.done, ht⟩
    | some v =>
      obtain ⟨hrewrites, hv⟩ := hout v rfl
      exact hcontinue hv fun _ => .rewrite hrewrites
  · refine S.bind (hself .weak t ht) fun w hw => ?_
    have hall := hP _ _ _ hw
    split
    · next g hg =>
      split at hg
      · cases hg
      · exact hcontinue (all_apply.2 ⟨hchange hg, hall.args⟩) fun _ => .replaceHead hw hg
    · refine S.bind (S.mapM fun x hx => hself .full x (hall.args x hx)) fun args hargs => ?_
      dsimp only
      split
      · next v hv =>
        split at hv
        · next hfull =>
          subst hfull
          exact hcontinue (hchange hv) fun _ => .replaceTop hw hargs hv
        · cases hv
      · have hreduced : ∀ u ∈ args, u.All (DeclIn p) := by
          intro u hu
          obtain ⟨i, hi, rfl⟩ := getElem_of_mem hu
          exact hP _ _ _ (hargs.get (hargs.length_eq ▸ hi) hi)
        exact S.pure ⟨.rebuild hw hargs, all_apply.2 ⟨hall.head, hreduced⟩⟩

theorem runSteps (hfg : ∀ t, S.Rel (f t) (g t) (E t)) (steps : List Step) (caps args : List Term) :
    S.Rel (runSteps f steps caps args) (runSteps g steps caps args) fun out =>
      ∀ caps' rest, out = some (caps', rest) → MatchedBy E steps caps args caps' rest :=
  S.mono (S.runSteps_within (fun _ _ _ => all_declIn_true _) (fun t _ => hfg t)
    (fun _ _ => all_declIn_true _) (fun _ _ => all_declIn_true _) fun _ _ => all_declIn_true _)
    fun _ hout caps' rest hsome => (hout caps' rest hsome).1

private theorem headStep (hfg : ∀ t, S.Rel (f t) (g t) (E t)) (t : Term) :
    S.Rel (headStep R f t) (headStep R g t) fun _ => True :=
  S.mono (S.headStep_within (fun _ _ _ => all_declIn_true _) (fun t _ => hfg t) (.refl R)
    (all_declIn_true t)) fun _ _ => trivial

private theorem pass (hself : ∀ mode t, S.Rel (self mode t) (self' mode t) (P mode t))
    (hagain : ∀ mode t, S.Rel (again mode t) (again' mode t) (P mode t)) (mode : Mode) (t : Term) :
    S.Rel (pass R h self again mode t) (pass R h self' again' mode t) (Pass R h P mode t) :=
  S.mono (S.pass_within (.refl R) (fun _ _ _ => all_declIn_true _)
    (fun _ _ _ _ => all_declIn_true _) (fun mode t _ => hself mode t) (fun mode t _ =>
      hagain mode t)
    mode (all_declIn_true t)) fun _ hu => hu.1

end Simulation

/-! ### Computations with a memory -/

section Yields

variable {R R' : RuleTable} {h : Replacer} {P : Mode → Term → Term → Prop} {D : Term → Prop}

/-- Every normal form in the memory is one by `P`. -/
def Valid (P : Mode → Term → Term → Prop) (memo : Memo) : Prop :=
  ∀ t n, memo.find? t = some n → P .full t n

/-- From a valid memory both computations do the same and leave a valid memory. -/
def alike (P : Mode → Term → Term → Prop) :
    Simulation (StateT Memo Option) (StateT Memo Option) where
  Rel x y Q := ∀ memo, Valid P memo → y memo = x memo ∧
    ∀ a memo', x memo = some (a, memo') → Q a ∧ Valid P memo'
  pure ha memo hmemo := by
    refine ⟨rfl, fun b memo' hb => ?_⟩
    cases hb
    exact ⟨ha, hmemo⟩
  bind {_ _ x y f g _ Q'} hxy hfg memo hmemo := by
    obtain ⟨hsame, hyields⟩ := hxy memo hmemo
    change (y memo).bind (fun b => g b.1 b.2) = (x memo).bind (fun b => f b.1 b.2) ∧
      ∀ b memo', (x memo).bind (fun b => f b.1 b.2) = some (b, memo') → _
    rw [hsame]
    cases hx : x memo with
    | none => exact ⟨rfl, nofun⟩
    | some out =>
      obtain ⟨a, memo1⟩ := out
      obtain ⟨ha, hmemo1⟩ := hyields a memo1 hx
      exact hfg a ha memo1 hmemo1

/-- From a valid memory the computation gets answers in `Q` only, and leaves a valid memory. -/
abbrev Yields {α : Type} (P : Mode → Term → Term → Prop) (x : StateT Memo Option α)
    (Q : α → Prop) : Prop :=
  (alike P).Rel x x Q

private theorem yields_of_alike {α : Type} {x y : StateT Memo Option α} {Q : α → Prop}
    (hxy : (alike P).Rel x y Q) : Yields P x Q :=
  fun memo hmemo => ⟨rfl, (hxy memo hmemo).2⟩

private theorem valid_insert {memo : Memo} {t u : Term} (hmemo : Valid P memo) (htu : P .full t u) :
    Valid P (memo.insert t u) := by
  intro s n hs
  rw [TermMap.find?_insert] at hs
  split at hs
  · next hts =>
    cases hs
    exact hts ▸ htu
  · exact hmemo s n hs

private theorem alike_remembering {self self' : Mode → Term → StateT Memo Option Term}
    (hself : ∀ mode t, D t → (alike P).Rel (self mode t) (self' mode t) (P mode t)) (mode : Mode)
    (t : Term) (ht : D t) :
    (alike P).Rel (remembering self mode t) (remembering self' mode t) (P mode t) := by
  cases mode with
  | full =>
    intro memo hmemo
    dsimp only [remembering]
    cases hfind : memo.find? t with
    | some n =>
      refine ⟨rfl, fun u memo' hu => ?_⟩
      cases hu
      exact ⟨hmemo t _ hfind, hmemo⟩
    | none =>
      obtain ⟨hsame, hyields⟩ := hself .full t ht memo hmemo
      dsimp only
      rw [hsame]
      refine ⟨rfl, fun u memo' hu => ?_⟩
      cases hx : self .full t memo with
      | none =>
        rw [hx] at hu
        cases hu
      | some out =>
        rw [hx] at hu
        cases hu
        obtain ⟨hn, hmemo1⟩ := hyields _ _ hx
        exact ⟨hn, valid_insert hmemo1 hn⟩
  | weak => exact hself .weak t ht
  | spine => exact hself .spine t ht

/-- A relation that passes extend from the reductions that they ask for holds of reduction with a
memory. -/
theorem alike_reduceMemo
    (hP : ∀ self self' again again',
      (∀ mode t, D t → (alike P).Rel (self mode t) (self' mode t) (P mode t)) →
      (∀ mode t, D t → (alike P).Rel (again mode t) (again' mode t) (P mode t)) → ∀ mode t, D t →
      (alike P).Rel (pass R h self again mode t) (pass R' h self' again' mode t) (P mode t))
    (depth : Nat) (mode : Mode) (t : Term) (ht : D t) :
    (alike P).Rel (reduceMemo R h depth mode t) (reduceMemo R' h depth mode t) (P mode t) := by
  have hloop : ∀ depth mode t, D t →
      (alike P).Rel (reduceLoop R h depth mode t) (reduceLoop R' h depth mode t) (P mode t) := by
    intro depth
    induction depth with
    | zero => exact fun _ _ _ _ _ => ⟨rfl, nofun⟩
    | succ depth ih => exact hP _ _ _ _ (alike_remembering ih) ih
  cases depth with
  | zero => exact fun _ _ => ⟨rfl, nofun⟩
  | succ depth => exact alike_remembering (hloop (depth + 1)) mode t ht

private theorem yields_reduceMemo (hP : Closed R h P) (depth : Nat) (mode : Mode) (t : Term) :
    Yields P (reduceMemo R h depth mode t) (P mode t) :=
  alike_reduceMemo (D := fun _ => True) (fun _ _ _ _ hself hagain mode t _ =>
    (alike P).mono ((alike P).pass (hself · · trivial) (hagain · · trivial) mode t) (hP mode t))
    depth mode t trivial

end Yields

variable {R : RuleTable} {h : Replacer} {P : Mode → Term → Term → Prop}

/-- The empty memory is valid. -/
theorem valid_empty : Valid P .empty := nofun

/-- Any closed relation holds between a term and its reduct. -/
theorem run?_induction (hP : Closed R h P) {depth : Nat} {mode : Mode} {t u : Term}
    (hr : run? R h depth mode t = some u) : P mode t u := by
  obtain ⟨⟨u', memo⟩, hu, rfl⟩ := Option.map_eq_some_iff.1 hr
  exact ((yields_reduceMemo hP depth mode t _ valid_empty).2 _ _ hu).1

/-- Any closed relation holds between the terms of a list and their reducts. -/
theorem runAll?_induction (hP : Closed R h P) {depth : Nat} {mode : Mode} {ts us : List Term}
    (hr : runAll? R h depth mode ts = some us) : List.Forall₂ (P mode) ts us := by
  obtain ⟨⟨us', memo⟩, hus, rfl⟩ := Option.map_eq_some_iff.1 hr
  have hyields := (alike P).mapM fun t (_ : t ∈ ts) => yields_reduceMemo hP depth mode t
  exact ((hyields _ valid_empty).2 _ _ hus).1

variable {mode : Mode} {t u v : Term}

/-! ### Depth -/

/-- Every answer of the first computation is one of the second. -/
def more : Simulation Option Option where
  Rel x y Q := ∀ a, x = some a → y = some a ∧ Q a
  pure ha b hb := by
    cases hb
    exact ⟨rfl, ha⟩
  bind {_ _ x y f g _ _} hxy hfg b hb := by
    obtain ⟨a, ha, hb⟩ := Option.bind_eq_some_iff.1 hb
    obtain ⟨hy, hqa⟩ := hxy a ha
    obtain ⟨hg, hqb⟩ := hfg a hqa b hb
    exact ⟨Option.bind_eq_some_iff.2 ⟨a, hy, hg⟩, hqb⟩

section More

variable {f g : Term → Option Term} (hfg : ∀ t u, f t = some u → g t = some u)

include hfg

/-- Steps run alike if reduction answers more. -/
theorem runSteps_mono {steps : List Rule.Step} {caps args : List Term}
    {out : Option (List Term × List Term)} (hout : runSteps f steps caps args = some out) :
    runSteps g steps caps args = some out :=
  (more.runSteps (E := fun _ _ => True) (fun t u hu => ⟨hfg t u hu, trivial⟩) _ _ _ out hout).1

/-- Heads step alike if reduction answers more. -/
theorem headStep_mono {out : Option Term} (hout : headStep R f t = some out) :
    headStep R g t = some out :=
  (more.headStep (E := fun _ _ => True) (fun t u hu => ⟨hfg t u hu, trivial⟩) t out hout).1

end More

/-- More depth changes no answer. -/
theorem reduce_mono {d d' : Nat} (hle : d ≤ d') :
    ∀ {mode t u}, reduce R h d mode t = some u → reduce R h d' mode t = some u := by
  have hsucc : ∀ d mode t u, reduce R h d mode t = some u → reduce R h (d + 1) mode t = some u := by
    intro d
    induction d with
    | zero => exact nofun
    | succ d ih =>
      have hrel : ∀ mode t, more.Rel (reduce R h d mode t) (reduce R h (d + 1) mode t)
          fun _ => True := fun mode t u hu => ⟨ih mode t u hu, trivial⟩
      exact fun mode t u hu => (more.pass hrel hrel mode t u hu).1
  intro mode t u hu
  induction hle with
  | refl => exact hu
  | step _ ih => exact hsucc _ _ _ _ ih

/-- Reduction answers `u` at some depth. -/
def Reaches (R : RuleTable) (h : Replacer) (mode : Mode) (t u : Term) : Prop :=
  ∃ depth, reduce R h depth mode t = some u

/-- Reduction has one answer. -/
theorem Reaches.unique (hu : Reaches R h mode t u) (hv : Reaches R h mode t v) : u = v := by
  obtain ⟨d, hu⟩ := hu
  obtain ⟨d', hv⟩ := hv
  have hu' := reduce_mono (Nat.le_max_left d d') hu
  have hv' := reduce_mono (Nat.le_max_right d d') hv
  exact Option.some.inj (hu'.symm.trans hv')

/-- If reduction answers for each term of a list, one depth will do for all of them. -/
theorem Reaches.forall₂ {ts us : List Term} (hus : List.Forall₂ (Reaches R h mode) ts us) :
    ∃ d, List.Forall₂ (fun t u => reduce R h d mode t = some u) ts us := by
  induction hus with
  | nil => exact ⟨0, .nil⟩
  | cons hu _ ih =>
    obtain ⟨d, hu⟩ := hu
    obtain ⟨d', hus⟩ := ih
    refine ⟨max d d', .cons (reduce_mono (Nat.le_max_left ..) hu) (hus.imp fun t u htu => ?_)⟩
    exact reduce_mono (Nat.le_max_right ..) htu

/-! ### Memory -/

/-- The second computation gives the answers of the first from any valid memory, and leaves one. -/
def recalls (P : Mode → Term → Term → Prop) : Simulation Option (StateT Memo Option) where
  Rel x y Q := ∀ a, x = some a → Q a ∧ ∀ memo, Valid P memo →
    ∃ memo', y memo = some (a, memo') ∧ Valid P memo'
  pure ha b hb := by
    cases hb
    exact ⟨ha, fun memo hmemo => ⟨memo, rfl, hmemo⟩⟩
  bind {_ _ x y f g _ _} hxy hfg b hb := by
    obtain ⟨a, ha, hb⟩ := Option.bind_eq_some_iff.1 hb
    obtain ⟨hqa, hy⟩ := hxy a ha
    obtain ⟨hqb, hg⟩ := hfg a hqa b hb
    refine ⟨hqb, fun memo hmemo => ?_⟩
    obtain ⟨memo1, hy, hmemo1⟩ := hy memo hmemo
    obtain ⟨memo2, hg, hmemo2⟩ := hg memo1 hmemo1
    exact ⟨memo2, Option.bind_eq_some_iff.2 ⟨_, hy, hg⟩, hmemo2⟩

/-- The second computation, at any depth, gives every answer that the first gives from a valid
memory, and keeps it at all greater depths. -/
def deepens (P : Mode → Term → Term → Prop) :
    Simulation (StateT Memo Option) (ReaderT Nat Option) where
  Rel x y Q := (∀ a d d', d ≤ d' → y d = some a → y d' = some a ∧ Q a) ∧
    Yields P x fun a => ∃ d, y d = some a
  pure {_ a Q} ha := by
    refine ⟨fun b d d' _ hb => ⟨hb, ?_⟩, (alike P).pure ⟨0, rfl⟩⟩
    cases hb
    exact ha
  bind {_ _ x y f g _ _} hxy hfg := by
    refine ⟨fun b d d' hle hb => ?_, (alike P).bind hxy.2 fun a ⟨d, hd⟩ => ?_⟩
    · obtain ⟨a, ha, hb⟩ := Option.bind_eq_some_iff.1 hb
      obtain ⟨hy, hqa⟩ := hxy.1 a d d' hle ha
      obtain ⟨hg, hqb⟩ := (hfg a hqa).1 b d d' hle hb
      exact ⟨Option.bind_eq_some_iff.2 ⟨a, hy, hg⟩, hqb⟩
    · have hf := hfg a (hxy.1 a d d (Nat.le_refl d) hd).2
      refine (alike P).mono hf.2 fun b ⟨d', hd'⟩ =>
        ⟨max d d', Option.bind_eq_some_iff.2 ⟨a, ?_, ?_⟩⟩
      · exact (hxy.1 a d _ (Nat.le_max_left ..) hd).1
      · exact (hf.1 b d' _ (Nat.le_max_right ..) hd').1

/-- A computation that may ask for any depth, at a fixed one. -/
def fixed (d : Nat) : Simulation (ReaderT Nat Option) Option where
  Rel x y Q := x d = y ∧ ∀ a, y = some a → Q a
  pure ha := ⟨rfl, fun _ hb => Option.some.inj hb ▸ ha⟩
  bind {_ _ x y f g _ _} hxy hfg := by
    change (x d).bind (fun a => f a d) = y.bind g ∧ ∀ b, y.bind g = some b → _
    rw [hxy.1]
    cases hy : y with
    | none => exact ⟨rfl, nofun⟩
    | some a => exact hfg a (hxy.2 a hy)

private theorem yields_pass_reaches {self again : Mode → Term → StateT Memo Option Term}
    (hself : ∀ mode t, Yields (Reaches R h) (self mode t) (Reaches R h mode t))
    (hagain : ∀ mode t, Yields (Reaches R h) (again mode t) (Reaches R h mode t)) (mode : Mode)
    (t : Term) : Yields (Reaches R h) (pass R h self again mode t) (Reaches R h mode t) := by
  have hrel : ∀ {self : Mode → Term → StateT Memo Option Term},
      (∀ mode t, Yields (Reaches R h) (self mode t) (Reaches R h mode t)) →
      ∀ mode t, (deepens (Reaches R h)).Rel (self mode t)
        (fun d => reduce R h d mode t : ReaderT Nat Option Term) fun _ => True :=
    fun hself mode t => ⟨fun _ _ _ hle hu => ⟨reduce_mono hle hu, trivial⟩, hself mode t⟩
  have hpass := (deepens (Reaches R h)).pass (R := R) (h := h) (hrel hself) (hrel hagain) mode t
  refine (alike _).mono hpass.2 fun u ⟨d, hd⟩ => ⟨d + 1, ?_⟩
  have hrel' : ∀ mode t, (fixed d).Rel (fun d => reduce R h d mode t : ReaderT Nat Option Term)
      (reduce R h d mode t) fun _ => True :=
    fun _ _ => ⟨rfl, fun _ _ => trivial⟩
  exact ((fixed d).pass (R := R) (h := h) hrel' hrel' mode t).1.symm.trans hd

/-- What reduction with a memory answers is what reduction answers at some depth. -/
theorem yields_reaches (depth : Nat) (mode : Mode) (t : Term) :
    Yields (Reaches R h) (reduceMemo R h depth mode t) (Reaches R h mode t) :=
  alike_reduceMemo (D := fun _ => True) (fun _ _ _ _ hself hagain mode t _ memo hmemo =>
    ⟨((alike _).pass (hself · · trivial) (hagain · · trivial) mode t memo hmemo).1,
      (yields_pass_reaches (fun mode t => yields_of_alike (hself mode t trivial))
        (fun mode t => yields_of_alike (hagain mode t trivial)) mode t memo hmemo).2⟩) depth mode
          t trivial

private theorem recalls_remembering {depth : Nat} {self : Mode → Term → StateT Memo Option Term}
    (hself : ∀ mode t,
      (recalls (Reaches R h)).Rel (reduce R h depth mode t) (self mode t) fun _ => True)
    (mode : Mode) (t : Term) : (recalls (Reaches R h)).Rel (reduce R h depth mode t)
      (remembering self mode t) fun _ => True := by
  cases mode with
  | full =>
    refine fun u hu => ⟨trivial, fun memo hmemo => ?_⟩
    have hreaches : Reaches R h .full t u := ⟨depth, hu⟩
    dsimp only [remembering]
    split
    · next n hn =>
      cases (hmemo t n hn).unique hreaches
      exact ⟨memo, rfl, hmemo⟩
    · obtain ⟨memo', hmemo', hvalid⟩ := (hself .full t u hu).2 memo hmemo
      rw [hmemo']
      exact ⟨_, rfl, valid_insert hvalid hreaches⟩
  | weak => exact hself .weak t
  | spine => exact hself .spine t

/-- Reduction with a memory answers whatever reduction answers at the same depth. -/
theorem recalls_reduce (depth : Nat) (mode : Mode) (t : Term) :
    (recalls (Reaches R h)).Rel (reduce R h depth mode t) (reduceMemo R h depth mode t)
      fun _ => True := by
  have hloop : ∀ depth mode t, (recalls (Reaches R h)).Rel (reduce R h depth mode t)
      (reduceLoop R h depth mode t) fun _ => True := by
    intro depth
    induction depth with
    | zero => exact nofun
    | succ depth ih =>
      have hpass := (recalls (Reaches R h)).pass (R := R) (h := h) (recalls_remembering ih) ih
      exact fun mode t => (recalls _).mono (hpass mode t) fun _ _ => trivial
  cases depth with
  | zero => exact nofun
  | succ depth => exact recalls_remembering (hloop (depth + 1)) mode t

/-- The memory changes no answer: a reduction that runs answers what reduction answers. -/
theorem reaches_iff_run? : Reaches R h mode t u ↔ ∃ depth, run? R h depth mode t = some u := by
  constructor
  · rintro ⟨depth, hu⟩
    obtain ⟨memo, hmemo, _⟩ := (recalls_reduce depth mode t u hu).2 .empty valid_empty
    exact ⟨depth, by rw [run?, hmemo]; rfl⟩
  · rintro ⟨depth, hrun⟩
    obtain ⟨⟨u', memo⟩, hu, rfl⟩ := Option.map_eq_some_iff.1 hrun
    exact ((yields_reaches depth mode t _ valid_empty).2 _ _ hu).1

/-- From some depth on, a reduction that runs has the answer. -/
theorem Reaches.exists_run? (hu : Reaches R h mode t u) :
    ∃ bound, ∀ depth, bound ≤ depth → run? R h depth mode t = some u := by
  obtain ⟨bound, hu⟩ := hu
  refine ⟨bound, fun depth hle => ?_⟩
  obtain ⟨memo, hmemo, _⟩ :=
    (recalls_reduce depth mode t u (reduce_mono hle hu)).2 .empty valid_empty
  rw [run?, hmemo]
  rfl

end Reduction
end Elaboration
