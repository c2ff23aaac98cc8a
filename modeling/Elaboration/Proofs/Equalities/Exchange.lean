import Elaboration.Proofs.Equalities.Tidy

/-!
# Assumed equals are interchangeable

Where the members of a context are arguments and declarations without rules, an assumption makes its
sides lead to one term by the rules that the context stands for, which are never taken away. This
fails for applications, which reduction finds only where they are applied to nothing.
-/

namespace Elaboration

open Ends List Term

/-- Terms with one hole, in function or in argument position. -/
inductive Term.Context where
  | hole
  | function (C : Context) (x : Term)
  | argument (f : Term) (C : Context)

/-- The term with its hole filled. -/
def Term.Context.fill (t : Term) : Context → Term
  | .hole => t
  | .function C x => .app (C.fill t) x
  | .argument f C => .app f (C.fill t)

namespace Equalities

open Reduction

variable {R S : RuleTable} {q q' : Equalities} {t t' u u' a : Term} {c d limit depth : Nat}
  {o : Order} {s s' : State}
  {A : List (Term × Term)}

/-! ### Terms that join -/

/-- The codes of both terms lead to one. -/
def Joins (R : RuleTable) (q : Equalities) (t u : Term) : Prop :=
  ∃ v, Leads (table R q) t.code v ∧ Leads (table R q) u.code v

namespace Joins

private theorem compatible (R : RuleTable) (q : Equalities) : Compatible (Joins R q) where
  refl t := ⟨t.code, .refl _, .refl _⟩
  app := fun ⟨f, hf, hg⟩ ⟨x, hx, hy⟩ => ⟨.app f x, hf.app hx, hg.app hy⟩

private theorem symm (h : Joins R q t u) : Joins R q u t := by
  obtain ⟨v, ht, hu⟩ := h
  exact ⟨v, hu, ht⟩

private theorem mono (h : Joins R q t u) (hsub : (table R q).Sub (table S q')) :
    Joins S q' t u := by
  obtain ⟨v, ht, hu⟩ := h
  exact ⟨v, ht.mono hsub, hu.mono hsub⟩

private theorem of_leads (ht : Leads (table R q) t.code u.code) : Joins R q t u :=
  ⟨u.code, ht, .refl _⟩

private theorem of_leads_leads (h : Joins R q t' u') (ht : Leads (table R q) t.code t'.code)
    (hu : Leads (table R q) u.code u'.code) : Joins R q t u := by
  obtain ⟨v, ht', hu'⟩ := h
  exact ⟨v, ht.trans ht', hu.trans hu'⟩

private theorem fill (h : Joins R q t u) (C : Context) : Joins R q (C.fill t) (C.fill u) := by
  induction C with
  | hole => exact h
  | function C x ih => exact (compatible R q).app ih ((compatible R q).refl x)
  | argument f C ih => exact (compatible R q).app ((compatible R q).refl f) ih

private theorem eq_of_reaches (h : Joins R q t u) (hq : Bare R q) {n m : Term}
    (hn : Reaches R q.replacer .full t n) (hm : Reaches R q.replacer .full u m) : n = m := by
  obtain ⟨v, ht, hu⟩ := h
  have hn' := ht.reaches (hq.reaches_code hn)
  have hm' := hu.reaches (hq.reaches_code hm)
  exact code_injective (hn'.unique hm')

end Joins

section Leads

variable (hR : R.MatchesRigid)

include hR

private theorem leads_equation (ha : a.head = a) (h : unfolding? R q a = some (.equation a t)) :
    Leads (table R q) a.code t.code :=
  .of_fires (e := 0) (.refl _) (matchesRigid_table hR q) (headStep_equation _ ha h [])

private theorem leads_member (hbare : IsBare R a) (h : q.member? a = some c) :
    Leads (table R q) a.code (placeholder c).code :=
  leads_equation hR (Bare.head_of_isBare hbare) (Bare.unfolding?_of_member? hbare h)

private theorem Bare.leads_of_reaches (hq : Bare R q) (h : Reaches R q.replacer .full t u) :
    Leads (table R q) t.code u.code :=
  .of_reaches (.refl _) (matchesRigid_table hR q) (hq.reaches_code h)

private theorem Tidy.leads_eliminate (hq : Tidy R q) (ht : q.Shows t) :
    Leads (table R q) (q.eliminate t).code t.code := by
  induction t with
  | app f x ihf ihx => exact (ihf ht.1).app (ihx ht.2)
  | placeholder c =>
    rw [eliminate_placeholder]
    unfold value canonical?
    by_cases hc : c < q.classes.size
    · have hopen : q.IsOpen c := ht c hc rfl
      rw [hopen.root]
      obtain ⟨cls, hcls, _, hrigid⟩ := hopen
      have hmember := hq.first c cls hcls hrigid
      rw [hcls]
      exact leads_member hR (hq.member _ hmember) (hq.found _ hmember)
    · have hroot : q.root c = c := by
        unfold root
        cases q.classes.size with
        | zero => rfl
        | succ n => simp [rootFrom, Array.getElem?_eq_none (not_lt.1 hc)]
      rw [hroot, Array.getElem?_eq_none (not_lt.1 hc)]
      exact .refl _
  | _ => exact .refl _

end Leads

/-! ### Changes -/

/-- `c` is the class that `t` has in `q'`, which is `q` or has this class besides. -/
structure Classed (R : RuleTable) (q : Equalities) (t : Term) (c : Nat) (q' : Equalities) :
    Prop where
  isOpen : q'.IsOpen c
  opens : ∀ d, q.IsOpen d → q'.IsOpen d
  loose : ∀ u, t ≠ u → q.Loose u → q'.Loose u
  shows : ∀ u, q.Shows u → q'.Shows u
  members : ∀ m ∈ q.members, m ∈ q'.members
  grown : Tidy R q → (∀ m ∈ q'.members, IsBare R m.1) →
    Grown R q q' ∧ Leads (table R q') t.code (Term.placeholder c).code

section Changes

variable (hR : R.MatchesRigid)

include hR

private theorem exists_classOf (ht : s.equalities.Loose t) :
    ∃ c q', classOf t s = .ok c { s with equalities := q' } ∧ Classed R s.equalities t c q' := by
  obtain ⟨c, rfl, hc, hclass⟩ | ⟨_, hnew, hclass⟩ := classOf_of_loose ht
  · exact ⟨c, s.equalities, hclass, hc, fun _ h => h, fun _ _ h => h, fun _ h => h, fun _ h => h,
      fun hs _ => ⟨⟨hs, .refl _⟩, .refl _⟩⟩
  · refine ⟨_, _, hclass, isOpen_enter _ t, fun _ h => h.enter t, fun _ htu h => h.enter htu,
      fun _ h => h.enter t, fun _ => mem_append_left _, fun hs hbare => ?_⟩
    have hbare' : IsBare R t := hbare _ (mem_append_right _ (mem_singleton.2 rfl))
    refine ⟨hs.enter hbare' hnew, leads_member hR hbare' ?_⟩
    rw [member?_enter, hnew]
    simp

private theorem Tidy.grown_settle (hq : Tidy R q) (hc : q.IsOpen c) (ht : t.isRigid)
    (hshows : q.Shows t) :
    Grown R q (q.settle c (q.eliminate t)) ∧
      Leads (table R (q.settle c (q.eliminate t))) (placeholder c).code t.code := by
  have hgrown := hq.settle hc (isRigid_eliminate q ht)
  have hleads := (hq.leads_eliminate hR hshows).mono hgrown.sub
  refine ⟨hgrown, (leads_equation hR rfl ?_).trans hleads⟩
  obtain ⟨cls, hcls, hparent, _⟩ := hc
  simp [unfolding?, getElem?_settle, hcls, hparent]

private theorem Tidy.grown_join (hq : Tidy R q) (hc : q.IsOpen c) (hd : q.IsOpen d) (hne : c ≠ d) :
    Grown R q (q.join (min c d) (max c d)) ∧
      Joins R (q.join (min c d) (max c d)) (.placeholder c) (.placeholder d) := by
  have hjoin : ∀ {top below}, top < below → q.IsOpen below → Grown R q (q.join top below) ∧
      Leads (table R (q.join top below)) (placeholder below).code (placeholder top).code := by
    intro top below hlt hbelow
    refine ⟨hq.join hlt hbelow, leads_equation hR rfl ?_⟩
    obtain ⟨cls, hcls, _⟩ := hbelow
    simp [unfolding?, getElem?_join, hcls, hlt.ne]
  rcases lt_or_gt_of_ne hne with hlt | hlt
  · rw [min_eq_left hlt.le, max_eq_right hlt.le]
    obtain ⟨hgrown, hleads⟩ := hjoin hlt hd
    exact ⟨hgrown, (Joins.of_leads hleads).symm⟩
  · rw [min_eq_right hlt.le, max_eq_left hlt.le]
    obtain ⟨hgrown, hleads⟩ := hjoin hlt hc
    exact ⟨hgrown, .of_leads hleads⟩

omit hR

/-- All members are arguments or declarations without rules, and no assumption was dropped. -/
structure Faultless (R : RuleTable) (s : State) : Prop where
  member : ∀ m ∈ s.equalities.members, IsBare R m.1
  kept : ∀ t, .cyclicAssumptionDropped t ∉ s.journal

private theorem Faultless.of_ok {α : Type} {x : Change α} {a : α} (h : Faultless R s')
    (htraces : Traces x s) (hx : x s = .ok a s') : Faultless R s := by
  have htraced := htraces.ends.of_ok hx
  refine ⟨fun m hm => h.member m (htraced.updates.mem_members hm), fun t ht => h.kept t ?_⟩
  obtain ⟨new, hnew, _⟩ := htraced.noted
  rw [hnew]
  exact mem_append_right _ ht

/-- If the change ends without a fault, it has added to the rules of the context, and its answer is
in `Q`. -/
def Extends {α : Type} (R : RuleTable) (x : Change α) (s : State)
    (Q : α → Equalities → Prop) : Prop :=
  Ends x s (fun a s' => Faultless R s' → Grown R s.equalities s'.equalities ∧ Q a s'.equalities)
    fun _ _ => True

private theorem extends_pure {α : Type} {a : α} {Q : α → Equalities → Prop}
    (hs : Tidy R s.equalities)
    (h : Q a s.equalities) : Extends R (pure a) s Q :=
  fun _ => ⟨⟨hs, .refl _⟩, h⟩

private theorem Tidy.ends_normalize (hR : R.MatchesRigid) (hs : Tidy R s.equalities) (t : Term) :
    Ends (normalize ⟨R, limit, o⟩ t) s (fun u s' => s' = s ∧ 2 ≤ limit ∧ s.equalities.Unchanged u ∧
      Leads (table R s.equalities) t.code u.code) fun _ _ => True := by
  refine .of_answer fun u s' h => ?_
  obtain ⟨rfl, h⟩ := normalize_eq_ok_iff.1 h
  have hreaches : Reaches R s'.equalities.replacer .full t u := reaches_iff_run?.2 ⟨_, h⟩
  exact ⟨rfl, two_le_of_run? h, unchanged_of_reaches hreaches,
    hs.toBare.leads_of_reaches hR hreaches⟩

variable {merge' : Term → Term → Change (Except Contradiction Unit)}

private theorem extends_attach (hR : R.MatchesRigid) (hs : Tidy R s.equalities)
    (ht : s.equalities.Loose t) (hu : u.isRigid) (hshows : s.equalities.Shows u) :
    Extends R (do let c ← classOf t; attach ⟨R, limit, o⟩ merge' c u) s
      fun _ q => Joins R q t u := by
  obtain ⟨c, q, hclass, hclassed⟩ := exists_classOf hR ht
  refine bind_iff.2 ((iff_of_ok hclass).2 ?_)
  rw [iff_of_ok (attach_of_isOpen hclassed.isOpen u)]
  dsimp only
  split
  · exact fun hfault => absurd mem_cons_self (hfault.kept _)
  · intro hfault
    obtain ⟨hgrown, hleads⟩ := hclassed.grown hs hfault.member
    obtain ⟨hgrown', hleads'⟩ :=
      hgrown.tidy.grown_settle hR hclassed.isOpen hu (hclassed.shows u hshows)
    exact ⟨hgrown.trans hgrown', .of_leads ((hleads.mono hgrown'.sub).trans hleads')⟩

private theorem extends_unite (hR : R.MatchesRigid) (hs : Tidy R s.equalities)
    (ht : s.equalities.Loose t) (hu : s.equalities.Loose u) (hne : t ≠ u) :
    Extends R (do let c ← classOf t; let d ← classOf u; unite ⟨R, limit, o⟩ merge' c d) s
      fun _ q => Joins R q t u := by
  obtain ⟨c, q1, hclass1, hc⟩ := exists_classOf hR ht
  refine bind_iff.2 ((iff_of_ok hclass1).2 ?_)
  obtain ⟨d, q2, hclass2, hd⟩ :=
    exists_classOf (s := { s with equalities := q1 }) hR (hc.loose u hne hu)
  refine bind_iff.2 ((iff_of_ok hclass2).2 ?_)
  have hopen := hd.opens c hc.isOpen
  rw [iff_of_ok (unite_of_isOpen hopen hd.isOpen)]
  intro hfault
  have hbare : ∀ m ∈ q2.members, IsBare R m.1 := by
    have := hfault.member
    split at this <;> exact this
  obtain ⟨hgrown1, htc⟩ := hc.grown hs fun m hm => hbare m (hd.members m hm)
  obtain ⟨hgrown2, hud⟩ := hd.grown hgrown1.tidy hbare
  have hgrown := hgrown1.trans hgrown2
  have htc' := htc.mono hgrown2.sub
  split
  · next hcd =>
    subst hcd
    exact ⟨hgrown, _, htc', hud⟩
  · next hcd =>
    obtain ⟨hgrown3, hjoins⟩ := hgrown2.tidy.grown_join hR hopen hd.isOpen hcd
    exact ⟨hgrown.trans hgrown3,
      hjoins.of_leads_leads (htc'.mono hgrown3.sub) (hud.mono hgrown3.sub)⟩

section Merge

variable (hmerge : ∀ s t u, Tidy R s.equalities → s.equalities.Unchanged t →
  s.equalities.Unchanged u →
    Extends R (merge ⟨R, limit, o⟩ depth t u) s fun out q => out = .ok () → Joins R q t u)

include hR hmerge

private theorem extends_mergeArgs (hs : Tidy R s.equalities) (pairs : List (Term × Term)) :
    Extends R (mergeArgs ⟨R, limit, o⟩ (merge ⟨R, limit, o⟩ depth) pairs) s
      fun out q => out = .ok () → ∀ p ∈ pairs, Joins R q p.1 p.2 := by
  induction pairs generalizing s with
  | nil => exact extends_pure hs fun _ => forall_mem_nil _
  | cons p rest ih =>
    obtain ⟨x, y⟩ := p
    refine (hs.ends_normalize hR x).bind ?_ fun _ _ _ => trivial
    rintro x' s1 ⟨rfl, _, hx', hx⟩
    refine (hs.ends_normalize hR y).bind ?_ fun _ _ _ => trivial
    rintro y' s2 ⟨rfl, _, hy', hy⟩
    refine bind_iff.2 (.of_answer fun out s3 hout => ?_)
    have hxy := (hmerge s2 x' y' hs hx' hy').of_ok hout
    cases out with
    | error e => exact fun hfault => ⟨(hxy hfault).1, nofun⟩
    | ok _ =>
      refine .of_answer fun out' s4 hout' hfault => ?_
      have hfault' : Faultless R s3 := hfault.of_ok (traces_mergeArgs depth rest) hout'
      obtain ⟨hgrown, hjoins⟩ := hxy hfault'
      obtain ⟨hgrown', hrest⟩ := (ih hgrown.tidy).of_ok hout' hfault
      refine ⟨hgrown.trans hgrown', fun hok => forall_mem_cons.2 ⟨?_, hrest hok⟩⟩
      have hsub := (hgrown.trans hgrown').sub
      exact ((hjoins rfl).mono hgrown'.sub).of_leads_leads (hx.mono hsub) (hy.mono hsub)

omit hmerge

private theorem extends_merge (depth : Nat) (s : State) (t u : Term) (hs : Tidy R s.equalities)
    (ht : s.equalities.Unchanged t) (hu : s.equalities.Unchanged u) :
    Extends R (merge ⟨R, limit, o⟩ depth t u) s fun out q => out = .ok () → Joins R q t u := by
  induction depth generalizing s t u with
  | zero => exact trivial
  | succ depth ih =>
    have hloose : ∀ {t}, s.equalities.Unchanged t → s.equalities.Loose t := hs.toBare.loose
    unfold merge
    split
    · next heq => exact extends_pure hs fun _ => heq ▸ (Joins.compatible R _).refl t
    · next hne =>
      split
      · split
        · next hspine =>
          refine mono (extends_mergeArgs hR ih hs _) (fun out s' h hfault => ?_) fun _ _ h => h
          obtain ⟨hgrown, hargs⟩ := h hfault
          refine ⟨hgrown, fun hok => ?_⟩
          rw [← t.apply_head_args, ← u.apply_head_args, ← hspine.1]
          refine (Joins.compatible R _).apply ((Joins.compatible R _).refl _) ?_
          exact forall₂_iff_zip.2 ⟨hspine.2, fun h => hargs hok _ h⟩
        · have hgrown : Grown R s.equalities { s.equalities with inconsistent := true } :=
            hs.of_eq rfl rfl
          exact fun _ => ⟨hgrown, nofun⟩
      · next htrigid _ =>
        refine mono (extends_attach hR hs (hloose hu) htrigid (ht.shows hs.shaped)) ?_
          fun _ _ h => h
        exact fun _ _ h hfault => ⟨(h hfault).1, fun _ => (h hfault).2.symm⟩
      · next _ hurigid =>
        refine mono (extends_attach hR hs (hloose ht) hurigid (hu.shows hs.shaped)) ?_
          fun _ _ h => h
        exact fun _ _ h hfault => ⟨(h hfault).1, fun _ => (h hfault).2⟩
      · refine mono (extends_unite hR hs (hloose ht) (hloose hu) hne) ?_ fun _ _ h => h
        exact fun _ _ h hfault => ⟨(h hfault).1, fun _ => (h hfault).2⟩

private theorem extends_assume (hs : Tidy R s.equalities) (lhs rhs : Term) :
    Extends R (assume ⟨R, limit, o⟩ lhs rhs) s fun out q => out = .ok () → Joins R q lhs rhs := by
  refine (hs.ends_normalize hR lhs).bind ?_ fun _ _ _ => trivial
  rintro t s1 ⟨rfl, hlimit, ht, hlhs⟩
  refine (hs.ends_normalize hR rhs).bind ?_ fun _ _ _ => trivial
  rintro u s2 ⟨rfl, _, hu, hrhs⟩
  refine bind_iff.2 (ends_note.2 (bind_iff.2 ?_))
  refine mono (extends_merge (s := { s2 with journal := _ }) hR limit t u hs ht hu) ?_
    fun _ _ h => h
  intro out s3 h
  cases out with
  | error e => exact fun hfault => ⟨(h hfault).1, nofun⟩
  | ok _ =>
    refine bind_iff.2 (.of_answer fun _ s4 hcanonicalize hfault => ?_)
    have hfault' := hfault.of_ok traces_canonicalize hcanonicalize
    obtain ⟨hgrown, hjoins⟩ := h hfault'
    have hbare : Bare (Setting.rules ⟨R, limit, o⟩) s3.equalities := hgrown.tidy.toBare
    rw [hbare.canonicalize_eq_ok hlimit] at hcanonicalize
    cases hcanonicalize
    have hdated : Grown R s3.equalities { s3.equalities with generation := R.generation } :=
      hgrown.tidy.of_eq rfl rfl
    have hsub := (hgrown.trans hdated).sub
    refine ⟨hgrown.trans hdated, fun _ => ?_⟩
    exact ((hjoins rfl).mono hdated.sub).of_leads_leads (hlhs.mono hsub) (hrhs.mono hsub)

end Merge

end Changes

/-! ### Histories -/

/-- A context in which equations were assumed without contradiction, the last one first, while rules
were installed. -/
inductive Assumed : RuleTable → List (Term × Term) → State → Prop where
  | start (R : RuleTable) : Assumed R [] ⟨empty, []⟩
  | assume {R : RuleTable} {A : List (Term × Term)} {s s' : State} {lhs rhs : Term} (limit : Nat)
      (o : Order) : Assumed R A s → Equalities.assume ⟨R, limit, o⟩ lhs rhs s = .ok (.ok ()) s' →
      Assumed R ((lhs, rhs) :: A) s'
  | install {R S : RuleTable} {A : List (Term × Term)} {s : State} : Assumed R A s → R.Sub S →
      Assumed S A s

private theorem IsBare.of_sub (hsub : R.Sub S) (h : IsBare S t) : IsBare R t := by
  cases t with
  | arg => trivial
  | decl id =>
    have hnone : S.ruleFor? id = none := h
    cases hr : R.ruleFor? id with
    | none => exact hr
    | some r => cases hnone.symm.trans (hsub id r hr)
  | _ => cases h

private theorem Tidy.install (hq : Tidy R q) (hsub : R.Sub S)
    (hbare : ∀ m ∈ q.members, IsBare S m.1) :
    Tidy S q ∧ (table R q).Sub (table S q) := by
  refine ⟨{ hq with member := hbare }, fun id r hr => ?_⟩
  rw [ruleFor?_table] at hr ⊢
  generalize atomOf id = a at hr ⊢
  cases a with
  | decl id =>
    simp only [unfolding?] at hr ⊢
    split at hr
    · next rule hrule => simpa [hsub id rule hrule] using hr
    · obtain ⟨c, hc, _⟩ := Option.map_eq_some_iff.1 hr
      have hnone : S.ruleFor? id = none := hbare _ (mem_of_memberIn? hc)
      simpa [hnone] using hr
  | _ => exact hr

private theorem Assumed.joins (h : Assumed R A s) (hR : R.MatchesRigid) (hs : Faultless R s) :
    Tidy R s.equalities ∧ ∀ a ∈ A, Joins R s.equalities a.1 a.2 := by
  induction h with
  | start R => exact ⟨tidy_empty R, forall_mem_nil _⟩
  | @assume R A s s' lhs rhs limit o _ hassume ih =>
    have hbefore : Faultless R s := hs.of_ok (traces_assume lhs rhs) hassume
    obtain ⟨htidy, hA⟩ := ih hR hbefore
    obtain ⟨hgrown, hjoins⟩ := (extends_assume hR htidy lhs rhs).of_ok hassume hs
    refine ⟨hgrown.tidy, forall_mem_cons.2 ⟨hjoins rfl, fun a ha => ?_⟩⟩
    exact (hA a ha).mono hgrown.sub
  | @install R S A s _ hsub ih =>
    have hR' : R.MatchesRigid := fun id r hr => hR id r (hsub id r hr)
    obtain ⟨htidy, hA⟩ := ih hR' ⟨fun m hm => (hs.member m hm).of_sub hsub, hs.kept⟩
    obtain ⟨htidy', hsub'⟩ := htidy.install hsub hs.member
    exact ⟨htidy', fun a ha => (hA a ha).mono hsub'⟩

/-- If all members of a context are arguments and declarations without rules, and no assumption was
contradicted or dropped, two terms that differ only in sides of assumptions, anywhere, have no two
different normal forms. The rules must match on postulates and leaves only. -/
theorem Assumed.eq_of_fill (h : Assumed R A s) (hR : R.MatchesRigid)
    (hmember : ∀ m ∈ s.equalities.members, IsBare R m.1)
    (hkept : ∀ t, .cyclicAssumptionDropped t ∉ s.journal) {lhs rhs : Term} (ha : (lhs, rhs) ∈ A)
    (C : Term.Context) {d e : Nat} {n m : Term}
    (hn : run? R s.equalities.replacer d .full (C.fill lhs) = some n)
    (hm : run? R s.equalities.replacer e .full (C.fill rhs) = some m) : n = m := by
  obtain ⟨htidy, hA⟩ := h.joins hR ⟨hmember, hkept⟩
  have hjoins := (hA _ ha).fill C
  exact hjoins.eq_of_reaches htidy.toBare (reaches_iff_run?.2 ⟨d, hn⟩) (reaches_iff_run?.2 ⟨e, hm⟩)

/-! ### Two and its predecessor -/

/-- The context in which `$0` is two. -/
def twoAssumed : State where
  equalities :=
    { classes := #[⟨0, .app (.postulate 0) (.app (.postulate 0) (.postulate 1)), true⟩]
      members := [(.arg 0, 0)] }
  journal := [.assuming (.arg 0) (.app (.postulate 0) (.app (.postulate 0) (.postulate 1)))]

/-- The same context after `s $1 = $0` is assumed too. -/
def predecessorAssumed : State where
  equalities :=
    { classes := twoAssumed.equalities.classes.push ⟨1, .app (.postulate 0) (.postulate 1), true⟩
      members := [(.arg 0, 0), (.arg 1, 1)] }
  journal := .assuming (.app (.postulate 0) (.arg 1))
    (.app (.postulate 0) (.app (.postulate 0) (.postulate 1))) :: twoAssumed.journal

/-- The predecessor of `s $1` is that of `$0`, also where it is applied to something. -/
theorem eq_of_fill_predecessorAssumed : ∃ n m,
    run? predecessors predecessorAssumed.equalities.replacer 20 .full
      (.app (.app (.decl 3) (.app (.postulate 0) (.arg 1))) (.arg 2)) = some n ∧
    run? predecessors predecessorAssumed.equalities.replacer 20 .full
      (.app (.app (.decl 3) (.arg 0)) (.arg 2)) = some m ∧ n = m := by
  have hassumed : Assumed predecessors [(.app (.postulate 0) (.arg 1), .arg 0), (.arg 0, .decl 4)]
      predecessorAssumed := by
    have htwo : Assumed predecessors [(.arg 0, .decl 4)] twoAssumed :=
      .assume 8 .recorded (.start _) (by rfl)
    exact .assume 8 .recorded htwo (by rfl)
  have hR : predecessors.MatchesRigid := Table.forall_get? (t := predecessors.rules) (by decide)
  have hmember : ∀ m ∈ predecessorAssumed.equalities.members, IsBare predecessors m.1 := by
    simp [predecessorAssumed, IsBare]
  have hkept : ∀ t, .cyclicAssumptionDropped t ∉ predecessorAssumed.journal := by
    simp [predecessorAssumed, twoAssumed]
  have hn : run? predecessors predecessorAssumed.equalities.replacer 20 .full
      (.app (.app (.decl 3) (.app (.postulate 0) (.arg 1))) (.arg 2)) =
      some (.app (.app (.postulate 0) (.postulate 1)) (.arg 2)) := by decide +kernel
  have hm : run? predecessors predecessorAssumed.equalities.replacer 20 .full
      (.app (.app (.decl 3) (.arg 0)) (.arg 2)) =
      some (.app (.app (.postulate 0) (.postulate 1)) (.arg 2)) := by decide +kernel
  refine ⟨_, _, hn, hm, ?_⟩
  exact hassumed.eq_of_fill hR hmember hkept (by simp)
    (.function (.argument (.decl 3) .hole) (.arg 2)) hn hm

end Equalities
end Elaboration
