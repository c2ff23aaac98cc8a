import Elaboration.Proofs.Equalities.Discipline
import Elaboration.Proofs.Theory.Basic

/-!
# Soundness of local equalities

A context is sound for a relation `E` if the canonical term of every class is related to that of its
parent and every member to that of its class. Every change keeps it sound for a congruence that
reads the rules as equations and is injective on rigid spines. So whatever reduction in a context
finds is equal to the term itself, and only a congruence that relates rigid spines of different
shapes makes it inconsistent. Canonical terms mention atoms in `p`, members placeholders besides.
-/

namespace Elaboration

open Array List Reduction Rule Term
namespace Equalities

/-- Every class has a parent, whose canonical term is related to its own. -/
def ParentsRelated (E : Term → Term → Prop) (classes : Array Class) : Prop :=
  ∀ (c : Nat) (cls : Class), classes[c]? = some cls →
    ∃ above, classes[cls.parent]? = some above ∧ E cls.canonical above.canonical

/-- The context is sound for `E`, and its terms mention atoms in `p` only. -/
structure Sound (p : Term → Prop) (E : Term → Term → Prop) (q : Equalities) : Prop where
  parent : ParentsRelated E q.classes
  canonical : ∀ (c : Nat) (cls : Class), q.classes[c]? = some cls → cls.canonical.All p
  member : ∀ m ∈ q.members, m.1.All (Term.ClassOr q.classes.size p) ∧
    ∃ cls, q.classes[m.2]? = some cls ∧ E (q.eliminate m.1) cls.canonical
  clash : q.inconsistent → Clash E

/-- Two terms of a context, of which `E` relates what they stand for. -/
structure Related (p : Term → Prop) (E : Term → Term → Prop) (q : Equalities) (t u : Term) :
    Prop where
  left : t.All (Term.ClassOr q.classes.size p)
  right : u.All (Term.ClassOr q.classes.size p)
  holds : E (q.eliminate t) (q.eliminate u)

/-- Every class is kept, with a canonical term that `E` relates to the one before. -/
structure Evolves (E : Term → Term → Prop) (q q' : Equalities) : Prop where
  size : q.classes.size ≤ q'.classes.size
  canonical : ∀ (c : Nat) (cls cls' : Class), q.classes[c]? = some cls →
    q'.classes[c]? = some cls' → E cls.canonical cls'.canonical

variable {p : Term → Prop} {E : Term → Term → Prop} {q q' q'' : Equalities} {t u v : Term}

/-- No classes are sound. -/
theorem sound_empty : Sound p E empty where
  parent _ _ h := by simp [empty] at h
  canonical _ _ h := by simp [empty] at h
  member _ h := nomatch h
  clash h := nomatch h

theorem Sound.mono {p' : Term → Prop} (hq : Sound p E q) (hp : ∀ a, p a → p' a) : Sound p' E q where
  __ := hq
  canonical c cls hc := (hq.canonical c cls hc).mono hp
  member m hm := (hq.member m hm).imp_left fun h => h.mono fun a => Or.imp_left (hp a)

/-! ### What placeholders stand for -/

private theorem lt_of_placeholder (hp : ∀ i, ¬ p (.placeholder i)) {n c : Nat}
    (h : (placeholder c).All (ClassOr n p)) : c < n := by
  obtain ⟨j, hj, he⟩ := h.resolve_left (hp c)
  cases he
  exact hj

section Value

variable (hE : Congruence E) {cls : Class} {c : Nat}

include hE

private theorem canonical_rootFrom (hparent : ParentsRelated E q.classes)
    (steps : Nat) (hc : q.classes[c]? = some cls) :
    ∃ top, q.classes[rootFrom q.classes steps c]? = some top ∧ E cls.canonical top.canonical := by
  induction steps generalizing c cls with
  | zero => exact ⟨cls, hc, hE.refl _⟩
  | succ steps ih =>
    unfold rootFrom
    simp only [hc]
    split
    · exact ⟨cls, hc, hE.refl _⟩
    · obtain ⟨above, habove, h⟩ := hparent c cls hc
      obtain ⟨top, htop, h'⟩ := ih habove
      exact ⟨top, htop, hE.trans h h'⟩

private theorem canonical_value (hparent : ParentsRelated E q.classes)
    (hc : q.classes[c]? = some cls) :
    ∃ top, q.classes[q.root c]? = some top ∧ q.value c = top.canonical ∧
      E cls.canonical (q.value c) := by
  obtain ⟨top, htop, h⟩ := canonical_rootFrom hE hparent q.classes.size hc
  have hvalue : q.value c = top.canonical := by
    simp [value, canonical?, root, htop]
  exact ⟨top, htop, hvalue, hvalue ▸ h⟩

private theorem Sound.root_class (hq : Sound p E q) (hc : q.classes[c]? = some cls) :
    ∃ top, q.classes[q.root c]? = some top ∧ q.value c = top.canonical ∧
      E cls.canonical (q.value c) :=
  canonical_value hE hq.parent hc

private theorem eliminate_evolves (hparent : ParentsRelated E q.classes)
    (hparent' : ParentsRelated E q'.classes) (hev : Evolves E q q') (hp : ∀ i, ¬ p (.placeholder i))
    (ht : t.All (ClassOr q.classes.size p)) : E (q.eliminate t) (q'.eliminate t) := by
  induction t with
  | app f x ihf ihx => exact hE.app (ihf ht.1) (ihx ht.2)
  | placeholder i =>
    have hi := lt_of_placeholder hp ht
    have hi' : i < q'.classes.size := hi.trans_le hev.size
    obtain ⟨top, _, _, h⟩ := canonical_value hE hparent (getElem?_eq_getElem hi)
    obtain ⟨top', _, _, h'⟩ := canonical_value hE hparent' (getElem?_eq_getElem hi')
    have hstep := hev.canonical i _ _ (getElem?_eq_getElem hi) (getElem?_eq_getElem hi')
    exact hE.trans (hE.symm h) (hE.trans hstep h')
  | _ => exact hE.refl _

/-- What a term stands for stays the same, up to the relation. -/
theorem Evolves.eliminate (hev : Evolves E q q') (hq : Sound p E q) (hq' : Sound p E q')
    (hp : ∀ i, ¬ p (.placeholder i)) (ht : t.All (ClassOr q.classes.size p)) :
    E (q.eliminate t) (q'.eliminate t) :=
  eliminate_evolves hE hq.parent hq'.parent hev hp ht

/-- Nothing changes. -/
theorem Evolves.refl (q : Equalities) : Evolves E q q where
  size := le_rfl
  canonical c cls cls' hc hc' := by
    rw [hc] at hc'
    cases hc'
    exact hE.refl _

theorem Evolves.trans (h : Evolves E q q') (h' : Evolves E q' q'') : Evolves E q q'' where
  size := h.size.trans h'.size
  canonical c cls cls'' hc hc'' := by
    have hlt : c < q.classes.size := (Array.getElem?_eq_some_iff.1 hc).1
    have hc' := Array.getElem?_eq_getElem (hlt.trans_le h.size)
    exact hE.trans (h.canonical c cls _ hc hc') (h'.canonical c _ cls'' hc' hc'')

end Value

/-! ### Related terms of a context -/

private theorem Related.refl (hE : Congruence E) (ht : t.All (ClassOr q.classes.size p)) :
    Related p E q t t :=
  ⟨ht, ht, hE.refl _⟩

private theorem Related.symm (hE : Congruence E) (h : Related p E q t u) : Related p E q u t :=
  ⟨h.right, h.left, hE.symm h.holds⟩

private theorem Related.trans (hE : Congruence E) (h : Related p E q t u) (h' : Related p E q u v) :
    Related p E q t v :=
  ⟨h.left, h'.right, hE.trans h.holds h'.holds⟩

private theorem Related.apply (hE : Congruence E) (h : Related p E q t u) {xs ys : List Term}
    (hxy : Forall₂ (Related p E q) xs ys) : Related p E q (t.apply xs) (u.apply ys) := by
  induction hxy generalizing t u with
  | nil => exact h
  | cons hx _ ih => exact ih ⟨⟨h.left, hx.left⟩, ⟨h.right, hx.right⟩, hE.app h.holds hx.holds⟩

private theorem Related.args (hE : Injective E) (h : Related p E q t u) (ht : t.isRigid)
    (hu : u.isRigid)
    (hs : t.SameShape u) : Forall₂ (Related p E q) t.args u.args := by
  have hs' : (q.eliminate t).SameShape (q.eliminate u) := by
    simpa [SameShape, head_eliminate, args_eliminate, isHeadClosed_of_isRigid ht,
      isHeadClosed_of_isRigid hu] using hs
  have hargs := hE _ _ (q.isRigid_eliminate ht) (q.isRigid_eliminate hu) hs' h.holds
  rw [args_eliminate q (isHeadClosed_of_isRigid ht),
    args_eliminate q (isHeadClosed_of_isRigid hu), forall₂_map_left_iff,
    forall₂_map_right_iff] at hargs
  refine forall₂_iff_get.2 ⟨hs.2, fun i hi hi' => ?_⟩
  exact ⟨h.left.args _ (get_mem _ _), h.right.args _ (get_mem _ _),
    (forall₂_iff_get.1 hargs).2 i hi hi'⟩

private theorem Related.clash (h : Related p E q t u) (ht : t.isRigid) (hu : u.isRigid)
    (hs : ¬ t.SameShape u) : Clash E := by
  refine ⟨_, _, q.isRigid_eliminate ht, q.isRigid_eliminate hu, fun hs' => hs ?_, h.holds⟩
  simpa [SameShape, head_eliminate, args_eliminate, isHeadClosed_of_isRigid ht,
    isHeadClosed_of_isRigid hu] using hs'

private theorem Related.mono (hE : Congruence E) (hp : ∀ i, ¬ p (.placeholder i)) (hq : Sound p E q)
    (hq' : Sound p E q') (hev : Evolves E q q') (h : Related p E q t u) : Related p E q' t u where
  left := h.left.mono fun _ => .mono hev.size
  right := h.right.mono fun _ => .mono hev.size
  holds := hE.trans (hE.symm (hev.eliminate hE hq hq' hp h.left))
    (hE.trans h.holds (hev.eliminate hE hq hq' hp h.right))

section Classes

variable (hE : Congruence E) (hp : ∀ i, ¬ p (.placeholder i)) (hq : Sound p E q) {c : Nat}

include hE hp hq

private theorem related_canonical {cls : Class} (hc : q.classes[c]? = some cls) :
    Related p E q (.placeholder c) cls.canonical := by
  have hcanonical := hq.canonical c cls hc
  obtain ⟨_, _, _, h⟩ := hq.root_class hE hc
  refine ⟨.inr ⟨c, (Array.getElem?_eq_some_iff.1 hc).1, rfl⟩, hcanonical.classOr, ?_⟩
  rw [eliminate_placeholder, q.eliminate_of_all hcanonical hp]
  exact hE.symm h

/-- What a term stands for mentions atoms in `p` only. -/
theorem all_eliminate (ht : t.All (ClassOr q.classes.size p)) : (q.eliminate t).All p := by
  induction t with
  | app f x ihf ihx => exact ⟨ihf ht.1, ihx ht.2⟩
  | placeholder i =>
    have hi := lt_of_placeholder hp ht
    obtain ⟨top, htop, hvalue, _⟩ := hq.root_class hE (getElem?_eq_getElem hi)
    rw [eliminate_placeholder, hvalue]
    exact hq.canonical _ _ htop
  | _ => exact ht.resolve_right (by rintro ⟨_, _, he⟩; cases he)

private theorem related_eliminate (ht : t.All (ClassOr q.classes.size p)) :
    Related p E q t (q.eliminate t) := by
  have hall := all_eliminate hE hp hq ht
  refine ⟨ht, hall.classOr, ?_⟩
  rw [q.eliminate_of_all hall hp]
  exact hE.refl _

private theorem related_root (hc : c < q.classes.size) :
    Related p E q (.placeholder c) (.placeholder (q.root c)) := by
  obtain ⟨top, htop, hvalue, h⟩ := hq.root_class hE (getElem?_eq_getElem hc)
  have htop' := related_canonical hE hp hq htop
  refine ⟨.inr ⟨c, hc, rfl⟩, htop'.left, ?_⟩
  rw [eliminate_placeholder, hvalue, ← q.eliminate_of_all (hq.canonical _ _ htop) hp]
  exact hE.symm htop'.holds

private theorem related_output (hc : c < q.classes.size) :
    Related p E q (.placeholder c) (q.output c) := by
  have hroot := related_root hE hp hq hc
  unfold output
  dsimp only
  split
  · next cls hcls =>
    split
    · exact hroot.trans hE (related_canonical hE hp hq hcls)
    · exact hroot
  · exact hroot

private theorem related_member (h : (t, c) ∈ q.members) :
    Related p E q (.placeholder c) t := by
  obtain ⟨ht, cls, hcls, hE'⟩ := hq.member _ h
  have hcanonical := related_canonical hE hp hq hcls
  refine ⟨hcanonical.left, ht, hE.trans hcanonical.holds (hE.symm ?_)⟩
  rw [q.eliminate_of_all (hq.canonical _ _ hcls) hp]
  exact hE'

private theorem related_replacer (ht : t.All (ClassOr q.classes.size p))
    (h : q.replacer t = some u) : Related p E q t u := by
  have hmember : ∀ t, (q.member? t).map q.output = some u → Related p E q t u := by
    intro t h
    obtain ⟨c, hc, rfl⟩ := Option.map_eq_some_iff.1 h
    have ht := related_member hE hp hq (mem_of_memberIn? hc)
    exact (ht.symm hE).trans hE (related_output hE hp hq (lt_of_placeholder hp ht.left))
  cases t with
  | placeholder i =>
    have hi := lt_of_placeholder hp ht
    rw [replacer, if_pos hi] at h
    cases h
    exact related_output hE hp hq hi
  | _ => exact hmember _ h

private theorem related_change? (ht : t.All (ClassOr q.classes.size p))
    (h : q.replacer.change? t = some u) : Related p E q t u := by
  unfold Replacer.change? at h
  split at h
  · next v hv =>
    split at h
    · cases h
    · cases h
      exact related_replacer hE hp hq ht hv
  · cases h

end Classes

/-! ### Reduction below a context -/

section Reduction

variable {R : RuleTable}

/-- A match of terms is a match of what they stand for. -/
theorem matchedBy_eliminate (hp : ∀ i, ¬ p (.placeholder i)) {steps : List Step}
    {caps args caps' rest : List Term}
    (h : MatchedBy (fun t u => t.All (ClassOr q.classes.size p) → Related p E q t u)
      steps caps args caps' rest) (hs : StepsOver p caps.length steps)
    (hcaps : ∀ x ∈ caps, x.All (ClassOr q.classes.size p)) :
    (∀ x ∈ args, x.All (ClassOr q.classes.size p)) →
    MatchedBy E steps (caps.map q.eliminate) (args.map q.eliminate) (caps'.map q.eliminate)
      (rest.map q.eliminate) := by
  induction steps generalizing caps args with
  | nil =>
    intro _
    obtain ⟨rfl, rfl⟩ := h
    exact ⟨rfl, rfl⟩
  | cons s steps ih =>
    cases s with
    | pull =>
      cases args with
      | nil => exact h.elim
      | cons x args =>
        intro hargs
        rw [forall_mem_cons] at hargs
        have := @ih (caps ++ [x]) args h (by rw [length_append]; exact hs)
          (forall_mem_append.2 ⟨hcaps, forall_mem_singleton.2 hargs.1⟩) hargs.2
        rwa [List.map_append] at this
    | destructure subject head count =>
      intro hargs
      obtain ⟨ys, hys, hsubject, hrest⟩ := h
      have hsubst : (subject.subst caps).All (ClassOr q.classes.size p) :=
        (hs.1.1.mono fun a ha => ha.imp_right Or.inl).subst hcaps
      have hrelated := hsubject hsubst
      have hys' := (all_apply.1 hrelated.right).2
      have := @ih (caps ++ ys) args hrest (by rw [length_append, hys]; exact hs.2)
        (forall_mem_append.2 ⟨hcaps, hys'⟩) hargs
      rw [List.map_append] at this
      refine ⟨ys.map q.eliminate, by simpa using hys, ?_, this⟩
      rw [← q.eliminate_subst hp hs.1.1,
        ← q.eliminate_eq_self (all_hasPlaceholder.1 hs.1.2), ← eliminate_apply]
      exact hrelated.holds

private theorem related_rewrites (hE : RuleCongruence R E) (hp : ∀ i, ¬ p (.placeholder i))
    (hR : R.Over p) (ht : t.All (ClassOr q.classes.size p))
    (h : Rewrites R (fun t u => t.All (ClassOr q.classes.size p) → Related p E q t u) t v) :
    Related p E q t v := by
  obtain ⟨id, r, caps, rest, hhead, hr, harity, hm, rfl⟩ := h
  have hover := hR id r hr
  have hargs := ht.args
  refine ⟨ht, ?_, ?_⟩
  · exact (hover.mono fun _ => Or.inl).result hm (fun t u h ht => (h ht).right) hargs
  · have hlen : caps.length = r.captureCount := by simpa [captureCount] using hm.length
    have hm' := matchedBy_eliminate hp hm hover.1 (by simp) hargs
    have hrule := hE.rule id r _ _ _ hr (by simpa using harity) hm'
    rw [eliminate_eq_apply, hhead, eliminate_decl, eliminate_apply,
      q.eliminate_subst hp (by rw [hlen]; exact hover.2)]
    exact hrule

private theorem related_spine (hE : Congruence E) (ht : t.All (ClassOr q.classes.size p))
    {args : List Term}
    (h : Forall₂ (fun x y => x.All (ClassOr q.classes.size p) → Related p E q x y)
      t.args args) : Related p E q t (t.head.apply args) := by
  have hargs : Forall₂ (Related p E q) t.args args :=
    forall₂_iff_get.2 ⟨h.length_eq, fun i hi hi' =>
      (forall₂_iff_get.1 h).2 i hi hi' (ht.args _ (get_mem _ _))⟩
  have hspine := (Related.refl hE ht.head).apply hE hargs
  rwa [apply_head_args] at hspine

variable (hE : RuleCongruence R E) (hp : ∀ i, ¬ p (.placeholder i)) (hR : R.Over p)
  (hq : Sound p E q)

include hE hp hR hq

private theorem closed_related : Closed R q.replacer
    fun _ t u => t.All (ClassOr q.classes.size p) → Related p E q t u := by
  intro mode t u h ht
  cases h with
  | done => exact .refl hE.toCongruence ht
  | rewrite hv hu =>
    have hv' := related_rewrites hE hp hR ht hv
    exact hv'.trans hE.toCongruence (hu hv'.right)
  | replaceHead hw hg hu =>
    have hw' := hw ht
    have hhead := related_change? hE.toCongruence hp hq hw'.right.head hg
    have hargs := forall₂_same.2 fun x hx => Related.refl hE.toCongruence (hw'.right.args x hx)
    have hspine := hhead.apply hE.toCongruence hargs
    rw [apply_head_args] at hspine
    have hg' := hw'.trans hE.toCongruence hspine
    exact hg'.trans hE.toCongruence (hu hg'.right)
  | replaceTop hw hargs hv hu =>
    have hw' := hw ht
    have hspine := related_spine hE.toCongruence hw'.right hargs
    have htop := related_change? hE.toCongruence hp hq hspine.right hv
    have hv' := hw'.trans hE.toCongruence (hspine.trans hE.toCongruence htop)
    exact hv'.trans hE.toCongruence (hu hv'.right)
  | rebuild hw hargs =>
    have hw' := hw ht
    exact hw'.trans hE.toCongruence (related_spine hE.toCongruence hw'.right hargs)

/-- Reduction below a context relates a term to its reduct. -/
theorem related_run? {depth : Nat} {mode : Mode} (ht : t.All (ClassOr q.classes.size p))
    (h : run? R q.replacer depth mode t = some u) : Related p E q t u :=
  run?_induction (closed_related hE hp hR hq) h ht

private theorem related_runAll? {depth : Nat} {mode : Mode} {ts us : List Term}
    (ht : ∀ t ∈ ts, t.All (ClassOr q.classes.size p))
    (h : runAll? R q.replacer depth mode ts = some us) :
    Forall₂ (Related p E q) ts us := by
  have h' := runAll?_induction (closed_related hE hp hR hq) h
  exact forall₂_iff_get.2 ⟨h'.length_eq, fun i hi hi' =>
    (forall₂_iff_get.1 h').2 i hi hi' (ht _ (get_mem _ _))⟩

end Reduction

end Equalities

namespace Equalities

/-- What a change keeps. -/
structure Kept (p : Term → Prop) (E : Term → Term → Prop) (s s' : State) : Prop where
  sound : Sound p E s'.equalities
  evolves : Evolves E s.equalities s'.equalities

variable {p : Term → Prop} {E : Term → Term → Prop} {s : State}

/-! ### Changes of classes -/

section Classes

variable {q : Equalities} (hE : Congruence E) (hp : ∀ i, ¬ p (.placeholder i)) (hq : Sound p E q)

include hE hp hq

private theorem sound_of_classes {classes : Array Class} (hsize : classes.size = q.classes.size)
    (h : ∀ (c : Nat) (cls : Class), q.classes[c]? = some cls →
      ∃ cls', classes[c]? = some cls' ∧ cls'.canonical.All p ∧ E cls.canonical cls'.canonical ∧
        ∃ above, q.classes[cls'.parent]? = some above ∧ E cls.canonical above.canonical) :
    Sound p E { q with classes } ∧ Evolves E q { q with classes } := by
  have hold : ∀ (c : Nat) (cls' : Class), classes[c]? = some cls' →
    ∃ cls, q.classes[c]? = some cls := by
    intro c cls' hc
    have hlt := (Array.getElem?_eq_some_iff.1 hc).1
    exact ⟨_, getElem?_eq_getElem (hsize ▸ hlt)⟩
  have hev : Evolves E q { q with classes } := by
    refine ⟨hsize.symm.le, fun c cls cls' hc hc' => ?_⟩
    obtain ⟨cls'', hc'', _, hcanonical, _⟩ := h c cls hc
    cases hc'.symm.trans hc''
    exact hcanonical
  have hparent : ParentsRelated E classes := by
    intro c cls' hc'
    obtain ⟨cls, hc⟩ := hold c cls' hc'
    obtain ⟨cls'', hc'', _, hcanonical, above, habove, hrelated⟩ := h c cls hc
    cases hc'.symm.trans hc''
    obtain ⟨above', habove', _, hcanonical', _⟩ := h _ above habove
    exact ⟨above', habove', hE.trans (hE.symm hcanonical) (hE.trans hrelated hcanonical')⟩
  refine ⟨⟨hparent, fun c cls' hc' => ?_, fun m hm => ?_, hq.clash⟩, hev⟩
  · obtain ⟨cls, hc⟩ := hold c cls' hc'
    obtain ⟨cls'', hc'', hall, _⟩ := h c cls hc
    cases hc'.symm.trans hc''
    exact hall
  · obtain ⟨hall, cls, hc, hrelated⟩ := hq.member m hm
    obtain ⟨cls', hc', _, hcanonical, _⟩ := h m.2 cls hc
    have heliminate := eliminate_evolves hE hq.parent hparent hev hp hall
    refine ⟨?_, cls', hc', hE.trans (hE.symm heliminate) (hE.trans hrelated hcanonical)⟩
    exact hall.mono fun _ => .mono hev.size

private theorem sound_modify {c : Nat} {f : Class → Class}
    (h : ∀ cls, q.classes[c]? = some cls → (f cls).canonical.All p ∧
      E cls.canonical (f cls).canonical ∧
      ∃ above, q.classes[(f cls).parent]? = some above ∧ E cls.canonical above.canonical) :
    Sound p E { q with classes := q.classes.modify c f } ∧
      Evolves E q { q with classes := q.classes.modify c f } := by
  refine sound_of_classes hE hp hq (size_modify ..) fun d cls hd => ?_
  by_cases hcd : c = d
  · subst hcd
    refine ⟨f cls, by simp [Array.getElem?_modify, hd], h cls hd⟩
  · refine ⟨cls, by simp [Array.getElem?_modify, hcd, hd], hq.canonical d cls hd, hE.refl _, ?_⟩
    exact hq.parent d cls hd

private theorem sound_push {t : Term} (ht : t.All (Term.ClassOr q.classes.size p)) :
    let q' := { q with
      classes := q.classes.push ⟨q.classes.size, q.eliminate t, false⟩
      members := q.members ++ [(t, q.classes.size)] }
    Sound p E q' ∧ Evolves E q q' := by
  intro q'
  have hkept : ∀ (c : Nat) (cls : Class), q.classes[c]? = some cls → q'.classes[c]? = some cls := by
    intro c cls hc
    have hlt := (Array.getElem?_eq_some_iff.1 hc).1
    rw [Array.getElem?_push_lt hlt, Array.getElem?_eq_getElem hlt] at *
    exact hc
  have hcases : ∀ (c : Nat) (cls : Class), q'.classes[c]? = some cls →
      q.classes[c]? = some cls ∨
        c = q.classes.size ∧ cls = ⟨q.classes.size, q.eliminate t, false⟩ := by
    intro c cls hc
    rw [getElem?_push] at hc
    split at hc
    · next h => exact .inr ⟨h, (Option.some.inj hc).symm⟩
    · exact .inl hc
  have hnew : q'.classes[q.classes.size]? = some ⟨q.classes.size, q.eliminate t, false⟩ := by
    simp [q']
  have hev : Evolves E q q' := by
    refine ⟨by simp [q'], fun c cls cls' hc hc' => ?_⟩
    cases (hkept c cls hc).symm.trans hc'
    exact hE.refl _
  have hparent : ParentsRelated E q'.classes := by
    intro c cls hc
    obtain hc | ⟨rfl, rfl⟩ := hcases c cls hc
    · obtain ⟨above, habove, h⟩ := hq.parent c cls hc
      exact ⟨above, hkept _ _ habove, h⟩
    · exact ⟨_, hnew, hE.refl _⟩
  have heliminate : ∀ u : Term, u.All (Term.ClassOr q.classes.size p) →
      E (q'.eliminate u) (q.eliminate u) :=
    fun u hu => hE.symm (eliminate_evolves hE hq.parent hparent hev hp hu)
  refine ⟨⟨hparent, fun c cls hc => ?_, fun m hm => ?_, hq.clash⟩, hev⟩
  · obtain hc | ⟨rfl, rfl⟩ := hcases c cls hc
    · exact hq.canonical c cls hc
    · exact all_eliminate hE hp hq ht
  · rcases mem_append.1 hm with hm | hm
    · obtain ⟨hall, cls, hcls, h⟩ := hq.member m hm
      exact ⟨hall.mono fun _ => .mono hev.size, cls, hkept _ _ hcls, hE.trans (heliminate _ hall) h⟩
    · cases mem_singleton.1 hm
      exact ⟨ht.mono fun _ => .mono hev.size, _, hnew, heliminate t ht⟩

private theorem sound_of_members (q' : Equalities) (hclasses : q'.classes = q.classes)
    (hmembers : ∀ m ∈ q'.members, m ∈ q.members ∨ Related p E q (.placeholder m.2) m.1)
    (hclash : q'.inconsistent → Clash E) : Sound p E q' ∧ Evolves E q q' := by
  have hmember : ∀ m ∈ q'.members, Related p E q (.placeholder m.2) m.1 := by
    intro m hm
    rcases hmembers m hm with hm | hm
    · exact related_member hE hp hq hm
    · exact hm
  refine ⟨⟨hclasses ▸ hq.parent, hclasses ▸ hq.canonical, fun m hm => ?_, hclash⟩, ?_⟩
  · have h := hmember m hm
    have hc := Array.getElem?_eq_getElem (lt_of_placeholder hp h.left)
    have hcanonical := related_canonical hE hp hq hc
    have hholds := hE.trans (hE.symm h.holds) hcanonical.holds
    rw [q.eliminate_of_all (hq.canonical _ _ hc) hp] at hholds
    rw [eliminate_of_classes hclasses, hclasses]
    exact ⟨h.right, _, hc, hholds⟩
  · refine ⟨Nat.le_of_eq (by rw [hclasses]), fun c cls cls' hc hc' => ?_⟩
    rw [hclasses, hc] at hc'
    cases hc'
    exact hE.refl _

end Classes

/-! ### Changes -/

section Changes

variable {env : Setting} (hE : LocalTheory env.rules E) (hp : ∀ i, ¬ p (.placeholder i))
  (hR : env.rules.Over p)

private theorem Update.sound {q q' : Equalities} (h : Update (Related p E q) q q')
    (hq : Sound p E q)
    (hC : Congruence E) (hp : ∀ i, ¬ p (.placeholder i)) : Sound p E q' ∧ Evolves E q q' := by
  have hcanonical : ∀ {c : Nat} {cls : Class} {t : Term}, q.classes[c]? = some cls →
      Related p E q (.placeholder c) t → E cls.canonical (q.eliminate t) := by
    intro c cls t hc h
    have hrelated := ((related_canonical hC hp hq hc).symm hC).trans hC h
    have hholds := hrelated.holds
    rwa [eliminate_of_all _ (hq.canonical c cls hc) hp] at hholds
  cases h with
  | enter _ ht => exact sound_push hC hp hq ht.left
  | @settle c canonical h =>
    have hsettled : canonical.All p ∧ Related p E q (.placeholder c) canonical := by
      obtain ⟨t, _, ht, rfl⟩ | ⟨d, cls, hd, _, rfl, ht⟩ := h
      · exact ⟨all_eliminate hC hp hq ht.right, ht.trans hC (related_eliminate hC hp hq ht.right)⟩
      · exact ⟨hq.canonical d cls hd, ht⟩
    refine sound_modify hC hp hq fun cls hc => ⟨hsettled.1, ?_, hq.parent c cls hc⟩
    have hholds := hcanonical hc hsettled.2
    rwa [eliminate_of_all _ hsettled.1 hp] at hholds
  | @join top below _ h =>
    have htop := Array.getElem?_eq_getElem (lt_of_placeholder hp h.left)
    refine sound_modify hC hp hq fun cls hc => ⟨hq.canonical below cls hc, hC.refl _, _, htop, ?_⟩
    have hholds := hcanonical hc ((h.symm hC).trans hC (related_canonical hC hp hq htop))
    rwa [eliminate_of_all _ (hq.canonical _ _ htop) hp] at hholds
  | record _ h =>
    refine sound_of_members hC hp hq _ rfl (fun m hm => (mem_append.1 hm).imp_right ?_) hq.clash
    intro hm
    cases mem_singleton.1 hm
    exact h
  | contradict ht hu hshape h =>
    exact sound_of_members hC hp hq _ rfl (fun m hm => .inl hm) fun _ => h.clash ht hu hshape
  | date => exact sound_of_members hC hp hq _ rfl (fun m hm => .inl hm) hq.clash

/-- In a sound context related terms may be merged. -/
def soundness (hE : LocalTheory env.rules E) (hp : ∀ i, ¬ p (.placeholder i))
    (hR : env.rules.Over p) : Discipline env where
  Holds s := Sound p E s.equalities
  Leads s s' := Evolves E s.equalities s'.equalities
  Stops _ e _ := e = .exhausted
  Equates := Related p E
  refl _ := .refl hE.toCongruence _
  trans h h' := h.trans hE.toCongruence h'
  stops _ h := h
  symm h := h.symm hE.toCongruence
  chain h h' := h.trans hE.toCongruence h'
  later hs hs' hev h := h.mono hE.toCongruence hp hs hs' hev
  reduces hs h hrun := related_run? hE.toRuleCongruence hp hR hs h.left hrun
  reducesAll hs hts hrun _ ha :=
    forall₂_zip (related_runAll? hE.toRuleCongruence hp hR hs (fun t ht => (hts t ht).left) hrun) ha
  args h ht hu hhead hlength _ ha :=
    forall₂_zip (h.args hE.injective ht hu ⟨hhead, hlength⟩) ha
  member hs hm := related_member hE.toCongruence hp hs hm
  root hs h := related_root hE.toCongruence hp hs (lt_of_placeholder hp h.left)
  canonical hs _ hc := related_canonical hE.toCongruence hp hs hc
  eliminate hs h := related_eliminate hE.toCongruence hp hs h.left
  update hs h _ := h.sound hs hE.toCongruence hp
  noted hs _ := ⟨hs, .refl hE.toCongruence _⟩
  exhausted _ := rfl
  outOfRange _ h hle := absurd (lt_of_placeholder hp h.left) (Nat.not_lt_of_le hle)

include hE hp hR

/-- Bringing a context up to date with the rules keeps it sound. -/
theorem keeps_canonicalize (hs : Sound p E s.equalities) :
    Ends (canonicalize env) s (fun _ s' => Kept p E s s') fun e _ => e = .exhausted :=
  ((soundness hE hp hR).keeps_canonicalize hs).imp (fun _ _ h => ⟨h.1, h.2.1⟩)

/-- Assuming an equation whose sides are related keeps a context sound. -/
theorem keeps_assume (hs : Sound p E s.equalities) {t u : Term} (h : Related p E s.equalities t u) :
    Ends (assume env t u) s (fun _ s' => Kept p E s s') fun e _ => e = .exhausted :=
  (Discipline.keeps_assume (D := soundness hE hp hR) h hs).imp (fun _ _ h => ⟨h.1, h.2.1⟩)

end Changes
end Equalities

open RuleTable
namespace Equalities

/-- A context reached under rules by assumptions, the last one first. One that was contradicted was
made as well. -/
inductive Reached : RuleTable → List (Term × Term) → Equalities → Prop where
  | start (R : RuleTable) : Reached R [] empty
  | assume {R : RuleTable} {A : List (Term × Term)} {s s' : State} {lhs rhs : Term}
      {out : Except Contradiction Unit} (limit : Nat) (o : Order) : Reached R A s.equalities →
      lhs.hasPlaceholder = false → rhs.hasPlaceholder = false →
      Equalities.assume ⟨R, limit, o⟩ lhs rhs s = .ok out s' →
      Reached R ((lhs, rhs) :: A) s'.equalities
  | canonicalize {R : RuleTable} {A : List (Term × Term)} {s s' : State} (limit : Nat)
      (o : Order) : Reached R A s.equalities → Equalities.canonicalize ⟨R, limit, o⟩ s = .ok () s' →
      Reached R A s'.equalities
  | install {R S : RuleTable} {A : List (Term × Term)} {q : Equalities} : Reached R A q → R.Sub S →
      Reached S A q

open Term (Plain)

variable {R : RuleTable} {A : List (Term × Term)} {E : Term → Term → Prop} {q : Equalities}

private theorem related_of_plain (q : Equalities) {t u : Term} (ht : t.hasPlaceholder = false)
    (hu : u.hasPlaceholder = false) (h : E t u) : Related Plain E q t u := by
  have ht' := all_hasPlaceholder.1 ht
  have hu' := all_hasPlaceholder.1 hu
  refine ⟨ht'.classOr, hu'.classOr, ?_⟩
  rwa [q.eliminate_eq_self ht', q.eliminate_eq_self hu']

/-- Every context that was reached is sound for every relation that has the rules and the
assumptions so far. -/
theorem Reached.sound (h : Reached R A q) (hR : R.Over Plain) (hE : LocalTheory R E)
    (hA : ∀ a ∈ A, E a.1 a.2) : Sound Plain E q := by
  have hp := not_plain_placeholder
  induction h with
  | start => exact sound_empty
  | @assume R A s s' lhs rhs out limit o _ hlhs hrhs hout ih =>
    rw [forall_mem_cons] at hA
    have hs := ih hR hE hA.2
    have hrelated := related_of_plain s.equalities hlhs hrhs hA.1
    have hkeeps :=
      keeps_assume (show LocalTheory (Setting.rules ⟨R, limit, o⟩) E from hE) hp hR hs hrelated
    exact (hkeeps.of_ok hout).sound
  | @canonicalize R A s s' limit o _ hout ih =>
    have hkeeps :=
      keeps_canonicalize (show LocalTheory (Setting.rules ⟨R, limit, o⟩) E from hE) hp hR
        (ih hR hE hA)
    exact (hkeeps.of_ok hout).sound
  | install _ hsub ih => exact ih (fun id r hr => hR id r (hsub id r hr)) (hE.of_sub hsub) hA

/-- What a term without placeholders is reduced to stands for a term that is equal to it, and an
inconsistent context has a clash. -/
theorem Reached.locallyEqual_eliminate (h : Reached R A q) (hR : R.Over Plain) :
    (∀ depth t u, t.hasPlaceholder = false →
      Reduction.run? R q.replacer depth .full t = some u → LocallyEqual R A (q.eliminate u) t) ∧
    (q.inconsistent → Clash (LocallyEqual R A)) := by
  have hp := not_plain_placeholder
  have hE := localTheory_locallyEqual R A
  have hq := h.sound hR hE fun _ => locallyEqual_of_mem
  refine ⟨fun depth t u ht hu => ?_, hq.clash⟩
  have hplain := all_hasPlaceholder.1 ht
  have htu := (related_run? hE.toRuleCongruence hp hR hq hplain.classOr hu).holds
  rw [q.eliminate_eq_self hplain] at htu
  exact hE.symm htu

/-! ### An equation between arguments -/

/-- The declaration `d5` as another name of `d6`. -/
def otherName : RuleTable := RuleTable.install {} 5 (.lambda (.decl 5) 0 (.decl 6))

/-- The context in which `d6 = s d7` is assumed. -/
def successorAssumed : State where
  equalities :=
    { classes := #[⟨0, .app (.postulate 0) (.decl 7), true⟩], members := [(.decl 6, 0)] }
  journal := [.assuming (.decl 6) (.app (.postulate 0) (.decl 7))]

/-- The same context after `d5 = s z` is assumed too, `d5` being another name of `d6`. -/
def oneAssumed : State where
  equalities :=
    { classes := #[⟨0, .app (.postulate 0) (.decl 7), true⟩, ⟨1, .postulate 1, true⟩]
      members := [(.decl 6, 0), (.decl 7, 1)]
      generation := 1 }
  journal := .assuming (.app (.postulate 0) (.decl 7)) (.app (.postulate 0) (.postulate 1)) ::
    successorAssumed.journal

/-- There `d7` is reduced to `z`, which is equal to it by the rule, both assumptions and injectivity
of `s`. -/
theorem locallyEqual_otherName :
    LocallyEqual otherName [(.decl 5, .app (.postulate 0) (.postulate 1)),
      (.decl 6, .app (.postulate 0) (.decl 7))] (.postulate 1) (.decl 7) := by
  have hfirst : Reached {} [(.decl 6, .app (.postulate 0) (.decl 7))] successorAssumed.equalities :=
    .assume (s := ⟨empty, []⟩) 8 .recorded (.start {}) rfl rfl (by rfl)
  have hnamed : Reached otherName [(.decl 6, .app (.postulate 0) (.decl 7))]
      successorAssumed.equalities := hfirst.install (sub_install _ rfl)
  have hone : Reached otherName [(.decl 5, .app (.postulate 0) (.postulate 1)),
      (.decl 6, .app (.postulate 0) (.decl 7))] oneAssumed.equalities :=
    .assume 8 .recorded hnamed rfl rfl (by rfl)
  have hR : otherName.Over Plain := by
    refine Over.install nofun (Rule.over_lambda.2 ?_)
    exact .inr nofun
  exact (hone.locallyEqual_eliminate hR).1 8 (.decl 7) (.postulate 1) rfl (by decide +kernel)

/-! ### A rule with a placeholder -/

/-- The declaration `d3` as another name of the placeholder `#0`. -/
def leakedPlaceholder : RuleTable := RuleTable.install {} 3 (.lambda (.decl 3) 0 (.placeholder 0))

/-- The context in which `d2 = p0` is assumed: `#0` stands for `p0` there. -/
def firstClassAssumed : State where
  equalities :=
    { classes := #[⟨0, .postulate 0, true⟩], members := [(.decl 2, 0)], generation := 1 }
  journal := [.assuming (.decl 2) (.postulate 0)]

/-- The same context after `d3 = p1` is assumed too. -/
def clashAssumed : State where
  equalities := { firstClassAssumed.equalities with inconsistent := true }
  journal := .assuming (.postulate 0) (.postulate 1) :: firstClassAssumed.journal

/-- A meaning of terms under which `d2 = p0`, and `d3 = #0 = p1`. -/
def readPlaceholder : Term → Term
  | .app f x => .app (readPlaceholder f) (readPlaceholder x)
  | .decl 2 => .postulate 0
  | .decl 3 => .postulate 1
  | .placeholder 0 => .postulate 1
  | t => t

private theorem readPlaceholder_apply (t : Term) (xs : List Term) :
    readPlaceholder (t.apply xs) = (readPlaceholder t).apply (xs.map readPlaceholder) := by
  induction xs generalizing t with
  | nil => rfl
  | cons x xs ih => rw [apply_cons, ih, map_cons, apply_cons, readPlaceholder]

private theorem readPlaceholder_of_isRigid {t : Term} (ht : t.isRigid) :
    (readPlaceholder t).head = t.head ∧ (readPlaceholder t).args = t.args.map readPlaceholder := by
  have h := readPlaceholder_apply t.head t.args
  have hhead : readPlaceholder t.head = t.head := by
    unfold isRigid at ht
    split at ht <;> simp_all [readPlaceholder]
  rw [apply_head_args, hhead] at h
  simp [h]

private theorem localTheory_readPlaceholder :
    LocalTheory leakedPlaceholder fun t u => readPlaceholder t = readPlaceholder u where
  refl _ := rfl
  symm := Eq.symm
  trans := Eq.trans
  app hf hx := by rw [readPlaceholder, readPlaceholder, hf, hx]
  rule id r args caps rest hr _ hm := by
    rw [leakedPlaceholder, ruleFor?_install] at hr
    split at hr
    · next hid =>
      cases hr
      cases hid
      obtain ⟨rfl, rfl⟩ := hm
      rw [readPlaceholder_apply, readPlaceholder_apply]
      rfl
    · cases hr
  injective t u ht hu hs h := by
    have hargs : t.args.map readPlaceholder = u.args.map readPlaceholder := by
      rw [← (readPlaceholder_of_isRigid ht).2, h, (readPlaceholder_of_isRigid hu).2]
    rwa [← forall₂_eq_eq_eq, forall₂_map_left_iff, forall₂_map_right_iff] at hargs

/-- If a rule mentions a placeholder, a context may be inconsistent without a clash: `#0` stands for
`p0` in the context only. -/
theorem exists_inconsistent_of_placeholder : ∃ R A q,
    Reached R A q ∧ q.inconsistent ∧ ¬ Clash (LocallyEqual R A) := by
  have hfirst : Reached leakedPlaceholder [(.decl 2, .postulate 0)] firstClassAssumed.equalities :=
    .assume (s := ⟨empty, []⟩) 8 .recorded (.start _) rfl rfl (by rfl)
  have hclash : Reached leakedPlaceholder [(.decl 3, .postulate 1), (.decl 2, .postulate 0)]
      clashAssumed.equalities :=
    .assume 8 .recorded hfirst rfl rfl (by rfl)
  refine ⟨_, _, _, hclash, rfl, ?_⟩
  rintro ⟨t, u, ht, hu, hs, h⟩
  have hread := h _ localTheory_readPlaceholder (by simp [readPlaceholder])
  obtain ⟨hthead, htargs⟩ := readPlaceholder_of_isRigid ht
  obtain ⟨huhead, huargs⟩ := readPlaceholder_of_isRigid hu
  refine hs ⟨by rw [← hthead, hread, huhead], ?_⟩
  rw [← length_map readPlaceholder, ← htargs, hread, huargs, length_map]

end Equalities
end Elaboration
