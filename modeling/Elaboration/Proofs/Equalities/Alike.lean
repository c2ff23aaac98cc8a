import Elaboration.Proofs.Equalities.Level
import Elaboration.Proofs.Reduction.Relevance

/-!
# Changes that go alike

A change of a local equality context depends on its equalities and on the rules of the declarations
that its terms depend on. From the same equalities, under tables that agree on these declarations,
it gives the same answer and leads to the same equalities again.
-/

namespace Elaboration

open Ends List Reduction Term
namespace Equalities

/-- All declarations of the term are in `p`. -/
abbrev Within (p : Nat → Prop) (t : Term) : Prop := t.All (DeclIn p)

/-- The same equalities, last normalised against another number of rules. -/
def dated (q : Equalities) (g : Nat) : Equalities := { q with generation := g }

/-- The states have the same equalities, all of them between terms over `p`, the second one as of
`g`.
-/
structure Twin (p : Nat → Prop) (g : Nat) (s s1 : State) : Prop where
  same : s1.equalities = s.equalities.dated g
  all : s.equalities.AllTerms (Within p)

/-- Where the first change answers, the second one gives the same answer, which is in `Q`, and the
states have the same equalities again. -/
def Alike {α : Type} (p : Nat → Prop) (g : Nat) (x y : Change α) (s s1 : State)
    (Q : α → Prop) : Prop :=
  ∀ a s', x s = .ok a s' → ∃ s1', y s1 = .ok a s1' ∧ Q a ∧ Twin p g s' s1'

variable {p : Nat → Prop} {α β : Type} {s s1 : State} {x y : Change α} {q : Equalities}
  {Q : α → Prop} {R S : RuleTable} {limit : Nat} {o : Order} {t u : Term} {c d g n : Nat}

/-- Being over a set of declarations is hereditary. -/
theorem hereditary_within : Hereditary (Within p) := ⟨Iff.rfl, fun _ => nofun⟩

/-- Normalising a term changes nothing else. -/
theorem normalize_eq_ok_iff {env : Setting} {s' : State} : normalize env t s = .ok u s' ↔
      s' = s ∧ run? env.rules s.equalities.replacer env.limit .full t = some u := by
  unfold normalize reduceIn
  cases run? env.rules s.equalities.replacer env.limit .full t with
  | none => simp
  | some v =>
    constructor
    · intro h
      cases h
      exact ⟨rfl, rfl⟩
    · rintro ⟨rfl, h⟩
      cases h
      rfl

private theorem dated_classes : (q.dated n).classes = q.classes := rfl

private theorem dated_root : (q.dated n).root c = q.root c := rfl

private theorem dated_replacer : (q.dated n).replacer = q.replacer := rfl

private theorem dated_member? : (q.dated n).member? t = q.member? t := rfl

private theorem dated_memberRoot? : (q.dated n).memberRoot? t = q.memberRoot? t := rfl

private theorem dated_eliminate : (q.dated n).eliminate t = q.eliminate t :=
  eliminate_of_classes dated_classes t

private theorem dated_mentions : (q.dated n).mentions c t = q.mentions c t := by
  induction t with
  | app f x ihf ihx =>
    unfold mentions
    rw [ihf, ihx]
    rfl
  | _ => rfl

namespace Alike

private theorem pure {a : α} (h : Twin p g s s1) (ha : Q a) :
    Alike p g (pure a) (pure a) s s1 Q := by
  rintro _ _ ⟨⟩
  exact ⟨s1, rfl, ha, h⟩

private theorem bind {f f' : α → Change β} {Q' : β → Prop} (h : Alike p g x y s s1 Q)
    (hf : ∀ a s s1, Q a → Twin p g s s1 → Alike p g (f a) (f' a) s s1 Q') :
    Alike p g (x >>= f) (y >>= f') s s1 Q' := by
  intro b s'' hb
  obtain ⟨a, s', ha, hb⟩ := bind_eq_ok_iff.1 hb
  obtain ⟨s1', hy, hQ, htwin⟩ := h a s' ha
  obtain ⟨s1'', hg, hend⟩ := hf a s' s1' hQ htwin b s'' hb
  exact ⟨s1'', bind_eq_ok_iff.2 ⟨a, s1', hy, hg⟩, hend⟩

private theorem answer {f : α → β} (h : Alike p g x y s s1 Q) :
    Alike p g (x >>= fun a => Pure.pure (f a)) (y >>= fun a =>
      Pure.pure (f a)) s s1 fun _ => True :=
  h.bind fun _ _ _ _ h => pure h trivial

private theorem note {e e' : Event} (h : Twin p g s s1) :
    Alike p g (note e) (note e') s s1 fun _ => True := by
  rintro _ _ ⟨⟩
  exact ⟨_, rfl, trivial, h.same, h.all⟩

private theorem replace {q q1 : Equalities} (h : Twin p g ⟨q, s.journal⟩ ⟨q1, s1.journal⟩) :
    Alike p g (replace q) (replace q1) s s1 fun _ => True := by
  rintro _ _ ⟨⟩
  exact ⟨_, rfl, trivial, h⟩

private theorem current_bind {f f' : Equalities → Change α} (h : Twin p g s s1)
    (hf : Alike p g (f s.equalities) (f' (s.equalities.dated g)) s s1 Q) :
    Alike p g (current >>= f) (current >>= f') s s1 Q := by
  rw [← h.same] at hf
  exact hf

private theorem normalize (hRS : R.AgreeOn p S) (h : Twin p g s s1) (ht : Within p t) :
    Alike p g (normalize ⟨R, limit, o⟩ t) (normalize ⟨S, limit, o⟩ t) s s1 (Within p) := by
  intro u s' hu
  have hreplacer := h.all.replacer hereditary_within
  obtain ⟨rfl, hrun⟩ := normalize_eq_ok_iff.1 hu
  refine ⟨s1, normalize_eq_ok_iff.2 ⟨rfl, ?_⟩, all_declIn_of_run? hRS hreplacer _ _ ht hrun, h⟩
  rw [h.same]
  exact (run?_of_agreeOn hRS hreplacer limit .full ht).trans hrun

/-- The root of a known class, or a new class for the term. -/
private def found (t : Term) (q : Equalities) : Option Nat → Change Nat
  | some c => Pure.pure (q.root c)
  | none => do
    Equalities.replace { q with
      classes := q.classes.push ⟨q.classes.size, q.eliminate t, false⟩
      members := q.members ++ [(t, q.classes.size)] }
    Pure.pure q.classes.size

private theorem classOf (h : Twin p g s s1) (ht : Within p t) :
    Alike p g (classOf t) (classOf t) s s1 fun _ => True := by
  refine current_bind h ?_
  have hfound : ∀ known, Alike p g (found t s.equalities known)
      (found t (s.equalities.dated g) known) s s1 fun _ => True := by
    intro known
    cases known with
    | some c => exact pure h trivial
    | none =>
      simp only [found, dated_classes, dated_eliminate]
      exact answer (replace ⟨rfl, h.all.push hereditary_within ht _⟩)
  -- which class is known is read off the same members and classes
  exact hfound _

private theorem existingRoot (h : Twin p g s s1) :
    Alike p g (existingRoot c) (existingRoot c) s s1 fun _ => True := by
  refine current_bind h ?_
  by_cases hc : c < s.equalities.classes.size
  · simp only [dated_classes, dated_root, hc, if_true]
    exact pure h trivial
  · simp only [hc, if_false]
    exact fun _ _ hstop => nomatch hstop

private theorem settleRigid (h : Twin p g s s1) (ht : Within p t) :
    Alike p g (settleRigid c t) (settleRigid c t) s s1 fun _ => True := by
  refine current_bind h ?_
  simp only [dated_mentions, dated_classes]
  split
  · exact answer (note h)
  · have hsettled := h.all.modify c (f := fun cls => { cls with canonical := t, rigid := true })
      fun _ _ => ht
    exact answer (replace ⟨rfl, hsettled⟩)

/-- Two ways of merging that go alike. -/
def Merges (p : Nat → Prop) (g : Nat)
    (m m' : Term → Term → Change (Except Contradiction Unit)) : Prop :=
  ∀ s s1 t u, Twin p g s s1 → Within p t → Within p u →
    Alike p g (m t u) (m' t u) s s1 fun _ => True

section

variable {m m' : Term → Term → Change (Except Contradiction Unit)} (hRS : R.AgreeOn p S)
  (hm : Merges p g m m')

include hRS hm

private theorem attach (h : Twin p g s s1) (ht : Within p t) :
    Alike p g (attach ⟨R, limit, o⟩ m c t) (attach ⟨S, limit, o⟩ m' c t) s s1 fun _ => True := by
  refine current_bind h ?_
  simp only [dated_classes, dated_root, dated_eliminate]
  split
  · next canonical hc =>
    refine bind (normalize hRS h (h.all.canonical _ _ hc)) fun known _ _ hknown h => ?_
    exact hm _ _ known t h hknown ht
  · exact settleRigid h (h.all.eliminate hereditary_within ht)

private theorem unite (h : Twin p g s s1) :
    Alike p g (unite ⟨R, limit, o⟩ m c d) (unite ⟨S, limit, o⟩ m' c d) s s1 fun _ => True := by
  refine bind (existingRoot h) fun c _ _ _ h => bind (existingRoot h) fun d s s1 _ h => ?_
  split
  · exact pure h trivial
  · refine current_bind h ?_
    refine bind (replace ⟨rfl, h.all.modify _ fun _ h => h⟩) fun _ _ _ _ h' => ?_
    simp only [dated_classes]
    split
    · next canonical hbelow =>
      have hcanonical := h.all.canonical _ _ hbelow
      split
      · next known htop =>
        refine bind (normalize hRS h' (h.all.canonical _ _ htop)) fun known _ _ hknown h => ?_
        refine bind (normalize hRS h hcanonical) fun canonical _ _ hcanonical h => ?_
        exact hm _ _ known canonical h hknown hcanonical
      · exact settleRigid h' hcanonical
    · exact pure h' trivial

private theorem mergeArgs (h : Twin p g s s1) {pairs : List (Term × Term)}
    (hpairs : ∀ a ∈ pairs, Within p a.1 ∧ Within p a.2) :
    Alike p g (mergeArgs ⟨R, limit, o⟩ m pairs) (mergeArgs ⟨S, limit, o⟩ m' pairs) s s1
      fun _ => True := by
  induction pairs generalizing s s1 with
  | nil => exact pure h trivial
  | cons a rest ih =>
    rw [forall_mem_cons] at hpairs
    refine bind (normalize hRS h hpairs.1.1) fun x _ _ hx h => ?_
    refine bind (normalize hRS h hpairs.1.2) fun y _ _ hy h => ?_
    refine bind (hm _ _ x y h hx hy) fun out _ _ _ h => ?_
    cases out with
    | error e => exact pure h trivial
    | ok _ => exact ih h hpairs.2

omit hm

private theorem merges_merge (depth : Nat) :
    Merges p g (merge ⟨R, limit, o⟩ depth) (merge ⟨S, limit, o⟩ depth) := by
  induction depth with
  | zero => exact fun _ _ _ _ _ _ _ _ _ hstop => nomatch hstop
  | succ depth ih =>
    intro s s1 t u h ht hu
    unfold merge
    split
    · exact pure h trivial
    · split
      · split
        · refine mergeArgs hRS ih h fun a ha => ?_
          obtain ⟨ha, ha'⟩ := of_mem_zip ha
          exact ⟨ht.args _ ha, hu.args _ ha'⟩
        · refine current_bind h ?_
          exact answer (replace ⟨rfl, h.all.canonical, h.all.member⟩)
      · exact bind (classOf h hu) fun _ _ _ _ h => attach hRS ih h ht
      · exact bind (classOf h ht) fun _ _ _ _ h => attach hRS ih h hu
      · refine bind (classOf h ht) fun _ _ _ _ h => bind (classOf h hu) fun _ _ _ _ h => ?_
        exact unite hRS ih h

private theorem reduceAllIn (h : Twin p g s s1) {ts : List Term} (hts : ∀ t ∈ ts, Within p t) :
    Alike p g (reduceAllIn ⟨R, limit, o⟩ .spine ts) (reduceAllIn ⟨S, limit, o⟩ .spine ts) s s1
      fun us => ∀ u ∈ us, Within p u := by
  have hreplacer := h.all.replacer hereditary_within
  have hrun := runAll?_of_agreeOn hRS hreplacer limit .spine hts
  intro us s' hus
  unfold Equalities.reduceAllIn at *
  dsimp only at *
  rw [h.same, dated_replacer, hrun]
  split at hus
  · next hforms =>
    cases hus
    exact ⟨s1, rfl, all_declIn_of_runAll? hRS hreplacer limit .spine hts hforms, h⟩
  · cases hus

private theorem moved (h : Twin p g s s1) :
    Alike p g (moved ⟨R, limit, o⟩) (moved ⟨S, limit, o⟩) s s1
    fun pending => ∀ m ∈ pending, Within p m.1 := by
  refine current_bind h ?_
  simp only [dated_eliminate]
  refine bind (reduceAllIn hRS h fun t ht => ?_) fun forms _ _ hforms h => pure h fun m hm => ?_
  · obtain ⟨m, hm, rfl⟩ := mem_map.1 ht
    exact h.all.eliminate hereditary_within (h.all.member m ((o.perm _).mem_iff.1 hm))
  · obtain ⟨⟨old, fresh⟩, hpair, hm⟩ := mem_filterMap.1 hm
    dsimp only at hm
    split at hm
    · cases hm
    · cases hm
      exact hforms _ (of_mem_zip hpair).2

private theorem recordMoved (h : Twin p g s s1) (ht : Within p t) :
    Alike p g (recordMoved ⟨R, limit, o⟩ t c) (recordMoved ⟨S, limit, o⟩ t c) s s1 fun _ =>
      True := by
  have hm : Merges p g (merge ⟨R, limit, o⟩ limit) (merge ⟨S, limit, o⟩ limit) :=
    merges_merge hRS limit
  refine current_bind h ?_
  simp only [dated_root, dated_member?, dated_memberRoot?]
  by_cases hknown : s.equalities.memberRoot? t = some (s.equalities.root c)
  · simp only [hknown, if_true]
    exact pure h trivial
  · simp only [hknown, if_false]
    split
    · exact answer (attach hRS hm h ht)
    · split
      · exact answer (unite hRS hm h)
      · split
        · exact answer (unite hRS hm h)
        · exact answer (replace ⟨rfl, h.all.append ht _⟩)

private theorem recordAllMoved (h : Twin p g s s1) {pending : List (Term × Nat)}
    (hpending : ∀ m ∈ pending, Within p m.1) :
    Alike p g (recordAllMoved ⟨R, limit, o⟩ pending) (recordAllMoved ⟨S, limit, o⟩ pending) s s1
      fun _ => True := by
  induction pending generalizing s s1 with
  | nil => exact pure h trivial
  | cons m rest ih =>
    rw [forall_mem_cons] at hpending
    refine bind (recordMoved hRS h hpending.1) fun _ _ _ _ h => ?_
    exact answer (ih h hpending.2)

/-- Rounds go alike. -/
theorem round (h : Twin p g s s1) :
    Alike p g (round ⟨R, limit, o⟩) (round ⟨S, limit, o⟩) s s1 fun _ => True :=
  bind (moved hRS h) fun _ _ _ hpending h => recordAllMoved hRS h hpending

end

end Alike
end Equalities
end Elaboration
