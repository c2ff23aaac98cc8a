import Elaboration.Proofs.Equalities.Discipline
import Elaboration.Proofs.Rule.Closed

/-!
# Levels of local equalities

A local equality context is below a level if its canonical terms and its members are. Then so is all
that reduction and elimination write in it, and every change by closed rules and terms below the
level leaves it below the level.
-/

namespace Elaboration
namespace Equalities

/-- A property that an application has if and only if its parts do, and every placeholder has. -/
structure Hereditary (P : Term → Prop) : Prop where
  app {f x : Term} : P (.app f x) ↔ P f ∧ P x
  placeholder (c : Nat) : P (.placeholder c)

/-- Every term that the context holds has the property. -/
structure AllTerms (P : Term → Prop) (q : Equalities) : Prop where
  canonical : ∀ (c : Nat) (cls : Class), q.classes[c]? = some cls → P cls.canonical
  member : ∀ m ∈ q.members, P m.1

/-- Every term that the context holds is below `d`. -/
abbrev Below (d : Nat) : Equalities → Prop := AllTerms (Term.Below d)

variable {d d' : Nat} {q : Equalities} {t u : Term} {P : Term → Prop}

theorem below_empty : empty.Below d where
  canonical _ _ h := by simp [empty] at h
  member _ h := nomatch h

/-- Levels of terms are such a property. -/
theorem hereditary_below : Hereditary (Term.Below d) := ⟨Iff.rfl, fun _ => trivial⟩

theorem Below.mono (hq : q.Below d) (hd : d ≤ d') : q.Below d' where
  canonical c cls hc := (hq.canonical c cls hc).mono hd
  member m hm := (hq.member m hm).mono hd

section

variable (hP : Hereditary P) (hq : q.AllTerms P)
include hq

/-- A class is changed. -/
theorem AllTerms.modify {f : Class → Class} (c : Nat)
    (hf : ∀ cls : Class, P cls.canonical → P (f cls).canonical) :
    { q with classes := q.classes.modify c f }.AllTerms P where
  canonical j cls hj := by
    rw [Array.getElem?_modify] at hj
    split at hj
    · obtain ⟨cls', hcls', rfl⟩ := Option.map_eq_some_iff.1 hj
      exact hf cls' (hq.canonical j cls' hcls')
    · exact hq.canonical j cls hj
  member := hq.member

/-- A member is added. -/
theorem AllTerms.append (ht : P t) (c : Nat) :
    { q with members := q.members ++ [(t, c)] }.AllTerms P where
  canonical := hq.canonical
  member := List.forall_mem_append.2 ⟨hq.member, List.forall_mem_singleton.2 ht⟩

include hP

private theorem AllTerms.output (c : Nat) : P (q.output c) := by
  unfold Equalities.output
  dsimp only
  split
  · next cls hc =>
    split
    · exact hq.canonical _ cls hc
    · exact hP.placeholder _
  · exact hP.placeholder _

/-- What reduction writes has the property. -/
theorem AllTerms.replacer (t u : Term) (h : q.replacer t = some u) : P u := by
  unfold Equalities.replacer at h
  split at h
  · split at h
    · cases h
      exact hq.output hP _
    · cases h
  · obtain ⟨c, _, rfl⟩ := Option.map_eq_some_iff.1 h
    exact hq.output hP c

private theorem AllTerms.value (c : Nat) : P (q.value c) := by
  unfold Equalities.value canonical?
  cases h : q.classes[q.root c]? with
  | none => exact hP.placeholder c
  | some cls => exact hq.canonical _ cls h

/-- What elimination writes has the property. -/
theorem AllTerms.eliminate (ht : P t) : P (q.eliminate t) := by
  induction t with
  | app f x ihf ihx =>
    obtain ⟨hf, hx⟩ := hP.app.1 ht
    exact hP.app.2 ⟨ihf hf, ihx hx⟩
  | placeholder c => exact hq.value hP c
  | _ => exact ht

/-- A class is added. -/
theorem AllTerms.push (ht : P t) (c : Nat) :
    { q with
      classes := q.classes.push ⟨c, q.eliminate t, false⟩
      members := q.members ++ [(t, c)] }.AllTerms P where
  canonical j cls hj := by
    rw [Array.getElem?_push] at hj
    split at hj
    · cases hj
      exact hq.eliminate hP ht
    · exact hq.canonical j cls hj
  member := (hq.append ht c).member

end

/-- Under closed rules, terms below the level may be merged. -/
def Below.discipline (d : Nat) {env : Setting} (hR : env.rules.Closed) : Discipline env where
  Holds s := s.equalities.Below d
  Leads _ _ := True
  Stops _ _ _ := True
  Equates _ t u := t.Below d ∧ u.Below d
  refl _ := trivial
  trans _ _ := trivial
  stops _ _ := trivial
  symm h := h.symm
  chain h h' := ⟨h.1, h'.2⟩
  later _ _ _ h := h
  reduces hs h hrun := ⟨h.1, Reduction.below_run? hR (hs.replacer hereditary_below) hrun h.1⟩
  reducesAll hs hts hrun a ha :=
    have hmem := List.of_mem_zip ha
    ⟨(hts _ hmem.1).1, Reduction.below_runAll? hR (hs.replacer hereditary_below) hrun
      (fun t ht => (hts t ht).1) _ hmem.2⟩
  args h _ _ _ _ a ha :=
    have hmem := List.of_mem_zip ha
    ⟨h.1.args _ hmem.1, h.2.args _ hmem.2⟩
  member hs hm := ⟨trivial, hs.member _ hm⟩
  root _ _ := ⟨trivial, trivial⟩
  canonical hs _ hc := ⟨trivial, hs.canonical _ _ hc⟩
  eliminate hs h := ⟨h.1, hs.eliminate hereditary_below h.1⟩
  update {s q} hs h _ := by
    refine ⟨?_, trivial⟩
    cases h with
    | enter _ ht => exact hs.push hereditary_below ht.1 _
    | settle h =>
      refine hs.modify _ fun _ _ => ?_
      obtain ⟨t, _, ht, rfl⟩ | ⟨_, _, _, _, rfl, ht⟩ := h
      · exact hs.eliminate hereditary_below ht.2
      · exact ht.2
    | join => exact hs.modify _ fun _ h => h
    | record _ ht => exact hs.append ht.2 _
    | contradict | date => exact ⟨hs.canonical, hs.member⟩
  noted hs _ := ⟨hs, trivial⟩
  exhausted _ := trivial
  outOfRange _ _ _ := trivial

variable {env : Setting} {s : State}

theorem below_canonicalize (hR : env.rules.Closed) (hs : s.equalities.Below d) :
    Ends (canonicalize env) s (fun _ s' => s'.equalities.Below d) fun _ _ => True :=
  ((Below.discipline d hR).keeps_canonicalize hs).imp (fun _ _ h => h.1)

theorem below_assume (hR : env.rules.Closed) (ht : t.Below d) (hu : u.Below d)
    (hs : s.equalities.Below d) :
    Ends (assume env t u) s (fun _ s' => s'.equalities.Below d) fun _ _ => True :=
  (Discipline.keeps_assume (D := Below.discipline d hR) ⟨ht, hu⟩ hs).imp (fun _ _ h => h.1)

end Equalities
end Elaboration
