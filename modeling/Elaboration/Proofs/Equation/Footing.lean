import Elaboration.Proofs.Equation.Step
import Elaboration.Proofs.Telescope.Footing

/-!
# What steps on equations keep

Whatever is kept by the actions below a telescope, by reducing and by eliminating placeholders is
kept by a step on an equation, and holds of the equations that it derives.
-/

namespace Elaboration

open Flexible List Term

/-- What of a footing steps on equations rely on besides: reduction leads from sides to sides, and
elimination from sides to values. -/
structure Footing.Solves {C : Course Stop Kernel} (F : Footing C) : Prop where
  reduce {tele t k} : F.Tele tele k → F.Side tele.depth t →
    C.Keeps (tele.reduce t) k fun u _ => F.Side tele.depth u
  eliminate {tele t k} : F.Tele tele k → F.Side tele.depth t →
    C.Keeps (tele.eliminate t) k fun u _ => F.Value tele.depth u
  violated {v k} : C.Holds k → C.Stops k (.violation v) k

/-- The equation is below a telescope of the footing. -/
structure Footing.Equates {C : Course Stop Kernel} (F : Footing C) (e : Equation) (k : Kernel) :
    Prop where
  telescope : F.Tele e.telescope k
  lhs : F.Side e.telescope.depth e.lhs
  rhs : F.Side e.telescope.depth e.rhs

namespace Solver

/-- Steps have indeterminates on top, of which nothing is said. -/
abbrev stepping (C : Course Stop Kernel) : Regime Stop Kernel Indeterminates :=
  C.beneath fun _ _ => True

variable {C : Course Stop Kernel} {F : Footing C} {e : Equation} {lhs rhs : Term} {k k' : Kernel}
  {free : Indeterminates} {f : Flexible} {tele : Telescope}

theorem keeps_lift {α : Type} {y : KernelM α} {Q : α → Kernel → Prop} (hy : C.Keeps y k Q) :
    (stepping C).Keeps (liftM y) free k fun a _ k' => Q a k' :=
  hy.lift fun _ _ h => h

/-- Every equation that was derived is below a telescope of the footing. -/
def Derives (F : Footing C) (v : Verdict) (k : Kernel) : Prop :=
  ∀ es, v = .derived es → ∀ e ∈ es, F.Equates e k

/-- The same, if a verdict was reached. -/
def Reaches (F : Footing C) (out : Option Verdict) (k : Kernel) : Prop :=
  ∀ v, out = some v → Derives F v k

private theorem reaches_none : Reaches F none k := nofun

private theorem reaches_some {v : Verdict} (h : Derives F v k) : Reaches F (some v) k := by
  rintro _ ⟨⟩
  exact h

private theorem derives_derived {es : List Equation} (h : ∀ e ∈ es, F.Equates e k) :
    Derives F (.derived es) k := by
  rintro _ ⟨⟩
  exact h

private theorem value_of_mapArgs? {t r : Term} (ht : t.All Plain)
    (h : t.mapArgs? f.slot? = some r) : F.Value f.levels.length r := by
  induction t generalizing r with
  | app g x ihg ihx =>
    obtain ⟨g', x', hg, hx, rfl⟩ := mapArgs?_app.1 h
    exact ⟨ihg ht.1 hg, ihx ht.2 hx⟩
  | arg i =>
    obtain ⟨j, hj, rfl, _⟩ := slot?_eq_some h
    exact F.value_arg hj
  | postulate =>
    cases h
    exact F.value_postulate
  | decl =>
    cases h
    exact F.value_decl
  | leaf =>
    cases h
    exact F.value_leaf
  | placeholder i => exact absurd rfl (ht i)

private theorem keeps_define {value : Term} (h : F.Value f.levels.length value) :
    (stepping C).Keeps (define f value) free k fun _ _ _ => True :=
  .bind (keeps_lift (F.note rfl)) fun _ _ _ _ _ _ _ =>
    .bind (Course.keeps_modify fun h => h) fun _ _ _ _ _ _ _ => keeps_lift (F.addLambda _ h)

private theorem keeps_eliminate (hF : F.Solves) {t : Term} (h : F.Tele tele k)
    (ht : F.Side tele.depth t) :
    C.Keeps (tele.eliminate t) k fun u _ => F.Value tele.depth u ∧ u.All Plain :=
  (hF.eliminate h ht).and_ends ((tele.ends_eliminate t k).answer
    (fun _ _ h => all_hasPlaceholder.1 h.2.2))

private theorem keeps_extract (hF : F.Solves) {pattern value : Term} (h : F.Tele tele k)
    (hvalue : F.Side tele.depth value) :
    (stepping C).Keeps (extract tele pattern value) free k
      fun out _ k' => Reaches F out k' := by
  refine .get_bind ?_
  split
  · exact .pure fun _ => reaches_none
  · refine .bind (keeps_lift (keeps_eliminate hF h hvalue)) fun u _ _ _ _ _ hu => ?_
    refine .getThe_bind ?_
    split
    · exact .pure fun _ => reaches_none
    · split
      · exact .pure fun _ => reaches_none
      · next hreplacement =>
        refine .bind (keeps_define (F := F) (value_of_mapArgs? hu.2 hreplacement))
          fun _ _ _ _ _ _ _ => ?_
        exact .pure fun _ => reaches_some nofun

private theorem keeps_deepen (h : F.Tele e.telescope k) (hl : F.Side e.telescope.depth lhs)
    (hr : F.Side e.telescope.depth rhs) :
    (stepping C).Keeps (deepen e lhs rhs) free k fun out _ k' => Reaches F out k' := by
  refine .getThe_bind ?_
  split
  · refine .bind (keeps_lift F.keeps_freshPostulate) ?_
    rintro _ _ k1 _ _ hle ⟨id, rfl⟩
    have htype : F.Value e.telescope.depth (.postulate id) := F.value_postulate
    have hextend := (F.extend (F.tele_later hle h) htype).and_ends
      ((e.telescope.ends_extend (.postulate id) k1).answer (fun _ _ h => h.telescope))
    refine .bind (keeps_lift hextend) ?_
    rintro deeper _ k2 _ _ _ ⟨hdeeper, htele⟩
    refine .bind (keeps_lift (F.note rfl)) fun _ _ k3 _ _ hle3 _ => .pure fun _ => ?_
    refine reaches_some (derives_derived (forall_mem_singleton.2 ?_))
    have hdepth : deeper.depth = e.telescope.depth + 1 := by rw [htele, Telescope.depth_bound]
    have hx : F.side deeper.depth (.arg e.telescope.depth) :=
      F.side_value (F.value_arg (hdepth ▸ Nat.lt_succ_self _))
    have hle : e.telescope.depth ≤ deeper.depth := hdepth ▸ Nat.le_succ _
    exact ⟨F.tele_later hle3 hdeeper, ⟨hl.mono hle, hx⟩, ⟨hr.mono hle, hx⟩⟩
  · exact .pure fun _ => reaches_none

private theorem reaches_explodeSymmetric (h : F.Tele e.telescope k)
    (hl : F.Side e.telescope.depth lhs)
    (hr : F.Side e.telescope.depth rhs) : Reaches F (explodeSymmetric e lhs rhs) k := by
  unfold explodeSymmetric
  split
  · split
    · split
      · exact reaches_some nofun
      · refine reaches_some (derives_derived fun child hchild => ?_)
        obtain ⟨⟨x, y⟩, hxy, rfl⟩ := mem_map.1 hchild
        have hmem := of_mem_zip hxy
        exact ⟨h, All.args hl x hmem.1, All.args hr y hmem.2⟩
    · exact reaches_some nofun
  · exact reaches_none

private theorem keeps_freshIndeterminates (F : Footing C) (ts : List Term) :
    (stepping C).Keeps (freshIndeterminates ts) free k
      fun fresh _ _ => ∀ v ∈ fresh, ∃ id, v = .decl id := by
  induction ts generalizing free k with
  | nil => exact .pure nofun
  | cons t ts ih =>
    refine .bind (keeps_lift F.freshSymbol) fun id _ _ _ _ _ _ => ?_
    refine .bind (keeps_lift (F.register id)) fun _ _ _ _ _ _ _ => ?_
    refine .bind (Course.keeps_modify fun h => h) fun _ _ _ _ _ _ _ => ?_
    refine .bind ih fun others _ _ _ _ _ hothers => .pure fun _ => ?_
    exact forall_mem_cons.2 ⟨⟨id, rfl⟩, hothers⟩

private theorem keeps_imitate (hF : F.Solves) {pattern rigid head : Term} (h : F.Tele e.telescope k)
    (hpattern : F.Side e.telescope.depth pattern) (hrigid : F.Side e.telescope.depth rigid)
    (hhead : F.Value f.levels.length head) (hargs : ∀ x ∈ f.args, F.Side e.telescope.depth x) :
    (stepping C).Keeps (imitate e pattern rigid head f) free k
      fun out _ k' => Reaches F out k' := by
  refine .getThe_bind ?_
  split
  · exact .pure fun _ => reaches_none
  · refine .bind (keeps_freshIndeterminates F rigid.args) fun fresh _ k1 _ _ hle1 hfresh => ?_
    have hreplacement :
        F.Value f.levels.length (head.apply (fresh.map fun v => v.applyArgs f.levels.length)) := by
      refine all_apply.2 ⟨hhead, fun x hx => ?_⟩
      obtain ⟨v, hv, rfl⟩ := mem_map.1 hx
      obtain ⟨id, rfl⟩ := hfresh v hv
      exact Footing.value_applyArgs F.value_decl
    refine .bind (keeps_define hreplacement) fun _ _ k2 _ _ hle2 _ => ?_
    have h2 := F.tele_later hle2 (F.tele_later hle1 h)
    refine .bind (keeps_lift (hF.reduce h2 hpattern)) fun exposed _ k3 _ _ hle3 _ => ?_
    split
    · refine .pure fun _ => reaches_some (derives_derived fun child hchild => ?_)
      obtain ⟨⟨v, x⟩, hvx, rfl⟩ := mem_map.1 hchild
      obtain ⟨id, rfl⟩ := hfresh v (of_mem_zip hvx).1
      refine ⟨F.tele_later hle3 h2, ?_, All.args hrigid x (of_mem_zip hvx).2⟩
      exact all_apply.2 ⟨F.side_value F.value_decl, hargs⟩
    · exact fun hs => hF.violated hs.1

private theorem keeps_explodeAsymmetric (hF : F.Solves) {pattern rigid : Term}
    (h : F.Tele e.telescope k)
    (hpattern : F.Side e.telescope.depth pattern) (hrigid : F.Side e.telescope.depth rigid) :
    (stepping C).Keeps (explodeAsymmetric e pattern rigid) free k
      fun out _ k' => Reaches F out k' := by
  unfold explodeAsymmetric
  split
  · refine .get_bind ?_
    split
    · exact .pure fun _ => reaches_none
    · next f hf =>
      have hargs : ∀ x ∈ f.args, F.Side e.telescope.depth x :=
        (all_apply.1 ((of?_eq_some hf).1 ▸ hpattern)).2
      refine .bind (keeps_lift (keeps_eliminate hF h hrigid)) ?_
      rintro rigid' _ k1 _ _ hle ⟨hvalue, hplain⟩
      have h1 := F.tele_later hle h
      split
      · next level _ =>
        split
        · next head hslot =>
          obtain ⟨j, hj, rfl, _⟩ := slot?_eq_some hslot
          exact keeps_imitate hF h1 hpattern hvalue.side (F.value_arg hj) hargs
        · refine .bind (keeps_lift (F.note rfl)) fun _ _ _ _ _ _ _ => ?_
          exact .pure fun _ => reaches_some nofun
      · next head hno =>
        refine keeps_imitate hF h1 hpattern hvalue.side ?_ hargs
        -- a head that is no bound argument is a symbol, which rules may mention
        have hsymbol : ∀ t : Term, t.args = [] → t.All Plain → (∀ i, t ≠ .arg i) →
            F.Value f.levels.length t := by
          intro t ht hplain hne
          cases t with
          | app g x => simp at ht
          | arg i => exact absurd rfl (hne i)
          | postulate => exact F.value_postulate
          | decl => exact F.value_decl
          | leaf => exact F.value_leaf
          | placeholder i => exact absurd rfl (hplain i)
        exact hsymbol _ rigid'.args_head hplain.head hno
  · exact .pure fun _ => reaches_none

private theorem keeps_firstVerdict {otherwise : Verdict} (hotherwise : ∀ k, Derives F otherwise k)
    {attempts : List (SolverM (Option Verdict))}
    (h : ∀ x ∈ attempts, ∀ free k', C.Leads k k' →
      (stepping C).Keeps x free k' fun out _ k' => Reaches F out k')
    (hk : C.Leads k k') :
    (stepping C).Keeps (firstVerdict otherwise attempts) free k'
      fun v _ k' => Derives F v k' := by
  induction attempts generalizing free k' with
  | nil => exact .pure fun _ => hotherwise _
  | cons x attempts ih =>
    rw [forall_mem_cons] at h
    refine .bind (h.1 _ _ hk) fun out _ k1 _ _ hle hout => ?_
    cases out with
    | some v => exact .pure fun _ => hout v rfl
    | none => exact ih h.2 (C.trans hk hle)

theorem keeps_verdictOn (hF : F.Solves) (h : F.Tele e.telescope k)
    (hl : F.Side e.telescope.depth lhs) (hr : F.Side e.telescope.depth rhs) :
    (stepping C).Keeps (verdictOn e lhs rhs) free k fun v _ k' => Derives F v k' := by
  have hdeducing : ∀ {xs : List (SolverM (Option Verdict))} {p : SolverM (Option Verdict) → Prop},
      (∀ x ∈ xs, p x) → ∀ x ∈ (if e.deduce then xs else []), p x := by
    intro xs p hxs x hx
    split at hx
    · exact hxs x hx
    · cases hx
  refine fun hs => keeps_firstVerdict (fun _ => ?_) ?_ (C.refl hs.1) hs
  · split <;> exact nofun
  refine forall_mem_append.2 ⟨forall_mem_append.2 ⟨hdeducing ?_, ?_⟩, hdeducing ?_⟩
  · refine forall_mem_cons.2 ⟨fun _ k' hle => ?_, forall_mem_singleton.2 fun _ k' hle => ?_⟩
    · exact keeps_extract hF (F.tele_later hle h) hr
    · exact keeps_extract hF (F.tele_later hle h) hl
  · refine forall_mem_cons.2 ⟨fun _ k' hle => ?_, forall_mem_singleton.2 fun _ k' hle => ?_⟩
    · exact keeps_deepen (F.tele_later hle h) hl hr
    · exact .pure fun _ => reaches_explodeSymmetric (F.tele_later hle h) hl hr
  · refine forall_mem_cons.2 ⟨fun _ k' hle => ?_, forall_mem_singleton.2 fun _ k' hle => ?_⟩
    · exact keeps_explodeAsymmetric hF (F.tele_later hle h) hl hr
    · exact keeps_explodeAsymmetric hF (F.tele_later hle h) hr hl

/-- A step on an equation of the footing derives such equations. -/
theorem keeps_step (hF : F.Solves) (h : F.Equates e k) :
    (stepping C).Keeps (step e) free k fun v _ k' => Derives F v k' := by
  have hinconsistent : C.Keeps e.telescope.isInconsistent k fun _ k' => k' = k :=
    fun hk => ⟨hk, C.refl hk, rfl⟩
  refine .bind (keeps_lift hinconsistent) ?_
  rintro inconsistent _ _ _ _ _ rfl
  split
  · refine .bind (keeps_lift (F.note rfl)) fun _ _ _ _ _ _ _ => ?_
    exact .pure nofun
  · refine .bind (keeps_lift (hF.reduce h.telescope h.lhs)) fun lhs _ k1 _ _ hle1 hlhs => ?_
    have h1 := F.tele_later hle1 h.telescope
    refine .bind (keeps_lift (hF.reduce h1 h.rhs)) fun rhs _ k2 _ _ hle2 hrhs => ?_
    exact keeps_verdictOn hF (F.tele_later hle2 h1) hlhs hrhs

end Solver
end Elaboration
