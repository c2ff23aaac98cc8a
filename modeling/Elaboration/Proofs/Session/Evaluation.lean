import Elaboration.Proofs.Session.Performs
import Elaboration.Proofs.Session.Upkeep

/-!
# Evaluation performs acts

Evaluating programs performs acts, and the values that come out are made of symbols that were made;
in a strict session, which gives no rules, they are in scope. The head of a compiled rule is a
declaration that was made and that the solver may not define.
-/

namespace Elaboration

open Ends KernelM List Pattern Primitive SessionM Stage StoreM Telescope Term

namespace Term

/-- An atom that is no declaration that was not made. -/
def Made (n : Nat) (a : Term) : Prop := ∀ id, a = .decl id → id < n

/-- A term over symbols that were made; if `strict`, in scope of `depth` bound arguments. -/
structure Fits (strict : Prop) (n depth : Nat) (t : Term) : Prop where
  made : t.All (Made n)
  inScope : strict → t.All (InScope (· < n) depth)

variable {strict : Prop} {n n' depth depth' : Nat} {t u : Term}

private theorem InScope.made {a : Term} (h : InScope (· < n) depth a) : Made n a := by
  rintro id rfl
  exact h

private theorem Fits.mono (h : t.Fits strict n depth) (hn : n ≤ n') (hd : depth ≤ depth') :
    t.Fits strict n' depth' where
  made := h.made.mono fun _ ha id hid => (ha id hid).trans_le hn
  inScope hs := (h.inScope hs).mono fun _ ha =>
    ha.mono hd fun _ hid => hid.trans_le hn

private theorem fits_of_all (h : t.All (InScope (· < n) depth)) : t.Fits strict n depth :=
  ⟨h.mono fun _ => InScope.made, fun _ => h⟩

private theorem Fits.app (ht : t.Fits strict n depth) (hu : u.Fits strict n depth) :
    (app t u).Fits strict n depth :=
  ⟨⟨ht.made, hu.made⟩, fun hs => ⟨ht.inScope hs, hu.inScope hs⟩⟩

private theorem fits_applyArgs (ht : t.Fits strict n 0) :
    (t.applyArgs depth).Fits strict n depth where
  made := all_apply.2 ⟨ht.made, fun x hx => by
    obtain ⟨i, _, rfl⟩ := mem_map.1 hx
    exact nofun⟩
  inScope hs := all_apply.2 ⟨(ht.inScope hs).mono fun _ ha => ha.mono (Nat.zero_le _) fun _ h => h,
    all_inScope_firstArgs⟩

private theorem fits_primitive {a : Term}
    (ha : a = .postulate 0 ∨ a = .postulate 1 ∨ a = .decl 2 ∨ a = .decl 5)
    (hn : Primitive.count ≤ n) : a.Fits strict n depth := by
  have hlt : ∀ id < 10, id < n := fun id hid => hid.trans_le hn
  obtain rfl | rfl | rfl | rfl := ha <;> exact fits_of_all (hlt _ (by decide))

private theorem Fits.typeFamilyOf (ht : t.Fits strict n depth) (hn : Primitive.count ≤ n) :
    (typeFamilyOf t).Fits strict n depth :=
  (fits_primitive (.inr (.inr (.inl rfl))) hn).app ht

private theorem Fits.arrowOf (ht : t.Fits strict n depth) (hu : u.Fits strict n depth)
    (hn : Primitive.count ≤ n) : (arrowOf t u).Fits strict n depth :=
  ((fits_primitive (.inr (.inl rfl)) hn).app ht).app hu

end Term

/-- A value that fits; if `strict`, its type is in scope as well. -/
structure TypedTerm.Fits (strict : Prop) (n depth : Nat) (v : TypedTerm) : Prop where
  value : v.value.Fits strict n depth
  type : strict → v.type.All (Term.InScope (· < n) depth)

private theorem TypedTerm.Fits.mono {strict : Prop} {n n' depth depth' : Nat} {v : TypedTerm}
    (h : v.Fits strict n depth) (hn : n ≤ n') (hd : depth ≤ depth') : v.Fits strict n' depth' :=
  ⟨h.value.mono hn hd, fun hs => (h.type hs).mono fun _ ha =>
    ha.mono hd fun _ hid => hid.trans_le hn⟩

/-- The values that programs may refer to fit. -/
def Session.Fits (strict : Prop) (s : Session) (k : Kernel) : Prop :=
  ∀ v ∈ s.embeds, v.Fits strict k.nextSymbol 0

private theorem Session.Fits.later {strict : Prop} {s s' : Session} {k k' : Kernel}
    (h : s.Fits strict k) (hembeds : s'.embeds = s.embeds) (hle : k.nextSymbol ≤ k'.nextSymbol) :
    s'.Fits strict k' :=
  fun v hv => (h v (hembeds ▸ hv)).mono hle le_rfl

/-- If `strict`, the telescope is valid over the symbols that were made. -/
abbrev Telescope.ValidIf (strict : Prop) (k : Kernel) (tele : Telescope) : Prop :=
  strict → tele.Valid (· < k.nextSymbol) k

/-- If `strict`, the term is in scope of the telescope and made of symbols that were made. -/
abbrev Telescope.ScopesIf (strict : Prop) (k : Kernel) (tele : Telescope) (t : Term) : Prop :=
  strict → t.All (Term.InScope (· < k.nextSymbol) tele.depth)

namespace Evaluator

variable {strict : Prop} {fresh : List Nat} {tele : Telescope} {s s' : Session} {k k' : Kernel}
  {type : Term} {f x : TypedTerm}

private theorem valid_later (h : tele.ValidIf strict k) (hg : k.Grows k')
    (hgood : Stage.Good strict ⟨s'.store, k', fresh⟩) :
    tele.ValidIf strict k' := fun hs =>
  ((h hs).mono fun _ hid => hid.trans_le hg.symbols).grows hg (hgood.inScope hs).kernel

private theorem scope_later {t : Term} (h : tele.ScopesIf strict k t) (hg : k.Grows k') :
    tele.ScopesIf strict k' t := fun hs =>
  (h hs).mono fun _ ha => ha.mono le_rfl fun _ hid => hid.trans_le hg.symbols

/-! ### Symbols and types -/

private theorem performs_declare : Performs strict fresh (k.nextSymbol :: fresh) (liftM declare) s k
    fun v _ k' => v = .decl k.nextSymbol ∧ k.nextSymbol < k'.nextSymbol :=
  .lift fun _ => ends_declare.2 ⟨.declare, rfl, Nat.lt_succ_self _⟩

private theorem performs_instanceOf {e : Term} (htele : tele.ValidIf strict k)
    (he : tele.ScopesIf strict k e) :
    Performs strict fresh fresh (liftM (tele.instanceOf e)) s k fun _ _ _ => True := by
  refine .lift fun _ => (tele.ends_instanceOf e k).mono ?_ ?_
  · intro t k' hinst
    exact ⟨.instantiate (fun hs => ⟨htele hs, he hs⟩) hinst, trivial⟩
  · rintro e k' ⟨_, id, hid, hrule, rfl⟩
    exact .taken hid hrule

private theorem performs_extend (htele : tele.ValidIf strict k)
    (htype : tele.ScopesIf strict k type) :
    Performs strict fresh fresh (liftM (tele.extend type)) s k
      fun tele' _ k' => Bound tele type k tele' k' := by
  refine .lift fun _ => (tele.ends_extend type k).mono ?_ ?_
  · intro tele' k' hbound
    exact ⟨.extend (fun hs => ⟨htele hs, htype hs⟩) hbound, hbound⟩
  · rintro e k' ⟨_, id, hid, hrule, rfl⟩
    exact .taken hid hrule

private theorem performs_setType (t type : Term) :
    Performs strict fresh fresh (liftM (setType t type)) s k fun _ _ _ => True :=
  .lift_calm fun _ => ends_setType (fun _ => ⟨⟨rfl, rfl, .refl _⟩,
    Kernel.Expands.grows ⟨le_rfl, .refl _, fun _ h => h⟩ rfl, trivial⟩) ⟨rfl, .refl _⟩

private theorem performs_setName (t : Term) (name : String) :
    Performs strict fresh fresh (liftM (setName t name)) s k fun _ _ _ => True :=
  .lift_calm fun _ => ends_setName fun _ => ⟨⟨rfl, rfl, .refl _⟩,
    Kernel.Expands.grows ⟨le_rfl, .refl _, fun _ h => h⟩ rfl, trivial⟩

private theorem performs_reduceClean (htele : tele.ValidIf strict k) (t : Term) :
    Performs strict fresh fresh (liftM (tele.reduceClean t)) s k fun u _ k' =>
      k.Calm k' ∧ (tele.ScopesIf strict k t → tele.ScopesIf strict k' u) := by
  refine .lift_calm fun hgood => (tele.ends_reduceClean t k).imp ?_
  rintro u k' ⟨hcalm, hgrows, hscope⟩
  refine ⟨hcalm, hgrows, hcalm, fun ht hs => ?_⟩
  rw [hcalm.symbols]
  exact hscope _ (htele hs) (hgood.inScope hs).kernel (ht hs)

private theorem performs_rememberPurpose (id : Nat) (p : Purpose) :
    Performs strict fresh fresh (rememberPurpose id p) s k fun _ _ _ => True :=
  .modify rfl rfl trivial

variable (htele : tele.ValidIf strict k)
include htele

private theorem performs_typed {α : Type} {t e : Term} {name : String} {a : α}
    {Q : α → Session → Kernel → Prop} (he : tele.ScopesIf strict k e)
    (h : ∀ s' k', k.Grows k' → Q a s' k') :
    Performs strict fresh fresh (do
      let closed ← liftM (tele.instanceOf e)
      liftM (setType t closed)
      liftM (setName t name)
      pure a) s k Q := by
  refine .bind (performs_instanceOf htele he) fun closed s1 k1 _ hle1 _ _ => ?_
  refine .bind (performs_setType t closed) fun _ s2 k2 _ hle2 _ _ => ?_
  refine .bind (performs_setName t name) fun _ s3 k3 _ hle3 _ _ => .pure (h s3 k3 ?_)
  exact hle1.trans (hle2.trans hle3)

private theorem performs_makeUnknown (definable : Bool) (role : Role) (node : NodeId)
    (htype : tele.ScopesIf strict k type) :
    Performs strict fresh (if definable then fresh else k.nextSymbol :: fresh)
      (makeUnknown tele type definable role node) s k
      fun p _ k' => p.1 = .decl k.nextSymbol ∧ p.2.Fits strict k'.nextSymbol tele.depth := by
  have hfits : ∀ k1 k' : Kernel, k.nextSymbol < k1.nextSymbol → k1.Grows k' →
      (tele.applyArgs (.decl k.nextSymbol)).Fits strict k'.nextSymbol tele.depth :=
    fun k1 k' hlt hg => fits_applyArgs (fits_of_all (hlt.trans_le hg.symbols))
  rw [makeUnknown_eq]
  refine .bind performs_declare ?_
  rintro v s1 k1 _ hgrows hgood ⟨rfl, hlt⟩
  cases definable with
  | false =>
    simp only [Bool.false_eq_true, if_false]
    exact performs_typed (valid_later htele hgrows hgood) (scope_later htype hgrows)
      fun s' k' hg => ⟨rfl, hfits k1 k' hlt hg⟩
  | true =>
    simp only [if_true]
    refine .bind .registerIndeterminate fun _ s2 k2 _ hle2 hgood2 hcalm => ?_
    have hgrows2 := hgrows.trans hle2
    exact performs_typed (valid_later htele hgrows2 hgood2) (scope_later htype hgrows2)
      fun s' k' hg => ⟨rfl, hfits k2 k' (hcalm.symbols.symm ▸ hlt) hg⟩

private theorem performs_releaseUnknown (definable : Bool) (role : Role) (node : NodeId)
    (htype : tele.ScopesIf strict k type) :
    Performs strict fresh fresh (makeUnknown tele type definable role node) s k
      fun p _ k' => p.2.Fits strict k'.nextSymbol tele.depth := by
  refine Performs.mono ?_ fun p _ k' _ (h : p.1 = .decl k.nextSymbol ∧ _) => h.2
  cases definable with
  | true => exact performs_makeUnknown htele true role node htype
  | false => exact (performs_makeUnknown htele false role node htype).release

private theorem performs_cast {v : TypedTerm} (purpose : Failure.Purpose) (node : NodeId)
    (hv : v.Fits strict k.nextSymbol tele.depth) (htype : tele.ScopesIf strict k type) :
    Performs strict fresh fresh (cast tele purpose node v type) s k
      fun t _ k' => t.Fits strict k'.nextSymbol tele.depth := by
  unfold cast
  refine .bind (performs_reduceClean htele v.type) fun source s1 k1 _ hg1 hgood1 _ => ?_
  refine .bind (performs_reduceClean (valid_later htele hg1 hgood1) type)
    fun target s2 k2 _ hle2 hgood2 _ => ?_
  have hg2 := hg1.trans hle2
  split
  · exact .pure (hv.value.mono hg2.symbols le_rfl)
  · have htele2 := valid_later htele hg2 hgood2
    refine .bind (performs_makeUnknown htele2 false .cast node (scope_later htype hg2)) ?_
    rintro ⟨unknown, applied⟩ s3 k3 _ hle3 hgood3 ⟨hunknown, happlied⟩
    have hg3 := hg2.trans hle3
    have hv3 := hv.mono hg3.symbols le_rfl
    dsimp only at hunknown happlied ⊢
    have hpose : Performs strict ([k2.nextSymbol] ++ fresh) fresh
        (onStore (poseCast ⟨tele, unknown, v.type, v.value, type⟩)) s3 k3 _ :=
      .pose (r := .cast ⟨tele, unknown, v.type, v.value, type⟩) rfl ends_poseCast
        (congrArg (fun t => [t]) hunknown) nofun fun hs =>
          ⟨fun _ => nofun, [tele], forall_mem_singleton.2 (valid_later htele hg3 hgood3 hs),
            mem_singleton_self _, by
              simp only [forall_mem_cons]
              exact ⟨hv3.type hs, hv3.value.inScope hs, scope_later htype hg3 hs, by simp⟩⟩
    refine .bind (.bind hpose fun _ _ _ _ _ _ _ => performs_rememberPurpose _ _)
      fun _ s4 k4 _ hle4 _ _ => .pure ?_
    exact happlied.mono hle4.symbols le_rfl

private theorem performs_applyUnknown (node : NodeId) (hf : f.Fits strict k.nextSymbol tele.depth)
    (hx : x.Fits strict k.nextSymbol tele.depth) (hgood : Stage.Good strict ⟨s.store, k, fresh⟩) :
    Performs strict fresh fresh (applyUnknown tele node f x) s k
      fun v _ k' => v.Fits strict k'.nextSymbol tele.depth := by
  unfold applyUnknown
  refine .bind (performs_makeUnknown htele true .domain node
    (fits_primitive (.inl rfl) hgood.primitives).inScope) ?_
  rintro ⟨_, domain⟩ s1 k1 _ hg1 hgood1 ⟨_, hdomain⟩
  refine .bind (performs_makeUnknown (valid_later htele hg1 hgood1) true .codomain node
    (hdomain.typeFamilyOf hgood1.primitives).inScope) ?_
  rintro ⟨_, codomain⟩ s2 k2 _ hle2 hgood2 ⟨_, hcodomain⟩
  have hg2 := hg1.trans hle2
  have hdomain := hdomain.mono hle2.symbols le_rfl
  have hexpected := hdomain.arrowOf hcodomain hgood2.primitives
  refine .bind (performs_makeUnknown (valid_later htele hg2 hgood2) false .function node
    hexpected.inScope) ?_
  rintro ⟨functionUnknown, function⟩ s3 k3 _ hle3 hgood3 ⟨hfunctionUnknown, hfunction⟩
  have hg3 := hg2.trans hle3
  have hdomain := hdomain.mono hle3.symbols le_rfl
  refine .bind (performs_makeUnknown (valid_later htele hg3 hgood3) false .argument node
    hdomain.inScope) ?_
  rintro ⟨argumentUnknown, argument⟩ s4 k4 _ hle4 hgood4 ⟨hargumentUnknown, hargument⟩
  have hg4 := hg3.trans hle4
  have hg24 := hle3.trans hle4
  have hf4 := hf.mono hg4.symbols le_rfl
  have hx4 := hx.mono hg4.symbols le_rfl
  dsimp only at hfunctionUnknown hfunction hargumentUnknown hargument hexpected ⊢
  have hpose : Performs strict ([k3.nextSymbol, k2.nextSymbol] ++ fresh) fresh
      (onStore (poseApplication ⟨tele, functionUnknown, f.type, f.value,
        arrowOf domain codomain, argumentUnknown, x.type, x.value, domain⟩)) s4 k4 _ :=
    .pose (r := .application _) rfl ends_poseApplication
      (congrArg₂ (fun t u => [t, u]) hargumentUnknown hfunctionUnknown) nofun
      fun hs => ⟨fun _ => nofun, [tele],
        forall_mem_singleton.2 (valid_later htele hg4 hgood4 hs),
        mem_singleton_self _, by
          simp only [forall_mem_cons]
          exact ⟨hf4.type hs, hf4.value.inScope hs, scope_later hexpected.inScope hg24 hs,
            hx4.type hs, hx4.value.inScope hs,
            scope_later hdomain.inScope hle4 hs, by simp⟩⟩
  refine .bind (.bind hpose fun _ _ _ _ _ _ _ => performs_rememberPurpose _ _)
    fun _ s5 k5 _ hle5 _ _ => .pure ?_
  have hfunction := hfunction.mono (hle4.trans hle5).symbols le_rfl
  have hcodomain := hcodomain.mono (hg24.trans hle5).symbols le_rfl
  have hargument := hargument.mono hle5.symbols le_rfl
  exact ⟨hfunction.app hargument, (hcodomain.app hargument).inScope⟩

private theorem performs_apply (node : NodeId) (hf : f.Fits strict k.nextSymbol tele.depth)
    (hx : x.Fits strict k.nextSymbol tele.depth) :
    Performs strict fresh fresh (apply tele node f x) s k
      fun v _ k' => v.Fits strict k'.nextSymbol tele.depth := by
  unfold apply
  refine .bind (performs_reduceClean htele f.type) ?_
  rintro type s1 k1 _ hg1 hgood1 ⟨_, htype⟩
  have htele1 := valid_later htele hg1 hgood1
  have hf1 := hf.mono hg1.symbols le_rfl
  have hx1 := hx.mono hg1.symbols le_rfl
  split
  · next domain codomain harrow =>
    have hparts := fun hs => all_of_asArrow? harrow (htype hf.type hs)
    refine .bind (performs_cast htele1 .argumentType node hx1 fun hs => (hparts hs).1) ?_
    intro t s2 k2 _ hg2 _ ht
    refine .pure ⟨(hf1.value.mono hg2.symbols le_rfl).app ht, fun hs => ?_⟩
    exact ⟨scope_later (fun hs => (hparts hs).2) hg2 hs, ht.inScope hs⟩
  · refine .bind (.note rfl) fun _ s2 k2 _ hg2 hgood2 _ => ?_
    exact performs_applyUnknown (valid_later htele1 hg2 hgood2) node
      (hf1.mono hg2.symbols le_rfl) (hx1.mono hg2.symbols le_rfl) hgood2

private theorem performs_require {lhs rhs : Term} (deduce : Bool) (purpose : Failure.Purpose)
    (node : NodeId) (hl : tele.ScopesIf strict k lhs) (hr : tele.ScopesIf strict k rhs) :
    Performs strict fresh fresh (require tele deduce purpose node lhs rhs) s k fun _ _ _ =>
      True := by
  unfold require
  have hpose : Performs strict ([] ++ fresh) fresh
      (onStore (poseEquation ⟨lhs, rhs, tele, deduce⟩)) s k _ :=
    .pose (r := .equation _) rfl ends_poseEquation rfl nofun fun hs =>
      ⟨fun _ => nofun, [tele], forall_mem_singleton.2 (htele hs), mem_singleton_self _,
        hl hs, hr hs⟩
  exact .bind hpose fun id s1 k1 _ _ _ _ => performs_rememberPurpose _ _

private theorem performs_makePostulate (id : NodeId) (htype : tele.ScopesIf strict k type) :
    Performs strict fresh fresh (makePostulate tele id type) s k
      fun v _ k' => v.Fits strict k'.nextSymbol tele.depth := by
  have hfresh : Performs strict fresh fresh (liftM freshPostulate) s k
      fun p _ k' => p = .postulate k.nextSymbol ∧ k.nextSymbol < k'.nextSymbol :=
    .lift fun _ => ⟨.symbol, rfl, Nat.lt_succ_self _⟩
  refine .bind hfresh ?_
  rintro p s1 k1 _ hgrows1 hgood1 ⟨rfl, hlt⟩
  refine performs_typed (valid_later htele hgrows1 hgood1) (scope_later htype hgrows1) ?_
  exact fun s' k' hg => ⟨fits_applyArgs (fits_of_all (hlt.trans_le hg.symbols)),
    scope_later htype (hgrows1.trans hg)⟩

private theorem fits_bound {inner : Telescope} (htype : tele.ScopesIf strict k type)
    (hbound : Bound tele type k inner k') (hgood : Stage.Good strict ⟨s.store, k, fresh⟩) :
    inner.ValidIf strict k' ∧
      TypedTerm.Fits strict k'.nextSymbol inner.depth ⟨.arg tele.depth, type⟩ ∧
      tele.depth ≤ inner.depth := by
  have hlt : ∀ id, id < k.nextSymbol → id < k'.nextSymbol :=
    fun _ h => h.trans_le hbound.extends.symbols
  have hdepth : inner.depth = tele.depth + 1 := by rw [hbound.telescope, depth_bound]
  refine ⟨fun hs => ?_, ⟨fits_of_all ?_, fun hs => ?_⟩, hdepth ▸ Nat.le_succ _⟩
  · have hR := (hgood.inScope hs).kernel.mono fun _ h => h.mono le_rfl hlt
    exact (((htele hs).mono hlt).bound hR ((htype hs).mono fun _ h => h.mono le_rfl hlt)
      hbound (fun id hid => hlt id (hid.trans_le hgood.primitives)) fun _ _ hid => hid).2
  · exact hdepth ▸ Nat.lt_succ_self _
  · exact (htype hs).mono fun _ h => h.mono (hdepth ▸ Nat.le_succ _) hlt

end Evaluator

/-! ### Patterns -/

namespace Telescope

/-- Symbols and rules stay as they are, and where an action stops no table is to blame. -/
def calming : Course Stop Kernel where
  Holds _ := True
  Leads k k' := k.Calm k' ∧ k.Grows k'
  Stops k e k' := e.ofTable = false ∧ k.Extends k'
  refl _ := ⟨.refl _, .refl _⟩
  trans h h' := ⟨h.1.trans h'.1, h.2.trans h'.2⟩
  stops h h' := ⟨h'.1, h.1.extends.trans h'.2⟩

variable {k : Kernel}

private theorem calms_reduceClean (tele : Telescope) (t : Term) :
    calming.Keeps (tele.reduceClean t) k fun _ _ => True :=
  fun _ => (tele.ends_reduceClean t k).imp fun _ _ h => ⟨trivial, ⟨h.1, h.2.1⟩, trivial⟩

private theorem calms_typeOfApplied (tele : Telescope) (type : Term) (args : List Term) :
    calming.Keeps (tele.typeOfApplied type args) k fun _ _ => True := by
  induction args generalizing type k with
  | nil => exact .pure trivial
  | cons x args ih =>
    refine (tele.calms_reduceClean type).bind fun reduced k1 _ _ => ?_
    split
    · exact ih _
    · exact .pure trivial

private theorem calms_typeOf (tele : Telescope) (t : Term) :
    calming.Keeps (tele.typeOf t) k fun _ _ => True := by
  refine .get_bind ?_
  dsimp only
  split
  · exact tele.calms_typeOfApplied _ _
  · exact .pure trivial

private theorem calms_functionParts (tele : Telescope) (t : Term) :
    calming.Keeps (tele.functionParts t) k fun _ _ => True := by
  refine (tele.calms_typeOf t).bind fun type k1 _ _ => ?_
  split
  · exact (tele.calms_reduceClean _).bind fun _ _ _ _ => .pure trivial
  · exact .pure trivial

end Telescope

namespace Pattern

variable {strict : Prop} {fresh : List Nat}

private theorem ends_pullArgument (hstrict : ¬ strict) (tele : Telescope) (function : Term)
    (s : Store) (k : Kernel) :
    Ends (pullArgument tele function) k (fun _ k' => Acts strict ⟨s, k, fresh⟩ ⟨s, k', fresh⟩)
      (Stage.Stops strict ⟨s, k, fresh⟩) := by
  unfold pullArgument
  refine bind (tele.calms_functionParts function trivial) ?_ ?_
  · rintro parts k1 ⟨-, ⟨hcalm, hgrows⟩, -⟩
    have hact : Act strict ⟨s, k, fresh⟩ ⟨s, k1, fresh⟩ := .calm hcalm hgrows
    split
    · exact .single hact
    · refine bind (tele.ends_extend _ k1) (fun tele' k' hbound => ?_) ?_
      · exact .tail (.single hact) (.extend (fun hs => absurd hs hstrict) hbound)
      · rintro e k' ⟨_, id, hid, hrule, rfl⟩
        exact ⟨_, .single hact, .taken hid hrule⟩
  · rintro e k' ⟨htable, hextends⟩
    exact ⟨_, .refl, .other htable hextends⟩

private theorem ends_pullArguments (hstrict : ¬ strict) (count : Nat) (tele : Telescope)
    (function : Term) (s : Store) (k : Kernel) :
    Ends (pullArguments count tele function) k
      (fun _ k' => Acts strict ⟨s, k, fresh⟩ ⟨s, k', fresh⟩)
      (Stage.Stops strict ⟨s, k, fresh⟩) := by
  induction count generalizing tele function k with
  | zero => exact .refl
  | succ count ih =>
    unfold pullArguments
    refine seq (ends_pullArgument hstrict tele function s k) fun out k1 hacts => ?_
    split
    · exact hacts
    · refine (ih _ _ k1).mono (fun _ k' hacts' => hacts.trans hacts') ?_
      rintro e k' ⟨st, hacts', hhalt⟩
      exact ⟨st, hacts.trans hacts', hhalt⟩

end Pattern

namespace Evaluator

variable {strict : Prop} {s : Session} {k k' : Kernel}

private theorem performs_matchHead (hstrict : ¬ strict) (tele : Telescope) (t head : Term)
    (count : Nat) :
    Performs strict [] [] (liftM (matchHead tele t head count)) s k fun _ _ _ => True := by
  unfold matchHead
  rw [liftM_bind]
  refine .bind (.lift_acts fun _ =>
    (ends_pullArguments hstrict count tele head s.store k).imp
      (fun _ _ h => ⟨h, trivial⟩)) fun out s1 k1 _ _ _ (_ : True) => ?_
  cases out with
  | none => exact .lift_acts fun _ => ⟨.refl, trivial⟩
  | some bound =>
    rw [liftM_bind]
    refine .bind (.note rfl) fun _ s2 k2 _ _ _ _ => .lift_calm fun _ => map_iff.2 ?_
    exact (bound.1.ends_assume t bound.2 k2).mono (fun _ _ h => ⟨h.toCalm, h.grows, trivial⟩)
      fun _ _ h => ⟨Bool.eq_false_iff.2 (Stop.not_ofTable h.1), h.2.extends⟩

/-- The head of a rule, until the rule is posed: a declaration that was made and is no
indeterminate. -/
structure HeadFree (id : Nat) (s : Store) (k : Kernel) : Prop where
  made : id < k.nextSymbol
  free : id ∉ s.indeterminates

private theorem HeadFree.later {id : Nat} {s s' : Store} (h : HeadFree id s k)
    (hacts : Acts strict ⟨s, k, []⟩ ⟨s', k', []⟩) (hgood : Stage.Good strict ⟨s, k, []⟩) :
    HeadFree id s' k' := by
  refine ⟨h.made.trans_le (Acts.grows hacts).symbols, fun hmem => ?_⟩
  obtain hmem | hmem | hle := (Acts.since hacts hgood).2 id hmem
  · exact h.free hmem
  · cases hmem
  · exact lt_irrefl _ (h.made.trans_le hle)

private theorem performs_poseRule (hstrict : ¬ strict) (node : NodeId) (x : Pattern.Execution)
    (replacement : TypedTerm) {id : Nat} (hid : x.head = .decl id) (hx : HeadFree id s.store k) :
    Performs strict [] [] (poseRule node x replacement) s k fun _ _ _ => True := by
  have hpose : Performs strict ([] ++ []) [] (onStore (StoreM.poseRule
      ⟨x.telescope, ⟨x.head, x.arity, x.steps, replacement.value⟩, x.checks.map Prod.snd, x.type,
        replacement.type⟩)) s k fun _ _ k' => k.Calm k' := by
    refine .pose (r := .rule _) rfl StoreM.ends_poseRule rfl ?_ fun hs => absurd hs hstrict
    rintro q ⟨⟩
    refine ⟨rfl, fun id' hid' => ?_⟩
    cases hid.symm.trans hid'
    exact ⟨hx.made, hx.free⟩
  exact .bind hpose fun id s1 k1 _ _ _ _ => performs_rememberPurpose _ _

/-! ### Programs -/

/-- Sessions act and keep the values that programs may refer to. -/
def acting (strict : Prop) : Regime Stop Kernel Session where
  Holds s k := Stage.Good strict ⟨s.store, k, []⟩ ∧ s.Fits strict k
  Leads s k s' k' := s'.embeds = s.embeds ∧ Stage.Acts strict ⟨s.store, k, []⟩ ⟨s'.store, k', []⟩
  Stops s k := Stage.Stops strict ⟨s.store, k, []⟩
  refl _ := ⟨rfl, .refl⟩
  trans h h' := ⟨h'.1.trans h.1, h.2.trans h'.2⟩
  stops h := fun ⟨st, hacts, hhalt⟩ => ⟨st, h.2.trans hacts, hhalt⟩

variable {α : Type} {x : SessionM α} {Q : α → Session → Kernel → Prop}

private theorem keeps_of_performs (h : (acting strict).Holds s k → Performs strict [] [] x s k Q) :
    (acting strict).Keeps x s k Q := by
  intro hs
  refine (h hs hs.1).imp ?_
  rintro a s' k' ⟨hembeds, hacts, ha⟩
  have hfits := hs.2.later hembeds (Acts.grows hacts).symbols
  exact ⟨⟨Acts.good hacts hs.1, hfits⟩, ⟨hembeds, hacts⟩, ha⟩

private theorem performs_of_keeps (h : (acting strict).Keeps x s k Q) (hfits : s.Fits strict k) :
    Performs strict [] [] x s k Q :=
  fun hgood => (h ⟨hgood, hfits⟩).imp (fun _ _ _ h => ⟨h.2.1.1, h.2.1.2, h.2.2⟩)

/-- Values fit. A strict session gives no rules, and otherwise nothing is said about scopes. -/
def fitUpkeep (strict : Prop) : Upkeep (acting strict) where
  Tele tele _ k := tele.ValidIf strict k
  Value tele v _ k := v.Fits strict k.nextSymbol tele.depth
  Side tele t _ k := tele.ScopesIf strict k t
  Compiled _ x s k := ∃ id, x.head = .decl id ∧ HeadFree id s.store k
  Part _ id _ s k := HeadFree id s.store k
  rules := ¬ strict
  tele_later _ hs' hle h := valid_later h (Stage.Acts.grows hle.2) hs'.1
  value_later _ hle _ h := h.mono (Stage.Acts.grows hle.2).symbols le_rfl
  side_later hle h := scope_later h (Stage.Acts.grows hle.2)
  compiled_later hs _ hle := fun ⟨id, hid, hx⟩ => ⟨id, hid, hx.later hle.2 hs.1⟩
  part_later hs _ hle h := h.later hle.2 hs.1
  side_value h := h.value.inScope
  side_type h := h.type
  note he := keeps_of_performs fun _ => .note he
  embedded index _ := keeps_embedded index (fun _ => ⟨_, .refl, .other rfl (.refl _)⟩)
    fun hs v hv => (hs.2 v hv).mono le_rfl (Nat.zero_le _)
  value_kind hs :=
    have htype := Term.fits_primitive (.inl rfl) hs.1.primitives
    ⟨htype, htype.inScope⟩
  value_arrow hs := ⟨Term.fits_primitive (.inr (.inl rfl)) hs.1.primitives,
    ((Term.fits_primitive (.inl rfl) hs.1.primitives).arrowOf
      (Term.fits_primitive (.inr (.inr (.inr rfl))) hs.1.primitives) hs.1.primitives).inScope⟩
  value_family hs h := ⟨h.value.typeFamilyOf hs.1.primitives, h.type⟩
  cast purpose node h hv ht hs := ((keeps_of_performs fun _ =>
    performs_cast h purpose node hv ht.value.inScope).mono fun _ _ _ hle hu =>
      ⟨hu, scope_later ht.value.inScope (Stage.Acts.grows hle.2)⟩) hs
  apply node h hf hx := keeps_of_performs fun _ => performs_apply h node hf hx
  require deduce purpose node h hl hr :=
    keeps_of_performs fun _ => performs_require h deduce purpose node hl hr
  makeUnknown definable role node h ht := (keeps_of_performs fun _ =>
    performs_releaseUnknown h definable role node ht.value.inScope).mono fun _ _ _ hle hp =>
      ⟨hp, scope_later ht.value.inScope (Stage.Acts.grows hle.2)⟩
  makePostulate id h ht := keeps_of_performs fun _ => performs_makePostulate h id ht.value.inScope
  extend h ht hs := by
    refine ((keeps_of_performs fun _ => performs_extend h ht.value.inScope).mono ?_) hs
    intro inner s' k' _ hbound
    obtain ⟨hinner, hnew, hle⟩ := fits_bound h ht.value.inScope hbound hs.1
    exact ⟨hinner, hnew, fun v hv => hv.mono le_rfl hle⟩
  side_app hstrict := ⟨fun _ => ⟨fun hs => absurd hs hstrict, fun hs => absurd hs hstrict⟩,
    fun _ hs => absurd hs hstrict⟩
  value_arg hstrict _ _ := ⟨⟨nofun, fun hs => absurd hs hstrict⟩,
    fun hs => absurd hs hstrict⟩
  tele_compiled hstrict _ hs := absurd hs hstrict
  value_compiled hstrict _ hv := ⟨⟨hv.value.made, fun hs => absurd hs hstrict⟩,
    fun hs => absurd hs hstrict⟩
  poseRule node hstrict := fun ⟨_, hid, hx⟩ _ =>
    keeps_of_performs fun _ => performs_poseRule hstrict node _ _ hid hx
  tele_part hstrict _ hs := absurd hs hstrict
  value_part hstrict _ hv := ⟨⟨hv.value.made, fun hs => absurd hs hstrict⟩,
    fun hs => absurd hs hstrict⟩
  side_part hstrict _ _ hs := absurd hs hstrict
  start _ _ hv hhead := .get_bind (.pure fun _ hfree =>
    ⟨(hhead ▸ hv.value.made.head) _ rfl, of_decide_eq_false hfree⟩)
  pull hstrict hp hs := ((keeps_of_performs fun _ => .lift_acts (Q := fun _ _ _ => True) fun _ =>
    (Pattern.ends_pullArgument hstrict _ _ _ _).imp fun _ _ h => ⟨h, trivial⟩).mono
      fun _ _ _ hle _ _ _ _ => hp.later hle.2 hs.1) hs
  matchHead count hstrict hp _ _ hs := ((keeps_of_performs fun _ =>
    performs_matchHead hstrict _ _ _ count).mono fun _ _ _ hle _ _ _ => hp.later hle.2 hs.1) hs
  finish _ hp hs := ((keeps_of_performs fun _ => .lift_calm (Q := fun _ _ _ => True) fun _ =>
    (Telescope.calms_typeOf _ _ trivial).imp fun _ _ h => ⟨h.2.1.1, h.2.1.2, trivial⟩).mono
      fun _ _ _ hle _ _ _ _ _ _ _ => ⟨_, rfl, hp.later hle.2 hs.1⟩) hs

private theorem reporting_fitUpkeep (hstrict : ¬ strict) : (fitUpkeep strict).Reporting :=
  .of_session hstrict fun _ _ _ => keeps_of_performs fun _ =>
    .bind (.note rfl) fun _ _ _ _ _ _ _ => .modify rfl rfl trivial

end Evaluator
end Elaboration

namespace Elaboration

open EndsWith Kernel KernelM SessionM Stage Telescope

/-- What a client asks of a session. -/
inductive Errand where
  | embed (v : TypedTerm)
  | postulate (name : String) (type : Term)
  | elaborate (p : Program)
  | finish

namespace Errand

/-- What the session does about it. -/
def perform : Errand → SessionM Unit
  | embed v => do let _ ← SessionM.embed v
  | postulate name type => do let _ ← SessionM.declarePostulate name type
  | elaborate p => do let _ ← SessionM.elaborate p
  | finish => do let _ ← SessionM.finish

/-- Values are over symbols that were made. If `strict`, they and their types are closed, and
programs give no rules. -/
def Fits (strict : Prop) (k : Kernel) : Errand → Prop
  | embed v => v.Fits strict k.nextSymbol 0
  | postulate _ type => strict → type.All (Term.InScope (· < k.nextSymbol) 0)
  | elaborate p => strict → Command.allRuleFree p.commands = true
  | finish => True

end Errand

/-- What a session that was started on a kernel may come to. -/
inductive Session.Reached (strict : Prop) (start : Kernel) : Session → Kernel → Prop where
  | initial : Reached strict start (.initial start) start
  | perform {s s' : Session} {k k' : Kernel} (e : Errand) : Reached strict start s k →
    e.Fits strict k → e.perform s k = .ok ((), s') k' → Reached strict start s' k'

variable {strict : Prop} {s s' : Session} {k k' : Kernel}

private theorem Session.Fits.append {v : TypedTerm} (h : s.Fits strict k)
    (hembeds : s'.embeds = s.embeds ++ [v]) (hle : k.nextSymbol ≤ k'.nextSymbol)
    (hv : v.Fits strict k'.nextSymbol 0) : s'.Fits strict k' := by
  intro u hu
  rw [hembeds] at hu
  rcases List.mem_append.1 hu with hu | hu
  · exact (h u hu).mono hle le_rfl
  · rwa [List.mem_singleton.1 hu]

/-! ### Programs -/

namespace Evaluator

private theorem performs_root (hgood : Stage.Good strict ⟨s.store, k, []⟩) :
    Performs strict [] [] (liftM root) s k fun tele _ k' =>
      tele.depth = 0 ∧ (strict → tele.Valid (· < k'.nextSymbol) k') := by
  refine .lift_calm fun _ => ends_root.2 ⟨⟨rfl, rfl, .refl _⟩, k.grows_push _, rfl, ?_⟩
  exact fun _ => valid_root fun id hid => hid.trans_le hgood.primitives

private theorem performs_evalProgram (p : Program) (hfits : s.Fits strict k)
    (hfree : strict → Command.allRuleFree p.commands = true)
    (hgood : Stage.Good strict ⟨s.store, k, []⟩) :
    Performs strict [] [] (evalProgram p) s k fun v _ k' => v.Fits strict k'.nextSymbol 0 := by
  have hroot := keeps_of_performs fun _ => performs_root hgood
  have hcommands : (fitUpkeep strict).Reporting ∨ Command.allRuleFree p.commands = true := by
    by_cases hstrict : strict
    · exact .inr (hfree hstrict)
    · exact .inl (reporting_fitUpkeep hstrict)
  refine performs_of_keeps ((Upkeep.keeps_evalProgram p hroot hcommands
    (.inl fun _ _ _ _ _ => ⟨_, .refl, .other rfl (.refl _)⟩)).mono ?_) hfits
  rintro v s' k' _ ⟨tele, hdepth, hv⟩
  exact hdepth ▸ hv

end Evaluator

namespace SessionM

private theorem performs_elaborate (p : Program) (hfits : s.Fits strict k)
    (hfree : strict → Command.allRuleFree p.commands = true)
    (hgood : Stage.Good strict ⟨s.store, k, []⟩) :
    Performs strict [] [] (elaborate p) s k fun v _ k' => v.Fits strict k'.nextSymbol 0 := by
  unfold elaborate
  refine .bind (Evaluator.performs_evalProgram p hfits hfree hgood) fun v s1 k1 _ _ _ hv => ?_
  refine .bind .run fun _ s2 k2 _ hle2 _ _ => ?_
  refine .bind .get ?_
  rintro _ s3 k3 _ _ _ ⟨rfl, rfl, rfl⟩
  refine .bind (.note rfl) fun _ s4 k4 _ hle4 _ _ => .pure ?_
  exact hv.mono (hle2.trans hle4).symbols le_rfl

private theorem ends_finish (hgood : Stage.Good strict ⟨s.store, k, []⟩) : EndsWith finish s k
      (fun _ s' k' => s'.embeds = [] ∧ Acts strict ⟨s.store, k, []⟩ ⟨s'.store, k', []⟩)
      (Stage.Stops strict ⟨s.store, k, []⟩) := by
  unfold finish
  refine seq (Performs.close hgood) ?_
  rintro _ s1 k1 ⟨_, hacts, _⟩
  rw [bind_iff, get_iff, bind_iff, set_iff]
  let s2 : Session := { s1 with embeds := [], failures := [] }
  have hnote : Performs strict [] [] (liftM (note (.finished s1.failures.length))) s2 k1
      fun _ _ _ => True := .note rfl
  refine bind (hnote (Acts.good hacts hgood)) ?_ ?_
  · rintro _ s3 k2 ⟨hembeds, hacts2, _⟩
    exact ⟨hembeds, hacts.trans hacts2⟩
  · rintro e k' ⟨st, hacts2, hhalt⟩
    exact ⟨st, hacts.trans hacts2, hhalt⟩

private theorem ends_declarePostulate (name : String) (type : Term) (s : Session) (k : Kernel) :
    EndsWith (declarePostulate name type) s k
      (fun _ s' k' => s'.store = s.store ∧
        s'.embeds = s.embeds ++ [⟨.postulate k.nextSymbol, type⟩] ∧
        ∃ types names, k' = { k with nextSymbol := k.nextSymbol + 1, types, names })
      fun e k' => e.ofTable = false ∧ k.Extends k' := by
  unfold declarePostulate freshPostulate
  rw [bind_iff, lift_iff, Ends.bind_iff, ends_freshSymbol, Ends.pure_iff, bind_iff, lift_iff]
  refine ends_setType (fun types => ?_) ⟨rfl, Nat.le_succ _, .refl _, fun _ h => h, .refl _⟩
  rw [bind_iff, lift_iff]
  exact ends_setName fun names => ⟨rfl, rfl, types, names, rfl⟩

end SessionM

/-- Every errand performs acts, and what is available fits. -/
theorem Errand.ends_perform (e : Errand) (he : e.Fits strict k) (hfits : s.Fits strict k)
    (hgood : Stage.Good strict ⟨s.store, k, []⟩) :
    EndsWith e.perform s k
      (fun _ s' k' => s'.Fits strict k' ∧ Acts strict ⟨s.store, k, []⟩ ⟨s'.store, k', []⟩)
      (Stage.Stops strict ⟨s.store, k, []⟩) := by
  cases e with
  | embed v => exact ⟨hfits.append rfl le_rfl he, .refl⟩
  | postulate name type =>
    refine bind (ends_declarePostulate name type s k) ?_
      fun _ _ h => ⟨_, .refl, .other h.1 h.2⟩
    rintro _ s' k' ⟨hstore, hembeds, types, names, rfl⟩
    refine ⟨hfits.append hembeds (Nat.le_succ _) ⟨Term.fits_of_all (Nat.lt_succ_self _), ?_⟩, ?_⟩
    · exact fun hs => (he hs).mono fun _ ha => ha.mono le_rfl fun _ => Nat.lt_succ_of_lt
    · rw [hstore]
      refine .tail (.single .symbol) (.calm ⟨rfl, rfl, .refl _⟩ ?_)
      exact Expands.grows ⟨le_rfl, .refl _, fun _ h => h⟩ rfl
  | elaborate p =>
    refine seq (performs_elaborate p hfits he hgood hgood) ?_
    rintro v s' k' ⟨hembeds, hacts, _⟩
    exact ⟨hfits.later hembeds (Acts.grows hacts).symbols, hacts⟩
  | finish =>
    refine seq (ends_finish hgood) ?_
    rintro _ s' k' ⟨hembeds, hacts⟩
    exact ⟨fun v hv => (nomatch hembeds ▸ hv), hacts⟩

/-! ### Sessions -/

/-- A kernel that no store has used yet. Its rules are for declarations that were made and, if
`strict`, mention nothing else. -/
structure Kernel.Unused (strict : Prop) (k : Kernel) : Prop where
  primitives : Primitive.count ≤ k.nextSymbol
  made : k.Made
  inScope : strict → k.rules.Over (Term.InScope (· < k.nextSymbol) 0)
  journal : ∀ e ∈ k.journal, e.ofObligation = false

theorem Kernel.unused_initial : initial.Unused strict where
  primitives := le_rfl
  made := ⟨by decide, Table.forall_get? (t := initial.rules.rules) (by decide)⟩
  inScope _ := over_initial fun _ hid => hid
  journal := by simp [initial, Primitive.rules, Event.ofObligation]

theorem Kernel.Unused.good (h : k.Unused strict) :
    Stage.Good strict ⟨(Session.initial k).store, k, []⟩ where
  primitives := h.primitives
  ordered := Store.wellFormed_empty rfl rfl rfl rfl
  inScope hs := ⟨h.inScope hs, nofun, nofun⟩

/-- A session performs acts all along. -/
theorem Session.Reached.acts {start : Kernel} (h : Reached strict start s k)
    (hstart : start.Unused strict) :
    Acts strict ⟨(Session.initial start).store, start, []⟩ ⟨s.store, k, []⟩ ∧
      s.Fits strict k := by
  induction h with
  | initial => exact ⟨.refl, nofun⟩
  | perform e _ he hperform ih =>
    obtain ⟨hacts, hfits⟩ := ih
    obtain ⟨hfits', hacts'⟩ :=
      (e.ends_perform he hfits (Acts.good hacts hstart.good)).of_ok hperform
    exact ⟨hacts.trans hacts', hfits'⟩

end Elaboration
