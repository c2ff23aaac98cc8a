import Elaboration.Proofs.Session.Sealed
import Elaboration.Proofs.Telescope.Reading

/-!
# Values have their types

Below the telescope where a value was made, the type that is read off the value has the normal form
of the type that it comes with. Evaluation makes new symbols only, so what was found stays true.
-/

namespace Elaboration

open EndsWith KernelM Primitive SessionM StoreM Telescope Term

open Reduction
open Term (Plain)

/-! ### Values that have their types -/

/-- An empty telescope, whatever its context. -/
def Telescope.empty : Telescope := ⟨[], Primitive.type, .app Primitive.identity Primitive.type, 0⟩

namespace TypedTerm

variable {tele : Telescope} {k k' : Kernel} {v : TypedTerm}

/-- The type that the telescope reads off the value has the normal form of the type that the value
comes with, if that has one. -/
def WellTyped (tele : Telescope) (k : Kernel) (v : TypedTerm) : Prop :=
  ∃ type, tele.Reads k v.value type ∧ ∀ n, Normalizes k.rules v.type n → Normalizes k.rules type n

/-- Value and type are made of what is there, and the value has its type if the telescope is clear.
-/
structure Sits (tele : Telescope) (k : Kernel) (v : TypedTerm) : Prop where
  value : v.value.Known k.nextSymbol
  type : v.type.Known k.nextSymbol
  wellTyped : tele.Clear k → v.WellTyped tele k

private theorem Sits.later (h : v.Sits tele k) (hk : k.Grounded) (hle : k.Freshens k')
    (htele : tele.Known k.nextSymbol) : v.Sits tele k' := by
  refine ⟨h.value.mono hle.symbols, h.type.mono hle.symbols, fun hclear => ?_⟩
  have hclear' : tele.Clear k := by
    intro type htype
    obtain ⟨n, hn, hplain⟩ := hclear type htype
    exact ⟨n, (hk.normalizes_iff hle (htele.bound type htype)).1 hn, hplain⟩
  obtain ⟨type, hreads, hsame⟩ := h.wellTyped hclear'
  obtain ⟨hreads', htype⟩ := hreads.later hk hle htele h.value
  refine ⟨type, hreads', fun n hn => ?_⟩
  exact (hk.normalizes_iff hle htype).2 (hsame n ((hk.normalizes_iff hle h.type).1 hn))

private theorem Sits.of_empty (h : v.Sits .empty k) (tele : Telescope) : v.Sits tele k := by
  refine ⟨h.value, h.type, fun _ => ?_⟩
  obtain ⟨type, ⟨head, hhead, happlies⟩, hsame⟩ := h.wellTyped nofun
  refine ⟨type, ⟨head, ?_, happlies⟩, hsame⟩
  obtain ⟨i, _, hi⟩ | ha := headType?_eq_some_iff.1 hhead
  · cases hi
  · exact headType?_eq_some_iff.2 (.inr ha)

private theorem Sits.bound (h : v.Sits tele k) (type : Term) (first : Nat) :
    v.Sits (tele.bound type first) k := by
  refine ⟨h.value, h.type, fun hclear => ?_⟩
  obtain ⟨type, hreads, hsame⟩ :=
    h.wellTyped fun type htype => hclear type (List.mem_cons_of_mem _ htype)
  exact ⟨type, hreads.bound, hsame⟩

end TypedTerm

namespace Evaluator

variable {α β : Type} {s s' : Session} {k k' : Kernel} {tele : Telescope} {type : Term}
  {v f x : TypedTerm} {id : Nat}

/-! ### Actions that make new symbols only -/

private theorem known_empty (hk : k.Grounded) : empty.Known k.nextSymbol := by
  refine ⟨known_postulate _, ⟨known_decl.2 ?_, known_postulate _⟩, nofun⟩
  exact Nat.lt_of_lt_of_le (by decide) hk.primitives

/-- The values of the session have their types, and the symbols that are made are new. -/
def typing : Regime Stop Kernel Session where
  Holds s k := k.Grounded ∧ ∀ v ∈ s.embeds, v.Sits .empty k
  Leads s k s' k' := k.Freshens k' ∧ s'.embeds = s.embeds
  Stops _ _ _ _ := True
  refl h := ⟨h.1.refl, rfl⟩
  trans h h' := ⟨h.1.trans h'.1, h'.2.trans h.2⟩
  stops _ h := h

theorem typing_later (hs : typing.Holds s k) (hle : k.Freshens k')
    (hembeds : s'.embeds = s.embeds) :
    typing.Holds s' k' :=
  ⟨hle.grounded, fun v hv => (hs.2 v (hembeds ▸ hv)).later hs.1 hle (known_empty hs.1)⟩

/-- The action makes new symbols only and keeps the values of the session; its answer is in `Q`. -/
abbrev Derives (x : SessionM α) (s : Session) (k : Kernel) (Q : α → Kernel → Prop) : Prop :=
  typing.Keeps x s k fun a _ k' => Q a k'

private theorem derives_of_ends {x : SessionM α} {Q : α → Kernel → Prop}
    (h : typing.Holds s k → EndsWith x s k
    (fun a s' k' => k.Freshens k' ∧ s'.embeds = s.embeds ∧ Q a k') fun _ _ => True) :
    Derives x s k Q :=
  fun hs => (h hs).imp fun _ _ _ h => ⟨typing_later hs h.1 h.2.1, ⟨h.1, h.2.1⟩, h.2.2⟩

private theorem derives_note (e : Event) : Derives (liftM (note e)) s k fun _ _ => True :=
  derives_of_ends fun hs => ⟨hs.1.freshens_noted, rfl, trivial⟩

private theorem derives_onStore {x : StoreM α}
    (h : EndsWith x s.store { k with journal := [] } (fun _ _ k' => k' = { k with journal := [] })
      fun _ _ => True) : Derives (onStore x) s k fun _ _ => True := by
  refine derives_of_ends fun hs => ends_onStore (h.mono ?_ fun _ _ _ _ _ => trivial)
  rintro a store _ rfl s' journal _ hembeds _
  exact ⟨hs.1.freshens_noted, hembeds, trivial⟩

private theorem derives_pose {x : StoreM Nat} {p : Purpose}
    (h : EndsWith x s.store { k with journal := [] } (fun _ _ k' => k' = { k with journal := [] })
      fun _ _ => True) :
    Derives (onStore x >>= fun id => rememberPurpose id p) s k fun _ _ => True :=
  .bind (derives_onStore h) fun _ _ _ _ _ _ _ =>
    derives_of_ends fun hs => ⟨hs.1.refl, rfl, trivial⟩

/-! ### What evaluation relies on -/

/-- The telescope was built from the symbols that are there. -/
structure Basis (tele : Telescope) (k : Kernel) : Prop where
  grounded : k.Grounded
  built : ∃ types, Telescope.Built types tele k
  known : tele.Known k.nextSymbol

private theorem built_later {types : List Term} (h : Built types tele k) (hk : k.Grounded)
    (hle : k.Freshens k') : Built types tele k' := by
  refine h.later (hle.sub hk) hle.grounded.ruled ?_
  have hcontext : k.contexts[tele.context]? = some .empty := h.standing.context
  rw [hcontext]
  exact hle.contexts _ _ hcontext

namespace Basis

theorem later (h : Basis tele k) (hle : k.Freshens k') : Basis tele k' where
  grounded := hle.grounded
  built := h.built.imp fun _ hbuilt => built_later hbuilt h.grounded hle
  known := h.known.mono hle.symbols

theorem context (h : Basis tele k) : tele.AssumesNothing k := by
  obtain ⟨_, hbuilt⟩ := h.built
  exact hbuilt.standing.context

private theorem reduceClean_bind {g : Term → SessionM β} {P : β → Kernel → Prop} {t : Term}
    (h : Basis tele k) (hg : ∀ u, Normalizes k.rules t u → u.All Plain → Derives (g u) s k P) :
    Derives (liftM (tele.reduceClean t) >>= g) s k P := by
  intro hs
  rw [bind_iff, lift_iff]
  refine (h.context.ends_reduceClean t).imp ?_
  rintro u _ ⟨rfl, hn, hplain⟩
  exact hg u hn hplain hs

end Basis

private theorem endsWith_typed {a : Term} {name : String} {g : SessionM β}
    {Q : β → Session → Kernel → Prop} {k0 : Kernel} (h : Basis tele k)
    (htype : type.Known k.nextSymbol) (hk0 : k0.Grounded) (hle : k0.Freshens k)
    (ha : a.symbol? = some id) (hid : k0.nextSymbol ≤ id) (hid' : id < k.nextSymbol)
    (hg : ∀ k', k0.Freshens k' → (⟨tele.applyArgs a, type⟩ : TypedTerm).Sits tele k' →
      k'.rules.ruleFor? id = k.rules.ruleFor? id → EndsWith g s k' Q fun _ _ => True) :
    EndsWith (do
      let closed ← liftM (tele.instanceOf type)
      liftM (setType a closed)
      liftM (setName a name)
      g) s k Q fun _ _ => True := by
  obtain ⟨types, hbuilt⟩ := h.built
  rw [bind_iff, lift_iff]
  refine Ends.of_answer fun closed k1 hok => ?_
  obtain ⟨hle1, hclosed⟩ := freshens_instanceOf h.grounded h.known htype hok
  have hmade := (ends_instanceOf tele type k).of_ok hok
  rw [bind_iff, lift_iff, setType, ha]
  change EndsWith _ s { k1 with types := k1.types.set id closed } Q _
  rw [bind_iff, lift_iff]
  refine ends_setName fun names => ?_
  have hid1 := hid'.trans_le hle1.symbols
  have hfresh : k0.Freshens { k1 with types := k1.types.set id closed } :=
    (hle.trans hle1).withType hid hid1 (hk0.primitives.trans hid) hclosed
  refine hg _ ?_ ⟨?_, htype.mono hle1.symbols, fun hclear => ?_⟩ (hle1.rules id hid')
  · exact hfresh.trans hfresh.grounded.freshens_noted
  · refine known_applyArgs ?_
    cases a with
    | postulate => exact known_postulate _
    | decl =>
      cases ha
      exact known_decl.2 hid1
    | _ => cases ha
  · refine hmade.reads hbuilt (.refl _) hclear ?_
    cases a with
    | postulate | decl =>
      cases ha
      exact (Table.get?_set ..).trans (if_pos rfl)
    | _ => cases ha

private theorem derives_makeUnknown (h : Basis tele k) (htype : type.Known k.nextSymbol)
    (definable : Bool) (role : Role) (node : NodeId) :
    Derives (makeUnknown tele type definable role node) s k fun p k' =>
      p = (.decl k.nextSymbol, tele.applyArgs (.decl k.nextSymbol)) ∧
        k.nextSymbol < k'.nextSymbol ∧ k'.rules.ruleFor? k.nextSymbol = none ∧
        (⟨p.2, type⟩ : TypedTerm).Sits tele k' := by
  have hdeclared : k.Freshens
      { k with nextSymbol := k.nextSymbol + 1, rules := k.rules.register k.nextSymbol } :=
    h.grounded.freshens_later (Nat.le_succ _) (fun _ => by simp) rfl rfl rfl fun _ _ h => h
  have hfree := h.grounded.not_ruled (Nat.le_refl k.nextSymbol)
  have htyped : ∀ s1 k1, k.Freshens k1 → s1.embeds = s.embeds → k.nextSymbol < k1.nextSymbol →
      k1.rules.ruleFor? k.nextSymbol = none → EndsWith (do
        let closed ← liftM (tele.instanceOf type)
        liftM (setType (.decl k.nextSymbol) closed)
        liftM (setName (.decl k.nextSymbol) (role.name node))
        pure (.decl k.nextSymbol, tele.applyArgs (.decl k.nextSymbol)) : SessionM (Term × Term))
        s1 k1 (fun p s' k' => k.Freshens k' ∧ s'.embeds = s.embeds ∧
          p = (.decl k.nextSymbol, tele.applyArgs (.decl k.nextSymbol)) ∧
          k.nextSymbol < k'.nextSymbol ∧ k'.rules.ruleFor? k.nextSymbol = none ∧
          (⟨p.2, type⟩ : TypedTerm).Sits tele k') fun _ _ => True := by
    intro s1 k1 hle hembeds hlt hrule
    refine endsWith_typed (h.later hle) (htype.mono hle.symbols) h.grounded hle rfl
      le_rfl hlt fun k' hle' hsits hrule' => ?_
    have hvalue : Known k'.nextSymbol (.decl k.nextSymbol) := (known_apply.1 hsits.value).1
    exact ⟨hle', hembeds, rfl, known_decl.1 hvalue, hrule'.trans hrule, hsits⟩
  refine derives_of_ends fun hs => ?_
  rw [makeUnknown_eq, bind_iff, lift_iff, ends_declare]
  have hrule : RuleTable.ruleFor? (k.rules.register k.nextSymbol) k.nextSymbol = none := by
    simpa using hfree
  cases definable with
  | false => exact htyped _ _ hdeclared rfl (Nat.lt_succ_self _) hrule
  | true =>
    refine seq (derives_onStore ?_ (typing_later hs hdeclared rfl)) ?_
    · exact (StoreM.ends_registerIndeterminate _ _ _).answer (fun _ _ _ h => h.1)
    · rintro _ s1 k1 ⟨_, ⟨hle, hembeds⟩, _⟩
      refine htyped s1 k1 (hdeclared.trans hle) hembeds ?_ ?_
      · exact (Nat.lt_succ_self _).trans_le hle.symbols
      · exact (hle.rules _ (Nat.lt_succ_self _)).trans hrule

/-! ### Casts and applications -/

theorem derives_cast (h : Basis tele k) (hv : v.Sits tele k)
    (htype : type.Known k.nextSymbol) (purpose : Failure.Purpose) (node : NodeId) :
    Derives (cast tele purpose node v type) s k fun t k' =>
      (⟨t, type⟩ : TypedTerm).Sits tele k' := by
  unfold cast
  refine h.reduceClean_bind fun source hsource _ => h.reduceClean_bind fun target htarget _ => ?_
  split
  · next heq =>
    refine .pure fun _ => ⟨hv.value, htype, fun hclear => ?_⟩
    obtain ⟨read, hreads, hsame⟩ := hv.wellTyped hclear
    refine ⟨read, hreads, fun n hn => hsame n ?_⟩
    rwa [hn.unique htarget, ← heq]
  · refine .bind (derives_makeUnknown h htype false .cast node) ?_
    rintro ⟨unknown, applied⟩ s1 k1 _ _ ⟨hle1, _⟩ ⟨-, -, -, happlied⟩
    have h1 := h.later hle1
    refine .bind (derives_pose (ends_poseCast.2 rfl)) fun _ s2 k2 _ _ hle2 _ => .pure fun _ => ?_
    exact happlied.later h1.grounded hle2.1 h1.known

private theorem normalizes_applyArgs {R : RuleTable} (hid : R.ruleFor? id = none)
    (tele : Telescope) :
    Normalizes R (tele.applyArgs (.decl id)) (tele.applyArgs (.decl id)) ∧
      (tele.applyArgs (.decl id)).All Plain := by
  refine ⟨normalizes_of_applicable? rfl ?_ (normalizes_firstArgs R _),
    all_apply.2 ⟨nofun, all_plain_firstArgs⟩⟩
  change Option.filter _ (R.ruleFor? id) = none
  rw [hid]
  rfl

private theorem derives_applyUnknown (h : Basis tele k) (node : NodeId) (f x : TypedTerm) :
    Derives (applyUnknown tele node f x) s k fun v k' => v.Sits tele k' := by
  unfold applyUnknown
  refine .bind (derives_makeUnknown h (known_postulate _) true .domain node) ?_
  rintro ⟨_, domain⟩ s1 k1 _ _ ⟨hle1, _⟩ ⟨⟨⟩, hlt1, hfree1, hdomain⟩
  have h1 := h.later hle1
  have hfamily : Known k1.nextSymbol typeFamily :=
    known_decl.2 (Nat.lt_of_lt_of_le (by decide) h1.grounded.primitives)
  refine .bind (derives_makeUnknown h1 (known_app.2 ⟨hfamily, hdomain.value⟩) true .codomain
    node) ?_
  rintro ⟨_, codomain⟩ s2 k2 _ _ ⟨hle2, _⟩ ⟨⟨⟩, hlt2, hfree2, hcodomain⟩
  have h2 := h1.later hle2
  have hdomain2 := hdomain.value.mono hle2.symbols
  have hexpected := known_arrowOf.2 ⟨hdomain2, hcodomain.value⟩
  refine .bind (derives_makeUnknown h2 hexpected false .function node) ?_
  rintro ⟨_, function⟩ s3 k3 _ _ ⟨hle3, _⟩ ⟨⟨⟩, -, -, hfunction⟩
  have h3 := h2.later hle3
  refine .bind (derives_makeUnknown h3 (hdomain2.mono hle3.symbols) false .argument node) ?_
  rintro ⟨_, argument⟩ s4 k4 _ _ ⟨hle4, _⟩ ⟨⟨⟩, -, -, hargument⟩
  have h4 := h3.later hle4
  refine .bind (derives_pose (ends_poseApplication.2 rfl))
    fun _ s5 k5 _ _ ⟨hle5, _⟩ _ => .pure fun _ => ?_
  have hle35 := hle4.trans hle5
  have hle25 := hle3.trans hle35
  have hfunction5 := hfunction.later h3.grounded hle35 h3.known
  have hargument5 := hargument.value.mono hle5.symbols
  refine ⟨⟨hfunction5.value, hargument5⟩, ⟨hcodomain.value.mono hle25.symbols, hargument5⟩,
    fun hclear => ?_⟩
  -- the expected function type is its own normal form: its parts are unknowns without rules
  obtain ⟨hdomainNormal, hdomainPlain⟩ := normalizes_applyArgs
    (((hle2.trans hle25).rules _ hlt1).trans hfree1) tele
  obtain ⟨hcodomainNormal, hcodomainPlain⟩ := normalizes_applyArgs
    ((hle25.rules _ hlt2).trans hfree2) tele
  obtain ⟨type, hreads, hsame⟩ := hfunction5.wellTyped hclear
  have harrow := hsame _ (normalizes_postulate (.cons hdomainNormal (.cons hcodomainNormal .nil)))
  exact ⟨_, hreads.app harrow ⟨⟨nofun, hdomainPlain⟩, hcodomainPlain⟩, fun n hn => hn⟩

private theorem derives_apply (h : Basis tele k) (hf : f.Sits tele k) (hx : x.Sits tele k)
    (node : NodeId) : Derives (apply tele node f x) s k fun v k' => v.Sits tele k' := by
  unfold apply
  refine h.reduceClean_bind fun type htype hplain => ?_
  split
  · next domain codomain harrow =>
    obtain rfl := eq_arrowOf harrow
    have hknown := known_arrowOf.1 (h.grounded.known_of_normalizes hf.type htype)
    refine .bind (derives_cast h hx hknown.1 .argumentType node) ?_
    rintro t s1 k1 _ _ ⟨hle, _⟩ ht
    have hf1 := hf.later h.grounded hle h.known
    have htype1 := (h.grounded.normalizes_iff hle hf.type).2 htype
    refine .pure fun _ => ⟨⟨hf1.value, ht.value⟩, ⟨hknown.2.mono hle.symbols, ht.value⟩, ?_⟩
    intro hclear
    obtain ⟨read, hreads, hsame⟩ := hf1.wellTyped hclear
    exact ⟨_, hreads.app (hsame _ htype1) hplain, fun n hn => hn⟩
  · refine .bind (derives_note _) fun _ s1 k1 _ _ hle _ => ?_
    exact derives_applyUnknown (h.later hle.1) node f x

private theorem sits_postulate (hk : k.Grounded) (hid : (id, type) ∈ types) :
    (⟨.postulate id, type⟩ : TypedTerm).Sits tele k := by
  have htype : k.typeOfSymbol? (.postulate id) = some type := hk.primitiveTypes _ hid
  exact ⟨known_postulate id, hk.types _ type htype,
    fun _ => ⟨type, ⟨type, htype, .done⟩, fun _ hn => hn⟩⟩

private theorem sits_typeFamilyOf {t : Term} (hk : k.Grounded) (ht : t.Known k.nextSymbol) :
    (⟨typeFamilyOf t, Primitive.type⟩ : TypedTerm).Sits tele k := by
  have hknown : Known k.nextSymbol typeFamily :=
    known_decl.2 (Nat.lt_of_lt_of_le (by decide) hk.primitives)
  refine ⟨⟨hknown, ht⟩, known_postulate _, fun _ => ?_⟩
  have hrule : k.rules.ruleFor? 3 = some (.lambda constant 4 (.arg 1)) :=
    hk.primitiveRules _ _ rfl
  have htype : Normalizes k.rules Primitive.type Primitive.type := normalizes_postulate .nil
  have hconstant : Normalizes k.rules (constantFamily Primitive.type Primitive.type)
      (constantFamily Primitive.type Primitive.type) :=
    normalizes_partial hrule (Nat.lt_succ_self 3) (.cons htype (.cons htype (.cons htype .nil)))
  have hfamily : k.typeOfSymbol? typeFamily = some
      (arrowOf Primitive.type (constantFamily Primitive.type Primitive.type)) :=
    hk.primitiveTypes (2, _) (by decide)
  refine ⟨_, ⟨_, hfamily, .step (normalizes_postulate (.cons htype (.cons hconstant .nil)))
    ?_ .done⟩,
    fun n hn => ?_⟩
  · exact ⟨⟨nofun, nofun⟩, ⟨⟨nofun, nofun⟩, nofun⟩, nofun⟩
  · rw [hn.unique htype]
    change Normalizes _ ((decl 3).apply [Primitive.type, Primitive.type, Primitive.type, t]) _
    exact normalizes_lambda hrule htype

private theorem derives_require (deduce : Bool) (purpose : Failure.Purpose)
    (node : NodeId) (lhs rhs : Term) :
    Derives (require tele deduce purpose node lhs rhs) s k fun _ _ => True :=
  derives_pose (ends_poseEquation.2 rfl)

private theorem derives_makePostulate (h : Basis tele k) (htype : type.Known k.nextSymbol)
    (id : NodeId) :
    Derives (makePostulate tele id type) s k fun v k' => v.Sits tele k' := by
  have hmade : k.Freshens { k with nextSymbol := k.nextSymbol + 1 } :=
    h.grounded.freshens_later (Nat.le_succ _) (fun _ => rfl) rfl rfl rfl fun _ _ h => h
  refine derives_of_ends fun _ => ?_
  unfold makePostulate freshPostulate
  rw [bind_iff, lift_iff, Ends.bind_iff, ends_freshSymbol, Ends.pure_iff]
  refine endsWith_typed (h.later hmade) (htype.mono hmade.symbols) h.grounded hmade rfl
    le_rfl (Nat.lt_succ_self _) fun k' hle' hsits _ => ?_
  exact ⟨hle', rfl, hsits⟩

private theorem derives_extend (h : Basis tele k) (htype : type.Known k.nextSymbol) :
    Derives (liftM (tele.extend type)) s k fun inner k' => Basis inner k' ∧
      (⟨.arg tele.depth, type⟩ : TypedTerm).Sits inner k' ∧
      ∀ v : TypedTerm, v.Sits tele k' → v.Sits inner k' := by
  refine derives_of_ends fun _ => lift_iff.2 (Ends.of_answer fun inner k' hok => ?_)
  have hbound := (ends_extend tele type k).of_ok hok
  obtain ⟨hle, hknown⟩ := hbound.freshens h.grounded h.known htype
  refine ⟨hle, rfl, ⟨hle.grounded, ?_, hknown⟩, ⟨known_arg _, htype.mono hle.symbols, fun _ => ?_⟩,
    fun v hv => ?_⟩
  · obtain ⟨types, hbuilt⟩ := h.built
    exact ⟨_, hbuilt.extend hok⟩
  · refine ⟨type, ⟨type, headType?_eq_some_iff.2 (.inl ⟨_, rfl, ?_⟩), .done⟩, fun _ h => h⟩
    rw [hbound.telescope]
    change (type :: tele.boundTypes).reverse[tele.boundTypes.length]? = some type
    simp
  · rw [hbound.telescope]
    exact hv.bound type _

theorem lenient_typing : Lenient typing := fun _ _ _ _ _ => trivial

/-- Every value has its type, as long as no rules are given. -/
def typeUpkeep : Upkeep typing where
  Tele tele _ k := Basis tele k
  Value tele v _ k := v.Sits tele k
  Side _ _ _ _ := True
  Compiled _ _ _ _ := True
  Part _ _ _ _ _ := True
  rules := False
  tele_later _ _ hle h := h.later hle.1
  value_later hs hle htele hv := hv.later hs.1 hle.1 htele.known
  side_later _ h := h
  compiled_later _ _ _ h := h
  part_later _ _ _ h := h
  side_value _ := trivial
  side_type _ := trivial
  note _ := derives_note _
  embedded index _ := keeps_embedded index (fun _ => trivial) fun hs v hv => (hs.2 v hv).of_empty _
  value_kind hs := sits_postulate hs.1 (by decide)
  value_arrow hs := sits_postulate hs.1 (by decide)
  value_family hs ht := sits_typeFamilyOf hs.1 ht.value
  cast purpose node h hv ht := derives_cast h hv ht.value purpose node
  apply node h hf hx := derives_apply h hf hx node
  require deduce purpose node _ _ _ := derives_require deduce purpose node _ _
  makeUnknown definable role node h ht :=
    (derives_makeUnknown h ht.value definable role node).mono fun _ _ _ _ h => h.2.2.2
  makePostulate id h ht := derives_makePostulate h ht.value id
  extend h ht := derives_extend h ht.value
  side_app h := h.elim
  value_arg h := h.elim
  tele_compiled h := h.elim
  value_compiled h := h.elim
  poseRule _ h := h.elim
  tele_part h := h.elim
  value_part h := h.elim
  side_part h := h.elim
  start h := h.elim
  pull h := h.elim
  matchHead _ h := h.elim
  finish h := h.elim

end Evaluator
end Elaboration
