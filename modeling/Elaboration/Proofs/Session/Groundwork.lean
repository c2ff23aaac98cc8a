import Elaboration.Proofs.Equation.Footing
import Elaboration.Proofs.Reduction.Firing
import Elaboration.Proofs.Session.Evaluation

/-!
# The groundwork of evaluation

Everything in the store stays on a footing that installing rules without placeholders keeps. On a
footing in the kernel, casts, applications and compiled patterns keep a regime up as soon as what
they ask of the host does. So everything in a session stays on a footing that supports it, in
whatever order programs are evaluated and equations looked at.
-/

namespace Elaboration

open List StoreM

/-- Every match step looks at a value below the captures before it, for a head that can be matched
on. -/
def Rule.StepsValued (Value : Nat → Term → Prop) : Nat → List Rule.Step → Prop
  | _, [] => True
  | n, .pull :: steps => StepsValued Value (n + 1) steps
  | n, .destructure subject head count :: steps =>
    (Value n subject ∧ Pattern.Position.canDestructure head) ∧ StepsValued Value (n + count) steps

namespace Rule

variable {Value : Nat → Term → Prop} {steps steps' : List Step} {n : Nat}

private theorem stepsValued_append : StepsValued Value n (steps ++ steps') ↔
    StepsValued Value n steps ∧ StepsValued Value (n + (steps.map Step.captures).sum) steps' := by
  induction steps generalizing n with
  | nil => simp [StepsValued]
  | cons x steps ih =>
    cases x <;> simp [StepsValued, ih, Step.captures, Nat.add_assoc, and_assoc]

private theorem stepsValued_replicate_pull (n count : Nat) :
    StepsValued Value n (replicate count .pull) := by
  induction count generalizing n with
  | zero => trivial
  | succ count ih => exact ih (n + 1)

/-- Steps with values over `p` are over `p`. -/
theorem StepsValued.over {p : Term → Prop} (h : StepsValued Value n steps)
    (hp : ∀ n t, Value n t → t.All (Term.CaptureOr n p)) : StepsOver p n steps := by
  induction steps generalizing n with
  | nil => trivial
  | cons x steps ih =>
    cases x with
    | pull => exact ih h
    | destructure subject head count =>
      refine ⟨⟨hp n _ h.1.1, ?_⟩, ih h.2⟩
      cases head with
      | postulate | leaf => rfl
      | _ => cases h.1.2

/-- What holds of every match step that looks at a value for such a head. -/
theorem StepsValued.forall_mem {p : Step → Prop} (h : StepsValued Value n steps) (hpull : p .pull)
    (hdestructure : ∀ n subject head count, Value n subject →
      Pattern.Position.canDestructure head → p (.destructure subject head count)) :
    ∀ x ∈ steps, p x := by
  induction steps generalizing n with
  | nil => exact forall_mem_nil _
  | cons x steps ih =>
    cases x with
    | pull => exact forall_mem_cons.2 ⟨hpull, ih h⟩
    | destructure subject head count =>
      exact forall_mem_cons.2 ⟨hdestructure n _ _ _ h.1.1 h.1.2, ih h.2⟩

end Rule

namespace Footing

variable {C : Course Stop Kernel}

/-- What the cast relates is below its telescope. -/
structure Casts (F : Footing C) (c : Cast) (k : Kernel) : Prop where
  telescope : F.Tele c.telescope k
  sourceType : F.Side c.telescope.depth c.sourceType
  source : F.Value c.telescope.depth c.source
  targetType : F.Side c.telescope.depth c.targetType

/-- What the application relates is below its telescope. -/
structure Applies (F : Footing C) (a : Application) (k : Kernel) : Prop where
  telescope : F.Tele a.telescope k
  functionType : F.Side a.telescope.depth a.functionType
  function : F.Value a.telescope.depth a.function
  expectedFunctionType : F.Side a.telescope.depth a.expectedFunctionType
  argumentType : F.Side a.telescope.depth a.argumentType
  argument : F.Value a.telescope.depth a.argument
  expectedArgumentType : F.Side a.telescope.depth a.expectedArgumentType

/-- The rule captures the arguments of its telescope, one after another, and what it relates is
below them. -/
structure Requests (F : Footing C) (r : RuleRequest) (k : Kernel) : Prop where
  telescope : F.Tele r.telescope k
  steps : Rule.StepsValued F.Value 0 r.rule.steps
  captures : r.rule.captureCount = r.telescope.depth
  replacement : F.Value r.telescope.depth r.rule.replacement
  checks : ∀ c ∈ r.checks, F.Side r.telescope.depth c.1 ∧ F.Side r.telescope.depth c.2
  patternType : F.Side r.telescope.depth r.patternType
  replacementType : F.Side r.telescope.depth r.replacementType

/-- What the obligation relates is below its telescope. -/
def Owes (F : Footing C) : Obligation → Kernel → Prop
  | .equation, _ => True
  | .cast c, k => F.Casts c k
  | .application a, k => F.Applies a k
  | .rule p, k => ∀ r, p.request = some r → F.Requests r k

/-- A footing whose values are without placeholders and may be installed as parts of rules. -/
structure Supports (F : Footing C) : Prop extends F.Reads, F.Solves where
  plain {d a} : F.value d a → Term.Plain a
  refl (k : Kernel) : C.Leads k k
  recorded {k} (journal : List Event) : C.Holds k →
    C.Holds { k with journal } ∧ C.Leads k { k with journal }
  stopped {k e k'} (journal : List Event) : C.Stops k e k' → C.Stops k e { k' with journal }
  install {r k} (id : Nat) : C.Holds k → Rule.StepsValued F.Value 0 r.steps →
    F.Value r.captureCount r.replacement → C.Holds (k.withRule id r) ∧ C.Leads k (k.withRule id r)

variable {F : Footing C} {k k' : Kernel}

private theorem value_of_canDestructure {n : Nat} {head : Term}
    (h : Pattern.Position.canDestructure head) :
    F.Value n head := by
  cases head with
  | postulate id => exact F.value_postulate
  | leaf l => exact F.value_leaf
  | _ => cases h

private theorem owes_later {o : Obligation} (hle : C.Leads k k') (h : F.Owes o k) :
    F.Owes o k' := by
  cases o with
  | equation => trivial
  | cast c => exact { (h : F.Casts c k) with telescope := F.tele_later hle h.telescope }
  | application a => exact { (h : F.Applies a k) with telescope := F.tele_later hle h.telescope }
  | rule p => exact fun r hr => { h r hr with telescope := F.tele_later hle (h r hr).telescope }

private theorem equates_later {e : Equation} (hle : C.Leads k k') (h : F.Equates e k) :
    F.Equates e k' :=
  { h with telescope := F.tele_later hle h.telescope }

namespace Supports

variable (hF : F.Supports) {r : RuleRequest}

include hF

private theorem eliminate_eq {d : Nat} {t : Term} (h : F.Value d t) (q : Equalities) :
    q.eliminate t = t :=
  q.eliminate_eq_self (Term.All.mono h fun _ => hF.plain)

private theorem defines {o : Obligation} {slot : Slot} {tele : Telescope} {unknown value : Term}
    {id : Nat} (hk : C.Holds k) (ho : F.Owes o k) (hd : Defines o slot tele unknown value)
    (hi : Installed tele unknown value k k' id) : C.Holds k' ∧ C.Leads k k' := by
  have hvalue : F.Value tele.depth value := by
    cases hd with
    | cast => exact Casts.source ho
    | function => exact Applies.function ho
    | argument => exact Applies.argument ho
  rw [hi.kernel, hF.eliminate_eq hvalue]
  obtain ⟨hnoted, hle⟩ := hF.recorded (.castInstalled unknown value :: k.journal) hk
  have hinstall := hF.install id (r := .lambda unknown tele.depth value) hnoted
    (Rule.stepsValued_replicate_pull _ _) (by rwa [Rule.captureCount_lambda])
  exact ⟨hinstall.1, C.trans hle hinstall.2⟩

private theorem requestedRule_eq (h : F.Requests r k) :
    requestedRule r k = r.rule := by
  have hstep : ∀ x ∈ r.rule.steps,
      eliminatedStep (k.equalities r.telescope.context) x = id x := by
    refine h.steps.forall_mem rfl fun n subject head count hsubject _ => ?_
    rw [eliminatedStep, hF.eliminate_eq hsubject, id]
  rw [requestedRule, map_congr_left hstep, map_id, hF.eliminate_eq h.replacement]

private theorem commits {p : RuleProgress} {request : RuleRequest} {installed : Bool}
    (hk : C.Holds k) (ho : F.Owes (.rule p) k) (hp : p.request = some request)
    (h : Committed request k installed k') : C.Holds k' ∧ C.Leads k k' := by
  cases h with
  | overtaken => exact hF.recorded _ hk
  | @installed id =>
    have hrequest := ho request hp
    rw [hF.requestedRule_eq hrequest]
    obtain ⟨hnoted, hle⟩ := hF.recorded (.ruleCommitted id :: k.journal) hk
    have hinstall := hF.install id hnoted hrequest.steps
      (by rw [hrequest.captures]; exact hrequest.replacement)
    exact ⟨hinstall.1, C.trans hle hinstall.2⟩

omit hF in
/-- Everything in the store is on the footing. -/
def contents (hF : F.Supports) : Contents where
  Holds := C.Holds
  Leads := C.Leads
  Equates := F.Equates
  Owes := F.Owes
  Stops k' := ∃ k e, C.Stops k e k'
  Allows _ := True
  refl := hF.refl
  trans := C.trans
  recorded := hF.recorded
  equates_later _ := equates_later
  owes_later _ := owes_later
  muted _ h := ⟨h.telescope, h.lhs, h.rhs⟩
  argument {a _} h :=
    have ha : F.Applies a _ := h
    ⟨ha.telescope, ha.argumentType, ha.expectedArgumentType⟩
  condition h hq r hr := h r (hq r hr)
  defines := hF.defines
  commits := hF.commits
  step hk he _ _ hstep := by
    obtain ⟨hk', hle, hv⟩ := (Solver.keeps_step hF.toSolves he ⟨hk, trivial⟩).of_ok hstep
    exact ⟨hk'.1, hle, hv⟩
  stops hk := ⟨_, .violation .countBelowZero, hF.violated hk⟩
  step_stops hk he hstep :=
    ⟨_, _, (Solver.keeps_step hF.toSolves he ⟨hk, trivial⟩).of_error hstep⟩

/-! ### Posing -/

variable {s : Store}

private theorem keeps_poseEquation {e : Equation} (he : F.Equates e k) :
    hF.contents.regime.Keeps (poseEquation e) s k fun _ _ _ => True :=
  Contents.keeps_pose ends_poseEquation trivial (forall_mem_singleton.2 he)

private theorem keeps_poseCast {c : Cast} (hc : F.Casts c k) :
    hF.contents.regime.Keeps (poseCast c) s k fun _ _ _ => True :=
  Contents.keeps_pose ends_poseCast hc
    (forall_mem_singleton.2 ⟨hc.telescope, hc.sourceType, hc.targetType⟩)

private theorem keeps_poseApplication {a : Application} (ha : F.Applies a k) :
    hF.contents.regime.Keeps (poseApplication a) s k fun _ _ _ => True :=
  Contents.keeps_pose ends_poseApplication ha
    (forall_mem_singleton.2 ⟨ha.telescope, ha.functionType, ha.expectedFunctionType⟩)

private theorem keeps_poseRule (hr : F.Requests r k) :
    hF.contents.regime.Keeps (poseRule r) s k fun _ _ _ => True := by
  refine Contents.keeps_pose ends_poseRule ?_ fun x hx => ?_
  · rintro _ ⟨⟩
    exact hr
  · obtain ⟨c, hc, heq⟩ := exists_of_mem_conditions hx
    rw [heq]
    obtain rfl | hc := mem_cons.1 hc
    · exact ⟨hr.telescope, hr.patternType, hr.replacementType⟩
    · exact ⟨hr.telescope, (hr.checks c hc).1, (hr.checks c hc).2⟩

end Supports
end Footing

open Rule Term

private theorem Rule.expectations_replicate_pull (n count : Nat) :
    expectations n (replicate count .pull) = [] := by
  induction count generalizing n with
  | zero => rfl
  | succ count ih => exact ih (n + 1)

namespace Pattern

variable {Tele Tele' : Telescope → Prop} {Value : Nat → Term → Prop} {outer tele inner : Telescope}
  {steps : List Step}

/-- The telescope was made for a match program, below an outer one: it binds what the steps capture
and assumes what they expect besides. -/
structure Lays (Tele : Telescope → Prop) (Value : Nat → Term → Prop) (outer tele : Telescope)
    (steps : List Rule.Step) : Prop where
  telescope : Tele tele
  valued : Rule.StepsValued Value 0 steps
  captures : (steps.map Rule.Step.captures).sum = tele.depth
  assumptions : tele.assumptions = (Rule.expectations 0 steps).reverse ++ outer.assumptions
  depth : outer.depth ≤ tele.depth

theorem Lays.imp (h : Lays Tele Value outer tele steps) (htele : Tele tele → Tele' tele) :
    Lays Tele' Value outer tele steps :=
  { h with telescope := htele h.telescope }

private theorem lays_start (h : Tele tele) :
    Lays Tele Value tele tele (replicate tele.depth .pull) where
  telescope := h
  valued := stepsValued_replicate_pull _ _
  captures := by simp [Step.captures]
  assumptions := by rw [expectations_replicate_pull, reverse_nil, nil_append]
  depth := le_rfl

private theorem Lays.snoc {x : Step} (h : Lays Tele Value outer tele steps) (hinner : Tele' inner)
    (hdepth : inner.depth = tele.depth + x.captures) (hx : StepsValued Value tele.depth [x])
    (hassumptions : inner.assumptions = expectations tele.depth [x] ++ tele.assumptions) :
    Lays Tele' Value outer inner (steps ++ [x]) where
  telescope := hinner
  valued := by
    rw [stepsValued_append, Nat.zero_add, h.captures]
    exact ⟨h.valued, hx⟩
  captures := by simp [h.captures, hdepth]
  assumptions := by
    have hone : (expectations tele.depth [x]).reverse = expectations tele.depth [x] := by
      cases x <;> rfl
    rw [expectations_append, Nat.zero_add, h.captures, reverse_append, hone,
      append_assoc, ← h.assumptions, hassumptions]
  depth := hdepth ▸ Nat.le_add_right_of_le h.depth

/-- A compiled pattern, below an outer telescope. -/
structure Execution.Laid (Tele : Telescope → Prop) (Value Side : Nat → Term → Prop)
    (outer : Telescope) (x : Execution) : Prop where
  lays : Lays Tele Value outer x.telescope x.steps
  head : ∃ id, x.head = .decl id
  type : Side x.telescope.depth x.type
  checks : ∀ c ∈ x.checks, Side x.telescope.depth c.2.1 ∧ Side x.telescope.depth c.2.2

/-- The telescope binds `count` arguments more and assumes the same; the function is applied to the
arguments that it binds. -/
structure Binds (tele : Telescope) (function : Term) (count : Nat) (inner : Telescope)
    (applied : Term) : Prop where
  depth : inner.depth = tele.depth + count
  assumptions : inner.assumptions = tele.assumptions
  applied : applied = function.apply (Term.argsFrom tele.depth count)

/-! ### Patterns on a footing -/

section Footing

variable {C : Course Stop Kernel} {F : Footing C} {k : Kernel} {type function applied t head : Term}

private theorem keeps_extend (h : F.Tele tele k) (htype : F.Value tele.depth type) :
    C.Keeps (tele.extend type) k fun inner k' => F.Tele inner k' ∧
      inner.depth = tele.depth + 1 ∧ inner.assumptions = tele.assumptions := by
  refine (F.extend h htype).and_ends ((tele.ends_extend type k).answer ?_)
  intro inner k' hbound
  rw [hbound.telescope]
  exact ⟨rfl, rfl⟩

private theorem keeps_pullArgument (hF : F.Reads) (h : F.Tele tele k)
    (hfunction : F.Side tele.depth function) :
    C.Keeps (pullArgument tele function) k fun out k' => ∀ inner applied,
      out = some (inner, applied) → F.Tele inner k' ∧ Binds tele function 1 inner applied := by
  refine (Footing.keeps_functionParts hF h hfunction).bind fun parts k1 hle hparts => ?_
  split
  · exact .pure nofun
  · next domain codomain =>
    refine (keeps_extend (F.tele_later hle h) (hparts domain codomain rfl)).bind ?_
    rintro extended _ _ ⟨hextended, hdepth, hassumptions⟩
    refine .pure ?_
    rintro _ _ ⟨⟩
    exact ⟨hextended, hdepth, hassumptions, rfl⟩

private theorem Binds.side {count : Nat} (h : Binds tele function count inner applied)
    (hfunction : F.Side tele.depth function) : F.Side inner.depth applied := by
  rw [h.applied]
  refine all_apply.2 ⟨hfunction.mono (h.depth ▸ Nat.le_add_right _ _), fun x hx => ?_⟩
  obtain ⟨i, hi, rfl⟩ := mem_map.1 hx
  exact F.side_value (F.value_arg (h.depth ▸ (mem_range'_1.1 hi).2))

private theorem keeps_pullArguments (hF : F.Reads) {count : Nat} (h : F.Tele tele k)
    (hfunction : F.Side tele.depth function) :
    C.Keeps (pullArguments count tele function) k fun out k' => ∀ inner applied,
      out = some (inner, applied) → F.Tele inner k' ∧ Binds tele function count inner applied := by
  induction count generalizing tele function k with
  | zero =>
    refine .pure ?_
    rintro _ _ ⟨⟩
    exact ⟨h, rfl, rfl, rfl⟩
  | succ count ih =>
    refine (keeps_pullArgument hF h hfunction).bind fun out k1 _ hout => ?_
    split
    · exact .pure nofun
    · next tele1 applied1 =>
      obtain ⟨htele1, hbinds⟩ := hout tele1 applied1 rfl
      refine (ih htele1 (hbinds.side hfunction)).mono fun out _ _ hout inner applied heq => ?_
      obtain ⟨hinner, hbinds'⟩ := hout inner applied heq
      refine ⟨hinner, ?_, hbinds'.assumptions.trans hbinds.assumptions, ?_⟩
      · rw [hbinds'.depth, hbinds.depth, Nat.add_assoc, Nat.add_comm 1]
      · rw [hbinds'.applied, hbinds.applied, hbinds.depth, argsFrom, argsFrom,
          argsFrom, range'_succ]
        rfl

private theorem keeps_matchHead (hF : F.Reads) (count : Nat) (h : F.Tele tele k)
    (ht : F.Value tele.depth t) (hhead : Position.canDestructure head) :
    C.Keeps (matchHead tele t head count) k fun out k' => ∀ inner, out = some inner →
      F.Tele inner k' ∧ inner.depth = tele.depth + count ∧
        inner.assumptions = expectations tele.depth [.destructure t head count] ++
          tele.assumptions := by
  have hclosed : F.Side tele.depth head := (Footing.value_of_canDestructure hhead).side
  refine (keeps_pullArguments hF h hclosed).bind fun out k1 _ hout => ?_
  split
  · exact .pure nofun
  · next bound destructured =>
    obtain ⟨hbound, hbinds⟩ := hout bound destructured rfl
    have hle : tele.depth ≤ bound.depth := hbinds.depth ▸ Nat.le_add_right _ _
    refine (F.note rfl).bind fun _ k2 hle2 _ => ?_
    rw [map_eq_pure_bind]
    refine ((hF.assume (F.tele_later hle2 hbound) (ht.side.mono hle) (hbinds.side hclosed)).and_ends
      ((bound.ends_assume t destructured k2).answer (fun _ _ h => h.telescope))).bind ?_
    rintro inner _ _ ⟨hinner, htele⟩
    refine .pure ?_
    rintro _ ⟨⟩
    refine ⟨hinner, ?_, ?_⟩
    · rw [htele]
      exact hbinds.depth
    · rw [htele]
      change (t, destructured) :: bound.assumptions = _
      rw [hbinds.assumptions, hbinds.applied]
      rfl

end Footing
end Pattern

namespace Evaluator

variable {H : Type}

/-- A value and a type for it. -/
structure Typed {C : Course Stop Kernel} (F : Footing C) (d : Nat) (v : TypedTerm) : Prop where
  value : F.Value d v.value
  type : F.Side d v.type

/-- A regime that has a footing in the kernel, and is kept up by what evaluation asks of the host.
-/
structure Groundwork [Host H] (L : Regime Stop Kernel H) {C : Course Stop Kernel} (F : Footing C) :
    Prop where
  reads : F.Reads
  tele_later {tele s k s' k'} : L.Leads s k s' k' → F.Tele tele k → F.Tele tele k'
  lift {α : Type} {y : KernelM α} {s k Q} : C.Keeps y k Q →
    L.Keeps (liftM y) s k fun a _ k' => Q a k'
  embedded {s k} (index : Nat) : L.Keeps (Host.embedded index) s k fun v _ _ => Typed F 0 v
  registerDeclaration {s k} (id : Nat) :
    L.Keeps (Host.registerDeclaration (.decl id)) s k fun _ _ _ => True
  registerIndeterminate {s k} (t : Term) :
    L.Keeps (Host.registerIndeterminate t) s k fun _ _ _ => True
  registerType {type s k} (t : Term) : F.Side 0 type →
    L.Keeps (Host.registerType t type) s k fun _ _ _ => True
  explain {s k} (t : Term) (role : Role) (node : NodeId) :
    L.Keeps (Host.explain t role node) s k fun _ _ _ => True
  isDefinable {s k} (t : Term) : L.Keeps (Host.isDefinable t) s k fun _ _ _ => True
  poseEquation {e s k} (purpose : Failure.Purpose) (node : NodeId) : F.Equates e k →
    L.Keeps (Host.poseEquation e purpose node) s k fun _ _ _ => True
  poseCast {c s k} (purpose : Failure.Purpose) (node : NodeId) : F.Casts c k →
    L.Keeps (Host.poseCast c purpose node) s k fun _ _ _ => True
  poseApplication {a s k} (node : NodeId) : F.Applies a k →
    L.Keeps (Host.poseApplication a node) s k fun _ _ _ => True
  poseRule {outer x v s k} (node : NodeId) :
    Pattern.Execution.Laid (F.Tele · k) F.Value F.Side outer x →
    F.Value x.telescope.depth v.value → F.Side x.telescope.depth v.type →
    L.Keeps (poseRule node x v) s k fun _ _ _ => True

namespace Groundwork

variable [Host H] {L : Regime Stop Kernel H} {C : Course Stop Kernel} {F : Footing C}
  {tele : Telescope} {type t : Term} {s : H} {k : Kernel} {α : Type} {d d' : Nat}

private theorem typed_mono {v : TypedTerm} (h : Typed F d v) (hd : d ≤ d') : Typed F d' v :=
  ⟨h.value.mono hd, h.type.mono hd⟩

private theorem typed_of_type (h : F.Value d t) : Typed F d ⟨t, Primitive.type⟩ :=
  ⟨h, F.side_value F.value_postulate⟩

variable (G : Groundwork L F) {f x : TypedTerm}

include G

/-! ### Unknowns and casts -/

private theorem keeps_typed {f : StateT H KernelM α} {Q : α → H → Kernel → Prop}
    (h : F.Tele tele k) (htype : F.Value tele.depth type) (v : Term) (role : Role) (node : NodeId)
    (hf : ∀ s' k', L.Keeps f s' k' Q) :
    L.Keeps (do
      let closed ← liftM (tele.instanceOf type)
      Host.registerType v closed
      Host.explain v role node
      f) s k Q := by
  refine .bind (G.lift (Footing.keeps_instanceOf G.reads h htype))
    fun closed _ _ _ _ _ hclosed => ?_
  refine .bind (G.registerType v hclosed) fun _ _ _ _ _ _ _ => ?_
  exact .bind (G.explain v role node) fun _ _ _ _ _ _ _ => hf _ _

private theorem keeps_makeUnknown (h : F.Tele tele k) (htype : F.Value tele.depth type)
    (definable : Bool) (role : Role) (node : NodeId) :
    L.Keeps (makeUnknown tele type definable role node) s k
      fun p _ _ => F.Value tele.depth p.2 := by
  refine .bind (G.lift F.keeps_freshDeclaration) ?_
  rintro _ s1 k1 _ _ hle1 ⟨id, rfl⟩
  refine .bind (G.registerDeclaration id) fun _ s2 k2 _ _ hle2 _ => ?_
  have h2 := G.tele_later (L.trans hle1 hle2) h
  have hdone : ∀ s' k', L.Keeps (pure (decl id, tele.applyArgs (.decl id))) s' k'
      fun p _ _ => F.Value tele.depth p.2 :=
    fun _ _ => .pure fun _ => Footing.value_applyArgs F.value_decl
  cases definable with
  | false => exact G.keeps_typed h2 htype _ _ _ hdone
  | true =>
    refine .bind (G.registerIndeterminate _) fun _ s3 k3 _ _ hle3 _ => ?_
    exact G.keeps_typed (G.tele_later hle3 h2) htype _ _ _ hdone

private theorem keeps_cast {v : TypedTerm} (purpose : Failure.Purpose) (node : NodeId)
    (h : F.Tele tele k) (hv : Typed F tele.depth v) (htype : F.Value tele.depth type) :
    L.Keeps (cast tele purpose node v type) s k fun t _ _ => F.Value tele.depth t := by
  refine .bind (G.lift (G.reads.reduceClean h hv.type)) fun source s1 k1 _ _ hle1 _ => ?_
  have h1 := G.tele_later hle1 h
  refine .bind (G.lift (G.reads.reduceClean h1 htype.side)) fun target s2 k2 _ _ hle2 _ => ?_
  have h2 := G.tele_later hle2 h1
  split
  · exact .pure fun _ => hv.value
  · refine .bind (G.keeps_makeUnknown h2 htype false .cast node) ?_
    rintro ⟨unknown, applied⟩ s3 k3 _ _ hle3 happlied
    exact .bind (G.poseCast purpose node ⟨G.tele_later hle3 h2, hv.type, hv.value, htype.side⟩)
      fun _ _ _ _ _ _ _ => .pure fun _ => happlied

private theorem keeps_applyUnknown (node : NodeId) (h : F.Tele tele k)
    (hf : Typed F tele.depth f) (hx : Typed F tele.depth x) :
    L.Keeps (applyUnknown tele node f x) s k fun v _ _ => Typed F tele.depth v := by
  have hkind : F.Value tele.depth Primitive.type := F.value_postulate
  refine .bind (G.keeps_makeUnknown h hkind true .domain node) ?_
  rintro ⟨_, domain⟩ s1 k1 _ _ hle1 hdomain
  have h1 := G.tele_later hle1 h
  have hfamily : F.Value tele.depth (Primitive.typeFamilyOf domain) := ⟨F.value_decl, hdomain⟩
  refine .bind (G.keeps_makeUnknown h1 hfamily true .codomain node) ?_
  rintro ⟨_, codomain⟩ s2 k2 _ _ hle2 hcodomain
  have h2 := G.tele_later hle2 h1
  have hexpected := Footing.value_arrowOf hdomain hcodomain
  refine .bind (G.keeps_makeUnknown h2 hexpected false .function node) ?_
  rintro ⟨functionUnknown, function⟩ s3 k3 _ _ hle3 hfunction
  have h3 := G.tele_later hle3 h2
  refine .bind (G.keeps_makeUnknown h3 hdomain false .argument node) ?_
  rintro ⟨argumentUnknown, argument⟩ s4 k4 _ _ hle4 hargument
  refine .bind (G.poseApplication node ⟨G.tele_later hle4 h3, hf.type, hf.value, hexpected.side,
    hx.type, hx.value, hdomain.side⟩) fun _ _ _ _ _ _ _ => .pure fun _ => ?_
  exact ⟨⟨hfunction, hargument⟩, hcodomain.side, hargument.side⟩

private theorem keeps_apply (node : NodeId) (h : F.Tele tele k)
    (hf : Typed F tele.depth f) (hx : Typed F tele.depth x) :
    L.Keeps (apply tele node f x) s k fun v _ _ => Typed F tele.depth v := by
  refine .bind (G.lift (G.reads.reduceClean h hf.type)) fun type s1 k1 _ _ hle1 htype => ?_
  have h1 := G.tele_later hle1 h
  split
  · next domain codomain harrow =>
    obtain ⟨hdomain, hcodomain⟩ := Primitive.all_of_asArrow? harrow htype
    refine .bind (G.keeps_cast .argumentType node h1 hx hdomain) fun x _ _ _ _ _ hx => ?_
    exact .pure fun _ => ⟨⟨hf.value, hx⟩, Footing.Value.side hcodomain, hx.side⟩
  · refine .bind (G.lift (F.note rfl)) fun _ s2 k2 _ _ hle2 _ => ?_
    exact G.keeps_applyUnknown node (G.tele_later hle2 h1) hf hx

private theorem keeps_makePostulate (id : NodeId) (h : F.Tele tele k)
    (htype : F.Value tele.depth type) :
    L.Keeps (makePostulate tele id type) s k fun v _ _ => Typed F tele.depth v := by
  refine .bind (G.lift F.keeps_freshPostulate) ?_
  rintro _ s1 k1 _ _ hle1 ⟨p, rfl⟩
  exact G.keeps_typed (G.tele_later hle1 h) htype _ _ _ fun _ _ => .pure fun _ =>
    ⟨Footing.value_applyArgs F.value_postulate, htype.side⟩

omit G in
/-- What evaluation keeps up on this groundwork. -/
def upkeep (G : Groundwork L F) : Upkeep L where
  Tele tele _ k := F.Tele tele k
  Value tele v _ _ := Typed F tele.depth v
  Side tele t _ _ := F.Side tele.depth t
  Compiled outer x _ k := Pattern.Execution.Laid (F.Tele · k) F.Value F.Side outer x
  Part outer _ p _ k := Pattern.Lays (F.Tele · k) F.Value outer p.telescope p.steps ∧
    F.Side p.telescope.depth p.applied
  rules := True
  tele_later _ _ hle := G.tele_later hle
  value_later _ _ _ h := h
  side_later _ h := h
  compiled_later _ _ hle h := { h with lays := h.lays.imp (G.tele_later hle) }
  part_later _ _ hle h := ⟨h.1.imp (G.tele_later hle), h.2⟩
  side_value h := h.value.side
  side_type h := h.type
  note he := G.lift (F.note he)
  embedded index _ := (G.embedded index).mono fun _ _ _ _ hv => typed_mono hv (Nat.zero_le _)
  value_kind _ := typed_of_type F.value_postulate
  value_arrow _ := ⟨F.value_postulate,
    Footing.Value.side (t := Primitive.arrowType)
      ⟨⟨F.value_postulate, F.value_postulate⟩, F.value_decl⟩⟩
  value_family _ h := typed_of_type ⟨F.value_decl, h.value⟩
  cast purpose node h hv ht := (G.keeps_cast purpose node h hv ht.value).mono
    fun _ _ _ _ hu => ⟨hu, ht.value.side⟩
  apply node h hf hx := G.keeps_apply node h hf hx
  require _ purpose node h hl hr := G.poseEquation purpose node ⟨h, hl, hr⟩
  makeUnknown definable role node h ht := (G.keeps_makeUnknown h ht.value definable role node).mono
    fun _ _ _ _ hp => ⟨hp, ht.value.side⟩
  makePostulate id h ht := G.keeps_makePostulate id h ht.value
  extend h ht := by
    refine (G.lift (Pattern.keeps_extend h ht.value)).mono ?_
    rintro inner _ _ _ ⟨hinner, hdepth, _⟩
    refine ⟨hinner, ⟨F.value_arg (by omega), ht.value.side.mono (by omega)⟩, fun _ hv => ?_⟩
    exact typed_mono hv (by omega)
  side_app _ := .rfl
  value_arg _ h hi :=
    ⟨F.value_arg (Telescope.lt_depth_of_typeOfArg? hi), G.reads.typeOfArg h hi⟩
  tele_compiled _ h := h.lays.telescope
  value_compiled _ h hv := typed_mono hv h.lays.depth
  poseRule node _ hx hv := G.poseRule node hx hv.value hv.type
  tele_part _ h := h.1.telescope
  value_part _ h hv := typed_mono hv h.1.depth
  side_part _ h ht := Footing.Side.mono ht h.1.depth
  start _ h _ _ := (G.isDefinable _).mono fun _ _ _ hle _ _ =>
    ⟨Pattern.lays_start (G.tele_later hle h),
      (Footing.value_applyArgs (t := .decl _) F.value_decl).side⟩
  pull _ hp := by
    refine (G.lift (Pattern.keeps_pullArgument G.reads hp.1.telescope hp.2)).mono ?_
    intro out _ _ _ hout inner applied heq
    obtain ⟨hinner, hbinds⟩ := hout inner applied heq
    exact ⟨hp.1.snoc hinner hbinds.depth trivial hbinds.assumptions, hbinds.side hp.2⟩
  matchHead count _ hp ht hhead := by
    refine (G.lift (Pattern.keeps_matchHead G.reads count hp.1.telescope ht.value hhead)).mono ?_
    intro out _ _ _ hout inner heq
    obtain ⟨hinner, hdepth, hassumptions⟩ := hout inner heq
    exact ⟨hp.1.snoc hinner hdepth ⟨⟨ht.value, hhead⟩, trivial⟩ hassumptions,
      Footing.Side.mono hp.2 (hdepth ▸ Nat.le_add_right _ _)⟩
  finish _ hp := by
    refine (G.lift (Footing.keeps_typeOf G.reads hp.1.telescope hp.2)).mono ?_
    intro out s' k' hle htype type arity captures checks heq hchecks
    exact ⟨hp.1.imp (G.tele_later hle), ⟨_, rfl⟩, htype type heq, hchecks⟩

end Groundwork
end Evaluator

/-! ### Turns -/

open Evaluator Telescope

/-- One thing that happens to a session. Other than errands, turns may leave equations undecided and
look at them in any order. -/
inductive Turn where
  | errand (e : Errand)
  /-- A program is evaluated, and what it poses is left undecided. -/
  | evaluate (p : Program)
  /-- An equation is looked at. -/
  | look (index : Nat)
  /-- Stalled equations are woken. -/
  | wake

namespace Turn

/-- What the session does. -/
def perform : Turn → SessionM Unit
  | errand e => e.perform
  | evaluate p => do let _ ← Evaluator.evalProgram p
  | look index => SessionM.onStore (StoreM.process index)
  | wake => SessionM.onStore StoreM.wakeIfRulesChanged

/-- What is made available is on the footing. -/
def Fits {C : Course Stop Kernel} (F : Footing C) : Turn → Prop
  | errand (.embed v) => Evaluator.Typed F 0 v
  | errand (.postulate _ type) => F.Side 0 type
  | _ => True

end Turn

/-- What a session that was started on a kernel may come to by turns of some kind. -/
inductive Session.Attained (admits : Turn → Prop) (start : Kernel) : Session → Kernel → Prop where
  | initial : Attained admits start (.initial start) start
  | perform {s s' : Session} {k k' : Kernel} (t : Turn) : Attained admits start s k → admits t →
    t.perform s k = .ok ((), s') k' → Attained admits start s' k'

namespace Footing.Supports

open SessionM

variable {α : Type} {C : Course Stop Kernel} {F : Footing C} (hF : F.Supports) {s : Session}
  {k : Kernel}

/-- Everything in the store is on the footing, and so are the values that programs may refer to. -/
def sessions : Regime Stop Kernel Session where
  Holds s k := hF.contents.Within s.store k ∧ ∀ v ∈ s.embeds, Evaluator.Typed F 0 v
  Leads _ k _ k' := C.Leads k k'
  Stops _ _ _ k' := ∃ k e, C.Stops k e k'
  refl _ := hF.refl _
  trans := C.trans
  stops _ h := h

private theorem keeps_lift {y : KernelM α} {Q : α → Kernel → Prop} (hy : C.Keeps y k Q) :
    hF.sessions.Keeps (liftM y) s k fun a _ k' => Q a k' := by
  rintro ⟨hs, hembeds⟩
  refine EndsWith.lift_iff.2 ((hy hs.kernel).mono ?_ fun _ _ h => ⟨_, _, h⟩)
  rintro a k' ⟨hk', hle, ha⟩
  exact ⟨⟨hs.later hk' hle, hembeds⟩, hle, ha⟩

private theorem keeps_onStore {x : StoreM α} (hx : ∀ {k'}, C.Leads k k' →
    hF.contents.regime.Keeps x s.store k' fun _ _ _ => True) :
    hF.sessions.Keeps (onStore x) s k fun _ _ _ => True := by
  rintro ⟨hs, hembeds⟩
  have hle := (hF.recorded [] hs.kernel).2
  refine ends_onStore ((hx hle (hs.recorded [])).mono ?_ ?_)
  · rintro a store k' ⟨hstore, hle', _⟩ s' journal rfl hsame _
    refine ⟨⟨hstore.recorded journal, hsame ▸ hembeds⟩, ?_, trivial⟩
    exact C.trans (C.trans hle hle') (hF.recorded journal hstore.kernel).2
  · exact fun _ _ ⟨k1, e, h⟩ journal _ => ⟨k1, e, hF.stopped journal h⟩

private theorem keeps_modify {g : Session → Session} (hstore : (g s).store = s.store)
    (hembeds : (g s).embeds = s.embeds) : hF.sessions.Keeps (modify g) s k fun _ _ _ => True := by
  rintro ⟨hs, hvalues⟩
  refine ⟨⟨?_, ?_⟩, hF.refl _, trivial⟩
  · exact hstore ▸ hs
  · exact hembeds ▸ hvalues

private theorem keeps_pose {x : StoreM Nat} (purpose : Purpose) (hx : ∀ {k'}, C.Leads k k' →
    hF.contents.regime.Keeps x s.store k' fun _ _ _ => True) :
    hF.sessions.Keeps (onStore x >>= fun id => rememberPurpose id purpose) s k fun _ _ _ => True :=
  .bind (hF.keeps_onStore hx) fun _ _ _ _ _ _ _ => hF.keeps_modify rfl rfl

private theorem ground : Groundwork hF.sessions F where
  reads := hF.toReads
  tele_later hle := F.tele_later hle
  lift := hF.keeps_lift
  embedded index := keeps_embedded index
    (fun hs => ⟨_, .violation (.nothingEmbedded index), hF.violated hs.1.kernel⟩) fun hs => hs.2
  registerDeclaration id := hF.keeps_lift (F.register id)
  registerIndeterminate _ := hF.keeps_onStore fun _ => Contents.keeps_registerIndeterminate _
  registerType t h := hF.keeps_lift (hF.setType t h)
  explain t role node := hF.keeps_lift (hF.setName t (role.name node))
  isDefinable _ := .get_bind (.pure fun _ => trivial)
  poseEquation _ _ he := hF.keeps_pose _ fun hle => hF.keeps_poseEquation (equates_later hle he)
  poseCast _ _ hc := hF.keeps_pose _ fun hle => hF.keeps_poseCast (owes_later (o := .cast _) hle hc)
  poseApplication _ ha := hF.keeps_pose _ fun hle =>
    hF.keeps_poseApplication (owes_later (o := .application _) hle ha)
  poseRule _ hx hvalue htype := hF.keeps_pose _ fun hle => hF.keeps_poseRule (by
    refine ⟨F.tele_later hle hx.lays.telescope, hx.lays.valued, ?_, hvalue, ?_, hx.type, htype⟩
    · rw [Rule.captureCount_eq_sum]
      exact hx.lays.captures
    · intro c hc
      obtain ⟨c', hc', rfl⟩ := mem_map.1 hc
      exact hx.checks c' hc')

private theorem keeps_evalProgram (hroot : ∀ k, C.Keeps root k F.Tele) (p : Program) :
    hF.sessions.Keeps (evalProgram p) s k fun v _ _ => Typed F 0 v := by
  have hreport : hF.ground.upkeep.Reporting := by
    refine .of_session trivial fun f s k => ?_
    exact .bind (hF.keeps_lift (F.note rfl)) fun _ _ _ _ _ _ _ => hF.keeps_modify rfl rfl
  have hdepth : Ends root k (fun tele _ => tele.depth = 0) fun _ _ => True :=
    ends_root.2 rfl
  have hstart := ((hroot k).and_ends hdepth).mono fun _ _ _ h => h.symm
  refine (Upkeep.keeps_evalProgram (U := hF.ground.upkeep) p (hF.keeps_lift hstart)
    (.inl hreport) (.inl fun index count _ _ hs =>
      ⟨_, .violation (.localOutOfScope index count), hF.violated hs.1.kernel⟩)).mono ?_
  rintro v _ _ _ ⟨tele, hdepth, hv⟩
  exact hdepth ▸ hv

private theorem keeps_embed {v : TypedTerm} (hv : Typed F 0 v) :
    hF.sessions.Keeps (embed v) s k fun _ _ _ => True := by
  rintro ⟨hs, hembeds⟩
  refine ⟨⟨{ hs with }, ?_⟩, hF.refl _, trivial⟩
  exact forall_mem_append.2 ⟨hembeds, forall_mem_singleton.2 hv⟩

private theorem keeps_declarePostulate (name : String) {type : Term} (h : F.Side 0 type) :
    hF.sessions.Keeps (declarePostulate name type) s k fun _ _ _ => True := by
  refine .bind (hF.keeps_lift F.keeps_freshPostulate) ?_
  rintro _ _ _ _ _ _ ⟨id, rfl⟩
  refine .bind (hF.keeps_lift (hF.setType _ h)) fun _ _ _ _ _ _ _ => ?_
  refine .bind (hF.keeps_lift (hF.setName _ name)) fun _ _ _ _ _ _ _ => ?_
  refine .bind (hF.keeps_embed ⟨F.value_postulate, h⟩) fun _ _ _ _ _ _ _ => ?_
  exact .pure fun _ => trivial

private theorem keeps_elaborate (hroot : ∀ k, C.Keeps root k F.Tele) (p : Program) :
    hF.sessions.Keeps (elaborate p) s k fun _ _ _ => True := by
  refine .bind (hF.keeps_evalProgram hroot p) fun v _ _ _ _ _ _ => ?_
  refine .bind (hF.keeps_onStore fun _ => Contents.keeps_run fun _ => trivial)
    fun _ _ _ _ _ _ _ => ?_
  refine .get_bind (.bind (hF.keeps_lift (F.note rfl)) fun _ _ _ _ _ _ _ => ?_)
  exact .pure fun _ => trivial

private theorem keeps_finish : hF.sessions.Keeps finish s k fun _ _ _ => True := by
  have hforget : ∀ {s : Session} {k : Kernel}, hF.sessions.Keeps
      (set { s with embeds := [], failures := [] }) s k fun _ _ _ => True :=
    fun hs => ⟨⟨⟨hs.1.kernel, hs.1.equations, hs.1.obligations⟩, forall_mem_nil _⟩, hF.refl _,
      trivial⟩
  refine .bind (hF.keeps_onStore fun _ => Contents.keeps_close) fun _ _ _ _ _ _ _ => ?_
  refine .get_bind (.bind hforget fun _ _ _ _ _ _ _ => ?_)
  exact .bind (hF.keeps_lift (F.note rfl)) fun _ _ _ _ _ _ _ => .pure fun _ => trivial

/-- A turn that makes nothing else available keeps everything on the footing. -/
theorem keeps_perform (hroot : ∀ k, C.Keeps root k F.Tele) {t : Turn} (ht : t.Fits F) :
    hF.sessions.Keeps t.perform s k fun _ _ _ => True := by
  have hdone : ∀ {α : Type} {x : SessionM α}, hF.sessions.Keeps x s k (fun _ _ _ => True) →
      hF.sessions.Keeps (do let _ ← x) s k fun _ _ _ => True :=
    fun hx => .bind hx fun _ _ _ _ _ _ _ => .pure fun _ => trivial
  match t with
  | .errand (.embed v) => exact hdone (hF.keeps_embed ht)
  | .errand (.postulate name type) => exact hdone (hF.keeps_declarePostulate name ht)
  | .errand (.elaborate p) => exact hdone (hF.keeps_elaborate hroot p)
  | .errand .finish => exact hdone hF.keeps_finish
  | .evaluate p => exact hdone ((hF.keeps_evalProgram hroot p).mono fun _ _ _ _ _ => trivial)
  | .look index => exact hF.keeps_onStore fun _ => Contents.keeps_process (fun _ => trivial) index
  | .wake => exact hF.keeps_onStore fun _ => Contents.keeps_wakeIfRulesChanged fun _ => trivial

end Footing.Supports

namespace Session.Attained

variable {admits : Turn → Prop} {start k k' : Kernel} {s s' : Session}

/-- Whatever turns a session takes, everything stays on the footing. -/
theorem supported {C : Elaboration.Course Stop Kernel} {F : Footing C} (hF : F.Supports)
    (hroot : ∀ k, C.Keeps root k F.Tele) (hadmits : ∀ t, admits t → t.Fits F)
    (h : Attained admits start s k) (hstart : C.Holds start) : hF.sessions.Holds s k := by
  induction h with
  | initial => exact ⟨⟨hstart, nofun, nofun⟩, forall_mem_nil _⟩
  | perform t _ ht hperform ih =>
    exact ((hF.keeps_perform hroot (hadmits t ht) ih).of_ok hperform).1

/-- Turns one after another. -/
theorem of_forM (h : Attained admits start s k) {turns : List Turn}
    (hturns : ∀ t ∈ turns, admits t) (hrun : turns.forM Turn.perform s k = .ok ((), s') k') :
    Attained admits start s' k' := by
  have hends : EndsWith (turns.forM Turn.perform) s k
      (fun _ s' k' => Attained admits start s' k') fun _ _ => True := by
    clear hrun
    induction turns generalizing s k with
    | nil => exact h
    | cons t turns ih =>
      rw [forall_mem_cons] at hturns
      refine EndsWith.bind_iff.2 (Ends.of_answer fun r k' hr => ?_)
      exact ih (.perform t h hturns.1 hr) hturns.2
  exact hends.of_ok hrun

end Session.Attained
end Elaboration
