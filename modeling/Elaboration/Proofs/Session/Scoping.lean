import Elaboration.Proofs.Session.Reports

/-!
# Programs in scope

Whether a program refers only to locals that are there can be told without running it. If so, every
local that evaluation looks up is there and every capture has a type, whatever the host and the
kernel.
-/

namespace Elaboration

open KernelM SessionM StoreM

namespace Evaluator

variable {H α : Type} {k : Kernel}

/-- The action stops, if it does, for other reasons than a reference to what is not there. -/
def MissesNone (x : StateT H KernelM α) : Prop :=
  ∀ s k, EndsWith x s k (fun _ _ _ => True) fun e _ => e.ofScope = false

/-- What is asked of the host is never a local or a captured argument, so it misses none. -/
structure Host.Orderly (H : Type) [Host H] : Prop where
  registerDeclaration (t : Term) : MissesNone (Host.registerDeclaration (H := H) t)
  registerIndeterminate (t : Term) : MissesNone (Host.registerIndeterminate (H := H) t)
  registerType (t type : Term) : MissesNone (Host.registerType (H := H) t type)
  explain (t : Term) (role : Role) (node : NodeId) : MissesNone (Host.explain (H := H) t role node)
  isDefinable (t : Term) : MissesNone (Host.isDefinable (H := H) t)
  poseEquation (e : Equation) (purpose : Failure.Purpose) (node : NodeId) :
    MissesNone (Host.poseEquation (H := H) e purpose node)
  poseCast (c : Cast) (purpose : Failure.Purpose) (node : NodeId) :
    MissesNone (Host.poseCast (H := H) c purpose node)
  poseApplication (a : Application) (node : NodeId) :
    MissesNone (Host.poseApplication (H := H) a node)
  poseRule (r : RuleRequest) (node : NodeId) (checks : List NodeId) :
    MissesNone (Host.poseRule (H := H) r node checks)
  embedded (index : Nat) : MissesNone (Host.embedded (H := H) index)
  report (f : Failure) : MissesNone (Host.report (H := H) f)

/-- Evaluation stops for other reasons than a reference to what is not there. -/
private def orderly (H : Type) : Regime Stop Kernel H where
  Holds _ _ := True
  Leads _ _ _ _ := True
  Stops _ _ e _ := e.ofScope = false
  refl _ := trivial
  trans _ _ := trivial
  stops _ h := h

private theorem MissesNone.keeps {x : StateT H KernelM α} {s : H} {Q : α → H → Kernel → Prop}
    (h : MissesNone x) (hQ : ∀ a s k, Q a s k) : (orderly H).Keeps x s k Q :=
  fun _ => (h s k).imp fun a s' k' _ => ⟨trivial, trivial, hQ a s' k'⟩

private theorem orderly_lift {y : KernelM α} {Q : α → Kernel → Prop} (hy : silence.Keeps y k Q)
    {s : H} : (orderly H).Keeps (liftM y) s k fun a _ k' => Q a k' :=
  fun _ => EndsWith.lift_iff.2 ((hy trivial).imp fun _ _ h => ⟨trivial, trivial, h.2.2⟩)

private theorem scopeGround [Host H] (hH : Host.Orderly H) :
    Groundwork (orderly H) silentFooting where
  reads := silentFooting_reads
  tele_later _ h := h
  lift hy := orderly_lift hy
  embedded index := (hH.embedded index).keeps fun _ _ _ => ⟨Term.all_trivial _, Term.all_trivial _⟩
  registerDeclaration _ := (hH.registerDeclaration _).keeps fun _ _ _ => trivial
  registerIndeterminate t := (hH.registerIndeterminate t).keeps fun _ _ _ => trivial
  registerType t _ := (hH.registerType t _).keeps fun _ _ _ => trivial
  explain t role node := (hH.explain t role node).keeps fun _ _ _ => trivial
  isDefinable t := (hH.isDefinable t).keeps fun _ _ _ => trivial
  poseEquation purpose node _ := (hH.poseEquation _ purpose node).keeps fun _ _ _ => trivial
  poseCast purpose node _ := (hH.poseCast _ purpose node).keeps fun _ _ _ => trivial
  poseApplication node _ := (hH.poseApplication _ node).keeps fun _ _ _ => trivial
  poseRule node _ _ _ := (hH.poseRule _ node _).keeps fun _ _ _ => trivial

/-! ### Sessions -/

private theorem scopes_pose {x : StoreM Nat} {purpose : Purpose}
    (h : ∀ s k, EndsWith x s k (fun _ _ _ => True) fun e _ => e.ofScope = false) :
    MissesNone (onStore x >>= fun id => rememberPurpose id purpose) := by
  intro s k
  rw [EndsWith.bind_iff]
  exact ends_onStore ((h _ _).mono (fun _ _ _ _ _ _ _ _ _ => trivial) fun _ _ h _ _ => h)

private theorem orderly_session : Host.Orderly Session where
  registerDeclaration t _ _ := EndsWith.lift_iff.2 (by cases t <;> trivial)
  registerIndeterminate t _ _ := ends_onStore ((ends_registerIndeterminate t _ _).mono
    (fun _ _ _ _ _ _ _ _ _ => trivial) fun _ _ h _ _ => by rw [h.2]; rfl)
  registerType t type _ _ := EndsWith.lift_iff.2 (ends_setType (fun _ => trivial) rfl)
  explain t role node _ _ := EndsWith.lift_iff.2 (ends_setName fun _ => trivial)
  isDefinable t _ _ := trivial
  poseEquation e _ _ := scopes_pose fun _ _ => ends_poseEquation.2 trivial
  poseCast c _ _ := scopes_pose fun _ _ => ends_poseCast.2 trivial
  poseApplication a _ := scopes_pose fun _ _ => ends_poseApplication.2 trivial
  poseRule r _ _ := scopes_pose fun _ _ => ends_poseRule.2 trivial
  embedded index s k := by
    change EndsWith (SessionM.embedded index) s k _ _
    unfold SessionM.embedded
    rw [EndsWith.bind_iff, EndsWith.get_iff]
    split <;> trivial
  report f _ _ := trivial

end Evaluator

open Evaluator

/-- A program in scope never looks up a local or captures an argument that is not there, and each
command leaves the locals as they were but for those that it adds. -/
theorem Program.Scoped.evaluates_in_scope {H : Type} [Host H] (hH : Host.Orderly H) {p : Program}
    (hp : p.Scoped) (s : H) (k : Kernel) :
    (∀ e k', evalProgram p s k = .error e k' →
      (∀ index count, e ≠ .violation (.localOutOfScope index count)) ∧
      ∀ t, e ≠ .violation (.captureUnbound t)) ∧
    ∀ tele (c : Command) locals (s : H) k locals' s' k',
      EvalM.runCommand tele c locals s k = .ok (((), locals'), s') k' →
      ∃ new, locals' = locals ++ new ∧ new.length = c.added := by
  refine ⟨fun e k' herror => ?_, fun tele c locals s k locals' s' k' hok =>
    (EvalM.adds_runCommand tele locals c s k).of_ok hok⟩
  have hreport : (scopeGround hH).upkeep.Reporting :=
    ⟨trivial, fun f _ _ => (hH.report f).keeps fun _ _ _ => trivial⟩
  have hscope := (Upkeep.keeps_evalProgram p (fun _ => ⟨trivial, trivial, rfl, trivial⟩)
    (.inl hreport) (.inr hp) trivial).of_error herror
  constructor
  · rintro index count rfl
    cases hscope
  · rintro t rfl
    cases hscope

/-- Below a bound argument, its value is checked to be of a type postulated before. -/
def checkBelowArgument : Program :=
  ⟨[.postulate 0 (.type 1),
    .forAll 2 (.var 3 0) [.check 4 (.var 5 1) (some (.var 6 0)) none false]],
    .var 7 0⟩

/-- The theorem at a check below an argument. -/
theorem evaluates_in_scope_belowArgument : Host.Orderly Session ∧ checkBelowArgument.Scoped ∧
    ∀ e k', evalProgram checkBelowArgument (Session.initial .initial) .initial = .error e k' →
      ∀ index count, e ≠ .violation (.localOutOfScope index count) := by
  have hscoped : checkBelowArgument.Scoped := by
    simp [checkBelowArgument, Program.Scoped, Command.AllScoped, Command.Scoped, Expr.Scoped,
      Command.added]
  exact ⟨orderly_session, hscoped,
    fun e k' h => ((hscoped.evaluates_in_scope orderly_session _ _).1 e k' h).1⟩

end Elaboration
