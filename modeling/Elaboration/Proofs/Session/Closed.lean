import Elaboration.Proofs.Session.Groundwork
import Elaboration.Proofs.Telescope.Level

/-!
# Closed rules

In whatever order programs are evaluated and equations looked at, every installed rule is closed and
everything undecided keeps to the levels of its telescope. No value that is made available may
contain a placeholder, whose class may have arguments as members.
-/

namespace Elaboration

open Telescope

/-- The telescope of the equation is levelled, and its sides are below the depth. -/
structure Equation.Levelled (k : Kernel) (e : Equation) : Prop where
  telescope : e.telescope.Levelled k
  lhs : e.lhs.Below e.telescope.depth
  rhs : e.rhs.Below e.telescope.depth

variable {k : Kernel} {e : Equation}

private theorem Equation.levelled_iff : e.Levelled k ↔ levelFooting.Equates e k :=
  ⟨fun h => ⟨h.telescope, Term.below_iff_all.1 h.lhs, Term.below_iff_all.1 h.rhs⟩,
    fun h => ⟨h.telescope, below_of_side h.lhs, below_of_side h.rhs⟩⟩

private theorem Telescope.levelFooting_solves : levelFooting.Solves where
  reduce h ht := (levels_reduce h (below_of_side ht)).mono fun _ _ _ hu => Term.below_iff_all.1 hu
  eliminate h ht := levels_eliminate h (below_of_side ht)
  violated _ := trivial

/-- The step matches a term without placeholders. -/
def Rule.Step.Plain (x : Rule.Step) : Prop := ∀ t, x.subject? = some t → t.All Term.Plain

/-- What the cast relates is below the depth of its telescope. -/
structure Cast.Levelled (k : Kernel) (c : Cast) : Prop where
  telescope : c.telescope.Levelled k
  sourceType : c.sourceType.Below c.telescope.depth
  source : c.source.Below c.telescope.depth
  targetType : c.targetType.Below c.telescope.depth

/-- What the application relates is below the depth of its telescope. -/
structure Application.Levelled (k : Kernel) (a : Application) : Prop where
  telescope : a.telescope.Levelled k
  functionType : a.functionType.Below a.telescope.depth
  function : a.function.Below a.telescope.depth
  expectedFunctionType : a.expectedFunctionType.Below a.telescope.depth
  argumentType : a.argumentType.Below a.telescope.depth
  argument : a.argument.Below a.telescope.depth
  expectedArgumentType : a.expectedArgumentType.Below a.telescope.depth

/-- The rule captures the arguments of the telescope, one after another, and mentions no others. -/
structure RuleRequest.Levelled (k : Kernel) (r : RuleRequest) : Prop where
  telescope : r.telescope.Levelled k
  steps : Rule.StepsClosed 0 r.rule.steps
  plain : ∀ x ∈ r.rule.steps, x.Plain
  captures : r.rule.captureCount = r.telescope.depth
  replacement : r.rule.replacement.Below r.telescope.depth
  checks : ∀ c ∈ r.checks, c.1.Below r.telescope.depth ∧ c.2.Below r.telescope.depth
  patternType : r.patternType.Below r.telescope.depth
  replacementType : r.replacementType.Below r.telescope.depth

/-- What the obligation mentions is below the depth of its telescope. -/
def Obligation.Levelled (k : Kernel) : Obligation → Prop
  | .equation => True
  | .cast c => c.Levelled k
  | .application a => a.Levelled k
  | .rule p => ∀ r, p.request = some r → r.Levelled k

/-- Everything in the store is levelled. -/
structure Store.Levelled (s : Store) (k : Kernel) : Prop where
  equations : ∀ i n, s.nodes.get? i = some n → n.equation.Levelled k
  obligations : ∀ id o, s.obligations.get? id = some o → o.Levelled k

private theorem Kernel.Closed.withJournal (hk : k.Closed) (journal : List Event) :
    { k with journal }.Closed :=
  { hk with }

namespace Rule.StepsValued

open Telescope (levelFooting below_of_value)

variable {n : Nat} {steps : List Rule.Step}

protected theorem closed (h : StepsValued levelFooting.Value n steps) : StepsClosed n steps := by
  induction steps generalizing n with
  | nil => trivial
  | cons x steps ih =>
    cases x with
    | pull => exact ih h
    | destructure => exact ⟨below_of_value h.1.1, ih h.2⟩

protected theorem plain (h : StepsValued levelFooting.Value n steps) : ∀ x ∈ steps, x.Plain := by
  refine h.forall_mem nofun fun n subject head count hsubject _ => ?_
  rintro _ ⟨⟩
  exact Term.All.mono hsubject fun _ => And.right

end Rule.StepsValued

namespace Telescope

private theorem levelFooting_supports : levelFooting.Supports where
  toReads := levelFooting_reads
  toSolves := levelFooting_solves
  plain h := h.2
  refl := .refl
  recorded journal hk := ⟨hk.withJournal journal, .of_contexts rfl⟩
  stopped _ h := h
  install _ hk hsteps hreplacement :=
    ⟨{ hk with rules := hk.rules.install ⟨hsteps.closed, below_of_value hreplacement⟩ },
      .of_contexts rfl⟩

end Telescope

open Telescope (levelFooting below_of_side below_of_value)

private theorem Obligation.levelled_of_owes {o : Obligation} (h : levelFooting.Owes o k) :
    o.Levelled k := by
  cases o with
  | equation => trivial
  | cast c =>
    have hc : levelFooting.Casts c k := h
    exact ⟨hc.telescope, below_of_side hc.sourceType, below_of_value hc.source,
      below_of_side hc.targetType⟩
  | application a =>
    have ha : levelFooting.Applies a k := h
    exact ⟨ha.telescope, below_of_side ha.functionType, below_of_value ha.function,
      below_of_side ha.expectedFunctionType, below_of_side ha.argumentType,
      below_of_value ha.argument, below_of_side ha.expectedArgumentType⟩
  | rule p =>
    intro r hr
    have hrequest : levelFooting.Requests r k := h r hr
    exact ⟨hrequest.telescope, hrequest.steps.closed, hrequest.steps.plain, hrequest.captures,
      below_of_value hrequest.replacement,
      fun c hc => (hrequest.checks c hc).imp below_of_side below_of_side,
      below_of_side hrequest.patternType, below_of_side hrequest.replacementType⟩

private theorem Store.levelled_of_within {s : Store}
    (h : Telescope.levelFooting_supports.contents.Within s k) : s.Levelled k :=
  ⟨fun _ _ hn => Equation.levelled_iff.2 (h.equations hn),
    fun _ _ ho => Obligation.levelled_of_owes (h.obligations ho)⟩

open Primitive Term

namespace Turn

/-- Neither a value that is made available nor a type mentions an argument. -/
def Closed : Turn → Prop
  | errand (.embed v) => v.value.Below 0 ∧ v.type.Below 0
  | errand (.postulate _ type) => type.Below 0
  | _ => True

/-- A value that is made available contains no placeholder. -/
def Plain : Turn → Prop
  | errand (.embed v) => v.value.All Term.Plain
  | _ => True

end Turn

private theorem Turn.fits_of_closed {t : Turn} (hclosed : t.Closed) (hplain : t.Plain) :
    t.Fits levelFooting := by
  match t with
  | .errand (.embed v) =>
    exact ⟨(below_iff_all.1 hclosed.1).and hplain, below_iff_all.1 hclosed.2⟩
  | .errand (.postulate _ _) => exact below_iff_all.1 hclosed
  | .errand (.elaborate _) | .errand .finish | .evaluate _ | .look _ | .wake => trivial

namespace Session

/-- The store is levelled, and the values that programs may refer to mention no argument. -/
structure Levelled (s : Session) (k : Kernel) : Prop where
  store : s.store.Levelled k
  embeds : ∀ v ∈ s.embeds, Evaluator.Typed Telescope.levelFooting 0 v

variable {start : Kernel} {s : Session}

private theorem Attained.levelled (h : Attained (fun t => t.Closed ∧ t.Plain) start s k)
    (hstart : start.Closed) : k.Closed ∧ s.Levelled k := by
  obtain ⟨hs, hembeds⟩ := h.supported levelFooting_supports
    (fun _ => levels_root) (fun _ ht => Turn.fits_of_closed ht.1 ht.2) hstart
  exact ⟨hs.kernel, Store.levelled_of_within hs, hembeds⟩

/-- Every installed rule is closed: its replacement mentions captures only, and every match step
captures of the steps before it only. Everything undecided is levelled: bound types, assumptions and
sides of equations mention only arguments that are bound there. -/
theorem Attained.closed_rules (h : Attained (fun t => t.Closed ∧ t.Plain) start s k)
    (hstart : start.Closed) : k.rules.Closed ∧ s.store.Levelled k := by
  obtain ⟨hk, hs⟩ := h.levelled hstart
  exact ⟨hk.rules, hs.store⟩

/-- The predecessor on `N`, and a check below a bound argument that stays undecided. The equations
are looked at latest first. -/
def predecessorTurns : List Turn :=
  let endomaps := Primitive.functionType (.postulate 10) (.postulate 10)
  let commands : List Command :=
    [.declare 0 (.embed 1 2),
      .rule 2 (.app 3 (.var 4 0) (.app 5 (.embed 6 1) (.capture 7 0))) [] 1 [] (.var 8 1),
      .forAll 9 (.embed 10 0)
        [.check 11 (.app 12 (.var 13 0) (.var 14 1)) none (some (.var 15 1)) false]]
  [.errand (.postulate "N" Primitive.type), .errand (.postulate "S" endomaps),
    .errand (.embed ⟨endomaps, Primitive.type⟩), .evaluate ⟨commands, .var 16 0⟩, .look 5, .look 3,
    .look 1, .wake]

/-- A rule with a match step is installed then, and an equation below one argument is undecided. -/
theorem closed_rules_predecessor : ∃ s k r n,
    predecessorTurns.forM Turn.perform (.initial Kernel.initial) Kernel.initial = .ok ((), s) k ∧
      (k.rules.ruleFor? 12 = some r ∧
        r.steps = [.pull, .destructure (.arg 0) (.postulate 11) 1] ∧ r.Closed) ∧
      s.store.nodes.get? 5 = some n ∧ n.equation.telescope.depth = 1 ∧ n.equation.Levelled k := by
  obtain ⟨⟨⟨⟩, s⟩, k, hperform, ⟨r, hr, hsteps⟩, n, hn, hdepth⟩ :
      ∃ x k, predecessorTurns.forM Turn.perform (.initial Kernel.initial) Kernel.initial = .ok x k ∧
      (∃ r, k.rules.ruleFor? 12 = some r ∧
        r.steps = [.pull, .destructure (.arg 0) (.postulate 11) 1]) ∧
      ∃ n, x.2.store.nodes.get? 5 = some n ∧ n.equation.telescope.depth = 1 := by decide +kernel
  have hturns : ∀ t ∈ predecessorTurns, t.Closed ∧ t.Plain := by
    have hbelow : (functionType (.postulate 10) (.postulate 10)).Below 0 := by decide
    have hplain : (functionType (.postulate 10) (.postulate 10)).All Plain := by
      simp [functionType, arrowOf, arrow, constantFamily, constant, Primitive.type, Plain]
    simp [predecessorTurns, Turn.Closed, Turn.Plain, hbelow, hplain, Primitive.type]
  have hattained := Attained.initial.of_forM hturns hperform
  obtain ⟨hrules, hstore⟩ := hattained.closed_rules Kernel.closed_initial
  exact ⟨s, k, r, n, hperform, ⟨hr, hsteps, hrules 12 r hr⟩, hn, hdepth, hstore.equations 5 n hn⟩

/-- A placeholder as a value is matched against `arrow $0 $1`. By then it stands for its class,
which the match has given this member. -/
def placeholderTurns : List Turn :=
  let commands : List Command :=
    [.declare 0 (.type 1), .rule 2 (.var 3 0)
        [⟨4, [], .embed 5 0, .app 6 (.app 7 (.embed 8 1) (.capture 9 0)) (.capture 10 1)⟩] 2 []
        (.var 11 1)]
  [.errand (.embed ⟨.placeholder 0, Primitive.type⟩),
    .errand (.embed ⟨Primitive.arrow, Primitive.arrowType⟩),
    .errand (.elaborate ⟨commands, .var 12 0⟩)]

/-- The rule that is installed looks at arguments before it captures any. -/
theorem exists_open_rule_of_placeholder : Kernel.initial.Closed ∧ ∃ s k r,
    Attained Turn.Closed Kernel.initial s k ∧ k.rules.ruleFor? 10 = some r ∧ ¬ r.Closed := by
  obtain ⟨⟨⟨⟩, s⟩, k, hperform, r, hr, hopen⟩ :
      ∃ x k, placeholderTurns.forM Turn.perform (.initial Kernel.initial) Kernel.initial = .ok x k ∧
      ∃ r, k.rules.ruleFor? 10 = some r ∧ ¬ r.Closed := by decide +kernel
  have hturns : ∀ t ∈ placeholderTurns, t.Closed := by
    have htype : arrowType.Below 0 := by decide
    simp [placeholderTurns, Turn.Closed, htype, arrow, Primitive.type]
  exact ⟨Kernel.closed_initial, s, k, r, Attained.initial.of_forM hturns hperform, hr, hopen⟩

end Session
end Elaboration
