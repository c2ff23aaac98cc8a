import Elaboration.Obligation.Run
import Elaboration.Proofs.Obligation.Forest
import Elaboration.Proofs.Equation.Step

/-!
# What settling a part of an obligation does

Settling a part of an obligation has one of a few effects on the store and on the kernel.
-/

namespace Elaboration

open Bool EndsWith KernelM Store

namespace Kernel

/-- The kernel with one more event in its journal. -/
def noted (k : Kernel) (e : Event) : Kernel := { k with journal := e :: k.journal }

/-- The journal is left out of growth. -/
theorem grows_journal (k : Kernel) (journal : List Event) : k.Grows { k with journal } :=
  Expands.grows ⟨le_rfl, .refl _, fun _ h => h⟩ rfl

/-- Noting an event is growth. -/
theorem grows_noted (k : Kernel) (e : Event) : k.Grows (k.noted e) := k.grows_journal _

end Kernel

namespace Store

/-- The store without an obligation. -/
def without (s : Store) (id : Nat) : Store := { s with obligations := s.obligations.erase id }

/-- An obligation is gone once it is taken out. -/
@[simp] theorem get?_without_self (s : Store) (id : Nat) :
    (s.without id).obligations.get? id = none := by
  simp [without, Table.get?_erase]

/-- The store with an obligation. -/
def withObligation (s : Store) (id : Nat) (o : Obligation) : Store :=
  { s with obligations := s.obligations.set id o }

/-- The store in which one more obligation failed, if one did. -/
def failedIf (s : Store) (b : Bool) : Store := if b then { s with failed := s.failed + 1 } else s

/-- The store with one more equation, which is ready. -/
def withNode (s : Store) (e : Equation) (parent : Parent) : Store :=
  { s with
    nodes := s.nodes.set s.nextId ⟨e, .ready, parent, []⟩
    ready := s.ready ++ [s.nextId]
    nextId := s.nextId + 1 }

/-- The store in which the equations of an obligation may define nothing any more. -/
def forbidding (s : Store) (id : Nat) : Store :=
  let own := (roots s.nodes).filter fun (_, owner) => owner.obligation = id
  { s with nodes := (own.map Prod.fst).foldl (forbidDeducing s.nodes.size) s.nodes }

variable (s : Store) (id : Nat) (b : Bool)

/-- What a failure changes. -/
@[simp] theorem failedIf_eq : s.failedIf b = { s with failed := s.failed + b.toNat } := by
  cases b <;> rfl

private theorem mutes_forbidding : Mutes s.nodes (s.forbidding id).nodes := mutes_foldl _ _ _

end Store

/-- The unknowns that an obligation defines. -/
def Obligation.unknowns : Obligation → List Term
  | .cast c => [c.unknown]
  | .application a => [a.argumentUnknown, a.functionUnknown]
  | _ => []

namespace StoreM

/-! ### Definitions and rules -/

/-- An unknown was defined, as what a term stands for below a telescope. -/
structure Installed (tele : Telescope) (unknown value : Term) (k k' : Kernel) (id : Nat) :
    Prop where
  head : unknown = .decl id
  registered : id ∈ k.rules.registered
  free : k.rules.ruleFor? id = none
  plain : ((k.equalities tele.context).eliminate value).hasPlaceholder = false
  kernel : k' = (k.noted (.castInstalled unknown
      ((k.equalities tele.context).eliminate value))).withRule id
    (.lambda unknown tele.depth ((k.equalities tele.context).eliminate value))

/-- The definition of an unknown was refused: its head has a rule or is not registered. -/
def InstallStops (tele : Telescope) (unknown value : Term) (k : Kernel) (e : Stop) (k' : Kernel) :
    Prop :=
  e.ofStore = false ∧ e.ofTable = false ∧ (k' = k ∨ (∀ id, unknown ≠ .decl id) ∧
      k' = k.noted (.castInstalled unknown ((k.equalities tele.context).eliminate value))) ∨
    ∃ id, unknown = .decl id ∧
      k' = k.noted (.castInstalled unknown ((k.equalities tele.context).eliminate value)) ∧
      (id ∉ k.rules.registered ∧ e = .violation (.headUnregistered id) ∨
        k.rules.hasRule id ∧ e = .violation (.headOwnsRule id))

private theorem ends_installDefinition (tele : Telescope) (unknown value : Term) (k : Kernel) :
    Ends (installDefinition tele unknown value) k
      (fun _ k' => ∃ id, Installed tele unknown value k k' id)
      (InstallStops tele unknown value k) := by
  unfold installDefinition
  refine Ends.bind (tele.ends_eliminate value k) ?_ ?_
  · rintro u k' ⟨rfl, rfl, hplain⟩
    rw [Ends.bind_iff, ends_note]
    refine (ends_addRule _ _).mono ?_ ?_
    · rintro _ k' ⟨id, hhead, hreg, hfree, rfl⟩
      exact ⟨id, hhead, hreg, hfree, hplain, rfl⟩
    · rintro e k' ⟨rfl, ⟨hno, rfl⟩ | ⟨id, hhead, h⟩⟩
      · exact .inl ⟨rfl, rfl, .inr ⟨hno, rfl⟩⟩
      · exact .inr ⟨id, hhead, rfl, h⟩
  · rintro e k' ⟨rfl, rfl, _⟩
    exact .inl ⟨rfl, rfl, .inl rfl⟩

/-- A step of a match program without placeholders. -/
def eliminatedStep (q : Equalities) : Rule.Step → Rule.Step
  | .pull => .pull
  | .destructure subject head count => .destructure (q.eliminate subject) head count

private theorem ends_eliminateInStep (tele : Telescope) (x : Rule.Step) (k : Kernel) :
    Ends (eliminateInStep tele x) k
      (fun y k' => k' = k ∧ y = eliminatedStep (k.equalities tele.context) x)
      fun e k' => k' = k ∧ e.ofStore = false ∧ e.ofTable = false := by
  cases x with
  | pull => exact ⟨rfl, rfl⟩
  | destructure subject head count =>
    unfold eliminateInStep
    refine Ends.bind (tele.ends_eliminate subject k) ?_ ?_
    · rintro u k' ⟨rfl, rfl, _⟩
      exact ⟨rfl, rfl⟩
    · rintro e k' ⟨rfl, rfl, _⟩
      exact ⟨rfl, rfl, rfl⟩

private theorem ends_eliminateInSteps (tele : Telescope) (xs : List Rule.Step) (k : Kernel) :
    Ends (xs.mapM (eliminateInStep tele)) k
      (fun ys k' => k' = k ∧ ys = xs.map (eliminatedStep (k.equalities tele.context)))
      fun e k' => k' = k ∧ e.ofStore = false ∧ e.ofTable = false := by
  induction xs with
  | nil => exact ⟨rfl, rfl⟩
  | cons x xs ih =>
    rw [List.mapM_cons]
    refine Ends.seq (ends_eliminateInStep tele x k) ?_
    rintro y k' ⟨rfl, rfl⟩
    refine Ends.seq ih ?_
    rintro ys k'' ⟨rfl, rfl⟩
    exact ⟨rfl, rfl⟩

/-- The rule that a request installs. -/
def requestedRule (request : RuleRequest) (k : Kernel) : Rule :=
  let q := k.equalities request.telescope.context
  { request.rule with
    steps := request.rule.steps.map (eliminatedStep q)
    replacement := q.eliminate request.rule.replacement }

/-- A rule was installed, or its head had one already. -/
inductive Committed (request : RuleRequest) (k : Kernel) : Bool → Kernel → Prop where
  | overtaken {id : Nat} : request.rule.head = .decl id → k.rules.hasRule id →
    Committed request k false (k.noted (.ruleOvertaken id))
  | installed {id : Nat} : request.rule.head = .decl id → id ∈ k.rules.registered →
    k.rules.ruleFor? id = none →
    Committed request k true ((k.noted (.ruleCommitted id)).withRule id (requestedRule request k))

/-- Committing a rule stops in the table only if its head is not registered. -/
def CommitStops (request : RuleRequest) (k : Kernel) (e : Stop) (k' : Kernel) : Prop :=
  e.ofStore = false ∧ e.ofTable = false ∧ k' = k ∨
    ∃ id, request.rule.head = .decl id ∧ id ∉ k.rules.registered ∧
      k.rules.hasRule id = false ∧ k' = k.noted (.ruleCommitted id) ∧
      e = .violation (.headUnregistered id)

private theorem ends_commitRule (request : RuleRequest) (k : Kernel) :
    Ends (commitRule request) k (Committed request k) (CommitStops request k) := by
  unfold commitRule ruleHead
  split
  · next id hhead =>
    rw [Ends.bind_iff, Ends.pure_iff, Ends.bind_iff, Ends.get_iff]
    split
    · next hrule => exact .overtaken hhead hrule
    · next hrule =>
      refine Ends.bind (ends_eliminateInSteps request.telescope _ k) ?_ ?_
      · rintro steps k' ⟨rfl, rfl⟩
        refine Ends.bind (request.telescope.ends_eliminate _ k') ?_ ?_
        · rintro replacement k'' ⟨rfl, rfl, _⟩
          rw [Ends.bind_iff, ends_note]
          refine Ends.bind (ends_addRule _ _) ?_ ?_
          · rintro _ k' ⟨id', hhead', hreg, hfree, rfl⟩
            cases hhead.symm.trans hhead'
            exact .installed hhead hreg hfree
          · rintro e k' ⟨rfl, ⟨hno, rfl⟩ | ⟨id', hhead', ⟨hreg, rfl⟩ | ⟨hrule', _⟩⟩⟩
            · exact absurd hhead (hno id)
            · cases hhead.symm.trans hhead'
              exact .inr ⟨id, hhead, hreg, eq_false_iff.2 hrule, rfl, rfl⟩
            · cases hhead.symm.trans hhead'
              exact absurd hrule' hrule
        · rintro e k'' ⟨rfl, rfl, _⟩
          exact .inl ⟨rfl, rfl, rfl⟩
      · rintro e k' ⟨rfl, h⟩
        exact .inl ⟨h.1, h.2, rfl⟩
  · exact .inl ⟨rfl, rfl, rfl⟩

/-! ### Settling -/

/-- The kernel in which a part of an obligation is about to be settled. -/
def beginning (owner : Owner) (out : Outcome) (k : Kernel) : Kernel :=
  k.noted (.settling owner.obligation owner.slot out.isSolved)

/-- The kernel in which an obligation has answered. -/
def answered (k : Kernel) (a : Settlement) : Kernel := k.noted (.settled a)

/-- The events of giving up a rule. -/
def droppedEvents (request : RuleRequest) : List Event :=
  match request.rule.head with
  | .decl head => [.ruleDropped head]
  | _ => []

/-- The events of settling a side condition, before the rule is installed. -/
def conditionEvents (owner : Owner) (p : RuleProgress) (out : Outcome) : List Event :=
  (if refuses p out then [.settled (.commitment owner.obligation false)] else []) ++
    (if conditionIsOpen p owner.slot then
      [.settled (.condition owner.obligation owner.slot out)] else []) ++
    (if refuses p out then p.request.elim [] droppedEvents else [])

/-- The store after a side condition was settled, `outstanding` more being left. -/
def conditionStore (owner : Owner) (p : RuleProgress) (out : Outcome) (outstanding : Nat)
    (s : Store) : Store :=
  let s := if refuses p out then s.forbidding owner.obligation else s
  let left := afterCondition p owner.slot out outstanding
  let s := if outstanding ≠ 0 then s.withObligation owner.obligation (.rule left) else s
  s.failedIf (refuses p out)

section

variable (owner : Owner) (p : RuleProgress) (out : Outcome) (outstanding : Nat) (s : Store)

/-- What a settled condition changes. -/
@[simp] theorem conditionStore_eq : conditionStore owner p out outstanding s =
    { s with
      nodes := if refuses p out then (s.forbidding owner.obligation).nodes else s.nodes
      obligations := if outstanding ≠ 0 then s.obligations.set owner.obligation
        (.rule (afterCondition p owner.slot out outstanding)) else s.obligations
      failed := s.failed + (refuses p out).toNat } := by
  unfold conditionStore
  rw [failedIf_eq]
  split <;> split <;> rfl

/-- A settled condition mutes equations at most. -/
theorem mutes_conditionStore :
    Mutes s.nodes (conditionStore owner p out outstanding s).nodes := by
  rw [conditionStore_eq]
  dsimp only
  split
  · exact s.mutes_forbidding owner.obligation
  · exact .refl _

end

/-- The kernel after a side condition was settled, before the rule is installed. -/
def conditionKernel (owner : Owner) (p : RuleProgress) (out : Outcome) (k : Kernel) : Kernel :=
  { k with journal := conditionEvents owner p out ++ k.journal }

/-- The last side condition was solved and none failed, so that the rule is to be installed. -/
def Decides (owner : Owner) (p : RuleProgress) (out : Outcome) (outstanding : Nat)
    (request : RuleRequest) : Prop :=
  (afterCondition p owner.slot out outstanding).request = some request ∧ outstanding = 0 ∧
    (afterCondition p owner.slot out outstanding).undecided

/-- The effects of settling a part of an obligation. -/
inductive Resolved (owner : Owner) (out : Outcome) (s : Store) (k : Kernel) :
    Store → Kernel → Prop where
  | equation : s.obligations.get? owner.obligation = some .equation →
    Resolved owner out s k ((s.without owner.obligation).failedIf (!out.isSolved))
      (answered (beginning owner out k) (.equation owner.obligation out))
  | castSolved {c : Cast} {k' : Kernel} {id : Nat} :
    s.obligations.get? owner.obligation = some (.cast c) → out.isSolved →
    Installed c.telescope c.unknown c.source (beginning owner out k) k' id →
    Resolved owner out s k (s.without owner.obligation)
      (answered k' (.equation owner.obligation out))
  | castFailed {c : Cast} :
    s.obligations.get? owner.obligation = some (.cast c) → out.isSolved = false →
    Resolved owner out s k ((s.without owner.obligation).failedIf true)
      (answered (beginning owner out k) (.equation owner.obligation out))
  | functionSolved {a : Application} {k' : Kernel} {id : Nat} :
    s.obligations.get? owner.obligation = some (.application a) → owner.slot = .main →
    out.isSolved →
    Installed a.telescope a.functionUnknown a.function (beginning owner out k) k' id →
    Resolved owner out s k
      (((s.without owner.obligation).withObligation owner.obligation (.application a)).withNode
        (argumentEquation a) (.root ⟨owner.obligation, .argument⟩)) k'
  | argumentSolved {a : Application} {k' : Kernel} {id : Nat} :
    s.obligations.get? owner.obligation = some (.application a) → owner.slot ≠ .main →
    out.isSolved →
    Installed a.telescope a.argumentUnknown a.argument (beginning owner out k) k' id →
    Resolved owner out s k (s.without owner.obligation)
      (answered k' (.application owner.obligation out true))
  | applicationFailed {a : Application} :
    s.obligations.get? owner.obligation = some (.application a) → out.isSolved = false →
    Resolved owner out s k ((s.without owner.obligation).failedIf true)
      (answered (beginning owner out k)
        (.application owner.obligation out (owner.slot ≠ .main)))
  | condition {p : RuleProgress} {outstanding : Nat} :
    s.obligations.get? owner.obligation = some (.rule p) → p.outstanding = outstanding + 1 →
    (∀ request, ¬ Decides owner p out outstanding request) →
    Resolved owner out s k
      (conditionStore owner p out outstanding (s.without owner.obligation))
      (conditionKernel owner p out (beginning owner out k))
  | lastCondition {p : RuleProgress} {outstanding : Nat} {request : RuleRequest}
    {installed : Bool} {k' : Kernel} :
    s.obligations.get? owner.obligation = some (.rule p) → p.outstanding = outstanding + 1 →
    Decides owner p out outstanding request →
    Committed request (conditionKernel owner p out (beginning owner out k)) installed k' →
    Resolved owner out s k
      (conditionStore owner p out outstanding (s.without owner.obligation))
      (answered k' (.commitment owner.obligation installed))

/-- The unknown that a part of an obligation defines, and by what. -/
inductive Defines : Obligation → Slot → Telescope → Term → Term → Prop where
  | cast (c : Cast) (slot : Slot) : Defines (.cast c) slot c.telescope c.unknown c.source
  | function (a : Application) :
    Defines (.application a) .main a.telescope a.functionUnknown a.function
  | argument (a : Application) {slot : Slot} : slot ≠ .main →
    Defines (.application a) slot a.telescope a.argumentUnknown a.argument

/-- The ways in which settling a part of an obligation stops. -/
inductive ResolveStops (owner : Owner) (out : Outcome) (s : Store) (k : Kernel) :
    Stop → Kernel → Prop where
  | missing : s.obligations.get? owner.obligation = none →
    ResolveStops owner out s k (.violation (.obligationSettledTwice owner.obligation)) k
  | overdrawn {p : RuleProgress} : s.obligations.get? owner.obligation = some (.rule p) →
    p.outstanding = 0 →
    ResolveStops owner out s k (.violation .countBelowZero) (beginning owner out k)
  | install {o : Obligation} {tele : Telescope} {unknown value : Term} {e : Stop} {k' : Kernel} :
    s.obligations.get? owner.obligation = some o → Defines o owner.slot tele unknown value →
    out.isSolved → InstallStops tele unknown value (beginning owner out k) e k' →
    ResolveStops owner out s k e k'
  | drop {p : RuleProgress} {request : RuleRequest} :
    s.obligations.get? owner.obligation = some (.rule p) → p.request = some request →
    (∀ id, request.rule.head ≠ .decl id) →
    ResolveStops owner out s k (.violation (.ruleHeadNotDeclaration request.rule.head))
      (beginning owner out k)
  | commit {p : RuleProgress} {outstanding : Nat} {request : RuleRequest} {e : Stop}
    {k' : Kernel} :
    s.obligations.get? owner.obligation = some (.rule p) → p.outstanding = outstanding + 1 →
    Decides owner p out outstanding request →
    CommitStops request (conditionKernel owner p out (beginning owner out k)) e k' →
    ResolveStops owner out s k e k'

variable {owner : Owner} {out : Outcome} {s : Store} {k : Kernel}

variable {Q : Unit → Store → Kernel → Prop} {X : Stop → Kernel → Prop} {p : RuleProgress}

private theorem ends_answer {a : Settlement} :
    EndsWith (answer a) s k Q X ↔ Q () s (answered k a) := Iff.rfl

private theorem ends_countFailure : EndsWith countFailure s k Q X ↔ Q () (s.failedIf true) k :=
  Iff.rfl

theorem ends_addNode {e : Equation} {parent : Parent} {Q : Nat → Store → Kernel → Prop} :
    EndsWith (addNode e parent) s k Q X ↔ Q s.nextId (s.withNode e parent) k := Iff.rfl

theorem ends_addRoot {e : Equation} :
    EndsWith (addRoot e owner) s k Q X ↔ Q () (s.withNode e (.root owner)) k := Iff.rfl

private theorem ends_resolveApplication {a : Application}
    (ha : s.obligations.get? owner.obligation = some (.application a)) :
    EndsWith (resolveApplication owner a out) (s.without owner.obligation)
      (beginning owner out k) (fun _ => Resolved owner out s k)
      (ResolveStops owner out s k) := by
  unfold resolveApplication
  split
  · next hslot hsolved =>
    rw [bind_iff, lift_iff]
    refine (ends_installDefinition _ _ _ _).mono ?_ fun e k' h =>
      .install ha (hslot ▸ .function a) hsolved h
    rintro _ k' ⟨id, hid⟩
    rw [bind_iff, modify_iff, ends_addRoot]
    exact .functionSolved ha hslot hsolved hid
  · next hslot hfailed =>
    rw [bind_iff, ends_countFailure, ends_answer]
    have := Resolved.applicationFailed (k := k) ha hfailed
    simpa [hslot] using this
  · next hsolved hslot =>
    rw [bind_iff, lift_iff]
    refine (ends_installDefinition _ _ _ _).mono ?_ fun e k' h =>
      .install ha (.argument a hslot) hsolved h
    rintro _ k' ⟨id, hid⟩
    rw [ends_answer]
    exact .argumentSolved ha hslot hsolved hid
  · next hfailed hslot =>
    rw [bind_iff, ends_countFailure, ends_answer]
    have := Resolved.applicationFailed (k := k) ha hfailed
    rwa [decide_eq_true (p := owner.slot ≠ .main) hslot] at this

private theorem ends_refuseRule (id : Nat) (request : Option RuleRequest) (s : Store) (k : Kernel) :
    EndsWith (refuseRule id request) s k
      (fun _ s' k' => s' = s.forbidding id ∧
        k' = { k with journal := request.elim [] droppedEvents ++ k.journal })
      fun e k' => k' = k ∧ ∃ r, request = some r ∧ (∀ id, r.rule.head ≠ .decl id) ∧
        e = .violation (.ruleHeadNotDeclaration r.rule.head) := by
  unfold refuseRule
  cases request with
  | none => exact ⟨rfl, rfl⟩
  | some request =>
    rw [bind_iff, lift_iff]
    unfold noteDropped
    dsimp only [Option.elim, droppedEvents]
    cases hhead : request.rule.head with
    | decl head => exact ⟨rfl, rfl⟩
    | _ =>
      rw [Ends.bind_iff, Ends.get_iff]
      split
      · exact ⟨rfl, request, rfl, by simp [hhead], by rw [hhead]⟩
      · exact ⟨rfl, rfl⟩

private theorem ends_commitIfDecided {outstanding : Nat}
    (hp : s.obligations.get? owner.obligation = some (.rule p))
    (ho : p.outstanding = outstanding + 1) :
    EndsWith (commitIfDecided owner.obligation (afterCondition p owner.slot out outstanding))
      (conditionStore owner p out outstanding (s.without owner.obligation))
      (conditionKernel owner p out (beginning owner out k))
      (fun _ => Resolved owner out s k) (ResolveStops owner out s k) := by
  have hcount : (afterCondition p owner.slot out outstanding).outstanding = outstanding := by
    unfold afterCondition closeCondition
    cases owner.slot <;> dsimp only <;> split <;> rfl
  unfold commitIfDecided
  split
  · next request hrequest =>
    split
    · next hdecided =>
      rw [hcount, and_eq_true, decide_eq_true_iff] at hdecided
      have hdecides : Decides owner p out outstanding request :=
        ⟨hrequest, hdecided.1, hdecided.2⟩
      rw [bind_iff, lift_iff]
      refine (ends_commitRule request _).mono ?_ fun e k' h => .commit hp ho hdecides h
      intro installed k' h
      exact .lastCondition hp ho hdecides h
    · next hdecided =>
      refine .condition hp ho fun request' h => hdecided ?_
      rw [hcount, and_eq_true, decide_eq_true_iff]
      exact h.2
  · next hrequest =>
    exact .condition hp ho fun request h => nomatch hrequest.symm.trans h.1

private theorem ends_resolveRule (hp : s.obligations.get? owner.obligation = some (.rule p)) :
    EndsWith (resolveRule owner p out) (s.without owner.obligation)
      (beginning owner out k) (fun _ => Resolved owner out s k)
      (ResolveStops owner out s k) := by
  unfold resolveRule
  dsimp only
  split
  · next h => exact .overdrawn hp h
  · next outstanding h =>
    have hend := @ends_commitIfDecided owner out s k p outstanding hp h
    unfold conditionStore conditionKernel conditionEvents at hend
    by_cases hrefuses : refuses p out
    · rw [if_pos hrefuses, bind_iff]
      refine (ends_refuseRule _ _ _ _).mono ?_ ?_
      · rintro _ s' k' ⟨rfl, rfl⟩
        by_cases hleft : outstanding ≠ 0 <;> by_cases hopen : conditionIsOpen p owner.slot <;>
          simp only [hrefuses, hopen, if_pos hleft, if_neg hleft, if_true] at hend ⊢ <;>
          exact hend
      · rintro e k' ⟨rfl, request, hrequest, hhead, rfl⟩
        exact .drop hp hrequest hhead
    · by_cases hleft : outstanding ≠ 0 <;> by_cases hopen : conditionIsOpen p owner.slot <;>
        simp only [hrefuses, hopen, if_pos hleft, if_neg hleft, if_true] at hend ⊢ <;>
        exact hend

/-- Settling a part of an obligation has one of the listed effects, or stops in a listed way. -/
theorem ends_resolve (owner : Owner) (out : Outcome) (s : Store) (k : Kernel) :
    EndsWith (resolve owner out) s k (fun _ => Resolved owner out s k)
      (ResolveStops owner out s k) := by
  unfold resolve
  dsimp only
  rw [bind_iff, get_iff]
  split
  · next h => exact .missing h
  · next o ho =>
    rw [bind_iff, modify_iff, bind_iff, lift_iff, ends_note]
    cases o with
    | equation =>
      dsimp only
      cases out <;> exact .equation ho
    | cast c =>
      dsimp only
      split
      · next hsolved =>
        rw [bind_iff, lift_iff]
        refine (ends_installDefinition _ _ _ _).mono ?_ fun e k' h =>
          .install ho (.cast c _) hsolved h
        rintro _ k' ⟨id, hid⟩
        exact .castSolved ho hsolved hid
      · next hsolved => exact .castFailed ho (eq_false_iff.2 hsolved)
    | application a => exact ends_resolveApplication ho
    | rule p => exact ends_resolveRule ho

end StoreM
end Elaboration
