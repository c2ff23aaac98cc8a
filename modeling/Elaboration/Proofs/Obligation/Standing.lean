import Elaboration.Proofs.Obligation.Promises

/-!
# How obligations stand

Each request goes through a few stages. A cast is pending until it is solved, and its unknown
defined, or failed. An application waits for its function, then for its argument. A rule is
undecided until a side condition fails or the last one is solved.
-/

namespace Elaboration

open Kernel List RuleTable Table

/-- The side conditions of a rule. -/
def RuleRequest.slots (q : RuleRequest) : List Slot :=
  (range q.checks.length).map .check ++ [.replacementType]

namespace StoreM

open Store

/-- The unknown of a part of an obligation has the rule installed when the part was solved: it
stands for a term below a telescope, without the placeholders of then. -/
def Defined (passed : Config → Prop) (owner : Owner) (tele : Telescope) (unknown value : Term)
    (k : Kernel) : Prop :=
  ∃ m d, passed m ∧ m.phase = .settling owner .solved ∧ unknown = .decl d ∧
    ((m.kernel.equalities tele.context).eliminate value).hasPlaceholder = false ∧
    k.rules.ruleFor? d =
      some (.lambda unknown tele.depth ((m.kernel.equalities tele.context).eliminate value))

section

variable (passed : Config → Prop) (events : List Event) (c : Config) (id : Nat)

/-- The stages of a cast. -/
inductive CastStands (x : Cast) : Prop where
  | pending : c.store.obligations.get? id = some (.cast x) → CastStands x
  | solved : c.store.obligations.get? id = none → .settled (.equation id .solved) ∈ events →
    Defined passed ⟨id, .main⟩ x.telescope x.unknown x.source c.kernel → CastStands x
  | failed {report : Report} : c.store.obligations.get? id = none →
    .settled (.equation id (.failed report)) ∈ events → CastStands x

/-- The stages of an application. -/
inductive ApplicationStands (a : Application) : Prop where
  | function : c.store.obligations.get? id = some (.application a) →
    (∀ slot, c.Awaits ⟨id, slot⟩ → slot = .main) → (∀ slot, .settling id slot true ∉ events) →
    ApplicationStands a
  | argument : c.store.obligations.get? id = some (.application a) →
    (∀ slot, c.Awaits ⟨id, slot⟩ → slot = .argument) →
    Defined passed ⟨id, .main⟩ a.telescope a.functionUnknown a.function c.kernel →
    .settling id .main true ∈ events → .settling id .argument true ∉ events → ApplicationStands a
  | refused {report : Report} : c.store.obligations.get? id = none →
    .settled (.application id (.failed report) false) ∈ events →
    (∀ slot, .settling id slot true ∉ events) → ApplicationStands a
  | halfway {report : Report} : c.store.obligations.get? id = none →
    .settled (.application id (.failed report) true) ∈ events →
    Defined passed ⟨id, .main⟩ a.telescope a.functionUnknown a.function c.kernel →
    .settling id .main true ∈ events → .settling id .argument true ∉ events → ApplicationStands a
  | solved : c.store.obligations.get? id = none →
    .settled (.application id .solved true) ∈ events →
    Defined passed ⟨id, .main⟩ a.telescope a.functionUnknown a.function c.kernel →
    Defined passed ⟨id, .argument⟩ a.telescope a.argumentUnknown a.argument c.kernel →
    .settling id .main true ∈ events → .settling id .argument true ∈ events → ApplicationStands a

/-- The last side condition of a rule is being settled, as solved. -/
def SettlesLast (m : Config) : Prop :=
  ∃ slot p, m.phase = .settling ⟨id, slot⟩ .solved ∧
    m.store.obligations.get? id = some (.rule p) ∧ p.outstanding = 1

/-- The stages of a rule. -/
inductive RuleStands (q : RuleRequest) : Prop where
  | undecided {p : RuleProgress} : c.store.obligations.get? id = some (.rule p) → p.undecided →
    p.request = some q → (∀ slot ∈ openSlots p, slot ∈ q.slots) →
    (∀ slot ∈ q.slots, slot ∈ openSlots p ∨ .settled (.condition id slot .solved) ∈ events) →
    RuleStands q
  | refused {slot : Slot} {report : Report} :
    (∀ o, c.store.obligations.get? id = some o → ∃ p, o = .rule p ∧ p.undecided = false) →
    slot ∈ q.slots → .settled (.condition id slot (.failed report)) ∈ events →
    .settled (.commitment id false) ∈ events → RuleStands q
  | decided {m : Config} {head : Nat} : c.store.obligations.get? id = none →
    (∀ slot ∈ q.slots, .settled (.condition id slot .solved) ∈ events) → passed m →
    SettlesLast id m → q.rule.head = .decl head →
    .settled (.commitment id (!m.kernel.rules.hasRule head)) ∈ events →
    (m.kernel.rules.hasRule head = false →
      c.kernel.rules.ruleFor? head = some (requestedRule q m.kernel)) → RuleStands q

/-- The stages of a request. -/
def Stands : Request → Prop
  | .cast x => CastStands passed events c id x
  | .application a => ApplicationStands passed events c id a
  | .rule q => RuleStands passed events c id q
  | _ => True

end

variable {passed passed' : Config → Prop} {events new : List Event} {c c' : Config} {id : Nat}
  {s s' : Store} {k k' : Kernel} {owner : Owner} {out : Outcome}

variable {tele : Telescope} {unknown value : Term} {p : RuleProgress} {d : Nat}
  {events' : List Event} {outstanding : Nat} {installed : Bool}

private theorem Defined.mono (h : Defined passed owner tele unknown value k)
    (hpassed : ∀ m, passed m → passed' m) (hrules : k.rules.Sub k'.rules) :
    Defined passed' owner tele unknown value k' := by
  obtain ⟨m, d, hm, hphase, hd, hplain, hrule⟩ := h
  exact ⟨m, d, hpassed m hm, hphase, hd, hplain, hrules d _ hrule⟩

/-- What is not about a request leaves it at its stage. -/
theorem Stands.mono {r : Request} (h : Stands passed events c id r) (new : List Event)
    (hpassed : ∀ m, passed m → passed' m)
    (hget : c'.store.obligations.get? id = c.store.obligations.get? id)
    (hawaits : ∀ slot, c'.Awaits ⟨id, slot⟩ → c.Awaits ⟨id, slot⟩)
    (hrules : c.kernel.rules.Sub c'.kernel.rules) (hnew : ∀ e ∈ new, e.obligation? ≠ some id) :
    Stands passed' (new ++ events) c' id r := by
  have hold : ∀ {e}, e ∈ events → e ∈ new ++ events := mem_append_right _
  have hother : ∀ {slot solved}, .settling id slot solved ∉ events →
      .settling id slot solved ∉ new ++ events := by
    intro slot solved hnot hmem
    exact (mem_append.1 hmem).elim (fun h => hnew _ h rfl) hnot
  cases r with
  | cast x =>
    cases h with
    | pending ho => exact CastStands.pending (hget.trans ho)
    | solved ho hsettled hd =>
      exact CastStands.solved (hget.trans ho) (hold hsettled) (hd.mono hpassed hrules)
    | failed ho hsettled => exact CastStands.failed (hget.trans ho) (hold hsettled)
  | application a =>
    cases h with
    | function ho hmain hnot =>
      exact .function (hget.trans ho) (fun slot h => hmain slot (hawaits slot h))
        fun slot => hother (hnot slot)
    | argument ho hargument hd hmain hnot =>
      exact .argument (hget.trans ho) (fun slot h => hargument slot (hawaits slot h))
        (hd.mono hpassed hrules) (hold hmain) (hother hnot)
    | refused ho hsettled hnot =>
      exact .refused (hget.trans ho) (hold hsettled) fun slot => hother (hnot slot)
    | halfway ho hsettled hd hmain hnot =>
      exact .halfway (hget.trans ho) (hold hsettled) (hd.mono hpassed hrules) (hold hmain)
        (hother hnot)
    | solved ho hsettled hd hd' hmain hargument =>
      exact .solved (hget.trans ho) (hold hsettled) (hd.mono hpassed hrules)
        (hd'.mono hpassed hrules) (hold hmain) (hold hargument)
  | rule q =>
    cases h with
    | undecided ho hundecided hrequest hsub hslots =>
      exact .undecided (hget.trans ho) hundecided hrequest hsub fun slot hslot =>
        (hslots slot hslot).imp_right hold
    | refused ho hslot hfailed hcommitment =>
      exact .refused (fun o h => ho o (hget.symm.trans h)) hslot (hold hfailed) (hold hcommitment)
    | decided ho hslots hm hlast hhead hcommitment hrule =>
      exact .decided (hget.trans ho) (fun slot hslot => hold (hslots slot hslot)) (hpassed _ hm)
        hlast hhead (hold hcommitment) fun hfree => hrules _ _ (hrule hfree)
  | _ => trivial

/-! ### Settling -/

theorem Outcome.eq_solved (h : out.isSolved) : out = .solved := by
  cases out with
  | solved => rfl
  | failed report => cases h

private theorem Outcome.exists_report (h : out.isSolved = false) :
    ∃ report, out = .failed report := by
  cases out with
  | solved => cases h
  | failed report => exact ⟨report, rfl⟩

private theorem Installed.defined
    (h : Installed tele unknown value (beginning owner out k) k' d)
    (hpassed : passed ⟨.settling owner out, s, k⟩) (hsolved : out.isSolved) :
    Defined passed owner tele unknown value k' := by
  cases Outcome.eq_solved hsolved
  refine ⟨_, d, hpassed, rfl, h.head, h.plain, ?_⟩
  rw [h.kernel, withRule, ruleFor?_install, if_pos rfl]
  rfl

private theorem Installed.recorded_eq {a : Settlement}
    (h : Installed tele unknown value (beginning owner out k) k' d)
    (hnew : (answered k' a).journal = new ++ k.journal) :
    ∃ l, new = .settled a :: (l ++ [.settling owner.obligation owner.slot out.isSolved]) := by
  obtain ⟨l, hl, _⟩ := h.recorded
  refine ⟨l, StoreM.recorded_eq hnew ?_⟩
  simp [answered, noted, hl, beginning]

/-- Only obligations that are there are settled. -/
theorem Resolved.exists_obligation (h : Resolved owner out s k s' k') :
    ∃ o, s.obligations.get? owner.obligation = some o := by
  cases h <;> exact ⟨_, by assumption⟩

private theorem mem_conditionEvents (hslot : owner.slot ∈ openSlots p) (out : Outcome) :
    .settled (.condition owner.obligation owner.slot out) ∈ conditionEvents owner p out ∧
      (refuses p out →
        .settled (.commitment owner.obligation false) ∈ conditionEvents owner p out) := by
  rw [← mem_answersIn, ← mem_answersIn, answersIn_conditionEvents, conditionAnswers_of_mem hslot]
  exact ⟨by simp, fun hrefuses => by simp [hrefuses]⟩

private theorem Committed.recorded_eq {request : RuleRequest}
    (h : Committed request (conditionKernel owner p out (beginning owner out k))
      installed k')
    (hnew : (answered k' (.commitment owner.obligation installed)).journal = new ++ k.journal) :
    ∃ l, new = .settled (.commitment owner.obligation installed) ::
        (l ++ (conditionEvents owner p out ++
          [.settling owner.obligation owner.slot out.isSolved])) ∧
      ∀ e ∈ l, e.obligation? = none := by
  obtain ⟨l, hl, hnone, _⟩ := h.recorded
  refine ⟨l, StoreM.recorded_eq hnew ?_, hnone⟩
  rw [answered, noted, hl, conditionKernel, beginning, noted]
  simp

private theorem RuleStands.condition {q : RuleRequest} (hs : s.WellFormed none none (some owner))
    (h : RuleStands passed events ⟨.settling owner out, s, k⟩ owner.obligation q)
    (hp : s.obligations.get? owner.obligation = some (.rule p))
    (hdecides : ∀ request, ¬ Decides owner p out outstanding request)
    (hevents : ∀ e ∈ events, e ∈ events')
    (hconditions : ∀ e ∈ conditionEvents owner p out, e ∈ events') :
    RuleStands passed events'
      ⟨.idle, conditionStore owner p out outstanding (s.without owner.obligation), k'⟩
      owner.obligation q := by
  obtain ⟨hslot, hlength⟩ := mem_openSlots_of_settling hs hp
  obtain ⟨hanswer, hrefuse⟩ := mem_conditionEvents hslot out
  obtain ⟨hundecided', hrequest'⟩ := undecided_afterCondition p owner.slot out outstanding
  -- what is left of the obligation
  have hleft : ∀ o, (conditionStore owner p out outstanding
      (s.without owner.obligation)).obligations.get? owner.obligation = some o →
      o = .rule (afterCondition p owner.slot out outstanding) := by
    intro o ho
    simp only [conditionStore_eq] at ho
    split at ho
    · rw [get?_set, if_pos rfl] at ho
      exact (Option.some.inj ho).symm
    · simp at ho
  cases h with
  | decided hnone => cases hp.symm.trans hnone
  | refused hdecided hfailing hfailed hcommitment =>
    obtain ⟨_, ⟨⟩, hrefused⟩ := hdecided _ hp
    refine .refused (fun o ho => ⟨_, hleft o ho, ?_⟩) hfailing (hevents _ hfailed)
      (hevents _ hcommitment)
    rw [hundecided', hrefused, Bool.false_and]
  | undecided hp' hundecided hrequest hsub hslots =>
    cases hp.symm.trans hp'
    cases hout : out.isSolved with
    | false =>
      have hrefuses : refuses p out = true := by simp [refuses, hout, hundecided]
      obtain ⟨report, rfl⟩ := Outcome.exists_report hout
      refine .refused (fun o ho => ⟨_, hleft o ho, ?_⟩) (hsub _ hslot) (hconditions _ hanswer)
        (hconditions _ (hrefuse hrefuses))
      rw [hundecided', hrefuses, Bool.not_true, Bool.and_false]
    | true =>
      have hrefuses : refuses p out = false := by simp [refuses, hout]
      have hundecided1 : (afterCondition p owner.slot out outstanding).undecided := by
        rw [hundecided', hundecided, hrefuses]
        rfl
      have hrequest1 : (afterCondition p owner.slot out outstanding).request = some q := by
        rw [hrequest', hrefuses, if_neg Bool.false_ne_true, hrequest]
      have hmore : outstanding ≠ 0 := fun hzero => hdecides q ⟨hrequest1, hzero, hundecided1⟩
      refine .undecided ?_ hundecided1 hrequest1 (fun slot hmem => ?_) fun slot hmem => ?_
      · simp [hmore, get?_set]
      · rw [openSlots_afterCondition hslot] at hmem
        exact hsub slot (mem_filter.1 hmem).1
      · rw [openSlots_afterCondition hslot]
        by_cases heq : slot = owner.slot
        · cases Outcome.eq_solved hout
          exact .inr (heq ▸ hconditions _ hanswer)
        · refine (hslots slot hmem).imp (fun hopen => ?_) (hevents _)
          exact mem_filter.2 ⟨hopen, decide_eq_true heq⟩

private theorem RuleStands.lastCondition {q request : RuleRequest}
    (hs : s.WellFormed none none (some owner)) (hpassed : passed ⟨.settling owner out, s, k⟩)
    (h : RuleStands passed events ⟨.settling owner out, s, k⟩ owner.obligation q)
    (hp : s.obligations.get? owner.obligation = some (.rule p))
    (hcount : p.outstanding = outstanding + 1)
    (hdecides : Decides owner p out outstanding request)
    (hcommitted : Committed request (conditionKernel owner p out (beginning owner out k))
      installed k')
    (hevents : ∀ e ∈ events, e ∈ events')
    (hconditions : ∀ e ∈ conditionEvents owner p out, e ∈ events')
    (hcommitment : .settled (.commitment owner.obligation installed) ∈ events') :
    RuleStands passed events'
      ⟨.idle, conditionStore owner p out outstanding (s.without owner.obligation),
        answered k' (.commitment owner.obligation installed)⟩ owner.obligation q := by
  obtain ⟨hslot, hlength⟩ := mem_openSlots_of_settling hs hp
  obtain ⟨hrequest1, rfl, hundecided1⟩ := hdecides
  obtain ⟨hundecided', hrequest'⟩ := undecided_afterCondition p owner.slot out 0
  rw [hundecided', Bool.and_eq_true, Bool.not_eq_true'] at hundecided1
  cases h with
  | decided hnone => exact nomatch hp.symm.trans hnone
  | refused hdecided =>
    obtain ⟨_, ⟨⟩, hrefused⟩ := hdecided _ hp
    exact nomatch hrefused.symm.trans hundecided1.1
  | undecided hp' hundecided hrequest hsub hslots =>
    cases hp.symm.trans hp'
    rw [hrequest', hundecided1.2, if_neg Bool.false_ne_true, hrequest] at hrequest1
    cases hrequest1
    have hout : out.isSolved = true := by
      have hrefuses := hundecided1.2
      rw [refuses, hundecided, Bool.and_true, Bool.not_eq_false'] at hrefuses
      exact hrefuses
    cases Outcome.eq_solved hout
    obtain ⟨x, hx⟩ := length_eq_one_iff.1 (hlength.symm.trans hcount)
    have hlast : SettlesLast owner.obligation ⟨.settling owner .solved, s, k⟩ :=
      ⟨owner.slot, p, rfl, hp, hcount⟩
    have hgone : (conditionStore owner p .solved 0 (s.without owner.obligation)).obligations.get?
        owner.obligation = none := by simp
    have hall : ∀ slot ∈ q.slots,
        .settled (.condition owner.obligation slot .solved) ∈ events' := by
      intro slot hmem
      obtain hopen | hsettled := hslots slot hmem
      · rw [hx] at hslot hopen
        rw [mem_singleton.1 hopen, ← mem_singleton.1 hslot]
        exact hconditions _ (mem_conditionEvents (hx ▸ hslot) _).1
      · exact hevents _ hsettled
    cases hcommitted with
    | @overtaken head hhead hrule =>
      have hrule : k.rules.hasRule head = true := hrule
      refine .decided hgone hall hpassed hlast hhead ?_ fun hfree => nomatch hfree.symm.trans hrule
      rw [hrule]
      exact hcommitment
    | @installed head hhead _ hnone =>
      have hfree : k.rules.hasRule head = false := congrArg Option.isSome hnone
      refine .decided hgone hall hpassed hlast hhead ?_ fun _ => ?_
      · rw [hfree]
        exact hcommitment
      · change (install _ _ _).ruleFor? _ = _
        rw [ruleFor?_install, if_pos rfl]
        rfl

section

variable (hs : s.WellFormed none none (some owner)) (hr : Resolved owner out s k s' k')
  (hpassed : passed ⟨.settling owner out, s, k⟩) (hnew : k'.journal = new ++ k.journal)
include hs hr hpassed hnew

private theorem CastStands.settle {x : Cast}
    (h : CastStands passed events ⟨.settling owner out, s, k⟩ owner.obligation x) :
    CastStands passed (new ++ events) ⟨.idle, s', k'⟩ owner.obligation x := by
  obtain ⟨o, ho⟩ := hr.exists_obligation
  cases h with
  | solved hnone => cases ho.symm.trans hnone
  | failed hnone => cases ho.symm.trans hnone
  | pending hx =>
    have howner : owner = ⟨owner.obligation, .main⟩ := by
      obtain ⟨slots, hw, hslot⟩ := waits_of_settling hs hx
      cases hw with
      | cast => rw [← mem_singleton.1 hslot]
    cases hr with
    | castSolved hx' hsolved hinstalled =>
      cases hx.symm.trans hx'
      have hd := hinstalled.defined hpassed hsolved
      rw [howner] at hd
      obtain ⟨l, rfl⟩ := hinstalled.recorded_eq hnew
      cases Outcome.eq_solved hsolved
      exact .solved (by simp) mem_cons_self hd
    | castFailed _ hfailed =>
      obtain ⟨report, rfl⟩ := Outcome.exists_report hfailed
      rw [recorded_eq (l := [.settled _, .settling _ _ _]) hnew rfl]
      exact .failed (by simp) mem_cons_self
    | equation h | functionSolved h | argumentSolved h | applicationFailed h | condition h
    | lastCondition h => cases hx.symm.trans h

private theorem ApplicationStands.settle {a : Application}
    (h : ApplicationStands passed events ⟨.settling owner out, s, k⟩ owner.obligation a) :
    ApplicationStands passed (new ++ events) ⟨.idle, s', k'⟩ owner.obligation a := by
  obtain ⟨o, ho⟩ := hr.exists_obligation
  have hrules := hr.grows.rules
  have hawaits : Config.Awaits ⟨.settling owner out, s, k⟩ owner := .inl ⟨out, rfl⟩
  cases h with
  | refused hnone | halfway hnone | solved hnone => cases ho.symm.trans hnone
  | function ha hmain hnot =>
    have hslot := hmain _ hawaits
    have howner : owner = ⟨owner.obligation, .main⟩ := by rw [← hslot]
    cases hr with
    | functionSolved ha' _ hsolved hinstalled =>
      cases ha.symm.trans ha'
      have hd := hinstalled.defined hpassed hsolved
      rw [howner] at hd
      rw [hinstalled.kernel] at hnew
      rw [recorded_eq (l := [.ruleInstalled _ _, .castInstalled _ _, .settling _ _ _]) hnew rfl]
      cases Outcome.eq_solved hsolved
      refine .argument ?_ ?_ hd ?_ ?_
      · simp [withNode, withObligation, get?_set]
      · -- the only root of the application is the new one
        rintro slot (⟨_, hphase⟩ | ⟨i, hi⟩)
        · cases hphase
        · have hone : ∀ slots, Waits (.application a) slots → slots.length = 1 :=
            fun slots hw => by cases hw <;> rfl
          obtain hi | ⟨_, heq⟩ := (rooted_withNode hs.queued.fresh _ _ i _).1 hi
          · exact absurd hi (hs.posed.last ha hone i slot)
          · exact congrArg Owner.slot heq
      · simp [hslot, Outcome.isSolved]
      · simp [hslot, hnot]
    | applicationFailed ha' hfailed =>
      obtain ⟨report, rfl⟩ := Outcome.exists_report hfailed
      rw [recorded_eq (l := [.settled _, .settling _ _ _]) hnew rfl,
        decide_eq_false (not_not.2 hslot)]
      refine .refused (by simp) mem_cons_self ?_
      simp [hnot, Outcome.isSolved]
    | argumentSolved _ hother => exact absurd hslot hother
    | equation h | castSolved h | castFailed h | condition h | lastCondition h =>
      cases ha.symm.trans h
  | argument ha hargument hd hmain hnot =>
    have hslot := hargument _ hawaits
    have howner : owner = ⟨owner.obligation, .argument⟩ := by rw [← hslot]
    cases hr with
    | functionSolved _ hother => cases hslot.symm.trans hother
    | applicationFailed ha' hfailed =>
      obtain ⟨report, rfl⟩ := Outcome.exists_report hfailed
      rw [recorded_eq (l := [.settled _, .settling _ _ _]) hnew rfl,
        decide_eq_true (by simp [hslot])]
      refine .halfway (by simp) mem_cons_self hd (mem_append_right _ hmain) ?_
      simp [hnot, Outcome.isSolved]
    | argumentSolved ha' _ hsolved hinstalled =>
      cases ha.symm.trans ha'
      have hd' := hinstalled.defined hpassed hsolved
      rw [howner] at hd'
      obtain ⟨l, rfl⟩ := hinstalled.recorded_eq hnew
      cases Outcome.eq_solved hsolved
      refine .solved (by simp) ?_ (hd.mono (fun _ h => h) hrules) hd' (mem_append_right _ hmain) ?_
      · simp
      · simp [hslot, Outcome.isSolved]
    | equation h | castSolved h | castFailed h | condition h | lastCondition h =>
      cases ha.symm.trans h

private theorem RuleStands.settle {q : RuleRequest}
    (h : RuleStands passed events ⟨.settling owner out, s, k⟩ owner.obligation q) :
    RuleStands passed (new ++ events) ⟨.idle, s', k'⟩ owner.obligation q := by
  obtain ⟨o, ho⟩ := hr.exists_obligation
  have hevents : ∀ e ∈ events, e ∈ new ++ events := fun e => mem_append_right _
  cases hr with
  | @condition p outstanding hp hcount hdecides =>
    have hrecorded : new = conditionEvents owner p out ++
        [.settling owner.obligation owner.slot out.isSolved] :=
      recorded_eq hnew (by simp [conditionKernel, beginning, noted])
    refine h.condition hs hp hdecides hevents fun e he => ?_
    rw [hrecorded]
    exact mem_append_left _ (mem_append_left _ he)
  | @lastCondition p outstanding request installed k1 hp hcount hdecides hcommitted =>
    obtain ⟨l, rfl, _⟩ := hcommitted.recorded_eq hnew
    refine h.lastCondition hs hpassed hp hcount hdecides hcommitted hevents (fun e he => ?_) ?_
    · simp [he]
    · simp
  | equation hp | castSolved hp | castFailed hp | functionSolved hp | argumentSolved hp
  | applicationFailed hp =>
    cases h with
    | undecided hp' => cases hp.symm.trans hp'
    | decided hnone => cases hp.symm.trans hnone
    | refused hdecided =>
      obtain ⟨_, ⟨⟩, _⟩ := hdecided _ hp

/-- A part of the obligation of a request was settled. -/
theorem Stands.settle {r : Request}
    (h : Stands passed events ⟨.settling owner out, s, k⟩ owner.obligation r) :
    Stands passed (new ++ events) ⟨.idle, s', k'⟩ owner.obligation r := by
  cases r with
  | cast x => exact CastStands.settle hs hr hpassed hnew h
  | application a => exact ApplicationStands.settle hs hr hpassed hnew h
  | rule q => exact RuleStands.settle hs hr hpassed hnew h
  | _ => trivial

end

/-- What is recorded when a part of an obligation is settled is about that obligation. -/
theorem Resolved.obligation?_of_mem (hr : Resolved owner out s k s' k')
    (hnew : k'.journal = new ++ k.journal) :
    ∀ e ∈ new, e.obligation? = none ∨ e.obligation? = some owner.obligation := by
  obtain ⟨l, hl, _, hown⟩ := hr.concludes
  rw [recorded_eq hnew hl]
  exact fun e he => (hown e he).obligation?_eq

/-- A request has given a declaration its rule. -/
def Installs (events : List Event) (id d : Nat) : Request → Prop
  | .cast x => x.unknown = .decl d ∧ .settled (.equation id .solved) ∈ events
  | .application a =>
    a.functionUnknown = .decl d ∧ .settling id .main true ∈ events ∨
      a.argumentUnknown = .decl d ∧ .settling id .argument true ∈ events
  | .rule q => q.rule.head = .decl d ∧ .settled (.commitment id true) ∈ events
  | _ => False

theorem Installs.mono {r : Request} (h : Installs events id d r) (new : List Event) :
    Installs (new ++ events) id d r := by
  have hold : ∀ {e}, e ∈ events → e ∈ new ++ events := mem_append_right _
  cases r with
  | cast x => exact h.imp_right hold
  | application a => exact h.imp (And.imp_right hold) (And.imp_right hold)
  | rule q => exact h.imp_right hold
  | _ => exact h

/-- Settling a part of an obligation gives a rule only to a declaration of its request. -/
theorem Resolved.installs {log : List (Nat × Request)}
    (hr : Resolved owner out s k s' k') (hs : s.WellFormed none none (some owner))
    (hlog : s.Recorded log) (hnew : k'.journal = new ++ k.journal) (hd : k'.rules.hasRule d) :
    k.rules.hasRule d ∨ ∃ r, (owner.obligation, r) ∈ log ∧
      Installs (new ++ events) owner.obligation d r := by
  cases hr with
  | equation | castFailed | applicationFailed | condition => exact .inl hd
  | castSolved ho hsolved hinstalled =>
    obtain ⟨r, hr, ⟨⟩⟩ := hlog ho
    obtain ⟨l, rfl⟩ := hinstalled.recorded_eq hnew
    rw [hinstalled.kernel] at hd
    obtain hd | rfl := hasRule_install (R := k.rules) hd
    · exact .inl hd
    refine .inr ⟨_, hr, hinstalled.head, ?_⟩
    cases Outcome.eq_solved hsolved
    exact mem_cons_self
  | functionSolved ho hslot hsolved hinstalled =>
    obtain ⟨r, hr, ⟨⟩⟩ := hlog ho
    rw [hinstalled.kernel] at hd hnew
    obtain hd | rfl := hasRule_install (R := k.rules) hd
    · exact .inl hd
    refine .inr ⟨_, hr, .inl ⟨hinstalled.head, ?_⟩⟩
    rw [recorded_eq (l := [.ruleInstalled _ _, .castInstalled _ _, .settling _ _ _]) hnew rfl]
    simp [hslot, hsolved]
  | argumentSolved ho hslot hsolved hinstalled =>
    have hargument : owner.slot = .argument := by
      obtain ⟨slots, hw, hmem⟩ := waits_of_settling hs ho
      cases hw with
      | function => exact absurd (mem_singleton.1 hmem) hslot
      | argument => exact mem_singleton.1 hmem
    obtain ⟨r, hr, ⟨⟩⟩ := hlog ho
    obtain ⟨l, rfl⟩ := hinstalled.recorded_eq hnew
    rw [hinstalled.kernel] at hd
    obtain hd | rfl := hasRule_install (R := k.rules) hd
    · exact .inl hd
    refine .inr ⟨_, hr, .inr ⟨hinstalled.head, ?_⟩⟩
    simp [hargument, hsolved]
  | lastCondition ho _ hdecides hcommitted =>
    obtain ⟨r, hr, hposes⟩ := hlog ho
    obtain ⟨l, rfl, _⟩ := hcommitted.recorded_eq hnew
    cases poses_afterCondition hposes owner.slot out _ with
    | rule q _ honly =>
      cases honly _ hdecides.1
      cases hcommitted with
      | overtaken => exact .inl hd
      | installed hhead =>
        obtain hd | rfl := hasRule_install (R := k.rules) hd
        · exact .inl hd
        · exact .inr ⟨_, hr, hhead, mem_cons_self⟩

end StoreM
end Elaboration
