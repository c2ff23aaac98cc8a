import Elaboration.Proofs.Obligation.Scoped

/-!
# Promises

Posing an obligation promises answers: one about an equation, a cast or an application, and about a
rule one for each side condition and one that tells whether it is installed. Settling a part answers
promises that are open, once each, and leaves the others open.
-/

namespace Elaboration

variable {events : List Event} {a : Settlement}

open Event Kernel Table

/-- What an obligation promises to answer. -/
inductive Promise where
  /-- The outcome of an equation or a cast. -/
  | equation (id : Nat)
  | application (id : Nat)
  | condition (id : Nat) (slot : Slot)
  | commitment (id : Nat)
deriving DecidableEq, Repr

namespace Promise

/-- The number of the obligation. -/
def obligation : Promise → Nat
  | equation id => id
  | application id => id
  | condition id _ => id
  | commitment id => id

end Promise

/-- The promise that is kept by an answer. -/
def Settlement.promise : Settlement → Promise
  | equation id _ => .equation id
  | application id _ _ => .application id
  | condition id slot _ => .condition id slot
  | commitment id _ => .commitment id

/-- The promises that are kept by events. -/
def answeredIn (events : List Event) : List Promise :=
  events.filterMap fun e => e.settlement?.map Settlement.promise

@[simp] theorem answeredIn_nil : answeredIn [] = [] := rfl

/-- The promises answered in two runs of events. -/
@[simp] theorem answeredIn_append (events events' : List Event) :
    answeredIn (events ++ events') = answeredIn events ++ answeredIn events' :=
  List.filterMap_append

/-- What is settled is answered. -/
theorem promise_mem_answeredIn (h : .settled a ∈ events) : a.promise ∈ answeredIn events :=
  List.mem_filterMap.2 ⟨_, h, rfl⟩

/-- The obligation that an event is about. -/
def Event.obligation? : Event → Option Nat
  | .settling id _ _ => some id
  | .settled a => some a.promise.obligation
  | _ => none

/-- Events of none belong to no obligation. -/
theorem Event.obligation?_eq_none {e : Event} (h : e.ofObligation = false) :
    e.obligation? = none := by
  cases e <;> simp_all [ofObligation, obligation?]

/-- The rule that is recorded as committed, or as not committed. -/
def Event.decided? (committed : Bool) : Event → Option Nat
  | .settled (.commitment n answer) => if answer = committed then some n else none
  | _ => none

/-- A decision is a commitment that was settled. -/
theorem Event.eq_of_decided? {e : Event} {n : Nat} {committed : Bool}
    (h : e.decided? committed = some n) : e = .settled (.commitment n committed) := by
  unfold Event.decided? at h
  split at h
  · simp_all
  · cases h

/-- The answers among events. -/
def answersIn (events : List Event) : List Settlement := events.filterMap Event.settlement?

/-- The answers in two runs of events. -/
@[simp] theorem answersIn_append (new events : List Event) :
    answersIn (new ++ events) = answersIn new ++ answersIn events :=
  List.filterMap_append

@[simp] private theorem answersIn_settled (a : Settlement) (events : List Event) :
    answersIn (.settled a :: events) = a :: answersIn events := rfl

/-- Answers are what was settled. -/
theorem mem_answersIn :
    a ∈ answersIn events ↔ .settled a ∈ events := by
  constructor
  · intro h
    obtain ⟨e, he, ha⟩ := List.mem_filterMap.1 h
    cases e with
    | settled b =>
      cases ha
      exact he
    | _ => cases ha
  · exact fun h => List.mem_filterMap.2 ⟨_, h, rfl⟩

/-- Answers are given to promises. -/
theorem map_promise_answersIn (events : List Event) :
    (answersIn events).map Settlement.promise = answeredIn events :=
  List.map_filterMap

/-- Events that are not about obligations answer nothing. -/
theorem answersIn_of_quiet {new : List Event} (h : ∀ e ∈ new, e.obligation? = none) :
    answersIn new = [] :=
  List.eq_nil_iff_forall_not_mem.2 fun _ ha => nomatch (h _ (mem_answersIn.1 ha))

private theorem answeredIn_eq_nil (h : ∀ e ∈ events, e.obligation? = none) :
    answeredIn events = [] := by
  rw [← map_promise_answersIn, answersIn_of_quiet h]
  rfl

/-- The event has nothing to do with obligations, or is about the part of one that is settled. -/
def Event.About (owner : Owner) (out : Outcome) (e : Event) : Prop :=
  e.obligation? = none ∨ e = .settling owner.obligation owner.slot out.isSolved ∨
    ∃ a, e = .settled a ∧ a.promise.obligation = owner.obligation

theorem Event.About.obligation?_eq {owner : Owner} {out : Outcome} {e : Event}
    (h : e.About owner out) : e.obligation? = none ∨ e.obligation? = some owner.obligation := by
  obtain h | rfl | ⟨a, rfl, ha⟩ := h
  · exact .inl h
  · exact .inr rfl
  · exact .inr (congrArg some ha)

/-- The promises of an obligation that are open. -/
def Obligation.promises (id : Nat) : Obligation → List Promise
  | .equation => [.equation id]
  | .cast _ => [.equation id]
  | .application _ => [.application id]
  | .rule p =>
    (Store.openSlots p).map (.condition id) ++ if p.undecided then [.commitment id] else []

private theorem Obligation.obligation_of_mem {id : Nat} {o : Obligation} {p : Promise}
    (h : p ∈ o.promises id) : p.obligation = id := by
  cases o with
  | rule q =>
    simp only [promises, List.mem_append, List.mem_map] at h
    obtain ⟨slot, _, rfl⟩ | h := h
    · rfl
    · split at h
      · rw [List.mem_singleton.1 h]
        rfl
      · cases h
  | _ =>
    rw [List.mem_singleton.1 h]
    rfl

/-- The obligation is what is left of what a request posed. A rule is requested as long as it is not
decided. -/
inductive Request.Poses : Request → Obligation → Prop where
  | equation (e : Equation) : Poses (.equation e) .equation
  | cast (c : Cast) : Poses (.cast c) (.cast c)
  | application (a : Application) : Poses (.application a) (.application a)
  | rule (r : RuleRequest) {p : RuleProgress} : (p.undecided → p.request = some r) →
    (∀ request, p.request = some request → request = r) → Poses (.rule r) (.rule p)

namespace Store

variable {s s' : Store} {id : Nat}

/-- The promises about an obligation that are open. -/
def promises (s : Store) (id : Nat) : List Promise :=
  (s.obligations.get? id).elim [] (Obligation.promises id)

/-- The promises of an obligation that is there. -/
theorem promises_of_get? {o : Obligation} (h : s.obligations.get? id = some o) :
    s.promises id = o.promises id := by
  rw [promises, h]
  rfl

/-- No promises of an obligation that is gone. -/
theorem promises_of_none (h : s.obligations.get? id = none) : s.promises id = [] := by
  rw [promises, h]
  rfl

theorem promises_congr (h : s'.obligations.get? id = s.obligations.get? id) :
    s'.promises id = s.promises id := by
  rw [promises, promises, h]

/-- Promises belong to their obligation. -/
theorem obligation_of_mem_promises {p : Promise} (h : p ∈ s.promises id) : p.obligation = id := by
  unfold promises at h
  cases ho : s.obligations.get? id with
  | none =>
    rw [ho] at h
    cases h
  | some o =>
    rw [ho] at h
    exact Obligation.obligation_of_mem h

/-- Every obligation was posed by a request, which was made under its number. -/
def Recorded (log : List (Nat × Request)) (s : Store) : Prop :=
  ∀ {id o}, s.obligations.get? id = some o → ∃ r, (id, r) ∈ log ∧ r.Poses o

end Store

namespace StoreM

open Store

variable {s s' : Store} {k k' : Kernel} {log : List (Nat × Request)} {owner : Owner}
    {out : Outcome}

/-! ### Settling -/

/-- The part of an obligation that is being settled is one that it waits for. -/
theorem waits_of_settling (h : s.WellFormed none none (some owner))
    {o : Obligation} (ho : s.obligations.get? owner.obligation = some o) :
    ∃ slots, Waits o slots ∧ owner.slot ∈ slots := by
  obtain ⟨slots, hw, hslots⟩ := h.posed.waits ho
  exact ⟨slots, hw, (hslots owner.slot).2 (.inl rfl)⟩

theorem hasRule_install {R : RuleTable} {d e : Nat} {r : Rule}
    (h : (R.install e r).hasRule d) : R.hasRule d ∨ d = e := by
  rw [RuleTable.hasRule, RuleTable.ruleFor?_install] at h
  split at h
  · next heq => exact .inr heq.symm
  · exact .inl h

variable {p : RuleProgress} {new : List Event} {l : List Event}

theorem poses_afterCondition {r : Request} (h : r.Poses (.rule p)) (slot : Slot) (out : Outcome)
    (outstanding : Nat) : r.Poses (.rule (afterCondition p slot out outstanding)) := by
  obtain ⟨hundecided, hrequest⟩ := undecided_afterCondition p slot out outstanding
  cases h with
  | rule r hopen honly =>
    refine .rule r ?_ ?_
    · intro h
      rw [hundecided, Bool.and_eq_true, Bool.not_eq_true'] at h
      rw [hrequest, h.2, if_neg Bool.false_ne_true, hopen h.1]
    · intro request h
      rw [hrequest] at h
      split at h
      · cases h
      · exact honly request h

/-- Settling keeps the record of requests. -/
theorem Resolved.recorded (h : Resolved owner out s k s' k')
    (hs : s.Recorded log) : s'.Recorded log := by
  intro id o ho
  obtain ⟨_, ho⟩ | ⟨_, ⟨_, _, ho, _⟩ | ⟨p, _, rfl, hp⟩⟩ := h.of_get? ho
  · exact hs ho
  · exact hs ho
  · obtain ⟨r, hr, hposes⟩ := hs hp
    exact ⟨r, hr, poses_afterCondition hposes ..⟩

/-- Some promises were answered, once each, and those that were open besides are open still. -/
def Conserves (new : List Event) (s s' : Store) : Prop :=
  ∀ p : Promise, (s.promises p.obligation).count p =
    (answeredIn new).count p + (s'.promises p.obligation).count p

theorem Conserves.of_same (hnew : answeredIn new = []) (h : s'.obligations = s.obligations) :
    Conserves new s s' := by
  intro p
  rw [hnew, promises_congr (by rw [h]), List.count_nil, Nat.zero_add]

private theorem Conserves.trans {new' : List Event} {s'' : Store} (h : Conserves new s s')
    (h' : Conserves new' s' s'') : Conserves (new' ++ new) s s'' := by
  intro p
  rw [h p, h' p, answeredIn_append, List.count_append]
  omega

private theorem Conserves.of_perm {id : Nat}
    (hother : ∀ id', id ≠ id' → s'.obligations.get? id' = s.obligations.get? id')
    (h : (s.promises id).Perm (answeredIn new ++ s'.promises id)) : Conserves new s s' := by
  intro p
  by_cases hp : id = p.obligation
  · subst hp
    rw [h.count_eq, List.count_append]
  · have hnone : p ∉ answeredIn new := fun hmem =>
      hp (obligation_of_mem_promises (h.mem_iff.2 (List.mem_append_left _ hmem))).symm
    rw [List.count_eq_zero_of_not_mem hnone, Nat.zero_add, promises_congr (hother _ hp)]

private theorem conditionIsOpen_of_mem {slot : Slot} (h : slot ∈ openSlots p) :
    conditionIsOpen p slot = true := by
  cases slot with
  | main => exact absurd h main_notMem_openSlots
  | argument => exact absurd h argument_notMem_openSlots
  | check index => exact mem_openSlots.1 h
  | replacementType => exact replacementType_mem_openSlots.1 h

/-- The answers when a side condition is settled, latest first: about it, and that its rule is
refused. -/
def conditionAnswers (owner : Owner) (p : RuleProgress) (out : Outcome) : List Settlement :=
  (if refuses p out then [.commitment owner.obligation false] else []) ++
    if conditionIsOpen p owner.slot then [.condition owner.obligation owner.slot out] else []

/-- The answers to an open condition. -/
theorem conditionAnswers_of_mem (hslot : owner.slot ∈ openSlots p) (out : Outcome) :
    conditionAnswers owner p out =
      (if refuses p out then [.commitment owner.obligation false] else []) ++
        [.condition owner.obligation owner.slot out] := by
  rw [conditionAnswers, if_pos (conditionIsOpen_of_mem hslot)]

/-- A condition is answered with itself or a refusal. -/
theorem of_mem_conditionAnswers {a : Settlement} (h : a ∈ conditionAnswers owner p out) :
    a = .condition owner.obligation owner.slot out ∨
      a = .commitment owner.obligation false := by
  obtain h | h := List.mem_append.1 h <;> split at h <;> simp_all

theorem answersIn_conditionEvents (owner : Owner) (p : RuleProgress) (out : Outcome) :
    answersIn (conditionEvents owner p out) = conditionAnswers owner p out := by
  have hdropped : answersIn (p.request.elim [] droppedEvents) = [] := by
    cases p.request with
    | none => rfl
    | some request =>
      dsimp only [Option.elim, droppedEvents]
      cases request.rule.head <;> rfl
  unfold conditionEvents conditionAnswers
  rw [answersIn_append, answersIn_append]
  split <;> split <;> simp [hdropped] <;> rfl

private theorem perm_promises_rule (hslot : owner.slot ∈ openSlots p) (out : Outcome)
    (outstanding : Nat) :
    (Obligation.promises owner.obligation (.rule p)).Perm
      ((conditionAnswers owner p out).map Settlement.promise ++ Obligation.promises
        owner.obligation (.rule (afterCondition p owner.slot out outstanding))) := by
  have hslots : (openSlots p).Perm (owner.slot :: (openSlots p).filter (· ≠ owner.slot)) := by
    have herase := List.perm_cons_erase hslot
    rw [(nodup_openSlots p).erase_eq_filter] at herase
    refine herase.trans (.of_eq ?_)
    congr 1
    exact List.filter_congr fun x _ => by simp [bne, beq_eq_decide]
  have hmap := hslots.map (Promise.condition owner.obligation)
  rw [conditionAnswers_of_mem hslot, List.map_append]
  simp only [Obligation.promises]
  rw [openSlots_afterCondition hslot, (undecided_afterCondition ..).1]
  by_cases hrefuses : refuses p out
  · have hundecided : p.undecided = true := by
      unfold refuses at hrefuses
      exact (Bool.and_eq_true_iff.1 hrefuses).2
    simp only [hrefuses, hundecided, if_true, Bool.not_true, Bool.and_false, Bool.false_eq_true,
      if_false, List.append_nil]
    exact (hmap.append_right _).trans List.perm_append_comm
  · simp only [hrefuses, Bool.not_false, Bool.and_true, Bool.false_eq_true, if_false, List.map_nil,
      List.nil_append]
    rw [← List.append_assoc]
    exact hmap.append_right _

/-- The side condition that is being settled is open. -/
theorem mem_openSlots_of_settling (hs : s.WellFormed none none (some owner))
    (ho : s.obligations.get? owner.obligation = some (.rule p)) :
    owner.slot ∈ openSlots p ∧ p.outstanding = (openSlots p).length := by
  obtain ⟨slots, hw, hslot⟩ := waits_of_settling hs ho
  cases hw with
  | rule _ hlength _ => exact ⟨hslot, hlength⟩

private theorem openSlots_of_last {slot : Slot} (hslot : slot ∈ openSlots p)
    (hlength : p.outstanding = (openSlots p).length) (hone : p.outstanding = 1) (out : Outcome)
    (outstanding : Nat) : openSlots (afterCondition p slot out outstanding) = [] := by
  obtain ⟨x, hx⟩ := List.length_eq_one_iff.1 (hlength.symm.trans hone)
  rw [openSlots_afterCondition hslot]
  rw [hx] at hslot ⊢
  simp [List.mem_singleton.1 hslot]

private theorem exists_decides {r : Request} (hposes : r.Poses (.rule p))
    (h : (afterCondition p owner.slot out 0).undecided) :
    ∃ request, Decides owner p out 0 request := by
  cases poses_afterCondition hposes owner.slot out 0 with
  | rule request hopen _ => exact ⟨request, hopen h, rfl, h⟩

/-- What was recorded is what a journal has grown by. -/
theorem recorded_eq (hnew : k'.journal = new ++ k.journal)
    (hl : k'.journal = l ++ k.journal) : new = l :=
  List.append_cancel_right (hnew.symm.trans hl)

/-- What is recorded when a rule is installed or overtaken. -/
theorem Committed.recorded {request : RuleRequest} {installed : Bool}
    (h : Committed request k installed k') :
    ∃ l, k'.journal = l ++ k.journal ∧ (∀ e ∈ l, e.obligation? = none) ∧
      (installed = false → ∃ head, request.rule.head = .decl head ∧ .ruleOvertaken head ∈ l) := by
  cases h with
  | @overtaken head hhead =>
    exact ⟨[.ruleOvertaken head], rfl, by simp [obligation?], fun _ => ⟨head, hhead, by simp⟩⟩
  | installed =>
    exact ⟨[.ruleInstalled _ _, .ruleCommitted _], rfl, by simp [obligation?], nofun⟩

/-- What is recorded when an unknown is defined. -/
theorem Installed.recorded {tele : Telescope} {unknown value : Term} {d : Nat}
    (h : Installed tele unknown value k k' d) :
    ∃ l, k'.journal = l ++ k.journal ∧ ∀ e ∈ l, e.obligation? = none := by
  rw [h.kernel]
  exact ⟨[.ruleInstalled _ _, .castInstalled _ _], rfl, by simp [obligation?]⟩

private theorem about_of_mem_conditionEvents (p : RuleProgress) :
    ∀ e ∈ conditionEvents owner p out, e.About owner out := by
  have hdropped : ∀ e ∈ p.request.elim [] droppedEvents, e.obligation? = none := by
    cases p.request with
    | none => simp
    | some request =>
      dsimp only [Option.elim, droppedEvents]
      split <;> simp [obligation?]
  intro e he
  simp only [conditionEvents, List.mem_append] at he
  obtain (he | he) | he := he
  · split at he
    · exact .inr (.inr ⟨_, List.mem_singleton.1 he, rfl⟩)
    · cases he
  · split at he
    · exact .inr (.inr ⟨_, List.mem_singleton.1 he, rfl⟩)
    · cases he
  · split at he
    · exact .inl (hdropped e he)
    · cases he

/-- What is answered when a part of an obligation is settled, and what is left of the obligation. -/
inductive Concludes (owner : Owner) (out : Outcome) (s s' : Store) (new : List Event) :
    Prop where
  /-- The function of an application was solved, and its argument is next. -/
  | onward {a : Application} : s.obligations.get? owner.obligation = some (.application a) →
    s'.obligations.get? owner.obligation = some (.application a) → s'.failed = s.failed →
    answersIn new = [] → Concludes owner out s s' new
  | answer {o : Obligation} {a : Settlement} : s.obligations.get? owner.obligation = some o →
    s'.obligations.get? owner.obligation = none →
    s'.failed = s.failed + (!out.isSolved).toNat → o.promises owner.obligation = [a.promise] →
    a = .equation owner.obligation out ∨ (∃ b, a = .application owner.obligation out b) →
    answersIn new = [a] → Concludes owner out s s' new
  | condition {p : RuleProgress} {outstanding : Nat} :
    s.obligations.get? owner.obligation = some (.rule p) → p.outstanding = outstanding + 1 →
    (∀ request, ¬ Decides owner p out outstanding request) →
    s' = conditionStore owner p out outstanding (s.without owner.obligation) →
    answersIn new = conditionAnswers owner p out → Concludes owner out s s' new
  /-- The last side condition was settled, and the rule with it. -/
  | decided {p : RuleProgress} {request : RuleRequest} (installed : Bool) :
    s.obligations.get? owner.obligation = some (.rule p) → p.outstanding = 1 →
    Decides owner p out 0 request →
    s' = conditionStore owner p out 0 (s.without owner.obligation) →
    answersIn new = .commitment owner.obligation installed :: conditionAnswers owner p out →
    (installed = false → ∃ head, request.rule.head = .decl head ∧ .ruleOvertaken head ∈ new) →
    Concludes owner out s s' new

private theorem Concludes.of_answer {o : Obligation} {a : Settlement} {solved : Bool}
    (ho : s.obligations.get? owner.obligation = some o)
    (hopen : o.promises owner.obligation = [a.promise])
    (ha : a = .equation owner.obligation out ∨
      ∃ wasFunction, a = .application owner.obligation out wasFunction)
    (hsolved : out.isSolved = solved)
      (hl : k'.journal = l ++ (beginning owner out k).journal)
    (hquiet : ∀ e ∈ l, e.obligation? = none) :
    ∃ new, (answered k' a).journal = new ++ k.journal ∧
      Concludes owner out s ((s.without owner.obligation).failedIf (!solved)) new ∧
      ∀ e ∈ new, e.About owner out := by
  subst hsolved
  refine ⟨.settled a :: (l ++ [.settling owner.obligation owner.slot out.isSolved]), ?_,
    .answer ho ?_ ?_ hopen ha ?_, ?_⟩
  · simp [answered, noted, hl, beginning]
  · simp
  · cases out.isSolved <;> rfl
  · rw [answersIn_settled, answersIn_append, answersIn_of_quiet hquiet]
    rfl
  · have hown : a.promise.obligation = owner.obligation := by obtain rfl | ⟨_, rfl⟩ := ha <;> rfl
    refine List.forall_mem_cons.2 ⟨.inr (.inr ⟨a, rfl, hown⟩), List.forall_mem_append.2
      ⟨fun e he => .inl (hquiet e he), List.forall_mem_singleton.2 (.inr (.inl rfl))⟩⟩

/-- Settling a part of an obligation records nothing about others. -/
theorem Resolved.concludes (h : Resolved owner out s k s' k') :
    ∃ new, k'.journal = new ++ k.journal ∧ Concludes owner out s s' new ∧
      ∀ e ∈ new, e.About owner out := by
  let settling := settling owner.obligation owner.slot out.isSolved
  have hsettling : answersIn [settling] = [] := rfl
  cases h with
  | equation ho => exact Concludes.of_answer (l := []) ho rfl (.inl rfl) rfl rfl nofun
  | castFailed ho hfailed => exact Concludes.of_answer (l := []) ho rfl (.inl rfl) hfailed rfl nofun
  | applicationFailed ho hfailed =>
    exact Concludes.of_answer (l := []) ho rfl (.inr ⟨_, rfl⟩) hfailed rfl nofun
  | castSolved ho hsolved hinstalled =>
    obtain ⟨l, hl, hquiet⟩ := hinstalled.recorded
    exact Concludes.of_answer ho rfl (.inl rfl) hsolved hl hquiet
  | argumentSolved ho _ hsolved hinstalled =>
    obtain ⟨l, hl, hquiet⟩ := hinstalled.recorded
    exact Concludes.of_answer ho rfl (.inr ⟨_, rfl⟩) hsolved hl hquiet
  | functionSolved ho _ _ hinstalled =>
    rw [hinstalled.kernel]
    refine ⟨[.ruleInstalled _ _, .castInstalled _ _, settling], rfl, .onward ho ?_ rfl rfl,
      by simp [settling, About, obligation?]⟩
    simp [withNode, withObligation, get?_set]
  | @condition p outstanding ho hcount hdecides =>
    refine ⟨conditionEvents owner p out ++ [settling], ?_, .condition ho hcount hdecides rfl ?_,
      List.forall_mem_append.2 ⟨about_of_mem_conditionEvents p, by simp [settling, About]⟩⟩
    · simp [settling, conditionKernel, beginning, noted]
    · rw [answersIn_append, hsettling, List.append_nil, answersIn_conditionEvents]
  | @lastCondition p outstanding request installed k1 ho hcount hdecides hcommitted =>
    obtain ⟨l, hl, hquiet, hovertaken⟩ := hcommitted.recorded
    cases hdecides.2.1
    refine ⟨.settled (.commitment owner.obligation installed) :: l ++
      (conditionEvents owner p out ++ [settling]), ?_,
      .decided installed ho hcount hdecides rfl ?_ fun hfalse => ?_, ?_⟩
    · simp [settling, answered, noted, hl, conditionKernel, beginning]
    · rw [answersIn_append, answersIn_append, hsettling, List.append_nil, answersIn_settled,
        answersIn_of_quiet hquiet, answersIn_conditionEvents]
      rfl
    · obtain ⟨head, hhead, hmem⟩ := hovertaken hfalse
      exact ⟨head, hhead, by simp [hmem]⟩
    · refine List.forall_mem_append.2 ⟨List.forall_mem_cons.2 ⟨.inr (.inr ⟨_, rfl, rfl⟩), ?_⟩,
        List.forall_mem_append.2
          ⟨about_of_mem_conditionEvents p, List.forall_mem_singleton.2 (.inr (.inl rfl))⟩⟩
      exact fun e he => .inl (hquiet e he)

/-- Settling a part of an obligation answers promises of it that are open. -/
theorem Resolved.conserves (h : Resolved owner out s k s' k')
    (hs : s.WellFormed none none (some owner)) (hlog : s.Recorded log) :
    ∃ new, k'.journal = new ++ k.journal ∧ Conserves new s s' := by
  obtain ⟨new, hnew, hconcludes, _⟩ := h.concludes
  refine ⟨new, hnew, .of_perm (fun _ => h.get?_of_ne) ?_⟩
  rw [← map_promise_answersIn]
  cases hconcludes with
  | onward ho ho' _ hanswers =>
    rw [hanswers, promises_of_get? ho, promises_of_get? ho']
    exact .refl _
  | answer ho hnone _ hopen _ hanswers =>
    rw [hanswers, promises_of_get? ho, promises_of_none hnone, hopen]
    exact .refl _
  | @condition p outstanding ho hcount hdecides hs' hanswers =>
    obtain ⟨hslot, hlength⟩ := mem_openSlots_of_settling hs ho
    rw [hanswers, promises_of_get? ho]
    refine (perm_promises_rule hslot out outstanding).trans (.of_eq ?_)
    congr 1
    subst hs'
    by_cases hleft : outstanding = 0
    · subst hleft
      -- no condition is left and the rule is refused, so that nothing is open any more
      have hrefused : (afterCondition p owner.slot out 0).undecided = false := by
        by_contra hundecided
        obtain ⟨r, _, hposes⟩ := hlog ho
        obtain ⟨request, h⟩ := exists_decides hposes (Bool.not_eq_false _ ▸ hundecided)
        exact hdecides request h
      rw [promises_of_none (by simp)]
      simp [Obligation.promises, openSlots_of_last hslot hlength hcount, hrefused]
    · rw [promises_of_get?]
      simp [hleft, get?_set]
  | decided _ ho hcount hdecides hs' hanswers =>
    obtain ⟨hslot, hlength⟩ := mem_openSlots_of_settling hs ho
    subst hs'
    rw [hanswers, promises_of_get? ho, promises_of_none (by simp)]
    refine (perm_promises_rule hslot out 0).trans ?_
    rw [Obligation.promises, openSlots_of_last hslot hlength hcount, hdecides.2.2, List.append_nil]
    exact List.perm_append_comm

variable {c c' : Config}

/-- Every move answers open promises. -/
theorem Move.conserves (h : Move c c') (hc : c.Ordered) (hlog : c.store.Recorded log) :
    (∃ new, c'.kernel.journal = new ++ c.kernel.journal ∧ Conserves new c.store c'.store) ∧
      c'.store.Recorded log := by
  cases h.effect hc with
  | silent hs =>
    refine ⟨?_, fun ho => hlog (hs.obligations ▸ ho)⟩
    obtain hk | ⟨count, hk⟩ := hs.kernel
    · exact ⟨[], by rw [hk]; rfl, .of_same rfl hs.obligations⟩
    · exact ⟨[.waking count], by rw [hk]; rfl, .of_same rfl hs.obligations⟩
  | @step i _ v _ _ hstep hk hsame =>
    refine ⟨?_, fun ho => hlog (hsame ▸ ho)⟩
    obtain ⟨new, hjournal, hnew⟩ := hstep.extends.quiet
    have hsilent : answeredIn new = [] :=
      answeredIn_eq_nil fun e he => obligation?_eq_none (hnew e he)
    refine ⟨.stepped i v :: new, ?_, .of_same hsilent hsame⟩
    rw [hk, noted, hjournal, List.cons_append]
  | settle hphase _ hr =>
    obtain ⟨phase, s, k⟩ := c
    cases hphase
    exact ⟨hr.conserves hc hlog, hr.recorded hlog⟩

/-- Moves conserve promises. -/
theorem Moves.conserves (h : Moves c c') (hc : c.Ordered) (hlog : c.store.Recorded log) :
    (∃ new, c'.kernel.journal = new ++ c.kernel.journal ∧ Conserves new c.store c'.store) ∧
      c'.store.Recorded log := by
  induction h with
  | refl => exact ⟨⟨[], rfl, .of_same rfl rfl⟩, hlog⟩
  | tail hmoves hmove ih =>
    obtain ⟨⟨new, hjournal, hconserves⟩, hlog'⟩ := ih
    obtain ⟨⟨new', hjournal', hconserves'⟩, hlog''⟩ :=
      hmove.conserves (Moves.ordered hmoves hc) hlog'
    refine ⟨⟨new' ++ new, ?_, hconserves.trans hconserves'⟩, hlog''⟩
    rw [hjournal', hjournal, List.append_assoc]

end StoreM
end Elaboration
