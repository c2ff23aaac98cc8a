import Elaboration.Proofs.Obligation.Answers
import Elaboration.Proofs.Session.Performs

/-!
# How a session keeps its books

A session hears every answer of its store and enters a failure where the answer calls for one. So
the failures match the answers that are failures of their own, one by one.
-/

namespace Elaboration

variable {purposes : Table Purpose}

open List Option Session Settlement Table

open Session (rememberFailed failureOf?)

/-! ### Hearing answers -/

namespace Session

/-- The session after it has heard an answer. -/
def hear (names : Names) (s : Session) (a : Settlement) : Session :=
  { s with
    purposes := rememberFailed s.purposes a
    failures := s.failures ++ (failureOf? names s.purposes a).toList }

/-- The session after it has heard answers, which are listed latest first. -/
def hearAll (names : Names) (s : Session) (answers : List Settlement) : Session :=
  answers.foldr (fun a s => s.hear names a) s

variable {names : Names} {s : Session}

private theorem hearAll_append (later answers : List Settlement) :
    s.hearAll names (later ++ answers) = (s.hearAll names answers).hearAll names later :=
  foldr_append

@[simp] private theorem store_hearAll (answers : List Settlement) :
    (s.hearAll names answers).store = s.store := by
  induction answers with
  | nil => rfl
  | cons a answers ih => exact ih

private theorem absorb_eq (names : Names) (s : Session) (journal events : List Event) :
    (absorb names s journal events).1 = s.hearAll names (answersIn events.reverse) ∧
      ∃ recorded, (absorb names s journal events).2 = recorded ++ journal ∧
        answersIn recorded = answersIn events.reverse := by
  induction events generalizing s journal with
  | nil => exact ⟨rfl, [], rfl, rfl⟩
  | cons e events ih =>
    -- one event is put before the journal, with what is reported about it
    have hone : ∀ (s' : Session) (new : List Event), answersIn new = answersIn [e] →
        s' = s.hearAll names (answersIn [e]) →
        (absorb names s' (new ++ journal) events).1 =
            s.hearAll names (answersIn (e :: events).reverse) ∧
          ∃ recorded, (absorb names s' (new ++ journal) events).2 = recorded ++ journal ∧
            answersIn recorded = answersIn (e :: events).reverse := by
      rintro _ new hnew rfl
      obtain ⟨hsession, recorded, hjournal, hrecorded⟩ :=
        ih (s.hearAll names (answersIn [e])) (new ++ journal)
      rw [reverse_cons, answersIn_append, hearAll_append]
      refine ⟨hsession, recorded ++ new, ?_, ?_⟩
      · rw [hjournal, append_assoc]
      · rw [answersIn_append, hrecorded, hnew]
    cases e with
    | settled a =>
      rw [absorb]
      dsimp only
      split
      · next hnone =>
        refine hone _ [.settled a] rfl ?_
        simp [hearAll, answersIn, Event.settlement?, hear, hnone]
      · next f hf =>
        refine hone _ [.reported f, .settled a] rfl ?_
        simp [hearAll, answersIn, Event.settlement?, hear, hf]
    | _ => exact hone s [_] rfl rfl

end Session

namespace SessionM

variable {α : Type} {s : Session} {k k' : Kernel}

/-- Acting on the store, the session hears what the store answers. -/
theorem onStore_eq_ok {x : StoreM α} {a : α} {store : Store}
    (hx : x s.store { k with journal := [] } = .ok (a, store) k') :
    ∃ recorded, answersIn recorded = answersIn k'.journal ∧
      onStore x s k = .ok (a, { s with store }.hearAll k'.names (answersIn k'.journal))
        { k' with journal := recorded ++ k.journal } := by
  obtain ⟨hsession, recorded, hjournal, hrecorded⟩ :=
    absorb_eq k'.names { s with store } k.journal k'.journal.reverse
  rw [reverse_reverse] at hsession hrecorded
  refine ⟨recorded, hrecorded, ?_⟩
  unfold onStore
  rw [hx, ← hsession, ← hjournal]

end SessionM

/-! ### What obligations were posed for -/

namespace Purpose

/-- The promises of an obligation that was posed for this purpose. -/
def promises (id : Nat) : Purpose → List Promise
  | equation _ _ => [.equation id]
  | application _ => [.application id]
  | rule _ checks _ =>
    (range checks.length).map (fun index => .condition id (.check index)) ++
      [.condition id .replacementType, .commitment id]

private theorem obligation_of_mem_promises {id : Nat} {p : Promise} {purpose : Purpose}
    (h : p ∈ purpose.promises id) : p.obligation = id := by
  cases purpose with
  | rule node checks failed =>
    simp only [promises, mem_append, List.mem_map, mem_cons, not_mem_nil, or_false] at h
    obtain ⟨_, _, rfl⟩ | rfl | rfl := h <;> rfl
  | _ =>
    rw [mem_singleton.1 h]
    rfl

private theorem exists_mem_promises (purpose : Purpose) (id : Nat) :
    ∃ p, p ∈ purpose.promises id := by
  cases purpose with
  | rule => exact ⟨.commitment id, by simp [promises]⟩
  | _ => exact ⟨_, mem_singleton.2 rfl⟩

/-- The failure that an answer calls for. A failed equation is reported with its rendered report. -/
inductive Tells : Purpose → Settlement → Failure → Prop where
  | equation (names : Names) {purpose : Failure.Purpose} {node : NodeId} {id : Nat}
      {report : Report} :
    Tells (.equation purpose node) (.equation id (.failed report))
      (.unsolved purpose node (report.render names))
  | function (names : Names) {node : NodeId} {id : Nat} {report : Report} :
    Tells (.application node) (.application id (.failed report) false)
      (.unsolved .functionApplied node (report.render names))
  | argument (names : Names) {node : NodeId} {id : Nat} {report : Report} :
    Tells (.application node) (.application id (.failed report) true)
      (.unsolved .argumentType node (report.render names))
  /-- It is about the instruction that demands the check. -/
  | check (names : Names) {node demanded : NodeId} {checks : List NodeId} {failed : Bool}
      {id index : Nat} {report : Report} : checks[index]? = some demanded →
    Tells (.rule node checks failed) (.condition id (.check index) (.failed report))
      (.unsolved .patternCheck demanded (report.render names))
  | replacementType (names : Names) {node : NodeId} {checks : List NodeId}
      {failed : Bool} {id : Nat}
      {report : Report} :
    Tells (.rule node checks failed) (.condition id .replacementType (.failed report))
      (.unsolved .replacementType node (report.render names))
  | commitment {node : NodeId} {checks : List NodeId} {failed : Bool} {id : Nat} :
    Tells (.rule node checks failed) (.commitment id false) (.rejected .invalidRuleHead node)

private theorem Tells.of_rule {node : NodeId} {checks : List NodeId} {failed failed' : Bool}
    {a : Settlement} {f : Failure} (h : Tells (.rule node checks failed) a f) :
    Tells (.rule node checks failed') a f := by
  cases h with
  | check names h => exact .check names h
  | replacementType names => exact .replacementType names
  | commitment => exact .commitment

end Purpose

/-- The promises of all obligations that were posed for some purpose. -/
def promisedIn (purposes : Table Purpose) : List Promise :=
  purposes.keys.flatMap fun id => (purposes.get? id).elim [] (Purpose.promises id)

private theorem mem_promisedIn {p : Promise} (h : p ∈ promisedIn purposes) :
    ∃ purpose, purposes.get? p.obligation = some purpose ∧ p ∈ purpose.promises p.obligation := by
  obtain ⟨id, _, hp⟩ := mem_flatMap.1 h
  cases hpurpose : purposes.get? id with
  | none =>
    rw [hpurpose] at hp
    cases hp
  | some purpose =>
    rw [hpurpose] at hp
    cases Purpose.obligation_of_mem_promises hp
    exact ⟨purpose, hpurpose, hp⟩

private theorem promisedIn_of_get? {id : Nat} {purpose : Purpose} {p : Promise}
    (h : purposes.get? id = some purpose) (hp : p ∈ purpose.promises id) :
    p ∈ promisedIn purposes := by
  refine mem_flatMap.2 ⟨id, mem_map.2 ⟨_, mem_of_get? h, rfl⟩, ?_⟩
  rw [h]
  exact hp

/-- The failure is what an answer calls for, from what its obligation was posed for. -/
def CallsFor (purposes : Table Purpose) (a : Settlement) (f : Failure) : Prop :=
  ∃ purpose, purposes.get? a.promise.obligation = some purpose ∧ purpose.Tells a f

private theorem get?_rememberFailed (purposes : Table Purpose) (a : Settlement) (id : Nat) :
    (rememberFailed purposes a).get? id = match purposes.get? id with
      | some (.rule node checks failed) => some (.rule node checks (failed || a.refutes id))
      | other => other := by
  have hsame : a.refutes id = false → purposes.get? id = match purposes.get? id with
      | some (.rule node checks failed) => some (.rule node checks (failed || a.refutes id))
      | other => other := by
    intro ha
    rw [ha]
    split
    · next h => rw [h, Bool.or_false]
    · rfl
  unfold rememberFailed
  split
  · next id' slot out =>
    split
    · next node checks failed hid' =>
      rw [get?_set]
      split
      · next heq =>
        subst heq
        rw [hid']
        simp [refutes]
      · next hne => exact hsame (by simp [refutes, hne])
    · next hother =>
      by_cases heq : id' = id
      · subst heq
        split
        · next h => exact absurd h (hother _ _ _)
        · rfl
      · exact hsame (by simp [refutes, heq])
  · next hother =>
    refine hsame ?_
    cases a with
    | condition id' slot out => exact absurd rfl (hother id' slot out)
    | _ => rfl

private theorem keys_rememberFailed (purposes : Table Purpose) (a : Settlement) :
    (rememberFailed purposes a).keys = purposes.keys := by
  unfold rememberFailed
  split
  · split
    · next h => exact (keys_set ..).trans (if_pos (mem_map.2 ⟨_, mem_of_get? h, rfl⟩))
    · rfl
  · rfl

private theorem promisedIn_rememberFailed (purposes : Table Purpose) (a : Settlement) :
    promisedIn (rememberFailed purposes a) = promisedIn purposes := by
  unfold promisedIn
  rw [keys_rememberFailed]
  congr 1
  funext id
  rw [get?_rememberFailed]
  split
  · next h => rw [h]; rfl
  · rfl

private theorem callsFor_rememberFailed {a : Settlement} {f : Failure}
    (b : Settlement) : CallsFor (rememberFailed purposes b) a f ↔ CallsFor purposes a f := by
  unfold CallsFor
  rw [get?_rememberFailed]
  cases purposes.get? a.promise.obligation with
  | none => rfl
  | some purpose =>
    cases purpose with
    | rule node checks failed =>
      simp only [some.injEq, exists_eq_left']
      exact ⟨Purpose.Tells.of_rule, Purpose.Tells.of_rule⟩
    | _ => rfl

/-! ### The books -/

namespace Session

/-- The failures of a session match the answers heard: those that are failures of their own, besides
those of rules rejected at once. -/
structure Heard (answers : List Settlement) (rejected : List Failure) (s : Session) : Prop where
  flagged : ∀ id node checks failed, s.purposes.get? id = some (.rule node checks failed) →
    failed = answers.any (Settlement.refutes id)
  matched : ∃ matched : List (Settlement × Failure),
    s.failures.Perm (rejected ++ matched.map Prod.snd) ∧
    (matched.map Prod.fst).Perm (answers.filter (Settlement.fails answers)) ∧
    ∀ x ∈ matched, CallsFor s.purposes x.1 x.2

variable {names : Names} {s : Session} {answers later : List Settlement} {rejected : List Failure}
  {a : Settlement} {purpose : Purpose} {s' : Session}

private theorem failureOf?_spec (names : Names) {purposes : Table Purpose}
    (hget : purposes.get? a.promise.obligation = some purpose)
    (hp : a.promise ∈ purpose.promises a.promise.obligation)
    (hflag : ∀ node checks failed, purpose = .rule node checks failed →
      failed = answers.any (refutes a.promise.obligation)) :
    match failureOf? names purposes a with
    | some f => a.fails answers = true ∧ purpose.Tells a f
    | none => a.fails answers = false := by
  cases a with
  | equation id out =>
    cases purpose with
    | equation purpose node =>
      simp only [failureOf?, promise, Promise.obligation] at hget ⊢
      rw [hget]
      cases out with
      | solved => rfl
      | failed report => exact ⟨rfl, .equation names⟩
    | _ => simp [Purpose.promises, promise] at hp
  | application id out wasFunction =>
    cases purpose with
    | application node =>
      simp only [failureOf?, promise, Promise.obligation] at hget ⊢
      rw [hget]
      cases out with
      | solved => rfl
      | failed report =>
        cases wasFunction with
        | false => exact ⟨rfl, .function names⟩
        | true => exact ⟨rfl, .argument names⟩
    | _ => simp [Purpose.promises, promise] at hp
  | condition id slot out =>
    cases purpose with
    | rule node checks failed =>
      simp only [failureOf?, promise, Promise.obligation] at hget ⊢
      rw [hget]
      cases out with
      | solved => rfl
      | failed report =>
        refine ⟨rfl, ?_⟩
        cases slot with
        | check index =>
          have hlt : index < checks.length := by
            simp only [Purpose.promises, promise, Promise.obligation] at hp
            simpa using hp
          have hcheck : checks[index]? = some checks[index] := getElem?_eq_getElem hlt
          simp only [conditionPurpose, hcheck, getD_some]
          exact .check names hcheck
        | replacementType => exact .replacementType names
        | _ => simp [Purpose.promises, promise] at hp
    | _ => simp [Purpose.promises, promise] at hp
  | commitment id installed =>
    cases purpose with
    | rule node checks failed =>
      simp only [failureOf?, promise, Promise.obligation] at hget hflag ⊢
      rw [hget]
      have hfailed := hflag node checks failed rfl
      cases installed with
      | true => rfl
      | false =>
        cases failed with
        | true => simp [fails, ← hfailed]
        | false => exact ⟨by simp [fails, ← hfailed], .commitment⟩
    | _ => simp [Purpose.promises, promise] at hp

private theorem Heard.hear (h : s.Heard answers rejected) (ha : a.promise ∈ promisedIn s.purposes)
    (horderly : Orderly (a :: answers)) : (s.hear names a).Heard (a :: answers) rejected := by
  obtain ⟨purpose, hget, hp⟩ := mem_promisedIn ha
  obtain ⟨matched, hfailures, hanswers, hcalls⟩ := h.matched
  refine ⟨fun id node checks failed hrule => ?_, ?_⟩
  · have hrule : (rememberFailed s.purposes a).get? id = some (.rule node checks failed) := hrule
    rw [get?_rememberFailed] at hrule
    rw [any_cons]
    split at hrule
    · next h' =>
      cases hrule
      rw [h.flagged id _ _ _ h', Bool.or_comm]
    · next hother => exact absurd hrule (hother _ _ _)
  · have hspec := failureOf?_spec names hget hp
      fun node checks failed heq => h.flagged _ node checks failed (heq ▸ hget)
    rw [horderly.filter_cons]
    unfold Session.hear
    dsimp only
    split at hspec
    · next f hf =>
      obtain ⟨hfails, htells⟩ := hspec
      rw [hf, if_pos hfails]
      refine ⟨(a, f) :: matched, ?_, hanswers.cons a, forall_mem_cons.2 ⟨?_, fun x hx => ?_⟩⟩
      · rw [map_cons]
        exact ((hfailures.append_right _).trans (perm_append_singleton _ _)).trans perm_middle.symm
      · exact (callsFor_rememberFailed a).2 ⟨purpose, hget, htells⟩
      · exact (callsFor_rememberFailed a).2 (hcalls x hx)
    · next hnone =>
      rw [hnone, hspec, if_neg Bool.false_ne_true]
      refine ⟨matched, by simpa using hfailures, hanswers, fun x hx => ?_⟩
      exact (callsFor_rememberFailed a).2 (hcalls x hx)

private theorem promisedIn_hearAll (answers : List Settlement) :
    promisedIn (s.hearAll names answers).purposes = promisedIn s.purposes := by
  induction answers with
  | nil => rfl
  | cons a answers ih => exact (promisedIn_rememberFailed _ a).trans ih

theorem callsFor_hearAll {f : Failure} (answers : List Settlement) :
    CallsFor (s.hearAll names answers).purposes a f ↔ CallsFor s.purposes a f := by
  induction answers with
  | nil => rfl
  | cons b answers ih => exact (callsFor_rememberFailed b).trans ih

/-- Failures are entered after those that there are. -/
theorem failures_hearAll (answers : List Settlement) :
    ∃ more, (s.hearAll names answers).failures = s.failures ++ more := by
  induction answers with
  | nil => exact ⟨[], (append_nil _).symm⟩
  | cons a answers ih =>
    obtain ⟨more, hmore⟩ := ih
    exact ⟨_, (congrArg (· ++ _) hmore).trans (append_assoc ..)⟩

private theorem Heard.hearAll (h : s.Heard answers rejected)
    (hpromised : ∀ a ∈ later, a.promise ∈ promisedIn s.purposes)
    (horderly : Orderly (later ++ answers)) :
    (s.hearAll names later).Heard (later ++ answers) rejected := by
  induction later with
  | nil => exact h
  | cons a later ih =>
    rw [forall_mem_cons] at hpromised
    refine Heard.hear (ih hpromised.2 horderly.1) ?_ horderly
    exact (promisedIn_hearAll later).symm ▸ hpromised.1

/-- The store has a history with these answers, and the session knows for every obligation what it
was posed for. Rules were requested for declarations. -/
def Posed (answers : List Settlement) (s : Session) : Prop :=
  ∃ log events, Store.History log events s.store ∧ answersIn events = answers ∧
    (handed log).Perm (promisedIn s.purposes) ∧
    ∀ id q, (id, .rule q) ∈ log → ∃ head, q.rule.head = .decl head

/-- The books of a session that was not finished are in order. -/
structure Books (answers : List Settlement) (rejected : List Failure) (s : Session) : Prop where
  heard : s.Heard answers rejected
  history : s.Posed answers
  decided : ∀ a ∈ answers, a.Decided

theorem books_initial (k : Kernel) : (Session.initial k).Books [] [] where
  heard := ⟨nofun, [], .refl _, .refl _, nofun⟩
  history := ⟨[], [], .initial k, rfl, .refl _, nofun⟩
  decided := nofun

/-- Nothing but the embedded values differs. -/
theorem Books.congr (h : s.Books answers rejected) (hstore : s'.store = s.store)
    (hfailures : s'.failures = s.failures) (hpurposes : s'.purposes = s.purposes) :
    s'.Books answers rejected where
  heard := ⟨hpurposes ▸ h.heard.flagged, by rw [hfailures, hpurposes]; exact h.heard.matched⟩
  history := by
    unfold Posed
    rw [hstore, hpurposes]
    exact h.history
  decided := h.decided

/-- Another failure of a rule is entered. -/
theorem Books.reject (h : s.Books answers rejected) {f : Failure}
    (hstore : s'.store = s.store) (hfailures : s'.failures = s.failures ++ [f])
    (hpurposes : s'.purposes = s.purposes) : s'.Books answers (rejected ++ [f]) where
  heard := by
    obtain ⟨matched, hperm, hanswers, hcalls⟩ := h.heard.matched
    refine ⟨hpurposes ▸ h.heard.flagged, matched, ?_, hanswers, hpurposes ▸ hcalls⟩
    rw [hfailures, append_assoc]
    refine ((hperm.append_right [f]).trans ?_)
    rw [append_assoc]
    exact perm_append_comm.append_left _
  history := by
    unfold Posed
    rw [hstore, hpurposes]
    exact h.history
  decided := h.decided

private theorem Books.get?_next (h : s.Books answers rejected) :
    s.purposes.get? s.store.nextId = none := by
  obtain ⟨log, events, hhistory, _, hperm, _⟩ := h.history
  refine eq_none_iff_forall_ne_some.2 fun purpose hget => ?_
  obtain ⟨p, hp⟩ := purpose.exists_mem_promises s.store.nextId
  have hmade := hhistory.balanced.made p (hperm.mem_iff.2 (promisedIn_of_get? hget hp))
  rw [Purpose.obligation_of_mem_promises hp] at hmade
  exact lt_irrefl _ hmade

private theorem promisedIn_set {purposes : Table Purpose} {id : Nat} (h : purposes.get? id = none) :
    promisedIn (purposes.set id purpose) = promisedIn purposes ++ purpose.promises id := by
  have hkey := notMem_keys_of_get? h
  have hself : (purposes.set id purpose).get? id = some purpose := by
    rw [get?_set, if_pos rfl]
  unfold promisedIn
  rw [keys_set, if_neg hkey, flatMap_append, flatMap_singleton, hself]
  congr 1
  refine flatMap_congr fun id' hid' => ?_
  have hne : id ≠ id' := fun heq => hkey (heq ▸ hid')
  rw [get?_set, if_neg hne]

/-- An obligation is posed and it is remembered what for. -/
theorem Books.pose (h : s.Books answers rejected) {r : Request} {o : Obligation}
    {es : List (Equation × Slot)} (hr : r.obligation? = some (o, es))
    (hpromises : purpose.promises s.store.nextId = r.promises s.store.nextId)
    (hflag : ∀ node checks failed, purpose = .rule node checks failed → failed = false)
    (hrule : ∀ q, r = .rule q → ∃ head, q.rule.head = .decl head)
    (hstore : s'.store = s.store.posing o es) (hfailures : s'.failures = s.failures)
    (hpurposes : s'.purposes = s.purposes.set s.store.nextId purpose) :
    s'.Books answers rejected := by
  have hfresh := h.get?_next
  obtain ⟨log, events, hhistory, hanswers, hperm, hrules⟩ := h.history
  obtain ⟨matched, hmatched, hfails, hcalls⟩ := h.heard.matched
  have hold : ∀ id purpose', s.purposes.get? id = some purpose' →
      s'.purposes.get? id = some purpose' := by
    intro id purpose' hget
    have hne : s.store.nextId ≠ id := fun heq => nomatch (heq ▸ hfresh).symm.trans hget
    rw [hpurposes, get?_set, if_neg hne, hget]
  refine ⟨⟨fun id node checks failed hget => ?_, matched, hfailures ▸ hmatched, hfails,
    fun x hx => ?_⟩, ⟨(s.store.nextId, r) :: log, events, ?_, hanswers, ?_, ?_⟩, h.decided⟩
  · rw [hpurposes, get?_set] at hget
    split at hget
    · next heq =>
      -- nothing was answered about the new obligation
      rw [hflag node checks failed (some.inj hget)]
      refine (any_eq_false.2 fun a ha hrefutes => ?_).symm
      have hlt := hhistory.balanced.lt_of_answered (hanswers ▸ ha)
      cases a with
      | condition id' slot out =>
        rw [refutes, Bool.and_eq_true, decide_eq_true_iff] at hrefutes
        exact hlt.ne (hrefutes.1.trans heq.symm)
      | _ => cases hrefutes
    · exact h.heard.flagged id node checks failed hget
  · obtain ⟨purpose', hget, htells⟩ := hcalls x hx
    exact ⟨purpose', hold _ _ hget, htells⟩
  · rw [hstore]
    have hposed : r.perform s.store Kernel.initial = .ok ((), s.store.posing o es) Kernel.initial :=
      EndsWith.eq_ok ((StoreM.ends_pose hr).2 ⟨rfl, rfl, rfl⟩)
    have hnothing : Kernel.initial.journal = [] ++ Kernel.initial.journal := rfl
    exact hhistory.perform r hposed hnothing
  · rw [handed_cons, hpurposes, promisedIn_set hfresh, hpromises]
    exact (hperm.append_left _).trans perm_append_comm
  · intro id q hq
    obtain heq | hq := mem_cons.1 hq
    · exact hrule q (congrArg Prod.snd heq).symm
    · exact hrules id q hq

/-- A request that poses nothing is performed, and its answers are heard. -/
theorem Books.perform (h : s.Books answers rejected) (names : Names) {r : Request} {store : Store}
    {k k' : Kernel} (hr : r.promises s.store.nextId = []) (hrule : ∀ q, r ≠ .rule q)
    (hok : r.perform s.store k = .ok ((), store) k') (hjournal : k.journal = []) :
    ({ s with store }.hearAll names (answersIn k'.journal)).Heard (answersIn k'.journal ++ answers)
        rejected ∧
      ({ s with store }.hearAll names (answersIn k'.journal)).Posed
        (answersIn k'.journal ++ answers) := by
  obtain ⟨log, events, hhistory, hanswers, hperm, hrules⟩ := h.history
  have hnew : k'.journal = k'.journal ++ k.journal := by rw [hjournal, append_nil]
  have hafter := hhistory.perform r hok hnew
  have hhanded : handed ((s.store.nextId, r) :: log) = handed log := by
    rw [handed_cons, hr, nil_append]
  have hall : answersIn (k'.journal ++ events) = answersIn k'.journal ++ answers := by
    rw [answersIn_append, hanswers]
  refine ⟨?_, (s.store.nextId, r) :: log, k'.journal ++ events, ?_, hall, ?_, ?_⟩
  · refine Heard.hearAll (s := { s with store }) ⟨h.heard.flagged, h.heard.matched⟩
      (fun a ha => ?_) ?_
    · have hrecorded : a.promise ∈ answeredIn (k'.journal ++ events) := by
        rw [answeredIn_append]
        exact mem_append_left _ (promise_mem_answeredIn (mem_answersIn.1 ha))
      obtain ⟨x, hx, hp⟩ := hafter.balanced.exists_request (.inl hrecorded)
      refine hperm.mem_iff.1 ?_
      rw [← hhanded]
      exact mem_flatMap.2 ⟨x, hx, hp⟩
    · rw [← hall]
      exact (hafter.lasts Store.lasts_conclusive).orderly
  · rw [store_hearAll]
    exact hafter
  · rw [hhanded, promisedIn_hearAll]
    exact hperm
  · intro id q hq
    obtain heq | hq := mem_cons.1 hq
    · exact absurd (congrArg Prod.snd heq).symm (hrule q)
    · exact hrules id q hq

end Session
end Elaboration
