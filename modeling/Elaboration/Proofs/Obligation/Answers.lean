import Elaboration.Proofs.Obligation.Tally

/-!
# The order of answers

The side condition at which a rule is refused is answered before the rule is, and once a rule was
refused although no side condition had failed, none of them fails later. Only closing answers that
equations are undecided.
-/

namespace Elaboration

open EndsWith List Settlement StoreM

namespace Settlement

/-- Whether the answer is that a side condition of a rule failed. -/
def refutes (id : Nat) : Settlement → Bool
  | condition id' _ out => id' = id && !out.isSolved
  | _ => false

/-- Whether the answer, one of `answers`, is a failure of its own, as of a rule only if all its side
conditions were solved. -/
def fails (answers : List Settlement) : Settlement → Bool
  | equation _ out => !out.isSolved
  | application _ out _ => !out.isSolved
  | condition _ _ out => !out.isSolved
  | commitment id installed => !installed && !answers.any (refutes id)

end Settlement

/-- Answers, latest first, in which no side condition is the first of its rule to fail after the
rule was refused. -/
def Orderly : List Settlement → Prop
  | [] => True
  | a :: earlier => Orderly earlier ∧
    ∀ id, a.refutes id → .commitment id false ∈ earlier → earlier.any (Settlement.refutes id)

/-- A new answer changes nothing about which of the earlier ones are failures. -/
theorem Orderly.filter_cons {a : Settlement} {earlier : List Settlement}
    (h : Orderly (a :: earlier)) :
    (a :: earlier).filter (fails (a :: earlier)) =
      (if a.fails earlier then [a] else []) ++ earlier.filter (fails earlier) := by
  have hself : a.fails (a :: earlier) = a.fails earlier := by
    cases a <;> simp [fails, refutes]
  have hsame : ∀ b ∈ earlier, b.fails (a :: earlier) = b.fails earlier := by
    intro b hb
    cases b with
    | commitment id installed =>
      cases installed with
      | true => simp [fails]
      | false =>
        have hlate := h.2 id
        rw [fails, fails, any_cons]
        cases ha : a.refutes id with
        | false => simp
        | true => simp [hlate ha hb]
    | _ => rfl
  rw [List.filter_cons, hself, List.filter_congr hsame]
  split <;> rfl

namespace Store

/-- The answers so far are in order, and a rule that was refused although no side condition failed
is settled. -/
structure Conclusive (log : List (Nat × Request)) (events : List Event) (s : Store) : Prop where
  orderly : Orderly (answersIn events)
  final : ∀ id, .commitment id false ∈ answersIn events →
    (answersIn events).any (Settlement.refutes id) ∨ s.obligations.get? id = none

variable {log : List (Nat × Request)} {events new : List Event} {s s' : Store} {k k' : Kernel}
  {owner : Owner} {out : Outcome}

private theorem Conclusive.settle (h : s.Conclusive log events)
    (hs : s.WellFormed none none (some owner)) (hr : Resolved owner out s k s' k')
    (hnew : k'.journal = new ++ k.journal) : s'.Conclusive log (new ++ events) := by
  -- a rule that is being settled was not refused without a failed side condition
  have hcondition : ∀ {p}, s.obligations.get? owner.obligation = some (.rule p) →
      Orderly (.condition owner.obligation owner.slot out :: answersIn events) := by
    intro p hp
    refine ⟨h.orderly, fun id hid hrefused => ?_⟩
    rw [refutes, Bool.and_eq_true, decide_eq_true_iff] at hid
    cases hid.1
    exact (h.final _ hrefused).resolve_right fun hnone => by cases hnone.symm.trans hp
  have hold : ∀ id, .commitment id false ∈ answersIn events →
      (answersIn (new ++ events)).any (refutes id) ∨ s'.obligations.get? id = none := by
    intro id hmem
    obtain hrefuted | hnone := h.final id hmem
    · rw [answersIn_append, any_append, hrefuted, Bool.or_true]
      exact .inl rfl
    · obtain ⟨o, ho⟩ := hr.exists_obligation
      have hne : owner.obligation ≠ id := fun heq => by cases (heq ▸ ho).symm.trans hnone
      exact .inr ((hr.get?_of_ne hne).trans hnone)
  have hanswers : ∀ {p}, s.obligations.get? owner.obligation = some (.rule p) →
      Orderly (conditionAnswers owner p out ++ answersIn events) ∧
      ∀ id, .commitment id false ∈ conditionAnswers owner p out →
        (conditionAnswers owner p out).any (refutes id) := by
    intro p hp
    rw [conditionAnswers_of_mem (mem_openSlots_of_settling hs hp).1]
    cases hrefuses : refuses p out with
    | false => exact ⟨hcondition hp, fun id hmem => by cases mem_singleton.1 hmem⟩
    | true =>
      rw [refuses, Bool.and_eq_true, Bool.not_eq_true'] at hrefuses
      refine ⟨⟨hcondition hp, fun _ h => by cases h⟩, fun id hmem => ?_⟩
      have heq : id = owner.obligation := by simpa using hmem
      simp [refutes, hrefuses.1, heq]
  obtain ⟨l, hl, hconcludes, _⟩ := hr.concludes
  cases recorded_eq hnew hl
  refine ⟨?_, fun id hmem => ?_⟩
  · rw [answersIn_append]
    cases hconcludes with
    | onward _ _ _ has =>
      rw [has]
      exact h.orderly
    | answer _ _ _ _ ha has =>
      rw [has]
      obtain rfl | ⟨_, rfl⟩ := ha <;> exact ⟨h.orderly, fun _ h => by cases h⟩
    | condition hp _ _ _ has =>
      rw [has]
      exact (hanswers hp).1
    | decided _ hp _ _ _ has =>
      rw [has]
      exact ⟨(hanswers hp).1, fun _ h => by cases h⟩
  · rw [answersIn_append] at hmem
    refine (mem_append.1 hmem).elim (fun hmem => ?_) (hold id)
    suffices hfinal : (answersIn new).any (refutes id) ∨
        s'.obligations.get? id = none from hfinal.imp_left fun hrefuted => by
      rw [answersIn_append, any_append, hrefuted, Bool.true_or]
    cases hconcludes with
    | onward _ _ _ has => simp [has] at hmem
    | answer _ _ _ _ ha has => obtain rfl | ⟨_, rfl⟩ := ha <;> simp [has] at hmem
    | condition hp _ _ _ has =>
      rw [has] at hmem ⊢
      exact .inl ((hanswers hp).2 id hmem)
    | decided _ hp _ _ hs' has =>
      rw [has] at hmem ⊢
      obtain heq | hmem := mem_cons.1 hmem
      · cases heq
        exact .inr (by simp [hs', without, Table.get?_erase])
      · exact .inl (any_cons .. ▸ (Bool.or_eq_true_iff.2 (.inr ((hanswers hp).2 id hmem))))

/-- What is answered was requested before. -/
theorem Balanced.lt_of_answered (h : s.Balanced log events) {a : Settlement}
    (ha : a ∈ answersIn events) : a.promise.obligation < s.nextId := by
  obtain ⟨x, hx, hp⟩ := h.exists_request (.inl (promise_mem_answeredIn (mem_answersIn.1 ha)))
  exact h.made _ (mem_flatMap.2 ⟨x, hx, hp⟩)

/-- Along every history the answers are in order. -/
theorem lasts_conclusive : Lasts Conclusive where
  initial _ := ⟨trivial, nofun⟩
  logged _ h := ⟨h.orderly, h.final⟩
  pose {log events s r o es} hr hbalanced h := by
    refine ⟨h.orderly, fun id hmem => ?_⟩
    refine (h.final id hmem).imp_right fun hnone => ?_
    -- the new obligation has another number
    have hlt : id < s.nextId := hbalanced.lt_of_answered hmem
    rw [get?_posing, if_neg hlt.ne', hnone]
  settle hs _ hr hnew h := h.settle hs hr hnew
  quiet hnew _ hsame h := by
    have hnothing := answersIn_of_quiet hnew
    refine ⟨?_, fun id hmem => ?_⟩
    · rw [answersIn_append, hnothing]
      exact h.orderly
    · rw [answersIn_append, hnothing] at hmem ⊢
      rw [hsame]
      exact h.final id hmem

end Store

/-! ### Answers of a run -/

/-- The outcome is not that the equation is undecided. -/
def Outcome.Decided : Outcome → Prop
  | solved => True
  | failed report => report.status = .failed

/-- The answer is not that an equation is undecided. -/
def Settlement.Decided : Settlement → Prop
  | equation _ out => out.Decided
  | application _ out _ => out.Decided
  | condition _ _ out => out.Decided
  | commitment _ _ => True

namespace StoreM

open Store

variable {α β : Type}

/-- Whatever the store was, the action answers nothing about undecided equations. -/
def Decisive (x : StoreM α) : Prop :=
  ∀ s k, EndsWith x s k (fun _ _ k' => ∃ new, k'.journal = new ++ k.journal ∧
    ∀ a ∈ answersIn new, a.Decided) fun _ _ => True

namespace Decisive

private theorem bind {x : StoreM α} {f : α → StoreM β} (hx : Decisive x)
    (hf : ∀ a, Decisive (f a)) :
    Decisive (x >>= f) := by
  intro s k
  refine EndsWith.seq (hx s k) ?_
  rintro a s1 k1 ⟨new, hnew, hdecided⟩
  refine (hf a s1 k1).imp ?_
  rintro b s2 k2 ⟨new', hnew', hdecided'⟩
  refine ⟨new' ++ new, by rw [hnew', hnew, append_assoc], fun c hc => ?_⟩
  rw [answersIn_append] at hc
  exact (mem_append.1 hc).elim (hdecided' c) (hdecided c)

private theorem of_same {x : StoreM α}
    (hx : ∀ s k, EndsWith x s k (fun _ _ k' => k' = k) fun _ _ => True) : Decisive x := by
  intro s k
  refine (hx s k).imp ?_
  rintro a s' k' rfl
  exact ⟨[], rfl, nofun⟩

private theorem pure (a : α) : Decisive (pure a) := of_same fun _ _ => rfl

private theorem throw (e : Stop) : Decisive (throw e : StoreM α) := fun _ _ => trivial

private theorem get : Decisive get := of_same fun _ _ => rfl

private theorem getThe : Decisive (getThe Kernel) := of_same fun _ _ => rfl

private theorem set (s : Store) : Decisive (set s) := of_same fun _ _ => rfl

private theorem modify (g : Store → Store) : Decisive (modify g) := of_same fun _ _ => rfl

private theorem note {e : Event} (he : e.obligation? = none) :
    Decisive (liftM (KernelM.note e) : StoreM Unit) := by
  intro s k
  rw [lift_iff, KernelM.ends_note]
  refine ⟨[e], rfl, ?_⟩
  rw [answersIn_of_quiet (forall_mem_singleton.2 he)]
  exact nofun

private theorem node (i : Nat) : Decisive (node i) :=
  of_same fun _ _ => ends_node (fun _ _ => rfl) fun _ => trivial

private theorem setProgress (i : Nat) (progress : Progress) : Decisive (setProgress i progress) :=
  of_same fun _ _ => ends_setProgress (fun _ _ => rfl) fun _ => trivial

private theorem resolve {owner : Owner} {out : Outcome} (h : out.Decided) :
    Decisive (resolve owner out) := by
  intro s k
  refine (ends_resolve owner out s k).answer ?_
  intro _ s' k' hr
  obtain ⟨new, hnew, hconcludes, _⟩ := hr.concludes
  refine ⟨new, hnew, fun a ha => ?_⟩
  have hconditions : ∀ {p}, a ∈ conditionAnswers owner p out → a.Decided := by
    intro p ha
    obtain rfl | rfl := of_mem_conditionAnswers ha
    · exact h
    · trivial
  cases hconcludes with
  | onward _ _ _ has => simp [has] at ha
  | answer _ _ _ _ hb has =>
    cases mem_singleton.1 (has ▸ ha)
    obtain rfl | ⟨_, rfl⟩ := hb <;> exact h
  | condition _ _ _ _ has => exact hconditions (has ▸ ha)
  | decided _ _ _ _ _ has =>
    obtain rfl | ha := mem_cons.1 (has ▸ ha)
    · trivial
    · exact hconditions ha

private theorem status_reportTree (nodes : Table Node) (depth : Nat) (n : Node) :
    (reportTree nodes depth n .failed).status = .failed := by
  cases depth with
  | zero => rfl
  | succ depth =>
    rw [reportTree]
    exact ite_self _

private theorem removeTree (i : Nat) : Decisive (removeTree i) := modify _

private theorem markSolved (height i : Nat) : Decisive (markSolved height i) := by
  induction height generalizing i with
  | zero => exact throw _
  | succ height ih =>
    unfold StoreM.markSolved
    refine (setProgress i .solved).bind fun _ => (node i).bind fun n => ?_
    split
    · exact (removeTree i).bind fun _ => resolve trivial
    · next above _ =>
      refine (node above).bind fun m => ?_
      split
      · exact fun _ _ => trivial
      · refine (setProgress above _).bind fun _ => ?_
        split
        · exact ih above
        · exact pure _
      · exact pure _

private theorem markFailed (height i : Nat) : Decisive (markFailed height i) := by
  induction height generalizing i with
  | zero => exact throw _
  | succ height ih =>
    unfold StoreM.markFailed
    refine (setProgress i .failed).bind fun _ => (node i).bind fun n => ?_
    split
    · refine get.bind fun s => (removeTree i).bind fun _ => resolve ?_
      exact status_reportTree s.nodes s.nodes.size n
    · next above _ => exact ih above

private theorem actOn (i : Nat) (v : Verdict) : Decisive (actOn i v) := by
  unfold StoreM.actOn
  split
  · exact get.bind fun _ => markSolved _ i
  · exact get.bind fun _ => markFailed _ i
  · exact (setProgress i .stalled).bind fun _ => modify _
  · exact get.bind fun _ => markSolved _ i
  · refine (setProgress i _).bind fun _ => Decisive.bind ?_ fun _ => (node i).bind fun _ => modify _
    refine of_same fun s k => (ends_addChildren i _ s k).mono ?_ fun _ _ h => h.elim
    exact fun _ _ _ h => h.2.2

private theorem process (i : Nat) : Decisive (process i) := by
  refine get.bind fun s => ?_
  split
  · next e _ _ _ =>
    have hstep : Decisive (stepEquation e) := by
      intro s k
      unfold stepEquation
      rw [bind_iff, get_iff, bind_iff, lift_iff]
      refine Ends.of_answer fun x k' hx => ?_
      have hstepped := (Solver.ends_step e s.indeterminates k).of_ok hx
      obtain ⟨new, hnew, hquiet⟩ := hstepped.extends.quiet
      refine ⟨new, hnew, ?_⟩
      rw [answersIn_of_quiet fun e he => Event.obligation?_eq_none (hquiet e he)]
      exact nofun
    exact hstep.bind fun v => (note rfl).bind fun _ => actOn i v
  · exact pure _

private theorem wakeIfRulesChanged : Decisive wakeIfRulesChanged := by
  refine getThe.bind fun k => get.bind fun s => ?_
  split
  · exact pure _
  · split
    · exact (note rfl).bind fun _ => set _
    · exact set _

private theorem runTo (bound : Nat) : Decisive (runTo bound) := by
  induction bound with
  | zero => exact throw _
  | succ bound ih =>
    refine get.bind fun s => ?_
    split
    · next i rest _ =>
      exact (modify _).bind fun _ => (process i).bind fun _ => wakeIfRulesChanged.bind fun _ => ih
    · refine wakeIfRulesChanged.bind fun _ => get.bind fun s => ?_
      split
      · exact pure _
      · exact ih

/-- A run answers that equations are solved or failed. -/
theorem run : Decisive run := getThe.bind fun k => runTo k.limit

end Decisive

end StoreM
end Elaboration
