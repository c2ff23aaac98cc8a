import Mathlib.Data.List.Pairwise
import Elaboration.Proofs.Obligation.Closing
import Elaboration.Proofs.Obligation.Standing

/-!
# When a store is solved

The count of failures is zero exactly as long as every equation, application and side condition that
was answered was solved. A rule that is overtaken, because its head has another rule by then, is not
counted.
-/

namespace Elaboration

open Event List Table

namespace Table

variable {α : Type} {t : Table α}

private theorem get?_cons (x : Nat × α) (rest : List (Nat × α)) (id : Nat) :
    (⟨x :: rest⟩ : Table α).get? id = if x.1 = id then some x.2 else (⟨rest⟩ : Table α).get? id :=
  rfl

theorem notMem_keys_of_get? {id : Nat} (h : t.get? id = none) : id ∉ t.keys := by
  obtain ⟨entries⟩ := t
  induction entries with
  | nil => exact not_mem_nil
  | cons x rest ih =>
    rw [get?_cons] at h
    split at h
    · cases h
    · next hne => exact fun hmem => (mem_cons.1 hmem).elim (fun heq => hne heq.symm) (ih h)

theorem entries_eq_nil (h : ∀ id, t.get? id = none) : t.entries = [] :=
  eq_nil_iff_forall_not_mem.2 fun x hx =>
    notMem_keys_of_get? (h x.1) (mem_map_of_mem hx)

end Table

namespace Store

/-- A relation between the requests so far, what was recorded and the store, which every history
keeps. -/
structure Lasts (I : List (Nat × Request) → List Event → Store → Prop) : Prop where
  initial : ∀ k, I [] [] (initial k)
  logged : ∀ {log events s} x, I log events s → I (x :: log) events s
  pose : ∀ {log events s r o es}, r.obligation? = some (o, es) → s.Balanced log events →
    I log events s → I ((s.nextId, r) :: log) events (s.posing o es)
  settle : ∀ {log events new s s' k k' owner out}, s.WellFormed none none (some owner) →
    s.Recorded log → StoreM.Resolved owner out s k s' k' → k'.journal = new ++ k.journal →
    I log events s → I log (new ++ events) s'
  /-- What is not about obligations, and leaves the count of failures as it is, does not matter. -/
  quiet : ∀ {log events new s s'}, (∀ e ∈ new, e.obligation? = none) → s'.failed = s.failed →
    (∀ id, s'.obligations.get? id = s.obligations.get? id) → I log events s →
    I log (new ++ events) s'

end Store

namespace StoreM

open Store

variable {I : List (Nat × Request) → List Event → Store → Prop} {log : List (Nat × Request)}
  {events : List Event} {s s' : Store} {k : Kernel} {c c' : Config}

private theorem Move.failed_eq (h : Move c c')
    (hphase : ∀ owner out, c.phase ≠ .settling owner out) :
    c'.store.failed = c.store.failed := by
  cases h with
  | wake =>
    obtain ⟨nodes, ready, hwoken⟩ := Store.exists_woken_eq _ _
    rw [hwoken]
  | actDerived _ _ hs' =>
    rw [hs', withChildren, withAll_eq]
    rfl
  | settle => exact absurd rfl (hphase _ _)
  | _ => rfl

private theorem Move.quiet (h : Move c c') (hc : c.Ordered)
    (hphase : ∀ owner out, c.phase ≠ .settling owner out) :
    c'.store.obligations = c.store.obligations ∧ ∃ new,
      c'.kernel.journal = new ++ c.kernel.journal ∧ ∀ e ∈ new, e.obligation? = none := by
  cases h.effect hc with
  | silent hs =>
    refine ⟨hs.obligations, ?_⟩
    obtain hk | ⟨count, hk⟩ := hs.kernel
    · exact ⟨[], by rw [hk]; rfl, nofun⟩
    · exact ⟨[.waking count], by rw [hk]; rfl, by simp [obligation?]⟩
  | @step i _ v _ _ hstep hk hsame =>
    obtain ⟨new, hjournal, hnew⟩ := hstep.extends.quiet
    refine ⟨hsame, .stepped i v :: new, ?_, ?_⟩
    · rw [hk, Kernel.noted, hjournal, cons_append]
    · exact forall_mem_cons.2 ⟨rfl, fun e he => obligation?_eq_none (hnew e he)⟩
  | settle heq => exact absurd heq (hphase _ _)

private theorem Move.lasts (hI : Lasts I) (hm : Move c c') (hc : c.Ordered)
    (hlog : c.store.Recorded log) (h : I log events c.store) :
    ∃ new, c'.kernel.journal = new ++ c.kernel.journal ∧ I log (new ++ events) c'.store := by
  by_cases hphase : ∀ owner out, c.phase ≠ .settling owner out
  · obtain ⟨hsame, new, hnew, hquiet⟩ := hm.quiet hc hphase
    refine ⟨new, hnew, hI.quiet hquiet (hm.failed_eq hphase) (fun id => ?_) h⟩
    rw [hsame]
  · obtain ⟨phase, s, k⟩ := c
    simp only [not_forall, ne_eq, not_not] at hphase
    obtain ⟨owner, out, rfl⟩ := hphase
    cases hm with
    | settle hr =>
      obtain ⟨new, hnew, _⟩ := hr.conserves hc hlog
      exact ⟨new, hnew, hI.settle hc hlog hr hnew h⟩

theorem Moves.lasts (hI : Lasts I) (hm : Moves c c') (hc : c.Ordered)
    (hlog : c.store.Recorded log) (h : I log events c.store) :
    ∃ new, c'.kernel.journal = new ++ c.kernel.journal ∧ I log (new ++ events) c'.store := by
  induction hm with
  | refl => exact ⟨[], rfl, h⟩
  | tail hmoves hmove ih =>
    obtain ⟨new, hjournal, h'⟩ := ih
    obtain ⟨new', hjournal', h''⟩ :=
      hmove.lasts hI (Moves.ordered hmoves hc) (Moves.conserves hmoves hc hlog).2 h'
    refine ⟨new' ++ new, ?_, by rwa [append_assoc]⟩
    rw [hjournal', hjournal, append_assoc]

private theorem lasts_of_perform {r : Request} {k' : Kernel} (hI : Lasts I)
    (hs : s.Balanced log events) (h : I log events s) (hr : r.perform s k = .ok ((), s') k') :
    ∃ new, k'.journal = new ++ k.journal ∧ I ((s.nextId, r) :: log) (new ++ events) s' := by
  cases done_of_perform hs.ordered hr with
  | pose hobligation hs' hk =>
    subst hs' hk
    exact ⟨[], rfl, hI.pose hobligation hs h⟩
  | register hs' hk =>
    subst hs' hk
    have hnothing : ∀ e ∈ ([] : List Event), e.obligation? = none := nofun
    exact ⟨[], rfl, hI.logged _ (hI.quiet (s := s) hnothing rfl (fun _ => rfl) h)⟩
  | run hrest =>
    obtain ⟨new, hnew, h'⟩ := Moves.lasts hI hrest hs.ordered hs.recorded h
    exact ⟨new, hnew, hI.logged _ h'⟩
  | close =>
    obtain ⟨s1, k1, hempty, rfl, rfl⟩ := (ends_close_emptied hs.ordered hs.recorded).of_ok hr
    obtain ⟨new, hnew, h'⟩ := Moves.lasts hI hempty.moves hs.ordered hs.recorded h
    refine ⟨.closed (closed s1).failed :: new, by rw [Kernel.noted, hnew]; rfl, hI.logged _ ?_⟩
    have hnone := hempty.get?_obligations hs.ordered
    have hclosed : ∀ e ∈ [Event.closed (closed s1).failed], e.obligation? = none := by
      simp [obligation?]
    have hfailed : (closed s1).failed = s1.failed := by
      rw [closed, size, entries_eq_nil hnone]
      rfl
    have hsame : ∀ id, (closed s1).obligations.get? id = s1.obligations.get? id := by
      intro id
      rw [hnone, closed, get?_empty]
    have hlast := hI.quiet hclosed hfailed hsame h'
    exact hlast

end StoreM

/-- What posing and settling keep is kept along every history. -/
theorem Store.History.lasts {I : List (Nat × Request) → List Event → Store → Prop}
    {log : List (Nat × Request)} {events : List Event} {s : Store} (hI : Lasts I)
    (h : History log events s) : I log events s := by
  induction h with
  | initial k => exact hI.initial k
  | @perform log events new s s' k k' r hbefore hr hnew ih =>
    obtain ⟨new', hnew', h'⟩ := StoreM.lasts_of_perform hI hbefore.balanced ih hr
    cases append_cancel_right (hnew.symm.trans hnew')
    exact h'

variable {events : List Event}

open Request StoreM

private theorem mem_answeredIn {p : Promise} :
    p ∈ answeredIn events ↔ ∃ a, .settled a ∈ events ∧ a.promise = p := by
  rw [← map_promise_answersIn, mem_map]
  simp only [mem_answersIn]

/-- Whether the answer is no failure of an equation, an application or a side condition. -/
def Settlement.succeeds : Settlement → Bool
  | equation _ out => out.isSolved
  | application _ out _ => out.isSolved
  | condition _ _ out => out.isSolved
  | commitment _ _ => true

/-- All answers among events are of equations, applications and side conditions that were solved, or
about rules. -/
def Succeeding (events : List Event) : Prop := ∀ a, .settled a ∈ events → a.succeeds

private theorem succeeding_iff :
    Succeeding events ↔ ∀ a ∈ answersIn events, a.succeeds := by
  simp only [Succeeding, mem_answersIn]

private theorem succeeding_append {new events : List Event} :
    Succeeding (new ++ events) ↔ Succeeding new ∧ Succeeding events := by
  simp only [Succeeding, mem_append, or_imp, forall_and]

private theorem succeeding_of_quiet {new : List Event} (h : ∀ e ∈ new, e.obligation? = none) :
    Succeeding new :=
  fun _ ha => nomatch (h _ ha)

namespace Request

variable {p : Promise} {id : Nat}

/-- All that was requested was answered with success: an equation, a cast or an application was
solved, and a rule with all its side conditions installed. -/
def Succeeds (events : List Event) (id : Nat) : Request → Prop
  | equation _ | cast _ => .settled (.equation id .solved) ∈ events
  | application _ => ∃ wasFunction, .settled (.application id .solved wasFunction) ∈ events
  | rule q => (∀ slot ∈ q.slots, .settled (.condition id slot .solved) ∈ events) ∧
      .settled (.commitment id true) ∈ events
  | _ => True

/-- A rule was requested that was not installed although all its side conditions were solved,
because its head had another rule. -/
def Overtaken (events : List Event) (id : Nat) : Request → Prop
  | rule q => (∀ slot ∈ q.slots, .settled (.condition id slot .solved) ∈ events) ∧
      .settled (.commitment id false) ∈ events ∧
      ∃ head, q.rule.head = .decl head ∧ .ruleOvertaken head ∈ events
  | _ => False

private theorem mem_promises_rule {q : RuleRequest} :
    p ∈ (rule q).promises id ↔ (∃ slot ∈ q.slots, p = .condition id slot) ∨ p = .commitment id := by
  simp only [promises, RuleRequest.slots, mem_append, mem_map, mem_cons, not_mem_nil, or_false]
  constructor
  · rintro (⟨i, hi, rfl⟩ | rfl | rfl)
    · exact .inl ⟨_, .inl ⟨i, hi, rfl⟩, rfl⟩
    · exact .inl ⟨_, .inr rfl, rfl⟩
    · exact .inr rfl
  · rintro (⟨slot, ⟨i, hi, rfl⟩ | rfl, rfl⟩ | rfl)
    · exact .inl ⟨i, hi, rfl⟩
    · exact .inr (.inl rfl)
    · exact .inr (.inr rfl)

private theorem exists_answer {events : List Event} {r : Request}
    (h : r.Succeeds events id ∨ r.Overtaken events id) (hp : p ∈ r.promises id) :
    ∃ a, .settled a ∈ events ∧ a.promise = p ∧ a.succeeds := by
  cases r with
  | equation | cast =>
    cases mem_singleton.1 hp
    exact ⟨_, h.resolve_right False.elim, rfl, rfl⟩
  | application =>
    cases mem_singleton.1 hp
    obtain ⟨wasFunction, h⟩ := h.resolve_right False.elim
    exact ⟨_, h, rfl, rfl⟩
  | rule q =>
    obtain ⟨slot, hslot, rfl⟩ | rfl := mem_promises_rule.1 hp
    · exact ⟨_, h.elim (fun h => h.1 slot hslot) fun h => h.1 slot hslot, rfl, rfl⟩
    · obtain h | h := h
      · exact ⟨_, h.2, rfl, rfl⟩
      · exact ⟨_, h.2.1, rfl, rfl⟩
  | _ => cases hp

end Request

namespace Store

/-- What the count of failures tells about the answers so far. -/
structure Tallied (log : List (Nat × Request)) (events : List Event) (s : Store) : Prop where
  counted : s.failed = 0 ↔ Succeeding events
  refused : ∀ id p, s.obligations.get? id = some (.rule p) → p.undecided = false → s.failed ≠ 0
  overtaken : ∀ id, s.failed = 0 → .settled (.commitment id false) ∈ events →
    ∃ q head, (id, .rule q) ∈ log ∧ q.rule.head = .decl head ∧ .ruleOvertaken head ∈ events

variable {log : List (Nat × Request)} {new : List Event} {s s' : Store}

private theorem Tallied.quiet (h : s.Tallied log events) (hnew : ∀ e ∈ new, e.obligation? = none)
    (hfailed : s'.failed = s.failed)
    (hrules : ∀ id p, s'.obligations.get? id = some (.rule p) → p.undecided = false →
      s.obligations.get? id = some (.rule p)) :
    s'.Tallied log (new ++ events) where
  counted := by
    rw [hfailed, h.counted, succeeding_append]
    exact (and_iff_right (succeeding_of_quiet hnew)).symm
  refused id p hp hdecided := by
    rw [hfailed]
    exact h.refused id p (hrules id p hp hdecided) hdecided
  overtaken id hzero hmem := by
    rw [hfailed] at hzero
    have hold := (mem_append.1 hmem).resolve_left fun hmem => nomatch (hnew _ hmem)
    obtain ⟨q, head, hq, hhead, hovertaken⟩ := h.overtaken id hzero hold
    exact ⟨q, head, hq, hhead, mem_append_right _ hovertaken⟩

end Store

namespace StoreM

open Store

variable {log : List (Nat × Request)} {new : List Event} {s s' : Store} {k k' : Kernel}
  {owner : Owner} {out : Outcome} {p : RuleProgress}

/-! ### Settling -/

private theorem undecided_of_failed_eq_zero {id : Nat} (h : s.Tallied log events)
    (hp : s.obligations.get? id = some (.rule p)) (hzero : s.failed = 0) : p.undecided = true :=
  Bool.not_eq_false _ ▸ fun hdecided => h.refused id p hp hdecided hzero

private theorem Tallied.of_settled (h : s.Tallied log events) (hle : s.failed ≤ s'.failed)
    (hcount : s.failed = 0 → (s'.failed = 0 ↔ Succeeding new))
    (hrefused : ∀ id p, s'.obligations.get? id = some (.rule p) → p.undecided = false →
      s.failed = 0 → s'.failed ≠ 0)
    (hovertaken : ∀ id, s'.failed = 0 → .settled (.commitment id false) ∈ new →
      ∃ q head, (id, .rule q) ∈ log ∧ q.rule.head = .decl head ∧ .ruleOvertaken head ∈ new) :
    s'.Tallied log (new ++ events) where
  counted := by
    rw [succeeding_append, ← h.counted]
    constructor
    · intro hzero
      have hbefore : s.failed = 0 := by omega
      exact ⟨(hcount hbefore).1 hzero, hbefore⟩
    · rintro ⟨hnew, hbefore⟩
      exact (hcount hbefore).2 hnew
  refused id p hp hdecided := by
    by_cases hbefore : s.failed = 0
    · exact hrefused id p hp hdecided hbefore
    · omega
  overtaken id hzero hmem := by
    have hbefore : s.failed = 0 := by omega
    obtain hmem | hmem := mem_append.1 hmem
    · obtain ⟨q, head, hq, hhead, h⟩ := hovertaken id hzero hmem
      exact ⟨q, head, hq, hhead, mem_append_left _ h⟩
    · obtain ⟨q, head, hq, hhead, h⟩ := h.overtaken id hbefore hmem
      exact ⟨q, head, hq, hhead, mem_append_right _ h⟩

private theorem Tallied.of_answer (failure : Bool) (h : s.Tallied log events)
    (hfailed : s'.failed = s.failed + failure.toNat) (hanswers : Succeeding new ↔ failure = false)
    (hcommitment : ∀ id, .commitment id false ∉ answersIn new)
    (hrules : ∀ id p, s'.obligations.get? id = some (.rule p) →
      s.obligations.get? id = some (.rule p)) :
    s'.Tallied log (new ++ events) := by
  refine Tallied.of_settled h (by omega) (fun hzero => ?_) ?_ ?_
  · rw [hanswers, hfailed, hzero]
    cases failure <;> simp
  · intro id p hp hdecided hzero
    exact absurd hzero (h.refused id p (hrules id p hp) hdecided)
  · intro id _ hmem
    exact absurd (mem_answersIn.2 hmem) (hcommitment id)

private theorem Tallied.of_condition {outstanding : Nat} (more : List Settlement)
    (h : s.Tallied log events) (hs : s.WellFormed none none (some owner))
    (hp : s.obligations.get? owner.obligation = some (.rule p))
    (hanswers : answersIn new = more ++ conditionAnswers owner p out)
    (hmore : ∀ a ∈ more, a.succeeds) (hovertaken : ∀ id, .commitment id false ∈ more →
      ∃ q head, (id, .rule q) ∈ log ∧ q.rule.head = .decl head ∧ .ruleOvertaken head ∈ new) :
    (conditionStore owner p out outstanding (s.without owner.obligation)).Tallied log
      (new ++ events) := by
  rw [conditionAnswers_of_mem (mem_openSlots_of_settling hs hp).1] at hanswers
  have hfailed : (conditionStore owner p out outstanding (s.without owner.obligation)).failed =
      s.failed + (refuses p out).toNat := by
    rw [conditionStore_eq]
    rfl
  have hrefuses : s.failed = 0 → refuses p out = !out.isSolved := by
    intro hzero
    rw [refuses, undecided_of_failed_eq_zero h hp hzero, Bool.and_true]
  refine Tallied.of_settled h (by omega) (fun hzero => ?_) (fun id p' hp' hdecided hzero => ?_) ?_
  · rw [succeeding_iff, hanswers, forall_mem_append, and_iff_right hmore, hfailed, hzero,
      hrefuses hzero]
    cases hout : out.isSolved <;> simp [hout, Settlement.succeeds]
  · simp only [conditionStore_eq] at hp'
    by_cases hid : owner.obligation = id
    · -- the rule was undecided before, so that it was refused just now
      subst hid
      split at hp'
      · rw [get?_set, if_pos rfl] at hp'
        cases hp'
        rw [(undecided_afterCondition ..).1, undecided_of_failed_eq_zero h hp hzero, Bool.true_and,
          Bool.not_eq_false'] at hdecided
        rw [hfailed, hdecided]
        simp
      · simp at hp'
    · have hold : s.obligations.get? id = some (.rule p') := by
        split at hp' <;> simpa [without, get?_set, get?_erase, hid] using hp'
      exact absurd hzero (h.refused id p' hold hdecided)
  · intro id hzero hmem
    rw [← mem_answersIn, hanswers, mem_append] at hmem
    obtain hmem | hmem := hmem
    · exact hovertaken id hmem
    · have hnot : refuses p out = false := by
        rw [hfailed] at hzero
        cases hrefused : refuses p out <;> simp_all
      simp [hnot] at hmem

private theorem Resolved.tallied (hr : Resolved owner out s k s' k')
    (hs : s.WellFormed none none (some owner)) (hlog : s.Recorded log) (h : s.Tallied log events)
    (hnew : k'.journal = new ++ k.journal) : s'.Tallied log (new ++ events) := by
  have hrules : (∀ p, s'.obligations.get? owner.obligation ≠ some (.rule p)) → ∀ id p,
      s'.obligations.get? id = some (.rule p) → s.obligations.get? id = some (.rule p) := by
    intro hnone id p hp
    by_cases hid : owner.obligation = id
    · exact absurd (hid ▸ hp) (hnone p)
    · exact (hr.get?_of_ne hid).symm.trans hp
  obtain ⟨l, hl, hconcludes, _⟩ := hr.concludes
  cases recorded_eq hnew hl
  cases hconcludes with
  | onward _ ha hfailed hanswers =>
    refine Tallied.of_answer false h hfailed ?_ ?_ (hrules fun p hp => ?_)
    · simp [succeeding_iff, hanswers]
    · simp [hanswers]
    · exact nomatch ha.symm.trans hp
  | answer _ hnone hfailed _ ha hanswers =>
    refine Tallied.of_answer _ h hfailed ?_ ?_ (hrules fun p hp => ?_)
    · obtain rfl | ⟨_, rfl⟩ := ha <;> simp [succeeding_iff, hanswers, Settlement.succeeds]
    · obtain rfl | ⟨_, rfl⟩ := ha <;> simp [hanswers]
    · exact nomatch hnone.symm.trans hp
  | condition ho _ _ hs' hanswers =>
    subst hs'
    exact Tallied.of_condition [] h hs ho hanswers nofun nofun
  | decided installed ho _ hdecides hs' hanswers hovertaken =>
    subst hs'
    obtain ⟨q, hq, hposes⟩ := hlog ho
    cases hposes with
    | rule q _ honly =>
      cases honly _ (request_of_afterCondition hdecides.1)
      refine Tallied.of_condition [.commitment owner.obligation installed] h hs ho hanswers
        (by simp [Settlement.succeeds]) fun id hmem => ?_
      cases mem_singleton.1 hmem
      obtain ⟨head, hhead, hmem⟩ := hovertaken rfl
      exact ⟨_, head, hq, hhead, hmem⟩

end StoreM

namespace Store

variable {log : List (Nat × Request)} {s : Store} {p : Promise} {id : Nat}

private theorem Tallied.logged (x : Nat × Request) (h : s.Tallied log events) :
    s.Tallied (x :: log) events := by
  refine ⟨h.counted, h.refused, fun id hzero hmem => ?_⟩
  obtain ⟨q, head, hq, h⟩ := h.overtaken id hzero hmem
  exact ⟨q, head, mem_cons_of_mem _ hq, h⟩

/-- Every history keeps the tally. -/
theorem lasts_tallied : Lasts Tallied where
  initial _ := ⟨iff_of_true rfl nofun, nofun, nofun⟩
  logged x h := h.logged x
  pose {log events s r o es} hr _ h := by
    have hundecided : ∀ p, o = .rule p → p.undecided := by
      rintro p rfl
      cases r with
      | rule q =>
        cases hr
        rfl
      | _ => cases hr
    suffices hposed : (s.posing o es).Tallied log events from hposed.logged _
    have hnothing : ∀ e ∈ ([] : List Event), e.obligation? = none := forall_mem_nil _
    refine h.quiet hnothing (by rw [posing, withAll_eq]; rfl) fun id p hp hdecided => ?_
    rw [get?_posing] at hp
    split at hp
    · cases hdecided.symm.trans (hundecided p (Option.some.inj hp))
    · exact hp
  settle hs hlog hr hnew h := hr.tallied hs hlog h hnew
  quiet hnew hfailed hsame h := h.quiet hnew hfailed fun id p hp _ => (hsame id).symm.trans hp

/-- An obligation that is left has an open promise besides that of its rule. -/
theorem exists_mem_promises (hs : s.WellFormed none none none) {o : Obligation}
    (ho : s.obligations.get? id = some o) :
    ∃ p ∈ s.promises id, ∀ n, p ≠ .commitment n := by
  rw [promises_of_get? ho]
  cases o with
  | rule p =>
    obtain ⟨slots, hw, _⟩ := hs.posed.waits ho
    cases hw with
    | rule _ hlength hpos =>
      obtain ⟨slot, hslot⟩ := exists_mem_of_length_pos (hlength ▸ hpos)
      exact ⟨_, mem_append_left _ (mem_map_of_mem hslot), nofun⟩
  | _ => exact ⟨_, mem_singleton.2 rfl, nofun⟩

private theorem Balanced.request_unique (h : s.Balanced log events) {r r' : Request}
    (hr : (id, r) ∈ log) (hr' : (id, r') ∈ log) (hp : p ∈ r.promises id)
    (hp' : p ∈ r'.promises id) : r = r' := by
  by_contra hne
  have hsymm : Std.Symm (Function.onFun Disjoint fun x : Nat × Request => x.2.promises x.1) :=
    ⟨fun _ _ hd _ hp hp' => hd hp' hp⟩
  have hdisjoint := (nodup_flatMap.1 h.nodup).2.forall hr hr' fun heq =>
    hne (congrArg Prod.snd heq)
  exact hdisjoint hp hp'

/-- Once no obligation is left, every promise was answered. -/
theorem Balanced.exists_answer (h : s.Balanced log events) (hempty : s.obligations.entries = [])
    (hp : p ∈ handed log) : ∃ a, .settled a ∈ events ∧ a.promise = p := by
  have hnone : s.obligations.get? p.obligation = none :=
    Option.eq_none_iff_forall_ne_some.2 fun o ho => nomatch hempty ▸ mem_of_get? ho
  have hcount := h.count p
  rw [promises_of_none hnone, count_nil, Nat.add_zero] at hcount
  exact mem_answeredIn.1 (count_pos_iff.1 (hcount ▸ count_pos_iff.2 hp))

/-- Every promise that is open or answered was handed out with a request. -/
theorem Balanced.exists_request (h : s.Balanced log events)
    (hp : p ∈ answeredIn events ∨ p ∈ s.promises p.obligation) :
    ∃ x ∈ log, p ∈ x.2.promises x.1 := by
  have hcount := h.count p
  rw [← count_pos_iff, ← count_pos_iff] at hp
  exact mem_flatMap.1 (count_pos_iff.1 (show 0 < (handed log).count p by omega))

private theorem succeeds_of_answers {r : Request} (hs : s.Balanced log events)
    (ht : s.Tallied log events) (hzero : s.failed = 0) (hr : (id, r) ∈ log)
    (h : ∀ p ∈ r.promises id, ∃ a, .settled a ∈ events ∧ a.promise = p) :
    r.Succeeds events id ∨ r.Overtaken events id := by
  have hsucceeding := ht.counted.1 hzero
  cases r with
  | equation e | cast c =>
    obtain ⟨a, ha, hpromise⟩ := h _ (mem_singleton.2 rfl)
    cases a with
    | equation id' out =>
      cases hpromise
      cases Outcome.eq_solved (hsucceeding _ ha)
      exact .inl ha
    | _ => cases hpromise
  | application a =>
    obtain ⟨a, ha, hpromise⟩ := h _ (mem_singleton.2 rfl)
    cases a with
    | application id' out wasFunction =>
      cases hpromise
      cases Outcome.eq_solved (hsucceeding _ ha)
      exact .inl ⟨wasFunction, ha⟩
    | _ => cases hpromise
  | rule q =>
    have hconditions : ∀ slot ∈ q.slots, .settled (.condition id slot .solved) ∈ events := by
      intro slot hslot
      obtain ⟨a, ha, hpromise⟩ := h _ (mem_promises_rule.2 (.inl ⟨slot, hslot, rfl⟩))
      cases a with
      | condition id' slot' out =>
        cases hpromise
        cases Outcome.eq_solved (hsucceeding _ ha)
        exact ha
      | _ => cases hpromise
    have hcommitment : .commitment id ∈ (rule q).promises id :=
      mem_promises_rule.2 (.inr rfl)
    obtain ⟨a, ha, hpromise⟩ := h _ hcommitment
    cases a with
    | commitment id' installed =>
      cases hpromise
      cases installed with
      | true => exact .inl ⟨hconditions, ha⟩
      | false =>
        obtain ⟨q', head, hq', hhead, hovertaken⟩ := ht.overtaken id hzero ha
        cases hs.request_unique hr hq' hcommitment (mem_promises_rule.2 (.inr rfl))
        exact .inr ⟨hconditions, ha, head, hhead, hovertaken⟩
    | _ => cases hpromise
  | _ => exact .inl trivial

/-- A store is solved exactly if every obligation was settled, each with success unless it is a rule
whose head got another rule first. -/
theorem History.isSolved_iff (h : History log events s) : s.isSolved = true ↔
      ∀ x ∈ log, x.2.Succeeds events x.1 ∨ x.2.Overtaken events x.1 := by
  have hbalanced := h.balanced
  have htallied := h.lasts lasts_tallied
  rw [isSolved, Bool.and_eq_true, decide_eq_true_iff, Table.isEmpty, List.isEmpty_iff]
  constructor
  · rintro ⟨hzero, hempty⟩ ⟨id, r⟩ hr
    refine succeeds_of_answers hbalanced htallied hzero hr fun p hp => ?_
    exact hbalanced.exists_answer hempty (mem_flatMap.2 ⟨_, hr, hp⟩)
  · intro hall
    constructor
    · refine htallied.counted.2 fun a ha => ?_
      obtain ⟨x, hx, hp⟩ := hbalanced.exists_request (.inl (promise_mem_answeredIn ha))
      obtain ⟨b, hb, hpromise, hsucceeds⟩ := Request.exists_answer (hall x hx) hp
      rwa [hbalanced.answer_unique ha hb hpromise.symm]
    · refine Table.entries_eq_nil fun id => Option.eq_none_iff_forall_ne_some.2 fun o ho => ?_
      obtain ⟨p, hp, _⟩ := exists_mem_promises hbalanced.ordered ho
      cases obligation_of_mem_promises hp
      obtain ⟨x, hx, hmem⟩ := hbalanced.exists_request (.inr hp)
      obtain ⟨a, ha, rfl, _⟩ := Request.exists_answer (hall x hx) hmem
      exact hbalanced.not_answered hp ha

/-- A rule without checks that makes a declaration stand for a term. -/
def plainRule (head : Nat) (value : Term) : RuleRequest where
  telescope := ⟨[], Primitive.type, Primitive.identity, 0⟩
  rule := .lambda (.decl head) 0 value
  checks := []
  patternType := Primitive.type
  replacementType := Primitive.type

/-- Two rules are requested for one declaration: the second is not installed, and the store is
solved. -/
theorem isSolved_of_overtaken : ∃ log events s, History log events s ∧
    (∃ id, .settled (.commitment id true) ∈ events) ∧
    (∃ id, .settled (.commitment id false) ∈ events) ∧ s.isSolved = true ∧
    ∀ x ∈ log, x.2.Succeeds events x.1 ∨ x.2.Overtaken events x.1 := by
  let start : Kernel := { twoUnknowns with journal := [] }
  obtain ⟨⟨log, s⟩, k, hperformed, hsolved, ⟨e, he, hinstalled⟩, e', he', hrefused⟩ :
      ∃ x k, performAll [.rule (plainRule 10 Primitive.type),
        .rule (plainRule 10 Primitive.arrow), .run] [] (initial start) start = .ok x k ∧
      x.2.isSolved ∧ (∃ e ∈ k.journal, e.decided? true = some 0) ∧
      ∃ e ∈ k.journal, e.decided? false = some 2 := by decide +kernel
  obtain ⟨new, hnew, hhistory⟩ := ((History.initial start).of_performAll _ start).of_ok hperformed
  rw [append_nil] at hnew hhistory
  cases Event.eq_of_decided? hinstalled
  cases Event.eq_of_decided? hrefused
  exact ⟨log, new, s, hhistory, ⟨0, hnew ▸ he⟩, ⟨2, hnew ▸ he'⟩, hsolved,
    hhistory.isSolved_iff.1 hsolved⟩

end Store
end Elaboration
