import Elaboration.Proofs.Obligation.Promises

/-!
# Every promise is kept once

Every promise of a store is answered at most once, and once the store is closed every promise is
answered.
-/

namespace Elaboration

open EndsWith List Request StoreM

/-- The outcome of an equation that was undecided when the store was closed. -/
def Outcome.Undecided : Outcome → Prop
  | solved => False
  | failed report => report.status = .stalled

/-- The answer of an obligation that was undecided when the store was closed. -/
def Settlement.Abandons : Settlement → Prop
  | equation _ out => out.Undecided
  | application _ out _ => out.Undecided
  | condition _ _ out => out.Undecided
  | commitment _ installed => installed = false

/-- An error about a request for a rule whose head is no declaration. -/
def Headless (log : List (Nat × Request)) (e : Stop) : Prop :=
  ∃ id r, (id, .rule r) ∈ log ∧ (∀ head, r.rule.head ≠ .decl head) ∧
    e = .violation (.ruleHeadNotDeclaration r.rule.head)

/-- All answers among events are of obligations that were undecided. -/
def Abandoned (events : List Event) : Prop := ∀ a, .settled a ∈ events → a.Abandons

theorem Outcome.Undecided.isSolved {out : Outcome} (h : out.Undecided) :
    out.isSolved = false := by
  cases out with
  | solved => exact h.elim
  | failed report => rfl

namespace StoreM

open Store

variable {s s' : Store} {k k' : Kernel} {log : List (Nat × Request)} {owner : Owner}
  {out : Outcome}

/-! ### Closing -/

private theorem undecided_reportOn (nodes : Table Node) {n : Node} (h : n.progress ≠ .failed) :
    (reportOn nodes n .stalled).Undecided := by
  unfold reportOn Outcome.Undecided
  dsimp only
  cases nodes.size with
  | zero => rfl
  | succ depth =>
    rw [reportTree, if_neg h]
    rfl

private theorem not_decides (h : out.isSolved = false) (p : RuleProgress) (outstanding : Nat)
    (request : RuleRequest) : ¬ Decides owner p out outstanding request := by
  rintro ⟨_, _, hundecided⟩
  rw [(undecided_afterCondition ..).1, refuses, h] at hundecided
  cases hp : p.undecided <;> simp [hp] at hundecided

private theorem Resolved.abandons (h : Resolved owner out s k s' k')
    (hout : out.Undecided) :
    (∃ new, k'.journal = new ++ k.journal ∧ Abandoned new) ∧ Mutes s.nodes s'.nodes := by
  have hfailed := hout.isSolved
  refine ⟨?_, ?_⟩
  · obtain ⟨new, hnew, hconcludes, _⟩ := h.concludes
    refine ⟨new, hnew, fun a ha => ?_⟩
    rw [← mem_answersIn] at ha
    cases hconcludes with
    | onward _ _ _ has => simp [has] at ha
    | answer _ _ _ _ hb has =>
      cases mem_singleton.1 (has ▸ ha)
      obtain rfl | ⟨_, rfl⟩ := hb <;> exact hout
    | condition _ _ _ _ has =>
      obtain rfl | rfl := of_mem_conditionAnswers (has ▸ ha)
      · exact hout
      · rfl
    | decided _ _ _ hdecides => exact (not_decides hfailed _ _ _ hdecides).elim
  · cases h with
    | equation | castFailed | applicationFailed => simp [without, Mutes.refl]
    | castSolved _ h | functionSolved _ _ h | argumentSolved _ _ h =>
      cases hfailed.symm.trans h
    | condition | lastCondition => exact mutes_conditionStore ..

private theorem ResolveStops.of_undecided {e : Stop} (h : ResolveStops owner out s k e k')
    (hs : s.WellFormed none none (some owner)) (hlog : s.Recorded log) (hout : out.Undecided) :
    Headless log e := by
  have hfailed := hout.isSolved
  have hstore := h.not_ofStore hs
  cases h with
  | missing | overdrawn => cases hstore
  | install _ _ h => exact nomatch hfailed.symm.trans h
  | drop ho hrequest hhead =>
    obtain ⟨r, hr, hposes⟩ := hlog ho
    cases hposes with
    | rule r _ honly =>
      cases honly _ hrequest
      exact ⟨_, _, hr, hhead, rfl⟩
  | commit _ _ hdecides => exact (not_decides hfailed _ _ _ hdecides).elim

/-- What giving up all roots leaves: none is posed any more, and what was open was answered as
undecided. -/
structure Emptied (s : Store) (k : Kernel) (s' : Store) (k' : Kernel) : Prop where
  moves : Rests ⟨.idle, s, k⟩ s' k'
  rootless : ∀ i owner, ¬ Rooted s'.nodes i owner
  abandoned : ∃ new, k'.journal = new ++ k.journal ∧ Abandoned new

private theorem Emptied.of_resolved {s0 s1 : Store} {k1 : Kernel} (h : Emptied s1 k1 s' k')
    (hmove : Move ⟨.idle, s, k⟩ ⟨.settling owner out, s0, k⟩)
    (hr : Resolved owner out s0 k s1 k1) (hout : out.Undecided) : Emptied s k s' k' where
  moves := .head hmove (.head (.settle hr) h.moves)
  rootless := h.rootless
  abandoned := by
    obtain ⟨⟨new, hnew, habandoned⟩, _⟩ := hr.abandons hout
    obtain ⟨later, hlater, habandoned'⟩ := h.abandoned
    refine ⟨later ++ new, ?_, fun a ha => ?_⟩
    · rw [hlater, hnew, append_assoc]
    · exact (mem_append.1 ha).elim (habandoned' a) (habandoned a)

private theorem ends_closeRoots_emptied {roots : List (Nat × Owner)} {s : Store} {k : Kernel}
    (hs : s.WellFormed none none none) (hlog : s.Recorded log)
    (hroots : ∀ r ∈ roots, r.1 < s.nextId ∧ ∀ n, s.nodes.get? r.1 = some n → n.parent = .root r.2)
    (hall : ∀ i owner, Rooted s.nodes i owner → (i, owner) ∈ roots) :
    EndsWith (closeRoots roots) s k (fun _ => Emptied s k) fun e _ => Headless log e := by
  induction roots generalizing s k with
  | nil =>
    exact ⟨.refl, fun i owner hi => (nomatch hall i owner hi), [], rfl, nofun⟩
  | cons r roots ih =>
    obtain ⟨i, owner⟩ := r
    rw [forall_mem_cons] at hroots
    unfold closeRoots
    rw [bind_iff, get_iff]
    dsimp only
    split
    · next n hn =>
      have hroot := hroots.1.2 n hn
      have hout := undecided_reportOn s.nodes (hs.trees.not_failed hn)
      have hmove := Move.giveUp (k := k) hn hroot
      have hgiven := hmove.ordered hs
      rw [bind_iff, removeTree, modify_iff]
      refine bind (ends_resolve owner _ _ k) ?_ fun e k' h =>
        h.of_undecided hgiven hlog hout
      intro _ s' k' hr
      refine (ih (hgiven.resolved hr) (hr.recorded hlog) (fun r hmem => ?_) ?_).imp
        (fun _ s'' k'' h => h.of_resolved hmove hr hout)
      · obtain ⟨hlt, hroot'⟩ := hroots.2 r hmem
        refine ⟨hlt.trans_le hr.ages.next, fun n' hn' => ?_⟩
        obtain ⟨m, hm, hparent⟩ := hr.ages.parents r.1 hlt n' hn'
        rw [← hparent]
        exact hroot' m ((prunes_removeTree ..).sub _ _ hm)
      · -- the root that was given up is gone, and no other was posed
        intro j owner' hj
        have hj := (rooted_mutes (hr.abandons hout).2 j owner').1 hj
        obtain ⟨hj, hne⟩ := (rooted_remove hs.trees.toShape ⟨n, hn, hroot⟩
          (get?_removeTree s.nodes i) j owner').1 hj
        exact (mem_cons.1 (hall j owner' hj)).resolve_left fun heq =>
          hne (congrArg Prod.fst heq)
    · next hn =>
      refine ih hs hlog hroots.2 fun j owner' hj => ?_
      refine (mem_cons.1 (hall j owner' hj)).resolve_left fun heq => ?_
      cases heq
      obtain ⟨n, hn', _⟩ := hj
      exact nomatch hn.symm.trans hn'

/-- Obligations without roots are settled. -/
theorem Emptied.get?_obligations (h : Emptied s k s' k') (hs : s.WellFormed none none none)
    (id : Nat) : s'.obligations.get? id = none := by
  have hs' : s'.WellFormed none none none := Moves.ordered h.moves hs
  refine Option.eq_none_iff_forall_ne_some.2 fun o ho => ?_
  obtain ⟨slots, hw, hslots⟩ := hs'.posed.waits ho
  have hnone : slots = [] := by
    refine eq_nil_iff_forall_not_mem.2 fun slot hslot => ?_
    obtain hsettling | ⟨i, hi⟩ := (hslots slot).1 hslot
    · cases hsettling
    · exact h.rootless i _ hi
  cases hw with
  | rule p hlength hpos =>
    rw [hnone] at hlength
    exact absurd hlength hpos.ne'
  | _ => cases hnone

private theorem Emptied.promises (h : Emptied s k s' k') (hs : s.WellFormed none none none)
    (id : Nat) :
    s'.promises id = [] :=
  promises_of_none (h.get?_obligations hs id)

/-- Closing gives up all roots, then empties the store. -/
theorem ends_close_emptied (hs : s.WellFormed none none none) (hlog : s.Recorded log) :
    EndsWith close s k (fun _ s' k' => ∃ s1 k1, Emptied s k s1 k1 ∧ s' = closed s1 ∧
        k' = k1.noted (.closed s'.failed)) fun e _ => Headless log e := by
  unfold close
  rw [bind_iff, get_iff]
  refine seq (ends_closeRoots_emptied hs hlog (fun r hr => ?_) fun i owner hi => ?_)
    fun _ s1 k1 h => ?_
  · obtain ⟨n, hn, hparent⟩ := (mem_roots hs.keys).1 hr
    refine ⟨hs.queued.fresh r.1 n hn, fun n' hn' => ?_⟩
    cases hn.symm.trans hn'
    exact hparent
  · exact (mem_roots hs.keys).2 hi
  · exact ⟨s1, k1, h, rfl, rfl⟩

end StoreM

/-! ### Promises handed out -/

namespace Request

variable {r : Request} {o : Obligation} {es : List (Equation × Slot)}

/-- The promises that a request is handed, its obligation being numbered `id`. -/
def promises (id : Nat) : Request → List Promise
  | equation _ => [.equation id]
  | cast _ => [.equation id]
  | application _ => [.application id]
  | rule r =>
    (range r.checks.length).map (fun index => .condition id (.check index)) ++
      [.condition id .replacementType, .commitment id]
  | _ => []

theorem obligation_of_mem_promises {id : Nat} {p : Promise} (h : p ∈ r.promises id) :
    p.obligation = id := by
  cases r with
  | rule r =>
    simp only [promises, mem_append, mem_map, mem_cons, not_mem_nil, or_false] at h
    obtain ⟨_, _, rfl⟩ | rfl | rfl := h <;> rfl
  | equation | cast | application =>
    rw [mem_singleton.1 h]
    rfl
  | _ => cases h

private theorem nodup_promises (r : Request) (id : Nat) : (r.promises id).Nodup := by
  cases r with
  | rule r =>
    refine nodup_append.2 ⟨nodup_range.map ?_, by simp, ?_⟩
    · intro i j h
      cases h
      rfl
    · intro p hp q hq
      obtain ⟨_, _, rfl⟩ := mem_map.1 hp
      rcases hq with _ | ⟨_, _ | ⟨_, ⟨⟩⟩⟩ <;> simp
  | _ => simp [promises]

private theorem promises_of_obligation? (h : r.obligation? = some (o, es)) (id : Nat) :
    o.promises id = r.promises id := by
  cases r with
  | rule r =>
    cases h
    have hslots : Store.openSlots (ruleProgress r) =
        (range r.checks.length).map Slot.check ++ [.replacementType] := by
      rw [← openSlots_ruleProgress, conditions, map_append, map_snd_checkEquations, range_eq_range']
      rfl
    rw [Obligation.promises, hslots, promises]
    simp [ruleProgress]
  | equation | cast | application =>
    cases h
    rfl
  | _ => cases h

private theorem poses_of_obligation? (h : r.obligation? = some (o, es)) : r.Poses o := by
  cases r with
  | equation e =>
    cases h
    exact .equation e
  | cast c =>
    cases h
    exact .cast c
  | application a =>
    cases h
    exact .application a
  | rule r =>
    cases h
    refine .rule r (fun _ => rfl) fun request hrequest => ?_
    cases hrequest
    rfl
  | _ => cases h

end Request

/-- All promises that were handed out. -/
def handed (log : List (Nat × Request)) : List Promise := log.flatMap fun x => x.2.promises x.1

theorem handed_cons (id : Nat) (r : Request) (log : List (Nat × Request)) :
    handed ((id, r) :: log) = r.promises id ++ handed log := rfl

namespace StoreM

open Store

variable {s s' : Store} {k k' : Kernel} {log : List (Nat × Request)} {c c' : Config} {r : Request}

theorem Moves.nextId_le (h : Moves c c') : c.store.nextId ≤ c'.store.nextId := by
  induction h with
  | refl => exact le_rfl
  | tail _ hmove ih => exact ih.trans hmove.nextId_le

/-- What a request does to promises: it is handed some, and some are answered. -/
structure Performed (r : Request) (log : List (Nat × Request)) (s : Store) (k : Kernel) (s' : Store)
    (k' : Kernel) : Prop where
  recorded : s'.Recorded ((s.nextId, r) :: log)
  next : s.nextId ≤ s'.nextId
  numbered : r.promises s.nextId ≠ [] → s.nextId < s'.nextId
  balance : ∃ new, k'.journal = new ++ k.journal ∧
    ∀ p, (s.promises p.obligation).count p + (r.promises s.nextId).count p =
      (answeredIn new).count p + (s'.promises p.obligation).count p

private theorem Performed.of_conserves (hr : r.promises s.nextId = []) (h : s'.Recorded log)
    (hnext : s.nextId ≤ s'.nextId) {new : List Event} (hnew : k'.journal = new ++ k.journal)
    (hconserves : Conserves new s s') : Performed r log s k s' k' where
  recorded ho := by
    obtain ⟨r', hr', hposes⟩ := h ho
    exact ⟨r', mem_cons_of_mem _ hr', hposes⟩
  next := hnext
  numbered hne := absurd hr hne
  balance := by
    refine ⟨new, hnew, fun p => ?_⟩
    rw [hr, count_nil, Nat.add_zero]
    exact hconserves p

/-- An obligation was posed. -/
theorem Performed.of_posing {o : Obligation} {es : List (Equation × Slot)}
    (hr : r.obligation? = some (o, es)) (hs : s.WellFormed none none none) (hlog : s.Recorded log) :
    Performed r log s k (s.posing o es) k := by
  have hnext : s.nextId < (s.posing o es).nextId := by
    rw [Store.posing, nextId_withAll]
    exact (Nat.lt_succ_self _).trans_le (Nat.le_add_right _ _)
  refine ⟨fun {id o'} ho => ?_, hnext.le, fun _ => hnext, [], rfl, fun p => ?_⟩
  · rw [get?_posing] at ho
    split at ho
    · next hid =>
      cases ho
      exact ⟨r, hid ▸ mem_cons_self, poses_of_obligation? hr⟩
    · obtain ⟨r', hr', hposes⟩ := hlog ho
      exact ⟨r', mem_cons_of_mem _ hr', hposes⟩
  · rw [answeredIn_nil, count_nil, Nat.zero_add]
    by_cases hp : s.nextId = p.obligation
    · have hfresh : s.obligations.get? p.obligation = none :=
        Option.eq_none_iff_forall_ne_some.2 fun o' ho' =>
          (hs.posed.made ho').ne hp.symm
      rw [promises_of_none hfresh, count_nil, Nat.zero_add, hp,
        promises_of_get? (by rw [get?_posing, if_pos hp]),
        promises_of_obligation? hr]
    · have hnone : p ∉ r.promises s.nextId :=
        fun hmem => hp (obligation_of_mem_promises hmem).symm
      have hsame : (s.posing o es).promises p.obligation = s.promises p.obligation :=
        promises_congr (by rw [get?_posing, if_neg hp])
      rw [count_eq_zero_of_not_mem hnone, Nat.add_zero, hsame]

/-- What every request does to promises. -/
theorem performed_of_perform (hs : s.WellFormed none none none)
    (hlog : s.Recorded log) (hr : r.perform s k = .ok ((), s') k') : Performed r log s k s' k' := by
  cases done_of_perform hs hr with
  | pose hobligation hs' hk =>
    subst hs' hk
    exact .of_posing hobligation hs hlog
  | register hs' hk =>
    subst hs' hk
    exact .of_conserves rfl hlog le_rfl (nil_append _).symm (.of_same rfl rfl)
  | run hrest =>
    obtain ⟨⟨new, hnew, hconserves⟩, hlog'⟩ := Moves.conserves hrest hs hlog
    exact .of_conserves rfl hlog' (Moves.nextId_le hrest) hnew hconserves
  | close =>
    obtain ⟨s1, k1, hempty, rfl, rfl⟩ := (ends_close_emptied hs hlog).of_ok hr
    obtain ⟨⟨new, hnew, hconserves⟩, _⟩ := Moves.conserves hempty.moves hs hlog
    have hjournal : (k1.noted (.closed (closed s1).failed)).journal =
        .closed (closed s1).failed :: new ++ k.journal := by
      rw [Kernel.noted, hnew, cons_append]
    refine .of_conserves rfl (fun ho => by cases ho) (Moves.nextId_le hempty.moves) hjournal
      fun p => ?_
    rw [hconserves p, hempty.promises hs]
    rfl

/-- Performs requests one after another, and answers what was asked. -/
def performAll : List Request → List (Nat × Request) → StoreM (List (Nat × Request))
  | [], log => pure log
  | r :: rs, log => do
    let id := (← get).nextId
    r.perform
    performAll rs ((id, r) :: log)

end StoreM

namespace Store

/-- The promises that clients were handed are answered or open, once each. -/
structure Balanced (log : List (Nat × Request)) (events : List Event) (s : Store) : Prop where
  ordered : s.WellFormed none none none
  recorded : s.Recorded log
  made : ∀ p ∈ handed log, p.obligation < s.nextId
  nodup : (handed log).Nodup
  count : ∀ p, (answeredIn events).count p + (s.promises p.obligation).count p =
    (handed log).count p

/-- What clients asked of a store, each with the number that was next then, and what was recorded.
The kernel may change in between. -/
inductive History : List (Nat × Request) → List Event → Store → Prop where
  | initial (k : Kernel) : History [] [] (initial k)
  | perform {log : List (Nat × Request)} {events new : List Event} {s s' : Store} {k k' : Kernel}
    (r : Request) : History log events s → r.perform s k = .ok ((), s') k' →
    k'.journal = new ++ k.journal → History ((s.nextId, r) :: log) (new ++ events) s'

variable {log : List (Nat × Request)} {events : List Event} {s : Store}

/-- Every history is balanced. -/
theorem History.balanced (h : History log events s) : s.Balanced log events := by
  induction h with
  | initial k =>
    exact ⟨wellFormed_empty rfl rfl rfl rfl, nofun, by simp [handed], nodup_nil, fun p => rfl⟩
  | @perform log events new s s' k k' r _ hr hnew ih =>
    have hperformed := performed_of_perform ih.ordered ih.recorded hr
    obtain ⟨new', hnew', hbalance⟩ := hperformed.balance
    cases append_cancel_right (hnew.symm.trans hnew')
    have hlt : ∀ p ∈ r.promises s.nextId, p.obligation < s'.nextId := by
      intro p hp
      rw [Request.obligation_of_mem_promises hp]
      exact hperformed.numbered (ne_nil_of_mem hp)
    refine ⟨(ends_perform r ih.ordered).of_ok hr, hperformed.recorded, ?_, ?_, fun p => ?_⟩
    · intro p hp
      rcases mem_append.1 hp with hp | hp
      · exact hlt p hp
      · exact (ih.made p hp).trans_le hperformed.next
    · refine nodup_append.2 ⟨r.nodup_promises _, ih.nodup, ?_⟩
      rintro p hp _ hq rfl
      exact (ih.made p hq).ne (Request.obligation_of_mem_promises hp)
    · have hbefore := ih.count p
      have hafter := hbalance p
      rw [answeredIn_append, count_append, handed_cons, count_append]
      omega

/-- No two answers keep the same promise. -/
theorem Balanced.answer_unique (h : s.Balanced log events) {a b : Settlement}
    (ha : .settled a ∈ events) (hb : .settled b ∈ events) (hpromise : a.promise = b.promise) :
    a = b := by
  have hnodup : (answeredIn events).Nodup := by
    refine nodup_iff_count_le_one.2 fun p => ?_
    have hhanded := nodup_iff_count_le_one.1 h.nodup p
    have hcount := h.count p
    omega
  rw [answeredIn, ← map_filterMap] at hnodup
  exact inj_on_of_nodup_map hnodup (mem_filterMap.2 ⟨_, ha, rfl⟩)
    (mem_filterMap.2 ⟨_, hb, rfl⟩) hpromise

/-- An open promise was not answered. -/
theorem Balanced.not_answered (h : s.Balanced log events) {a : Settlement}
    (ha : a.promise ∈ s.promises a.promise.obligation) : .settled a ∉ events := by
  intro hmem
  have hanswered := count_pos_iff.2 (promise_mem_answeredIn hmem)
  have hopen := count_pos_iff.2 ha
  have hhanded := nodup_iff_count_le_one.1 h.nodup a.promise
  have hcount := h.count a.promise
  omega

/-- However a store was used, no promise was answered twice, and closing it answers those that are
open, as undecided, and leaves nothing. Closing fails only if it logs a dropped rule whose head is
no declaration. -/
theorem History.answered_once_of_close {log : List (Nat × Request)} {events : List Event}
    {s : Store} (h : History log events s) (k : Kernel) :
    EndsWith StoreM.close s k
      (fun _ s' k' => ∃ closing, k'.journal = closing ++ k.journal ∧
        (∀ p, (answeredIn (closing ++ events)).count p = if p ∈ handed log then 1 else 0) ∧
        (∀ a, .settled a ∈ closing → a.promise ∉ answeredIn events ∧ a.Abandons) ∧
        s'.nodes = .empty ∧ s'.obligations = .empty ∧ s'.indeterminates = [])
      (fun e _ => ∃ id r, (id, .rule r) ∈ log ∧ (∀ head, r.rule.head ≠ .decl head) ∧
        e = .violation (.ruleHeadNotDeclaration r.rule.head)) := by
  have hbalanced := h.balanced
  refine (ends_close_emptied hbalanced.ordered hbalanced.recorded).imp ?_
  rintro _ s' k' ⟨s1, k1, hempty, rfl, rfl⟩
  obtain ⟨⟨new, hnew, hconserves⟩, _⟩ :=
    Moves.conserves hempty.moves hbalanced.ordered hbalanced.recorded
  obtain ⟨new', hnew', habandoned⟩ := hempty.abandoned
  cases append_cancel_right (hnew.symm.trans hnew')
  have hcount : ∀ p, (answeredIn (.closed (closed s1).failed :: new ++ events)).count p =
      if p ∈ handed log then 1 else 0 := by
    intro p
    have hbefore := hbalanced.count p
    rw [hconserves p, hempty.promises hbalanced.ordered, count_nil,
      hbalanced.nodup.count] at hbefore
    rw [← hbefore, answeredIn_append, count_append, Nat.add_comm]
    rfl
  refine ⟨.closed (closed s1).failed :: new, by rw [Kernel.noted, hnew]; rfl, hcount,
    fun a ha => ⟨fun hanswered => ?_, ?_⟩, rfl, rfl, rfl⟩
  · have honce := hcount a.promise
    have hclosing := count_pos_iff.2 (promise_mem_answeredIn ha)
    have hevents := count_pos_iff.2 hanswered
    rw [answeredIn_append, count_append] at honce
    split at honce <;> omega
  · exact habandoned a ((mem_cons.1 ha).resolve_left fun h => by cases h)

/-! ### A rule that is refused -/

/-- What is done on one kernel is a history. -/
theorem History.of_performAll (h : History log events s) (rs : List Request) (k : Kernel) :
    EndsWith (performAll rs log) s k (fun log' s' k' => ∃ new,
      k'.journal = new ++ k.journal ∧ History log' (new ++ events) s') fun _ _ => True := by
  induction rs generalizing log events s k with
  | nil => exact ⟨[], rfl, h⟩
  | cons r rs ih =>
    unfold performAll
    rw [bind_iff, get_iff, bind_iff]
    refine Ends.of_answer fun x k' hr => ?_
    obtain ⟨⟨⟩, s'⟩ := x
    have hbalanced := h.balanced
    obtain ⟨new, hnew, _⟩ :=
      (performed_of_perform hbalanced.ordered hbalanced.recorded hr).balance
    refine (ih (h.perform r hr hnew) k').imp ?_
    rintro log' s'' k'' ⟨later, hlater, hhistory⟩
    refine ⟨later ++ new, ?_, by rwa [append_assoc]⟩
    rw [hlater, hnew, append_assoc]

/-- A rule with a check that fails; its types are two unknowns that are never defined. -/
def refusedRule : RuleRequest where
  telescope := ⟨[], Primitive.type, Primitive.identity, 0⟩
  rule := .lambda (.decl 10) 0 Primitive.type
  checks := [(Primitive.type, Primitive.arrow)]
  patternType := .decl 10
  replacementType := .decl 11

/-- A rule is refused and an equation stalls before the store is closed. -/
theorem answered_once_of_refused : ∃ log events s s' k k', History log events s ∧
    answeredIn events = [.commitment 0, .condition 0 (.check 0)] ∧
    handed log = [.equation 3, .condition 0 (.check 0), .condition 0 .replacementType,
      .commitment 0] ∧
    StoreM.close s k = .ok ((), s') k' ∧ ∃ closing, k'.journal = closing ++ k.journal ∧
      (∀ p, (answeredIn (closing ++ events)).count p = if p ∈ handed log then 1 else 0) ∧
      ∀ a, .settled a ∈ closing → a.promise ∉ answeredIn events ∧ a.Abandons := by
  let start : Kernel := { twoUnknowns with journal := [] }
  obtain ⟨⟨log, s⟩, k, hperformed, hanswered, hhanded, ⟨⟨⟩, s'⟩, k', hclosed, -⟩ :
      ∃ x k, performAll [.rule refusedRule, .equation partlySolved, .run] [] (initial start)
        start = .ok x k ∧ answeredIn k.journal = [.commitment 0, .condition 0 (.check 0)] ∧
      handed x.1 = [.equation 3, .condition 0 (.check 0), .condition 0 .replacementType,
        .commitment 0] ∧ ∃ y k', StoreM.close x.2 k = .ok y k' ∧ True := by decide +kernel
  obtain ⟨new, hnew, hhistory⟩ := ((History.initial start).of_performAll _ start).of_ok hperformed
  rw [append_nil] at hnew hhistory
  obtain ⟨closing, hclosing, hcount, habandons, _⟩ :=
    (hhistory.answered_once_of_close k).of_ok hclosed
  exact ⟨log, new, s, s', k, k', hhistory, hnew ▸ hanswered, hhanded, hclosed, closing, hclosing,
    hcount, habandons⟩

end Store
end Elaboration
