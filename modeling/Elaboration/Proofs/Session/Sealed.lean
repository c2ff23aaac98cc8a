import Elaboration.Proofs.Obligation.Tracking
import Elaboration.Proofs.Obligation.Wakeups
import Elaboration.Proofs.Session.Groundwork
import Elaboration.Proofs.Telescope.Sealed

/-!
# Programs in sealed kernels

As long as the kernel is sealed and the requests are in scope, as those of programs are, a committed
rule is installed as it was requested, and its side conditions are equal under the assumptions of
its telescope.
-/

namespace Elaboration

open List StoreM

variable {log : List (Nat × Request)} {events : List Event} {s s' : Store} {k k' : Kernel}
  {r : Request} {q : RuleRequest} {id : Nat}

/-- The equations that the requests of a log pose, at once or later. -/
def postings (log : List (Nat × Request)) : Postings := log.flatMap fun x => x.2.posts x.1

/-! ### Kernels under requests -/

namespace StoreM

open Kernel (Guards lasting_guards)

/-- The rules of a log match on heads that mention no argument. -/
def HeadsClosed (log : List (Nat × Request)) : Prop :=
  ∀ id q, (id, .rule q) ∈ log → ∀ x ∈ q.rule.steps, x.HeadClosed

private theorem headClosed_requestedRule (h : ∀ x ∈ q.rule.steps, x.HeadClosed) (k : Kernel) :
    ∀ x ∈ (requestedRule q k).steps, x.HeadClosed := by
  intro x hx
  obtain ⟨y, hy, rfl⟩ := mem_map.1 hx
  cases y with
  | pull => trivial
  | destructure subject head count =>
    have hhead := h _ hy
    exact hhead

private theorem admits_guards (hlog : s.Recorded log) (hheads : HeadsClosed log) :
    Admits Guards s := by
  intro id p request ho hrequest k k0 head
  obtain ⟨r, hr, hposes⟩ := hlog ho
  cases hposes with
  | rule q _ honly =>
    cases honly request hrequest
    exact Kernel.guards_withRule (headClosed_requestedRule (hheads id _ hr) k0)

private theorem Moves.guards {c c' : Config} (h : Moves c c') (hc : c.Ordered)
    (hlog : c.store.Recorded log) (hheads : HeadsClosed log) : Guards c.kernel c'.kernel :=
  Moves.lasting lasting_guards h fun _ hm => admits_guards (Moves.conserves hm hc hlog).2 hheads

private theorem grows_of_perform (hs : s.WellFormed none none none) (hlog : s.Recorded log)
    (hheads : HeadsClosed log) (hr : r.perform s k = .ok ((), s') k') :
    k.Grows k' ∧ Guards k k' := by
  cases done_of_perform hs hr with
  | pose _ _ hk | register _ hk =>
    subst hk
    exact ⟨.refl _, lasting_guards.refl _⟩
  | run hmoves => exact ⟨Moves.grows hmoves, Moves.guards hmoves hs hlog hheads⟩
  | close hmoves hs' hk =>
    subst hk
    refine ⟨(Moves.grows hmoves).trans (Kernel.grows_noted _ _), ?_⟩
    exact lasting_guards.trans (Moves.guards hmoves hs hlog hheads)
      (lasting_noted lasting_guards _ _)

end StoreM

/-! ### Ledgers -/

namespace Store

variable {c : Term × Term} {teles : List Telescope}

/-- The requests of a log stand at their stages, what they pose is in scope, and what was recorded
as solved holds. -/
structure Ledger (log : List (Nat × Request)) (events : List Event) (s : Store) (k : Kernel) :
    Prop where
  history : s.History log events
  tracks : ∃ passed, StoreM.Tracks log [] passed events ⟨.idle, s, k⟩
  inScope : s.Scoped anySymbol k
  justified : s.Justified equality (postings log) k
  held : ∀ e ∈ events, ∀ owner, e.Solves owner → (postings log).Hold equality owner k
  numbered : ∀ x ∈ postings log, x.1.obligation < s.nextId
  plain : ∀ x ∈ postings log, x.2.lhs.hasPlaceholder = false ∧ x.2.rhs.hasPlaceholder = false
  rules : ∀ id q, (id, .rule q) ∈ log → q.rule.Over (Term.InScope anySymbol 0)
  heads : StoreM.HeadsClosed log

private theorem ledger_initial (hk : k.rules.Over (Term.InScope anySymbol 0)) :
    (Store.initial k).Ledger [] [] k := by
  have hclient := Client.sound_start hk
  exact {
    history := .initial k
    tracks := ⟨fun _ => False, nofun, by simp, by simp, by simp, by simp⟩
    inScope := hclient.inScope
    justified := hclient.justified
    held := by simp
    numbered := hclient.numbered
    plain := hclient.plain
    rules := by simp
    heads := fun _ _ h => nomatch h }

private theorem Ledger.grows (h : s.Ledger log events k) (hg : k.Grows k')
    (hR : k'.rules.Over (Term.InScope anySymbol 0)) : s.Ledger log events k' where
  __ := h
  tracks := by
    obtain ⟨passed, ht⟩ := h.tracks
    refine ⟨passed, ht.unsettled [] (fun _ h => h) (fun _ => rfl) ?_ le_rfl hg.rules
      nofun (by simp)⟩
    rintro owner (⟨_, hphase⟩ | hroot)
    · cases hphase
    · exact .inr hroot
  inScope := Contents.Within.later h.inScope hR hg
  justified := h.justified.later h.inScope hR hg
  held e he owner hs := (h.held e he owner hs).later h.justified.valid hR hg

private theorem Ledger.client (h : s.Ledger log events k)
    (hteles : ∀ tele ∈ teles, tele.Valid anySymbol k) :
    Client.Sound k.journal ⟨k, s, teles, postings log⟩ where
  __ := h
  telescopes := hteles
  ordered := h.history.balanced.ordered
  told := ⟨[], rfl, nofun⟩

private theorem Ledger.perform (h : s.Ledger log events k) (hk : k.Sealed)
    (hjournal : k.journal = [])
    (hteles : ∀ tele ∈ teles, tele.Valid anySymbol k)
    (hr : r.Scoped anySymbol teles) (hheads : ∀ q, r = .rule q → ∀ x ∈ q.rule.steps, x.HeadClosed)
    (hrun : r.perform s k = .ok ((), s') k') :
    k.Leads k' ∧ s'.Ledger ((s.nextId, r) :: log) (k'.journal ++ events) k' := by
  have hbalanced := h.history.balanced
  have hnew : k'.journal = k'.journal ++ k.journal := by rw [hjournal, append_nil]
  have hsound := (Client.Step.request (postings log) r hr hrun).sound (h.client hteles)
  obtain ⟨hgrows, hguards⟩ :=
    grows_of_perform hbalanced.ordered hbalanced.recorded h.heads hrun
  refine ⟨⟨hgrows, hguards hk.toGuarded, hsound.inScope.kernel⟩, ?_⟩
  obtain ⟨passed, htracks⟩ := h.tracks
  refine ⟨h.history.perform r hrun hnew, ⟨fun c => passed c ∨ r.Passes s k s' k' c, ?_⟩,
    hsound.inScope, hsound.justified, fun e he owner hs =>
      ?_, hsound.numbered, hsound.plain, ?_, ?_⟩
  · exact htracks.perform hbalanced nofun hrun hnew (fun _ => .inl) fun _ => .inr
  · rcases mem_append.1 he with he | he
    · obtain ⟨new, heq, htold⟩ := hsound.told
      have hsame := append_cancel_right (hnew.symm.trans heq)
      exact (htold e (hsame ▸ he) owner hs).2
    · have hold := h.held e he owner hs
      obtain ⟨e', he'⟩ := hold.1
      refine (hold.later h.justified.valid hsound.inScope.kernel hgrows).of_old fun x hx heq => ?_
      have hlt : owner.obligation < s.nextId := h.numbered _ he'
      rw [← heq, Request.obligation_of_mem_posts hx] at hlt
      exact lt_irrefl _ hlt
  · intro id q hq
    rcases mem_cons.1 hq with heq | hq
    · cases heq
      exact hr.2.1
    · exact h.rules id q hq
  · intro id q hq
    rcases mem_cons.1 hq with heq | hq
    · cases heq
      exact hheads q rfl
    · exact h.heads id q hq

/-! ### Committed rules -/

private theorem mem_checkEquations (tele : Telescope) {checks : List (Term × Term)}
    (hc : c ∈ checks) (index : Nat) :
    ∃ slot, (⟨c.1, c.2, tele, true⟩, slot) ∈ checkEquations tele index checks := by
  induction checks generalizing index with
  | nil => cases hc
  | cons c' rest ih =>
    rcases mem_cons.1 hc with rfl | hc
    · exact ⟨_, mem_cons_self⟩
    · obtain ⟨slot, hslot⟩ := ih hc (index + 1)
      exact ⟨slot, mem_cons_of_mem _ hslot⟩

private theorem exists_slot (hc : c ∈ (q.patternType, q.replacementType) :: q.checks) :
    ∃ slot ∈ q.slots, (⟨c.1, c.2, q.telescope, true⟩, slot) ∈ conditions q := by
  have hslots : (conditions q).map Prod.snd = q.slots := by
    rw [conditions, map_append, map_snd_checkEquations, RuleRequest.slots, range_eq_range']
    rfl
  have hcondition : ∃ slot, (⟨c.1, c.2, q.telescope, true⟩, slot) ∈ conditions q := by
    rcases mem_cons.1 hc with rfl | hc
    · exact ⟨_, mem_append_right _ (mem_singleton.2 rfl)⟩
    · obtain ⟨slot, hslot⟩ := mem_checkEquations q.telescope hc 0
      exact ⟨slot, mem_append_left _ hslot⟩
  obtain ⟨slot, hslot⟩ := hcondition
  exact ⟨slot, hslots ▸ mem_map_of_mem (f := Prod.snd) hslot, hslot⟩

/-- A rule that was recorded as committed had all its side conditions solved and is installed. -/
theorem Ledger.decided (h : s.Ledger log events k) (hq : (id, .rule q) ∈ log)
    (hcommitted : .settled (.commitment id true) ∈ events) :
    (∃ head, q.rule.head = .decl head ∧ k.rules.ruleFor? head = some q.rule) ∧
      ∀ slot ∈ q.slots, .settled (.condition id slot .solved) ∈ events := by
  have hbalanced := h.history.balanced
  obtain ⟨passed, htracks⟩ := h.tracks
  cases htracks.stands _ hq with
  | undecided ho hundecided =>
    refine absurd hcommitted (hbalanced.not_answered (Store.promises_of_get? ho ▸ ?_))
    simp [Obligation.promises, Settlement.promise, hundecided]
  | refused _ _ _ hrefused => cases hbalanced.answer_unique hcommitted hrefused rfl
  | @decided m head _ hall _ _ hhead hcommitment hrule =>
    cases hfree : m.kernel.rules.hasRule head with
    | true =>
      rw [hfree] at hcommitment
      cases hbalanced.answer_unique hcommitted hcommitment rfl
    | false =>
      have hinstalled := hrule hfree
      rw [requestedRule_of_over (h.rules id q hq)] at hinstalled
      exact ⟨⟨head, hhead, hinstalled⟩, hall⟩

/-- The side conditions of a rule that was recorded as committed are equal under the assumptions of
its telescope. -/
theorem Ledger.equal_of_committed (h : s.Ledger log events k) (hq : (id, .rule q) ∈ log)
    (hcommitted : .settled (.commitment id true) ∈ events)
    (hc : c ∈ (q.patternType, q.replacementType) :: q.checks) :
    Equal k.rules q.telescope.assumptions c.1 c.2 := by
  obtain ⟨slot, hslot, hcondition⟩ := exists_slot hc
  have hsolved := (h.decided hq hcommitted).2 slot hslot
  obtain ⟨_, hhold⟩ := h.held _ hsolved _ (.condition id slot)
  have hposed : (⟨id, slot⟩, ⟨c.1, c.2, q.telescope, true⟩) ∈ postings log :=
    mem_flatMap.2 ⟨_, hq, mem_map.2 ⟨_, hcondition, rfl⟩⟩
  obtain ⟨hl, hr⟩ := h.plain _ hposed
  exact (Telescope.equates_iff_equal hl hr).1 (hhold _ hposed)

end Store

open Pattern SessionM Telescope Term

open Telescope (sealFooting)

variable {α : Type} {s s' : Session} {base : List Event} {posed : List (Nat × Request)}

/-- The value and its type are in scope of `d` arguments. -/
structure TypedTerm.Sealed (d : Nat) (v : TypedTerm) : Prop where
  value : v.value.Sealed d
  type : v.type.Sealed d

/-! ### Compiled patterns -/

namespace Rule.StepsValued

variable {n : Nat} {steps : List Rule.Step}

protected theorem inScope (h : StepsValued sealFooting.Value n steps) :
    StepsOver (InScope anySymbol 0) n steps :=
  h.over fun _ _ => all_captureOr_iff.2

protected theorem headClosed (h : StepsValued sealFooting.Value n steps) :
    ∀ x ∈ steps, x.HeadClosed :=
  h.forall_mem trivial fun _ _ _ _ _ hhead => Position.below_of_canDestructure hhead

end Rule.StepsValued

/-- A pattern that was compiled below a telescope, with everything in scope. -/
abbrev Pattern.Execution.Sealed (k : Kernel) (outer : Telescope) (x : Pattern.Execution) : Prop :=
  x.Laid (Telescope.Sealed k) sealFooting.Value sealFooting.Side outer

theorem Pattern.Execution.Sealed.later {x : Execution} {outer : Telescope}
    (h : x.Sealed k outer) (hk : k.Leads k') : x.Sealed k' outer :=
  { h with lays := h.lays.imp fun htele => htele.later hk }

/-! ### Sessions -/

/-- The values that programs may refer to are in scope of nothing, and the store has a ledger with
these requests, which knows what the journal says of obligations since `base`. -/
structure Session.Accounted (base : List Event) (posed : List (Nat × Request)) (s : Session)
    (k : Kernel) : Prop where
  embeds : ∀ v ∈ s.embeds, v.Sealed 0
  ledger : ∃ log events, (∀ x ∈ posed, x ∈ log) ∧ s.store.Ledger log events k ∧
    ∃ new, k.journal = new ++ base ∧ ∀ e ∈ new, e.ofObligation → e ∈ events

theorem Session.accounted_initial (hk : k.Sealed) :
    (Session.initial k).Accounted k.journal [] k where
  embeds := forall_mem_nil _
  ledger := ⟨[], [], forall_mem_nil _, Store.ledger_initial hk.rules, [], rfl, forall_mem_nil _⟩

theorem Session.Accounted.later (h : s.Accounted base posed k) (hk : k.Leads k')
    (hquiet : Quiet k.journal k'.journal) : s.Accounted base posed k' where
  embeds := h.embeds
  ledger := by
    obtain ⟨log, events, hposed, hledger, new, hnew, hevents⟩ := h.ledger
    obtain ⟨quiet, heq, hsilent⟩ := hquiet
    refine ⟨log, events, hposed, hledger.grows hk.grows hk.isSealed.rules, quiet ++ new, ?_, ?_⟩
    · rw [heq, hnew, append_assoc]
    · intro e he ho
      rcases mem_append.1 he with he | he
      · exact nomatch (hsilent e he).symm.trans ho
      · exact hevents e he ho

private theorem Session.Accounted.forget {x : Nat × Request} (h : s.Accounted base (x :: posed) k) :
    s.Accounted base posed k where
  embeds := h.embeds
  ledger := by
    obtain ⟨log, events, hposed, hrest⟩ := h.ledger
    exact ⟨log, events, fun y hy => hposed y (mem_cons_of_mem _ hy), hrest⟩

private theorem Session.Accounted.congr (h : s.Accounted base posed k)
    (hembeds : s'.embeds = s.embeds)
    (hstore : s'.store = s.store) : s'.Accounted base posed k :=
  ⟨hembeds ▸ h.embeds, hstore ▸ h.ledger⟩

private theorem Kernel.Sealed.withJournal (hk : k.Sealed) (journal : List Event) :
    { k with journal }.Sealed :=
  ⟨⟨hk.heads, hk.types⟩, hk.rules⟩

namespace SessionM

variable {x : StoreM α}

/-- The kernel stays sealed and the session accounted for. -/
def sealing (base : List Event) (posed : List (Nat × Request)) : Regime Stop Kernel Session where
  Holds s k := k.Sealed ∧ s.Accounted base posed k
  Leads _ k _ k' := k.Leads k'
  Stops _ _ _ _ := True
  refl hs := .refl hs.1
  trans h h' := h.trans h'
  stops _ _ := trivial

theorem seals_lift {y : KernelM α} {Q : α → Kernel → Prop} (hy : KernelM.sealing.Keeps y k Q) :
    (sealing base posed).Keeps (liftM y) s k fun a _ k' => Q a k' := by
  rintro ⟨hk, hs⟩
  refine EndsWith.lift_iff.2 ((hy hk).imp ?_)
  rintro a k' ⟨hk', ⟨hleads, hquiet⟩, ha⟩
  exact ⟨⟨hk', hs.later hleads hquiet⟩, hleads, ha⟩

private theorem seals_modify {g : Session → Session} (hembeds : (g s).embeds = s.embeds)
    (hstore : (g s).store = s.store) :
    (sealing base posed).Keeps (modify g) s k fun _ _ _ => True :=
  fun ⟨hk, hs⟩ => ⟨⟨hk, hs.congr hembeds hstore⟩, .refl hk, trivial⟩

section

variable (r : Request) (teles : List Telescope)
  (hx : ∀ {store store' κ κ' a}, x store κ = .ok (a, store') κ' →
    r.perform store κ = .ok ((), store') κ')
  (hteles : ∀ tele ∈ teles, tele.Sealed k) (hr : r.Scoped anySymbol teles)
  (hheads : ∀ q, r = .rule q → ∀ x ∈ q.rule.steps, x.HeadClosed)
include hx hteles hr hheads

private theorem accounted_onStore (hs : s.Accounted base posed k) (hk : k.Sealed) :
    EndsWith (onStore x) s k (fun _ s' k' => k.Leads k' ∧
      s'.Accounted base ((s.store.nextId, r) :: posed) k') fun _ _ => True := by
  obtain ⟨log, events, hposed, hledger, new, hnew, hevents⟩ := hs.ledger
  have hfresh : k.Leads { k with journal := [] } := ⟨k.grows_journal [], hk.withJournal []⟩
  have hledger := hledger.grows hfresh.grows hfresh.isSealed.rules
  refine ends_onStore (Ends.of_cases ?_ fun _ _ _ _ _ => trivial)
  rintro ⟨a, store⟩ k' hok s' journal rfl hembeds hrecords
  obtain ⟨hleads, hledger'⟩ := hledger.perform hfresh.isSealed rfl
    (fun tele ht => ((hteles tele ht).later hfresh).valid) hr hheads (hx hok)
  have hafter : k'.Leads { k' with journal } :=
    ⟨k'.grows_journal journal, hleads.isSealed.withJournal journal⟩
  refine ⟨(hfresh.trans hleads).trans hafter, hembeds ▸ hs.embeds, (s.store.nextId, r) :: log,
    k'.journal ++ events, ?_, hledger'.grows hafter.grows hafter.isSealed.rules, ?_⟩
  · exact forall_mem_cons.2 ⟨mem_cons_self, fun x hx =>
      mem_cons_of_mem _ (hposed x hx)⟩
  · obtain ⟨recorded, rfl, hsame⟩ := hrecords
    refine ⟨recorded ++ new, by rw [append_assoc, hnew], fun e he ho => ?_⟩
    rcases mem_append.1 he with he | he
    · exact mem_append_left _ ((hsame e ho).1 he)
    · exact mem_append_right _ (hevents e he ho)

theorem seals_onStore : (sealing base posed).Keeps (onStore x) s k fun _ _ _ => True := by
  rintro ⟨hk, hs⟩
  refine (accounted_onStore r teles hx hteles hr hheads hs hk).imp ?_
  rintro _ s' k' ⟨hleads, hs'⟩
  exact ⟨⟨hleads.isSealed, hs'.forget⟩, hleads, trivial⟩

end

private theorem perform_of_eq_ok {a : α} {store store' : Store} {κ κ' : Kernel}
    (h : x store κ = .ok (a, store') κ') :
    (do let _ ← x : StoreM Unit) store κ = .ok ((), store') κ' := by
  change EStateM.bind (x store) _ κ = _
  unfold EStateM.bind
  rw [h]
  rfl

private theorem seals_pose {x : StoreM Nat} (r : Request) {tele : Telescope} {purpose : Purpose}
    (hx : ∀ {store store' κ κ' a}, x store κ = .ok (a, store') κ' →
      r.perform store κ = .ok ((), store') κ')
    (htele : tele.Sealed k) (hr : r.Scoped anySymbol [tele])
    (hheads : ∀ q, r = .rule q → ∀ x ∈ q.rule.steps, x.HeadClosed) :
    (sealing base posed).Keeps (onStore x >>= fun id => rememberPurpose id purpose) s k
      fun _ _ _ => True :=
  .bind (seals_onStore r [tele] hx (forall_mem_singleton.2 htele) hr hheads)
    fun _ _ _ _ _ _ _ => seals_modify rfl rfl

end SessionM

namespace Evaluator

open SessionM (sealing seals_lift seals_onStore perform_of_eq_ok)

/-- What a rule command poses. -/
def ruleRequest (x : Pattern.Execution) (replacement : TypedTerm) : RuleRequest :=
  ⟨x.telescope, ⟨x.head, x.arity, x.steps, replacement.value⟩, x.checks.map Prod.snd, x.type,
    replacement.type⟩

/-- A rule is entered in the ledger. -/
theorem accounted_poseRule {x : Execution} {v : TypedTerm} {outer : Telescope}
    (node : NodeId) (hs : s.Accounted base posed k) (hk : k.Sealed) (hx : x.Sealed k outer)
    (hv : Typed sealFooting x.telescope.depth v) :
    EndsWith (poseRule node x v) s k (fun _ s' k' => k.Leads k' ∧
      s'.Accounted base ((s.store.nextId, .rule (ruleRequest x v)) :: posed) k')
      fun _ _ => True := by
  have hrule : (ruleRequest x v).rule.Over (InScope anySymbol 0) := by
    refine ⟨hx.lays.valued.inScope, all_captureOr_iff.2 ?_⟩
    rw [Rule.captureCount_eq_sum]
    exact hx.lays.captures ▸ hv.value
  have hconditions : ∀ c ∈ (x.type, v.type) :: x.checks.map Prod.snd,
      c.1.Sealed x.telescope.depth ∧ c.2.Sealed x.telescope.depth := by
    refine forall_mem_cons.2 ⟨⟨hx.type, hv.type⟩, fun c hc => ?_⟩
    obtain ⟨c', hc', rfl⟩ := mem_map.1 hc
    exact hx.checks c' hc'
  have hpose := accounted_onStore (.rule (ruleRequest x v)) [x.telescope] perform_of_eq_ok
    (forall_mem_singleton.2 hx.lays.telescope) ⟨mem_singleton.2 rfl, hrule, hconditions⟩ ?_ hs hk
  · refine EndsWith.seq hpose ?_
    rintro id s' k' ⟨hleads, hs'⟩
    exact ⟨hleads, hs'.congr rfl rfl⟩
  · rintro q ⟨⟩
    exact hx.lays.valued.headClosed

/-! ### Programs -/

/-- Values, their types and what is equated are in scope of the telescope. -/
theorem sealGround (base : List Event) (posed : List (Nat × Request)) :
    Groundwork (sealing base posed) sealFooting where
  reads := sealFooting_reads
  tele_later hk h := Sealed.later h hk
  lift := seals_lift
  embedded index := keeps_embedded index (fun _ => trivial) fun hs v hv =>
    ⟨(hs.2.embeds v hv).value, (hs.2.embeds v hv).type⟩
  registerDeclaration id := seals_lift (sealFooting.register id)
  registerIndeterminate t := seals_onStore (.indeterminate t) [] (fun hok => hok)
    (forall_mem_nil _) trivial nofun
  registerType t h := seals_lift (sealFooting_reads.setType t h)
  explain t role node := seals_lift (sealFooting_reads.setName t (role.name node))
  isDefinable _ := .get_bind (.pure fun _ => trivial)
  poseEquation {e _ _} _ _ he := seals_pose (.equation e) perform_of_eq_ok he.telescope
    ⟨mem_singleton.2 rfl, he.lhs, he.rhs⟩ nofun
  poseCast {c _ _} _ _ hc := seals_pose (.cast c) perform_of_eq_ok hc.telescope
    ⟨mem_singleton.2 rfl, by
      simpa [Scopes] using ⟨hc.sourceType, hc.source, hc.targetType⟩⟩
    nofun
  poseApplication {a _ _} _ ha := seals_pose (.application a) perform_of_eq_ok ha.telescope
    ⟨mem_singleton.2 rfl, by
      simpa [Scopes] using ⟨ha.functionType, ha.function, ha.expectedFunctionType,
        ha.argumentType, ha.argument, ha.expectedArgumentType⟩⟩
    nofun
  poseRule node hx hvalue htype := by
    rintro ⟨hk, hs⟩
    refine (accounted_poseRule node hs hk hx ⟨hvalue, htype⟩).imp ?_
    rintro _ s' k' ⟨hleads, hs'⟩
    exact ⟨⟨hleads.isSealed, hs'.forget⟩, hleads, trivial⟩

/-- What evaluation keeps up on this groundwork. -/
abbrev sealUpkeep (base : List Event) (posed : List (Nat × Request)) :
    Upkeep (sealing base posed) :=
  (sealGround base posed).upkeep

theorem lenient_sealing : Lenient (sealing base posed) := fun _ _ _ _ _ => trivial

theorem reporting_sealUpkeep : (sealUpkeep base posed).Reporting :=
  .of_session trivial fun _ _ _ => .bind (seals_lift (KernelM.seals_note rfl))
    fun _ _ _ _ _ _ _ => seals_modify rfl rfl

end Evaluator
end Elaboration
