import Elaboration.Proofs.Session.Sealed
import Elaboration.Proofs.Theory.Model

/-!
# Committed rules

A rule command poses the equation of the types and the checks of its pattern below a telescope that
assumes what its match program expects. Where the rule fires, this holds of the captures, and so
does what was solved under the assumptions.
-/

namespace Elaboration

open Ends Kernel KernelM List Pattern Rule SessionM

open Telescope (sealFooting)
open Evaluator (Typed sealUpkeep)

variable {k k1 k' : Kernel} {s s1 s' : Session} {base : List Event} {n : Nat}
  {posed : List (Nat × Request)} {q : RuleRequest} {outer tele : Telescope}
  {locals : List TypedTerm} {commands : List Command}

/-- The request is about a pattern that was compiled below `outer`: what its telescope assumes
beyond that one is what the match program expects. -/
structure RuleRequest.Compiled (outer : Telescope) (q : RuleRequest) : Prop where
  steps : Rule.StepsOver (Term.InScope anySymbol 0) 0 q.rule.steps
  heads : ∀ x ∈ q.rule.steps, x.HeadClosed
  assumptions :
    q.telescope.assumptions = (Rule.expectations 0 q.rule.steps).reverse ++ outer.assumptions

/-! ### Rule commands in a run -/

namespace Evaluator

/-- Running commands comes to a rule command below the telescope `outer`, which poses a request
under a number. -/
inductive Poses (outer : Telescope) :
    Telescope → List TypedTerm → Session → Kernel → List Command → Nat → RuleRequest → Prop where
  /-- The first command is the rule command. -/
  | rule {locals bound inner : List TypedTerm} {s s1 s2 s3 : Session} {k k1 k2 k3 : Kernel}
      {x : Pattern.Execution} {v : TypedTerm} {id : NodeId} {pattern : Pat}
      {subclauses : List Subclause} {captures : Nat} {commands rest : List Command}
      {replacement : Expr} :
    openRule outer locals id pattern subclauses captures s k = .ok (.ok (x, bound), s1) k1 →
    runCommands x.telescope bound commands s1 k1 = .ok (inner, s2) k2 →
    eval x.telescope inner replacement s2 k2 = .ok (v, s3) k3 →
    Poses outer outer locals s k
      (.rule id pattern subclauses captures commands replacement :: rest) s3.store.nextId
      (ruleRequest x v)
  /-- It is below the first command, which is a rule command itself. -/
  | inRule {tele : Telescope} {locals bound : List TypedTerm} {s s1 : Session} {k k1 : Kernel}
      {x : Pattern.Execution} {id : NodeId} {pattern : Pat} {subclauses : List Subclause}
      {captures : Nat} {commands rest : List Command} {replacement : Expr} {n : Nat}
      {q : RuleRequest} :
    openRule tele locals id pattern subclauses captures s k = .ok (.ok (x, bound), s1) k1 →
    Poses outer x.telescope bound s1 k1 commands n q →
    Poses outer tele locals s k
      (.rule id pattern subclauses captures commands replacement :: rest) n q
  /-- It is below the first command, which quantifies. -/
  | inForAll {tele inner : Telescope} {locals bound : List TypedTerm} {s s1 : Session}
      {k k1 : Kernel} {id : NodeId} {type : Expr} {commands rest : List Command} {n : Nat}
      {q : RuleRequest} :
    openForAll tele locals id type s k = .ok ((inner, bound), s1) k1 →
    Poses outer inner bound s1 k1 commands n q →
    Poses outer tele locals s k (.forAll id type commands :: rest) n q
  /-- It comes after the first command. -/
  | later {tele : Telescope} {locals locals1 : List TypedTerm} {s s1 : Session} {k k1 : Kernel}
      {c : Command} {rest : List Command} {n : Nat} {q : RuleRequest} :
    runCommand tele locals c s k = .ok (locals1, s1) k1 →
    Poses outer tele locals1 s1 k1 rest n q → Poses outer tele locals s k (c :: rest) n q

/-- The action ends in locals in scope of the telescope, with the requests entered. -/
abbrev Enters (base : List Event) (posed : List (Nat × Request)) (tele : Telescope)
    (x : SessionM (List TypedTerm)) (s : Session) (k : Kernel) : Prop :=
  EndsWith x s k (fun locals s' k' => k.Leads k' ∧ s'.Accounted base posed k' ∧
    ∀ v ∈ locals, Typed sealFooting tele.depth v) fun _ _ => True

private theorem enters_runCommands (commands : List Command) (hk : k.Sealed) (htele : tele.Sealed k)
    (hlocals : ∀ v ∈ locals, Typed sealFooting tele.depth v) (hs : s.Accounted base posed k) :
    Enters base posed tele (runCommands tele locals commands) s k :=
  (Upkeep.keeps_runCommands (U := sealUpkeep base posed) ⟨htele, hlocals⟩ commands
    (.inl reporting_sealUpkeep) (.inl lenient_sealing) ⟨hk, hs⟩).imp
    (fun _ _ _ h => ⟨h.2.1, h.1.2, h.2.2.1.values⟩)

private theorem enters_cons {c : Command} {rest : List Command} (htele : tele.Sealed k)
    (h : Enters base posed tele (runCommand tele locals c) s k) :
    Enters base posed tele (runCommands tele locals (c :: rest)) s k := by
  rw [runCommands_cons]
  refine EndsWith.seq h ?_
  rintro locals1 s1 k1 ⟨hk1, hs1, hlocals1⟩
  refine (enters_runCommands rest hk1.isSealed (htele.later hk1) hlocals1 hs1).imp ?_
  rintro locals2 s2 k2 ⟨hk2, hrest⟩
  exact ⟨hk1.trans hk2, hrest⟩

private theorem compiled_ruleRequest {x : Execution} (v : TypedTerm) (hx : x.Sealed k outer) :
    (ruleRequest x v).Compiled outer :=
  ⟨hx.lays.valued.inScope, hx.lays.valued.headClosed, hx.lays.assumptions⟩

private theorem Poses.enters (h : Poses outer tele locals s k commands n q) (hk : k.Sealed)
    (htele : tele.Sealed k) (hlocals : ∀ v ∈ locals, Typed sealFooting tele.depth v)
    (hs : s.Accounted base posed k) :
    q.Compiled outer ∧
      Enters base ((n, .rule q) :: posed) tele (runCommands tele locals commands) s k := by
  induction h with
  | @rule locals bound inner s s1 s2 s3 k k1 k2 k3 x v id pattern subclauses captures commands rest
      replacement hopen hrun heval =>
    obtain ⟨⟨_, hs1⟩, hk1, hout⟩ := (Upkeep.keeps_openRule (U := sealUpkeep base posed) trivial
      ⟨htele, hlocals⟩ id pattern subclauses captures (.inl lenient_sealing) ⟨hk, hs⟩).of_ok hopen
    obtain ⟨hx, hbound, _⟩ := hout x bound rfl
    obtain ⟨⟨_, hs2⟩, hk2, hinner, _⟩ := (Upkeep.keeps_runCommands hbound commands
      (.inl reporting_sealUpkeep) (.inl lenient_sealing) ⟨hk1.isSealed, hs1⟩).of_ok hrun
    obtain ⟨⟨_, hs3⟩, hk3, hv⟩ :=
      (Upkeep.keeps_eval hinner replacement (.inl lenient_sealing) ⟨hk2.isSealed, hs2⟩).of_ok heval
    refine ⟨compiled_ruleRequest v hx, enters_cons htele ?_⟩
    rw [runCommand_rule, Enters, EndsWith.bind_iff]
    refine (iff_of_ok hopen).2 (EndsWith.bind_iff.2 ((iff_of_ok hrun).2 ?_))
    refine EndsWith.bind_iff.2 ((iff_of_ok heval).2 ?_)
    refine EndsWith.seq (accounted_poseRule id hs3 hk3.isSealed
      (Execution.Sealed.later hx (hk2.trans hk3)) hv) ?_
    rintro _ s4 k4 ⟨hk4, hs4⟩
    exact ⟨((hk1.trans hk2).trans hk3).trans hk4, hs4, hlocals⟩
  | @inRule tele locals bound s s1 k k1 x id pattern subclauses captures commands rest replacement
      n q hopen _ ih =>
    obtain ⟨⟨_, hs1⟩, hk1, hout⟩ := (Upkeep.keeps_openRule (U := sealUpkeep base posed) trivial
      ⟨htele, hlocals⟩ id pattern subclauses captures (.inl lenient_sealing) ⟨hk, hs⟩).of_ok hopen
    obtain ⟨hx, hbound, _⟩ := hout x bound rfl
    obtain ⟨hcompiled, hrun⟩ := ih hk1.isSealed hbound.telescope hbound.values hs1
    refine ⟨hcompiled, enters_cons htele ?_⟩
    rw [runCommand_rule, Enters, EndsWith.bind_iff]
    refine (iff_of_ok hopen).2 (EndsWith.seq hrun ?_)
    rintro inner s2 k2 ⟨hk2, hs2, hinner⟩
    have hx2 := Execution.Sealed.later hx hk2
    -- whatever the outer rule poses, the inner one stays entered
    have hrest : (sealing base ((n, .rule q) :: posed)).Keeps (do
        let v ← eval x.telescope inner replacement
        poseRule id x v
        pure locals) s2 k2 fun out _ _ => ∀ v ∈ out, Typed sealFooting tele.depth v := by
      refine .bind (Upkeep.keeps_eval (U := sealUpkeep _ _) ⟨hx2.lays.telescope, hinner⟩ replacement
        (.inl lenient_sealing)) fun v s3 k3 _ _ hk3 hv => ?_
      exact .bind ((sealGround _ _).poseRule id (Execution.Sealed.later hx2 hk3) hv.value
        hv.type) fun _ _ _ _ _ _ _ => .pure fun _ => hlocals
    refine (hrest ⟨hk2.isSealed, hs2⟩).imp ?_
    rintro out s3 k3 ⟨⟨_, hs3⟩, hk3, hout⟩
    exact ⟨(hk1.trans hk2).trans hk3, hs3, hout⟩
  | @inForAll tele inner locals bound s s1 k k1 id type commands rest n q hopen _ ih =>
    obtain ⟨⟨_, hs1⟩, hk1, hscope, _⟩ := (Upkeep.keeps_openForAll (U := sealUpkeep base posed)
      ⟨htele, hlocals⟩ id type (.inl lenient_sealing) ⟨hk, hs⟩).of_ok hopen
    obtain ⟨hcompiled, hrun⟩ := ih hk1.isSealed hscope.telescope hscope.values hs1
    refine ⟨hcompiled, enters_cons htele ?_⟩
    rw [runCommand_forAll, Enters, EndsWith.bind_iff]
    refine (iff_of_ok hopen).2 (EndsWith.seq hrun ?_)
    rintro _ s2 k2 ⟨hk2, hs2, _⟩
    exact ⟨hk1.trans hk2, hs2, hlocals⟩
  | @later tele locals locals1 s s1 k k1 c rest n q hfirst _ ih =>
    obtain ⟨⟨_, hs1⟩, hk1, hscope, _⟩ := (Upkeep.keeps_runCommand (U := sealUpkeep base posed)
      ⟨htele, hlocals⟩ c (.inl reporting_sealUpkeep) (.inl lenient_sealing) ⟨hk, hs⟩).of_ok hfirst
    obtain ⟨hcompiled, hrun⟩ := ih hk1.isSealed hscope.telescope hscope.values hs1
    refine ⟨hcompiled, ?_⟩
    rw [runCommands_cons, Enters, EndsWith.bind_iff]
    refine (iff_of_ok hfirst).2 (hrun.imp ?_)
    rintro out s2 k2 ⟨hk2, hrest⟩
    exact ⟨hk1.trans hk2, hrest⟩

end Evaluator

/-- Elaborating the program comes to a rule command below the telescope `outer`, which poses a
request under a number. -/
def Program.Poses (p : Program) (s : Session) (k : Kernel) (outer : Telescope) (n : Nat)
    (q : RuleRequest) : Prop :=
  ∃ root k0, Telescope.root k = .ok root k0 ∧ Evaluator.Poses outer root [] s k0 p.commands n q

namespace SessionM

open Evaluator (Enters)

private theorem accounted_elaborate (p : Program) (hk : k.Sealed)
    (hcommands : ∀ root k0, Telescope.root k = .ok root k0 → k.Leads k0 →
      Quiet k.journal k0.journal → root.Sealed k0 →
      Enters base posed root (Evaluator.runCommands root [] p.commands) s k0) :
    EndsWith (elaborate p) s k (fun _ s' k' => k.Leads k' ∧ s'.Accounted base posed k')
      fun _ _ => True := by
  rw [elaborate, Evaluator.evalProgram_eq]
  simp only [bind_assoc, pure_bind]
  rw [EndsWith.bind_iff, EndsWith.lift_iff]
  refine of_answer fun root k0 hroot => ?_
  obtain ⟨hk0, hquiet, _, _, hsealed⟩ := (Telescope.seals_root hk).of_ok hroot
  refine EndsWith.seq (hcommands root k0 hroot hk0 hquiet hsealed) ?_
  rintro locals s1 k1 ⟨hk1, hs1, hlocals⟩
  have hrest : (sealing base posed).Keeps (do
      let v ← Evaluator.eval root locals p.value
      liftM (note (.evaluated v.value v.type))
      onStore StoreM.run
      let s ← get
      liftM (note (.elaborated s.failures.length s.store.pending))
      pure v) s1 k1 fun _ _ _ => True := by
    refine .bind (Evaluator.Upkeep.keeps_eval (U := sealUpkeep base posed)
      ⟨hsealed.later hk1, hlocals⟩ p.value (.inl Evaluator.lenient_sealing)) fun v _ _ _ _ _ _ => ?_
    refine .bind (seals_lift (seals_note rfl)) fun _ _ _ _ _ _ _ => ?_
    refine .bind (seals_onStore .run [] (fun h => h) (forall_mem_nil _) trivial
      nofun) fun _ _ _ _ _ _ _ => ?_
    refine .get_bind (.bind (seals_lift (seals_note rfl)) fun _ _ _ _ _ _ _ => ?_)
    exact .pure fun _ => trivial
  refine (hrest ⟨hk1.isSealed, hs1⟩).imp ?_
  rintro _ s2 k2 ⟨⟨_, hs2⟩, hk2, _⟩
  exact ⟨(hk0.trans hk1).trans hk2, hs2⟩

private theorem seals_elaborate (p : Program) :
    (sealing base posed).Keeps (elaborate p) s k fun _ _ _ => True := by
  rintro ⟨hk, hs⟩
  refine EndsWith.imp (accounted_elaborate p hk fun root k0 _ hk0 hquiet hroot => ?_)
    fun _ _ _ h => ⟨⟨h.1.isSealed, h.2⟩, h.1, trivial⟩
  exact Evaluator.enters_runCommands p.commands hk0.isSealed hroot (forall_mem_nil _)
    (hs.later hk0 hquiet)

private theorem seals_embed {v : TypedTerm} (hv : v.Sealed 0) :
    (sealing base posed).Keeps (embed v) s k fun _ _ _ => True := by
  rintro ⟨hk, hs⟩
  refine ⟨⟨hk, ?_, hs.ledger⟩, .refl hk, trivial⟩
  exact forall_mem_append.2 ⟨hs.embeds, forall_mem_singleton.2 hv⟩

private theorem seals_declarePostulate (name : String) {type : Term} (h : type.Sealed 0) :
    (sealing base posed).Keeps (declarePostulate name type) s k fun _ _ _ => True := by
  refine .bind (seals_lift sealFooting.keeps_freshPostulate) ?_
  rintro _ _ _ _ _ _ ⟨id, rfl⟩
  refine .bind (seals_lift (seals_setType _ h)) fun _ _ _ _ _ _ _ => ?_
  refine .bind (seals_lift (seals_setName _ name)) fun _ _ _ _ _ _ _ => ?_
  exact .bind (seals_embed ⟨trivial, h⟩) fun _ _ _ _ _ _ _ => .pure fun _ => trivial

private theorem seals_finish : (sealing base posed).Keeps finish s k fun _ _ _ => True := by
  have hforget : ∀ {s : Session} {k : Kernel}, (sealing base posed).Keeps
      (set { s with embeds := [], failures := [] }) s k fun _ _ _ => True :=
    fun ⟨hk, hs⟩ => ⟨⟨hk, forall_mem_nil _, hs.ledger⟩, .refl hk, trivial⟩
  refine .bind (seals_onStore .close [] (fun h => h) (forall_mem_nil _) trivial
    nofun) fun _ _ _ _ _ _ _ => ?_
  refine .get_bind (.bind hforget fun _ _ _ _ _ _ _ => ?_)
  exact .bind (seals_lift (seals_note rfl)) fun _ _ _ _ _ _ _ => .pure fun _ => trivial

end SessionM

/-! ### Courses of a session -/

/-- What is made available mentions neither an argument nor a placeholder, and neither does its
type. -/
def Errand.Sealed : Errand → Prop
  | embed v => v.Sealed 0
  | postulate _ type => type.Sealed 0
  | _ => True

private theorem Errand.seals_perform {e : Errand} (he : e.Sealed) :
    (sealing base posed).Keeps e.perform s k fun _ _ _ => True := by
  have hdone : ∀ {α : Type} {x : SessionM α},
      (sealing base posed).Keeps x s k (fun _ _ _ => True) →
      (sealing base posed).Keeps (do let _ ← x) s k fun _ _ _ => True :=
    fun hx => .bind hx fun _ _ _ _ _ _ _ => .pure fun _ => trivial
  cases e with
  | embed v => exact hdone (seals_embed he)
  | postulate name type => exact hdone (seals_declarePostulate name he)
  | elaborate p => exact hdone (seals_elaborate p)
  | finish => exact hdone seals_finish

/-- What a session and its kernel come to: errands are performed, and in between the kernel grows
otherwise, staying sealed. -/
inductive Session.Course (s : Session) (k : Kernel) : Session → Kernel → Prop where
  | refl : Course s k s k
  | errand {s1 s2 : Session} {k1 k2 : Kernel} (e : Errand) : Course s k s1 k1 → e.Sealed →
    e.perform s1 k1 = .ok ((), s2) k2 → Course s k s2 k2
  | outside {s1 : Session} {k1 k2 : Kernel} : Course s k s1 k1 → k1.Leads k2 →
    Quiet k1.journal k2.journal → Course s k s1 k2

/-- What was recorded since a kernel was as it was at the start. -/
def Kernel.recordedSince (start k : Kernel) : List Event :=
  k.journal.take (k.journal.length - start.journal.length)

private theorem Session.Course.accounted (h : Course s k s' k') (hk : k.Sealed)
    (hs : s.Accounted base posed k) : k'.Sealed ∧ s'.Accounted base posed k' := by
  induction h with
  | refl => exact ⟨hk, hs⟩
  | @errand s1 s2 k1 k2 e _ he hperform ih =>
    exact ((Errand.seals_perform he ⟨ih.1, ih.2⟩).of_ok hperform).1
  | outside _ hleads hquiet ih => exact ⟨hleads.isSealed, ih.2.later hleads hquiet⟩

/-! ### Runs that are decided by evaluation -/

/-- What a rule captures on arguments, by rules alone and to a depth. -/
def Reduction.captures? (R : RuleTable) (depth : Nat) (r : Rule) (args : List Term) :
    Option (List Term) :=
  match runSteps (reduceMemo R .none depth .full) r.steps [] args .empty with
  | some (some (caps, _), _) => some caps
  | _ => none

private theorem Reduction.firesOn_of_captures? {R : RuleTable} {depth : Nat} {r : Rule}
    {args caps : List Term} (h : captures? R depth r args = some caps) :
    FiresOn R .none r args caps := by
  unfold captures? at h
  split at h
  · next rest memo hrun =>
    cases h
    exact ⟨depth, .empty, memo, rest, valid_empty, hrun⟩
  · cases h

private theorem Program.exists_of_commits (p : Program) (errands : List Errand)
    (Q : RuleRequest → Kernel → Prop) {c : Command} {id : NodeId} {pattern : Pat}
    {subclauses : List Subclause} {captures : Nat} {replacement : Expr} {rest : List Command}
    (hp : p.commands = c :: .rule id pattern subclauses captures [] replacement :: rest)
    (h : ∃ x k, errands.forM Errand.perform (.initial initial) initial = .ok x k ∧
      ∃ y k', elaborate p x.2 k = .ok y k' ∧
      ∃ root k0, Telescope.root k = .ok root k0 ∧ root.assumptions.isEmpty ∧
      ∃ z k1, Evaluator.runCommand root [] c x.2 k0 = .ok z k1 ∧
      ∃ w k2, Evaluator.openRule root z.1 id pattern subclauses captures z.2 k1 = .ok w k2 ∧
      ∃ u, w.1 = .ok u ∧ ∃ v k3, Evaluator.eval u.1.telescope u.2 replacement w.2 k2 = .ok v k3 ∧
      (∃ e ∈ initial.recordedSince k', e.decided? true = some v.2.store.nextId) ∧
      Q (Evaluator.ruleRequest u.1 v.1) k') :
    ∃ s k outer n q v s1 k1,
      errands.forM Errand.perform (.initial initial) initial = .ok ((), s) k ∧
      p.Poses s k outer n q ∧ outer.assumptions = [] ∧
      elaborate p s k = .ok (v, s1) k1 ∧
      .settled (.commitment n true) ∈ initial.recordedSince k1 ∧ Q q k1 := by
  obtain ⟨⟨⟨⟩, s⟩, k, herrands, ⟨v', s'⟩, k', helaborate, root, k0, hroot, houter, z, k1, hfirst,
    ⟨_, s2⟩, k2, hopen, u, rfl, v, k3, heval, ⟨e, he, hnumber⟩, hQ⟩ := h
  have hposes : p.Poses s k root v.2.store.nextId (Evaluator.ruleRequest u.1 v.1) :=
    ⟨root, k0, hroot, hp ▸ .later hfirst (.rule hopen rfl heval)⟩
  exact ⟨s, k, root, _, _, v', s', k', herrands, hposes, isEmpty_iff.1 houter, helaborate,
    Event.eq_of_decided? hnumber ▸ he, hQ⟩

/-! ### Firings -/

private theorem Equal.subst_of_matchedBy {R S : RuleTable} {A : List (Term × Term)} {t u : Term}
    {steps : List Step} {args caps rest : List Term}
    (h : Equal R (expectations 0 steps).reverse t u) (hR : R.Closed) (hheads : R.HeadsClosed)
    (hRS : R.Sub S) (hsteps : StepsClosed 0 steps) (hclosed : ∀ x ∈ steps, x.HeadClosed)
    (hmatched : MatchedBy (Equal S A) steps [] args caps rest) :
    Equal S A (t.subst caps) (u.subst caps) :=
  h.subst hR hheads hRS caps fun a ha =>
    hmatched.expected hsteps hclosed a (mem_reverse.1 ha)

namespace Session

/-- A committed rule is installed as it was requested and fires only where its side conditions hold.
Take a rule command that a program comes to below a telescope without assumptions, in a session in
which no value that is made available and no type mentions an argument or a placeholder. If its
request was recorded as committed, then wherever the rule fires, under these or more rules, the
types of pattern and replacement and both sides of every check are equal for the captured values. In
a local context this is so under the assumptions of the context, and for what the captured values
stand for. -/
theorem holds_of_fires {start : Kernel} {p : Program} {v : TypedTerm}
    (hstart : start.Sealed) (hbefore : Course (.initial start) start s k)
    (hposes : p.Poses s k outer n q) (houter : outer.assumptions = [])
    (helaborate : SessionM.elaborate p s k = .ok (v, s1) k1) (hafter : Course s1 k1 s' k')
    (hcommitted : .settled (.commitment n true) ∈ start.recordedSince k') :
    (∃ head, q.rule.head = .decl head ∧ k'.rules.ruleFor? head = some q.rule) ∧
      ∀ S, k'.rules.Sub S → ∀ c ∈ (q.patternType, q.replacementType) :: q.checks,
        (∀ args caps, Reduction.FiresOn S .none q.rule args caps →
          Equal S [] (c.1.subst caps) (c.2.subst caps)) ∧
        ∀ A e args caps, S.Over Term.Plain → Equalities.Reached S A e →
          (∀ x ∈ args, x.All (Term.ClassOr e.classes.size Term.Plain)) →
          Reduction.FiresOn S e.replacer q.rule args caps →
          Equal S A (c.1.subst (caps.map e.eliminate)) (c.2.subst (caps.map e.eliminate)) := by
  obtain ⟨hk, hs⟩ := hbefore.accounted hstart (accounted_initial hstart)
  obtain ⟨root, k0, hroot, hposes⟩ := hposes
  obtain ⟨hk0, hquiet, _, _, htele⟩ := (Telescope.seals_root hk).of_ok hroot
  obtain ⟨hcompiled, henters⟩ :=
    hposes.enters hk0.isSealed htele (forall_mem_nil _) (hs.later hk0 hquiet)
  obtain ⟨hk1, hs1⟩ := (SessionM.accounted_elaborate p hk fun root' k0' hroot' _ _ _ => by
    cases hroot.symm.trans hroot'
    exact henters).of_ok helaborate
  obtain ⟨hk', hs'⟩ := hafter.accounted hk1.isSealed hs1
  obtain ⟨log, events, hlog, hledger, new, hnew, hevents⟩ := hs'.ledger
  have hsince : start.recordedSince k' = new := by simp [Kernel.recordedSince, hnew]
  have hrequest := hlog _ mem_cons_self
  have hcommitted' := hevents _ (hsince ▸ hcommitted) rfl
  refine ⟨(hledger.decided hrequest hcommitted').1, fun S hS c hc => ?_⟩
  have hassumptions : q.telescope.assumptions = (expectations 0 q.rule.steps).reverse := by
    rw [hcompiled.assumptions, houter, append_nil]
  have hequal := hassumptions ▸ hledger.equal_of_committed hrequest hcommitted' hc
  have hcaptured : ∀ {A args caps rest},
      MatchedBy (Equal S A) q.rule.steps [] args caps rest →
      Equal S A (c.1.subst caps) (c.2.subst caps) :=
    fun hmatched => hequal.subst_of_matchedBy hk'.rules.closed hk'.heads hS hcompiled.steps.closed
      hcompiled.heads hmatched
  constructor
  · intro args caps hfires
    obtain ⟨rest, hmatched⟩ := hfires.matchedBy_equal []
    exact hcaptured hmatched
  · intro A e args caps hplain he hargs hfires
    have hsteps : StepsOver Term.Plain 0 q.rule.steps := by
      refine hcompiled.steps.mono ?_
      rintro a ha i rfl
      exact ha
    obtain ⟨rest, hmatched⟩ := hfires.matchedBy_eliminate he hplain hsteps hargs
    exact hcaptured hmatched

private theorem Course.of_forM {errands : List Errand} (h : Course s k s1 k1)
    (herrands : ∀ e ∈ errands, e.Sealed)
    (hrun : errands.forM Errand.perform s1 k1 = .ok ((), s') k') : Course s k s' k' := by
  have hends : EndsWith (errands.forM Errand.perform) s1 k1 (fun _ s' k' => Course s k s' k')
      fun _ _ => True := by
    clear hrun
    induction errands generalizing s1 k1 with
    | nil => exact h
    | cons e errands ih =>
      rw [forall_mem_cons] at herrands
      refine EndsWith.bind_iff.2 (of_answer fun r k' hr => ?_)
      exact ih (.errand e h herrands.1 hr) herrands.2
  exact hends.of_ok hrun

-- the tests of the programs below are nested deeply
set_option synthInstance.maxSize 4000

/-- Postulates `a : Type`, `F : Type → Type` and `w : F a`. -/
def pointErrands : List Errand :=
  [.postulate "a" Primitive.type,
    .postulate "F" (Primitive.functionType Primitive.type Primitive.type),
    .postulate "w" (.app (.postulate 11) (.postulate 10))]

/-- A dependent function `g : (x : Type) → F x` with `g a := w`, and a declaration `b := a`. -/
def pointProgram : Program :=
  ⟨[.declare 0 (.app 1 (.app 2 (.arrow 3) (.type 4)) (.embed 5 1)),
    .rule 6 (.app 7 (.var 8 0) (.embed 9 0)) [] 0 [] (.embed 10 2), .declare 11 (.type 12),
    .rule 13 (.var 14 1) [] 0 [] (.embed 15 0)], .var 16 0⟩

/-- The types of `g x` and of `w` are equal where the rule of `g` fires, which it does on `b`. -/
theorem holds_of_fires_point : ∃ s k outer n q v s1 k1,
    Course (.initial Kernel.initial) Kernel.initial s k ∧ pointProgram.Poses s k outer n q ∧
      outer.assumptions = [] ∧ SessionM.elaborate pointProgram s k = .ok (v, s1) k1 ∧
      .settled (.commitment n true) ∈ Kernel.initial.recordedSince k1 ∧
      (q.patternType, q.replacementType) =
        (.app (.postulate 11) (.arg 0), .app (.postulate 11) (.postulate 10)) ∧
      Reduction.FiresOn k1.rules .none q.rule [.decl 20] [.decl 20] ∧
      Equal k1.rules [] (.app (.postulate 11) (.decl 20))
        (.app (.postulate 11) (.postulate 10)) := by
  obtain ⟨s, k, outer, n, q, v, s1, k1, herrands, hposes, houter, helaborate, hcommitted, htypes,
      hcaptures⟩ :=
    Program.exists_of_commits pointProgram pointErrands (fun q k =>
      (q.patternType, q.replacementType) =
        (.app (.postulate 11) (.arg 0), .app (.postulate 11) (.postulate 10)) ∧
      Reduction.captures? k.rules 8 q.rule [.decl 20] = some [.decl 20]) rfl (by decide +kernel)
  have hsealed : ∀ e ∈ pointErrands, e.Sealed := by
    simp [pointErrands, Errand.Sealed, Primitive.functionType, Primitive.arrowOf,
      Primitive.constantFamily, Primitive.arrow, Primitive.constant, Primitive.type, Term.InScope,
      anySymbol]
  have hbefore := Course.refl.of_forM hsealed herrands
  have hfires := Reduction.firesOn_of_captures? hcaptures
  have hholds := (holds_of_fires Kernel.sealed_initial hbefore hposes houter helaborate .refl
    hcommitted).2 k1.rules (.refl _) _ mem_cons_self
  have hequal := hholds.1 _ _ hfires
  rw [htypes] at hequal
  exact ⟨s, k, outer, n, q, v, s1, k1, hbefore, hposes, houter, helaborate, hcommitted,
    htypes, hfires,
    hequal⟩

/-! ### Placeholders -/

/-- Postulates `a : Type` and `F : Type → Type`, a placeholder as a type, and a postulate `w` of
type `F` at the placeholder. -/
def placeholderErrands : List Errand :=
  [.postulate "a" Primitive.type,
    .postulate "F" (Primitive.functionType Primitive.type Primitive.type),
    .embed ⟨.placeholder 0, Primitive.type⟩,
    .postulate "w" (.app (.postulate 11) (.placeholder 0))]

/-- A declaration `c : F a` with `c := w` where the placeholder is matched against `a`. -/
def placeholderProgram : Program :=
  ⟨[.declare 0 (.app 1 (.embed 2 1) (.embed 3 0)),
    .rule 4 (.var 5 0) [⟨6, [], .embed 7 2, .embed 8 0⟩] 0 [] (.embed 9 3)], .var 10 0⟩

/-- The rules of the declarations that the program makes. -/
def placeholderRules : List (Nat × Rule) :=
  [(14, .lambda (.decl 14) 0 (.app (.postulate 11) (.postulate 10))),
    (13, ⟨.decl 13, 0, [.destructure (.postulate 10) (.postulate 10) 0], .postulate 12⟩)]

/-- The values of the declarations. -/
def placeholderValues : Nat → Value
  | 13 => .atom (.postulate 12)
  | 14 => .spine (.atom (.postulate 11)) (.atom (.postulate 10))
  | id => Value.ofBuiltIn id

private theorem models_placeholderRules : ∀ x ∈ Primitive.rules ++ placeholderRules,
    Value.Models placeholderValues x.1 x.2 := by
  refine forall_mem_append.2 ⟨Value.models_of_mem_rules ?_, ?_⟩
  · intro id hid
    have hlt : id < 10 := hid
    unfold placeholderValues
    split
    · omega
    · omega
    · rfl
  · simp only [placeholderRules, forall_mem_cons]
    refine ⟨Value.models_lambda fun ρ => rfl, ?_, forall_mem_nil _⟩
    rintro args caps rest ⟨ys, hlength, -, rfl, rfl⟩
    cases eq_nil_of_length_eq_zero hlength
    have hvalue : Value.Equates placeholderValues (.decl 13) (.postulate 12) := fun ρ => rfl
    exact hvalue.apply rest

/-- If a placeholder is made available, a committed rule may fire where its side conditions do not
hold: when the types are compared, it stands for the class of `a`. -/
theorem exists_fires_and_not_equal : Kernel.initial.Sealed ∧ ∃ s k outer n q v s1 k1 r caps,
    placeholderErrands.forM Errand.perform (.initial Kernel.initial) Kernel.initial =
        .ok ((), s) k ∧
      placeholderProgram.Poses s k outer n q ∧ outer.assumptions = [] ∧
      SessionM.elaborate placeholderProgram s k = .ok (v, s1) k1 ∧
      .settled (.commitment n true) ∈ Kernel.initial.recordedSince k1 ∧
      q.rule.head = .decl 13 ∧ k1.rules.ruleFor? 13 = some r ∧
      Reduction.FiresOn k1.rules .none r [] caps ∧
      ¬ Equal k1.rules [] (q.patternType.subst caps) (q.replacementType.subst caps) := by
  obtain ⟨s, k, outer, n, q, v, s1, k1, herrands, hposes, houter, helaborate, hcommitted, hpattern,
      hreplacement, hhead, ⟨r, hr, hcaptures⟩, hrules⟩ :=
    Program.exists_of_commits placeholderProgram placeholderErrands (fun q k =>
      q.patternType = .app (.app Primitive.identity Primitive.type) (.decl 14) ∧
      q.replacementType = .app (.postulate 11) (.placeholder 0) ∧ q.rule.head = .decl 13 ∧
      (∃ r, k.rules.ruleFor? 13 = some r ∧ Reduction.captures? k.rules 8 r [] = some []) ∧
      ∀ x ∈ k.rules.rules.entries, x ∈ Primitive.rules ++ placeholderRules) rfl (by decide +kernel)
  refine ⟨Kernel.sealed_initial, s, k, outer, n, q, v, s1, k1, r, [], herrands, hposes, houter,
    helaborate, hcommitted, hhead, hr, Reduction.firesOn_of_captures? hcaptures, fun hequal => ?_⟩
  have hE : Theory k1.rules [] (Value.Equates placeholderValues) :=
    Value.theory_equates fun id r hr =>
      models_placeholderRules (id, r) (hrules _ (Table.mem_of_get? hr))
  have hvalues := equal_le hE hequal fun _ => Value.type
  rw [hpattern, hreplacement] at hvalues
  cases hvalues

end Session
end Elaboration
