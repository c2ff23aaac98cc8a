import Elaboration.Proofs.Session.Books
import Elaboration.Proofs.Session.Groundwork

/-!
# Every failure is reported once

Evaluation enters the failures of rules that are rejected and answers no obligation. Running answers
obligations, and finishing those that are left. So finishing returns the failures of rejected rules
and of the answers that are failures of their own, once each.
-/

namespace Elaboration

open EndsWith KernelM List SessionM StoreM Term

variable {α β : Type}

/-! ### Actions of the kernel that answer nothing -/

/-- A journal grew by events that answer nothing. -/
def Unanswering (journal journal' : List Event) : Prop :=
  ∃ new, journal' = new ++ journal ∧ answersIn new = []

private theorem Unanswering.refl (journal : List Event) : Unanswering journal journal :=
  ⟨[], rfl, rfl⟩

private theorem Unanswering.trans {j1 j2 j3 : List Event} (h : Unanswering j1 j2)
    (h' : Unanswering j2 j3) : Unanswering j1 j3 := by
  obtain ⟨new, rfl, hnew⟩ := h
  obtain ⟨new', rfl, hnew'⟩ := h'
  exact ⟨new' ++ new, (append_assoc ..).symm, by rw [answersIn_append, hnew, hnew']; rfl⟩

private theorem Quiet.unanswering {j j' : List Event} (h : Quiet j j') : Unanswering j j' := by
  obtain ⟨new, hnew, hquiet⟩ := h
  exact ⟨new, hnew, answersIn_of_quiet fun e he => Event.obligation?_eq_none (hquiet e he)⟩

/-- A program refers to what is not there. -/
def Stop.ofScope : Stop → Bool
  | .violation (.localOutOfScope _ _) => true
  | .violation (.captureUnbound _) => true
  | _ => false

private theorem Stop.not_ofScope {e : Stop} (h : e.ofContext) : e.ofScope = false := by
  cases e with
  | exhausted => rfl
  | violation v => cases v <;> simp_all [Stop.ofContext, Stop.ofScope]

namespace KernelM

/-- Nothing is recorded about obligations, and nothing is wrong with a program. -/
def silence : Course Stop Kernel where
  Holds _ := True
  Leads k k' := Quiet k.journal k'.journal
  Stops _ e _ := e.ofScope = false
  refl _ := .refl _
  trans := .trans
  stops _ h := h

variable {k : Kernel}

private theorem silence_of_ends {x : KernelM α} {Q : α → Kernel → Prop}
    (h : Ends x k (fun _ k' => Quiet k.journal k'.journal) fun e _ => e.ofScope = false)
      (hQ : ∀ a k', Q a k') :
    silence.Keeps x k Q :=
  fun _ => h.imp (fun a k' h => ⟨trivial, h, hQ a k'⟩)

/-- Of telescopes and terms nothing is said. -/
def silentFooting : Footing silence where
  Tele _ _ := True
  value _ _ := True
  side _ _ := True
  tele_later _ h := h
  value_mono _ h := h
  side_mono _ h := h
  side_value h := h
  value_arg _ := trivial
  value_postulate := trivial
  value_decl := trivial
  value_leaf := trivial
  note he := silence_of_ends (quiet_cons he _) fun _ _ => trivial
  freshSymbol := silence_of_ends (Quiet.refl _) fun _ _ => trivial
  register _ := silence_of_ends (Quiet.refl _) fun _ _ => trivial
  addLambda _ _ := by
    refine silence_of_ends ((ends_addRule _ _).mono ?_ ?_) fun _ _ => trivial
    · rintro _ _ ⟨id, _, _, hfree, rfl⟩
      exact (Kernel.extends_withRule hfree).quiet
    · rintro _ _ ⟨_, ⟨_, rfl⟩ | ⟨_, _, ⟨_, rfl⟩ | ⟨_, rfl⟩⟩⟩ <;> rfl
  extend _ _ := silence_of_ends ((Telescope.ends_extend ..).mono (fun _ _ h => h.extends.quiet)
    fun _ _ ⟨_, _, _, _, he⟩ => he ▸ rfl) fun _ _ => trivial

theorem silentFooting_reads : silentFooting.Reads where
  family _ := all_trivial _
  pi _ := all_trivial _
  typeOfArg _ _ := all_trivial _
  typeOfSymbol _ _ := all_trivial _
  setName _ _ := silence_of_ends (ends_setName fun _ => .refl _) fun _ _ => trivial
  setType _ _ := silence_of_ends (ends_setType (fun _ => .refl _) rfl) fun _ _ => trivial
  reduceClean _ _ := by
    refine silence_of_ends (Ends.bind (Telescope.ends_reduce ..) (fun u k1 hreduced => ?_) ?_)
      fun _ _ => all_trivial _
    · exact (Telescope.ends_eliminate ..).mono (fun _ _ h => h.1 ▸ hreduced.quiet)
        fun _ _ h => h.2.1 ▸ rfl
    · exact fun _ _ h => Stop.not_ofScope h.1
  assume _ _ _ := silence_of_ends ((Telescope.ends_assume ..).mono (fun _ _ h => h.quiet)
    fun _ _ h => Stop.not_ofScope h.1) fun _ _ => trivial

end KernelM

/-! ### Actions that keep the books -/

/-- The action keeps the books: it answers no obligation, the failures that it enters are those in
`rejected`, and its answer is in `Q`. -/
def Conducts (rejected : List Failure) (x : SessionM α) (s : Session) (k : Kernel)
    (Q : α → Prop) : Prop :=
  ∀ answers old, s.Books answers old → EndsWith x s k
    (fun a s' k' => s'.Books answers (old ++ rejected) ∧ Unanswering k.journal k'.journal ∧ Q a)
    fun _ _ => True

namespace Conducts

variable {s : Session} {k : Kernel} {x : SessionM α} {f : α → SessionM β} {Q : α → Prop}
  {Q' : β → Prop} {rejected later : List Failure}

private theorem pure {a : α} (h : Q a) : Conducts [] (pure a) s k Q := by
  intro answers old hs
  exact ⟨(append_nil old).symm ▸ hs, .refl _, h⟩

private theorem andThen (hx : Conducts rejected x s k Q)
    (hf : ∀ a s' k', x s k = .ok (a, s') k' → Q a → Conducts later (f a) s' k' Q') :
    Conducts (rejected ++ later) (x >>= f) s k Q' := by
  intro answers old hs
  rw [bind_iff]
  refine Ends.of_answer fun p k' hok => ?_
  obtain ⟨hbooks, hquiet, hQ⟩ := (hx answers old hs).of_ok hok
  refine (hf p.1 p.2 k' hok hQ answers _ hbooks).imp ?_
  rintro b s'' k'' ⟨hbooks', hquiet', hQ'⟩
  exact ⟨append_assoc .. ▸ hbooks', hquiet.trans hquiet', hQ'⟩

private theorem bindAt (hx : Conducts [] x s k Q)
    (hf : ∀ a s' k', x s k = .ok (a, s') k' → Q a → Conducts later (f a) s' k' Q') :
    Conducts later (x >>= f) s k Q' := by
  have h := andThen hx hf
  exact h

private theorem bind (hx : Conducts [] x s k Q)
    (hf : ∀ a s' k', Q a → Conducts later (f a) s' k' Q') : Conducts later (x >>= f) s k Q' :=
  bindAt hx fun a s' k' _ => hf a s' k'

private theorem lift {y : KernelM α} (h : silence.Keeps y k fun _ _ => True) :
    Conducts [] (liftM y) s k fun _ => True := by
  intro answers old hs
  rw [lift_iff]
  refine (h trivial).answer (fun a k' h => ?_)
  exact ⟨(append_nil old).symm ▸ hs, h.2.1.unanswering, trivial⟩

private theorem report (f : Failure) : Conducts [f] (report f) s k fun _ => True := by
  intro answers old hs
  unfold SessionM.report
  rw [bind_iff, lift_iff, ends_note, modify_iff]
  exact ⟨hs.reject rfl rfl rfl, ⟨[.reported f], rfl, rfl⟩, trivial⟩

private theorem pose {x : StoreM Nat} {r : Request} {o : Obligation} {es : List (Equation × Slot)}
    {purpose : Purpose} (hr : r.obligation? = some (o, es))
    (hx : ∀ {Q : Nat → Store → Kernel → Prop} {X : Stop → Kernel → Prop},
      EndsWith x s.store { k with journal := [] } Q X ↔
        Q s.store.nextId (s.store.posing o es) { k with journal := [] })
    (hpromises : ∀ id, purpose.promises id = r.promises id)
    (hflag : ∀ node checks failed, purpose = .rule node checks failed → failed = false)
    (hrule : ∀ q, r = .rule q → ∃ head, q.rule.head = .decl head) :
    Conducts [] (onStore x >>= fun id => rememberPurpose id purpose) s k
      fun _ => True := by
  intro answers old hs
  have hposed : x s.store { k with journal := [] } =
      .ok (s.store.nextId, s.store.posing o es) { k with journal := [] } :=
    eq_ok (hx.2 ⟨rfl, rfl, rfl⟩)
  obtain ⟨recorded, hrecorded, hok⟩ := onStore_eq_ok hposed
  rw [bind_iff]
  refine (Ends.iff_of_ok hok).2 (modify_iff.2 ⟨?_, ⟨recorded, rfl, hrecorded⟩, trivial⟩)
  rw [append_nil]
  exact hs.pose hr (hpromises _) hflag hrule rfl rfl rfl

private theorem registerIndeterminate (t : Term) :
    Conducts [] (onStore (registerIndeterminate t)) s k fun _ => True := by
  intro answers old hs
  cases hok : StoreM.registerIndeterminate t s.store { k with journal := [] } with
  | error e k' =>
    unfold EndsWith Ends onStore
    rw [hok]
    trivial
  | ok p k' =>
    obtain ⟨_, store⟩ := p
    obtain ⟨rfl, _⟩ := (ends_registerIndeterminate t _ _).of_ok hok
    obtain ⟨recorded, hrecorded, hsession⟩ := onStore_eq_ok hok
    obtain ⟨hheard, hposed⟩ := hs.perform k.names (r := .indeterminate t) rfl
      (fun _ => nofun) hok rfl
    refine (Ends.iff_of_ok hsession).2 ⟨?_, ⟨recorded, rfl, hrecorded⟩, trivial⟩
    rw [append_nil]
    exact ⟨hheard, hposed, hs.decided⟩

end Conducts

/-! ### The books as a regime -/

/-- Nothing is answered and no failure is entered. -/
def bookkeeping (answers : List Settlement) (old : List Failure) : Regime Stop Kernel Session where
  Holds s _ := s.Books answers old
  Leads _ k _ k' := Unanswering k.journal k'.journal
  Stops _ _ _ _ := True
  refl _ := .refl _
  trans h h' := h.trans h'
  stops _ h := h

namespace Conducts

variable {s : Session} {k : Kernel} {x : SessionM α} {Q : α → Prop}

private theorem keeps {answers : List Settlement} {old : List Failure} (h : Conducts [] x s k Q) :
    (bookkeeping answers old).Keeps x s k fun a _ _ => Q a :=
  fun hs => (append_nil old) ▸ h answers old hs

private theorem of_keeps
    (h : ∀ answers old, (bookkeeping answers old).Keeps x s k fun a _ _ => Q a) :
    Conducts [] x s k Q := by
  intro answers old hs
  rw [append_nil]
  exact h answers old hs

end Conducts

namespace Evaluator

open KernelM (silentFooting)

variable {s : Session} {k : Kernel} {locals : List TypedTerm} {tele : Telescope}

private theorem conducts_poseRule (node : NodeId) (x : Pattern.Execution) (replacement : TypedTerm)
    (hx : ∃ head, x.head = .decl head) :
    Conducts [] (poseRule node x replacement) s k fun _ => True := by
  refine .pose (r := .rule _) rfl ends_poseRule (fun id => ?_) ?_ ?_
  · rw [Purpose.promises, Request.promises, length_map, length_map]
  · rintro _ _ _ ⟨⟩
    rfl
  · rintro q ⟨⟩
    exact hx

/-! ### Evaluation -/

private theorem bookkeeping_lift {answers : List Settlement} {old : List Failure} {α : Type}
    {y : KernelM α} {Q : α → Kernel → Prop} (hy : KernelM.silence.Keeps y k Q) :
    (bookkeeping answers old).Keeps (liftM y) s k fun a _ k' => Q a k' :=
  fun hs => lift_iff.2 ((hy trivial).answer fun _ _ h => ⟨hs, h.2.1.unanswering, h.2.2⟩)

private theorem bookGround (answers : List Settlement) (old : List Failure) :
    Groundwork (bookkeeping answers old) silentFooting where
  reads := silentFooting_reads
  tele_later _ h := h
  lift := bookkeeping_lift
  embedded index := keeps_embedded index (fun _ => trivial)
    fun _ _ _ => ⟨all_trivial _, all_trivial _⟩
  registerDeclaration id := bookkeeping_lift (silentFooting.register id)
  registerIndeterminate t := (Conducts.registerIndeterminate t).keeps
  registerType t h := bookkeeping_lift (silentFooting_reads.setType t h)
  explain t role node := bookkeeping_lift (silentFooting_reads.setName t (role.name node))
  isDefinable _ := .get_bind (.pure fun _ => trivial)
  poseEquation _ _ _ := by
    refine (Conducts.pose (r := .equation _) rfl ends_poseEquation (fun _ => rfl) ?_ nofun).keeps
    exact fun _ _ _ => nofun
  poseCast _ _ _ := by
    refine (Conducts.pose (r := .cast _) rfl ends_poseCast (fun _ => rfl) ?_ nofun).keeps
    exact fun _ _ _ => nofun
  poseApplication _ _ := by
    refine (Conducts.pose (r := .application _) rfl ends_poseApplication (fun _ => rfl) ?_
      nofun).keeps
    exact fun _ _ _ => nofun
  poseRule node hx _ _ := (conducts_poseRule node _ _ hx.head).keeps

/-- What evaluation keeps up on this groundwork. -/
abbrev bookUpkeep (answers : List Settlement) (old : List Failure) :
    Upkeep (bookkeeping answers old) :=
  (bookGround answers old).upkeep

private theorem lenient_bookkeeping (answers : List Settlement) (old : List Failure) :
    Lenient (bookkeeping answers old) :=
  fun _ _ _ _ _ => trivial

private theorem scope_bookUpkeep (answers : List Settlement) (old : List Failure) :
    (bookUpkeep answers old).Scope tele locals s k :=
  ⟨trivial, fun _ _ => ⟨all_trivial _, all_trivial _⟩⟩

private theorem conducts_eval (e : Expr) : Conducts [] (eval tele locals e) s k fun _ => True :=
  .of_keeps fun answers old => (Upkeep.keeps_eval (scope_bookUpkeep answers old) e
    (.inl (lenient_bookkeeping answers old))).mono fun _ _ _ _ _ => trivial

private theorem conducts_openForAll (id : NodeId) (type : Expr) :
    Conducts [] (openForAll tele locals id type) s k fun _ => True :=
  .of_keeps fun answers old =>
    (Upkeep.keeps_openForAll (scope_bookUpkeep answers old) id type
      (.inl (lenient_bookkeeping answers old))).mono fun _ _ _ _ _ => trivial

private theorem conducts_openRule (id : NodeId) (pattern : Pat) (subclauses : List Subclause)
    (captures : Nat) :
    Conducts [] (openRule tele locals id pattern subclauses captures) s k
      fun out => ∀ p, out = .ok p → ∃ head, p.1.head = .decl head := by
  refine .of_keeps fun answers old => (Upkeep.keeps_openRule (U := bookUpkeep answers old) trivial
    (scope_bookUpkeep answers old) id pattern subclauses captures
      (.inl (lenient_bookkeeping answers old))).mono ?_
  exact fun out _ _ _ hout p heq => (hout p.1 p.2 heq).1.head

/-! ### Commands -/

mutual

/-- The failures of the rule commands that are rejected when a command runs, in order. -/
def rejections (tele : Telescope) (locals : List TypedTerm) (s : Session) (k : Kernel) :
    Command → List Failure
  | .forAll id type commands =>
    match openForAll tele locals id type s k with
    | .ok ((inner, bound), s1) k1 => allRejections inner bound s1 k1 commands
    | .error _ _ => []
  | .rule id pattern subclauses captures commands _ =>
    match openRule tele locals id pattern subclauses captures s k with
    | .ok (.error f, _) _ => [f]
    | .ok (.ok (x, bound), s1) k1 => allRejections x.telescope bound s1 k1 commands
    | .error _ _ => []
  | _ => []

/-- The failures of the rule commands that are rejected when commands run. -/
def allRejections (tele : Telescope) (locals : List TypedTerm) (s : Session) (k : Kernel) :
    List Command → List Failure
  | [] => []
  | c :: rest =>
    rejections tele locals s k c ++
      match runCommand tele locals c s k with
      | .ok (locals1, s1) k1 => allRejections tele locals1 s1 k1 rest
      | .error _ _ => []

end

private theorem conducts_ruleFree {c : Command} (hc : c.ruleFree = true) :
    Conducts [] (runCommand tele locals c) s k fun _ => True :=
  .of_keeps fun answers old =>
    (Upkeep.keeps_runCommand (scope_bookUpkeep answers old) c (.inr hc)
      (.inl (lenient_bookkeeping answers old))).mono fun _ _ _ _ _ => trivial

mutual

private theorem conducts_runCommand (tele : Telescope) (locals : List TypedTerm) (c : Command)
    (s : Session) (k : Kernel) :
    Conducts (rejections tele locals s k c) (runCommand tele locals c) s k fun _ => True := by
  match c with
  | .hole .. | .declare .. | .postulate .. | .define .. | .check .. => exact conducts_ruleFree rfl
  | .forAll id type commands =>
    rw [runCommand_forAll, rejections]
    refine .bindAt (conducts_openForAll id type) ?_
    rintro ⟨inner, bound⟩ s1 k1 hopen _
    rw [hopen]
    dsimp only
    rw [← append_nil (allRejections ..)]
    exact .andThen (conducts_runCommands inner bound commands s1 k1) fun _ _ _ _ _ => .pure trivial
  | .rule id pattern subclauses captures commands replacement =>
    rw [runCommand_rule, rejections]
    refine .bindAt (conducts_openRule id pattern subclauses captures) ?_
    intro out s1 k1 hopen hhead
    rw [hopen]
    match out with
    | .error f =>
      dsimp only
      rw [← append_nil [f]]
      exact .andThen (.report f) fun _ _ _ _ _ => .pure trivial
    | .ok (x, bound) =>
      have hx := hhead _ rfl
      dsimp only at hx ⊢
      rw [← append_nil (allRejections ..)]
      refine .andThen (conducts_runCommands x.telescope bound commands s1 k1)
        fun inner _ _ _ _ => ?_
      refine .bind (conducts_eval replacement) fun v _ _ _ => ?_
      exact .bind (conducts_poseRule id x v hx) fun _ _ _ _ => .pure trivial

private theorem conducts_runCommands (tele : Telescope) (locals : List TypedTerm)
    (commands : List Command)
    (s : Session) (k : Kernel) :
    Conducts (allRejections tele locals s k commands) (runCommands tele locals commands) s k
      fun _ => True := by
  match commands with
  | [] => exact .pure trivial
  | c :: rest =>
    rw [runCommands_cons, allRejections]
    refine .andThen (conducts_runCommand tele locals c s k) fun locals1 s1 k1 hrun _ => ?_
    rw [hrun]
    exact conducts_runCommands tele locals1 rest s1 k1

end

end Evaluator

open Bool Outcome

/-- The failures of the rule commands that are rejected when a program is evaluated. -/
def Program.rejections (p : Program) (s : Session) (k : Kernel) : List Failure :=
  match Telescope.root k with
  | .ok tele k1 => Evaluator.allRejections tele [] s k1 p.commands
  | .error _ _ => []

/-- The failures of the rule commands that are rejected on an errand. -/
def Errand.rejections (s : Session) (k : Kernel) : Errand → List Failure
  | elaborate p => p.rejections s k
  | _ => []

/-- What a session that was not finished may come to, with all events since it started and the
failures of rejected rule commands. The kernel may change in between. -/
inductive Session.Account : List Event → List Failure → Session → Prop where
  | initial (k : Kernel) : Account [] [] (.initial k)
  | perform {events new : List Event} {rejected : List Failure} {s s' : Session} {k k' : Kernel}
    (e : Errand) : e ≠ .finish → Account events rejected s → e.perform s k = .ok ((), s') k' →
    k'.journal = new ++ k.journal → Account (new ++ events) (rejected ++ e.rejections s k) s'

variable {answers : List Settlement} {rejected : List Failure} {s s' : Session} {k : Kernel}

/-! ### Errands -/

private theorem Evaluator.conducts_evalProgram (p : Program) :
    Conducts (p.rejections s k) (evalProgram p) s k fun _ => True := by
  rw [evalProgram_eq, Program.rejections]
  have hsilent := silence_of_ends (x := Telescope.root) (Quiet.refl k.journal) fun _ _ => trivial
  refine .bindAt (.lift hsilent) fun tele s1 k1 hroot _ => ?_
  cases hroot
  change Conducts (allRejections _ [] s _ p.commands) _ s _ _
  rw [← append_nil (allRejections ..)]
  refine .andThen (conducts_runCommands _ [] p.commands _ _) fun locals _ _ _ _ => ?_
  refine .bind (conducts_eval p.value) fun v _ _ _ => ?_
  exact .bind (.lift (silentFooting.note rfl)) fun _ _ _ _ => .pure trivial

namespace SessionM

private theorem books_run (hs : s.Books answers rejected) :
    EndsWith (onStore run) s k (fun _ s' k' => ∃ new, k'.journal = new ++ k.journal ∧
      s'.Books (answersIn new ++ answers) rejected) fun _ _ => True := by
  cases hok : run s.store { k with journal := [] } with
  | error e k' =>
    unfold EndsWith Ends onStore
    rw [hok]
    trivial
  | ok p k' =>
    obtain ⟨_, store⟩ := p
    obtain ⟨recorded, hrecorded, hsession⟩ := onStore_eq_ok hok
    obtain ⟨hheard, hposed⟩ := hs.perform k'.names (r := .run) rfl (fun _ => nofun) hok rfl
    obtain ⟨new, hnew, hdecided⟩ := (Decisive.run s.store _).of_ok hok
    rw [append_nil] at hnew
    refine (Ends.iff_of_ok hsession).2 ⟨recorded, rfl, ?_⟩
    rw [hrecorded]
    refine ⟨hheard, hposed, fun a ha => ?_⟩
    exact (mem_append.1 ha).elim (fun ha => hdecided a (hnew ▸ ha)) (hs.decided a)

private theorem books_elaborate (p : Program) (hs : s.Books answers rejected) :
    EndsWith (elaborate p) s k (fun _ s' k' => ∃ new, k'.journal = new ++ k.journal ∧
      s'.Books (answersIn new ++ answers) (rejected ++ p.rejections s k)) fun _ _ => True := by
  unfold elaborate
  refine seq (Evaluator.conducts_evalProgram p answers rejected hs) ?_
  rintro v s1 k1 ⟨hs1, ⟨evaluating, hevaluating, hunanswered⟩, _⟩
  refine seq (books_run hs1) ?_
  rintro _ s2 k2 ⟨running, hrunning, hs2⟩
  rw [bind_iff, get_iff, bind_iff, lift_iff, ends_note]
  refine ⟨.elaborated s2.failures.length s2.store.pending :: running ++ evaluating, ?_, ?_⟩
  · rw [hrunning, hevaluating, ← append_assoc]
    rfl
  · rw [answersIn_append, hunanswered, append_nil]
    exact hs2

private theorem books_declarePostulate (name : String) (type : Term)
    (hs : s.Books answers rejected) :
    EndsWith (declarePostulate name type) s k (fun _ s' k' => k'.journal = k.journal ∧
      s'.Books answers rejected) fun _ _ => True := by
  unfold declarePostulate freshPostulate
  rw [bind_iff, lift_iff, Ends.bind_iff, ends_freshSymbol, Ends.pure_iff, bind_iff, lift_iff]
  refine ends_setType (fun _ => ?_) trivial
  rw [bind_iff, lift_iff]
  exact ends_setName fun _ => ⟨rfl, hs.congr rfl rfl rfl⟩

end SessionM

private theorem Errand.books_perform (e : Errand) (he : e ≠ .finish)
    (hs : s.Books answers rejected) :
    EndsWith e.perform s k (fun _ s' k' => ∃ new, k'.journal = new ++ k.journal ∧
      s'.Books (answersIn new ++ answers) (rejected ++ e.rejections s k)) fun _ _ => True := by
  cases e with
  | embed v => exact ⟨[], rfl, (append_nil rejected).symm ▸ hs.congr rfl rfl rfl⟩
  | postulate name type =>
    refine seq (books_declarePostulate name type hs) ?_
    rintro _ s' k' ⟨hjournal, hs'⟩
    exact ⟨[], hjournal, (append_nil rejected).symm ▸ hs'⟩
  | elaborate p => exact seq (books_elaborate p hs) fun _ _ _ h => h
  | finish => exact absurd rfl he

private theorem Session.Account.books {events : List Event} (h : Account events rejected s) :
    s.Books (answersIn events) rejected := by
  induction h with
  | initial k => exact books_initial k
  | perform e he _ hok hnew ih =>
    obtain ⟨new', hnew', hbooks⟩ := (e.books_perform he ih).of_ok hok
    cases append_cancel_right (hnew.symm.trans hnew')
    rwa [answersIn_append]

/-! ### Finishing -/

variable {a : Settlement} {reason : Failure.Purpose} {purpose : Purpose}

private theorem Purpose.Tells.isSoft_iff {f : Failure} (h : purpose.Tells a f)
    {node : NodeId} {trace : Trace}
    (hf : f = .unsolved reason node trace) : f.isSoft = true ↔ a.Abandons := by
  have hreport : ∀ (names : Names) (report : Report),
      (report.render names).stalled = true ↔ report.status = .stalled := by
    intro names report
    exact decide_eq_true_iff
  cases h with
  | commitment => cases hf
  | _ => exact hreport _ _

private theorem Purpose.Tells.not_abandons {f : Failure} (h : purpose.Tells a f)
    {node : NodeId} {trace : Trace}
    (hf : f = .unsolved reason node trace) (hdecided : a.Decided) : ¬ a.Abandons := by
  have hstatus : ∀ report : Report, (failed report).Decided → ¬ (failed report).Undecided :=
    fun report h h' => nomatch h.symm.trans h'
  cases h with
  | commitment => cases hf
  | _ => exact hstatus _ hdecided

private theorem Settlement.Abandons.fails (h : a.Abandons) (ha : ∀ n, a.promise ≠ .commitment n)
    (answers : List Settlement) : a.fails answers := by
  cases a with
  | commitment id installed => exact absurd rfl (ha id)
  | _ =>
    rw [Settlement.fails, Undecided.isSolved h]
    rfl

private theorem Settlement.succeeds_of_not_fails (h : a.fails answers = false) : a.succeeds := by
  cases a with
  | commitment => rfl
  | _ => exact not_eq_false' .. ▸ h

namespace Session

/-- What closing the store answers, and what the session hears. -/
structure Closes (answers : List Settlement) (rejected : List Failure) (s : Session)
    (closing : List Settlement) (s' : Session) : Prop where
  heard : s'.Heard (closing ++ answers) rejected
  abandons : ∀ a ∈ closing, a.promise ∉ answers.map Settlement.promise ∧ a.Abandons
  kept : ((closing ++ answers).map Settlement.promise).Perm (promisedIn s.purposes)
  purposes : ∀ a f, CallsFor s'.purposes a f ↔ CallsFor s.purposes a f
  failures : ∃ more, s'.failures = s.failures ++ more
  same : closing = [] → s'.failures = s.failures

private theorem Books.closes (hs : s.Books answers rejected) (k : Kernel) :
    ∃ s' k' closing, onStore close s k = .ok ((), s') k' ∧
      k'.journal = closing ++ k.journal ∧ Closes answers rejected s (answersIn closing) s' := by
  obtain ⟨log, events, hhistory, hanswers, hperm, hrules⟩ := hs.history
  have hclose := hhistory.answered_once_of_close { k with journal := [] }
  cases hok : close s.store { k with journal := [] } with
  | error e k' =>
    obtain ⟨id, q, hq, hhead, _⟩ := hclose.of_error hok
    obtain ⟨head, hdecl⟩ := hrules id q hq
    exact absurd hdecl (hhead head)
  | ok p k' =>
    obtain ⟨_, store⟩ := p
    obtain ⟨closing, hclosing, hcount, habandons, _⟩ := hclose.of_ok hok
    rw [append_nil] at hclosing
    obtain ⟨recorded, hrecorded, hsession⟩ := onStore_eq_ok hok
    obtain ⟨hheard, _⟩ := hs.perform k'.names (r := .close) rfl (fun _ => nofun) hok rfl
    rw [← hrecorded] at hheard hsession
    refine ⟨_, _, recorded, hsession, rfl, hheard, fun a ha => ?_, ?_, fun a f => ?_,
      failures_hearAll _, fun hnone => ?_⟩
    · rw [hrecorded, hclosing] at ha
      obtain ⟨hfresh, habandons⟩ := habandons a (mem_answersIn.1 ha)
      rw [← hanswers, map_promise_answersIn]
      exact ⟨hfresh, habandons⟩
    · refine Perm.trans (perm_iff_count.2 fun p => ?_) hperm
      rw [hrecorded, hclosing, ← hanswers, ← answersIn_append, map_promise_answersIn, hcount,
        hhistory.balanced.nodup.count]
    · exact callsFor_hearAll _
    · rw [hnone]
      rfl

private theorem Closes.failures_eq_nil_iff {closing : List Settlement}
    (h : Closes answers rejected s closing s') (hs : s.Books answers rejected) :
    s'.failures = [] ↔ s.isSolved = true := by
  obtain ⟨log, events, hhistory, rfl, hperm, _⟩ := hs.history
  have hbalanced := hhistory.balanced
  have hcounted := (hhistory.lasts Store.lasts_tallied).counted
  rw [isSolved, Store.isSolved, and_eq_true, and_eq_true, decide_eq_true_iff,
    Table.isEmpty, List.isEmpty_iff, List.isEmpty_iff]
  constructor
  · intro hnone
    obtain ⟨matched, hfailures, hanswers, _⟩ := h.heard.matched
    rw [hnone, nil_perm, append_eq_nil_iff, map_eq_nil_iff] at hfailures
    obtain ⟨_, rfl⟩ := hfailures
    have hsucceed : ∀ a ∈ closing ++ answersIn events,
        a.fails (closing ++ answersIn events) = false := by
      intro a ha
      refine eq_false_iff.2 fun hfails => ?_
      cases hanswers.mem_iff.2 (mem_filter.2 ⟨ha, hfails⟩)
    obtain ⟨more, hmore⟩ := h.failures
    refine ⟨(append_eq_nil_iff.1 (hmore.symm.trans hnone)).1, hcounted.2 fun a ha => ?_, ?_⟩
    · exact Settlement.succeeds_of_not_fails (hsucceed a (mem_append_right _ (mem_answersIn.2 ha)))
    · -- an obligation that is left is answered as undecided, which is a failure
      refine Table.entries_eq_nil fun id => Option.eq_none_iff_forall_ne_some.2 fun o ho => ?_
      obtain ⟨p, hp, hcommitment⟩ := Store.exists_mem_promises hbalanced.ordered ho
      cases Store.obligation_of_mem_promises hp
      obtain ⟨x, hx, hmem⟩ := hbalanced.exists_request (.inr hp)
      have hpromised : p ∈ promisedIn s.purposes :=
        hperm.mem_iff.1 (mem_flatMap.2 ⟨x, hx, hmem⟩)
      obtain ⟨a, ha, rfl⟩ := mem_map.1 (h.kept.mem_iff.2 hpromised)
      obtain hclosing | hbefore := mem_append.1 ha
      · have hfails := (h.abandons a hclosing).2.fails hcommitment (closing ++ answersIn events)
        cases (hsucceed a ha).symm.trans hfails
      · exact hbalanced.not_answered hp (mem_answersIn.1 hbefore)
  · rintro ⟨hnone, _, hempty⟩
    rw [h.same, hnone]
    refine eq_nil_iff_forall_not_mem.2 fun a ha => (h.abandons a ha).1 ?_
    have hpromised : a.promise ∈ promisedIn s.purposes :=
      h.kept.mem_iff.1 (mem_map_of_mem (mem_append_left _ ha))
    obtain ⟨b, hb, heq⟩ := hbalanced.exists_answer hempty (hperm.mem_iff.2 hpromised)
    exact heq ▸ mem_map_of_mem (mem_answersIn.2 hb)

/-- Finishing a session returns every failure once. All obligations that were posed are answered by
then, each part once. The failures are those of the rejected rule commands and one for each answer
that is a failure of its own, as it was posed for; and there is none exactly if the session was
solved. The failure of an equation is soft exactly if it was answered on finishing only. -/
theorem Account.finish_reports {events : List Event} (h : Account events rejected s) (k : Kernel) :
    ∃ failures s' k' closing, SessionM.finish s k = .ok (failures, s') k' ∧
      k'.journal = closing ++ k.journal ∧ (failures = [] ↔ s.isSolved = true) ∧
      ((answersIn (closing ++ events)).map Settlement.promise).Perm (promisedIn s.purposes) ∧
      ∃ matched : List (Settlement × Failure),
        failures.Perm (rejected ++ matched.map Prod.snd) ∧
        (matched.map Prod.fst).Perm ((answersIn (closing ++ events)).filter
          (Settlement.fails (answersIn (closing ++ events)))) ∧
        ∀ x ∈ matched, CallsFor s.purposes x.1 x.2 ∧
          ∀ purpose node trace, x.2 = .unsolved purpose node trace →
            (x.2.isSoft = true ↔ x.1 ∈ answersIn closing) := by
  have hbooks := h.books
  obtain ⟨s1, k1, closing, hclose, hjournal, hcloses⟩ := hbooks.closes k
  obtain ⟨matched, hfailures, hanswers, hcalls⟩ := hcloses.heard.matched
  have hall : answersIn (.finished s1.failures.length :: closing ++ events) =
      answersIn closing ++ answersIn events := answersIn_append ..
  have hfinish : finish s k = .ok (s1.failures, { s1 with embeds := [], failures := [] })
      { k1 with journal := .finished s1.failures.length :: k1.journal } := by
    refine EndsWith.eq_ok ?_
    unfold SessionM.finish
    rw [EndsWith.bind_iff]
    exact (Ends.iff_of_ok hclose).2 ⟨rfl, rfl, rfl⟩
  refine ⟨_, _, _, .finished s1.failures.length :: closing, hfinish, ?_,
    hcloses.failures_eq_nil_iff hbooks, hall ▸ hcloses.kept, matched, hfailures, hall ▸ hanswers,
    fun x hx => ?_⟩
  · rw [hjournal, cons_append]
  · have hcallsFor := (hcloses.purposes _ _).1 (hcalls x hx)
    refine ⟨hcallsFor, fun reason node trace hf => ?_⟩
    obtain ⟨purpose, _, htells⟩ := hcallsFor
    rw [htells.isSoft_iff hf]
    refine ⟨fun habandons => ?_, fun hclosing => (hcloses.abandons _ hclosing).2⟩
    have hmem := (mem_filter.1 (hanswers.mem_iff.1 (mem_map_of_mem hx))).1
    refine (mem_append.1 hmem).resolve_right fun hbefore => ?_
    exact htells.not_abandons hf (hbooks.decided _ hbefore) habandons

private theorem exists_account (start : Kernel) {p : Program}
    (h : (Errand.elaborate p).perform (.initial start) start = .ok ((), s) k) :
    ∃ events, Account events (p.rejections (.initial start) start) s := by
  obtain ⟨new, hnew, _⟩ :=
    ((Errand.elaborate p).books_perform nofun (books_initial start)).of_ok h
  exact ⟨new ++ [], .perform (.elaborate p) nofun (.initial start) h hnew⟩

/-- A rule for a postulate is rejected, an equation fails, another one is never decided, and the
second of two rules is refused though nothing failed. -/
def fourFailures : Program where
  commands :=
    [.postulate 0 (.type 1), .postulate 2 (.type 3), .declare 4 (.type 5), .declare 6 (.type 7),
      .rule 8 (.var 9 0) [] 0 [] (.var 10 1), .check 11 (.var 12 0) none (some (.var 13 1)) true,
      .check 14 (.var 15 2) none (some (.var 16 0)) false, .rule 17 (.var 18 3) [] 0 [] (.var 19 0),
      .rule 20 (.var 21 3) [] 0 [] (.var 22 1)]
  value := .type 23

/-- Four failures are returned, of which one is soft. -/
theorem finish_reports_fourFailures : ∃ events rejected s k failures s' k' closing,
    Account events rejected s ∧ SessionM.finish s k = .ok (failures, s') k' ∧
      k'.journal = closing ++ k.journal ∧ rejected.length = 1 ∧ failures.length = 4 ∧
      (failures.filter Failure.isSoft).length = 1 ∧ (failures = [] ↔ s.isSolved = true) ∧
      ((answersIn (closing ++ events)).map Settlement.promise).Perm (promisedIn s.purposes) ∧
      ∃ matched : List (Settlement × Failure),
        failures.Perm (rejected ++ matched.map Prod.snd) ∧
        (matched.map Prod.fst).Perm ((answersIn (closing ++ events)).filter
          (Settlement.fails (answersIn (closing ++ events)))) := by
  obtain ⟨⟨⟨⟩, s⟩, k, hperform, hrejected, y, k', hfinished, hlength, hsoft⟩ :
      ∃ x k, (Errand.elaborate fourFailures).perform (.initial Kernel.initial) Kernel.initial =
        .ok x k ∧ (fourFailures.rejections (.initial Kernel.initial) Kernel.initial).length = 1 ∧
      ∃ y k', finish x.2 k = .ok y k' ∧ y.1.length = 4 ∧
        (y.1.filter Failure.isSoft).length = 1 := by decide +kernel
  obtain ⟨events, haccount⟩ := exists_account Kernel.initial hperform
  obtain ⟨failures, s', k', closing, hfinish, hjournal, hsolved, hkept, matched, hmatched, hfails,
    _⟩ := haccount.finish_reports k
  cases hfinished.symm.trans hfinish
  exact ⟨_, _, s, k, failures, s', k', closing, haccount, hfinish, hjournal, hrejected, hlength,
    hsoft, hsolved, hkept, matched, hmatched, hfails⟩

end Session
end Elaboration
